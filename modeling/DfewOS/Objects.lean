import DfewOS.Calls

/-!
# What a step does to the semaphores and message queues

A call on a mutex or on tasks leaves them alone, and so do a tick and the return
of a task. What is left is the call on a semaphore or a message queue that a step
goes through.
-/

namespace DfewOS
open Transition (Reachable)

def Call.OnObject : Call → Prop
  | .semBInit _ | .semBTake .. | .semBGive _ | .semBFlush _ | .semBDelete _ => True
  | .semCInit .. | .semCTake .. | .semCGive _ | .semCFlush _ | .semCDelete _ => True
  | .msgQInit .. | .msgQSend .. | .msgQReceive .. | .msgQDelete _ => True
  | _ => False

def Call.OnSemB : Call → Prop
  | .semBInit _ | .semBTake .. | .semBGive _ | .semBFlush _ | .semBDelete _ => True
  | _ => False

def Call.OnSemC : Call → Prop
  | .semCInit .. | .semCTake .. | .semCGive _ | .semCFlush _ | .semCDelete _ => True
  | _ => False

def Call.Retries : Call → Prop
  | .semBTake .. | .semCTake .. | .msgQSend .. | .msgQReceive .. => True
  | _ => False

def Call.retry (timeout : ℕ) : Call → Call
  | .semBTake s _ => .semBTake s timeout
  | .semCTake s _ => .semCTake s timeout
  | .msgQSend q buffer bufLen _ => .msgQSend q buffer bufLen timeout
  | .msgQReceive q buffer bufLen _ => .msgQReceive q buffer bufLen timeout
  | c => c

def Call.failure : Call → Result
  | .msgQReceive _ buffer _ _ => .received .error buffer
  | _ => .status .error

def Rest.OnObject : Rest → Prop
  | .unlistSemB _ | .unlistSemC _ => True
  | _ => False

def Rest.Of (x : Rest) : Call → Prop
  | .taskCreate .. => ¬ x.OnObject
  | .semBDelete s => x = .unlistSemB s
  | .semCDelete s => x = .unlistSemC s
  | _ => False

theorem Rest.Of.not_onObject {x : Rest} {c : Call} (h : x.Of c) (hc : ¬ c.OnObject) :
    ¬ x.OnObject := by
  cases c
  case taskCreate => exact h
  all_goals first | exact absurd trivial hc | exact h.elim

namespace Kernel

/-- The message queues are as before, and the calls that tasks are inside of; a task that is
just created is inside none. -/
def SameQueues (k k' : Kernel) : Prop :=
  k'.msgQ = k.msgQ ∧ k'.msgQList = k.msgQList ∧ ∀ t, k'.pc t = k.pc t ∨ k'.pc t = .user

def SameObjects (k k' : Kernel) : Prop :=
  (k'.semB = k.semB ∧ k'.semBList = k.semBList) ∧ (k'.semC = k.semC ∧ k'.semCList = k.semCList) ∧
    SameQueues k k'

variable {k k' k'' : Kernel} {cur t : TcbPtr} {m : ObjPtr} {c : Call} {a : Act}
  {r : Kernel × Outcome} {d : Option (Call × Result)}

theorem SameQueues.refl (k : Kernel) : SameQueues k k := ⟨rfl, rfl, fun _ => Or.inl rfl⟩

theorem SameQueues.trans (h : SameQueues k k') (h' : SameQueues k' k'') : SameQueues k k'' := by
  refine ⟨h'.1.trans h.1, h'.2.1.trans h.2.1, fun t => ?_⟩
  rcases h'.2.2 t with he | hu
  · rw [he]
    exact h.2.2 t
  · exact Or.inr hu

theorem SameObjects.refl (k : Kernel) : SameObjects k k := ⟨⟨rfl, rfl⟩, ⟨rfl, rfl⟩, .refl k⟩

theorem SameObjects.trans (h : SameObjects k k') (h' : SameObjects k' k'') : SameObjects k k'' :=
  ⟨⟨h'.1.1.trans h.1.1, h'.1.2.trans h.1.2⟩, ⟨h'.2.1.1.trans h.2.1.1, h'.2.1.2.trans h.2.1.2⟩,
    h.2.2.trans h'.2.2⟩

theorem upOwnerPri_objects {n : ℕ} {w : TcbPtr} (h : upOwnerPri n k w m = some k') :
    SameObjects k k' := by
  refine upOwnerPri_rel (R := SameObjects) .refl (fun h h' => h.trans h') (fun _ _ _ => .refl _)
    (fun _ _ _ => .refl _) (fun k m p => ?_) h
  rw [askPri_rest]
  exact .refl _

theorem updateWaitPri_objects (k : Kernel) (m : ObjPtr) : SameObjects k (k.updateWaitPri m) := by
  rw [updateWaitPri]
  cases (k.ts.dl.list (.semM m)).head <;> exact .refl _

theorem lowerMyself_objects (k : Kernel) (cur : TcbPtr) : SameObjects k (k.lowerMyself cur).1 := by
  simp only [lowerMyself]
  split_ifs <;> exact .refl _

theorem semMTake_objects {timeout : ℕ} {r : Kernel × Outcome}
    (h : k.semMTake cur m timeout = some r) : SameObjects k r.1 := by
  rw [semMTake] at h
  split_ifs at h
  · obtain rfl := Option.some.inj h
    exact .refl _
  · obtain rfl := Option.some.inj h
    exact .refl _
  · obtain ⟨k₁, hup, h⟩ := Option.bind_eq_some_iff.mp h
    obtain ⟨ts, -, h⟩ := Option.bind_eq_some_iff.mp h
    obtain rfl := Option.some.inj h
    have hboost := upOwnerPri_objects hup
    exact hboost
  · obtain rfl := Option.some.inj h
    exact .refl _

theorem semMGive_objects (k : Kernel) (cur : TcbPtr) (m : ObjPtr) :
    SameObjects k (k.semMGive cur m).1 := by
  simp only [semMGive]
  split_ifs
  · exact .refl _
  · split
    · refine SameObjects.trans ?_ (lowerMyself_objects _ cur)
      exact .refl k
    · refine SameObjects.trans ?_ (lowerMyself_objects _ cur)
      refine SameObjects.trans ?_ (updateWaitPri_objects _ m)
      exact .refl k

theorem freeSemM_objects (t : TcbPtr) (k : Kernel) (m : ObjPtr) : SameObjects k (freeSemM t k m) := by
  simp only [freeSemM]
  split_ifs
  · split
    · exact .refl _
    · refine SameObjects.trans ?_ (updateWaitPri_objects _ m)
      exact .refl k
  · exact .refl _

theorem semMFree_objects (k : Kernel) (t : TcbPtr) : SameObjects k (k.semMFree t) := by
  rw [semMFree]
  generalize k.semMList = ms
  induction ms generalizing k with
  | nil => exact .refl k
  | cons m ms ih => exact (freeSemM_objects t k m).trans (ih _)

theorem unlinkTask_objects (h : k.unlinkTask t = some k') : SameObjects k k' := by
  rw [unlinkTask] at h
  cases hs : (k.ts.tcb t).status <;> rw [hs] at h
  case ready => obtain rfl := Option.some.inj h; exact .refl _
  case delay => obtain rfl := Option.some.inj h; exact .refl _
  case pendSemM =>
    obtain ⟨m, -, rfl⟩ := Option.map_eq_some_iff.mp h
    have hpri := updateWaitPri_objects { k with ts := k.ts.dlistRemove (.semM m) t } m
    exact hpri
  all_goals
    obtain ⟨o, -, rfl⟩ := Option.map_eq_some_iff.mp h
    exact .refl _

theorem taskDelete_objects {r : Kernel × Outcome} (h : k.taskDelete t = some r) :
    SameObjects k r.1 := by
  obtain ⟨k₁, hrun, rfl⟩ := Option.map_eq_some_iff.mp h
  exact (unlinkTask_objects hrun).trans (semMFree_objects k₁ t)

theorem taskCreate_objects {stackSize priority : ℕ} {r : Kernel × Outcome}
    (h : k.taskCreate stackSize priority = r) : SameObjects k r.1 := by
  rcases taskCreate_cases h with ⟨hk, -⟩ | ⟨_, _, -, -, -, -, -, hk⟩
  · rw [hk]
    exact .refl k
  · rw [hk]
    exact .refl k

theorem go_objects (k : Kernel) {x : Rest} (hx : ¬ x.OnObject) : SameObjects k (k.go x).1 := by
  cases x with
  | allocStack p =>
    obtain ⟨k', o, he⟩ : ∃ k' o, k.taskCreateStack p = (k', o) := ⟨_, _, rfl⟩
    obtain ⟨-, _, -, -, hk⟩ := taskCreateStack_cases he
    rw [show k.go (.allocStack p) = (k', o) from he, hk]
    exact .refl k
  | linkTask p =>
    refine ⟨⟨rfl, rfl⟩, ⟨rfl, rfl⟩, rfl, rfl, fun t => ?_⟩
    by_cases ht : t = p
    · subst ht
      exact Or.inr (Function.update_self ..)
    · exact Or.inl (Function.update_of_ne ht ..)
  | releaseTcb => exact .refl k
  | _ => exact absurd trivial hx

theorem enter_objects (hc : ¬ c.OnObject) (h : k.enter cur c = some r) : SameObjects k r.1 := by
  cases c <;> simp only [enter, Option.some.injEq] at h
  case taskCreate stackSize priority => exact taskCreate_objects h
  case taskDelete t => exact taskDelete_objects h
  case delayQDelay ticks =>
    rw [← h, delayQDelay]
    split_ifs <;> exact .refl k
  case semMInit m => rw [← h]; exact .refl k
  case semMTake m timeout => exact semMTake_objects h
  case semMGive m => rw [← h]; exact semMGive_objects k cur m
  all_goals exact absurd trivial hc

theorem resume_objects (hc : ¬ c.OnObject) (h : k.resume cur c = some r) : SameObjects k r.1 := by
  cases c <;> simp only [resume, Option.some.injEq, reduceCtorEq] at h
  case delayQDelay => rw [← h]; exact .refl k
  case semMGive => rw [← h]; exact .refl k
  case semMTake =>
    rw [semMResume] at h
    split_ifs at h <;> (rw [← h]; exact .refl k)
  all_goals exact absurd trivial hc

theorem tickAnnounce_fields (h : k.tickAnnounce cur = some k') :
    k' = { k with ts := k'.ts, ticks := inc32 k.ticks } := by
  simp only [tickAnnounce, Option.bind_eq_bind, Option.bind_eq_some_iff, Option.some.injEq] at h
  obtain ⟨_, -, _, -, _, -, _, -, _, -, rfl⟩ := h
  rfl

theorem bootCall_enter {x : Result} (hc : c.OnObject) (h : k.bootCall c = some (k', x)) :
    k.enter DfewOS.idle c = some (k', .ret x) := by
  have hret : ∀ {r : Kernel × Outcome}, runSections 0 r = some (k', x) →
      some r = some (k', .ret x) := by
    rintro ⟨k₁, o⟩ hr
    cases o <;> simp [runSections] at hr
    rw [hr.1, hr.2]
  cases c
  case semBInit s => exact hret h
  case semCInit s i n => exact hret h
  case msgQInit q n l => exact hret h
  case taskCreate => exact hc.elim
  case semMInit => exact hc.elim
  all_goals exact absurd h (by simp [bootCall])

theorem runSections_objects {n : ℕ} {x : Result} (hr : ∀ y, r.2 = .unlock y → ¬ y.OnObject)
    (hgo : ∀ (k : Kernel) y z, ¬ y.OnObject → (k.go y).2 = .unlock z → ¬ z.OnObject)
    (h : runSections n r = some (k', x)) : SameObjects r.1 k' := by
  induction n generalizing r with
  | zero =>
    obtain ⟨k₁, o⟩ := r
    cases o <;> simp [runSections] at h
    rw [h.1]
    exact .refl k'
  | succ n ih =>
    obtain ⟨k₁, o⟩ := r
    cases o with
    | ret y =>
      simp only [runSections, Option.some.injEq, Prod.mk.injEq] at h
      rw [h.1]
      exact .refl k'
    | switch => simp [runSections] at h
    | unlock y =>
      have hy := hr y rfl
      exact (k₁.go_objects hy).trans (ih (fun z hz => hgo k₁ y z hy hz) h)

theorem go_unlock {x y : Rest} (hx : ¬ x.OnObject) (h : (k.go x).2 = .unlock y) :
    ¬ y.OnObject := by
  cases x with
  | allocStack p =>
    obtain ⟨k', o, he⟩ : ∃ k' o, k.taskCreateStack p = (k', o) := ⟨_, _, rfl⟩
    rw [show k.go (.allocStack p) = (k', o) from he] at h
    rcases (taskCreateStack_cases he).1 with rfl | rfl
    · obtain rfl := Outcome.unlock.inj h
      exact fun hf => hf
    · obtain rfl := Outcome.unlock.inj h
      exact fun hf => hf
  | linkTask p => exact absurd h (by simp [go, taskCreateLink])
  | releaseTcb p => exact absurd h (by simp [go])
  | _ => exact absurd trivial hx

theorem bootCall_objects {x : Result} (hc : ¬ c.OnObject) (h : k.bootCall c = some (k', x)) :
    SameObjects k k' := by
  cases c
  case taskCreate stackSize priority =>
    obtain ⟨k₁, o, he⟩ : ∃ k₁ o, k.taskCreate stackSize priority = (k₁, o) := ⟨_, _, rfl⟩
    have hrun : runSections 2 (k.taskCreate stackSize priority) = some (k', x) := h
    refine (taskCreate_objects rfl).trans (runSections_objects ?_ (fun _ _ _ => go_unlock) hrun)
    intro y hy
    rw [he] at hy
    rcases taskCreate_cases he with ⟨-, rfl⟩ | ⟨p, v, -, rfl, -⟩
    · exact absurd hy (by simp)
    · obtain rfl := Outcome.unlock.inj hy
      exact fun hf => hf
  case semMInit m =>
    have hsame : SameObjects k (k.semMInit m).1 := .refl k
    have hrun : runSections 0 (k.semMInit m) = some (k', x) := h
    exact hsame.trans (runSections_objects (fun y hy => absurd hy (by simp [semMInit]))
      (fun _ _ _ => go_unlock) hrun)
  all_goals first | exact absurd trivial hc | exact absurd h (by simp [bootCall])

theorem enter_of {y : Rest} (he : k.enter cur c = some (k', .unlock y)) : y.Of c := by
  have hsplit := enter_splits he
  cases c <;> simp only [Call.Splits] at hsplit
  case taskCreate stackSize priority =>
    rcases taskCreate_cases (Option.some.inj he) with ⟨-, ho⟩ | ⟨p, v, -, ho, -⟩
    · exact absurd ho (by simp)
    · obtain rfl := Outcome.unlock.inj ho
      exact fun hf => hf
  case semBDelete s =>
    obtain ⟨_, -, hk⟩ := Option.map_eq_some_iff.mp he
    exact (Outcome.unlock.inj (Prod.mk.inj hk).2).symm
  case semCDelete s =>
    obtain ⟨_, -, hk⟩ := Option.map_eq_some_iff.mp he
    exact (Outcome.unlock.inj (Prod.mk.inj hk).2).symm

theorem go_of {x y : Rest} (hx : x.Of c) (h : (k.go x).2 = .unlock y) : y.Of c := by
  cases c
  case taskCreate => exact go_unlock hx h
  case semBDelete =>
    rw [show x = _ from hx] at h
    exact absurd h (by simp [go])
  case semCDelete =>
    rw [show x = _ from hx] at h
    exact absurd h (by simp [go])
  all_goals exact hx.elim

def ActsOn (k : Kernel) (a : Act) (c : Call) (r : Kernel × Outcome) : Prop :=
  (∃ cur, k.curTcb = some cur ∧ Section k cur a c r) ∨
  (k.curTcb = none ∧ a = .boot c ∧ ∃ x, r.2 = .ret x ∧ k.bootCall c = some (r.1, x))

theorem section_objects (hof : ∀ x, k.pc cur = .unlocked c x → x.Of c) (hc : ¬ c.OnObject)
    (hs : Section k cur a c r) : SameObjects k r.1 := by
  cases hs with
  | call _ he => exact enter_objects hc he
  | resume _ he => exact resume_objects hc he
  | go hpc => exact k.go_objects ((hof _ hpc).not_onObject hc)

theorem exec_objects (hof : ∀ t c x, k.pc t = .unlocked c x → x.Of c)
    (he : k.exec a = some (k', d)) :
    ((∃ k₁, SameObjects k k₁ ∧ k' = { k₁ with pc := k'.pc, curTcb := k'.curTcb }) ∧
      ∀ c x, d = some (c, x) → ¬ c.OnObject) ∨
    ∃ c r, c.OnObject ∧ ActsOn k a c r ∧ k' = { r.1 with pc := k'.pc, curTcb := k'.curTcb } ∧
      d = r.2.result.map fun x => (c, x) := by
  have hloaded : ∀ {k₁ : Kernel}, k₁.loadHighestTask = some k' →
      k' = { k₁ with pc := k'.pc, curTcb := k'.curTcb } := fun hload => by
    rw [loadHighestTask_same hload]
  rcases exec_cases he with ⟨cur, c, r, hcur, hs, hf⟩ | ⟨cur, k₁, hcur, rfl, ht, hload, rfl⟩ |
    ⟨cur, hcur, rfl, hpc, hload, rfl⟩ | ⟨c, x, hcur, rfl, hb, rfl⟩ | ⟨hcur, rfl, hload, rfl⟩
  · have hfin : k' = { r.1.setPc cur (r.2.pc c) with curTcb := k'.curTcb } ∧
        d = r.2.result.map fun x => (c, x) := by
      rcases finish_cases hf with ⟨-, rfl, hd⟩ | ⟨ho, hload, hd⟩
      · exact ⟨rfl, hd⟩
      · exact ⟨loadHighestTask_same hload, by rw [hd, ho]; rfl⟩
    obtain ⟨hk', rfl⟩ := hfin
    have hstate : k' = { r.1 with pc := k'.pc, curTcb := k'.curTcb } := by
      rw [hk']
      rfl
    by_cases hc : c.OnObject
    · exact Or.inr ⟨c, r, hc, Or.inl ⟨cur, hcur, hs⟩, hstate, rfl⟩
    · refine Or.inl ⟨⟨r.1, section_objects (hof cur c) hc hs, hstate⟩, fun c' x hd => ?_⟩
      obtain ⟨y, -, hpair⟩ := Option.map_eq_some_iff.mp hd
      rwa [← (Prod.mk.inj hpair).1]
  · refine Or.inl ⟨⟨k₁, ?_, hloaded hload⟩, fun c x hd => absurd hd (by simp)⟩
    rw [tickAnnounce_fields ht]
    exact .refl k
  · refine Or.inl ⟨⟨k.taskReturn cur, .refl k, hloaded hload⟩, ?_⟩
    exact fun c x hd => absurd hd (by simp)
  · by_cases hc : c.OnObject
    · exact Or.inr ⟨c, (k', .ret x), hc, Or.inr ⟨hcur, rfl, x, rfl, hb⟩, rfl, rfl⟩
    · refine Or.inl ⟨⟨k', bootCall_objects hc hb, rfl⟩, fun c' y hd => ?_⟩
      rwa [← (Prod.mk.inj (Option.some.inj hd)).1]
  · refine Or.inl ⟨⟨k, .refl k, hloaded hload⟩, ?_⟩
    exact fun c x hd => absurd hd (by simp)

section Kinds

theorem flush_some {x : Option Kernel} {o : Outcome}
    (h : (x.map fun k => (k, o)) = some r) : x = some r.1 ∧ r.2 = o := by
  obtain ⟨_, hk, rfl⟩ := Option.map_eq_some_iff.mp h
  exact ⟨hk, rfl⟩

theorem enter_sameSemC (hc : ¬ c.OnSemC) (he : k.enter cur c = some r) :
    r.1.semC = k.semC ∧ r.1.semCList = k.semCList := by
  by_cases ho : c.OnObject
  · cases c <;> simp only [enter, Option.some.injEq] at he
    case semBFlush s =>
      obtain ⟨ts, -, hk⟩ := Option.map_eq_some_iff.mp (flush_some he).1
      rw [← hk]
      exact ⟨rfl, rfl⟩
    case semBDelete s =>
      obtain ⟨ts, -, hk⟩ := Option.map_eq_some_iff.mp (flush_some he).1
      rw [← hk]
      exact ⟨rfl, rfl⟩
    case msgQReceive q buffer bufLen timeout =>
      simp only [msgQReceive] at he
      split_ifs at he
      · cases hm : (k.msgQ q).msgList <;> rw [hm] at he
        · exact absurd he (by simp)
        · rw [← Option.some.inj he]
          exact ⟨rfl, rfl⟩
      · rw [← Option.some.inj he]
        exact ⟨rfl, rfl⟩
      · rw [← Option.some.inj he]
        exact ⟨rfl, rfl⟩
    all_goals first | exact absurd trivial hc | exact ho.elim | skip
    all_goals
      rw [← he]
      simp only [semBInit, semBTake, semBGive, msgQInit, msgQSend, msgQDelete]
      first | exact ⟨rfl, rfl⟩ | (split_ifs <;> exact ⟨rfl, rfl⟩)
  · exact (enter_objects ho he).2.1

theorem enter_sameSemB (hc : ¬ c.OnSemB) (he : k.enter cur c = some r) :
    r.1.semB = k.semB ∧ r.1.semBList = k.semBList := by
  by_cases ho : c.OnObject
  · cases c <;> simp only [enter, Option.some.injEq] at he
    case semCFlush s =>
      obtain ⟨ts, -, hk⟩ := Option.map_eq_some_iff.mp (flush_some he).1
      rw [← hk]
      exact ⟨rfl, rfl⟩
    case semCDelete s =>
      obtain ⟨ts, -, hk⟩ := Option.map_eq_some_iff.mp (flush_some he).1
      rw [← hk]
      exact ⟨rfl, rfl⟩
    case msgQReceive q buffer bufLen timeout =>
      simp only [msgQReceive] at he
      split_ifs at he
      · cases hm : (k.msgQ q).msgList <;> rw [hm] at he
        · exact absurd he (by simp)
        · rw [← Option.some.inj he]
          exact ⟨rfl, rfl⟩
      · rw [← Option.some.inj he]
        exact ⟨rfl, rfl⟩
      · rw [← Option.some.inj he]
        exact ⟨rfl, rfl⟩
    all_goals first | exact absurd trivial hc | exact ho.elim | skip
    all_goals
      rw [← he]
      simp only [semCInit, semCTake, semCGive, msgQInit, msgQSend, msgQDelete]
      first | exact ⟨rfl, rfl⟩ | (split_ifs <;> exact ⟨rfl, rfl⟩)
  · exact (enter_objects ho he).1

/-- Behind `CONTEXT_SWITCH` a take, send or receive starts again with the ticks that are left,
and fails without any; the other calls answer. -/
theorem resume_cases (he : k.resume cur c = some r) :
    (c.Retries ∧ (k.ts.tcb cur).delayTicks ≠ 0 ∧
      k.enter cur (c.retry (k.ts.tcb cur).delayTicks) = some r) ∨
    (c.Retries ∧ (k.ts.tcb cur).delayTicks = 0 ∧ r = (k, .ret c.failure)) ∨
    (¬ c.Retries ∧ ¬ c.OnObject ∧ ∃ ts x, r = ({ k with ts := ts }, .ret x)) := by
  cases c <;> simp only [resume, Option.some.injEq, reduceCtorEq] at he
  case delayQDelay => exact Or.inr (Or.inr ⟨fun h => h, fun h => h, k.ts, _, he.symm⟩)
  case semMGive => exact Or.inr (Or.inr ⟨fun h => h, fun h => h, k.ts, _, he.symm⟩)
  case semMTake =>
    rw [semMResume] at he
    right; right
    split_ifs at he
    · exact ⟨fun h => h, fun h => h, _, _, he.symm⟩
    · exact ⟨fun h => h, fun h => h, k.ts, _, he.symm⟩
  case semBTake =>
    rw [semBResume] at he
    split_ifs at he with hd
    · exact Or.inl ⟨trivial, hd, congrArg some he⟩
    · exact Or.inr (Or.inl ⟨trivial, not_not.mp hd, he.symm⟩)
  case semCTake =>
    rw [semCResume] at he
    split_ifs at he with hd
    · exact Or.inl ⟨trivial, hd, congrArg some he⟩
    · exact Or.inr (Or.inl ⟨trivial, not_not.mp hd, he.symm⟩)
  case msgQSend =>
    rw [msgQSendResume] at he
    split_ifs at he with hd
    · exact Or.inl ⟨trivial, hd, congrArg some he⟩
    · exact Or.inr (Or.inl ⟨trivial, not_not.mp hd, he.symm⟩)
  case msgQReceive =>
    rw [msgQReceiveResume] at he
    split_ifs at he with hd
    · exact Or.inl ⟨trivial, hd, he⟩
    · exact Or.inr (Or.inl ⟨trivial, not_not.mp hd, (Option.some.inj he).symm⟩)

end Kinds

end Kernel

def UnlockedOf (k : Kernel) : Prop := ∀ t c x, k.pc t = .unlocked c x → x.Of c

theorem unlocked_of {k : Kernel} (h : Reachable system Safe k) : UnlockedOf k :=
  unlocked_invariant Kernel.enter_of Kernel.go_of h

theorem exec_init {k k' : Kernel} {a : Act} {c : Call} {x : Result} (hof : UnlockedOf k)
    (hdef : k.defined a) (hc : c.OnObject) (hres : ∀ cur, k.resume cur c = none)
    (hrest : ∀ y, ¬ Rest.Of y c) (he : k.exec a = some (k', some (c, x))) :
    (a = .call c ∨ a = .boot c) ∧ k.callOk c ∧ ∃ cur r, k.enter cur c = some r ∧ r.2 = .ret x ∧
      k' = { r.1 with pc := k'.pc, curTcb := k'.curTcb } := by
  rcases Kernel.exec_objects hof he with ⟨-, hno⟩ | ⟨c', r, -, hacts, hk', hd⟩
  · exact absurd hc (hno c x rfl)
  · obtain ⟨y, ho, hpair⟩ := Option.map_eq_some_iff.mp hd.symm
    obtain ⟨rfl, rfl⟩ := Prod.mk.inj hpair
    have hret : r.2 = .ret y := by
      cases hr : r.2 <;> rw [hr] at ho <;> simp [Outcome.result] at ho
      rw [ho]
    rcases hacts with ⟨cur, hcur, hsec⟩ | ⟨hcur, rfl, z, hz, hb⟩
    · cases hsec with
      | call _ hent => exact ⟨Or.inl rfl, hdef.2, cur, r, hent, hret, hk'⟩
      | resume _ hr => rw [hres] at hr; exact absurd hr (by simp)
      | go hpc => exact absurd (hof _ _ _ hpc) (hrest _)
    · have hent := Kernel.bootCall_enter hc hb
      rw [← hz] at hent
      exact ⟨Or.inr rfl, hdef, _, _, hent, hret, hk'⟩

end DfewOS
