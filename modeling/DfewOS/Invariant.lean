import DfewOS.Execution
import DfewOS.Frame

/-!
# The invariant of the kernel

`Inv` is what every step keeps that does not run into one of the kernel's
defects (`Act.Safe`). `Calm` collects what the operations outside `task.c`,
`semM.c` and `tick.c` leave alone, so that each of them needs one lemma.
-/

namespace DfewOS
open Tasks (Linked Moves Quiet)

namespace Kernel

/-- The object a wait list belongs to is on its module's list. -/
def Registered (k : Kernel) : QueueId → Prop
  | .semB s => s ∈ k.semBList
  | .semC s => s ∈ k.semCList
  | .semM m => m ∈ k.semMList
  | .msgSend q => q ∈ k.msgQList
  | .msgRecv q => q ∈ k.msgQList
  | _ => True

structure Objects (k : Kernel) : Prop where
  semB : k.semBList.Nodup
  semC : k.semCList.Nodup
  semM : k.semMList.Nodup
  msgQ : k.msgQList.Nodup

end Kernel

def Rest.creating : Rest → Option TcbPtr
  | .allocStack p | .releaseTcb p | .linkTask p => some p
  | _ => none

def Pc.creating : Pc → Option TcbPtr
  | .unlocked _ r => r.creating
  | _ => none

namespace Kernel

def creating (k : Kernel) (t : TcbPtr) : Option TcbPtr := (k.pc t).creating

/-- A control block that `task_create` has filled in and nobody boosts yet. -/
structure Unborn (v : OsTcb) : Prop extends v.InRange where
  unboosted : v.taskPriority = v.originPri

structure Pool (k : Kernel) : Prop where
  live : ∀ t : TcbPtr, k.ts.live t = true → BitMap.value k.tcbMap t.val = false
  taken : ∀ t p, k.creating t = some p → BitMap.value k.tcbMap p.val = false
  dead : ∀ t p, k.creating t = some p → k.ts.live p = false
  unborn : ∀ t p, k.creating t = some p → Unborn (k.ts.tcb p)
  distinct : ∀ t u p, k.creating t = some p → k.creating u = some p → t = u

/-- The part of the invariant that does not depend on who runs and where. -/
structure Core (k : Kernel) : Prop where
  linked : Linked k.ts k.ts.members none
  objects : k.Objects
  idle : k.ts.live idle = true ∧ (k.ts.tcb idle).status = .ready
  owner : ∀ m t, (k.semM m).ownerTcb = some t → k.ts.live t = true
  waited : ∀ m, k.ts.members (.semM m) ≠ [] → (k.semM m).ownerTcb ≠ none
  owned : ∀ m, (k.semM m).ownerTcb ≠ none → m ∈ k.semMList
  registered : ∀ t l, k.ts.live t = true → (k.ts.tcb t).home = some l → k.Registered l

structure Inv (k : Kernel) : Prop extends Core k where
  pool : k.Pool
  idlePc : k.pc DfewOS.idle = .user
  running : ∀ t, k.curTcb = some t → k.ts.live t = true ∧ (k.ts.tcb t).status = .ready

/-- From `k` to the state of `r` the tasks made quiet moves and the mutexes stayed as they were. -/
structure Calm (cur : Option TcbPtr) (k : Kernel) (seq : QueueId → List TcbPtr)
    (r : Kernel × Outcome) : Prop where
  moves : Moves cur (fun l => r.2 = .switch ∧ k.Registered l) k.ts seq r.1.ts
  semM : r.1.semM = k.semM
  semMList : r.1.semMList = k.semMList
  tcbMap : r.1.tcbMap = k.tcbMap
  pc : r.1.pc = k.pc
  curTcb : r.1.curTcb = k.curTcb
  objects : k.Objects → r.1.Objects
  registered : ∀ l, k.Registered l →
    r.1.Registered l ∨ ∀ t, r.1.ts.live t = true → (r.1.ts.tcb t).home ≠ some l

section CalmCalls
variable {k : Kernel} {seq : QueueId → List TcbPtr} {cur : TcbPtr}

theorem Calm.of_ts {cur : Option TcbPtr} {k' : Kernel} {o : Outcome}
    (h : Moves cur (fun l => o = .switch ∧ k.Registered l) k.ts seq k'.ts)
    (he : k' = { k with ts := k'.ts, semB := k'.semB, semC := k'.semC, msgQ := k'.msgQ }) :
    Calm cur k seq (k', o) := by
  rw [he]
  exact ⟨h, rfl, rfl, rfl, rfl, rfl, fun ho => ⟨ho.semB, ho.semC, ho.semM, ho.msgQ⟩,
    fun l hl => Or.inl (by cases l <;> exact hl)⟩

theorem delayQDelay_calm (h : Linked k.ts seq none) (ht : k.ts.live cur = true)
    (hs : (k.ts.tcb cur).status = .ready) (ticks : ℕ) :
    Calm (some cur) k seq (k.delayQDelay cur ticks) := by
  rw [delayQDelay]
  split_ifs with h0
  · exact .of_ts (Tasks.rotate_moves h ht hs) rfl
  · refine .of_ts (Tasks.pendOn_moves h ht hs ?_ ?_ ⟨rfl, trivial⟩ h0 ?_) rfl
    · exact fun hr => hr
    · exact fun hm => hm
    · intro v hv hp
      rw [OsTcb.home, hv]

theorem semBTake_calm (h : Linked k.ts seq none) (ht : k.ts.live cur = true)
    (hs : (k.ts.tcb cur).status = .ready) {s : ObjPtr} (hr : s ∈ k.semBList) (timeout : ℕ) :
    Calm (some cur) k seq (k.semBTake cur s timeout) := by
  rw [semBTake]
  split_ifs with h1 h2
  · exact .of_ts (Tasks.setDelay_moves h ht hs 0) rfl
  · refine .of_ts (Tasks.pendOn_other_moves h ht hs ?_ ⟨rfl, hr⟩ h2 ?_) rfl
    · trivial
    · intro v hv hp
      rw [OsTcb.home, hv, hp]
      rfl
  · exact .of_ts (.refl h) rfl

theorem semCTake_calm (h : Linked k.ts seq none) (ht : k.ts.live cur = true)
    (hs : (k.ts.tcb cur).status = .ready) {s : ObjPtr} (hr : s ∈ k.semCList) (timeout : ℕ) :
    Calm (some cur) k seq (k.semCTake cur s timeout) := by
  simp only [semCTake]
  split_ifs with h1 h2
  · exact .of_ts (Tasks.setDelay_moves h ht hs 0) rfl
  · refine .of_ts (Tasks.pendOn_other_moves h ht hs ?_ ⟨rfl, hr⟩ h2 ?_) rfl
    · trivial
    · intro v hv hp
      rw [OsTcb.home, hv, hp]
      rfl
  · exact .of_ts (.refl h) rfl

theorem msgQSend_calm (h : Linked k.ts seq none) (ht : k.ts.live cur = true)
    (hs : (k.ts.tcb cur).status = .ready) {q : ObjPtr} (hr : q ∈ k.msgQList)
    (buffer : List UInt8) (bufLen timeout : ℕ) :
    Calm (some cur) k seq (k.msgQSend cur q buffer bufLen timeout) := by
  simp only [msgQSend]
  split_ifs with h1 h2
  · refine .of_ts ((Tasks.setDelay_moves h ht hs 0).trans fun seq' h' => ?_) rfl
    exact Tasks.wakeFirst_moves h' trivial
  · refine .of_ts (Tasks.pendOn_other_moves h ht hs ?_ ⟨rfl, hr⟩ h2 ?_) rfl
    · trivial
    · intro v hv hp
      rw [OsTcb.home, hv, hp]
      rfl
  · exact .of_ts (.refl h) rfl

theorem msgQReceive_calm (h : Linked k.ts seq none) (ht : k.ts.live cur = true)
    (hs : (k.ts.tcb cur).status = .ready) {q : ObjPtr} (hr : q ∈ k.msgQList)
    {buffer : List UInt8} {bufLen timeout : ℕ} {r : Kernel × Outcome}
    (he : k.msgQReceive cur q buffer bufLen timeout = some r) : Calm (some cur) k seq r := by
  simp only [msgQReceive] at he
  split_ifs at he with h1 h2
  · cases hm : (k.msgQ q).msgList with
    | nil =>
      rw [hm] at he
      exact absurd he (by simp)
    | cons message rest =>
      rw [hm] at he
      obtain rfl := Option.some.inj he
      refine .of_ts ((Tasks.setDelay_moves h ht hs 0).trans fun seq' h' => ?_) rfl
      exact Tasks.wakeFirst_moves h' trivial
  · obtain rfl := Option.some.inj he
    refine .of_ts (Tasks.pendOn_other_moves h ht hs ?_ ⟨rfl, hr⟩ h2 ?_) rfl
    · trivial
    · intro v hv hp
      rw [OsTcb.home, hv, hp]
      rfl
  · obtain rfl := Option.some.inj he
    exact .of_ts (.refl h) rfl

theorem semBGive_calm (h : Linked k.ts seq none) (s : ObjPtr) :
    Calm (some cur) k seq (k.semBGive s) := .of_ts (Tasks.wakeFirst_moves h trivial) rfl

theorem semCGive_calm (h : Linked k.ts seq none) (s : ObjPtr) :
    Calm (some cur) k seq (k.semCGive s) := by
  simp only [semCGive]
  split_ifs
  · exact .of_ts (Tasks.wakeFirst_moves h trivial) rfl
  · exact .of_ts (.refl h) rfl

theorem length_le (h : Linked k.ts seq none) (l : QueueId) : (seq l).length ≤ taskNumMax := by
  have hle := (h.lists.nodup l).length_le_card
  rwa [Fintype.card_fin] at hle

theorem semBFlush_calm (h : Linked k.ts seq none) (s : ObjPtr) :
    ∃ k', k.semBFlush s = some k' ∧ ∀ o, Calm (some cur) k seq (k', o) := by
  have hother : QueueId.IsOther (.semB s) := trivial
  obtain ⟨ts', seq', hrun, hlink, hq, -⟩ : ∃ ts' seq', Tasks.flushAll (.semB s) taskNumMax k.ts =
      some ts' ∧ Linked ts' seq' none ∧ Quiet (some cur) (fun _ => False) k.ts seq ts' seq' ∧
      seq' (.semB s) = [] := Tasks.flushAll_moves hother h (length_le h _)
  refine ⟨_, by rw [semBFlush, hrun]; rfl, fun o => .of_ts ⟨seq', hlink, hq.mono ?_⟩ rfl⟩
  exact fun _ hf => hf.elim

theorem semCFlush_calm (h : Linked k.ts seq none) (s : ObjPtr) :
    ∃ k', k.semCFlush s = some k' ∧ ∀ o, Calm (some cur) k seq (k', o) := by
  have hother : QueueId.IsOther (.semC s) := trivial
  obtain ⟨ts', seq', hrun, hlink, hq, -⟩ : ∃ ts' seq', Tasks.flushAll (.semC s) taskNumMax k.ts =
      some ts' ∧ Linked ts' seq' none ∧ Quiet (some cur) (fun _ => False) k.ts seq ts' seq' ∧
      seq' (.semC s) = [] := Tasks.flushAll_moves hother h (length_le h _)
  refine ⟨_, by rw [semCFlush, hrun]; rfl, fun o => .of_ts ⟨seq', hlink, hq.mono ?_⟩ rfl⟩
  exact fun _ hf => hf.elim

theorem no_home_of_nil {ts : Tasks} (h : Linked ts seq none) {l : QueueId} (hl : seq l = [])
    (t : TcbPtr) (ht : ts.live t = true) : (ts.tcb t).home ≠ some l := by
  intro hh
  have hm : t ∈ seq l := (h.home t l).mpr ⟨ht, by simp, hh⟩
  rw [hl] at hm
  exact absurd hm List.not_mem_nil

theorem nodup_snoc {xs : List ObjPtr} (h : xs.Nodup) {x : ObjPtr} (hx : x ∉ xs) :
    (xs ++ [x]).Nodup := by
  rw [← List.concat_eq_append]
  exact h.concat hx

theorem semBInit_calm {cur : Option TcbPtr} (h : Linked k.ts seq none) {s : ObjPtr}
    (hs : s ∉ k.semBList) (hnil : seq (.semB s) = []) : Calm cur k seq (k.semBInit s) := by
  refine ⟨Tasks.dlistInit_moves h hnil, rfl, rfl, rfl, rfl, rfl, ?_, ?_⟩
  · exact fun ho => ⟨nodup_snoc ho.semB hs, ho.semC, ho.semM, ho.msgQ⟩
  · intro l hl
    left
    cases l
    case semB => exact List.mem_append_left _ hl
    all_goals exact hl

theorem semCInit_calm {cur : Option TcbPtr} (h : Linked k.ts seq none) {s : ObjPtr}
    (hs : s ∉ k.semCList) (hnil : seq (.semC s) = []) (initCount maxCount : ℕ) :
    Calm cur k seq (k.semCInit s initCount maxCount) := by
  rw [semCInit]
  split_ifs
  · exact .of_ts (.refl h) rfl
  · refine ⟨Tasks.dlistInit_moves h hnil, rfl, rfl, rfl, rfl, rfl, ?_, ?_⟩
    · exact fun ho => ⟨ho.semB, nodup_snoc ho.semC hs, ho.semM, ho.msgQ⟩
    · intro l hl
      left
      cases l
      case semC => exact List.mem_append_left _ hl
      all_goals exact hl

theorem msgQInit_calm {cur : Option TcbPtr} (h : Linked k.ts seq none) {q : ObjPtr}
    (hq : q ∉ k.msgQList) (hsend : seq (.msgSend q) = []) (hrecv : seq (.msgRecv q) = [])
    (maxNum maxLen : ℕ) : Calm cur k seq (k.msgQInit q maxNum maxLen) := by
  rw [msgQInit]
  split_ifs
  · exact .of_ts (.refl h) rfl
  · have hmoves := (h.dlistInit hsend).dlistInit hrecv
    refine ⟨⟨seq, hmoves, .relink rfl rfl fun _ => rfl⟩, rfl, rfl, rfl, rfl, rfl, ?_, ?_⟩
    · exact fun ho => ⟨ho.semB, ho.semC, ho.semM, nodup_snoc ho.msgQ hq⟩
    · intro l hl
      left
      cases l
      case msgSend => exact List.mem_append_left _ hl
      case msgRecv => exact List.mem_append_left _ hl
      all_goals exact hl

theorem semBDelete_calm {cur : Option TcbPtr} {o : Outcome} (h : Linked k.ts seq none) {s : ObjPtr}
    (hnil : seq (.semB s) = []) : Calm cur k seq (k.semBDelete s, o) := by
  refine ⟨.refl h, rfl, rfl, rfl, rfl, rfl, ?_, ?_⟩
  · exact fun ho => ⟨ho.semB.erase s, ho.semC, ho.semM, ho.msgQ⟩
  · intro l hl
    cases l
    case semB u =>
      by_cases hu : u = s
      · subst hu
        exact Or.inr (no_home_of_nil h hnil)
      · exact Or.inl ((List.mem_erase_of_ne hu).mpr hl)
    all_goals exact Or.inl hl

theorem semCDelete_calm {cur : Option TcbPtr} {o : Outcome} (h : Linked k.ts seq none) {s : ObjPtr}
    (hnil : seq (.semC s) = []) : Calm cur k seq (k.semCDelete s, o) := by
  refine ⟨.refl h, rfl, rfl, rfl, rfl, rfl, ?_, ?_⟩
  · exact fun ho => ⟨ho.semB, ho.semC.erase s, ho.semM, ho.msgQ⟩
  · intro l hl
    cases l
    case semC u =>
      by_cases hu : u = s
      · subst hu
        exact Or.inr (no_home_of_nil h hnil)
      · exact Or.inl ((List.mem_erase_of_ne hu).mpr hl)
    all_goals exact Or.inl hl

theorem msgQDelete_moves {cur : Option TcbPtr} {goal : QueueId → Prop} (h : Linked k.ts seq none)
    {q : ObjPtr} (hsend : (seq (.msgSend q)).length ≤ 1)
    (hrecv : (seq (.msgRecv q)).length ≤ 1) :
    ∃ seq', Linked (k.msgQDelete q).1.ts seq' none ∧
      Tasks.Quiet cur goal k.ts seq (k.msgQDelete q).1.ts seq' ∧ seq' (.msgSend q) = [] ∧
      seq' (.msgRecv q) = [] := by
  have hs : QueueId.IsOther (.msgSend q) := trivial
  have hr : QueueId.IsOther (.msgRecv q) := trivial
  obtain ⟨seq₁, hlink₁, hq₁, hnil₁, hother₁⟩ := Tasks.popWaiters_moves h hs hsend
  have hsame : seq₁ (.msgRecv q) = seq (.msgRecv q) := hother₁ _ hr.not_ready (by simp)
  obtain ⟨seq₂, hlink₂, hq₂, hnil₂, hother₂⟩ :=
    Tasks.popWaiters_moves hlink₁ hr (by rw [hsame]; exact hrecv)
  have hsend₂ : seq₂ (.msgSend q) = [] := by
    rw [hother₂ _ hs.not_ready (by simp), hnil₁]
  exact ⟨seq₂, hlink₂, hq₁.trans hq₂, hsend₂, hnil₂⟩

theorem msgQDelete_calm {cur : Option TcbPtr} (h : Linked k.ts seq none) {q : ObjPtr}
    (hsend : (seq (.msgSend q)).length ≤ 1) (hrecv : (seq (.msgRecv q)).length ≤ 1) :
    Calm cur k seq (k.msgQDelete q) := by
  obtain ⟨seq₂, hlink₂, hq₂, hsend₂, hnil₂⟩ := msgQDelete_moves h hsend hrecv
  refine ⟨⟨seq₂, hlink₂, hq₂⟩, rfl, rfl, rfl, rfl, rfl, ?_, ?_⟩
  · exact fun ho => ⟨ho.semB, ho.semC, ho.semM, ho.msgQ.erase q⟩
  · intro l hl
    cases l
    case msgSend u =>
      by_cases hu : u = q
      · subst hu
        exact Or.inr (no_home_of_nil hlink₂ hsend₂)
      · exact Or.inl ((List.mem_erase_of_ne hu).mpr hl)
    case msgRecv u =>
      by_cases hu : u = q
      · subst hu
        exact Or.inr (no_home_of_nil hlink₂ hnil₂)
      · exact Or.inl ((List.mem_erase_of_ne hu).mpr hl)
    all_goals exact Or.inl hl

end CalmCalls

end Kernel

/-- The calls that touch neither mutexes nor the set of tasks. -/
def Call.IsCalm : Call → Prop
  | .taskCreate .. | .taskDelete _ | .semMInit _ | .semMTake .. | .semMGive _ => False
  | _ => True

/-- What a call must not meet: the caller deleting itself, the deletion of a task that owns a
mutex others wait for, and a message queue deleted under two waiters of one kind. -/
def Call.Safe (k : Kernel) : Call → Prop
  | .taskDelete pTcb => k.curTcb ≠ some pTcb ∧
      ∀ m, (k.semM m).ownerTcb = some pTcb → k.ts.members (.semM m) = []
  | .msgQDelete q => (k.ts.members (.msgSend q)).length ≤ 1 ∧
      (k.ts.members (.msgRecv q)).length ≤ 1
  | _ => True

/-- A step that does not run into a defect of task termination or `msgQ_delete`. A task that
returns from its entry function must own no mutex, since `_task_entry` frees none. -/
def Act.Safe (k : Kernel) : Act → Prop
  | .call c => c.Safe k
  | .exit => ∀ t m, k.curTcb = some t → (k.semM m).ownerTcb ≠ some t
  | _ => True

namespace Kernel
variable {k k' : Kernel} {cur : TcbPtr} {o : Outcome} {c : Call}

theorem enter_calm (h : Linked k.ts k.ts.members none) (ht : k.ts.live cur = true)
    (hs : (k.ts.tcb cur).status = .ready) (hc : c.IsCalm) (hok : k.callOk c) (hsafe : c.Safe k)
    (he : k.enter cur c = some (k', o)) : Calm (some cur) k k.ts.members (k', o) := by
  obtain ⟨huse, hfresh, -⟩ := hok
  cases c <;> simp only [enter, Option.some.injEq, Option.map_eq_some_iff, Prod.mk.injEq] at he
  case taskCreate => exact hc.elim
  case taskDelete => exact hc.elim
  case semMInit => exact hc.elim
  case semMTake => exact hc.elim
  case semMGive => exact hc.elim
  case delayQDelay ticks =>
    have hcalm := delayQDelay_calm h ht hs ticks
    rwa [he] at hcalm
  case semBInit s =>
    have hcalm : Calm (some cur) k _ _ := semBInit_calm h hfresh.1 hfresh.2
    rwa [he] at hcalm
  case semBTake s timeout =>
    have hcalm := semBTake_calm h ht hs huse timeout
    rwa [he] at hcalm
  case semBGive s =>
    have hcalm : Calm (some cur) k _ _ := semBGive_calm h s
    rwa [he] at hcalm
  case semBFlush s =>
    obtain ⟨k₁, hrun, hcalm⟩ : ∃ k₁, k.semBFlush s = some k₁ ∧ ∀ o, Calm (some cur) k _ (k₁, o) :=
      semBFlush_calm h s
    obtain ⟨k₂, hk, rfl, -⟩ := he
    exact Option.some.inj (hrun.symm.trans hk) ▸ hcalm _
  case semBDelete s =>
    obtain ⟨k₁, hrun, hcalm⟩ : ∃ k₁, k.semBFlush s = some k₁ ∧ ∀ o, Calm (some cur) k _ (k₁, o) :=
      semBFlush_calm h s
    obtain ⟨k₂, hk, rfl, -⟩ := he
    exact Option.some.inj (hrun.symm.trans hk) ▸ hcalm _
  case semCInit s initCount maxCount =>
    have hcalm : Calm (some cur) k _ _ := semCInit_calm h hfresh.1 hfresh.2 initCount maxCount
    rwa [he] at hcalm
  case semCTake s timeout =>
    have hcalm := semCTake_calm h ht hs huse timeout
    rwa [he] at hcalm
  case semCGive s =>
    have hcalm : Calm (some cur) k _ _ := semCGive_calm h s
    rwa [he] at hcalm
  case semCFlush s =>
    obtain ⟨k₁, hrun, hcalm⟩ : ∃ k₁, k.semCFlush s = some k₁ ∧ ∀ o, Calm (some cur) k _ (k₁, o) :=
      semCFlush_calm h s
    obtain ⟨k₂, hk, rfl, -⟩ := he
    exact Option.some.inj (hrun.symm.trans hk) ▸ hcalm _
  case semCDelete s =>
    obtain ⟨k₁, hrun, hcalm⟩ : ∃ k₁, k.semCFlush s = some k₁ ∧ ∀ o, Calm (some cur) k _ (k₁, o) :=
      semCFlush_calm h s
    obtain ⟨k₂, hk, rfl, -⟩ := he
    exact Option.some.inj (hrun.symm.trans hk) ▸ hcalm _
  case msgQInit q maxNum maxLen =>
    have hcalm : Calm (some cur) k _ _ :=
      msgQInit_calm h hfresh.1 hfresh.2.1 hfresh.2.2 maxNum maxLen
    rwa [he] at hcalm
  case msgQSend q buffer bufLen timeout =>
    have hcalm := msgQSend_calm h ht hs huse buffer bufLen timeout
    rwa [he] at hcalm
  case msgQReceive q buffer bufLen timeout => exact msgQReceive_calm h ht hs huse he
  case msgQDelete q =>
    have hcalm : Calm (some cur) k _ _ := msgQDelete_calm h hsafe.1 hsafe.2
    rwa [he] at hcalm

theorem resume_calm (h : Linked k.ts k.ts.members none) (ht : k.ts.live cur = true)
    (hs : (k.ts.tcb cur).status = .ready) (huse : (k.ts.tcb cur).delayTicks ≠ 0 → k.againInUse c)
    (he : k.resume cur c = some (k', o)) : Calm (some cur) k k.ts.members (k', o) := by
  cases c <;> simp only [resume, Option.some.injEq, reduceCtorEq, Prod.mk.injEq] at he
  case delayQDelay => exact he.1 ▸ .of_ts (.refl h) rfl
  case semMGive => exact he.1 ▸ .of_ts (.refl h) rfl
  case semBTake s _ =>
    rw [semBResume] at he
    split_ifs at he with hd
    · have hcalm := semBTake_calm h ht hs (huse hd) (k.ts.tcb cur).delayTicks
      rwa [he] at hcalm
    · exact (Prod.mk.inj he).1 ▸ .of_ts (.refl h) rfl
  case semCTake s _ =>
    rw [semCResume] at he
    split_ifs at he with hd
    · have hcalm := semCTake_calm h ht hs (huse hd) (k.ts.tcb cur).delayTicks
      rwa [he] at hcalm
    · exact (Prod.mk.inj he).1 ▸ .of_ts (.refl h) rfl
  case semMTake _ _ =>
    rw [semMResume] at he
    split_ifs at he
    · exact (Prod.mk.inj he).1 ▸ .of_ts (Tasks.setDelay_moves h ht hs 0) rfl
    · exact (Prod.mk.inj he).1 ▸ .of_ts (.refl h) rfl
  case msgQSend q buffer bufLen _ =>
    rw [msgQSendResume] at he
    split_ifs at he with hd
    · have hcalm := msgQSend_calm h ht hs (huse hd) buffer bufLen (k.ts.tcb cur).delayTicks
      rwa [he] at hcalm
    · exact (Prod.mk.inj he).1 ▸ .of_ts (.refl h) rfl
  case msgQReceive q buffer bufLen _ =>
    rw [msgQReceiveResume] at he
    split_ifs at he with hd
    · exact msgQReceive_calm h ht hs (huse hd) he
    · exact (Prod.mk.inj (Option.some.inj he)).1 ▸ .of_ts (.refl h) rfl

end Kernel

end DfewOS
