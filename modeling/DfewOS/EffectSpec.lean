import DfewOS.SafeRuns

/-!
# A safe step seen from one task and from one mutex

A task that does not run and is neither woken by another operation nor deleted
keeps its control block but for the priority, which `_up_owner_pri` may raise.
The one thing that can happen to it outside a tick is that a mutex is handed to
it. `Turn` lists what a step may do to the owner and the count of a mutex.
-/

namespace DfewOS
open Tasks (Linked)

variable {k k' : Kernel} {cur t : TcbPtr} {a : Act} {r : Kernel × Outcome} {m : ObjPtr}

def Act.Uses (m : ObjPtr) : Act → Prop
  | .call (.semMTake m' _) | .call (.semMGive m') => m' = m
  | _ => False

theorem Act.not_uses (h : ¬ a.Special) : ¬ a.Uses m := by
  cases a with
  | call c => cases c <;> first | exact fun hu => hu | exact absurd True.intro h
  | _ => exact fun hu => hu

namespace Kernel

structure Untouched (k : Kernel) (t : TcbPtr) (k' : Kernel) : Prop where
  live : k'.ts.live t = k.ts.live t
  tcb : k'.ts.tcb t = { k.ts.tcb t with taskPriority := (k'.ts.tcb t).taskPriority }

theorem Untouched.of_eq (hl : k'.ts.live t = k.ts.live t) (he : k'.ts.tcb t = k.ts.tcb t) :
    Untouched k t k' := ⟨hl, by rw [he]⟩

structure HandedTo (k : Kernel) (m : ObjPtr) (t : TcbPtr) (k' : Kernel) : Prop where
  first : (k.ts.members (.semM m)).head? = some t
  owner : (k'.semM m).ownerTcb = some t
  live : k'.ts.live t = k.ts.live t
  tcb : k'.ts.tcb t = { k.ts.tcb t with status := .ready, pendObj := none }

theorem Prepares.untouched {p : TcbPtr} (h : Prepares p k k') (hl : k.ts.live t = true) :
    Untouched k t k' := by
  have hne : t ≠ p := by
    rintro rfl
    rw [h.dead] at hl
    exact absurd hl (by decide)
  have hlive : k'.ts.live = k.ts.live := by rw [h.ts]; rfl
  exact .of_eq (by rw [hlive]) (h.tcb t hne)

theorem Effect.bystander (he : Effect k k.curTcb a r) (htick : a ≠ .tick)
    (hdel : a ≠ .call (.taskDelete t)) (hcur : k.curTcb ≠ some t) (hl : k.ts.live t = true)
    (hs : ¬ (k.ts.tcb t).status.IsOther) :
    Untouched k t r.1 ∨
      ∃ m, a = .call (.semMGive m) ∧ dec32 (k.semM m).takeCount = 0 ∧ HandedTo k m t r.1 := by
  generalize hc : k.curTcb = cur at he hcur
  cases he with
  | calm _ hcalm =>
    obtain ⟨seq', -, hq⟩ := hcalm.moves
    exact Or.inl (.of_eq (by rw [hq.live]) (hq.kept t hcur.symm hs))
  | prepare _ hp => exact Or.inl (hp.untouched hl)
  | @birth _ _ r k₀ p _ hp _ hb =>
    left
    have hu := hp.untouched hl
    have hne : t ≠ p := by
      rintro rfl
      rw [hp.dead] at hl
      exact absurd hl (by decide)
    refine ⟨?_, ?_⟩
    · rw [hb.live, Function.update_of_ne hne, hu.live]
    · rw [hb.tcb, Function.update_of_ne hne]
      exact hu.tcb
  | @delete cur u r hne _ _ ht =>
    left
    have hut : t ≠ u := by
      rintro rfl
      exact hdel rfl
    exact .of_eq (by rw [ht.live, Function.update_of_ne hut]) (by rw [ht.tcb])
  | @exit cur k₁ _ ht =>
    left
    have hut : t ≠ cur := by
      rintro rfl
      exact hcur rfl
    exact .of_eq (by rw [ht.live, Function.update_of_ne hut]) (by rw [ht.tcb])
  | semMInit => exact Or.inl (.of_eq rfl rfl)
  | acquire => exact Or.inl (.of_eq rfl rfl)
  | nest => exact Or.inl (.of_eq rfl rfl)
  | refuse => exact Or.inl (.of_eq rfl rfl)
  | countDown => exact Or.inl (.of_eq rfl rfl)
  | block _ _ _ hb =>
    left
    refine ⟨by rw [hb.live], ?_⟩
    have hne : t ≠ _ := fun heq => hcur (congrArg some heq.symm)
    rw [hb.priority t]
    exact hb.tcb t hne
  | @give cur m r n rest hd hg =>
    have hne : t ≠ cur := fun heq => hcur (congrArg some heq.symm)
    by_cases hn : n = some t
    · right
      obtain ⟨-, htcb⟩ := hg.next t hn
      refine ⟨m, rfl, hd, ?_, by rw [hg.owner, hn], by rw [hg.live], htcb⟩
      rw [hg.split, hn]
      rfl
    · exact Or.inl (.of_eq (by rw [hg.live]) (hg.tcb t hne fun hc => hn hc.symm))
  | tick => exact absurd rfl htick

inductive Turn (k : Kernel) (a : Act) (m : ObjPtr) (v : SemMux) : Prop
  | same : v.ownerTcb = (k.semM m).ownerTcb → v.takeCount = (k.semM m).takeCount →
      (a.Uses m → (k.semM m).ownerTcb ≠ k.curTcb) → Turn k a m v
  | acquired {t : TcbPtr} : k.curTcb = some t → (k.semM m).ownerTcb = none →
      v.ownerTcb = some t → v.takeCount = 1 → Turn k a m v
  | nested {timeout : ℕ} : a = .call (.semMTake m timeout) → (k.semM m).ownerTcb ≠ none →
      (k.semM m).ownerTcb = k.curTcb → v.ownerTcb = (k.semM m).ownerTcb →
      v.takeCount = inc32 (k.semM m).takeCount → Turn k a m v
  | counted : a = .call (.semMGive m) → k.curTcb ≠ none → dec32 (k.semM m).takeCount ≠ 0 →
      v.ownerTcb = (k.semM m).ownerTcb → v.takeCount = dec32 (k.semM m).takeCount →
      Turn k a m v
  | given : a = .call (.semMGive m) → k.curTcb ≠ none → dec32 (k.semM m).takeCount = 0 →
      v.ownerTcb = (k.ts.members (.semM m)).head? → v.takeCount = 0 → Turn k a m v
  | freed : ((k.semM m).ownerTcb = none ∨
        ∃ t, (k.semM m).ownerTcb = some t ∧ a = .call (.taskDelete t)) →
      k.ts.members (.semM m) = [] → v.ownerTcb = none → v.takeCount = 0 → Turn k a m v

theorem Turn.congr {v w : SemMux} (h : Turn k a m v) (ho : w.ownerTcb = v.ownerTcb)
    (hc : w.takeCount = v.takeCount) : Turn k a m w := by
  cases h with
  | same h₁ h₂ h₃ => exact .same (ho.trans h₁) (hc.trans h₂) h₃
  | acquired h₁ h₂ h₃ h₄ => exact .acquired h₁ h₂ (ho.trans h₃) (hc.trans h₄)
  | nested h₁ h₂ h₃ h₄ h₅ => exact .nested h₁ h₂ h₃ (ho.trans h₄) (hc.trans h₅)
  | counted h₁ h₂ h₃ h₄ h₅ => exact .counted h₁ h₂ h₃ (ho.trans h₄) (hc.trans h₅)
  | given h₁ h₂ h₃ h₄ h₅ => exact .given h₁ h₂ h₃ (ho.trans h₄) (hc.trans h₅)
  | freed h₁ h₂ h₃ h₄ => exact .freed h₁ h₂ (ho.trans h₃) (hc.trans h₄)

theorem Turn.of_eq (hs : ¬ a.Special) (he : k'.semM = k.semM) : Turn k a m (k'.semM m) := by
  refine .same (by rw [he]) (by rw [he]) fun hu => absurd hu (Act.not_uses hs)

theorem Prepares.semM {p : TcbPtr} (h : Prepares p k k') : k'.semM = k.semM := by rw [h.fields]

theorem Births.semM {p : TcbPtr} (h : Births k p k') : k'.semM = k.semM := by rw [h.fields]

theorem Ticks.semM (h : Ticks k k') : k'.semM = k.semM := by rw [h.fields]

theorem Turn.setSemM {m₀ : ObjPtr} {v : SemMux} (huse : m ≠ m₀ → ¬ a.Uses m)
    (h : Turn k a m₀ v) : Turn k a m ((k.setSemM m₀ v).semM m) := by
  by_cases hm : m = m₀
  · subst hm
    simpa [Kernel.setSemM] using h
  · have hsame : (k.setSemM m₀ v).semM m = k.semM m := Function.update_of_ne hm ..
    rw [hsame]
    exact .same rfl rfl fun hu => absurd hu (huse hm)

theorem Effect.turn (he : Effect k k.curTcb a r) (h : k.Core) (m : ObjPtr) :
    Turn k a m (r.1.semM m) := by
  generalize hc : k.curTcb = cur at he
  cases he with
  | calm hs hcalm => exact .of_eq hs hcalm.semM
  | prepare hs hp => exact .of_eq hs hp.semM
  | birth hs hp _ hb => exact .of_eq hs (hb.semM.trans hp.semM)
  | @delete cur t r hne _ hfree ht =>
    have ho := ht.owner m
    have hcount := ht.count m
    by_cases hown : (k.semM m).ownerTcb = some t
    · rw [if_pos hown] at ho hcount
      exact .freed (Or.inr ⟨t, hown, rfl⟩) (hfree m hown) ho hcount
    · rw [if_neg hown] at ho hcount
      exact .same ho hcount fun hu => hu.elim
  | @exit cur k₁ hfree ht =>
    have ho := ht.owner m
    have hcount := ht.count m
    rw [if_neg (hfree m)] at ho hcount
    exact .same ho hcount fun hu => hu.elim
  | @semMInit _ _ m₀ hs hfresh hnil =>
    have hnone : (k.semM m₀).ownerTcb = none := by
      by_contra hne
      exact hfresh (h.owned m₀ hne)
    exact Turn.setSemM (fun _ => Act.not_uses hs) (.freed (Or.inl hnone) hnil rfl rfl)
  | @acquire cur m₀ timeout ho =>
    exact Turn.setSemM (fun hm hu => hm hu.symm) (.acquired hc ho rfl rfl)
  | @nest cur m₀ timeout ho =>
    exact Turn.setSemM (fun hm hu => hm hu.symm)
      (.nested rfl (by rw [ho]; simp) (by rw [ho, hc]) rfl rfl)
  | @refuse cur m₀ hnone hother =>
    refine .same rfl rfl fun hu => ?_
    have hm : m₀ = m := hu
    rwa [← hm, hc]
  | @block cur m₀ timeout k₁ k' xs ys hnone hother htime hb =>
    refine .same (hb.owner m) (hb.count m) fun hu => ?_
    have hm : m₀ = m := hu
    rwa [← hm, hc]
  | @countDown cur m₀ hd =>
    exact Turn.setSemM (fun hm hu => hm hu.symm) (.counted rfl (by rw [hc]; simp) hd rfl rfl)
  | @give cur m₀ r n rest hd hg =>
    by_cases hm : m = m₀
    · subst hm
      refine .given rfl (by rw [hc]; simp) hd ?_ hg.count
      rw [hg.owner, hg.split]
      cases n with
      | none => rw [hg.nil rfl]; rfl
      | some x => rfl
    · rw [hg.semM m hm]
      exact .same rfl rfl fun hu => absurd hu.symm hm
  | tick ht =>
    rw [ht.semM]
    exact .same rfl rfl fun hu => hu.elim

/-- The wait lists of the mutexes and what depends on them stay as they are. -/
structure Still (k k' : Kernel) : Prop where
  waiters : ∀ m, k'.ts.members (.semM m) = k.ts.members (.semM m)
  owner : ∀ m, (k'.semM m).ownerTcb = (k.semM m).ownerTcb ∨ k.ts.members (.semM m) = []
  priority : ∀ t, k.ts.live t = true → (k'.ts.tcb t).taskPriority = (k.ts.tcb t).taskPriority ∧
    (k'.ts.tcb t).originPri = (k.ts.tcb t).originPri
  waitPri : ∀ m ∈ k'.semMList, (m ∈ k.semMList ∧ (k'.semM m).waitPri = (k.semM m).waitPri) ∨
    (k.ts.members (.semM m) = [] ∧ (k'.semM m).waitPri = 255)
  born : ∀ t, k'.ts.live t = true → k.ts.live t = true ∨
    ((∀ m, (k'.semM m).ownerTcb ≠ some t) ∧ (k'.ts.tcb t).taskPriority = (k'.ts.tcb t).originPri)

theorem Still.of_semM (hw : ∀ m, k'.ts.members (.semM m) = k.ts.members (.semM m))
    (hsem : k'.semM = k.semM) (hlist : k'.semMList = k.semMList)
    (hpri : ∀ t, k.ts.live t = true → (k'.ts.tcb t).taskPriority = (k.ts.tcb t).taskPriority ∧
      (k'.ts.tcb t).originPri = (k.ts.tcb t).originPri)
    (hlive : ∀ t, k'.ts.live t = true → k.ts.live t = true) : Still k k' := by
  refine ⟨hw, fun m => Or.inl (by rw [hsem]), hpri, fun m hm => ?_, fun t ht => Or.inl (hlive t ht)⟩
  rw [hlist] at hm
  exact Or.inl ⟨hm, by rw [hsem]⟩

theorem Still.setSemM {v : SemMux} (hv : v.waitPri = (k.semM m).waitPri)
    (ho : v.ownerTcb = (k.semM m).ownerTcb ∨ k.ts.members (.semM m) = []) :
    Still k (k.setSemM m v) := by
  have hother : ∀ m', m' ≠ m → (k.setSemM m v).semM m' = k.semM m' := fun m' hm =>
    Function.update_of_ne hm ..
  have hself : (k.setSemM m v).semM m = v := Function.update_self ..
  refine ⟨fun _ => rfl, fun m' => ?_, fun _ _ => ⟨rfl, rfl⟩, fun m' hm => Or.inl ⟨hm, ?_⟩,
    fun t ht => Or.inl ht⟩
  · by_cases hm : m' = m
    · subst hm
      rwa [hself]
    · exact Or.inl (by rw [hother m' hm])
  · by_cases hm : m' = m
    · subst hm
      rw [hself, hv]
    · rw [hother m' hm]

theorem Prepares.members {p : TcbPtr} (hp : Prepares p k k') (l : QueueId) :
    k'.ts.members l = k.ts.members l := by
  rw [hp.ts]
  rfl

theorem Prepares.still {p : TcbPtr} (h : Prepares p k k') : Still k k' := by
  refine .of_semM (fun m => h.members _) h.semM (by rw [h.fields]) (fun t ht => ?_) fun t ht => ?_
  · rw [(h.untouched ht).tcb]
    have hne : t ≠ p := by
      rintro rfl
      rw [h.dead] at ht
      exact absurd ht (by decide)
    simp [h.tcb t hne]
  · rw [h.ts] at ht
    exact ht

theorem Births.still {k₀ : Kernel} {p : TcbPtr} (hc : k.Core) (hp : Prepares p k k₀)
    (hu : Unborn (k₀.ts.tcb p)) (hb : Births k₀ p k') : Still k k' := by
  have hprep := hp.still
  have hne : ∀ t, k.ts.live t = true → t ≠ p := by
    rintro t ht rfl
    rw [hp.dead] at ht
    exact absurd ht (by decide)
  have hsem : k'.semM = k.semM := hb.semM.trans hp.semM
  have hlist : k'.semMList = k.semMList := by rw [hb.fields, hp.fields]
  refine ⟨fun m => ?_, fun m => Or.inl (by rw [hsem]), fun t ht => ?_, fun m hm => ?_,
    fun t ht => ?_⟩
  · have hready : ¬ (QueueId.semM m).IsReady := fun hr => hr
    rw [hb.lists _ hready, hp.members]
  · rw [hb.tcb, Function.update_of_ne (hne t ht)]
    exact hprep.priority t ht
  · rw [hlist] at hm
    exact Or.inl ⟨hm, by rw [hsem]⟩
  · by_cases htp : t = p
    · right
      refine ⟨fun m ho => ?_, ?_⟩
      · rw [hsem] at ho
        exact hne t (hc.owner m t ho) htp
      · rw [htp, hb.tcb, Function.update_self]
        exact hu.unboosted
    · left
      have hlive : k₀.ts.live = k.ts.live := by rw [hp.ts]; rfl
      rwa [hb.live, Function.update_of_ne htp, hlive] at ht

theorem Core.unwaited (h : k.Core) (ho : (k.semM m).ownerTcb = none) :
    k.ts.members (.semM m) = [] := by
  by_contra hne
  exact h.waited m hne ho

theorem Core.waits {l : QueueId} (h : k.Core) (hl : ¬ l.IsReady) (ht : t ∈ k.ts.members l) :
    (k.ts.tcb t).delayTicks ≠ 0 := by
  apply (h.linked.placed t (h.linked.live_of_mem ht) (by simp)).delay
  intro hs
  exact hl ((OsTcb.status_of_home (h.linked.home_of_mem ht)).mp hs)

theorem semMInit_still (h : k.Core)
    (hnil : k.ts.members (.semM m) = []) : Still k (k.semMInit m).1 := by
  have hmem : (k.semMInit m).1.ts.members = k.ts.members :=
    members_of_linked (h.linked.dlistInit hnil)
  have hother : ∀ m', m' ≠ m → (k.semMInit m).1.semM m' = k.semM m' := fun m' hm =>
    Function.update_of_ne hm ..
  refine ⟨fun m' => by rw [hmem], fun m' => ?_, fun _ _ => ⟨rfl, rfl⟩, fun m' hm => ?_,
    fun t ht => Or.inl ht⟩
  · by_cases hm : m' = m
    · exact Or.inr (by rw [hm, hnil])
    · exact Or.inl (by rw [hother m' hm])
  · by_cases he : m' = m
    · right
      rw [he]
      exact ⟨hnil, by simp [Kernel.semMInit, Kernel.setSemM]⟩
    · rcases List.mem_append.mp hm with hm | hm
      · exact Or.inl ⟨hm, by rw [hother m' he]⟩
      · exact absurd (List.mem_singleton.mp hm) he

theorem Effect.still_or (he : Effect k k.curTcb a r) (h : k.Inv) :
    Still k r.1 ∨
    (∃ t, k.ts.live t = true ∧ a = .call (.taskDelete t) ∧
      (∀ m, (k.semM m).ownerTcb = some t → k.ts.members (.semM m) = []) ∧ Terminates k t r.1) ∨
    (∃ cur m timeout k₁ xs ys, k.curTcb = some cur ∧ a = .call (.semMTake m timeout) ∧
      timeout ≠ 0 ∧ (k.semM m).ownerTcb ≠ none ∧ (k.semM m).ownerTcb ≠ some cur ∧
      BlocksOn k cur m timeout k₁ r.1 xs ys) ∨
    (∃ cur m n rest, k.curTcb = some cur ∧ a = .call (.semMGive m) ∧
      dec32 (k.semM m).takeCount = 0 ∧ Gives k cur m r.1 n rest) ∨
    (a = .tick ∧ Ticks k r.1) := by
  generalize hc : k.curTcb = cur at he
  cases he with
  | calm hs hcalm =>
    left
    obtain ⟨seq', hlink, hq⟩ := hcalm.moves
    refine .of_semM (fun m => ?_) hcalm.semM hcalm.semMList
      (fun t _ => ⟨hq.priority t, hq.origin t⟩) fun t ht => ?_
    · rw [members_of_linked hlink]
      exact hq.waiters m
    · rwa [hq.live] at ht
  | prepare hs hp => exact Or.inl hp.still
  | birth hs hp hu hb => exact Or.inl (Births.still h.toCore hp hu hb)
  | @delete cur t r hne hl hfree ht => exact Or.inr (Or.inl ⟨t, hl, rfl, hfree, ht⟩)
  | @exit cur k₁ hfree ht =>
    left
    have hnot : ∀ m, cur ∉ k.ts.members (.semM m) := fun m =>
      not_waiting h.linked (by rw [(h.running cur hc).2]; simp) m
    have hsem : k₁.semM = k.semM := by
      funext m
      have hpri := ht.waitPri m
      have hown := ht.owner m
      have hcount := ht.count m
      rw [if_neg (hnot m)] at hpri
      rw [if_neg (hfree m)] at hown hcount
      exact SemMux.ext hown hcount hpri
    refine .of_semM (fun m => ?_) hsem (by rw [ht.fields]) (fun t _ => ⟨?_, ?_⟩) fun t hl => ?_
    · have hready : ¬ (QueueId.semM m).IsReady := fun hr => hr
      rw [ht.lists _ hready, List.erase_of_not_mem (hnot m)]
    · rw [ht.tcb]
    · rw [ht.tcb]
    · rw [ht.live] at hl
      by_cases htc : t = cur
      · rw [htc, Function.update_self] at hl
        exact absurd hl (by decide)
      · rwa [Function.update_of_ne htc] at hl
  | semMInit hs hfresh hnil => exact Or.inl (semMInit_still h.toCore hnil)
  | acquire ho => exact Or.inl (.setSemM rfl (Or.inr (h.toCore.unwaited ho)))
  | nest ho => exact Or.inl (.setSemM rfl (Or.inl rfl))
  | refuse =>
    exact Or.inl (.of_semM (fun _ => rfl) rfl rfl (fun _ _ => ⟨rfl, rfl⟩) fun _ ht => ht)
  | @block cur m timeout k₁ k' xs ys hnone hother htime hb =>
    exact Or.inr (Or.inr (Or.inl
      ⟨cur, m, timeout, k₁, xs, ys, rfl, rfl, htime, hnone, hother, hb⟩))
  | countDown => exact Or.inl (.setSemM rfl (Or.inl rfl))
  | @give cur m r n rest hd hg =>
    exact Or.inr (Or.inr (Or.inr (Or.inl ⟨cur, m, n, rest, rfl, rfl, hd, hg⟩)))
  | tick ht => exact Or.inr (Or.inr (Or.inr (Or.inr ⟨rfl, ht⟩)))

theorem Effect.ticks {cur : Option TcbPtr} (he : Effect k cur .tick r) : Ticks k r.1 := by
  have hspecial : Act.Special .tick := True.intro
  cases he with
  | tick ht => exact ht
  | calm ha => exact absurd hspecial ha
  | prepare ha => exact absurd hspecial ha
  | birth ha => exact absurd hspecial ha
  | semMInit ha => exact absurd hspecial ha

theorem exec_ticks {d : Option (Call × Result)} (h : k.Inv) (he : k.exec .tick = some (k', d)) :
    ∃ k₁, Ticks k k₁ ∧ k' = { k₁ with curTcb := k'.curTcb } := by
  rcases exec_cases he with ⟨cur, c, r, -, hs, -⟩ | ⟨cur, k₁, hcur, -, ht, hload, -⟩ |
    ⟨_, -, ha, -⟩ | ⟨c, x, -, ha, -⟩ | ⟨-, ha, -⟩
  · cases hs
  · obtain ⟨hl, hs⟩ := h.running cur hcur
    obtain ⟨k₂, hrun, hticks⟩ := tickAnnounce_ticks h.toCore hl hs
    obtain rfl := Option.some.inj (hrun.symm.trans ht)
    exact ⟨k₂, hticks, loadHighestTask_same hload⟩
  · exact absurd ha (by simp)
  · exact absurd ha (by simp)
  · exact absurd ha (by simp)

end Kernel

end DfewOS
