import DfewOS.Steps
import DfewOS.TaskPoolSpec

/-!
# The states that safe steps reach

`Section` is the critical section a step of the running task goes through and
`Effect` says what it does to the tasks and the mutexes. Every safe step has one
of these effects and keeps `Inv`.
-/

namespace DfewOS
open Tasks (Linked)
open Transition (Run Reachable)

def Act.Special : Act → Prop
  | .tick | .call (.semMTake ..) | .call (.semMGive _) => True
  | _ => False

theorem Act.not_special {c : Call} (h : c.IsCalm) : ¬ (Act.call c).Special := by
  cases c <;> first | exact fun hs => hs | exact h.elim

namespace Kernel

variable {k k' k₁ : Kernel} {cur t p : TcbPtr} {c : Call} {o : Outcome} {d : Option (Call × Result)}

/-- Only the maps and the block of a task that is not live may differ. -/
structure Prepares (p : TcbPtr) (k k' : Kernel) : Prop where
  dead : k.ts.live p = false
  fields : k' = { k with ts := { k.ts with tcb := k'.ts.tcb }, tcbMap := k'.tcbMap,
                         stackMap := k'.stackMap }
  tcb : ∀ t, t ≠ p → k'.ts.tcb t = k.ts.tcb t

theorem Prepares.ts (h : Prepares p k k') : k'.ts = k.ts.setTcb p (k'.ts.tcb p) := by
  have hts : k'.ts = { k.ts with tcb := k'.ts.tcb } := congrArg Kernel.ts h.fields
  have htcb : k'.ts.tcb = Function.update k.ts.tcb p (k'.ts.tcb p) := by
    funext t
    by_cases ht : t = p
    · subst ht; simp
    · rw [Function.update_of_ne ht, h.tcb t ht]
  rw [hts]
  exact congrArg (fun f => { k.ts with tcb := f }) htcb

theorem Prepares.core (h : Prepares p k k') (hc : k.Core) : k'.Core := by
  have hcore := (hc.setTcb_dead h.dead (k'.ts.tcb p)).congr_maps k'.tcbMap k'.stackMap k.taskNum
  rw [← h.ts] at hcore
  have hfields : k' = { k with ts := k'.ts, tcbMap := k'.tcbMap, stackMap := k'.stackMap } := by
    have hts : k'.ts = { k.ts with tcb := k'.ts.tcb } := congrArg Kernel.ts h.fields
    rw [hts]
    exact h.fields
  rw [hfields]
  exact hcore

theorem Prepares.trans (h : Prepares p k k₁) (h' : Prepares p k₁ k') : Prepares p k k' := by
  refine ⟨h.dead, ?_, fun t ht => (h'.tcb t ht).trans (h.tcb t ht)⟩
  have h₁ := h.fields
  have h₂ := h'.fields
  rw [h₁] at h₂
  exact h₂

structure Creates (k : Kernel) (cur p : TcbPtr) : Prop where
  core : k.Core
  pool : ∀ pc : Pc, pc.creating = some p → (k.setPc cur pc).Pool
  dead : k.ts.live p = false

theorem Inv.creates (h : k.Inv) (hp : k.creating cur = some p) : Creates k cur p := by
  refine ⟨h.toCore, fun pc hpc => ?_, h.pool.dead cur p hp⟩
  refine h.pool.keep rfl rfl (fun t q hq => ?_) fun _ _ => rfl
  rw [creating_setPc] at hq
  split_ifs at hq with ht
  · rw [ht, hp, ← hpc, hq]
  · exact hq

theorem alloc_creates (cur : TcbPtr) (h : k.Core) (hpool : k.Pool)
    (hval : BitMap.value k.tcbMap p.val = true) {v : OsTcb} (hv : Unborn v) :
    Prepares p k { k with tcbMap := BitMap.clear k.tcbMap p.val, ts := k.ts.setTcb p v } ∧
      Creates { k with tcbMap := BitMap.clear k.tcbMap p.val, ts := k.ts.setTcb p v } cur p := by
  have hdead : k.ts.live p = false := by
    cases hl : k.ts.live p with
    | false => rfl
    | true =>
      rw [hpool.live p hl] at hval
      exact absurd hval (by decide)
  have hprep : Prepares p k
      { k with tcbMap := BitMap.clear k.tcbMap p.val, ts := k.ts.setTcb p v } :=
    ⟨hdead, rfl, fun t ht => by simp [Tasks.setTcb, ht]⟩
  refine ⟨hprep, hprep.core h, fun pc hpc => ?_, hdead⟩
  have hkeep : ∀ u : TcbPtr, BitMap.value k.tcbMap u.val = false →
      BitMap.value (BitMap.clear k.tcbMap p.val) u.val = false := fun u hu => by
    rw [BitMap.value_clear, hu, Bool.false_and]
  have hcre : ∀ u q, (setPc { k with tcbMap := BitMap.clear k.tcbMap p.val, ts := k.ts.setTcb p v }
      cur pc).creating u = some q → (u = cur ∧ q = p) ∨ (u ≠ cur ∧ k.creating u = some q) := by
    intro u q hq
    rw [creating_setPc] at hq
    split_ifs at hq with hu
    · rw [hpc] at hq
      exact Or.inl ⟨hu, (Option.some.inj hq).symm⟩
    · exact Or.inr ⟨hu, hq⟩
  have hother : ∀ u q, k.creating u = some q → q ≠ p := by
    rintro u q hq rfl
    rw [hpool.taken u q hq] at hval
    exact absurd hval (by decide)
  refine ⟨fun u hu => hkeep u (hpool.live u hu), ?_, ?_, ?_, ?_⟩
  · intro u q hq
    rcases hcre u q hq with ⟨-, rfl⟩ | ⟨-, hq⟩
    · simp [setPc, BitMap.value_clear]
    · exact hkeep q (hpool.taken u q hq)
  · intro u q hq
    rcases hcre u q hq with ⟨-, rfl⟩ | ⟨-, hq⟩
    · exact hdead
    · exact hpool.dead u q hq
  · intro u q hq
    rcases hcre u q hq with ⟨-, rfl⟩ | ⟨-, hq⟩
    · simpa [setPc, Tasks.setTcb] using hv
    · have hne := hother u q hq
      simpa [setPc, Tasks.setTcb, hne] using hpool.unborn u q hq
  · intro u w q hu hw
    rcases hcre u q hu with ⟨hu₁, hq₁⟩ | ⟨-, hu₁⟩
    · rcases hcre w q hw with ⟨hw₁, -⟩ | ⟨-, hw₁⟩
      · rw [hu₁, hw₁]
      · exact absurd hq₁ (hother w q hw₁)
    · rcases hcre w q hw with ⟨-, hq₁⟩ | ⟨-, hw₁⟩
      · exact absurd hq₁ (hother u q hu₁)
      · exact hpool.distinct u w q hu₁ hw₁

theorem allocStack_fields (k : Kernel) (size : ℕ) :
    (k.allocStack size).1 = { k with stackMap := (k.allocStack size).1.stackMap } := by
  simp only [allocStack]
  split_ifs <;> rfl

theorem taskCreateStack_cases (he : k.taskCreateStack p = (k', o)) :
    (o = .unlock (.releaseTcb p) ∨ o = .unlock (.linkTask p)) ∧
      ∃ v : OsTcb, v.taskPriority = (k.ts.tcb p).taskPriority ∧
        v.originPri = (k.ts.tcb p).originPri ∧
        k' = { k with ts := k.ts.setTcb p v, stackMap := k'.stackMap } := by
  have hself : k.ts.setTcb p (k.ts.tcb p) = k.ts := by rw [Tasks.setTcb, Function.update_eq_self]
  have hfields := k.allocStack_fields (k.ts.tcb p).stackSize
  simp only [taskCreateStack] at he
  split_ifs at he with h0
  · obtain ⟨rfl, rfl⟩ := Prod.mk.inj he
    exact ⟨Or.inl rfl, k.ts.tcb p, rfl, rfl, by rw [hself]; exact hfields⟩
  · obtain ⟨rfl, rfl⟩ := Prod.mk.inj he
    refine ⟨Or.inr rfl, { k.ts.tcb p with
      stackStart := (k.allocStack (k.ts.tcb p).stackSize).2 }, rfl, rfl, ?_⟩
    rw [hfields]

theorem taskCreateStack_creates (h : Creates k cur p) (he : k.taskCreateStack p = (k', o)) :
    Prepares p k k' ∧ Creates k' cur p ∧
      (o = .unlock (.releaseTcb p) ∨ o = .unlock (.linkTask p)) := by
  have hrange : ∀ pc : Pc, pc.creating = some p → Unborn (k.ts.tcb p) := fun pc hpc =>
    (h.pool pc hpc).unborn cur p (by rw [creating_setPc, if_pos rfl, hpc])
  obtain ⟨hout, v, hpri, hor, hk'⟩ := taskCreateStack_cases he
  have hprep : Prepares p k k' := by
    rw [hk']
    exact ⟨h.dead, rfl, fun t ht => by simp [Tasks.setTcb, ht]⟩
  refine ⟨hprep, ⟨hprep.core h.core, fun pc hpc => ?_, by rw [hk']; exact h.dead⟩, hout⟩
  have hpool := h.pool pc hpc
  have hcre : (k'.setPc cur pc).creating = (k.setPc cur pc).creating := by rw [hk']; rfl
  have hmap : (k'.setPc cur pc).tcbMap = (k.setPc cur pc).tcbMap := by rw [hk']; rfl
  have hlive : (k'.setPc cur pc).ts.live = (k.setPc cur pc).ts.live := by rw [hk']; rfl
  refine ⟨?_, ?_, ?_, ?_, ?_⟩
  · rw [hmap, hlive]; exact hpool.live
  · rw [hmap, hcre]; exact hpool.taken
  · rw [hlive, hcre]; exact hpool.dead
  · intro u q hq
    rw [hcre] at hq
    by_cases hqp : q = p
    · subst hqp
      have hr := hrange pc hpc
      rw [hk']
      simp only [setPc, Tasks.setTcb, Function.update_self]
      exact ⟨⟨by rw [hpri]; exact hr.priority, by rw [hor]; exact hr.origin⟩,
        by rw [hpri, hor]; exact hr.unboosted⟩
    · have hsame : (k'.setPc cur pc).ts.tcb q = k.ts.tcb q := by
        rw [hk']
        simp [setPc, Tasks.setTcb, hqp]
      rw [hsame]
      exact hpool.unborn u q hq
  · rw [hcre]; exact hpool.distinct

theorem creating_setPc_user (h : (k.setPc cur .user).creating t = some p) :
    t ≠ cur ∧ k.creating t = some p := by
  refine ⟨?_, creating_setPc_of_none rfl h⟩
  rintro rfl
  rw [creating_setPc, if_pos rfl] at h
  exact absurd h (by simp [Pc.creating])

theorem Creates.others (h : Creates k cur p) {u q : TcbPtr} (hu : u ≠ cur)
    (hq : k.creating u = some q) :
    q ≠ p ∧ BitMap.value k.tcbMap q.val = false ∧ k.ts.live q = false ∧ Unborn (k.ts.tcb q) := by
  have hpool := h.pool (.unlocked (.semMInit 0) (.linkTask p)) rfl
  have hq' : (k.setPc cur (.unlocked (.semMInit 0) (.linkTask p))).creating u = some q := by
    rw [creating_setPc, if_neg hu, hq]
  refine ⟨?_, hpool.taken u q hq', hpool.dead u q hq', hpool.unborn u q hq'⟩
  rintro rfl
  exact hu (hpool.distinct u cur q hq' (by rw [creating_setPc, if_pos rfl]; rfl))

theorem Creates.distinct (h : Creates k cur p) {u w q : TcbPtr} (hu : u ≠ cur) (hw : w ≠ cur)
    (hqu : k.creating u = some q) (hqw : k.creating w = some q) : u = w := by
  apply (h.pool (.unlocked (.semMInit 0) (.linkTask p)) rfl).distinct u w q
  · rw [creating_setPc, if_neg hu, hqu]
  · rw [creating_setPc, if_neg hw, hqw]

theorem Creates.taken (h : Creates k cur p) : BitMap.value k.tcbMap p.val = false := by
  apply (h.pool (.unlocked (.semMInit 0) (.linkTask p)) rfl).taken cur p
  rw [creating_setPc, if_pos rfl]
  rfl

theorem Creates.live (h : Creates k cur p) {u : TcbPtr} (hu : k.ts.live u = true) :
    u ≠ p ∧ BitMap.value k.tcbMap u.val = false := by
  refine ⟨?_, (h.pool (.unlocked (.semMInit 0) (.linkTask p)) rfl).live u hu⟩
  rintro rfl
  rw [h.dead] at hu
  exact absurd hu (by decide)

theorem releaseTcb_prepares (h : Creates k cur p) : Prepares p k (k.releaseTcb p) :=
  ⟨h.dead, rfl, fun _ _ => rfl⟩

theorem releaseTcb_pool (h : Creates k cur p) : ((k.releaseTcb p).setPc cur .user).Pool := by
  have hval : ∀ u : TcbPtr, u ≠ p → BitMap.value k.tcbMap u.val = false →
      BitMap.value (BitMap.set k.tcbMap p.val) u.val = false := by
    intro u hu hv
    have hne : p.val ≠ u.val := fun he => hu (Fin.ext he.symm)
    rw [BitMap.value_set, hv, Bool.false_or, decide_eq_false hne]
  have hcre : ∀ u q, ((k.releaseTcb p).setPc cur .user).creating u = some q →
      u ≠ cur ∧ k.creating u = some q := fun u q hq => creating_setPc_user hq
  refine ⟨fun u hu => ?_, fun u q hq => ?_, fun u q hq => ?_, fun u q hq => ?_,
    fun u w q hu hw => ?_⟩
  · exact hval u (h.live hu).1 (h.live hu).2
  · obtain ⟨hu, hq⟩ := hcre u q hq
    exact hval q (h.others hu hq).1 (h.others hu hq).2.1
  · obtain ⟨hu, hq⟩ := hcre u q hq
    exact (h.others hu hq).2.2.1
  · obtain ⟨hu, hq⟩ := hcre u q hq
    exact (h.others hu hq).2.2.2
  · obtain ⟨hu, hqu⟩ := hcre u q hu
    obtain ⟨hw, hqw⟩ := hcre w q hw
    exact h.distinct hu hw hqu hqw

theorem Creates.unborn (h : Creates k cur p) : Unborn (k.ts.tcb p) := by
  apply (h.pool (.unlocked (.semMInit 0) (.linkTask p)) rfl).unborn cur p
  rw [creating_setPc, if_pos rfl]
  rfl

theorem link_births (h : Creates k cur p) : Births k p (k.taskCreateLink p).1 :=
  taskCreateLink_births h.core.linked h.dead h.unborn.toInRange

theorem link_pool (h : Creates k cur p) : ((k.taskCreateLink p).1.setPc cur .user).Pool := by
  have hb := link_births h
  have hcre : ∀ u q, ((k.taskCreateLink p).1.setPc cur .user).creating u = some q →
      u ≠ cur ∧ k.creating u = some q := by
    intro u q hq
    obtain ⟨hu, hq⟩ := creating_setPc_user hq
    refine ⟨hu, ?_⟩
    by_cases hup : u = p
    · subst hup
      simp [creating, taskCreateLink, Pc.creating] at hq
    · simpa [creating, taskCreateLink, hup] using hq
  have hother : ∀ q, q ≠ p → (k.taskCreateLink p).1.ts.live q = k.ts.live q ∧
      (k.taskCreateLink p).1.ts.tcb q = k.ts.tcb q := by
    intro q hq
    rw [hb.live, hb.tcb, Function.update_of_ne hq, Function.update_of_ne hq]
    exact ⟨rfl, rfl⟩
  refine ⟨fun u hu => ?_, fun u q hq => ?_, fun u q hq => ?_, fun u q hq => ?_,
    fun u w q hu hw => ?_⟩
  · by_cases hup : u = p
    · rw [hup]
      exact h.taken
    · exact (h.live (by rw [← (hother u hup).1]; exact hu)).2
  · obtain ⟨hu, hq⟩ := hcre u q hq
    exact (h.others hu hq).2.1
  · obtain ⟨hu, hq⟩ := hcre u q hq
    obtain ⟨hne, -, hdead, -⟩ := h.others hu hq
    exact (hother q hne).1.trans hdead
  · obtain ⟨hu, hq⟩ := hcre u q hq
    obtain ⟨hne, -, -, hr⟩ := h.others hu hq
    have hsame := (hother q hne).2
    rw [← hsame] at hr
    exact hr
  · obtain ⟨hu, hqu⟩ := hcre u q hu
    obtain ⟨hw, hqw⟩ := hcre w q hw
    exact h.distinct hu hw hqu hqw

/-- The critical section a step of the running task goes through, and the call it is part of. -/
inductive Section (k : Kernel) (cur : TcbPtr) : Act → Call → Kernel × Outcome → Prop
  | call {c : Call} {r : Kernel × Outcome} :
      k.pc cur = .user → k.enter cur c = some r → Section k cur (.call c) c r
  | resume {c : Call} {r : Kernel × Outcome} :
      k.pc cur = .switched c → k.resume cur c = some r → Section k cur .resume c r
  | go {c : Call} {x : Rest} : k.pc cur = .unlocked c x → Section k cur .go c (k.go x)

theorem exec_cases {a : Act} (he : k.exec a = some (k', d)) :
    (∃ cur c r, k.curTcb = some cur ∧ Section k cur a c r ∧ finish cur c r = some (k', d)) ∨
    (∃ cur k₁, k.curTcb = some cur ∧ a = .tick ∧ k.tickAnnounce cur = some k₁ ∧
      k₁.loadHighestTask = some k' ∧ d = none) ∨
    (∃ cur, k.curTcb = some cur ∧ a = .exit ∧ k.pc cur = .user ∧
      (k.taskReturn cur).loadHighestTask = some k' ∧ d = none) ∨
    (∃ c x, k.curTcb = none ∧ a = .boot c ∧ k.bootCall c = some (k', x) ∧ d = some (c, x)) ∨
    (k.curTcb = none ∧ a = .load ∧ k.loadHighestTask = some k' ∧ d = none) := by
  have hload : ∀ {k₁ : Kernel}, (k₁.loadHighestTask.map fun k => (k, none)) = some (k', d) →
      k₁.loadHighestTask = some k' ∧ d = none := by
    intro k₁ h
    obtain ⟨k₂, hk, heq⟩ := Option.map_eq_some_iff.mp h
    obtain ⟨rfl, rfl⟩ := Prod.mk.inj heq
    exact ⟨hk, rfl⟩
  cases a with
  | call c =>
    simp only [exec, Option.bind_eq_bind, Option.bind_eq_some_iff] at he
    obtain ⟨cur, hcur, he⟩ := he
    split_ifs at he with hpc
    obtain ⟨r, hr, hf⟩ := Option.bind_eq_some_iff.mp he
    exact Or.inl ⟨cur, c, r, hcur, .call hpc hr, hf⟩
  | resume =>
    simp only [exec, Option.bind_eq_bind, Option.bind_eq_some_iff] at he
    obtain ⟨cur, hcur, he⟩ := he
    cases hpc : k.pc cur with
    | user => simp [hpc] at he
    | unlocked c x => simp [hpc] at he
    | switched c =>
      simp only [hpc] at he
      obtain ⟨r, hr, hf⟩ := Option.bind_eq_some_iff.mp he
      exact Or.inl ⟨cur, c, r, hcur, .resume hpc hr, hf⟩
  | go =>
    simp only [exec, Option.bind_eq_bind, Option.bind_eq_some_iff] at he
    obtain ⟨cur, hcur, he⟩ := he
    cases hpc : k.pc cur with
    | user => simp [hpc] at he
    | switched c => simp [hpc] at he
    | unlocked c x =>
      simp only [hpc] at he
      exact Or.inl ⟨cur, c, k.go x, hcur, .go hpc, he⟩
  | tick =>
    simp only [exec, Option.bind_eq_bind, Option.bind_eq_some_iff] at he
    obtain ⟨cur, hcur, he⟩ := he
    split_ifs at he
    obtain ⟨k₁, hk, he⟩ := Option.bind_eq_some_iff.mp he
    exact Or.inr (Or.inl ⟨cur, k₁, hcur, rfl, hk, hload he⟩)
  | exit =>
    simp only [exec, Option.bind_eq_bind, Option.bind_eq_some_iff] at he
    obtain ⟨cur, hcur, he⟩ := he
    split_ifs at he with hpc
    exact Or.inr (Or.inr (Or.inl ⟨cur, hcur, rfl, hpc, hload he⟩))
  | boot c =>
    simp only [exec] at he
    split_ifs at he with hcur
    obtain ⟨⟨k₁, x⟩, hk, heq⟩ := Option.map_eq_some_iff.mp he
    obtain ⟨rfl, rfl⟩ := Prod.mk.inj heq
    exact Or.inr (Or.inr (Or.inr (Or.inl ⟨c, x, hcur, rfl, hk, rfl⟩)))
  | load =>
    simp only [exec] at he
    split_ifs at he with hcur
    exact Or.inr (Or.inr (Or.inr (Or.inr ⟨hcur, rfl, hload he⟩)))

/-- What a safe step does to the tasks and the mutexes, with the running task `cur`. The tick,
the return of a task and the first load end with `LOAD_HIGHEST_TASK`, like a switch. -/
inductive Effect (k : Kernel) : Option TcbPtr → Act → Kernel × Outcome → Prop
  | calm {cur : Option TcbPtr} {a : Act} {r : Kernel × Outcome} :
      ¬ a.Special → Calm cur k k.ts.members r → Effect k cur a r
  | prepare {cur : Option TcbPtr} {a : Act} {r : Kernel × Outcome} {p : TcbPtr} :
      ¬ a.Special → Prepares p k r.1 → Effect k cur a r
  | birth {cur : Option TcbPtr} {a : Act} {r : Kernel × Outcome} {k₀ : Kernel} {p : TcbPtr} :
      ¬ a.Special → Prepares p k k₀ → Unborn (k₀.ts.tcb p) → Births k₀ p r.1 → Effect k cur a r
  | delete {cur t : TcbPtr} {r : Kernel × Outcome} :
      t ≠ cur → k.ts.live t = true →
      (∀ m, (k.semM m).ownerTcb = some t → k.ts.members (.semM m) = []) →
      Terminates k t r.1 → Effect k (some cur) (.call (.taskDelete t)) r
  | exit {cur : TcbPtr} {k₁ : Kernel} :
      (∀ m, (k.semM m).ownerTcb ≠ some cur) → Terminates k cur k₁ →
      Effect k (some cur) .exit (k₁, .switch)
  | semMInit {cur : Option TcbPtr} {a : Act} {m : ObjPtr} :
      ¬ a.Special → m ∉ k.semMList → k.ts.members (.semM m) = [] → Effect k cur a (k.semMInit m)
  | acquire {cur : TcbPtr} {m : ObjPtr} {timeout : ℕ} :
      (k.semM m).ownerTcb = none →
      Effect k (some cur) (.call (.semMTake m timeout))
        (k.setSemM m { k.semM m with ownerTcb := some cur, takeCount := 1 }, .ret (.status .ok))
  | nest {cur : TcbPtr} {m : ObjPtr} {timeout : ℕ} :
      (k.semM m).ownerTcb = some cur →
      Effect k (some cur) (.call (.semMTake m timeout))
        (k.setSemM m { k.semM m with takeCount := inc32 (k.semM m).takeCount },
          .ret (.status .error))
  | refuse {cur : TcbPtr} {m : ObjPtr} :
      (k.semM m).ownerTcb ≠ none → (k.semM m).ownerTcb ≠ some cur →
      Effect k (some cur) (.call (.semMTake m 0)) (k, .ret (.status .error))
  | block {cur : TcbPtr} {m : ObjPtr} {timeout : ℕ} {k₁ k' : Kernel} {xs ys : List TcbPtr} :
      (k.semM m).ownerTcb ≠ none → (k.semM m).ownerTcb ≠ some cur → timeout ≠ 0 →
      BlocksOn k cur m timeout k₁ k' xs ys →
      Effect k (some cur) (.call (.semMTake m timeout)) (k', .switch)
  | countDown {cur : TcbPtr} {m : ObjPtr} :
      dec32 (k.semM m).takeCount ≠ 0 →
      Effect k (some cur) (.call (.semMGive m))
        (k.setSemM m { k.semM m with takeCount := dec32 (k.semM m).takeCount },
          .ret (.status .ok))
  | give {cur : TcbPtr} {m : ObjPtr} {r : Kernel × Outcome} {n : Option TcbPtr}
      {rest : List TcbPtr} :
      dec32 (k.semM m).takeCount = 0 → Gives k cur m r.1 n rest →
      Effect k (some cur) (.call (.semMGive m)) r
  | tick {cur : TcbPtr} {k₁ : Kernel} : Ticks k k₁ → Effect k (some cur) .tick (k₁, .switch)

theorem Prepares.running (hprep : Prepares p k k') (h : k.Inv) (hcur : k.curTcb = some cur) :
    k'.curTcb = some cur ∧ k'.pc = k.pc ∧ k'.ts.live cur = true ∧
      (k'.ts.tcb cur).status = .ready := by
  obtain ⟨hl, hs⟩ := h.running cur hcur
  have hne : cur ≠ p := by
    rintro rfl
    rw [hprep.dead] at hl
    exact absurd hl (by decide)
  refine ⟨?_, ?_, ?_, ?_⟩
  · rw [hprep.fields, hcur]
  · rw [hprep.fields]
  · rw [hprep.fields, hl]
  · rw [hprep.tcb cur hne, hs]

theorem Creates.settled {r : Kernel × Outcome} (hc : Creates r.1 cur p) (h : k.Inv)
    (hcur : k.curTcb = some cur) (hprep : Prepares p k r.1)
    (ho : (r.2.pc c).creating = some p) : Settled cur c r := by
  obtain ⟨hcur', hpc, hl, hs⟩ := hprep.running h hcur
  exact ⟨hc.core, hcur', by rw [hpc]; exact h.idlePc, hc.pool _ ho, fun _ => ⟨hl, hs⟩⟩

theorem Calm.sound {r : Kernel × Outcome} {a : Act} (hcalm : Calm (some cur) k k.ts.members r)
    (h : k.Inv) (hcur : k.curTcb = some cur) (hne : cur ≠ idle) (ha : ¬ a.Special)
    (hrest : ∀ x, r.2 = .unlock x → x.creating = none) :
    Effect k (some cur) a r ∧ Settled cur c r := by
  refine ⟨.calm ha hcalm, (hcalm.keeps h.toCore (by simpa using hne) ?_).settled h hcur hrest⟩
  intro t ht
  obtain rfl := Option.some.inj ht
  exact (h.running cur hcur).2

theorem taskCreate_sound {stackSize priority : ℕ} (h : k.Inv) (hcur : k.curTcb = some cur)
    (hne : cur ≠ idle) (hp : priority < priorityNumMax) :
    Effect k (some cur) (.call (.taskCreate stackSize priority))
        (k.taskCreate stackSize priority) ∧
      Settled cur c (k.taskCreate stackSize priority) := by
  obtain ⟨k', o, he⟩ : ∃ k' o, k.taskCreate stackSize priority = (k', o) := ⟨_, _, rfl⟩
  rw [he]
  rcases taskCreate_cases he with ⟨rfl, rfl⟩ | ⟨p, v, hval, rfl, hpri, hor, -, rfl⟩
  · exact Calm.sound (.of_ts (.refl h.linked) rfl) h hcur hne (fun hs => hs) (by simp)
  · have hv : Unborn v := ⟨⟨by rw [hpri]; exact hp, by rw [hor]; exact hp⟩, by rw [hpri, hor]⟩
    obtain ⟨hprep, hcre⟩ := alloc_creates cur h.toCore h.pool hval hv
    exact ⟨.prepare (fun hs => hs) hprep, hcre.settled h hcur hprep rfl⟩

theorem taskDelete_sound (h : k.Inv) (hcur : k.curTcb = some cur) (hl : k.ts.live t = true)
    (hidle : t ≠ idle) (hsafe : Call.Safe k (.taskDelete t)) {r : Kernel × Outcome}
    (he : k.taskDelete t = some r) :
    Effect k (some cur) (.call (.taskDelete t)) r ∧ Settled cur c r := by
  obtain ⟨hself, hfree⟩ := hsafe
  obtain ⟨hlcur, hs⟩ := h.running cur hcur
  have hne : t ≠ cur := by
    rintro rfl
    exact hself hcur
  obtain ⟨k', hrun, ht⟩ := taskDelete_terminates h.toCore hl hfree
  obtain rfl := Option.some.inj (hrun.symm.trans he)
  have hpc : k'.pc = k.pc := by rw [ht.fields]
  have hcur' : k'.curTcb = some cur := by rw [ht.fields, hcur]
  refine ⟨.delete hne hl hfree ht, ht.core h.toCore hidle hfree, hcur', ?_, ?_, fun _ => ⟨?_, ?_⟩⟩
  · rw [hpc]
    exact h.idlePc
  · refine (ht.pool h.pool hl).keep rfl rfl (fun u p hp => ?_) fun _ _ => rfl
    exact (creating_setPc_user hp).2
  · rw [ht.live, Function.update_of_ne hne.symm, hlcur]
  · rw [ht.tcb, hs]

theorem enter_sound {r : Kernel × Outcome} (h : k.Inv) (hcur : k.curTcb = some cur)
    (hne : cur ≠ idle) (hok : k.callOk c) (hsafe : c.Safe k) (he : k.enter cur c = some r) :
    Effect k (some cur) (.call c) r ∧ Settled cur c r := by
  obtain ⟨hl, hs⟩ := h.running cur hcur
  obtain ⟨k', o⟩ := r
  by_cases hc : c.IsCalm
  · exact Calm.sound (enter_calm h.linked hl hs hc hok hsafe he) h hcur hne
      (Act.not_special hc)
        fun x hx => enter_rest hc (by rw [he, show o = .unlock x from hx])
  · obtain ⟨huse, hfresh, hargs⟩ := hok
    cases c
    case taskCreate stackSize priority =>
      obtain hr := Option.some.inj he
      rw [← hr]
      exact taskCreate_sound h hcur hne hargs.2
    case taskDelete t => exact taskDelete_sound h hcur hargs.1 hargs.2 hsafe he
    case semMInit m =>
      obtain hr := Option.some.inj he
      rw [← hr]
      have hk : Keeps (some cur) k (k.semMInit m) := semMInit_keeps h.toCore
        (fun t ht => by rw [← Option.some.inj ht]; exact hs) hfresh.1 hfresh.2
      refine ⟨.semMInit (fun hs => hs) hfresh.1 hfresh.2, hk.settled h hcur ?_⟩
      exact fun x hx => absurd hx (by simp [semMInit])
    case semMTake m timeout =>
      have hk := semMTake_keeps h.toCore hl hs hne huse he
      rcases semMTake_cases h.toCore hl hs he with ⟨ho, rfl, rfl⟩ | ⟨ho, rfl, rfl⟩ |
        ⟨hnone, hother, rfl, rfl, rfl⟩ | ⟨hnone, hother, htime, rfl, k₁, xs, ys, hb⟩
      · exact ⟨.acquire ho, hk.settled h hcur (by simp)⟩
      · exact ⟨.nest ho, hk.settled h hcur (by simp)⟩
      · exact ⟨.refuse hnone hother, hk.settled h hcur (by simp)⟩
      · exact ⟨.block hnone hother htime hb, hk.settled h hcur (by simp)⟩
    case semMGive m =>
      obtain hr := Option.some.inj he
      have hk := semMGive_keeps h.toCore hl hs huse
      rw [hr] at hk
      rcases semMGive_cases h.linked hl hs hr with ⟨hd, rfl, rfl⟩ | ⟨hd, ho, n, rest, hg⟩
      · exact ⟨.countDown hd, hk.settled h hcur (by simp)⟩
      · refine ⟨.give hd hg, hk.settled h hcur fun x hx => ?_⟩
        rw [show o = .unlock x from hx] at ho
        exact absurd ho (by simp)
    all_goals exact absurd trivial hc

theorem go_sound {x : Rest} (h : k.Inv) (hcur : k.curTcb = some cur) (hne : cur ≠ idle)
    (hpc : k.pc cur = .unlocked c x) (hok : k.restOk x) :
    Effect k (some cur) .go (k.go x) ∧ Settled cur c (k.go x) := by
  have hcre : ∀ p, x.creating = some p → Creates k cur p := fun p hp =>
    h.creates (by rw [creating, hpc]; exact hp)
  cases x with
  | allocStack p =>
    obtain ⟨k', o, he⟩ : ∃ k' o, k.taskCreateStack p = (k', o) := ⟨_, _, rfl⟩
    rw [show k.go (.allocStack p) = (k', o) from he]
    obtain ⟨hprep, hc, ho⟩ := taskCreateStack_creates (hcre p rfl) he
    refine ⟨.prepare (fun hs => hs) hprep, hc.settled h hcur hprep ?_⟩
    rcases ho with rfl | rfl <;> rfl
  | releaseTcb p =>
    have hprep := releaseTcb_prepares (hcre p rfl)
    obtain ⟨hcur', hpc', hl, hs⟩ := hprep.running h hcur
    refine ⟨.prepare (fun hs => hs) hprep, hprep.core h.toCore, hcur', ?_, ?_, fun _ => ⟨hl, hs⟩⟩
    · rw [show (k.go (.releaseTcb p)).1 = k.releaseTcb p from rfl, hpc']
      exact h.idlePc
    · exact releaseTcb_pool (hcre p rfl)
  | linkTask p =>
    obtain ⟨hl, hs⟩ := h.running cur hcur
    have hc := hcre p rfl
    have hb := link_births hc
    have hnp : cur ≠ p := (hc.live hl).1
    have hip : idle ≠ p := (hc.live h.idle.1).1
    refine ⟨.birth (fun hs => hs) ⟨hc.dead, rfl, fun _ _ => rfl⟩ hc.unborn hb, hb.core h.toCore hc.dead, hcur, ?_,
      link_pool hc, fun _ => ⟨?_, ?_⟩⟩
    · simpa [go, taskCreateLink, hip] using h.idlePc
    · rw [show (k.go (.linkTask p)).1 = (k.taskCreateLink p).1 from rfl, hb.live,
        Function.update_of_ne hnp, hl]
    · rw [show (k.go (.linkTask p)).1 = (k.taskCreateLink p).1 from rfl, hb.tcb,
        Function.update_of_ne hnp, hs]
  | unlistSemB s =>
    exact Calm.sound (semBDelete_calm h.linked hok) h hcur hne (fun hs => hs)
      (by simp [go])
  | unlistSemC s =>
    exact Calm.sound (semCDelete_calm h.linked hok) h hcur hne (fun hs => hs)
      (by simp [go])

theorem section_sound {a : Act} {r : Kernel × Outcome} (h : k.Inv) (hcur : k.curTcb = some cur)
    (hdef : k.defined a) (hsafe : a.Safe k) (hs : Section k cur a c r) :
    cur ≠ idle ∧ Effect k (some cur) a r ∧ Settled cur c r := by
  have hbusy : k.pc cur ≠ .user → cur ≠ idle := by
    rintro hpc rfl
    exact hpc h.idlePc
  cases hs with
  | call hpc he =>
    have hne : cur ≠ idle := by
      rintro rfl
      exact hdef.1 hcur
    exact ⟨hne, enter_sound h hcur hne hdef.2 hsafe he⟩
  | resume hpc he =>
    have hne := hbusy (by rw [hpc]; simp)
    obtain ⟨hl, hs⟩ := h.running cur hcur
    obtain ⟨k', o⟩ := r
    have huse : (k.ts.tcb cur).delayTicks ≠ 0 → k.againInUse c := hdef cur c hcur hpc
    exact ⟨hne, Calm.sound (resume_calm h.linked hl hs huse he) h hcur hne
      (fun hs => hs)
      fun x hx => absurd (by rw [he, show o = .unlock x from hx]) resume_unlock⟩
  | go hpc =>
    have hne := hbusy (by rw [hpc]; simp)
    exact ⟨hne, go_sound h hcur hne hpc (hdef cur c _ hcur hpc)⟩

theorem loadHighestTask_same (h : k.loadHighestTask = some k') :
    k' = { k with curTcb := k'.curTcb } := by
  obtain ⟨t, -, rfl⟩ := Option.map_eq_some_iff.mp h
  rfl

theorem setPc_self (h : k.pc t = .user) : k.setPc t .user = k := by
  rw [setPc, ← h, Function.update_eq_self]

theorem Keeps.boot_inv {r : Kernel × Outcome} (hk : Keeps none k r) (h : k.Inv)
    (hcur : k.curTcb = none) : r.1.Inv := by
  refine ⟨hk.core, h.pool.keep hk.tcbMap hk.live (fun t p hp => ?_) hk.dead, ?_, fun t ht => ?_⟩
  · rwa [creating, hk.pc] at hp
  · rw [hk.pc]
    exact h.idlePc
  · rw [hk.curTcb, hcur] at ht
    exact absurd ht (by simp)

theorem boot_taskCreate_sound {stackSize priority : ℕ} {x : Result} (h : k.Inv)
    (hcur : k.curTcb = none) (hp : priority < priorityNumMax)
    (he : runSections 2 (k.taskCreate stackSize priority) = some (k', x)) :
    Effect k none (.boot (.taskCreate stackSize priority)) (k', .ret x) ∧ k'.Inv := by
  obtain ⟨k₁, o₁, he₁⟩ : ∃ k₁ o, k.taskCreate stackSize priority = (k₁, o) := ⟨_, _, rfl⟩
  rw [he₁] at he
  rcases taskCreate_cases he₁ with ⟨rfl, rfl⟩ | ⟨p, v, hval, rfl, hpri, hor, -, rfl⟩
  · obtain ⟨rfl, rfl⟩ := Prod.mk.inj (Option.some.inj he)
    exact ⟨.calm (fun hs => hs) (.of_ts (.refl h.linked) rfl), h⟩
  · have hv : Unborn v := ⟨⟨by rw [hpri]; exact hp, by rw [hor]; exact hp⟩, by rw [hpri, hor]⟩
    obtain ⟨hprep₁, hcre₁⟩ := alloc_creates idle h.toCore h.pool hval hv
    generalize hk₁ : ({ k with
      tcbMap := BitMap.clear k.tcbMap p.val, ts := k.ts.setTcb p v } : Kernel) = k₁ at *
    obtain ⟨k₂, o₂, he₂⟩ : ∃ k₂ o, k₁.taskCreateStack p = (k₂, o) := ⟨_, _, rfl⟩
    obtain ⟨hprep₂, hcre₂, ho₂⟩ := taskCreateStack_creates hcre₁ he₂
    have hprep := hprep₁.trans hprep₂
    have hidle : k₂.pc idle = .user := by
      rw [hprep.fields]
      exact h.idlePc
    have hnone : k₂.curTcb = none := by rw [hprep.fields, hcur]
    have hnext : runSections 1 (k₁.go (.allocStack p)) = some (k', x) := he
    rw [show k₁.go (.allocStack p) = (k₂, o₂) from he₂] at hnext
    rcases ho₂ with rfl | rfl
    · obtain ⟨rfl, rfl⟩ := Prod.mk.inj (Option.some.inj hnext)
      have hpool := releaseTcb_pool hcre₂
      rw [setPc_self (show (k₂.releaseTcb p).pc idle = .user from hidle)] at hpool
      have hprep₃ := hprep.trans (releaseTcb_prepares hcre₂)
      refine ⟨.prepare (fun hs => hs) hprep₃, hprep₃.core h.toCore, hpool, hidle, fun t ht => ?_⟩
      have hc : k₂.curTcb = some t := ht
      rw [hnone] at hc
      exact absurd hc (by simp)
    · obtain ⟨rfl, rfl⟩ := Prod.mk.inj (Option.some.inj hnext)
      have hip : idle ≠ p := (hcre₂.live hcre₂.core.idle.1).1
      have hpc : (k₂.taskCreateLink p).1.pc idle = .user := by
        simpa [taskCreateLink, hip] using hidle
      have hpool := link_pool hcre₂
      rw [setPc_self hpc] at hpool
      have hb := link_births hcre₂
      refine ⟨.birth (fun hs => hs) hprep hcre₂.unborn hb, hb.core hcre₂.core hcre₂.dead, hpool, hpc, fun t ht => ?_⟩
      have hc : k₂.curTcb = some t := ht
      rw [hnone] at hc
      exact absurd hc (by simp)

theorem boot_sound {x : Result} (h : k.Inv) (hcur : k.curTcb = none) (hok : k.callOk c)
    (he : k.bootCall c = some (k', x)) : Effect k none (.boot c) (k', .ret x) ∧ k'.Inv := by
  obtain ⟨-, hfresh, hargs⟩ := hok
  have hnone : (none : Option TcbPtr) ≠ some idle := by simp
  have hcalm : ∀ {r : Kernel × Outcome}, Calm none k k.ts.members r → r = (k', .ret x) →
      Effect k none (.boot c) (k', .ret x) ∧ k'.Inv := by
    rintro r hr rfl
    have hk : Keeps none k (k', .ret x) := hr.keeps h.toCore hnone (by simp)
    exact ⟨.calm (fun hs => hs) hr, hk.boot_inv h hcur⟩
  have hret : ∀ {r : Kernel × Outcome}, runSections 0 r = some (k', x) → r = (k', .ret x) := by
    rintro ⟨k₁, o⟩ hr
    cases o <;> simp [runSections] at hr
    rw [hr.1, hr.2]
  cases c
  case taskCreate => exact boot_taskCreate_sound h hcur hargs.2 he
  case semBInit s => exact hcalm (semBInit_calm h.linked hfresh.1 hfresh.2) (hret he)
  case semCInit s i n => exact hcalm (semCInit_calm h.linked hfresh.1 hfresh.2 i n) (hret he)
  case msgQInit q n l =>
    exact hcalm (msgQInit_calm h.linked hfresh.1 hfresh.2.1 hfresh.2.2 n l) (hret he)
  case semMInit m =>
    have hk : Keeps none k (k.semMInit m) :=
      semMInit_keeps h.toCore (by simp) hfresh.1 hfresh.2
    have hinv := hk.boot_inv h hcur
    have heff : Effect k none (.boot (.semMInit m)) (k.semMInit m) :=
      .semMInit (fun hs => hs) hfresh.1 hfresh.2
    rw [hret he] at heff hinv
    exact ⟨heff, hinv⟩
  all_goals exact absurd he (by simp [bootCall])

/-- A step has the effect `r`; besides, the running task moves on and a task is loaded. -/
structure Does (k : Kernel) (a : Act) (r : Kernel × Outcome) (k' : Kernel) : Prop where
  effect : Effect k k.curTcb a r
  state : k' = { r.1 with pc := k'.pc, curTcb := k'.curTcb }
  pc : ∀ t, k.curTcb ≠ some t → k'.pc t = r.1.pc t

/-- The inversion of a safe step: its effect on tasks and mutexes, and the invariant. -/
theorem exec_sound {a : Act} (h : k.Inv) (hdef : k.defined a) (hsafe : a.Safe k)
    (he : k.exec a = some (k', d)) : (∃ r, Does k a r k') ∧ k'.Inv := by
  have hload : ∀ {k₁ : Kernel} {o : Outcome}, k₁.loadHighestTask = some k' →
      Effect k k.curTcb a (k₁, o) → Does k a (k₁, o) k' := by
    intro k₁ o hl heff
    refine ⟨heff, by rw [loadHighestTask_same hl], fun t _ => ?_⟩
    rw [loadHighestTask_same hl]
  rcases exec_cases he with ⟨cur, c, r, hcur, hs, hf⟩ | ⟨cur, k₁, hcur, rfl, ht, hrun, -⟩ |
    ⟨cur, hcur, rfl, hpc, hrun, -⟩ | ⟨c, x, hcur, rfl, hb, -⟩ | ⟨hcur, rfl, hrun, -⟩
  · obtain ⟨hne, heff, hset⟩ := section_sound h hcur hdef hsafe hs
    rw [← hcur] at heff
    have hk' : k' = { r.1.setPc cur (r.2.pc c) with curTcb := k'.curTcb } := by
      rcases finish_cases hf with ⟨-, rfl, -⟩ | ⟨-, hrun, -⟩
      · rfl
      · exact loadHighestTask_same hrun
    refine ⟨⟨r, heff, ?_, fun t ht => ?_⟩, hset.finish_inv hne hf⟩
    · rw [hk']
      rfl
    · rw [hk']
      refine Function.update_of_ne ?_ ..
      rintro rfl
      exact ht hcur
  · obtain ⟨hl, hs⟩ := h.running cur hcur
    obtain ⟨k₂, hticked, hticks⟩ := tickAnnounce_ticks h.toCore hl hs
    obtain rfl := Option.some.inj (hticked.symm.trans ht)
    have hpc : k₂.pc = k.pc := by rw [hticks.fields]
    have hpool : k₂.Pool := by
      refine h.pool.keep (by rw [hticks.fields]) hticks.live (fun t p hp => ?_)
        fun t hd => hticks.dead h.toCore hd
      rwa [creating, hpc] at hp
    exact ⟨⟨(k₂, .switch), hload hrun (by rw [hcur]; exact .tick hticks)⟩,
      load_inv (hticks.core h.toCore) hpool (by rw [hpc]; exact h.idlePc) hrun⟩
  · obtain ⟨hl, hs⟩ := h.running cur hcur
    have hfree : ∀ m, (k.semM m).ownerTcb ≠ some cur := fun m => hsafe cur m hcur
    have hne : cur ≠ idle := by
      rintro rfl
      exact hdef hcur
    have hterm := taskReturn_terminates h.toCore hl hs hfree
    have hcore := hterm.core h.toCore hne fun m ho => absurd ho (hfree m)
    exact ⟨⟨(k.taskReturn cur, .switch), hload hrun (by rw [hcur]; exact .exit hfree hterm)⟩,
      load_inv hcore (hterm.pool h.pool hl) h.idlePc hrun⟩
  · obtain ⟨heff, hinv⟩ := boot_sound h hcur hdef hb
    exact ⟨⟨_, by rw [hcur]; exact heff, rfl, fun _ _ => rfl⟩, hinv⟩
  · refine ⟨⟨(k, .switch), hload hrun ?_⟩, load_inv h.toCore h.pool h.idlePc hrun⟩
    rw [hcur]
    exact .calm (fun hs => hs) (.of_ts (.refl h.linked) rfl)

theorem cleared_ts : cleared.ts = Tasks.zeroed := by
  simp only [cleared, taskInit]
  exact Tasks.readyQInit_zeroed fun _ => by simp only [Tasks.zeroed]

theorem zeroed_linked : Linked Tasks.zeroed (fun _ => []) none := by
  have hts : Tasks.zeroed.readyQInit = Tasks.zeroed :=
    Tasks.readyQInit_zeroed fun _ => by simp only [Tasks.zeroed]
  have hinit : Tasks.ReadyInv Tasks.zeroed.readyQInit (fun _ => []) [] :=
    .init rfl (fun _ => rfl) Tasks.zeroed_lists
  rw [hts] at hinit
  have hdead : ∀ t, ¬ Tasks.zeroed.live t = true := fun t => by simp [Tasks.zeroed]
  refine ⟨Tasks.zeroed_lists, hinit.ok, fun t l => ?_, ?_, ?_, rfl⟩
  · exact iff_of_false List.not_mem_nil fun hc => hdead t hc.1
  · exact fun t hl => absurd hl (hdead t)
  · exact fun t hl => absurd hl (hdead t)

/-- `main` has got the first control block and one page for the idle task. -/
def beforeIdle : Kernel :=
  { cleared with
    ts := Tasks.zeroed.setTcb idle
      ⟨255, memStackLow + memStackPageSize, 1024, 0, 255, .ready, none⟩
    tcbMap := BitMap.clear cleared.tcbMap 0
    stackMap := BitMap.clear cleared.stackMap 0 }

def initial : Kernel := (beforeIdle.taskCreateLink idle).1

theorem bootCall_idle :
    cleared.bootCall (.taskCreate 1024 255) = some (initial, .tcb (some idle)) := by
  have hts : cleared = { cleared with ts := Tasks.zeroed } := by rw [← cleared_ts]
  have hset : beforeIdle.ts = (Tasks.zeroed.setTcb idle ⟨255, 0, 1024, 0, 255, .ready, none⟩).setTcb
      idle ⟨255, memStackLow + memStackPageSize, 1024, 0, 255, .ready, none⟩ := by
    simp only [beforeIdle, Tasks.setTcb, Function.update_idem]
  rw [hts, initial, show beforeIdle = { beforeIdle with ts := beforeIdle.ts } from rfl, hset]
  rfl

theorem beforeIdle_linked : Linked beforeIdle.ts (fun _ => []) none := by
  have hdead : Tasks.zeroed.live idle = false := rfl
  exact zeroed_linked.setTcb_dead hdead _

theorem init_births : Births beforeIdle idle initial := by
  have hmem := members_of_linked beforeIdle_linked
  have hlive : beforeIdle.ts.live idle = false := rfl
  refine taskCreateLink_births (by rw [hmem]; exact beforeIdle_linked) hlive ?_
  exact ⟨by simp [beforeIdle, Tasks.setTcb], by simp [beforeIdle, Tasks.setTcb]⟩

theorem init_eq (h : system.init k) : k = initial := by
  obtain ⟨r, hrun⟩ := h
  rw [bootCall_idle, Option.some.injEq, Prod.mk.injEq] at hrun
  exact hrun.1.symm

theorem initial_semM (m : ObjPtr) : initial.semM m = ⟨none, 0, 0⟩ := rfl

theorem initial_pc (t : TcbPtr) : initial.pc t = .user := by
  have hpc : initial.pc = Function.update beforeIdle.pc DfewOS.idle .user := rfl
  rw [hpc]
  by_cases ht : t = DfewOS.idle
  · rw [ht, Function.update_self]
  · rw [Function.update_of_ne ht]
    rfl

theorem init_inv (h : system.init k) : k.Inv := by
  have hb := init_births
  rw [← init_eq h] at hb
  have hmem := members_of_linked beforeIdle_linked
  have hfields := hb.fields
  have hlive : ∀ t, k.ts.live t = true → t = idle := by
    intro t ht
    by_contra hne
    rw [hb.live, Function.update_of_ne hne] at ht
    exact absurd ht (by simp [beforeIdle, Tasks.zeroed, Tasks.setTcb])
  have hidle : k.ts.live idle = true ∧ (k.ts.tcb idle).status = .ready := by
    rw [hb.live, hb.tcb, Function.update_self, Function.update_self]
    exact ⟨rfl, rfl⟩
  have hsem : ∀ m, (k.semM m).ownerTcb = none := fun m => by
    rw [hfields]
    rfl
  have hcre : ∀ t, k.creating t = none := by
    intro t
    have hpc : k.pc t = .user := by
      rw [hfields]
      by_cases ht : t = idle
      · subst ht; simp
      · simp only [Function.update_of_ne ht]
        rfl
    rw [creating, hpc]
    rfl
  have hcore : k.Core := by
    refine ⟨hb.linked, ?_, hidle, ?_, ?_, ?_, ?_⟩
    · rw [hfields]
      exact ⟨List.nodup_nil, List.nodup_nil, List.nodup_nil, List.nodup_nil⟩
    · intro m t ho
      rw [hsem] at ho
      exact absurd ho (by simp)
    · intro m hne
      have hready : ¬ (QueueId.semM m).IsReady := fun hr => hr
      rw [hb.lists _ hready, hmem] at hne
      exact absurd rfl hne
    · exact fun m ho => absurd (hsem m) ho
    · intro t l hl hh
      rw [hlive t hl, OsTcb.home_of_ready hidle.2] at hh
      obtain rfl := Option.some.inj hh
      trivial
  refine ⟨hcore, ⟨?_, ?_, ?_, ?_, ?_⟩, ?_, ?_⟩
  · intro t hl
    have hmap : k.tcbMap = BitMap.clear cleared.tcbMap 0 := by rw [hfields]; rfl
    rw [hlive t hl, hmap, BitMap.value_clear]
    simp
  · exact fun t p hp => absurd hp (by rw [hcre]; simp)
  · exact fun t p hp => absurd hp (by rw [hcre]; simp)
  · exact fun t p hp => absurd hp (by rw [hcre]; simp)
  · exact fun t u p hp => absurd hp (by rw [hcre]; simp)
  · rw [hfields]
    simp
  · intro t ht
    rw [hfields] at ht
    exact absurd ht (by simp [beforeIdle, cleared, taskInit])

end Kernel

/-- No step of the run met a defect of task termination or of `msgQ_delete`. -/
def Safe (k : Kernel) (e : Event) : Prop := e.act.Safe k

theorem reachable_inv {k : Kernel} (h : Reachable system Safe k) : k.Inv := by
  refine h.invariant (fun k hk => Kernel.init_inv hk) fun k e k' hinv hsafe hstep => ?_
  exact (Kernel.exec_sound hinv hstep.1 hsafe hstep.2).2

section Replay

def Pc.switchedIn : Pc → Option Call
  | .switched c => some c
  | _ => none

def Pc.unlockedAt : Pc → Option Rest
  | .unlocked _ r => some r
  | _ => none

theorem Pc.switchedIn_eq_some {pc : Pc} {c : Call} : pc.switchedIn = some c ↔ pc = .switched c := by
  cases pc <;> simp [switchedIn]

theorem Pc.unlockedAt_eq_some {pc : Pc} {r : Rest} :
    pc.unlockedAt = some r ↔ ∃ c, pc = .unlocked c r := by
  cases pc <;> simp [unlockedAt]

namespace Kernel

instance (k : Kernel) (c : Call) : Decidable (k.inUse c) := by
  cases c <;> delta inUse <;> infer_instance

instance (k : Kernel) (c : Call) : Decidable (k.againInUse c) := by
  cases c <;> delta againInUse <;> infer_instance

instance (k : Kernel) (c : Call) : Decidable (k.isFresh c) := by
  cases c <;> delta isFresh <;> infer_instance

instance (k : Kernel) (c : Call) : Decidable (k.argsOk c) := by
  cases c <;> delta argsOk <;> infer_instance

instance (k : Kernel) (c : Call) : Decidable (k.callOk c) :=
  inferInstanceAs (Decidable (k.inUse c ∧ k.isFresh c ∧ k.argsOk c))

instance (k : Kernel) (r : Rest) : Decidable (k.restOk r) := by
  cases r <;> delta restOk <;> infer_instance

theorem defined_resume (k : Kernel) : k.defined .resume ↔
    ∀ cur ∈ k.curTcb, ∀ c ∈ (k.pc cur).switchedIn,
      (k.ts.tcb cur).delayTicks ≠ 0 → k.againInUse c := by
  constructor
  · intro h cur hcur c hc
    exact h cur c hcur (Pc.switchedIn_eq_some.mp hc)
  · intro h cur c hcur hc
    exact h cur hcur c (Pc.switchedIn_eq_some.mpr hc)

theorem defined_go (k : Kernel) : k.defined .go ↔
    ∀ cur ∈ k.curTcb, ∀ r ∈ (k.pc cur).unlockedAt, k.restOk r := by
  constructor
  · intro h cur hcur r hr
    obtain ⟨c, hc⟩ := Pc.unlockedAt_eq_some.mp hr
    exact h cur c r hcur hc
  · intro h cur c r hcur hc
    exact h cur hcur r (Pc.unlockedAt_eq_some.mpr ⟨c, hc⟩)

instance (k : Kernel) : (a : Act) → Decidable (k.defined a)
  | .call c => inferInstanceAs (Decidable (k.curTcb ≠ some idle ∧ k.callOk c))
  | .resume => decidable_of_iff _ k.defined_resume.symm
  | .go => decidable_of_iff _ k.defined_go.symm
  | .exit => inferInstanceAs (Decidable (k.curTcb ≠ some idle))
  | .boot c => inferInstanceAs (Decidable (k.callOk c))
  | .tick => isTrue trivial
  | .load => isTrue trivial

end Kernel

/-- A run of the given steps from `k`, as long as each is defined and permitted by `ok`. -/
def replay (ok : Kernel → Event → Bool) (k : Kernel) : List Act → Option (List Event × Kernel)
  | [] => some ([], k)
  | a :: as =>
    if k.defined a then
      (k.exec a).bind fun r =>
        if ok k ⟨a, r.2⟩ = true then (replay ok r.1 as).map fun s => (⟨a, r.2⟩ :: s.1, s.2)
        else none
    else none

theorem replay_run {P : Kernel → Event → Prop} {ok : Kernel → Event → Bool} {k k' : Kernel}
    {as : List Act} {es : List Event} (hok : ∀ k e, ok k e = true → P k e)
    (h : replay ok k as = some (es, k')) : Run system P k es k' := by
  induction as generalizing k es with
  | nil =>
    obtain ⟨rfl, rfl⟩ := Prod.mk.inj (Option.some.inj h)
    exact .nil
  | cons a as ih =>
    rw [replay] at h
    split_ifs at h with hdef
    obtain ⟨⟨k₁, d⟩, hrun, hrest⟩ := Option.bind_eq_some_iff.mp h
    split_ifs at hrest with hc
    obtain ⟨⟨fs, k₂⟩, htail, heq⟩ := Option.map_eq_some_iff.mp hrest
    obtain ⟨rfl, rfl⟩ := Prod.mk.inj heq
    have hstep : system.step k ⟨a, d⟩ k₁ := ⟨hdef, hrun⟩
    exact (Run.single (hok k ⟨a, d⟩ hc) hstep).trans (ih htail)

theorem initial_reachable (P : Kernel → Event → Prop) : Reachable system P Kernel.initial :=
  .init ⟨_, Kernel.bootCall_idle⟩

theorem replay_reachable {P : Kernel → Event → Prop} {ok : Kernel → Event → Bool} {k : Kernel}
    {as : List Act} {es : List Event} (hok : ∀ k e, ok k e = true → P k e)
    (h : replay ok Kernel.initial as = some (es, k)) : Reachable system P k :=
  (replay_run hok h).reachable (initial_reachable P)

theorem replay_reachable_inv {P : Kernel → Event → Prop} {ok : Kernel → Event → Bool} {k : Kernel}
    {as : List Act} {es : List Event} (hsafe : ∀ k e, k.Inv → ok k e = true → Safe k e)
    (hok : ∀ k e, k.Inv → ok k e = true → P k e)
    (h : replay ok Kernel.initial as = some (es, k)) : Reachable system P k := by
  have hrun : Run system (fun k e => ok k e = true) Kernel.initial es k :=
    replay_run (fun _ _ he => he) h
  have hinv : Kernel.initial.Inv := Kernel.init_inv ⟨_, Kernel.bootCall_idle⟩
  have hrunP : Run system P Kernel.initial es k := by
    refine hrun.strengthen (fun k e k' hk he hs => ?_) hok hinv
    exact (Kernel.exec_sound hk hs.1 (hsafe k e hk he) hs.2).2
  exact hrunP.reachable (initial_reachable P)

def Act.isPlain : Act → Bool
  | .call (.taskDelete _) | .call (.msgQDelete _) | .exit => false
  | _ => true

theorem Act.safe_of_isPlain {k : Kernel} {a : Act} (h : a.isPlain = true) : a.Safe k := by
  have hfalse : ¬ false = true := by decide
  cases a with
  | call c =>
    cases c
    case taskDelete => exact absurd h hfalse
    case msgQDelete => exact absurd h hfalse
    all_goals exact True.intro
  | exit => exact absurd h hfalse
  | _ => exact True.intro

end Replay

end DfewOS
