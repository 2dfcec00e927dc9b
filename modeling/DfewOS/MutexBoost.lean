import DfewOS.MutexCount
import DfewOS.TickAccuracy

/-!
# Exact priority inheritance

A boost is taken back only in `semM_give`, by the giver, and only as far as the
`wait_pri` fields say. So the priorities stay exact as long as no waiter leaves
by a timeout or by deletion whose priority its owner still runs at, and as long
as `semM_give` finds the list it passes on headed by a most urgent waiter and
the `wait_pri` of the giver's other mutexes right.
-/

namespace DfewOS
open PriorityInheritance (Agrees Exact Spare)
open Transition (Reachable)

namespace Kernel

def Expires (k : Kernel) (l : QueueId) (t : TcbPtr) : Prop :=
  ∃ pre post, k.ts.members l = pre ++ t :: post ∧ (k.ts.tcb t).delayTicks = 1 ∧
    ∀ u ∈ pre, (k.ts.tcb u).delayTicks ≠ 1

variable {k k' : Kernel} {l : QueueId} {t : TcbPtr} {m : ObjPtr}

theorem Expires.unique {u : TcbPtr} (ht : k.Expires l t) (hu : k.Expires l u) : t = u := by
  obtain ⟨pre, post, hs, hone, hpre⟩ := ht
  obtain ⟨pre', post', hs', hone', hpre'⟩ := hu
  rcases List.append_eq_append_iff.mp (hs.symm.trans hs') with ⟨as, rfl, has⟩ | ⟨as, rfl, has⟩
  · cases as with
    | nil => exact (List.cons.inj has).1
    | cons a as =>
      obtain ⟨rfl, -⟩ := List.cons.inj has
      exact absurd hone (hpre' t (by simp))
  · cases as with
    | nil => exact (List.cons.inj has).1.symm
    | cons a as =>
      obtain ⟨rfl, -⟩ := List.cons.inj has
      exact absurd hone' (hpre u (by simp))

theorem Ticks.split (h : k.Core) (ht : Ticks k k') (hl : ¬ l.IsReady) :
    ∃ pre x post, k.ts.members l = pre ++ (x.toList ++ post) ∧ k'.ts.members l = pre ++ post ∧
      ∀ t, k.Expires l t ↔ x = some t := by
  obtain ⟨pre, x, post, hsplit, hmem, hw⟩ := ht.walked l hl
  have hwait : ∀ u ∈ k.ts.members l, (decOf l (k.ts.tcb u).delayTicks = 0 ↔
      (k.ts.tcb u).delayTicks = 1) := fun u hu => decOf_eq_zero (h.waits hl hu)
  have hpre : ∀ u ∈ pre, (k.ts.tcb u).delayTicks ≠ 1 := by
    intro u hu hone
    have hum : u ∈ k.ts.members l := by rw [hsplit]; exact List.mem_append_left _ hu
    exact (hw.counted u hu).1 ((hwait u hum).mpr hone)
  refine ⟨pre, x, post, hsplit, hmem, fun t => ?_⟩
  cases x with
  | none =>
    have hpost := hw.ends rfl
    constructor
    · rintro ⟨as, bs, hs, hone, -⟩
      rw [hpost, Option.toList_none, List.append_nil, List.append_nil] at hsplit
      have htm : t ∈ pre := by rw [← hsplit, hs]; simp
      exact absurd hone (hpre t htm)
    · exact fun ht => absurd ht (by simp)
  | some y =>
    have hy : k.Expires l y := by
      refine ⟨pre, post, hsplit, ?_, hpre⟩
      exact (hwait y (by rw [hsplit]; simp)).mp (hw.expired y rfl).1
    constructor
    · intro ht
      rw [ht.unique hy]
    · intro ht
      obtain rfl := Option.some.inj ht
      exact hy

theorem Ticks.stays (h : k.Core) (ht : Ticks k k') (hl : ¬ l.IsReady) (t : TcbPtr) :
    t ∈ k'.ts.members l ↔ t ∈ k.ts.members l ∧ ¬ k.Expires l t := by
  obtain ⟨pre, x, post, hsplit, hmem, hexp⟩ := ht.split h hl
  have hnd := h.linked.lists.nodup l
  rw [hmem, hexp, hsplit]
  rw [hsplit] at hnd
  cases x with
  | none => simp
  | some y =>
    rw [Option.toList_some, List.singleton_append] at hnd ⊢
    have hnot : y ∉ pre ++ post := (List.nodup_middle.mp hnd).notMem
    constructor
    · intro hm
      refine ⟨?_, ?_⟩
      · rcases List.mem_append.mp hm with hp | hp
        · exact List.mem_append_left _ hp
        · exact List.mem_append_right _ (List.mem_cons_of_mem _ hp)
      · intro he
        rw [Option.some.inj he] at hnot
        exact hnot hm
    · rintro ⟨hm, hne⟩
      rcases List.mem_append.mp hm with hp | hp
      · exact List.mem_append_left _ hp
      · rcases List.mem_cons.mp hp with rfl | hp
        · exact absurd rfl hne
        · exact List.mem_append_right _ hp

theorem Ticks.priority (ht : Ticks k k') (t : TcbPtr) :
    (k'.ts.tcb t).taskPriority = (k.ts.tcb t).taskPriority ∧
      (k'.ts.tcb t).originPri = (k.ts.tcb t).originPri := by
  by_cases hout : ∀ l, ¬ l.IsReady → t ∉ k.ts.members l
  · rw [ht.kept t hout]
    exact ⟨rfl, rfl⟩
  · push Not at hout
    obtain ⟨l, hl, hm⟩ := hout
    obtain ⟨pre, x, post, hsplit, -, hw⟩ := ht.walked l hl
    rw [hsplit] at hm
    rcases List.mem_append.mp hm with hp | hm
    · rw [(hw.counted t hp).2]
      exact ⟨rfl, rfl⟩
    · rcases List.mem_append.mp hm with hx | hp
      · rw [(hw.expired t (by simpa using hx)).2]
        exact ⟨rfl, rfl⟩
      · rw [hw.skipped t hp]
        exact ⟨rfl, rfl⟩

end Kernel

/-- No step takes the waiter away that its owner runs for, and an outermost give finds a list
headed by a most urgent waiter and `wait_pri` right for the giver's other mutexes. -/
def Act.KeepsBoosts (k : Kernel) : Act → Prop
  | .call (.semMGive m) => (k.semM m).takeCount = 1 →
      (∀ u rest, k.ts.members (.semM m) = u :: rest →
        ∀ w ∈ rest, (k.ts.tcb u).taskPriority ≤ (k.ts.tcb w).taskPriority) ∧
      ∀ cur ∈ k.curTcb, ∀ m' ∈ k.semMList, m' ≠ m → (k.semM m').ownerTcb = some cur →
        Agrees k.pi cur m'
  | .call (.taskDelete t) => Spare k.pi fun _ w => w = t
  | .tick => Spare k.pi fun m => k.Expires (.semM m)
  | _ => True

namespace Kernel

def Boosts (k : Kernel) : Prop := Exact k.pi fun t => k.ts.live t = true

variable {k k' : Kernel} {cur t : TcbPtr} {m : ObjPtr} {a : Act} {r : Kernel × Outcome}

theorem takeCount_one (hd : dec32 (k.semM m).takeCount = 0) : (k.semM m).takeCount = 1 := by
  by_cases hz : (k.semM m).takeCount = 0
  · rw [hz] at hd
    exact absurd hd (by decide)
  · rw [dec32, if_neg hz] at hd
    omega

theorem Still.boosts (hs : Still k k') (h : k.Core) (hex : k.Boosts) : k'.Boosts :=
  Exact.still hex hs.waiters hs.owner hs.priority (fun _ _ hw => h.linked.live_of_mem hw) hs.born

theorem Terminates.boosts (ht : Terminates k t k') (h : k.Core) (hex : k.Boosts)
    (hspare : Spare k.pi fun _ w => w = t) : k'.Boosts := by
  have hlive : ∀ u, k'.ts.live u = true → u ≠ t ∧ k.ts.live u = true := by
    intro u hu
    rw [ht.live] at hu
    by_cases hut : u = t
    · rw [hut, Function.update_self] at hu
      exact absurd hu (by decide)
    · rw [Function.update_of_ne hut] at hu
      exact ⟨hut, hu⟩
  refine Exact.shrink hex (fun u hu => (hlive u hu).2) (fun u => ?_) (fun u => ?_)
    (fun m u hu => ?_) (fun m w => ?_) hspare
  · exact congrArg (fun f => (f u).taskPriority) ht.tcb
  · exact congrArg (fun f => (f u).originPri) ht.tcb
  · have hown : (k'.semM m).ownerTcb = some u ↔ (k.semM m).ownerTcb = some u := by
      rw [ht.owner]
      split_ifs with ho
      · rw [ho]
        exact iff_of_false (by simp) fun hc => (hlive u hu).1 (Option.some.inj hc).symm
      · exact Iff.rfl
    exact hown
  · have hready : ¬ (QueueId.semM m).IsReady := fun hr => hr
    have hmem : w ∈ k'.ts.members (.semM m) ↔ w ∈ k.ts.members (.semM m) ∧ ¬ w = t := by
      rw [ht.lists _ hready, (h.linked.lists.nodup _).mem_erase_iff, and_comm]
    exact hmem

theorem BlocksOn.boosts {timeout : ℕ} {k₁ : Kernel} {xs ys : List TcbPtr}
    (hb : BlocksOn k cur m timeout k₁ k' xs ys) (hex : k.Boosts) : k'.Boosts := by
  have hor : ∀ t, (k'.ts.tcb t).originPri = (k.ts.tcb t).originPri := by
    intro t
    by_cases ht : t = cur
    · rw [ht, hb.self]
    · rw [hb.tcb t ht]
  have hexact : Exact k'.pi fun t => k.ts.live t = true := by
    refine Exact.blocked hex hb.boosted ?_ (funext hb.priority) ?_ fun m' w => ?_
    · exact funext fun m' => congrArg (fun f => (f m').ownerTcb) hb.semM
    · exact (funext hor).trans hb.boosted.origin.symm
    · have hready : ¬ (QueueId.semM m').IsReady := fun hr => hr
      have hmem : w ∈ k'.ts.members (.semM m') ↔
          w ∈ k.ts.members (.semM m') ∨ (m' = m ∧ w = cur) := by
        by_cases hm : m' = m
        · rw [hm, hb.waiters, hb.split]
          simp only [List.mem_append, List.mem_cons, true_and]
          tauto
        · have hne : QueueId.semM m' ≠ .semM m := fun he => hm (QueueId.semM.inj he)
          rw [hb.others _ hready hne]
          simp [hm]
      exact hmem
  rw [Boosts, hb.live]
  exact hexact

theorem Gives.boosts {n : Option TcbPtr} {rest : List TcbPtr} (hg : Gives k cur m k' n rest)
    (h : k.Inv) (hcur : k.curTcb = some cur) (hown : (k.semM m).ownerTcb = some cur)
    (hkeep : (Act.call (.semMGive m)).KeepsBoosts k) (hone : (k.semM m).takeCount = 1)
    (hex : k.Boosts) : k'.Boosts := by
  obtain ⟨hfirst, hagree⟩ := hkeep hone
  obtain ⟨hl, hs⟩ := h.running cur hcur
  have hwait : ∀ m', cur ∉ k.ts.members (.semM m') :=
    fun m' => not_waiting h.linked (by rw [hs]; simp) m'
  have hpri : ∀ u, u ≠ cur → (k'.ts.tcb u).taskPriority = (k.ts.tcb u).taskPriority := by
    intro u hu
    by_cases hn : n = some u
    · rw [(hg.next u hn).2]
    · rw [hg.tcb u hu fun he => hn he.symm]
  have hor : ∀ u, (k'.ts.tcb u).originPri = (k.ts.tcb u).originPri := by
    intro u
    by_cases hu : u = cur
    · rw [hu, hg.self]
    · by_cases hn : n = some u
      · rw [(hg.next u hn).2]
      · rw [hg.tcb u hu fun he => hn he.symm]
  have hothers : ∀ m', m' ≠ m → k'.ts.members (.semM m') = k.ts.members (.semM m') := by
    intro m' hm
    have hready : ¬ (QueueId.semM m').IsReady := fun hr => hr
    exact hg.others _ hready fun he => hm (QueueId.semM.inj he)
  have hlist : k'.semMList = k.semMList := by rw [hg.fields]
  have hnot : ∀ m', (k'.semM m').ownerTcb = some cur → m' ≠ m := by
    rintro m' ho rfl
    rw [hg.owner] at ho
    exact (hg.next cur ho).1 rfl
  -- what the giver keeps is untouched, so its `wait_pri` fields are right after the give too
  have hagree' : ∀ m', k'.pi.owner m' = some cur → Agrees k'.pi cur m' := by
    intro m' ho
    have hm := hnot m' ho
    have ho' : (k.semM m').ownerTcb = some cur := by rwa [← hg.semM m' hm]
    have hold := hagree cur hcur m' (h.owned m' (by rw [ho']; simp)) hm ho'
    have hset : {p | p = k'.pi.origin cur ∨ ∃ w ∈ k'.pi.waiters m', k'.pi.priority w = p} =
        {p | p = k.pi.origin cur ∨ ∃ w ∈ k.pi.waiters m', k.pi.priority w = p} := by
      have hw : k'.pi.waiters m' = k.pi.waiters m' := hothers m' hm
      have ho : k'.pi.origin cur = k.pi.origin cur := hor cur
      rw [hw, ho]
      ext p
      refine or_congr_right (exists_congr fun w => and_congr_right fun hmw => ?_)
      have hne : w ≠ cur := by
        rintro rfl
        exact hwait m' hmw
      rw [show k'.pi.priority w = k.pi.priority w from hpri w hne]
    rw [Agrees, hset]
    have hwp : k'.pi.waitPri m' = k.pi.waitPri m' := congrArg SemMux.waitPri (hg.semM m' hm)
    rw [hwp, show k'.pi.origin cur = k.pi.origin cur from hor cur]
    exact hold
  have hfall : IsLeast (k'.pi.dues cur) (min (k'.getHighestWaitPri cur) (k'.pi.origin cur)) := by
    obtain ⟨-, hlow, hatt⟩ := k'.foldl_checkOwner cur k'.semMList 255
    refine PriorityInheritance.isLeast_fallback hagree' ?_ (fun m' ho => ?_) hatt
    · have hrange := (h.linked.inRange cur hl).origin
      rw [← hor cur] at hrange
      exact Nat.le_of_lt_succ hrange
    · refine hlow m' ?_ ho
      have hm := hnot m' ho
      rw [hlist]
      apply h.owned
      rw [← hg.semM m' hm, show (k'.semM m').ownerTcb = some cur from ho]
      simp
  rw [show k'.pi.origin cur = (k.ts.tcb cur).originPri from hor cur] at hfall
  have hexact : Exact k'.pi fun t => k.ts.live t = true := by
    refine Exact.given hex hown hg.split (fun u hu => ?_) hwait hg.owner
      (fun m' hm => congrArg SemMux.ownerTcb (hg.semM m' hm)) hg.waiters hothers hpri
      (congrArg OsTcb.taskPriority hg.self) (funext hor) hfall
    have hsplit := hg.split
    rw [hu, Option.toList_some, List.singleton_append] at hsplit
    exact hfirst u rest hsplit
  rw [Boosts, hg.live]
  exact hexact

theorem Ticks.boosts (ht : Ticks k k') (h : k.Core) (hex : k.Boosts)
    (hspare : Spare k.pi fun m => k.Expires (.semM m)) : k'.Boosts := by
  have hready : ∀ m, ¬ (QueueId.semM m).IsReady := fun _ hr => hr
  have hexact : Exact k'.pi fun t => k.ts.live t = true := by
    refine Exact.shrink hex (fun _ hl => hl) (fun t => (ht.priority t).1)
      (fun t => (ht.priority t).2) (fun m t _ => ?_) (fun m w => ht.stays h (hready m) w) hspare
    have hown : (k'.semM m).ownerTcb = some t ↔ (k.semM m).ownerTcb = some t := by rw [ht.semM]
    exact hown
  rw [Boosts, ht.live]
  exact hexact

theorem Effect.boosts (he : Effect k k.curTcb a r) (h : k.Inv) (hown : a.ByOwner k)
    (hkeep : a.KeepsBoosts k) (hex : k.Boosts) : r.1.Boosts := by
  rcases he.still_or h with hs | ⟨t, -, rfl, -, ht⟩ |
    ⟨cur, m, timeout, k₁, xs, ys, -, -, -, -, -, hb⟩ | ⟨cur, m, n, rest, hcur, rfl, hd, hg⟩ |
    ⟨rfl, ht⟩
  · exact hs.boosts h.toCore hex
  · exact ht.boosts h.toCore hex hkeep
  · exact hb.boosts hex
  · have ho : (k.semM m).ownerTcb = k.curTcb := hown
    exact hg.boosts h hcur (ho.trans hcur) hkeep (takeCount_one hd) hex
  · exact ht.boosts h.toCore hex hkeep

theorem initial_boosts : initial.Boosts := by
  intro t ht
  have hnone : ∀ m, (initial.semM m).ownerTcb = none := fun m => by rw [initial_semM]
  have hidle : t = DfewOS.idle := by
    by_contra hne
    have hl : initial.ts.live t = true := ht
    rw [init_births.live, Function.update_of_ne hne] at hl
    exact absurd hl (by simp [beforeIdle, Tasks.zeroed, Tasks.setTcb])
  have hpri : (initial.ts.tcb t).taskPriority = (initial.ts.tcb t).originPri := by
    rw [hidle, init_births.tcb, Function.update_self]
    rfl
  refine ⟨Or.inl hpri, ?_⟩
  rintro q (rfl | ⟨m, ho, -⟩)
  · exact le_of_eq hpri
  · rw [show initial.pi.owner m = none from hnone m] at ho
    exact absurd ho (by simp)

end Kernel

/-- A safe step with which the boosts stay exact, the gives made by owners. -/
def KeepsBoosts (k : Kernel) (e : Event) : Prop :=
  Safe k e ∧ e.act.ByOwner k ∧ e.act.KeepsBoosts k

/-- In a run of such steps each task runs at the least of its own priority and those of the
tasks that wait for its mutexes. -/
theorem exact_inheritance {k : Kernel} (h : Reachable system KeepsBoosts k) {t : TcbPtr}
    (ht : k.ts.live t = true) :
    IsLeast {p | p = (k.ts.tcb t).originPri ∨ ∃ m, (k.semM m).ownerTcb = some t ∧
      ∃ w ∈ k.ts.members (.semM m), (k.ts.tcb w).taskPriority = p} (k.ts.tcb t).taskPriority := by
  have hknown : ∀ k, Reachable system KeepsBoosts k → k.Inv := fun k hk =>
    reachable_inv (hk.mono fun _ _ hok => hok.1)
  have hboosts : k.Boosts := by
    refine h.invariant_rel hknown (fun k hk => ?_) fun k e k' hinv _ hex hok hs => ?_
    · rw [Kernel.init_eq hk]
      exact Kernel.initial_boosts
    · obtain ⟨hsafe, hown, hkeep⟩ := hok
      obtain ⟨r, heff, hk', -⟩ := (Kernel.exec_sound hinv hs.1 hsafe hs.2).1
      have hr := heff.boosts hinv hown hkeep hex
      rw [hk']
      exact hr
  exact hboosts t ht

/-- Steps that give no mutex, end no task, and tick only while nobody waits for a mutex. -/
def Kernel.boostsOnly (k : Kernel) : Act → Bool
  | .call (.semMGive _) => false
  | .tick => k.semMList.all fun m => k.ts.members (.semM m) = []
  | a => a.isPlain

theorem Act.isPlain_of_boostsOnly {k : Kernel} {a : Act} (h : k.boostsOnly a = true) :
    a.isPlain = true := by
  cases a with
  | call c =>
    cases c
    case semMGive => rfl
    all_goals exact h
  | tick => rfl
  | _ => exact h

theorem keepsBoosts_of_boostsOnly {k : Kernel} {e : Event} (hinv : k.Inv)
    (h : k.boostsOnly e.act = true) : KeepsBoosts k e := by
  obtain ⟨a, d⟩ := e
  have hfalse : ¬ false = true := by decide
  cases a with
  | call c =>
    cases c
    case semMGive => exact absurd h hfalse
    case taskDelete => exact absurd h hfalse
    case msgQDelete => exact absurd h hfalse
    all_goals exact ⟨True.intro, True.intro, True.intro⟩
  | exit => exact absurd h hfalse
  | tick =>
    refine ⟨True.intro, True.intro, fun m t ho w hw _ _ => ?_⟩
    have hm : m ∈ k.semMList := hinv.owned m fun hn => by
      rw [show (k.semM m).ownerTcb = some t from ho] at hn
      exact absurd hn (by simp)
    have hnil := of_decide_eq_true (List.all_eq_true.mp h m hm)
    rw [show k.pi.waiters m = [] from hnil] at hw
    exact absurd hw List.not_mem_nil
  | _ => exact ⟨True.intro, True.intro, True.intro⟩

/-- Task 1 of priority 3 runs at 2 as long as task 2 waits for its mutex. -/
theorem exact_inheritance_boosted : ∃ k, Reachable system KeepsBoosts k ∧
    (k.ts.tcb 1).originPri = 3 ∧ IsLeast {p | p = (k.ts.tcb 1).originPri ∨
      ∃ m, (k.semM m).ownerTcb = some 1 ∧ ∃ w ∈ k.ts.members (.semM m),
        (k.ts.tcb w).taskPriority = p} 2 := by
  obtain ⟨⟨es, k⟩, hk, hfact⟩ := Option.map_eq_some_iff.mp (show
    (replay (fun k e => k.boostsOnly e.act) .initial
      [.boot (.semMInit 0), .boot (.taskCreate 1024 3), .boot (.taskCreate 1024 2), .load,
        .call (.delayQDelay 1), .call (.semMTake 0 0), .tick, .resume, .call (.semMTake 0 5)]).map
      (fun s => (s.2.ts.live 1, (s.2.ts.tcb 1).originPri, (s.2.ts.tcb 1).taskPriority)) =
      some (true, 3, 2) by decide +kernel)
  simp only [Prod.mk.injEq] at hfact
  obtain ⟨hlive, hor, hpri⟩ := hfact
  have hreach : Reachable system KeepsBoosts k := by
    refine replay_reachable_inv (fun k e _ he => ?_) (fun k e => keepsBoosts_of_boostsOnly) hk
    exact Act.safe_of_isPlain (Act.isPlain_of_boostsOnly he)
  have hexact := exact_inheritance hreach hlive
  rw [hpri] at hexact
  exact ⟨k, hreach, hor, hexact⟩

/-- Task 2 gives up waiting for the mutex of task 1, which keeps the boost. -/
theorem timeout_keepsBoost : ∃ k, Reachable system (fun k e => Safe k e ∧ e.act.ByOwner k) k ∧
    k.ts.live 1 = true ∧ ¬ IsLeast {p | p = (k.ts.tcb 1).originPri ∨
      ∃ m, (k.semM m).ownerTcb = some 1 ∧ ∃ w ∈ k.ts.members (.semM m),
        (k.ts.tcb w).taskPriority = p} (k.ts.tcb 1).taskPriority := by
  obtain ⟨⟨es, k⟩, hk, hfact⟩ := Option.map_eq_some_iff.mp (show
    (replay (fun k e => e.act.isPlain && decide (e.act.ByOwner k)) .initial
      [.boot (.semMInit 0), .boot (.taskCreate 1024 3), .boot (.taskCreate 1024 2), .load,
        .call (.delayQDelay 1), .call (.semMTake 0 0), .tick, .resume, .call (.semMTake 0 1),
        .tick]).map
      (fun s => (s.2.ts.live 1, (s.2.ts.tcb 1).originPri, (s.2.ts.tcb 1).taskPriority,
        s.2.semMList, s.2.ts.members (.semM 0))) = some (true, 3, 2, [0], []) by decide +kernel)
  simp only [Prod.mk.injEq] at hfact
  obtain ⟨hlive, hor, hpri, hlist, hnil⟩ := hfact
  have hreach : Reachable system (fun k e => Safe k e ∧ e.act.ByOwner k) k := by
    refine replay_reachable (fun k e he => ?_) hk
    obtain ⟨hplain, hown⟩ := Bool.and_eq_true_iff.mp he
    exact ⟨Act.safe_of_isPlain hplain, of_decide_eq_true hown⟩
  refine ⟨k, hreach, hlive, fun hexact => ?_⟩
  rcases hexact.1 with heq | ⟨m, ho, w, hw, -⟩
  · rw [hor, hpri] at heq
    exact absurd heq (by decide)
  · have hm := (reachable_inv (hreach.mono fun _ _ hok => hok.1)).owned m (by rw [ho]; simp)
    rw [hlist, List.mem_singleton] at hm
    rw [hm, hnil] at hw
    exact absurd hw List.not_mem_nil

end DfewOS
