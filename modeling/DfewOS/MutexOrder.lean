import DfewOS.MutexBoost

/-!
# The order of a mutex's wait list

`_sort_pri_put` puts a task where it belongs, but `_up_owner_pri` raises tasks
that wait already and leaves them where they are, and a tick takes a task out
without `_update_wait_pri`. Where neither does harm the lists stay sorted and
`wait_pri` is that of the first task; where only the first does none they stay
sorted, and `wait_pri` is too urgent at worst.
-/

namespace DfewOS
open PriorityInheritance (Bounded InPlace Joins Ordered)
open Transition (Reachable)

/-- Whoever a take boosts and waits stays in its place. -/
def Act.KeepsSorted (k : Kernel) : Act → Prop
  | .call (.semMTake m timeout) => ∀ cur ∈ k.curTcb, timeout ≠ 0 →
      (k.semM m).ownerTcb ≠ none → (k.semM m).ownerTcb ≠ some cur →
      InPlace k.pi (k.ts.tcb cur).taskPriority m
  | _ => True

/-- More than what leaves the lists sorted: a tick that takes the first task out of a list has to
leave one of the same priority at its head too, since `wait_pri` stays as it is. -/
def Act.KeepsOrder (k : Kernel) : Act → Prop
  | .call (.semMTake m timeout) => ∀ cur ∈ k.curTcb, timeout ≠ 0 →
      (k.semM m).ownerTcb ≠ none → (k.semM m).ownerTcb ≠ some cur →
      InPlace k.pi (k.ts.tcb cur).taskPriority m
  | .tick => ∀ m ∈ k.semMList, ∀ u rest, k.ts.members (.semM m) = u :: rest →
      (k.ts.tcb u).delayTicks = 1 → Kernel.firstPri k.ts rest = (k.ts.tcb u).taskPriority
  | _ => True

theorem Act.KeepsOrder.sorted {k : Kernel} {a : Act} (h : a.KeepsOrder k) : a.KeepsSorted k := by
  cases a with
  | call c =>
    cases c
    case semMTake => exact h
    all_goals exact trivial
  | _ => exact trivial

namespace Kernel

def InOrder (k : Kernel) : Prop := Ordered k.pi (· ∈ k.semMList) 255

def WaitBounded (k : Kernel) : Prop := Bounded k.pi (· ∈ k.semMList)

variable {k k' : Kernel} {cur t : TcbPtr} {m : ObjPtr} {a : Act} {r : Kernel × Outcome}

theorem pi_first (k : Kernel) (m : ObjPtr) :
    k.pi.first 255 m = firstPri k.ts (k.ts.members (.semM m)) := by
  rw [PriorityInheritance.State.first, show k.pi.waiters m = k.ts.members (.semM m) from rfl]
  cases k.ts.members (.semM m) <;> rfl

theorem firstPri_congr {ts ts' : Tasks} {ws : List TcbPtr}
    (h : ∀ w ∈ ws, (ts'.tcb w).taskPriority = (ts.tcb w).taskPriority) :
    firstPri ts' ws = firstPri ts ws := by
  cases ws with
  | nil => rfl
  | cons w rest => exact h w List.mem_cons_self

theorem not_isReady (m : ObjPtr) : ¬ (QueueId.semM m).IsReady := fun hr => hr

/-! ## One step -/

theorem Still.inOrder (hs : Still k k') (h : k.Core) (hord : k.InOrder) : k'.InOrder :=
  Ordered.still hord hs.waiters (fun _ w hw => (hs.priority w (h.linked.live_of_mem hw)).1)
    hs.waitPri

theorem Still.bounded (hs : Still k k') (h : k.Core) (hb : k.WaitBounded) : k'.WaitBounded :=
  Bounded.still hb hs.waiters (fun _ w hw => (hs.priority w (h.linked.live_of_mem hw)).1) hs.waitPri

theorem Terminates.sublist (ht : Terminates k t k') (m : ObjPtr) :
    (k'.pi.waiters m).Sublist (k.pi.waiters m) := by
  have hsub := List.erase_sublist (a := t) (l := k.ts.members (.semM m))
  rw [← ht.lists _ (not_isReady m)] at hsub
  exact hsub

theorem Terminates.priority (ht : Terminates k t k') (w : TcbPtr) :
    (k'.ts.tcb w).taskPriority = (k.ts.tcb w).taskPriority := by
  rw [ht.tcb]

theorem Terminates.first_or (ht : Terminates k t k') (m : ObjPtr) :
    k'.pi.waitPri m = k'.pi.first 255 m ∨
      (k'.ts.members (.semM m) = k.ts.members (.semM m) ∧ k'.pi.waitPri m = k.pi.waitPri m) := by
  have hwp := ht.waitPri m
  split_ifs at hwp with hw
  · left
    rw [pi_first, firstPri_congr fun w _ => ht.priority w, ht.lists _ (not_isReady m)]
    exact hwp
  · refine Or.inr ⟨?_, hwp⟩
    rw [ht.lists _ (not_isReady m), List.erase_of_not_mem hw]

theorem Terminates.inOrder (ht : Terminates k t k') (hord : k.InOrder) : k'.InOrder := by
  have hlist : k'.semMList = k.semMList := by rw [ht.fields]
  refine Ordered.shrink hord ht.sublist (fun m w _ => ht.priority w) fun m hm => ?_
  rw [hlist] at hm
  rcases ht.first_or m with hfirst | ⟨hsame, hwp⟩
  · exact hfirst
  · have hold := hord.wait m hm
    rw [pi_first] at hold ⊢
    rw [firstPri_congr fun w _ => ht.priority w, hsame, ← hold, hwp]

theorem Terminates.bounded (ht : Terminates k t k') (hb : k.WaitBounded) : k'.WaitBounded := by
  have hlist : k'.semMList = k.semMList := by rw [ht.fields]
  refine Bounded.shrink 255 hb ht.sublist (fun m w _ => ht.priority w) fun m hm => ?_
  rw [hlist] at hm
  rcases ht.first_or m with hfirst | ⟨-, hwp⟩
  · exact Or.inl hfirst
  · exact Or.inr ⟨hm, hwp⟩

theorem BlocksOn.joins {timeout : ℕ} {k₁ : Kernel} {xs ys : List TcbPtr}
    (hb : BlocksOn k cur m timeout k₁ k' xs ys) : Joins k.pi cur m k₁.pi k'.pi xs ys where
  boosted := hb.boosted
  split := hb.split
  placed := hb.sorted
  priority := funext hb.priority
  waitPri := funext fun m' => congrArg SemMux.waitPri (congrFun hb.semM m')
  waiters := hb.waiters
  others m' hm := hb.others _ (not_isReady m') fun he => hm (QueueId.semM.inj he)

theorem BlocksOn.inOrder {timeout : ℕ} {k₁ : Kernel} {xs ys : List TcbPtr}
    (hb : BlocksOn k cur m timeout k₁ k' xs ys) (h : k.Core) (hl : k.ts.live cur = true)
    (hplace : InPlace k.pi (k.ts.tcb cur).taskPriority m) (hord : k.InOrder) : k'.InOrder := by
  have hlist : k'.semMList = k.semMList := by rw [hb.rest]
  have htop : (k.ts.tcb cur).taskPriority ≤ 255 := Nat.le_of_lt_succ (h.linked.inRange cur hl).priority
  rw [InOrder, hlist]
  exact Ordered.joined hord hb.joins hplace htop

theorem BlocksOn.bounded {timeout : ℕ} {k₁ : Kernel} {xs ys : List TcbPtr}
    (hb : BlocksOn k cur m timeout k₁ k' xs ys)
    (hplace : InPlace k.pi (k.ts.tcb cur).taskPriority m) (hbound : k.WaitBounded) :
    k'.WaitBounded := by
  have hlist : k'.semMList = k.semMList := by rw [hb.rest]
  rw [WaitBounded, hlist]
  exact Bounded.joined hbound hb.joins hplace

section Giving
variable {n : Option TcbPtr} {rest : List TcbPtr}

theorem Gives.others_same (hg : Gives k cur m k' n rest) {m' : ObjPtr} (hm : m' ≠ m) :
    k'.ts.members (.semM m') = k.ts.members (.semM m') :=
  hg.others _ (not_isReady m') fun he => hm (QueueId.semM.inj he)

theorem Gives.sublist (hg : Gives k cur m k' n rest) (m' : ObjPtr) :
    (k'.pi.waiters m').Sublist (k.pi.waiters m') := by
  show (k'.ts.members (.semM m')).Sublist (k.ts.members (.semM m'))
  by_cases hm : m' = m
  · rw [hm, hg.waiters, hg.split]
    exact List.sublist_append_right _ _
  · rw [hg.others_same hm]

theorem Gives.priority (hg : Gives k cur m k' n rest) {w : TcbPtr} (hw : w ≠ cur) :
    (k'.ts.tcb w).taskPriority = (k.ts.tcb w).taskPriority := by
  by_cases hn : n = some w
  · rw [(hg.next w hn).2]
  · rw [hg.tcb w hw fun he => hn he.symm]

theorem Gives.waiter_priority (hg : Gives k cur m k' n rest) (h : k.Inv) (hcur : k.curTcb = some cur)
    (m' : ObjPtr) {w : TcbPtr} (hw : w ∈ k'.ts.members (.semM m')) :
    (k'.ts.tcb w).taskPriority = (k.ts.tcb w).taskPriority := by
  apply hg.priority
  rintro rfl
  exact not_waiting h.linked (by rw [(h.running w hcur).2]; simp) m' ((hg.sublist m').mem hw)

theorem Gives.inOrder (hg : Gives k cur m k' n rest) (h : k.Inv) (hcur : k.curTcb = some cur)
    (hord : k.InOrder) : k'.InOrder := by
  have hlist : k'.semMList = k.semMList := by rw [hg.fields]
  have hpri := fun m' w (hw : w ∈ k'.ts.members (.semM m')) => hg.waiter_priority h hcur m' hw
  refine Ordered.shrink hord hg.sublist hpri fun m' hm => ?_
  rw [hlist] at hm
  have hold := hord.wait m' hm
  rw [pi_first] at hold ⊢
  rw [firstPri_congr (hpri m')]
  by_cases hmm : m' = m
  · subst hmm
    have hwp := hg.waitPri
    rw [hg.waiters]
    split_ifs at hwp with hn
    · rw [hg.split, hn, hg.nil hn] at hold
      rw [hg.nil hn, ← show firstPri k.ts ((none : Option TcbPtr).toList ++ []) = firstPri k.ts []
        from rfl, ← hold]
      exact hwp
    · exact hwp
  · rw [hg.others_same hmm, ← hold]
    exact congrArg SemMux.waitPri (hg.semM m' hmm)

theorem Gives.bounded (hg : Gives k cur m k' n rest) (h : k.Inv) (hcur : k.curTcb = some cur)
    (hb : k.WaitBounded) : k'.WaitBounded := by
  have hlist : k'.semMList = k.semMList := by rw [hg.fields]
  have hpri := fun m' w (hw : w ∈ k'.ts.members (.semM m')) => hg.waiter_priority h hcur m' hw
  refine Bounded.shrink 255 hb hg.sublist hpri fun m' hm => ?_
  rw [hlist] at hm
  by_cases hmm : m' = m
  · subst hmm
    have hwp := hg.waitPri
    split_ifs at hwp with hn
    · exact Or.inr ⟨hm, hwp⟩
    · left
      rw [pi_first, firstPri_congr (hpri m'), hg.waiters]
      exact hwp
  · exact Or.inr ⟨hm, congrArg SemMux.waitPri (hg.semM m' hmm)⟩

end Giving

theorem Ticks.sublist (ht : Ticks k k') (h : k.Core) (m : ObjPtr) :
    (k'.pi.waiters m).Sublist (k.pi.waiters m) := by
  obtain ⟨pre, x, post, hsplit, hmem, -⟩ := ht.split h (not_isReady m)
  have hsub : (pre ++ post).Sublist (pre ++ (x.toList ++ post)) :=
    List.Sublist.append_left (List.sublist_append_right _ _) _
  rw [← hsplit, ← hmem] at hsub
  exact hsub

theorem Ticks.waitPri (ht : Ticks k k') (m : ObjPtr) : k'.pi.waitPri m = k.pi.waitPri m := by
  rw [show k'.pi.waitPri m = (k'.semM m).waitPri from rfl, ht.semM]
  rfl

theorem Ticks.inOrder (ht : Ticks k k') (h : k.Core) (hkeep : Act.tick.KeepsOrder k)
    (hord : k.InOrder) : k'.InOrder := by
  have hlist : k'.semMList = k.semMList := by rw [ht.fields]
  refine Ordered.shrink hord (ht.sublist h) (fun _ w _ => (ht.priority w).1) fun m hm => ?_
  rw [hlist] at hm
  obtain ⟨pre, x, post, hsplit, hmem, hexp⟩ := ht.split h (not_isReady m)
  have hold := hord.wait m hm
  rw [pi_first] at hold ⊢
  rw [firstPri_congr fun w _ => (ht.priority w).1, hmem, ht.waitPri, hold, hsplit]
  cases pre with
  | cons u pre => rfl
  | nil =>
    cases x with
    | none => rfl
    | some u =>
      obtain ⟨as, bs, hs, hone, -⟩ := (hexp u).mpr rfl
      exact (hkeep m hm u post hsplit hone).symm

theorem Ticks.bounded (ht : Ticks k k') (h : k.Core) (hb : k.WaitBounded) : k'.WaitBounded := by
  have hlist : k'.semMList = k.semMList := by rw [ht.fields]
  refine Bounded.shrink 255 hb (ht.sublist h) (fun _ w _ => (ht.priority w).1) fun m hm => ?_
  rw [hlist] at hm
  exact Or.inr ⟨hm, ht.waitPri m⟩

theorem Effect.inOrder (he : Effect k k.curTcb a r) (h : k.Inv) (hkeep : a.KeepsOrder k)
    (hord : k.InOrder) : r.1.InOrder := by
  rcases he.still_or h with hs | ⟨t, -, rfl, -, ht⟩ |
    ⟨cur, m, timeout, k₁, xs, ys, hcur, rfl, htime, hnone, hother, hb⟩ |
    ⟨cur, m, n, rest, hcur, rfl, -, hg⟩ | ⟨rfl, ht⟩
  · exact hs.inOrder h.toCore hord
  · exact ht.inOrder hord
  · have hplace := hkeep cur hcur htime hnone hother
    exact hb.inOrder h.toCore (h.running cur hcur).1 hplace hord
  · exact hg.inOrder h hcur hord
  · exact ht.inOrder h.toCore hkeep hord

theorem Effect.bounded (he : Effect k k.curTcb a r) (h : k.Inv) (hkeep : a.KeepsSorted k)
    (hb : k.WaitBounded) : r.1.WaitBounded := by
  rcases he.still_or h with hs | ⟨t, -, rfl, -, ht⟩ |
    ⟨cur, m, timeout, k₁, xs, ys, hcur, rfl, htime, hnone, hother, hblocks⟩ |
    ⟨cur, m, n, rest, hcur, rfl, -, hg⟩ | ⟨rfl, ht⟩
  · exact hs.bounded h.toCore hb
  · exact ht.bounded hb
  · exact hblocks.bounded (hkeep cur hcur htime hnone hother) hb
  · exact hg.bounded h hcur hb
  · exact ht.bounded h.toCore hb

theorem initial_sorted : PriorityInheritance.Sorted initial.pi := by
  intro m
  have hnil : initial.pi.waiters m = [] := by
    show initial.ts.members (.semM m) = []
    rw [init_births.lists _ (not_isReady m), members_of_linked beforeIdle_linked]
  rw [hnil]
  exact List.Pairwise.nil

theorem initial_inOrder : initial.InOrder :=
  ⟨initial_sorted, fun _ hm => absurd hm List.not_mem_nil⟩

theorem initial_bounded : initial.WaitBounded :=
  ⟨initial_sorted, fun _ hm => absurd hm List.not_mem_nil⟩

theorem Effect.given (he : Effect k k.curTcb a r) (ha : a = .call (.semMGive m))
    (hone : (k.semM m).takeCount = 1) :
    (r.1.semM m).ownerTcb = (k.ts.members (.semM m)).head? := by
  have hspecial : a.Special := by rw [ha]; exact True.intro
  generalize k.curTcb = c at he
  cases he with
  | calm hs => exact absurd hspecial hs
  | prepare hs => exact absurd hspecial hs
  | birth hs => exact absurd hspecial hs
  | semMInit hs => exact absurd hspecial hs
  | @countDown cur m₀ hd =>
    obtain rfl := Call.semMGive.inj (Act.call.inj ha)
    rw [hone] at hd
    exact absurd rfl hd
  | @give cur m₀ r n rest hd hg =>
    obtain rfl := Call.semMGive.inj (Act.call.inj ha)
    rw [hg.owner, hg.split]
    cases n with
    | none => rw [hg.nil rfl]; rfl
    | some x => rfl
  | _ => exact absurd ha (by simp)

end Kernel

/-- A safe step in which nobody who waits is boosted past a more urgent task in front of it. -/
def KeepsSorted (k : Kernel) (e : Event) : Prop := Safe k e ∧ e.act.KeepsSorted k

/-- A safe step that leaves the wait lists sorted and every `wait_pri` that of a first task. -/
def KeepsOrder (k : Kernel) (e : Event) : Prop := Safe k e ∧ e.act.KeepsOrder k

/-- In a run of such steps every wait list is sorted by priority, `wait_pri` is that of its
first task, and a mutex is handed to a waiter of the lowest priority number. -/
theorem wait_order {k : Kernel} (h : Reachable system KeepsOrder k) (m : ObjPtr) :
    (k.ts.members (.semM m)).Pairwise
        (fun a b => (k.ts.tcb a).taskPriority ≤ (k.ts.tcb b).taskPriority) ∧
      (m ∈ k.semMList → (k.semM m).waitPri = Kernel.firstPri k.ts (k.ts.members (.semM m))) ∧
      ∀ e k', system.step k e k' → e.act = .call (.semMGive m) → (k.semM m).takeCount = 1 →
        (k'.semM m).ownerTcb = (k.ts.members (.semM m)).head? ∧
        ∀ t, (k'.semM m).ownerTcb = some t → ∀ w ∈ k.ts.members (.semM m),
          (k.ts.tcb t).taskPriority ≤ (k.ts.tcb w).taskPriority := by
  have hknown : ∀ k, Reachable system KeepsOrder k → k.Inv := fun k hk =>
    reachable_inv (hk.mono fun _ _ hok => hok.1)
  have hord : k.InOrder := by
    refine h.invariant_rel hknown (fun k hk => ?_) fun k e k' hinv _ hord hok hs => ?_
    · rw [Kernel.init_eq hk]
      exact Kernel.initial_inOrder
    · obtain ⟨r, heff, hk', -⟩ := (Kernel.exec_sound hinv hs.1 hok.1 hs.2).1
      have hr := heff.inOrder hinv hok.2 hord
      rw [hk']
      exact hr
  have hsorted := hord.sorted m
  have hwait := hord.wait m
  rw [Kernel.pi_first] at hwait
  refine ⟨hsorted, hwait, fun e k' hs hact hone => ?_⟩
  have hsafe : Safe k e := by
    rw [Safe, hact]
    exact True.intro
  have hown : (k'.semM m).ownerTcb = (k.ts.members (.semM m)).head? := by
    obtain ⟨r, heff, hk', -⟩ := (Kernel.exec_sound (hknown k h) hs.1 hsafe hs.2).1
    rw [hk']
    exact heff.given hact hone
  refine ⟨hown, fun t ht w hw => ?_⟩
  rw [hown] at ht
  rw [show k.pi.waiters m = k.ts.members (.semM m) from rfl] at hsorted
  cases hc : k.ts.members (.semM m) with
  | nil =>
    rw [hc] at hw
    exact absurd hw List.not_mem_nil
  | cons u rest =>
    rw [hc] at ht hw hsorted
    obtain rfl := Option.some.inj ht
    rcases List.mem_cons.mp hw with rfl | hw
    · exact le_refl _
    · exact (List.pairwise_cons.mp hsorted).1 w hw

/-- Steps that boost nobody who waits, end no task and time nobody out of a mutex. -/
def Kernel.orderOnly (k : Kernel) : Act → Bool
  | .call (.semMTake m _) => (k.semM m).ownerTcb.all fun o => (k.ts.tcb o).status = .ready
  | .tick => k.semMList.all fun m =>
      (k.ts.members (.semM m)).all fun w => (k.ts.tcb w).delayTicks ≠ 1
  | a => a.isPlain

theorem Act.isPlain_of_orderOnly {k : Kernel} {a : Act} (h : k.orderOnly a = true) :
    a.isPlain = true := by
  cases a with
  | call c =>
    cases c
    case semMTake => rfl
    all_goals exact h
  | tick => rfl
  | _ => exact h

theorem inPlace_of_ready {k : Kernel} {m : ObjPtr} (hinv : k.Inv)
    (h : (k.semM m).ownerTcb.all (fun o => (k.ts.tcb o).status = .ready) = true)
    (hnone : (k.semM m).ownerTcb ≠ none) (p : ℕ) : InPlace k.pi p m := by
  intro m'
  obtain ⟨o, ho⟩ := Option.ne_none_iff_exists'.mp hnone
  rw [ho] at h
  have hready : (k.ts.tcb o).status = .ready := of_decide_eq_true h
  have hwait : ∀ m, o ∉ k.pi.waiters m := Kernel.not_waiting hinv.linked (by rw [hready]; simp)
  refine List.Pairwise.imp_mem.mpr (List.pairwise_of_forall fun a b _ hb hr => ?_)
  by_cases hp : p < k.pi.priority o
  · rw [PriorityInheritance.raised_last ho hp hwait] at hr
    rw [hr] at hb
    exact absurd hb (hwait m')
  · exact absurd hr (PriorityInheritance.not_raised ho hp)

theorem keepsOrder_of_orderOnly {k : Kernel} {e : Event} (hinv : k.Inv)
    (h : k.orderOnly e.act = true) : KeepsOrder k e := by
  refine ⟨Act.safe_of_isPlain (Act.isPlain_of_orderOnly h), ?_⟩
  obtain ⟨a, d⟩ := e
  cases a with
  | call c =>
    cases c
    case semMTake m timeout => exact fun cur _ _ hnone _ => inPlace_of_ready hinv h hnone _
    all_goals exact True.intro
  | tick =>
    intro m hm u rest hs hone
    have hne := List.all_eq_true.mp (List.all_eq_true.mp h m hm) u (by rw [hs]; simp)
    exact absurd hone (of_decide_eq_true hne)
  | _ => exact True.intro

/-- Tasks 3 and 2 wait for the mutex of task 1; the later and more urgent one stands first. -/
theorem wait_order_two : ∃ k, Reachable system KeepsOrder k ∧
    k.ts.members (.semM 0) = [2, 3] ∧ (k.semM 0).waitPri = (k.ts.tcb 2).taskPriority ∧
    (k.ts.tcb 2).taskPriority ≤ (k.ts.tcb 3).taskPriority := by
  obtain ⟨⟨es, k⟩, hk, hfact⟩ := Option.map_eq_some_iff.mp (show
    (replay (fun k e => k.orderOnly e.act) .initial
      [.boot (.semMInit 0), .boot (.taskCreate 1024 5), .boot (.taskCreate 1024 3),
        .boot (.taskCreate 1024 4), .load, .call (.delayQDelay 2), .call (.delayQDelay 1),
        .call (.semMTake 0 0), .tick, .resume, .call (.semMTake 0 waitForever), .tick, .resume,
        .call (.semMTake 0 waitForever)]).map
      (fun s => (s.2.semMList, s.2.ts.members (.semM 0))) = some ([0], [2, 3]) by decide +kernel)
  simp only [Prod.mk.injEq] at hfact
  obtain ⟨hlist, hmem⟩ := hfact
  have hreach : Reachable system KeepsOrder k := by
    refine replay_reachable_inv (fun k e _ he => ?_) (fun k e => keepsOrder_of_orderOnly) hk
    exact Act.safe_of_isPlain (Act.isPlain_of_orderOnly he)
  obtain ⟨hsorted, hwait, -⟩ := wait_order hreach 0
  have hpri := hwait (by rw [hlist]; simp)
  rw [hmem] at hsorted hpri
  exact ⟨k, hreach, hmem, hpri, (List.pairwise_cons.mp hsorted).1 3 (by simp)⟩

/-- Task 3 waits behind task 2; a take of its own mutex by task 4 boosts it past task 2. -/
theorem boost_unsorts : ∃ k, Reachable system Safe k ∧
    k.ts.members (.semM 0) = [2, 3] ∧ (k.ts.tcb 3).taskPriority < (k.ts.tcb 2).taskPriority ∧
    (k.semM 0).waitPri ≠ Kernel.firstPri k.ts (k.ts.members (.semM 0)) := by
  obtain ⟨⟨es, k⟩, hk, hfact⟩ := Option.map_eq_some_iff.mp (show
    (replay (fun _ e => e.act.isPlain) .initial
      [.boot (.semMInit 0), .boot (.semMInit 1), .boot (.taskCreate 1024 5),
        .boot (.taskCreate 1024 3), .boot (.taskCreate 1024 4), .boot (.taskCreate 1024 2), .load,
        .call (.delayQDelay 4), .call (.delayQDelay 2), .call (.semMTake 1 0),
        .call (.delayQDelay 1), .call (.semMTake 0 0), .tick, .resume,
        .call (.semMTake 0 waitForever), .tick, .resume, .call (.semMTake 0 waitForever), .tick,
        .tick, .resume, .call (.semMTake 1 waitForever)]).map
      (fun s => (s.2.ts.members (.semM 0), (s.2.ts.tcb 3).taskPriority,
        (s.2.ts.tcb 2).taskPriority, (s.2.semM 0).waitPri)) = some ([2, 3], 2, 3, 2)
      by decide +kernel)
  simp only [Prod.mk.injEq] at hfact
  obtain ⟨hmem, h3, h2, hwait⟩ := hfact
  have hreach : Reachable system Safe k :=
    replay_reachable (fun k e he => Act.safe_of_isPlain he) hk
  refine ⟨k, hreach, hmem, by rw [h3, h2]; decide, ?_⟩
  rw [hwait, hmem, show Kernel.firstPri k.ts [2, 3] = (k.ts.tcb 2).taskPriority from rfl, h2]
  decide

end DfewOS
