import DfewOS.LockOrder
import DfewOS.MutexOrder
import DfewOS.RoundRobin

/-!
# No unbounded priority inversion

What priority inheritance is for: while a task waits for a mutex, through however
many owners that wait themselves, no task less urgent than it is loaded as long
as the last of these owners is ready. A wake-up does not switch tasks, so this is
about the moments when a task is loaded, which comes with every tick at the latest.
-/

namespace DfewOS
open PriorityInheritance (Covered WaitsOn)
open Tasks (Linked)
open Transition (Reachable)

namespace Kernel

variable {k k' : Kernel} {cur t o : TcbPtr} {m : ObjPtr} {a : Act} {r : Kernel × Outcome}
  {d : Option (Call × Result)}

theorem Still.covered (hs : Still k k') (h : k.Core) (hc : Covered k.pi) : Covered k'.pi := by
  refine hc.shrink fun m t ho w hm => ?_
  have hw : w ∈ k.ts.members (.semM m) := by
    rw [← hs.waiters m]
    exact hm
  have hown : (k.semM m).ownerTcb = some t := by
    rcases hs.owner m with hsame | hnil
    · rw [← hsame]
      exact ho
    · rw [hnil] at hw
      exact absurd hw List.not_mem_nil
  exact ⟨hw, hown, (hs.priority t (h.owner m t hown)).1,
    (hs.priority w (h.linked.live_of_mem hw)).1⟩

theorem Terminates.covered (ht : Terminates k t k') (hc : Covered k.pi) : Covered k'.pi := by
  have hpri : ∀ u, k'.pi.priority u = k.pi.priority u :=
    fun u => congrArg (fun f => (f u).taskPriority) ht.tcb
  refine hc.shrink fun m u ho w hm => ?_
  have hready : ¬ (QueueId.semM m).IsReady := fun hr => hr
  have hw : w ∈ (k.ts.members (.semM m)).erase t := by
    rw [← ht.lists _ hready]
    exact hm
  refine ⟨List.mem_of_mem_erase hw, ?_, hpri u, hpri w⟩
  have hown : (k'.semM m).ownerTcb = some u := ho
  rw [ht.owner] at hown
  split_ifs at hown
  exact hown

theorem BlocksOn.covered {timeout : ℕ} {k₁ : Kernel} {xs ys : List TcbPtr}
    (hb : BlocksOn k cur m timeout k₁ k' xs ys) (hc : Covered k.pi) : Covered k'.pi := by
  refine hc.blocked hb.boosted ?_ (funext hb.priority) fun m' w hw => ?_
  · exact funext fun m' => congrArg (fun f => (f m').ownerTcb) hb.semM
  · have hready : ¬ (QueueId.semM m').IsReady := fun hr => hr
    have hmem : w ∈ k'.ts.members (.semM m') := hw
    by_cases hm : m' = m
    · subst hm
      rw [hb.waiters] at hmem
      show w ∈ k.ts.members (.semM m') ∨ _
      rw [hb.split]
      rcases List.mem_append.mp hmem with hx | hy
      · exact Or.inl (List.mem_append_left _ hx)
      · rcases List.mem_cons.mp hy with rfl | hy
        · exact Or.inr ⟨rfl, rfl⟩
        · exact Or.inl (List.mem_append_right _ hy)
    · have hne : QueueId.semM m' ≠ .semM m := fun he => hm (QueueId.semM.inj he)
      rw [hb.others _ hready hne] at hmem
      exact Or.inl hmem

theorem Gives.covered {n : Option TcbPtr} {rest : List TcbPtr} (hg : Gives k cur m k' n rest)
    (h : k.Inv) (hcur : k.curTcb = some cur) (hb : k.WaitBounded) (hc : Covered k.pi) :
    Covered k'.pi := by
  obtain ⟨-, hs⟩ := h.running cur hcur
  have hb' : k'.WaitBounded := hg.bounded h hcur hb
  have hlist : k'.semMList = k.semMList := by rw [hg.fields]
  have hnot : n ≠ some cur := fun hn => (hg.next cur hn).1 rfl
  refine Covered.given (m := m) (t := cur) hc hg.split (fun u hu w hw => ?_) hnot
    (not_waiting h.linked (by rw [hs]; simp)) hg.owner
    (fun m' hm => congrArg SemMux.ownerTcb (hg.semM m' hm)) hg.waiters (fun m' hm => hg.others_same hm)
    (fun u hu => hg.priority hu) ?_
  · have hsplit := hg.split
    have hsorted := hb.sorted m
    rw [show k.pi.waiters m = k.ts.members (.semM m) from rfl] at hsorted
    rw [hu, Option.toList_some, List.singleton_append] at hsplit
    rw [hsplit] at hsorted
    exact (List.pairwise_cons.mp hsorted).1 w hw
  · have hself : (k'.ts.tcb cur).taskPriority = _ := congrArg OsTcb.taskPriority hg.self
    dsimp only at hself
    split_ifs at hself with hlt
    · right
      intro m' ho w hw
      have ho' : (k'.semM m').ownerTcb = some cur := ho
      have hm : m' ≠ m := by
        rintro rfl
        rw [hg.owner] at ho'
        exact hnot ho'
      have hin : m' ∈ k'.semMList := by
        rw [hlist]
        apply h.owned
        rw [← hg.semM m' hm, ho']
        simp
      have hlow := (k'.foldl_checkOwner cur k'.semMList 255).2.1 m' hin ho'
      have hwait : (k'.semM m').waitPri ≤ (k'.ts.tcb w).taskPriority := hb'.bound m' hin w hw
      show (k'.ts.tcb cur).taskPriority ≤ (k'.ts.tcb w).taskPriority
      rw [hself]
      exact (min_le_left _ _).trans (hlow.trans hwait)
    · exact Or.inl hself

theorem Ticks.covered (ht : Ticks k k') (h : k.Core) (hc : Covered k.pi) : Covered k'.pi := by
  refine hc.shrink fun m t ho w hm => ?_
  have hready : ¬ (QueueId.semM m).IsReady := fun hr => hr
  have hown : (k'.semM m).ownerTcb = some t := ho
  rw [ht.semM] at hown
  exact ⟨((ht.stays h hready w).mp hm).1, hown, (ht.priority t).1, (ht.priority w).1⟩

theorem Effect.covered (he : Effect k k.curTcb a r) (h : k.Inv) (hbound : k.WaitBounded)
    (hc : Covered k.pi) : Covered r.1.pi := by
  rcases he.still_or h with hs | ⟨t, -, -, -, ht⟩ | ⟨cur, m, timeout, k₁, xs, ys, -, -, -, -, -, hb⟩ |
    ⟨cur, m, n, rest, hcur, -, -, hg⟩ | ⟨-, ht⟩
  · exact hs.covered h.toCore hc
  · exact ht.covered hc
  · exact hb.covered hc
  · exact hg.covered h hcur hbound hc
  · exact ht.covered h.toCore hc

theorem initial_covered : Covered initial.pi := by
  intro m t ho
  have hnone : initial.pi.owner m = none := by
    show (initial.semM m).ownerTcb = none
    rw [initial_semM]
  rw [hnone] at ho
  exact absurd ho (by simp)

/-! ## Loading -/

theorem load_least {seq : QueueId → List TcbPtr} (h : Linked k.ts seq none)
    (hload : k.loadHighestTask = some k') (hcur : k'.curTcb = some cur)
    (hl : k.ts.live t = true) (hs : (k.ts.tcb t).status = .ready) :
    (k.ts.tcb cur).taskPriority ≤ (k.ts.tcb t).taskPriority := by
  obtain ⟨u, hu, rfl⟩ := Option.map_eq_some_iff.mp hload
  obtain rfl := Option.some.inj hcur
  have hmem : t ∈ seq (.ready (k.ts.tcb t).taskPriority) :=
    h.mem_ready hl hs
  rw [h.ready.highest] at hu
  rcases lowest_or_empty fun p => seq (.ready p) with hemp | ⟨p, hp, ⟨x, hx⟩, hlow⟩
  · rw [firstReady_eq_none hemp] at hu
    exact absurd hu (by simp)
  · rw [firstReady_eq_some hp hx hlow] at hu
    obtain rfl := Option.some.inj hu
    rw [(ready_of_mem h (List.mem_of_head? hx)).2.2]
    by_contra hlt
    rw [hlow _ (not_le.mp hlt)] at hmem
    exact absurd hmem List.not_mem_nil

theorem step_loads (h : k.Inv) (hdef : k.defined a) (hsafe : a.Safe k)
    (he : k.exec a = some (k', d)) (hnew : k'.curTcb ≠ k.curTcb ∨ a = .tick) :
    ∃ k₁ : Kernel, Linked k₁.ts k₁.ts.members none ∧ k₁.loadHighestTask = some k' := by
  rcases exec_cases he with ⟨cur, c, r, hcur, hsec, hfin⟩ | ⟨cur, k₁, hcur, -, hticked, hload, -⟩ |
    ⟨cur, hcur, rfl, -, hload, -⟩ | ⟨c, x, hcur, rfl, hboot, -⟩ | ⟨-, -, hload, -⟩
  · obtain ⟨-, -, hset⟩ := section_sound h hcur hdef hsafe hsec
    rcases finish_cases hfin with ⟨-, rfl, -⟩ | ⟨-, hload, -⟩
    · rcases hnew with hne | rfl
      · exact absurd (hset.curTcb.trans hcur.symm) hne
      · cases hsec
    · exact ⟨r.1.setPc cur (r.2.pc c), hset.core.linked, hload⟩
  · obtain ⟨hl, hs⟩ := h.running cur hcur
    obtain ⟨k₂, hrun, hticks⟩ := tickAnnounce_ticks h.toCore hl hs
    obtain rfl := Option.some.inj (hrun.symm.trans hticked)
    exact ⟨_, hticks.linked, hload⟩
  · obtain ⟨hl, hs⟩ := h.running cur hcur
    have hterm := taskReturn_terminates h.toCore hl hs fun m => hsafe cur m hcur
    exact ⟨_, hterm.linked, hload⟩
  · rcases hnew with hne | hact
    · exact absurd (boot_curTcb (boot_sound h hcur hdef hboot).1) hne
    · exact absurd hact (by simp)
  · exact ⟨_, h.linked, hload⟩

end Kernel

/-- In a run that leaves the wait lists sorted, whenever a task is loaded it is at least as urgent
as each task that waits, over any number of owners, for a ready one. -/
theorem no_inversion {k k' : Kernel} {e : Event} (h : Reachable system KeepsSorted k)
    (hok : KeepsSorted k e) (hs : system.step k e k')
    (hload : k'.curTcb ≠ k.curTcb ∨ e.act = .tick) {cur t o : TcbPtr} (hcur : k'.curTcb = some cur)
    (hwait : Relation.TransGen k'.Awaits t o) (hready : (k'.ts.tcb o).status = .ready) :
    (k'.ts.tcb cur).taskPriority ≤ (k'.ts.tcb o).taskPriority ∧
      (k'.ts.tcb o).taskPriority ≤ (k'.ts.tcb t).taskPriority := by
  have hknown : ∀ k, Reachable system KeepsSorted k → k.Inv := fun k hk =>
    reachable_inv (hk.mono fun _ _ hok => hok.1)
  have hcovered : k'.WaitBounded ∧ Covered k'.pi := by
    refine (h.step hok hs).invariant_rel (I := fun k => k.WaitBounded ∧ Covered k.pi) hknown
      (fun k hk => ?_) fun k e k' hinv _ hold hok hs => ?_
    · rw [Kernel.init_eq hk]
      exact ⟨Kernel.initial_bounded, Kernel.initial_covered⟩
    · obtain ⟨r, heff, hk', -⟩ := (Kernel.exec_sound hinv hs.1 hok.1 hs.2).1
      have hbounded := heff.bounded hinv hok.2 hold.1
      have hcovered := heff.covered hinv hold.1 hold.2
      rw [hk']
      exact ⟨hbounded, hcovered⟩
  have hinv' : k'.Inv := hknown k' (h.step hok hs)
  obtain ⟨k₁, hlink, hrun⟩ := Kernel.step_loads (hknown k h) hs.1 hok.1 hs.2 hload
  have hts : k'.ts = k₁.ts := by rw [Kernel.loadHighestTask_same hrun]
  have hlive : k'.ts.live o = true := by
    obtain ⟨_, -, m, -, ho⟩ := Relation.TransGen.tail'_iff.mp hwait
    exact hinv'.owner m o ho
  refine ⟨?_, hcovered.2.chain hwait⟩
  rw [hts] at hready hlive ⊢
  exact Kernel.load_least hlink hrun hcur hlive hready

/-- Steps that boost nobody who waits and end no task; a wait for a mutex may time out. -/
def Kernel.boostFree (k : Kernel) : Act → Bool
  | .call (.semMTake m _) => (k.semM m).ownerTcb.all fun o => (k.ts.tcb o).status = .ready
  | a => a.isPlain

theorem Act.isPlain_of_boostFree {k : Kernel} {a : Act} (h : k.boostFree a = true) :
    a.isPlain = true := by
  cases a with
  | call c =>
    cases c
    case semMTake => rfl
    all_goals exact h
  | _ => exact h

theorem keepsSorted_of_boostFree {k : Kernel} {e : Event} (hinv : k.Inv)
    (h : k.boostFree e.act = true) : KeepsSorted k e := by
  refine ⟨Act.safe_of_isPlain (Act.isPlain_of_boostFree h), ?_⟩
  obtain ⟨a, d⟩ := e
  cases a with
  | call c =>
    cases c
    case semMTake m timeout => exact fun cur _ _ hnone _ => inPlace_of_ready hinv h hnone _
    all_goals exact True.intro
  | _ => exact True.intro

/-- Task 3 of priority 4 has timed out of the mutex of task 1 of priority 5, and task 2 of priority
3 has to wait for it: task 1 is loaded, not task 3, which is ready too. -/
theorem no_inversion_medium : ∃ k k' : Kernel, k.curTcb = some 2 ∧ k'.curTcb = some 1 ∧
    [1, 2, 3].map (fun t => (k.ts.tcb t).taskPriority) = [4, 3, 4] ∧
    3 ∈ k'.ts.members (.ready 4) ∧ 2 ∈ k'.ts.members (.semM 0) ∧
    (k'.ts.tcb 1).taskPriority ≤ (k'.ts.tcb 2).taskPriority := by
  obtain ⟨⟨es, k⟩, hk, hfact⟩ := Option.bind_eq_some_iff.mp (show
    (replay (fun k e => k.boostFree e.act) .initial
      [.boot (.semMInit 0), .boot (.taskCreate 1024 5), .boot (.taskCreate 1024 3),
        .boot (.taskCreate 1024 4), .load, .call (.delayQDelay 2), .call (.delayQDelay 1),
        .call (.semMTake 0 0), .tick, .resume, .call (.semMTake 0 1), .tick, .resume]).bind
      (fun s => (s.2.exec (.call (.semMTake 0 waitForever))).map fun r =>
        (r.2, [s.2.curTcb, r.1.curTcb, (r.1.semM 0).ownerTcb],
          [1, 2, 3].map fun t => (s.2.ts.tcb t).taskPriority,
          [decide (s.2.defined (.call (.semMTake 0 waitForever))),
            s.2.boostFree (.call (.semMTake 0 waitForever)), decide (3 ∈ r.1.ts.members (.ready 4)),
            decide (2 ∈ r.1.ts.members (.semM 0))])) =
      some (none, [some 2, some 1, some 1], [4, 3, 4], [true, true, true, true]) by decide +kernel)
  obtain ⟨⟨k', d⟩, hexec, hfact⟩ := Option.map_eq_some_iff.mp hfact
  simp only [Prod.mk.injEq, List.cons.injEq, and_true] at hfact
  obtain ⟨rfl, ⟨hcur, hcur', hown⟩, hpri, hdef, honly, hmedium, hwait⟩ := hfact
  have hreach : Reachable system KeepsSorted k := by
    refine replay_reachable_inv (fun k e _ he => ?_) (fun k e => keepsSorted_of_boostFree) hk
    exact Act.safe_of_isPlain (Act.isPlain_of_boostFree he)
  have hinv : k.Inv := reachable_inv (hreach.mono fun _ _ hok => hok.1)
  have hok : KeepsSorted k ⟨.call (.semMTake 0 waitForever), none⟩ :=
    keepsSorted_of_boostFree hinv honly
  have hstep : system.step k ⟨.call (.semMTake 0 waitForever), none⟩ k' :=
    ⟨of_decide_eq_true hdef, hexec⟩
  have hinv' : k'.Inv := (Kernel.exec_sound hinv hstep.1 hok.1 hstep.2).2
  have hawaits : k'.Awaits 2 1 := ⟨0, of_decide_eq_true hwait, hown⟩
  have hresult := no_inversion hreach hok hstep (Or.inl (by rw [hcur, hcur']; decide)) hcur'
    (.single hawaits) (hinv'.running 1 hcur').2
  exact ⟨k, k', hcur, hcur', by simpa using hpri, of_decide_eq_true hmedium,
    of_decide_eq_true hwait, hresult.2⟩

end DfewOS
