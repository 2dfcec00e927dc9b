import DfewOS.EffectSpec

/-!
# Mutexes taken in order

Where every task that may block takes only mutexes of a higher rank than those it
has, no tasks wait for each other in a circle, however the tasks, the handed over
mutexes and the timeouts interleave.
-/

namespace DfewOS
open PriorityInheritance (Ranked WaitsOn)
open Transition (Reachable)

variable {α : Type*} [Preorder α]

/-- A take that may block is of a mutex above all those the caller has. -/
def Act.Upwards (rank : ObjPtr → α) (k : Kernel) : Act → Prop
  | .call (.semMTake m timeout) => timeout ≠ 0 → (k.semM m).ownerTcb ≠ k.curTcb →
      ∀ cur ∈ k.curTcb, ∀ m', (k.semM m').ownerTcb = some cur → rank m' < rank m
  | _ => True

namespace Kernel

variable {k k' : Kernel} {cur t : TcbPtr} {m : ObjPtr} {a : Act} {r : Kernel × Outcome}
  {rank : ObjPtr → α}

/-- `t` waits for a mutex of `u`. -/
def Awaits (k : Kernel) (t u : TcbPtr) : Prop :=
  ∃ m, t ∈ k.ts.members (.semM m) ∧ (k.semM m).ownerTcb = some u

theorem Still.ranked (hs : Still k k') (h : k.Inv) (hturn : ∀ m, Turn k a m (k'.semM m))
    (hr : Ranked k.pi rank) : Ranked k'.pi rank := by
  intro m m' t ho hm
  have hwait : t ∈ k.ts.members (.semM m') := by
    rw [← hs.waiters m']
    exact hm
  have hown : (k'.semM m).ownerTcb = some t := ho
  suffices hold : (k.semM m).ownerTcb = some t from hr m m' t hold hwait
  rcases hs.owner m with hsame | hnil
  · rwa [← hsame]
  · cases hturn m with
    | same hsame => rwa [← hsame]
    | @acquired u hcur _ hnew =>
      rw [hnew] at hown
      rw [Option.some.inj hown] at hcur
      exact absurd hwait (not_waiting h.linked (by rw [(h.running t hcur).2]; simp) m')
    | nested _ _ _ hsame => rwa [← hsame]
    | counted _ _ _ hsame => rwa [← hsame]
    | given _ _ _ hnew =>
      rw [hnew, hnil] at hown
      exact absurd hown (by simp)
    | freed _ _ hnew =>
      rw [hnew] at hown
      exact absurd hown (by simp)

theorem Terminates.ranked (ht : Terminates k t k') (hr : Ranked k.pi rank) :
    Ranked k'.pi rank := by
  intro m m' u ho hm
  have hready : ¬ (QueueId.semM m').IsReady := fun hr => hr
  have hwait : u ∈ (k.ts.members (.semM m')).erase t := by
    rw [← ht.lists _ hready]
    exact hm
  have hown : (k'.semM m).ownerTcb = some u := ho
  rw [ht.owner] at hown
  split_ifs at hown
  exact hr m m' u hown (List.mem_of_mem_erase hwait)

theorem BlocksOn.ranked {timeout : ℕ} {k₁ : Kernel} {xs ys : List TcbPtr}
    (hb : BlocksOn k cur m timeout k₁ k' xs ys)
    (hup : ∀ m', (k.semM m').ownerTcb = some cur → rank m' < rank m) (hr : Ranked k.pi rank) :
    Ranked k'.pi rank := by
  intro m₁ m₂ u ho hm
  have hown : (k.semM m₁).ownerTcb = some u := by
    rw [← hb.owner m₁]
    exact ho
  have hmem : u ∈ k'.ts.members (.semM m₂) := hm
  by_cases he : m₂ = m
  · subst he
    by_cases hu : u = cur
    · rw [hu] at hown
      exact hup m₁ hown
    · rw [hb.waiters] at hmem
      refine hr m₁ m₂ u hown ?_
      show u ∈ k.ts.members (.semM m₂)
      rw [hb.split]
      rcases List.mem_append.mp hmem with hx | hy
      · exact List.mem_append_left _ hx
      · exact List.mem_append_right _ ((List.mem_cons.mp hy).resolve_left hu)
  · have hready : ¬ (QueueId.semM m₂).IsReady := fun hr => hr
    rw [hb.others _ hready fun hq => he (QueueId.semM.inj hq)] at hmem
    exact hr m₁ m₂ u hown hmem

theorem Gives.ranked {n : Option TcbPtr} {rest : List TcbPtr} (hg : Gives k cur m k' n rest)
    (hr : Ranked k.pi rank) : Ranked k'.pi rank := by
  intro m₁ m₂ u ho hm
  have hown : (k'.semM m₁).ownerTcb = some u := ho
  have hmem : u ∈ k'.ts.members (.semM m₂) := hm
  by_cases he₁ : m₁ = m
  · -- the new owner has just left its wait list
    rw [he₁, hg.owner] at hown
    have hnot := not_waiting hg.linked (by rw [(hg.next u hown).2]; simp) m₂
    exact absurd hmem hnot
  · rw [hg.semM m₁ he₁] at hown
    refine hr m₁ m₂ u hown ?_
    show u ∈ k.ts.members (.semM m₂)
    by_cases he : m₂ = m
    · subst he
      rw [hg.waiters] at hmem
      rw [hg.split]
      exact List.mem_append_right _ hmem
    · have hready : ¬ (QueueId.semM m₂).IsReady := fun hr => hr
      rwa [hg.others _ hready fun hq => he (QueueId.semM.inj hq)] at hmem

theorem Ticks.ranked (ht : Ticks k k') (hr : Ranked k.pi rank) : Ranked k'.pi rank := by
  intro m m' u ho hm
  have hready : ¬ (QueueId.semM m').IsReady := fun hr => hr
  have hown : (k'.semM m).ownerTcb = some u := ho
  rw [ht.semM] at hown
  obtain ⟨pre, x, post, hsplit, hnew, -⟩ := ht.walked _ hready
  have hmem : u ∈ k'.ts.members (.semM m') := hm
  rw [hnew] at hmem
  refine hr m m' u hown ?_
  show u ∈ k.ts.members (.semM m')
  rw [hsplit]
  rcases List.mem_append.mp hmem with hp | hp
  · exact List.mem_append_left _ hp
  · exact List.mem_append_right _ (List.mem_append_right _ hp)

theorem Effect.ranked (he : Effect k k.curTcb a r) (h : k.Inv) (hup : a.Upwards rank k)
    (hr : Ranked k.pi rank) : Ranked r.1.pi rank := by
  rcases he.still_or h with hs | ⟨t, -, -, -, ht⟩ |
    ⟨cur, m, timeout, k₁, xs, ys, hcur, rfl, htime, -, hother, hb⟩ | ⟨cur, m, n, rest, -, -, -, hg⟩ |
    ⟨-, ht⟩
  · exact hs.ranked h (he.turn h.toCore) hr
  · exact ht.ranked hr
  · refine hb.ranked (hup htime ?_ cur hcur) hr
    rw [hcur]
    exact hother
  · exact hg.ranked hr
  · exact ht.ranked hr

end Kernel

/-- In a run of safe steps that take the mutexes upwards, no task waits for itself, and every task
that waits for a mutex waits in the end for one that waits for none. -/
theorem no_deadlock {rank : ObjPtr → α} {k : Kernel}
    (h : Reachable system (fun k e => Safe k e ∧ e.act.Upwards rank k) k) :
    (∀ t, ¬ Relation.TransGen k.Awaits t t) ∧
      ∀ t m, t ∈ k.ts.members (.semM m) → ∃ u, k.ts.live u = true ∧
        Relation.TransGen k.Awaits t u ∧ ∀ m', u ∉ k.ts.members (.semM m') := by
  have hknown : ∀ k, Reachable system (fun k e => Safe k e ∧ e.act.Upwards rank k) k → k.Inv :=
    fun k hk => reachable_inv (hk.mono fun _ _ hok => hok.1)
  have hranked : Ranked k.pi rank := by
    refine h.invariant_rel (I := fun k => Ranked k.pi rank) hknown (fun k hk => ?_)
      fun k e k' hinv _ hold hok hs => ?_
    · intro m m' t ho
      have hnone : k.pi.owner m = none := by
        show (k.semM m).ownerTcb = none
        rw [Kernel.init_eq hk, Kernel.initial_semM]
      rw [hnone] at ho
      exact absurd ho (by simp)
    · obtain ⟨r, heff, hk', -⟩ := (Kernel.exec_sound hinv hs.1 hok.1 hs.2).1
      have hr := heff.ranked hinv hok.2 hold
      rw [hk']
      exact hr
  have hinv := hknown k h
  refine ⟨hranked.acyclic, fun t m hm => ?_⟩
  obtain ⟨u, hchain, hend⟩ := hranked.chain_ends
    (fun m hne => Option.ne_none_iff_exists'.mp (hinv.waited m hne)) hm
  obtain ⟨_, -, m', -, ho⟩ := Relation.TransGen.tail'_iff.mp hchain
  exact ⟨u, hinv.owner m' u ho, hchain, hend⟩

/-- Steps that end no task and take no mutex below one that the running task has. -/
def Kernel.upwardsOnly (k : Kernel) : Act → Bool
  | .call (.semMTake m _) => k.semMList.all fun m' => (k.semM m').ownerTcb ≠ k.curTcb ∨ m' < m
  | a => a.isPlain

theorem upwards_of_upwardsOnly {k : Kernel} {a : Act} (hinv : k.Inv) (h : k.upwardsOnly a = true) :
    a.isPlain = true ∧ a.Upwards id k := by
  cases a with
  | call c =>
    cases c
    case semMTake m timeout =>
      refine ⟨rfl, fun _ _ cur hcur m' ho => ?_⟩
      have hm : m' ∈ k.semMList := hinv.owned m' (by rw [ho]; simp)
      have hor := of_decide_eq_true (List.all_eq_true.mp h m' hm)
      exact hor.resolve_left fun hne => hne (ho.trans hcur.symm)
    all_goals exact ⟨h, True.intro⟩
  | _ => exact ⟨h, True.intro⟩

/-- Task 3 waits for task 2, which waits for task 1. -/
theorem no_deadlock_chain : ∃ k, Reachable system (fun k e => Safe k e ∧ e.act.Upwards id k) k ∧
    k.Awaits 3 2 ∧ k.Awaits 2 1 ∧ ¬ Relation.TransGen k.Awaits 3 3 := by
  obtain ⟨⟨es, k⟩, hk, hfact⟩ := Option.map_eq_some_iff.mp (show
    (replay (fun k e => k.upwardsOnly e.act) .initial
      [.boot (.semMInit 0), .boot (.semMInit 1), .boot (.taskCreate 1024 5),
        .boot (.taskCreate 1024 4), .boot (.taskCreate 1024 3), .load, .call (.delayQDelay 2),
        .call (.delayQDelay 1), .call (.semMTake 1 0), .tick, .resume, .call (.semMTake 0 0),
        .call (.semMTake 1 waitForever), .tick, .resume, .call (.semMTake 0 waitForever)]).map
      (fun s => (s.2.ts.members (.semM 0), s.2.ts.members (.semM 1), (s.2.semM 0).ownerTcb,
        (s.2.semM 1).ownerTcb)) = some ([3], [2], some 2, some 1) by decide +kernel)
  simp only [Prod.mk.injEq] at hfact
  obtain ⟨h0, h1, hown0, hown1⟩ := hfact
  have hreach : Reachable system (fun k e => Safe k e ∧ e.act.Upwards id k) k := by
    refine replay_reachable_inv (fun k e hinv he => ?_) (fun k e hinv he => ?_) hk
    · exact Act.safe_of_isPlain (upwards_of_upwardsOnly hinv he).1
    · obtain ⟨hplain, hup⟩ := upwards_of_upwardsOnly hinv he
      exact ⟨Act.safe_of_isPlain hplain, hup⟩
  refine ⟨k, hreach, ⟨0, by rw [h0]; simp, hown0⟩, ⟨1, by rw [h1]; simp, hown1⟩, ?_⟩
  exact (no_deadlock hreach).1 3

end DfewOS
