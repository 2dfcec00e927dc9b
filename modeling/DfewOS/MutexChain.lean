import DfewOS.MutexBoost

/-!
# The blocking chain

From a mutex the chain goes to its owner, and from an owner that is blocked on a mutex to
the owner of that one. It may come back to where it was, so it need not end; `_up_owner_pri`
ends because it follows the chain only as long as the owners are less urgent, and each one
that it leaves behind no longer is.
-/

namespace DfewOS.Kernel
open Tasks (Linked)
open PriorityInheritance (Boosted Raised Touched)

def blocker (k : Kernel) (t : TcbPtr) : Option TcbPtr :=
  if (k.ts.tcb t).status = .pendSemM then
    (k.ts.tcb t).pendObj.bind fun m => (k.semM m).ownerTcb
  else none

def chain (k : Kernel) (m : ObjPtr) : ℕ → Option TcbPtr
  | 0 => (k.semM m).ownerTcb
  | i + 1 => (k.chain m i).bind k.blocker

/-- `t` is on the chain, and up to `t` nobody is as urgent as `p`. -/
def LessUrgentOn (k : Kernel) (p : ℕ) (m : ObjPtr) (t : TcbPtr) : Prop :=
  ∃ i, k.chain m i = some t ∧
    ∀ j ≤ i, ∀ o, k.chain m j = some o → p < (k.ts.tcb o).taskPriority

/-- The mutexes on the way: `m`, and what the less urgent owners wait for. -/
def Visited (k : Kernel) (p : ℕ) (m m' : ObjPtr) : Prop :=
  m' = m ∨ ∃ t, k.LessUrgentOn p m t ∧ (k.ts.tcb t).status = .pendSemM ∧
    (k.ts.tcb t).pendObj = some m'

variable {k k' : Kernel} {seq : QueueId → List TcbPtr} {t u w : TcbPtr} {m m' : ObjPtr} {n p : ℕ}

theorem waits_iff (h : Linked k.ts seq none) (ht : k.ts.live t = true) :
    t ∈ k.pi.waiters m ↔ (k.ts.tcb t).status = .pendSemM ∧ (k.ts.tcb t).pendObj = some m := by
  rw [show k.pi.waiters m = k.ts.members (.semM m) from rfl, members_of_linked h]
  constructor
  · intro hm
    have hs : (k.ts.tcb t).status = .pendSemM := by
      by_contra hs
      exact not_waiting h hs m hm
    obtain ⟨m', hobj, hm'⟩ := waiting_of_status h ht hs
    have heq : m' = m := QueueId.semM.inj (h.lists.disjoint _ _ t hm' hm)
    exact ⟨hs, by rw [hobj, heq]⟩
  · rintro ⟨hs, hobj⟩
    obtain ⟨m', hobj', hm'⟩ := waiting_of_status h ht hs
    rw [hobj] at hobj'
    rwa [Option.some.inj hobj']

theorem blocker_eq_some :
    k.blocker u = some t ↔ ∃ m, (k.ts.tcb u).status = .pendSemM ∧
      (k.ts.tcb u).pendObj = some m ∧ (k.semM m).ownerTcb = some t := by
  rw [blocker]
  split
  · rename_i hs
    simp [Option.bind_eq_some_iff, hs]
  · rename_i hs
    simp [hs]

/-- The tasks that have to be boosted are the less urgent ones at the start of the chain. -/
theorem raised_iff (h : Linked k.ts seq none)
    (howner : ∀ m t, (k.semM m).ownerTcb = some t → k.ts.live t = true) :
    Raised k.pi p m t ↔ k.LessUrgentOn p m t := by
  constructor
  · intro hr
    induction hr with
    | owner ho hp =>
      refine ⟨0, ho, fun j hj o hjo => ?_⟩
      rw [Nat.le_zero.mp hj] at hjo
      rw [← Option.some.inj (ho.symm.trans hjo)]
      exact hp
    | @chain u o m' hu hwait ho hp ih =>
      obtain ⟨i, hi, hless⟩ := ih
      have hlive : k.ts.live u = true := by
        obtain ⟨m'', hm''⟩ := hu.owned
        exact howner m'' u hm''
      obtain ⟨hs, hobj⟩ := (waits_iff h hlive).mp hwait
      have hnext : k.chain m (i + 1) = some o := by
        rw [chain, hi, Option.bind_some]
        exact blocker_eq_some.mpr ⟨m', hs, hobj, ho⟩
      refine ⟨i + 1, hnext, fun j hj o' hjo => ?_⟩
      rcases Nat.le_succ_iff.mp hj with hj | rfl
      · exact hless j hj o' hjo
      · rw [← Option.some.inj (hnext.symm.trans hjo)]
        exact hp
  · rintro ⟨i, hi, hless⟩
    have hp := hless i (le_refl i) t hi
    induction i generalizing t with
    | zero => exact .owner hi hp
    | succ i ih =>
      rw [chain] at hi
      obtain ⟨u, hu, hblock⟩ := Option.bind_eq_some_iff.mp hi
      obtain ⟨m', hs, hobj, ho⟩ := blocker_eq_some.mp hblock
      have hraised : Raised k.pi p m u :=
        ih hu (fun j hj => hless j (Nat.le_succ_of_le hj)) (hless i (Nat.le_succ i) u hu)
      obtain ⟨m'', hm''⟩ := hraised.owned
      exact .chain hraised ((waits_iff h (howner m'' u hm'')).mpr ⟨hs, hobj⟩) ho hp

theorem touched_of_visited (h : Linked k.ts seq none)
    (howner : ∀ m t, (k.semM m).ownerTcb = some t → k.ts.live t = true)
    (hv : k.Visited p m m') : Touched k.pi p m m' := by
  rcases hv with rfl | ⟨t, ht, hs, hobj⟩
  · exact Or.inl rfl
  · have hraised := (raised_iff h howner).mpr ht
    obtain ⟨m'', hm''⟩ := hraised.owned
    exact Or.inr ⟨t, hraised, (waits_iff h (howner m'' t hm'')).mpr ⟨hs, hobj⟩⟩

theorem upOwnerPri_mono (hrun : upOwnerPri n k w m = some k') :
    upOwnerPri (n + 1) k w m = some k' := by
  induction n generalizing k k' w m with
  | zero => cases hrun
  | succ n ih =>
    cases ho : (k.semM m).ownerTcb with
    | none =>
      rw [upOwnerPri, ho] at hrun
      cases hrun
    | some o =>
      rw [upOwnerPri_succ n k w m ho] at hrun
      rw [upOwnerPri_succ (n + 1) k w m ho]
      split at hrun
      · rename_i hlt
        rw [if_pos hlt]
        cases hs : (k.ts.tcb o).status <;> rw [hs] at hrun
        case pendSemM =>
          simp only at hrun ⊢
          cases hobj : (k.ts.tcb o).pendObj with
          | none =>
            rw [hobj] at hrun
            cases hrun
          | some m' =>
            rw [hobj, Option.bind_some] at hrun
            obtain ⟨k₁, hrec, hask⟩ := Option.map_eq_some_iff.mp hrun
            rw [Option.bind_some, ih hrec, Option.map_some, hask]
        all_goals exact hrun
      · rename_i hlt
        rw [if_neg hlt]
        exact hrun

theorem upOwnerPri_le {n' : ℕ} (hle : n ≤ n') (hrun : upOwnerPri n k w m = some k') :
    upOwnerPri n' k w m = some k' := by
  induction hle with
  | refl => exact hrun
  | step _ ih => exact upOwnerPri_mono ih

end Kernel

open Kernel
open Tasks (Linked)
open Transition (Reachable)

/-- `_up_owner_pri` returns, also if the chain runs in a circle. It gives the priority of the
caller to the owners up to the first one that is as urgent, and to nobody else. -/
theorem boost_chain {k : Kernel} {seq : QueueId → List TcbPtr} {pTcbWait : TcbPtr} {pSemM : ObjPtr}
    (h : Linked k.ts seq none)
    (howner : ∀ m t, (k.semM m).ownerTcb = some t → k.ts.live t = true)
    (hwaited : ∀ m, seq (.semM m) ≠ [] → (k.semM m).ownerTcb ≠ none)
    (hwait : k.ts.live pTcbWait = true) (hown : (k.semM pSemM).ownerTcb ≠ none) :
    ∃ k', (∀ n, taskNumMax < n → upOwnerPri n k pTcbWait pSemM = some k') ∧
      (∀ t, k.LessUrgentOn (k.ts.tcb pTcbWait).taskPriority pSemM t →
        (k'.ts.tcb t).taskPriority = (k.ts.tcb pTcbWait).taskPriority) ∧
      (∀ t, ¬ k.LessUrgentOn (k.ts.tcb pTcbWait).taskPriority pSemM t →
        (k'.ts.tcb t).taskPriority = (k.ts.tcb t).taskPriority) ∧
      (∀ t, k.LessUrgentOn (k.ts.tcb pTcbWait).taskPriority pSemM t →
        (k.ts.tcb t).status = .ready →
          t ∈ k'.ts.members (.ready (k.ts.tcb pTcbWait).taskPriority)) ∧
      ∀ m, k.Visited (k.ts.tcb pTcbWait).taskPriority pSemM m →
        (k'.semM m).waitPri ≤ (k.ts.tcb pTcbWait).taskPriority := by
  obtain ⟨k', seq', hrun, hlink, hlift, hboost⟩ :=
    upOwnerPri_boosts h howner hwaited hown (h.inRange pTcbWait hwait).priority
      (k.lessUrgent_card _)
  have hraised : ∀ t, k.LessUrgentOn (k.ts.tcb pTcbWait).taskPriority pSemM t →
      (k'.ts.tcb t).taskPriority = (k.ts.tcb pTcbWait).taskPriority := fun t ht =>
    hboost.raised t ((raised_iff h howner).mpr ht)
  refine ⟨k', fun n hn => upOwnerPri_le hn hrun, hraised, fun t ht => ?_, fun t ht hs => ?_,
    fun m hv => ?_⟩
  · exact hboost.kept t (mt (raised_iff h howner).mp ht)
  · obtain ⟨m, hm⟩ := ((raised_iff h howner).mpr ht).owned
    have hlive : k'.ts.live t = true := by rw [hlift.live, howner m t hm]
    have hs' : (k'.ts.tcb t).status = .ready := by rw [hlift.tcb t]; exact hs
    rw [members_of_linked hlink, ← hraised t ht]
    exact hlink.mem_ready hlive hs'
  · have hmin := hboost.touched m (touched_of_visited h howner hv)
    rw [show (k'.semM m).waitPri = k'.pi.waitPri m from rfl, hmin]
    exact min_le_left _ _

/-- Task 2 of priority 2 meets task 1 of priority 3, which owns mutex 0. -/
theorem boost_chain_meets : ∃ k k', upOwnerPri 257 k 2 0 = some k' ∧
    (k.ts.tcb 1).taskPriority = 3 ∧ (k'.ts.tcb 1).taskPriority = 2 ∧
      1 ∈ k'.ts.members (.ready 2) := by
  obtain ⟨⟨es, k⟩, hk, hfact⟩ := Option.map_eq_some_iff.mp (show
    (replay (fun _ e => e.act.isPlain) .initial
      [.boot (.semMInit 0), .boot (.taskCreate 1024 3), .boot (.taskCreate 1024 2), .load,
        .call (.delayQDelay 1), .call (.semMTake 0 0), .tick, .resume]).map
      (fun s => (s.2.ts.live 2, (s.2.semM 0).ownerTcb, (s.2.ts.tcb 1).taskPriority,
        (s.2.ts.tcb 2).taskPriority, (s.2.ts.tcb 1).status)) =
      some (true, some 1, 3, 2, .ready) by set_option maxRecDepth 4000 in decide)
  simp only [Prod.mk.injEq] at hfact
  obtain ⟨hlive, hown, hp₁, hp₂, hs⟩ := hfact
  have hreach : Reachable system Safe k :=
    replay_reachable (fun k e he => Act.safe_of_isPlain he) hk
  have hinv := reachable_inv hreach
  have hsome : (k.semM 0).ownerTcb ≠ none := by
    rw [hown]
    simp
  obtain ⟨k', hrun, hraised, -, hready, -⟩ :=
    boost_chain hinv.linked hinv.owner hinv.waited hlive hsome
  rw [hp₂] at hraised hready
  have hless : k.LessUrgentOn 2 0 1 := by
    refine ⟨0, hown, fun j hj o ho => ?_⟩
    rw [Nat.le_zero.mp hj] at ho
    rw [← Option.some.inj (hown.symm.trans ho), hp₁]
    decide
  exact ⟨k, k', hrun 257 (by decide), hp₁, hraised 1 hless, hready 1 hless hs⟩

end DfewOS
