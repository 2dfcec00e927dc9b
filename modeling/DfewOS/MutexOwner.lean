import DfewOS.MutexCount

/-!
# Who owns a mutex

In a safe run every owner is alive and waits for no mutex of its own. A task
that ends leaves its mutexes to their first waiters only when there are none:
`_free_semM` forgets to assign the next owner, and `_task_entry` frees nothing.
A waiting `semM_take` learns from `delay_ticks` alone whether it got the mutex.
-/

namespace DfewOS
open Transition (Reachable)

variable {k k' : Kernel} {t : TcbPtr} {m : ObjPtr} {e : Event}

namespace Kernel

def NotOwn (k : Kernel) : Prop :=
  ∀ m t, t ∈ k.ts.members (.semM m) → (k.semM m).ownerTcb ≠ some t

theorem Still.notOwn (hs : Still k k') (h : k.NotOwn) : k'.NotOwn := by
  intro m t hm ho
  rw [hs.waiters] at hm
  rcases hs.owner m with he | hnil
  · rw [he] at ho
    exact h m t hm ho
  · rw [hnil] at hm
    exact absurd hm List.not_mem_nil

theorem Terminates.notOwn (ht : Terminates k t k') (h : k.NotOwn) : k'.NotOwn := by
  intro m u hm ho
  have hready : ¬ (QueueId.semM m).IsReady := fun hr => hr
  rw [ht.lists _ hready] at hm
  rw [ht.owner] at ho
  split_ifs at ho
  exact h m u (List.mem_of_mem_erase hm) ho

theorem BlocksOn.notOwn {cur : TcbPtr} {timeout : ℕ} {k₁ : Kernel} {xs ys : List TcbPtr}
    (hb : BlocksOn k cur m timeout k₁ k' xs ys) (hother : (k.semM m).ownerTcb ≠ some cur)
    (h : k.NotOwn) : k'.NotOwn := by
  intro m' u hm ho
  rw [hb.owner] at ho
  by_cases he : m' = m
  · rw [he] at hm ho
    rw [hb.waiters] at hm
    rcases List.mem_append.mp hm with hx | hy
    · exact h m u (by rw [hb.split]; exact List.mem_append_left _ hx) ho
    · rcases List.mem_cons.mp hy with rfl | hy
      · exact hother ho
      · exact h m u (by rw [hb.split]; exact List.mem_append_right _ hy) ho
  · have hready : ¬ (QueueId.semM m').IsReady := fun hr => hr
    rw [hb.others _ hready fun hq => he (QueueId.semM.inj hq)] at hm
    exact h m' u hm ho

theorem Gives.notOwn {cur : TcbPtr} {n : Option TcbPtr} {rest : List TcbPtr}
    (hg : Gives k cur m k' n rest) (hc : k.Core) (h : k.NotOwn) : k'.NotOwn := by
  intro m' u hm ho
  by_cases he : m' = m
  · rw [he] at hm ho
    rw [hg.waiters] at hm
    rw [hg.owner] at ho
    have hnd := hc.linked.lists.nodup (.semM m)
    rw [hg.split, ho, List.nodup_append] at hnd
    exact hnd.2.2 u (by simp) u hm rfl
  · have hready : ¬ (QueueId.semM m').IsReady := fun hr => hr
    rw [hg.others _ hready fun hq => he (QueueId.semM.inj hq)] at hm
    rw [hg.semM m' he] at ho
    exact h m' u hm ho

theorem Ticks.notOwn (ht : Ticks k k') (h : k.NotOwn) : k'.NotOwn := by
  intro m u hm ho
  have hready : ¬ (QueueId.semM m).IsReady := fun hr => hr
  obtain ⟨pre, x, post, hsplit, hnew, -⟩ := ht.walked _ hready
  rw [ht.semM] at ho
  rw [hnew] at hm
  refine h m u ?_ ho
  rw [hsplit]
  rcases List.mem_append.mp hm with hp | hp
  · exact List.mem_append_left _ hp
  · exact List.mem_append_right _ (List.mem_append_right _ hp)

theorem Effect.notOwn {a : Act} {r : Kernel × Outcome} (he : Effect k k.curTcb a r) (hinv : k.Inv)
    (h : k.NotOwn) : r.1.NotOwn := by
  rcases he.still_or hinv with hs | ⟨t, -, -, -, ht⟩ | ⟨_, _, _, _, _, _, -, -, -, -, hother, hb⟩ |
    ⟨_, _, _, _, -, -, -, hg⟩ | ⟨-, ht⟩
  · exact hs.notOwn h
  · exact ht.notOwn h
  · exact hb.notOwn hother h
  · exact hg.notOwn hinv.toCore h
  · exact ht.notOwn h

theorem reachable_notOwn (h : Reachable system Safe k) : k.NotOwn := by
  have hinit : ∀ k, system.init k → k.NotOwn := by
    intro k hk m t _ ho
    rw [init_eq hk, initial_semM] at ho
    exact absurd ho (by simp)
  have hstep : ∀ k e k', k.Inv → k'.Inv → k.NotOwn → Safe k e → system.step k e k' → k'.NotOwn := by
    intro k e k' hinv _ hnot hsafe hs
    obtain ⟨r, heff, hk', -⟩ := (exec_sound hinv hs.1 hsafe hs.2).1
    have hr := heff.notOwn hinv hnot
    rw [hk']
    exact hr
  exact h.invariant_rel (fun k hk => reachable_inv hk) hinit hstep

/-- The mutexes of the ended task `t` passed to their first waiters, or are free. -/
def Released (t : TcbPtr) (k k' : Kernel) : Prop :=
  ∀ m, (k.semM m).ownerTcb = some t →
    (k'.semM m).ownerTcb = (k.ts.members (.semM m)).head? ∧
    (k'.semM m).takeCount = if k.ts.members (.semM m) = [] then 0 else 1

theorem freeSemM_owner (t : TcbPtr) (k : Kernel) (m₀ m : ObjPtr) :
    ((freeSemM t k m₀).semM m).ownerTcb = (k.semM m).ownerTcb ∨
      ((freeSemM t k m₀).semM m).ownerTcb = none := by
  by_cases hm : m = m₀
  · subst hm
    simp only [freeSemM, updateWaitPri]
    split_ifs
    · split
      · exact Or.inr (by simp [setSemM])
      · left
        split <;> simp [setSemM]
    · exact Or.inl rfl
  · left
    simp only [freeSemM, updateWaitPri]
    split_ifs
    · split
      · simp [setSemM, hm]
      · split <;> simp [setSemM, hm]
    · rfl

theorem semMFree_owner (k : Kernel) (t : TcbPtr) (m : ObjPtr) :
    ((k.semMFree t).semM m).ownerTcb = (k.semM m).ownerTcb ∨
      ((k.semMFree t).semM m).ownerTcb = none := by
  rw [semMFree]
  generalize k.semMList = ms
  induction ms generalizing k with
  | nil => exact Or.inl rfl
  | cons m₀ ms ih =>
    rw [List.foldl_cons]
    rcases ih (freeSemM t k m₀) with hi | hi
    · rw [hi]
      exact freeSemM_owner t k m₀ m
    · exact Or.inr hi

theorem taskDelete_owner (h : k.Core) (hl : k.ts.live t = true) {r : Kernel × Outcome}
    (he : k.taskDelete t = some r) (m : ObjPtr) :
    (r.1.semM m).ownerTcb = (k.semM m).ownerTcb ∨ (r.1.semM m).ownerTcb = none := by
  obtain ⟨k₁, hrun, rfl⟩ := Option.map_eq_some_iff.mp he
  obtain ⟨k₂, seq, hunlink, hun⟩ := unlinkTask_unlinks h.linked hl
  obtain rfl := Option.some.inj (hunlink.symm.trans hrun)
  have howner : (k₂.semM m).ownerTcb = (k.semM m).ownerTcb := by
    rw [hun.semM m]
    split_ifs <;> rfl
  rw [← howner]
  exact semMFree_owner k₂ t m

theorem taskDelete_released (h : k.Core) (hnot : k.NotOwn) (hl : k.ts.live t = true)
    {r : Kernel × Outcome} (he : k.taskDelete t = some r) :
    Released t k r.1 ↔ ∀ m, (k.semM m).ownerTcb = some t → k.ts.members (.semM m) = [] := by
  constructor
  · intro hrel m ho
    by_contra hne
    obtain ⟨x, hx⟩ : ∃ x, (k.ts.members (.semM m)).head? = some x := by
      cases hc : k.ts.members (.semM m) with
      | nil => exact absurd hc hne
      | cons x rest => exact ⟨x, rfl⟩
    have hxt : x ≠ t := by
      rintro rfl
      exact hnot m x (List.mem_of_head? hx) ho
    have hown := (hrel m ho).1
    rw [hx] at hown
    rcases taskDelete_owner h hl he m with hsame | hnone
    · rw [hown, ho] at hsame
      exact hxt (Option.some.inj hsame)
    · rw [hown] at hnone
      exact absurd hnone (by simp)
  · intro hfree m ho
    obtain ⟨k', hrun, ht⟩ := taskDelete_terminates h hl hfree
    obtain rfl := Option.some.inj (hrun.symm.trans he)
    have hown := ht.owner m
    have hcount := ht.count m
    rw [if_pos ho] at hown hcount
    rw [hfree m ho, if_pos rfl]
    exact ⟨hown, hcount⟩

theorem taskReturn_released (hnot : k.NotOwn) (hcur : ∀ m, (k'.semM m) = k.semM m) :
    Released t k k' ↔ ∀ m, (k.semM m).ownerTcb ≠ some t := by
  constructor
  · intro hrel m ho
    have hown := (hrel m ho).1
    rw [hcur, ho] at hown
    exact hnot m t (List.mem_of_head? hown.symm) ho
  · exact fun hfree m ho => absurd ho (hfree m)

end Kernel

/-- In a safe run every owner is alive; and a task that ends there hands over its mutexes only
if it is deleted and nobody waits for one of them, or returns without one. -/
theorem mutex_owner_live (h : Reachable system Safe k) :
    (∀ m t, (k.semM m).ownerTcb = some t → k.ts.live t = true) ∧
    ∀ e k', system.step k e k' →
      (∀ t, e.act = .call (.taskDelete t) → (Kernel.Released t k k' ↔
        ∀ m, (k.semM m).ownerTcb = some t → k.ts.members (.semM m) = [])) ∧
      ∀ t, e.act = .exit → k.curTcb = some t → (Kernel.Released t k k' ↔
        ∀ m, (k.semM m).ownerTcb ≠ some t) := by
  have hinv := reachable_inv h
  have hnot := Kernel.reachable_notOwn h
  refine ⟨hinv.owner, fun e k' hs => ⟨fun t hact => ?_, fun t hact hcur => ?_⟩⟩
  · obtain ⟨hdef, hexec⟩ := hs
    rw [hact] at hdef hexec
    rcases Kernel.exec_cases hexec with ⟨cur, c, r, -, hsec, hf⟩ | ⟨_, _, -, ha, -⟩ |
      ⟨_, -, ha, -⟩ | ⟨c, x, -, ha, -⟩ | ⟨-, ha, -⟩
    · cases hsec with
      | call _ hent =>
        have hk' : k'.semM = r.1.semM := by
          rcases Kernel.finish_cases hf with ⟨-, rfl, -⟩ | ⟨-, hload, -⟩
          · rfl
          · rw [Kernel.loadHighestTask_same hload]
            rfl
        have hrel := Kernel.taskDelete_released hinv.toCore hnot hdef.2.2.2.1 hent
        rw [Kernel.Released] at hrel ⊢
        rw [hk']
        exact hrel
    all_goals exact absurd ha (by simp)
  · have hexec := hs.2
    rw [hact] at hexec
    rcases Kernel.exec_cases hexec with ⟨cur, c, r, -, hsec, -⟩ | ⟨_, _, -, ha, -⟩ |
      ⟨cur, -, -, -, hload, -⟩ | ⟨c, x, -, ha, -⟩ | ⟨-, ha, -⟩
    · cases hsec
    · exact absurd ha (by simp)
    · refine Kernel.taskReturn_released hnot fun m => ?_
      rw [Kernel.loadHighestTask_same hload]
      rfl
    · exact absurd ha (by simp)
    · exact absurd ha (by simp)

/-- Task 1 hands the mutex over to task 2, which waits for it. -/
theorem mutex_owner_live_given : ∃ k, Reachable system Safe k ∧ (k.semM 0).ownerTcb = some 2 ∧
    k.ts.live 2 = true := by
  obtain ⟨⟨es, k⟩, hk, howner⟩ := Option.map_eq_some_iff.mp (show
    (replay (fun _ e => e.act.isPlain) .initial [.boot (.semMInit 0), .boot (.taskCreate 1024 3),
      .boot (.taskCreate 1024 2), .load, .call (.delayQDelay 1), .call (.semMTake 0 0), .tick,
      .resume, .call (.semMTake 0 5), .call (.semMGive 0)]).map
      (fun s => (s.2.semM 0).ownerTcb) = some (some 2) by
    set_option maxRecDepth 4000 in decide)
  have hreach : Reachable system Safe k :=
    replay_reachable (fun k e he => Act.safe_of_isPlain he) hk
  exact ⟨k, hreach, howner, (mutex_owner_live hreach).1 0 2 howner⟩

/-- The owner returns from its entry function and stays the owner. -/
theorem returned_owner : ∃ k, Reachable system (fun _ _ => True) k ∧ 0 ∈ k.semMList ∧
    (k.semM 0).ownerTcb = some 1 ∧ k.ts.live 1 = false := by
  obtain ⟨⟨es, k⟩, hk, hfact⟩ := Option.map_eq_some_iff.mp (show
    (replay (fun _ _ => true) .initial [.boot (.semMInit 0), .boot (.taskCreate 1024 3),
      .load, .call (.semMTake 0 0), .exit]).map
      (fun s => (s.2.semMList, (s.2.semM 0).ownerTcb, s.2.ts.live 1)) =
      some ([0], some 1, false) by decide)
  simp only [Prod.mk.injEq] at hfact
  obtain ⟨hlist, howner, hdead⟩ := hfact
  exact ⟨k, replay_reachable (fun _ _ _ => trivial) hk, by rw [hlist]; simp, howner, hdead⟩

end DfewOS
