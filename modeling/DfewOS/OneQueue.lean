import DfewOS.SafeRuns

/-!
# One queue per task, and a ready running task

Both are read off the invariant. A task that deletes itself is the one way to
lose the second: `task_delete` has no `LOAD_HIGHEST_TASK`, so the deleted task
stays the running one.
-/

namespace DfewOS
open Transition (Run Reachable)

/-- Every live task is linked once, in the list that its status and `pend_obj` name. -/
theorem oneQueue {k : Kernel} (h : Reachable system Safe k) :
    (∀ t, k.ts.live t = true → ∃ l, (k.ts.tcb t).home = some l ∧
      (∀ l', (k.ts.members l').count t = if l' = l then 1 else 0) ∧
      ((k.ts.tcb t).status = .ready → (k.ts.tcb t).pendObj = none)) ∧
    ListHeap.Lists k.ts.dl k.ts.members ∧ k.ts.sound = true := by
  have hlink := (reachable_inv h).linked
  refine ⟨fun t ht => ?_, hlink.lists, hlink.sound⟩
  have hplaced := hlink.placed t ht (by simp)
  obtain ⟨l, hl⟩ := Option.ne_none_iff_exists'.mp hplaced.home
  refine ⟨l, hl, fun l' => ?_, hplaced.pendObj⟩
  split_ifs with he
  · subst he
    have hm : t ∈ k.ts.members l' := (hlink.home t l').mpr ⟨ht, by simp, hl⟩
    exact List.count_eq_one_of_mem (hlink.lists.nodup l') hm
  · rw [List.count_eq_zero]
    intro hm
    have hh := hlink.home_of_mem hm
    rw [hl] at hh
    exact he (Option.some.inj hh).symm

theorem oneQueue_blocked : ∃ k, Reachable system Safe k ∧ (k.ts.tcb 1).status = .pendSemM ∧
    ∃ l, (k.ts.tcb 1).home = some l ∧ (k.ts.members l).count 1 = 1 := by
  obtain ⟨⟨es, k⟩, hk, hfact⟩ := Option.map_eq_some_iff.mp (show
    (replay (fun _ e => e.act.isPlain) .initial
      [.boot (.semMInit 0), .boot (.taskCreate 1024 2), .boot (.taskCreate 1024 3), .load,
        .call (.delayQDelay 1), .call (.semMTake 0 0), .tick, .resume,
        .call (.semMTake 0 5)]).map
      (fun s => ((s.2.ts.tcb 1).status, s.2.ts.live 1)) = some (.pendSemM, true) by set_option maxRecDepth 4000 in decide)
  obtain ⟨hs, hl⟩ := Prod.mk.inj hfact
  have hreach : Reachable system Safe k :=
    replay_reachable (fun k e he => Act.safe_of_isPlain he) hk
  obtain ⟨l, hh, hcount, -⟩ := (oneQueue hreach).1 1 hl
  exact ⟨k, hreach, hs, l, hh, by rw [hcount l, if_pos rfl]⟩

/-- Wherever a tick may come, the running task is live, ready and in its ready list, so the
rotation of the tick takes it out of a list it is in and brings no deleted task back. -/
theorem running_ready {k : Kernel} (h : Reachable system Safe k) (hi : k.intEnabled = true) :
    ∃ t, k.curTcb = some t ∧ k.ts.live t = true ∧ (k.ts.tcb t).status = .ready ∧
      t ∈ k.ts.members (.ready (k.ts.tcb t).taskPriority) ∧
      ∃ k', k.tickAnnounce t = some k' ∧ k'.ts.sound = true ∧
        ∀ p, ∀ u ∈ k'.ts.members (.ready p), k'.ts.live u = true := by
  have hinv := reachable_inv h
  obtain ⟨t, ht⟩ : ∃ t, k.curTcb = some t := by
    cases hc : k.curTcb with
    | none => simp [Kernel.intEnabled, hc] at hi
    | some t => exact ⟨t, rfl⟩
  obtain ⟨hl, hs⟩ := hinv.running t ht
  obtain ⟨k', hrun, hticks⟩ := Kernel.tickAnnounce_ticks hinv.toCore hl hs
  refine ⟨t, ht, hl, hs, hinv.linked.mem_ready hl hs, k', hrun, hticks.linked.sound, ?_⟩
  exact fun p u hu => hticks.linked.live_of_mem hu

/-- Task 2 has delayed itself, and the tick that makes it ready again lets it run on. -/
theorem running_ready_delayed : ∃ k, Reachable system Safe k ∧ k.intEnabled = true ∧
    ∃ t, k.curTcb = some t ∧ k.ts.live t = true ∧ (k.ts.tcb t).status = .ready := by
  obtain ⟨⟨es, k⟩, hk, hi⟩ := Option.map_eq_some_iff.mp (show
    (replay (fun _ e => e.act.isPlain) .initial
      [.boot (.taskCreate 1024 3), .boot (.taskCreate 1024 2), .load, .call (.delayQDelay 1),
        .tick, .resume]).map (fun s => s.2.intEnabled) = some true by
      set_option maxRecDepth 4000 in decide)
  have hreach : Reachable system Safe k :=
    replay_reachable (fun k e he => Act.safe_of_isPlain he) hk
  obtain ⟨t, ht, hl, hs, -⟩ := running_ready hreach hi
  exact ⟨k, hreach, hi, t, ht, hl, hs⟩

/-- A task deletes itself: the next tick takes it from a list it is not in and makes it ready. -/
theorem deletedSelf_running : ∃ k, Reachable system (fun _ _ => True) k ∧ k.intEnabled = true ∧
    ∃ t, k.curTcb = some t ∧ k.ts.live t = false ∧
      ∃ k', k.tickAnnounce t = some k' ∧ k'.ts.sound = false ∧
        t ∈ k'.ts.members (.ready (k'.ts.tcb t).taskPriority) := by
  obtain ⟨⟨es, k⟩, hk, hfact⟩ := Option.map_eq_some_iff.mp (show
    (replay (fun _ _ => true) .initial
      [.boot (.taskCreate 1024 3), .load, .call (.taskDelete 1)]).map
      (fun s => (s.2.intEnabled, s.2.curTcb, s.2.ts.live 1, (s.2.tickAnnounce 1).map fun k' =>
        (k'.ts.sound, decide (1 ∈ k'.ts.members (.ready (k'.ts.tcb 1).taskPriority))))) =
      some (true, some 1, false, some (false, true)) by decide)
  simp only [Prod.mk.injEq] at hfact
  obtain ⟨hi, hc, hl, htick⟩ := hfact
  obtain ⟨k', hrun, hk'⟩ := Option.map_eq_some_iff.mp htick
  obtain ⟨hsound, hmem⟩ := Prod.mk.inj hk'
  refine ⟨k, ?_, hi, 1, hc, hl, k', hrun, hsound, of_decide_eq_true hmem⟩
  exact replay_reachable (fun _ _ _ => trivial) hk

end DfewOS
