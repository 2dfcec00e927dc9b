import DfewOS.ReadyOrder
import DfewOS.SafeRuns

/-!
# Round robin

The running task is always the first of its ready list, so each tick takes the
task to the end that stands before all the others of its priority. A ready task
that keeps its priority therefore waits for at most as many full slices of its
priority as there are tasks before it.
-/

namespace DfewOS
open Tasks (Linked InOrder)
open ListHeap (ahead ahead_eq_nil ahead_rotate push drop)
open Transition (Run Reachable)

namespace Kernel

variable {k k' : Kernel} {cur t : TcbPtr} {a : Act} {c : Call} {r : Kernel × Outcome} {o : Outcome}
  {d : Option (Call × Result)} {m : ObjPtr}

theorem enter_inOrder (h : k.Inv) (hcur : k.curTcb = some cur) (hok : k.callOk c)
    (hsafe : c.Safe k) (hs : (k.ts.tcb t).status = .ready) (hlive : k'.ts.live t = true)
    (hpri : (k'.ts.tcb t).taskPriority = (k.ts.tcb t).taskPriority)
    (hne : o = .switch → cur ≠ t) (he : k.enter cur c = some (k', o)) : InOrder t k.ts k'.ts := by
  obtain ⟨hl, hready⟩ := h.running cur hcur
  obtain ⟨huse, hfresh, hargs⟩ := hok
  have hlink := h.linked
  cases c <;> simp only [enter, Option.some.injEq, Option.map_eq_some_iff, Prod.mk.injEq] at he
  case taskCreate stackSize priority =>
    rcases taskCreate_cases he with ⟨rfl, -⟩ | ⟨_, _, -, -, -, -, -, rfl⟩
    · exact .refl _
    · exact .of_dl rfl
  case taskDelete u =>
    obtain ⟨k₁, hrun, hterm⟩ := taskDelete_terminates h.toCore hargs.1 hsafe.2
    obtain ⟨rfl, -⟩ := Prod.mk.inj (Option.some.inj (hrun.symm.trans he))
    refine taskDelete_inOrder h.toCore hargs.1 ?_ hsafe.2 he
    rintro rfl
    rw [hterm.live, Function.update_self] at hlive
    exact absurd hlive (by decide)
  case delayQDelay ticks =>
    have ho : o = .switch := by
      rw [delayQDelay] at he
      split_ifs at he <;> exact (Prod.mk.inj he).2.symm
    have hmoved := delayQDelay_inOrder hlink hl hready (hne ho) ticks
    rwa [he] at hmoved
  case semBInit s =>
    obtain ⟨rfl, -⟩ := Prod.mk.inj he
    exact dlistInit_inOrder hlink hfresh.2
  case semBTake s timeout =>
    have hmoved := semBTake_inOrder (t := t) hlink hl hready huse timeout
    rw [he] at hmoved
    exact hmoved hne
  case semBGive s =>
    obtain ⟨rfl, -⟩ := Prod.mk.inj he
    exact Tasks.wakeFirst_inOrder hlink fun hr => hr
  case semBFlush s =>
    obtain ⟨_, hrun, rfl, -⟩ := he
    exact semBFlush_inOrder hlink hrun
  case semBDelete s =>
    obtain ⟨_, hrun, rfl, -⟩ := he
    exact semBFlush_inOrder hlink hrun
  case semCInit s i j =>
    have hmoved := semCInit_inOrder (t := t) hlink hfresh.2 i j
    rwa [he] at hmoved
  case semCTake s timeout =>
    have hmoved := semCTake_inOrder (t := t) hlink hl hready huse timeout
    rw [he] at hmoved
    exact hmoved hne
  case semCGive s =>
    have hmoved := semCGive_inOrder (t := t) hlink s
    rwa [he] at hmoved
  case semCFlush s =>
    obtain ⟨_, hrun, rfl, -⟩ := he
    exact semCFlush_inOrder hlink hrun
  case semCDelete s =>
    obtain ⟨_, hrun, rfl, -⟩ := he
    exact semCFlush_inOrder hlink hrun
  case semMInit m =>
    obtain ⟨rfl, -⟩ := Prod.mk.inj he
    exact dlistInit_inOrder hlink hfresh.2
  case semMTake m timeout => exact semMTake_inOrder h.toCore hl hready hs hpri hne he
  case semMGive m =>
    have hmoved := semMGive_inOrder (t := t) (m := m) hlink hl hready
    rw [he] at hmoved
    exact hmoved hne
  case msgQInit q i j =>
    have hmoved := msgQInit_inOrder (t := t) hlink hfresh.2.1 hfresh.2.2 i j
    rwa [he] at hmoved
  case msgQSend q buffer bufLen timeout =>
    have hmoved := msgQSend_inOrder (t := t) hlink hl hready huse buffer bufLen timeout
    rw [he] at hmoved
    exact hmoved hne
  case msgQReceive q buffer bufLen timeout => exact msgQReceive_inOrder hlink hl hready huse hne he
  case msgQDelete q =>
    have hmoved := msgQDelete_inOrder (t := t) hlink hsafe.1 hsafe.2
    rwa [he] at hmoved

theorem resume_inOrder (h : k.Inv) (hcur : k.curTcb = some cur)
    (huse : (k.ts.tcb cur).delayTicks ≠ 0 → k.againInUse c) (hne : r.2 = .switch → cur ≠ t)
    (he : k.resume cur c = some r) : InOrder t k.ts r.1.ts := by
  obtain ⟨hl, hready⟩ := h.running cur hcur
  have hlink := h.linked
  cases c <;> simp only [resume, Option.some.injEq, reduceCtorEq] at he
  case delayQDelay => exact he ▸ .refl _
  case semMGive => exact he ▸ .refl _
  case semBTake s _ =>
    rw [semBResume] at he
    split_ifs at he with hd
    · subst he
      exact semBTake_inOrder hlink hl hready (huse hd) _ hne
    · exact he ▸ .refl _
  case semCTake s _ =>
    rw [semCResume] at he
    split_ifs at he with hd
    · subst he
      exact semCTake_inOrder hlink hl hready (huse hd) _ hne
    · exact he ▸ .refl _
  case semMTake _ _ =>
    rw [semMResume] at he
    split_ifs at he
    · exact he ▸ .of_dl rfl
    · exact he ▸ .refl _
  case msgQSend q buffer bufLen _ =>
    rw [msgQSendResume] at he
    split_ifs at he with hd
    · subst he
      exact msgQSend_inOrder hlink hl hready (huse hd) _ _ _ hne
    · exact he ▸ .refl _
  case msgQReceive q buffer bufLen _ =>
    rw [msgQReceiveResume] at he
    split_ifs at he with hd
    · exact msgQReceive_inOrder hlink hl hready (huse hd) hne he
    · exact Option.some.inj he ▸ .refl _

theorem go_inOrder (h : k.Inv) {x : Rest} (hpc : k.pc cur = .unlocked c x) :
    InOrder t k.ts (k.go x).1.ts := by
  cases x with
  | allocStack p =>
    obtain ⟨k', o, he⟩ : ∃ k' o, k.taskCreateStack p = (k', o) := ⟨_, _, rfl⟩
    obtain ⟨-, v, -, -, hk'⟩ := taskCreateStack_cases he
    rw [show k.go (.allocStack p) = (k', o) from he, hk']
    exact .of_dl rfl
  | linkTask p =>
    have hcre : k.creating cur = some p := by rw [creating, hpc]; rfl
    exact taskCreateLink_inOrder h.toCore (h.pool.dead cur p hcre) (h.pool.unborn cur p hcre).toInRange
  | _ => exact .refl _

/-- In a section that does not give up the processor the running task keeps its place as well. -/
theorem section_inOrder (h : k.Inv) (hcur : k.curTcb = some cur) (hdef : k.defined a)
    (hsafe : a.Safe k) (hs : (k.ts.tcb t).status = .ready) (hlive : r.1.ts.live t = true)
    (hpri : (r.1.ts.tcb t).taskPriority = (k.ts.tcb t).taskPriority)
    (hne : r.2 = .switch → cur ≠ t) (hsec : Section k cur a c r) : InOrder t k.ts r.1.ts := by
  cases hsec with
  | call _ he => exact enter_inOrder h hcur hdef.2 hsafe hs hlive hpri hne he
  | resume hpc he => exact resume_inOrder h hcur (fun hd => hdef cur c hcur hpc hd) hne he
  | go hpc => exact go_inOrder h hpc

theorem lowerMyself_stays (h : (k.lowerMyself cur).2 ≠ .switch) : (k.lowerMyself cur).1 = k := by
  simp only [lowerMyself] at h ⊢
  split_ifs at h ⊢
  · exact absurd rfl h
  · rfl

theorem semMGive_priority (h : (k.semMGive cur m).2 ≠ .switch) :
    ((k.semMGive cur m).1.ts.tcb cur).taskPriority = (k.ts.tcb cur).taskPriority := by
  simp only [semMGive] at h ⊢
  split_ifs at h ⊢
  · rfl
  · generalize hget : Tasks.dlistGet _ _ = g at h ⊢
    have htcb : g.1.tcb = k.ts.tcb := by rw [← hget]; rfl
    obtain ⟨ts, x⟩ := g
    cases x with
    | none =>
      simp only at h htcb ⊢
      rw [lowerMyself_stays h, ← htcb]
      rfl
    | some x =>
      simp only at h htcb ⊢
      rw [lowerMyself_stays h, updateWaitPri]
      split <;> exact (Tasks.readyQPut_priority ts x cur).trans (by rw [htcb])

theorem section_priority (h : k.Inv) (hcur : k.curTcb = some cur) (hdef : k.defined a)
    (hsafe : a.Safe k) (ho : r.2 ≠ .switch) (hsec : Section k cur a c r) :
    (r.1.ts.tcb cur).taskPriority = (k.ts.tcb cur).taskPriority := by
  obtain ⟨-, heff, -⟩ := section_sound h hcur hdef hsafe hsec
  obtain ⟨hl, -⟩ := h.running cur hcur
  have hprep : ∀ {p : TcbPtr} {k₀ : Kernel}, Prepares p k k₀ → k₀.ts.tcb cur = k.ts.tcb cur := by
    intro p k₀ hp
    apply hp.tcb
    rintro rfl
    rw [hp.dead] at hl
    exact absurd hl (by decide)
  cases heff with
  | calm _ hcalm =>
    obtain ⟨_, -, hq⟩ := hcalm.moves
    exact hq.priority cur
  | prepare _ hp => rw [hprep hp]
  | @birth _ _ _ k₀ p _ hp _ hb =>
    rw [hb.tcb, ← hprep hp]
    by_cases hc : cur = p
    · subst hc
      rw [Function.update_self]
    · rw [Function.update_of_ne hc]
  | delete _ _ _ ht => rw [ht.tcb]
  | exit => exact absurd rfl ho
  | block => exact absurd rfl ho
  | @give _ m r n rest _ _ =>
    cases hsec with
    | call _ he =>
      obtain rfl := Option.some.inj he
      exact semMGive_priority ho
  | tick => exact absurd rfl ho
  | _ => rfl

theorem load_first {seq : QueueId → List TcbPtr} (h : Linked k.ts seq none)
    (hload : k.loadHighestTask = some k') (hcur : k'.curTcb = some t) :
    k'.ts = k.ts ∧ (k.ts.members (.ready (k.ts.tcb t).taskPriority)).head? = some t := by
  obtain ⟨u, hu, rfl⟩ := Option.map_eq_some_iff.mp hload
  obtain rfl := Option.some.inj hcur
  rw [members_of_linked h]
  rw [h.ready.highest] at hu
  rcases lowest_or_empty fun p => seq (.ready p) with hemp | ⟨p, hp, ⟨x, hx⟩, hlow⟩
  · rw [firstReady_eq_none hemp] at hu
    exact absurd hu (by simp)
  · rw [firstReady_eq_some hp hx hlow] at hu
    obtain rfl := Option.some.inj hu
    have hh := h.home_of_mem (List.mem_of_head? hx)
    rw [OsTcb.home_of_ready ((OsTcb.status_of_home hh).mpr trivial)] at hh
    rw [QueueId.ready.inj (Option.some.inj hh)]
    exact ⟨rfl, hx⟩

def RunsFirst (k : Kernel) : Prop :=
  ∀ t, k.curTcb = some t → (k.ts.members (.ready (k.ts.tcb t).taskPriority)).head? = some t

theorem load_runsFirst {seq : QueueId → List TcbPtr} (h : Linked k.ts seq none)
    (hload : k.loadHighestTask = some k') : k'.RunsFirst := by
  intro t hcur
  obtain ⟨hts, hfirst⟩ := load_first h hload hcur
  rwa [hts]

theorem boot_curTcb (he : Effect k none (.boot c) r) : r.1.curTcb = k.curTcb := by
  cases he with
  | calm _ hcalm => exact hcalm.curTcb
  | prepare _ hp => rw [hp.fields]
  | birth _ hp _ hb => rw [hb.fields, hp.fields]
  | semMInit => rfl

theorem step_runsFirst (h : k.Inv) (hdef : k.defined a) (hsafe : a.Safe k)
    (he : k.exec a = some (k', d)) (hf : k.RunsFirst) : k'.RunsFirst := by
  rcases exec_cases he with ⟨cur, c, r, hcur, hsec, hfin⟩ | ⟨cur, k₁, hcur, -, hticked, hload, -⟩ |
    ⟨cur, hcur, rfl, -, hload, -⟩ | ⟨c, x, hcur, rfl, hboot, -⟩ | ⟨-, -, hload, -⟩
  · obtain ⟨-, -, hset⟩ := section_sound h hcur hdef hsafe hsec
    rcases finish_cases hfin with ⟨ho, rfl, -⟩ | ⟨-, hload, -⟩
    · intro t ht
      obtain rfl : cur = t := Option.some.inj (hset.curTcb.symm.trans ht)
      have hpri := section_priority h hcur hdef hsafe ho hsec
      have hin : InOrder cur k.ts r.1.ts := section_inOrder h hcur hdef hsafe (h.running cur hcur).2
        (hset.running ho).1 hpri (fun hs => absurd hs ho) hsec
      have hfirst := hin.head (hf cur hcur)
      rwa [← hpri] at hfirst
    · exact load_runsFirst (k := r.1.setPc cur (r.2.pc c)) hset.core.linked hload
  · obtain ⟨hl, hs⟩ := h.running cur hcur
    obtain ⟨k₂, hrun, hticks⟩ := tickAnnounce_ticks h.toCore hl hs
    obtain rfl := Option.some.inj (hrun.symm.trans hticked)
    exact load_runsFirst hticks.linked hload
  · obtain ⟨hl, hs⟩ := h.running cur hcur
    have hterm := taskReturn_terminates h.toCore hl hs fun m => hsafe cur m hcur
    exact load_runsFirst hterm.linked hload
  · intro t ht
    have hsame := boot_curTcb (boot_sound h hcur hdef hboot).1
    rw [show k'.curTcb = none from hsame.trans hcur] at ht
    exact absurd ht (by simp)
  · exact load_runsFirst h.linked hload

/-- `t` waits in the ready list of priority `p` while another task runs. -/
def Waits (p : ℕ) (t : TcbPtr) (k : Kernel) : Prop :=
  t ∈ k.ts.members (.ready p) ∧ ∃ u, u ≠ t ∧ k.curTcb = some u

/-- The step is a tick that ends a slice of a task of priority `p`. -/
def EndsSlice (p : ℕ) (k : Kernel) (a : Act) : Prop :=
  a = .tick ∧ (k.curTcb.map fun u => (k.ts.tcb u).taskPriority) = some p

instance (p : ℕ) (k : Kernel) (a : Act) : Decidable (EndsSlice p k a) := by
  unfold EndsSlice
  infer_instance

theorem ready_of_mem {seq : QueueId → List TcbPtr} {x : Option TcbPtr} {p : ℕ}
    (h : Linked k.ts seq x) (ht : t ∈ seq (.ready p)) : k.ts.live t = true ∧
      (k.ts.tcb t).status = .ready ∧ (k.ts.tcb t).taskPriority = p := by
  have hh := h.home_of_mem ht
  have hs := (OsTcb.status_of_home hh).mpr trivial
  rw [OsTcb.home_of_ready hs] at hh
  exact ⟨h.live_of_mem ht, hs, QueueId.ready.inj (Option.some.inj hh)⟩

/-- A tick takes the running task from before the waiting one, if it is in its list. -/
theorem tick_ahead {p : ℕ} (h : k.Core) (hl : k.ts.live cur = true)
    (hs : (k.ts.tcb cur).status = .ready) (hne : cur ≠ t)
    (hf : (k.ts.members (.ready (k.ts.tcb cur).taskPriority)).head? = some cur)
    (ht : t ∈ k.ts.members (.ready p)) (he : k.tickAnnounce cur = some k') :
    (ahead t (k'.ts.members (.ready p))).length +
        (if (k.ts.tcb cur).taskPriority = p then 1 else 0) ≤
      (ahead t (k.ts.members (.ready p))).length := by
  obtain ⟨ts', hord, hlive, htcb, hts⟩ := tickAnnounce_turnsKept h hs he
  obtain ⟨seq, hlink⟩ := hord.linked
  obtain ⟨ht', hsub⟩ := hord.order t (.ready p) trivial ht
  have hl' : ts'.live cur = true := by rw [hlive, hl]
  have hs' : (ts'.tcb cur).status = .ready := by rw [htcb, hs]
  rw [hts]
  split_ifs with hp
  · have hfirst := (hord.order cur).head hf
    rw [hp] at hfirst
    have hout := hlink.readyQRemove hl' hs'
    have hput := hout.readyQPut (by rw [Tasks.readyQRemove_live, hl'])
    have hmem : ((ts'.readyQRemove cur).readyQPut cur).members (.ready p) =
        (ts'.members (.ready p)).erase cur ++ [cur] := by
      rw [members_of_linked hput, members_of_linked hlink, Tasks.readyQRemove_tcb, htcb, hp,
        ListHeap.push_self, ListHeap.drop_self]
    rw [hmem, ahead_rotate hne ht' hfirst]
    exact hsub.length_le
  · have hrot := Tasks.rotate_inOrder (t := t) hlink hl' hs' hne
    obtain ⟨-, hsub'⟩ := hrot (.ready p) trivial ht'
    exact (hsub'.trans hsub).length_le

/-- No safe step puts a task before one that waits, and the end of a slice takes one away. -/
theorem step_ahead {p : ℕ} (h : k.Inv) (hf : k.RunsFirst) (hdef : k.defined a) (hsafe : a.Safe k)
    (he : k.exec a = some (k', d)) (h' : k'.Inv) (hw : k.Waits p t)
    (hin : t ∈ k'.ts.members (.ready p)) :
    (ahead t (k'.ts.members (.ready p))).length + (if EndsSlice p k a then 1 else 0) ≤
      (ahead t (k.ts.members (.ready p))).length := by
  obtain ⟨ht, u, hut, hu⟩ := hw
  obtain ⟨-, hready, hpri⟩ := ready_of_mem h.linked ht
  obtain ⟨hlive', -, hpri'⟩ := ready_of_mem h'.linked hin
  have hle : InOrder t k.ts k'.ts → ¬ EndsSlice p k a →
      (ahead t (k'.ts.members (.ready p))).length + (if EndsSlice p k a then 1 else 0) ≤
        (ahead t (k.ts.members (.ready p))).length := by
    intro hord hno
    rw [if_neg hno]
    exact (hord (.ready p) trivial ht).2.length_le
  rcases exec_cases he with ⟨cur, c, r, hcur, hsec, hfin⟩ | ⟨cur, k₁, hcur, rfl, hticked, hload, -⟩ |
    ⟨cur, hcur, rfl, -, hload, -⟩ | ⟨_, _, hcur, -⟩ | ⟨hcur, -⟩
  · have hts : k'.ts = r.1.ts := by
      rcases finish_cases hfin with ⟨-, rfl, -⟩ | ⟨-, hload, -⟩
      · rfl
      · rw [loadHighestTask_same hload]
        rfl
    obtain rfl := Option.some.inj (hcur.symm.trans hu)
    apply hle
    · rw [hts] at hlive' hpri' ⊢
      exact section_inOrder h hcur hdef hsafe hready hlive' (hpri'.trans hpri.symm)
        (fun _ => hut) hsec
    · rintro ⟨rfl, -⟩
      cases hsec
  · obtain rfl := Option.some.inj (hcur.symm.trans hu)
    obtain ⟨hl, hs⟩ := h.running cur hcur
    have hts : k'.ts = k₁.ts := by rw [loadHighestTask_same hload]
    have htick := tick_ahead h.toCore hl hs hut (hf cur hcur) ht hticked
    rw [hts]
    simpa [EndsSlice, hcur] using htick
  · obtain rfl := Option.some.inj (hcur.symm.trans hu)
    obtain ⟨hl, hs⟩ := h.running cur hcur
    apply hle
    · rw [loadHighestTask_same hload]
      exact taskReturn_inOrder h.toCore hl hs hut
    · exact fun hend => absurd hend.1 (by simp)
  · rw [hcur] at hu
    exact absurd hu (by simp)
  · rw [hcur] at hu
    exact absurd hu (by simp)

end Kernel

/-- In every state that safe steps reach, the running task is the first of its ready list. -/
theorem running_first {k : Kernel} (h : Reachable system Safe k) {t : TcbPtr}
    (ht : k.curTcb = some t) :
    (k.ts.members (.ready (k.ts.tcb t).taskPriority)).head? = some t := by
  have hfirst : k.RunsFirst := by
    refine h.invariant_rel (fun k hk => reachable_inv hk) (fun k hk => ?_) ?_
    · intro t ht
      rw [Kernel.init_eq hk, show Kernel.initial.curTcb = none from rfl] at ht
      exact absurd ht (by simp)
    · exact fun k e k' hinv _ hf hsafe hs => Kernel.step_runsFirst hinv hs.1 hsafe hs.2 hf
  exact hfirst t ht

theorem running_first_loaded : ∃ k, Reachable system Safe k ∧ k.curTcb = some 2 ∧
    (k.ts.members (.ready (k.ts.tcb 2).taskPriority)).head? = some 2 := by
  obtain ⟨⟨es, k⟩, hk, hcur⟩ := Option.map_eq_some_iff.mp (show
    (replay (fun _ e => e.act.isPlain) .initial
      [.boot (.taskCreate 1024 3), .boot (.taskCreate 1024 3), .load, .tick]).map
      (fun s => s.2.curTcb) = some (some 2) by decide)
  have hreach : Reachable system Safe k :=
    replay_reachable (fun k e he => Act.safe_of_isPlain he) hk
  exact ⟨k, hreach, hcur, running_first hreach hcur⟩

/-- The system with a count of the slices that tasks of priority `p` have used up. -/
def sliceSystem (p : ℕ) : Transition.System (Kernel × ℕ) Event :=
  system.withGhost 0 fun k e _ n => n + if Kernel.EndsSlice p k e.act then 1 else 0

/-- While `t` waits in the ready list of priority `p`, the slices that tasks of this priority use up
and the tasks still before `t` are together at most the tasks that were before it. -/
theorem round_robin {k₀ k : Kernel} {p n : ℕ} {t : TcbPtr} {es : List Event}
    (h : Reachable system Safe k₀)
    (hrun : Run (sliceSystem p) (fun x e => Safe x.1 e ∧ x.1.Waits p t) (k₀, 0) es (k, n))
    (ht : t ∈ k.ts.members (.ready p)) :
    n + (ahead t (k.ts.members (.ready p))).length ≤
      (ahead t (k₀.ts.members (.ready p))).length := by
  -- the bound is an invariant of the run, together with the reachability of its states
  have hbound : Reachable system Safe k ∧ (t ∈ k.ts.members (.ready p) →
      n + (ahead t (k.ts.members (.ready p))).length ≤
        (ahead t (k₀.ts.members (.ready p))).length) := by
    refine hrun.invariant (I := fun x => Reachable system Safe x.1 ∧
      (t ∈ x.1.ts.members (.ready p) → x.2 + (ahead t (x.1.ts.members (.ready p))).length ≤
        (ahead t (k₀.ts.members (.ready p))).length)) ?_ ⟨h, fun _ => by rw [Nat.zero_add]⟩
    rintro ⟨k, n⟩ e ⟨k', n'⟩ ⟨hreach, hold⟩ ⟨hs, hw⟩ ⟨hstep, hn⟩
    have hreach' : Reachable system Safe k' := hreach.step hs hstep
    refine ⟨hreach', fun hin => ?_⟩
    have hstepped : (ahead t (k'.ts.members (.ready p))).length +
        (if Kernel.EndsSlice p k e.act then 1 else 0) ≤
          (ahead t (k.ts.members (.ready p))).length := Kernel.step_ahead (reachable_inv hreach)
      (fun u hu => running_first hreach hu) hstep.1 hs hstep.2 (reachable_inv hreach') hw hin
    have hbefore : n + (ahead t (k.ts.members (.ready p))).length ≤ _ := hold hw.1
    have hcount : n' = n + if Kernel.EndsSlice p k e.act then 1 else 0 := hn
    change n' + (ahead t (k'.ts.members (.ready p))).length ≤ _
    omega
  exact hbound.2 ht

/-- Three tasks of one priority: a tick later the third one has one task less before it. -/
theorem round_robin_third : ∃ k₀ k : Kernel, Reachable system Safe k₀ ∧
    Run (sliceSystem 3) (fun x e => Safe x.1 e ∧ x.1.Waits 3 3) (k₀, 0) [⟨.tick, none⟩] (k, 1) ∧
    (ahead 3 (k₀.ts.members (.ready 3))).length = 2 ∧
    1 + (ahead 3 (k.ts.members (.ready 3))).length ≤ 2 := by
  obtain ⟨⟨es, k₀⟩, hk, hfact⟩ := Option.bind_eq_some_iff.mp (show
    (replay (fun _ e => e.act.isPlain) .initial
      [.boot (.taskCreate 1024 3), .boot (.taskCreate 1024 3), .boot (.taskCreate 1024 3), .load]).bind
      (fun s => (s.2.exec .tick).map fun r => (r.2, s.2.curTcb, (s.2.ts.tcb 1).taskPriority,
        s.2.ts.members (.ready 3), decide (3 ∈ r.1.ts.members (.ready 3)))) =
      some (none, some 1, 3, [1, 2, 3], true) by decide)
  obtain ⟨⟨k, d⟩, hexec, hfact⟩ := Option.map_eq_some_iff.mp hfact
  simp only [Prod.mk.injEq] at hfact
  obtain ⟨rfl, hcur, hpri, hmem, hin⟩ := hfact
  have hreach : Reachable system Safe k₀ :=
    replay_reachable (fun k e he => Act.safe_of_isPlain he) hk
  have hends : Kernel.EndsSlice 3 k₀ .tick := ⟨rfl, by rw [hcur]; exact congrArg some hpri⟩
  have hwaits : k₀.Waits 3 3 := ⟨by rw [hmem]; decide, 1, by decide, hcur⟩
  have hcount : 1 = 0 + if Kernel.EndsSlice 3 k₀ .tick then 1 else 0 := by rw [if_pos hends]
  have hrun : Run (sliceSystem 3) (fun x e => Safe x.1 e ∧ x.1.Waits 3 3) (k₀, 0)
      [⟨.tick, none⟩] (k, 1) := .single ⟨trivial, hwaits⟩ ⟨⟨trivial, hexec⟩, hcount⟩
  have hlen : (ahead 3 (k₀.ts.members (.ready 3))).length = 2 := by rw [hmem]; rfl
  refine ⟨k₀, k, hreach, hrun, hlen, ?_⟩
  rw [← hlen]
  exact round_robin hreach hrun (of_decide_eq_true hin)

end DfewOS
