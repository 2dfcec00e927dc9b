import DfewOS.Objects
import Mathlib.Data.Finset.Option

/-!
# Which task waits where

A task that is not ready is saved inside a call, in the list this call waits in
(`Parked`), and got there by running. A ready task that is saved inside a call
keeps its ticks until it runs again.
-/

namespace DfewOS
open Transition (Reachable)

def Call.waitList : Call → Option QueueId
  | .delayQDelay _ => some .delayQ
  | .semBTake s _ => some (.semB s)
  | .semCTake s _ => some (.semC s)
  | .semMTake m _ => some (.semM m)
  | .msgQSend q _ _ _ => some (.msgSend q)
  | .msgQReceive q _ _ _ => some (.msgRecv q)
  | _ => none

theorem OsTcb.home_of_not_ready {v w : OsTcb} (hs : v.status = w.status)
    (ho : v.pendObj = w.pendObj) (hr : w.status ≠ .ready) : v.home = w.home := by
  rw [OsTcb.home, OsTcb.home, hs, ho]
  cases h : w.status <;> first | exact absurd h hr | rfl

namespace Kernel

variable {k k' : Kernel} {cur t : TcbPtr} {a : Act} {c : Call} {r : Kernel × Outcome} {l : QueueId}

theorem pendOn_home {ts : Tasks} {timeout : ℕ} {status : TaskStatus} {obj : Option ObjPtr}
    (h : ∀ v : OsTcb, v.status = status → v.pendObj = obj → v.home = some l) :
    ((ts.pendOn l t timeout status obj).tcb t).home = some l := by
  have heq : (ts.pendOn l t timeout status obj).tcb t = { (ts.readyQRemove t).tcb t with
      delayTicks := timeout, status := status, pendObj := obj } :=
    Tasks.setPend_tcb (ts.readyQRemove t) t timeout status obj
  rw [heq]
  exact h _ rfl rfl

theorem semBTake_home {s : ObjPtr} {timeout : ℕ} (h : k.semBTake t s timeout = r)
    (ho : r.2 = .switch) : (r.1.ts.tcb t).home = some (.semB s) := by
  rw [semBTake] at h
  split_ifs at h <;> rw [← h] at ho ⊢
  · exact absurd ho (by simp)
  · exact pendOn_home fun v hs hp => by rw [OsTcb.home, hs, hp]; rfl
  · exact absurd ho (by simp)

theorem semCTake_home {s : ObjPtr} {timeout : ℕ} (h : k.semCTake t s timeout = r)
    (ho : r.2 = .switch) : (r.1.ts.tcb t).home = some (.semC s) := by
  simp only [semCTake] at h
  split_ifs at h <;> rw [← h] at ho ⊢
  · exact absurd ho (by simp)
  · exact pendOn_home fun v hs hp => by rw [OsTcb.home, hs, hp]; rfl
  · exact absurd ho (by simp)

theorem msgQSend_home {q bufLen timeout : ℕ} {buffer : List UInt8}
    (h : k.msgQSend t q buffer bufLen timeout = r) (ho : r.2 = .switch) :
    (r.1.ts.tcb t).home = some (.msgSend q) := by
  simp only [msgQSend] at h
  split_ifs at h <;> rw [← h] at ho ⊢
  · exact absurd ho (by simp)
  · exact pendOn_home fun v hs hp => by rw [OsTcb.home, hs, hp]; rfl
  · exact absurd ho (by simp)

theorem msgQReceive_home {q bufLen timeout : ℕ} {buffer : List UInt8}
    (h : k.msgQReceive t q buffer bufLen timeout = some r) (ho : r.2 = .switch) :
    (r.1.ts.tcb t).home = some (.msgRecv q) := by
  simp only [msgQReceive] at h
  split_ifs at h
  · cases hm : (k.msgQ q).msgList with
    | nil =>
      rw [hm] at h
      exact absurd h (by simp)
    | cons message rest =>
      rw [hm] at h
      obtain rfl := Option.some.inj h
      exact absurd ho (by simp)
  · obtain rfl := Option.some.inj h
    exact pendOn_home fun v hs hp => by rw [OsTcb.home, hs, hp]; rfl
  · obtain rfl := Option.some.inj h
    exact absurd ho (by simp)

theorem enter_home (h : k.Inv) (hcur : k.curTcb = some t) (he : k.enter t c = some r)
    (ho : r.2 = .switch) :
    (r.1.ts.tcb t).status = .ready ∨ (r.1.ts.tcb t).home = c.waitList := by
  obtain ⟨hl, hs⟩ := h.running t hcur
  obtain ⟨k', o⟩ := r
  obtain rfl : o = .switch := ho
  cases c <;> simp only [enter, Option.some.injEq, Option.map_eq_some_iff] at he
  case taskCreate stackSize priority =>
    rcases taskCreate_cases he with ⟨-, ho⟩ | ⟨p, v, -, ho, -⟩
    · exact absurd ho (by simp)
    · exact absurd ho (by simp)
  case taskDelete u =>
    obtain ⟨_, -, hk⟩ := Option.map_eq_some_iff.mp he
    exact absurd (Prod.mk.inj hk).2 (by simp)
  case delayQDelay ticks =>
    rw [delayQDelay] at he
    split_ifs at he <;> obtain ⟨rfl, -⟩ := Prod.mk.inj he
    · left
      exact congrArg OsTcb.status (Tasks.setPend_tcb (k.ts.readyQRemove t) t _ .ready none)
    · right
      exact pendOn_home fun v hs hp => by rw [OsTcb.home, hs]
  case semBTake s timeout => exact Or.inr (semBTake_home he rfl)
  case semCTake s timeout => exact Or.inr (semCTake_home he rfl)
  case semMTake m timeout =>
    rcases semMTake_cases h.toCore hl hs he with ⟨-, ho, -⟩ | ⟨-, ho, -⟩ | ⟨-, -, -, ho, -⟩ |
      ⟨-, -, -, -, k₁, xs, ys, hb⟩
    · exact absurd ho (by simp)
    · exact absurd ho (by simp)
    · exact absurd ho (by simp)
    · right
      rw [hb.self]
      rfl
  case semMGive m =>
    left
    rcases semMGive_cases h.linked hl hs he with ⟨-, ho, -⟩ | ⟨-, -, n, rest, hg⟩
    · exact absurd ho (by simp)
    · rw [hg.self]
      exact hs
  case msgQSend q buffer bufLen timeout => exact Or.inr (msgQSend_home he rfl)
  case msgQReceive q buffer bufLen timeout => exact Or.inr (msgQReceive_home he rfl)
  case semBFlush => obtain ⟨_, -, hk⟩ := he; exact absurd (Prod.mk.inj hk).2 (by simp)
  case semCFlush => obtain ⟨_, -, hk⟩ := he; exact absurd (Prod.mk.inj hk).2 (by simp)
  case semBDelete => obtain ⟨_, -, hk⟩ := he; exact absurd (Prod.mk.inj hk).2 (by simp)
  case semCDelete => obtain ⟨_, -, hk⟩ := he; exact absurd (Prod.mk.inj hk).2 (by simp)
  all_goals
    simp only [semBInit, semBGive, semCInit, semCGive, semMInit, msgQInit, msgQDelete] at he
    first | (split_ifs at he <;> exact absurd (Prod.mk.inj he).2 (by simp)) |
      exact absurd (Prod.mk.inj he).2 (by simp)

theorem resume_home (he : k.resume t c = some r) (ho : r.2 = .switch) :
    (r.1.ts.tcb t).home = c.waitList := by
  cases c <;> simp only [resume, Option.some.injEq, reduceCtorEq] at he
  case delayQDelay => rw [← he] at ho; exact absurd ho (by simp)
  case semMGive => rw [← he] at ho; exact absurd ho (by simp)
  case semMTake =>
    rw [semMResume] at he
    split_ifs at he <;> rw [← he] at ho <;> exact absurd ho (by simp)
  case semBTake s _ =>
    rw [semBResume] at he
    split_ifs at he
    · exact semBTake_home he ho
    · rw [← he] at ho; exact absurd ho (by simp)
  case semCTake s _ =>
    rw [semCResume] at he
    split_ifs at he
    · exact semCTake_home he ho
    · rw [← he] at ho; exact absurd ho (by simp)
  case msgQSend q buffer bufLen _ =>
    rw [msgQSendResume] at he
    split_ifs at he
    · exact msgQSend_home he ho
    · rw [← he] at ho; exact absurd ho (by simp)
  case msgQReceive q buffer bufLen _ =>
    rw [msgQReceiveResume] at he
    split_ifs at he
    · exact msgQReceive_home he ho
    · obtain rfl := Option.some.inj he; exact absurd ho (by simp)

theorem Untouched.home (hu : Untouched k t k') (hne : (k'.ts.tcb t).status ≠ .ready) :
    (k'.ts.tcb t).home = (k.ts.tcb t).home := by
  rw [hu.tcb] at hne ⊢
  exact OsTcb.home_of_not_ready rfl rfl hne

theorem Effect.home (he : Effect k k.curTcb a r) (hcur : k.curTcb ≠ some t)
    (hl : r.1.ts.live t = true) (hne : (r.1.ts.tcb t).status ≠ .ready) :
    k.ts.live t = true ∧ (r.1.ts.tcb t).home = (k.ts.tcb t).home := by
  generalize hc : k.curTcb = cur at he hcur
  cases he with
  | calm _ hcalm =>
    obtain ⟨seq', -, hq⟩ := hcalm.moves
    rw [hq.live] at hl
    rcases hq.wait t with hh | hr | ⟨ht, -⟩
    · exact ⟨hl, hh⟩
    · exact absurd hr hne
    · exact absurd ht.symm hcur
  | @prepare _ _ _ p _ hp =>
    rw [hp.ts] at hl
    exact ⟨hl, (hp.untouched hl).home hne⟩
  | @birth _ _ r k₀ p _ hp _ hb =>
    by_cases htp : t = p
    · refine absurd ?_ hne
      rw [htp, hb.tcb, Function.update_self]
    · rw [hb.live, Function.update_of_ne htp, hp.ts] at hl
      rw [hb.tcb, Function.update_of_ne htp] at hne ⊢
      exact ⟨hl, (hp.untouched hl).home hne⟩
  | delete _ _ _ ht =>
    rw [ht.live, Function.update_apply] at hl
    split_ifs at hl
    exact ⟨hl, by rw [ht.tcb]⟩
  | exit _ ht =>
    rw [ht.live, Function.update_apply] at hl
    split_ifs at hl
    exact ⟨hl, by rw [ht.tcb]⟩
  | block _ _ _ hb =>
    rw [hb.live] at hl
    have hne' : t ≠ _ := fun heq => hcur (congrArg some heq.symm)
    rw [hb.tcb t hne'] at hne ⊢
    exact ⟨hl, OsTcb.home_of_not_ready rfl rfl hne⟩
  | @give cur m r n rest _ hg =>
    rw [hg.live] at hl
    have hne' : t ≠ cur := fun heq => hcur (congrArg some heq.symm)
    by_cases hn : n = some t
    · rw [(hg.next t hn).2] at hne
      exact absurd rfl hne
    · exact ⟨hl, by rw [hg.tcb t hne' fun hc => hn hc.symm]⟩
  | tick ht =>
    rw [ht.live] at hl
    refine ⟨hl, ?_⟩
    by_cases hout : ∀ l, ¬ l.IsReady → t ∉ k.ts.members l
    · rw [ht.kept t hout]
    · push Not at hout
      obtain ⟨l, hnr, hm⟩ := hout
      obtain ⟨pre, x, post, hsplit, -, hw⟩ := ht.walked l hnr
      rw [hsplit] at hm
      rcases List.mem_append.mp hm with hp | hm
      · rw [(hw.counted t hp).2] at hne ⊢
        exact OsTcb.home_of_not_ready rfl rfl hne
      · rcases List.mem_append.mp hm with hx | hp
        · rw [(hw.expired t (by simpa using hx)).2] at hne
          exact absurd rfl hne
        · rw [hw.skipped t hp]
  | _ => exact ⟨hl, rfl⟩

theorem Effect.pc_live (he : Effect k k.curTcb a r) (hl : k.ts.live t = true) :
    r.1.pc t = k.pc t := by
  generalize k.curTcb = cur at he
  cases he with
  | calm _ hcalm => rw [hcalm.pc]
  | prepare _ hp => rw [hp.fields]
  | @birth _ _ _ k₀ p _ hp _ hb =>
    have hne : t ≠ p := by
      rintro rfl
      rw [hp.dead] at hl
      exact absurd hl (by decide)
    rw [hb.fields, show k₀.pc = k.pc by rw [hp.fields]]
    exact Function.update_of_ne hne ..
  | delete _ _ _ ht => rw [ht.fields]
  | exit _ ht => rw [ht.fields]
  | block _ _ _ hb => rw [hb.rest]
  | give _ hg => rw [hg.fields]
  | tick ht => rw [ht.fields]
  | _ => rfl

end Kernel

variable {k k' : Kernel} {t u : TcbPtr} {e : Event} {c : Call} {l : QueueId}

/-- Where a task that is not ready after a step was before: it waited already, or it ran. -/
theorem exec_waits (hinv : k.Inv) (hsafe : Safe k e) (hs : system.step k e k')
    (hl : k'.ts.live t = true) (hne : (k'.ts.tcb t).status ≠ .ready) :
    (k.curTcb = some t ∧ ∃ c r, Kernel.Runs k t c r e.act ∧ r.2 = .switch ∧
      k'.pc t = .switched c ∧ (k'.ts.tcb t).home = c.waitList) ∨
    (k.curTcb ≠ some t ∧ k.ts.live t = true ∧ k'.pc t = k.pc t ∧
      (k'.ts.tcb t).home = (k.ts.tcb t).home) := by
  obtain ⟨r, hdoes⟩ := (Kernel.exec_sound hinv hs.1 hsafe hs.2).1
  have hlr : r.1.ts.live t = true := by
    rw [hdoes.state] at hl
    exact hl
  have hner : (r.1.ts.tcb t).status ≠ .ready := by
    rw [hdoes.state] at hne
    exact hne
  by_cases hcur : k.curTcb = some t
  · left
    obtain ⟨hlk, hready⟩ := hinv.running t hcur
    rcases Kernel.exec_cases hs.2 with ⟨cur, c, r, hc, hsec, hf⟩ | ⟨cur, k₁, hc, ha, -, hload, -⟩ |
      ⟨cur, hc, ha, -, hload, -⟩ | ⟨_, _, hc, -, -⟩ | ⟨hc, -⟩
    · obtain rfl := Option.some.inj (hc.symm.trans hcur)
      obtain ⟨-, -, hset⟩ := Kernel.section_sound hinv hcur hs.1 hsafe hsec
      rcases Kernel.finish_cases hf with ⟨ho, hk', -⟩ | ⟨ho, hload, -⟩
      · have hr := (hset.running ho).2
        rw [hk'] at hne
        exact absurd hr hne
      · have hk' := Kernel.loadHighestTask_same hload
        have hself : (r.1.setPc cur (r.2.pc c)).pc cur = r.2.pc c := Function.update_self ..
        have hpc : k'.pc cur = .switched c := by
          rw [hk', show Pc.switched c = r.2.pc c by rw [ho]; rfl]
          exact hself
        have hts : k'.ts = r.1.ts := by rw [hk']; rfl
        rw [hts] at hne ⊢
        refine ⟨hcur, c, r, ?_⟩
        generalize e.act = a at hsec
        cases hsec with
        | call hu he =>
          have hhome := (Kernel.enter_home hinv hcur he ho).resolve_left hne
          exact ⟨.enter hu he, ho, hpc, hhome⟩
        | resume hu he => exact ⟨.resume hu he, ho, hpc, Kernel.resume_home he ho⟩
        | go hu => exact absurd ho (k.go_outcome _)
    · obtain ⟨k₂, hticks, hk'⟩ := Kernel.exec_ticks hinv (by rw [← ha]; exact hs.2)
      have hkept : k₂.ts.tcb t = k.ts.tcb t := by
        apply hticks.kept
        intro l hl hm
        exact hl ((OsTcb.status_of_home (hinv.linked.home_of_mem hm)).mp hready)
      rw [hk'] at hne
      rw [hkept] at hne
      exact absurd hready hne
    · obtain rfl := Option.some.inj (hc.symm.trans hcur)
      have hfree : ∀ m, (k.semM m).ownerTcb ≠ some cur := fun m => by
        rw [Safe, ha] at hsafe
        exact hsafe cur m hcur
      have hdead := (Kernel.taskReturn_terminates hinv.toCore hlk hready hfree).live
      rw [Kernel.loadHighestTask_same hload] at hl
      rw [hdead, Function.update_self] at hl
      exact absurd hl (by decide)
    · rw [hcur] at hc
      exact absurd hc (by simp)
    · rw [hcur] at hc
      exact absurd hc (by simp)
  · right
    obtain ⟨hlk, hhome⟩ := hdoes.effect.home hcur hlr hner
    refine ⟨hcur, hlk, ?_, ?_⟩
    · rw [hdoes.pc t hcur, hdoes.effect.pc_live hlk]
    · rw [hdoes.state]
      exact hhome

theorem exec_joins (hinv : k.Inv) (hinv' : k'.Inv) (hsafe : Safe k e) (hs : system.step k e k')
    (hl : ¬ l.IsReady) (ht : t ∈ k'.ts.members l) :
    t ∈ k.ts.members l ∨ (k.curTcb = some t ∧ ∃ c r, Kernel.Runs k t c r e.act ∧ r.2 = .switch ∧
      c.waitList = some l) := by
  have hhome := hinv'.linked.home_of_mem ht
  have hne : (k'.ts.tcb t).status ≠ .ready := fun hr =>
    hl ((OsTcb.status_of_home hhome).mp hr)
  rcases exec_waits hinv hsafe hs (hinv'.linked.live_of_mem ht) hne with
    ⟨hcur, c, r, hruns, ho, -, hh⟩ | ⟨-, hlk, -, hh⟩
  · exact Or.inr ⟨hcur, c, r, hruns, ho, by rw [← hh, hhome]⟩
  · exact Or.inl ((hinv.linked.home t l).mpr ⟨hlk, by simp, by rw [← hh, hhome]⟩)

/-- A task that is not ready is saved inside the call that waits where the task is. -/
def Parked (k : Kernel) : Prop :=
  ∀ t, k.ts.live t = true → (k.ts.tcb t).status ≠ .ready →
    ∃ c, k.pc t = .switched c ∧ (k.ts.tcb t).home = c.waitList

theorem reachable_parked (h : Reachable system Safe k) : Parked k := by
  have hinit : ∀ k, system.init k → Parked k := by
    intro k hk t hl hne
    rw [Kernel.init_eq hk] at hl hne
    by_cases ht : t = idle
    · refine absurd ?_ hne
      rw [ht, Kernel.init_births.tcb, Function.update_self]
    · rw [Kernel.init_births.live, Function.update_of_ne ht] at hl
      exact absurd hl (by simp [Kernel.beforeIdle, Tasks.zeroed, Tasks.setTcb])
  refine h.invariant_rel (fun k hk => reachable_inv hk) hinit ?_
  intro k e k' hinv hinv' hpark hsafe hs t hl hne
  rcases exec_waits hinv hsafe hs hl hne with ⟨-, c, r, -, -, hpc, hh⟩ | ⟨-, hlk, hpc, hh⟩
  · exact ⟨c, hpc, hh⟩
  · have hne' : (k.ts.tcb t).status ≠ .ready := by
      intro hr
      rw [OsTcb.home_of_ready hr] at hh
      exact hne ((OsTcb.status_of_home hh).mpr trivial)
    obtain ⟨c, hc, hhc⟩ := hpark t hlk hne'
    exact ⟨c, by rw [hpc, hc], by rw [hh, hhc]⟩

/-- `t` was made ready inside the call `c` with ticks left: it goes on with `c` when it runs. -/
structure Woken (k : Kernel) (c : Call) (t : TcbPtr) : Prop where
  live : k.ts.live t = true
  ready : (k.ts.tcb t).status = .ready
  pc : k.pc t = .switched c
  delay : (k.ts.tcb t).delayTicks ≠ 0

theorem Kernel.exec_switched_resumes {a : Act} {d : Option (Call × Result)}
    (he : k.exec a = some (k', d)) (hcur : k.curTcb = some t) (hpc : k.pc t = .switched c) :
    a = .resume := by
  rcases Kernel.exec_cases he with ⟨cur, c', r, hc, hsec, -⟩ | ⟨cur, k₁, hc, ha, -, -, -⟩ |
    ⟨cur, hc, -, hu, -, -⟩ | ⟨_, _, hc, -, -⟩ | ⟨hc, -⟩
  · obtain rfl := Option.some.inj (hc.symm.trans hcur)
    cases hsec with
    | call hu _ => rw [hpc] at hu; exact absurd hu (by simp)
    | resume _ _ => rfl
    | go hu => rw [hpc] at hu; exact absurd hu (by simp)
  · rw [ha] at he
    have hi := Kernel.exec_tick_enabled he
    rw [Kernel.intEnabled, hcur] at hi
    simp [hpc] at hi
  · obtain rfl := Option.some.inj (hc.symm.trans hcur)
    rw [hpc] at hu
    exact absurd hu (by simp)
  · rw [hcur] at hc
    exact absurd hc (by simp)
  · rw [hcur] at hc
    exact absurd hc (by simp)

theorem ready_stays (hl : k.ts.live t = true) (hr : (k.ts.tcb t).status = .ready) (hinv : k.Inv)
    (hsafe : Safe k e) (hs : system.step k e k') (hcur : k.curTcb ≠ some t)
    (hdel : e.act ≠ .call (.taskDelete t)) :
    k'.ts.live t = true ∧ (k'.ts.tcb t).status = .ready ∧ k'.pc t = k.pc t ∧
      (k'.ts.tcb t).delayTicks = (k.ts.tcb t).delayTicks := by
  obtain ⟨r, hdoes⟩ := (Kernel.exec_sound hinv hs.1 hsafe hs.2).1
  have hpc : k'.pc t = k.pc t := by rw [hdoes.pc t hcur, hdoes.effect.pc_live hl]
  have hkeep : Kernel.Untouched k t r.1 := by
    by_cases htick : e.act = .tick
    · have heff := hdoes.effect
      rw [htick] at heff
      have hkept : r.1.ts.tcb t = k.ts.tcb t := by
        apply heff.ticks.kept
        intro l hnot hm
        exact hnot ((OsTcb.status_of_home (hinv.linked.home_of_mem hm)).mp hr)
      exact .of_eq (by rw [heff.ticks.live]) hkept
    · have hother : ¬ (k.ts.tcb t).status.IsOther := by
        rw [hr]
        exact fun ho => ho
      refine (hdoes.effect.bystander htick hdel hcur hl hother).resolve_right ?_
      rintro ⟨m, -, -, hh⟩
      exact Kernel.not_waiting hinv.linked (by rw [hr]; simp) m (List.mem_of_head? hh.first)
  have hts : k'.ts = r.1.ts := by rw [hdoes.state]
  refine ⟨?_, ?_, hpc, ?_⟩
  · rw [hts, hkeep.live, hl]
  · rw [hts, hkeep.tcb]
    exact hr
  · rw [hts, hkeep.tcb]

theorem Woken.step (h : Woken k c t) (hinv : k.Inv) (hsafe : Safe k e) (hs : system.step k e k')
    (hcur : k.curTcb ≠ some t) (hdel : e.act ≠ .call (.taskDelete t)) : Woken k' c t := by
  obtain ⟨hl, hr, hpc, hd⟩ := ready_stays h.live h.ready hinv hsafe hs hcur hdel
  exact ⟨hl, hr, hpc.trans h.pc, by rw [hd]; exact h.delay⟩

theorem waiters_before (hinv : k.Inv) (hinv' : k'.Inv) (hsafe : Safe k e) (hs : system.step k e k')
    (hl : ¬ l.IsReady) (hne : k'.ts.members l ≠ []) :
    k.ts.members l ≠ [] ∨ ∃ t c r, Kernel.Runs k t c r e.act ∧ r.2 = .switch ∧
      c.waitList = some l := by
  obtain ⟨t, ht⟩ := List.exists_mem_of_ne_nil _ hne
  rcases exec_joins hinv hinv' hsafe hs hl ht with hm | ⟨-, c, r, hruns, ho, hc⟩
  · exact Or.inl (List.ne_nil_of_mem hm)
  · exact Or.inr ⟨t, c, r, hruns, ho, hc⟩

theorem Kernel.Runs.act_ne {c' : Call} {r : Kernel × Outcome} {a : Act} (h : Kernel.Runs k t c r a)
    (hc : c.waitList = some l) (hc' : c'.waitList = none) : a ≠ .call c' := by
  intro ha
  cases h with
  | enter =>
    obtain rfl := Act.call.inj ha
    rw [hc] at hc'
    exact absurd hc' (by simp)
  | resume => exact absurd ha (by simp)

theorem Woken.retries (h : Woken k c t) (hc : c.Retries) (hs : system.step k e k')
    (hcur : k.curTcb = some t) :
    ∃ r, k.enter t (c.retry (k.ts.tcb t).delayTicks) = some r ∧
      ∀ x, r.2 = .ret x → e.done = some (c, x) := by
  have hact := Kernel.exec_switched_resumes hs.2 hcur h.pc
  have hexec := hs.2
  rw [hact] at hexec
  rcases Kernel.exec_cases hexec with ⟨cur, c', r, hcu, hsec, hf⟩ | ⟨_, _, -, ha, -⟩ |
    ⟨_, -, ha, -⟩ | ⟨_, _, -, ha, -⟩ | ⟨-, ha, -⟩
  · obtain rfl := Option.some.inj (hcu.symm.trans hcur)
    cases hsec with
    | resume hpc hres =>
      obtain rfl := Pc.switched.inj (hpc.symm.trans h.pc)
      rcases Kernel.resume_cases hres with ⟨-, -, hent⟩ | ⟨-, hz, -⟩ | ⟨hno, -⟩
      · refine ⟨r, hent, fun x hx => ?_⟩
        rcases Kernel.finish_cases hf with ⟨-, -, hd⟩ | ⟨ho, -, -⟩
        · rw [hd, hx]
          rfl
        · rw [hx] at ho
          exact absurd ho (by simp)
      · exact absurd hz h.delay
      · exact absurd hc hno
  all_goals exact absurd ha (by simp)

section Wakeups

def leaving (k : Kernel) (e : Event) : Finset TcbPtr :=
  match e.act with
  | .resume => k.curTcb.toFinset
  | .call (.taskDelete t) => {t}
  | _ => ∅

theorem leaving_runs (h : leaving k e = {t}) (hdel : e.act ≠ .call (.taskDelete t)) :
    k.curTcb = some t := by
  have ht : t ∈ leaving k e := by rw [h]; exact Finset.mem_singleton_self t
  rw [leaving] at ht
  split at ht
  · exact Option.mem_toFinset.mp ht
  · rename_i u hact
    rw [Finset.mem_singleton.mp ht] at hdel
    exact absurd hact hdel
  · exact absurd ht (Finset.notMem_empty t)

/-- The tasks that were popped from `l` by a give and have not run since, after a step; `gave`
says whether the step was such a give. -/
def wokenAfter (l : QueueId) (gave : Bool) (k : Kernel) (e : Event) (woken : Finset TcbPtr) :
    Finset TcbPtr :=
  woken \ leaving k e ∪ if gave then (k.ts.members l).head?.toFinset else ∅

variable {woken : Finset TcbPtr} {gave : Bool}

def AllWoken (k : Kernel) (l : QueueId) (woken : Finset TcbPtr) : Prop :=
  ∀ t ∈ woken, ∃ c, Woken k c t ∧ c.waitList = some l

theorem wakeFirst_head {ts : Tasks} {seq : QueueId → List TcbPtr} (h : Tasks.Linked ts seq none)
    (ht : (seq l).head? = some t) :
    (ts.wakeFirst l).live = ts.live ∧
      (ts.wakeFirst l).tcb t = { ts.tcb t with status := .ready, pendObj := none } := by
  obtain ⟨rest, hc⟩ : ∃ rest, seq l = t :: rest := List.head?_eq_some_iff.mp ht
  have hdef : ts.wakeFirst l = (ts.dlistGet l).1.readyQPut t := by
    rw [Tasks.wakeFirst, h.dlistGet_cons hc]
  rw [hdef]
  refine ⟨rfl, ?_⟩
  rw [Tasks.readyQPut_tcb, Function.update_self]
  rfl

theorem woken_head (hinv : k.Inv) (hpark : Parked k) (hsafe : Safe k e) (hs : system.step k e k')
    (hl : ¬ l.IsReady) (hts : k'.ts = k.ts.wakeFirst l) (ht : (k.ts.members l).head? = some t) :
    ∃ c, Woken k' c t ∧ c.waitList = some l := by
  obtain ⟨r, hdoes⟩ := (Kernel.exec_sound hinv hs.1 hsafe hs.2).1
  have hm : t ∈ k.ts.members l := List.mem_of_head? ht
  have hhome := hinv.linked.home_of_mem hm
  have hlive := hinv.linked.live_of_mem hm
  have hne : (k.ts.tcb t).status ≠ .ready := fun hr => hl ((OsTcb.status_of_home hhome).mp hr)
  obtain ⟨c, hpc, hwait⟩ := hpark t hlive hne
  have hcur : k.curTcb ≠ some t := fun hc => hne (hinv.running t hc).2
  obtain ⟨hlive', htcb⟩ := wakeFirst_head hinv.linked ht
  refine ⟨c, ⟨?_, ?_, ?_, ?_⟩, by rw [← hwait, hhome]⟩
  · rw [hts, hlive', hlive]
  · rw [hts, htcb]
  · rw [hdoes.pc t hcur, hdoes.effect.pc_live hlive, hpc]
  · rw [hts, htcb]
    exact hinv.toCore.waits hl hm

theorem AllWoken.step (h : AllWoken k l woken) (hinv : k.Inv) (hpark : Parked k)
    (hsafe : Safe k e) (hs : system.step k e k') (hl : ¬ l.IsReady)
    (hgave : gave = true → k'.ts = k.ts.wakeFirst l) :
    AllWoken k' l (wokenAfter l gave k e woken) := by
  intro t ht
  rcases Finset.mem_union.mp ht with ht | ht
  · obtain ⟨hw, hstay⟩ := Finset.mem_sdiff.mp ht
    obtain ⟨c, hwoken, hwait⟩ := h t hw
    refine ⟨c, hwoken.step hinv hsafe hs (fun hcur => ?_) (fun hact => ?_), hwait⟩
    · apply hstay
      rw [leaving, Kernel.exec_switched_resumes hs.2 hcur hwoken.pc, hcur]
      simp
    · apply hstay
      rw [leaving, hact]
      simp
  · split_ifs at ht with hg
    · exact woken_head hinv hpark hsafe hs hl (hgave hg) (by simpa using ht)
    · simp at ht

theorem AllWoken.not_mem (h : AllWoken k l woken) (hinv : k.Inv) (hl : ¬ l.IsReady)
    (ht : t ∈ k.ts.members l) : t ∉ woken := by
  intro hw
  obtain ⟨c, hwoken, -⟩ := h t hw
  exact hl ((OsTcb.status_of_home (hinv.linked.home_of_mem ht)).mp hwoken.ready)

/-- While somebody waits in `l`, the units are covered by tasks on their way to them. -/
def Covered (k : Kernel) (l : QueueId) (units : ℕ) (woken : Finset TcbPtr) : Prop :=
  k.ts.members l ≠ [] → units ≤ woken.card

theorem card_leaving (k : Kernel) (e : Event) (woken : Finset TcbPtr) :
    woken.card ≤ (woken \ leaving k e).card + 1 := by
  have hone : (leaving k e).card ≤ 1 := by
    rw [leaving]
    split
    · cases k.curTcb <;> simp
    · simp
    · simp
  have hle := Finset.le_card_sdiff (leaving k e) woken
  omega

variable {units : ℕ}

theorem Covered.take (h : Covered k l (units + 1) woken)
    (hbefore : k'.ts.members l ≠ [] → k.ts.members l ≠ []) :
    Covered k' l units (wokenAfter l false k e woken) := by
  intro hne
  have hold := h (hbefore hne)
  have hgone := card_leaving k e woken
  have hafter : wokenAfter l false k e woken = woken \ leaving k e := by simp [wokenAfter]
  rw [hafter]
  omega

theorem Covered.give {units' : ℕ} (h : Covered k l units woken) (hwoken : AllWoken k l woken)
    (hinv : k.Inv) (hl : ¬ l.IsReady) (hstay : leaving k e = ∅)
    (hbefore : k'.ts.members l ≠ [] → k.ts.members l ≠ []) (hle : units' ≤ units + 1) :
    Covered k' l units' (wokenAfter l true k e woken) := by
  intro hne
  have hold := hbefore hne
  obtain ⟨t, ht⟩ : ∃ t, (k.ts.members l).head? = some t := by
    cases hc : k.ts.members l with
    | nil => exact absurd hc hold
    | cons t rest => exact ⟨t, rfl⟩
  have hnew : t ∉ woken := hwoken.not_mem hinv hl (List.mem_of_head? ht)
  have hcard : (wokenAfter l true k e woken).card = woken.card + 1 := by
    simp only [wokenAfter, hstay, ht, Finset.sdiff_empty, ↓reduceIte, Option.toFinset_some]
    rw [Finset.union_comm, ← Finset.insert_eq, Finset.card_insert_of_notMem hnew]
  have hcovered := h hold
  omega

theorem Covered.idle (h : Covered k l units woken)
    (hbefore : k'.ts.members l ≠ [] → k.ts.members l ≠ [] ∨ units = 0)
    (hleave : ∀ t ∈ woken, leaving k e = {t} → k'.ts.members l ≠ [] →
      units ≤ (woken.erase t).card) :
    Covered k' l units (wokenAfter l false k e woken) := by
  intro hne
  have hafter : wokenAfter l false k e woken = woken \ leaving k e := by simp [wokenAfter]
  rw [hafter]
  by_cases hgone : ∃ t ∈ woken, leaving k e = {t}
  · obtain ⟨t, ht, hl⟩ := hgone
    rw [hl, Finset.sdiff_singleton_eq_erase]
    exact hleave t ht hl hne
  · have hsame : woken \ leaving k e = woken := by
      apply Finset.sdiff_eq_self_of_disjoint
      rw [Finset.disjoint_left]
      intro t ht hmem
      refine hgone ⟨t, ht, ?_⟩
      rw [leaving] at hmem ⊢
      split at hmem
      · rw [Option.mem_toFinset.mp hmem]
        rfl
      · rw [Finset.mem_singleton.mp hmem]
      · exact absurd hmem (Finset.notMem_empty t)
    rw [hsame]
    rcases hbefore hne with hold | hz
    · exact h hold
    · rw [hz]
      exact Nat.zero_le _

end Wakeups

end DfewOS
