import DfewOS.EffectSpec

/-!
# How calls go on and end

A task that is saved inside a call got there by the call itself or by another
round of it, and the step that returns from a call is its first section, its
way on behind `CONTEXT_SWITCH`, or the last section of a call in several parts.
-/

namespace DfewOS
open Transition (Reachable)

/-- The calls that consist of several critical sections. -/
def Call.Splits : Call → Prop
  | .taskCreate .. | .semBDelete _ | .semCDelete _ => True
  | _ => False

namespace Kernel

variable {k k' : Kernel} {cur t : TcbPtr} {a : Act} {c : Call} {r : Kernel × Outcome} {x : Result}
  {d : Option (Call × Result)}

theorem go_outcome (k : Kernel) (x : Rest) : (k.go x).2 ≠ .switch := by
  cases x with
  | allocStack p =>
    obtain ⟨k', o, he⟩ : ∃ k' o, k.taskCreateStack p = (k', o) := ⟨_, _, rfl⟩
    rw [show k.go (.allocStack p) = (k', o) from he]
    rcases (taskCreateStack_cases he).1 with rfl | rfl <;> simp
  | _ => simp [go, taskCreateLink]

theorem exec_tick_enabled (he : k.exec .tick = some (k', d)) : k.intEnabled = true := by
  simp only [exec, Option.bind_eq_bind, Option.bind_eq_some_iff] at he
  obtain ⟨cur, -, he⟩ := he
  split_ifs at he with hi
  exact hi

inductive Runs (k : Kernel) (t : TcbPtr) (c : Call) (r : Kernel × Outcome) : Act → Prop
  | enter : k.pc t = .user → k.enter t c = some r → Runs k t c r (.call c)
  | resume : k.pc t = .switched c → k.resume t c = some r → Runs k t c r .resume

theorem exec_pc (he : k.exec a = some (k', d)) (hcur : k.curTcb = some t) :
    (∃ c r, Section k t a c r ∧ k'.pc t = r.2.pc c ∧
      k' = { r.1 with pc := k'.pc, curTcb := k'.curTcb }) ∨
    (k'.pc t = k.pc t ∧ ∀ c, k.pc t ≠ .switched c) := by
  rcases exec_cases he with ⟨cur, c, r, hc, hs, hf⟩ | ⟨cur, k₁, hc, rfl, ht, hload, -⟩ |
    ⟨cur, hc, -, hu, hload, -⟩ | ⟨_, _, hc, -, -, -⟩ | ⟨hc, -, -, -⟩
  · left
    obtain rfl := Option.some.inj (hc.symm.trans hcur)
    have hk' : k' = { r.1.setPc cur (r.2.pc c) with curTcb := k'.curTcb } := by
      rcases finish_cases hf with ⟨-, rfl, -⟩ | ⟨-, hload, -⟩
      · rfl
      · exact loadHighestTask_same hload
    have hself : (r.1.setPc cur (r.2.pc c)).pc cur = r.2.pc c := Function.update_self ..
    refine ⟨c, r, hs, ?_, ?_⟩
    · rw [hk']
      exact hself
    · rw [hk']
      rfl
  · right
    have hpc₁ : k₁.pc = k.pc := by
      simp only [tickAnnounce, Option.bind_eq_bind, Option.bind_eq_some_iff] at ht
      obtain ⟨_, -, _, -, _, -, _, -, _, -, hk₁⟩ := ht
      rw [← Option.some.inj hk₁]
    refine ⟨?_, fun c hsw => ?_⟩
    · rw [loadHighestTask_same hload, ← hpc₁]
    · have hi := exec_tick_enabled he
      rw [intEnabled, hcur] at hi
      simp [hsw] at hi
  · right
    obtain rfl := Option.some.inj (hc.symm.trans hcur)
    refine ⟨?_, fun c hsw => ?_⟩
    · rw [loadHighestTask_same hload]
      rfl
    · rw [hu] at hsw
      exact absurd hsw (by simp)
  · rw [hcur] at hc
    exact absurd hc (by simp)
  · rw [hcur] at hc
    exact absurd hc (by simp)

theorem exec_switched (he : k.exec a = some (k', d)) (hcur : k.curTcb = some t)
    (hpc : k'.pc t = .switched c) :
    ∃ r, Runs k t c r a ∧ r.2 = .switch ∧ k' = { r.1 with pc := k'.pc, curTcb := k'.curTcb } := by
  rcases exec_pc he hcur with ⟨c', r, hs, hr, hk'⟩ | ⟨hsame, hno⟩
  · rw [hpc] at hr
    cases ho : r.2 with
    | ret y => rw [ho] at hr; exact absurd hr (by simp [Outcome.pc])
    | unlock y => rw [ho] at hr; exact absurd hr (by simp [Outcome.pc])
    | switch =>
      rw [ho] at hr
      obtain rfl := Pc.switched.inj hr
      cases hs with
      | call hu hent => exact ⟨r, .enter hu hent, ho, hk'⟩
      | resume hu hres => exact ⟨r, .resume hu hres, ho, hk'⟩
      | go hu => exact absurd ho (k.go_outcome _)
  · rw [hsame] at hpc
    exact absurd hpc (hno c)

theorem exec_done (he : k.exec a = some (k', some (c, x))) (hcur : k.curTcb = some t) :
    ∃ r, (Runs k t c r a ∨ (a = .go ∧ ∃ y, k.pc t = .unlocked c y)) ∧ r.2 = .ret x ∧
      k' = r.1.setPc t .user := by
  rcases exec_cases he with ⟨cur, c', r, hc, hs, hf⟩ | ⟨_, _, -, -, -, -, hd⟩ |
    ⟨_, -, -, -, -, hd⟩ | ⟨_, _, hc, -, -, -⟩ | ⟨-, -, -, hd⟩
  · obtain rfl := Option.some.inj (hc.symm.trans hcur)
    rcases finish_cases hf with ⟨-, hk', hd⟩ | ⟨-, -, hd⟩
    · obtain ⟨y, ho, hpair⟩ := Option.map_eq_some_iff.mp hd.symm
      obtain ⟨rfl, rfl⟩ := Prod.mk.inj hpair
      have hret : r.2 = .ret y := by
        cases hr : r.2 <;> rw [hr] at ho <;> simp [Outcome.result] at ho
        rw [ho]
      rw [hret] at hk'
      refine ⟨r, ?_, hret, hk'⟩
      cases hs with
      | call hu hent => exact Or.inl (.enter hu hent)
      | resume hu hres => exact Or.inl (.resume hu hres)
      | go hu => exact Or.inr ⟨rfl, _, hu⟩
    · exact absurd hd (by simp)
  · exact absurd hd (by simp)
  · exact absurd hd (by simp)
  · rw [hcur] at hc
    exact absurd hc (by simp)
  · exact absurd hd (by simp)

theorem enter_splits {y : Rest} (he : k.enter cur c = some (k', .unlock y)) : c.Splits := by
  cases c <;> simp only [enter, Option.some.injEq, Option.map_eq_some_iff, Prod.mk.injEq] at he
  case taskCreate => exact trivial
  case semBDelete => exact trivial
  case semCDelete => exact trivial
  case taskDelete t =>
    obtain ⟨_, -, hk⟩ := Option.map_eq_some_iff.mp he
    exact absurd (Prod.mk.inj hk).2 (by simp)
  case semBFlush =>
    obtain ⟨_, -, -, hx⟩ := he
    exact absurd hx (by simp)
  case semCFlush =>
    obtain ⟨_, -, -, hx⟩ := he
    exact absurd hx (by simp)
  case semMTake m timeout =>
    rw [semMTake] at he
    split_ifs at he
    · simp at he
    · simp at he
    · obtain ⟨_, -, he⟩ := Option.bind_eq_some_iff.mp he
      obtain ⟨_, -, he⟩ := Option.bind_eq_some_iff.mp he
      simp at he
    · simp at he
  case semMGive m =>
    have ho : (k.semMGive cur m).2 = .switch ∨ (k.semMGive cur m).2 = .ret (.status .ok) := by
      have hlow : ∀ k₁ : Kernel, (k₁.lowerMyself cur).2 = .switch ∨
          (k₁.lowerMyself cur).2 = .ret (.status .ok) := by
        intro k₁
        simp only [lowerMyself]
        split_ifs
        · exact Or.inl rfl
        · exact Or.inr rfl
      simp only [semMGive]
      split_ifs
      · exact Or.inr rfl
      · split <;> exact hlow _
    rw [he] at ho
    exact absurd ho (by simp)
  case msgQReceive q buffer bufLen timeout =>
    rw [msgQReceive] at he
    split_ifs at he
    · cases hm : (k.msgQ q).msgList <;> simp [hm] at he
    · simp at he
    · simp at he
  all_goals
    simp only [delayQDelay, semBInit, semBTake, semBGive, semCInit, semCTake, semCGive, msgQInit,
      msgQSend, msgQDelete, semMInit] at he
    first | (split_ifs at he <;> simp at he) | simp at he

theorem Effect.pc (he : Effect k k.curTcb a r) (t : TcbPtr) :
    r.1.pc t = k.pc t ∨ r.1.pc t = .user := by
  generalize k.curTcb = cur at he
  cases he with
  | calm _ hcalm => exact Or.inl (by rw [hcalm.pc])
  | prepare _ hp => exact Or.inl (by rw [hp.fields])
  | @birth _ _ _ k₀ p _ hp _ hb =>
    rw [hb.fields]
    by_cases ht : t = p
    · rw [ht]
      exact Or.inr (Function.update_self ..)
    · left
      rw [show k₀.pc = k.pc by rw [hp.fields]]
      exact Function.update_of_ne ht ..
  | delete _ _ _ ht => exact Or.inl (by rw [ht.fields])
  | exit _ ht => exact Or.inl (by rw [ht.fields])
  | block _ _ _ hb => exact Or.inl (by rw [hb.rest])
  | give _ hg => exact Or.inl (by rw [hg.fields])
  | tick ht => exact Or.inl (by rw [ht.fields])
  | _ => exact Or.inl rfl

theorem Effect.live (he : Effect k k.curTcb a r) (hl : r.1.ts.live t = true)
    (hpc : r.1.pc t ≠ .user) : k.ts.live t = true := by
  generalize k.curTcb = cur at he
  cases he with
  | calm _ hcalm =>
    obtain ⟨_, -, hq⟩ := hcalm.moves
    rwa [hq.live] at hl
  | prepare _ hp => rwa [show r.1.ts.live = k.ts.live by rw [hp.ts]; rfl] at hl
  | @birth _ _ _ k₀ p _ hp _ hb =>
    have hne : t ≠ p := by
      rintro rfl
      rw [hb.fields] at hpc
      exact hpc (Function.update_self ..)
    rw [hb.live, Function.update_of_ne hne] at hl
    rwa [show k₀.ts.live = k.ts.live by rw [hp.ts]; rfl] at hl
  | delete _ _ _ ht =>
    rw [ht.live, Function.update_apply] at hl
    split_ifs at hl
    exact hl
  | exit _ ht =>
    rw [ht.live, Function.update_apply] at hl
    split_ifs at hl
    exact hl
  | block _ _ _ hb => rwa [hb.live] at hl
  | give _ hg => rwa [hg.live] at hl
  | tick ht => rwa [ht.live] at hl
  | _ => exact hl

theorem exec_delete (h : k.Inv) (hdef : k.defined (.call (.taskDelete t)))
    (hsafe : Act.Safe k (.call (.taskDelete t)))
    (he : k.exec (.call (.taskDelete t)) = some (k', d)) : k'.ts.live t = false := by
  rcases exec_cases he with ⟨cur, c, r, -, hs, hf⟩ | ⟨_, _, -, ha, -⟩ | ⟨_, -, ha, -⟩ |
    ⟨_, _, -, ha, -⟩ | ⟨-, ha, -⟩
  · cases hs with
    | call _ hent =>
      obtain ⟨k₁, hrun, ht⟩ := taskDelete_terminates h.toCore hdef.2.2.2.1 hsafe.2
      obtain rfl := Option.some.inj (hrun.symm.trans hent)
      have hlive : k'.ts.live = k₁.ts.live := by
        rcases finish_cases hf with ⟨-, rfl, -⟩ | ⟨-, hload, -⟩
        · rfl
        · rw [loadHighestTask_same hload]
          rfl
      rw [hlive, ht.live, Function.update_self]
  all_goals exact absurd ha (by simp)

/-- A safe step leaves the other tasks where they are in their calls, or they are new. -/
theorem Does.pc_other (h : Does k a r k') (ht : k.curTcb ≠ some t) (hpc : k'.pc t ≠ .user) :
    k'.pc t = k.pc t := by
  have hr := h.pc t ht
  rcases h.effect.pc t with he | hu
  · rw [hr, he]
  · rw [hr] at hpc
    exact absurd hu hpc

end Kernel

/-- What a call leaves when it gives up the lock, and each further section keeps, holds between any
two sections. -/
theorem unlocked_invariant {P : Call → Rest → Prop}
    (henter : ∀ {k k₁ : Kernel} {cur : TcbPtr} {c : Call} {x : Rest},
      k.enter cur c = some (k₁, .unlock x) → P c x)
    (hgo : ∀ {k : Kernel} {c : Call} {x y : Rest}, P c x → (k.go x).2 = .unlock y → P c y)
    {k : Kernel} (h : Reachable system Safe k) : ∀ t c x, k.pc t = .unlocked c x → P c x := by
  have hinit : ∀ k, system.init k → ∀ t c x, k.pc t = .unlocked c x → P c x := by
    intro k hk t c x hpc
    rw [Kernel.init_eq hk, Kernel.initial_pc] at hpc
    exact absurd hpc (by simp)
  have hstep : ∀ k e k', k.Inv → k'.Inv → (∀ t c x, k.pc t = .unlocked c x → P c x) → Safe k e →
      system.step k e k' → ∀ t c x, k'.pc t = .unlocked c x → P c x := by
    intro k e k' hinv _ hold hsafe hs t c x hpc
    obtain ⟨r, hdoes⟩ := (Kernel.exec_sound hinv hs.1 hsafe hs.2).1
    by_cases hcur : k.curTcb = some t
    · rcases Kernel.exec_pc hs.2 hcur with ⟨c', r, hsec, hr, -⟩ | ⟨hsame, -⟩
      · rw [hpc] at hr
        cases ho : r.2 with
        | ret y => rw [ho] at hr; exact absurd hr (by simp [Outcome.pc])
        | switch => rw [ho] at hr; exact absurd hr (by simp [Outcome.pc])
        | unlock y =>
          rw [ho] at hr
          obtain ⟨rfl, rfl⟩ := Pc.unlocked.inj hr
          obtain ⟨k₁, o⟩ := r
          obtain rfl : o = .unlock x := ho
          generalize hres : (k₁, Outcome.unlock x) = res at hsec
          generalize e.act = a at hsec
          cases hsec with
          | call hu hent =>
            rw [← hres] at hent
            exact henter hent
          | resume hu hent =>
            rw [← hres] at hent
            exact absurd hent Kernel.resume_unlock
          | go hu => exact hgo (hold t _ _ hu) (by rw [← hres])
      · rw [hsame] at hpc
        exact hold t c x hpc
    · exact hold t c x (by rw [← hdoes.pc_other hcur (by rw [hpc]; simp), hpc])
  exact h.invariant_rel (fun k hk => reachable_inv hk) hinit hstep

def UnlockedSplits (k : Kernel) : Prop := ∀ t c x, k.pc t = .unlocked c x → c.Splits

theorem unlocked_splits {k : Kernel} (h : Reachable system Safe k) : UnlockedSplits k :=
  unlocked_invariant Kernel.enter_splits (fun hsplit _ => hsplit) h

end DfewOS
