import DfewOS.Calls
import DfewOS.MutexOwner

/-!
# What `semM_take` tells its caller

A task behind `CONTEXT_SWITCH` in `semM_take` still waits, or is ready and has
ticks left exactly when it owns the mutex. The one dishonest answer is that to
a nested take, which counts up and returns `OS_STATUS_ERROR`.
-/

namespace DfewOS
open Transition (Reachable)

namespace Kernel

/-- The task `t` is inside `semM_take(m)` and still waits, or knows from its ticks what it got. -/
def TakeOk (k : Kernel) (m : ObjPtr) (t : TcbPtr) : Prop :=
  ((k.ts.tcb t).status = .pendSemM ∧ (k.ts.tcb t).pendObj = some m) ∨
  ((k.ts.tcb t).status = .ready ∧
    ((k.ts.tcb t).delayTicks ≠ 0 ↔ (k.semM m).ownerTcb = some t))

def TakesOk (k : Kernel) : Prop :=
  ∀ t m timeout, k.ts.live t = true → k.pc t = .switched (.semMTake m timeout) → k.TakeOk m t

variable {k k' : Kernel} {t : TcbPtr} {m : ObjPtr} {a : Act} {r : Kernel × Outcome}

theorem TakeOk.mem (h : k.TakeOk m t) (hinv : k.Inv) (hl : k.ts.live t = true)
    (hs : (k.ts.tcb t).status ≠ .ready) : t ∈ k.ts.members (.semM m) := by
  rcases h with ⟨hp, ho⟩ | ⟨hr, -⟩
  · refine (hinv.linked.home t _).mpr ⟨hl, by simp, ?_⟩
    rw [OsTcb.home, hp, ho]
    rfl
  · exact absurd hr hs

theorem Turn.owner_other {v : SemMux} (h : Turn k a m v) (hown : a.ByOwner k)
    (hcur : k.curTcb ≠ some t) (hdel : a ≠ .call (.taskDelete t))
    (hfirst : (k.ts.members (.semM m)).head? ≠ some t) :
    v.ownerTcb = some t ↔ (k.semM m).ownerTcb = some t := by
  cases h with
  | same ho _ _ => rw [ho]
  | acquired hc hnone ho _ =>
    rw [ho, hnone, ← hc]
    exact iff_of_false hcur (by simp)
  | nested _ _ _ ho _ => rw [ho]
  | counted _ _ _ ho _ => rw [ho]
  | given hact _ _ ho _ =>
    rw [hact] at hown
    have howner : (k.semM m).ownerTcb = k.curTcb := hown
    rw [ho, howner]
    exact iff_of_false hfirst hcur
  | freed hor _ ho _ =>
    rw [ho]
    refine iff_of_false (by simp) fun hc => ?_
    rcases hor with hnone | ⟨u, hu, hact⟩
    · rw [hnone] at hc
      exact absurd hc (by simp)
    · rw [hu] at hc
      obtain rfl := Option.some.inj hc
      exact hdel hact

theorem TakeOk.tick (h : k.TakeOk m t) (hinv : k.Inv) (hnot : k.NotOwn)
    (hl : k.ts.live t = true) (ht : Ticks k k') : k'.TakeOk m t := by
  have hready : ¬ (QueueId.semM m).IsReady := fun hr => hr
  have hsem : k'.semM = k.semM := ht.semM
  by_cases hs : (k.ts.tcb t).status = .ready
  · have hkept : k'.ts.tcb t = k.ts.tcb t := by
      apply ht.kept
      intro l hnr hm
      exact hnr ((OsTcb.status_of_home (hinv.linked.home_of_mem hm)).mp hs)
    rw [TakeOk, hkept, hsem]
    exact h
  · have hm := h.mem hinv hl hs
    have hpend : (k.ts.tcb t).status = .pendSemM ∧ (k.ts.tcb t).pendObj = some m :=
      h.resolve_right fun hr => hs hr.1
    have hown := hnot m t hm
    obtain ⟨pre, x, post, hsplit, -, hw⟩ := ht.walked _ hready
    rw [hsplit] at hm
    rcases List.mem_append.mp hm with hp | hm
    · left
      rw [(hw.counted t hp).2]
      exact hpend
    · rcases List.mem_append.mp hm with hx | hp
      · right
        obtain rfl : x = some t := by
          cases x with
          | none => exact absurd hx (by simp)
          | some y =>
            rw [Option.toList_some, List.mem_singleton] at hx
            rw [hx]
        rw [(hw.expired t rfl).2, hsem]
        exact ⟨rfl, iff_of_false (fun hne => hne rfl) hown⟩
      · left
        rw [hw.skipped t hp]
        exact hpend

theorem TakeOk.other (h : k.TakeOk m t) (hinv : k.Inv) (he : Effect k k.curTcb a r)
    (htick : a ≠ .tick) (hown : a.ByOwner k) (hcur : k.curTcb ≠ some t)
    (hdel : a ≠ .call (.taskDelete t)) (hl : k.ts.live t = true) : r.1.TakeOk m t := by
  have hstatus : ¬ (k.ts.tcb t).status.IsOther := by
    rcases h with ⟨hp, -⟩ | ⟨hr, -⟩
    · rw [hp]
      exact fun ho => ho
    · rw [hr]
      exact fun ho => ho
  have hplaced := hinv.linked.placed t hl (by simp)
  rcases he.bystander htick hdel hcur hl hstatus with hu | ⟨m', -, -, hh⟩
  · rw [TakeOk, hu.tcb]
    rcases h with hp | ⟨hr, hiff⟩
    · exact Or.inl hp
    · right
      refine ⟨hr, hiff.trans ?_⟩
      refine ((he.turn hinv.toCore m).owner_other hown hcur hdel fun hc => ?_).symm
      have hm : t ∈ k.ts.members (.semM m) := List.mem_of_head? hc
      exact not_waiting hinv.linked (by rw [hr]; simp) m hm
  · have hm : t ∈ k.ts.members (.semM m') := List.mem_of_head? hh.first
    have hs : (k.ts.tcb t).status ≠ .ready := fun hr =>
      not_waiting hinv.linked (by rw [hr]; simp) m' hm
    obtain rfl : m' = m :=
      QueueId.semM.inj (hinv.linked.lists.disjoint _ _ t hm (h.mem hinv hl hs))
    right
    rw [hh.tcb]
    exact ⟨rfl, iff_of_true (hplaced.delay hs) hh.owner⟩

theorem semMTake_takeOk {timeout : ℕ} (h : k.Inv) (hcur : k.curTcb = some t)
    (he : k.semMTake t m timeout = some r) (ho : r.2 = .switch) : r.1.TakeOk m t := by
  obtain ⟨hl, hs⟩ := h.running t hcur
  obtain ⟨k', o⟩ := r
  obtain rfl : o = .switch := ho
  rcases semMTake_cases h.toCore hl hs he with ⟨-, ho, -⟩ | ⟨-, ho, -⟩ | ⟨-, -, -, ho, -⟩ |
    ⟨-, -, -, -, k₁, xs, ys, hb⟩
  · exact absurd ho (by simp)
  · exact absurd ho (by simp)
  · exact absurd ho (by simp)
  · left
    rw [hb.self]
    exact ⟨rfl, rfl⟩

theorem TakesOk.step {e : Event} (h : k.TakesOk) (hinv : k.Inv) (hnot : k.NotOwn)
    (hsafe : Safe k e) (hown : e.act.ByOwner k) (hs : system.step k e k') : k'.TakesOk := by
  intro t m timeout hl hpc
  obtain ⟨r, hdoes⟩ := (exec_sound hinv hs.1 hsafe hs.2).1
  have hok : r.1.TakeOk m t → k'.TakeOk m t := fun hr => by
    rw [hdoes.state]
    exact hr
  have hlr : r.1.ts.live t = true := by
    rw [hdoes.state] at hl
    exact hl
  by_cases hcur : k.curTcb = some t
  · obtain ⟨r', hruns, ho, hk'⟩ := exec_switched hs.2 hcur hpc
    rw [hk']
    generalize e.act = a at hruns
    cases hruns with
    | enter _ hent => exact semMTake_takeOk hinv hcur hent ho
    | resume _ hres =>
      have hr : k.semMResume t = r' := Option.some.inj hres
      rw [semMResume] at hr
      split_ifs at hr <;> rw [← hr] at ho <;> exact absurd ho (by simp)
  · have hsame := hdoes.pc_other hcur (by rw [hpc]; simp)
    have hpcr : r.1.pc t ≠ .user := by
      rw [← hdoes.pc t hcur, hpc]
      simp
    have hlk := hdoes.effect.live hlr hpcr
    have hold := h t m timeout hlk (by rw [← hsame, hpc])
    have hdel : e.act ≠ .call (.taskDelete t) := by
      intro hact
      obtain ⟨hdef, hexec⟩ := hs
      rw [Safe, hact] at hsafe
      rw [hact] at hdef hexec
      rw [exec_delete hinv hdef hsafe hexec] at hl
      exact absurd hl (by decide)
    apply hok
    by_cases htick : e.act = .tick
    · have heff := hdoes.effect
      rw [htick] at heff
      exact hold.tick hinv hnot hlk heff.ticks
    · exact hold.other hinv hdoes.effect htick hown hcur hdel hlk

end Kernel

/-- A safe step in which mutexes are given by their owners. -/
def SafeByOwner (k : Kernel) (e : Event) : Prop := Safe k e ∧ e.act.ByOwner k

variable {k k' : Kernel} {m : ObjPtr} {t : TcbPtr} {e : Event}

theorem reachable_takesOk (h : Reachable system SafeByOwner k) : k.TakesOk := by
  have hsafe : ∀ k, Reachable system SafeByOwner k → Reachable system Safe k :=
    fun k hk => hk.mono fun _ _ hok => hok.1
  have hknown : ∀ k, Reachable system SafeByOwner k → k.Inv ∧ k.NotOwn := fun k hk =>
    ⟨reachable_inv (hsafe k hk), Kernel.reachable_notOwn (hsafe k hk)⟩
  have hinit : ∀ k, system.init k → k.TakesOk := by
    intro k hk t m timeout _ hpc
    rw [Kernel.init_eq hk, Kernel.initial_pc] at hpc
    exact absurd hpc (by simp)
  have hstep : ∀ k e k', k.Inv ∧ k.NotOwn → k'.Inv ∧ k'.NotOwn → k.TakesOk → SafeByOwner k e →
      system.step k e k' → k'.TakesOk := fun k e k' hk _ htakes hok hs =>
    htakes.step hk.1 hk.2 hok.1 hok.2 hs
  exact h.invariant_rel hknown hinit hstep

/-- What the result `x` of a `semM_take(m)` by `t` says, and what the call did when it failed. -/
def HonestTake (k : Kernel) (m : ObjPtr) (t : TcbPtr) (x : Result) (k' : Kernel) : Prop :=
  (x = .status .ok ↔ (k'.semM m).ownerTcb = some t) ∧
  (x = .status .error → (k'.semM m).ownerTcb ≠ some t ∧
    (∀ l, ¬ l.IsReady → t ∉ k'.ts.members l) ∧
    (k'.semM m).ownerTcb = (k.semM m).ownerTcb ∧ (k'.semM m).takeCount = (k.semM m).takeCount)

theorem not_member_of_ready {ts : Tasks} {seq : QueueId → List TcbPtr} {x : Option TcbPtr}
    (h : Tasks.Linked ts seq x) (hs : (ts.tcb t).status = .ready) :
    ∀ l, ¬ l.IsReady → t ∉ seq l := fun _ hl hm =>
  hl ((OsTcb.status_of_home (h.home_of_mem hm)).mp hs)

theorem enter_honest {timeout : ℕ} {r : Kernel × Outcome} {x : Result} (hinv : k.Inv)
    (hcur : k.curTcb = some t) (he : k.semMTake t m timeout = some r) (ho : r.2 = .ret x) :
    HonestTake k m t x (r.1.setPc t .user) ↔ (k.semM m).ownerTcb ≠ some t := by
  obtain ⟨hl, hs⟩ := hinv.running t hcur
  obtain ⟨k', o⟩ := r
  obtain rfl : o = .ret x := ho
  have hout := not_member_of_ready hinv.linked hs
  rcases Kernel.semMTake_cases hinv.toCore hl hs he with ⟨hnone, hx, rfl⟩ | ⟨hown, hx, rfl⟩ |
    ⟨hnone, hother, -, hx, rfl⟩ | ⟨-, -, -, hx, -⟩
  · obtain rfl := Outcome.ret.inj hx
    refine iff_of_true ⟨iff_of_true rfl ?_, fun hc => absurd hc (by simp)⟩ (by rw [hnone]; simp)
    simp [Kernel.setPc, Kernel.setSemM]
  · obtain rfl := Outcome.ret.inj hx
    refine iff_of_false (fun hh => (hh.2 rfl).1 ?_) (not_not.mpr hown)
    simp [Kernel.setPc, Kernel.setSemM, hown]
  · obtain rfl := Outcome.ret.inj hx
    refine iff_of_true ⟨iff_of_false (by simp) hother, fun _ => ⟨hother, hout, rfl, rfl⟩⟩ hother
  · exact absurd hx (by simp)

theorem resume_honest {r : Kernel × Outcome} {x : Result} (hinv : k.Inv) (htake : k.TakeOk m t)
    (hcur : k.curTcb = some t) (he : k.semMResume t = r) (ho : r.2 = .ret x) :
    HonestTake k m t x (r.1.setPc t .user) := by
  obtain ⟨hl, hs⟩ := hinv.running t hcur
  have hiff := (htake.resolve_left fun hp => by rw [hs] at hp; exact absurd hp.1 (by simp)).2
  have hout := not_member_of_ready hinv.linked hs
  rw [Kernel.semMResume] at he
  split_ifs at he with hd
  · rw [← he] at ho ⊢
    obtain rfl := Outcome.ret.inj ho
    exact ⟨iff_of_true rfl (hiff.mp hd), fun hc => absurd hc (by simp)⟩
  · rw [← he] at ho ⊢
    obtain rfl := Outcome.ret.inj ho
    have hnot : (k.semM m).ownerTcb ≠ some t := fun hc => hd (hiff.mpr hc)
    exact ⟨iff_of_false (by simp) hnot, fun _ => ⟨hnot, hout, rfl, rfl⟩⟩

/-- `semM_take` answers honestly unless its caller already owns the mutex. -/
theorem semMTake_honest (h : Reachable system SafeByOwner k) (hs : system.step k e k')
    (hcur : k.curTcb = some t) :
    (∀ timeout x, e.done = some (.semMTake m timeout, x) → (HonestTake k m t x k' ↔
      ¬ (e.act = .call (.semMTake m timeout) ∧ (k.semM m).ownerTcb = some t))) ∧
    ∀ timeout, e.act = .call (.semMTake m timeout) → e.done = none →
      (k'.semM m).ownerTcb = (k.semM m).ownerTcb ∧
      (k'.semM m).takeCount = (k.semM m).takeCount := by
  have hsafe : Reachable system Safe k := h.mono fun _ _ hok => hok.1
  have hinv := reachable_inv hsafe
  obtain ⟨hl, hstat⟩ := hinv.running t hcur
  refine ⟨fun timeout x hdone => ?_, fun timeout hact hdone => ?_⟩
  · have hexec := hs.2
    rw [hdone] at hexec
    obtain ⟨r, hruns, ho, rfl⟩ := Kernel.exec_done hexec hcur
    rcases hruns with hruns | ⟨-, y, hpc⟩
    · generalize e.act = a at hruns
      cases hruns with
      | enter _ hent =>
        rw [enter_honest hinv hcur hent ho]
        exact ⟨fun hne hc => hne hc.2, fun hne hc => hne ⟨rfl, hc⟩⟩
      | resume hpc hres =>
        have htake := reachable_takesOk h t m timeout hl hpc
        have hhonest := resume_honest hinv htake hcur (Option.some.inj hres) ho
        exact iff_of_true hhonest fun hc => absurd hc.1 (by simp)
    · exact (unlocked_splits hsafe t _ y hpc).elim
  · have hexec := hs.2
    rw [hact, hdone] at hexec
    rcases Kernel.exec_cases hexec with ⟨cur, c, r, hc, hsec, hf⟩ | ⟨_, _, -, ha, -⟩ |
      ⟨_, -, ha, -⟩ | ⟨_, _, -, ha, -⟩ | ⟨-, ha, -⟩
    · obtain rfl := Option.some.inj (hc.symm.trans hcur)
      cases hsec with
      | call _ hent =>
        have hsem : k'.semM = r.1.semM := by
          rcases Kernel.finish_cases hf with ⟨-, rfl, -⟩ | ⟨-, hload, -⟩
          · rfl
          · rw [Kernel.loadHighestTask_same hload]
            rfl
        have hsw : r.2 = .switch := by
          rcases Kernel.finish_cases hf with ⟨-, -, hd⟩ | ⟨ho, -, -⟩
          · cases ho : r.2 with
            | ret y => rw [ho] at hd; exact absurd hd (by simp [Outcome.result])
            | switch => rfl
            | unlock y =>
              obtain ⟨k₁, o⟩ := r
              obtain rfl : o = .unlock y := ho
              exact (Kernel.enter_splits hent).elim
          · exact ho
        obtain ⟨k₁, o⟩ := r
        obtain rfl : o = .switch := hsw
        rw [hsem]
        rcases Kernel.semMTake_cases hinv.toCore hl hstat hent with ⟨-, ho, -⟩ | ⟨-, ho, -⟩ |
          ⟨-, -, -, ho, -⟩ | ⟨-, -, -, -, k₂, xs, ys, hb⟩
        · exact absurd ho (by simp)
        · exact absurd ho (by simp)
        · exact absurd ho (by simp)
        · exact ⟨hb.owner m, hb.count m⟩
    all_goals exact absurd ha (by simp)

theorem semMTake_honest_handedOver : ∃ k e k', Reachable system SafeByOwner k ∧
    system.step k e k' ∧ e.done = some (.semMTake 0 5, .status .ok) ∧
    HonestTake k 0 2 (.status .ok) k' := by
  obtain ⟨⟨es, k⟩, hk, hnext⟩ := Option.bind_eq_some_iff.mp (show
    ((replay (fun k e => e.act.isPlain && decide (e.act.ByOwner k)) .initial
      [.boot (.semMInit 0), .boot (.taskCreate 1024 3), .boot (.taskCreate 1024 2), .load,
        .call (.delayQDelay 1), .call (.semMTake 0 0), .tick, .resume, .call (.semMTake 0 5),
        .call (.semMGive 0)]).bind fun s => (s.2.exec .resume).map fun r =>
      (s.2.curTcb, decide (s.2.defined .resume), r.2)) =
      some (some 2, true, some (.semMTake 0 5, .status .ok)) by decide +kernel)
  obtain ⟨⟨k', d⟩, hexec, hfact⟩ := Option.map_eq_some_iff.mp hnext
  simp only [Prod.mk.injEq] at hfact
  obtain ⟨hcur, hdef, rfl⟩ := hfact
  have hreach : Reachable system SafeByOwner k := by
    refine replay_reachable (fun k e he => ?_) hk
    obtain ⟨hplain, hown⟩ := Bool.and_eq_true_iff.mp he
    exact ⟨Act.safe_of_isPlain hplain, of_decide_eq_true hown⟩
  have hstep : system.step k ⟨.resume, some (.semMTake 0 5, .status .ok)⟩ k' :=
    ⟨of_decide_eq_true hdef, hexec⟩
  have hhonest := ((semMTake_honest hreach hstep hcur).1 5 _ rfl).mpr fun hc =>
    absurd hc.1 (by simp)
  exact ⟨k, _, k', hreach, hstep, rfl, hhonest⟩

/-- A nested take returns an error to the owner. -/
theorem nestedTake_error : ∃ k e k', Reachable system SafeByOwner k ∧ system.step k e k' ∧
    k.curTcb = some 1 ∧ e.done = some (.semMTake 0 0, .status .error) ∧
    ¬ HonestTake k 0 1 (.status .error) k' := by
  obtain ⟨⟨es, k⟩, hk, hnext⟩ := Option.bind_eq_some_iff.mp (show
    ((replay (fun k e => e.act.isPlain && decide (e.act.ByOwner k)) .initial
      [.boot (.semMInit 0), .boot (.taskCreate 1024 3), .load, .call (.semMTake 0 0)]).bind
      fun s => (s.2.exec (.call (.semMTake 0 0))).map fun r =>
        (s.2.curTcb, decide (s.2.defined (.call (.semMTake 0 0))), r.2, (r.1.semM 0).ownerTcb)) =
      some (some 1, true, some (.semMTake 0 0, .status .error), some 1) by decide)
  obtain ⟨⟨k', d⟩, hexec, hfact⟩ := Option.map_eq_some_iff.mp hnext
  simp only [Prod.mk.injEq] at hfact
  obtain ⟨hcur, hdef, rfl, howner⟩ := hfact
  have hreach : Reachable system SafeByOwner k := by
    refine replay_reachable (fun k e he => ?_) hk
    obtain ⟨hplain, hown⟩ := Bool.and_eq_true_iff.mp he
    exact ⟨Act.safe_of_isPlain hplain, of_decide_eq_true hown⟩
  refine ⟨k, ⟨.call (.semMTake 0 0), some (.semMTake 0 0, .status .error)⟩, k', hreach,
    ⟨of_decide_eq_true hdef, hexec⟩, hcur, rfl, fun hh => ?_⟩
  exact (hh.2 rfl).1 howner

end DfewOS
