import DfewOS.EffectSpec

/-!
# When a tick counts everybody down

A tick is accurate unless in some list a task that is to be counted down stands
behind one whose last tick this is. In a run without such ticks a task that
called `delayQ_delay(n)` becomes ready at the n-th tick.
-/

namespace DfewOS
open Transition (Run Reachable)

namespace Kernel

/-- A tick has to count `t` down in the list `l`. -/
def Counts (k : Kernel) (l : QueueId) (t : TcbPtr) : Prop :=
  l = .delayQ ∨ (k.ts.tcb t).delayTicks ≠ waitForever

structure CountedDown (ts : Tasks) (l : QueueId) (t : TcbPtr) (ts' : Tasks) : Prop where
  delay : (ts'.tcb t).delayTicks + 1 = (ts.tcb t).delayTicks
  ready : t ∈ ts'.members (.ready (ts'.tcb t).taskPriority) ↔ (ts.tcb t).delayTicks = 1
  waits : t ∈ ts'.members l ↔ (ts.tcb t).delayTicks ≠ 1

def AccurateTick (k k' : Kernel) : Prop :=
  ∀ l t, ¬ l.IsReady → t ∈ k.ts.members l →
    (k.Counts l t → CountedDown k.ts l t k'.ts) ∧
    (¬ k.Counts l t → k'.ts.tcb t = k.ts.tcb t ∧ t ∈ k'.ts.members l)

/-- Behind a task whose last tick this is nobody else is to be counted down. -/
def InTime (k : Kernel) : Prop :=
  ∀ l, ¬ l.IsReady → ∀ pre t post, k.ts.members l = pre ++ t :: post →
    (k.ts.tcb t).delayTicks = 1 → ∀ u ∈ post, ¬ k.Counts l u

variable {k k' k₁ : Kernel} {l : QueueId} {t : TcbPtr}

theorem counts_iff (k : Kernel) (hl : ¬ l.IsReady) (t : TcbPtr) :
    k.Counts l t ↔ decOf l (k.ts.tcb t).delayTicks = dec32 (k.ts.tcb t).delayTicks := by
  have hforever : dec32 waitForever ≠ waitForever := by decide
  constructor
  · rintro (rfl | hne)
    · rfl
    · cases l <;> first | rfl | exact if_pos hne
  · intro h
    by_cases hd : l = .delayQ
    · exact Or.inl hd
    · right
      intro hw
      rw [hw] at h
      cases l <;> simp only [decOf, decWait, ne_eq, not_true_eq_false, ↓reduceIte] at h
      all_goals first | exact hforever h.symm | exact hd rfl

theorem not_counts (hc : ¬ k.Counts l t) : decOf l (k.ts.tcb t).delayTicks =
    (k.ts.tcb t).delayTicks := by
  rw [Counts, not_or, not_not] at hc
  rw [hc.2]
  cases l <;> first | exact absurd rfl hc.1 | rfl

theorem dec32_eq {d : ℕ} (hd : d ≠ 0) : dec32 d + 1 = d := by
  rw [dec32, if_neg hd]
  omega

theorem decOf_eq_zero {d : ℕ} (hd : d ≠ 0) : decOf l d = 0 ↔ d = 1 := by
  have hdec : dec32 d = 0 ↔ d = 1 := by
    have heq := dec32_eq hd
    omega
  have hwait : decWait d = 0 ↔ d = 1 := by
    by_cases hw : d = waitForever
    · subst hw
      decide
    · rw [decWait, if_pos hw]
      exact hdec
  cases l <;> first | exact hdec | exact hwait

theorem mem_of_skipped {pr ys pre post : List TcbPtr} {x : Option TcbPtr} {u : TcbPtr}
    (hs : pr ++ t :: ys = pre ++ (x.toList ++ post)) (hends : x = none → post = [])
    (ht : t ∉ pre) (hu : u ∈ ys) : u ∈ post := by
  rcases List.append_eq_append_iff.mp hs with ⟨as, rfl, has⟩ | ⟨bs, rfl, hbs⟩
  · cases as with
    | nil =>
      cases x with
      | none =>
        rw [hends rfl] at has
        exact absurd has (by simp)
      | some y =>
        obtain ⟨-, rfl⟩ := List.cons.inj has
        exact hu
    | cons a as =>
      obtain ⟨rfl, -⟩ := List.cons.inj has
      exact absurd (List.mem_append_right _ List.mem_cons_self) ht
  · cases x with
    | none =>
      rw [hends rfl] at hbs
      exact absurd hbs (by simp)
    | some y =>
      cases bs with
      | nil =>
        obtain ⟨-, rfl⟩ := List.cons.inj hbs
        exact hu
      | cons b bs =>
        obtain ⟨-, rfl⟩ := List.cons.inj hbs
        exact List.mem_append_right _ (List.mem_cons_of_mem _ hu)

theorem Ticks.counted {pre post : List TcbPtr} {x : Option TcbPtr} (h : k.Core) (ht : Ticks k k')
    (hl : ¬ l.IsReady) (hm : t ∈ k'.ts.members l) (hc : k.Counts l t)
    (hw : Walked (decOf l) k.ts k'.ts pre x post) (hp : t ∈ pre) (hold : t ∈ k.ts.members l) :
    CountedDown k.ts l t k'.ts := by
  obtain ⟨hz, heq⟩ := hw.counted t hp
  have hne := h.waits hl hold
  have hd : (k.ts.tcb t).delayTicks ≠ 1 := fun h1 => hz ((decOf_eq_zero hne).mpr h1)
  refine ⟨?_, iff_of_false (fun hr => ?_) hd, iff_of_true hm hd⟩
  · rw [heq]
    simp only [(k.counts_iff hl t).mp hc]
    exact dec32_eq hne
  · have he := ht.linked.lists.disjoint _ _ t hm hr
    rw [he] at hl
    exact hl trivial

theorem Ticks.expired {pre post : List TcbPtr} (h : k.Core) (ht : Ticks k k')
    (hl : ¬ l.IsReady) (hold : t ∈ k.ts.members l)
    (hw : Walked (decOf l) k.ts k'.ts pre (some t) post) :
    (k.ts.tcb t).delayTicks = 1 ∧ CountedDown k.ts l t k'.ts := by
  obtain ⟨hz, heq⟩ := hw.expired t rfl
  have hone := (decOf_eq_zero (h.waits hl hold)).mp hz
  have hlive : k'.ts.live t = true := by
    rw [ht.live]
    exact h.linked.live_of_mem hold
  have hr := ht.linked.mem_ready hlive (show (k'.ts.tcb t).status = .ready by rw [heq]; rfl)
  refine ⟨hone, ?_, iff_of_true hr hone, iff_of_false (fun hm => ?_) (fun hc => hc hone)⟩
  · rw [heq, hone]
    rfl
  · have he := ht.linked.lists.disjoint _ _ t hm hr
    rw [he] at hl
    exact hl trivial

theorem Ticks.accurate_iff (h : k.Core) (ht : Ticks k k') : AccurateTick k k' ↔ k.InTime := by
  constructor
  · intro hacc l hl pr t ys hs hone u hu hc
    obtain ⟨pre, x, post, hsplit, -, hw⟩ := ht.walked l hl
    have htm : t ∈ k.ts.members l := by rw [hs]; simp
    have hum : u ∈ k.ts.members l := by rw [hs]; simp [hu]
    have hpre : t ∉ pre := fun hp =>
      (hw.counted t hp).1 ((decOf_eq_zero (h.waits hl htm)).mpr hone)
    have hpost := mem_of_skipped (hs.symm.trans hsplit) hw.ends hpre hu
    have hdelay := ((hacc l u hl hum).1 hc).delay
    rw [hw.skipped u hpost] at hdelay
    omega
  · intro htime l t hl hm
    obtain ⟨pre, x, post, hsplit, hmem, hw⟩ := ht.walked l hl
    rw [hsplit] at hm
    have hold : t ∈ k.ts.members l := by rw [hsplit]; exact hm
    rcases List.mem_append.mp hm with hp | hm
    · have hnew : t ∈ k'.ts.members l := by rw [hmem]; exact List.mem_append_left _ hp
      refine ⟨fun hc => ht.counted h hl hnew hc hw hp hold, fun hc => ⟨?_, hnew⟩⟩
      rw [(hw.counted t hp).2, not_counts hc]
    · cases x with
      | none =>
        rw [hw.ends rfl] at hm
        exact absurd hm List.not_mem_nil
      | some y =>
        rw [Option.toList_some, List.singleton_append] at hm hsplit
        have hy : y ∈ k.ts.members l := by rw [hsplit]; simp
        have hyone := (ht.expired h hl hy hw).1
        rcases List.mem_cons.mp hm with rfl | hm
        · refine ⟨fun _ => (ht.expired h hl hold hw).2, fun hc => absurd ?_ hc⟩
          right
          rw [hyone]
          decide
        · refine ⟨fun hc => absurd hc (htime l hl pre y post hsplit hyone t hm), fun _ => ?_⟩
          refine ⟨hw.skipped t hm, ?_⟩
          rw [hmem]
          exact List.mem_append_right _ hm

def onlySleeper (k : Kernel) (t : TcbPtr) : Bool :=
  decide (∀ u, k.ts.live u = true → (k.ts.tcb u).status = .ready ∨ u = t)

theorem inTime_of_onlySleeper (h : k.Core) (honly : k.onlySleeper t = true) : k.InTime := by
  intro l hl pr u ys hs _ v hv _
  have hsleep : ∀ w ∈ k.ts.members l, w = t := by
    intro w hw
    have hready := of_decide_eq_true honly w (h.linked.live_of_mem hw)
    refine hready.resolve_left fun hr => hl ?_
    exact (OsTcb.status_of_home (h.linked.home_of_mem hw)).mp hr
  have hnd := h.linked.lists.nodup l
  rw [hs, List.nodup_append] at hnd
  have hu := hsleep u (by rw [hs]; simp)
  have hv' := hsleep v (by rw [hs]; simp [hv])
  rw [hu, ← hv'] at hnd
  exact (List.nodup_cons.mp hnd.2.1).1 hv

end Kernel

/-- The number of ticks among some steps. -/
def ticksIn (as : List Event) : ℕ := as.countP fun e => e.act = .tick

theorem ticksIn_snoc (as : List Event) (e : Event) :
    ticksIn (as ++ [e]) = ticksIn as + if e.act = .tick then 1 else 0 := by
  simp [ticksIn, List.countP_append, List.countP_singleton]

/-- A safe step that is no tick, or a tick that counts everybody down. -/
def TicksInTime (k : Kernel) (e : Event) : Prop := Safe k e ∧ (e.act = .tick → k.InTime)

def Event.Spares (t : TcbPtr) (e : Event) : Prop := e.act ≠ .call (.taskDelete t)

structure Asleep (t : TcbPtr) (d : ℕ) (k : Kernel) : Prop where
  live : k.ts.live t = true
  status : (k.ts.tcb t).status = .delay
  delay : (k.ts.tcb t).delayTicks = d

variable {t : TcbPtr} {n d : ℕ} {k k' : Kernel} {e : Event} {as : List Event}

theorem Asleep.mem (h : Asleep t d k) (hinv : k.Inv) : t ∈ k.ts.members .delayQ := by
  refine (hinv.linked.home t _).mpr ⟨h.live, by simp, ?_⟩
  rw [OsTcb.home, h.status]

/-- The ticks aside, nothing happens to a task in the delay queue that is not deleted. -/
theorem Asleep.step (h : Asleep t d k) (hinv : k.Inv) (hsafe : Safe k e)
    (hstep : system.step k e k') (htick : e.act ≠ .tick) (hspare : e.Spares t) :
    Asleep t d k' := by
  obtain ⟨r, heff, hk', -⟩ := (Kernel.exec_sound hinv hstep.1 hsafe hstep.2).1
  have hcur : k.curTcb ≠ some t := by
    intro hc
    have hr := (hinv.running t hc).2
    rw [h.status] at hr
    exact absurd hr (by decide)
  have hother : ¬ (k.ts.tcb t).status.IsOther := by rw [h.status]; exact fun ho => ho
  have hkeep : Kernel.Untouched k t r.1 := by
    refine (heff.bystander htick hspare hcur h.live hother).resolve_right ?_
    rintro ⟨m, -, -, hh⟩
    have hm : t ∈ k.ts.members (.semM m) := List.mem_of_head? hh.first
    have hq := hinv.linked.lists.disjoint _ _ t hm (h.mem hinv)
    exact absurd hq (by simp)
  rw [hk']
  exact ⟨by rw [hkeep.live]; exact h.live, by rw [hkeep.tcb]; exact h.status,
    by rw [hkeep.tcb]; exact h.delay⟩

theorem Asleep.tick (h : Asleep t d k) (hinv : k.Inv) (hstep : system.step k e k')
    (htick : e.act = .tick) (htime : k.InTime) :
    d ≠ 0 ∧ (k'.ts.tcb t).delayTicks + 1 = d ∧ (d ≠ 1 → Asleep t (d - 1) k') ∧
      (d = 1 → (k'.ts.tcb t).status = .ready ∧
        t ∈ k'.ts.members (.ready (k'.ts.tcb t).taskPriority)) := by
  have hexec := hstep.2
  rw [htick] at hexec
  obtain ⟨k₁, hticks, hk'⟩ := Kernel.exec_ticks hinv hexec
  have hts : k'.ts = k₁.ts := by rw [hk']
  have hready : ¬ QueueId.delayQ.IsReady := fun hr => hr
  have hm := h.mem hinv
  have hacc := (hticks.accurate_iff hinv.toCore).mpr htime
  obtain ⟨hdelay, hwoken, hwaits⟩ := (hacc .delayQ t hready hm).1 (Or.inl rfl)
  rw [h.delay] at hdelay hwoken hwaits
  rw [hts]
  refine ⟨by omega, hdelay, fun hd => ?_, fun hd => ?_⟩
  · have hnew := hwaits.mpr hd
    have hhome := hticks.linked.home_of_mem hnew
    refine ⟨by rw [hts]; exact hticks.linked.live_of_mem hnew, ?_, by rw [hts]; omega⟩
    rw [hts]
    rw [OsTcb.home] at hhome
    cases hs : (k₁.ts.tcb t).status <;> rw [hs] at hhome <;> simp at hhome
  · have hr := hwoken.mpr hd
    exact ⟨(OsTcb.status_of_home (hticks.linked.home_of_mem hr)).mpr trivial, hr⟩

theorem delayQDelay_asleep (hinv : k.Inv) (hn : 0 < n) (hcur : k.curTcb = some t)
    (hstep : system.step k e k') (hact : e.act = .call (.delayQDelay n)) : Asleep t n k' := by
  have hexec := hstep.2
  rw [hact] at hexec
  obtain ⟨hl, hs⟩ := hinv.running t hcur
  have hdef : k.delayQDelay t n =
      ({ k with ts := k.ts.pendOn .delayQ t n .delay none }, .switch) := by
    rw [Kernel.delayQDelay, if_neg (by omega)]
  have htcb : (k.ts.pendOn .delayQ t n .delay none).tcb t =
      { k.ts.tcb t with delayTicks := n, status := .delay, pendObj := none } := by
    rw [← Tasks.readyQRemove_tcb k.ts t]
    exact Tasks.setPend_tcb _ t n .delay none
  have hlive : (k.ts.pendOn .delayQ t n .delay none).live t = true := by
    rw [← hl, ← Tasks.readyQRemove_live k.ts t]
    rfl
  rcases Kernel.exec_cases hexec with ⟨cur, c, r, hc, hsec, hf⟩ | ⟨_, _, -, ha, -⟩ |
    ⟨_, -, ha, -⟩ | ⟨c, x, -, ha, -⟩ | ⟨-, ha, -⟩
  · obtain rfl := Option.some.inj (hc.symm.trans hcur)
    cases hsec with
    | call _ hent =>
      have hr : k.delayQDelay cur n = r := Option.some.inj hent
      rw [hdef] at hr
      obtain ⟨ho, -⟩ | ⟨-, hload, -⟩ := Kernel.finish_cases hf
      · rw [← hr] at ho
        exact absurd rfl ho
      · have hts : k'.ts = k.ts.pendOn .delayQ cur n .delay none := by
          rw [Kernel.loadHighestTask_same hload, ← hr]
          rfl
        exact ⟨by rw [hts, hlive], by rw [hts, htcb], by rw [hts, htcb]⟩
  all_goals exact absurd ha (by simp)

/-- What holds of the sleeper `t` when the steps `as` are over. -/
structure Slept (t : TcbPtr) (n : ℕ) (as : List Event) (k : Kernel) : Prop where
  inv : k.Inv
  before : ticksIn as < n → Asleep t (n - ticksIn as) k
  woken : ∀ bs e, as = bs ++ [e] → e.act = .tick → ticksIn as = n →
    (k.ts.tcb t).status = .ready ∧ t ∈ k.ts.members (.ready (k.ts.tcb t).taskPriority)

theorem Slept.step (h : Slept t n as k) (htime : TicksInTime k e) (hspare : e.Spares t)
    (hstep : system.step k e k') : Slept t n (as ++ [e]) k' := by
  have hinv := (Kernel.exec_sound h.inv hstep.1 htime.1 hstep.2).2
  have hlast : ∀ bs f, as ++ [e] = bs ++ [f] → f = e := fun bs f hf =>
    (List.cons.inj (List.append_inj' hf rfl).2).1.symm
  by_cases htick : e.act = .tick
  · have hcount : ticksIn (as ++ [e]) = ticksIn as + 1 := by rw [ticksIn_snoc, if_pos htick]
    have hone : ticksIn as < n → _ := fun hlt =>
      (h.before hlt).tick h.inv hstep htick (htime.2 htick)
    refine ⟨hinv, fun hlt => ?_, fun _ _ _ _ heq => ?_⟩
    · rw [hcount] at hlt ⊢
      have hd := (hone (by omega)).2.2.1 (by omega)
      rwa [Nat.sub_sub] at hd
    · rw [hcount] at heq
      exact (hone (by omega)).2.2.2 (by omega)
  · have hcount : ticksIn (as ++ [e]) = ticksIn as := by rw [ticksIn_snoc, if_neg htick]; rfl
    refine ⟨hinv, fun hlt => ?_, fun bs f hf hft => ?_⟩
    · rw [hcount] at hlt ⊢
      exact (h.before hlt).step h.inv htime.1 hstep htick hspare
    · rw [hlast bs f hf] at hft
      exact absurd hft htick

/-- A tick of a reachable state is accurate exactly when it is in time; and with ticks in time,
a task that called `delayQ_delay(n)` is asleep up to the n-th tick, which makes it ready. -/
theorem tick_accuracy {k₀ : Kernel} (h : Reachable system Safe k₀) :
    (∀ e k', system.step k₀ e k' → e.act = .tick → (k₀.AccurateTick k' ↔ k₀.InTime)) ∧
    ∀ t n e₀ k₁ as k, 0 < n → k₀.curTcb = some t → system.step k₀ e₀ k₁ →
      e₀.act = .call (.delayQDelay n) →
      Run system (fun k e => TicksInTime k e ∧ e.Spares t) k₁ as k →
      (ticksIn as < n → (k.ts.tcb t).status = .delay ∧ t ∈ k.ts.members .delayQ ∧
        ∀ p, t ∉ k.ts.members (.ready p)) ∧
      ∀ bs e, as = bs ++ [e] → e.act = .tick → ticksIn as = n →
        (k.ts.tcb t).status = .ready ∧ t ∈ k.ts.members (.ready (k.ts.tcb t).taskPriority) := by
  have hinv := reachable_inv h
  refine ⟨fun e k' hstep htick => ?_, ?_⟩
  · have hexec := hstep.2
    rw [htick] at hexec
    obtain ⟨k₁, hticks, hk'⟩ := Kernel.exec_ticks hinv hexec
    have hts : k'.ts = k₁.ts := by rw [hk']
    have hiff := hticks.accurate_iff hinv.toCore
    rw [Kernel.AccurateTick] at hiff ⊢
    rw [hts]
    exact hiff
  · intro t n e₀ k₁ as k hn hcur hstep hact hrun
    have hsafe : Safe k₀ e₀ := by
      rw [Safe, hact]
      exact True.intro
    have hstart : Slept t n [] k₁ := by
      refine ⟨(Kernel.exec_sound hinv hstep.1 hsafe hstep.2).2, fun _ => ?_, fun bs e hb => ?_⟩
      · exact delayQDelay_asleep hinv hn hcur hstep hact
      · exact absurd hb (by simp)
    have hslept : Slept t n as k :=
      Run.history hstart (fun as k e k' _ hk hok hs => hk.step hok.1 hok.2 hs) hrun
    refine ⟨fun hlt => ?_, hslept.woken⟩
    have hasleep := hslept.before hlt
    have hm := hasleep.mem hslept.inv
    refine ⟨hasleep.status, hm, fun p hp => ?_⟩
    have hq := hslept.inv.linked.lists.disjoint _ _ t hm hp
    exact absurd hq (by simp)

theorem tick_accuracy_sleeper : ∃ (k : Kernel) (as : List Event), ticksIn as = 2 ∧
    (k.ts.tcb 1).status = .ready ∧ 1 ∈ k.ts.members (.ready (k.ts.tcb 1).taskPriority) := by
  obtain ⟨⟨es, k₀⟩, hreplay, hnext⟩ := Option.bind_eq_some_iff.mp (show
    ((replay (fun _ e => e.act.isPlain) .initial [.boot (.taskCreate 1024 3), .load]).bind fun s =>
      (s.2.exec (.call (.delayQDelay 2))).bind fun r₁ => (r₁.1.exec .tick).bind fun r₂ =>
        (r₂.1.exec .tick).map fun r₃ =>
          (decide (s.2.defined (.call (.delayQDelay 2))), s.2.curTcb, r₁.1.onlySleeper 1,
            r₂.1.onlySleeper 1)) = some (true, some 1, true, true) by set_option maxRecDepth 4000 in decide)
  obtain ⟨⟨k₁, d₁⟩, hexec₁, hnext⟩ := Option.bind_eq_some_iff.mp hnext
  obtain ⟨⟨k₂, d₂⟩, hexec₂, hnext⟩ := Option.bind_eq_some_iff.mp hnext
  obtain ⟨⟨k₃, d₃⟩, hexec₃, hfact⟩ := Option.map_eq_some_iff.mp hnext
  simp only [Prod.mk.injEq] at hfact
  obtain ⟨hdef, hcur, honly₁, honly₂⟩ := hfact
  have hreach : Reachable system Safe k₀ :=
    replay_reachable (fun k e he => Act.safe_of_isPlain he) hreplay
  have hstep₁ : system.step k₀ ⟨.call (.delayQDelay 2), d₁⟩ k₁ := ⟨of_decide_eq_true hdef, hexec₁⟩
  have hstep₂ : system.step k₁ ⟨.tick, d₂⟩ k₂ := ⟨True.intro, hexec₂⟩
  have hstep₃ : system.step k₂ ⟨.tick, d₃⟩ k₃ := ⟨True.intro, hexec₃⟩
  have hsafe₁ : Safe k₀ ⟨.call (.delayQDelay 2), d₁⟩ := True.intro
  have hsafe₂ : Safe k₁ ⟨.tick, d₂⟩ := True.intro
  have hreach₁ := hreach.step hsafe₁ hstep₁
  have hreach₂ := hreach₁.step hsafe₂ hstep₂
  have htime₁ := Kernel.inTime_of_onlySleeper (reachable_inv hreach₁).toCore honly₁
  have htime₂ := Kernel.inTime_of_onlySleeper (reachable_inv hreach₂).toCore honly₂
  have hrun : Run system (fun k e => TicksInTime k e ∧ e.Spares 1) k₁
      [⟨.tick, d₂⟩, ⟨.tick, d₃⟩] k₃ :=
    (Run.single ⟨⟨True.intro, fun _ => htime₁⟩, by simp [Event.Spares]⟩ hstep₂).trans
      (Run.single ⟨⟨True.intro, fun _ => htime₂⟩, by simp [Event.Spares]⟩ hstep₃)
  obtain ⟨-, hwoken⟩ := (tick_accuracy hreach).2 1 2 _ k₁ _ k₃ (by decide) hcur hstep₁ rfl hrun
  exact ⟨k₃, [⟨.tick, d₂⟩, ⟨.tick, d₃⟩], rfl, hwoken [⟨.tick, d₂⟩] ⟨.tick, d₃⟩ rfl rfl rfl⟩

/-- Two tasks sleep for one tick: the first one wakes, the second is not counted down. -/
theorem tick_skips : ∃ k e k', Reachable system Safe k ∧ system.step k e k' ∧ e.act = .tick ∧
    2 ∈ k.ts.members .delayQ ∧ (k.ts.tcb 2).delayTicks = 1 ∧ (k'.ts.tcb 2).delayTicks = 1 ∧
    ¬ k.AccurateTick k' := by
  obtain ⟨⟨es, k⟩, hk, hnext⟩ := Option.bind_eq_some_iff.mp (show
    ((replay (fun _ e => e.act.isPlain) .initial
      [.boot (.taskCreate 1024 2), .boot (.taskCreate 1024 3), .load, .call (.delayQDelay 1),
        .call (.delayQDelay 1)]).bind fun s => (s.2.exec .tick).map fun r =>
      (decide (2 ∈ s.2.ts.members .delayQ), (s.2.ts.tcb 2).delayTicks, r.2,
        (r.1.ts.tcb 2).delayTicks)) = some (true, 1, none, 1) by decide)
  obtain ⟨⟨k', d⟩, hexec, hfact⟩ := Option.map_eq_some_iff.mp hnext
  simp only [Prod.mk.injEq] at hfact
  obtain ⟨hm, hone, rfl, hstill⟩ := hfact
  have hreach : Reachable system Safe k :=
    replay_reachable (fun k e he => Act.safe_of_isPlain he) hk
  have hmem := of_decide_eq_true hm
  have hready : ¬ QueueId.delayQ.IsReady := fun hr => hr
  refine ⟨k, ⟨.tick, none⟩, k', hreach, ⟨True.intro, hexec⟩, rfl, hmem, hone, hstill, fun hacc => ?_⟩
  have hdelay := ((hacc .delayQ 2 hready hmem).1 (Or.inl rfl)).delay
  omega

end DfewOS
