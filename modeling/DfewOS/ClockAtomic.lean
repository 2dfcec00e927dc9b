import DfewOS.ClockTasks
import DfewOS.TimeLibSpec

/-!
# Setting the clock in one step

The clock is a pair, and only its first half is assigned under the mutex. Beside the tasks
runs a clock that every `timeSet` sets at one moment, when it stores its ticks. What the tasks
read agrees with it as long as nobody takes the mutex between the two assignments of another
task, nor stores a time between the reading and the assignment of another task's setter.
-/

namespace DfewOS.TimeLib
open Dlist (OsStatus)
open Transition (Reachable System)
open ClockState (Next)

/-- What `timeGet` returns; the first value of its local variable does not matter. -/
def Clock.reading (clock : Clock) (ticks : ℕ) : TimeSocket := clock.timeGet ticks clock.base

/-- A moment: the clock that is set in one step, and the ticks. -/
abbrev Moment := Clock × ℕ

structure History where
  clock : Clock
  /-- The moments since the current call of a task began. -/
  moments : TaskId → List Moment

def settled (s : ClockState) (a : ClockAct) (clock : Clock) : Clock :=
  match a with
  | .run p => match s.task p with
    | some (_, .writeMoment t ticks) => ⟨t, ticks⟩
    | _ => clock
  | _ => clock

def record (s : ClockState) (a : ClockAct) (s' : ClockState) (h : History) : History where
  clock := settled s a h.clock
  moments p := (settled s a h.clock, s'.ticks) ::
    match a with
    | .call q _ => if q = p then [] else h.moments p
    | _ => h.moments p

def recorded : System (ClockState × History) ClockAct :=
  clockSystem.withGhost ⟨.boot, fun _ => []⟩ record

inductive Kind
  | enters
  /-- The mutex is taken and the clock is read. -/
  | reads
  /-- A time is about to be stored. -/
  | plans
  /-- The mutex is taken and the time is stored. -/
  | stores
  /-- The time is stored, and the ticks are not. -/
  | halfSet
  deriving DecidableEq

def Phase.kind : Phase → Kind
  | getTest | getInit | getLock => .enters
  | readTicks | readMoment _ | read .. | getUnlock _ => .reads
  | setTest _ | setInit _ | setLock _ => .plans
  | write .. | setUnlock _ => .stores
  | getTicks _ | writeMoment .. => .halfSet

def ClockCall.IsSetter : ClockCall → Prop
  | setField .. => True
  | _ => False

def NoneHalfSet (s : ClockState) (p : TaskId) : Prop :=
  ∀ q c ph, q ≠ p → s.task q = some (c, ph) → ph.kind ≠ .halfSet

def NonePlans (s : ClockState) (p : TaskId) : Prop :=
  ∀ q c ph, q ≠ p → s.task q = some (c, ph) → c.IsSetter → ph.kind ≠ .plans

/-- The mutex is created once, and taken by `p` when no other task is between two accesses to
the clock that belong together. -/
def Undisturbed (s : ClockState) : ClockAct → Prop
  | .run p => match s.task p with
    | some (_, .getInit) | some (_, .setInit _) => s.mutex = none
    | some (_, .getLock) => NoneHalfSet s p
    | some (_, .setLock _) => NoneHalfSet s p ∧ NonePlans s p
    | _ => True
  | _ => True

/-! ## The invariant -/

def Origin (h : History) (p : TaskId) (t : TimeSocket) : ClockCall → Prop
  | .timeGet => False
  | .timeSet t' => t = t'
  | .setField f v =>
    ∃ ticks, (h.clock, ticks) ∈ h.moments p ∧ t = f.assign v (h.clock.reading ticks)

structure Planned (h : History) (p : TaskId) (t : TimeSocket) (c : ClockCall) : Prop where
  check : checkTime t = .ok
  origin : Origin h p t c

def Loaded (dst src : TimeSocket) (n : ℕ) : Prop :=
  (0 < n → dst.iSec = src.iSec) ∧ (1 < n → dst.iMin = src.iMin) ∧ (2 < n → dst.iHour = src.iHour) ∧
    (3 < n → dst.iYear = src.iYear) ∧ (4 < n → dst.iMon = src.iMon) ∧ (5 < n → dst.iDay = src.iDay)

def Stored (dst src : TimeSocket) (n : ℕ) : Prop :=
  (0 < n → dst.iYear = src.iYear) ∧ (1 < n → dst.iMon = src.iMon) ∧ (2 < n → dst.iDay = src.iDay) ∧
    (3 < n → dst.iHour = src.iHour) ∧ (4 < n → dst.iMin = src.iMin) ∧
    (5 < n → dst.iSec = src.iSec) ∧ (6 < n → dst.iWday = src.iWday) ∧ (7 < n → dst.iYday = src.iYday)

def Fact (base : TimeSocket) (h : History) (p : TaskId) (c : ClockCall) : Phase → Prop
  | .getTest | .getInit | .getLock | .readTicks => True
  | .readMoment ticks => (h.clock, ticks) ∈ h.moments p
  | .read iSeconds n copy => n ≤ 5 ∧ Loaded copy h.clock.base n ∧ ∃ ticks,
      (h.clock, ticks) ∈ h.moments p ∧ iSeconds = elapsedSeconds ticks h.clock.setMomentTicks
  | .getUnlock now =>
    ∃ ticks, (h.clock, ticks) ∈ h.moments p ∧ updateWeekday now = h.clock.reading ticks
  | .setTest t | .setInit t | .setLock t => Planned h p t c
  | .write t n => Planned h p t c ∧ n ≤ 7 ∧ Stored base t n
  | .setUnlock t | .getTicks t => Planned h p t c ∧ base = t
  | .writeMoment t ticks => Planned h p t c ∧ base = t ∧ ∃ clock, (clock, ticks) ∈ h.moments p

def Phase.Changes (ph : Phase) : Prop := ph.kind = .stores ∨ ph.kind = .halfSet

def Phase.Holds (ph : Phase) : Prop := ph.kind = .reads ∨ ph.kind = .stores

/-- The call relies on what it has read, or has begun to set the clock. -/
def Relies (c : ClockCall) (ph : Phase) : Prop :=
  ph.Holds ∨ ph.Changes ∨ (c.IsSetter ∧ ph.kind = .plans)

def Owns (s : ClockState) (p : TaskId) : Prop := ∃ m, s.mutex = some m ∧ s.owner m = some p

structure Inv (s : ClockState) (h : History) : Prop where
  owns : ∀ p c ph, s.task p = some (c, ph) → ph.Holds → Owns s p
  apart : ∀ p q c ph c' ph', p ≠ q → s.task p = some (c, ph) → s.task q = some (c', ph') →
    Relies c ph → ¬ ph'.Changes
  moment : s.clock.setMomentTicks = h.clock.setMomentTicks
  base : (∀ p c ph, s.task p = some (c, ph) → ¬ ph.Changes) → s.clock.base = h.clock.base
  inDay : InDay h.clock.base
  fact : ∀ p c ph, s.task p = some (c, ph) → Fact s.clock.base h p c ph

variable {s s' : ClockState} {h h' : History} {p q : TaskId} {c : ClockCall} {ph : Phase}
  {a : ClockAct} {t now : TimeSocket} {n ticks : ℕ}

theorem Origin.mono (hclock : c.IsSetter → h'.clock = h.clock)
    (hmoments : h.moments p ⊆ h'.moments p) (hp : Origin h p t c) : Origin h' p t c := by
  cases c with
  | timeGet => exact hp
  | timeSet t' => exact hp
  | setField f v =>
    obtain ⟨ticks, hmem, ht⟩ := hp
    have hsame := hclock trivial
    exact ⟨ticks, by rw [hsame]; exact hmoments hmem, by rw [hsame]; exact ht⟩

theorem Planned.mono (hclock : c.IsSetter → h'.clock = h.clock)
    (hmoments : h.moments p ⊆ h'.moments p) (hp : Planned h p t c) : Planned h' p t c :=
  ⟨hp.check, hp.origin.mono hclock hmoments⟩

/-! ## Copying word by word -/

theorem Loaded.step {dst src : TimeSocket} (h : Loaded dst src n) (hn : n ≤ 5) :
    Loaded (loadWord dst src n) src (n + 1) := by
  interval_cases n <;> simp_all [Loaded, loadWord]

theorem Loaded.sameTime {dst src : TimeSocket} (h : Loaded dst src 6) : SameTime dst src := by
  obtain ⟨hsec, hmin, hhour, hyear, hmon, hday⟩ := h
  exact ⟨hyear (by decide), hmon (by decide), hday (by decide), hhour (by decide), hmin (by decide),
    hsec (by decide)⟩

theorem Stored.step {dst src : TimeSocket} (h : Stored dst src n) (hn : n ≤ 7) :
    Stored (storeWord dst src n) src (n + 1) := by
  interval_cases n <;> simp_all [Stored, storeWord]

theorem Stored.eq {dst src : TimeSocket} (h : Stored dst src 8) : dst = src := by
  cases dst
  cases src
  simp_all [Stored]

theorem SameTime.addDay (h : SameTime t now) : SameTime (addDay t) (addDay now) := by
  obtain ⟨hyear, hmon, hday, hhour, hmin, hsec⟩ := h
  rw [TimeLib.addDay, TimeLib.addDay, hyear, hmon, hday]
  split
  · exact ⟨rfl, rfl, rfl, hhour, hmin, hsec⟩
  · split
    · exact ⟨rfl, rfl, rfl, hhour, hmin, hsec⟩
    · exact ⟨rfl, rfl, rfl, hhour, hmin, hsec⟩

theorem SameTime.addDays (h : SameTime t now) (iDays : ℤ) :
    SameTime (addDays t iDays) (addDays now iDays) := by
  rw [TimeLib.addDays, TimeLib.addDays]
  induction iDays.toNat with
  | zero => exact h
  | succ n ih =>
    rw [Function.iterate_succ_apply', Function.iterate_succ_apply']
    exact ih.addDay

theorem SameTime.updateWeekday (h : SameTime t now) : updateWeekday t = updateWeekday now := by
  obtain ⟨hyear, hmon, hday, hhour, hmin, hsec⟩ := h
  cases t
  cases now
  simp_all only [TimeLib.updateWeekday, updateDayOfYear]

theorem SameTime.calculate {base base' : TimeSocket} (h : SameTime base base') (iSeconds : ℤ) :
    SameTime (calculate base iSeconds t) (calculate base' iSeconds now) := by
  obtain ⟨hyear, hmon, hday, hhour, hmin, hsec⟩ := h
  rw [TimeLib.calculate, TimeLib.calculate, hyear, hmon, hday, hhour, hmin, hsec]
  apply SameTime.addDays
  exact ⟨rfl, rfl, rfl, rfl, rfl, rfl⟩

theorem reading_of_copy {clock : Clock} {copy : TimeSocket} (h : SameTime copy clock.base) :
    updateWeekday (calculate copy (elapsedSeconds ticks clock.setMomentTicks) copy) =
      clock.reading ticks :=
  (h.calculate _).updateWeekday

/-! ## Steps of the invariant -/

theorem Fact.mono {base base' : TimeSocket} (hclock : Relies c ph → h'.clock = h.clock)
    (hbase : ph.Changes → base' = base) (hmoments : h.moments p ⊆ h'.moments p)
    (hf : Fact base h p c ph) : Fact base' h' p c ph := by
  cases ph with
  | getTest => exact trivial
  | getInit => exact trivial
  | getLock => exact trivial
  | readTicks => exact trivial
  | readMoment ticks =>
    rw [Fact, hclock (.inl (.inl rfl))]
    exact hmoments hf
  | read iSeconds n copy =>
    obtain ⟨hn, hload, ticks, hmem, hsec⟩ := hf
    rw [Fact, hclock (.inl (.inl rfl))]
    exact ⟨hn, hload, ticks, hmoments hmem, hsec⟩
  | getUnlock now =>
    obtain ⟨ticks, hmem, hnow⟩ := hf
    rw [Fact, hclock (.inl (.inl rfl))]
    exact ⟨ticks, hmoments hmem, hnow⟩
  | setTest t => exact hf.mono (fun hc => hclock (.inr (.inr ⟨hc, rfl⟩))) hmoments
  | setInit t => exact hf.mono (fun hc => hclock (.inr (.inr ⟨hc, rfl⟩))) hmoments
  | setLock t => exact hf.mono (fun hc => hclock (.inr (.inr ⟨hc, rfl⟩))) hmoments
  | write t n =>
    obtain ⟨hplan, hstored⟩ := hf
    rw [Fact, hbase (.inl rfl)]
    exact ⟨hplan.mono (fun _ => hclock (.inr (.inl (.inl rfl)))) hmoments, hstored⟩
  | setUnlock t =>
    obtain ⟨hplan, hstored⟩ := hf
    rw [Fact, hbase (.inl rfl)]
    exact ⟨hplan.mono (fun _ => hclock (.inr (.inl (.inl rfl)))) hmoments, hstored⟩
  | getTicks t =>
    obtain ⟨hplan, hstored⟩ := hf
    rw [Fact, hbase (.inr rfl)]
    exact ⟨hplan.mono (fun _ => hclock (.inr (.inl (.inr rfl)))) hmoments, hstored⟩
  | writeMoment t ticks =>
    obtain ⟨hplan, hstored, clock, hmem⟩ := hf
    rw [Fact, hbase (.inr rfl)]
    exact ⟨hplan.mono (fun _ => hclock (.inr (.inl (.inr rfl)))) hmoments, hstored, clock,
      hmoments hmem⟩

theorem Inv.next (hi : Inv s h) (htask : ∀ q, q ≠ p → s'.task q = s.task q)
    (howns : ∀ q, q ≠ p → Owns s q → Owns s' q)
    (hclock : ∀ q c ph, q ≠ p → s.task q = some (c, ph) → Relies c ph → h'.clock = h.clock)
    (hchanges : ∀ q c ph, q ≠ p → s.task q = some (c, ph) → ph.Changes →
      s'.clock.base = s.clock.base)
    (hmoments : ∀ q, q ≠ p → h.moments q ⊆ h'.moments q)
    (hmoment : s'.clock.setMomentTicks = h'.clock.setMomentTicks) (hday : InDay h'.clock.base)
    (hbase : (∀ q c ph, s'.task q = some (c, ph) → ¬ ph.Changes) → s'.clock.base = h'.clock.base)
    (hself : ∀ c ph, s'.task p = some (c, ph) → (ph.Holds → Owns s' p) ∧
      Fact s'.clock.base h' p c ph ∧ ∀ q c' ph', q ≠ p → s.task q = some (c', ph') →
        (Relies c ph → ¬ ph'.Changes) ∧ (ph.Changes → ¬ Relies c' ph')) : Inv s' h' := by
  refine ⟨fun q c ph hq hholds => ?_, fun q r c ph c' ph' hne hq hr hrel hch => ?_, hmoment, hbase,
    hday, fun q c ph hq => ?_⟩
  · by_cases hqp : q = p
    · subst hqp
      exact (hself c ph hq).1 hholds
    · rw [htask q hqp] at hq
      exact howns q hqp (hi.owns q c ph hq hholds)
  · by_cases hqp : q = p
    · subst hqp
      rw [htask r (Ne.symm hne)] at hr
      exact ((hself c ph hq).2.2 r c' ph' (Ne.symm hne) hr).1 hrel hch
    · rw [htask q hqp] at hq
      by_cases hrp : r = p
      · subst hrp
        exact ((hself c' ph' hr).2.2 q c ph hqp hq).2 hch hrel
      · rw [htask r hrp] at hr
        exact hi.apart q r c ph c' ph' hne hq hr hrel hch
  · by_cases hqp : q = p
    · subst hqp
      exact (hself c ph hq).2.1
    · rw [htask q hqp] at hq
      exact (hi.fact q c ph hq).mono (hclock q c ph hqp hq) (hchanges q c ph hqp hq)
        (hmoments q hqp)

/-! ## The mutex -/

theorem take_some {s₁ : ClockState} (h : s.take p = some s₁) :
    ∃ m, s.mutex = some m ∧ s.owner m = none ∧
      s₁ = { s with owner := Function.update s.owner m (some p) } := by
  obtain ⟨m, hm, htake⟩ := Option.bind_eq_some_iff.mp h
  split at htake
  · next hfree => exact ⟨m, hm, hfree, (Option.some.inj htake).symm⟩
  · cases htake

theorem take_owns {s₁ : ClockState} (h : s.take p = some s₁) : Owns s₁ p ∧ ∀ q, ¬ Owns s q := by
  obtain ⟨m, hm, hfree, rfl⟩ := take_some h
  refine ⟨⟨m, hm, Function.update_self ..⟩, ?_⟩
  rintro q ⟨m', hm', howner⟩
  rw [hm] at hm'
  rw [← Option.some.inj hm', hfree] at howner
  cases howner

theorem give_owns (hne : q ≠ p) (h : Owns s q) : Owns (s.give p) q := by
  obtain ⟨m, hm, howner⟩ := h
  have hother : s.owner m ≠ some p := by
    rw [howner]
    exact fun heq => hne (Option.some.inj heq)
  have hsame : s.give p = s := by simp only [ClockState.give, hm, if_neg hother]
  exact ⟨m, by rw [hsame]; exact hm, by rw [hsame]; exact howner⟩

theorem give_fields : (s.give p).clock = s.clock ∧ (s.give p).task = s.task ∧
    (s.give p).ticks = s.ticks := by
  rw [ClockState.give]
  split
  · exact ⟨rfl, rfl, rfl⟩
  · split <;> exact ⟨rfl, rfl, rfl⟩

/-! ## One instruction -/

/-- The instruction goes on to `ph'`; only a task that changes the clock stores a word. -/
theorem Inv.goto (hi : Inv s h) (hp : s.task p = some (c, ph)) {s₁ : ClockState} {ph' : Phase}
    (htask : s₁.task = s.task) (hmoment : s₁.clock.setMomentTicks = s.clock.setMomentTicks)
    (hbase : s₁.clock.base = s.clock.base ∨ ph.Changes)
    (howns : ∀ q, q ≠ p → Owns s q → Owns s₁ q) (hhold : ph'.Holds → Owns s₁ p)
    (hclock : h'.clock = h.clock) (hmoments : ∀ q, h.moments q ⊆ h'.moments q)
    (hch : ph.Changes → ph'.Changes)
    (hapart : ∀ q c' ph'', q ≠ p → s.task q = some (c', ph'') →
      (Relies c ph' → ¬ ph''.Changes) ∧ (ph'.Changes → ¬ Relies c' ph''))
    (hfact : Fact s₁.clock.base h' p c ph') : Inv (s₁.continue' p c (.goto ph')).1 h' := by
  have hother : ∀ q, q ≠ p → (s₁.continue' p c (.goto ph')).1.task q = s.task q := by
    intro q hqp
    rw [← htask]
    exact Function.update_of_ne hqp ..
  have hself : (s₁.continue' p c (.goto ph')).1.task p = some (c, ph') := Function.update_self ..
  apply hi.next hother howns (fun q c' ph'' hqp hq hrel => hclock)
  · intro q c' ph'' hqp hq hchanges
    obtain hsame | hpch := hbase
    · exact hsame
    · exact absurd hpch (hi.apart q p c' ph'' c ph hqp hq hp (.inr (.inl hchanges)))
  · exact fun q hqp => hmoments q
  · rw [hclock, ← hi.moment]
    exact hmoment
  · rw [hclock]
    exact hi.inDay
  · intro hnone
    have hpnone : ¬ ph.Changes := fun hpch => hnone p c ph' hself (hch hpch)
    have hall : ∀ q c' ph'', s.task q = some (c', ph'') → ¬ ph''.Changes := by
      intro q c' ph'' hq
      by_cases hqp : q = p
      · subst hqp
        rw [hp] at hq
        cases hq
        exact hpnone
      · exact hnone q c' ph'' ((hother q hqp).trans hq)
    rw [hclock, ← hi.base hall]
    exact hbase.resolve_right hpnone
  · intro c' ph'' hp'
    rw [hself] at hp'
    cases hp'
    exact ⟨hhold, hfact, hapart⟩

theorem Inv.ret (hi : Inv s h) (hp : s.task p = some (c, ph)) {s₁ : ClockState} {r : ClockReply}
    (htask : s₁.task = s.task) (hsame : s₁.clock = s.clock)
    (howns : ∀ q, q ≠ p → Owns s q → Owns s₁ q) (hclock : h'.clock = h.clock)
    (hmoments : ∀ q, h.moments q ⊆ h'.moments q) (hch : ¬ ph.Changes) :
    Inv (s₁.continue' p c (.ret r)).1 h' := by
  have hother : ∀ q, q ≠ p → (s₁.continue' p c (.ret r)).1.task q = s.task q := by
    intro q hqp
    rw [← htask]
    exact Function.update_of_ne hqp ..
  have hself : (s₁.continue' p c (.ret r)).1.task p = none := Function.update_self ..
  apply hi.next hother howns (fun q c' ph'' hqp hq hrel => hclock)
  · intro q c' ph'' hqp hq hchanges
    exact congrArg Clock.base hsame
  · exact fun q hqp => hmoments q
  · rw [hclock, ← hi.moment]
    exact congrArg Clock.setMomentTicks hsame
  · rw [hclock]
    exact hi.inDay
  · intro hnone
    have hall : ∀ q c' ph'', s.task q = some (c', ph'') → ¬ ph''.Changes := by
      intro q c' ph'' hq
      by_cases hqp : q = p
      · subst hqp
        rw [hp] at hq
        cases hq
        exact hch
      · exact hnone q c' ph'' ((hother q hqp).trans hq)
    rw [hclock, ← hi.base hall]
    exact congrArg Clock.base hsame
  · intro c' ph'' hp'
    rw [hself] at hp'
    cases hp'

theorem Inv.apart_of (hi : Inv s h) (hp : s.task p = some (c, ph)) {ph' : Phase}
    (hrel : Relies c ph' → Relies c ph) (hch : ph'.Changes → ph.Changes) :
    ∀ q c' ph'', q ≠ p → s.task q = some (c', ph'') →
      (Relies c ph' → ¬ ph''.Changes) ∧ (ph'.Changes → ¬ Relies c' ph'') := by
  intro q c' ph'' hqp hq
  exact ⟨fun h' => hi.apart p q c ph c' ph'' (Ne.symm hqp) hp hq (hrel h'),
    fun h' hrel' => hi.apart q p c' ph'' c ph hqp hq hp hrel' (hch h')⟩

section Kinds
variable {ph' : Phase}

theorem Phase.holds_congr (hkind : ph'.kind = ph.kind) : ph'.Holds ↔ ph.Holds := by
  rw [Phase.Holds, Phase.Holds, hkind]

theorem Phase.changes_congr (hkind : ph'.kind = ph.kind) : ph'.Changes ↔ ph.Changes := by
  rw [Phase.Changes, Phase.Changes, hkind]

theorem relies_congr (hkind : ph'.kind = ph.kind) : Relies c ph' ↔ Relies c ph := by
  rw [Relies, Relies, Phase.holds_congr hkind, Phase.changes_congr hkind, hkind]

end Kinds

theorem Inv.quiet (hi : Inv s h) (hp : s.task p = some (c, ph)) {ph' : Phase}
    (hclock : h'.clock = h.clock) (hmoments : ∀ q, h.moments q ⊆ h'.moments q)
    (hkind : ph'.kind = ph.kind) (hfact : Fact s.clock.base h' p c ph') :
    Inv (s.continue' p c (.goto ph')).1 h' :=
  hi.goto hp rfl rfl (.inl rfl) (fun _ _ => id)
    (fun hh => hi.owns p c ph hp ((Phase.holds_congr hkind).mp hh)) hclock hmoments
    (Phase.changes_congr hkind).mpr
    (hi.apart_of hp (relies_congr hkind).mp (Phase.changes_congr hkind).mp) hfact

theorem Inv.created (hi : Inv s h) (hp : s.task p = some (c, ph)) {ph' : Phase}
    (hnone : s.mutex = none) (hclock : h'.clock = h.clock)
    (hmoments : ∀ q, h.moments q ⊆ h'.moments q) (hholds : ¬ ph.Holds) (hkind : ph'.kind = ph.kind)
    (hfact : Fact s.clock.base h' p c ph') : Inv (s.create.continue' p c (.goto ph')).1 h' := by
  refine hi.goto hp rfl rfl (.inl rfl) ?_
    (fun hh => absurd ((Phase.holds_congr hkind).mp hh) hholds) hclock hmoments
    (Phase.changes_congr hkind).mpr
    (hi.apart_of hp (relies_congr hkind).mp (Phase.changes_congr hkind).mp) hfact
  rintro q - ⟨m, hm, -⟩
  rw [hnone] at hm
  cases hm

/-- The mutex is free for `p`, so nobody changes the clock; and if somebody relies on it, then
as a setter that is about to store a time. -/
theorem Inv.lock (hi : Inv s h) {s₁ : ClockState} (htake : s.take p = some s₁) (hnone : NoneHalfSet s p) :
    ∀ q c' ph', q ≠ p → s.task q = some (c', ph') →
      ¬ ph'.Changes ∧ (Relies c' ph' → c'.IsSetter ∧ ph'.kind = .plans) := by
  intro q c' ph' hqp hq
  have hfree : ¬ ph'.Holds := fun hholds => (take_owns htake).2 q (hi.owns q c' ph' hq hholds)
  have hhalf : ph'.kind ≠ .halfSet := hnone q c' ph' hqp hq
  have hstores : ¬ ph'.Changes := by
    rintro (hst | hhs)
    · exact hfree (.inr hst)
    · exact hhalf hhs
  refine ⟨hstores, ?_⟩
  rintro (hholds | hch | hplan)
  · exact absurd hholds hfree
  · exact absurd hch hstores
  · exact hplan

theorem Inv.beginSet (hi : Inv s h) (hp : s.task p = some (c, .getUnlock now)) {s₁ : ClockState}
    (htask : s₁.task = s.task) (hsame : s₁.clock = s.clock)
    (howns : ∀ q, q ≠ p → Owns s q → Owns s₁ q) (hclock : h'.clock = h.clock)
    (hmoments : ∀ q, h.moments q ⊆ h'.moments q) (horigin : Origin h' p t c) :
    Inv (s₁.continue' p c (ClockState.beginSet t)).1 h' := by
  rw [ClockState.beginSet]
  cases hcheck : checkTime t with
  | error => exact hi.ret hp htask hsame howns hclock hmoments (by simp [Phase.Changes, Phase.kind])
  | ok =>
    apply hi.goto hp htask (by rw [hsame]) (.inl (by rw [hsame])) howns
    · simp [Phase.Holds, Phase.kind]
    · exact hclock
    · exact hmoments
    · simp [Phase.Changes, Phase.kind]
    · apply hi.apart_of hp
      · exact fun _ => .inl (.inl rfl)
      · simp [Phase.Changes, Phase.kind]
    · exact ⟨hcheck, horigin⟩

theorem Inv.acquire (hi : Inv s h) (hp : s.task p = some (c, ph)) {s₁ : ClockState} {ph' : Phase}
    (htake : s.take p = some s₁) (hclock : h'.clock = h.clock)
    (hmoments : ∀ q, h.moments q ⊆ h'.moments q) (hch : ¬ ph.Changes)
    (hapart : ∀ q c' ph'', q ≠ p → s.task q = some (c', ph'') →
      (Relies c ph' → ¬ ph''.Changes) ∧ (ph'.Changes → ¬ Relies c' ph''))
    (hfact : Fact s.clock.base h' p c ph') : Inv (s₁.continue' p c (.goto ph')).1 h' := by
  obtain ⟨howns, hnobody⟩ := take_owns htake
  obtain ⟨m, -, -, rfl⟩ := take_some htake
  exact hi.goto hp rfl rfl (.inl rfl) (fun q _ howner => absurd howner (hnobody q)) (fun _ => howns)
    hclock hmoments (fun h' => absurd h' hch) hapart hfact

theorem Inv.base_of_read (hi : Inv s h) (hp : s.task p = some (c, ph)) (hreads : ph.kind = .reads) :
    s.clock.base = h.clock.base := by
  apply hi.base
  intro q c' ph' hq
  by_cases hqp : q = p
  · subst hqp
    rw [hp] at hq
    cases hq
    simp [Phase.Changes, hreads]
  · exact hi.apart p q c _ c' ph' (Ne.symm hqp) hp hq (.inl (.inl hreads))

theorem Inv.readWord (hi : Inv s h) {iSeconds : ℤ} {copy : TimeSocket}
    (hp : s.task p = some (c, .read iSeconds n copy)) (hclock : h'.clock = h.clock)
    (hmoments : ∀ q, h.moments q ⊆ h'.moments q) :
    Inv (s.continue' p c (.goto (if n < 5 then .read iSeconds (n + 1) (loadWord copy s.clock.base n)
      else .getUnlock (calculate (loadWord copy s.clock.base n) iSeconds
        (loadWord copy s.clock.base n))))).1 h' := by
  obtain ⟨hn, hload, ticks, hmem, hsec⟩ := hi.fact p c _ hp
  have hbase := hi.base_of_read hp rfl
  have hload' := hload.step hn
  rw [← hbase] at hload'
  by_cases hlt : n < 5
  · rw [if_pos hlt]
    refine hi.quiet hp hclock hmoments rfl ?_
    rw [Fact, hclock, ← hbase]
    exact ⟨hlt, hload', ticks, hmoments p hmem, hsec⟩
  · rw [if_neg hlt]
    refine hi.quiet hp hclock hmoments rfl ?_
    have hlast : n = 5 := by omega
    subst hlast
    rw [hbase] at hload'
    rw [Fact, hclock]
    refine ⟨ticks, hmoments p hmem, ?_⟩
    rw [hsec, hbase]
    exact reading_of_copy hload'.sameTime

/-- Behind the reading the mutex is given, and a setter goes on with the time it has changed. -/
theorem Inv.leave (hi : Inv s h) (hp : s.task p = some (c, .getUnlock now)) {s₁ : ClockState}
    {nx : Next} (hinstr : s.instr p c (.getUnlock now) = some (s₁, nx))
    (hclock : h'.clock = h.clock) (hmoments : ∀ q, h.moments q ⊆ h'.moments q) :
    Inv (s₁.continue' p c nx).1 h' := by
  obtain ⟨ticks, hmem, hreading⟩ := hi.fact p c _ hp
  obtain ⟨hsame, htask, -⟩ := give_fields (s := s) (p := p)
  have howns : ∀ q, q ≠ p → Owns s q → Owns (s.give p) q := fun q hqp => give_owns hqp
  cases hinstr
  cases c with
  | timeGet =>
    exact hi.ret hp htask hsame howns hclock hmoments (by simp [Phase.Changes, Phase.kind])
  | timeSet t =>
    exact hi.ret hp htask hsame howns hclock hmoments (by simp [Phase.Changes, Phase.kind])
  | setField f v =>
    refine hi.beginSet hp htask hsame howns hclock hmoments ⟨ticks, ?_, ?_⟩
    · rw [hclock]
      exact hmoments p hmem
    · rw [hclock, hreading]

theorem Inv.writeWord (hi : Inv s h) (hp : s.task p = some (c, .write t n))
    (hclock : h'.clock = h.clock) (hmoments : ∀ q, h.moments q ⊆ h'.moments q) :
    Inv ((s.setBase (storeWord s.clock.base t n)).continue' p c
      (.goto (if n < 7 then .write t (n + 1) else .setUnlock t))).1 h' := by
  obtain ⟨hplan, hn, hstored⟩ := hi.fact p c _ hp
  have hplan' : Planned h' p t c := hplan.mono (fun _ => hclock) (hmoments p)
  have hstored' := hstored.step hn
  have howns : Owns s p := hi.owns p c _ hp (.inr rfl)
  split
  · next hlt =>
    refine hi.goto hp rfl rfl (.inr (.inl rfl)) (fun _ _ => id) (fun _ => howns) hclock hmoments
      (fun _ => .inl rfl) (hi.apart_of hp ?_ ?_) ⟨hplan', hlt, hstored'⟩
    · exact fun _ => .inl (.inr rfl)
    · exact fun _ => .inl rfl
  · next hlast =>
    have hlast' : n = 7 := by omega
    subst hlast'
    refine hi.goto hp rfl rfl (.inr (.inl rfl)) (fun _ _ => id) (fun _ => howns) hclock hmoments
      (fun _ => .inl rfl) (hi.apart_of hp ?_ ?_) ⟨hplan', hstored'.eq⟩
    · exact fun _ => .inl (.inr rfl)
    · exact fun _ => .inl rfl

theorem Inv.stored (hi : Inv s h) (hp : s.task p = some (c, .setUnlock t))
    (hclock : h'.clock = h.clock) (hmoments : ∀ q, h.moments q ⊆ h'.moments q) :
    Inv ((s.give p).continue' p c (.goto (.getTicks t))).1 h' := by
  obtain ⟨hplan, hbase⟩ := hi.fact p c _ hp
  have hplan' : Planned h' p t c := hplan.mono (fun _ => hclock) (hmoments p)
  obtain ⟨hsame, htask, -⟩ := give_fields (s := s) (p := p)
  refine hi.goto hp htask (by rw [hsame]) (.inl (by rw [hsame])) (fun q hqp => give_owns hqp) ?_
    hclock hmoments (fun _ => .inr rfl) (hi.apart_of hp ?_ ?_) ⟨hplan', by rw [hsame]; exact hbase⟩
  · simp [Phase.Holds, Phase.kind]
  · exact fun _ => .inl (.inr rfl)
  · exact fun _ => .inl rfl

theorem Inv.settle (hi : Inv s h) (hp : s.task p = some (c, .writeMoment t ticks))
    (hclock : h'.clock = ⟨t, ticks⟩) (hmoments : ∀ q, h.moments q ⊆ h'.moments q) :
    Inv ((s.setMoment ticks).continue' p c (.ret (.status .ok))).1 h' := by
  obtain ⟨hplan, hbase, -⟩ := hi.fact p c _ hp
  have hday : InDay t := (checkTime_ok hplan.check).2
  refine hi.next (p := p) (fun q hqp => Function.update_of_ne hqp ..) (fun _ _ => id) ?_
    (fun _ _ _ _ _ _ => rfl) (fun q _ => hmoments q) (by rw [hclock]; rfl)
    (by rw [hclock]; exact hday) ?_ ?_
  · intro q c' ph' hqp hq hrel
    exact absurd (.inr rfl) (hi.apart q p c' ph' c _ hqp hq hp hrel)
  · intro _
    rw [hclock]
    exact hbase
  · intro c' ph' hp'
    rw [show ((s.setMoment ticks).continue' p c (.ret (.status .ok))).1.task p = none from
      Function.update_self ..] at hp'
    cases hp'

theorem record_clock (hp : s.task p = some (c, ph)) (hlast : ∀ t ticks, ph ≠ .writeMoment t ticks) :
    (record s (.run p) s' h).clock = h.clock := by
  cases ph with
  | writeMoment t ticks => exact absurd rfl (hlast t ticks)
  | _ => simp only [record, settled, hp]

theorem Inv.run (hi : Inv s h) (ha : Undisturbed s (.run p)) (hp : s.task p = some (c, ph))
    {s₁ : ClockState} {nx : Next} (hinstr : s.instr p c ph = some (s₁, nx))
    (hs' : s' = (s₁.continue' p c nx).1) : Inv s' (record s (.run p) s' h) := by
  have hmom : ∀ q, h.moments q ⊆ (record s (.run p) s' h).moments q :=
    fun q => List.subset_cons_self ..
  have hnow : ((record s (.run p) s' h).clock, s'.ticks) ∈ (record s (.run p) s' h).moments p :=
    List.mem_cons_self
  have hfact := hi.fact p c ph hp
  have hclock : (∀ t ticks, ph ≠ .writeMoment t ticks) →
      (record s (.run p) s' h).clock = h.clock := record_clock hp
  simp only [Undisturbed, hp] at ha
  cases ph with
  | getTest =>
    cases hinstr
    subst hs'
    split
    · exact hi.quiet hp (hclock (by simp)) hmom rfl trivial
    · exact hi.quiet hp (hclock (by simp)) hmom rfl trivial
  | getInit =>
    cases hinstr
    subst hs'
    exact hi.created hp ha (hclock (by simp)) hmom (by simp [Phase.Holds, Phase.kind]) rfl trivial
  | getLock =>
    obtain ⟨s₁', htake, heq⟩ := Option.map_eq_some_iff.mp hinstr
    cases heq
    subst hs'
    have hlock := hi.lock htake ha
    refine hi.acquire hp htake (hclock (by simp)) hmom (by simp [Phase.Changes, Phase.kind]) ?_ trivial
    intro q c' ph' hqp hq
    refine ⟨fun _ => (hlock q c' ph' hqp hq).1, ?_⟩
    simp [Phase.Changes, Phase.kind]
  | readTicks =>
    cases hinstr
    subst hs'
    exact hi.quiet hp (hclock (by simp)) hmom rfl hnow
  | readMoment ticks =>
    cases hinstr
    subst hs'
    refine hi.quiet hp (hclock (by simp)) hmom rfl ?_
    rw [Fact, hclock (by simp)]
    exact ⟨Nat.zero_le 5, by simp [Loaded], ticks, hmom p hfact, by rw [hi.moment]⟩
  | read iSeconds n copy =>
    cases hinstr
    subst hs'
    exact hi.readWord hp (hclock (by simp)) hmom
  | getUnlock now =>
    subst hs'
    exact hi.leave hp hinstr (hclock (by simp)) hmom
  | setTest t =>
    have hplan : Planned (record s (.run p) s' h) p t c :=
      Planned.mono (fun _ => hclock (by simp)) (hmom p) hfact
    cases hinstr
    subst hs'
    split
    · exact hi.quiet hp (hclock (by simp)) hmom rfl hplan
    · exact hi.quiet hp (hclock (by simp)) hmom rfl hplan
  | setInit t =>
    have hplan : Planned (record s (.run p) s' h) p t c :=
      Planned.mono (fun _ => hclock (by simp)) (hmom p) hfact
    cases hinstr
    subst hs'
    exact hi.created hp ha (hclock (by simp)) hmom (by simp [Phase.Holds, Phase.kind]) rfl hplan
  | setLock t =>
    have hplan : Planned (record s (.run p) s' h) p t c :=
      Planned.mono (fun _ => hclock (by simp)) (hmom p) hfact
    obtain ⟨s₁', htake, heq⟩ := Option.map_eq_some_iff.mp hinstr
    cases heq
    subst hs'
    have hlock := hi.lock htake ha.1
    refine hi.acquire hp htake (hclock (by simp)) hmom (by simp [Phase.Changes, Phase.kind]) ?_
      ⟨hplan, Nat.zero_le 7, by simp [Stored]⟩
    intro q c' ph' hqp hq
    refine ⟨fun _ => (hlock q c' ph' hqp hq).1, fun _ hrel => ?_⟩
    obtain ⟨hsetter, hplans⟩ := (hlock q c' ph' hqp hq).2 hrel
    exact ha.2 q c' ph' hqp hq hsetter hplans
  | write t n =>
    cases hinstr
    subst hs'
    exact hi.writeWord hp (hclock (by simp)) hmom
  | setUnlock t =>
    cases hinstr
    subst hs'
    exact hi.stored hp (hclock (by simp)) hmom
  | getTicks t =>
    obtain ⟨hplan, hbase⟩ := hfact
    have hplan' : Planned (record s (.run p) s' h) p t c :=
      hplan.mono (fun _ => hclock (by simp)) (hmom p)
    cases hinstr
    subst hs'
    exact hi.quiet hp (hclock (by simp)) hmom rfl ⟨hplan', hbase, _, hnow⟩
  | writeMoment t ticks =>
    have hset : (record s (.run p) s' h).clock = ⟨t, ticks⟩ := by
      simp only [record, settled, hp]
    cases hinstr
    subst hs'
    exact hi.settle hp hset hmom

/-! ## Runs -/

theorem Inv.tick (hi : Inv s h) {s' : ClockState} (hs : s' = { s with ticks := ticks }) :
    Inv s' (record s .tick s' h) := by
  subst hs
  refine ⟨hi.owns, hi.apart, hi.moment, hi.base, hi.inDay, fun p c ph hp => ?_⟩
  have hmom : h.moments p ⊆ (record s .tick { s with ticks := ticks } h).moments p :=
    List.subset_cons_self ..
  exact Fact.mono (h := h) (fun _ => rfl) (fun _ => rfl) hmom (hi.fact p c ph hp)

theorem Inv.enter (hi : Inv s h) (hp : s.task p = none) (hclock : h'.clock = h.clock)
    (hmoments : ∀ q, q ≠ p → h.moments q ⊆ h'.moments q) (hrel : ¬ Relies c ph)
    (hfact : Fact s.clock.base h' p c ph) : Inv (s.continue' p c (.goto ph)).1 h' := by
  have hother : ∀ q, q ≠ p → (s.continue' p c (.goto ph)).1.task q = s.task q :=
    fun q hqp => Function.update_of_ne hqp ..
  refine hi.next hother (fun _ _ => id) (fun _ _ _ _ _ _ => hclock) (fun _ _ _ _ _ _ => rfl) hmoments
    (by rw [hclock]; exact hi.moment) (by rw [hclock]; exact hi.inDay) ?_ ?_
  · intro hnone
    rw [hclock]
    apply hi.base
    intro q c' ph' hq
    by_cases hqp : q = p
    · rw [hqp, hp] at hq
      cases hq
    · exact hnone q c' ph' ((hother q hqp).trans hq)
  · intro c' ph' hp'
    rw [show (s.continue' p c (.goto ph)).1.task p = some (c, ph) from
      Function.update_self ..] at hp'
    cases hp'
    exact ⟨fun hh => absurd (.inl hh) hrel, hfact, fun q c' ph' hqp hq =>
      ⟨fun hr => absurd hr hrel, fun hch => absurd (.inr (.inl hch)) hrel⟩⟩

theorem Inv.refuse (hi : Inv s h) (hp : s.task p = none) {r : ClockReply}
    (hclock : h'.clock = h.clock) (hmoments : ∀ q, q ≠ p → h.moments q ⊆ h'.moments q) :
    Inv (s.continue' p c (.ret r)).1 h' := by
  have hsame : (s.continue' p c (.ret r)).1 = s := by
    have htask : Function.update s.task p none = s.task := by
      rw [← hp]
      exact Function.update_eq_self p s.task
    simp only [ClockState.continue', htask]
  rw [hsame]
  refine hi.next (p := p) (fun _ _ => rfl) (fun _ _ => id) (fun _ _ _ _ _ _ => hclock)
    (fun _ _ _ _ _ _ => rfl) hmoments (by rw [hclock]; exact hi.moment)
    (by rw [hclock]; exact hi.inDay) ?_ ?_
  · intro hnone
    rw [hclock]
    exact hi.base hnone
  · intro c' ph' hp'
    rw [hp] at hp'
    cases hp'

theorem Inv.call (hi : Inv s h) (hp : s.task p = none)
    (hs : s' = (s.continue' p c (ClockState.begin c)).1) : Inv s' (record s (.call p c) s' h) := by
  have hmom : ∀ q, q ≠ p → h.moments q ⊆ (record s (.call p c) s' h).moments q := by
    intro q hqp
    simp only [record, if_neg (Ne.symm hqp)]
    exact List.subset_cons_self ..
  generalize hh : record s (.call p c) s' h = h' at hmom
  have hclock : h'.clock = h.clock := by rw [← hh]; rfl
  subst hs
  cases c with
  | timeGet =>
    exact hi.enter hp hclock hmom (by simp [Relies, Phase.Holds, Phase.Changes, Phase.kind]) trivial
  | setField f v =>
    exact hi.enter hp hclock hmom (by simp [Relies, Phase.Holds, Phase.Changes, Phase.kind]) trivial
  | timeSet t =>
    rw [ClockState.begin, ClockState.beginSet]
    cases hcheck : checkTime t with
    | error => exact hi.refuse hp hclock hmom
    | ok =>
      exact hi.enter hp hclock hmom
        (by simp [Relies, Phase.Holds, Phase.Changes, Phase.kind, ClockCall.IsSetter]) ⟨hcheck, rfl⟩

theorem Inv.step {r : Option ClockReply} (hi : Inv s h) (ha : Undisturbed s a)
    (hs : s.exec a = some (s', r)) : Inv s' (record s a s' h) := by
  cases a with
  | tick =>
    cases hs
    exact hi.tick rfl
  | call p c =>
    cases hp : s.task p with
    | none =>
      simp only [ClockState.exec, hp, Option.some.injEq] at hs
      exact hi.call hp (by rw [hs])
    | some x =>
      simp only [ClockState.exec, hp] at hs
      cases hs
  | run p =>
    cases hp : s.task p with
    | none =>
      simp only [ClockState.exec, hp] at hs
      cases hs
    | some x =>
      obtain ⟨c, ph⟩ := x
      simp only [ClockState.exec, hp] at hs
      obtain ⟨⟨s₁, nx⟩, hinstr, heq⟩ := Option.map_eq_some_iff.mp hs
      exact hi.run ha hp hinstr (by rw [heq])

theorem Inv.start : Inv (.start ticks) ⟨.boot, fun _ => []⟩ := by
  have hidle : ∀ p c ph, (ClockState.start ticks).task p ≠ some (c, ph) := fun p c ph hp => by cases hp
  exact ⟨fun p c ph hp => absurd hp (hidle p c ph),
    fun p q c ph c' ph' _ hp => absurd hp (hidle p c ph), rfl, fun _ => rfl,
    ⟨by decide, by decide, by decide⟩, fun p c ph hp => absurd hp (hidle p c ph)⟩

theorem reachable_inv {x : ClockState × History}
    (h : Reachable recorded (fun x a => Undisturbed x.1 a) x) : Inv x.1 x.2 := by
  apply h.invariant
  · rintro ⟨s, h⟩ ⟨⟨ticks, -, rfl⟩, rfl⟩
    exact .start
  · rintro ⟨s, h⟩ a ⟨s', h'⟩ hi ha ⟨⟨r, hs⟩, hrec⟩
    simp only at hrec
    rw [hrec]
    exact hi.step ha hs

/-- The field of a time that a setter assigns. -/
def Field.value (t : TimeSocket) : Field → ℤ
  | year => t.iYear
  | month => t.iMon
  | day => t.iDay
  | hour => t.iHour
  | minute => t.iMin
  | second => t.iSec

theorem Field.value_assign (f g : Field) (v : ℤ) :
    g.value (f.assign v t) = if g = f then v else g.value t := by
  cases f <;> cases g <;> rfl

theorem Field.value_reading {clock : Clock} (hday : InDay clock.base)
    (hzero : elapsedSeconds ticks clock.setMomentTicks = 0) (g : Field) :
    g.value (clock.reading ticks) = g.value clock.base := by
  obtain ⟨hhour, hmin, hsec⟩ := hday
  have hcarry : ∀ base modulus : ℤ, base < modulus → carried base 0 modulus = (base, 0) := by
    intro base modulus hlt
    rw [carried, Int.zero_tmod, Int.add_zero, if_neg (by omega)]
  have hsame : clock.calculateNowTime ticks clock.base = clock.base := by
    rw [Clock.calculateNowTime, hzero, calculate]
    simp only [hcarry clock.base.iSec 60 (by omega), Int.zero_tdiv, Int.add_zero,
      hcarry clock.base.iMin 60 (by omega), hcarry clock.base.iHour 24 (by omega)]
    rfl
  rw [Clock.reading, Clock.timeGet, hsame]
  cases g <;> rfl

/-- What the calls do, they do at one moment of the call. -/
structure Atomic (s : ClockState) (h : History) : Prop where
  /-- A reading is that of the clock at a moment of the call. -/
  get : ∀ p s' now, s.exec (.run p) = some (s', some (.time now)) →
    ∃ m ∈ h.moments p, now = m.1.reading m.2
  /-- A call that sets the clock sets it to the time it was called with, and the ticks are those
  of a moment of the call. -/
  set : ∀ p t' t ticks, s.task p = some (.timeSet t', .writeMoment t ticks) →
    t = t' ∧ ∃ m ∈ h.moments p, m.2 = ticks
  /-- A setter keeps the fields of the clock that is set just before it. -/
  update : ∀ p f v t ticks, s.task p = some (.setField f v, .writeMoment t ticks) →
    (∃ m ∈ h.moments p, m.2 = ticks) ∧ ∃ m ∈ h.moments p, m.1 = h.clock ∧
      (∀ g : Field, g.value t = if g = f then v else g.value (h.clock.reading m.2)) ∧
      (elapsedSeconds m.2 h.clock.setMomentTicks = 0 →
        ∀ g : Field, g.value t = if g = f then v else g.value h.clock.base)

theorem instr_time {s₁ : ClockState} (hs : s.instr p c ph = some (s₁, .ret (.time now))) :
    ∃ now', ph = .getUnlock now' ∧ now = updateWeekday now' := by
  cases ph with
  | getUnlock now' =>
    refine ⟨now', rfl, ?_⟩
    cases c with
    | timeGet =>
      cases hs
      rfl
    | timeSet t =>
      cases hs
      rfl
    | setField f v =>
      simp only [ClockState.instr, ClockState.beginSet] at hs
      split at hs <;> cases hs
  | getLock =>
    obtain ⟨s₂, -, heq⟩ := Option.map_eq_some_iff.mp hs
    cases heq
  | setLock t =>
    obtain ⟨s₂, -, heq⟩ := Option.map_eq_some_iff.mp hs
    cases heq
  | _ => cases hs

theorem Inv.atomic (hi : Inv s h) : Atomic s h := by
  refine ⟨fun p s' now hs => ?_, fun p t' t ticks hp => ?_, fun p f v t ticks hp => ?_⟩
  · cases hp : s.task p with
    | none =>
      simp only [ClockState.exec, hp] at hs
      cases hs
    | some x =>
      obtain ⟨c, ph⟩ := x
      simp only [ClockState.exec, hp] at hs
      obtain ⟨⟨s₁, nx⟩, hinstr, heq⟩ := Option.map_eq_some_iff.mp hs
      have hnx : nx = .ret (.time now) := by
        cases nx with
        | goto ph' => cases heq
        | ret r => rw [Option.some.inj (Prod.mk.inj heq).2]
      rw [hnx] at hinstr
      obtain ⟨now', rfl, rfl⟩ := instr_time hinstr
      obtain ⟨ticks, hmem, hreading⟩ := hi.fact p _ _ hp
      exact ⟨_, hmem, hreading⟩
  · obtain ⟨hplan, -, clock, hmem⟩ := hi.fact p _ _ hp
    exact ⟨hplan.origin, _, hmem, rfl⟩
  · obtain ⟨⟨-, k, hk, ht⟩, -, clock, hmem⟩ := hi.fact p _ _ hp
    refine ⟨⟨_, hmem, rfl⟩, _, hk, rfl, fun g => ?_, fun hzero g => ?_⟩
    · rw [ht, Field.value_assign]
    · rw [ht, Field.value_assign, Field.value_reading hi.inDay hzero]

/-- In a run in which the mutex is taken at no wrong moment, every call reads or sets the clock
at one moment. -/
theorem clock_atomic {x : ClockState × History}
    (h : Reachable recorded (fun x a => Undisturbed x.1 a) x) : Atomic x.1 x.2 :=
  (reachable_inv h).atomic

/-! ## One task alone -/

def Alone (s : ClockState) (p : TaskId) : Prop := ∀ q, q ≠ p → s.task q = none

def createsAgain (s : ClockState) (p : TaskId) : Bool :=
  match s.task p with
  | some (_, .getInit) | some (_, .setInit _) => s.mutex ≠ none
  | _ => false

def runAlone (p : TaskId) : ℕ → ClockState × History → Option (ClockState × History)
  | 0, x => some x
  | n + 1, x =>
    if createsAgain x.1 p then none
    else (x.1.exec (.run p)).bind fun r => runAlone p n (r.1, record x.1 (.run p) r.1 x.2)

theorem Alone.undisturbed (hs : Alone s p) (hc : ¬ createsAgain s p = true) :
    Undisturbed s (.run p) := by
  have hhalf : NoneHalfSet s p := fun q c ph hqp hq => by
    rw [hs q hqp] at hq
    cases hq
  have hplans : NonePlans s p := fun q c ph hqp hq => by
    rw [hs q hqp] at hq
    cases hq
  rw [Undisturbed]
  split
  · next hp => simpa [createsAgain, hp] using hc
  · next hp => simpa [createsAgain, hp] using hc
  · exact hhalf
  · exact ⟨hhalf, hplans⟩
  · trivial

theorem instr_task {s₁ : ClockState} {nx : Next} (hs : s.instr p c ph = some (s₁, nx)) :
    s₁.task = s.task := by
  cases ph with
  | getLock =>
    obtain ⟨s₂, htake, heq⟩ := Option.map_eq_some_iff.mp hs
    obtain ⟨m, -, -, rfl⟩ := take_some htake
    cases heq
    rfl
  | setLock t =>
    obtain ⟨s₂, htake, heq⟩ := Option.map_eq_some_iff.mp hs
    obtain ⟨m, -, -, rfl⟩ := take_some htake
    cases heq
    rfl
  | getUnlock now =>
    cases hs
    exact give_fields.2.1
  | setUnlock t =>
    cases hs
    exact give_fields.2.1
  | _ =>
    cases hs
    rfl

theorem Alone.exec {r : Option ClockReply} (hs : Alone s p) (he : s.exec (.run p) = some (s', r)) :
    Alone s' p := by
  intro q hqp
  cases hp : s.task p with
  | none =>
    simp only [ClockState.exec, hp] at he
    cases he
  | some x =>
    obtain ⟨c, ph⟩ := x
    simp only [ClockState.exec, hp] at he
    obtain ⟨⟨s₁, nx⟩, hinstr, heq⟩ := Option.map_eq_some_iff.mp he
    have hsame : s'.task q = s₁.task q := by
      rw [← (Prod.mk.inj heq).1]
      cases nx <;> exact Function.update_of_ne hqp ..
    rw [hsame, instr_task hinstr]
    exact hs q hqp

theorem runAlone_reachable {x y : ClockState × History}
    (hx : Reachable recorded (fun x a => Undisturbed x.1 a) x) (halone : Alone x.1 p)
    (h : runAlone p n x = some y) : Reachable recorded (fun x a => Undisturbed x.1 a) y := by
  induction n generalizing x with
  | zero =>
    cases h
    exact hx
  | succ n ih =>
    rw [runAlone] at h
    split at h
    · cases h
    · next hc =>
      obtain ⟨⟨s', r⟩, hexec, hrest⟩ := Option.bind_eq_some_iff.mp h
      exact ih (hx.step (halone.undisturbed hc) ⟨⟨r, hexec⟩, rfl⟩) (halone.exec hexec) hrest

def setHour : ClockState × History :=
  let s := ClockState.start 700
  let s' := (s.continue' 0 (.setField .hour 5) (ClockState.begin (.setField .hour 5))).1
  (s', record s (.call 0 (.setField .hour 5)) s' ⟨.boot, fun _ => []⟩)

theorem setHour_stores : (runAlone 0 24 setHour).map (fun x => x.1.task 0) =
    some (some (.setField .hour 5, .writeMoment ⟨1970, 1, 1, 5, 0, 7, 4, 0⟩ 700)) := by rfl

theorem setHour_reachable : Reachable recorded (fun x a => Undisturbed x.1 a) setHour :=
  Reachable.step (s := (.start 700, ⟨.boot, fun _ => []⟩)) (a := .call 0 (.setField .hour 5))
    (.init ⟨⟨700, by decide, rfl⟩, rfl⟩) trivial ⟨⟨none, rfl⟩, rfl⟩

theorem clock_atomic_setHour : ∃ x : ClockState × History,
    x.1.task 0 = some (.setField .hour 5, .writeMoment ⟨1970, 1, 1, 5, 0, 7, 4, 0⟩ 700) ∧
      Atomic x.1 x.2 := by
  obtain ⟨x, hrun, htask⟩ := Option.map_eq_some_iff.mp setHour_stores
  have halone : Alone setHour.1 0 := fun q hq => Function.update_of_ne hq ..
  exact ⟨x, htask, clock_atomic (runAlone_reachable setHour_reachable halone hrun)⟩

/-! ## A reading between the two assignments -/

def replay (x : ClockState × History) : List ClockAct → Option (ClockState × History)
  | [] => some x
  | a :: as => (x.1.exec a).bind fun r => replay (r.1, record x.1 a r.1 x.2) as

theorem replay_reachable {x y : ClockState × History} {as : List ClockAct}
    (hx : Reachable recorded (fun _ _ => True) x) (h : replay x as = some y) :
    Reachable recorded (fun _ _ => True) y := by
  induction as generalizing x with
  | nil =>
    cases h
    exact hx
  | cons a as ih =>
    obtain ⟨⟨s', r⟩, hexec, hrest⟩ := Option.bind_eq_some_iff.mp h
    exact ih (hx.step trivial ⟨⟨r, hexec⟩, rfl⟩) hrest

def newYear2000 : TimeSocket := ⟨2000, 1, 1, 0, 0, 0, 0, 0⟩

/-- A task sets the clock and gives the mutex back, and another one reads the clock: all but
its last instruction. -/
def halfSetSteps : List ClockAct :=
  .call 0 (.timeSet newYear2000) :: List.replicate 12 (.run 0) ++
    .call 1 .timeGet :: List.replicate 10 (.run 1)

def beforeSet : ClockState × History := (.start 100, ⟨.boot, fun _ => []⟩)

/-- The reading is one second behind the time that is set, at the moment when it is set. -/
theorem halfSet_reading :
    (replay beforeSet halfSetSteps).map (fun x => ((x.1.exec (.run 1)).map (fun r => r.2),
      (x.2.moments 1).map (fun m => m.1.reading m.2))) =
    some (some (some (.time ⟨2000, 1, 1, 0, 0, 1, 6, 0⟩)),
      List.replicate 11 ⟨1970, 1, 1, 0, 0, 1, 4, 0⟩) := by decide

theorem halfSet_not_atomic : ∃ x : ClockState × History,
    Reachable recorded (fun _ _ => True) x ∧ ¬ Atomic x.1 x.2 := by
  obtain ⟨x, hreplay, hx⟩ := Option.map_eq_some_iff.mp halfSet_reading
  refine ⟨x, replay_reachable (.init ⟨⟨100, by decide, rfl⟩, rfl⟩) hreplay, fun hatomic => ?_⟩
  obtain ⟨hreply, hreadings⟩ := Prod.mk.inj hx
  obtain ⟨⟨s', r⟩, hexec, hr⟩ := Option.map_eq_some_iff.mp hreply
  simp only at hr
  subst hr
  obtain ⟨m, hmem, hnow⟩ := hatomic.get 1 s' _ hexec
  have hmem' : m.1.reading m.2 ∈ (x.2.moments 1).map (fun m => m.1.reading m.2) :=
    List.mem_map_of_mem hmem
  rw [hreadings, ← hnow] at hmem'
  exact absurd (List.eq_of_mem_replicate hmem') (by decide)

end DfewOS.TimeLib
