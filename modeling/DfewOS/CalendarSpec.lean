import DfewOS.Calendar
import DfewOS.TimeLibSpec
import Mathlib.Tactic.Ring

/-!
# The window of months

The three months follow one another, and their weekdays are those of the calendar: the
first of a month comes as many days after the first of the month before as that month has,
and the closed formula of `timeLib.c` counts these days.
-/

namespace DfewOS.Calendar
open TimeLib (OnCalendar updateWeekday addMonths isLeapyear date)
open Transition (System Reachable Run)

/-! ## The weekday of the first day of a month -/

/-- The weekday of the first of a month, also in the years before 1: the formula of
`updateWeekday` with quotients that are rounded down. -/
def weekdayOfFirst (y m : ℤ) : ℤ :=
  (y + (y - 1) / 400 - (y - 1) / 100 + (y - 1) / 4 + addMonths y (m - 1).toNat 0) % 7

variable {y m : ℤ} {s : State}

theorem addMonths_add (y : ℤ) (k : ℕ) (d : ℤ) : addMonths y k d = addMonths y k 0 + d := by
  induction k generalizing d with
  | zero => simp [addMonths]
  | succ k ih =>
    rw [addMonths, addMonths, ih (d + _), ih (0 + _)]
    omega

theorem addMonths_succ (y : ℤ) (k : ℕ) :
    addMonths y (k + 1) 0 = addMonths y k 0 + TimeLib.monthDays y (k + 1) := by
  rw [addMonths, addMonths_add]
  omega

theorem isLeapyear_iff_emod (y : ℤ) :
    isLeapyear y = true ↔ y % 400 = 0 ∨ (y % 4 = 0 ∧ y % 100 ≠ 0) := by
  have h (k : ℤ) : y.tmod k = 0 ↔ y % k = 0 := by
    rw [← Int.dvd_iff_tmod_eq_zero, ← Int.dvd_iff_emod_eq_zero]
  simp only [isLeapyear, Bool.or_eq_true, Bool.and_eq_true, decide_eq_true_eq, h, ne_eq]

theorem monthDays_range (hm : 1 ≤ m ∧ m ≤ 12) : 28 ≤ monthDays y m ∧ monthDays y m ≤ 31 := by
  obtain ⟨hlo, hhi⟩ := hm
  interval_cases m <;> simp [monthDays, TimeLib.monthDays]
  split <;> omega

theorem leapDays_succ (y : ℤ) :
    y / 400 - y / 100 + y / 4 =
      (y - 1) / 400 - (y - 1) / 100 + (y - 1) / 4 + if isLeapyear y then 1 else 0 := by
  have hleap : (if isLeapyear y then (1 : ℤ) else 0) = (if y % 400 = 0 then 1 else 0) -
      (if y % 100 = 0 then 1 else 0) + if y % 4 = 0 then 1 else 0 := by
    simp only [isLeapyear_iff_emod]
    split_ifs <;> omega
  have h4 : y / 4 = (y - 1) / 4 + if y % 4 = 0 then 1 else 0 := by split <;> omega
  have h100 : y / 100 = (y - 1) / 100 + if y % 100 = 0 then 1 else 0 := by split <;> omega
  have h400 : y / 400 = (y - 1) / 400 + if y % 400 = 0 then 1 else 0 := by split <;> omega
  rw [h4, h100, h400, hleap]
  ring

theorem weekdayOfFirst_monthOn (hm : 1 ≤ m ∧ m ≤ 12) :
    weekdayOfFirst (monthOn y m).1 (monthOn y m).2 =
      (weekdayOfFirst y m + monthDays y m) % 7 := by
  by_cases hlast : m = 12
  · -- the days of a whole year, a leap day among them or not
    have hleap := leapDays_succ y
    have hyear : addMonths y 11 0 + monthDays y 12 = if isLeapyear y then 366 else 365 := by
      simp only [addMonths, monthDays, TimeLib.monthDays]
      cases isLeapyear y <;> rfl
    subst hlast
    have hon : monthOn y 12 = (y + 1, 1) := if_pos rfl
    have hzero : addMonths (y + 1) (1 - 1 : ℤ).toNat 0 = 0 := rfl
    have heleven : ((12 : ℤ) - 1).toNat = 11 := rfl
    simp only [hon, weekdayOfFirst, hzero, heleven, Int.add_sub_cancel]
    generalize (y - 1) / 4 = a, (y - 1) / 100 = b, (y - 1) / 400 = c at *
    generalize y / 4 = a', y / 100 = b', y / 400 = c' at *
    split_ifs at hleap hyear <;> omega
  · have hk : (m + 1 - 1).toNat = (m - 1).toNat + 1 := by omega
    have hm' : (((m - 1).toNat : ℕ) : ℤ) + 1 = m := by omega
    rw [monthOn, if_neg (by omega)]
    simp only [weekdayOfFirst, hk, addMonths_succ, hm', monthDays]
    omega

theorem monthOn_monthBack (hm : 1 ≤ m ∧ m ≤ 12) :
    monthOn (monthBack y m).1 (monthBack y m).2 = (y, m) := by
  unfold monthBack monthOn
  split
  · rename_i hfirst
    simp only [if_pos (show (12 : ℤ) + 1 = 13 by rfl), Prod.mk.injEq]
    omega
  · rw [if_neg (by simp only; omega)]
    simp

theorem monthBack_range (hm : 1 ≤ m ∧ m ≤ 12) :
    1 ≤ (monthBack y m).2 ∧ (monthBack y m).2 ≤ 12 := by
  unfold monthBack
  split <;> simp only <;> omega

theorem monthOn_range (hm : 1 ≤ m ∧ m ≤ 12) :
    1 ≤ (monthOn y m).2 ∧ (monthOn y m).2 ≤ 12 := by
  unfold monthOn
  split <;> simp only <;> omega

theorem weekdayOfFirst_range (y m : ℤ) : 0 ≤ weekdayOfFirst y m ∧ weekdayOfFirst y m < 7 := by
  unfold weekdayOfFirst
  omega

theorem next_weekday (hm : 1 ≤ m ∧ m ≤ 12) :
    (weekdayOfFirst y m + monthDays y m).tmod 7 =
      weekdayOfFirst (monthOn y m).1 (monthOn y m).2 := by
  have hdays := (monthDays_range (y := y) hm).1
  have hfirst := (weekdayOfFirst_range y m).1
  rw [weekdayOfFirst_monthOn hm, Int.tmod_eq_emod_of_nonneg (by omega)]

theorem prev_weekday (hm : 1 ≤ m ∧ m ≤ 12) :
    (weekdayOfFirst y m - monthDays (monthBack y m).1 (monthBack y m).2 + 35).tmod 7 =
      weekdayOfFirst (monthBack y m).1 (monthBack y m).2 := by
  have hback := monthBack_range (y := y) hm
  have hdays := monthDays_range (y := (monthBack y m).1) hback
  have hfirst := weekdayOfFirst_range y m
  have hprev := weekdayOfFirst_range (monthBack y m).1 (monthBack y m).2
  have hon := weekdayOfFirst_monthOn (y := (monthBack y m).1) hback
  rw [monthOn_monthBack hm] at hon
  rw [Int.tmod_eq_emod_of_nonneg (by omega)]
  simp only at hon
  omega

def firstOf (y m : ℤ) : TimeSocket := ⟨y, m, 1, 0, 0, 0, 0, 0⟩

theorem tdiv_eq_ediv (h : 1 ≤ y) (k : ℤ) : (y - 1).tdiv k = (y - 1) / k :=
  Int.tdiv_eq_ediv_of_nonneg (by omega)

theorem iWday_updateWeekday {t : TimeSocket} (h : OnCalendar t) :
    (updateWeekday t).iWday = (weekdayOfFirst t.iYear t.iMon + (t.iDay - 1)) % 7 := by
  have hyear := h.iYear
  have hday := h.iDay.1
  have hmonths : ∀ k : ℕ, 0 ≤ addMonths t.iYear k 0 := by
    intro k
    induction k with
    | zero => exact le_refl _
    | succ k ih =>
      have hpos : 0 ≤ TimeLib.monthDays t.iYear (k + 1) := by
        unfold TimeLib.monthDays
        split_ifs <;> omega
      rw [addMonths_succ]
      omega
  have hnonneg := hmonths (t.iMon - 1).toNat
  simp only [updateWeekday, TimeLib.updateDayOfYear, tdiv_eq_ediv hyear]
  have hyears : 0 ≤ t.iYear + (t.iYear - 1) / 400 - (t.iYear - 1) / 100 + (t.iYear - 1) / 4 := by
    omega
  rw [addMonths_add, weekdayOfFirst, Int.tmod_eq_emod_of_nonneg hyears,
    Int.tmod_eq_emod_of_nonneg (by omega)]
  omega

theorem weekdayOfFirst_eq (hy : 1 ≤ y) (hm : 1 ≤ m ∧ m ≤ 12) :
    weekdayOfFirst y m = (updateWeekday (firstOf y m)).iWday := by
  have hdays := (monthDays_range (y := y) hm).1
  have hcal : OnCalendar (firstOf y m) :=
    ⟨hy, hm, le_refl _, le_trans (by decide : (1 : ℤ) ≤ 28) hdays⟩
  have hrange := weekdayOfFirst_range y m
  have heq := iWday_updateWeekday hcal
  change (updateWeekday (firstOf y m)).iWday = (weekdayOfFirst y m + (1 - 1)) % 7 at heq
  omega

/-! ## The window over all runs -/

/-- The months follow one another, the weekdays are theirs and the pictures show them. -/
structure BlocksScreen.Window (b : BlocksScreen) : Prop where
  month : 1 ≤ b.curMonth ∧ b.curMonth ≤ 12
  prev : (b.prevYear, b.prevMonth) = monthBack b.curYear b.curMonth
  next : (b.nextYear, b.nextMonth) = monthOn b.curYear b.curMonth
  prevDay : b.prevFirstWeekDay = weekdayOfFirst b.prevYear b.prevMonth
  curDay : b.curFirstWeekDay = weekdayOfFirst b.curYear b.curMonth
  nextDay : b.nextFirstWeekDay = weekdayOfFirst b.nextYear b.nextMonth
  prevScr : b.prevMonthScr = some ⟨b.prevYear, b.prevMonth, b.prevFirstWeekDay⟩
  curScr : b.curMonthScr = some ⟨b.curYear, b.curMonth, b.curFirstWeekDay⟩
  nextScr : b.nextMonthScr = some ⟨b.nextYear, b.nextMonth, b.nextFirstWeekDay⟩

structure IsNow (t : TimeSocket) : Prop where
  onCalendar : OnCalendar t
  iWday : t.iWday = (updateWeekday t).iWday

theorem startFromThis_window {t : TimeSocket} (h : IsNow t) (s : State) :
    (startFromThis s t).blksScr.Window := by
  have hmon := h.onCalendar.iMon
  have hday := h.onCalendar.iDay.1
  have hrange := weekdayOfFirst_range t.iYear t.iMon
  have hwday := iWday_updateWeekday h.onCalendar
  rw [← h.iWday] at hwday
  have hfirst : (7 - (t.iDay - 1).tmod 7 + t.iWday).tmod 7 = weekdayOfFirst t.iYear t.iMon := by
    rw [Int.tmod_eq_emod_of_nonneg (by omega : 0 ≤ t.iDay - 1),
      Int.tmod_eq_emod_of_nonneg (by omega)]
    omega
  refine ⟨hmon, rfl, rfl, ?_, hfirst, ?_, rfl, rfl, rfl⟩
  · simp only [startFromThis, hfirst]
    exact prev_weekday hmon
  · simp only [startFromThis, hfirst]
    exact next_weekday hmon

theorem prevMonthTo_window (h : s.blksScr.Window) (pos : ℤ) :
    (prevMonthTo s pos).blksScr.Window := by
  unfold prevMonthTo
  split_ifs
  · have hback := monthBack_range (y := s.blksScr.curYear) h.month
    rw [← h.prev] at hback
    have hon := monthOn_monthBack (y := s.blksScr.curYear) h.month
    rw [← h.prev] at hon
    refine ⟨hback, rfl, hon.symm, ?_, h.prevDay, h.curDay, rfl, h.prevScr, h.curScr⟩
    simp only [h.prevDay]
    exact prev_weekday hback
  · exact h

theorem monthBack_monthOn {y m : ℤ} (hm : 1 ≤ m ∧ m ≤ 12) :
    monthBack (monthOn y m).1 (monthOn y m).2 = (y, m) := by
  by_cases hlast : m = 12
  · subst hlast
    simp [monthOn, monthBack]
  · have hlater : ¬ m + 1 - 1 = 0 := by omega
    rw [monthOn, if_neg (by omega), monthBack, if_neg hlater]
    simp

theorem nextMonthTo_window (h : s.blksScr.Window) (pos : ℤ) :
    (nextMonthTo s pos).blksScr.Window := by
  unfold nextMonthTo
  split_ifs
  · have hrange := monthOn_range (y := s.blksScr.curYear) h.month
    rw [← h.next] at hrange
    have hback := monthBack_monthOn (y := s.blksScr.curYear) h.month
    rw [← h.next] at hback
    refine ⟨hrange, hback.symm, rfl, h.curDay, h.nextDay, ?_, h.curScr, h.nextScr, rfl⟩
    simp only [h.nextDay]
    exact next_weekday hrange
  · exact h

/-- The application from its start on; "now" may be pressed at any time. -/
def system : System State Event where
  init s := ∃ t, IsNow t ∧ s = startFromThis cleared t
  step s e s' := (∀ t, e = .now t → IsNow t) ∧ s' = exec s e

theorem window_step {e : Event} {s' : State} (h : s.blksScr.Window) (hs : system.step s e s') :
    s'.blksScr.Window := by
  obtain ⟨hnow, rfl⟩ := hs
  cases e with
  | now t => exact startFromThis_window (hnow t rfl) s
  | prevMonthTo pos => exact prevMonthTo_window h pos
  | nextMonthTo pos => exact nextMonthTo_window h pos

theorem window (h : Reachable system (fun _ _ => True) s) : s.blksScr.Window := by
  apply Reachable.invariant (I := fun s => s.blksScr.Window) ?_ ?_ h
  · rintro s ⟨t, ht, rfl⟩
    exact startFromThis_window ht cleared
  · intro s e s' hw _ hs
    exact window_step hw hs

/-- Three consecutive months, and the weekdays of their first days are true. -/
structure State.Shows (s : State) : Prop where
  curMonth : 1 ≤ s.blksScr.curMonth ∧ s.blksScr.curMonth ≤ 12
  prev : monthOn s.blksScr.prevYear s.blksScr.prevMonth = (s.blksScr.curYear, s.blksScr.curMonth)
  next : monthOn s.blksScr.curYear s.blksScr.curMonth = (s.blksScr.nextYear, s.blksScr.nextMonth)
  prevDay : 1 ≤ s.blksScr.prevYear → s.blksScr.prevFirstWeekDay =
    (updateWeekday (firstOf s.blksScr.prevYear s.blksScr.prevMonth)).iWday
  curDay : 1 ≤ s.blksScr.curYear → s.blksScr.curFirstWeekDay =
    (updateWeekday (firstOf s.blksScr.curYear s.blksScr.curMonth)).iWday
  nextDay : 1 ≤ s.blksScr.nextYear → s.blksScr.nextFirstWeekDay =
    (updateWeekday (firstOf s.blksScr.nextYear s.blksScr.nextMonth)).iWday

/-- In every run, whatever the slides, for the months from the year 1 on. -/
theorem calendar_window (s : State) (h : Reachable system (fun _ _ => True) s) : s.Shows := by
  have hw := window h
  have hprev := monthBack_range (y := s.blksScr.curYear) hw.month
  have hnext := monthOn_range (y := s.blksScr.curYear) hw.month
  have hon := monthOn_monthBack (y := s.blksScr.curYear) hw.month
  rw [← hw.prev] at hprev hon
  rw [← hw.next] at hnext
  exact ⟨hw.month, hon, hw.next.symm,
    fun hy => hw.prevDay.trans (weekdayOfFirst_eq hy hprev),
    fun hy => hw.curDay.trans (weekdayOfFirst_eq hy hw.month),
    fun hy => hw.nextDay.trans (weekdayOfFirst_eq hy hnext)⟩

/-! ## Back to the years before 1 -/

def year1000 : TimeSocket := ⟨1000, 1, 1, 0, 0, 0, 3, 0⟩

theorem year1000_isNow : IsNow year1000 := by
  refine ⟨⟨by decide, by decide, by decide⟩, ?_⟩
  decide

theorem monthBack_index (y m : ℤ) :
    (monthBack y m).1 * 12 + (monthBack y m).2 = y * 12 + m - 1 := by
  unfold monthBack
  split <;> simp only <;> omega

theorem slides_back (n : ℕ) :
    ∃ s, Reachable system (fun _ _ => True) s ∧
      s.blksScr.curYear * 12 + s.blksScr.curMonth = 1000 * 12 + 1 - n := by
  induction n with
  | zero => exact ⟨_, Reachable.init ⟨year1000, year1000_isNow, rfl⟩, rfl⟩
  | succ n ih =>
    obtain ⟨s, hs, hcur⟩ := ih
    have hw := window hs
    have hindex := monthBack_index s.blksScr.curYear s.blksScr.curMonth
    rw [← hw.prev] at hindex
    have hstep : system.step s (.prevMonthTo (blksScrWidth - 1))
        (prevMonthTo s (blksScrWidth - 1)) := by
      refine ⟨?_, rfl⟩
      intro t ht
      cases ht
    refine ⟨_, hs.step trivial hstep, ?_⟩
    simp only [prevMonthTo, if_true]
    omega

/-- Fourteen months before January 1000. -/
theorem calendar_window_fourteen : ∃ s, Reachable system (fun _ _ => True) s ∧
    s.blksScr.curYear * 12 + s.blksScr.curMonth = 998 * 12 + 11 ∧ s.Shows := by
  obtain ⟨s, hs, hcur⟩ := slides_back 14
  exact ⟨s, hs, hcur, calendar_window s hs⟩

/-- December of the year 0 is reached, where the formula of `timeLib.c` rounds its quotients
towards zero and is a day ahead. -/
theorem december_of_year_0 :
    ∃ s, Reachable system (fun _ _ => True) s ∧ s.blksScr.prevFirstWeekDay ≠
      (updateWeekday (firstOf s.blksScr.prevYear s.blksScr.prevMonth)).iWday := by
  obtain ⟨s, hs, hcur⟩ := slides_back 11988
  have hw := window hs
  have hmonth := hw.month
  have hy : s.blksScr.curYear = 1 := by omega
  have hm : s.blksScr.curMonth = 1 := by omega
  have hprev : (s.blksScr.prevYear, s.blksScr.prevMonth) = (0, 12) := by
    rw [hw.prev, hy, hm]
    rfl
  obtain ⟨hprevYear, hprevMonth⟩ := Prod.mk.inj hprev
  refine ⟨s, hs, ?_⟩
  rw [hw.prevDay, hprevYear, hprevMonth]
  decide

end DfewOS.Calendar
