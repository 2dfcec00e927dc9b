import DfewOS.Gregorian
import DfewOS.TimeLib

/-!
# The software clock and the calendar

A time of the clock is a date of the Gregorian calendar and a time of the day. The seconds
since the first day of the calendar are a number in mixed radix, and the day-by-day steps of
`addDays` carry its days over to the date.
-/

namespace DfewOS.TimeLib
open Gregorian (Date)
open Dlist (OsStatus)

def date (t : TimeSocket) : Date := ⟨t.iYear.toNat, t.iMon.toNat, t.iDay.toNat⟩

structure OnCalendar (t : TimeSocket) : Prop where
  iYear : 1 ≤ t.iYear
  iMon : 1 ≤ t.iMon ∧ t.iMon ≤ 12
  iDay : 1 ≤ t.iDay ∧ t.iDay ≤ monthDays t.iYear t.iMon

structure InDay (t : TimeSocket) : Prop where
  iHour : 0 ≤ t.iHour ∧ t.iHour ≤ 23
  iMin : 0 ≤ t.iMin ∧ t.iMin ≤ 59
  iSec : 0 ≤ t.iSec ∧ t.iSec ≤ 59

def seconds (t : TimeSocket) : ℤ :=
  (date t).dayNumber * 86400 + t.iHour * 3600 + t.iMin * 60 + t.iSec

variable {t t' u : TimeSocket} {clock : Clock} {iDays iSeconds base n modulus : ℤ} {m k : ℕ}

/-! ## Dates -/

theorem isLeapyear_iff (y : ℕ) : isLeapyear y = true ↔ Gregorian.IsLeap y := by
  simp only [isLeapyear, Gregorian.IsLeap, Bool.or_eq_true, Bool.and_eq_true, decide_eq_true_eq]
  have h400 : (y : ℤ).tmod 400 = (y % 400 : ℕ) := by rw [Int.tmod_eq_emod_of_nonneg (by omega)]; rfl
  have h100 : (y : ℤ).tmod 100 = (y % 100 : ℕ) := by rw [Int.tmod_eq_emod_of_nonneg (by omega)]; rfl
  have h4 : (y : ℤ).tmod 4 = (y % 4 : ℕ) := by rw [Int.tmod_eq_emod_of_nonneg (by omega)]; rfl
  rw [h400, h100, h4]
  omega

theorem monthDays_eq (y : ℕ) (hm : 1 ≤ m ∧ m ≤ 12) :
    monthDays y m = Gregorian.monthLength y m := by
  obtain ⟨hlo, hhi⟩ := hm
  have hleap := isLeapyear_iff y
  interval_cases m <;> simp [monthDays, Gregorian.monthLength]
  by_cases h : Gregorian.IsLeap y
  · rw [if_pos (hleap.mpr h), if_pos h]
  · rw [if_neg (fun hl => h (hleap.mp hl)), if_neg h]

theorem OnCalendar.nat (h : OnCalendar t) :
    t.iYear = (date t).year ∧ t.iMon = (date t).month ∧ t.iDay = (date t).day ∧
      monthDays t.iYear t.iMon = Gregorian.monthLength (date t).year (date t).month := by
  have hyear : t.iYear = (date t).year := (Int.toNat_of_nonneg (by have := h.iYear; omega)).symm
  have hmon : t.iMon = (date t).month := (Int.toNat_of_nonneg (by have := h.iMon; omega)).symm
  have hday : t.iDay = (date t).day := (Int.toNat_of_nonneg (by have := h.iDay; omega)).symm
  refine ⟨hyear, hmon, hday, ?_⟩
  have hrange := h.iMon
  rw [hyear, hmon]
  exact monthDays_eq _ (by omega)

theorem OnCalendar.valid (h : OnCalendar t) : (date t).Valid := by
  obtain ⟨hyear, hmon, hday, hlength⟩ := h.nat
  have hmonth := h.iMon
  have hdays := h.iDay
  rw [hlength] at hdays
  exact ⟨by omega, by omega⟩

theorem OnCalendar.addDay (h : OnCalendar t) :
    OnCalendar (addDay t) ∧ date (addDay t) = (date t).next := by
  obtain ⟨hyear, hmon, hday, hlength⟩ := h.nat
  obtain ⟨hyear₁, ⟨hmon₁, hmon₂⟩, hday₁, hday₂⟩ := h
  rw [TimeLib.addDay, Date.next]
  by_cases hday' : t.iDay < monthDays t.iYear t.iMon
  · rw [if_pos hday', if_pos (show (date t).day < _ by omega)]
    exact ⟨⟨hyear₁, ⟨hmon₁, hmon₂⟩, by dsimp only; omega⟩,
      Date.ext rfl rfl (show (t.iDay + 1).toNat = t.iDay.toNat + 1 by omega)⟩
  · rw [if_neg hday', if_neg (show ¬ (date t).day < _ by omega)]
    by_cases hmon' : t.iMon + 1 = 13
    · rw [if_pos hmon', if_neg (show ¬ (date t).month < 12 by omega)]
      refine ⟨⟨by dsimp only; omega, by dsimp only; omega, ?_⟩,
        Date.ext (show (t.iYear + 1).toNat = t.iYear.toNat + 1 by omega) rfl rfl⟩
      have hlen : monthDays (t.iYear + 1) 1 = 31 := rfl
      dsimp only
      omega
    · rw [if_neg hmon', if_pos (show (date t).month < 12 by omega)]
      have hlen : monthDays t.iYear (t.iMon + 1) =
          Gregorian.monthLength (date t).year ((date t).month + 1) := by
        have hnext := monthDays_eq (date t).year (m := (date t).month + 1) (by omega)
        rwa [Int.natCast_add, Int.natCast_one, ← hyear, ← hmon] at hnext
      have hpos : 28 ≤ Gregorian.monthLength (date t).year ((date t).month + 1) :=
        Gregorian.monthLength_pos (by omega)
      refine ⟨⟨hyear₁, by dsimp only; omega, ?_⟩,
        Date.ext rfl (show (t.iMon + 1).toNat = t.iMon.toNat + 1 by omega) rfl⟩
      dsimp only
      omega

theorem OnCalendar.addDays (h : OnCalendar t) :
    OnCalendar (addDays t iDays) ∧ date (addDays t iDays) = Date.next^[iDays.toNat] (date t) := by
  rw [TimeLib.addDays]
  induction iDays.toNat with
  | zero => exact ⟨h, rfl⟩
  | succ n ih =>
    rw [Function.iterate_succ_apply', Function.iterate_succ_apply']
    obtain ⟨hcal, hdate⟩ := ih.1.addDay
    exact ⟨hcal, by rw [hdate, ih.2]⟩

theorem addMonths_eq (y : ℕ) (hm : m ≤ 12) :
    addMonths y m n = n + Gregorian.daysBeforeMonth y (m + 1) := by
  induction m generalizing n with
  | zero => exact (Int.add_zero n).symm
  | succ m ih =>
    have hmonth := monthDays_eq y (show 1 ≤ m + 1 ∧ m + 1 ≤ 12 by omega)
    have hnext : Gregorian.daysBeforeMonth y (m + 1 + 1) =
      Gregorian.daysBeforeMonth y (m + 1) + Gregorian.monthLength y (m + 1) := rfl
    rw [Int.natCast_add, Int.natCast_one] at hmonth
    rw [addMonths, ih (by omega), hmonth, hnext, Int.natCast_add]
    omega

theorem addDay_time : (addDay t).iHour = t.iHour ∧ (addDay t).iMin = t.iMin ∧
    (addDay t).iSec = t.iSec := by
  rw [addDay]
  split
  · exact ⟨rfl, rfl, rfl⟩
  · split <;> exact ⟨rfl, rfl, rfl⟩

theorem addDays_time : (addDays t iDays).iHour = t.iHour ∧ (addDays t iDays).iMin = t.iMin ∧
    (addDays t iDays).iSec = t.iSec := by
  rw [addDays]
  induction iDays.toNat with
  | zero => exact ⟨rfl, rfl, rfl⟩
  | succ n ih =>
    rw [Function.iterate_succ_apply']
    obtain ⟨hhour, hmin, hsec⟩ := addDay_time (t := addDay^[n] t)
    exact ⟨hhour.trans ih.1, hmin.trans ih.2.1, hsec.trans ih.2.2⟩

/-! ## Carries -/

theorem carried_eq (hbase : 0 ≤ base ∧ base < modulus) (hn : 0 ≤ n) :
    (carried base n modulus).1 = (base + n) % modulus ∧
      n.tdiv modulus + (carried base n modulus).2 = (base + n) / modulus := by
  have hmod : n.tmod modulus = n % modulus := Int.tmod_eq_emod_of_nonneg hn
  have hdiv : n.tdiv modulus = n / modulus := Int.tdiv_eq_ediv_of_nonneg hn
  have hpos : 0 < modulus := by omega
  have hsplit := Int.emod_add_mul_ediv n modulus
  have hlt := Int.emod_lt_of_pos n hpos
  have hnonneg := Int.emod_nonneg n (Int.ne_of_gt hpos)
  rw [carried, hmod, hdiv]
  split
  · next hcarry =>
    obtain ⟨-, hrest⟩ : (base + n % modulus) / modulus = 1 ∧
        (base + n % modulus) % modulus = base + n % modulus - modulus :=
      (Int.ediv_emod_unique hpos).mpr ⟨by omega, by omega, by omega⟩
    obtain ⟨hquot, hwhole⟩ : (base + n) / modulus = n / modulus + 1 ∧
        (base + n) % modulus = base + n % modulus - modulus :=
      (Int.ediv_emod_unique hpos).mpr ⟨by rw [Int.mul_add]; omega, by omega, by omega⟩
    exact ⟨by rw [Int.tmod_eq_emod_of_nonneg (by omega), hrest, hwhole], hquot.symm⟩
  · next hfits =>
    obtain ⟨hquot, hwhole⟩ : (base + n) / modulus = n / modulus ∧
        (base + n) % modulus = base + n % modulus :=
      (Int.ediv_emod_unique hpos).mpr ⟨by omega, by omega, by omega⟩
    exact ⟨hwhole.symm, by rw [hquot]; exact Int.add_zero _⟩

/-! ## The time now -/

theorem calculate_spec (hcal : OnCalendar t) (hday : InDay t) (hn : 0 ≤ iSeconds) :
    OnCalendar (calculate t iSeconds u) ∧ InDay (calculate t iSeconds u) ∧
      seconds (calculate t iSeconds u) = seconds t + iSeconds := by
  obtain ⟨hhour, hmin, hsec⟩ := hday
  obtain ⟨hsec₁, hsec₂⟩ := carried_eq (n := iSeconds) (show 0 ≤ t.iSec ∧ t.iSec < 60 by omega) hn
  obtain ⟨hmin₁, hmin₂⟩ := carried_eq (n := (t.iSec + iSeconds) / 60)
    (show 0 ≤ t.iMin ∧ t.iMin < 60 by omega) (by omega)
  obtain ⟨hhour₁, hhour₂⟩ := carried_eq (n := (t.iMin + (t.iSec + iSeconds) / 60) / 60)
    (show 0 ≤ t.iHour ∧ t.iHour < 24 by omega) (by omega)
  rw [calculate]
  simp only [hsec₁, hsec₂, hmin₁, hmin₂, hhour₁, hhour₂]
  generalize hstart : TimeSocket.mk _ _ _ _ _ _ _ _ = start
  generalize hdays : (t.iHour + (t.iMin + (t.iSec + iSeconds) / 60) / 60) / 24 = iDays
  have hstartCal : OnCalendar start := by
    subst hstart
    exact ⟨hcal.iYear, hcal.iMon, hcal.iDay⟩
  obtain ⟨hendCal, hdate⟩ : OnCalendar (addDays start iDays) ∧
      date (addDays start iDays) = Date.next^[iDays.toNat] (date start) := hstartCal.addDays
  obtain ⟨hhour', hmin', hsec'⟩ : (addDays start iDays).iHour = start.iHour ∧
      (addDays start iDays).iMin = start.iMin ∧ (addDays start iDays).iSec = start.iSec :=
    addDays_time
  have hnumber := (hstartCal.valid.iterate_next (n := iDays.toNat)).2
  have hsame : date start = date t := by
    subst hstart
    rfl
  refine ⟨hendCal, ?_, ?_⟩
  · subst hstart
    constructor
    · rw [hhour']
      dsimp only
      omega
    · rw [hmin']
      dsimp only
      omega
    · rw [hsec']
      dsimp only
      omega
  · rw [seconds, hdate, hnumber, hhour', hmin', hsec', hsame, seconds]
    subst hstart
    dsimp only
    push_cast
    omega

/-! ## The weekday -/

theorem date_updateWeekday : date (updateWeekday t) = date t := rfl

theorem seconds_updateWeekday : seconds (updateWeekday t) = seconds t := rfl

theorem OnCalendar.updateWeekday (h : OnCalendar t) : OnCalendar (updateWeekday t) :=
  ⟨h.iYear, h.iMon, h.iDay⟩

theorem InDay.updateWeekday (h : InDay t) : InDay (updateWeekday t) := ⟨h.iHour, h.iMin, h.iSec⟩

theorem updateWeekday_spec (h : OnCalendar t) :
    (updateWeekday t).iYday = (date t).dayNumber - (date t).firstOfYear.dayNumber ∧
      (updateWeekday t).iWday = (date t).weekday := by
  obtain ⟨hyear, hmon, hday, -⟩ := h.nat
  have hvalid := h.valid
  obtain ⟨m, hm⟩ := Nat.exists_eq_add_of_le' hvalid.month.1
  have hmonths : (t.iMon - 1).toNat = m := by omega
  have hfirst : (date t).firstOfYear.dayNumber = Gregorian.daysBeforeYear (date t).year + 1 := by
    have hnone : Gregorian.daysBeforeMonth (date t).year 1 = 0 := rfl
    simp only [Date.firstOfYear, Date.dayNumber, hnone]
  have hyday : (updateWeekday t).iYday =
      (t.iDay - 1) + Gregorian.daysBeforeMonth (date t).year (date t).month := by
    have hrange := hvalid.month.2
    simp only [updateWeekday, updateDayOfYear]
    rw [hmonths, hyear, addMonths_eq _ (by omega), hm]
  have hnumber : (updateWeekday t).iYday =
      (date t).dayNumber - (date t).firstOfYear.dayNumber := by
    have hone := hvalid.day.1
    rw [hyday, hfirst, Date.dayNumber]
    omega
  refine ⟨hnumber, ?_⟩
  have hpos := h.iYear
  have hin := hvalid.in_year.1
  have hweek := Date.weekday_eq (d := date t) (n := (updateWeekday t).iYday.toNat)
    (show 1 ≤ (date t).year by omega) (by omega)
  obtain ⟨y, hy⟩ := Nat.exists_eq_add_of_le' (show 1 ≤ (date t).year by omega)
  have hbefore : t.iYear - 1 = (y : ℤ) := by omega
  have hnewYear : (t.iYear + (t.iYear - 1).tdiv 400 - (t.iYear - 1).tdiv 100 +
      (t.iYear - 1).tdiv 4).tmod 7 = ((y + 1 + y / 400 + y / 4 - y / 100) % 7 : ℕ) := by
    rw [hbefore, Int.tdiv_eq_ediv_of_nonneg (by omega), Int.tdiv_eq_ediv_of_nonneg (by omega),
      Int.tdiv_eq_ediv_of_nonneg (by omega), Int.tmod_eq_emod_of_nonneg (by omega)]
    omega
  have hdef : (updateWeekday t).iWday = ((t.iYear + (t.iYear - 1).tdiv 400 -
    (t.iYear - 1).tdiv 100 + (t.iYear - 1).tdiv 4).tmod 7 + (updateWeekday t).iYday).tmod 7 := rfl
  rw [hweek, hdef, hnewYear, hy, Nat.add_sub_cancel, Int.tmod_eq_emod_of_nonneg (by omega)]
  omega

/-! ## The clock -/

def SameTime (t u : TimeSocket) : Prop :=
  t.iYear = u.iYear ∧ t.iMon = u.iMon ∧ t.iDay = u.iDay ∧
    t.iHour = u.iHour ∧ t.iMin = u.iMin ∧ t.iSec = u.iSec

theorem seconds_inj (hcal : OnCalendar t) (hcal' : OnCalendar u) (hday : InDay t)
    (hday' : InDay u) (h : seconds t = seconds u) : SameTime t u := by
  obtain ⟨hhour, hmin, hsec⟩ := hday
  obtain ⟨hhour', hmin', hsec'⟩ := hday'
  simp only [seconds] at h
  have hnumber : (date t).dayNumber = (date u).dayNumber := by omega
  have hdate := Date.dayNumber_inj hcal.valid hcal'.valid hnumber
  obtain ⟨hyear, hmon, hday, -⟩ := hcal.nat
  obtain ⟨hyear', hmon', hday', -⟩ := hcal'.nat
  rw [hdate] at hyear hmon hday
  refine ⟨by omega, by omega, by omega, by omega, by omega, by omega⟩

theorem checkTime_ok (h : checkTime t = .ok) : OnCalendar t ∧ InDay t := by
  rw [checkTime] at h
  split at h
  · cases h
  · next hrange =>
    exact ⟨⟨by omega, by omega, by omega⟩, ⟨by omega, by omega, by omega⟩⟩

theorem elapsedSeconds_add {ticks e : ℕ} (hticks : ticks < 2 ^ 32) (he : e < 2 ^ 32) :
    elapsedSeconds ((ticks + e) % 2 ^ 32) ticks = (e / sysClkRate : ℕ) := by
  rw [elapsedSeconds]
  have hmod : ((ticks + e) % 2 ^ 32 + (2 ^ 32 - ticks)) % 2 ^ 32 = e := by omega
  rw [hmod]

/-- `now` is the only time that lies `iSeconds` behind `t`, with its weekday and its day in
the year. -/
structure IsBehind (iSeconds : ℤ) (t now : TimeSocket) : Prop where
  calendar : OnCalendar now
  inDay : InDay now
  seconds : seconds now = seconds t + iSeconds
  only : ∀ u, OnCalendar u → InDay u → TimeLib.seconds u = TimeLib.seconds t + iSeconds →
    SameTime u now
  iYday : now.iYday = (date now).dayNumber - (date now).firstOfYear.dayNumber
  iWday : now.iWday = (date now).weekday

/-- After `e` ticks the clock is `e / SYS_CLK_RATE` seconds behind the time it was set to. -/
theorem clock_calendar {clock' : Clock} {ticks e : ℕ} (hticks : ticks < 2 ^ 32) (he : e < 2 ^ 32)
    (hset : clock.timeSet ticks t = (clock', .ok)) (u : TimeSocket) :
    IsBehind (e / sysClkRate : ℕ) t (clock'.timeGet ((ticks + e) % 2 ^ 32) u) := by
  rw [Clock.timeSet] at hset
  cases hcheck : checkTime t with
  | error =>
    rw [hcheck] at hset
    cases hset
  | ok =>
    rw [hcheck] at hset
    cases hset
    obtain ⟨hcal, hday⟩ := checkTime_ok hcheck
    obtain ⟨hcal', hday', hseconds⟩ := calculate_spec (u := u) hcal hday
      (Int.natCast_nonneg (e / sysClkRate))
    obtain ⟨hyday, hwday⟩ := updateWeekday_spec hcal'
    rw [Clock.timeGet, Clock.calculateNowTime, elapsedSeconds_add hticks he]
    refine ⟨hcal'.updateWeekday, hday'.updateWeekday, ?_, fun v hv hvday hvsec => ?_, ?_, ?_⟩
    · rw [seconds_updateWeekday]
      exact hseconds
    · apply seconds_inj hv hcal'.updateWeekday hvday hday'.updateWeekday
      rw [hvsec, seconds_updateWeekday, hseconds]
    · rw [date_updateWeekday]
      exact hyday
    · rw [date_updateWeekday]
      exact hwday

def beforeLeapDay : TimeSocket := ⟨2000, 2, 28, 23, 59, 58, 0, 0⟩

theorem clock_calendar_leap :
    IsBehind (8640200 / sysClkRate : ℕ) beforeLeapDay
        (Clock.timeGet ⟨beforeLeapDay, 2 ^ 32 - 100⟩ ((2 ^ 32 - 100 + 8640200) % 2 ^ 32)
          beforeLeapDay) ∧
      Clock.timeGet ⟨beforeLeapDay, 2 ^ 32 - 100⟩ ((2 ^ 32 - 100 + 8640200) % 2 ^ 32)
        beforeLeapDay = ⟨2000, 3, 1, 0, 0, 0, 3, 60⟩ :=
  ⟨clock_calendar (by decide) (by decide)
    (show Clock.boot.timeSet (2 ^ 32 - 100) beforeLeapDay = (⟨beforeLeapDay, 2 ^ 32 - 100⟩, .ok)
      by decide) beforeLeapDay, by decide⟩

end DfewOS.TimeLib
