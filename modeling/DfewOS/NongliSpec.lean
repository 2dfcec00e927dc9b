import DfewOS.Gregorian
import DfewOS.Nongli
import DfewOS.Stretches
import Mathlib.Data.Nat.Cast.Basic
import Mathlib.Tactic.IntervalCases

/-!
# The lunar calendar goes on day by day

The months of a lunar year are consecutive stretches of days. Both loops find the place of
a day in them, the one from the first month on and the other from the last one back. What makes
the years meet is one equation for each entry of the table, between the days of the lunar year
and the days from its spring festival to the next (`check`). The first entry has none before it,
so there are no dates before the spring festival of 1901.
-/

namespace DfewOS.Nongli
open Gregorian
open Stretches (start Place)

structure Year where
  first : ℕ
  second : ℕ
  third : ℕ

namespace Year

def leap (Y : Year) : ℕ := Y.first >>> 4

/-- Whether the month has 30 days; the months are counted from 0, and a leap month counts. -/
def big (Y : Year) (i : ℕ) : Bool :=
  if i < 4 then Y.first &&& (0x10 >>> (i + 1)) ≠ 0
  else if i < 12 then Y.second &&& (0x100 >>> (i - 3)) ≠ 0
  else Y.third &&& 0x80 ≠ 0

def days (Y : Year) (i : ℕ) : ℕ := if Y.big i then 30 else 29

def count (Y : Year) : ℕ := if Y.leap = 0 then 12 else 13

def total (Y : Year) : ℕ := start Y.days Y.count

def festival (Y : Year) : ℕ :=
  (Y.third &&& 0x1f) - 1 + if (Y.third &&& 0x60) >>> 5 = 2 then 31 else 0

/-- The name of a month, which a leap month has from the month before it. -/
def yue (Y : Year) (i : ℕ) : ℤ := if Y.leap = 0 ∨ i < Y.leap then i + 1 else i

def run (Y : Year) (i : ℕ) : ℤ := if Y.leap ≠ 0 ∧ i = Y.leap then 1 else 0

def number (Y : Year) (yue isRun : ℤ) : ℕ :=
  (yue - 1).toNat + if isRun = 1 ∨ (Y.leap ≠ 0 ∧ Y.leap < yue) then 1 else 0

def date (Y : Year) (n : ℤ) (i r : ℕ) : NongliDate := ⟨n, Y.yue i, r + 1, Y.run i⟩

structure Ok (Y : Year) : Prop where
  leap : Y.leap ≤ 11
  day : 1 ≤ Y.third &&& 0x1f
  festival : 1 ≤ Y.festival ∧ Y.festival ≤ 60
  total : 60 ≤ Y.total

instance (Y : Year) : Decidable Y.Ok :=
  decidable_of_iff (Y.leap ≤ 11 ∧ 1 ≤ Y.third &&& 0x1f ∧ (1 ≤ Y.festival ∧ Y.festival ≤ 60) ∧
    60 ≤ Y.total) ⟨fun ⟨h, h', h'', h'''⟩ => ⟨h, h', h'', h'''⟩, fun ⟨h, h', h'', h'''⟩ =>
    ⟨h, h', h'', h'''⟩⟩

structure At (Y : Year) (t : ℤ) : Prop where
  first : code t = some Y.first
  second : code (t + 1) = some Y.second
  third : code (t + 2) = some Y.third
  range : 0 ≤ t ∧ t < 2 ^ 16

end Year

def NongliDate.next (Y : Year) (d : NongliDate) : NongliDate :=
  if d.ri < Y.days (Y.number d.yue d.isRun) then { d with ri := d.ri + 1 }
  else if d.isRun = 0 ∧ d.yue = Y.leap then { d with isRun := 1, ri := 1 }
  else if d.yue < 12 then ⟨d.nian, d.yue + 1, 1, 0⟩
  else ⟨d.nian + 1, 1, 1, 0⟩

section Months
variable {Y : Year} {t n : ℤ} {i r s o fuel : ℕ}

theorem days_range (Y : Year) (i : ℕ) : 29 ≤ Y.days i ∧ Y.days i ≤ 30 := by
  rw [Year.days]
  split_ifs <;> decide

theorem moonDays_at (h : Y.At t) (hi : i < 13) : moonDays (i + 1) t = some (Y.days i : ℤ) := by
  have hmoon : ((i + 1 : ℤ) % 2 ^ 8).toNat = i + 1 := by omega
  have hrange := h.range
  have haddr : t % 2 ^ 16 = t := by omega
  have hbig : isBigMoon (i + 1) t = some (Y.big i) := by
    simp only [isBigMoon, hmoon, haddr, Year.big]
    by_cases hfour : i < 4
    · rw [if_pos (by omega), if_pos hfour, h.first]
      rfl
    · rw [if_neg (by omega), if_neg hfour]
      by_cases htwelve : i < 12
      · rw [if_pos (by omega), if_pos htwelve, h.second]
        rfl
      · rw [if_neg (by omega), if_pos (by omega), if_neg htwelve, h.third]
        rfl
  rw [moonDays, hbig, Option.map_some, Year.days]
  split_ifs <;> rfl

def walkAt (Y : Year) (i s : ℕ) : Walk := ⟨s, Y.yue i, Y.run i, i + 1, Y.days i⟩

theorem yue_run_succ (Y : Year) (i s : ℕ) :
    (if (walkAt Y i s).yue = Y.leap then 1 - (walkAt Y i s).isRun else (walkAt Y i s).isRun) =
      Y.run (i + 1) ∧
    (if (walkAt Y i s).yue = Y.leap then
        (if Y.run (i + 1) = 0 then (walkAt Y i s).yue + 1 else (walkAt Y i s).yue)
      else (walkAt Y i s).yue + 1) = Y.yue (i + 1) := by
  simp only [walkAt, Year.yue, Year.run]
  push_cast
  constructor
  · split_ifs <;> omega
  · split_ifs <;> omega

theorem yue_run_pred (Y : Year) (i s : ℕ) :
    (if (walkAt Y (i + 1) s).isRun = 0 then (walkAt Y (i + 1) s).yue - 1
      else (walkAt Y (i + 1) s).yue) = Y.yue i ∧
    (if Y.yue i = Y.leap then 1 - (walkAt Y (i + 1) s).isRun else (walkAt Y (i + 1) s).isRun) =
      Y.run i := by
  simp only [walkAt, Year.yue, Year.run]
  push_cast
  constructor
  · split_ifs <;> omega
  · split_ifs <;> omega

theorem count_le (Y : Year) : Y.count ≤ 13 := by
  rw [Year.count]
  split_ifs <;> decide

theorem forward_step (h : Y.At t) (hi : i + 1 < 13) (hover : Y.days i ≤ s) :
    forward t Y.leap (fuel + 1) (walkAt Y i s) =
      forward t Y.leap fuel (walkAt Y (i + 1) (s - Y.days i)) := by
  obtain ⟨hrun, hyue⟩ := yue_run_succ Y i s
  have hmoon := moonDays_at h hi
  have hrest : ((s : ℤ) - Y.days i) = ((s - Y.days i : ℕ) : ℤ) := by omega
  have hcond : (walkAt Y i s).todayInterval ≥ (walkAt Y i s).moonDays := by
    simp only [walkAt]
    omega
  rw [Nat.cast_succ] at hmoon
  rw [forward, if_pos hcond]
  simp only [hrun, hyue]
  simp only [walkAt, hmoon, Option.bind_some, hrest, Nat.cast_succ]

theorem backward_step (h : Y.At t) (hi : i < 13) (hover : Y.days (i + 1) < s) :
    backward t Y.leap (fuel + 1) (walkAt Y (i + 1) s) =
      backward t Y.leap fuel (walkAt Y i (s - Y.days (i + 1))) := by
  obtain ⟨hyue, hrun⟩ := yue_run_pred Y i s
  have hmoon := moonDays_at h hi
  have hrest : ((s : ℤ) - Y.days (i + 1)) = ((s - Y.days (i + 1) : ℕ) : ℤ) := by omega
  have hback : ((i + 1 : ℕ) : ℤ) + 1 - 1 = i + 1 := by omega
  have hcond : (walkAt Y (i + 1) s).todayInterval > (walkAt Y (i + 1) s).moonDays := by
    simp only [walkAt]
    omega
  rw [backward, if_pos hcond]
  simp only [hrun, hyue]
  simp only [walkAt, hback, hmoon, Option.bind_some, hrest]

theorem forward_walks (h : Y.At t) (hi : i < Y.count) (hin : start Y.days i + s < Y.total)
    (hfuel : s < fuel) : ∃ i' r, forward t Y.leap fuel (walkAt Y i s) = some (walkAt Y i' r) ∧
      Place Y.days (start Y.days i + s) i' r := by
  induction fuel generalizing i s with
  | zero => exact absurd hfuel (Nat.not_lt_zero s)
  | succ fuel ih =>
    have hdays := (days_range Y i).1
    have hstart : start Y.days (i + 1) = start Y.days i + Y.days i := rfl
    by_cases hover : Y.days i ≤ s
    · have hnext : i + 1 < Y.count := by
        by_contra hlast
        have hcount : i + 1 = Y.count := by omega
        rw [Year.total, ← hcount] at hin
        omega
      have hsum : start Y.days (i + 1) + (s - Y.days i) = start Y.days i + s := by omega
      rw [forward_step h (Nat.lt_of_lt_of_le hnext (count_le Y)) hover, ← hsum]
      exact ih hnext (by omega) (by omega)
    · refine ⟨i, s, ?_, rfl, by omega⟩
      rw [forward, if_neg]
      simp only [walkAt]
      omega

theorem backward_walks (h : Y.At t) (hi : i < 13) (hs : 1 ≤ s) (hin : s ≤ start Y.days (i + 1))
    (hfuel : s < fuel) : ∃ i' s', backward t Y.leap fuel (walkAt Y i s) = some (walkAt Y i' s') ∧
      1 ≤ s' ∧ s' ≤ Y.days i' ∧ Place Y.days (start Y.days (i + 1) - s) i' (Y.days i' - s') := by
  induction fuel generalizing i s with
  | zero => exact absurd hfuel (Nat.not_lt_zero s)
  | succ fuel ih =>
    have hdays := (days_range Y i).1
    have hstart : start Y.days (i + 1) = start Y.days i + Y.days i := rfl
    by_cases hover : Y.days i < s
    · cases i with
      | zero =>
        have hzero : start Y.days 0 = 0 := rfl
        omega
      | succ i =>
        have hsum : start Y.days (i + 1) - (s - Y.days (i + 1)) = start Y.days (i + 1 + 1) - s := by
          omega
        rw [backward_step h (by omega) hover, ← hsum]
        exact ih (by omega) (by omega) (by omega) (by omega)
    · refine ⟨i, s, ?_, hs, by omega, by omega, by omega⟩
      rw [backward, if_neg]
      simp only [walkAt]
      omega

/-- `d` is the day with the number `o` of the lunar year `n`, whose entry is `Y`. -/
def On (Y : Year) (n : ℤ) (o : ℕ) (d : NongliDate) : Prop :=
  ∃ i r, i < Y.count ∧ Place Y.days o i r ∧ d = Y.date n i r

theorem name_first (Y : Year) : Y.yue 0 = 1 ∧ Y.run 0 = 0 := by
  simp only [Year.yue, Year.run]
  constructor
  · split_ifs <;> omega
  · exact if_neg (by omega)

theorem afterChunjie_on (h : Y.At t) (hs : s < Y.total) :
    ∃ d, afterChunjie n t s = some d ∧ On Y n s d := by
  have hcount : 0 < Y.count := by
    rw [Year.count]
    split_ifs <;> decide
  have hfirst : walkAt Y 0 s = ⟨s, 1, 0, 1, Y.days 0⟩ := by
    rw [walkAt, (name_first Y).1, (name_first Y).2]
    rfl
  have hzero : start Y.days 0 = 0 := rfl
  obtain ⟨i, r, hwalk, hplace⟩ := forward_walks h hcount (by omega) (Nat.lt_succ_self s)
  rw [hzero, Nat.zero_add] at hplace
  have hmoon := moonDays_at h (show 0 < 13 by decide)
  refine ⟨Y.date n i r, ?_, i, r, hplace.lt_of_lt hs, hplace, rfl⟩
  rw [Nat.cast_zero, zero_add] at hmoon
  rw [afterChunjie, hmoon, Option.bind_some, h.first, Option.bind_some, Int.toNat_natCast, ← hfirst]
  rw [Year.leap] at hwalk
  rw [hwalk]
  rfl

theorem beforeChunjie_on (h : Y.At t) (hok : Y.Ok) (hs : 1 ≤ s) (hin : s ≤ Y.total) :
    ∃ d, beforeChunjie (n + 1) (t + 3) s = some d ∧ On Y n (Y.total - s) d := by
  obtain ⟨k, hk⟩ : ∃ k, Y.count = k + 1 := by
    rw [Year.count]
    split_ifs
    · exact ⟨11, rfl⟩
    · exact ⟨12, rfl⟩
  have hlast : walkAt Y k s = ⟨s, 12, 0, k + 1, Y.days k⟩ := by
    have hleap := hok.leap
    rw [Year.count] at hk
    simp only [walkAt, Year.yue, Year.run]
    congr 1
    · split_ifs at hk ⊢ <;> omega
    · split_ifs at hk ⊢ <;> omega
  have hmoons : (if Y.leap ≠ 0 then (13 : ℤ) else 12) = k + 1 := by
    rw [Year.count] at hk
    split_ifs at hk ⊢ <;> omega
  have hcount := count_le Y
  rw [Year.total, hk] at hin
  obtain ⟨i, s', hwalk, hfirst, hle, hplace⟩ := backward_walks h (show k < 13 by omega) hs hin
    (Nat.lt_succ_self s)
  have hbefore : i < Y.count := by
    refine hplace.lt_of_lt ?_
    rw [hk]
    omega
  refine ⟨Y.date n i (Y.days i - s'), ?_, i, Y.days i - s', hbefore, ?_, rfl⟩
  · have hmoon := moonDays_at h (show k < 13 by omega)
    have haddr : t + 3 - 3 = t := by omega
    simp only [beforeChunjie, haddr, h.first, Option.bind_some]
    rw [Year.leap] at hwalk hmoons
    rw [hmoons, hmoon, Option.bind_some, Int.toNat_natCast, ← hlast, hwalk, Option.map_some]
    simp only [walkAt, Year.date, Option.some.injEq, NongliDate.mk.injEq, and_true, true_and]
    omega
  · rw [Year.total, hk]
    exact hplace

theorem number_at (Y : Year) (i : ℕ) : Y.number (Y.yue i) (Y.run i) = i := by
  simp only [Year.number, Year.yue, Year.run]
  split_ifs <;> omega

theorem On.range {d : NongliDate} (h : On Y n o d) (hok : Y.Ok) :
    (1 ≤ d.yue ∧ d.yue ≤ 12) ∧ (1 ≤ d.ri ∧ d.ri ≤ 30) := by
  obtain ⟨i, r, hi, hplace, rfl⟩ := h
  have hlt := hplace.lt
  have hdays := (days_range Y i).2
  have hleap := hok.leap
  rw [Year.count] at hi
  simp only [Year.date, Year.yue]
  constructor
  · split_ifs at hi ⊢ <;> omega
  · omega

/-- A leap month follows the month with its name, and every other month has the next name. -/
theorem name_succ (hi : i + 1 < Y.count) (hok : Y.Ok) :
    (Y.run i = 0 ∧ Y.yue i = Y.leap → Y.yue (i + 1) = Y.yue i ∧ Y.run (i + 1) = 1) ∧
    (¬ (Y.run i = 0 ∧ Y.yue i = Y.leap) →
      Y.yue i < 12 ∧ Y.yue (i + 1) = Y.yue i + 1 ∧ Y.run (i + 1) = 0) := by
  have hleap := hok.leap
  rw [Year.count] at hi
  simp only [Year.yue, Year.run]
  push_cast
  constructor
  · split_ifs at hi ⊢ <;> omega
  · split_ifs at hi ⊢ <;> omega

theorem name_last (hi : i + 1 = Y.count) (hok : Y.Ok) :
    ¬ (Y.run i = 0 ∧ Y.yue i = Y.leap) ∧ ¬ Y.yue i < 12 := by
  have hleap := hok.leap
  rw [Year.count] at hi
  simp only [Year.yue, Year.run]
  constructor
  · split_ifs at hi ⊢ <;> omega
  · split_ifs at hi ⊢ <;> omega

theorem date_ri_lt : (Y.date n i r).ri < Y.days (Y.number (Y.date n i r).yue (Y.date n i r).isRun) ↔
    r + 1 < Y.days i := by
  have hnumber : Y.number (Y.date n i r).yue (Y.date n i r).isRun = i := number_at Y i
  rw [hnumber]
  simp only [Year.date]
  omega

theorem On.succ {d d' : NongliDate} (h : On Y n o d) (h' : On Y n (o + 1) d') (hok : Y.Ok) :
    d' = d.next Y := by
  obtain ⟨i, r, hi, hplace, rfl⟩ := h
  obtain ⟨i', r', hi', hplace', rfl⟩ := h'
  rw [NongliDate.next]
  by_cases hwithin : r + 1 < Y.days i
  · obtain ⟨rfl, rfl⟩ := (hplace.next_within hwithin).unique hplace'
    rw [if_pos (date_ri_lt.mpr hwithin)]
    rfl
  · have hend : r + 1 = Y.days i := by
      have hlt := hplace.lt
      omega
    have hpos := (days_range Y (i + 1)).1
    obtain ⟨rfl, rfl⟩ := (hplace.next_stretch hend (by omega)).unique hplace'
    obtain ⟨hleap, hnext⟩ := name_succ hi' hok
    rw [if_neg (date_ri_lt.not.mpr hwithin)]
    by_cases hname : (Y.date n i r).isRun = 0 ∧ (Y.date n i r).yue = Y.leap
    · obtain ⟨hyue, hrun⟩ := hleap hname
      rw [if_pos hname, Year.date, hyue, hrun]
      rfl
    · obtain ⟨hlt, hyue, hrun⟩ := hnext hname
      have hyear : (Y.date n i r).yue < 12 := hlt
      rw [if_neg hname, if_pos hyear, Year.date, hyue, hrun]
      rfl

theorem On.new_year {Y' : Year} {d d' : NongliDate} (h : On Y n o d) (ho : o + 1 = Y.total)
    (hok : Y.Ok) (h' : On Y' (n + 1) 0 d') : d' = d.next Y := by
  obtain ⟨i, r, hi, hplace, rfl⟩ := h
  obtain ⟨i', r', hi', hplace', rfl⟩ := h'
  have hzero : Place Y'.days 0 0 0 := ⟨rfl, Nat.lt_of_lt_of_le (by decide) (days_range Y' 0).1⟩
  obtain ⟨rfl, rfl⟩ := hzero.unique hplace'
  obtain ⟨hcount, hend⟩ := hplace.last ho fun j => Nat.lt_of_lt_of_le (by decide) (days_range Y j).1
  obtain ⟨hyue, hrun⟩ := name_first Y'
  obtain ⟨hname, hyear⟩ := name_last hcount hok
  have hname' : ¬ ((Y.date n i r).isRun = 0 ∧ (Y.date n i r).yue = Y.leap) := hname
  have hyear' : ¬ (Y.date n i r).yue < 12 := hyear
  rw [NongliDate.next, if_neg (date_ri_lt.not.mpr (by omega)), if_neg hname', if_neg hyear', Year.date,
    hyue, hrun]
  rfl

end Months

/-! ## The table -/

def years : List ℕ → List Year
  | first :: second :: third :: codes => ⟨first, second, third⟩ :: years codes
  | _ => []

/-- The days from one spring festival to the next are those of the lunar year. -/
def check : ℕ → List Year → Bool
  | _, [] => true
  | y, [Y] => Y.Ok ∧ yearLength y ≤ Y.festival + Y.total
  | y, Y :: Y' :: Ys =>
    (Y.Ok ∧ Y.festival + Y.total = yearLength y + Y'.festival) && check (y + 1) (Y' :: Ys)

theorem check_years : check 1901 (years yearCode) = true := by decide

theorem length_years : (years yearCode).length = 199 := by decide +kernel

section Table
variable {codes : List ℕ} {Ys : List Year} {Y Y' : Year} {k y : ℕ}

theorem years_codes (h : (years codes)[k]? = some Y) :
    codes[3 * k]? = some Y.first ∧ codes[3 * k + 1]? = some Y.second ∧
      codes[3 * k + 2]? = some Y.third := by
  induction codes using years.induct generalizing k with
  | case1 first second third codes ih =>
    cases k with
    | zero =>
      obtain rfl : Year.mk first second third = Y := Option.some.inj h
      exact ⟨rfl, rfl, rfl⟩
    | succ k => exact ih h
  | case2 codes hshort =>
    rw [years] at h
    · exact absurd h (by simp)
    · exact hshort

theorem check_entry (h : check y Ys = true) (hY : Ys[k]? = some Y) : Y.Ok ∧
    (∀ Y', Ys[k + 1]? = some Y' → Y.festival + Y.total = yearLength (y + k) + Y'.festival) ∧
    yearLength (y + k) ≤ Y.festival + Y.total := by
  induction Ys generalizing y k with
  | nil => exact absurd hY (by simp)
  | cons Y₁ Ys ih =>
    cases Ys with
    | nil =>
      cases k with
      | zero =>
        obtain rfl : Y₁ = Y := Option.some.inj hY
        obtain ⟨hok, hlast⟩ := of_decide_eq_true h
        exact ⟨hok, fun Y' hY' => absurd hY' (by simp), hlast⟩
      | succ k => exact absurd hY (by simp)
    | cons Y₂ Ys =>
      obtain ⟨hfirst, hrest⟩ := Bool.and_eq_true_iff.mp h
      cases k with
      | zero =>
        obtain rfl : Y₁ = Y := Option.some.inj hY
        obtain ⟨hok, hnext⟩ := of_decide_eq_true hfirst
        refine ⟨hok, fun Y' hY' => ?_, ?_⟩
        · obtain rfl : Y₂ = Y' := Option.some.inj hY'
          exact hnext
        · rw [hnext]
          exact Nat.le_add_right _ _
      | succ k =>
        have hk := ih hrest (k := k) hY
        rwa [show y + 1 + k = y + (k + 1) by omega] at hk

end Table

structure Entry (y : ℕ) (Y : Year) : Prop where
  place : Y.At ((y - 1901) * 3)
  ok : Y.Ok
  full : yearLength y ≤ Y.festival + Y.total
  next : ∀ Y', (years yearCode)[y + 1 - 1901]? = some Y' →
    Y.festival + Y.total = yearLength y + Y'.festival

theorem entry_of {y : ℕ} {Y : Year} (hy : 1901 ≤ y) (h : (years yearCode)[y - 1901]? = some Y) :
    Entry y Y := by
  obtain ⟨hfirst, hsecond, hthird⟩ := years_codes h
  obtain ⟨hok, hnext, hfull⟩ := check_entry check_years h
  have hlt := (List.getElem?_eq_some_iff.mp h).1
  rw [length_years] at hlt
  rw [show 1901 + (y - 1901) = y by omega] at hnext hfull
  rw [show y - 1901 + 1 = y + 1 - 1901 by omega] at hnext
  have hpos : (0 : ℤ) ≤ (y - 1901) * 3 := by omega
  refine ⟨⟨?_, ?_, ?_, hpos, by omega⟩, hok, hfull, hnext⟩
  · rw [code, if_pos hpos, show (((y : ℤ) - 1901) * 3).toNat = 3 * (y - 1901) by omega]
    exact hfirst
  · rw [code, if_pos (by omega), show (((y : ℤ) - 1901) * 3 + 1).toNat = 3 * (y - 1901) + 1 by omega]
    exact hsecond
  · rw [code, if_pos (by omega), show (((y : ℤ) - 1901) * 3 + 2).toNat = 3 * (y - 1901) + 2 by omega]
    exact hthird

theorem exists_entry {y : ℕ} (hy : 1901 ≤ y ∧ y ≤ 2099) :
    ∃ Y, (years yearCode)[y - 1901]? = some Y :=
  ⟨_, List.getElem?_eq_getElem (by rw [length_years]; omega)⟩

/-! ## The days of a year -/

def dayOfYear (d : Date) : ℕ := daysBeforeMonth d.year d.month + d.day - 1

section Days
variable {d : Date}

theorem isLeapyear_iff (y : ℕ) : isLeapyear y = true ↔ IsLeap y := by
  simp only [isLeapyear, IsLeap, decide_eq_true_eq, Int.tmod_eq_emod_of_nonneg (Int.natCast_nonneg y)]
  omega

theorem daysInterval_eq {m : ℕ} (y : ℕ) (hm : 1 ≤ m ∧ m ≤ 12) :
    ∃ days : ℤ, daysInterval[((m : ℤ) - 1).toNat]? = some days ∧
      (daysBeforeMonth y m : ℤ) = days + if (m : ℤ) > 2 ∧ IsLeap y then 1 else 0 := by
  obtain ⟨hfirst, hlast⟩ := hm
  by_cases hleap : IsLeap y
  · rw [daysBeforeMonth_congr (iff_of_true hleap (show IsLeap 4 by decide))]
    simp only [hleap, and_true]
    interval_cases m <;> exact ⟨_, rfl, rfl⟩
  · rw [daysBeforeMonth_congr (iff_of_false hleap (show ¬ IsLeap 1 by decide))]
    simp only [hleap, and_false, if_false]
    interval_cases m <;> exact ⟨_, rfl, rfl⟩

theorem todayInterval_eq (h : d.Valid) :
    todayInterval d.year d.month d.day = some (dayOfYear d : ℤ) := by
  obtain ⟨days, hdays, hbefore⟩ := daysInterval_eq d.year h.month
  have hday := h.day.1
  rw [todayInterval, hdays, Option.map_some, dayOfYear]
  simp only [isLeapyear_iff, Option.some.injEq]
  omega

theorem dayOfYear_lt (h : d.Valid) : dayOfYear d < yearLength d.year := by
  have hin := h.in_year
  have hday := h.day
  rw [Date.dayNumber, daysBeforeYear] at hin
  rw [dayOfYear]
  omega

theorem dayOfYear_next (h : d.Valid) :
    (d.next.year = d.year ∧ dayOfYear d.next = dayOfYear d + 1) ∨
    (d.next.year = d.year + 1 ∧ dayOfYear d.next = 0 ∧ dayOfYear d + 1 = yearLength d.year) := by
  obtain ⟨⟨hfirst, hlast⟩, hday⟩ := h
  rw [Date.next]
  split_ifs with hwithin hmonth
  · refine Or.inl ⟨rfl, ?_⟩
    simp only [dayOfYear]
    omega
  · refine Or.inl ⟨rfl, ?_⟩
    simp only [dayOfYear, daysBeforeMonth]
    omega
  · have hdecember : d.month = 12 := by omega
    have hend : daysBeforeMonth d.year 12 + monthLength d.year 12 = yearLength d.year :=
      daysBeforeMonth_end
    refine Or.inr ⟨rfl, rfl, ?_⟩
    rw [hdecember] at hwithin hday
    simp only [dayOfYear, hdecember]
    omega

theorem chunjieInterval_eq {Y : Year} (hok : Y.Ok) : chunjieInterval Y.third = (Y.festival : ℤ) := by
  have hday := hok.day
  simp only [chunjieInterval, Year.festival]
  split_ifs <;> omega

theorem monthLength_le (y m : ℕ) : monthLength y m ≤ 31 := by
  rw [monthLength.eq_def]
  split
  case h_12 => split_ifs <;> decide
  all_goals decide

theorem nongliGetDate_eq {Y : Year} (h : d.Valid) (hy : 1901 ≤ d.year ∧ d.year ≤ 2099)
    (hY : Entry d.year Y) (p : NongliDate) : nongliGetDate d.year d.month d.day p =
      (if (dayOfYear d : ℤ) ≥ Y.festival then
        afterChunjie d.year ((d.year - 1901) * 3) (dayOfYear d - Y.festival)
      else beforeChunjie d.year ((d.year - 1901) * 3) (Y.festival - dayOfYear d)).map fun r => (0, r) := by
  have hmonth := h.month
  have hday := h.day
  have hlong := monthLength_le d.year d.month
  rw [nongliGetDate, if_neg (by omega)]
  simp only [hY.place.third, Option.bind_some, todayInterval_eq h, chunjieInterval_eq hY.ok]

theorem nongliGetDate_after {Y : Year} (h : d.Valid) (hy : 1901 ≤ d.year ∧ d.year ≤ 2099)
    (hY : Entry d.year Y) (p : NongliDate) (hafter : Y.festival ≤ dayOfYear d) :
    ∃ r, nongliGetDate d.year d.month d.day p = some (0, r) ∧
      On Y d.year (dayOfYear d - Y.festival) r := by
  have hlt := dayOfYear_lt h
  have hfull := hY.full
  obtain ⟨r, hr, hon⟩ := afterChunjie_on (n := d.year) hY.place
    (show dayOfYear d - Y.festival < Y.total by omega)
  refine ⟨r, ?_, hon⟩
  rw [nongliGetDate_eq h hy hY, if_pos (by omega), ← Nat.cast_sub hafter, hr]
  rfl

theorem nongliGetDate_before {Y Y₀ : Year} {y : ℕ} (h : d.Valid) (hyear : d.year = y + 1)
    (hy : 1901 ≤ y ∧ y + 1 ≤ 2099) (hY : Entry d.year Y) (hY₀ : Entry y Y₀) (p : NongliDate)
    (hbefore : dayOfYear d < Y.festival) :
    ∃ r, nongliGetDate d.year d.month d.day p = some (0, r) ∧
      On Y₀ y (Y₀.total - (Y.festival - dayOfYear d)) r := by
  have hfestival := hY.ok.festival
  have htotal := hY₀.ok.total
  obtain ⟨r, hr, hon⟩ := beforeChunjie_on (n := y) hY₀.place hY₀.ok
    (show 1 ≤ Y.festival - dayOfYear d by omega) (by omega)
  refine ⟨r, ?_, hon⟩
  have haddr : (((y + 1 : ℕ) : ℤ) - 1901) * 3 = (y - 1901) * 3 + 3 := by omega
  rw [nongliGetDate_eq h (by omega) hY, if_neg (by omega), ← Nat.cast_sub hbefore.le, hyear, haddr,
    Nat.cast_succ, hr]
  rfl

theorem nongliGetDate_none {Y : Year} (h : d.Valid) (hyear : d.year = 1901) (hY : Entry d.year Y)
    (p : NongliDate) (hbefore : dayOfYear d < Y.festival) :
    nongliGetDate d.year d.month d.day p = none := by
  rw [nongliGetDate_eq h (by omega) hY, if_neg (by omega), hyear, beforeChunjie, code, if_neg (by decide)]
  rfl

end Days

def Succeeds (r r' : NongliDate) : Prop :=
  ∃ (y : ℕ) (Y : Year), 1901 ≤ y ∧ (years yearCode)[y - 1901]? = some Y ∧ r.nian = y ∧ r' = r.next Y

section Succession
variable {d : Date} {p : NongliDate}

theorem On.nian {Y : Year} {n : ℤ} {o : ℕ} {r : NongliDate} (h : On Y n o r) : r.nian = n := by
  obtain ⟨i, r, -, -, rfl⟩ := h
  rfl

/-- The day `d` of the entry `Y` gives `r`: a day of the same lunar year from the spring festival
on, and of the lunar year before until then. -/
def Gives (Y : Year) (d : Date) (r : NongliDate) : Prop :=
  (Y.festival ≤ dayOfYear d ∧ On Y d.year (dayOfYear d - Y.festival) r) ∨
  (dayOfYear d < Y.festival ∧ ∃ (y : ℕ) (Y₀ : Year), d.year = y + 1 ∧ 1901 ≤ y ∧
    (years yearCode)[y - 1901]? = some Y₀ ∧ On Y₀ y (Y₀.total - (Y.festival - dayOfYear d)) r)

theorem nongliGetDate_gives {Y : Year} (h : d.Valid) (hy : 1901 ≤ d.year ∧ d.year ≤ 2099)
    (hY : (years yearCode)[d.year - 1901]? = some Y)
    (hnot : ¬ (d.year = 1901 ∧ dayOfYear d < Y.festival)) (p : NongliDate) :
    ∃ r, nongliGetDate d.year d.month d.day p = some (0, r) ∧ Gives Y d r := by
  have hentry := entry_of hy.1 hY
  by_cases hafter : Y.festival ≤ dayOfYear d
  · obtain ⟨r, hr, hon⟩ := nongliGetDate_after h hy hentry p hafter
    exact ⟨r, hr, Or.inl ⟨hafter, hon⟩⟩
  · obtain ⟨y, hyear⟩ : ∃ y, d.year = y + 1 := ⟨d.year - 1, by omega⟩
    obtain ⟨Y₀, hY₀⟩ := exists_entry (show 1901 ≤ y ∧ y ≤ 2099 by omega)
    obtain ⟨r, hr, hon⟩ := nongliGetDate_before h hyear (by omega) hentry
      (entry_of (by omega) hY₀) p (Nat.lt_of_not_le hafter)
    exact ⟨r, hr, Or.inr ⟨Nat.lt_of_not_le hafter, y, Y₀, hyear, by omega, hY₀, hon⟩⟩

theorem Gives.range {Y : Year} {r : NongliDate} (h : Gives Y d r) (hok : Y.Ok) :
    (1 ≤ r.yue ∧ r.yue ≤ 12) ∧ (1 ≤ r.ri ∧ r.ri ≤ 30) := by
  rcases h with ⟨-, hon⟩ | ⟨-, y, Y₀, -, hy, hY₀, hon⟩
  · exact hon.range hok
  · exact hon.range (entry_of hy hY₀).ok

theorem Gives.same_year {Y : Year} {d' : Date} {r r' : NongliDate} (h : Gives Y d r)
    (h' : Gives Y d' r') (hy : 1901 ≤ d.year) (hY : (years yearCode)[d.year - 1901]? = some Y)
    (hyear : d'.year = d.year) (hday : dayOfYear d' = dayOfYear d + 1) : Succeeds r r' := by
  have hentry := entry_of hy hY
  rcases h with ⟨hafter, hon⟩ | ⟨hbefore, y, Y₀, hdy, hy₀, hY₀, hon⟩
  · rcases h' with ⟨-, hon'⟩ | ⟨hbefore', -⟩
    · rw [hyear, hday, Nat.sub_add_comm hafter] at hon'
      exact ⟨d.year, Y, hy, hY, hon.nian, hon.succ hon' hentry.ok⟩
    · omega
  · have hentry₀ := entry_of hy₀ hY₀
    have hfestival := hentry.ok.festival
    have htotal := hentry₀.ok.total
    rcases h' with ⟨hafter', hon'⟩ | ⟨hbefore', y', Y₁, hdy', -, hY₁, hon'⟩
    · have hzero : dayOfYear d' - Y.festival = 0 := by omega
      rw [hzero, hyear, hdy, Nat.cast_succ] at hon'
      exact ⟨y, Y₀, hy₀, hY₀, hon.nian, hon.new_year (by omega) hentry₀.ok hon'⟩
    · obtain rfl : y' = y := by omega
      obtain rfl : Y₁ = Y₀ := Option.some.inj (hY₁.symm.trans hY₀)
      have hnext : Y₁.total - (Y.festival - dayOfYear d') =
          Y₁.total - (Y.festival - dayOfYear d) + 1 := by omega
      rw [hnext] at hon'
      exact ⟨y', Y₁, hy₀, hY₀, hon.nian, hon.succ hon' hentry₀.ok⟩

theorem Gives.new_year {Y Y' : Year} {d' : Date} {r r' : NongliDate} (h : Gives Y d r)
    (h' : Gives Y' d' r') (hy : 1901 ≤ d.year) (hY : (years yearCode)[d.year - 1901]? = some Y)
    (hY' : (years yearCode)[d.year + 1 - 1901]? = some Y') (hyear : d'.year = d.year + 1)
    (hday : dayOfYear d' = 0) (hlast : dayOfYear d + 1 = yearLength d.year) : Succeeds r r' := by
  have hentry := entry_of hy hY
  have hentry' := entry_of (Nat.le_succ_of_le hy) hY'
  have hnext := hentry.next Y' hY'
  have hfestival := hentry.ok.festival
  have hfestival' := hentry'.ok.festival
  have hlong : 365 ≤ yearLength d.year := by
    rw [yearLength]
    split_ifs <;> decide
  rcases h with ⟨hafter, hon⟩ | ⟨hbefore, -⟩
  · rcases h' with ⟨hafter', -⟩ | ⟨hbefore', y', Y₁, hdy', -, hY₁, hon'⟩
    · omega
    · obtain rfl : y' = d.year := by omega
      obtain rfl : Y₁ = Y := Option.some.inj (hY₁.symm.trans hY)
      have hsucc : Y₁.total - (Y'.festival - dayOfYear d') = dayOfYear d - Y₁.festival + 1 := by omega
      rw [hsucc] at hon'
      exact ⟨d.year, Y₁, hy, hY, hon.nian, hon.succ hon' hentry.ok⟩
  · omega

/-- The lunar date of a date that is accepted, and the one of the next day. -/
def Continues (d : Date) (p : NongliDate) : Prop :=
  ∃ r, nongliGetDate d.year d.month d.day p = some (0, r) ∧
    (1 ≤ r.yue ∧ r.yue ≤ 12) ∧ (1 ≤ r.ri ∧ r.ri ≤ 30) ∧
    (d.next.year ≤ 2099 →
      ∃ r', nongliGetDate d.next.year d.next.month d.next.day p = some (0, r') ∧ Succeeds r r')

theorem continues_of {Y : Year} (h : d.Valid) (hy : 1901 ≤ d.year ∧ d.year ≤ 2099)
    (hY : (years yearCode)[d.year - 1901]? = some Y)
    (hnot : ¬ (d.year = 1901 ∧ dayOfYear d < Y.festival)) (p : NongliDate) : Continues d p := by
  obtain ⟨r, hr, hgives⟩ := nongliGetDate_gives h hy hY hnot p
  obtain ⟨hyue, hri⟩ := hgives.range (entry_of hy.1 hY).ok
  refine ⟨r, hr, hyue, hri, fun hlast => ?_⟩
  have hvalid := h.next.1
  rcases dayOfYear_next h with ⟨hyear, hday⟩ | ⟨hyear, hday, hend⟩
  · have hY' : (years yearCode)[d.next.year - 1901]? = some Y := by rw [hyear, hY]
    obtain ⟨r', hr', hgives'⟩ := nongliGetDate_gives hvalid (by omega) hY' (by omega) p
    exact ⟨r', hr', hgives.same_year hgives' hy.1 hY hyear hday⟩
  · obtain ⟨Y', hY'⟩ := exists_entry (show 1901 ≤ d.year + 1 ∧ d.year + 1 ≤ 2099 by omega)
    have hnext : (years yearCode)[d.next.year - 1901]? = some Y' := by rw [hyear, hY']
    obtain ⟨r', hr', hgives'⟩ := nongliGetDate_gives hvalid (by omega) hnext (by omega) p
    exact ⟨r', hr', hgives.new_year hgives' hy.1 hY hY' hyear hday hend⟩

theorem before_festival_1901 {Y : Year} (h : d.Valid) (hyear : d.year = 1901)
    (hY : (years yearCode)[d.year - 1901]? = some Y) :
    dayOfYear d < Y.festival ↔ d.month = 1 ∨ (d.month = 2 ∧ d.day < 19) := by
  obtain ⟨⟨hfirst, hlast⟩, hday⟩ := h
  rw [hyear] at hday hY
  obtain rfl : ⟨0x04, 0xae, 0x53⟩ = Y := Option.some.inj hY
  have hfestival : Year.festival ⟨0x04, 0xae, 0x53⟩ = 49 := by decide
  have hjanuary : daysBeforeMonth 1901 1 = 0 := rfl
  have hfebruary : daysBeforeMonth 1901 2 = 31 := rfl
  have hmarch : daysBeforeMonth 1901 3 = 59 := rfl
  rw [hfestival, dayOfYear, hyear]
  rcases Nat.lt_or_ge d.month 3 with hlt | hge
  · obtain hone | htwo : d.month = 1 ∨ d.month = 2 := by omega
    · have hlong := monthLength_le 1901 d.month
      rw [hone] at hlong hday ⊢
      omega
    · rw [htwo] at hday ⊢
      omega
  · have hle := daysBeforeMonth_le (y := 1901) hge
    omega

end Succession

/-- The lunar calendar goes on day by day exactly from the spring festival of 1901. -/
theorem nongli_continues {d : Date} (h : d.Valid) (hy : 1901 ≤ d.year ∧ d.year ≤ 2099)
    (p : NongliDate) :
    Continues d p ↔ ¬ (d.year = 1901 ∧ (d.month = 1 ∨ (d.month = 2 ∧ d.day < 19))) := by
  obtain ⟨Y, hY⟩ := exists_entry hy
  constructor
  · rintro ⟨r, hr, -⟩ ⟨hyear, hearly⟩
    have hbefore := (before_festival_1901 h hyear hY).mpr hearly
    have hnone := nongliGetDate_none h hyear (entry_of hy.1 hY) p hbefore
    exact absurd (hr.symm.trans hnone) (by simp)
  · intro hnot
    refine continues_of h hy hY (fun hearly => hnot ⟨hearly.1, ?_⟩) p
    exact (before_festival_1901 h hearly.1 hY).mp hearly.2

theorem nongli_continues_2033 : Continues ⟨2033, 12, 21⟩ ⟨0, 0, 0, 0⟩ :=
  (nongli_continues ⟨by decide, by decide⟩ (by decide) _).mpr (by decide)

/-- The first day that is accepted. -/
theorem nongli_1901 : Date.Valid ⟨1901, 1, 1⟩ ∧ ¬ Continues ⟨1901, 1, 1⟩ ⟨0, 0, 0, 0⟩ := by
  refine ⟨⟨by decide, by decide⟩, ?_⟩
  rintro ⟨r, hr, -⟩
  have hnone : nongliGetDate 1901 1 1 ⟨0, 0, 0, 0⟩ = none := rfl
  cases hr.symm.trans hnone

end DfewOS.Nongli
