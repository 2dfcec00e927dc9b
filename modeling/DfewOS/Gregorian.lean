import Mathlib.Data.Int.Notation
import Mathlib.Logic.Function.Iterate
import Mathlib.Tactic.IntervalCases

/-!
# The proleptic Gregorian calendar

Days are counted from the first one of the year 0. Every other fact about the calendar is
about this count: the day after a date, the weekday, the days since the first of January.
-/

namespace Gregorian

def IsLeap (y : ℕ) : Prop := y % 4 = 0 ∧ (y % 100 = 0 → y % 400 = 0)

instance (y : ℕ) : Decidable (IsLeap y) := inferInstanceAs (Decidable (_ ∧ _))

def yearLength (y : ℕ) : ℕ := if IsLeap y then 366 else 365

def monthLength (y : ℕ) : ℕ → ℕ
  | 1 | 3 | 5 | 7 | 8 | 10 | 12 => 31
  | 4 | 6 | 9 | 11 => 30
  | 2 => if IsLeap y then 29 else 28
  | _ => 0

def daysBeforeYear : ℕ → ℕ
  | 0 => 0
  | y + 1 => daysBeforeYear y + yearLength y

def daysBeforeMonth (y : ℕ) : ℕ → ℕ
  | 0 => 0
  | m + 1 => daysBeforeMonth y m + monthLength y m

@[ext] structure Date where
  year : ℕ
  month : ℕ
  day : ℕ
  deriving DecidableEq

namespace Date

structure Valid (d : Date) : Prop where
  month : 1 ≤ d.month ∧ d.month ≤ 12
  day : 1 ≤ d.day ∧ d.day ≤ monthLength d.year d.month

def dayNumber (d : Date) : ℕ := daysBeforeYear d.year + daysBeforeMonth d.year d.month + d.day

def firstOfYear (d : Date) : Date := ⟨d.year, 1, 1⟩

def epoch : Date := ⟨1970, 1, 1⟩

def weekday (d : Date) : ℤ := ((d.dayNumber : ℤ) - epoch.dayNumber + 4) % 7

def next (d : Date) : Date :=
  if d.day < monthLength d.year d.month then { d with day := d.day + 1 }
  else if d.month < 12 then ⟨d.year, d.month + 1, 1⟩
  else ⟨d.year + 1, 1, 1⟩

end Date

open Date
variable {d d' : Date} {y y' m m' n : ℕ}

/-! ## Years and months -/

theorem monthLength_pos (hm : 1 ≤ m ∧ m ≤ 12) : 28 ≤ monthLength y m := by
  obtain ⟨hlo, hhi⟩ := hm
  interval_cases m <;> simp only [monthLength] <;> (try split) <;> omega

theorem daysBeforeMonth_congr (h : IsLeap y ↔ IsLeap y') (m : ℕ) :
    daysBeforeMonth y m = daysBeforeMonth y' m := by
  have hmonth : ∀ k, monthLength y k = monthLength y' k := by
    intro k
    simp only [monthLength.eq_def, h]
  induction m with
  | zero => rfl
  | succ m ih => rw [daysBeforeMonth, daysBeforeMonth, ih, hmonth]

theorem daysBeforeMonth_end : daysBeforeMonth y 13 = yearLength y := by
  simp only [daysBeforeMonth, monthLength, yearLength]
  split <;> rfl

theorem daysBeforeMonth_le (h : m ≤ m') : daysBeforeMonth y m ≤ daysBeforeMonth y m' := by
  induction h with
  | refl => exact Nat.le_refl _
  | step _ ih => exact Nat.le_trans ih (Nat.le_add_right _ _)

theorem daysBeforeYear_le (h : y ≤ y') : daysBeforeYear y ≤ daysBeforeYear y' := by
  induction h with
  | refl => exact Nat.le_refl _
  | step _ ih => exact Nat.le_trans ih (Nat.le_add_right _ _)

theorem daysBeforeYear_succ :
    daysBeforeYear (y + 1) + y / 100 = 365 * y + 366 + y / 4 + y / 400 := by
  induction y with
  | zero => rfl
  | succ y ih =>
    rw [daysBeforeYear, yearLength]
    by_cases h4 : (y + 1) % 4 = 0
    · by_cases h100 : (y + 1) % 100 = 0
      · by_cases h400 : (y + 1) % 400 = 0
        · rw [if_pos ⟨h4, fun _ => h400⟩]
          omega
        · rw [if_neg fun hleap => h400 (hleap.2 h100)]
          omega
      · rw [if_pos ⟨h4, fun h => absurd h h100⟩]
        omega
    · have h100 : (y + 1) / 100 = y / 100 :=
        Nat.succ_div_of_not_dvd fun hdvd => h4 (by omega)
      have h400 : (y + 1) / 400 = y / 400 :=
        Nat.succ_div_of_not_dvd fun hdvd => h4 (by omega)
      have hfour : (y + 1) / 4 = y / 4 :=
        Nat.succ_div_of_not_dvd fun hdvd => h4 (by omega)
      rw [if_neg fun hleap => h4 hleap.1, h100, h400, hfour]
      omega

/-! ## Counting days -/

namespace Date

theorem Valid.in_month (h : d.Valid) :
    daysBeforeYear d.year + daysBeforeMonth d.year d.month < d.dayNumber ∧
      d.dayNumber ≤ daysBeforeYear d.year + daysBeforeMonth d.year (d.month + 1) := by
  have hday := h.day
  rw [dayNumber, daysBeforeMonth]
  omega

theorem Valid.in_year (h : d.Valid) :
    daysBeforeYear d.year < d.dayNumber ∧ d.dayNumber ≤ daysBeforeYear (d.year + 1) := by
  obtain ⟨hlo, hhi⟩ := h.in_month
  have hend : daysBeforeMonth d.year (d.month + 1) ≤ daysBeforeMonth d.year 13 :=
    daysBeforeMonth_le (Nat.succ_le_succ h.month.2)
  rw [daysBeforeMonth_end] at hend
  rw [daysBeforeYear]
  omega

theorem dayNumber_inj (h : d.Valid) (h' : d'.Valid) (heq : d.dayNumber = d'.dayNumber) :
    d = d' := by
  have hyear : d.year = d'.year := by
    by_contra hne
    have hin := h.in_year
    have hin' := h'.in_year
    obtain hlt | hgt := Nat.lt_or_gt_of_ne hne
    · have hle : daysBeforeYear (d.year + 1) ≤ daysBeforeYear d'.year := daysBeforeYear_le hlt
      omega
    · have hle : daysBeforeYear (d'.year + 1) ≤ daysBeforeYear d.year := daysBeforeYear_le hgt
      omega
  have hmonth : d.month = d'.month := by
    by_contra hne
    have hin := h.in_month
    have hin' := h'.in_month
    rw [← hyear] at hin'
    obtain hlt | hgt := Nat.lt_or_gt_of_ne hne
    · have hle : daysBeforeMonth d.year (d.month + 1) ≤ daysBeforeMonth d.year d'.month :=
        daysBeforeMonth_le hlt
      omega
    · have hle : daysBeforeMonth d.year (d'.month + 1) ≤ daysBeforeMonth d.year d.month :=
        daysBeforeMonth_le hgt
      omega
  have hday : d.day = d'.day := by
    simp only [dayNumber, hyear, hmonth] at heq
    omega
  exact Date.ext hyear hmonth hday

theorem Valid.next (h : d.Valid) : d.next.Valid ∧ d.next.dayNumber = d.dayNumber + 1 := by
  obtain ⟨⟨hfirst, hlast⟩, hday⟩ := h
  rw [Date.next]
  split
  · next hlt => exact ⟨⟨⟨hfirst, hlast⟩, by dsimp only; omega⟩, rfl⟩
  · next hend =>
    have hfull : d.day = monthLength d.year d.month := by omega
    split
    · next hlt =>
      have hpos : 28 ≤ monthLength d.year (d.month + 1) := monthLength_pos (by omega)
      refine ⟨⟨by dsimp only; omega, by dsimp only; omega⟩, ?_⟩
      simp only [dayNumber, daysBeforeMonth, hfull]
      omega
    · next hdec =>
      have hpos : 28 ≤ monthLength (d.year + 1) 1 := monthLength_pos (by omega)
      have hmonth : d.month = 12 := by omega
      have hyear : daysBeforeMonth d.year 12 + monthLength d.year 12 = yearLength d.year :=
        daysBeforeMonth_end
      refine ⟨⟨by dsimp only; omega, by dsimp only; omega⟩, ?_⟩
      have hzero : daysBeforeMonth (d.year + 1) 1 = 0 := rfl
      simp only [dayNumber, hzero, daysBeforeYear, hfull, hmonth]
      omega

theorem Valid.iterate_next (h : d.Valid) :
    (Date.next^[n] d).Valid ∧ (Date.next^[n] d).dayNumber = d.dayNumber + n := by
  induction n with
  | zero => exact ⟨h, rfl⟩
  | succ n ih =>
    rw [Function.iterate_succ_apply']
    obtain ⟨hvalid, hnumber⟩ := ih.1.next
    refine ⟨hvalid, ?_⟩
    rw [hnumber, ih.2, Nat.add_assoc]

/-! ## Weekdays -/

theorem epoch_dayNumber : epoch.dayNumber = 719529 := by
  have hyears : daysBeforeYear 1970 + 1969 / 100 = 365 * 1969 + 366 + 1969 / 4 + 1969 / 400 :=
    daysBeforeYear_succ
  have hmonths : daysBeforeMonth 1970 1 = 0 := rfl
  simp only [dayNumber, epoch, hmonths]
  omega

theorem weekday_eq (hyear : 1 ≤ d.year) (hn : d.dayNumber = daysBeforeYear d.year + n + 1) :
    d.weekday = (((d.year + (d.year - 1) / 400 + (d.year - 1) / 4 - (d.year - 1) / 100 : ℕ) : ℤ) +
      n) % 7 := by
  obtain ⟨y, hy⟩ := Nat.exists_eq_add_of_le' hyear
  have hyears := daysBeforeYear_succ (y := y)
  have hle : y / 100 ≤ y / 4 := Nat.div_le_div_left (by decide) (by decide)
  rw [weekday, epoch_dayNumber, hn, hy, Nat.add_sub_cancel]
  generalize y / 100 = centuries at hyears hle ⊢
  generalize y / 4 = fours at hyears hle ⊢
  generalize y / 400 = cycles at hyears ⊢
  omega

end Date

end Gregorian
