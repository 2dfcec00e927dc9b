import Mathlib.Data.Int.Notation
import Mathlib.Data.Nat.Notation

/-!
# Digital lines

A line from the origin to `(du, dv)` with `dv ≤ du` is drawn point by point: with each step `u`
grows by one and `v` stays or grows by one, as a decision variable says. That variable is twice
the error at the midpoint of the two next candidates, so that no point is further than one half
from the line.
-/

namespace DigitalLine

variable {du dv di : ℤ} {k m : ℕ}

/-- How far the point `(k, m)` is below the line, in units of `1 / du`. -/
def error (du dv : ℤ) (k m : ℕ) : ℤ := dv * k - du * m

theorem error_zero : error du dv 0 0 = 0 := by
  simp only [error, Int.natCast_zero, Int.mul_zero, Int.sub_self]

theorem error_stay : error du dv (k + 1) m = error du dv k m + dv := by
  simp only [error, Int.natCast_add, Int.natCast_one, Int.mul_add, Int.mul_one]
  omega

theorem error_move : error du dv (k + 1) (m + 1) = error du dv k m + dv - du := by
  simp only [error, Int.natCast_add, Int.natCast_one, Int.mul_add, Int.mul_one]
  omega

/-- The second coordinate and the decision variable after `k` steps. -/
def walk (du dv : ℤ) : ℕ → ℕ × ℤ
  | 0 => (0, dv * 2 - du)
  | k + 1 =>
    let (m, di) := walk du dv k
    if di < 0 then (m, di + dv * 2) else (m + 1, di + (dv * 2 - du * 2))

theorem walk_stay (h : (walk du dv k).2 < 0) :
    walk du dv (k + 1) = ((walk du dv k).1, (walk du dv k).2 + dv * 2) := if_pos h

theorem walk_move (h : ¬(walk du dv k).2 < 0) :
    walk du dv (k + 1) = ((walk du dv k).1 + 1, (walk du dv k).2 + (dv * 2 - du * 2)) := if_neg h

/-- `di` decides between the candidates, and the point is within one half of the line. -/
structure Decided (du dv : ℤ) (k m : ℕ) (di : ℤ) : Prop where
  decision : di = 2 * error du dv k m + 2 * dv - du
  above : -du ≤ 2 * error du dv k m
  below : 2 * error du dv k m ≤ du
  le : m ≤ k

theorem Decided.stay (h : Decided du dv k m di) (hdi : di < 0) (hdv : 0 ≤ dv) :
    Decided du dv (k + 1) m (di + dv * 2) := by
  obtain ⟨hdecision, habove, hbelow, hmk⟩ := h
  have herror : error du dv (k + 1) m = _ := error_stay
  constructor <;> omega

theorem Decided.move (h : Decided du dv k m di) (hdi : 0 ≤ di) (hle : dv ≤ du) :
    Decided du dv (k + 1) (m + 1) (di + (dv * 2 - du * 2)) := by
  obtain ⟨hdecision, habove, hbelow, hmk⟩ := h
  have herror : error du dv (k + 1) (m + 1) = _ := error_move
  constructor <;> omega

theorem walk_decided (hdv : 0 ≤ dv) (hle : dv ≤ du) (k : ℕ) :
    Decided du dv k (walk du dv k).1 (walk du dv k).2 := by
  induction k with
  | zero => constructor <;> rw [walk] <;> simp only [error_zero] <;> omega
  | succ k ih =>
    by_cases hdi : (walk du dv k).2 < 0
    · rw [walk_stay hdi]
      exact ih.stay hdi hdv
    · rw [walk_move hdi]
      exact ih.move (by omega) hle

theorem walk_step (k : ℕ) : (walk du dv (k + 1)).1 = (walk du dv k).1 ∨
    (walk du dv (k + 1)).1 = (walk du dv k).1 + 1 := by
  by_cases hdi : (walk du dv k).2 < 0
  · rw [walk_stay hdi]
    exact Or.inl rfl
  · rw [walk_move hdi]
    exact Or.inr rfl

theorem walk_end (hpos : 0 < du) (hdv : 0 ≤ dv) (hle : dv ≤ du) :
    ((walk du dv du.toNat).1 : ℤ) = dv := by
  obtain ⟨-, habove, hbelow, -⟩ := walk_decided hdv hle du.toNat
  generalize (walk du dv du.toNat).1 = m at *
  have herror : error du dv du.toNat m = du * (dv - m) := by
    rw [error, Int.toNat_of_nonneg (Int.le_of_lt hpos), Int.mul_sub, Int.mul_comm dv]
  rw [herror] at habove hbelow
  rcases Int.lt_trichotomy (dv - m) 0 with hneg | hzero | hmore
  · have hmul := Int.mul_le_mul_of_nonneg_left (show dv - m ≤ -1 by omega) (Int.le_of_lt hpos)
    omega
  · omega
  · have hmul := Int.mul_le_mul_of_nonneg_left (show 1 ≤ dv - m by omega) (Int.le_of_lt hpos)
    omega

end DigitalLine
