import DfewOS.Loops
import Mathlib.Data.Nat.Notation
import Mathlib.Tactic.SplitIfs

/-!
# Halving an interval

A property of the numbers up to `n` that holds below `k` and not from there on is found by
halving: an interval that has `k` in it is cut at its middle, and the half with `k` is kept.
-/

namespace Bisect
open Loops (loop loop_of_true loop_of_false)

variable {p : ℕ → Bool} {k n fuel : ℕ} {r : ℕ × ℕ}

def apart (r : ℕ × ℕ) : Bool := r.1 < r.2

def middle (r : ℕ × ℕ) : ℕ := r.1 + (r.2 - r.1) / 2

def halve (p : ℕ → Bool) (r : ℕ × ℕ) : ℕ × ℕ :=
  if p (middle r) then (middle r + 1, r.2) else (r.1, middle r)

/-- The property holds below `k`, and from `k` up to `n` it does not. -/
structure Turns (p : ℕ → Bool) (k n : ℕ) : Prop where
  below : ∀ i < k, p i = true
  above : ∀ i, k ≤ i → i < n → p i = false

structure Brackets (k n : ℕ) (r : ℕ × ℕ) : Prop where
  low : r.1 ≤ k
  high : k ≤ r.2
  bound : r.2 ≤ n

theorem middle_lt (h : r.1 < r.2) : r.1 ≤ middle r ∧ middle r < r.2 := by
  rw [middle]
  omega

theorem Brackets.halve (h : Brackets k n r) (hp : Turns p k n) (hlt : r.1 < r.2) :
    Brackets k n (halve p r) := by
  obtain ⟨hlow, hhigh, hbound⟩ := h
  obtain ⟨hge, hmid⟩ := middle_lt hlt
  rw [Bisect.halve]
  split_ifs with htest
  · have hk : middle r < k := Nat.lt_of_not_le fun hle => by
      have hfalse := hp.above (middle r) (by omega) (by omega)
      exact Bool.false_ne_true (hfalse.symm.trans htest)
    exact ⟨hk, hhigh, hbound⟩
  · have hk : k ≤ middle r := Nat.le_of_not_lt fun hbelow => htest (hp.below (middle r) hbelow)
    exact ⟨hlow, hk, by omega⟩

theorem halve_shorter (h : r.1 < r.2) : (halve p r).2 - (halve p r).1 < r.2 - r.1 := by
  obtain ⟨hge, hmid⟩ := middle_lt h
  rw [halve]
  split_ifs <;> simp only <;> omega

theorem halving_finds (hp : Turns p k n) (h : Brackets k n r) (hfuel : r.2 - r.1 < fuel) :
    loop apart (halve p) fuel r = some (k, k) := by
  induction fuel generalizing r with
  | zero => exact absurd hfuel (Nat.not_lt_zero _)
  | succ fuel ih =>
    by_cases hlt : r.1 < r.2
    · have hshorter : (halve p r).2 - (halve p r).1 < r.2 - r.1 := halve_shorter hlt
      rw [loop_of_true (show apart r = true from decide_eq_true hlt)]
      exact ih (h.halve hp hlt) (by omega)
    · obtain ⟨hlow, hhigh, -⟩ := h
      rw [loop_of_false (show apart r = false from decide_eq_false hlt)]
      exact congrArg some (Prod.ext (by omega) (by omega))

end Bisect
