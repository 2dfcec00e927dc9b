import Mathlib.Data.Nat.Notation
import Mathlib.Order.Basic
import Mathlib.Tactic.Common

/-!
# Consecutive stretches

Stretches with the lengths `len 0`, `len 1`, … that follow each other from 0 on. Each point
lies at one place of one stretch, and the next point lies at the next place of the same stretch
or at the beginning of the next one.
-/

namespace Stretches

variable {len : ℕ → ℕ} {o i i' r r' : ℕ}

/-- Where a stretch begins. -/
def start (len : ℕ → ℕ) : ℕ → ℕ
  | 0 => 0
  | i + 1 => start len i + len i

theorem start_le (h : i ≤ i') : start len i ≤ start len i' := by
  induction h with
  | refl => exact Nat.le_refl _
  | step _ ih => exact Nat.le_trans ih (Nat.le_add_right _ _)

structure Place (len : ℕ → ℕ) (o i r : ℕ) : Prop where
  sum : start len i + r = o
  lt : r < len i

theorem Place.le (h : Place len o i r) (h' : Place len o i' r') : i ≤ i' := by
  by_contra hlt
  have hsum := h.sum
  have hsum' := h'.sum
  have hin := h'.lt
  have hstart : start len i' + len i' ≤ start len i := start_le (Nat.lt_of_not_le hlt)
  omega

theorem Place.unique (h : Place len o i r) (h' : Place len o i' r') : i = i' ∧ r = r' := by
  obtain rfl := Nat.le_antisymm (h.le h') (h'.le h)
  have hsum := h.sum
  have hsum' := h'.sum
  exact ⟨rfl, by omega⟩

theorem Place.lt_of_lt (h : Place len o i r) (ho : o < start len i') : i < i' := by
  by_contra hge
  have hsum := h.sum
  have hstart : start len i' ≤ start len i := start_le (Nat.le_of_not_lt hge)
  omega

theorem Place.next_within (h : Place len o i r) (hr : r + 1 < len i) : Place len (o + 1) i (r + 1) :=
  ⟨by rw [← h.sum, Nat.add_assoc], hr⟩

theorem Place.next_stretch (h : Place len o i r) (hr : r + 1 = len i) (hpos : 0 < len (i + 1)) :
    Place len (o + 1) (i + 1) 0 := by
  refine ⟨?_, hpos⟩
  rw [start, ← h.sum, ← hr, Nat.add_zero, Nat.add_assoc]

theorem Place.last (h : Place len o i r) (ho : o + 1 = start len i') (hpos : ∀ j, 0 < len j) :
    i + 1 = i' ∧ r + 1 = len i := by
  have hlt := h.lt_of_lt (show o < start len i' by omega)
  have hsum := h.sum
  have hin := h.lt
  have hle : start len (i + 1) ≤ start len i' := start_le hlt
  have hend : start len (i + 1) = start len i + len i := rfl
  refine ⟨?_, by omega⟩
  by_contra hne
  have hmore : start len (i + 1 + 1) ≤ start len i' := start_le (by omega)
  have hnext : start len (i + 1 + 1) = start len (i + 1) + len (i + 1) := rfl
  have hpos := hpos (i + 1)
  omega

end Stretches
