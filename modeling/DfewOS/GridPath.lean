import Mathlib.Data.Int.Notation
import Mathlib.Data.Nat.Notation
import Mathlib.Data.List.Chain
import Mathlib.Order.Lattice
import Mathlib.Data.Int.Order.Basic

/-!
# Paths of straight lines on a grid

Two cells are joined by a row or a column if all cells between them are free. A path
with few turns between cells that are not free can be taken to turn at each corner.
-/

namespace GridPath

@[ext] structure Cell where
  x : ℤ
  y : ℤ
  deriving DecidableEq

variable {free : Cell → Prop} {a b c : Cell}

def Row (free : Cell → Prop) (a b : Cell) : Prop :=
  a.y = b.y ∧ a.x ≠ b.x ∧ ∀ x, min a.x b.x < x → x < max a.x b.x → free ⟨x, a.y⟩

def Col (free : Cell → Prop) (a b : Cell) : Prop :=
  a.x = b.x ∧ a.y ≠ b.y ∧ ∀ y, min a.y b.y < y → y < max a.y b.y → free ⟨a.x, y⟩

/-- A row (`true`) or a column (`false`). -/
def Leg (free : Cell → Prop) : Bool → Cell → Cell → Prop
  | true => Row free
  | false => Col free

def Straight (free : Cell → Prop) (a b : Cell) : Prop := Row free a b ∨ Col free a b

/-- Straight lines from each cell to the next, and free corners. -/
def Joined (free : Cell → Prop) (turns : ℕ) (a b : Cell) : Prop :=
  ∃ corners : List Cell, corners.length ≤ turns ∧ (∀ c ∈ corners, free c) ∧
    List.IsChain (Straight free) (a :: corners ++ [b])

def Zigzag (free : Cell → Prop) : Bool → List Cell → Prop
  | row, a :: b :: path =>
    Leg free row a b ∧ (path ≠ [] → free b) ∧ Zigzag free (!row) (b :: path)
  | _, _ => True

theorem Row.symm (h : Row free a b) : Row free b a := by
  obtain ⟨hy, hx, hfree⟩ := h
  refine ⟨hy.symm, hx.symm, ?_⟩
  rw [min_comm, max_comm, ← hy]
  exact hfree

theorem Col.symm (h : Col free a b) : Col free b a := by
  obtain ⟨hx, hy, hfree⟩ := h
  refine ⟨hx.symm, hy.symm, ?_⟩
  rw [min_comm, max_comm, ← hx]
  exact hfree

theorem Leg.symm {row : Bool} (h : Leg free row a b) : Leg free row b a := by
  cases row
  · exact Col.symm h
  · exact Row.symm h

theorem Straight.symm (h : Straight free a b) : Straight free b a :=
  h.imp Row.symm Col.symm

theorem straight_iff_leg : Straight free a b ↔ ∃ row, Leg free row a b := by
  simp only [Straight, Leg, Bool.exists_bool, or_comm]

theorem Row.trans (hab : Row free a b) (hbc : Row free b c) (hb : free b) (hac : a ≠ c) :
    Row free a c := by
  obtain ⟨hy, -, hfree⟩ := hab
  obtain ⟨hy', -, hfree'⟩ := hbc
  refine ⟨hy.trans hy', ?_, ?_⟩
  · intro hx
    exact hac (Cell.ext hx (hy.trans hy'))
  · intro x hlo hhi
    by_cases hxb : x = b.x
    · rw [hxb, hy]
      exact hb
    by_cases hfirst : min a.x b.x < x ∧ x < max a.x b.x
    · exact hfree x hfirst.1 hfirst.2
    · rw [hy]
      exact hfree' x (by omega) (by omega)

theorem Col.trans (hab : Col free a b) (hbc : Col free b c) (hb : free b) (hac : a ≠ c) :
    Col free a c := by
  obtain ⟨hx, -, hfree⟩ := hab
  obtain ⟨hx', -, hfree'⟩ := hbc
  refine ⟨hx.trans hx', ?_, ?_⟩
  · intro hy
    exact hac (Cell.ext (hx.trans hx') hy)
  · intro y hlo hhi
    by_cases hyb : y = b.y
    · rw [hyb, hx]
      exact hb
    by_cases hfirst : min a.y b.y < y ∧ y < max a.y b.y
    · exact hfree y hfirst.1 hfirst.2
    · rw [hx]
      exact hfree' y (by omega) (by omega)

theorem Leg.trans {row : Bool} (hab : Leg free row a b) (hbc : Leg free row b c) (hb : free b)
    (hac : a ≠ c) : Leg free row a c := by
  cases row
  · exact Col.trans hab hbc hb hac
  · exact Row.trans hab hbc hb hac

theorem joined_two (ha : ¬ free a) (hb : ¬ free b) (hab : a ≠ b) :
    Joined free 2 a b ↔ ∃ row, Leg free row a b ∨
      (∃ c, Leg free row a c ∧ free c ∧ Leg free (!row) c b) ∨
      ∃ c d, Leg free row a c ∧ free c ∧ Leg free (!row) c d ∧ free d ∧ Leg free row d b := by
  constructor
  · rintro ⟨corners, hlen, hfree, hchain⟩
    obtain _ | ⟨c, _ | ⟨d, _ | ⟨e, corners⟩⟩⟩ := corners
    · obtain ⟨row, h⟩ := straight_iff_leg.mp (by simpa using hchain)
      exact ⟨row, .inl h⟩
    · have hc : free c := hfree c (by simp)
      have hchain : Straight free a c ∧ Straight free c b := by simpa using hchain
      obtain ⟨row, h₁⟩ := straight_iff_leg.mp hchain.1
      obtain ⟨row', h₂⟩ := straight_iff_leg.mp hchain.2
      by_cases hrow : row' = row
      · subst hrow
        exact ⟨row', .inl (h₁.trans h₂ hc hab)⟩
      · obtain rfl : row' = !row := Bool.eq_not.mpr hrow
        exact ⟨row, .inr (.inl ⟨c, h₁, hc, h₂⟩)⟩
    · have hc : free c := hfree c (by simp)
      have hd : free d := hfree d (by simp)
      have had : a ≠ d := fun h => ha (h ▸ hd)
      have hcb : c ≠ b := fun h => hb (h ▸ hc)
      have hchain : Straight free a c ∧ Straight free c d ∧ Straight free d b := by
        simpa using hchain
      obtain ⟨row, h₁⟩ := straight_iff_leg.mp hchain.1
      obtain ⟨row₂, h₂⟩ := straight_iff_leg.mp hchain.2.1
      obtain ⟨row₃, h₃⟩ := straight_iff_leg.mp hchain.2.2
      by_cases hrow₂ : row₂ = row
      · -- the first two lines are one
        subst hrow₂
        have h₁₂ := h₁.trans h₂ hc had
        by_cases hrow₃ : row₃ = row₂
        · subst hrow₃
          exact ⟨row₃, .inl (h₁₂.trans h₃ hd hab)⟩
        · obtain rfl : row₃ = !row₂ := Bool.eq_not.mpr hrow₃
          exact ⟨row₂, .inr (.inl ⟨d, h₁₂, hd, h₃⟩)⟩
      · obtain rfl : row₂ = !row := Bool.eq_not.mpr hrow₂
        by_cases hrow₃ : row₃ = row
        · subst hrow₃
          exact ⟨row₃, .inr (.inr ⟨c, d, h₁, hc, h₂, hd, h₃⟩)⟩
        · obtain rfl : row₃ = !row := Bool.eq_not.mpr hrow₃
          exact ⟨row, .inr (.inl ⟨c, h₁, hc, h₂.trans h₃ hd hcb⟩)⟩
    · simp at hlen
  · rintro ⟨row, h | ⟨c, h₁, hc, h₂⟩ | ⟨c, d, h₁, hc, h₂, hd, h₃⟩⟩
    · exact ⟨[], by simp, by simp, by simpa using straight_iff_leg.mpr ⟨row, h⟩⟩
    · refine ⟨[c], by simp, by simpa using hc, ?_⟩
      simpa using ⟨straight_iff_leg.mpr ⟨row, h₁⟩, straight_iff_leg.mpr ⟨_, h₂⟩⟩
    · refine ⟨[c, d], by simp, by simpa using ⟨hc, hd⟩, ?_⟩
      simpa using ⟨straight_iff_leg.mpr ⟨row, h₁⟩, straight_iff_leg.mpr ⟨_, h₂⟩,
        straight_iff_leg.mpr ⟨row, h₃⟩⟩

theorem Joined.symm {turns : ℕ} (h : Joined free turns a b) : Joined free turns b a := by
  obtain ⟨corners, hlen, hfree, hchain⟩ := h
  refine ⟨corners.reverse, by simpa using hlen, by simpa using hfree, ?_⟩
  have hrev : b :: corners.reverse ++ [a] = (a :: corners ++ [b]).reverse := by simp
  rw [hrev, List.isChain_reverse]
  exact hchain.imp fun _ _ h => h.symm

inductive Dir
  | left
  | right
  | up
  | down
  deriving DecidableEq

def Dir.move : Dir → ℤ → Cell → Cell
  | left, n, c => ⟨c.x - n, c.y⟩
  | right, n, c => ⟨c.x + n, c.y⟩
  | up, n, c => ⟨c.x, c.y - n⟩
  | down, n, c => ⟨c.x, c.y + n⟩

@[simp] theorem Dir.move_zero (d : Dir) (c : Cell) : d.move 0 c = c := by
  cases d <;> simp [move]

theorem Dir.move_move (d : Dir) (n m : ℤ) (c : Cell) : d.move n (d.move m c) = d.move (m + n) c := by
  cases d <;> apply Cell.ext <;> simp only [move] <;> omega

theorem Dir.move_inj (d : Dir) {n m : ℤ} {c : Cell} (h : d.move n c = d.move m c) : n = m := by
  cases d <;> simp only [move, Cell.mk.injEq] at h <;> omega

/-- A line, walked from its first cell. -/
def Dir.row : Dir → Bool
  | left | right => true
  | up | down => false

theorem leg_move (d : Dir) {n : ℤ} (hn : 0 < n) (a : Cell) :
    Leg free d.row a (d.move n a) ↔ ∀ k, 0 < k → k < n → free (d.move k a) := by
  cases d with
  | left =>
    simp only [Dir.row, Leg, Row, Dir.move, true_and]
    constructor
    · rintro ⟨-, h⟩ k hk hkn
      exact h _ (by omega) (by omega)
    · intro h
      refine ⟨by omega, fun x hlo hhi => ?_⟩
      have hcell := h (a.x - x) (by omega) (by omega)
      rwa [show a.x - (a.x - x) = x by omega] at hcell
  | right =>
    simp only [Dir.row, Leg, Row, Dir.move, true_and]
    constructor
    · rintro ⟨-, h⟩ k hk hkn
      exact h _ (by omega) (by omega)
    · intro h
      refine ⟨by omega, fun x hlo hhi => ?_⟩
      have hcell := h (x - a.x) (by omega) (by omega)
      rwa [show a.x + (x - a.x) = x by omega] at hcell
  | up =>
    simp only [Dir.row, Leg, Col, Dir.move, true_and]
    constructor
    · rintro ⟨-, h⟩ k hk hkn
      exact h _ (by omega) (by omega)
    · intro h
      refine ⟨by omega, fun y hlo hhi => ?_⟩
      have hcell := h (a.y - y) (by omega) (by omega)
      rwa [show a.y - (a.y - y) = y by omega] at hcell
  | down =>
    simp only [Dir.row, Leg, Col, Dir.move, true_and]
    constructor
    · rintro ⟨-, h⟩ k hk hkn
      exact h _ (by omega) (by omega)
    · intro h
      refine ⟨by omega, fun y hlo hhi => ?_⟩
      have hcell := h (y - a.y) (by omega) (by omega)
      rwa [show a.y + (y - a.y) = y by omega] at hcell

theorem leg_exists_move {row : Bool} (h : Leg free row a b) :
    ∃ d : Dir, d.row = row ∧ ∃ n, 0 < n ∧ b = d.move n a := by
  obtain ⟨ax, ay⟩ := a
  obtain ⟨bx, b_y⟩ := b
  cases row with
  | true =>
    obtain ⟨hy, hx, -⟩ : Row free _ _ := h
    simp only at hy hx
    obtain hlt | hgt := Int.lt_or_gt_of_ne hx
    · exact ⟨.right, rfl, bx - ax, by omega, by simp only [Dir.move, Cell.mk.injEq]; omega⟩
    · exact ⟨.left, rfl, ax - bx, by omega, by simp only [Dir.move, Cell.mk.injEq]; omega⟩
  | false =>
    obtain ⟨hx, hy, -⟩ : Col free _ _ := h
    simp only at hy hx
    obtain hlt | hgt := Int.lt_or_gt_of_ne hy
    · exact ⟨.down, rfl, b_y - ay, by omega, by simp only [Dir.move, Cell.mk.injEq]; omega⟩
    · exact ⟨.up, rfl, ay - b_y, by omega, by simp only [Dir.move, Cell.mk.injEq]; omega⟩

end GridPath
