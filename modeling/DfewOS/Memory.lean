import Mathlib.Data.Nat.Notation
import Mathlib.Data.Set.Basic
import Mathlib.Logic.Function.Basic
import Mathlib.Tactic.SplitIfs

/-!
# Memory that logs its accesses

The bytes of a memory with the addresses that were read and written so far. `touch` and
`store` access one byte; `move` copies a cell of a few bytes, all of which are read before the
first is written. `Moved` says that a part of an area has been moved; it grows at either end as
long as the cells that are read have not been written before.
-/

structure Memory where
  byte : ℕ → UInt8
  reads : List ℕ
  writes : List ℕ

namespace Memory

/-- A memory in which nothing has been accessed yet. -/
def fresh (byte : ℕ → UInt8) : Memory := ⟨byte, [], []⟩

def move (k source destination : ℕ) (m : Memory) : Memory where
  byte x := if destination ≤ x ∧ x < destination + k then m.byte (source + (x - destination))
    else m.byte x
  reads := List.range' source k ++ m.reads
  writes := List.range' destination k ++ m.writes

def fill (k destination : ℕ) (value : ℕ → UInt8) (m : Memory) : Memory where
  byte x := if destination ≤ x ∧ x < destination + k then value (x - destination) else m.byte x
  reads := m.reads
  writes := List.range' destination k ++ m.writes

def touch (p : ℕ) (m : Memory) : Memory := { m with reads := p :: m.reads }

def store (p : ℕ) (value : UInt8) (m : Memory) : Memory where
  byte := Function.update m.byte p value
  reads := m.reads
  writes := p :: m.writes

theorem store_of_ne {m : Memory} {p x : ℕ} {value : UInt8} (h : x ≠ p) :
    (m.store p value).byte x = m.byte x :=
  Function.update_of_ne h _ _

structure Looked (m m' : Memory) (A : Set ℕ) : Prop where
  byte : m'.byte = m.byte
  writes : m'.writes = m.writes
  reads : ∀ x ∈ m'.reads, x ∈ m.reads ∨ x ∈ A

theorem Looked.refl (m : Memory) (A : Set ℕ) : Looked m m A := ⟨rfl, rfl, fun _ => Or.inl⟩

theorem Looked.trans {m₁ m₂ m₃ : Memory} {A : Set ℕ} (h : Looked m₁ m₂ A) (h' : Looked m₂ m₃ A) :
    Looked m₁ m₃ A where
  byte := h'.byte.trans h.byte
  writes := h'.writes.trans h.writes
  reads x hx := by
    rcases h'.reads x hx with hold | hnew
    · exact h.reads x hold
    · exact Or.inr hnew

theorem Looked.touch {p : ℕ} {A : Set ℕ} (m : Memory) (hp : p ∈ A) : Looked m (m.touch p) A where
  byte := rfl
  writes := rfl
  reads x hx := by
    rcases List.mem_cons.mp hx with rfl | hold
    · exact Or.inr hp
    · exact Or.inl hold

/-- Of an area that is moved from `source` to `destination`, the bytes from `lo` up to `hi`
have been moved. -/
structure Moved (old m : Memory) (source destination lo hi : ℕ) : Prop where
  byte : ∀ x, m.byte x = if destination + lo ≤ x ∧ x < destination + hi then
    old.byte (source + (x - destination)) else old.byte x
  reads : ∀ x, x ∈ m.reads ↔ x ∈ old.reads ∨ (source + lo ≤ x ∧ x < source + hi)
  writes : ∀ x, x ∈ m.writes ↔ x ∈ old.writes ∨ (destination + lo ≤ x ∧ x < destination + hi)

variable {old m : Memory} {source destination lo hi k n : ℕ}

theorem Moved.refl (m : Memory) (source destination lo : ℕ) :
    Moved m m source destination lo lo := by
  constructor
  · intro x
    rw [if_neg (by omega)]
  · intro x
    rw [or_iff_left (by omega)]
  · intro x
    rw [or_iff_left (by omega)]

theorem mem_range'_append {a x : ℕ} {l : List ℕ} :
    x ∈ List.range' a k ++ l ↔ x ∈ l ∨ (a ≤ x ∧ x < a + k) := by
  rw [List.mem_append, List.mem_range'_1, or_comm]

theorem Moved.above (h : Moved old m source destination lo hi) (hle : lo ≤ hi)
    (hsafe : destination ≤ source ∨ source + hi + k ≤ destination + lo) :
    Moved old (m.move k (source + hi) (destination + hi)) source destination lo (hi + k) := by
  constructor
  · intro x
    simp only [move]
    split_ifs with hcell hpart hpart
    · rw [h.byte, if_neg (by omega), show source + hi + (x - (destination + hi)) =
        source + (x - destination) by omega]
    · omega
    · rw [h.byte, if_pos (by omega)]
    · rw [h.byte, if_neg (by omega)]
  · intro x
    rw [move, mem_range'_append, h.reads, or_assoc]
    exact or_congr_right (by omega)
  · intro x
    rw [move, mem_range'_append, h.writes, or_assoc]
    exact or_congr_right (by omega)

theorem Moved.below (h : Moved old m source destination (lo + k) hi) (hle : lo + k ≤ hi)
    (hsafe : source ≤ destination ∨ destination + hi ≤ source + lo) :
    Moved old (m.move k (source + lo) (destination + lo)) source destination lo hi := by
  constructor
  · intro x
    simp only [move]
    split_ifs with hcell hpart hpart
    · rw [h.byte, if_neg (by omega), show source + lo + (x - (destination + lo)) =
        source + (x - destination) by omega]
    · omega
    · rw [h.byte, if_pos (by omega)]
    · rw [h.byte, if_neg (by omega)]
  · intro x
    rw [move, mem_range'_append, h.reads, or_assoc]
    exact or_congr_right (by omega)
  · intro x
    rw [move, mem_range'_append, h.writes, or_assoc]
    exact or_congr_right (by omega)

/-- The bytes from `lo` up to `hi` have been written once each, byte `x` with `value x`. -/
structure Filled (old m : Memory) (lo hi : ℕ) (value : ℕ → UInt8) : Prop where
  byte : ∀ x, m.byte x = if lo ≤ x ∧ x < hi then value x else old.byte x
  writes : m.writes.Perm (List.range' lo (hi - lo) ++ old.writes)

variable {value cell : ℕ → UInt8}

theorem Filled.refl (m : Memory) (lo : ℕ) (value : ℕ → UInt8) : Filled m m lo lo value := by
  constructor
  · intro x
    rw [if_neg (by omega)]
  · rw [Nat.sub_self, List.range'_zero, List.nil_append]

theorem Filled.fill (h : Filled old m lo hi value) (hle : lo ≤ hi)
    (hcell : ∀ i < k, cell i = value (hi + i)) : Filled old (m.fill k hi cell) lo (hi + k) value := by
  constructor
  · intro x
    simp only [Memory.fill]
    split_ifs with hnew hall hall
    · rw [hcell _ (by omega), show hi + (x - hi) = x by omega]
    · omega
    · rw [h.byte, if_pos (by omega)]
    · rw [h.byte, if_neg (by omega)]
  · have hrange : List.range' lo (hi + k - lo) = List.range' lo (hi - lo) ++ List.range' hi k := by
      rw [show hi + k - lo = (hi - lo) + k by omega, ← List.range'_append_1,
        show lo + (hi - lo) = hi by omega]
    rw [hrange, List.append_assoc]
    exact (h.writes.append_left _).trans (List.perm_append_comm_assoc ..)

theorem Filled.byte_eq {m' : Memory} (h : Filled old m lo hi value) (h' : Filled old m' lo hi value) :
    m.byte = m'.byte := by
  funext x
  rw [h.byte, h'.byte]

end Memory
