import Mathlib.Logic.Function.Basic
import Mathlib.Tactic.Common
import Mathlib.Tactic.Ring.RingNF

/-!
# Bit maps in 32-bit words

The macros `BIT_SET`, `BIT_CLEAR` and `BIT_VALUE` on an array of words, as the
code applies them to entry `i`: word `i >> 5`, bit `i & 0x1f`. `lsb` is the
loop of `LSB`, bounded by the word's width.
-/

namespace DfewOS.BitMap

def setBit (w : BitVec 32) (pos : ℕ) : BitVec 32 := w ||| (1#32 <<< pos)

def clearBit (w : BitVec 32) (pos : ℕ) : BitVec 32 := w &&& ~~~(1#32 <<< pos)

theorem getLsbD_setBit (w : BitVec 32) {pos : ℕ} (hp : pos < 32) (j : ℕ) :
    (setBit w pos).getLsbD j = (w.getLsbD j || decide (pos = j)) := by
  rw [setBit, BitVec.getLsbD_or, ← BitVec.twoPow_eq, BitVec.getLsbD_twoPow]
  simp [hp]

theorem getLsbD_clearBit (w : BitVec 32) {pos : ℕ} (hp : pos < 32) (j : ℕ) :
    (clearBit w pos).getLsbD j = (w.getLsbD j && !decide (pos = j)) := by
  rw [clearBit, BitVec.getLsbD_and, BitVec.getLsbD_not, ← BitVec.twoPow_eq, BitVec.getLsbD_twoPow]
  by_cases hj : j < 32
  · simp [hp, hj]
  · simp [BitVec.getLsbD_of_ge w j (by omega)]

theorem eq_zero_iff (w : BitVec 32) : w = 0 ↔ ∀ j < 32, w.getLsbD j = false := by
  constructor
  · rintro rfl j -
    exact BitVec.getLsbD_zero
  · intro h
    apply BitVec.eq_of_getLsbD_eq
    intro j hj
    rw [h j hj]
    exact BitVec.getLsbD_zero.symm

def value (map : ℕ → BitVec 32) (i : ℕ) : Bool := (map (i >>> 5)).getLsbD (i &&& 0x1f)

def set (map : ℕ → BitVec 32) (i : ℕ) : ℕ → BitVec 32 :=
  Function.update map (i >>> 5) (setBit (map (i >>> 5)) (i &&& 0x1f))

def clear (map : ℕ → BitVec 32) (i : ℕ) : ℕ → BitVec 32 :=
  Function.update map (i >>> 5) (clearBit (map (i >>> 5)) (i &&& 0x1f))

theorem word_index (i : ℕ) : i >>> 5 = i / 32 := Nat.shiftRight_eq_div_pow i 5

theorem bit_index (i : ℕ) : i &&& 0x1f = i % 32 := Nat.and_two_pow_sub_one_eq_mod i 5

theorem bit_index_lt (i : ℕ) : i &&& 0x1f < 32 := by
  rw [bit_index]
  exact Nat.mod_lt _ (by decide)

theorem index_eq_iff (i j : ℕ) : i = j ↔ i >>> 5 = j >>> 5 ∧ i &&& 0x1f = j &&& 0x1f := by
  simp only [word_index, bit_index]
  omega

theorem value_set (map : ℕ → BitVec 32) (i j : ℕ) :
    value (set map i) j = (value map j || decide (i = j)) := by
  by_cases hw : j >>> 5 = i >>> 5
  · have hij : i = j ↔ i &&& 0x1f = j &&& 0x1f := by
      rw [index_eq_iff i j]
      exact and_iff_right hw.symm
    simp only [value, set, hw, Function.update_self, getLsbD_setBit _ (bit_index_lt i), hij]
  · have hij : i ≠ j := by
      rintro rfl
      exact hw rfl
    simp [value, set, hw, hij]

theorem value_clear (map : ℕ → BitVec 32) (i j : ℕ) :
    value (clear map i) j = (value map j && !decide (i = j)) := by
  by_cases hw : j >>> 5 = i >>> 5
  · have hij : i = j ↔ i &&& 0x1f = j &&& 0x1f := by
      rw [index_eq_iff i j]
      exact and_iff_right hw.symm
    simp only [value, clear, hw, Function.update_self, getLsbD_clearBit _ (bit_index_lt i), hij]
  · have hij : i ≠ j := by
      rintro rfl
      exact hw rfl
    simp [value, clear, hw, hij]

theorem setBit_clearBit {w : BitVec 32} {pos : ℕ} (hp : pos < 32) (h : w.getLsbD pos = true) :
    setBit (clearBit w pos) pos = w := by
  apply BitVec.eq_of_getLsbD_eq
  intro j _
  rw [getLsbD_setBit _ hp, getLsbD_clearBit _ hp]
  by_cases hj : pos = j
  · subst hj
    simp [h]
  · simp [hj]

theorem set_clear {map : ℕ → BitVec 32} {i : ℕ} (h : value map i = true) :
    set (clear map i) i = map := by
  rw [set, clear, Function.update_self, Function.update_idem, setBit_clearBit (bit_index_lt i) h,
    Function.update_eq_self]

theorem word_ne_zero_iff (map : ℕ → BitVec 32) (g : ℕ) :
    map g ≠ 0 ↔ ∃ b < 32, value map (32 * g + b) = true := by
  have hval : ∀ b < 32, value map (32 * g + b) = (map g).getLsbD b := by
    intro b hb
    have hw : (32 * g + b) >>> 5 = g := by rw [word_index]; omega
    have hm : (32 * g + b) &&& 0x1f = b := by rw [bit_index]; omega
    rw [value, hw, hm]
  rw [ne_eq, eq_zero_iff]
  push Not
  constructor
  · rintro ⟨b, hb, hset⟩
    exact ⟨b, hb, by rw [hval b hb]; simpa using hset⟩
  · rintro ⟨b, hb, hset⟩
    exact ⟨b, hb, by rw [← hval b hb, hset]; decide⟩

def lsbFrom : ℕ → BitVec 32 → ℕ → ℕ
  | 0, _, i => i
  | n + 1, bitMap, i => if bitMap &&& 1#32 = 0 then lsbFrom n (bitMap >>> 1) (i + 1) else i

def lsb (bitMap : BitVec 32) : Int := if bitMap = 0 then -1 else lsbFrom 32 bitMap 0

theorem and_one_eq_zero_iff (w : BitVec 32) : w &&& 1#32 = 0 ↔ w.getLsbD 0 = false := by
  rw [eq_zero_iff]
  constructor
  · intro h
    simpa using h 0 (by decide)
  · intro h j _
    rw [BitVec.getLsbD_and, BitVec.getLsbD_one]
    by_cases hj : j = 0
    · rw [hj, h, Bool.false_and]
    · simp [hj]

theorem lsbFrom_spec {n : ℕ} (w : BitVec 32) (i b : ℕ) (hb : w.getLsbD b = true)
    (hlow : ∀ j < b, w.getLsbD j = false) (hn : b < n) : lsbFrom n w i = i + b := by
  induction n generalizing w i b with
  | zero => omega
  | succ n ih =>
    rw [lsbFrom]
    cases b with
    | zero =>
      have hone : w &&& 1#32 ≠ 0 := by
        rw [ne_eq, and_one_eq_zero_iff, hb]
        decide
      rw [if_neg hone, Nat.add_zero]
    | succ b =>
      rw [if_pos ((and_one_eq_zero_iff w).mpr (hlow 0 (by omega)))]
      have hstep := ih (w >>> 1) (i + 1) b
        (by rw [BitVec.getLsbD_ushiftRight, Nat.add_comm]; exact hb)
        (fun j hj => by
          rw [BitVec.getLsbD_ushiftRight, Nat.add_comm]
          exact hlow (j + 1) (by omega))
        (by omega)
      omega

theorem lsb_eq {w : BitVec 32} {b : ℕ} (hb : w.getLsbD b = true)
    (hlow : ∀ j < b, w.getLsbD j = false) : lsb w = b := by
  have hb32 : b < 32 := BitVec.lt_of_getLsbD hb
  have hne : w ≠ 0 := by
    rintro rfl
    simp at hb
  rw [lsb, if_neg hne, lsbFrom_spec w 0 b hb hlow hb32, Nat.zero_add]

theorem lsb_zero : lsb 0 = -1 := if_pos rfl

theorem lsb_of_ne_zero {w : BitVec 32} (hw : w ≠ 0) :
    ∃ b < 32, w.getLsbD b = true ∧ lsb w = (b : ℕ) := by
  have hex : ∃ b, w.getLsbD b = true := by
    by_contra hno
    apply hw
    rw [eq_zero_iff]
    intro j _
    by_contra hj
    exact hno ⟨j, by simpa using hj⟩
  have hb := Nat.find_spec hex
  have hlow : ∀ j < Nat.find hex, w.getLsbD j = false := fun j hj => by
    simpa using Nat.find_min hex hj
  exact ⟨Nat.find hex, BitVec.lt_of_getLsbD hb, hb, lsb_eq hb hlow⟩

end DfewOS.BitMap
