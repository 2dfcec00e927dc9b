import DfewOS.MemH
import Mathlib.Tactic.SplitIfs

/-!
# Filling memory

`bfill` of `string.c`, which `memset` calls with the length as an `int`. It writes single
bytes up to a word boundary, whole words up to the last word of the area, and single bytes
from there on.
-/

namespace DfewOS.MemH

def byteFill (ch : UInt8) : ℕ → (ℕ → UInt8) → ℕ → ℕ → UInt8
  | 0, mem, _ => mem
  | n + 1, mem, buf => byteFill ch n (Function.update mem buf ch) (buf + 1)

/-- `while ((int)buf & ALIGNMENT)`, which ends within three rounds. -/
def alignFill (ch : UInt8) : ℕ → (ℕ → UInt8) → ℕ → (ℕ → UInt8) × ℕ
  | 0, mem, buf => (mem, buf)
  | n + 1, mem, buf =>
      if buf % 4 ≠ 0 then alignFill ch n (Function.update mem buf ch) (buf + 1)
      else (mem, buf)

/-- The `do`-loop over words; all four bytes of `val` are `ch`. -/
def wordFill (ch : UInt8) (buftmp : ℕ) (mem : ℕ → UInt8) (pBuf : ℕ) : (ℕ → UInt8) × ℕ :=
  if pBuf + 4 < buftmp then wordFill ch buftmp (byteFill ch 4 mem pBuf) (pBuf + 4)
  else (byteFill ch 4 mem pBuf, pBuf + 4)
termination_by buftmp - pBuf

def bfill (mem : ℕ → UInt8) (buf : ℕ) (nbytes : ℤ) (ch : UInt8) : ℕ → UInt8 :=
  let bufend : ℤ := buf + nbytes
  if nbytes < 10 then byteFill ch (bufend - buf).toNat mem buf
  else
    let a := alignFill ch 3 mem buf
    let w := wordFill ch (bufend - 4).toNat a.1 a.2
    -- the last word that was written is gone over once more
    byteFill ch (bufend - (w.2 - 4 : ℕ)).toNat w.1 (w.2 - 4)

def filled (mem : ℕ → UInt8) (lo hi : ℕ) (ch : UInt8) : ℕ → UInt8 :=
  fun x => if lo ≤ x ∧ x < hi then ch else mem x

variable {mem : ℕ → UInt8} {ch : UInt8} {lo mid hi : ℕ}

theorem filled_self : filled mem lo lo ch = mem := by
  funext x
  rw [filled, if_neg (by omega)]

theorem filled_filled (hlo : lo ≤ mid) {end₁ : ℕ} (hmid : mid ≤ end₁) (hhi : end₁ ≤ hi) :
    filled (filled mem lo end₁ ch) mid hi ch = filled mem lo hi ch := by
  funext x
  simp only [filled]
  split_ifs <;> first | rfl | omega

theorem byteFill_eq (n buf : ℕ) : byteFill ch n mem buf = filled mem buf (buf + n) ch := by
  induction n generalizing mem buf with
  | zero => rw [byteFill, Nat.add_zero, filled_self]
  | succ n ih =>
    have hone : Function.update mem buf ch = filled mem buf (buf + 1) ch := by
      funext x
      by_cases hx : x = buf
      · rw [hx, Function.update_self, filled, if_pos (by omega)]
      · rw [Function.update_of_ne hx, filled, if_neg (by omega)]
    rw [byteFill, ih, hone, filled_filled (by omega) (by omega) (by omega),
      show buf + 1 + n = buf + (n + 1) by omega]

theorem alignFill_eq {n buf : ℕ} (hn : (4 - buf % 4) % 4 ≤ n) :
    alignFill ch n mem buf =
      (filled mem buf (buf + (4 - buf % 4) % 4) ch, buf + (4 - buf % 4) % 4) := by
  induction n generalizing mem buf with
  | zero =>
    rw [alignFill, show (4 - buf % 4) % 4 = 0 by omega, Nat.add_zero, filled_self]
  | succ n ih =>
    rw [alignFill]
    split_ifs with hoff
    · have hnext : buf + 1 + (4 - (buf + 1) % 4) % 4 = buf + (4 - buf % 4) % 4 := by omega
      have hone : Function.update mem buf ch = filled mem buf (buf + 1) ch :=
        byteFill_eq 1 buf
      rw [ih (by omega), hnext, hone, filled_filled (by omega) (by omega) (by omega)]
    · rw [show (4 - buf % 4) % 4 = 0 by omega, Nat.add_zero, filled_self]

theorem wordFill_eq {buftmp pBuf : ℕ} (h : pBuf ≤ buftmp) :
    ∃ stop, pBuf + 4 ≤ stop ∧ buftmp ≤ stop ∧ stop ≤ buftmp + 4 ∧
      wordFill ch buftmp mem pBuf = (filled mem pBuf stop ch, stop) := by
  induction hn : buftmp - pBuf using Nat.strongRecOn generalizing mem pBuf with
  | ind n ih =>
    rw [wordFill]
    split_ifs with hmore
    · have hrest : pBuf + 4 ≤ buftmp := by omega
      obtain ⟨stop, hge, hlast, hle, heq⟩ := ih (buftmp - (pBuf + 4)) (by omega) hrest rfl
      refine ⟨stop, by omega, hlast, hle, ?_⟩
      rw [heq, byteFill_eq, filled_filled (by omega) (by omega) (by omega)]
    · exact ⟨pBuf + 4, le_refl _, by omega, by omega, by rw [byteFill_eq]⟩

theorem bfill_eq (buf : ℕ) (nbytes : ℤ) :
    bfill mem buf nbytes ch = fun x =>
      if buf ≤ x ∧ (x : ℤ) < buf + nbytes then ch else mem x := by
  have harea (len : ℕ) (hlen : (len : ℤ) = nbytes ∨ (len = 0 ∧ nbytes < 0)) :
      filled mem buf (buf + len) ch =
        fun x => if buf ≤ x ∧ (x : ℤ) < buf + nbytes then ch else mem x := by
    funext x
    have hiff : (buf ≤ x ∧ x < buf + len) ↔ (buf ≤ x ∧ (x : ℤ) < buf + nbytes) := by omega
    simp only [filled, hiff]
  rw [← harea nbytes.toNat (by omega), bfill]
  dsimp only
  split_ifs with hshort
  · rw [byteFill_eq, show ((buf : ℤ) + nbytes - buf).toNat = nbytes.toNat by omega]
  · have hroom : buf + (4 - buf % 4) % 4 ≤ ((buf : ℤ) + nbytes - 4).toNat := by omega
    obtain ⟨stop, hge, hlast, hle, hwords⟩ := wordFill_eq hroom
    have hlen : stop - 4 + ((buf : ℤ) + nbytes - (stop - 4 : ℕ)).toNat = buf + nbytes.toNat := by
      omega
    rw [alignFill_eq (by omega)]
    dsimp only
    rw [hwords, byteFill_eq, hlen, filled_filled (by omega) (by omega) (by omega),
      filled_filled (by omega) (by omega) (by omega)]

theorem Heap.memset_byte (h : Heap) (m : ℕ) (c : UInt8) (size : ℕ) :
    (h.memset m c size).byte = bfill h.byte m (toInt32 size) c := by
  rw [bfill_eq]
  rfl

end DfewOS.MemH
