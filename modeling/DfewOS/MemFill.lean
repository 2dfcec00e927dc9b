import DfewOS.Bfill
import DfewOS.ByteCopySpec
import Mathlib.Tactic.IntervalCases

/-!
# Filling memory with the low byte of an int

`bfill` and `memset` of `string.c` for every `int` value of the character, on pointers of 32
bits. A long area is filled with words that are put together from the whole `int` by shifting
it, so that bits above the low byte get into the words. The last word is gone over byte by
byte: only in the words before it the difference stays.
-/

namespace DfewOS.CString
open Loops (loop loop_rounds loop_mono loop_of_false)
open Memory (fresh)
open MemH (sub32 add32 toInt32 filled filled_self filled_filled)

def byteOf (v : BitVec 32) (i : ℕ) : UInt8 := UInt8.ofBitVec (v.extractLsb' (8 * i) 8)

structure Filling where
  memory : Memory
  buf : ℕ

/-- `*buf++ = ch` -/
def Filling.byte (ch : BitVec 32) (c : Filling) : Filling :=
  ⟨c.memory.fill 1 c.buf (byteOf ch), add32 c.buf 1⟩

/-- `*pBuf++ = val` -/
def Filling.word (val : BitVec 32) (c : Filling) : Filling :=
  ⟨c.memory.fill 4 c.buf (byteOf val), add32 c.buf 4⟩

def replicated (ch : BitVec 32) : BitVec 32 :=
  (ch <<< 24) ||| (ch <<< 16) ||| (ch <<< 8) ||| ch

def wordFill (fuel : ℕ) (c : Filling) (bufend : ℕ) (ch : BitVec 32) : Option Filling :=
  (loop (fun c => c.buf &&& alignment ≠ 0) (Filling.byte ch) fuel c).bind fun c =>
    let buftmp := sub32 bufend 4
    (loop (fun c => c.buf < buftmp) (Filling.word (replicated ch)) fuel
      (c.word (replicated ch))).map fun c => { c with buf := sub32 c.buf 4 }

def bfill (fuel : ℕ) (m : Memory) (buf : ℕ) (nbytes : ℤ) (ch : BitVec 32) : Option Memory :=
  let bufend := offset buf nbytes
  let words := if nbytes < 10 then some ⟨m, buf⟩ else wordFill fuel ⟨m, buf⟩ bufend ch
  (words.bind (loop (fun c => c.buf < bufend) (Filling.byte ch) fuel)).map Filling.memory

def memset (fuel : ℕ) (m : Memory) (p : ℕ) (c : BitVec 32) (size : ℕ) : Option (Memory × ℕ) :=
  (bfill fuel m p (toInt32 size) c).map fun m => (m, p)

section Bytes
variable {ch : BitVec 32}

/-- No bit is set in the upper bytes of `ch` that is not set in its low byte. -/
def Covers (ch : BitVec 32) : Prop :=
  byteOf ch 3 ||| byteOf ch 2 ||| byteOf ch 1 ||| byteOf ch 0 = byteOf ch 0

instance : Decidable (Covers ch) := inferInstanceAs (Decidable (_ = _))

theorem byteOf_replicated (ch : BitVec 32) :
    byteOf (replicated ch) 0 = byteOf ch 0 ∧
      byteOf (replicated ch) 1 = byteOf ch 1 ||| byteOf ch 0 ∧
      byteOf (replicated ch) 2 = byteOf ch 2 ||| byteOf ch 1 ||| byteOf ch 0 ∧
      byteOf (replicated ch) 3 = byteOf ch 3 ||| byteOf ch 2 ||| byteOf ch 1 ||| byteOf ch 0 := by
  refine ⟨?_, ?_, ?_, ?_⟩ <;>
  · apply UInt8.toBitVec_inj.mp
    ext i hi
    simp only [byteOf, replicated, Nat.reduceMul, UInt8.toBitVec_ofBitVec, UInt8.toBitVec_or,
      BitVec.getElem_extractLsb', BitVec.getElem_or, BitVec.getLsbD_or, BitVec.getLsbD_shiftLeft]
    grind

theorem or_absorb {a b c : UInt8} (h : a ||| b ||| c = c) : b ||| c = c := by
  apply UInt8.toBitVec_inj.mp
  ext i hi
  have hbit := congrArg (fun x : UInt8 => x.toBitVec[i]) h
  simp only [UInt8.toBitVec_or, BitVec.getElem_or] at hbit ⊢
  grind

/-- The words of a fill are made of the low byte alone exactly if it covers the others. -/
theorem covers_iff : Covers ch ↔ ∀ i < 4, byteOf (replicated ch) i = byteOf ch 0 := by
  obtain ⟨h0, h1, h2, h3⟩ := byteOf_replicated ch
  constructor
  · intro h i hi
    have htwo : byteOf ch 2 ||| byteOf ch 1 ||| byteOf ch 0 = byteOf ch 0 := by
      apply or_absorb (a := byteOf ch 3)
      rw [← UInt8.or_assoc]
      exact h
    have hone := or_absorb htwo
    interval_cases i
    · exact h0
    · exact h1.trans hone
    · exact h2.trans htwo
    · exact h3.trans h
  · intro h
    rw [Covers, ← h3]
    exact h 3 (by decide)

end Bytes

/-- The memory with the words of `val` in the cells from `lo` up to `hi`. -/
def worded (mem : ℕ → UInt8) (lo hi : ℕ) (val : BitVec 32) : ℕ → UInt8 :=
  fun x => if lo ≤ x ∧ x < hi then byteOf val ((x - lo) % 4) else mem x

section Loops
variable {mem : ℕ → UInt8} {ch : BitVec 32} {lo hi n k : ℕ} {c : Filling} (fuel : ℕ)

structure Filling.At (mem : ℕ → UInt8) (k : ℕ) (c : Filling) : Prop where
  buf : c.buf = k
  byte : c.memory.byte = mem

theorem Filling.At.byte_step (h : c.At (filled mem lo k (byteOf ch 0)) k) (hlo : lo ≤ k)
    (hk : k + 1 < 2 ^ 32) : (c.byte ch).At (filled mem lo (k + 1) (byteOf ch 0)) (k + 1) := by
  constructor
  · rw [Filling.byte, h.buf]
    exact Nat.mod_eq_of_lt hk
  · funext x
    rw [Filling.byte, h.buf]
    simp only [Memory.fill, h.byte, filled]
    split_ifs with hcell hpart
    · rw [show x - k = 0 by omega]
    · omega
    · rfl
    · omega
    · omega
    · rfl

theorem Filling.At.word_step (h : c.At (worded mem lo k ch) k) (hlo : lo ≤ k)
    (hfour : (k - lo) % 4 = 0) (hk : k + 4 < 2 ^ 32) :
    (c.word ch).At (worded mem lo (k + 4) ch) (k + 4) := by
  constructor
  · rw [Filling.word, h.buf]
    exact Nat.mod_eq_of_lt hk
  · funext x
    rw [Filling.word, h.buf]
    simp only [Memory.fill, h.byte, worded]
    split_ifs with hcell hpart
    · rw [show (x - lo) % 4 = x - k by omega]
    · omega
    · rfl
    · omega
    · omega
    · rfl

theorem bytes_filled (h : c.At mem lo) (hle : lo ≤ hi) (hhi : hi < 2 ^ 32) (hfuel : hi - lo < fuel) :
    ∃ t, loop (fun c => c.buf < hi) (Filling.byte ch) fuel c = some t ∧
      t.memory.byte = filled mem lo hi (byteOf ch 0) := by
  apply loop_rounds (fun j s => ∃ k, lo ≤ k ∧ k + j = hi ∧ s.At (filled mem lo k (byteOf ch 0)) k)
    (hi - lo)
  · rintro j s ⟨k, hlo, hk, hat⟩
    refine ⟨?_, k + 1, by omega, by omega, hat.byte_step hlo (by omega)⟩
    rw [hat.buf]
    exact decide_eq_true (by omega)
  · rintro s ⟨k, hlo, rfl, hat⟩
    refine ⟨?_, hat.byte⟩
    rw [hat.buf]
    exact decide_eq_false (by omega)
  · exact ⟨lo, le_rfl, by omega, by rw [filled_self]; exact h⟩
  · exact hfuel

theorem align_filled (h : c.At mem lo) (hlo : lo + 3 < 2 ^ 32) (hfuel : 3 < fuel) :
    ∃ t, loop (fun c => c.buf &&& alignment ≠ 0) (Filling.byte ch) fuel c = some t ∧
      t.At (filled mem lo (lo + (4 - lo % 4) % 4) (byteOf ch 0)) (lo + (4 - lo % 4) % 4) := by
  apply loop_rounds (fun j s => ∃ k, k + j = (4 - lo % 4) % 4 ∧
    s.At (filled mem lo (lo + k) (byteOf ch 0)) (lo + k)) ((4 - lo % 4) % 4)
  · rintro j s ⟨k, hk, hat⟩
    refine ⟨?_, k + 1, by omega, hat.byte_step (by omega) (by omega)⟩
    rw [hat.buf]
    exact decide_eq_true (by rw [ne_eq, aligned_iff]; omega)
  · rintro s ⟨k, hk, hat⟩
    obtain rfl : k = (4 - lo % 4) % 4 := hk
    refine ⟨?_, hat⟩
    rw [hat.buf]
    exact decide_eq_false (by rw [ne_eq, aligned_iff]; omega)
  · exact ⟨0, by omega, by rw [Nat.add_zero, filled_self]; exact h⟩
  · omega

theorem words_filled (h : c.At (worded mem lo (lo + 4) ch) (lo + 4)) (hle : lo < hi)
    (hhi : hi + 4 ≤ 2 ^ 32) (hfuel : hi - lo < fuel) :
    ∃ t, loop (fun c => c.buf < hi) (Filling.word ch) fuel c = some t ∧
      t.At (worded mem lo (lo + 4 * ((hi - lo - 1) / 4) + 4) ch)
        (lo + 4 * ((hi - lo - 1) / 4) + 4) := by
  apply loop_rounds (fun j s => ∃ i, i + j = (hi - lo - 1) / 4 ∧
    s.At (worded mem lo (lo + 4 * i + 4) ch) (lo + 4 * i + 4)) ((hi - lo - 1) / 4)
  · rintro j s ⟨i, hij, hat⟩
    refine ⟨?_, i + 1, by omega, hat.word_step (by omega) (by omega) (by omega)⟩
    rw [hat.buf]
    exact decide_eq_true (by omega)
  · rintro s ⟨i, hij, hat⟩
    obtain rfl : i = (hi - lo - 1) / 4 := hij
    refine ⟨?_, hat⟩
    rw [hat.buf]
    exact decide_eq_false (by omega)
  · exact ⟨0, by omega, h⟩
  · omega

end Loops

section Fill
variable {mem : ℕ → UInt8} {p n fuel more : ℕ} {m m' : Memory} {ch : BitVec 32} {z : ℤ}

theorem bfill_mono (h : bfill fuel m p z ch = some m') (hle : fuel ≤ more) :
    bfill more m p z ch = some m' := by
  rw [bfill] at h ⊢
  obtain ⟨t, ht, hm⟩ := Option.map_eq_some_iff.mp h
  obtain ⟨w, hw, ht⟩ := Option.bind_eq_some_iff.mp ht
  refine Option.map_eq_some_iff.mpr ⟨t, Option.bind_eq_some_iff.mpr ⟨w, ?_, loop_mono ht hle⟩, hm⟩
  split_ifs at hw ⊢
  · exact hw
  · rw [wordFill] at hw ⊢
    obtain ⟨u, hu, hw⟩ := Option.bind_eq_some_iff.mp hw
    obtain ⟨v, hv, hw⟩ := Option.map_eq_some_iff.mp hw
    refine Option.bind_eq_some_iff.mpr ⟨u, loop_mono hu hle, ?_⟩
    exact Option.map_eq_some_iff.mpr ⟨v, loop_mono hv hle, hw⟩

theorem bfill_unique {m'' : Memory} (h : bfill fuel m p z ch = some m')
    (h' : bfill more m p z ch = some m'') : m' = m'' := by
  have hmax := bfill_mono h (Nat.le_max_left fuel more)
  have hmax' := bfill_mono h' (Nat.le_max_right fuel more)
  exact Option.some.inj (hmax.symm.trans hmax')

/-- The words of a fill that keep what is in the upper bytes of the character. -/
def keptWords (p n : ℕ) : ℕ := (n - (4 - p % 4) % 4 - 5) / 4

theorem wordFill_words (mem : ℕ → UInt8) (ch : BitVec 32) (hn : 10 ≤ n) (hend : p + n ≤ 2 ^ 32) :
    ∃ t, wordFill (n + 10) ⟨fresh mem, p⟩ ((p + n) % 2 ^ 32) ch = some t ∧
      t.At (worded (filled mem p (p + (4 - p % 4) % 4) (byteOf ch 0)) (p + (4 - p % 4) % 4)
        (p + (4 - p % 4) % 4 + 4 * keptWords p n + 4) (replicated ch))
        (p + (4 - p % 4) % 4 + 4 * keptWords p n) := by
  have hstart : Filling.At mem p ⟨fresh mem, p⟩ := ⟨rfl, rfl⟩
  obtain ⟨c, hc, hat⟩ := align_filled (n + 10) hstart (by omega) (by omega)
  have hself : worded (filled mem p (p + (4 - p % 4) % 4) (byteOf ch 0)) (p + (4 - p % 4) % 4)
      (p + (4 - p % 4) % 4) (replicated ch) =
        filled mem p (p + (4 - p % 4) % 4) (byteOf ch 0) := by
    funext x
    rw [worded, if_neg (by omega)]
  rw [← hself] at hat
  have hfirst := hat.word_step le_rfl (by omega) (by omega)
  have htmp : sub32 ((p + n) % 2 ^ 32) 4 = p + n - 4 := by
    rw [sub32]
    omega
  have hroom : p + (4 - p % 4) % 4 < p + n - 4 := by omega
  obtain ⟨w, hw, hlast⟩ := words_filled (n + 10) hfirst hroom (by omega) (by omega)
  have hkept : (p + n - 4 - (p + (4 - p % 4) % 4) - 1) / 4 = keptWords p n := by
    rw [keptWords]
    omega
  rw [hkept] at hlast
  refine ⟨{ w with buf := sub32 w.buf 4 }, ?_, ?_, hlast.byte⟩
  · rw [wordFill, hc, Option.bind_some]
    simp only [htmp, hw, Option.map_some]
  · simp only [hlast.buf, keptWords, sub32]
    omega

theorem bfill_short (mem : ℕ → UInt8) (ch : BitVec 32) (hn : n < 10) (hend : p + n < 2 ^ 32) :
    ∃ m, bfill (n + 10) (fresh mem) p n ch = some m ∧
      m.byte = filled mem p (p + n) (byteOf ch 0) := by
  have hstart : Filling.At mem p ⟨fresh mem, p⟩ := ⟨rfl, rfl⟩
  obtain ⟨t, ht, hbyte⟩ := bytes_filled (n + 10) hstart (Nat.le_add_right p n) hend (by omega)
  refine ⟨t.memory, ?_, hbyte⟩
  rw [bfill, offset_of_nat, Nat.mod_eq_of_lt hend, if_pos (by omega), Option.bind_some, ht]
  rfl

theorem bfill_long (mem : ℕ → UInt8) (ch : BitVec 32) (hn : 10 ≤ n) (hend : p + n < 2 ^ 32) :
    ∃ m, bfill (n + 10) (fresh mem) p n ch = some m ∧ ∀ x, m.byte x =
      if p + (4 - p % 4) % 4 ≤ x ∧ x < p + (4 - p % 4) % 4 + 4 * keptWords p n then
        byteOf (replicated ch) ((x - (p + (4 - p % 4) % 4)) % 4)
      else filled mem p (p + n) (byteOf ch 0) x := by
  obtain ⟨w, hw, hat⟩ := wordFill_words mem ch hn (show p + n ≤ 2 ^ 32 by omega)
  have hle : 4 * keptWords p n + 4 + (4 - p % 4) % 4 ≤ n := by
    rw [keptWords]
    omega
  obtain ⟨t, ht, hbyte⟩ := bytes_filled (n + 10) hat (show p + (4 - p % 4) % 4 +
    4 * keptWords p n ≤ p + n by omega) hend (by omega)
  refine ⟨t.memory, ?_, fun x => ?_⟩
  · rw [bfill, offset_of_nat, if_neg (by omega), hw, Option.bind_some, Nat.mod_eq_of_lt hend, ht]
    rfl
  · rw [hbyte]
    simp only [filled, worded]
    split_ifs <;> first | rfl | omega

theorem bfill_top (mem : ℕ → UInt8) (ch : BitVec 32) (hpos : 0 < n) (hn : n < 2 ^ 31)
    (hend : p + n = 2 ^ 32) :
    ∃ m, bfill (n + 10) (fresh mem) p n ch = some m ∧ m.byte (2 ^ 32 - 1) = mem (2 ^ 32 - 1) := by
  have htop : (p + n) % 2 ^ 32 = 0 := by omega
  by_cases hlong : 10 ≤ n
  · obtain ⟨w, hw, hat⟩ := wordFill_words mem ch hlong (show p + n ≤ 2 ^ 32 by omega)
    refine ⟨w.memory, ?_, ?_⟩
    · rw [bfill, offset_of_nat, if_neg (by omega), hw, Option.bind_some, htop, loop_of_false]
      · rfl
      · exact decide_eq_false (Nat.not_lt_zero _)
    · have hlast : p + (4 - p % 4) % 4 + 4 * keptWords p n + 4 ≤ 2 ^ 32 - 1 := by
        rw [keptWords]
        omega
      rw [hat.byte, worded, if_neg (by omega), filled, if_neg (by omega)]
  · refine ⟨fresh mem, ?_, rfl⟩
    rw [bfill, offset_of_nat, if_pos (by omega), Option.bind_some, htop, loop_of_false]
    · rfl
    · exact decide_eq_false (Nat.not_lt_zero _)

end Fill

/-- From every memory `memset` returns `p`, and has put the low byte of `c` into the `n` bytes from
`p` on and changed no other one. -/
def FillsLowByte (p : ℕ) (c : BitVec 32) (n : ℕ) : Prop := ∀ mem, ∃ fuel m,
  memset fuel (fresh mem) p c n = some (m, p) ∧
    ∀ x, m.byte x = if p ≤ x ∧ x < p + n then byteOf c 0 else mem x

section Memset
variable {p n : ℕ} {c : BitVec 32}

theorem fillsLowByte_iff (hn : n < 2 ^ 31) : FillsLowByte p c n ↔ ∀ mem, ∃ fuel m,
    bfill fuel (fresh mem) p n c = some m ∧ m.byte = filled mem p (p + n) (byteOf c 0) := by
  have hint : toInt32 n = n := by rw [toInt32, if_pos hn]
  constructor
  · intro h mem
    obtain ⟨fuel, m, hm, hbyte⟩ := h mem
    rw [memset, hint] at hm
    obtain ⟨m', hm', heq⟩ := Option.map_eq_some_iff.mp hm
    obtain rfl := (Prod.mk.inj heq).1
    exact ⟨fuel, m', hm', funext hbyte⟩
  · intro h mem
    obtain ⟨fuel, m, hm, hbyte⟩ := h mem
    refine ⟨fuel, m, ?_, congrFun hbyte⟩
    rw [memset, hint, hm]
    rfl

theorem FillsLowByte.of_words (hn : n < 2 ^ 31) (hend : p + n < 2 ^ 32)
    (h : n < 10 ∨ n ≤ (4 - p % 4) % 4 + 8 ∨ Covers c) : FillsLowByte p c n := by
  rw [fillsLowByte_iff hn]
  intro mem
  by_cases hlong : 10 ≤ n
  · obtain ⟨m, hm, hbyte⟩ := bfill_long mem c hlong hend
    refine ⟨n + 10, m, hm, funext fun x => ?_⟩
    rw [hbyte]
    split_ifs with hword
    · rw [filled, if_pos (by rw [keptWords] at hword; omega)]
      rcases h with hshort | hfew | hcovers
      · omega
      · rw [keptWords] at hword
        omega
      · exact covers_iff.mp hcovers _ (Nat.mod_lt _ (by decide))
    · rfl
  · obtain ⟨m, hm, hbyte⟩ := bfill_short mem c (show n < 10 by omega) hend
    exact ⟨n + 10, m, hm, hbyte⟩

theorem FillsLowByte.below_top (hp : p < 2 ^ 32) (hn : n < 2 ^ 31) (hend : p + n ≤ 2 ^ 32)
    (h : FillsLowByte p c n) : p + n < 2 ^ 32 := by
  by_contra htop
  rw [fillsLowByte_iff hn] at h
  obtain ⟨fuel, m, hm, hbyte⟩ := h fun _ => byteOf c 0 + 1
  obtain ⟨m', hm', hlast⟩ := bfill_top (fun _ => byteOf c 0 + 1) c (show 0 < n by omega) hn
    (show p + n = 2 ^ 32 by omega)
  obtain rfl := bfill_unique hm hm'
  rw [hbyte, filled, if_pos (by omega)] at hlast
  have hnat := congrArg UInt8.toNat hlast
  rw [UInt8.toNat_add, show (1 : UInt8).toNat = 1 from rfl] at hnat
  omega

theorem FillsLowByte.covers (hn : n < 2 ^ 31) (hend : p + n < 2 ^ 32)
    (hlong : (4 - p % 4) % 4 + 8 < n) (hten : 10 ≤ n) (h : FillsLowByte p c n) : Covers c := by
  rw [covers_iff]
  intro i hi
  rw [fillsLowByte_iff hn] at h
  obtain ⟨fuel, m, hm, hbyte⟩ := h fun _ => 0
  obtain ⟨m', hm', hwords⟩ := bfill_long (fun _ => 0) c hten hend
  obtain rfl := bfill_unique hm hm'
  have hkept : 1 ≤ keptWords p n := by
    rw [keptWords]
    omega
  have hx := hwords (p + (4 - p % 4) % 4 + i)
  rw [if_pos (by omega), hbyte, filled, if_pos (by omega), Nat.add_sub_cancel_left,
    Nat.mod_eq_of_lt hi] at hx
  exact hx.symm

/-- Where it fills with the low byte, `bfill` does what `MemH.bfill` says of a character. -/
theorem FillsLowByte.plain (h : FillsLowByte p c n) (hn : n < 2 ^ 31) (mem : ℕ → UInt8) :
    ∃ fuel m, bfill fuel (fresh mem) p n c = some m ∧ m.byte = MemH.bfill mem p n (byteOf c 0) := by
  obtain ⟨fuel, m, hm, hbyte⟩ := (fillsLowByte_iff hn).mp h mem
  have harea : ∀ x, (p ≤ x ∧ (x : ℤ) < p + (n : ℤ)) ↔ (p ≤ x ∧ x < p + n) := by
    intro x
    omega
  refine ⟨fuel, m, hm, ?_⟩
  rw [hbyte, MemH.bfill_eq]
  funext x
  simp only [filled, harea]

end Memset

/-- `memset` stores the low byte exactly where the words it writes are made of that byte, or
where it writes at most one, which it goes over again. -/
theorem memset_low_byte {p n : ℕ} (c : BitVec 32) (hp : p < 2 ^ 32) (hn : n < 2 ^ 31)
    (hend : p + n ≤ 2 ^ 32) : FillsLowByte p c n ↔
      p + n < 2 ^ 32 ∧ (n < 10 ∨ n ≤ (4 - p % 4) % 4 + 8 ∨ Covers c) := by
  constructor
  · intro h
    have htop := h.below_top hp hn hend
    refine ⟨htop, ?_⟩
    by_contra hbad
    rw [not_or, not_or] at hbad
    exact hbad.2.2 (h.covers hn htop (by omega) (by omega))
  · rintro ⟨htop, h⟩
    exact .of_words hn htop h

theorem memset_low_byte_minus_one : FillsLowByte 0x51000003 (-1) 100 :=
  (memset_low_byte (-1) (by decide) (by decide) (by decide)).mpr ⟨by decide, by decide⟩

/-- The second byte of `256` gets into the words. -/
theorem memset_of_256 : ¬ FillsLowByte 0x51000000 256 12 := by
  intro h
  exact absurd (h.covers (by decide) (by decide) (by decide) (by decide)) (by decide)

end DfewOS.CString
