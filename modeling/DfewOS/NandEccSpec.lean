import Mathlib.Data.List.GetD
import DfewOS.EccOtherSpec
import DfewOS.NandEcc

/-!
# The two implementations of the code of a block

The driver and the file system calculate the same code and correct the same
bits, up to the order of the first two bytes.
-/

namespace DfewOS.NandEcc
open Ecc (Data Ecc256 Parities parities columnParity bitAt byteOf bitOf)
open XorBits

/-! ## Calculation -/

theorem getD_of_map_eq {α β γ : Type} {f : α → γ} {g : β → γ} {l : List α} {l' : List β}
    (h : l.map f = l'.map g) (n : ℕ) {a : α} {b : β} (hd : f a = g b) :
    f (l.getD n a) = g (l'.getD n b) := by
  rw [← List.getD_map l a f, ← List.getD_map l' b g, h, hd]

theorem precalc_eq (b : BitVec 8) : precalc b &&& 0x3f = (columnParity b >>> 2) &&& 0x3f ∧
    ((precalc b &&& 0x40 ≠ 0) ↔ columnParity b &&& 1 ≠ 0) := by
  have htable : nandEccPrecalcTable.map (fun p => (p &&& 0x3f, decide (p &&& 0x40 ≠ 0))) =
      Ecc.columnParityTable.map
        fun c : BitVec 8 => ((c >>> 2) &&& 0x3f, decide (c &&& 1 ≠ 0)) := by
    decide +kernel
  have hentry := getD_of_map_eq htable b.toNat (a := 0) (b := 0) (by decide)
  obtain ⟨hcol, hodd⟩ := Prod.mk.inj hentry
  exact ⟨hcol, decide_eq_decide.mp hodd⟩

/-- The registers are the parities, but for the two low bits of the columns. -/
structure Agrees (r : Regs) (p : Parities 8) : Prop where
  col : r.reg1 = (p.col >>> 2) &&& 0x3f
  prime : r.reg2 = p.prime
  line : r.reg3 = p.line

theorem Agrees.add {r : Regs} {p : Parities 8} (h : Agrees r p) (i : ℕ) (byte : BitVec 8) :
    Agrees (r.add i byte) (p.add i byte) := by
  obtain ⟨hidx, hodd⟩ := precalc_eq byte
  have hcol : r.reg1 ^^^ (precalc byte &&& 0x3f) =
      ((p.col ^^^ columnParity byte) >>> 2) &&& 0x3f := by
    rw [h.col, hidx, BitVec.ushiftRight_xor_distrib, xor_and]
  unfold Regs.add Parities.add
  dsimp only
  by_cases hone : precalc byte &&& 0x40 ≠ 0
  · rw [if_pos hone, if_pos (hodd.mp hone)]
    refine ⟨hcol, ?_, ?_⟩
    · rw [h.prime]
    · rw [h.line]
  · rw [if_neg hone, if_neg fun hb => hone (hodd.mpr hb)]
    exact ⟨hcol, h.prime, h.line⟩

theorem regs_agree (data : Data) (n : ℕ) : Agrees (regs data n) (parities 8 data n) := by
  induction n with
  | zero => exact ⟨show (0 : BitVec 8) = ((0 : BitVec 8) >>> 2) &&& 0x3f by decide, rfl, rfl⟩
  | succ n ih => exact ih.add n (data n)

theorem and_bit (x : BitVec 8) {k : ℕ} {m : BitVec 8} (hm : m = BitVec.twoPow 8 k) :
    x &&& m = bitAt (x.getLsbD k) m := by
  rw [hm]
  exact BitVec.and_twoPow ..

theorem tmp1_eq (line prime : BitVec 8) : tmp1 line prime = Ecc.highBits line prime := by
  refine Eq.trans ?_ (Ecc.lineBits_or line prime (show 7 < 8 by decide) (show 6 < 8 by decide)
    (show 5 < 8 by decide) (show 4 < 8 by decide)).symm
  have h7 := fun x => and_bit x (show (0x80 : BitVec 8) = BitVec.twoPow 8 7 by decide)
  have h6 := fun x => and_bit x (show (0x40 : BitVec 8) = BitVec.twoPow 8 6 by decide)
  have h5 := fun x => and_bit x (show (0x20 : BitVec 8) = BitVec.twoPow 8 5 by decide)
  have h4 := fun x => and_bit x (show (0x10 : BitVec 8) = BitVec.twoPow 8 4 by decide)
  rw [tmp1, h7, h7, h6, h6, h5, h5, h4, h4]
  simp only [Ecc.bitAt_ushiftRight]
  rfl

theorem tmp2_eq (line prime : BitVec 8) : tmp2 line prime = Ecc.lowBits line prime := by
  refine Eq.trans ?_ (Ecc.lineBits_or line prime (show 3 < 8 by decide) (show 2 < 8 by decide)
    (show 1 < 8 by decide) (show 0 < 8 by decide)).symm
  have h3 := fun x => and_bit x (show (0x08 : BitVec 8) = BitVec.twoPow 8 3 by decide)
  have h2 := fun x => and_bit x (show (0x04 : BitVec 8) = BitVec.twoPow 8 2 by decide)
  have h1 := fun x => and_bit x (show (0x02 : BitVec 8) = BitVec.twoPow 8 1 by decide)
  have h0 := fun x => and_bit x (show (0x01 : BitVec 8) = BitVec.twoPow 8 0 by decide)
  rw [tmp2, h3, h3, h2, h2, h1, h1, h0, h0]
  simp only [Ecc.bitAt_shiftLeft]
  rfl

theorem column_eq (c : BitVec 8) :
    (~~~((c >>> 2) &&& 0x3f)) <<< 2 ||| 0x03 = ~~~c ||| (0x03 : BitVec 8) := by
  have hall : ∀ i : Fin (2 ^ 8), (~~~(((BitVec.ofFin i) >>> 2) &&& 0x3f)) <<< 2 ||| 0x03 =
      ~~~(BitVec.ofFin i) ||| (0x03 : BitVec 8) := by decide +kernel
  exact hall c.toFin

/-- The first two bytes are the other way round. -/
def swapped (e : Ecc256) : Ecc256 := ⟨e.b1, e.b0, e.b2⟩

theorem calculate_eq (data : Data) :
    nandCalculateEcc data = swapped (Ecc.yaffsEccCacl data) := by
  have hagree := regs_agree data 256
  rw [nandCalculateEcc, hagree.col, hagree.prime, hagree.line]
  rw [tmp1_eq, tmp2_eq, column_eq]
  rfl

/-! ## Correction -/

theorem byteoffs_eq (s1 s0 : BitVec 8) : (byteoffs s1 s0).toNat = byteOf s1 s0 := by
  have hhigh : ∀ i : Fin (2 ^ 8), (byteoffs (.ofFin i) 0).toNat = byteOf (.ofFin i) 0 := by
    decide +kernel
  have hlow : ∀ i : Fin (2 ^ 8), (byteoffs 0 (.ofFin i)).toNat = byteOf 0 (.ofFin i) := by
    decide +kernel
  have hsplit : byteoffs s1 s0 = byteoffs s1 0 ||| byteoffs 0 s0 := by
    simp [byteoffs, BitVec.or_assoc]
  have hsplit' : byteOf s1 s0 = byteOf s1 0 ||| byteOf 0 s0 := by
    simp [byteOf, Nat.or_assoc]
  rw [hsplit, hsplit', BitVec.toNat_or]
  exact congrArg₂ _ (hhigh s1.toFin) (hlow s0.toFin)

theorem bitnum_eq (s2 : BitVec 8) : (bitnum s2).toNat = bitOf s2 0x80 0x20 0x08 := by
  have hall : ∀ i : Fin (2 ^ 8), (bitnum (.ofFin i)).toNat = bitOf (.ofFin i) 0x80 0x20 0x08 := by
    decide +kernel
  exact hall s2.toFin

theorem countbits_step (n : ℕ) : countbits n = n % 2 + countbits (n / 2) := by
  conv_lhs => rw [countbits]
  split_ifs with hn
  · subst hn
    rw [countbits, if_pos rfl]
  · rfl

theorem countbits_zero : countbits 0 = 0 := by rw [countbits, if_pos rfl]

theorem countbits_small {b : ℕ} (hb : b < 2) : countbits b = b := by
  rw [countbits_step, Nat.div_eq_of_lt hb, countbits_zero, Nat.mod_eq_of_lt hb, Nat.add_zero]

theorem countbits_split (k n : ℕ) : countbits n = countbits (n % 2 ^ k) + countbits (n / 2 ^ k) := by
  induction k generalizing n with
  | zero => rw [pow_zero, Nat.mod_one, Nat.div_one, countbits_zero, Nat.zero_add]
  | succ k ih =>
    have hpow : 2 ^ (k + 1) = 2 * 2 ^ k := by rw [Nat.pow_succ, Nat.mul_comm]
    rw [countbits_step n, ih (n / 2), countbits_step (n % 2 ^ (k + 1)), hpow,
      Nat.mod_mul_right_mod, Nat.mod_mul_right_div_self, Nat.div_div_eq_div_mul, Nat.add_assoc]

theorem countbits_below {v : ℕ} (x : BitVec v) (n : ℕ) :
    countbits (x.toNat % 2 ^ n) = weightBelow x n := by
  induction n with
  | zero => rw [pow_zero, Nat.mod_one, countbits_zero, weightBelow]
  | succ n ih =>
    have hbit : (x.getLsbD n).toNat = x.toNat / 2 ^ n % 2 := by
      rw [BitVec.getLsbD, Nat.testBit_eq_decide_div_mod_eq]
      rcases Nat.mod_two_eq_zero_or_one (x.toNat / 2 ^ n) with h | h <;> rw [h] <;> rfl
    rw [countbits_split n, weightBelow, hbit, ← ih, Nat.pow_succ, Nat.mod_mul_right_mod,
      Nat.mod_mul_right_div_self, countbits_small (Nat.mod_lt _ (by decide))]

theorem countbits_weight {v : ℕ} (x : BitVec v) : countbits x.toNat = weight x := by
  rw [weight, ← countbits_below, Nat.mod_eq_of_lt x.isLt]

theorem countbits_eq (s0 s1 s2 : BitVec 8) :
    countbits (s0.setWidth 32 ||| s1.setWidth 32 <<< 8 ||| s2.setWidth 32 <<< 16).toNat =
      weight s0 + weight s1 + weight s2 := by
  set x := s0.setWidth 32 ||| s1.setWidth 32 <<< 8 ||| s2.setWidth 32 <<< 16 with hx
  have hbit (j : ℕ) (hj : j < 32) : x.getLsbD j = (s0.getLsbD j ||
      (!decide (j < 8) && s1.getLsbD (j - 8)) || (!decide (j < 16) && s2.getLsbD (j - 16))) := by
    simp [hx, hj]
  have hbyte (s : ℕ) (y : BitVec 8) (h : ∀ k < 8, x.getLsbD (s + k) = y.getLsbD k) :
      (x >>> s).setWidth 8 = y := by
    apply BitVec.eq_of_getLsbD_eq
    intro k hk
    rw [BitVec.getLsbD_setWidth, BitVec.getLsbD_ushiftRight, decide_eq_true hk, Bool.true_and]
    exact h k hk
  have hover (y : BitVec 8) {k : ℕ} (hk : 8 ≤ k) : y.getLsbD k = false := BitVec.getLsbD_of_ge y k hk
  have h0 : (x >>> 0).setWidth 8 = s0 := by
    apply hbyte
    intro k hk
    rw [hbit _ (by omega), decide_eq_true (by omega), decide_eq_true (by omega)]
    simp
  have h1 : (x >>> 8).setWidth 8 = s1 := by
    apply hbyte
    intro k hk
    rw [hbit _ (by omega), hover s0 (by omega), decide_eq_false (by omega),
      decide_eq_true (by omega), Nat.add_sub_cancel_left]
    simp
  have h2 : (x >>> 16).setWidth 8 = s2 := by
    apply hbyte
    intro k hk
    rw [hbit _ (by omega), hover s0 (by omega), hover s1 (by omega), decide_eq_false (by omega),
      decide_eq_false (by omega), Nat.add_sub_cancel_left]
    simp
  have h3 : (x >>> 24).setWidth 8 = 0#8 := by
    apply hbyte
    intro k hk
    rw [hbit _ (by omega), hover s0 (by omega), hover s1 (by omega), hover s2 (by omega)]
    simp
  rw [BitVec.ushiftRight_zero] at h0
  rw [countbits_weight, ← Ecc.hweight32_eq, Ecc.hweight32, h0, h1, h2, h3, Ecc.hweight8_eq,
    Ecc.hweight8_eq, Ecc.hweight8_eq, Ecc.hweight8_eq, weight_zero, Nat.add_zero]

/-- The driver and the file system, with the same code in their own order: the same code is
calculated, and the same bit of the data corrected or the same failure found. -/
theorem nand_ecc_agrees (data : Data) :
    nandCalculateEcc data = swapped (Ecc.yaffsEccCacl data) ∧
      ∀ readEcc calcEcc : Ecc256,
        let y := Ecc.yaffsEccCorrect data readEcc calcEcc
        nandCorrectData data (swapped readEcc) (swapped calcEcc) =
          (if y.1 = -1 then -ebadmsg else y.1, y.2.1) := by
  refine ⟨calculate_eq data, fun readEcc calcEcc => ?_⟩
  unfold nandCorrectData Ecc.yaffsEccCorrect swapped
  dsimp only
  rw [BitVec.xor_comm readEcc.b0, BitVec.xor_comm readEcc.b1, BitVec.xor_comm readEcc.b2]
  rw [byteoffs_eq, bitnum_eq, countbits_eq, Ecc.hweight8_eq, Ecc.hweight8_eq, Ecc.hweight8_eq]
  generalize calcEcc.b0 ^^^ readEcc.b0 = d0
  generalize calcEcc.b1 ^^^ readEcc.b1 = d1
  generalize calcEcc.b2 ^^^ readEcc.b2 = d2
  have hpair : onePerPair = Ecc.onePerPair := rfl
  rw [hpair]
  by_cases hzero : d0 ||| d1 ||| d2 = 0
  · rw [if_pos hzero, if_pos hzero]
    rfl
  rw [if_neg hzero, if_neg hzero]
  by_cases hpairs : Ecc.onePerPair d0 0x55 ∧ Ecc.onePerPair d1 0x55 ∧ Ecc.onePerPair d2 0x54
  · rw [if_pos hpairs, if_pos hpairs]
    rfl
  rw [if_neg hpairs, if_neg hpairs]
  by_cases hone : weight d0 + weight d1 + weight d2 = 1
  · rw [if_pos hone, if_pos hone]
    rfl
  · rw [if_neg hone, if_neg hone]
    rfl

end DfewOS.NandEcc
