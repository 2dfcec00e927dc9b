import DfewOS.EccSpec

/-!
# Single and double errors in any number of bytes

The same for the code of the tags, whose line parities are the numbers of the
bytes themselves.
-/

namespace DfewOS.Ecc
open XorBits

theorem weightBelow_byte (x : BitVec 32) (s : ℕ) {n : ℕ} (hn : n ≤ 8) :
    weightBelow x (s + n) = weightBelow x s + weightBelow ((x >>> s).setWidth 8) n := by
  induction n with
  | zero => rfl
  | succ n ih =>
    have hbit : ((x >>> s).setWidth 8).getLsbD n = x.getLsbD (s + n) := by
      rw [BitVec.getLsbD_setWidth, BitVec.getLsbD_ushiftRight, decide_eq_true (by omega),
        Bool.true_and]
    rw [← Nat.add_assoc, weightBelow, weightBelow, ih (by omega), hbit, Nat.add_assoc]

theorem hweight32_eq (x : BitVec 32) : hweight32 x = weight x := by
  have h0 := weightBelow_byte x 0 (Nat.le_refl 8)
  have h1 := weightBelow_byte x 8 (Nat.le_refl 8)
  have h2 := weightBelow_byte x 16 (Nat.le_refl 8)
  have h3 := weightBelow_byte x 24 (Nat.le_refl 8)
  have hzero : weightBelow x 0 = 0 := rfl
  rw [BitVec.ushiftRight_zero] at h0
  rw [hweight32, hweight8_eq, hweight8_eq, hweight8_eq, hweight8_eq, weight, weight, weight, weight,
    weight, h3, h2, h1, h0, hzero, Nat.zero_add]

namespace EccOther
variable {data : Data} {nBytes : ℕ} {e e' : EccOther}

def xor (e e' : EccOther) : EccOther :=
  ⟨e.colParity ^^^ e'.colParity, e.lineParity ^^^ e'.lineParity,
    e.lineParityPrime ^^^ e'.lineParityPrime⟩

def weight (e : EccOther) : ℕ :=
  XorBits.weight e.lineParity + XorBits.weight e.lineParityPrime + XorBits.weight e.colParity

def pairs (e : EccOther) : Prop :=
  e.lineParity = ~~~e.lineParityPrime ∧ onePerPair e.colParity 0x15

def colBits (bit : ℕ) : BitVec 8 := (columnPattern bit >>> 2) &&& 0x3f

def flip (i bit : ℕ) : EccOther :=
  ⟨colBits bit, BitVec.ofNat 32 i, ~~~BitVec.ofNat 32 i⟩

theorem calc_flip (data : Data) {i bit : ℕ} (hi : i < nBytes) (hbit : bit < 8) :
    yaffsEccCalcOther (data.flip i bit) nBytes = (yaffsEccCalcOther data nBytes).xor (flip i bit) := by
  unfold yaffsEccCalcOther
  rw [parities_flip data hi hbit]
  unfold xor flip
  dsimp only [Parities.xor, flipParities]
  rw [BitVec.ushiftRight_xor_distrib, xor_and]
  rfl

theorem pairs_weight (h : e.pairs) : 32 ≤ e.weight := by
  have hsum := weight_not e.lineParityPrime
  rw [weight, h.1]
  omega

theorem weight_of_zero (h : e.colParity.setWidth 32 ||| e.lineParity ||| e.lineParityPrime = 0) :
    e.weight = 0 := by
  obtain ⟨h01, h2⟩ := BitVec.or_eq_zero_iff.mp h
  obtain ⟨h0, h1⟩ := BitVec.or_eq_zero_iff.mp h01
  have hcol : e.colParity = 0#8 := by
    have hnat := congrArg BitVec.toNat h0
    rw [BitVec.toNat_setWidth_of_le (by decide)] at hnat
    exact BitVec.eq_of_toNat_eq hnat
  rw [weight, hcol, h1, h2, weight_zero, weight_zero]

theorem weights_eq (e : EccOther) :
    hweight32 e.lineParity + hweight32 e.lineParityPrime + hweight8 e.colParity = e.weight := by
  rw [hweight32_eq, hweight32_eq, hweight8_eq]
  rfl

theorem correct_pairs (h : (e.xor e').pairs) (hbyte : (e.xor e').lineParity.toNat < nBytes) :
    yaffsEccCorrectOther data nBytes e e' = (1, data.flip (e.xor e').lineParity.toNat
      (bitOf (e.xor e').colParity 0x20 0x08 0x02), e) := by
  have hne : ¬ (e.xor e').colParity.setWidth 32 ||| (e.xor e').lineParity |||
      (e.xor e').lineParityPrime = 0 := by
    intro hzero
    have := weight_of_zero hzero
    have := pairs_weight h
    omega
  exact (if_neg hne).trans ((if_pos h).trans (if_neg (not_le.mpr hbyte)))

theorem correct_code (hweight : (e.xor e').weight = 1) :
    yaffsEccCorrectOther data nBytes e e' = (1, data, e') := by
  have hne : ¬ (e.xor e').colParity.setWidth 32 ||| (e.xor e').lineParity |||
      (e.xor e').lineParityPrime = 0 := by
    intro hzero
    have := weight_of_zero hzero
    omega
  have hpairs : ¬ (e.xor e').pairs := by
    intro h
    have := pairs_weight h
    omega
  exact (if_neg hne).trans ((if_neg hpairs).trans (if_pos ((weights_eq _).trans hweight)))

theorem correct_failed (h : ¬ (e.xor e').pairs) (hweight : 2 ≤ (e.xor e').weight) :
    yaffsEccCorrectOther data nBytes e e' = (-1, data, e) := by
  have hne : ¬ (e.xor e').colParity.setWidth 32 ||| (e.xor e').lineParity |||
      (e.xor e').lineParityPrime = 0 := by
    intro hzero
    have := weight_of_zero hzero
    omega
  have hone : ¬ hweight32 (e.xor e').lineParity + hweight32 (e.xor e').lineParityPrime +
      hweight8 (e.xor e').colParity = 1 := by
    rw [weights_eq]
    omega
  exact (if_neg hne).trans ((if_neg h).trans (if_neg hone))

end EccOther

/-- A wrong bit of some bytes and their code. -/
inductive FlipOther
  | data (i : ℕ) (bit : Fin 8)
  | col (bit : Fin 8)
  | line (bit : Fin 32)
  | prime (bit : Fin 32)
  deriving DecidableEq

namespace FlipOther

def inside (nBytes : ℕ) : FlipOther → Prop
  | .data i _ => i < nBytes
  | .col _ | .line _ | .prime _ => True

/-- All but the two bits of the column parity that are not used. -/
def used : FlipOther → Prop
  | .col bit => bit.val < 6
  | .data _ _ | .line _ | .prime _ => True

def delta : FlipOther → EccOther
  | .data i bit => .flip i bit
  | .col bit => ⟨.twoPow 8 bit, 0, 0⟩
  | .line bit => ⟨0, .twoPow 32 bit, 0⟩
  | .prime bit => ⟨0, 0, .twoPow 32 bit⟩

def code : FlipOther → Prop
  | .data _ _ => False
  | .col _ | .line _ | .prime _ => True

theorem delta_code {f : FlipOther} (hf : f.code) : f.delta.weight = 1 := by
  cases f with
  | data i bit => exact hf.elim
  | col bit => simp [delta, EccOther.weight, weight_zero, weight_twoPow bit.isLt]
  | line bit => simp [delta, EccOther.weight, weight_zero, weight_twoPow bit.isLt]
  | prime bit => simp [delta, EccOther.weight, weight_zero, weight_twoPow bit.isLt]

theorem single_data {i : ℕ} (hi : i < 2 ^ 32) (bit : Fin 8) : (EccOther.flip i bit).pairs ∧
    (EccOther.flip i bit).lineParity.toNat = i ∧
    bitOf (EccOther.flip i bit).colParity 0x20 0x08 0x02 = bit ∧
    XorBits.weight (EccOther.flip i bit).colParity = 3 := by
  have hcol : ∀ bit : Fin 8, onePerPair (EccOther.colBits bit) 0x15 ∧
      bitOf (EccOther.colBits bit) 0x20 0x08 0x02 = bit ∧ weight (EccOther.colBits bit) = 3 := by
    decide
  obtain ⟨hpairs, hbit, hweight⟩ := hcol bit
  refine ⟨⟨BitVec.not_not.symm, hpairs⟩, ?_, hbit, hweight⟩
  exact (BitVec.toNat_ofNat i 32).trans (Nat.mod_eq_of_lt hi)

theorem code_code {f g : FlipOther} (hf : f.code) (hg : g.code) (h : f ≠ g) :
    (f.delta.xor g.delta).weight = 2 := by
  have hpair {w j k : ℕ} (hj : j < w) (hk : k < w) (hne : j ≠ k) :
      XorBits.weight (BitVec.twoPow w j ^^^ BitVec.twoPow w k) = 2 := weight_pair hj hk hne
  cases f with
  | data i bit => exact hf.elim
  | col bit =>
    cases g with
    | data i bit => exact hg.elim
    | col bit' =>
      have hne : bit.val ≠ bit'.val := fun heq => h (congrArg col (Fin.ext heq))
      simp [delta, EccOther.xor, EccOther.weight, weight_zero, hpair bit.isLt bit'.isLt hne]
    | line bit' | prime bit' =>
      simp [delta, EccOther.xor, EccOther.weight, weight_zero, weight_twoPow bit.isLt,
        weight_twoPow bit'.isLt]
  | line bit =>
    cases g with
    | data i bit => exact hg.elim
    | line bit' =>
      have hne : bit.val ≠ bit'.val := fun heq => h (congrArg line (Fin.ext heq))
      simp [delta, EccOther.xor, EccOther.weight, weight_zero, hpair bit.isLt bit'.isLt hne]
    | col bit' | prime bit' =>
      simp [delta, EccOther.xor, EccOther.weight, weight_zero, weight_twoPow bit.isLt,
        weight_twoPow bit'.isLt]
  | prime bit =>
    cases g with
    | data i bit => exact hg.elim
    | prime bit' =>
      have hne : bit.val ≠ bit'.val := fun heq => h (congrArg prime (Fin.ext heq))
      simp [delta, EccOther.xor, EccOther.weight, weight_zero, hpair bit.isLt bit'.isLt hne]
    | col bit' | line bit' =>
      simp [delta, EccOther.xor, EccOther.weight, weight_zero, weight_twoPow bit.isLt,
        weight_twoPow bit'.isLt]

theorem not_self_not (x : BitVec 32) : x ≠ ~~~x := by
  intro h
  have hbit := congrArg (BitVec.getLsbD · 0) h
  simp only [BitVec.getLsbD_not] at hbit
  cases hx : x.getLsbD 0 <;> rw [hx] at hbit <;> exact absurd hbit (by decide)

theorem data_data {i i' : ℕ} {bit bit' : Fin 8} (hi : i < 2 ^ 32) (hi' : i' < 2 ^ 32)
    (h : ¬ (i = i' ∧ bit = bit')) : ¬ ((EccOther.flip i bit).xor (.flip i' bit')).pairs ∧
      2 ≤ ((EccOther.flip i bit).xor (.flip i' bit')).weight := by
  have hcol : ∀ bit bit' : Fin 8, weight (EccOther.colBits bit ^^^ EccOther.colBits bit') % 2 = 0 ∧
      (weight (EccOther.colBits bit ^^^ EccOther.colBits bit') = 0 → bit = bit') := by decide
  obtain ⟨heven, hsame⟩ := hcol bit bit'
  set x := BitVec.ofNat 32 i ^^^ BitVec.ofNat 32 i' with hx
  have hd : (EccOther.flip i bit).xor (.flip i' bit') =
      ⟨EccOther.colBits bit ^^^ EccOther.colBits bit', x, x⟩ := by
    rw [EccOther.xor, EccOther.flip, EccOther.flip, complement_xor_complement]
  rw [hd]
  refine ⟨fun hpairs => not_self_not x hpairs.1, ?_⟩
  show 2 ≤ weight x + weight x + weight (EccOther.colBits bit ^^^ EccOther.colBits bit')
  by_contra hlt
  apply h
  refine ⟨?_, hsame (by omega)⟩
  have heq := BitVec.xor_eq_zero_iff.mp (hx.symm.trans (eq_zero_of_weight (x := x) (by omega)))
  have hnat := congrArg BitVec.toNat heq
  rw [BitVec.toNat_ofNat, BitVec.toNat_ofNat] at hnat
  omega

theorem twoPow_ne_zero {w k : ℕ} (hk : k < w) : BitVec.twoPow w k ≠ 0#w := by
  intro h
  have hweight := weight_twoPow hk
  rw [h, weight_zero] at hweight
  exact absurd hweight (by decide)

theorem data_code {i : ℕ} (hi : i < 2 ^ 32) (bit : Fin 8) {g : FlipOther} (hg : g.code)
    (hused : g.used) : ¬ ((EccOther.flip i bit).xor g.delta).pairs ∧
      2 ≤ ((EccOther.flip i bit).xor g.delta).weight := by
  obtain ⟨⟨-, hcol⟩, -, -, hweight⟩ := single_data hi bit
  have hsame {w : ℕ} (b : BitVec w) : b ^^^ 0 = b := BitVec.xor_zero
  have hself (y e : BitVec 32) (h : y ^^^ e = y) : e = 0#32 := by
    have hcancel := congrArg (y ^^^ ·) h
    rwa [← BitVec.xor_assoc, BitVec.xor_self, BitVec.zero_xor] at hcancel
  cases g with
  | data i bit => exact hg.elim
  | col bit' =>
    have hmask : ∀ k : Fin 8, k.val < 6 →
        (BitVec.twoPow 8 k ^^^ (BitVec.twoPow 8 k >>> 1)) &&& 0x15 ≠ 0 := by decide
    refine ⟨fun h => ?_, ?_⟩
    · exact absurd h.2 (Bool.eq_false_iff.mp (onePerPair_twoPow (hmask bit' hused) hcol))
    · show 2 ≤ XorBits.weight (BitVec.ofNat 32 i ^^^ 0) +
        XorBits.weight (~~~BitVec.ofNat 32 i ^^^ 0) + _
      rw [hsame, hsame]
      have := weight_not (BitVec.ofNat 32 i)
      omega
  | line bit' =>
    refine ⟨fun h => ?_, ?_⟩
    · have hline : BitVec.ofNat 32 i ^^^ BitVec.twoPow 32 bit' = ~~~(~~~BitVec.ofNat 32 i ^^^ 0) := h.1
      rw [hsame, BitVec.not_not] at hline
      exact twoPow_ne_zero bit'.isLt (hself _ _ hline)
    · show 2 ≤ _ + XorBits.weight ((EccOther.flip i bit).colParity ^^^ 0)
      rw [hsame]
      omega
  | prime bit' =>
    refine ⟨fun h => ?_, ?_⟩
    · have hline : BitVec.ofNat 32 i ^^^ 0 = ~~~(~~~BitVec.ofNat 32 i ^^^ BitVec.twoPow 32 bit') := h.1
      rw [hsame, complement_xor, BitVec.not_not] at hline
      exact twoPow_ne_zero bit'.isLt (hself _ _ hline.symm)
    · show 2 ≤ _ + XorBits.weight ((EccOther.flip i bit).colParity ^^^ 0)
      rw [hsame]
      omega

theorem double_failed {nBytes : ℕ} (hn : nBytes ≤ 2 ^ 32) {f g : FlipOther} (h : f ≠ g)
    (hf : f.inside nBytes ∧ f.used) (hg : g.inside nBytes ∧ g.used) :
    ¬ (f.delta.xor g.delta).pairs ∧ 2 ≤ (f.delta.xor g.delta).weight := by
  have hcode (f g : FlipOther) (hf : f.code) (hg : g.code) (h : f ≠ g) :
      ¬ (f.delta.xor g.delta).pairs ∧ 2 ≤ (f.delta.xor g.delta).weight := by
    have hweight := code_code hf hg h
    refine ⟨fun hpairs => ?_, hweight.ge⟩
    have := EccOther.pairs_weight hpairs
    omega
  have hcomm (e e' : EccOther) : e.xor e' = e'.xor e := by
    rw [EccOther.xor, EccOther.xor, BitVec.xor_comm e.colParity, BitVec.xor_comm e.lineParity,
      BitVec.xor_comm e.lineParityPrime]
  have hlt {i : ℕ} {bit : Fin 8} (hin : (data i bit).inside nBytes) : i < 2 ^ 32 :=
    lt_of_lt_of_le hin hn
  cases f with
  | data i bit =>
    cases g with
    | data i' bit' =>
      refine data_data (hlt hf.1) (hlt hg.1) fun heq => h ?_
      rw [heq.1, heq.2]
    | col | line | prime => exact data_code (hlt hf.1) bit trivial hg.2
  | col | line | prime =>
    cases g with
    | data i' bit' =>
      rw [hcomm]
      exact data_code (hlt hg.1) bit' trivial hf.2
    | col | line | prime => exact hcode _ _ trivial trivial h

end FlipOther

structure Chunk where
  data : Data
  ecc : EccOther

namespace Chunk
variable {nBytes : ℕ}

def stored (nBytes : ℕ) (data : Data) : Chunk := ⟨data, yaffsEccCalcOther data nBytes⟩

def flip (c : Chunk) : FlipOther → Chunk
  | .data i bit => { c with data := c.data.flip i bit }
  | .col bit => { c with ecc := c.ecc.xor (FlipOther.col bit).delta }
  | .line bit => { c with ecc := c.ecc.xor (FlipOther.line bit).delta }
  | .prime bit => { c with ecc := c.ecc.xor (FlipOther.prime bit).delta }

/-- The code is calculated again, and the bytes corrected with it. -/
def correct (nBytes : ℕ) (c : Chunk) : ℤ × Data × EccOther :=
  yaffsEccCorrectOther c.data nBytes c.ecc (yaffsEccCalcOther c.data nBytes)

def delta (nBytes : ℕ) (c : Chunk) : EccOther := c.ecc.xor (yaffsEccCalcOther c.data nBytes)

theorem stored_delta (data : Data) : (stored nBytes data).delta nBytes = ⟨0, 0, 0⟩ := by
  simp [stored, delta, EccOther.xor]

theorem zero_xor (e : EccOther) : EccOther.xor ⟨0, 0, 0⟩ e = e := by
  simp [EccOther.xor]

theorem xor_assoc (e e' e'' : EccOther) : (e.xor e').xor e'' = e.xor (e'.xor e'') := by
  simp only [EccOther.xor, BitVec.xor_assoc]

theorem xor_right_comm (e e' e'' : EccOther) : (e.xor e').xor e'' = (e.xor e'').xor e' := by
  rw [EccOther.xor, EccOther.xor, EccOther.xor, EccOther.xor, EccOther.mk.injEq]
  dsimp only
  exact ⟨by ac_rfl, by ac_rfl, by ac_rfl⟩

theorem flip_delta (c : Chunk) {f : FlipOther} (hf : f.inside nBytes) :
    (c.flip f).delta nBytes = (c.delta nBytes).xor f.delta := by
  cases f with
  | data i bit =>
    rw [flip, delta, delta, EccOther.calc_flip c.data hf bit.isLt, ← xor_assoc]
    rfl
  | col | line | prime => exact xor_right_comm _ _ _

theorem stored_correct (data : Data) :
    (stored nBytes data).correct nBytes = (0, data, (stored nBytes data).ecc) := by
  have hzero : (stored nBytes data).delta nBytes = ⟨0, 0, 0⟩ := stored_delta data
  apply if_pos
  show BitVec.setWidth 32 ((stored nBytes data).delta nBytes).colParity |||
    ((stored nBytes data).delta nBytes).lineParity |||
    ((stored nBytes data).delta nBytes).lineParityPrime = 0
  rw [hzero]
  rfl

theorem flip_correct (hn : nBytes ≤ 2 ^ 32) (data : Data) {f : FlipOther} (hf : f.inside nBytes) :
    ((stored nBytes data).flip f).correct nBytes = (1, data, (stored nBytes data).ecc) := by
  have hdelta : ((stored nBytes data).flip f).delta nBytes = f.delta := by
    rw [flip_delta _ hf, stored_delta, zero_xor]
  have hcode (hc : f.code) (hdata : ((stored nBytes data).flip f).data = data) :
      ((stored nBytes data).flip f).correct nBytes = (1, data, (stored nBytes data).ecc) := by
    have hweight : (((stored nBytes data).flip f).delta nBytes).weight = 1 := by
      rw [hdelta]
      exact FlipOther.delta_code hc
    rw [correct, EccOther.correct_code hweight, hdata]
    rfl
  cases f with
  | data i bit =>
    have hi : i < 2 ^ 32 := lt_of_lt_of_le hf hn
    obtain ⟨hpairs, hbyte, hbit, -⟩ := FlipOther.single_data hi bit
    rw [correct, EccOther.correct_pairs]
    · rw [← delta, hdelta]
      show (1, (data.flip i bit).flip (EccOther.flip i bit).lineParity.toNat
        (bitOf (EccOther.flip i bit).colParity 0x20 0x08 0x02), _) = _
      rw [hbyte, hbit, flip_flip]
      rfl
    · rw [← delta, hdelta]
      exact hpairs
    · rw [← delta, hdelta]
      exact lt_of_eq_of_lt hbyte hf
  | col | line | prime => exact hcode trivial rfl

theorem double_correct (hn : nBytes ≤ 2 ^ 32) (data : Data) {f g : FlipOther} (hne : f ≠ g)
    (hf : f.inside nBytes ∧ f.used) (hg : g.inside nBytes ∧ g.used) :
    let r := ((stored nBytes data).flip f).flip g
    r.correct nBytes = (-1, r.data, r.ecc) := by
  have hdelta : (((stored nBytes data).flip f).flip g).delta nBytes = f.delta.xor g.delta := by
    rw [flip_delta _ hg.1, flip_delta _ hf.1, stored_delta, zero_xor]
  obtain ⟨hpairs, hweight⟩ := FlipOther.double_failed hn hne hf hg
  apply EccOther.correct_failed
  · rw [← delta, hdelta]
    exact hpairs
  · rw [← delta, hdelta]
    exact hweight

end Chunk

/-- What is stored is read as it is; a wrong bit of the bytes or their code is corrected; and two
wrong bits, wherever they are but in the two unused bits of the code, are detected and change
nothing. -/
theorem ecc_other {nBytes : ℕ} (hn : nBytes ≤ 2 ^ 32) (data : Data) :
    let c := Chunk.stored nBytes data
    c.correct nBytes = (0, data, c.ecc) ∧
      (∀ f : FlipOther, f.inside nBytes → (c.flip f).correct nBytes = (1, data, c.ecc)) ∧
      ∀ f g : FlipOther, f ≠ g → f.inside nBytes ∧ f.used → g.inside nBytes ∧ g.used →
        let r := (c.flip f).flip g
        r.correct nBytes = (-1, r.data, r.ecc) :=
  ⟨Chunk.stored_correct data, fun _ hf => Chunk.flip_correct hn data hf,
    fun _ _ hne hf hg => Chunk.double_correct hn data hne hf hg⟩

theorem ecc_other_tags :
    ((Chunk.stored 16 fun _ => 0xff).flip (.data 3 5)).correct 16 =
      (1, fun _ => 0xff, (Chunk.stored 16 fun _ => 0xff).ecc) :=
  (ecc_other (by decide) fun _ => 0xff).2.1 (.data 3 5) (show 3 < 16 by decide)

end DfewOS.Ecc
