import DfewOS.Ecc
import DfewOS.XorBits

/-!
# Single errors are corrected and double errors detected

The codes are linear: what a wrong bit adds to the difference of the two codes
depends on the bit alone. A wrong bit of the data sets one bit of each pair, two
of them set both or none, and a wrong bit of the code is alone in its pair.
-/

namespace DfewOS.Ecc
open XorBits

/-! ## The tables -/

def columnPattern (bit : ℕ) : BitVec 8 :=
  [0x55, 0x59, 0x65, 0x69, 0x95, 0x99, 0xa5, 0xa9].getD bit 0

theorem table_getD {α : Type} {table : List α} {f : BitVec 8 → α}
    (h : table = (List.range (2 ^ 8)).map fun n => f (BitVec.ofNat 8 n)) (b : BitVec 8) (d : α) :
    table.getD b.toNat d = f b := by
  rw [h, List.getD_eq_getElem?_getD, List.getElem?_map, List.getElem?_range b.isLt]
  rw [Option.map_some, Option.getD_some, BitVec.ofNat_toNat, BitVec.setWidth_eq]

theorem columnParity_eq (b : BitVec 8) : columnParity b = combine columnPattern b := by
  have htable : columnParityTable =
      (List.range (2 ^ 8)).map fun n => combine columnPattern (BitVec.ofNat 8 n) := by decide +kernel
  exact table_getD htable b 0

theorem hweight8_eq (x : BitVec 8) : hweight8 x = weight x := by
  have htable : countBitsTable = (List.range (2 ^ 8)).map fun n => weight (BitVec.ofNat 8 n) := by
    decide +kernel
  exact table_getD htable x 0

theorem columnParity_flip (b : BitVec 8) {bit : ℕ} (hbit : bit < 8) :
    columnParity (b ^^^ BitVec.twoPow 8 bit) = columnParity b ^^^ columnPattern bit := by
  rw [columnParity_eq, combine_xor, combine_twoPow hbit, ← columnParity_eq]

theorem columnPattern_odd {bit : ℕ} (hbit : bit < 8) : columnPattern bit &&& 1 = 1 := by
  have hall : ∀ k : Fin 8, columnPattern k &&& 1 = 1 := by decide
  exact hall ⟨bit, hbit⟩

/-! ## The parities -/

section Parities
variable {w : ℕ} {data : Data}

def Parities.xor (p q : Parities w) : Parities w :=
  ⟨p.col ^^^ q.col, p.line ^^^ q.line, p.prime ^^^ q.prime⟩

def flipParities (w i bit : ℕ) : Parities w :=
  ⟨columnPattern bit, BitVec.ofNat w i, ~~~BitVec.ofNat w i⟩

theorem Parities.add_xor (p q : Parities w) (i : ℕ) (byte : BitVec 8) :
    (p.xor q).add i byte = (p.add i byte).xor q := by
  unfold add xor
  dsimp only
  split_ifs
  · rw [mk.injEq]
    dsimp only
    exact ⟨by ac_rfl, by ac_rfl, by ac_rfl⟩
  · rw [mk.injEq]
    dsimp only
    exact ⟨by ac_rfl, rfl, rfl⟩

theorem Parities.add_flip (p : Parities w) (i : ℕ) (byte : BitVec 8) {bit : ℕ} (hbit : bit < 8) :
    p.add i (byte ^^^ BitVec.twoPow 8 bit) = (p.add i byte).xor (flipParities w i bit) := by
  have hodd := columnPattern_odd hbit
  unfold add xor flipParities
  rw [columnParity_flip byte hbit]
  dsimp only
  generalize columnParity byte = b
  have hlow : b &&& 1 = 0 ∨ b &&& 1 = 1 := by
    rw [show (1 : BitVec 8) = 1#8 from rfl, BitVec.and_one_eq_setWidth_ofBool_getLsbD]
    cases b.getLsbD 0
    · exact .inl rfl
    · exact .inr rfl
  have hsum : (b ^^^ columnPattern bit) &&& 1 = (b &&& 1) ^^^ 1 := by
    rw [xor_and, hodd]
  rw [hsum]
  rcases hlow with hb | hb
  · rw [hb, if_pos (by decide), if_neg (by decide)]
    simp only [BitVec.xor_assoc]
  · rw [hb, if_neg (by decide), if_pos (by decide)]
    simp only [BitVec.xor_assoc, BitVec.xor_self, BitVec.xor_zero]

theorem parities_flip (data : Data) {i bit n : ℕ} (hi : i < n) (hbit : bit < 8) :
    parities w (data.flip i bit) n = (parities w data n).xor (flipParities w i bit) := by
  have hbefore (m : ℕ) (hm : m ≤ i) : parities w (data.flip i bit) m = parities w data m := by
    induction m with
    | zero => rfl
    | succ m ih =>
      rw [parities, parities, ih (by omega), Data.flip, if_neg (by omega)]
  induction n with
  | zero => exact absurd hi (Nat.not_lt_zero i)
  | succ n ih =>
    rw [parities, parities, Data.flip]
    rcases Nat.lt_succ_iff_lt_or_eq.mp hi with hlt | rfl
    · rw [ih hlt, if_neg (by omega), Parities.add_xor]
    · rw [hbefore i (Nat.le_refl i), if_pos rfl, Parities.add_flip _ _ _ hbit]

theorem flip_flip (data : Data) (i bit : ℕ) : (data.flip i bit).flip i bit = data := by
  funext j
  unfold Data.flip
  split_ifs with hj
  · rw [BitVec.xor_assoc, BitVec.xor_self, BitVec.xor_zero]
  · rfl

end Parities

/-! ## A block of 256 bytes -/

section LineBits

def bitAt (b : Bool) (c : BitVec 8) : BitVec 8 := if b then c else 0

theorem bitAt_xor (b b' : Bool) (c : BitVec 8) : bitAt (b ^^ b') c = bitAt b c ^^^ bitAt b' c := by
  cases b <;> cases b' <;> simp [bitAt]

theorem and_twoPow_ne_zero (x : BitVec 8) {k : ℕ} (hk : k < 8) :
    (x &&& BitVec.twoPow 8 k ≠ 0) ↔ x.getLsbD k = true := by
  rw [BitVec.and_twoPow]
  cases x.getLsbD k
  · simp
  · have hall : ∀ k : Fin 8, BitVec.twoPow 8 k ≠ 0 := by decide
    exact iff_of_true (hall ⟨k, hk⟩) rfl

theorem bitAt_ushiftRight (b : Bool) (c : BitVec 8) (n : ℕ) : bitAt b c >>> n = bitAt b (c >>> n) := by
  cases b
  · exact BitVec.zero_ushiftRight
  · rfl

theorem bitAt_shiftLeft (b : Bool) (c : BitVec 8) (n : ℕ) : bitAt b c <<< n = bitAt b (c <<< n) := by
  cases b
  · exact BitVec.zero_shiftLeft n
  · rfl

theorem lineBits_or (line prime : BitVec 8) {k3 k2 k1 k0 : ℕ} (h3 : k3 < 8) (h2 : k2 < 8)
    (h1 : k1 < 8) (h0 : k0 < 8) :
    lineBits line prime (.twoPow 8 k3) (.twoPow 8 k2) (.twoPow 8 k1) (.twoPow 8 k0) =
      bitAt (line.getLsbD k3) 0x80 ||| bitAt (prime.getLsbD k3) 0x40 |||
      bitAt (line.getLsbD k2) 0x20 ||| bitAt (prime.getLsbD k2) 0x10 |||
      bitAt (line.getLsbD k1) 0x08 ||| bitAt (prime.getLsbD k1) 0x04 |||
      bitAt (line.getLsbD k0) 0x02 ||| bitAt (prime.getLsbD k0) 0x01 := by
  have hset (t x : BitVec 8) {k : ℕ} (hk : k < 8) (c : BitVec 8) :
      (if x &&& BitVec.twoPow 8 k ≠ 0 then t ||| c else t) = t ||| bitAt (x.getLsbD k) c := by
    simp only [and_twoPow_ne_zero x hk]
    cases x.getLsbD k
    · exact BitVec.or_zero.symm
    · rfl
  unfold lineBits
  dsimp only
  rw [hset _ _ h3, hset _ _ h3, hset _ _ h2, hset _ _ h2, hset _ _ h1, hset _ _ h1, hset _ _ h0,
    hset _ _ h0]
  rw [show (0 : BitVec 8) = 0#8 from rfl, BitVec.zero_or]

theorem lineBits_eq (line prime : BitVec 8) {k3 k2 k1 k0 : ℕ} (h3 : k3 < 8) (h2 : k2 < 8)
    (h1 : k1 < 8) (h0 : k0 < 8) :
    lineBits line prime (.twoPow 8 k3) (.twoPow 8 k2) (.twoPow 8 k1) (.twoPow 8 k0) =
      bitAt (line.getLsbD k3) 0x80 ^^^ bitAt (prime.getLsbD k3) 0x40 ^^^
      (bitAt (line.getLsbD k2) 0x20 ^^^ bitAt (prime.getLsbD k2) 0x10) ^^^
      (bitAt (line.getLsbD k1) 0x08 ^^^ bitAt (prime.getLsbD k1) 0x04) ^^^
      (bitAt (line.getLsbD k0) 0x02 ^^^ bitAt (prime.getLsbD k0) 0x01) := by
  rw [lineBits_or line prime h3 h2 h1 h0]
  generalize line.getLsbD k3 = a3
  generalize line.getLsbD k2 = a2
  generalize line.getLsbD k1 = a1
  generalize line.getLsbD k0 = a0
  generalize prime.getLsbD k3 = b3
  generalize prime.getLsbD k2 = b2
  generalize prime.getLsbD k1 = b1
  generalize prime.getLsbD k0 = b0
  revert a3 a2 a1 a0 b3 b2 b1 b0
  decide +kernel

theorem lineBits_xor (line prime line' prime' : BitVec 8) {k3 k2 k1 k0 : ℕ} (h3 : k3 < 8)
    (h2 : k2 < 8) (h1 : k1 < 8) (h0 : k0 < 8) :
    lineBits (line ^^^ line') (prime ^^^ prime') (.twoPow 8 k3) (.twoPow 8 k2) (.twoPow 8 k1)
        (.twoPow 8 k0) =
      lineBits line prime (.twoPow 8 k3) (.twoPow 8 k2) (.twoPow 8 k1) (.twoPow 8 k0) ^^^
      lineBits line' prime' (.twoPow 8 k3) (.twoPow 8 k2) (.twoPow 8 k1) (.twoPow 8 k0) := by
  simp only [lineBits_eq _ _ h3 h2 h1 h0, BitVec.getLsbD_xor, bitAt_xor]
  ac_rfl

def lowBits (line prime : BitVec 8) : BitVec 8 := lineBits line prime 0x08 0x04 0x02 0x01
def highBits (line prime : BitVec 8) : BitVec 8 := lineBits line prime 0x80 0x40 0x20 0x10

theorem lowBits_xor (line prime line' prime' : BitVec 8) :
    lowBits (line ^^^ line') (prime ^^^ prime') = lowBits line prime ^^^ lowBits line' prime' :=
  lineBits_xor line prime line' prime' (show 3 < 8 by decide) (show 2 < 8 by decide)
    (show 1 < 8 by decide) (show 0 < 8 by decide)

theorem highBits_xor (line prime line' prime' : BitVec 8) :
    highBits (line ^^^ line') (prime ^^^ prime') = highBits line prime ^^^ highBits line' prime' :=
  lineBits_xor line prime line' prime' (show 7 < 8 by decide) (show 6 < 8 by decide)
    (show 5 < 8 by decide) (show 4 < 8 by decide)

end LineBits

def Ecc256.xor (e e' : Ecc256) : Ecc256 := ⟨e.b0 ^^^ e'.b0, e.b1 ^^^ e'.b1, e.b2 ^^^ e'.b2⟩

def flipEcc (i bit : ℕ) : Ecc256 :=
  ⟨lowBits (.ofNat 8 i) (~~~.ofNat 8 i), highBits (.ofNat 8 i) (~~~.ofNat 8 i),
    columnPattern bit &&& 0xfc⟩

theorem masked_xor (x y : BitVec 8) : ~~~(x ^^^ y) ||| 0x03 = (~~~x ||| 0x03) ^^^ (y &&& 0xfc) := by
  apply BitVec.eq_of_getLsbD_eq
  intro k hk
  have hmask : ∀ k : Fin 8, (0xfc : BitVec 8).getLsbD k = !(0x03 : BitVec 8).getLsbD k := by
    decide
  have hk' : (0xfc : BitVec 8).getLsbD k = !(0x03 : BitVec 8).getLsbD k := hmask ⟨k, hk⟩
  simp only [BitVec.getLsbD_or, BitVec.getLsbD_and, BitVec.getLsbD_not, BitVec.getLsbD_xor, hk, hk',
    decide_true, Bool.true_and]
  cases x.getLsbD k <;> cases y.getLsbD k <;> cases (0x03 : BitVec 8).getLsbD k <;> rfl

theorem cacl_flip (data : Data) {i bit : ℕ} (hi : i < 256) (hbit : bit < 8) :
    yaffsEccCacl (data.flip i bit) = (yaffsEccCacl data).xor (flipEcc i bit) := by
  unfold yaffsEccCacl
  rw [parities_flip data hi hbit]
  generalize parities 8 data 256 = p
  unfold Ecc256.xor flipEcc
  dsimp only [Parities.xor, flipParities]
  rw [Ecc256.mk.injEq]
  refine ⟨?_, ?_, masked_xor _ _⟩
  · exact (congrArg (~~~·) (lowBits_xor _ _ _ _)).trans (complement_xor _ _)
  · exact (congrArg (~~~·) (highBits_xor _ _ _ _)).trans (complement_xor _ _)

/-! ### What the differences tell -/

section Pairs

theorem single_pairs (i : Fin 256) :
    let x := BitVec.ofNat 8 i
    onePerPair (lowBits x (~~~x)) 0x55 ∧ onePerPair (highBits x (~~~x)) 0x55 ∧
      byteOf (highBits x (~~~x)) (lowBits x (~~~x)) = i ∧
      weight (lowBits x (~~~x)) = 4 ∧ weight (highBits x (~~~x)) = 4 := by
  revert i
  decide +kernel

theorem single_column (bit : Fin 8) :
    let x := columnPattern bit &&& 0xfc
    onePerPair x 0x54 ∧ bitOf x 0x80 0x20 0x08 = bit ∧ weight x = 3 := by
  revert bit
  decide

theorem double_pairs (x : BitVec 8) :
    onePerPair (lowBits x x) 0x55 = false ∧ weight (lowBits x x) % 2 = 0 ∧
      weight (highBits x x) % 2 = 0 ∧ (weight (lowBits x x) + weight (highBits x x) = 0 → x = 0) := by
  have hall : ∀ i : Fin (2 ^ 8), let x := BitVec.ofFin i
      onePerPair (lowBits x x) 0x55 = false ∧ weight (lowBits x x) % 2 = 0 ∧
        weight (highBits x x) % 2 = 0 ∧
        (weight (lowBits x x) + weight (highBits x x) = 0 → x = 0) := by
    decide +kernel
  exact hall x.toFin

theorem double_column (bit bit' : Fin 8) :
    let x := (columnPattern bit &&& 0xfc) ^^^ (columnPattern bit' &&& 0xfc)
    weight x % 2 = 0 ∧ (weight x = 0 → bit = bit') := by
  revert bit bit'
  decide

theorem onePerPair_twoPow {d : BitVec 8} {bit : Fin 8} {mask : BitVec 8}
    (hmask : (BitVec.twoPow 8 bit ^^^ (BitVec.twoPow 8 bit >>> 1)) &&& mask ≠ 0)
    (h : onePerPair d mask = true) : onePerPair (d ^^^ BitVec.twoPow 8 bit) mask = false := by
  have hd : (d ^^^ (d >>> 1)) &&& mask = mask := of_decide_eq_true h
  apply decide_eq_false
  rw [BitVec.ushiftRight_xor_distrib]
  have hswap : d ^^^ BitVec.twoPow 8 bit ^^^ (d >>> 1 ^^^ BitVec.twoPow 8 bit >>> 1) =
      (d ^^^ d >>> 1) ^^^ (BitVec.twoPow 8 bit ^^^ BitVec.twoPow 8 bit >>> 1) := by ac_rfl
  rw [hswap, xor_and, hd]
  intro hsum
  apply hmask
  have := congrArg (mask ^^^ ·) hsum
  rwa [← BitVec.xor_assoc, BitVec.xor_self, BitVec.zero_xor] at this

end Pairs

/-! ### Correction -/

section Correct
variable {data : Data} {e e' : Ecc256}

def Ecc256.weight (e : Ecc256) : ℕ := XorBits.weight e.b0 + XorBits.weight e.b1 + XorBits.weight e.b2

def Ecc256.pairs (e : Ecc256) : Prop :=
  onePerPair e.b0 0x55 ∧ onePerPair e.b1 0x55 ∧ onePerPair e.b2 0x54

theorem weight_of_zero (h : e.b0 ||| e.b1 ||| e.b2 = 0) : e.weight = 0 := by
  obtain ⟨h01, h2⟩ := BitVec.or_eq_zero_iff.mp h
  obtain ⟨h0, h1⟩ := BitVec.or_eq_zero_iff.mp h01
  rw [Ecc256.weight, h0, h1, h2, weight_zero]

theorem weights_eq (d0 d1 d2 : BitVec 8) :
    hweight8 d0 + hweight8 d1 + hweight8 d2 = Ecc256.weight ⟨d0, d1, d2⟩ := by
  rw [hweight8_eq, hweight8_eq, hweight8_eq]
  rfl

theorem correct_pairs (h : (e.xor e').pairs) : yaffsEccCorrect data e e' =
    (1, data.flip (byteOf (e.xor e').b1 (e.xor e').b0) (bitOf (e.xor e').b2 0x80 0x20 0x08), e) := by
  have hne : ¬ (e.xor e').b0 ||| (e.xor e').b1 ||| (e.xor e').b2 = 0 := by
    intro hzero
    have h0 := h.1
    rw [(BitVec.or_eq_zero_iff.mp (BitVec.or_eq_zero_iff.mp hzero).1).1] at h0
    exact absurd h0 (by decide)
  exact (if_neg hne).trans (if_pos h)

theorem correct_code (h : ¬ (e.xor e').pairs) (hweight : (e.xor e').weight = 1) :
    yaffsEccCorrect data e e' = (1, data, e') := by
  have hne : ¬ (e.xor e').b0 ||| (e.xor e').b1 ||| (e.xor e').b2 = 0 := by
    intro hzero
    have := weight_of_zero hzero
    omega
  exact (if_neg hne).trans ((if_neg h).trans (if_pos ((weights_eq _ _ _).trans hweight)))

theorem correct_failed (h : ¬ (e.xor e').pairs) (hweight : 2 ≤ (e.xor e').weight) :
    yaffsEccCorrect data e e' = (-1, data, e) := by
  have hne : ¬ (e.xor e').b0 ||| (e.xor e').b1 ||| (e.xor e').b2 = 0 := by
    intro hzero
    have := weight_of_zero hzero
    omega
  have hone : ¬ hweight8 (e.xor e').b0 + hweight8 (e.xor e').b1 + hweight8 (e.xor e').b2 = 1 := by
    rw [weights_eq]
    show ¬ (e.xor e').weight = 1
    omega
  exact (if_neg hne).trans ((if_neg h).trans (if_neg hone))

inductive Flip256
  | data (i : Fin 256) (bit : Fin 8)
  | ecc (j : Fin 3) (bit : Fin 8)
  deriving DecidableEq

def Flip256.used : Flip256 → Prop
  | .data _ _ => True
  | .ecc j bit => j = 2 → 2 ≤ bit.val

def eccBit (j : Fin 3) (bit : Fin 8) : Ecc256 :=
  match j with
  | 0 => ⟨.twoPow 8 bit, 0, 0⟩
  | 1 => ⟨0, .twoPow 8 bit, 0⟩
  | 2 => ⟨0, 0, .twoPow 8 bit⟩

/-- A block and its code as they are read. -/
structure Block where
  data : Data
  ecc : Ecc256

def Block.stored (data : Data) : Block := ⟨data, yaffsEccCacl data⟩

def Flip256.apply (f : Flip256) (b : Block) : Block :=
  match f with
  | .data i bit => { b with data := b.data.flip i bit }
  | .ecc j bit => { b with ecc := b.ecc.xor (eccBit j bit) }

/-- The code is calculated again, and the block corrected with it. -/
def Block.correct (b : Block) : ℤ × Data × Ecc256 :=
  yaffsEccCorrect b.data b.ecc (yaffsEccCacl b.data)

def Block.delta (b : Block) : Ecc256 := b.ecc.xor (yaffsEccCacl b.data)

def Flip256.delta : Flip256 → Ecc256
  | .data i bit => flipEcc i bit
  | .ecc j bit => eccBit j bit

theorem stored_delta (data : Data) : (Block.stored data).delta = ⟨0, 0, 0⟩ := by
  simp [Block.stored, Block.delta, Ecc256.xor]

theorem apply_delta (f : Flip256) (b : Block) : (f.apply b).delta = b.delta.xor f.delta := by
  cases f with
  | data i bit =>
    have hcacl := cacl_flip b.data i.isLt bit.isLt
    unfold Flip256.apply Block.delta Flip256.delta
    dsimp only
    rw [hcacl]
    unfold Ecc256.xor
    rw [Ecc256.mk.injEq]
    dsimp only
    exact ⟨(BitVec.xor_assoc ..).symm, (BitVec.xor_assoc ..).symm, (BitVec.xor_assoc ..).symm⟩
  | ecc j bit =>
    unfold Flip256.apply Block.delta Flip256.delta Ecc256.xor
    rw [Ecc256.mk.injEq]
    dsimp only
    exact ⟨by ac_rfl, by ac_rfl, by ac_rfl⟩

theorem zero_xor (e : Ecc256) : Ecc256.xor ⟨0, 0, 0⟩ e = e := by
  simp [Ecc256.xor]

theorem single_data (i : Fin 256) (bit : Fin 8) : (flipEcc i bit).pairs ∧
    byteOf (flipEcc i bit).b1 (flipEcc i bit).b0 = i ∧
    bitOf (flipEcc i bit).b2 0x80 0x20 0x08 = bit ∧
    XorBits.weight (flipEcc i bit).b0 = 4 ∧ XorBits.weight (flipEcc i bit).b1 = 4 ∧
    XorBits.weight (flipEcc i bit).b2 = 3 := by
  obtain ⟨hlow, hhigh, hbyte, hwlow, hwhigh⟩ := single_pairs i
  obtain ⟨hcol, hbit, hwcol⟩ := single_column bit
  exact ⟨⟨hlow, hhigh, hcol⟩, hbyte, hbit, hwlow, hwhigh, hwcol⟩

theorem eccBit_weight (j : Fin 3) (bit : Fin 8) : (eccBit j bit).weight = 1 := by
  have hbit := weight_twoPow bit.isLt
  have hzero : XorBits.weight (0 : BitVec 8) = 0 := weight_zero
  unfold Ecc256.weight eccBit
  split
  · rw [hbit, hzero]
  · rw [hbit, hzero]
  · rw [hbit, hzero]

theorem no_pairs_low (h : e.b0 = 0) : ¬ e.pairs := by
  intro hpairs
  have h0 := hpairs.1
  rw [h] at h0
  exact absurd h0 (by decide)

theorem no_pairs_high (h : e.b1 = 0) : ¬ e.pairs := by
  intro hpairs
  have h1 := hpairs.2.1
  rw [h] at h1
  exact absurd h1 (by decide)

theorem no_pairs_column (h : e.b2 = 0) : ¬ e.pairs := by
  intro hpairs
  have h2 := hpairs.2.2
  rw [h] at h2
  exact absurd h2 (by decide)

theorem eccBit_pairs (j : Fin 3) (bit : Fin 8) : ¬ (eccBit j bit).pairs := by
  match j with
  | 0 => exact no_pairs_high rfl
  | 1 => exact no_pairs_low rfl
  | 2 => exact no_pairs_low rfl

theorem double_data {i i' : Fin 256} {bit bit' : Fin 8} (h : ¬ (i = i' ∧ bit = bit')) :
    ¬ ((flipEcc i bit).xor (flipEcc i' bit')).pairs ∧
      2 ≤ ((flipEcc i bit).xor (flipEcc i' bit')).weight := by
  set x := BitVec.ofNat 8 i ^^^ BitVec.ofNat 8 i' with hx
  have hlow : ((flipEcc i bit).xor (flipEcc i' bit')).b0 = lowBits x x := by
    rw [Ecc256.xor, flipEcc, flipEcc, ← lowBits_xor, complement_xor_complement]
  have hhigh : ((flipEcc i bit).xor (flipEcc i' bit')).b1 = highBits x x := by
    rw [Ecc256.xor, flipEcc, flipEcc, ← highBits_xor, complement_xor_complement]
  obtain ⟨hpairs, hwlow, hwhigh, hzero⟩ := double_pairs x
  obtain ⟨hwcol, hsame⟩ := double_column bit bit'
  constructor
  · rintro ⟨h0, -, -⟩
    rw [hlow, hpairs] at h0
    exact absurd h0 (by decide)
  · rw [Ecc256.weight, hlow, hhigh]
    by_contra hlt
    have hcol : XorBits.weight ((flipEcc i bit).xor (flipEcc i' bit')).b2 % 2 = 0 := hwcol
    have hnone : XorBits.weight (lowBits x x) + XorBits.weight (highBits x x) = 0 ∧
        XorBits.weight ((flipEcc i bit).xor (flipEcc i' bit')).b2 = 0 := by omega
    apply h
    refine ⟨?_, hsame hnone.2⟩
    have heq := BitVec.xor_eq_zero_iff.mp (hx.symm.trans (hzero hnone.1))
    have hnat := congrArg BitVec.toNat heq
    rw [BitVec.toNat_ofNat, BitVec.toNat_ofNat] at hnat
    have := i.isLt
    have := i'.isLt
    exact Fin.ext (by omega)

theorem data_and_code (i : Fin 256) (bit : Fin 8) {j : Fin 3} {bit' : Fin 8}
    (hused : (Flip256.ecc j bit').used) :
    ¬ ((flipEcc i bit).xor (eccBit j bit')).pairs ∧
      2 ≤ ((flipEcc i bit).xor (eccBit j bit')).weight := by
  obtain ⟨⟨h0, h1, h2⟩, -, -, hw0, hw1, hw2⟩ := single_data i bit
  have hmask : ∀ k : Fin 8, (BitVec.twoPow 8 k ^^^ (BitVec.twoPow 8 k >>> 1)) &&& 0x55 ≠ 0 := by
    decide
  have hmask' : ∀ k : Fin 8, 2 ≤ k.val →
      (BitVec.twoPow 8 k ^^^ (BitVec.twoPow 8 k >>> 1)) &&& 0x54 ≠ 0 := by decide
  have hsame (b : BitVec 8) : b ^^^ 0 = b := BitVec.xor_zero
  match j with
  | 0 =>
    refine ⟨fun h => ?_, ?_⟩
    · exact absurd h.1 (Bool.eq_false_iff.mp (onePerPair_twoPow (hmask bit') h0))
    · show 2 ≤ XorBits.weight _ + XorBits.weight ((flipEcc i bit).b1 ^^^ 0) + _
      rw [hsame]
      omega
  | 1 =>
    refine ⟨fun h => ?_, ?_⟩
    · exact absurd h.2.1 (Bool.eq_false_iff.mp (onePerPair_twoPow (hmask bit') h1))
    · show 2 ≤ XorBits.weight ((flipEcc i bit).b0 ^^^ 0) + XorBits.weight _ + _
      rw [hsame]
      omega
  | 2 =>
    refine ⟨fun h => ?_, ?_⟩
    · exact absurd h.2.2 (Bool.eq_false_iff.mp (onePerPair_twoPow (hmask' bit' (hused rfl)) h2))
    · show 2 ≤ XorBits.weight ((flipEcc i bit).b0 ^^^ 0) + XorBits.weight _ + _
      rw [hsame]
      omega

theorem code_pairs (j j' : Fin 3) (bit bit' : Fin 8) :
    ¬ ((eccBit j bit).xor (eccBit j' bit')).pairs := by
  have hzero : (0 : BitVec 8) ^^^ 0 = 0 := by decide
  match j, j' with
  | 0, 0 => exact no_pairs_high hzero
  | 0, 1 => exact no_pairs_column hzero
  | 0, 2 => exact no_pairs_high hzero
  | 1, 0 => exact no_pairs_column hzero
  | 1, 1 => exact no_pairs_low hzero
  | 1, 2 => exact no_pairs_low hzero
  | 2, 0 => exact no_pairs_high hzero
  | 2, 1 => exact no_pairs_low hzero
  | 2, 2 => exact no_pairs_low hzero

theorem code_weight {j j' : Fin 3} {bit bit' : Fin 8} (h : ¬ (j = j' ∧ bit = bit')) :
    ((eccBit j bit).xor (eccBit j' bit')).weight = 2 := by
  have hpair (hbit : bit ≠ bit') : weight (BitVec.twoPow 8 bit ^^^ BitVec.twoPow 8 bit') = 2 :=
    weight_pair bit.isLt bit'.isLt fun heq => hbit (Fin.ext heq)
  have hsingle (k : Fin 8) : weight (BitVec.twoPow 8 k) = 1 := weight_twoPow k.isLt
  match j, j' with
  | 0, 0 | 1, 1 | 2, 2 =>
    have hbit : bit ≠ bit' := fun heq => h ⟨rfl, heq⟩
    simp [Ecc256.weight, Ecc256.xor, eccBit, weight_zero, hpair hbit]
  | 0, 1 | 0, 2 | 1, 0 | 1, 2 | 2, 0 | 2, 1 =>
    simp [Ecc256.weight, Ecc256.xor, eccBit, weight_zero, hsingle]

theorem double_failed {f g : Flip256} (h : f ≠ g) (hf : f.used) (hg : g.used) :
    ¬ (f.delta.xor g.delta).pairs ∧ 2 ≤ (f.delta.xor g.delta).weight := by
  cases f with
  | data i bit =>
    cases g with
    | data i' bit' =>
      refine double_data fun heq => h ?_
      rw [heq.1, heq.2]
    | ecc j' bit' => exact data_and_code i bit hg
  | ecc j bit =>
    cases g with
    | data i' bit' =>
      have hcomm : (eccBit j bit).xor (flipEcc i' bit') = (flipEcc i' bit').xor (eccBit j bit) := by
        unfold Ecc256.xor
        rw [Ecc256.mk.injEq]
        exact ⟨BitVec.xor_comm _ _, BitVec.xor_comm _ _, BitVec.xor_comm _ _⟩
      rw [Flip256.delta, Flip256.delta, hcomm]
      exact data_and_code i' bit' hf
    | ecc j' bit' =>
      refine ⟨code_pairs j j' bit bit', (code_weight fun heq => h ?_).ge⟩
      rw [heq.1, heq.2]

/-- What is stored is read as it is; a wrong bit, wherever it is, is corrected; and two wrong bits,
wherever they are but in the two unused bits of the code, are detected and change nothing. -/
theorem ecc_block (data : Data) :
    let b := Block.stored data
    b.correct = (0, data, b.ecc) ∧ (∀ f : Flip256, (f.apply b).correct = (1, data, b.ecc)) ∧
      ∀ f g : Flip256, f ≠ g → f.used → g.used →
        let r := g.apply (f.apply b)
        r.correct = (-1, r.data, r.ecc) := by
  refine ⟨?_, fun f => ?_, fun f g hne hf hg => ?_⟩
  · have hzero : (Block.stored data).delta = ⟨0, 0, 0⟩ := stored_delta data
    apply if_pos
    show (Block.stored data).delta.b0 ||| (Block.stored data).delta.b1 |||
      (Block.stored data).delta.b2 = 0
    rw [hzero]
    rfl
  · have hdelta : (f.apply (Block.stored data)).delta = f.delta := by
      rw [apply_delta, stored_delta, zero_xor]
    cases f with
    | data i bit =>
      obtain ⟨hpairs, hbyte, hbit, -⟩ := single_data i bit
      rw [Block.correct, correct_pairs (by rw [← Block.delta, hdelta]; exact hpairs)]
      rw [← Block.delta, hdelta]
      show (1, (data.flip i bit).flip (byteOf (flipEcc i bit).b1 (flipEcc i bit).b0)
        (bitOf (flipEcc i bit).b2 0x80 0x20 0x08), _) = _
      rw [hbyte, hbit, flip_flip]
      rfl
    | ecc j bit =>
      apply correct_code
      · rw [← Block.delta, hdelta]
        exact eccBit_pairs j bit
      · rw [← Block.delta, hdelta]
        exact eccBit_weight j bit
  · have hdelta : (g.apply (f.apply (Block.stored data))).delta = f.delta.xor g.delta := by
      rw [apply_delta, apply_delta, stored_delta, zero_xor]
    obtain ⟨hpairs, hweight⟩ := double_failed hne hf hg
    apply correct_failed
    · rw [← Block.delta, hdelta]
      exact hpairs
    · rw [← Block.delta, hdelta]
      exact hweight

theorem ecc_block_erased :
    let r := (Flip256.ecc 1 0).apply ((Flip256.data (Fin.last 255) 5).apply (Block.stored fun _ => 0xff))
    r.correct = (-1, r.data, r.ecc) :=
  (ecc_block fun _ => 0xff).2.2 (.data (Fin.last 255) 5) (.ecc 1 0) (by decide) trivial
    fun h => absurd h (by decide)

end Correct

end DfewOS.Ecc
