import Mathlib.Data.Nat.Notation
import Mathlib.Data.Int.Notation

/-!
# The error correcting codes of the flash file system

`yaffs_ecc.c` with the bit count of `yaffs_hweight.c`: the code of a block of
256 bytes in three bytes, and the one of any number of bytes for the tags. A
correction gives what the routine returns, the data and the code that was read.
-/

namespace DfewOS.Ecc

def columnParityTable : List (BitVec 8) :=
  [
    0x00, 0x55, 0x59, 0x0c, 0x65, 0x30, 0x3c, 0x69,
    0x69, 0x3c, 0x30, 0x65, 0x0c, 0x59, 0x55, 0x00,
    0x95, 0xc0, 0xcc, 0x99, 0xf0, 0xa5, 0xa9, 0xfc,
    0xfc, 0xa9, 0xa5, 0xf0, 0x99, 0xcc, 0xc0, 0x95,
    0x99, 0xcc, 0xc0, 0x95, 0xfc, 0xa9, 0xa5, 0xf0,
    0xf0, 0xa5, 0xa9, 0xfc, 0x95, 0xc0, 0xcc, 0x99,
    0x0c, 0x59, 0x55, 0x00, 0x69, 0x3c, 0x30, 0x65,
    0x65, 0x30, 0x3c, 0x69, 0x00, 0x55, 0x59, 0x0c,
    0xa5, 0xf0, 0xfc, 0xa9, 0xc0, 0x95, 0x99, 0xcc,
    0xcc, 0x99, 0x95, 0xc0, 0xa9, 0xfc, 0xf0, 0xa5,
    0x30, 0x65, 0x69, 0x3c, 0x55, 0x00, 0x0c, 0x59,
    0x59, 0x0c, 0x00, 0x55, 0x3c, 0x69, 0x65, 0x30,
    0x3c, 0x69, 0x65, 0x30, 0x59, 0x0c, 0x00, 0x55,
    0x55, 0x00, 0x0c, 0x59, 0x30, 0x65, 0x69, 0x3c,
    0xa9, 0xfc, 0xf0, 0xa5, 0xcc, 0x99, 0x95, 0xc0,
    0xc0, 0x95, 0x99, 0xcc, 0xa5, 0xf0, 0xfc, 0xa9,
    0xa9, 0xfc, 0xf0, 0xa5, 0xcc, 0x99, 0x95, 0xc0,
    0xc0, 0x95, 0x99, 0xcc, 0xa5, 0xf0, 0xfc, 0xa9,
    0x3c, 0x69, 0x65, 0x30, 0x59, 0x0c, 0x00, 0x55,
    0x55, 0x00, 0x0c, 0x59, 0x30, 0x65, 0x69, 0x3c,
    0x30, 0x65, 0x69, 0x3c, 0x55, 0x00, 0x0c, 0x59,
    0x59, 0x0c, 0x00, 0x55, 0x3c, 0x69, 0x65, 0x30,
    0xa5, 0xf0, 0xfc, 0xa9, 0xc0, 0x95, 0x99, 0xcc,
    0xcc, 0x99, 0x95, 0xc0, 0xa9, 0xfc, 0xf0, 0xa5,
    0x0c, 0x59, 0x55, 0x00, 0x69, 0x3c, 0x30, 0x65,
    0x65, 0x30, 0x3c, 0x69, 0x00, 0x55, 0x59, 0x0c,
    0x99, 0xcc, 0xc0, 0x95, 0xfc, 0xa9, 0xa5, 0xf0,
    0xf0, 0xa5, 0xa9, 0xfc, 0x95, 0xc0, 0xcc, 0x99,
    0x95, 0xc0, 0xcc, 0x99, 0xf0, 0xa5, 0xa9, 0xfc,
    0xfc, 0xa9, 0xa5, 0xf0, 0x99, 0xcc, 0xc0, 0x95,
    0x00, 0x55, 0x59, 0x0c, 0x65, 0x30, 0x3c, 0x69,
    0x69, 0x3c, 0x30, 0x65, 0x0c, 0x59, 0x55, 0x00]

def countBitsTable : List ℕ :=
  [
    0, 1, 1, 2, 1, 2, 2, 3, 1, 2, 2, 3, 2, 3, 3, 4,
    1, 2, 2, 3, 2, 3, 3, 4, 2, 3, 3, 4, 3, 4, 4, 5,
    1, 2, 2, 3, 2, 3, 3, 4, 2, 3, 3, 4, 3, 4, 4, 5,
    2, 3, 3, 4, 3, 4, 4, 5, 3, 4, 4, 5, 4, 5, 5, 6,
    1, 2, 2, 3, 2, 3, 3, 4, 2, 3, 3, 4, 3, 4, 4, 5,
    2, 3, 3, 4, 3, 4, 4, 5, 3, 4, 4, 5, 4, 5, 5, 6,
    2, 3, 3, 4, 3, 4, 4, 5, 3, 4, 4, 5, 4, 5, 5, 6,
    3, 4, 4, 5, 4, 5, 5, 6, 4, 5, 5, 6, 5, 6, 6, 7,
    1, 2, 2, 3, 2, 3, 3, 4, 2, 3, 3, 4, 3, 4, 4, 5,
    2, 3, 3, 4, 3, 4, 4, 5, 3, 4, 4, 5, 4, 5, 5, 6,
    2, 3, 3, 4, 3, 4, 4, 5, 3, 4, 4, 5, 4, 5, 5, 6,
    3, 4, 4, 5, 4, 5, 5, 6, 4, 5, 5, 6, 5, 6, 6, 7,
    2, 3, 3, 4, 3, 4, 4, 5, 3, 4, 4, 5, 4, 5, 5, 6,
    3, 4, 4, 5, 4, 5, 5, 6, 4, 5, 5, 6, 5, 6, 6, 7,
    3, 4, 4, 5, 4, 5, 5, 6, 4, 5, 5, 6, 5, 6, 6, 7,
    4, 5, 5, 6, 5, 6, 6, 7, 5, 6, 6, 7, 6, 7, 7, 8]

def columnParity (b : BitVec 8) : BitVec 8 := columnParityTable.getD b.toNat 0

def hweight8 (x : BitVec 8) : ℕ := countBitsTable.getD x.toNat 0

def hweight32 (x : BitVec 32) : ℕ :=
  hweight8 (x.setWidth 8) + hweight8 ((x >>> 8).setWidth 8) + hweight8 ((x >>> 16).setWidth 8) +
    hweight8 ((x >>> 24).setWidth 8)

/-- The bytes behind `data`. -/
abbrev Data := ℕ → BitVec 8

/-- `col_parity`, `line_parity` and `line_parity_prime`, which have `w` bits in the lines. -/
structure Parities (w : ℕ) where
  col : BitVec 8
  line : BitVec w
  prime : BitVec w
  deriving DecidableEq

def Parities.add {w : ℕ} (p : Parities w) (i : ℕ) (byte : BitVec 8) : Parities w :=
  let b := columnParity byte
  if b &&& 1 ≠ 0 then
    ⟨p.col ^^^ b, p.line ^^^ BitVec.ofNat w i, p.prime ^^^ ~~~BitVec.ofNat w i⟩
  else { p with col := p.col ^^^ b }

def parities (w : ℕ) (data : Data) : ℕ → Parities w
  | 0 => ⟨0, 0, 0⟩
  | n + 1 => (parities w data n).add n (data n)

/-- `*p ^= (1 << bit)` -/
def Data.flip (data : Data) (i bit : ℕ) : Data :=
  fun j => if j = i then data j ^^^ BitVec.twoPow 8 bit else data j

/-! ## A block of 256 bytes -/

structure Ecc256 where
  b0 : BitVec 8
  b1 : BitVec 8
  b2 : BitVec 8
  deriving DecidableEq

/-- The value of `t` behind four bits of the line parities, given by their masks. -/
def lineBits (line prime m3 m2 m1 m0 : BitVec 8) : BitVec 8 :=
  let or (t : BitVec 8) (x m c : BitVec 8) := if x &&& m ≠ 0 then t ||| c else t
  let t := or (or 0 line m3 0x80) prime m3 0x40
  let t := or (or t line m2 0x20) prime m2 0x10
  let t := or (or t line m1 0x08) prime m1 0x04
  or (or t line m0 0x02) prime m0 0x01

def yaffsEccCacl (data : Data) : Ecc256 :=
  let p := parities 8 data 256
  ⟨~~~lineBits p.line p.prime 0x08 0x04 0x02 0x01, ~~~lineBits p.line p.prime 0x80 0x40 0x20 0x10,
    ~~~p.col ||| 0x03⟩

/-- A pair of bits in each place of the mask, and exactly one of the two is set. -/
def onePerPair (d mask : BitVec 8) : Bool := (d ^^^ (d >>> 1)) &&& mask = mask

def byteOf (d1 d0 : BitVec 8) : ℕ :=
  let bit (d m : BitVec 8) (c : ℕ) := if d &&& m ≠ 0 then c else 0
  bit d1 0x80 0x80 ||| bit d1 0x20 0x40 ||| bit d1 0x08 0x20 ||| bit d1 0x02 0x10 |||
    bit d0 0x80 0x08 ||| bit d0 0x20 0x04 ||| bit d0 0x08 0x02 ||| bit d0 0x02 0x01

/-- `bit` out of the delta of the column parity, given by the masks. -/
def bitOf (d m2 m1 m0 : BitVec 8) : ℕ :=
  let bit (m : BitVec 8) (c : ℕ) := if d &&& m ≠ 0 then c else 0
  bit m2 0x04 ||| bit m1 0x02 ||| bit m0 0x01

def yaffsEccCorrect (data : Data) (readEcc testEcc : Ecc256) : ℤ × Data × Ecc256 :=
  let d0 := readEcc.b0 ^^^ testEcc.b0
  let d1 := readEcc.b1 ^^^ testEcc.b1
  let d2 := readEcc.b2 ^^^ testEcc.b2
  if d0 ||| d1 ||| d2 = 0 then (0, data, readEcc)
  else if onePerPair d0 0x55 ∧ onePerPair d1 0x55 ∧ onePerPair d2 0x54 then
    (1, data.flip (byteOf d1 d0) (bitOf d2 0x80 0x20 0x08), readEcc)
  else if hweight8 d0 + hweight8 d1 + hweight8 d2 = 1 then (1, data, testEcc)
  else (-1, data, readEcc)

/-! ## Any number of bytes -/

structure EccOther where
  colParity : BitVec 8
  lineParity : BitVec 32
  lineParityPrime : BitVec 32
  deriving DecidableEq

def yaffsEccCalcOther (data : Data) (nBytes : ℕ) : EccOther :=
  let p := parities 32 data nBytes
  ⟨(p.col >>> 2) &&& 0x3f, p.line, p.prime⟩

def yaffsEccCorrectOther (data : Data) (nBytes : ℕ) (readEcc testEcc : EccOther) :
    ℤ × Data × EccOther :=
  let deltaCol := readEcc.colParity ^^^ testEcc.colParity
  let deltaLine := readEcc.lineParity ^^^ testEcc.lineParity
  let deltaLinePrime := readEcc.lineParityPrime ^^^ testEcc.lineParityPrime
  if deltaCol.setWidth 32 ||| deltaLine ||| deltaLinePrime = 0 then (0, data, readEcc)
  else if deltaLine = ~~~deltaLinePrime ∧ onePerPair deltaCol 0x15 then
    if nBytes ≤ deltaLine.toNat then (-1, data, readEcc)
    else (1, data.flip deltaLine.toNat (bitOf deltaCol 0x20 0x08 0x02), readEcc)
  else if hweight32 deltaLine + hweight32 deltaLinePrime + hweight8 deltaCol = 1 then
    (1, data, testEcc)
  else (-1, data, readEcc)

end DfewOS.Ecc
