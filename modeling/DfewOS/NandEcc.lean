import DfewOS.Ecc

/-!
# The error correcting code of the flash driver

`nand_ecc.c`: the code of `yaffs_ecc.c` with the bytes of the line parities the
other way round, written with shifts instead of conditions.
-/

namespace DfewOS.NandEcc
open Ecc (Data Ecc256)

def nandEccPrecalcTable : List (BitVec 8) :=
  [
    0x00, 0x55, 0x56, 0x03, 0x59, 0x0c, 0x0f, 0x5a, 0x5a, 0x0f, 0x0c, 0x59, 0x03, 0x56, 0x55, 0x00,
    0x65, 0x30, 0x33, 0x66, 0x3c, 0x69, 0x6a, 0x3f, 0x3f, 0x6a, 0x69, 0x3c, 0x66, 0x33, 0x30, 0x65,
    0x66, 0x33, 0x30, 0x65, 0x3f, 0x6a, 0x69, 0x3c, 0x3c, 0x69, 0x6a, 0x3f, 0x65, 0x30, 0x33, 0x66,
    0x03, 0x56, 0x55, 0x00, 0x5a, 0x0f, 0x0c, 0x59, 0x59, 0x0c, 0x0f, 0x5a, 0x00, 0x55, 0x56, 0x03,
    0x69, 0x3c, 0x3f, 0x6a, 0x30, 0x65, 0x66, 0x33, 0x33, 0x66, 0x65, 0x30, 0x6a, 0x3f, 0x3c, 0x69,
    0x0c, 0x59, 0x5a, 0x0f, 0x55, 0x00, 0x03, 0x56, 0x56, 0x03, 0x00, 0x55, 0x0f, 0x5a, 0x59, 0x0c,
    0x0f, 0x5a, 0x59, 0x0c, 0x56, 0x03, 0x00, 0x55, 0x55, 0x00, 0x03, 0x56, 0x0c, 0x59, 0x5a, 0x0f,
    0x6a, 0x3f, 0x3c, 0x69, 0x33, 0x66, 0x65, 0x30, 0x30, 0x65, 0x66, 0x33, 0x69, 0x3c, 0x3f, 0x6a,
    0x6a, 0x3f, 0x3c, 0x69, 0x33, 0x66, 0x65, 0x30, 0x30, 0x65, 0x66, 0x33, 0x69, 0x3c, 0x3f, 0x6a,
    0x0f, 0x5a, 0x59, 0x0c, 0x56, 0x03, 0x00, 0x55, 0x55, 0x00, 0x03, 0x56, 0x0c, 0x59, 0x5a, 0x0f,
    0x0c, 0x59, 0x5a, 0x0f, 0x55, 0x00, 0x03, 0x56, 0x56, 0x03, 0x00, 0x55, 0x0f, 0x5a, 0x59, 0x0c,
    0x69, 0x3c, 0x3f, 0x6a, 0x30, 0x65, 0x66, 0x33, 0x33, 0x66, 0x65, 0x30, 0x6a, 0x3f, 0x3c, 0x69,
    0x03, 0x56, 0x55, 0x00, 0x5a, 0x0f, 0x0c, 0x59, 0x59, 0x0c, 0x0f, 0x5a, 0x00, 0x55, 0x56, 0x03,
    0x66, 0x33, 0x30, 0x65, 0x3f, 0x6a, 0x69, 0x3c, 0x3c, 0x69, 0x6a, 0x3f, 0x65, 0x30, 0x33, 0x66,
    0x65, 0x30, 0x33, 0x66, 0x3c, 0x69, 0x6a, 0x3f, 0x3f, 0x6a, 0x69, 0x3c, 0x66, 0x33, 0x30, 0x65,
    0x00, 0x55, 0x56, 0x03, 0x59, 0x0c, 0x0f, 0x5a, 0x5a, 0x0f, 0x0c, 0x59, 0x03, 0x56, 0x55, 0x00]

def precalc (b : BitVec 8) : BitVec 8 := nandEccPrecalcTable.getD b.toNat 0

structure Regs where
  reg1 : BitVec 8
  reg2 : BitVec 8
  reg3 : BitVec 8

def Regs.add (r : Regs) (i : ℕ) (byte : BitVec 8) : Regs :=
  let idx := precalc byte
  let reg1 := r.reg1 ^^^ (idx &&& 0x3f)
  if idx &&& 0x40 ≠ 0 then ⟨reg1, r.reg2 ^^^ ~~~BitVec.ofNat 8 i, r.reg3 ^^^ BitVec.ofNat 8 i⟩
  else { r with reg1 := reg1 }

def regs (data : Data) : ℕ → Regs
  | 0 => ⟨0, 0, 0⟩
  | n + 1 => (regs data n).add n (data n)

def tmp1 (reg3 reg2 : BitVec 8) : BitVec 8 :=
  (reg3 &&& 0x80) >>> 0 ||| (reg2 &&& 0x80) >>> 1 ||| (reg3 &&& 0x40) >>> 1 |||
    (reg2 &&& 0x40) >>> 2 ||| (reg3 &&& 0x20) >>> 2 ||| (reg2 &&& 0x20) >>> 3 |||
    (reg3 &&& 0x10) >>> 3 ||| (reg2 &&& 0x10) >>> 4

def tmp2 (reg3 reg2 : BitVec 8) : BitVec 8 :=
  (reg3 &&& 0x08) <<< 4 ||| (reg2 &&& 0x08) <<< 3 ||| (reg3 &&& 0x04) <<< 3 |||
    (reg2 &&& 0x04) <<< 2 ||| (reg3 &&& 0x02) <<< 2 ||| (reg2 &&& 0x02) <<< 1 |||
    (reg3 &&& 0x01) <<< 1 ||| (reg2 &&& 0x01) <<< 0

/-- `nand_calculate_ecc`, without `CONFIG_MTD_NAND_ECC_SMC` -/
def nandCalculateEcc (dat : Data) : Ecc256 :=
  let r := regs dat 256
  ⟨~~~tmp1 r.reg3 r.reg2, ~~~tmp2 r.reg3 r.reg2, (~~~r.reg1) <<< 2 ||| 0x03⟩

def countbits (byte : ℕ) : ℕ :=
  if byte = 0 then 0 else byte % 2 + countbits (byte / 2)

def onePerPair (s mask : BitVec 8) : Bool := (s ^^^ (s >>> 1)) &&& mask = mask

/-- `byteoffs`; the bytes are promoted before they are shifted. -/
def byteoffs (s1 s0 : BitVec 8) : BitVec 32 :=
  let s1 := s1.setWidth 32
  let s0 := s0.setWidth 32
  (s1 <<< 0) &&& 0x80 ||| (s1 <<< 1) &&& 0x40 ||| (s1 <<< 2) &&& 0x20 ||| (s1 <<< 3) &&& 0x10 |||
    (s0 >>> 4) &&& 0x08 ||| (s0 >>> 3) &&& 0x04 ||| (s0 >>> 2) &&& 0x02 ||| (s0 >>> 1) &&& 0x01

def bitnum (s2 : BitVec 8) : BitVec 32 :=
  let s2 := s2.setWidth 32
  (s2 >>> 5) &&& 0x04 ||| (s2 >>> 4) &&& 0x02 ||| (s2 >>> 3) &&& 0x01

def ebadmsg : ℤ := 74

/-- `nand_correct_data`, without `CONFIG_MTD_NAND_ECC_SMC` -/
def nandCorrectData (dat : Data) (readEcc calcEcc : Ecc256) : ℤ × Data :=
  let s1 := calcEcc.b0 ^^^ readEcc.b0
  let s0 := calcEcc.b1 ^^^ readEcc.b1
  let s2 := calcEcc.b2 ^^^ readEcc.b2
  if s0 ||| s1 ||| s2 = 0 then (0, dat)
  else if onePerPair s0 0x55 ∧ onePerPair s1 0x55 ∧ onePerPair s2 0x54 then
    (1, dat.flip (byteoffs s1 s0).toNat (bitnum s2).toNat)
  else if countbits (s0.setWidth 32 ||| s1.setWidth 32 <<< 8 ||| s2.setWidth 32 <<< 16).toNat = 1
    then (1, dat)
  else (-ebadmsg, dat)

end DfewOS.NandEcc
