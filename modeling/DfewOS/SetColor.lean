import DfewOS.MemFill
import Mathlib.Data.Int.Notation
import Mathlib.Logic.Function.Iterate

/-!
# Filling a stretch of pixels

`lcd_set_color` and `lcd_set_pixel` of `gui/driver/s3c6410x_lcd.c` on the frame buffer in memory.
The stretch is filled with a half word up to a word boundary, with words that hold the colour
twice, and with half words for what is left.
-/

namespace DfewOS.Lcd
open Memory (Filled)
open MemH (add32)
open CString (byteOf)

/-- `FIRST_FB_ADDR`, `V_SCR_XSIZE` and `V_SCR_YSIZE`. -/
structure Screen where
  fbAddr : ℕ
  xSize : ℕ
  ySize : ℕ
  aligned : fbAddr % 4 = 0
  even : xSize % 2 = 0
  room : fbAddr + xSize * ySize * 2 ≤ 2 ^ 32

theorem s3c6410x_room : 0x57C00000 + 2400 * 600 * 2 ≤ 2 ^ 32 := by decide

def s3c6410x : Screen := ⟨0x57C00000, 2400, 600, rfl, rfl, s3c6410x_room⟩

def Screen.addr (s : Screen) (row col : ℤ) : ℕ :=
  ((s.fbAddr + (row * s.xSize + col) * 2) % 2 ^ 32).toNat

def pixelByte (color : BitVec 16) (i : ℕ) : UInt8 := UInt8.ofBitVec (color.extractLsb' (8 * i) 8)

def color32 (color : BitVec 16) : BitVec 32 := color.setWidth 32 ||| (color.setWidth 32 <<< 16)

/-- `p` is `pu16` or `pu32`; `wordStores` are the addresses of the stores of words. -/
structure Pen where
  memory : Memory
  p : ℕ
  wordStores : List ℕ

/-- `*pu16++ = color` -/
def Pen.half (color : BitVec 16) (pen : Pen) : Pen :=
  ⟨pen.memory.fill 2 pen.p (pixelByte color), add32 pen.p 2, pen.wordStores⟩

/-- `*pu32++ = color32` -/
def Pen.word (color : BitVec 32) (pen : Pen) : Pen :=
  ⟨pen.memory.fill 4 pen.p (byteOf color), add32 pen.p 4, pen.p :: pen.wordStores⟩

def lcdSetColor (s : Screen) (row col : ℤ) (color : BitVec 16) (pixels : ℤ) (m : Memory) : Pen :=
  let start : Pen := ⟨m, s.addr row col, []⟩
  let odd := pixels ≠ 0 ∧ col % 2 = 1
  let pen := if odd then start.half color else start
  let pixels := if odd then pixels - 1 else pixels
  let stride := pixels / 16
  let pen := ((Pen.word (color32 color))^[8])^[stride.toNat] pen
  (Pen.half color)^[(pixels % 16).toNat] pen

def lcdSetPixel (s : Screen) (row col : ℤ) (color : BitVec 16) (m : Memory) : Memory :=
  m.fill 2 (s.addr row col) (pixelByte color)

section Colors
variable {color : BitVec 16} {i : ℕ}

theorem byteOf_color32 (hi : i < 4) : byteOf (color32 color) i = pixelByte color (i % 2) := by
  apply UInt8.toBitVec_inj.mp
  ext j hj
  simp only [byteOf, pixelByte, color32, UInt8.toBitVec_ofBitVec, BitVec.getElem_extractLsb',
    BitVec.getLsbD_or, BitVec.getLsbD_shiftLeft, BitVec.getLsbD_setWidth]
  interval_cases i <;> grind

end Colors

section Steps
variable {color : BitVec 16} {old : Memory} {lo hi n : ℕ} {pen : Pen}

/-- The bytes from `lo` up to `hi` hold the colour, and the pen is at `hi`. -/
structure Pen.At (old : Memory) (color : BitVec 16) (lo hi : ℕ) (pen : Pen) : Prop where
  filled : Filled old pen.memory lo hi fun x => pixelByte color (x % 2)
  p : pen.p = hi % 2 ^ 32
  words : ∀ q ∈ pen.wordStores, q % 4 = 0
  le : lo ≤ hi

theorem Pen.At.half (h : pen.At old color lo hi) (heven : hi % 2 = 0) (hroom : hi + 2 ≤ 2 ^ 32) :
    (pen.half color).At old color lo (hi + 2) := by
  have hp : pen.p = hi := h.p.trans (Nat.mod_eq_of_lt (by omega))
  refine ⟨?_, ?_, h.words, Nat.le_add_right_of_le h.le⟩
  · rw [Pen.half, hp]
    refine h.filled.fill h.le fun i hi => ?_
    rw [show (_ + i) % 2 = i by omega]
  · rw [Pen.half, hp]
    rfl

theorem Pen.At.word (h : pen.At old color lo hi) (hfour : hi % 4 = 0) (hroom : hi + 4 ≤ 2 ^ 32) :
    (pen.word (color32 color)).At old color lo (hi + 4) := by
  have hp : pen.p = hi := h.p.trans (Nat.mod_eq_of_lt (by omega))
  refine ⟨?_, ?_, ?_, Nat.le_add_right_of_le h.le⟩
  · rw [Pen.word, hp]
    refine h.filled.fill h.le fun i hlt => ?_
    rw [byteOf_color32 hlt, show (hi + i) % 2 = i % 2 by omega]
  · rw [Pen.word, hp]
    rfl
  · rw [Pen.word, hp]
    exact List.forall_mem_cons.mpr ⟨hfour, h.words⟩

theorem Pen.At.halves (h : pen.At old color lo hi) (heven : hi % 2 = 0)
    (hroom : hi + 2 * n ≤ 2 ^ 32) : ((Pen.half color)^[n] pen).At old color lo (hi + 2 * n) := by
  induction n with
  | zero => exact h
  | succ n ih =>
    rw [Function.iterate_succ_apply']
    exact (ih (by omega)).half (by omega) (by omega)

theorem Pen.At.wordStride (h : pen.At old color lo hi) (hfour : hi % 4 = 0)
    (hroom : hi + 4 * n ≤ 2 ^ 32) :
    ((Pen.word (color32 color))^[n] pen).At old color lo (hi + 4 * n) := by
  induction n with
  | zero => exact h
  | succ n ih =>
    rw [Function.iterate_succ_apply']
    exact (ih (by omega)).word (by omega) (by omega)

end Steps

section Area
variable {s : Screen} {row col pixels : ℤ} {color : BitVec 16} {m : Memory}

/-- The pixels from a column of a row on are pixels of the frame buffer. -/
structure InFrameBuffer (s : Screen) (row col pixels : ℤ) : Prop where
  row_nonneg : 0 ≤ row
  col_nonneg : 0 ≤ col
  pixels_nonneg : 0 ≤ pixels
  area : row * s.xSize + col + pixels ≤ s.xSize * s.ySize

def place (s : Screen) (row col : ℤ) : ℕ := s.fbAddr + 2 * (row * s.xSize + col).toNat

structure Located (s : Screen) (row col pixels : ℤ) : Prop where
  room : place s row col + 2 * pixels.toNat ≤ 2 ^ 32
  addr : ∀ i : ℕ, s.addr row (col + i) = (place s row col + 2 * i) % 2 ^ 32
  parity : (place s row col % 4 : ℕ) = 2 * col % 4

theorem InFrameBuffer.located (h : InFrameBuffer s row col pixels) : Located s row col pixels := by
  obtain ⟨hrow, hcol, hpixels, harea⟩ := h
  have hroom := s.room
  have haligned := s.aligned
  have hstart : 0 ≤ row * s.xSize := Int.mul_nonneg hrow (Int.natCast_nonneg _)
  have heven : row * s.xSize % 2 = 0 := by
    have hsize := s.even
    rw [Int.mul_emod, show (s.xSize : ℤ) % 2 = 0 by omega, Int.mul_zero, Int.zero_emod]
  have hsize : ((s.xSize * s.ySize : ℕ) : ℤ) = s.xSize * s.ySize := Int.natCast_mul _ _
  have hbytes : s.fbAddr + s.xSize * s.ySize * 2 ≤ 2 ^ 32 := s.room
  generalize s.xSize * s.ySize = size at hsize hbytes
  rw [← hsize] at harea
  refine ⟨?_, fun i => ?_, ?_⟩ <;> simp only [place, Screen.addr] <;> omega

def setPixels (s : Screen) (row col : ℤ) (color : BitVec 16) (pixels : ℕ) (m : Memory) : Memory :=
  (List.range pixels).foldl (fun m (i : ℕ) => lcdSetPixel s row (col + i) color m) m

theorem setPixels_filled (h : Located s row col pixels) {n : ℕ} (hn : n ≤ pixels.toNat) :
    Filled m (setPixels s row col color n m) (place s row col) (place s row col + 2 * n)
      fun x => pixelByte color (x % 2) := by
  induction n with
  | zero => exact Filled.refl ..
  | succ n ih =>
    have hroom := h.room
    have hparity := h.parity
    have haddr : s.addr row (col + n) = place s row col + 2 * n :=
      (h.addr n).trans (Nat.mod_eq_of_lt (by omega))
    have hlast : setPixels s row col color (n + 1) m =
        lcdSetPixel s row (col + n) color (setPixels s row col color n m) := by
      rw [setPixels, List.range_succ, List.foldl_append]
      rfl
    rw [hlast, lcdSetPixel, haddr]
    refine (ih (by omega)).fill (Nat.le_add_right ..) fun i hi => ?_
    rw [show (place s row col + 2 * n + i) % 2 = i by omega]

theorem lcdSetColor_at (h : Located s row col pixels) (hpixels : 0 ≤ pixels) :
    (lcdSetColor s row col color pixels m).At m color (place s row col)
      (place s row col + 2 * pixels.toNat) := by
  have hroom := h.room
  have hparity := h.parity
  have haddr : s.addr row col = place s row col % 2 ^ 32 := by
    have hzero := h.addr 0
    rwa [Int.natCast_zero, Int.add_zero, Nat.mul_zero, Nat.add_zero] at hzero
  have hstart : Pen.At m color (place s row col) (place s row col) ⟨m, s.addr row col, []⟩ :=
    ⟨Filled.refl .., haddr, fun q hq => absurd hq List.not_mem_nil, le_rfl⟩
  generalize place s row col = lo at *
  rw [lcdSetColor, ← Function.iterate_mul]
  split_ifs with hodd
  · -- the pixel before the first word boundary
    have hfirst := hstart.half (by omega) (by omega)
    have hwords := hfirst.wordStride (n := 8 * ((pixels - 1) / 16).toNat) (by omega) (by omega)
    have hrest := hwords.halves (n := ((pixels - 1) % 16).toNat) (by omega) (by omega)
    convert hrest using 1
    omega
  · have hboundary : lo % 4 = 0 ∨ pixels = 0 := by omega
    rcases hboundary with hfour | rfl
    · have hwords := hstart.wordStride (n := 8 * (pixels / 16).toNat) hfour (by omega)
      have hrest := hwords.halves (n := (pixels % 16).toNat) (by omega) (by omega)
      convert hrest using 1
      omega
    · exact hstart

/-- Filling a stretch has the effect of setting its pixels one by one, and stores words at word
boundaries only. -/
theorem lcd_set_color_plain (s : Screen) (row col pixels : ℤ) (color : BitVec 16) (m : Memory)
    (h : InFrameBuffer s row col pixels) :
    (lcdSetColor s row col color pixels m).memory.byte =
        (setPixels s row col color pixels.toNat m).byte ∧
      (lcdSetColor s row col color pixels m).memory.writes.Perm
        (setPixels s row col color pixels.toNat m).writes ∧
      ∀ q ∈ (lcdSetColor s row col color pixels m).wordStores, q % 4 = 0 := by
  have hat : (lcdSetColor s row col color pixels m).At m color _ _ :=
    lcdSetColor_at h.located h.pixels_nonneg
  have hplain : Filled m (setPixels s row col color pixels.toNat m) _ _ _ :=
    setPixels_filled h.located le_rfl
  exact ⟨hat.filled.byte_eq hplain, hat.filled.writes.trans hplain.writes.symm, hat.words⟩

theorem lcd_set_color_plain_row :
    (lcdSetColor s3c6410x 3 5 0xF800 40 (Memory.fresh fun _ => 0)).memory.byte =
        (setPixels s3c6410x 3 5 0xF800 40 (Memory.fresh fun _ => 0)).byte :=
  (lcd_set_color_plain s3c6410x 3 5 40 0xF800 (Memory.fresh fun _ => 0)
    ⟨by decide, by decide, by decide, by decide⟩).1

end Area

end DfewOS.Lcd
