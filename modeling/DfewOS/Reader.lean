import DfewOS.Memory
import Mathlib.Data.Int.Notation

/-!
# A screen of the reader

`_reader_read_a_screen` of `gui/app/reader.c`. The lines of the text run upwards on the screen, one
beside the other. The memory is `read_buffer`, with its indices as the addresses; `yaffsPread`
delivers what the file has from an offset on, as far as there is room. What is drawn is left out but
for the index of each character.
-/

namespace DfewOS.Reader
open Memory (fresh)

def readerBufferSize : ℕ := 4 * 1024
def guiFontWidth : ℤ := 8
def guiFontHeight : ℤ := 16
def graScrW : ℤ := 800
def graScrH : ℤ := 600

def yaffsPread (file : List UInt8) (nbyte offset : ℕ) : List UInt8 := (file.drop offset).take nbyte

def isHan (c : UInt8) : Bool := c &&& 0x80 ≠ 0

structure Coor where
  x : ℤ
  y : ℤ

def Coor.nextLine (c : Coor) : Coor := ⟨c.x + guiFontHeight, graScrH - 1⟩

def Coor.behind (c : Coor) (which_scr : ℤ) : Bool := (which_scr + 1) * graScrW ≤ c.x

def txtWidth (c : UInt8) : ℤ := if isHan c then guiFontWidth * 2 else guiFontWidth

def Coor.full (txt : Coor) (c : UInt8) : Bool := txt.y + 1 < txtWidth c

def Coor.room (txt : Coor) (c : UInt8) : Coor := if txt.full c then txt.nextLine else txt

def Coor.moveRight (txt : Coor) (c : UInt8) : Coor := { txt with y := txt.y - txtWidth c }

structure Screen where
  memory : Memory
  count : ℕ
  /-- The indices of the characters that are shown. -/
  shown : List ℕ
  /-- Whether `is_reach_end` is set. -/
  isReachEnd : Bool

def lineEnd (m : Memory) (readByte i : ℕ) : Memory × ℕ :=
  if m.byte i = 13 ∧ i + 1 < readByte then
    ((m.touch i).touch (i + 1), if m.byte (i + 1) = 10 then i + 2 else i + 1)
  else (m.touch i, i + 1)

/-- `han_draw_string_v (..., &read_buffer[i], 1)`. What `shown` lists below is handed over to it; a
character of two bytes is not drawn if its second byte lacks the high bit. -/
def drawChar (m : Memory) (i : ℕ) : Memory :=
  if isHan (m.byte i) then (m.touch i).touch (i + 1) else m.touch i

def readLoop (which_scr : ℤ) (readByte : ℕ) : ℕ → Memory → ℕ → Coor → List ℕ → Option Screen
  | 0, _, _, _, _ => none
  | fuel + 1, m, i, txt, shown =>
    if readByte ≤ i then some ⟨m, i, shown, true⟩
    else if m.byte i = 13 ∨ m.byte i = 10 then
      let r := lineEnd m readByte i
      if txt.nextLine.behind which_scr then some ⟨r.1, r.2, shown ++ [i], false⟩
      else readLoop which_scr readByte fuel r.1 r.2 txt.nextLine (shown ++ [i])
    else if txt.full (m.byte i) ∧ (txt.room (m.byte i)).behind which_scr then
      some ⟨m.touch i, i, shown, false⟩
    else
      readLoop which_scr readByte fuel (drawChar m i) (if isHan (m.byte i) then i + 2 else i + 1)
        ((txt.room (m.byte i)).moveRight (m.byte i)) (shown ++ [i])

/-- `_reader_read_a_screen`. `rest` is what the buffer has behind the bytes that are delivered. -/
def readAScreen (file : List UInt8) (rest : ℕ → UInt8) (which_scr : ℤ) (readStart : ℕ) : Option Screen :=
  let delivered := yaffsPread file readerBufferSize readStart
  readLoop which_scr delivered.length (readerBufferSize + 2)
    (fresh fun i => if i < delivered.length then delivered.getD i 0 else rest i) 0
    ⟨which_scr * graScrW, graScrH - 1⟩ []

end DfewOS.Reader
