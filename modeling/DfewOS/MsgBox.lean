import DfewOS.ReverseFrame
import Mathlib.Order.Lattice

/-!
# The message box

`gui/app/msg_box.c` with what it uses of `gui/gui_cbi.c`, `gui/gui_gra.c`, `gui/gui_han.c`,
`gui/gui_font.c` and `gui/LibJPEG/jpeg_util.c`. Pixels are given by their place in the frame
buffer. What a picture file decodes to, with the decoding hardware and without, the fonts and the
contents of fresh memory are parameters; `malloc` is taken to succeed. The picture of the box
itself has to decode, and a picture that is larger than the screen is drawn as if the frame buffer
had no end.
-/

namespace DfewOS.MsgBox
open DfewOS.Frame (pixel)

abbrev Pixels := ℤ → UInt16

def graScrW : ℤ := 800
def graScrH : ℤ := 600
def guiFontWidth : ℤ := 8
def guiFontHeight : ℤ := 16
def guiBgColor : UInt16 := 0
def guiColorRed : UInt16 := 0xF800
def msgBoxWidth : ℤ := 200
def msgBoxHeight : ℤ := 200
def msgBoxMargin : ℤ := 16
def msgBoxStartX : ℤ := (graScrW - msgBoxWidth) / 2
def msgBoxStartY : ℤ := (graScrH - msgBoxHeight) / 2

/-- `for (i = start; i < stop; i++)` -/
def forRange {β : Type*} (start stop : ℤ) (body : ℤ → β → β) (x : β) : β :=
  (Int.range start stop).foldl (fun x i => body i x) x

def memcpy (dst : Pixels) (d : ℤ) (src : Pixels) (s n : ℤ) : Pixels :=
  fun k => if d ≤ k ∧ k < d + n then src (s + (k - d)) else dst k

/-! ## Drawing -/

def lcdSetPixel (row col : ℤ) (color : UInt16) (fb : Pixels) : Pixels :=
  Function.update fb (pixel row col) color

/-- `lcd_set_color` of `pixels` pixels, not a negative number. -/
def lcdSetColor (row col : ℤ) (color : UInt16) (pixels : ℤ) (fb : Pixels) : Pixels :=
  fun k => if pixel row col ≤ k ∧ k < pixel row col + pixels then color else fb k

def lcdSetBlock (row col : ℤ) (data : Pixels) (off width : ℤ) (fb : Pixels) : Pixels :=
  memcpy fb (pixel row col) data off width

def graRect (start : GuiCoor) (w h : ℤ) (color : UInt16) (fb : Pixels) : Pixels :=
  forRange start.y (start.y + h) (fun i fb => lcdSetColor i start.x color w fb) fb

def graGetBlock (start : GuiCoor) (w h : ℤ) (fb fresh : Pixels) : Pixels :=
  forRange 0 h (fun i p => memcpy p (i * w) fb (pixel (start.y + i) start.x) w) fresh

def graBlock (start : GuiCoor) (w h : ℤ) (data : Pixels) (off : ℤ) (fb : Pixels) : Pixels :=
  forRange start.y (start.y + h)
    (fun i fb => lcdSetBlock i start.x data (off + (i - start.y) * w) w fb) fb

/-- The glyphs: the rows of an ASCII character, and the bytes of `_G_p_han_lib`. -/
structure Fonts where
  fontData : UInt8 → ℤ → UInt8
  hanLib : ℤ → UInt8

/-- `font_draw_string (s, color, string, 1)` -/
def fontDrawChar (f : Fonts) (s : GuiCoor) (color : UInt16) (c : UInt8) (fb : Pixels) : Pixels :=
  forRange 0 guiFontHeight (fun row fb =>
    forRange 0 guiFontWidth (fun col fb =>
      lcdSetPixel (s.y + row) (s.x + col)
        (if (f.fontData c row <<< UInt8.ofNat col.toNat) &&& 0x80 ≠ 0 then color else guiBgColor) fb)
      fb) fb

def hanDrawChar (f : Fonts) (s : GuiCoor) (color : UInt16) (c c' : UInt8) (fb : Pixels) : Pixels :=
  if c' &&& 0x80 ≠ 0 then
    let qu : ℤ := (c - 0xa0).toNat
    let wei : ℤ := (c' - 0xa0).toNat
    let base := ((qu - 1) * 94 + wei - 1) * 32
    forRange 0 guiFontHeight (fun row fb =>
      let bits := (f.hanLib (base + 2 * row)).toUInt16 <<< 8 ||| (f.hanLib (base + 2 * row + 1)).toUInt16
      forRange 0 (guiFontWidth * 2) (fun col fb =>
        lcdSetPixel (s.y + row) (s.x + col)
          (if (bits <<< UInt16.ofNat col.toNat) &&& 0x8000 ≠ 0 then color else guiBgColor) fb) fb) fb
  else fb

def isHan (c : UInt8) : Bool := c &&& 0x80 ≠ 0

def charWidth (c : UInt8) : ℤ := if isHan c then guiFontWidth * 2 else guiFontWidth

theorem charWidth_cases (c : UInt8) : charWidth c = 8 ∨ charWidth c = 16 := by
  unfold charWidth guiFontWidth
  split
  · exact Or.inr rfl
  · exact Or.inl rfl

/-- `han_draw_string`; the string is at `pos` in the memory `text`. -/
def hanDrawString (f : Fonts) (text : ℕ → UInt8) (color : UInt16) (pos : ℕ) (cur : GuiCoor)
    (count : ℤ) (fb : Pixels) : Pixels :=
  if 0 < count then
    if isHan (text pos) then
      hanDrawString f text color (pos + 2) ⟨cur.x + guiFontWidth * 2, cur.y⟩ (count - 2)
        (hanDrawChar f cur color (text pos) (text (pos + 1)) fb)
    else
      hanDrawString f text color (pos + 1) ⟨cur.x + guiFontWidth, cur.y⟩ (count - 1)
        (fontDrawChar f cur color (text pos) fb)
  else fb
termination_by count.toNat
decreasing_by all_goals omega

def getLine (text : ℕ → UInt8) (width : ℤ) (pos : ℕ) (textWidth charNum : ℤ) : ℤ :=
  if text pos = 0 then charNum
  else if text pos = 10 then charNum + 1
  else
    if width < textWidth + charWidth (text pos) then charNum
    else getLine text width (if isHan (text pos) then pos + 2 else pos + 1)
      (textWidth + charWidth (text pos)) (charNum + charWidth (text pos) / guiFontWidth)
termination_by (width - textWidth).toNat
decreasing_by
  have := charWidth_cases (text pos)
  omega

def txtGetLine (text : ℕ → UInt8) (pos : ℕ) (width : ℤ) : ℤ := getLine text width pos 0 0

/-- The lines of a message that starts at `pos`, the first of them at the height `y`. -/
def drawLines (f : Fonts) (text : ℕ → UInt8) (pos : ℕ) (y : ℤ) (fb : Pixels) : Pixels :=
  let charNum := txtGetLine text pos (msgBoxWidth - msgBoxMargin)
  if charNum = 0 then fb
  else
    let shown := if text (pos + (charNum - 1).toNat) = 10 then charNum - 1 else charNum
    let x := msgBoxStartX + (msgBoxWidth - guiFontWidth * shown) / 2
    let fb := hanDrawString f text guiColorRed pos ⟨x, y⟩ shown fb
    if msgBoxStartY + msgBoxHeight - msgBoxMargin / 2 < y + guiFontHeight + guiFontHeight then fb
    else drawLines f text (pos + charNum.toNat) (y + guiFontHeight) fb
termination_by (msgBoxStartY + msgBoxHeight - y).toNat
decreasing_by
  unfold msgBoxMargin guiFontHeight at *
  omega

/-! ## Pictures -/

structure Picture where
  width : ℕ
  height : ℕ
  pixels : ℤ → ℤ → UInt16

def Picture.draw (pic : Picture) (row col : ℤ) (fb : Pixels) : Pixels :=
  forRange 0 pic.height (fun i fb =>
    forRange 0 pic.width (fun j fb => lcdSetPixel (row + i) (col + j) (pic.pixels i j) fb) fb) fb

def fillMargin (leftUp : GuiCoor) (w h w' h' : ℤ) (fb : Pixels) : Pixels :=
  let blankW := (w - w') / 2
  let blankH := (h - h') / 2
  let fb := graRect leftUp w blankH guiBgColor fb
  let fb := graRect ⟨leftUp.x, leftUp.y + blankH + h'⟩ w (blankH + h' % 2) guiBgColor fb
  let fb := graRect ⟨leftUp.x, leftUp.y + blankH⟩ blankW h' guiBgColor fb
  graRect ⟨leftUp.x + blankW + w', leftUp.y + blankH⟩ (blankW + w' % 2) h' guiBgColor fb

/-- What a file decodes to with the hardware and without. -/
structure Decoded where
  hw : Option Picture
  sw : Option Picture

/-- `jpeg_dump_pic` into the size `w × h`, which is not `0`. The hardware draws from an even
column on. -/
def jpegDumpPic (d : Decoded) (leftUp : GuiCoor) (w h : ℤ) (fb : Pixels) : Option Pixels :=
  let fits (pic : Picture) : Bool := pic.width ≤ w && pic.height ≤ h
  let col (pic : Picture) := leftUp.x + (w - pic.width) / 2
  let row (pic : Picture) := leftUp.y + (h - pic.height) / 2
  match d.hw.filter fits with
  | some pic =>
    some (fillMargin leftUp w h pic.width pic.height (pic.draw (row pic) (col pic - col pic % 2) fb))
  | none =>
    (d.sw.filter fits).map fun pic =>
      pic.draw (row pic) (col pic) (fillMargin leftUp w h pic.width pic.height fb)

/-! ## CBIs -/

/-- The frame buffer, the `data` of the CBIs and `_G_pCBI_cover`. -/
structure Shown where
  fb : Pixels
  data : CbiPtr → Option Pixels
  pCbiCover : Option CbiPtr

abbrev State := Gui Shown

def msgBoxFunc : CbFunc := .app 0

def cbiRegister (p : CbiPtr) (g : State) : State := { g with cbiList := p :: g.cbiList }

def cbiCreateBlank (p : CbiPtr) (leftUp rightDown : GuiCoor) (press : CbFunc) (g : State) : State :=
  cbiRegister p { g with
    cbis := Function.update g.cbis p
      ⟨leftUp, rightDown, press, .cbfDefaultLeave, .cbfDefaultRelease, .cbfNoDrag⟩
    rest := { g.rest with data := Function.update g.rest.data p none } }

def cbiCoverAll (p : CbiPtr) (g : State) : State :=
  let g := cbiCreateBlank p ⟨0, 0⟩ ⟨graScrW - 1, graScrH - 1⟩ .cbfNoop g
  { g with
    cbis := Function.update g.cbis p { g.cbis p with funcLeave := .cbfNoop, funcRelease := .cbfNoop }
    rest := { g.rest with pCbiCover := some p } }

def cbiUnregister (p : CbiPtr) (g : State) : State :=
  if p ∈ g.cbiList then { g with cbiList := g.cbiList.erase p } else g

def cbiUncover (g : State) : State :=
  match g.rest.pCbiCover with
  | some p => cbiUnregister p g
  | none => g

/-! ## The box -/

structure Env where
  fonts : Fonts
  fresh : Pixels
  picture : Decoded

/-- `msg_box_create` of the message at `text`, with the memory of the new CBIs. `none` is that there
is no picture for the box. -/
def msgBoxCreate (env : Env) (text : ℕ → UInt8) (box cover : CbiPtr) (g : State) : Option State :=
  let leftUp : GuiCoor := ⟨msgBoxStartX, msgBoxStartY⟩
  let saved := graGetBlock leftUp msgBoxWidth msgBoxHeight g.rest.fb env.fresh
  let g := cbiCoverAll cover g
  (jpegDumpPic env.picture leftUp msgBoxWidth msgBoxHeight g.rest.fb).map fun fb =>
    let rightDown : GuiCoor := ⟨leftUp.x + msgBoxWidth - 1, leftUp.y + msgBoxHeight - 1⟩
    let g := cbiRegister box { g with
      cbis := Function.update g.cbis box
        ⟨leftUp, rightDown, .cbfDefaultPress, msgBoxFunc, msgBoxFunc, .cbfNoDrag⟩ }
    { g with rest := { g.rest with
        fb := drawLines env.fonts text 0 (msgBoxStartY + msgBoxMargin / 2) fb
        data := Function.update g.rest.data box (some saved) } }

/-- `msg_box_image`; `none` is `OS_STATUS_ERROR`, with the state then. -/
def msgBoxImage (env : Env) (box cover : CbiPtr) (g : State) : State × Bool :=
  let g := cbiCoverAll cover g
  match env.picture.hw.or env.picture.sw with
  | none => (cbiUncover g, false)
  | some pic =>
    let leftUp : GuiCoor := ⟨(graScrW - pic.width).tdiv 2, (graScrH - pic.height).tdiv 2⟩
    let rightDown : GuiCoor := ⟨leftUp.x + pic.width - 1, leftUp.y + pic.height - 1⟩
    let g := cbiCreateBlank box leftUp rightDown .cbfDefaultPress g
    let saved := graGetBlock leftUp pic.width pic.height g.rest.fb env.fresh
    let c := g.cbis box
    ({ g with
        cbis := Function.update g.cbis box { c with funcLeave := msgBoxFunc, funcRelease := msgBoxFunc }
        rest := { g.rest with
          data := Function.update g.rest.data box (some saved)
          fb := graBlock leftUp pic.width pic.height (fun k => pic.pixels (k / pic.width) (k % pic.width))
            0 g.rest.fb } }, true)

def showFrameLayer (start : GuiCoor) (w h layer : ℤ) (data : Pixels) (fb : Pixels) : Pixels :=
  let width := min (2 * layer - w % 2) w
  let height := min (2 * layer - h % 2) h
  let x := (w - width) / 2
  let y := (h - height) / 2
  let fb :=
    if layer ≤ (h + 1) / 2 then
      let fb := graBlock ⟨start.x + x, start.y + y⟩ width 1 data (y * w + x) fb
      graBlock ⟨start.x + x, start.y + (y + height - 1)⟩ width 1 data ((y + height - 1) * w + x) fb
    else fb
  if layer ≤ (w + 1) / 2 then
    forRange 0 height (fun i fb =>
      let fb := lcdSetPixel (start.y + (y + i)) (start.x + x) (data ((y + i) * w + x)) fb
      lcdSetPixel (start.y + (y + i)) (start.x + (x + width - 1))
        (data ((y + i) * w + (x + width - 1))) fb) fb
  else fb

def showLayers (start : GuiCoor) (w h : ℤ) (data : Pixels) : ℕ → Pixels → Pixels
  | 0, fb => fb
  | n + 1, fb => showLayers start w h data n (showFrameLayer start w h (n + 1) data fb)

def msgBoxCb (box : CbiPtr) (g : State) : Option State :=
  (g.rest.data box).map fun data =>
    let c := g.cbis box
    let w := c.rightDown.x - c.leftUp.x + 1
    let h := c.rightDown.y - c.leftUp.y + 1
    let fb := showLayers c.leftUp w h data ((max w h + 1) / 2).toNat g.rest.fb
    cbiUncover (cbiUnregister box { g with rest := { g.rest with
      fb := fb, data := Function.update g.rest.data box none } })

end DfewOS.MsgBox
