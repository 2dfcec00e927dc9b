import DfewOS.GuiCore
import DfewOS.Toggle
import Mathlib.Data.Int.Range
import Mathlib.Data.List.ProdSigma

/-!
# The frame of a CBI

`reverse_frame` of `gui/gui_cbf.c` with `lcd_reverse_pixel`. A pixel is given by its place in the
frame buffer, which is that of its row and column. The coordinates of the CBI are moved to the
part of the frame buffer that is shown and moved back at the end, which a small rectangle does
not reach.
-/

namespace DfewOS.Frame
open Toggle

def vScrXSize : ℤ := 2400
def cbiFrameThick : ℤ := 4

/-- The pixels of the frame buffer, with those that have been reversed. -/
abbrev FrameBuffer := Toggle ℤ UInt16

/-- `row * V_SCR_XSIZE + col` -/
def pixel (row col : ℤ) : ℤ := row * vScrXSize + col

def lcdReversePixel (row col : ℤ) (fb : FrameBuffer) : FrameBuffer :=
  fb.toggle (fun color => ~~~color) (pixel row col)

/-- `for (j = from; j < to; j++)` -/
def reverseCols (row start stop : ℤ) (fb : FrameBuffer) : FrameBuffer :=
  (Int.range start stop).foldl (fun fb col => lcdReversePixel row col fb) fb

/-- `for (i = from; i < to; i++)` -/
def forRows (start stop : ℤ) (line : ℤ → FrameBuffer → FrameBuffer) (fb : FrameBuffer) : FrameBuffer :=
  (Int.range start stop).foldl (fun fb row => line row fb) fb

def moveX (c : GuiCbi) (offset : ℤ) : GuiCbi where
  leftUp := ⟨c.leftUp.x + offset, c.leftUp.y⟩
  rightDown := ⟨c.rightDown.x + offset, c.rightDown.y⟩
  funcPress := c.funcPress
  funcLeave := c.funcLeave
  funcRelease := c.funcRelease
  funcDrag := c.funcDrag

def width (c : GuiCbi) : ℤ := c.rightDown.x - c.leftUp.x + 1
def height (c : GuiCbi) : ℤ := c.rightDown.y - c.leftUp.y + 1

def reverseFrame (startX : ℤ) (c : GuiCbi) (fb : FrameBuffer) : GuiCbi × FrameBuffer :=
  let c := moveX c startX
  let line row := reverseCols row c.leftUp.x (c.rightDown.x + 1)
  if width c ≤ cbiFrameThick * 2 ∨ height c ≤ cbiFrameThick * 2 then
    (c, forRows c.leftUp.y (c.rightDown.y + 1) line fb)
  else
    let fb := forRows c.leftUp.y (c.leftUp.y + cbiFrameThick) line fb
    let fb := forRows (c.leftUp.y + cbiFrameThick) (c.rightDown.y - cbiFrameThick + 1)
      (fun row fb => reverseCols row (c.rightDown.x - cbiFrameThick + 1) (c.rightDown.x + 1)
        (reverseCols row c.leftUp.x (c.leftUp.x + cbiFrameThick) fb)) fb
    let fb := forRows (c.rightDown.y - cbiFrameThick + 1) (c.rightDown.y + 1) line fb
    (moveX c (-startX), fb)

/-! ## The pixels that are visited -/

section Loops
variable {fb : FrameBuffer} {start stop start' stop' : ℤ} {line : ℤ → FrameBuffer → FrameBuffer}
  {cells cells' : List (ℤ × ℤ)} {cols : List ℤ} {c : GuiCbi}

def places (cells : List (ℤ × ℤ)) : List ℤ := cells.map fun cell => pixel cell.1 cell.2

def invert (fb : FrameBuffer) (cells : List (ℤ × ℤ)) : FrameBuffer :=
  fb.toggleAll (fun color => ~~~color) (places cells)

theorem invert_append : invert fb (cells ++ cells') = invert (invert fb cells) cells' := by
  rw [invert, places, List.map_append, toggleAll_append]
  rfl

theorem reverseCols_eq (row : ℤ) :
    reverseCols row start stop fb = invert fb ((Int.range start stop).map (Prod.mk row)) := by
  rw [invert, places, toggleAll, List.map_map, List.foldl_map]
  rfl

theorem forRows_eq (hline : ∀ row fb, line row fb = invert fb (cols.map (Prod.mk row))) :
    forRows start stop line fb = invert fb (Int.range start stop ×ˢ cols) := by
  rw [forRows]
  generalize Int.range start stop = rows
  induction rows generalizing fb with
  | nil => rfl
  | cons row rows ih => rw [List.foldl_cons, List.product_cons, invert_append, hline, ih]

theorem range_nodup : (Int.range start stop).Nodup := by
  rw [Int.range]
  exact List.nodup_range.map fun m n h => Int.ofNat.inj (Int.add_left_cancel h)

def rect (start stop start' stop' : ℤ) : List (ℤ × ℤ) := Int.range start stop ×ˢ Int.range start' stop'

theorem mem_rect {cell : ℤ × ℤ} : cell ∈ rect start stop start' stop' ↔
    (start ≤ cell.1 ∧ cell.1 < stop) ∧ start' ≤ cell.2 ∧ cell.2 < stop' := by
  rw [← Int.mem_range_iff, ← Int.mem_range_iff]
  exact List.mem_product

theorem rect_nodup : (rect start stop start' stop').Nodup :=
  List.Nodup.product range_nodup range_nodup

def frameCells (c : GuiCbi) : List (ℤ × ℤ) :=
  if width c ≤ cbiFrameThick * 2 ∨ height c ≤ cbiFrameThick * 2 then
    rect c.leftUp.y (c.rightDown.y + 1) c.leftUp.x (c.rightDown.x + 1)
  else
    rect c.leftUp.y (c.leftUp.y + cbiFrameThick) c.leftUp.x (c.rightDown.x + 1) ++
    Int.range (c.leftUp.y + cbiFrameThick) (c.rightDown.y - cbiFrameThick + 1) ×ˢ
      (Int.range c.leftUp.x (c.leftUp.x + cbiFrameThick) ++
        Int.range (c.rightDown.x - cbiFrameThick + 1) (c.rightDown.x + 1)) ++
    rect (c.rightDown.y - cbiFrameThick + 1) (c.rightDown.y + 1) c.leftUp.x (c.rightDown.x + 1)

theorem reverseFrame_snd {startX : ℤ} :
    (reverseFrame startX c fb).2 = invert fb (frameCells (moveX c startX)) := by
  generalize hc : moveX c startX = c'
  rw [reverseFrame, frameCells, hc]
  have hline : ∀ (row : ℤ) (fb : FrameBuffer),
      reverseCols row c'.leftUp.x (c'.rightDown.x + 1) fb =
        invert fb ((Int.range c'.leftUp.x (c'.rightDown.x + 1)).map (Prod.mk row)) :=
    fun row fb => reverseCols_eq row
  split_ifs with hsmall
  · exact forRows_eq hline
  · rw [invert_append, invert_append]
    dsimp only
    rw [forRows_eq hline, forRows_eq hline, forRows_eq]
    · rfl
    · intro row fb
      rw [List.map_append, invert_append, reverseCols_eq, reverseCols_eq]

end Loops

/-! ## The border -/

section Border
variable {c : GuiCbi} {fb : FrameBuffer} {startX : ℤ} {cell : ℤ × ℤ} {place : ℤ}

/-- The rectangle is not empty and no row of it is longer than one of the frame buffer. -/
structure Fits (c : GuiCbi) : Prop where
  cols : c.leftUp.x ≤ c.rightDown.x
  rows : c.leftUp.y ≤ c.rightDown.y
  width : width c ≤ vScrXSize

/-- A row and a column of the rectangle at most `CBI_FRAME_THICK` from its edge, or anywhere in a
rectangle that is not thicker than its frame. -/
structure OnBorder (c : GuiCbi) (cell : ℤ × ℤ) : Prop where
  row : c.leftUp.y ≤ cell.1 ∧ cell.1 ≤ c.rightDown.y
  col : c.leftUp.x ≤ cell.2 ∧ cell.2 ≤ c.rightDown.x
  edge : width c ≤ cbiFrameThick * 2 ∨ height c ≤ cbiFrameThick * 2 ∨
    cell.1 < c.leftUp.y + cbiFrameThick ∨ c.rightDown.y - cbiFrameThick < cell.1 ∨
    cell.2 < c.leftUp.x + cbiFrameThick ∨ c.rightDown.x - cbiFrameThick < cell.2

theorem mem_frameCells : cell ∈ frameCells c ↔ OnBorder c cell := by
  have hborder : OnBorder c cell ↔ _ ∧ _ ∧ _ :=
    ⟨fun h => ⟨h.row, h.col, h.edge⟩, fun h => ⟨h.1, h.2.1, h.2.2⟩⟩
  rw [frameCells, hborder]
  split_ifs with hsmall <;> simp only [width, height, cbiFrameThick] at hsmall ⊢
  · rw [mem_rect]
    omega
  · rw [List.mem_append, List.mem_append, mem_rect, mem_rect]
    rw [List.mem_product.trans (and_congr Int.mem_range_iff
      (List.mem_append.trans (or_congr Int.mem_range_iff Int.mem_range_iff)))]
    omega

theorem frameCells_nodup : (frameCells c).Nodup := by
  rw [frameCells]
  split_ifs with hsmall
  · exact rect_nodup
  · simp only [width, height, cbiFrameThick] at hsmall ⊢
    -- the left and the right part of a row
    have hsides : (Int.range c.leftUp.x (c.leftUp.x + 4) ++
        Int.range (c.rightDown.x - 4 + 1) (c.rightDown.x + 1)).Nodup := by
      refine range_nodup.append range_nodup fun col hleft hright => ?_
      rw [Int.mem_range_iff] at hleft hright
      omega
    refine (rect_nodup.append (range_nodup.product hsides) fun cell htop hmid => ?_).append
      rect_nodup fun cell hupper hbottom => ?_
    · rw [mem_rect] at htop
      have hrow := Int.mem_range_iff.mp (List.mem_product.mp hmid).1
      omega
    · rw [mem_rect] at hbottom
      rcases List.mem_append.mp hupper with htop | hmid
      · rw [mem_rect] at htop
        omega
      · have hrow := Int.mem_range_iff.mp (List.mem_product.mp hmid).1
        omega

theorem pixel_inj (hfits : Fits c) {cell' : ℤ × ℤ} (h : OnBorder c cell) (h' : OnBorder c cell')
    (heq : pixel cell.1 cell.2 = pixel cell'.1 cell'.2) : cell = cell' := by
  have hwidth := hfits.width
  have hcol := h.col
  have hcol' := h'.col
  simp only [pixel, width, vScrXSize] at heq hwidth
  refine Prod.ext ?_ ?_ <;> omega

theorem places_nodup (hfits : Fits c) : (places (frameCells c)).Nodup :=
  frameCells_nodup.map_on fun _ hcell _ hcell' =>
    pixel_inj hfits (mem_frameCells.mp hcell) (mem_frameCells.mp hcell')

def border (c : GuiCbi) : Set ℤ := {place | ∃ cell, OnBorder c cell ∧ pixel cell.1 cell.2 = place}

theorem mem_places : place ∈ places (frameCells c) ↔ place ∈ border c := by
  rw [places, List.mem_map]
  exact exists_congr fun cell => and_congr_left fun _ => mem_frameCells

structure InvertedOnce (region : Set ℤ) (fb fb' : FrameBuffer) : Prop where
  inside : ∀ place ∈ region, fb'.cell place = ~~~fb.cell place ∧
    fb'.toggled.count place = fb.toggled.count place + 1
  outside : ∀ place ∉ region, fb'.cell place = fb.cell place ∧
    fb'.toggled.count place = fb.toggled.count place

theorem invert_frameCells (hfits : Fits c) : InvertedOnce (border c) fb (invert fb (frameCells c)) where
  inside place h := by
    have hmem := mem_places.mpr h
    refine ⟨toggleAll_of_mem (places_nodup hfits) hmem, ?_⟩
    rw [invert, toggleAll_count, List.count_eq_one_of_mem (places_nodup hfits) hmem, Nat.add_comm]
  outside place h := by
    have hmem := mt mem_places.mp h
    refine ⟨toggleAll_of_not_mem hmem, ?_⟩
    rw [invert, toggleAll_count, List.count_eq_zero_of_not_mem hmem, Nat.zero_add]

theorem moveX_width : width (moveX c startX) = width c := by
  simp only [width, moveX]
  omega

theorem Fits.moveX (hfits : Fits c) : Fits (moveX c startX) where
  cols := Int.add_le_add_right hfits.cols startX
  rows := hfits.rows
  width := moveX_width.trans_le hfits.width

theorem moveX_back : moveX (moveX c startX) (-startX) = c := by
  obtain ⟨⟨left, up⟩, ⟨right, down⟩⟩ := c
  simp only [moveX, Int.add_neg_cancel_right]

theorem moveX_eq_self : moveX c startX = c ↔ startX = 0 := by
  refine ⟨fun h => ?_, fun h => ?_⟩
  · have hx := congrArg (fun c => c.leftUp.x) h
    simp only [moveX] at hx
    omega
  · subst h
    obtain ⟨⟨left, up⟩, ⟨right, down⟩⟩ := c
    simp only [moveX, Int.add_zero]

theorem reverseFrame_fst : (reverseFrame startX c fb).1 =
    if width c ≤ cbiFrameThick * 2 ∨ height c ≤ cbiFrameThick * 2 then moveX c startX else c := by
  have hheight : height (moveX c startX) = height c := rfl
  rw [reverseFrame, moveX_width, hheight]
  split_ifs with hsmall
  · rfl
  · exact moveX_back

/-- The border that is shown is inverted once, the coordinates are what they were, and a second
call brings the frame buffer back. -/
structure CleanReverse (startX : ℤ) (c : GuiCbi) (fb : FrameBuffer) : Prop where
  inverted : InvertedOnce (border (moveX c startX)) fb (reverseFrame startX c fb).2
  coordinates : (reverseFrame startX c fb).1 = c
  twice : ∀ again, again = reverseFrame startX (reverseFrame startX c fb).1 (reverseFrame startX c fb).2 →
    again.1 = c ∧ again.2.cell = fb.cell

theorem cleanReverse_of_coordinates (hfits : Fits c) (h : ∀ fb, (reverseFrame startX c fb).1 = c) :
    CleanReverse startX c fb where
  inverted := reverseFrame_snd ▸ invert_frameCells hfits.moveX
  coordinates := h fb
  twice := by
    rintro again rfl
    rw [h fb]
    refine ⟨h _, ?_⟩
    rw [reverseFrame_snd, reverseFrame_snd]
    exact toggleAll_twice (fun color => UInt16.not_not) (places_nodup hfits.moveX)

/-- A rectangle that is not thicker than its frame is not moved back. -/
theorem reverse_frame_clean (startX : ℤ) (c : GuiCbi) (fb : FrameBuffer) (hfits : Fits c) :
    CleanReverse startX c fb ↔ startX = 0 ∨ 8 < width c ∧ 8 < height c := by
  have hsmall : ¬(8 < width c ∧ 8 < height c) ↔
      width c ≤ cbiFrameThick * 2 ∨ height c ≤ cbiFrameThick * 2 := by
    rw [not_and_or, Int.not_lt, Int.not_lt]
    rfl
  by_cases hthick : 8 < width c ∧ 8 < height c
  · have hfst : ∀ fb, (reverseFrame startX c fb).1 = c := fun fb => by
      rw [reverseFrame_fst, if_neg (fun h => hsmall.mpr h hthick)]
    exact iff_of_true (cleanReverse_of_coordinates hfits hfst) (Or.inr hthick)
  · have hfst : ∀ fb, (reverseFrame startX c fb).1 = moveX c startX := fun fb => by
      rw [reverseFrame_fst, if_pos (hsmall.mp hthick)]
    rw [or_iff_left hthick, ← moveX_eq_self (c := c)]
    exact ⟨fun h => (hfst fb).symm.trans h.coordinates,
      fun h => cleanReverse_of_coordinates hfits fun fb => (hfst fb).trans h⟩

def square (size : ℤ) : GuiCbi :=
  ⟨⟨0, 0⟩, ⟨size - 1, size - 1⟩, .cbfDefaultPress, .cbfDefaultLeave, .cbfDefaultRelease, .cbfNoDrag⟩

def blank : FrameBuffer := ⟨fun _ => 0, []⟩

theorem reverse_frame_clean_large : CleanReverse 800 (square 100) blank :=
  (reverse_frame_clean 800 (square 100) blank ⟨by decide, by decide, by decide⟩).mpr
    (Or.inr ⟨by decide, by decide⟩)

/-- A square of five pixels on the second screen stays there. -/
theorem reverse_frame_small : Fits (square 5) ∧ ¬CleanReverse 800 (square 5) blank := by
  refine ⟨⟨by decide, by decide, by decide⟩, fun h => ?_⟩
  have hx := congrArg (fun c => c.leftUp.x) h.coordinates
  have hmoved : ((reverseFrame 800 (square 5) blank).1).leftUp.x = 800 := rfl
  exact absurd (hmoved.symm.trans hx) (by decide)

end Border

end DfewOS.Frame
