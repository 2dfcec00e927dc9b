import DfewOS.MsgBox
import DfewOS.Painting
import Mathlib.Tactic.Linarith

/-!
# What a message box leaves behind

Whatever is drawn inside the box, closing it brings the whole frame buffer back: every pixel of the
box lies on a side of one of the frames that `_msg_box_cb` paints, from the outermost inwards.
-/

namespace DfewOS.MsgBox
open DfewOS.Frame (pixel)
open Painting (Within Restores)

structure Area where
  start : GuiCoor
  w : ℤ
  h : ℤ

namespace Area

def holds (a : Area) (row col : ℤ) : Prop :=
  (a.start.y ≤ row ∧ row < a.start.y + a.h) ∧ a.start.x ≤ col ∧ col < a.start.x + a.w

def cells (a : Area) : Set ℤ := {k | ∃ row col, a.holds row col ∧ k = pixel row col}

def covers (a b : Area) : Prop :=
  (a.start.y ≤ b.start.y ∧ b.start.y + b.h ≤ a.start.y + a.h) ∧
    a.start.x ≤ b.start.x ∧ b.start.x + b.w ≤ a.start.x + a.w

end Area

section Drawing
variable {a : Area} {fb : Pixels}

theorem forRange_within {start stop : ℤ} {body : ℤ → Pixels → Pixels}
    (h : ∀ i, start ≤ i → i < stop → ∀ fb, Within a.cells fb (body i fb)) (fb : Pixels) :
    Within a.cells fb (forRange start stop body fb) :=
  Within.loop (fun i hi fb => h i (Int.mem_range_iff.mp hi).1 (Int.mem_range_iff.mp hi).2 fb) fb

theorem lcdSetPixel_within {row col : ℤ} (h : a.holds row col) (color : UInt16) (fb : Pixels) :
    Within a.cells fb (lcdSetPixel row col color fb) := by
  intro k hk
  apply Function.update_of_ne
  rintro rfl
  exact hk ⟨row, col, h, rfl⟩

theorem lcdSetColor_within {row col pixels : ℤ} (hrow : a.start.y ≤ row ∧ row < a.start.y + a.h)
    (hcol : a.start.x ≤ col ∧ col + pixels ≤ a.start.x + a.w) (color : UInt16) (fb : Pixels) :
    Within a.cells fb (lcdSetColor row col color pixels fb) := by
  intro k hk
  apply if_neg
  rintro ⟨hlow, hhigh⟩
  refine hk ⟨row, col + (k - pixel row col), ⟨hrow, by omega, by omega⟩, ?_⟩
  unfold pixel
  omega

theorem graRect_within {start : GuiCoor} {w h : ℤ} (hin : a.covers ⟨start, w, h⟩) (color : UInt16)
    (fb : Pixels) : Within a.cells fb (graRect start w h color fb) := by
  simp only [Area.covers] at hin
  obtain ⟨⟨hy, hy'⟩, hx⟩ := hin
  exact forRange_within (fun i hi hi' fb => lcdSetColor_within ⟨by omega, by omega⟩ hx color fb) fb

theorem fontDrawChar_within {s : GuiCoor} (f : Fonts) (hin : a.covers ⟨s, 8, 16⟩) (color : UInt16)
    (c : UInt8) (fb : Pixels) : Within a.cells fb (fontDrawChar f s color c fb) := by
  simp only [Area.covers] at hin
  obtain ⟨⟨hy, hy'⟩, hx, hx'⟩ := hin
  refine forRange_within (fun row hr hr' fb => forRange_within (fun col hc hc' fb => ?_) fb) fb
  unfold guiFontHeight at hr'
  unfold guiFontWidth at hc'
  exact lcdSetPixel_within ⟨⟨by omega, by omega⟩, by omega, by omega⟩ _ fb

theorem hanDrawChar_within {s : GuiCoor} (f : Fonts) (hin : a.covers ⟨s, 16, 16⟩) (color : UInt16)
    (c c' : UInt8) (fb : Pixels) : Within a.cells fb (hanDrawChar f s color c c' fb) := by
  simp only [Area.covers] at hin
  obtain ⟨⟨hy, hy'⟩, hx, hx'⟩ := hin
  unfold hanDrawChar
  split
  · refine forRange_within (fun row hr hr' fb => forRange_within (fun col hc hc' fb => ?_) fb) fb
    unfold guiFontHeight at hr'
    unfold guiFontWidth at hc'
    exact lcdSetPixel_within ⟨⟨by omega, by omega⟩, by omega, by omega⟩ _ fb
  · exact .refl _ _

theorem hanDrawString_within (f : Fonts) (text : ℕ → UInt8) (color : UInt16) {pos : ℕ}
    {cur : GuiCoor} {count : ℤ} (hy : a.start.y ≤ cur.y ∧ cur.y + 16 ≤ a.start.y + a.h)
    (hx : a.start.x ≤ cur.x) (hx' : cur.x + 8 * (count + 1) ≤ a.start.x + a.w) (fb : Pixels) :
    Within a.cells fb (hanDrawString f text color pos cur count fb) := by
  fun_induction hanDrawString f text color pos cur count fb with
  | case1 pos cur count fb hpos hhan ih =>
    have hchar : Within a.cells fb
        (hanDrawChar f cur color (text pos) (text (pos + 1)) fb) := by
      refine hanDrawChar_within f ⟨hy, hx, ?_⟩ color _ _ fb
      dsimp only
      omega
    refine hchar.trans (ih hy ?_ ?_)
    · unfold guiFontWidth
      dsimp only
      omega
    · unfold guiFontWidth
      dsimp only
      omega
  | case2 pos cur count fb hpos hhan ih =>
    have hchar : Within a.cells fb (fontDrawChar f cur color (text pos) fb) := by
      refine fontDrawChar_within f ⟨hy, hx, ?_⟩ color _ fb
      dsimp only
      omega
    refine hchar.trans (ih hy ?_ ?_)
    · unfold guiFontWidth
      dsimp only
      omega
    · unfold guiFontWidth
      dsimp only
      omega
  | case3 => exact .refl _ _

theorem getLine_bounds (text : ℕ → UInt8) {width : ℤ} {start pos : ℕ} {textWidth charNum : ℤ}
    (hwidth : textWidth = 8 * charNum) (hpos : (pos : ℤ) = start + charNum) (hnum : 0 ≤ charNum)
    (hroom : textWidth ≤ width) :
    0 ≤ getLine text width pos textWidth charNum ∧
      (8 * getLine text width pos textWidth charNum ≤ width ∨
        (8 * (getLine text width pos textWidth charNum - 1) ≤ width ∧
          text (start + (getLine text width pos textWidth charNum - 1).toNat) = 10)) := by
  fun_induction getLine text width pos textWidth charNum with
  | case1 => exact ⟨hnum, Or.inl (by omega)⟩
  | case2 pos textWidth charNum _ hfeed =>
    refine ⟨by omega, Or.inr ⟨by omega, ?_⟩⟩
    rw [show start + (charNum + 1 - 1).toNat = pos by omega]
    exact hfeed
  | case3 => exact ⟨hnum, Or.inl (by omega)⟩
  | case4 pos textWidth charNum _ _ hfits ih =>
    have hcases : (isHan (text pos) = true ∧ charWidth (text pos) = 16) ∨
        (isHan (text pos) = false ∧ charWidth (text pos) = 8) := by
      unfold charWidth guiFontWidth
      cases isHan (text pos) <;> simp
    rcases hcases with ⟨hhan, hw⟩ | ⟨hhan, hw⟩
    · rw [hw] at ih hfits ⊢
      simp only [hhan, if_true, show (16 : ℤ) / guiFontWidth = 2 from rfl] at ih ⊢
      exact ih (by omega) (by push_cast; omega) (by omega) (by omega)
    · rw [hw] at ih hfits ⊢
      simp only [hhan, if_false, Bool.false_eq_true, show (8 : ℤ) / guiFontWidth = 1 from rfl] at ih ⊢
      exact ih (by omega) (by push_cast; omega) (by omega) (by omega)

def boxArea : Area := ⟨⟨msgBoxStartX, msgBoxStartY⟩, msgBoxWidth, msgBoxHeight⟩

theorem drawLines_within (f : Fonts) (text : ℕ → UInt8) {pos : ℕ} {y : ℤ} (hy : 200 ≤ y)
    (hy' : y + 16 ≤ 400) (fb : Pixels) : Within boxArea.cells fb (drawLines f text pos y fb) := by
  have hline (pos : ℕ) (y : ℤ) (hy : 200 ≤ y) (hy' : y + 16 ≤ 400) (n : ℤ)
      (hn : n = txtGetLine text pos (msgBoxWidth - msgBoxMargin)) (hne : ¬ n = 0) (fb : Pixels) :
      let shown := if text (pos + (n - 1).toNat) = 10 then n - 1 else n
      Within boxArea.cells fb (hanDrawString f text guiColorRed pos
        ⟨msgBoxStartX + (msgBoxWidth - guiFontWidth * shown) / 2, y⟩ shown fb) := by
    intro shown
    have hbounds : 0 ≤ n ∧ (8 * n ≤ 184 ∨ 8 * (n - 1) ≤ 184 ∧ text (pos + (n - 1).toNat) = 10) := by
      rw [hn, txtGetLine]
      exact getLine_bounds text rfl (by simp) (le_refl _) (by decide)
    have hshown : 0 ≤ shown ∧ shown ≤ 23 := by
      by_cases hfeed : text (pos + (n - 1).toNat) = 10
      · have hs : shown = n - 1 := if_pos hfeed
        omega
      · have hs : shown = n := if_neg hfeed
        have hle : 8 * n ≤ 184 := hbounds.2.resolve_right fun h => hfeed h.2
        omega
    refine hanDrawString_within f text _ ?_ ?_ ?_ fb
    · exact ⟨hy, hy'⟩
    · show (300 : ℤ) ≤ 300 + (200 - 8 * shown) / 2
      omega
    · show 300 + (200 - 8 * shown) / 2 + 8 * (shown + 1) ≤ 300 + 200
      omega
  fun_induction drawLines f text pos y fb with
  | case1 => exact .refl _ _
  | case2 pos y fb charNum hsome shown x fb' hlast => exact hline pos y hy hy' charNum rfl hsome fb
  | case3 pos y fb charNum hsome shown x fb' hnext ih =>
    have hroom : y + 16 + 16 ≤ 392 := not_lt.mp hnext
    have hfirst := hline pos y hy hy' charNum rfl hsome fb
    exact hfirst.trans (ih (show 200 ≤ y + 16 by omega) (show y + 16 + 16 ≤ 400 by omega))

theorem draw_within (pic : Picture) {row col : ℤ} (hin : a.covers ⟨⟨col, row⟩, pic.width, pic.height⟩)
    (fb : Pixels) : Within a.cells fb (pic.draw row col fb) := by
  simp only [Area.covers] at hin
  obtain ⟨⟨hy, hy'⟩, hx, hx'⟩ := hin
  refine forRange_within (fun i hi hi' fb => forRange_within (fun j hj hj' fb => ?_) fb) fb
  exact lcdSetPixel_within ⟨⟨by omega, by omega⟩, by omega, by omega⟩ _ fb

/-- In an area of even size the margin stays inside, also on the side that is wider by a pixel. -/
theorem fillMargin_within {w' h' : ℤ} (hw : a.w % 2 = 0) (hh : a.h % 2 = 0) (hw' : 0 ≤ w' ∧ w' ≤ a.w)
    (hh' : 0 ≤ h' ∧ h' ≤ a.h) (fb : Pixels) :
    Within a.cells fb (fillMargin a.start a.w a.h w' h' fb) := by
  have hrect (start : GuiCoor) (w h : ℤ) (hin : a.covers ⟨start, w, h⟩) (fb : Pixels) :
      Within a.cells fb (graRect start w h guiBgColor fb) := graRect_within hin _ fb
  unfold fillMargin
  dsimp only
  refine (((hrect _ _ _ ?_ _).trans (hrect _ _ _ ?_ _)).trans (hrect _ _ _ ?_ _)).trans
    (hrect _ _ _ ?_ _)
  all_goals
    simp only [Area.covers]
    omega

theorem jpegDumpPic_within {d : Decoded} {fb' : Pixels} (hw : a.w % 2 = 0) (hh : a.h % 2 = 0)
    (hx : a.start.x % 2 = 0) (hdump : jpegDumpPic d a.start a.w a.h fb = some fb') :
    Within a.cells fb fb' := by
  have hfits {pic : Picture} (h : (decide (pic.width ≤ a.w) && decide (pic.height ≤ a.h)) = true) :
      (pic.width : ℤ) ≤ a.w ∧ (pic.height : ℤ) ≤ a.h := by
    rwa [Bool.and_eq_true, decide_eq_true_eq, decide_eq_true_eq] at h
  unfold jpegDumpPic at hdump
  dsimp only at hdump
  split at hdump
  case h_1 pic hpic =>
    obtain ⟨-, hfit⟩ := Option.filter_eq_some_iff.mp hpic
    obtain ⟨hpw, hph⟩ := hfits hfit
    rw [← Option.some.inj hdump]
    refine (draw_within pic ?_ fb).trans
      (fillMargin_within hw hh ⟨by omega, hpw⟩ ⟨by omega, hph⟩ _)
    simp only [Area.covers]
    omega
  case h_2 =>
    obtain ⟨pic, hpic, rfl⟩ := Option.map_eq_some_iff.mp hdump
    obtain ⟨-, hfit⟩ := Option.filter_eq_some_iff.mp hpic
    obtain ⟨hpw, hph⟩ := hfits hfit
    refine (fillMargin_within hw hh ⟨by omega, hpw⟩ ⟨by omega, hph⟩ fb).trans (draw_within pic ?_ _)
    simp only [Area.covers]
    omega

end Drawing

/-! ## Saving and bringing back -/

def Saved (a : Area) (old data : Pixels) : Prop :=
  ∀ i j, 0 ≤ i → i < a.h → 0 ≤ j → j < a.w →
    data (i * a.w + j) = old (pixel (a.start.y + i) (a.start.x + j))

theorem graGetBlock_saved (a : Area) (fb fresh : Pixels) :
    Saved a fb (graGetBlock a.start a.w a.h fb fresh) := by
  intro i j hi hi' hj hj'
  refine Painting.loop_each (P := fun i p => p (i * a.w + j) = fb (pixel (a.start.y + i) (a.start.x + j)))
    (fun i _ p => ?_) (fun i i' p hne hold => ?_) (Int.mem_range_iff.mpr ⟨hi, hi'⟩) fresh
  · have hrow : memcpy p (i * a.w) fb (pixel (a.start.y + i) a.start.x) a.w (i * a.w + j) =
        fb (pixel (a.start.y + i) a.start.x + (i * a.w + j - i * a.w)) :=
      if_pos ⟨by omega, by omega⟩
    rw [hrow]
    congr 1
    unfold pixel
    omega
  · have hout : ¬ (i' * a.w ≤ i * a.w + j ∧ i * a.w + j < i' * a.w + a.w) := by
      rintro ⟨hlow, hhigh⟩
      rcases lt_or_gt_of_ne hne with hlt | hlt
      · have := mul_le_mul_of_nonneg_right (show i + 1 ≤ i' by omega) (show 0 ≤ a.w by omega)
        rw [add_mul, one_mul] at this
        omega
      · have := mul_le_mul_of_nonneg_right (show i' + 1 ≤ i by omega) (show 0 ≤ a.w by omega)
        rw [add_mul, one_mul] at this
        omega
    exact (if_neg hout).trans hold

theorem memcpy_restores {old data : Pixels} {d off n : ℤ}
    (h : ∀ j, 0 ≤ j → j < n → data (off + j) = old (d + j)) (fb : Pixels) :
    Restores old {k | d ≤ k ∧ k < d + n} fb (memcpy fb d data off n) := by
  have hin : ∀ k, d ≤ k ∧ k < d + n → memcpy fb d data off n k = old k := by
    intro k hk
    have hval : memcpy fb d data off n k = data (off + (k - d)) := if_pos hk
    rw [hval, h (k - d) (by omega) (by omega)]
    congr 1
    omega
  refine ⟨hin, fun k => ?_⟩
  by_cases hk : d ≤ k ∧ k < d + n
  · exact Or.inr (hin k hk)
  · exact Or.inl (if_neg hk)

section Closing
variable {a : Area} {old data : Pixels}

theorem lcdSetPixel_restores (h : Saved a old data) {i j : ℤ} (hi : 0 ≤ i ∧ i < a.h)
    (hj : 0 ≤ j ∧ j < a.w) (fb : Pixels) :
    Restores old {pixel (a.start.y + i) (a.start.x + j)} fb
      (lcdSetPixel (a.start.y + i) (a.start.x + j) (data (i * a.w + j)) fb) := by
  rw [h i j hi.1 hi.2 hj.1 hj.2]
  have hself := Function.update_self (pixel (a.start.y + i) (a.start.x + j))
    (old (pixel (a.start.y + i) (a.start.x + j))) fb
  refine ⟨fun k hk => ?_, fun k => ?_⟩
  · rw [Set.mem_singleton_iff.mp hk]
    exact hself
  · by_cases hk : k = pixel (a.start.y + i) (a.start.x + j)
    · rw [hk]
      exact Or.inr hself
    · exact Or.inl (Function.update_of_ne hk _ _)

theorem line_restores (h : Saved a old data) {i x width : ℤ} (hi : 0 ≤ i ∧ i < a.h)
    (hx : 0 ≤ x ∧ x + width ≤ a.w) (fb : Pixels) :
    Restores old {k | ∃ j, (x ≤ j ∧ j < x + width) ∧ k = pixel (a.start.y + i) (a.start.x + j)} fb
      (graBlock ⟨a.start.x + x, a.start.y + i⟩ width 1 data (i * a.w + x) fb) := by
  have hrow : ∀ r ∈ Int.range (a.start.y + i) (a.start.y + i + 1), ∀ fb,
      Restores old {k | ∃ j, (x ≤ j ∧ j < x + width) ∧ k = pixel (a.start.y + i) (a.start.x + j)} fb
        (lcdSetBlock r (a.start.x + x) data (i * a.w + x + (r - (a.start.y + i)) * width) width fb) := by
    intro r hr fb
    obtain ⟨hr₁, hr₂⟩ := Int.mem_range_iff.mp hr
    obtain rfl : r = a.start.y + i := by omega
    rw [Int.sub_self, Int.zero_mul, Int.add_zero]
    refine (memcpy_restores (fun j hj hj' => ?_) fb).mono ?_
    · rw [Int.add_assoc, h i (x + j) hi.1 hi.2 (by omega) (by omega)]
      congr 1
      unfold pixel
      omega
    · rintro k ⟨j, hj, rfl⟩
      unfold pixel
      exact ⟨by omega, by omega⟩
  refine (Restores.loop hrow fb).mono fun k hk => ?_
  exact ⟨a.start.y + i, Int.mem_range_iff.mpr ⟨le_refl _, by omega⟩, hk⟩

def span (n layer : ℤ) : ℤ := min (2 * layer - n % 2) n

def inset (n layer : ℤ) : ℤ := (n - span n layer) / 2

/-- The row `i` and the column `j` of the area are on the side of a frame. -/
def OnLayer (a : Area) (layer i j : ℤ) : Prop :=
  (layer ≤ (a.h + 1) / 2 ∧ (i = inset a.h layer ∨ i = inset a.h layer + span a.h layer - 1) ∧
    inset a.w layer ≤ j ∧ j < inset a.w layer + span a.w layer) ∨
  (layer ≤ (a.w + 1) / 2 ∧ (j = inset a.w layer ∨ j = inset a.w layer + span a.w layer - 1) ∧
    inset a.h layer ≤ i ∧ i < inset a.h layer + span a.h layer)

theorem exists_layer {i j : ℤ} (hi : 0 ≤ i ∧ i < a.h) (hj : 0 ≤ j ∧ j < a.w) :
    ∃ layer, 1 ≤ layer ∧ layer ≤ (max a.w a.h + 1) / 2 ∧ OnLayer a layer i j := by
  have hside (n k : ℤ) (hk : 0 ≤ k ∧ k < n) : ∃ layer, 1 ≤ layer ∧ layer ≤ (n + 1) / 2 ∧
      (k = inset n layer ∨ k = inset n layer + span n layer - 1) ∧
      ∀ l, layer ≤ l → inset n l ≤ k ∧ k < inset n l + span n l := by
    refine ⟨max ((n + 1) / 2 - k) (k + 1 - n / 2), by omega, by omega, ?_, fun l hl => ?_⟩
    · unfold inset span
      omega
    · unfold inset span
      omega
  obtain ⟨p, hp, hp', hedge, hin⟩ := hside a.h i hi
  obtain ⟨q, hq, hq', hedge', hin'⟩ := hside a.w j hj
  rcases le_total q p with hle | hle
  · exact ⟨p, hp, by omega, Or.inl ⟨hp', hedge, hin' p hle⟩⟩
  · exact ⟨q, hq, by omega, Or.inr ⟨hq', hedge', hin q hle⟩⟩

def layerCells (a : Area) (layer : ℤ) : Set ℤ :=
  {k | ∃ i j, (0 ≤ i ∧ i < a.h) ∧ (0 ≤ j ∧ j < a.w) ∧ OnLayer a layer i j ∧
    k = pixel (a.start.y + i) (a.start.x + j)}

theorem showFrameLayer_restores (h : Saved a old data) {layer : ℤ} (hlayer : 1 ≤ layer)
    (hw : 0 < a.w) (hh : 0 < a.h) (fb : Pixels) :
    Restores old (layerCells a layer) fb (showFrameLayer a.start a.w a.h layer data fb) := by
  have hspan (n : ℤ) (hn : 0 < n) : 0 ≤ inset n layer ∧ 1 ≤ span n layer ∧
      inset n layer + span n layer ≤ n := by
    unfold inset span
    omega
  obtain ⟨hx, hxw, hx'⟩ := hspan a.w hw
  obtain ⟨hy, hyh, hy'⟩ := hspan a.h hh
  unfold showFrameLayer
  dsimp only
  rw [← span, ← span, ← inset, ← inset]
  set x := inset a.w layer
  set y := inset a.h layer
  set width := span a.w layer
  set height := span a.h layer
  -- the two horizontal lines, then the two vertical ones
  have hlines : Restores old
      {k | layer ≤ (a.h + 1) / 2 ∧ ∃ i j, (i = y ∨ i = y + height - 1) ∧ (x ≤ j ∧ j < x + width) ∧
        k = pixel (a.start.y + i) (a.start.x + j)} fb
      (if layer ≤ (a.h + 1) / 2 then
        graBlock ⟨a.start.x + x, a.start.y + (y + height - 1)⟩ width 1 data
          ((y + height - 1) * a.w + x)
          (graBlock ⟨a.start.x + x, a.start.y + y⟩ width 1 data (y * a.w + x) fb)
      else fb) := by
    split
    case isTrue hle =>
      have hx'' : 0 ≤ x ∧ x + width ≤ a.w := ⟨hx, hx'⟩
      have hfirst := line_restores h (i := y) (by omega) hx'' fb
      refine (hfirst.trans (line_restores h (i := y + height - 1) (by omega) hx'' _)).mono ?_
      rintro k ⟨-, i, j, rfl | rfl, hj, rfl⟩
      · exact Or.inl ⟨j, hj, rfl⟩
      · exact Or.inr ⟨j, hj, rfl⟩
    case isFalse hle => exact (Restores.refl old fb).mono fun k hk => absurd hk.1 hle
  have hsides (fb : Pixels) : Restores old
      {k | layer ≤ (a.w + 1) / 2 ∧ ∃ i j, (j = x ∨ j = x + width - 1) ∧ (y ≤ i ∧ i < y + height) ∧
        k = pixel (a.start.y + i) (a.start.x + j)} fb
      (if layer ≤ (a.w + 1) / 2 then
        forRange 0 height (fun i fb =>
          lcdSetPixel (a.start.y + (y + i)) (a.start.x + (x + width - 1))
            (data ((y + i) * a.w + (x + width - 1)))
            (lcdSetPixel (a.start.y + (y + i)) (a.start.x + x) (data ((y + i) * a.w + x)) fb)) fb
      else fb) := by
    split
    case isTrue hle =>
      have hround : ∀ i ∈ Int.range 0 height, ∀ fb, Restores old
          ({pixel (a.start.y + (y + i)) (a.start.x + x)} ∪
            {pixel (a.start.y + (y + i)) (a.start.x + (x + width - 1))}) fb
          (lcdSetPixel (a.start.y + (y + i)) (a.start.x + (x + width - 1))
            (data ((y + i) * a.w + (x + width - 1)))
            (lcdSetPixel (a.start.y + (y + i)) (a.start.x + x) (data ((y + i) * a.w + x)) fb)) := by
        intro i hi fb
        obtain ⟨hi₁, hi₂⟩ := Int.mem_range_iff.mp hi
        exact (lcdSetPixel_restores h (by omega) (by omega) fb).trans
          (lcdSetPixel_restores h (by omega) (by omega) _)
      refine (Restores.loop hround fb).mono ?_
      rintro k ⟨-, i, j, hj, hi, rfl⟩
      refine ⟨i - y, Int.mem_range_iff.mpr ⟨by omega, by omega⟩, ?_⟩
      rw [show y + (i - y) = i by omega]
      rcases hj with rfl | rfl
      · exact Or.inl rfl
      · exact Or.inr rfl
    case isFalse hle => exact (Restores.refl old fb).mono fun k hk => absurd hk.1 hle
  refine (hlines.trans (hsides _)).mono ?_
  rintro k ⟨i, j, -, -, hon, rfl⟩
  rcases hon with ⟨hle, hi, hj⟩ | ⟨hle, hj, hi⟩
  · exact Or.inl ⟨hle, i, j, hi, hj, rfl⟩
  · exact Or.inr ⟨hle, i, j, hj, hi, rfl⟩

theorem showLayers_restores (h : Saved a old data) (hw : 0 < a.w) (hh : 0 < a.h) (n : ℕ)
    (fb : Pixels) :
    Restores old {k | ∃ layer : ℤ, (1 ≤ layer ∧ layer ≤ n) ∧ k ∈ layerCells a layer} fb
      (showLayers a.start a.w a.h data n fb) := by
  induction n generalizing fb with
  | zero =>
    refine (Restores.refl old fb).mono ?_
    rintro k ⟨layer, hlayer, -⟩
    exact absurd hlayer (by omega)
  | succ n ih =>
    have hfirst := showFrameLayer_restores h (show (1 : ℤ) ≤ n + 1 by omega) hw hh fb
    refine (hfirst.trans (ih _)).mono ?_
    rintro k ⟨layer, hlayer, hk⟩
    rcases eq_or_lt_of_le hlayer.2 with rfl | hlt
    · exact Or.inl (by exact_mod_cast hk)
    · exact Or.inr ⟨layer, ⟨hlayer.1, by omega⟩, hk⟩

theorem showLayers_all (h : Saved a old data) (hw : 0 < a.w) (hh : 0 < a.h) {fb : Pixels}
    (hdrawn : Within a.cells old fb) :
    showLayers a.start a.w a.h data ((max a.w a.h + 1) / 2).toNat fb = old := by
  refine Restores.all hdrawn ((showLayers_restores h hw hh _ fb).mono ?_)
  rintro k ⟨row, col, ⟨hrow, hcol⟩, rfl⟩
  obtain ⟨layer, hone, hle, hon⟩ := exists_layer (a := a) (i := row - a.start.y)
    (j := col - a.start.x) (by omega) (by omega)
  refine ⟨layer, ⟨hone, by omega⟩, row - a.start.y, col - a.start.x, by omega, by omega, hon, ?_⟩
  congr 1 <;> omega

end Closing

/-! ## The box -/

section Box
variable {a : Area} {box cover : CbiPtr} {g g₁ : State}

/-- A box over the area is open: it and its cover are in front of the CBIs of `g`. -/
structure Opened (a : Area) (box cover : CbiPtr) (g g₁ : State) : Prop where
  cbiList : g₁.cbiList = box :: cover :: g.cbiList
  others : ∀ p ∈ g.cbiList, g₁.cbis p = g.cbis p
  boxCbi : g₁.cbis box = ⟨a.start, ⟨a.start.x + a.w - 1, a.start.y + a.h - 1⟩, .cbfDefaultPress,
    msgBoxFunc, msgBoxFunc, .cbfNoDrag⟩
  coverCbi : g₁.cbis cover =
    ⟨⟨0, 0⟩, ⟨graScrW - 1, graScrH - 1⟩, .cbfNoop, .cbfNoop, .cbfNoop, .cbfNoDrag⟩
  pCbiCover : g₁.rest.pCbiCover = some cover
  saved : ∃ data, g₁.rest.data box = some data ∧ Saved a g.rest.fb data
  drawn : Within a.cells g.rest.fb g₁.rest.fb

theorem cbiCoverAll_cbis (g : State) : (cbiCoverAll cover g).cbis cover =
    ⟨⟨0, 0⟩, ⟨graScrW - 1, graScrH - 1⟩, .cbfNoop, .cbfNoop, .cbfNoop, .cbfNoDrag⟩ := by
  simp [cbiCoverAll, cbiCreateBlank, cbiRegister]

theorem cbiCoverAll_others (g : State) {p : CbiPtr} (h : p ≠ cover) :
    (cbiCoverAll cover g).cbis p = g.cbis p := by
  simp [cbiCoverAll, cbiCreateBlank, cbiRegister, h]

theorem msgBoxCreate_opened {env : Env} {text : ℕ → UInt8} (hbox : box ∉ g.cbiList)
    (hcover : cover ∉ g.cbiList) (hne : box ≠ cover)
    (h : msgBoxCreate env text box cover g = some g₁) : Opened boxArea box cover g g₁ := by
  obtain ⟨fb, hdump, rfl⟩ := Option.map_eq_some_iff.mp h
  refine ⟨rfl, fun p hp => ?_, ?_, ?_, rfl, ⟨_, Function.update_self .., ?_⟩, ?_⟩
  · have hpb : p ≠ box := fun he => hbox (he ▸ hp)
    have hpc : p ≠ cover := fun he => hcover (he ▸ hp)
    exact (Function.update_of_ne hpb _ _).trans (cbiCoverAll_others g hpc)
  · exact Function.update_self ..
  · exact (Function.update_of_ne hne.symm _ _).trans (cbiCoverAll_cbis g)
  · exact graGetBlock_saved boxArea g.rest.fb env.fresh
  · have hpicture : Within boxArea.cells g.rest.fb fb :=
      jpegDumpPic_within (by decide) (by decide) (by decide) hdump
    exact hpicture.trans (drawLines_within env.fonts text (by decide) (by decide) fb)

/-- Where a picture is shown. -/
def imageArea (pic : Picture) : Area :=
  ⟨⟨(graScrW - pic.width).tdiv 2, (graScrH - pic.height).tdiv 2⟩, pic.width, pic.height⟩

theorem graBlock_within (a : Area) (data : Pixels) (off : ℤ) (fb : Pixels) :
    Within a.cells fb (graBlock a.start a.w a.h data off fb) := by
  refine forRange_within (fun i hi hi' fb => ?_) fb
  intro k hk
  apply if_neg
  rintro ⟨hlow, hhigh⟩
  refine hk ⟨i, a.start.x + (k - pixel i a.start.x), ⟨⟨hi, hi'⟩, by omega, by omega⟩, ?_⟩
  unfold pixel
  omega

theorem msgBoxImage_opened {env : Env} {pic : Picture} (hbox : box ∉ g.cbiList)
    (hcover : cover ∉ g.cbiList) (hne : box ≠ cover)
    (hpic : env.picture.hw.or env.picture.sw = some pic)
    (h : msgBoxImage env box cover g = (g₁, true)) : Opened (imageArea pic) box cover g g₁ := by
  unfold msgBoxImage at h
  rw [hpic] at h
  obtain ⟨rfl, -⟩ := Prod.mk.inj h
  refine ⟨rfl, fun p hp => ?_, ?_, ?_, rfl, ⟨_, Function.update_self .., ?_⟩, ?_⟩
  · have hpb : p ≠ box := fun he => hbox (he ▸ hp)
    have hpc : p ≠ cover := fun he => hcover (he ▸ hp)
    simp [cbiCreateBlank, cbiRegister, hpb, cbiCoverAll_others g hpc]
  · simp [cbiCreateBlank, cbiRegister, imageArea]
  · simp [cbiCreateBlank, cbiRegister, hne.symm, cbiCoverAll_cbis]
  · exact graGetBlock_saved (imageArea pic) g.rest.fb env.fresh
  · exact graBlock_within (imageArea pic) _ 0 g.rest.fb

theorem Opened.draw (h : Opened a box cover g g₁) {fb : Pixels} (hfb : Within a.cells g₁.rest.fb fb) :
    Opened a box cover g { g₁ with rest := { g₁.rest with fb := fb } } :=
  ⟨h.cbiList, h.others, h.boxCbi, h.coverCbi, h.pCbiCover, h.saved, h.drawn.trans hfb⟩

/-- While the box is open, a touch of the screen is one of the box or of the cover. -/
theorem Opened.modal (h : Opened a box cover g g₁) {coor : GuiCoor}
    (hx : 0 ≤ coor.x ∧ coor.x < graScrW) (hy : 0 ≤ coor.y ∧ coor.y < graScrH) :
    (a.holds coor.y coor.x → g₁.cbiInWhich coor = some box) ∧
      (¬ a.holds coor.y coor.x → g₁.cbiInWhich coor = some cover) := by
  have hfind : g₁.cbiFindInWhich box coor = true ↔ a.holds coor.y coor.x := by
    simp only [Gui.cbiFindInWhich, h.boxCbi, Bool.and_eq_true, decide_eq_true_eq, Area.holds]
    omega
  have hall : g₁.cbiFindInWhich cover coor = true := by
    simp only [Gui.cbiFindInWhich, h.coverCbi, Bool.and_eq_true, decide_eq_true_eq]
    omega
  rw [Gui.cbiInWhich, h.cbiList]
  refine ⟨fun hin => List.find?_cons_of_pos (hfind.mpr hin), fun hout => ?_⟩
  have hnot : ¬ g₁.cbiFindInWhich box coor = true := fun hin => hout (hfind.mp hin)
  have hskip : (box :: cover :: g.cbiList).find? (g₁.cbiFindInWhich · coor) =
      (cover :: g.cbiList).find? (g₁.cbiFindInWhich · coor) := List.find?_cons_of_neg hnot
  rw [hskip]
  exact List.find?_cons_of_pos hall

theorem Opened.close (h : Opened a box cover g g₁) (hw : 0 < a.w) (hh : 0 < a.h) :
    ∃ g₂, msgBoxCb box g₁ = some g₂ ∧ g₂.rest.fb = g.rest.fb ∧
      g₂.cbiList = g.cbiList ∧ ∀ p ∈ g.cbiList, g₂.cbis p = g.cbis p := by
  obtain ⟨data, hdata, hsaved⟩ := h.saved
  have hfb : showLayers a.start a.w a.h data ((max a.w a.h + 1) / 2).toNat g₁.rest.fb = g.rest.fb :=
    showLayers_all hsaved hw hh h.drawn
  have hsize (s n : ℤ) : s + n - 1 - s + 1 = n := by omega
  unfold msgBoxCb
  rw [hdata, Option.map_some]
  refine ⟨_, rfl, ?_⟩
  rw [h.boxCbi]
  dsimp only
  rw [hsize, hsize, hfb]
  have hunreg : cbiUnregister box { g₁ with rest := { g₁.rest with
      fb := g.rest.fb, data := Function.update g₁.rest.data box none } } =
      { g₁ with
        cbiList := cover :: g.cbiList
        rest := { g₁.rest with
          fb := g.rest.fb, data := Function.update g₁.rest.data box none } } := by
    unfold cbiUnregister
    dsimp only
    rw [h.cbiList, if_pos List.mem_cons_self, List.erase_cons_head]
  rw [hunreg, cbiUncover]
  dsimp only
  rw [h.pCbiCover]
  dsimp only
  unfold cbiUnregister
  dsimp only
  rw [if_pos List.mem_cons_self, List.erase_cons_head]
  exact ⟨rfl, rfl, h.others⟩

/-- The box is modal, and closing it, whatever was drawn inside meanwhile, brings back the frame
buffer and the CBIs. -/
def Restorable (a : Area) (box cover : CbiPtr) (g g₁ : State) : Prop :=
  (∀ coor : GuiCoor, 0 ≤ coor.x ∧ coor.x < graScrW → 0 ≤ coor.y ∧ coor.y < graScrH →
    (a.holds coor.y coor.x → g₁.cbiInWhich coor = some box) ∧
      (¬ a.holds coor.y coor.x → g₁.cbiInWhich coor = some cover)) ∧
  ∀ fb, Within a.cells g₁.rest.fb fb →
    ∃ g₂, msgBoxCb box { g₁ with rest := { g₁.rest with fb := fb } } = some g₂ ∧
      g₂.rest.fb = g.rest.fb ∧ g₂.cbiList = g.cbiList ∧ ∀ p ∈ g.cbiList, g₂.cbis p = g.cbis p

theorem Opened.restorable (h : Opened a box cover g g₁) (hw : 0 < a.w) (hh : 0 < a.h) :
    Restorable a box cover g g₁ :=
  ⟨fun _ hx hy => h.modal hx hy, fun _ hfb => (h.draw hfb).close hw hh⟩

/-- For every message and every picture, a message box draws inside its area only, takes all
touches, and leaves the screen and the CBIs as they were; a picture that cannot be read leaves
them too. -/
theorem msg_box (env : Env) (text : ℕ → UInt8) (g : State) (hbox : box ∉ g.cbiList)
    (hcover : cover ∉ g.cbiList) (hne : box ≠ cover) :
    (∀ g₁, msgBoxCreate env text box cover g = some g₁ →
      Within boxArea.cells g.rest.fb g₁.rest.fb ∧ Restorable boxArea box cover g g₁) ∧
    (∀ pic g₁, 0 < pic.width → 0 < pic.height → env.picture.hw.or env.picture.sw = some pic →
      msgBoxImage env box cover g = (g₁, true) →
      Within (imageArea pic).cells g.rest.fb g₁.rest.fb ∧ Restorable (imageArea pic) box cover g g₁) ∧
    ∀ g₁, msgBoxImage env box cover g = (g₁, false) →
      g₁.rest.fb = g.rest.fb ∧ g₁.cbiList = g.cbiList ∧ ∀ p ∈ g.cbiList, g₁.cbis p = g.cbis p := by
  refine ⟨fun g₁ h => ?_, fun pic g₁ hw hh hpic h => ?_, fun g₁ h => ?_⟩
  · have hopen := msgBoxCreate_opened hbox hcover hne h
    exact ⟨hopen.drawn, hopen.restorable (by decide) (by decide)⟩
  · have hopen := msgBoxImage_opened hbox hcover hne hpic h
    have hw' : 0 < (imageArea pic).w := Int.natCast_pos.mpr hw
    have hh' : 0 < (imageArea pic).h := Int.natCast_pos.mpr hh
    exact ⟨hopen.drawn, hopen.restorable hw' hh'⟩
  · unfold msgBoxImage at h
    cases hpic : env.picture.hw.or env.picture.sw with
    | some pic =>
      rw [hpic] at h
      exact absurd (Prod.mk.inj h).2 (by decide)
    | none =>
      rw [hpic] at h
      obtain ⟨rfl, -⟩ := Prod.mk.inj h
      have hlist : (cbiCoverAll cover g).cbiList = cover :: g.cbiList := rfl
      have hgone : cbiUncover (cbiCoverAll cover g) =
          { cbiCoverAll cover g with cbiList := g.cbiList } := by
        show cbiUnregister cover (cbiCoverAll cover g) = _
        rw [cbiUnregister, hlist, if_pos List.mem_cons_self, List.erase_cons_head]
      rw [hgone]
      refine ⟨rfl, rfl, fun p hp => cbiCoverAll_others g ?_⟩
      rintro rfl
      exact hcover hp

/-- A red line over an empty screen, in a box and by itself. -/
theorem msg_box_line :
    let pic : Picture := ⟨50, 1, fun _ _ => guiColorRed⟩
    let env : Env := ⟨⟨fun _ _ => 0, fun _ => 0⟩, fun _ => 0, ⟨none, some pic⟩⟩
    let g : State := ⟨fun _ => ⟨⟨0, 0⟩, ⟨0, 0⟩, .cbfNoop, .cbfNoop, .cbfNoop, .cbfNoDrag⟩, [],
      ⟨fun _ => guiBgColor, fun _ => none, none⟩⟩
    (∃ g₁, msgBoxCreate env (fun _ => 0) 1 0 g = some g₁ ∧ Restorable boxArea 1 0 g g₁) ∧
      ∃ g₁, msgBoxImage env 1 0 g = (g₁, true) ∧ Restorable (imageArea pic) 1 0 g g₁ := by
  intro pic env g
  have h := msg_box env (fun _ => 0) g (show 1 ∉ [] by decide) (show 0 ∉ [] by decide) (by decide)
  exact ⟨⟨_, rfl, (h.1 _ rfl).2⟩, _, rfl, (h.2.1 pic _ (by decide) (by decide) rfl rfl).2⟩

end Box

end DfewOS.MsgBox
