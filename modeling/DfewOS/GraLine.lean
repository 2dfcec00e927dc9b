import DfewOS.DigitalLine
import DfewOS.GuiCore
import DfewOS.Loops
import Mathlib.Data.Int.Range
import Mathlib.Tactic.Ring

/-!
# Lines of any slope

`gra_rect`, `gra_line` and `gra_line_u` of `gui/gui_gra.c` on ints of 32 bits, down to the calls of
`lcd_set_color`. The two loops of `gra_line_u` are one with the coordinates exchanged: `u` is the
one that moves with every round, `v` the other.
-/

namespace DfewOS.Gra
open Loops (loop loop_rounds)
open DigitalLine (walk walk_decided walk_stay walk_move walk_step walk_end error)

def wrap (x : ℤ) : ℤ := (x + 2 ^ 31) % 2 ^ 32 - 2 ^ 31

theorem wrap_of_int {x : ℤ} (h : -2 ^ 31 ≤ x ∧ x < 2 ^ 31) : wrap x = x := by
  rw [wrap, Int.emod_eq_of_lt (by omega) (by omega), Int.add_sub_cancel]

structure Fill where
  row : ℤ
  col : ℤ
  color : UInt16
  pixels : ℤ

structure GuiSize where
  w : ℤ
  h : ℤ

def graRect (start : GuiCoor) (size : GuiSize) (color : UInt16) : List Fill :=
  (Int.range start.y (wrap (start.y + size.h))).map fun i => ⟨i, start.x, color, size.w⟩

/-- `none` is `OS_STATUS_ERROR`. -/
def graLine (start stop : GuiCoor) (color : UInt16) (width : ℤ) : Option (List Fill) :=
  if start.x ≠ stop.x ∧ start.y ≠ stop.y then none
  else
    let s : GuiCoor := ⟨min start.x stop.x, min start.y stop.y⟩
    let e : GuiCoor := ⟨max start.x stop.x, max start.y stop.y⟩
    let size : GuiSize :=
      ⟨if wrap (e.x - s.x) ≠ 0 then wrap (e.x - s.x + 1) else width,
        if wrap (e.y - s.y) ≠ 0 then wrap (e.y - s.y + 1) else width⟩
    some (graRect s size color)

def spanFrom (a b c d : ℤ) (color : UInt16) : List Fill :=
  (graLine ⟨a, b⟩ ⟨c, d⟩ color 1).getD []

structure March where
  u : ℤ
  v : ℤ
  di : ℤ
  drawn : List (List Fill)

/-- A round of one of the loops. `line u v` is what is drawn there. -/
def marchStep (uSym vSym uX2 vX2 : ℤ) (line : ℤ → ℤ → List Fill) (s : March) : March where
  u := wrap (s.u + uSym)
  v := if s.di < 0 then s.v else wrap (s.v + vSym)
  di := if s.di < 0 then wrap (s.di + vX2) else wrap (s.di + (vX2 - uX2))
  drawn := s.drawn ++ [line s.u s.v]

def march (fuel : ℕ) (uSym vSym uX2 vX2 u1 : ℤ) (line : ℤ → ℤ → List Fill) (s : March) :
    Option (List (List Fill)) :=
  (loop (fun s => s.u ≠ u1) (marchStep uSym vSym uX2 vX2 line) fuel s).map fun s =>
    s.drawn ++ [line s.u s.v]

/-- What is drawn at a point where the line runs along the x axis. -/
def columnAt (width : ℤ) (color : UInt16) (x y : ℤ) : List Fill :=
  let wx := width.tdiv 2
  let wy := wrap (width - wx - 1)
  spanFrom x (wrap (y - wx)) x (wrap (y + wy)) color

/-- What is drawn at a point where the line runs along the y axis. -/
def rowAt (width : ℤ) (color : UInt16) (x y : ℤ) : List Fill :=
  let wx := width.tdiv 2
  let wy := wrap (width - wx - 1)
  spanFrom (wrap (x - wx)) y (wrap (x + wy)) y color

def graLineU (fuel : ℕ) (start stop : GuiCoor) (color : UInt16) (width : ℤ) :
    Option (List (List Fill)) :=
  match graLine start stop color width with
  | some fills => some [fills]
  | none =>
    let dx := wrap (stop.x - start.x)
    let dy := wrap (stop.y - start.y)
    let dxSym := if dx > 0 then 1 else -1
    let dySym := if dy > 0 then 1 else -1
    let dx := wrap (dxSym * dx)
    let dy := wrap (dySym * dy)
    let dxX2 := wrap (dx * 2)
    let dyX2 := wrap (dy * 2)
    if dx ≥ dy then
      march fuel dxSym dySym dxX2 dyX2 stop.x (columnAt width color)
        ⟨start.x, start.y, wrap (dyX2 - dx), []⟩
    else
      march fuel dySym dxSym dyX2 dxX2 stop.y (fun y x => rowAt width color x y)
        ⟨start.y, start.x, wrap (dxX2 - dy), []⟩

section March
variable {uSym vSym du dv u0 v0 u1 : ℤ} {line : ℤ → ℤ → List Fill} {fuel k : ℕ}

/-- The ints of a loop: unit steps from small coordinates, along the longer side. -/
structure Slope (uSym vSym du dv u0 v0 : ℤ) : Prop where
  unit_u : uSym = 1 ∨ uSym = -1
  unit_v : vSym = 1 ∨ vSym = -1
  longer : 0 < du ∧ du < 2 ^ 29
  shorter : 0 ≤ dv ∧ dv ≤ du
  small_u : u0.natAbs < 2 ^ 28
  small_v : v0.natAbs < 2 ^ 28

def marchAt (uSym vSym du dv u0 v0 : ℤ) (line : ℤ → ℤ → List Fill) (k : ℕ) : March where
  u := u0 + uSym * k
  v := v0 + vSym * (walk du dv k).1
  di := (walk du dv k).2
  drawn := (List.range k).map fun i : ℕ => line (u0 + uSym * i) (v0 + vSym * (walk du dv i).1)

theorem marchAt_drawn :
    (marchAt uSym vSym du dv u0 v0 line (k + 1)).drawn =
      (marchAt uSym vSym du dv u0 v0 line k).drawn ++
        [line (marchAt uSym vSym du dv u0 v0 line k).u (marchAt uSym vSym du dv u0 v0 line k).v] := by
  rw [marchAt, List.range_succ, List.map_append]
  rfl

theorem marchStep_stay {uX2 vX2 : ℤ} {s : March} (h : s.di < 0) :
    marchStep uSym vSym uX2 vX2 line s =
      ⟨wrap (s.u + uSym), s.v, wrap (s.di + vX2), s.drawn ++ [line s.u s.v]⟩ := by
  rw [marchStep, if_pos h, if_pos h]

theorem marchStep_move {uX2 vX2 : ℤ} {s : March} (h : ¬s.di < 0) :
    marchStep uSym vSym uX2 vX2 line s =
      ⟨wrap (s.u + uSym), wrap (s.v + vSym), wrap (s.di + (vX2 - uX2)),
        s.drawn ++ [line s.u s.v]⟩ := by
  rw [marchStep, if_neg h, if_neg h]

theorem Slope.step (h : Slope uSym vSym du dv u0 v0) (hk : (k : ℤ) < du) :
    marchStep uSym vSym (du * 2) (dv * 2) line (marchAt uSym vSym du dv u0 v0 line k) =
      marchAt uSym vSym du dv u0 v0 line (k + 1) := by
  obtain ⟨hu, hv, hdu, hdv, hu0, hv0⟩ := h
  obtain ⟨hdecision, habove, hbelow, hle⟩ := walk_decided hdv.1 hdv.2 k
  have hdrawn : (marchAt uSym vSym du dv u0 v0 line (k + 1)).drawn = _ := marchAt_drawn
  have hu1 : wrap (u0 + uSym * k + uSym) = u0 + uSym * (k + 1 : ℕ) := by
    rw [wrap_of_int (by rcases hu with rfl | rfl <;> omega)]
    rcases hu with rfl | rfl <;> omega
  by_cases hdi : (marchAt uSym vSym du dv u0 v0 line k).di < 0
  · rw [marchStep_stay hdi, ← hdrawn]
    change (walk du dv k).2 < 0 at hdi
    simp only [marchAt, walk_stay hdi, March.mk.injEq, and_true, true_and]
    exact ⟨hu1, wrap_of_int (by omega)⟩
  · rw [marchStep_move hdi, ← hdrawn]
    change ¬(walk du dv k).2 < 0 at hdi
    simp only [marchAt, walk_move hdi, March.mk.injEq, and_true]
    refine ⟨hu1, ?_, wrap_of_int (by omega)⟩
    rw [wrap_of_int (by rcases hv with rfl | rfl <;> omega)]
    rcases hv with rfl | rfl <;> omega

theorem Slope.march (h : Slope uSym vSym du dv u0 v0) (hu1 : u1 = u0 + uSym * du)
    (hfuel : du.toNat < fuel) :
    march fuel uSym vSym (du * 2) (dv * 2) u1 line ⟨u0, v0, dv * 2 - du, []⟩ =
      some ((List.range (du.toNat + 1)).map fun k : ℕ =>
        line (u0 + uSym * k) (v0 + vSym * (walk du dv k).1)) := by
  have hend : ∀ k : ℕ, u0 + uSym * k = u1 ↔ k = du.toNat := by
    intro k
    have hdu := h.longer
    rcases h.unit_u with rfl | rfl <;> omega
  have hstart : marchAt uSym vSym du dv u0 v0 line 0 = ⟨u0, v0, dv * 2 - du, []⟩ := by
    simp only [marchAt, walk, Int.natCast_zero, Int.mul_zero, Int.add_zero, List.range_zero,
      List.map_nil]
  obtain ⟨t, ht, hlast⟩ : ∃ t, loop (fun s : March => s.u ≠ u1)
      (marchStep uSym vSym (du * 2) (dv * 2) line) fuel ⟨u0, v0, dv * 2 - du, []⟩ = some t ∧
        t = marchAt uSym vSym du dv u0 v0 line du.toNat := by
    apply loop_rounds (fun j s => ∃ k, k + j = du.toNat ∧ s = marchAt uSym vSym du dv u0 v0 line k)
      du.toNat
    · rintro j s ⟨k, hk, rfl⟩
      refine ⟨decide_eq_true fun heq => ?_, k + 1, by omega, h.step (by omega)⟩
      have hkn := (hend k).mp heq
      omega
    · rintro s ⟨k, rfl, rfl⟩
      exact ⟨decide_eq_false fun hne => hne ((hend _).mpr rfl), rfl⟩
    · exact ⟨0, Nat.zero_add _, hstart.symm⟩
    · exact hfuel
  rw [Gra.march, ht, hlast, Option.map_some, ← marchAt_drawn]
  rfl

end March

/-! ## The points of the line and what is drawn at them -/

inductive Axis
  | x
  | y

def Axis.major : Axis → GuiCoor → ℤ
  | .x => GuiCoor.x
  | .y => GuiCoor.y

def Axis.minor : Axis → GuiCoor → ℤ
  | .x => GuiCoor.y
  | .y => GuiCoor.x

def Axis.coor : Axis → ℤ → ℤ → GuiCoor
  | .x => fun u v => ⟨u, v⟩
  | .y => fun u v => ⟨v, u⟩

def majorAxis (start stop : GuiCoor) : Axis :=
  if (stop.y - start.y).natAbs ≤ (stop.x - start.x).natAbs then .x else .y

/-- One point for each value of the major coordinate, none further than one half from the line. -/
structure OnLine (axis : Axis) (start stop : GuiCoor) (point : ℕ → GuiCoor) : Prop where
  first : point 0 = start
  last : point (axis.major stop - axis.major start).natAbs = stop
  next : ∀ k, axis.major (point (k + 1)) =
    axis.major (point k) + (axis.major stop - axis.major start).sign
  step : ∀ k, (axis.minor (point (k + 1)) - axis.minor (point k)).natAbs ≤ 1
  near : ∀ k, 2 * ((axis.minor (point k) - axis.minor start) * (axis.major stop - axis.major start) -
    (axis.major (point k) - axis.major start) * (axis.minor stop - axis.minor start)).natAbs ≤
      (axis.major stop - axis.major start).natAbs

section Points
variable {axis : Axis} {uSym vSym du dv u0 v0 : ℤ} {k : ℕ}

@[simp] theorem Axis.major_coor (u v : ℤ) : axis.major (axis.coor u v) = u := by cases axis <;> rfl
@[simp] theorem Axis.minor_coor (u v : ℤ) : axis.minor (axis.coor u v) = v := by cases axis <;> rfl

def pointAt (axis : Axis) (uSym vSym du dv u0 v0 : ℤ) (k : ℕ) : GuiCoor :=
  axis.coor (u0 + uSym * k) (v0 + vSym * (walk du dv k).1)

theorem Slope.onLine (h : Slope uSym vSym du dv u0 v0) :
    OnLine axis (axis.coor u0 v0) (axis.coor (u0 + uSym * du) (v0 + vSym * dv))
      (pointAt axis uSym vSym du dv u0 v0) := by
  obtain ⟨hu, hv, hdu, hdv, -, -⟩ := h
  have habs : (u0 + uSym * du - u0).natAbs = du.toNat := by rcases hu with rfl | rfl <;> omega
  have hsign : (u0 + uSym * du - u0).sign = uSym := by
    rcases hu with rfl | rfl
    · exact Int.sign_eq_one_of_pos (by omega)
    · exact Int.sign_eq_neg_one_of_neg (by omega)
  constructor
  · simp only [pointAt, walk, Int.natCast_zero, Int.mul_zero, Int.add_zero]
  · rw [Axis.major_coor, Axis.major_coor, habs, pointAt, walk_end hdu.1 hdv.1 hdv.2,
      Int.toNat_of_nonneg (Int.le_of_lt hdu.1)]
  · intro k
    rw [pointAt, pointAt, Axis.major_coor, Axis.major_coor, Axis.major_coor, Axis.major_coor, hsign]
    rcases hu with rfl | rfl <;> omega
  · intro k
    rw [pointAt, pointAt, Axis.minor_coor, Axis.minor_coor]
    have hstep : (walk du dv (k + 1)).1 = (walk du dv k).1 ∨ _ := walk_step k
    rcases hstep with hstay | hmove
    · rw [hstay, Int.sub_self]
      exact Nat.zero_le 1
    · rw [hmove]
      rcases hv with rfl | rfl <;> omega
  · intro k
    obtain ⟨-, habove, hbelow, -⟩ := walk_decided hdv.1 hdv.2 k
    simp only [pointAt, Axis.major_coor, Axis.minor_coor, habs]
    have hunit : uSym * vSym = 1 ∨ uSym * vSym = -1 := by
      rcases hu with rfl | rfl <;> rcases hv with rfl | rfl <;> decide
    have herror : (v0 + vSym * (walk du dv k).1 - v0) * (u0 + uSym * du - u0) -
        (u0 + uSym * k - u0) * (v0 + vSym * dv - v0) =
          -(uSym * vSym * error du dv k (walk du dv k).1) := by
      simp only [error]
      ring
    rw [herror]
    rcases hunit with hone | hone <;> rw [hone] <;> omega

end Points

section Spans
variable {axis : Axis} {a b x y width : ℤ} {color : UInt16} {p : GuiCoor}

def Fill.paint (f : Fill) : List (GuiCoor × UInt16) :=
  (List.range f.pixels.toNat).map fun i : ℕ => (⟨f.col + i, f.row⟩, f.color)

def paint (fills : List Fill) : List (GuiCoor × UInt16) := fills.flatMap Fill.paint

def spanAt (axis : Axis) (width : ℤ) (color : UInt16) (p : GuiCoor) : List Fill :=
  match axis with
  | .x => columnAt width color p.x p.y
  | .y => rowAt width color p.x p.y

/-- `width` pixels in a stretch across the line, `width / 2` of them before the point. -/
def across (axis : Axis) (width : ℤ) (color : UInt16) (p : GuiCoor) : List (GuiCoor × UInt16) :=
  (List.range width.toNat).map fun i : ℕ =>
    (axis.coor (axis.major p) (axis.minor p - width / 2 + i), color)

theorem graRect_rows {start : GuiCoor} {size : GuiSize}
    (h : wrap (start.y + size.h) = start.y + size.h) :
    graRect start size color = (List.range size.h.toNat).map fun i : ℕ =>
      ⟨start.y + i, start.x, color, size.w⟩ := by
  rw [graRect, h, Int.range, show start.y + size.h - start.y = size.h by omega, List.map_map]
  rfl

theorem side_eq (hle : a ≤ b) (hlt : b - a < 2 ^ 31 - 1) :
    (if wrap (b - a) ≠ 0 then wrap (b - a + 1) else 1) = b - a + 1 := by
  rw [wrap_of_int (by omega), wrap_of_int (by omega)]
  split_ifs with hne
  · rfl
  · omega

theorem side_zero (x : ℤ) : (if wrap (x - x) ≠ 0 then wrap (x - x + 1) else 1) = 1 := by
  rw [side_eq le_rfl (by omega), Int.sub_self, Int.zero_add]

theorem spanFrom_column (hle : a ≤ b) (hlt : b - a < 2 ^ 31 - 1) :
    spanFrom x a x b color = graRect ⟨x, a⟩ ⟨1, b - a + 1⟩ color := by
  rw [spanFrom, graLine, if_neg fun h => h.1 rfl]
  simp only [min_self, max_self, min_eq_left hle, max_eq_right hle, side_zero, side_eq hle hlt]
  rfl

theorem spanFrom_row (hle : a ≤ b) (hlt : b - a < 2 ^ 31 - 1) :
    spanFrom a y b y color = graRect ⟨a, y⟩ ⟨b - a + 1, 1⟩ color := by
  rw [spanFrom, graLine, if_neg fun h => h.2 rfl]
  simp only [min_self, max_self, min_eq_left hle, max_eq_right hle, side_zero, side_eq hle hlt]
  rfl

theorem half_width (hpos : 1 ≤ width) (hlt : width < 2 ^ 31) :
    width.tdiv 2 = width / 2 ∧ wrap (width - width / 2 - 1) = width - width / 2 - 1 :=
  ⟨Int.tdiv_eq_ediv_of_nonneg (by omega), wrap_of_int (by omega)⟩

theorem paint_columnAt (hpos : 1 ≤ width) (hlt : width < 2 ^ 31) (hy : y.natAbs < 2 ^ 30) :
    paint (columnAt width color x y) =
      (List.range width.toNat).map fun i : ℕ => (⟨x, y - width / 2 + i⟩, color) := by
  obtain ⟨hwx, hwy⟩ := half_width hpos hlt
  have htop : wrap (y - width / 2) = y - width / 2 := wrap_of_int (by omega)
  have hbottom : wrap (y + (width - width / 2 - 1)) = y - width / 2 + width - 1 := by
    rw [wrap_of_int (by omega)]
    omega
  have hstop : wrap (y - width / 2 + width) = y - width / 2 + width := wrap_of_int (by omega)
  have hone : ∀ i : ℕ, Fill.paint ⟨y - width / 2 + i, x, color, 1⟩ =
      [((⟨x, y - width / 2 + i⟩, color) : GuiCoor × UInt16)] := by
    intro i
    simp [Fill.paint]
  rw [columnAt, hwx, hwy, htop, hbottom, spanFrom_column (by omega) (by omega),
    show y - width / 2 + width - 1 - (y - width / 2) + 1 = width by omega, graRect_rows hstop,
    paint, List.flatMap_map]
  simp only [hone, List.map_eq_flatMap]

theorem paint_rowAt (hpos : 1 ≤ width) (hlt : width < 2 ^ 31) (hx : x.natAbs < 2 ^ 30)
    (hy : y.natAbs < 2 ^ 30) :
    paint (rowAt width color x y) =
      (List.range width.toNat).map fun i : ℕ => (⟨x - width / 2 + i, y⟩, color) := by
  obtain ⟨hwx, hwy⟩ := half_width hpos hlt
  have hleft : wrap (x - width / 2) = x - width / 2 := wrap_of_int (by omega)
  have hright : wrap (x + (width - width / 2 - 1)) = x - width / 2 + width - 1 := by
    rw [wrap_of_int (by omega)]
    omega
  have hstop : wrap (y + 1) = y + 1 := wrap_of_int (by omega)
  rw [rowAt, hwx, hwy, hleft, hright, spanFrom_row (by omega) (by omega),
    show x - width / 2 + width - 1 - (x - width / 2) + 1 = width by omega, graRect_rows hstop]
  simp [paint, Fill.paint]

end Spans

section Line
variable {start stop : GuiCoor} {color : UInt16} {width a b : ℤ} {fuel : ℕ}

def Small (p : GuiCoor) : Prop := p.x.natAbs < 2 ^ 28 ∧ p.y.natAbs < 2 ^ 28

def symOf (a b : ℤ) : ℤ := if wrap (b - a) > 0 then 1 else -1

structure Side (a b : ℤ) : Prop where
  unit : symOf a b = 1 ∨ symOf a b = -1
  abs : wrap (symOf a b * wrap (b - a)) = (b - a).natAbs
  double : wrap (((b - a).natAbs : ℤ) * 2) = (b - a).natAbs * 2
  reach : a + symOf a b * (b - a).natAbs = b
  pos : 0 < (b - a).natAbs
  lt : (b - a).natAbs < 2 ^ 29

theorem side_of_small (ha : a.natAbs < 2 ^ 28) (hb : b.natAbs < 2 ^ 28) (hne : a ≠ b) : Side a b := by
  have hwrap : wrap (b - a) = b - a := wrap_of_int (by omega)
  have hdouble : wrap (((b - a).natAbs : ℤ) * 2) = (b - a).natAbs * 2 := wrap_of_int (by omega)
  rcases Int.lt_or_gt_of_ne hne with hlt | hgt
  · have hsym : symOf a b = 1 := by rw [symOf, hwrap, if_pos (by omega)]
    refine ⟨Or.inl hsym, ?_, hdouble, ?_, by omega, by omega⟩ <;> rw [hsym]
    · rw [hwrap, Int.one_mul, hwrap]
      omega
    · omega
  · have hsym : symOf a b = -1 := by rw [symOf, hwrap, if_neg (by omega)]
    refine ⟨Or.inr hsym, ?_, hdouble, ?_, by omega, by omega⟩ <;> rw [hsym]
    · rw [hwrap, wrap_of_int (by omega)]
      omega
    · omega

theorem graLineU_eq (hx : Side start.x stop.x) (hy : Side start.y stop.y)
    (hnex : start.x ≠ stop.x) (hney : start.y ≠ stop.y) :
    graLineU fuel start stop color width =
      if (stop.y - start.y).natAbs ≤ (stop.x - start.x).natAbs then
        march fuel (symOf start.x stop.x) (symOf start.y stop.y) ((stop.x - start.x).natAbs * 2)
          ((stop.y - start.y).natAbs * 2) stop.x (columnAt width color)
          ⟨start.x, start.y, (stop.y - start.y).natAbs * 2 - (stop.x - start.x).natAbs, []⟩
      else
        march fuel (symOf start.y stop.y) (symOf start.x stop.x) ((stop.y - start.y).natAbs * 2)
          ((stop.x - start.x).natAbs * 2) stop.y (fun y x => rowAt width color x y)
          ⟨start.y, start.x, (stop.x - start.x).natAbs * 2 - (stop.y - start.y).natAbs, []⟩ := by
  have hdi : ∀ {m n : ℕ}, m < 2 ^ 29 → n < 2 ^ 29 → wrap ((m : ℤ) * 2 - n) = (m : ℤ) * 2 - n :=
    fun hm hn => wrap_of_int (by omega)
  have hsymx : (if wrap (stop.x - start.x) > 0 then (1 : ℤ) else -1) = symOf start.x stop.x := rfl
  have hsymy : (if wrap (stop.y - start.y) > 0 then (1 : ℤ) else -1) = symOf start.y stop.y := rfl
  rw [graLineU, graLine, if_pos ⟨hnex, hney⟩]
  dsimp only
  rw [hsymx, hsymy, hx.abs, hy.abs, hx.double, hy.double, hdi hx.lt hy.lt, hdi hy.lt hx.lt]
  exact if_congr Int.ofNat_le rfl rfl

def rounds (start stop : GuiCoor) : ℕ := max (stop.x - start.x).natAbs (stop.y - start.y).natAbs

theorem slope_of_sides {a' b' : ℤ} (h : Side a b) (h' : Side a' b')
    (hle : (b' - a').natAbs ≤ (b - a).natAbs) (ha : a.natAbs < 2 ^ 28) (ha' : a'.natAbs < 2 ^ 28) :
    Slope (symOf a b) (symOf a' b') (b - a).natAbs (b' - a').natAbs a a' where
  unit_u := h.unit
  unit_v := h'.unit
  longer := ⟨by have hpos := h.pos; omega, by have hlt := h.lt; omega⟩
  shorter := ⟨Int.natCast_nonneg _, Int.ofNat_le.mpr hle⟩
  small_u := ha
  small_v := ha'

/-- What `gra_line_u` draws: a span across the line at each of its points. -/
structure Draws (start stop : GuiCoor) (color : UInt16) (width : ℤ) (axis : Axis)
    (point : ℕ → GuiCoor) : Prop where
  onLine : OnLine axis start stop point
  returns : ∀ fuel, rounds start stop < fuel → graLineU fuel start stop color width =
    some ((List.range (rounds start stop + 1)).map fun k => spanAt axis width color (point k))
  spans : 1 ≤ width → width < 2 ^ 31 → ∀ k ≤ rounds start stop,
    paint (spanAt axis width color (point k)) = across axis width color (point k)

theorem Slope.draws {axis : Axis} {uSym vSym du dv u0 v0 : ℤ} (h : Slope uSym vSym du dv u0 v0)
    (hstart : axis.coor u0 v0 = start)
    (hstop : axis.coor (u0 + uSym * du) (v0 + vSym * dv) = stop)
    (hrounds : rounds start stop = du.toNat)
    (hmarch : ∀ fuel, graLineU fuel start stop color width =
      Gra.march fuel uSym vSym (du * 2) (dv * 2) (u0 + uSym * du)
        (fun u v => spanAt axis width color (axis.coor u v)) ⟨u0, v0, dv * 2 - du, []⟩) :
    Draws start stop color width axis (pointAt axis uSym vSym du dv u0 v0) where
  onLine := hstart ▸ hstop ▸ h.onLine
  returns fuel hfuel := by
    rw [hmarch, h.march rfl (hrounds ▸ hfuel), hrounds]
    rfl
  spans hpos hlt k hk := by
    obtain ⟨-, -, -, hle⟩ := walk_decided h.shorter.1 h.shorter.2 k
    have hu : (u0 + uSym * k).natAbs < 2 ^ 30 := by
      have hsmall := h.small_u
      have hdu := h.longer
      rcases h.unit_u with rfl | rfl <;> omega
    have hv : (v0 + vSym * (walk du dv k).1).natAbs < 2 ^ 30 := by
      have hsmall := h.small_v
      have hdu := h.longer
      rcases h.unit_v with rfl | rfl <;> omega
    cases axis with
    | x => exact paint_columnAt hpos hlt hv
    | y => exact paint_rowAt hpos hlt hv hu

/-- `gra_line_u` returns after a span across each point of the line, one for each value of the
coordinate along the longer side. -/
theorem gra_line_u_bresenham (start stop : GuiCoor) (color : UInt16) (width : ℤ)
    (hstart : Small start) (hstop : Small stop) (hx : start.x ≠ stop.x) (hy : start.y ≠ stop.y) :
    ∃ point, Draws start stop color width (majorAxis start stop) point := by
  have hsidex := side_of_small hstart.1 hstop.1 hx
  have hsidey := side_of_small hstart.2 hstop.2 hy
  rw [majorAxis]
  split_ifs with hle
  · have hslope := slope_of_sides hsidex hsidey hle hstart.1 hstart.2
    refine ⟨_, hslope.draws rfl ?_ ?_ fun fuel => ?_⟩
    · rw [hsidex.reach, hsidey.reach]
      rfl
    · rw [rounds, max_eq_left hle, Int.toNat_natCast]
    · rw [graLineU_eq hsidex hsidey hx hy, if_pos hle, hsidex.reach]
      rfl
  · have hge := Nat.le_of_not_le hle
    have hslope := slope_of_sides hsidey hsidex hge hstart.2 hstart.1
    refine ⟨_, hslope.draws rfl ?_ ?_ fun fuel => ?_⟩
    · rw [hsidex.reach, hsidey.reach]
      rfl
    · rw [rounds, max_eq_right hge, Int.toNat_natCast]
    · rw [graLineU_eq hsidex hsidey hx hy, if_neg hle, hsidey.reach]
      rfl

theorem gra_line_u_bresenham_steep :
    ∃ point, Draws ⟨10, 20⟩ ⟨7, 200⟩ 0xF800 2 (majorAxis ⟨10, 20⟩ ⟨7, 200⟩) point :=
  gra_line_u_bresenham ⟨10, 20⟩ ⟨7, 200⟩ 0xF800 2 ⟨by decide, by decide⟩ ⟨by decide, by decide⟩
    (by decide) (by decide)

end Line

end DfewOS.Gra
