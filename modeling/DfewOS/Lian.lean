import DfewOS.GridPath
import Mathlib.Data.Nat.Notation
import Mathlib.Data.Int.Notation

/-!
# The link check of Lianliankan

`lian_check` with its search for one, two and three lines. The path so far is the
stack `_G_way` of four places: a push beyond the last, or a row without an end, has no
result.
-/

namespace DfewOS.Lian
open GridPath (Dir Cell)

abbrev rowNum : ℕ := 10
abbrev colNum : ℕ := 10

abbrev Coor := Cell
/-- `map[y][x]` -/
abbrev Map := Coor → ℤ
/-- The points `_G_way[0]` to `_G_way[_G_pos - 1]`. -/
abbrev Way := List Coor

def Way.push (w : Way) (c : Coor) : Option Way := if w.length < 4 then some (w ++ [c]) else none

def Way.pop (w : Way) : Way := w.dropLast

/-- The direction from one cell to another of its row or column. -/
def dirTo (s e : Coor) : Option Dir :=
  if s.x > e.x ∧ s.y = e.y then some .left
  else if s.x < e.x ∧ s.y = e.y then some .right
  else if s.x = e.x ∧ s.y > e.y then some .up
  else if s.x = e.x ∧ s.y < e.y then some .down
  else none

/-- The comparison of the loop: is the cell still before the end? -/
def before (e p : Coor) : Dir → Bool
  | .left => p.x > e.x
  | .right => p.x < e.x
  | .up => p.y > e.y
  | .down => p.y < e.y

/-- The loop of `_reach`: a step, and another one while the cell is before the end and
empty. There are no more steps than cells to the end. -/
def walk (map : Map) (d : Dir) (e : Coor) : ℕ → Coor → Coor
  | 0, p => p
  | n + 1, p =>
    let p := d.move 1 p
    if before e p d && map p == 0 then walk map d e n p else p

def distance (s e : Coor) : ℕ := (s.x - e.x).natAbs + (s.y - e.y).natAbs

def reach (map : Map) (s e : Coor) : Bool :=
  match dirTo s e with
  | none => false
  | some d => walk map d e (distance s e) s = e

/-- One of the two tries of `_lr_reach`: `past` is the cell behind the corner `turn`. -/
def lrTurn (map : Map) (s e past turn : Coor) (w : Way) : Option (Bool × Way) :=
  if reach map s past then
    (w.push turn).map fun w => if reach map turn e then (true, w) else (false, w.pop)
  else some (false, w)

def turnPoints (s e : Coor) : Option (Coor × Coor) :=
  if s.x > e.x ∧ s.y > e.y then some (⟨e.x - 1, s.y⟩, ⟨s.x, e.y - 1⟩)
  else if s.x < e.x ∧ s.y > e.y then some (⟨e.x + 1, s.y⟩, ⟨s.x, e.y - 1⟩)
  else if s.x > e.x ∧ s.y < e.y then some (⟨e.x - 1, s.y⟩, ⟨s.x, e.y + 1⟩)
  else if s.x < e.x ∧ s.y < e.y then some (⟨e.x + 1, s.y⟩, ⟨s.x, e.y + 1⟩)
  else none

def lrReach (map : Map) (s e : Coor) (w : Way) : Option (Bool × Way) :=
  match turnPoints s e with
  | none => some (false, w)
  | some (past₀, past₁) =>
    (lrTurn map s e past₀ ⟨e.x, past₀.y⟩ w).bind fun (found, w) =>
      if found then some (true, w) else lrTurn map s e past₁ ⟨past₁.x, e.y⟩ w

/-- One of the four loops of `_lr_lr_reach`. A row of the map has no more than
`rowNum + 2` cells. -/
def turnLoop (map : Map) (e : Coor) (d : Dir) : ℕ → Coor → Way → Option (Bool × Way)
  | 0, _, _ => none
  | n + 1, turn, w =>
    let turn := d.move 1 turn
    if map turn = 0 then
      (w.push turn).bind fun w =>
        (lrReach map turn e w).bind fun (found, w) =>
          if found then some (true, w) else turnLoop map e d n turn w.pop
    else some (false, w)

def lrLrReach (map : Map) (s e : Coor) (w : Way) : Option (Bool × Way) :=
  (turnLoop map e .left (colNum + 2) s w).bind fun (found, w) =>
    if found then some (true, w) else
      (turnLoop map e .right (colNum + 2) s w).bind fun (found, w) =>
        if found then some (true, w) else
          (turnLoop map e .up (rowNum + 2) s w).bind fun (found, w) =>
            if found then some (true, w) else turnLoop map e .down (rowNum + 2) s w

def arrive (e : Coor) (w : Way) : Option (Bool × Way) := (w.push e).map fun w => (true, w)

def lianCheck (map : Map) (s e : Coor) (w : Way) : Option (Bool × Way) :=
  if s.x = e.x ∧ s.y = e.y then some (false, w)
  else if map s = 0 then some (false, w)
  else if map s ≠ map e then some (false, w)
  else
    (Way.push [] s).bind fun w =>
      if reach map s e then arrive e w else
        (lrReach map s e w).bind fun (found, w) =>
          if found then arrive e w else
            (lrLrReach map s e w).bind fun (found, w) =>
              if found then arrive e w else some (false, w)

end DfewOS.Lian
