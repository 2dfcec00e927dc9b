import DfewOS.GridPath
import DfewOS.Transition
import Mathlib.Algebra.Group.Nat.Defs

/-!
# The Tetris core

The motions of the active block, the fixing of a block with the deletion of full lines,
and `job_task`, which serves one message after the other. A coordinate is a `short`, so
what is assigned to it wraps. A node that is fixed outside the screen has no result.
-/

namespace DfewOS.Tetris
open Transition

abbrev Coor := GridPath.Cell

abbrev Line := BitVec 32

def bitVal (val : Line) (pos : ℕ) : Bool := val.getLsbD pos
def bitSet (val : Line) (pos : ℕ) : Line := val ||| (1#32 <<< pos)
def bitClr (val : Line) (pos : ℕ) : Line := val &&& ~~~(1#32 <<< pos)

abbrev blockTypeNum : ℕ := 19
abbrev tetrisMaxColumn : ℕ := 32

inductive BlockType
  | o0
  | i0 | i1
  | z0 | z1
  | s0 | s1
  | t0 | t1 | t2 | t3
  | j0 | j1 | j2 | j3
  | l0 | l1 | l2 | l3
  deriving DecidableEq

def blockTypes : List BlockType :=
  [.o0, .i0, .i1, .z0, .z1, .s0, .s1, .t0, .t1, .t2, .t3, .j0, .j1, .j2, .j3, .l0, .l1, .l2, .l3]

def blockType (n : ℕ) : BlockType := blockTypes.getD n .o0

def BlockType.num (type : BlockType) : ℕ := blockTypes.idxOf type

inductive TypeColor
  | noColor
  | o | i | z | s | t | j | l
  deriving DecidableEq

def blockMap : BlockType → List Coor
  | .o0 => [⟨0, 0⟩, ⟨1, 0⟩, ⟨0, 1⟩, ⟨1, 1⟩]
  | .i0 => [⟨0, 0⟩, ⟨0, 1⟩, ⟨0, 2⟩, ⟨0, 3⟩]
  | .i1 => [⟨0, 0⟩, ⟨1, 0⟩, ⟨2, 0⟩, ⟨3, 0⟩]
  | .z0 => [⟨0, 0⟩, ⟨1, 0⟩, ⟨1, 1⟩, ⟨2, 1⟩]
  | .z1 => [⟨1, 0⟩, ⟨0, 1⟩, ⟨1, 1⟩, ⟨0, 2⟩]
  | .s0 => [⟨1, 0⟩, ⟨2, 0⟩, ⟨0, 1⟩, ⟨1, 1⟩]
  | .s1 => [⟨0, 0⟩, ⟨0, 1⟩, ⟨1, 1⟩, ⟨1, 2⟩]
  | .t0 => [⟨0, 0⟩, ⟨1, 0⟩, ⟨2, 0⟩, ⟨1, 1⟩]
  | .t1 => [⟨1, 0⟩, ⟨0, 1⟩, ⟨1, 1⟩, ⟨1, 2⟩]
  | .t2 => [⟨1, 0⟩, ⟨0, 1⟩, ⟨1, 1⟩, ⟨2, 1⟩]
  | .t3 => [⟨0, 0⟩, ⟨0, 1⟩, ⟨1, 1⟩, ⟨0, 2⟩]
  | .j0 => [⟨1, 0⟩, ⟨1, 1⟩, ⟨0, 2⟩, ⟨1, 2⟩]
  | .j1 => [⟨0, 0⟩, ⟨0, 1⟩, ⟨1, 1⟩, ⟨2, 1⟩]
  | .j2 => [⟨0, 0⟩, ⟨1, 0⟩, ⟨0, 1⟩, ⟨0, 2⟩]
  | .j3 => [⟨0, 0⟩, ⟨1, 0⟩, ⟨2, 0⟩, ⟨2, 1⟩]
  | .l0 => [⟨0, 0⟩, ⟨0, 1⟩, ⟨0, 2⟩, ⟨1, 2⟩]
  | .l1 => [⟨0, 0⟩, ⟨1, 0⟩, ⟨2, 0⟩, ⟨0, 1⟩]
  | .l2 => [⟨0, 0⟩, ⟨1, 0⟩, ⟨1, 1⟩, ⟨1, 2⟩]
  | .l3 => [⟨2, 0⟩, ⟨0, 1⟩, ⟨1, 1⟩, ⟨2, 1⟩]

def colorMap : BlockType → TypeColor
  | .o0 => .o
  | .i0 | .i1 => .i
  | .z0 | .z1 => .z
  | .s0 | .s1 => .s
  | .t0 | .t1 | .t2 | .t3 => .t
  | .j0 | .j1 | .j2 | .j3 => .j
  | .l0 | .l1 | .l2 | .l3 => .l

def scoreMap : List ℤ := [0, 1, 3, 7, 15]

inductive Msg
  | quit
  | turn
  | down
  | right
  | left
  | auto
  | bottom
  | hold
  deriving DecidableEq

inductive MotionStatus
  | ok
  | error
  | gameOver
  deriving DecidableEq

def short (n : ℤ) : ℤ := Int.bmod n (2 ^ 16)

def toShort (c : Coor) : Coor := ⟨short c.x, short c.y⟩

structure Block where
  base : Coor
  type : BlockType

/-- `COOR_X(i)` and `COOR_Y(i)` of the four nodes. -/
def Block.coors (blk : Block) : List Coor :=
  (blockMap blk.type).map fun pos => ⟨blk.base.x + pos.x, blk.base.y + pos.y⟩

structure Screen where
  scrMap : ℕ → Line
  columnNum : ℕ
  rowNum : ℕ

namespace Screen

def Inside (scr : Screen) (c : Coor) : Prop :=
  (0 ≤ c.x ∧ c.x < scr.columnNum) ∧ 0 ≤ c.y ∧ c.y < scr.rowNum

instance (scr : Screen) (c : Coor) : Decidable (scr.Inside c) :=
  inferInstanceAs (Decidable ((0 ≤ c.x ∧ c.x < scr.columnNum) ∧ 0 ≤ c.y ∧ c.y < scr.rowNum))

def isOccupied (scr : Screen) (c : Coor) : Bool :=
  if scr.Inside c then bitVal (scr.scrMap c.y.toNat) c.x.toNat else true

/-- The loop over the new coordinates of the four nodes. -/
def anyOccupied (scr : Screen) (coors : List Coor) : Bool :=
  coors.any fun c => scr.isOccupied (toShort c)

end Screen

inductive Event
  | moved (scr : Screen) (blk : Block)
  | fixed (scr : Screen) (blk : Block)

/-- `events` is what the motions and `fix_block` have done, the last of it first; no
function reads it. -/
structure Ctrl where
  nodeColorMap : ℕ → ℕ → TypeColor
  scr : Screen
  fullMask : Line
  fullLine : ℤ
  score : ℤ
  blk : Block
  inAutoMode : Bool
  events : List Event

namespace Ctrl

/-! ## Fixing a block -/

def updateLine (y : ℕ) (newVal : Line) (newColors : ℕ → TypeColor) (ctrl : Ctrl) : Ctrl :=
  { ctrl with
    nodeColorMap := Function.update ctrl.nodeColorMap y fun i =>
      if i < ctrl.scr.columnNum then newColors i else ctrl.nodeColorMap y i
    scr := { ctrl.scr with scrMap := Function.update ctrl.scr.scrMap y newVal } }

/-- The lines above fall by one, down to the first that becomes empty. -/
def fallLines : ℕ → Ctrl → Ctrl
  | 0, ctrl => ctrl.updateLine 0 0 fun _ => .noColor
  | i + 1, ctrl =>
    let ctrl := ctrl.updateLine (i + 1) (ctrl.scr.scrMap i) (ctrl.nodeColorMap i)
    if ctrl.scr.scrMap (i + 1) = 0 then ctrl else fallLines i ctrl

/-- `fuel` bounds the depth of the recursion. -/
def deleteThisLine : ℕ → ℕ → Ctrl → Option Ctrl
  | 0, _, _ => none
  | fuel + 1, y, ctrl =>
    let ctrl := ctrl.fallLines y
    let ctrl := { ctrl with fullLine := ctrl.fullLine - 1 }
    if ctrl.scr.scrMap y = ctrl.fullMask then deleteThisLine fuel y ctrl else some ctrl

def fixNode (c : Coor) (ctrl : Ctrl) : Option (ℤ × Ctrl) :=
  if ctrl.scr.Inside c then
    let x := c.x.toNat
    let y := c.y.toNat
    let line := bitSet (ctrl.scr.scrMap y) x
    let ctrl := { ctrl with
      scr := { ctrl.scr with scrMap := Function.update ctrl.scr.scrMap y line }
      nodeColorMap := Function.update ctrl.nodeColorMap y
        (Function.update (ctrl.nodeColorMap y) x (colorMap ctrl.blk.type)) }
    if line = ctrl.fullMask then some (c.y, { ctrl with fullLine := ctrl.fullLine + 1 })
    else some (-1, ctrl)
  else none

/-- The loop over the nodes, with the bottommost line that is full. -/
def fixNodes : List Coor → ℤ → Ctrl → Option (ℤ × Ctrl)
  | [], bottomFullLine, ctrl => some (bottomFullLine, ctrl)
  | c :: coors, bottomFullLine, ctrl =>
    (ctrl.fixNode (toShort c)).bind fun (fixLine, ctrl) =>
      fixNodes coors (max fixLine bottomFullLine) ctrl

def deleteLines : ℕ → Ctrl → Option Ctrl
  | 0, ctrl => some ctrl
  | i + 1, ctrl =>
    if ctrl.fullLine = 0 then some ctrl
    else if ctrl.scr.scrMap i ≠ ctrl.fullMask then deleteLines i ctrl
    else (deleteThisLine (i + 1) i ctrl).bind (deleteLines i)

def fixBlock (ctrl : Ctrl) : Option Ctrl :=
  let ctrl := { ctrl with events := .fixed ctrl.scr ctrl.blk :: ctrl.events }
  (ctrl.fixNodes ctrl.blk.coors (-1)).bind fun (bottomFullLine, ctrl) =>
    if ctrl.fullLine ≠ 0 then
      { ctrl with score := ctrl.score + scoreMap.getD ctrl.fullLine.toNat 0 }.deleteLines
        (bottomFullLine + 1).toNat
    else some ctrl

/-! ## Motions -/

def newBlock (rand : ℕ) (ctrl : Ctrl) : Ctrl :=
  { ctrl with
    blk := {
      base := ⟨short ((ctrl.scr.columnNum / 2 : ℕ) - 1), 0⟩
      type := blockType (rand % blockTypeNum) } }

def assign (blk : Block) (ctrl : Ctrl) : Ctrl :=
  { ctrl with blk := blk, events := .moved ctrl.scr blk :: ctrl.events }

def sideways (step : ℤ) (ctrl : Ctrl) : MotionStatus × Ctrl :=
  if ctrl.scr.anyOccupied (ctrl.blk.coors.map fun c => ⟨c.x + step, c.y⟩) then (.error, ctrl)
  else
    (.ok, ctrl.assign
      { ctrl.blk with base := { ctrl.blk.base with x := short (ctrl.blk.base.x + step) } })

def left : Ctrl → MotionStatus × Ctrl := sideways (-1)
def right : Ctrl → MotionStatus × Ctrl := sideways 1

def blocked (ctrl : Ctrl) : Bool :=
  ctrl.scr.anyOccupied (ctrl.blk.coors.map fun c => ⟨c.x, c.y + 1⟩)

/-- `base.y++` -/
def descend (ctrl : Ctrl) : Ctrl :=
  ctrl.assign
    { ctrl.blk with base := { ctrl.blk.base with y := short (ctrl.blk.base.y + 1) } }

def down (rand : ℕ) (ctrl : Ctrl) : Option (MotionStatus × Ctrl) :=
  if ctrl.blocked then
    if ctrl.blk.base.y > 0 then ctrl.fixBlock.map fun ctrl => (.error, ctrl.newBlock rand)
    else some (.gameOver, ctrl)
  else some (.ok, ctrl.descend)

/-- The loop of `bottom`, with no more turns than `fuel`. -/
def bottomLoop (rand : ℕ) : ℕ → Ctrl → Option (MotionStatus × Ctrl)
  | 0, _ => none
  | fuel + 1, ctrl =>
    if ctrl.blocked then
      if ctrl.blk.base.y > 0 then ctrl.fixBlock.map fun ctrl => (.error, ctrl.newBlock rand)
      else some (.gameOver, ctrl)
    else bottomLoop rand fuel ctrl.descend

def bottom (rand : ℕ) (ctrl : Ctrl) : Option (MotionStatus × Ctrl) :=
  ctrl.bottomLoop rand (ctrl.scr.rowNum + 1)

/-- The type that `turn` changes a block to, unless it is an O. -/
def newType : BlockType → BlockType
  | .i1 => .i0
  | .z1 => .z0
  | .s1 => .s0
  | .t3 => .t0
  | .j3 => .j0
  | .l3 => .l0
  | type => blockType (type.num + 1)

def turn (ctrl : Ctrl) : MotionStatus × Ctrl :=
  if ctrl.blk.type = .o0 then (.ok, ctrl)
  else
    let blk := { ctrl.blk with type := newType ctrl.blk.type }
    if ctrl.scr.anyOccupied blk.coors then (.error, ctrl) else (.ok, ctrl.assign blk)

end Ctrl

/-! ## The job task -/

def rbInit (columnNum rowNum rand : ℕ) : Ctrl :=
  let scr : Screen := ⟨fun _ => 0, min tetrisMaxColumn columnNum, rowNum⟩
  let ctrl : Ctrl := {
    nodeColorMap := fun _ _ => .noColor
    scr := scr
    fullMask := (1#32 <<< scr.columnNum) - 1
    fullLine := 0
    score := 0
    blk := ⟨⟨0, 0⟩, .o0⟩
    inAutoMode := false
    events := [] }
  ctrl.newBlock rand

/-- `job_task` with its variable `hold_on`; `ended` when it has left its loop. -/
structure Job where
  ctrl : Ctrl
  holdOn : Bool
  ended : Bool

namespace Job

/-- After `down` and `bottom`. -/
def after (job : Job) (r : MotionStatus × Ctrl) : Job :=
  { job with ctrl := r.2, ended := r.1 = .gameOver }

def process (rand : ℕ) (job : Job) : Msg → Option Job
  | .left => some { job with ctrl := job.ctrl.left.2 }
  | .right => some { job with ctrl := job.ctrl.right.2 }
  | .turn => some { job with ctrl := job.ctrl.turn.2 }
  | .down => if job.holdOn then some job else (job.ctrl.down rand).map job.after
  | .bottom => if job.holdOn then some job else (job.ctrl.bottom rand).map job.after
  | .auto => some { job with ctrl := { job.ctrl with inAutoMode := !job.ctrl.inAutoMode } }
  | .hold => some { job with holdOn := !job.holdOn }
  | .quit => some { job with ended := true }

end Job

/-- A game: any messages in any order, with any values of `rand`. -/
def tetris (columnNum rowNum : ℕ) : System Job (Msg × ℕ) where
  init job := ∃ rand, job = ⟨rbInit columnNum rowNum rand, false, false⟩
  step job a job' := job.ended = false ∧ job.process a.2 a.1 = some job'

end DfewOS.Tetris
