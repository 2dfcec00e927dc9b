import DfewOS.TetrisSpec
import Mathlib.Data.Int.Range

/-!
# The auto player of Tetris

`find_steps` scores every placement of the active block, on the screen itself, and lists
the messages that bring the block to the first of the best. A node that is set outside
the screen and a message beyond the last of `STEPS` have no result.
-/

namespace DfewOS.Tetris

abbrev autoMsgMax : ℕ := 50

abbrev intMin : ℤ := -2 ^ 31

def getTypeColumnNum (type : BlockType) : ℤ :=
  (blockMap type).foldl (fun colNum pos => max colNum pos.x) 0 + 1

namespace Screen

def fullMask (scr : Screen) : Line := (1#32 <<< scr.columnNum) - 1

/-! ## The space below a block -/

def blkMaxY (blk : Block) : ℤ → ℤ :=
  (blockMap blk.type).foldl
    (fun maxY pos => Function.update maxY pos.x (max (maxY pos.x) (blk.base.y + pos.y)))
    fun _ => blk.base.y

/-- The loop over the columns of the block in line `i`: `left_col` and `scr_map_min_y`. -/
def minYLine (scr : Screen) (blk : Block) (i : ℕ) : List ℤ → ℤ × (ℤ → ℤ) → ℤ × (ℤ → ℤ)
  | [], st => st
  | offset :: offsets, (leftCol, minY) =>
    if minY offset ≠ scr.rowNum then minYLine scr blk i offsets (leftCol, minY)
    else if bitVal (scr.scrMap i) (blk.base.x + offset).toNat then
      minYLine scr blk i offsets (leftCol - 1, Function.update minY offset i)
    else minYLine scr blk i offsets (leftCol, minY)

def minYLines (scr : Screen) (blk : Block) (offsets : List ℤ) : ℕ → ℕ → ℤ × (ℤ → ℤ) → ℤ → ℤ
  | 0, _, (_, minY) => minY
  | n + 1, i, st =>
    let (leftCol, minY) := scr.minYLine blk i offsets st
    if leftCol = 0 then minY else minYLines scr blk offsets n (i + 1) (leftCol, minY)

def minIntervalBetweenBlkScr (scr : Screen) (blk : Block) : ℤ :=
  let blockColNum := getTypeColumnNum blk.type
  let offsets := Int.range 0 blockColNum
  let maxY := blkMaxY blk
  let minY := scr.minYLines blk offsets scr.rowNum 0 (blockColNum, fun _ => scr.rowNum)
  offsets.foldl (fun space i => min space (minY i - maxY i - 1)) scr.rowNum

/-! ## Holes and height -/

/-- The loop over the lines, with `cover` and the holes so far. -/
def holesInLines (scr : Screen) (col : ℕ) : List ℕ → Bool → ℤ → ℤ
  | [], _, holeNum => holeNum
  | i :: lines, cover, holeNum =>
    if scr.scrMap i ≠ scr.fullMask then
      if bitVal (scr.scrMap i) col then holesInLines scr col lines true holeNum
      else holesInLines scr col lines cover (holeNum + if cover then 1 else 0)
    else holesInLines scr col lines cover holeNum

def calHolesInOneColumn (scr : Screen) (col : ℕ) : ℤ :=
  scr.holesInLines col (List.range scr.rowNum) false 0

def calAllHolesInScr (scr : Screen) : ℤ :=
  (List.range scr.columnNum).foldl (fun holeNum i => holeNum + scr.calHolesInOneColumn i) 0

def firstLine (scr : Screen) : ℕ → ℕ → ℕ
  | 0, i => i
  | n + 1, i => if scr.scrMap i = 0 then firstLine scr n (i + 1) else i

def getHeight (scr : Screen) : ℤ := scr.rowNum - scr.firstLine scr.rowNum 0

/-! ## The score of a placement -/

def setLine (scr : Screen) (y : ℕ) (line : Line) : Screen :=
  { scr with scrMap := Function.update scr.scrMap y line }

def setNodes : List Coor → ℕ → Screen → Option (ℕ × Screen)
  | [], fullLine, scr => some (fullLine, scr)
  | c :: coors, fullLine, scr =>
    if scr.Inside c then
      let line := bitSet (scr.scrMap c.y.toNat) c.x.toNat
      let fullLine := if line = scr.fullMask then fullLine + 1 else fullLine
      setNodes coors fullLine (scr.setLine c.y.toNat line)
    else none

def clrNodes : List Coor → Screen → Option Screen
  | [], scr => some scr
  | c :: coors, scr =>
    if scr.Inside c then
      clrNodes coors (scr.setLine c.y.toNat (bitClr (scr.scrMap c.y.toNat) c.x.toNat))
    else none

def dangeriousHeight (rows : ℕ) : ℤ := (rows * 2 / 10 : ℕ)

def getScore (blk : Block) (scr : Screen) : Option (ℤ × Screen) :=
  let holeNum := scr.calAllHolesInScr
  let spaceToBottom := scr.minIntervalBetweenBlkScr blk
  if spaceToBottom < 0 then some (intMin, scr)
  else
    let coors := blk.coors.map fun c => ⟨c.x, c.y + spaceToBottom⟩
    (scr.setNodes coors 0).bind fun (fullLine, scr) =>
      let score := scoreMap.getD fullLine 0
      let score := score + spaceToBottom * 2
      let height := scr.getHeight - fullLine
      let score :=
        if height > dangeriousHeight scr.rowNum then
          score - (height - dangeriousHeight scr.rowNum) * 2
        else score
      let holeNum := scr.calAllHolesInScr - holeNum
      let score := score - holeNum * 5
      (scr.clrNodes coors).map fun scr => (score, scr)

end Screen

/-! ## The steps -/

def getTurnNum : BlockType → ℕ × BlockType
  | .o0 => (1, .o0)
  | .i0 | .i1 => (2, .i0)
  | .z0 | .z1 => (2, .z0)
  | .s0 | .s1 => (2, .s0)
  | .t0 | .t1 | .t2 | .t3 => (4, .t0)
  | .j0 | .j1 | .j2 | .j3 => (4, .j0)
  | .l0 | .l1 | .l2 | .l3 => (4, .l0)

/-- The placements that the loops over types and columns try, in their order. -/
def placements (columnNum : ℕ) (blk : Block) : List Block :=
  let (turnNum, first) := getTurnNum blk.type
  (List.range turnNum).flatMap fun k =>
    let type := blockType (first.num + k)
    (Int.range 0 (columnNum - getTypeColumnNum type + 1)).map fun x => ⟨⟨x, blk.base.y⟩, type⟩

structure Best where
  maxScore : ℤ
  type : BlockType
  baseX : ℤ

def tryPlacements : List Block → Best → Screen → Option (Best × Screen)
  | [], best, scr => some (best, scr)
  | blk :: rest, best, scr =>
    (scr.getScore blk).bind fun (tempScore, scr) =>
      tryPlacements rest
        (if best.maxScore < tempScore then ⟨tempScore, blk.type, blk.base.x⟩ else best) scr

abbrev Steps := List Msg

def Steps.push (msg : Msg) (steps : Steps) : Option Steps :=
  if steps.length < autoMsgMax then some (steps ++ [msg]) else none

def Steps.pushTimes (msg : Msg) : ℕ → Steps → Option Steps
  | 0, steps => some steps
  | n + 1, steps => (Steps.push msg steps).bind (Steps.pushTimes msg n)

def Best.steps (best : Best) (blk : Block) (steps : Steps) : Option Steps :=
  let turnNum := (getTurnNum blk.type).1
  let bestType := if best.type.num < blk.type.num then best.type.num + turnNum else best.type.num
  (steps.pushTimes .turn (bestType - blk.type.num)).bind fun steps =>
    (if blk.base.x < best.baseX then steps.pushTimes .right (best.baseX - blk.base.x).toNat
      else steps.pushTimes .left (blk.base.x - best.baseX).toNat).bind fun steps =>
        steps.push .bottom

def findSteps (blk : Block) (steps : Steps) (scr : Screen) : Option (Steps × Screen) :=
  (tryPlacements (placements scr.columnNum blk) ⟨intMin, blk.type, blk.base.x⟩ scr).bind
    fun (best, scr) => (best.steps blk steps).map fun steps => (steps, scr)

end DfewOS.Tetris
