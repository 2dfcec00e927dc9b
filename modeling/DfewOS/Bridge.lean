import DfewOS.LianBoard
import DfewOS.Transition
import Mathlib.Data.Int.Range

/-!
# The game of Lianliankan

The globals of the bridge between the board and the terminal, and the actions of the
player. The time task counts `_G_time` down beside them: `lapse k` is what it has taken
from it before an action reads it for the `k`-th time.
-/

namespace DfewOS.Lian
open GridPath Transition

abbrev oneLevelTime : ℤ := 200

inductive Reply
  | gameOver
  | marked
  | unmarked
  deriving DecidableEq

structure Bridge extends Solver where
  cur : Coor
  marked : Coor
  left : ℤ
  level : ℕ
  time : ℤ

/-- What an action meets: the time that passes, whether `calloc` finds memory, and the
values of `rand`. -/
structure Surroundings where
  lapse : ℕ → ℕ
  calloc : Bool
  rand : ℕ → ℕ

namespace Bridge

def load : Bridge :=
  { Solver.start (mapOf []) with
    cur := ⟨0, 0⟩, marked := ⟨0, 0⟩, left := 0, level := 0, time := 0 }

def elapse (b : Bridge) (n : ℕ) : Bridge := { b with time := b.time - n }

def startLevel (env : Surroundings) (level : ℕ) (b : Bridge) : ℤ × Bridge :=
  let (left, map) := lianInit level env.calloc env.rand b.map
  let b := { b with left := left, map := map }
  if b.left ≤ 0 then (b.left, b)
  else
    let b := { b with marked := { b.marked with x := 0 }, cur := { b.cur with x := 0 } }
    let b := match interiorCells.find? fun c => b.map c ≠ 0 with
      | some c => { b with cur := c }
      | none => b
    (b.left, b)

def bridgeInit (env : Surroundings) (b : Bridge) : ℤ × Bridge :=
  let (left, b) := { b with level := 0 }.startLevel env 0
  if left ≤ 0 then (-1, b)
  else
    let b := { b with time := oneLevelTime }
    (b.left, b)

/-- The cells in the order in which `_make_cur` looks at them: on from the given cell, and
then those before it. -/
def cellsFrom (row col : ℤ) : List Coor :=
  ((Int.range col (colNum + 1)).map fun j => ⟨j, row⟩) ++
  ((Int.range (row + 1) (rowNum + 1)).flatMap fun i =>
    (Int.range 1 (colNum + 1)).map fun j => ⟨j, i⟩) ++
  ((Int.range 1 row).flatMap fun i => (Int.range 1 (colNum + 1)).map fun j => ⟨j, i⟩) ++
  ((Int.range 1 col).map fun j => ⟨j, row⟩)

def makeCur (row col : ℤ) (b : Bridge) : Bridge :=
  match (cellsFrom row col).find? fun c => b.map c ≠ 0 with
  | some c => { b with cur := c }
  | none => b

def bridgeNext (env : Surroundings) (b : Bridge) : Bridge :=
  let b := b.elapse (env.lapse 0)
  if b.time ≤ 0 then b else b.makeCur b.cur.y (b.cur.x + 1)

/-- The loop of `bridge_move` over empty cells. A row of the map has no more than
`rowNum + 2` cells. -/
def scan (map : Map) (d : Dir) : ℕ → Coor → Option Coor
  | 0, _ => none
  | n + 1, p =>
    let p := d.move 1 p
    if map p = 0 then scan map d n p else some p

def atBorder (p : Coor) : Dir → Bool
  | .left => p.x = 0
  | .up => p.y = 0
  | .right => p.x = colNum + 1
  | .down => p.y = rowNum + 1

def bridgeMove (lapse : ℕ) (d : Dir) (b : Bridge) : Option (ℕ × Bridge) :=
  let b := b.elapse lapse
  if b.time ≤ 0 then some (0, b)
  else
    (scan b.map d (rowNum + 2) b.cur).map fun p =>
      if atBorder p d then (0, b) else (distance b.cur p, { b with cur := p })

def bridgeExit (b : Bridge) : Bridge := { b with time := 0 }

def deleteMatched (b : Bridge) : Bridge :=
  { b with map := b.map.delete ⟨b.cur, b.marked⟩, left := b.left - 2 }

/-- The loop over the directions, left with the first move of the cursor. -/
def tryMoves (lapse : ℕ → ℕ) : ℕ → List Dir → Bridge → Option (Bool × Bridge)
  | _, [], b => some (false, b)
  | k, d :: dirs, b =>
    (b.bridgeMove (lapse k) d).bind fun (interval, b) =>
      if interval ≠ 0 then some (true, b) else tryMoves lapse (k + 1) dirs b

def nextLevel (env : Surroundings) (b : Bridge) : Reply × Bridge :=
  let b := { b with level := b.level + 1 }
  if b.level < levelNum then
    let b := b.elapse (env.lapse 1)
    let b := { b with time := b.time + oneLevelTime }
    let (left, b) := b.startLevel env b.level
    let b := { b with left := left }
    if b.left ≤ 0 then (.gameOver, b.bridgeExit) else (.unmarked, b)
  else (.gameOver, b.bridgeExit)

/-- The marked block and the one under the cursor belong together. -/
def matched (env : Surroundings) (b : Bridge) : Option (Reply × Bridge) :=
  let b := b.deleteMatched
  if b.left = 0 then some (b.nextLevel env)
  else
    let b := { b with marked := { b.marked with x := 0 } }
    (b.tryMoves env.lapse 2 [.left, .right, .up, .down]).map fun (moved, b) =>
      (.unmarked, if moved then b else b.makeCur 1 1)

def bridgeMark (env : Surroundings) (b : Bridge) : Option (Reply × Bridge) :=
  let b := b.elapse (env.lapse 0)
  if b.time ≤ 0 then some (.unmarked, b)
  else if b.marked.x = 0 then some (.marked, { b with marked := b.cur })
  else if b.marked.x ≠ b.cur.x ∨ b.marked.y ≠ b.cur.y then
    (lianCheck b.map b.marked b.cur b.way).bind fun (canGo, way) =>
      let b := { b with way := way }
      if canGo then b.matched env else some (.marked, b)
  else some (.unmarked, { b with marked := { b.marked with x := 0 } })

def markFirst (env : Surroundings) (b : Bridge) : Option Bridge :=
  let b := { b with marked := (b.ops 0).start, cur := (b.ops 0).stop }
  (b.bridgeMark env).map Prod.snd

def bridgeHelp (env : Surroundings) (b : Bridge) : Option (ℕ × Bridge) :=
  if b.left ≤ 0 then some (0, b)
  else
    (lianLeft (opsMax + 1) b.left { b.toSolver with opCnt := 0 }).bind fun (left, s) =>
      let b := { b with toSolver := s }
      if left = 0 then (b.markFirst env).map fun b => (1, b)
      else if b.opCnt = 0 then some (0, b)
      else (b.markFirst env).map fun b => (0, b)

end Bridge

inductive Action
  | init
  | move (d : Dir)
  | next
  | mark
  | help
  | exit
  | reorder
  deriving DecidableEq

def Action.perform (env : Surroundings) (b : Bridge) : Action → Option Bridge
  | init => some (b.bridgeInit env).2
  | move d => (b.bridgeMove (env.lapse 0) d).map Prod.snd
  | next => some (b.bridgeNext env)
  | mark => (b.bridgeMark env).map Prod.snd
  | help => (b.bridgeHelp env).map Prod.snd
  | exit => some b.bridgeExit
  | reorder => some { b with map := (lianReorder env.rand b.map).2 }

/-- Any actions in any order. -/
def game : System Bridge (Action × Surroundings) where
  init b := b = .load
  step b a b' := a.1.perform a.2 b = some b'

end DfewOS.Lian
