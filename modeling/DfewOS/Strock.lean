import DfewOS.MemH
import DfewOS.Walk
import Mathlib.Algebra.Order.Group.Int
import Mathlib.Algebra.Order.Group.Unbundled.Abs

/-!
# Recognition of a strock

`gui/app/gui_cal.c`: a drag over the screen is recorded as a string of directions, which
`rec_strock` cuts into segments to tell the character. `_cal_cb_drag` compares a quotient of two
integers with `TAN_225` and `TAN_675`; the comparison is made with integers here. A local variable
that is read before it is written has a value given as an argument.
-/

namespace DfewOS.Cal
open MemH (sub32)
open Walk (skipWhile pairWalk)

def maxCoorNum : ℕ := 100
def minOffset : ℤ := 8

structure Coor where
  x : ℤ
  y : ℤ
  deriving DecidableEq

/-! ## Recording the directions -/

structure Drawing where
  coors : List Coor
  sumOffset : Coor
  dirs : List UInt8

def quadrant (dx dy : ℤ) (flat between steep : Char) : Char :=
  if 10000 * |dy| ≤ 4142 * |dx| then flat
  else if 10000 * |dy| < 24142 * |dx| then between
  else steep

def direction (dx dy : ℤ) : Char :=
  if dx = 0 then (if 0 < dy then 'a' else 'e')
  else if 0 < dx then (if 0 ≤ dy then quadrant dx dy 'c' 'b' 'a' else quadrant dx dy 'c' 'd' 'e')
  else if 0 ≤ dy then quadrant dx dy 'g' 'h' 'a'
  else quadrant dx dy 'g' 'f' 'e'

def calCbPress (d : Drawing) (coor : Coor) : Drawing := { d with coors := [coor], dirs := [] }

def Coor.add (a b : Coor) : Coor := ⟨a.x + b.x, a.y + b.y⟩
def Coor.far (a : Coor) : Bool := minOffset < |a.x| + |a.y|

def Drawing.sum (d : Drawing) (offset : Coor) : Coor :=
  (if d.coors.length = 1 then ⟨0, 0⟩ else d.sumOffset).add offset

def Drawing.taken (d : Drawing) (offset : Coor) : Coor :=
  if (d.sum offset).far then d.sum offset else offset

def calCbDrag (d : Drawing) (offset : Coor) : Drawing :=
  if maxCoorNum ≤ d.coors.length then d
  else if (d.taken offset).far then
    { coors := (d.coors.headD ⟨0, 0⟩).add offset :: d.coors
      sumOffset := ⟨0, 0⟩
      dirs := d.dirs ++ [(direction (d.taken offset).x (-(d.taken offset).y)).toUInt8] }
  else
    { coors := (d.coors.headD ⟨0, 0⟩).add offset :: d.coors
      sumOffset := d.sum offset
      dirs := d.dirs }

/-- What has been recorded from a press on. -/
def record (d : Drawing) (coor : Coor) (offsets : List Coor) : Drawing :=
  offsets.foldl calCbDrag (calCbPress d coor)

/-! ## Segments -/

inductive SegmentType
  | none
  | line
  | clockwise
  | antiClockwise
  deriving DecidableEq

/-- `(b - a + 8) % 8` -/
def dirDiff (a b : UInt8) : ℤ := ((b.toNat : ℤ) - a.toNat + 8).tmod 8

def breaks (turnDegree diff : ℤ) : Bool :=
  if diff = 0 then false
  else if diff < 4 then (turnDegree = 0 ∧ 2 ≤ diff) ∨ (turnDegree < -1 ∧ 2 ≤ diff)
  else (turnDegree = 0 ∧ diff ≤ 6) ∨ (1 < turnDegree ∧ diff ≤ 6)

structure Turn where
  degree : ℤ
  maxTurn : ℤ

def Turn.stop (t : Turn) (a b : UInt8) : Bool := breaks t.degree (dirDiff a b)

def Turn.add (t : Turn) (a b : UInt8) : Turn :=
  let diff := dirDiff a b
  if diff = 0 then t
  else
    let degree := if diff < 4 then t.degree + diff else t.degree + (diff - 8)
    ⟨degree, if t.maxTurn < |degree| then |degree| else t.maxTurn⟩

structure Segment where
  memory : Memory
  kind : SegmentType
  maxTurn : ℤ
  dirStr : ℕ

def kindOf (turnDegree : ℤ) : SegmentType :=
  if |turnDegree| ≤ 1 then .line else if 0 < turnDegree then .clockwise else .antiClockwise

def recSegment (fuel : ℕ) (m : Memory) (dirStr : ℕ) (maxTurn : ℤ) : Option Segment :=
  (skipWhile (fun c => c ≠ 0) fuel m dirStr).bind fun nul =>
    if nul.2 - dirStr ≤ 2 then some ⟨nul.1, .none, maxTurn, dirStr⟩
    else
      (pairWalk Turn.stop Turn.add fuel nul.1 (dirStr + 2) ⟨0, 0⟩).map fun r =>
        ⟨r.1, kindOf r.2.2.degree, r.2.2.maxTurn, r.2.1⟩

/-! ## The strock -/

/-- The recognition of the segments: `stored` has the indices at which `segs` was written,
`returned` where each segment that was returned begins and ends. -/
structure Cutting where
  memory : Memory
  dirStr : ℕ
  maxTurn : ℤ
  segs : ℕ → SegmentType
  i : ℕ
  stored : List ℕ
  returned : List (ℕ × ℕ)

/-- `segs[i++] = cur_seg;` -/
def Cutting.push (c : Cutting) (s : Segment) : Cutting where
  memory := s.memory
  dirStr := s.dirStr
  maxTurn := s.maxTurn
  segs := Function.update c.segs c.i s.kind
  i := c.i + 1
  stored := c.i :: c.stored
  returned := (c.dirStr, s.dirStr) :: c.returned

@[simp] theorem Cutting.push_i (c : Cutting) (s : Segment) : (c.push s).i = c.i + 1 := rfl
@[simp] theorem Cutting.push_stored (c : Cutting) (s : Segment) :
    (c.push s).stored = c.i :: c.stored := rfl
@[simp] theorem Cutting.push_segs (c : Cutting) (s : Segment) :
    (c.push s).segs = Function.update c.segs c.i s.kind := rfl

def cutLoop (fuel : ℕ) : ℕ → Cutting → Option Cutting
  | 0, _ => none
  | rounds + 1, c =>
    (recSegment fuel c.memory c.dirStr c.maxTurn).bind fun s =>
      if s.kind = .none then
        some { c with memory := s.memory, dirStr := s.dirStr, maxTurn := s.maxTurn }
      else cutLoop fuel rounds (c.push s)

/-- A loop over `save_p` with its own `turn`, and whether it stopped in front of the NUL. -/
def bendLoop (next : ℤ → ℤ → ℤ) (enough : ℤ → Bool) (turn : ℤ) (fuel : ℕ) (m : Memory) (saveP : ℕ) :
    Option (Memory × Bool) :=
  (pairWalk (fun t a b => enough (next t (dirDiff a b))) (fun t a b => next t (dirDiff a b)) fuel m
    (saveP + 2) turn).map fun r => (r.1.touch r.2.1, r.1.byte r.2.1 ≠ 0)

def bendSeven (turn diff : ℤ) : ℤ :=
  if diff = 0 then (if turn ≠ 0 then turn - 1 else turn) else turn + 2 * diff

def bendFour (turn diff : ℤ) : ℤ := if diff = 0 then 0 else turn + (8 - diff)

/-- `while (save_p[last] == save_p[last-1]) last--;` where `p` is the address of `save_p[last]`. -/
def backLoop : ℕ → Memory → ℕ → Option (Memory × ℕ)
  | 0, _, _ => none
  | fuel + 1, m, p =>
    let m' := (m.touch p).touch (sub32 p 1)
    if m.byte p = m.byte (sub32 p 1) then backLoop fuel m' (sub32 p 1) else some (m', p)

def longEnd (fuel : ℕ) (m : Memory) (saveP : ℕ) : Option (Memory × Bool) :=
  (skipWhile (fun c => c ≠ 0) fuel m saveP).bind fun nul =>
    (backLoop fuel nul.1 (sub32 nul.2 1)).bind fun last =>
      (skipWhile (fun c => c ≠ 0) fuel last.1 saveP).map fun nul =>
        (nul.1, sub32 last.2 saveP ≤ sub32 (nul.2 - saveP) 4)

def recOne (fuel : ℕ) (m : Memory) (saveP : ℕ) (closed : Bool) (turn : ℤ) (seg : SegmentType)
    (maxTurn : ℤ) : Option (Memory × Char) :=
  match seg with
  | .line => some (m, if maxTurn ≤ 1 then '1' else if maxTurn ≤ 2 then '(' else '8')
  | .clockwise =>
    if maxTurn ≤ 6 then
      (bendLoop bendSeven (fun t => 2 < t) 0 fuel m saveP).map fun r => (r.1, if r.2 then '7' else ')')
    else if maxTurn ≤ 9 then some (m, '0')
    else some (m, '3')
  | .antiClockwise =>
    if maxTurn ≤ 4 then
      (bendLoop bendFour (fun t => t = 2) turn fuel m saveP).map fun r => (r.1, if r.2 then '4' else '(')
    else if maxTurn ≤ 9 then
      if closed then some (m, '0')
      else (longEnd fuel m saveP).map fun r => (r.1, if r.2 then '9' else '6')
    else some (m, '9')
  | .none => some (m, ' ')

def recTwo (startDir endDir : UInt8) : SegmentType → SegmentType → Char
  | .line, .line => if endDir < startDir then '4' else '7'
  | .line, .clockwise => '5'
  | .clockwise, .line => '2'
  | .clockwise, .clockwise => '3'
  | .antiClockwise, .line => '9'
  | .antiClockwise, .clockwise => '8'
  | _, _ => ' '

structure Strock where
  cutting : Cutting
  memory : Memory
  recCh : Char

/-- `rec_strock`. `closed` is whether the last coordinate is near the first one, `turn` the local
variable of the case `SEGMENT_ANTI_CLOCKWISE` before it is written. -/
def recStrock (fuel : ℕ) (closed : Bool) (turn : ℤ) (m : Memory) (dirStr : ℕ) : Option Strock :=
  let startDir := m.byte (dirStr + 1)
  (skipWhile (fun c => c ≠ 0) fuel (m.touch (dirStr + 1)) dirStr).bind fun nul =>
    let endDir := nul.1.byte (sub32 nul.2 2)
    (cutLoop fuel fuel ⟨nul.1.touch (sub32 nul.2 2), dirStr, 0, fun _ => .none, 0, [], []⟩).bind fun c =>
      if c.i = 1 then
        (recOne fuel c.memory dirStr closed turn (c.segs 0) c.maxTurn).map fun r => ⟨c, r.1, r.2⟩
      else
        some ⟨c, c.memory, if c.i = 2 then recTwo startDir endDir (c.segs 0) (c.segs 1) else '9'⟩

end DfewOS.Cal
