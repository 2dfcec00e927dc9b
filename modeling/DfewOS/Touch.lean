import Mathlib.Data.Int.Order.Basic
import DfewOS.BubbleSort
import DfewOS.GuiCore

/-!
# The touch screen

`gui/driver/ads7846.c`: the point out of four measurements of the controller,
and the thread that makes presses and releases of it for the GUI.
-/

namespace DfewOS

/-- The levels of DOUT during the four conversions of one turn. -/
structure Channels where
  x : ℕ → Bool
  y : ℕ → Bool
  z1 : ℕ → Bool
  z2 : ℕ → Bool

abbrev tscSampleNum : ℕ := 4

def measurementGet (dout : ℕ → Bool) : BitVec 32 :=
  (List.range 12).foldl (fun uiResult i => uiResult <<< 1 ||| if dout i then 1 else 0) 0

def pressureGet (uiX uiZ1 uiZ2 : BitVec 32) : BitVec 32 :=
  if uiZ1 = 0 then 0 else (uiX * 595 / 4096) * (uiZ2 / uiZ1 - 1)

def pressZMax : BitVec 32 := 1500
def pressZ1Min : BitVec 32 := 65

/-- The pressure of a turn is in the permitted range. -/
def Channels.pressed (c : Channels) : Bool :=
  let uiz1 := measurementGet c.z1 &&& 0xfffffff0
  let uiz2 := measurementGet c.z2 &&& 0xfffffff0
  let uiz := pressureGet (measurementGet c.x) uiz1 uiz2
  ¬ (pressZMax < uiz ∨ uiz1 < pressZ1Min)

def sortPoint (piBuf : List ℤ) : List ℤ := BubbleSort.sort piBuf

def adcXMaxDiff : ℤ := 60
def adcYMaxDiff : ℤ := 90

def axisPoint (maxDiff : ℤ) (tmp : List ℤ) : Option ℤ :=
  let tmp := sortPoint tmp
  if maxDiff < tmp.getD (tscSampleNum - 2) 0 - tmp.getD 1 0 then none
  else some (tmp.getD (tscSampleNum / 2) 0)

def xTmp (adc : Fin tscSampleNum → Channels) : List ℤ :=
  List.ofFn fun i => (measurementGet (adc i).x).toInt

def yTmp (adc : Fin tscSampleNum → Channels) : List ℤ :=
  List.ofFn fun i => (measurementGet (adc i).y).toInt

def touchGetXY (adc : Fin tscSampleNum → Channels) : Option (ℤ × ℤ) :=
  if ∀ i, (adc i).pressed then
    (axisPoint adcXMaxDiff (xTmp adc)).bind fun x =>
      (axisPoint adcYMaxDiff (yTmp adc)).map fun y => (x, y)
  else none

def touchXMin : ℤ := 280
def touchXMax : ℤ := 3775
def touchYMin : ℤ := 366
def touchYMax : ℤ := 3720
def screenWidth : ℤ := 800
def screenHeight : ℤ := 600

def touchToScreen (tx ty : ℤ) : GuiCoor where
  x := (screenWidth * (tx - touchXMin)).tdiv (touchXMax - touchXMin)
  y := (screenHeight * (ty - touchYMin)).tdiv (touchYMax - touchYMin)

def touchRead (adc : Fin tscSampleNum → Channels) : Option GuiCoor :=
  (touchGetXY adc).map fun p => touchToScreen p.1 p.2

/-! ## The thread -/

/-- The place in `T_ads7846Thread` where the next `touch_read` is. -/
inductive TouchAt
  | forever
  /-- `while (touch_read (&scr_coor))` -/
  | pressed
  /-- `while (try--)`, with what `try` is inside -/
  | again (try_ : ℕ)
  deriving DecidableEq

structure TouchThread where
  loc : TouchAt
  scrCoor : GuiCoor
  deriving DecidableEq

namespace TouchThread

abbrev tryTimes : ℕ := 2

def tryAgain (t : TouchThread) : ℕ → TouchThread × List GuiMsg
  | 0 => ({ t with loc := .forever }, [⟨.touchUp, t.scrCoor⟩])
  | n + 1 => ({ t with loc := .again n }, [])

/-- `T_ads7846Thread` from one `touch_read` to the next, with what it adds to the jobs. -/
def read (t : TouchThread) : Option GuiCoor → TouchThread × List GuiMsg
  | some coor => (⟨.pressed, coor⟩, [⟨.touchDown, coor⟩])
  | none =>
    match t.loc with
    | .forever => (t, [])
    | .pressed => t.tryAgain tryTimes
    | .again n => t.tryAgain n

/-- The thread as it starts: `scr_coor` is not initialised. -/
def start (scrCoor : GuiCoor) : TouchThread := ⟨.forever, scrCoor⟩

def run (t : TouchThread) (reads : List (Option GuiCoor)) : TouchThread :=
  reads.foldl (fun t r => (t.read r).1) t

/-- All that is added to the jobs. -/
def posts (t : TouchThread) : List (Option GuiCoor) → List GuiMsg
  | [] => []
  | r :: reads => (t.read r).2 ++ (t.read r).1.posts reads

end TouchThread

/-! ## The driver and the GUI -/

/-- The touch thread and the job thread with the message queue between them. -/
structure TouchGui (σ : Type*) where
  touch : TouchThread
  jobs : GuiJobs σ

inductive TouchEvent
  | read (adc : Fin tscSampleNum → Channels)
  | receive

namespace TouchGui

variable {σ : Type*} (cb : Callbacks σ)

def jobAdd (j : GuiJobs σ) (msgs : List GuiMsg) : GuiJobs σ :=
  msgs.foldl (fun j msg => j.guiJobAdd msg.scrCoor msg.type) j

def step (s : TouchGui σ) : TouchEvent → TouchGui σ
  | .read adc =>
    let r := s.touch.read (touchRead adc)
    ⟨r.1, jobAdd s.jobs r.2⟩
  | .receive => { s with jobs := s.jobs.receive cb }

def run (s : TouchGui σ) (es : List TouchEvent) : TouchGui σ := es.foldl (step cb) s

def start (g : Gui σ) (scrCoor preCoor : GuiCoor) : TouchGui σ :=
  ⟨.start scrCoor, ⟨[], 0, .start g preCoor⟩⟩

end TouchGui

end DfewOS
