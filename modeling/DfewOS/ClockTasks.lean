import DfewOS.TimeLib
import DfewOS.Transition

/-!
# Tasks that read and set the clock

The calls of timeLib.c, instruction by instruction, in any number of tasks. The ticks and the
clock are shared; the time is copied word by word. A task waits in `semM_take` until the mutex
is free. A local variable is written before it is read, so its first value does not matter.
-/

namespace DfewOS.TimeLib
open Dlist (OsStatus)
open Transition (System)

abbrev TaskId := ℕ

inductive ClockCall
  | timeGet
  | timeSet (t : TimeSocket)
  | setField (f : Field) (v : ℤ)

inductive ClockReply
  | time (now : TimeSocket)
  | status (s : OsStatus)
  deriving DecidableEq

/-- The instruction that comes next, with the local variables: first those of `timeGet`, then
those of `timeSet`. -/
inductive Phase
  | getTest
  | getInit
  | getLock
  | readTicks
  | readMoment (ticks : ℕ)
  | read (iSeconds : ℤ) (n : ℕ) (base : TimeSocket)
  | getUnlock (now : TimeSocket)
  | setTest (t : TimeSocket)
  | setInit (t : TimeSocket)
  | setLock (t : TimeSocket)
  | write (t : TimeSocket) (n : ℕ)
  | setUnlock (t : TimeSocket)
  | getTicks (t : TimeSocket)
  | writeMoment (t : TimeSocket) (ticks : ℕ)

def storeWord (dst src : TimeSocket) : ℕ → TimeSocket
  | 0 => { dst with iYear := src.iYear }
  | 1 => { dst with iMon := src.iMon }
  | 2 => { dst with iDay := src.iDay }
  | 3 => { dst with iHour := src.iHour }
  | 4 => { dst with iMin := src.iMin }
  | 5 => { dst with iSec := src.iSec }
  | 6 => { dst with iWday := src.iWday }
  | _ => { dst with iYday := src.iYday }

def loadWord (dst src : TimeSocket) : ℕ → TimeSocket
  | 0 => { dst with iSec := src.iSec }
  | 1 => { dst with iMin := src.iMin }
  | 2 => { dst with iHour := src.iHour }
  | 3 => { dst with iYear := src.iYear }
  | 4 => { dst with iMon := src.iMon }
  | _ => { dst with iDay := src.iDay }

structure ClockState where
  ticks : ℕ
  clock : Clock
  /-- `__GsemBaseTimeMutex` -/
  mutex : Option ℕ
  created : ℕ
  owner : ℕ → Option TaskId
  task : TaskId → Option (ClockCall × Phase)

namespace ClockState

def create (s : ClockState) : ClockState :=
  { s with mutex := some s.created, created := s.created + 1 }

/-- `OS_BASETIME_LOCK`; `none` while the task has to wait. -/
def take (s : ClockState) (p : TaskId) : Option ClockState :=
  s.mutex.bind fun m =>
    if s.owner m = none then some { s with owner := Function.update s.owner m (some p) } else none

def give (s : ClockState) (p : TaskId) : ClockState :=
  match s.mutex with
  | none => s
  | some m =>
    if s.owner m = some p then { s with owner := Function.update s.owner m none } else s

def setBase (s : ClockState) (base : TimeSocket) : ClockState :=
  { s with clock := { s.clock with base := base } }

def setMoment (s : ClockState) (ticks : ℕ) : ClockState :=
  { s with clock := { s.clock with setMomentTicks := ticks } }

inductive Next
  | goto (ph : Phase)
  | ret (r : ClockReply)

def beginSet (t : TimeSocket) : Next :=
  match checkTime t with
  | .error => .ret (.status .error)
  | .ok => .goto (.setTest t)

def begin : ClockCall → Next
  | .timeGet | .setField .. => .goto .getTest
  | .timeSet t => beginSet t

def instr (s : ClockState) (p : TaskId) (c : ClockCall) : Phase → Option (ClockState × Next)
  | .getTest => some (s, .goto (if s.mutex = none then .getInit else .getLock))
  | .getInit => some (s.create, .goto .getLock)
  | .getLock => (s.take p).map fun s => (s, .goto .readTicks)
  | .readTicks => some (s, .goto (.readMoment s.ticks))
  | .readMoment ticks =>
    some (s, .goto (.read (elapsedSeconds ticks s.clock.setMomentTicks) 0 Clock.boot.base))
  | .read iSeconds n base =>
    let base := loadWord base s.clock.base n
    some (s, .goto (if n < 5 then .read iSeconds (n + 1) base
      else .getUnlock (calculate base iSeconds base)))
  | .getUnlock now =>
    some (s.give p, match c with
      | .setField f v => beginSet (f.assign v (updateWeekday now))
      | _ => .ret (.time (updateWeekday now)))
  | .setTest t => some (s, .goto (if s.mutex = none then .setInit t else .setLock t))
  | .setInit t => some (s.create, .goto (.setLock t))
  | .setLock t => (s.take p).map fun s => (s, .goto (.write t 0))
  | .write t n =>
    some (s.setBase (storeWord s.clock.base t n),
      .goto (if n < 7 then .write t (n + 1) else .setUnlock t))
  | .setUnlock t => some (s.give p, .goto (.getTicks t))
  | .getTicks t => some (s, .goto (.writeMoment t s.ticks))
  | .writeMoment _ ticks => some (s.setMoment ticks, .ret (.status .ok))

def continue' (s : ClockState) (p : TaskId) (c : ClockCall) : Next → ClockState × Option ClockReply
  | .goto ph => ({ s with task := Function.update s.task p (some (c, ph)) }, none)
  | .ret r => ({ s with task := Function.update s.task p none }, some r)

end ClockState

/-- A tick, the start of a call in a task, or the next instruction of a task. -/
inductive ClockAct
  | tick
  | call (p : TaskId) (c : ClockCall)
  | run (p : TaskId)

open ClockState in
def ClockState.exec (s : ClockState) : ClockAct → Option (ClockState × Option ClockReply)
  | .tick => some ({ s with ticks := (s.ticks + 1) % 2 ^ 32 }, none)
  | .call p c => match s.task p with
    | none => some (s.continue' p c (begin c))
    | some _ => none
  | .run p => match s.task p with
    | none => none
    | some (c, ph) => (s.instr p c ph).map fun r => r.1.continue' p c r.2

/-- Before the first call: any number of ticks has passed. -/
def ClockState.start (ticks : ℕ) : ClockState := ⟨ticks, .boot, none, 0, fun _ => none, fun _ => none⟩

def clockSystem : System ClockState ClockAct where
  init s := ∃ ticks < 2 ^ 32, s = .start ticks
  step s a s' := ∃ r, s.exec a = some (s', r)

end DfewOS.TimeLib
