import DfewOS.Dlist
import Mathlib.Algebra.Ring.Nat

/-!
# The kernel's data

Task control blocks live in the array `_G_tcb[TASK_NUM_MAX]`, so a `OS_TCB *`
is an index of it and `NULL` is `none`. The embedded `DL_NODE` of a control
block is kept in a separate heap of links, indexed by the same pointer, and
every `DL_LIST` that links control blocks has a name in `QueueId`.

`Tasks` holds what the list operations touch; two of its fields are ghosts.
`live` marks the tasks that are created and neither deleted nor returned, and
`sound` stays true as long as every `dlist_remove` was applied to a list that
contained the node. No function reads a ghost field.
-/

namespace DfewOS
open ListHeap (Heap)
open Dlist (OsStatus)

abbrev taskNumMax : ℕ := 256
abbrev priorityNumMax : ℕ := 256
abbrev TcbPtr := Fin taskNumMax

instance : NeZero taskNumMax := ⟨by decide⟩
abbrev ObjPtr := ℕ

abbrev waitForever : ℕ := 4294967295

inductive TaskStatus
  | ready
  | delay
  | pendSemM
  | pendSemB
  | pendSemC
  | pendMsgS
  | pendMsgR
  deriving DecidableEq, Repr

structure OsTcb where
  taskPriority : ℕ
  stackStart : ℕ
  stackSize : ℕ
  delayTicks : ℕ
  originPri : ℕ
  status : TaskStatus
  pendObj : Option ObjPtr
  deriving DecidableEq, Repr

inductive QueueId
  | ready (priority : ℕ)
  | delayQ
  | semB (pSemB : ObjPtr)
  | semC (pSemC : ObjPtr)
  | semM (pSemM : ObjPtr)
  | msgSend (pMsgQ : ObjPtr)
  | msgRecv (pMsgQ : ObjPtr)
  deriving DecidableEq, Repr

/-- `READY_QUEUE` without `listArray`, whose lists are `QueueId.ready 0 .. 255`. -/
structure ReadyQueue where
  highestTcb : Option TcbPtr
  metaBMap : BitVec 32
  bMap : ℕ → BitVec 32

structure Tasks where
  dl : Heap QueueId TcbPtr
  tcb : TcbPtr → OsTcb
  readyQ : ReadyQueue
  live : TcbPtr → Bool
  sound : Bool

structure SemBin where
  ownerTcb : Option TcbPtr

structure SemCnt where
  count : ℕ
  maxCount : ℕ

@[ext] structure SemMux where
  ownerTcb : Option TcbPtr
  takeCount : ℕ
  waitPri : ℕ
  deriving DecidableEq

/-- A message node is known by its contents; `msgList` holds them from head to tail. -/
structure MsgQue where
  maxNum : ℕ
  maxLen : ℕ
  curNum : ℕ
  msgList : List (List UInt8)

inductive Call
  | taskCreate (stackSize taskPriority : ℕ)
  | taskDelete (pTcb : TcbPtr)
  | delayQDelay (ticks : ℕ)
  | semBInit (pSemB : ObjPtr)
  | semBTake (pSemB : ObjPtr) (timeout : ℕ)
  | semBGive (pSemB : ObjPtr)
  | semBFlush (pSemB : ObjPtr)
  | semBDelete (pSemB : ObjPtr)
  | semCInit (pSemC : ObjPtr) (initCount maxCount : ℕ)
  | semCTake (pSemC : ObjPtr) (timeout : ℕ)
  | semCGive (pSemC : ObjPtr)
  | semCFlush (pSemC : ObjPtr)
  | semCDelete (pSemC : ObjPtr)
  | semMInit (pSemM : ObjPtr)
  | semMTake (pSemM : ObjPtr) (timeout : ℕ)
  | semMGive (pSemM : ObjPtr)
  | msgQInit (pMsgQ : ObjPtr) (maxNum maxLen : ℕ)
  | msgQSend (pMsgQ : ObjPtr) (buffer : List UInt8) (bufLen timeout : ℕ)
  | msgQReceive (pMsgQ : ObjPtr) (buffer : List UInt8) (bufLen timeout : ℕ)
  | msgQDelete (pMsgQ : ObjPtr)
  deriving DecidableEq, Repr

inductive Result
  | void
  | status (s : OsStatus)
  | received (s : OsStatus) (buffer : List UInt8)
  | tcb (pTcb : Option TcbPtr)
  | obj (p : Option ObjPtr)
  deriving DecidableEq, Repr

/-- What is left of a call that has left one critical section and not yet entered the next. -/
inductive Rest
  | allocStack (pTcb : TcbPtr)
  | releaseTcb (pTcb : TcbPtr)
  | linkTask (pTcb : TcbPtr)
  | unlistSemB (pSemB : ObjPtr)
  | unlistSemC (pSemC : ObjPtr)
  deriving DecidableEq, Repr

/-- Where a task is. `switched c` is inside `c`, saved by `CONTEXT_SWITCH` with interrupts
masked; `unlocked` is inside a call between two critical sections, interrupts enabled. -/
inductive Pc
  | user
  | switched (c : Call)
  | unlocked (c : Call) (r : Rest)
  deriving DecidableEq, Repr

structure Kernel where
  ts : Tasks
  curTcb : Option TcbPtr
  pc : TcbPtr → Pc
  taskNum : ℕ
  tcbMap : ℕ → BitVec 32
  stackMap : ℕ → BitVec 32
  ticks : ℕ
  semB : ObjPtr → SemBin
  semBList : List ObjPtr
  semC : ObjPtr → SemCnt
  semCList : List ObjPtr
  semM : ObjPtr → SemMux
  semMList : List ObjPtr
  msgQ : ObjPtr → MsgQue
  msgQList : List ObjPtr

namespace Tasks

def setTcb (ts : Tasks) (pTcb : TcbPtr) (v : OsTcb) : Tasks :=
  { ts with tcb := Function.update ts.tcb pTcb v }

def dlistAdd (ts : Tasks) (l : QueueId) (pTcb : TcbPtr) : Tasks :=
  { ts with dl := Dlist.dlistAdd ts.dl l pTcb }

def dlistInsert (ts : Tasks) (l : QueueId) (pPrev : Option TcbPtr) (pTcb : TcbPtr) : Tasks :=
  { ts with dl := Dlist.dlistInsert ts.dl l pPrev pTcb }

def dlistRemove (ts : Tasks) (l : QueueId) (pTcb : TcbPtr) : Tasks :=
  { ts with
    dl := Dlist.dlistRemove ts.dl l pTcb
    sound := ts.sound && Dlist.dlistCheck taskNumMax ts.dl l pTcb }

def dlistGet (ts : Tasks) (l : QueueId) : Tasks × Option TcbPtr :=
  ({ ts with dl := (Dlist.dlistGet ts.dl l).1 }, (Dlist.dlistGet ts.dl l).2)

def dlistInit (ts : Tasks) (l : QueueId) : Tasks :=
  { ts with dl := Dlist.dlistInit ts.dl l }

/-- The tasks linked in `l`, in order. -/
def members (ts : Tasks) (l : QueueId) : List TcbPtr := Dlist.nodes taskNumMax ts.dl l

def setDelay (ts : Tasks) (pTcb : TcbPtr) (ticks : ℕ) : Tasks :=
  ts.setTcb pTcb { ts.tcb pTcb with delayTicks := ticks }

def setPriority (ts : Tasks) (pTcb : TcbPtr) (priority : ℕ) : Tasks :=
  ts.setTcb pTcb { ts.tcb pTcb with taskPriority := priority }

def zeroed : Tasks where
  dl := ⟨fun _ => ⟨none, none⟩, fun _ => ⟨none, none⟩⟩
  tcb := fun _ => ⟨0, 0, 0, 0, 0, .ready, none⟩
  readyQ := ⟨none, 0, fun _ => 0⟩
  live := fun _ => false
  sound := true

/-- The three stores that precede a task's way into a wait list. -/
def setPend (ts : Tasks) (pTcb : TcbPtr) (ticks : ℕ) (status : TaskStatus)
    (pendObj : Option ObjPtr) : Tasks :=
  ts.setTcb pTcb
    { ts.tcb pTcb with delayTicks := ticks, status := status, pendObj := pendObj }

end Tasks

namespace Kernel

def setSemB (k : Kernel) (pSemB : ObjPtr) (v : SemBin) : Kernel :=
  { k with semB := Function.update k.semB pSemB v }

def setSemC (k : Kernel) (pSemC : ObjPtr) (v : SemCnt) : Kernel :=
  { k with semC := Function.update k.semC pSemC v }

def setSemM (k : Kernel) (pSemM : ObjPtr) (v : SemMux) : Kernel :=
  { k with semM := Function.update k.semM pSemM v }

def setMsgQ (k : Kernel) (pMsgQ : ObjPtr) (v : MsgQue) : Kernel :=
  { k with msgQ := Function.update k.msgQ pMsgQ v }

end Kernel

/-- How a critical section of a call ends: the call returns, `CONTEXT_SWITCH` is called in
it, or it is left before the call is over. -/
inductive Outcome
  | ret (r : Result)
  | switch
  | unlock (r : Rest)
  deriving DecidableEq, Repr

/-- The list that a task's status, `pend_obj` and priority name. -/
def OsTcb.home (t : OsTcb) : Option QueueId :=
  match t.status with
  | .ready => some (.ready t.taskPriority)
  | .delay => some .delayQ
  | .pendSemM => t.pendObj.map .semM
  | .pendSemB => t.pendObj.map .semB
  | .pendSemC => t.pendObj.map .semC
  | .pendMsgS => t.pendObj.map .msgSend
  | .pendMsgR => t.pendObj.map .msgRecv

end DfewOS
