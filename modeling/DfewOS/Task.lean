import DfewOS.MessageQueue
import DfewOS.Mutex

/-!
# Tasks and the tick

`task.c` and `tick.c`. `task_create` is three critical sections (four when no
stack is left), so it is split where interrupts are enabled. The walks of the
tick go through `dlist_each`, which reads the successor of a node after the
routine may have moved the node to another list.
-/

namespace DfewOS.Kernel
open Dlist (OsStatus eachFrom)

def taskInit (k : Kernel) : Kernel :=
  { k with tcbMap := fun _ => -1, stackMap := fun _ => -1 }

/-- The size is rounded up to a multiple of `DEFAULT_ALIGN_BYTE`, which is 4. -/
def alignStackSize (stackSize : ℕ) : ℕ := (stackSize + 3) % 2 ^ 32 / 4 * 4

def taskCreate (k : Kernel) (stackSize taskPriority : ℕ) : Kernel × Outcome :=
  match k.allocTcb with
  | none => (k, .ret (.tcb none))
  | some (k, pTcb) =>
    let tcb : OsTcb :=
      { k.ts.tcb pTcb with
        stackSize := alignStackSize stackSize
        taskPriority := taskPriority
        originPri := taskPriority
        status := .ready
        pendObj := none }
    ({ k with ts := k.ts.setTcb pTcb tcb }, .unlock (.allocStack pTcb))

def taskCreateStack (k : Kernel) (pTcb : TcbPtr) : Kernel × Outcome :=
  let (k, pStack) := k.allocStack (k.ts.tcb pTcb).stackSize
  if pStack = 0 then (k, .unlock (.releaseTcb pTcb))
  else
    ({ k with ts := k.ts.setTcb pTcb { k.ts.tcb pTcb with stackStart := pStack } },
      .unlock (.linkTask pTcb))

/-- The new task starts in its entry function, with interrupts enabled. -/
def taskCreateLink (k : Kernel) (pTcb : TcbPtr) : Kernel × Outcome :=
  let ts := k.ts.readyQPut pTcb
  ({ k with
      ts := { ts with live := Function.update ts.live pTcb true }
      pc := Function.update k.pc pTcb .user
      taskNum := inc32 k.taskNum },
    .ret (.tcb (some pTcb)))

/-- What `task_delete` does to the list a task is in; `none` is a read through `NULL`. -/
def unlinkTask (k : Kernel) (pTcb : TcbPtr) : Option Kernel :=
  match (k.ts.tcb pTcb).status with
  | .ready => some { k with ts := k.ts.readyQRemove pTcb }
  | .delay => some { k with ts := k.ts.dlistRemove .delayQ pTcb }
  | .pendSemB => (k.ts.tcb pTcb).pendObj.map fun pSemB =>
      { k with ts := k.ts.dlistRemove (.semB pSemB) pTcb }
  | .pendSemC => (k.ts.tcb pTcb).pendObj.map fun pSemC =>
      { k with ts := k.ts.dlistRemove (.semC pSemC) pTcb }
  | .pendSemM => (k.ts.tcb pTcb).pendObj.map fun pSemM => k.semMRemove pSemM pTcb
  | .pendMsgS => (k.ts.tcb pTcb).pendObj.map fun pMsgQ =>
      { k with ts := k.ts.dlistRemove (.msgSend pMsgQ) pTcb }
  | .pendMsgR => (k.ts.tcb pTcb).pendObj.map fun pMsgQ =>
      { k with ts := k.ts.dlistRemove (.msgRecv pMsgQ) pTcb }

def kill (ts : Tasks) (pTcb : TcbPtr) : Tasks :=
  { ts with live := Function.update ts.live pTcb false }

def taskDelete (k : Kernel) (pTcb : TcbPtr) : Option (Kernel × Outcome) :=
  (k.unlinkTask pTcb).map fun k =>
    let k := k.semMFree pTcb
    let k := (k.releaseStack pTcb).releaseTcb pTcb
    ({ k with ts := kill k.ts pTcb, taskNum := dec32 k.taskNum }, .ret (.status .ok))

/-- `_task_entry` behind the call of the entry function, up to `LOAD_HIGHEST_TASK`. -/
def taskReturn (k : Kernel) (cur : TcbPtr) : Kernel :=
  let k := (k.releaseStack cur).releaseTcb cur
  { k with ts := kill (k.ts.readyQRemove cur) cur, taskNum := dec32 k.taskNum }

/-- `LOAD_HIGHEST_TASK`; without a ready task it would load a context from address 0. -/
def loadHighestTask (k : Kernel) : Option Kernel :=
  k.ts.readyQ.highestTcb.map fun t => { k with curTcb := some t }

def waitToReady (pWaitList : QueueId) (ts : Tasks) (pTcb : TcbPtr) : Tasks × OsStatus :=
  let t := ts.tcb pTcb
  let ts := if t.delayTicks ≠ waitForever then ts.setDelay pTcb (dec32 t.delayTicks) else ts
  if (ts.tcb pTcb).delayTicks = 0 then ((ts.dlistRemove pWaitList pTcb).readyQPut pTcb, .ok)
  else (ts, .ok)

def delayToReady (ts : Tasks) (pTcb : TcbPtr) : Tasks × OsStatus :=
  let ts := ts.setDelay pTcb (dec32 (ts.tcb pTcb).delayTicks)
  if (ts.tcb pTcb).delayTicks = 0 then ((ts.dlistRemove .delayQ pTcb).readyQPut pTcb, .ok)
  else (ts, .ok)

/-- `dlist_each` over a list of tasks; `none` when it does not end. -/
def dlistEach (l : QueueId) (routine : Tasks → TcbPtr → Tasks × OsStatus) (ts : Tasks) :
    Option Tasks :=
  eachFrom (fun ts t => ts.dl.node t) routine taskNumMax ts (ts.dl.list l).head

def updateWaitList (ts : Tasks) (l : QueueId) : Option Tasks := dlistEach l (waitToReady l) ts

def semBDecrease (k : Kernel) (ts : Tasks) : Option Tasks :=
  k.semBList.foldlM (fun ts pSemB => updateWaitList ts (.semB pSemB)) ts

def semCDecrease (k : Kernel) (ts : Tasks) : Option Tasks :=
  k.semCList.foldlM (fun ts pSemC => updateWaitList ts (.semC pSemC)) ts

def semMDecrease (k : Kernel) (ts : Tasks) : Option Tasks :=
  k.semMList.foldlM (fun ts pSemM => updateWaitList ts (.semM pSemM)) ts

def msgQDecrease (k : Kernel) (ts : Tasks) : Option Tasks :=
  k.msgQList.foldlM (fun ts pMsgQ => do
    let ts ← updateWaitList ts (.msgSend pMsgQ)
    updateWaitList ts (.msgRecv pMsgQ)) ts

def delayQDecrease (ts : Tasks) : Option Tasks := dlistEach .delayQ delayToReady ts

def tickAnnounce (k : Kernel) (cur : TcbPtr) : Option Kernel := do
  let ts ← k.semBDecrease k.ts
  let ts ← k.semCDecrease ts
  let ts ← k.semMDecrease ts
  let ts ← k.msgQDecrease ts
  let ts ← delayQDecrease ts
  some { k with ticks := inc32 k.ticks, ts := (ts.readyQRemove cur).readyQPut cur }

end DfewOS.Kernel
