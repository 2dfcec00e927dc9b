import DfewOS.ReadyQueue
import DfewOS.TaskPool

/-!
# Binary and counting semaphores, and the delay queue

`semB.c`, `semC.c` and `delayQ.c`. A take that has to wait ends its critical
section with `Outcome.switch`; `semBResume` and `semCResume` are what follows
`CONTEXT_SWITCH`, the jump back to `again` included. The objects that a
`semX_init` call sets up are storage nobody else uses, whether the caller's or
fresh from `malloc`.
-/

namespace DfewOS

namespace Tasks

/-- The running task leaves the ready queue for the tail of the list `l`. -/
def pendOn (ts : Tasks) (l : QueueId) (pTcb : TcbPtr) (timeout : ℕ) (status : TaskStatus)
    (pendObj : Option ObjPtr) : Tasks :=
  (((ts.readyQRemove pTcb).setPend pTcb timeout status pendObj).dlistAdd l pTcb)

def wakeFirst (ts : Tasks) (l : QueueId) : Tasks :=
  match ts.dlistGet l with
  | (ts, none) => ts
  | (ts, some pOutTcb) => ts.readyQPut pOutTcb

/-- `dlist_get` and, if that gave a task, no remaining ticks for it and `readyQ_put`. -/
def flushFirst (ts : Tasks) (l : QueueId) : Tasks :=
  match ts.dlistGet l with
  | (ts, none) => ts
  | (ts, some pOutTcb) => (ts.setDelay pOutTcb 0).readyQPut pOutTcb

/-- The loop of `semB_flush` and `semC_flush`, with `n` tasks to pop at most. -/
def flushAll (l : QueueId) : ℕ → Tasks → Option Tasks
  | 0, ts => if (ts.dl.list l).head = none then some ts else none
  | n + 1, ts =>
    if (ts.dl.list l).head = none then some ts else flushAll l n (ts.flushFirst l)

end Tasks

namespace Kernel

def delayQDelay (k : Kernel) (cur : TcbPtr) (ticks : ℕ) : Kernel × Outcome :=
  if ticks = 0 then ({ k with ts := (k.ts.readyQRemove cur).readyQPut cur }, .switch)
  else ({ k with ts := k.ts.pendOn .delayQ cur ticks .delay none }, .switch)

def semBInit (k : Kernel) (pNewSemB : ObjPtr) : Kernel × Outcome :=
  let k := k.setSemB pNewSemB ⟨none⟩
  let k := { k with ts := k.ts.dlistInit (.semB pNewSemB) }
  ({ k with semBList := k.semBList ++ [pNewSemB] }, .ret (.obj (some pNewSemB)))

def semBTake (k : Kernel) (cur : TcbPtr) (pSemB : ObjPtr) (timeout : ℕ) : Kernel × Outcome :=
  if (k.semB pSemB).ownerTcb = none then
    let k := k.setSemB pSemB ⟨some cur⟩
    ({ k with ts := k.ts.setDelay cur 0 }, .ret (.status .ok))
  else if timeout ≠ 0 then
    ({ k with ts := k.ts.pendOn (.semB pSemB) cur timeout .pendSemB (some pSemB) }, .switch)
  else (k, .ret (.status .error))

def semBResume (k : Kernel) (cur : TcbPtr) (pSemB : ObjPtr) : Kernel × Outcome :=
  if (k.ts.tcb cur).delayTicks ≠ 0 then k.semBTake cur pSemB (k.ts.tcb cur).delayTicks
  else (k, .ret (.status .error))

def semBGive (k : Kernel) (pSemB : ObjPtr) : Kernel × Outcome :=
  let k := k.setSemB pSemB ⟨none⟩
  ({ k with ts := k.ts.wakeFirst (.semB pSemB) }, .ret (.status .ok))

/-- The loop leaves `owner_tcb` NULL; the tasks it holds on the way are not visible outside. -/
def semBFlush (k : Kernel) (pSemB : ObjPtr) : Option Kernel :=
  (k.ts.flushAll (.semB pSemB) taskNumMax).map fun ts =>
    { k.setSemB pSemB ⟨none⟩ with ts := ts }

def semBDelete (k : Kernel) (pSemB : ObjPtr) : Kernel :=
  { k with semBList := k.semBList.erase pSemB }

def semCInit (k : Kernel) (pNewSemC : ObjPtr) (initCount maxCount : ℕ) : Kernel × Outcome :=
  if maxCount = 0 then (k, .ret (.obj none))
  else
    let k := k.setSemC pNewSemC ⟨initCount, maxCount⟩
    let k := { k with ts := k.ts.dlistInit (.semC pNewSemC) }
    ({ k with semCList := k.semCList ++ [pNewSemC] }, .ret (.obj (some pNewSemC)))

def semCTake (k : Kernel) (cur : TcbPtr) (pSemC : ObjPtr) (timeout : ℕ) : Kernel × Outcome :=
  let sem := k.semC pSemC
  if 0 < sem.count then
    let k := k.setSemC pSemC { sem with count := sem.count - 1 }
    ({ k with ts := k.ts.setDelay cur 0 }, .ret (.status .ok))
  else if timeout ≠ 0 then
    ({ k with ts := k.ts.pendOn (.semC pSemC) cur timeout .pendSemC (some pSemC) }, .switch)
  else (k, .ret (.status .error))

def semCResume (k : Kernel) (cur : TcbPtr) (pSemC : ObjPtr) : Kernel × Outcome :=
  if (k.ts.tcb cur).delayTicks ≠ 0 then k.semCTake cur pSemC (k.ts.tcb cur).delayTicks
  else (k, .ret (.status .error))

def semCGive (k : Kernel) (pSemC : ObjPtr) : Kernel × Outcome :=
  let sem := k.semC pSemC
  if sem.count < sem.maxCount then
    let k := k.setSemC pSemC { sem with count := sem.count + 1 }
    ({ k with ts := k.ts.wakeFirst (.semC pSemC) }, .ret (.status .ok))
  else (k, .ret (.status .error))

def semCFlush (k : Kernel) (pSemC : ObjPtr) : Option Kernel :=
  (k.ts.flushAll (.semC pSemC) taskNumMax).map fun ts =>
    { k.setSemC pSemC { k.semC pSemC with count := 0 } with ts := ts }

def semCDelete (k : Kernel) (pSemC : ObjPtr) : Kernel :=
  { k with semCList := k.semCList.erase pSemC }

end Kernel

end DfewOS
