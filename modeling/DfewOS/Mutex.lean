import DfewOS.Semaphores

/-!
# Mutexes with priority inheritance

`semM.c`. `_up_owner_pri` follows the chain of blocked owners by recursion; the
fuel is the number of its activations, and `none` also stands for the read
through an `owner_tcb` or `pend_obj` that is `NULL`.
-/

namespace DfewOS

namespace Tasks

/-- `_sort_pri_put` walks from the first task while priorities are numerically lower. -/
def skipLower (ts : Tasks) (pTcb : TcbPtr) : ℕ → Option TcbPtr → Option TcbPtr
  | n + 1, some pPrev =>
    if (ts.tcb pPrev).taskPriority < (ts.tcb pTcb).taskPriority
      then skipLower ts pTcb n (ts.dl.node pPrev).next else some pPrev
  | _, p => p

/-- `none` is a read through `NULL`: a list with a head has a last task, and the walk stops
there at the latest. -/
def sortPriPut (ts : Tasks) (l : QueueId) (pTcb : TcbPtr) : Option Tasks :=
  if (ts.dl.list l).head = none then some (ts.dlistAdd l pTcb)
  else do
    let last ← (ts.dl.list l).tail
    if (ts.tcb last).taskPriority < (ts.tcb pTcb).taskPriority then some (ts.dlistAdd l pTcb)
    else do
      let pPrev ← ts.skipLower pTcb taskNumMax (ts.dl.list l).head
      some (ts.dlistInsert l (ts.dl.node pPrev).previous pTcb)

end Tasks

namespace Kernel

def semMInit (k : Kernel) (pNewSemM : ObjPtr) : Kernel × Outcome :=
  let k := k.setSemM pNewSemM ⟨none, 0, 255⟩
  let k := { k with ts := k.ts.dlistInit (.semM pNewSemM) }
  ({ k with semMList := k.semMList ++ [pNewSemM] }, .ret (.obj (some pNewSemM)))

def upOwnerPri : ℕ → Kernel → TcbPtr → ObjPtr → Option Kernel
  | 0, _, _, _ => none
  | n + 1, k, pTcbWait, pSemM => do
    let pTcbOwner ← (k.semM pSemM).ownerTcb
    let waitPriority := (k.ts.tcb pTcbWait).taskPriority
    let k ←
      if waitPriority < (k.ts.tcb pTcbOwner).taskPriority then
        match (k.ts.tcb pTcbOwner).status with
        | .ready =>
          let ts := (k.ts.readyQRemove pTcbOwner).setPriority pTcbOwner waitPriority
          some { k with ts := ts.readyQPut pTcbOwner }
        | .pendSemM => do
          let ts := k.ts.setPriority pTcbOwner waitPriority
          let pendObj ← (ts.tcb pTcbOwner).pendObj
          upOwnerPri n { k with ts := ts } pTcbOwner pendObj
        | _ => some { k with ts := k.ts.setPriority pTcbOwner waitPriority }
      else some k
    if (k.ts.tcb pTcbWait).taskPriority < (k.semM pSemM).waitPri then
      some (k.setSemM pSemM
        { k.semM pSemM with waitPri := (k.ts.tcb pTcbWait).taskPriority })
    else some k

def semMTake (k : Kernel) (cur : TcbPtr) (pSemM : ObjPtr) (timeout : ℕ) :
    Option (Kernel × Outcome) :=
  if (k.semM pSemM).ownerTcb = none then
    some (k.setSemM pSemM { k.semM pSemM with ownerTcb := some cur, takeCount := 1 },
      .ret (.status .ok))
  else if (k.semM pSemM).ownerTcb = some cur then
    some (k.setSemM pSemM { k.semM pSemM with takeCount := inc32 (k.semM pSemM).takeCount },
      .ret (.status .error))
  else if timeout ≠ 0 then do
    let k ← upOwnerPri (taskNumMax + 1) k cur pSemM
    let ts := (k.ts.readyQRemove cur).setPend cur timeout .pendSemM (some pSemM)
    let ts ← ts.sortPriPut (.semM pSemM) cur
    some ({ k with ts := ts }, .switch)
  else some (k, .ret (.status .error))

def semMResume (k : Kernel) (cur : TcbPtr) : Kernel × Outcome :=
  if (k.ts.tcb cur).delayTicks ≠ 0 then
    ({ k with ts := k.ts.setDelay cur 0 }, .ret (.status .ok))
  else (k, .ret (.status .error))

def updateWaitPri (k : Kernel) (pSemM : ObjPtr) : Kernel :=
  match (k.ts.dl.list (.semM pSemM)).head with
  | none => k.setSemM pSemM { k.semM pSemM with waitPri := 255 }
  | some first =>
    k.setSemM pSemM { k.semM pSemM with waitPri := (k.ts.tcb first).taskPriority }

def checkOwner (k : Kernel) (cur : TcbPtr) (highestWaitPri : ℕ) (pSemM : ObjPtr) : ℕ :=
  if (k.semM pSemM).ownerTcb = some cur ∧ (k.semM pSemM).waitPri < highestWaitPri
    then (k.semM pSemM).waitPri else highestWaitPri

def getHighestWaitPri (k : Kernel) (cur : TcbPtr) : ℕ :=
  k.semMList.foldl (k.checkOwner cur) 255

/-- The last part of `semM_give`: the giver falls back to what its other mutexes ask for. -/
def lowerMyself (k : Kernel) (cur : TcbPtr) : Kernel × Outcome :=
  let taskNextPri := min (k.getHighestWaitPri cur) (k.ts.tcb cur).originPri
  if (k.ts.tcb cur).taskPriority < taskNextPri then
    let ts := (k.ts.readyQRemove cur).setPriority cur taskNextPri
    ({ k with ts := ts.readyQPut cur }, .switch)
  else (k, .ret (.status .ok))

def semMGive (k : Kernel) (cur : TcbPtr) (pSemM : ObjPtr) : Kernel × Outcome :=
  let k := k.setSemM pSemM { k.semM pSemM with takeCount := dec32 (k.semM pSemM).takeCount }
  if (k.semM pSemM).takeCount ≠ 0 then (k, .ret (.status .ok))
  else
    match k.ts.dlistGet (.semM pSemM) with
    | (ts, none) =>
      let k := { k with ts := ts }
      (k.setSemM pSemM { k.semM pSemM with ownerTcb := none }).lowerMyself cur
    | (ts, some pNextOwner) =>
      let k := { k with ts := ts }
      let k := k.setSemM pSemM { k.semM pSemM with ownerTcb := some pNextOwner }
      let k := { k with ts := k.ts.readyQPut pNextOwner }
      (k.updateWaitPri pSemM).lowerMyself cur

/-- `_free_semM`. Unlike `semM_give` it leaves `owner_tcb` alone when a task waits. -/
def freeSemM (pTcb : TcbPtr) (k : Kernel) (pSemM : ObjPtr) : Kernel :=
  if (k.semM pSemM).ownerTcb = some pTcb then
    let k := k.setSemM pSemM { k.semM pSemM with takeCount := 0 }
    match k.ts.dlistGet (.semM pSemM) with
    | (ts, none) =>
      let k := { k with ts := ts }
      k.setSemM pSemM { k.semM pSemM with ownerTcb := none }
    | (ts, some pNextOwner) =>
      let k := { k with ts := ts.readyQPut pNextOwner }
      k.updateWaitPri pSemM
  else k

def semMFree (k : Kernel) (pTcb : TcbPtr) : Kernel := k.semMList.foldl (freeSemM pTcb) k

def semMRemove (k : Kernel) (pSemM : ObjPtr) (pTcb : TcbPtr) : Kernel :=
  updateWaitPri { k with ts := k.ts.dlistRemove (.semM pSemM) pTcb } pSemM

end Kernel

end DfewOS
