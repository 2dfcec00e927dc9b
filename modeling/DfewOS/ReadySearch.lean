import DfewOS.Execution
import DfewOS.Watched

/-!
# The searches for the highest priority

The critical sections once more, reporting the ready queue at every call of
`_readQ_highest_pri`. Only `readyQ_remove` calls it, so a function that removes
no task from the ready queue is taken over as it is, and each of the others is
written as in the source. Their values are those of the kernel's functions:
`exec_value` says so for a whole step.
-/

namespace DfewOS

abbrev Searching (α : Type) := Watched ReadyQueue α

namespace Searching
open Watched (report ofOption)

section Code

def readQHighestPri (r : ReadyQueue) : Searching Int := report r r.readQHighestPri

def readyQRemove (ts : Tasks) (pTcb : TcbPtr) : Searching Tasks :=
  let priority := (ts.tcb pTcb).taskPriority
  let ts := ts.dlistRemove (.ready priority) pTcb
  if (ts.dl.list (.ready priority)).head = none then
    let bMap := BitMap.clear ts.readyQ.bMap priority
    let metaBMap := if bMap (priority >>> 5) = 0
      then BitMap.clearBit ts.readyQ.metaBMap (priority >>> 5) else ts.readyQ.metaBMap
    let ts := { ts with readyQ := { ts.readyQ with metaBMap := metaBMap, bMap := bMap } }
    if some pTcb = ts.readyQ.highestTcb then do
      let highest ← readQHighestPri ts.readyQ
      return { ts with readyQ := { ts.readyQ with highestTcb := ts.listArrayFirst highest } }
    else return ts
  else if some pTcb = ts.readyQ.highestTcb then
    return { ts with readyQ :=
      { ts.readyQ with highestTcb := (ts.dl.list (.ready priority)).head } }
  else return ts

def pendOn (ts : Tasks) (l : QueueId) (pTcb : TcbPtr) (timeout : ℕ) (status : TaskStatus)
    (pendObj : Option ObjPtr) : Searching Tasks := do
  let ts ← readyQRemove ts pTcb
  return (ts.setPend pTcb timeout status pendObj).dlistAdd l pTcb

def delayQDelay (k : Kernel) (cur : TcbPtr) (ticks : ℕ) : Searching (Kernel × Outcome) :=
  if ticks = 0 then do
    let ts ← readyQRemove k.ts cur
    return ({ k with ts := ts.readyQPut cur }, .switch)
  else do
    let ts ← pendOn k.ts .delayQ cur ticks .delay none
    return ({ k with ts := ts }, .switch)

def semBTake (k : Kernel) (cur : TcbPtr) (pSemB : ObjPtr) (timeout : ℕ) :
    Searching (Kernel × Outcome) :=
  if (k.semB pSemB).ownerTcb = none then return k.semBTake cur pSemB timeout
  else if timeout ≠ 0 then do
    let ts ← pendOn k.ts (.semB pSemB) cur timeout .pendSemB (some pSemB)
    return ({ k with ts := ts }, .switch)
  else return (k, .ret (.status .error))

def semBResume (k : Kernel) (cur : TcbPtr) (pSemB : ObjPtr) : Searching (Kernel × Outcome) :=
  if (k.ts.tcb cur).delayTicks ≠ 0 then semBTake k cur pSemB (k.ts.tcb cur).delayTicks
  else return (k, .ret (.status .error))

def semCTake (k : Kernel) (cur : TcbPtr) (pSemC : ObjPtr) (timeout : ℕ) :
    Searching (Kernel × Outcome) :=
  if 0 < (k.semC pSemC).count then return k.semCTake cur pSemC timeout
  else if timeout ≠ 0 then do
    let ts ← pendOn k.ts (.semC pSemC) cur timeout .pendSemC (some pSemC)
    return ({ k with ts := ts }, .switch)
  else return (k, .ret (.status .error))

def semCResume (k : Kernel) (cur : TcbPtr) (pSemC : ObjPtr) : Searching (Kernel × Outcome) :=
  if (k.ts.tcb cur).delayTicks ≠ 0 then semCTake k cur pSemC (k.ts.tcb cur).delayTicks
  else return (k, .ret (.status .error))

def msgQSend (k : Kernel) (cur : TcbPtr) (pMsgQ : ObjPtr) (buffer : List UInt8)
    (bufLen timeout : ℕ) : Searching (Kernel × Outcome) :=
  if (k.msgQ pMsgQ).curNum < (k.msgQ pMsgQ).maxNum then
    return k.msgQSend cur pMsgQ buffer bufLen timeout
  else if timeout ≠ 0 then do
    let ts ← pendOn k.ts (.msgSend pMsgQ) cur timeout .pendMsgS (some pMsgQ)
    return ({ k with ts := ts }, .switch)
  else return (k, .ret (.status .error))

def msgQSendResume (k : Kernel) (cur : TcbPtr) (pMsgQ : ObjPtr) (buffer : List UInt8)
    (bufLen : ℕ) : Searching (Kernel × Outcome) :=
  if (k.ts.tcb cur).delayTicks ≠ 0 then
    msgQSend k cur pMsgQ buffer bufLen (k.ts.tcb cur).delayTicks
  else return (k, .ret (.status .error))

def msgQReceive (k : Kernel) (cur : TcbPtr) (pMsgQ : ObjPtr) (buffer : List UInt8)
    (bufLen timeout : ℕ) : Searching (Kernel × Outcome) :=
  if 0 < (k.msgQ pMsgQ).curNum then ofOption (k.msgQReceive cur pMsgQ buffer bufLen timeout)
  else if timeout ≠ 0 then do
    let ts ← pendOn k.ts (.msgRecv pMsgQ) cur timeout .pendMsgR (some pMsgQ)
    return ({ k with ts := ts }, .switch)
  else return (k, .ret (.received .error buffer))

def msgQReceiveResume (k : Kernel) (cur : TcbPtr) (pMsgQ : ObjPtr) (buffer : List UInt8)
    (bufLen : ℕ) : Searching (Kernel × Outcome) :=
  if (k.ts.tcb cur).delayTicks ≠ 0 then
    msgQReceive k cur pMsgQ buffer bufLen (k.ts.tcb cur).delayTicks
  else return (k, .ret (.received .error buffer))

def upOwnerPri : ℕ → Kernel → TcbPtr → ObjPtr → Searching Kernel
  | 0, _, _, _ => ofOption none
  | n + 1, k, pTcbWait, pSemM => do
    let pTcbOwner ← ofOption (k.semM pSemM).ownerTcb
    let waitPriority := (k.ts.tcb pTcbWait).taskPriority
    let k ←
      (if waitPriority < (k.ts.tcb pTcbOwner).taskPriority then
        match (k.ts.tcb pTcbOwner).status with
        | .ready => do
          let ts ← readyQRemove k.ts pTcbOwner
          return { k with ts := (ts.setPriority pTcbOwner waitPriority).readyQPut pTcbOwner }
        | .pendSemM => do
          let ts := k.ts.setPriority pTcbOwner waitPriority
          let pendObj ← ofOption (ts.tcb pTcbOwner).pendObj
          upOwnerPri n { k with ts := ts } pTcbOwner pendObj
        | _ => return { k with ts := k.ts.setPriority pTcbOwner waitPriority }
      else return k)
    if (k.ts.tcb pTcbWait).taskPriority < (k.semM pSemM).waitPri then
      return k.setSemM pSemM
        { k.semM pSemM with waitPri := (k.ts.tcb pTcbWait).taskPriority }
    else return k

def semMTake (k : Kernel) (cur : TcbPtr) (pSemM : ObjPtr) (timeout : ℕ) :
    Searching (Kernel × Outcome) :=
  if (k.semM pSemM).ownerTcb = none ∨ (k.semM pSemM).ownerTcb = some cur then
    ofOption (k.semMTake cur pSemM timeout)
  else if timeout ≠ 0 then do
    let k ← upOwnerPri (taskNumMax + 1) k cur pSemM
    let ts ← readyQRemove k.ts cur
    let ts ← ofOption ((ts.setPend cur timeout .pendSemM (some pSemM)).sortPriPut (.semM pSemM) cur)
    return ({ k with ts := ts }, .switch)
  else return (k, .ret (.status .error))

def lowerMyself (k : Kernel) (cur : TcbPtr) : Searching (Kernel × Outcome) :=
  let taskNextPri := min (k.getHighestWaitPri cur) (k.ts.tcb cur).originPri
  if (k.ts.tcb cur).taskPriority < taskNextPri then do
    let ts ← readyQRemove k.ts cur
    return ({ k with ts := (ts.setPriority cur taskNextPri).readyQPut cur }, .switch)
  else return (k, .ret (.status .ok))

def semMGive (k : Kernel) (cur : TcbPtr) (pSemM : ObjPtr) : Searching (Kernel × Outcome) :=
  let k := k.setSemM pSemM { k.semM pSemM with takeCount := dec32 (k.semM pSemM).takeCount }
  if (k.semM pSemM).takeCount ≠ 0 then return (k, .ret (.status .ok))
  else
    match k.ts.dlistGet (.semM pSemM) with
    | (ts, none) =>
      let k := { k with ts := ts }
      lowerMyself (k.setSemM pSemM { k.semM pSemM with ownerTcb := none }) cur
    | (ts, some pNextOwner) =>
      let k := { k with ts := ts }
      let k := k.setSemM pSemM { k.semM pSemM with ownerTcb := some pNextOwner }
      let k := { k with ts := k.ts.readyQPut pNextOwner }
      lowerMyself (k.updateWaitPri pSemM) cur

def unlinkTask (k : Kernel) (pTcb : TcbPtr) : Searching Kernel :=
  if (k.ts.tcb pTcb).status = .ready then do
    let ts ← readyQRemove k.ts pTcb
    return { k with ts := ts }
  else ofOption (k.unlinkTask pTcb)

def taskDelete (k : Kernel) (pTcb : TcbPtr) : Searching (Kernel × Outcome) := do
  let k ← unlinkTask k pTcb
  let k := k.semMFree pTcb
  let k := (k.releaseStack pTcb).releaseTcb pTcb
  return ({ k with ts := Kernel.kill k.ts pTcb, taskNum := dec32 k.taskNum }, .ret (.status .ok))

def taskReturn (k : Kernel) (cur : TcbPtr) : Searching Kernel := do
  let k := (k.releaseStack cur).releaseTcb cur
  let ts ← readyQRemove k.ts cur
  return { k with ts := Kernel.kill ts cur, taskNum := dec32 k.taskNum }

/-- The walks of `tick_announce`; they only put tasks into the ready queue. -/
def decrease (k : Kernel) : Option Tasks := do
  let ts ← k.semBDecrease k.ts
  let ts ← k.semCDecrease ts
  let ts ← k.semMDecrease ts
  let ts ← k.msgQDecrease ts
  Kernel.delayQDecrease ts

def tickAnnounce (k : Kernel) (cur : TcbPtr) : Searching Kernel := do
  let ts ← ofOption (decrease k)
  let ts ← readyQRemove ts cur
  return { k with ticks := inc32 k.ticks, ts := ts.readyQPut cur }

def enter (k : Kernel) (cur : TcbPtr) : Call → Searching (Kernel × Outcome)
  | .taskDelete pTcb => taskDelete k pTcb
  | .delayQDelay ticks => delayQDelay k cur ticks
  | .semBTake s timeout => semBTake k cur s timeout
  | .semCTake s timeout => semCTake k cur s timeout
  | .semMTake m timeout => semMTake k cur m timeout
  | .semMGive m => semMGive k cur m
  | .msgQSend q buffer bufLen timeout => msgQSend k cur q buffer bufLen timeout
  | .msgQReceive q buffer bufLen timeout => msgQReceive k cur q buffer bufLen timeout
  | c => ofOption (k.enter cur c)

def resume (k : Kernel) (cur : TcbPtr) : Call → Searching (Kernel × Outcome)
  | .semBTake s _ => semBResume k cur s
  | .semCTake s _ => semCResume k cur s
  | .msgQSend q buffer bufLen _ => msgQSendResume k cur q buffer bufLen
  | .msgQReceive q buffer bufLen _ => msgQReceiveResume k cur q buffer bufLen
  | c => ofOption (k.resume cur c)

def exec (k : Kernel) : Act → Searching (Kernel × Option (Call × Result))
  | .call c => do
    let cur ← ofOption k.curTcb
    if k.pc cur = .user then do
      let r ← enter k cur c
      ofOption (Kernel.finish cur c r)
    else ofOption none
  | .resume => do
    let cur ← ofOption k.curTcb
    match k.pc cur with
    | .switched c => do
      let r ← resume k cur c
      ofOption (Kernel.finish cur c r)
    | _ => ofOption none
  | .tick => do
    let cur ← ofOption k.curTcb
    if k.intEnabled then do
      let k ← tickAnnounce k cur
      ofOption (k.loadHighestTask.map fun k => (k, none))
    else ofOption none
  | .exit => do
    let cur ← ofOption k.curTcb
    if k.pc cur = .user then do
      let k ← taskReturn k cur
      ofOption (k.loadHighestTask.map fun k => (k, none))
    else ofOption none
  | a => ofOption (k.exec a)

end Code

section Value
variable (k : Kernel) (cur t : TcbPtr)

theorem readyQRemove_value (ts : Tasks) (t : TcbPtr) :
    (readyQRemove ts t).value = some (ts.readyQRemove t) := by
  simp only [readyQRemove, Tasks.readyQRemove]
  split_ifs <;> rfl

theorem pendOn_value (ts : Tasks) (l : QueueId) (timeout : ℕ) (status : TaskStatus)
    (pendObj : Option ObjPtr) :
    (pendOn ts l t timeout status pendObj).value =
      some (ts.pendOn l t timeout status pendObj) := by
  rw [pendOn, Watched.value_bind, readyQRemove_value]
  rfl

theorem delayQDelay_value (ticks : ℕ) :
    (delayQDelay k cur ticks).value = some (k.delayQDelay cur ticks) := by
  rw [delayQDelay, Kernel.delayQDelay]
  split_ifs
  · rw [Watched.value_bind, readyQRemove_value]
    rfl
  · rw [Watched.value_bind, pendOn_value]
    rfl

theorem semBTake_value (s : ObjPtr) (timeout : ℕ) :
    (semBTake k cur s timeout).value = some (k.semBTake cur s timeout) := by
  rw [semBTake]
  split_ifs with hfree hwait
  · rfl
  · rw [Watched.value_bind, pendOn_value, Kernel.semBTake, if_neg hfree, if_pos hwait]
    rfl
  · rw [Kernel.semBTake, if_neg hfree, if_neg hwait]
    rfl

theorem semCTake_value (s : ObjPtr) (timeout : ℕ) :
    (semCTake k cur s timeout).value = some (k.semCTake cur s timeout) := by
  rw [semCTake]
  split_ifs with hfree hwait
  · rfl
  · rw [Watched.value_bind, pendOn_value, Kernel.semCTake, if_neg hfree, if_pos hwait]
    rfl
  · rw [Kernel.semCTake, if_neg hfree, if_neg hwait]
    rfl

theorem msgQSend_value (q : ObjPtr) (buffer : List UInt8) (bufLen timeout : ℕ) :
    (msgQSend k cur q buffer bufLen timeout).value =
      some (k.msgQSend cur q buffer bufLen timeout) := by
  rw [msgQSend]
  split_ifs with hroom hwait
  · rfl
  · rw [Watched.value_bind, pendOn_value, Kernel.msgQSend, if_neg hroom, if_pos hwait]
    rfl
  · rw [Kernel.msgQSend, if_neg hroom, if_neg hwait]
    rfl

theorem msgQReceive_value (q : ObjPtr) (buffer : List UInt8) (bufLen timeout : ℕ) :
    (msgQReceive k cur q buffer bufLen timeout).value =
      k.msgQReceive cur q buffer bufLen timeout := by
  rw [msgQReceive]
  split_ifs with hsome hwait
  · rfl
  · rw [Watched.value_bind, pendOn_value, Kernel.msgQReceive, if_neg hsome, if_pos hwait]
    rfl
  · rw [Kernel.msgQReceive, if_neg hsome, if_neg hwait]
    rfl

theorem upOwnerPri_value (n : ℕ) (k : Kernel) (w : TcbPtr) (m : ObjPtr) :
    (upOwnerPri n k w m).value = Kernel.upOwnerPri n k w m := by
  induction n generalizing k w m with
  | zero => rfl
  | succ n ih =>
    rw [upOwnerPri, Kernel.upOwnerPri, Watched.value_bind, Watched.value_ofOption]
    congr 1
    funext o
    have hwait : ∀ k' : Kernel, (if (k'.ts.tcb w).taskPriority < (k'.semM m).waitPri then
          (return k'.setSemM m { k'.semM m with waitPri := (k'.ts.tcb w).taskPriority } :
            Searching Kernel)
        else return k').value =
        if (k'.ts.tcb w).taskPriority < (k'.semM m).waitPri then
          some (k'.setSemM m { k'.semM m with waitPri := (k'.ts.tcb w).taskPriority })
        else some k' := by
      intro k'
      split_ifs <;> rfl
    simp only [Watched.value_bind, hwait]
    by_cases hlt : (k.ts.tcb w).taskPriority < (k.ts.tcb o).taskPriority
    · simp only [if_pos hlt]
      cases (k.ts.tcb o).status
      case ready =>
        simp only [Watched.value_bind, readyQRemove_value]
        rfl
      case pendSemM =>
        simp only [Watched.value_bind, Watched.value_ofOption, ih, Option.bind_assoc]
        rfl
      all_goals rfl
    · simp only [if_neg hlt]
      rfl

theorem semMTake_value (m : ObjPtr) (timeout : ℕ) :
    (semMTake k cur m timeout).value = k.semMTake cur m timeout := by
  rw [semMTake]
  split_ifs with hfree hwait
  · rfl
  · rw [not_or] at hfree
    rw [Kernel.semMTake, if_neg hfree.1, if_neg hfree.2, if_pos hwait, Watched.value_bind,
      upOwnerPri_value]
    congr 1
    funext k'
    rw [Watched.value_bind, readyQRemove_value, Option.bind_some, Watched.value_bind]
    rfl
  · rw [not_or] at hfree
    rw [Kernel.semMTake, if_neg hfree.1, if_neg hfree.2, if_neg hwait]
    rfl

theorem lowerMyself_value : (lowerMyself k cur).value = some (k.lowerMyself cur) := by
  simp only [lowerMyself, Kernel.lowerMyself]
  split_ifs
  · rw [Watched.value_bind, readyQRemove_value]
    rfl
  · rfl

theorem semMGive_value (m : ObjPtr) :
    (semMGive k cur m).value = some (k.semMGive cur m) := by
  simp only [semMGive, Kernel.semMGive]
  split_ifs
  · rfl
  · generalize Tasks.dlistGet _ (.semM m) = g
    obtain ⟨ts, _ | next⟩ := g <;> exact lowerMyself_value ..

theorem taskDelete_value : (taskDelete k t).value = k.taskDelete t := by
  have hunlink : (unlinkTask k t).value = k.unlinkTask t := by
    rw [unlinkTask]
    split_ifs with hready
    · rw [Watched.value_bind, readyQRemove_value, Kernel.unlinkTask, hready]
      rfl
    · rfl
  rw [taskDelete, Watched.value_bind, hunlink, Kernel.taskDelete, Option.map_eq_bind]
  rfl

theorem taskReturn_value : (taskReturn k cur).value = some (k.taskReturn cur) := by
  rw [taskReturn, Watched.value_bind, readyQRemove_value]
  rfl

theorem tickAnnounce_value : (tickAnnounce k cur).value = k.tickAnnounce cur := by
  simp only [tickAnnounce, Watched.value_bind, Watched.value_ofOption, readyQRemove_value,
    Option.bind_some, decrease, Kernel.tickAnnounce, Option.bind_eq_bind, Option.bind_assoc]
  rfl

theorem enter_value (c : Call) : (enter k cur c).value = k.enter cur c := by
  cases c with
  | taskDelete t => exact taskDelete_value ..
  | delayQDelay ticks => exact delayQDelay_value ..
  | semBTake s timeout => exact semBTake_value ..
  | semCTake s timeout => exact semCTake_value ..
  | semMTake m timeout => exact semMTake_value ..
  | semMGive m => exact semMGive_value ..
  | msgQSend q buffer bufLen timeout => exact msgQSend_value ..
  | msgQReceive q buffer bufLen timeout => exact msgQReceive_value ..
  | _ => rfl

theorem resume_value (c : Call) : (resume k cur c).value = k.resume cur c := by
  cases c with
  | semBTake s timeout =>
    simp only [resume, semBResume, Kernel.resume, Kernel.semBResume]
    split_ifs
    · exact semBTake_value ..
    · rfl
  | semCTake s timeout =>
    simp only [resume, semCResume, Kernel.resume, Kernel.semCResume]
    split_ifs
    · exact semCTake_value ..
    · rfl
  | msgQSend q buffer bufLen timeout =>
    simp only [resume, msgQSendResume, Kernel.resume, Kernel.msgQSendResume]
    split_ifs
    · exact msgQSend_value ..
    · rfl
  | msgQReceive q buffer bufLen timeout =>
    simp only [resume, msgQReceiveResume, Kernel.resume, Kernel.msgQReceiveResume]
    split_ifs
    · exact msgQReceive_value ..
    · rfl
  | _ => rfl

theorem exec_value (a : Act) : (exec k a).value = k.exec a := by
  cases a with
  | call c =>
    rw [exec, Kernel.exec, Watched.value_bind, Watched.value_ofOption]
    congr 1
    funext cur
    split_ifs
    · rw [Watched.value_bind, enter_value]
      rfl
    · rfl
  | resume =>
    rw [exec, Kernel.exec, Watched.value_bind, Watched.value_ofOption]
    congr 1
    funext cur
    cases k.pc cur with
    | switched c =>
      simp only [Watched.value_bind, resume_value]
      rfl
    | _ => rfl
  | tick =>
    rw [exec, Kernel.exec, Watched.value_bind, Watched.value_ofOption]
    congr 1
    funext cur
    split_ifs
    · rw [Watched.value_bind, tickAnnounce_value]
      rfl
    · rfl
  | exit =>
    rw [exec, Kernel.exec, Watched.value_bind, Watched.value_ofOption]
    congr 1
    funext cur
    split_ifs
    · rw [Watched.value_bind, taskReturn_value]
      rfl
    · rfl
  | _ => rfl

end Value

end Searching

end DfewOS
