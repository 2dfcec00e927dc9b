import DfewOS.Semaphores

/-!
# Message queues

`msgQ.c`. A message is the bytes that `memcpy` put behind its list node, so
`msg_list` is the list of these byte strings; `malloc` never fails here.
-/

namespace DfewOS.Kernel

def msgQInit (k : Kernel) (pNewMsgQ : ObjPtr) (maxNum maxLen : ℕ) : Kernel × Outcome :=
  if maxNum = 0 ∨ maxLen = 0 then (k, .ret (.obj none))
  else
    let k := k.setMsgQ pNewMsgQ ⟨maxNum, maxLen, 0, []⟩
    let k := { k with ts := (k.ts.dlistInit (.msgSend pNewMsgQ)).dlistInit (.msgRecv pNewMsgQ) }
    ({ k with msgQList := k.msgQList ++ [pNewMsgQ] }, .ret (.obj (some pNewMsgQ)))

def msgQSend (k : Kernel) (cur : TcbPtr) (pMsgQ : ObjPtr) (buffer : List UInt8)
    (bufLen timeout : ℕ) : Kernel × Outcome :=
  let q := k.msgQ pMsgQ
  if q.curNum < q.maxNum then
    let message := buffer.take (min bufLen q.maxLen)
    let k := k.setMsgQ pMsgQ { q with curNum := q.curNum + 1, msgList := q.msgList ++ [message] }
    ({ k with ts := (k.ts.setDelay cur 0).wakeFirst (.msgRecv pMsgQ) }, .ret (.status .ok))
  else if timeout ≠ 0 then
    ({ k with ts := k.ts.pendOn (.msgSend pMsgQ) cur timeout .pendMsgS (some pMsgQ) }, .switch)
  else (k, .ret (.status .error))

def msgQSendResume (k : Kernel) (cur : TcbPtr) (pMsgQ : ObjPtr) (buffer : List UInt8)
    (bufLen : ℕ) : Kernel × Outcome :=
  if (k.ts.tcb cur).delayTicks ≠ 0 then
    k.msgQSend cur pMsgQ buffer bufLen (k.ts.tcb cur).delayTicks
  else (k, .ret (.status .error))

/-- A receive with `cur_num > 0` and no message would copy from the node `NULL`. -/
def msgQReceive (k : Kernel) (cur : TcbPtr) (pMsgQ : ObjPtr) (buffer : List UInt8)
    (bufLen timeout : ℕ) : Option (Kernel × Outcome) :=
  let q := k.msgQ pMsgQ
  if 0 < q.curNum then
    match q.msgList with
    | [] => none
    | message :: rest =>
      let n := min bufLen q.maxLen
      let k := k.setMsgQ pMsgQ { q with curNum := q.curNum - 1, msgList := rest }
      some ({ k with ts := (k.ts.setDelay cur 0).wakeFirst (.msgSend pMsgQ) },
        .ret (.received .ok (message.take n ++ buffer.drop n)))
  else if timeout ≠ 0 then
    some ({ k with ts := k.ts.pendOn (.msgRecv pMsgQ) cur timeout .pendMsgR (some pMsgQ) },
      .switch)
  else some (k, .ret (.received .error buffer))

def msgQReceiveResume (k : Kernel) (cur : TcbPtr) (pMsgQ : ObjPtr) (buffer : List UInt8)
    (bufLen : ℕ) : Option (Kernel × Outcome) :=
  if (k.ts.tcb cur).delayTicks ≠ 0 then
    k.msgQReceive cur pMsgQ buffer bufLen (k.ts.tcb cur).delayTicks
  else some (k, .ret (.received .error buffer))

/-- Both wait lists are asked with `if`, not `while`: a second waiter is taken out of its
list and put nowhere. -/
def popWaiters (ts : Tasks) (l : QueueId) : Tasks :=
  match ts.dlistGet l with
  | (ts, none) => ts
  | (ts, some pWaitTcb) => (((ts.setDelay pWaitTcb 0).readyQPut pWaitTcb).dlistGet l).1

def msgQDelete (k : Kernel) (pMsgQ : ObjPtr) : Kernel × Outcome :=
  let k := k.setMsgQ pMsgQ { k.msgQ pMsgQ with msgList := [] }
  let k := { k with ts := popWaiters (popWaiters k.ts (.msgSend pMsgQ)) (.msgRecv pMsgQ) }
  ({ k with msgQList := k.msgQList.erase pMsgQ }, .ret (.status .ok))

end DfewOS.Kernel
