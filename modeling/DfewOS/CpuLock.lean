import DfewOS.HeapRuns
import DfewOS.Masking

/-!
# `CPU_LOCK` and `CPU_UNLOCK`

The functions of the kernel, the heap, the FIFOs and the command table as programs that mask
interrupts. Most of them save the mask in the local `cpsr_c`; `memH.c` and `cmd.c` have one
`_G_cpsr_c` each. What a function does to other data than the heap does not touch the mask and
is left out, and where it decides on such data both branches stay.
-/

namespace DfewOS.CpuLock
open Blocks (walk)
open Masking (Cpu Exec Prog flow mask_restored)
open MemH (Heap Sound add32 configHeapStart headSize place)

/-- The `_G_cpsr_c` of the two modules. -/
inductive Shared
  | memH
  | cmd
  deriving DecidableEq

abbrev Code := Prog Shared Heap

/-- `cpsr_c = CPU_LOCK(); …; CPU_UNLOCK(cpsr_c);` -/
def locked (p : Code) : Code := .block [.lock none, p, .unlock none]

/-! ## memH.c -/

/-- Without a block that is large enough the function does not come back. -/
def malloc (nbytes : ℕ) : Code :=
  .block [.lock (some .memH),
    .choice (.block [.unlock (some .memH), .forever])
      (.block [.act fun h h' => ∃ current p, h.malloc current nbytes = some (h', p),
        .unlock (some .memH)])]

def calloc (elemNum elemSize : ℕ) : Code :=
  .block [.call (malloc (elemNum * elemSize % 2 ^ 32)),
    .act fun h h' => h' = { h with byte := h'.byte }]

def Outside (h : Heap) (usrP : ℕ) : Prop :=
  usrP < h.info.heapStart ∨ add32 h.info.heapStart h.info.heapSize ≤ usrP

instance (h : Heap) (usrP : ℕ) : Decidable (Outside h usrP) :=
  inferInstanceAs (Decidable (_ ∨ _))

def free (usrP : Heap → ℕ → Prop) : Code :=
  .choice (.guard fun h => ∃ p, usrP h p ∧ Outside h p)
    (.block [.guard fun h => ∃ p, usrP h p ∧ ¬ Outside h p, .lock (some .memH),
      .choice (.unlock (some .memH))
        (.block [.act fun h h' => ∃ p, usrP h p ∧ h.free p = some h', .unlock (some .memH)])])

def realloc (pBlock newSize : ℕ) : Code :=
  .choice (.block [.guard fun _ => newSize = 0, .call (free fun _ p => p = pBlock)])
    (.block [.guard fun _ => newSize ≠ 0, .call (malloc newSize),
      .choice .skip
        (.block [.act fun h h' => h' = { h with byte := h'.byte },
          .call (free fun _ p => p = pBlock)])])

def firstOf (h : Heap) (pTcb : Option TcbPtr) : Option (Option ℕ) :=
  walk h.head (fun p => decide ((h.head p).info.ownerTcb = pTcb)) h.rounds
    (some h.info.heapStart)

/-- A round that finds a block; `free` is called with the lock held. -/
def memHFreeOne (pTcb : Option TcbPtr) : Code :=
  .block [.lock (some .memH), .guard fun h => ∃ p, firstOf h pTcb = some (some p),
    .call (free fun h usrP => ∃ p, firstOf h pTcb = some (some p) ∧ usrP = add32 p headSize),
    .unlock (some .memH)]

/-- `memH_free`; the last round finds nothing. -/
def memHFree (pTcb : Option TcbPtr) : Code :=
  .block [.loop (memHFreeOne pTcb), .lock (some .memH),
    .guard fun h => firstOf h pTcb = some none, .unlock (some .memH)]

/-! ## cmd.c -/

def cmdAdd : Code := .block [.lock (some .cmd), .call (malloc 12), .unlock (some .cmd)]

/-! ## delayQ.c -/

def delayQDelay : Code := locked .switch

def delayQRemove : Code := locked .skip

/-! ## semB.c -/

def initObject (size : ℕ) : Code :=
  .block [.choice (.call (malloc size)) .skip, .choice (locked .skip) .skip]

def semBInit : Code := initObject 20

/-- A task that is woken with ticks left goes back to `again`. -/
def semBTake : Code := locked (.block [.loop .switch, .choice .switch .skip])

def semBGive : Code := locked .skip

def semBFlush : Code := locked .skip

def semBDelete (pSemB : ℕ) : Code :=
  .block [.call semBFlush, locked .skip, .choice (.call (free fun _ p => p = pSemB)) .skip]

def semBRemove : Code := locked .skip

/-! ## semC.c -/

def semCInit : Code := .choice .skip (initObject 24)

def semCTake : Code := locked (.block [.loop .switch, .choice .switch .skip])

def semCGive : Code := locked .skip

def semCFlush : Code := locked .skip

def semCDelete (pSemC : ℕ) : Code :=
  .block [.call semCFlush, locked .skip, .choice (.call (free fun _ p => p = pSemC)) .skip]

def semCRemove : Code := locked .skip

/-! ## semM.c -/

def semMInit : Code := initObject 28

def semMTake : Code := locked (.choice .switch .skip)

/-- The owner that still holds the mutex returns early. -/
def semMGive : Code :=
  .block [.lock none,
    .choice (.unlock none) (.block [.choice .switch .skip, .unlock none])]

def semMFree : Code := locked .skip

def semMRemove : Code := locked .skip

/-! ## msgQ.c -/

def msgQInit : Code := .choice .skip (initObject 44)

def msgQSend (maxLen : ℕ) : Code :=
  locked (.block [.loop .switch,
    .choice (.call (malloc (add32 8 maxLen))) (.choice .switch .skip)])

def msgQReceive : Code :=
  locked (.block [.loop .switch,
    .choice (.call (free fun _ _ => True)) (.choice .switch .skip)])

def msgQDelete (pMsgQ : ℕ) : Code :=
  .block [locked (.loop (.call (free fun _ _ => True))),
    .choice (.call (free fun _ p => p = pMsgQ)) .skip]

def msgQRemove : Code := locked .skip

/-! ## task.c -/

def allocTcb : Code := .block [.lock none, .choice (.unlock none) (.unlock none)]

def releaseTcb : Code := locked .skip

def allocStack : Code := locked .skip

def releaseStack : Code := locked .skip

def taskCreate : Code :=
  .block [.call allocTcb,
    .choice .skip
      (.block [.call allocStack, .choice (.call releaseTcb) (locked .skip)])]

def taskDelete : Code :=
  locked (.block [
    .choice .skip (.choice (.call delayQRemove) (.choice (.call semBRemove)
      (.choice (.call semCRemove) (.choice (.call semMRemove) (.call msgQRemove))))),
    .call semMFree, .call releaseStack, .call releaseTcb])

/-! ## fifo.c -/

def fifoCreate (maxNum eleSize : ℕ) : Code :=
  .choice .skip (.call (malloc ((20 + (maxNum + 1) * eleSize) % 2 ^ 32)))

def fifoIsEmpty : Code := .skip

def fifoIsFull : Code := .skip

def fifoPut : Code := locked (.call fifoIsFull)

def fifoGet : Code := locked (.call fifoIsEmpty)

def fifoHead : Code := locked (.call fifoIsEmpty)

def fifoDelete (pFifo : ℕ) : Code := locked (.call (free fun _ p => p = pFifo))

/-- The operations. -/
inductive Op
  | taskCreate
  | taskDelete
  | delayQDelay
  | delayQRemove
  | semBInit
  | semBTake
  | semBGive
  | semBFlush
  | semBDelete (pSemB : ℕ)
  | semBRemove
  | semCInit
  | semCTake
  | semCGive
  | semCFlush
  | semCDelete (pSemC : ℕ)
  | semCRemove
  | semMInit
  | semMTake
  | semMGive
  | semMFree
  | semMRemove
  | msgQInit
  | msgQSend (maxLen : ℕ)
  | msgQReceive
  | msgQDelete (pMsgQ : ℕ)
  | msgQRemove
  | fifoCreate (maxNum eleSize : ℕ)
  | fifoIsEmpty
  | fifoIsFull
  | fifoPut
  | fifoGet
  | fifoHead
  | fifoDelete (pFifo : ℕ)
  | malloc (nbytes : ℕ)
  | calloc (elemNum elemSize : ℕ)
  | realloc (pBlock newSize : ℕ)
  | free (usrP : ℕ)
  | memHFree (pTcb : Option TcbPtr)
  | cmdAdd

def Op.code : Op → Code
  | .taskCreate => CpuLock.taskCreate
  | .taskDelete => CpuLock.taskDelete
  | .delayQDelay => CpuLock.delayQDelay
  | .delayQRemove => CpuLock.delayQRemove
  | .semBInit => CpuLock.semBInit
  | .semBTake => CpuLock.semBTake
  | .semBGive => CpuLock.semBGive
  | .semBFlush => CpuLock.semBFlush
  | .semBDelete p => CpuLock.semBDelete p
  | .semBRemove => CpuLock.semBRemove
  | .semCInit => CpuLock.semCInit
  | .semCTake => CpuLock.semCTake
  | .semCGive => CpuLock.semCGive
  | .semCFlush => CpuLock.semCFlush
  | .semCDelete p => CpuLock.semCDelete p
  | .semCRemove => CpuLock.semCRemove
  | .semMInit => CpuLock.semMInit
  | .semMTake => CpuLock.semMTake
  | .semMGive => CpuLock.semMGive
  | .semMFree => CpuLock.semMFree
  | .semMRemove => CpuLock.semMRemove
  | .msgQInit => CpuLock.msgQInit
  | .msgQSend n => CpuLock.msgQSend n
  | .msgQReceive => CpuLock.msgQReceive
  | .msgQDelete p => CpuLock.msgQDelete p
  | .msgQRemove => CpuLock.msgQRemove
  | .fifoCreate m n => CpuLock.fifoCreate m n
  | .fifoIsEmpty => CpuLock.fifoIsEmpty
  | .fifoIsFull => CpuLock.fifoIsFull
  | .fifoPut => CpuLock.fifoPut
  | .fifoGet => CpuLock.fifoGet
  | .fifoHead => CpuLock.fifoHead
  | .fifoDelete p => CpuLock.fifoDelete p
  | .malloc n => CpuLock.malloc n
  | .calloc m n => CpuLock.calloc m n
  | .realloc p n => CpuLock.realloc p n
  | .free p => CpuLock.free fun _ usrP => usrP = p
  | .memHFree t => CpuLock.memHFree t
  | .cmdAdd => CpuLock.cmdAdd

theorem flow_code (op : Op) (h : ∀ pTcb, op ≠ .memHFree pTcb) :
    flow op.code .out = some .out := by
  cases op
  case memHFree pTcb => exact absurd rfl (h pTcb)
  all_goals rfl

end DfewOS.CpuLock
