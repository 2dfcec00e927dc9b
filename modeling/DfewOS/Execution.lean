import DfewOS.Task
import DfewOS.Transition

/-!
# Runs of the kernel

One step is one critical section of the running task, one tick interrupt, or a
step of `main` before the first task is loaded. A task that was saved inside
`CONTEXT_SWITCH` has interrupts masked until its call is over, so no tick comes
between its being loaded and `resume`. The step that ends a call carries the
call and its result.

`defined` is what C and the comments ask of a caller: live targets, objects that
are in use whenever a call looks at them (one that is woken with no ticks left
does not look again), priorities that index the ready queue. The idle task, the
first one `main` creates, makes no calls and does not return.
-/

namespace DfewOS
open Transition (System Run Reachable)

inductive Act
  | call (c : Call)
  | resume
  | go
  | tick
  | exit
  | boot (c : Call)
  | load
  deriving DecidableEq, Repr

structure Event where
  act : Act
  done : Option (Call × Result)
  deriving DecidableEq, Repr

abbrev idle : TcbPtr := 0

namespace Kernel

def enter (k : Kernel) (cur : TcbPtr) : Call → Option (Kernel × Outcome)
  | .taskCreate stackSize taskPriority => some (k.taskCreate stackSize taskPriority)
  | .taskDelete pTcb => k.taskDelete pTcb
  | .delayQDelay ticks => some (k.delayQDelay cur ticks)
  | .semBInit s => some (k.semBInit s)
  | .semBTake s timeout => some (k.semBTake cur s timeout)
  | .semBGive s => some (k.semBGive s)
  | .semBFlush s => (k.semBFlush s).map fun k => (k, .ret (.status .ok))
  | .semBDelete s => (k.semBFlush s).map fun k => (k, .unlock (.unlistSemB s))
  | .semCInit s initCount maxCount => some (k.semCInit s initCount maxCount)
  | .semCTake s timeout => some (k.semCTake cur s timeout)
  | .semCGive s => some (k.semCGive s)
  | .semCFlush s => (k.semCFlush s).map fun k => (k, .ret (.status .ok))
  | .semCDelete s => (k.semCFlush s).map fun k => (k, .unlock (.unlistSemC s))
  | .semMInit m => some (k.semMInit m)
  | .semMTake m timeout => k.semMTake cur m timeout
  | .semMGive m => some (k.semMGive cur m)
  | .msgQInit q maxNum maxLen => some (k.msgQInit q maxNum maxLen)
  | .msgQSend q buffer bufLen timeout => some (k.msgQSend cur q buffer bufLen timeout)
  | .msgQReceive q buffer bufLen timeout => k.msgQReceive cur q buffer bufLen timeout
  | .msgQDelete q => some (k.msgQDelete q)

def resume (k : Kernel) (cur : TcbPtr) : Call → Option (Kernel × Outcome)
  | .delayQDelay _ => some (k, .ret .void)
  | .semBTake s _ => some (k.semBResume cur s)
  | .semCTake s _ => some (k.semCResume cur s)
  | .semMTake _ _ => some (k.semMResume cur)
  | .semMGive _ => some (k, .ret (.status .ok))
  | .msgQSend q buffer bufLen _ => some (k.msgQSendResume cur q buffer bufLen)
  | .msgQReceive q buffer bufLen _ => k.msgQReceiveResume cur q buffer bufLen
  | _ => none

def go (k : Kernel) : Rest → Kernel × Outcome
  | .allocStack pTcb => k.taskCreateStack pTcb
  | .releaseTcb pTcb => (k.releaseTcb pTcb, .ret (.tcb none))
  | .linkTask pTcb => k.taskCreateLink pTcb
  | .unlistSemB s => (k.semBDelete s, .ret (.status .ok))
  | .unlistSemC s => (k.semCDelete s, .ret (.status .ok))

def setPc (k : Kernel) (cur : TcbPtr) (pc : Pc) : Kernel :=
  { k with pc := Function.update k.pc cur pc }

def finish (cur : TcbPtr) (c : Call) : Kernel × Outcome → Option (Kernel × Option (Call × Result))
  | (k, .ret r) => some (k.setPc cur .user, some (c, r))
  | (k, .switch) => (k.setPc cur (.switched c)).loadHighestTask.map fun k => (k, none)
  | (k, .unlock r) => some (k.setPc cur (.unlocked c r), none)

/-- A call made by `main`: no interrupts, so its critical sections follow one another. -/
def runSections : ℕ → Kernel × Outcome → Option (Kernel × Result)
  | n + 1, (k, .unlock r) => runSections n (k.go r)
  | _, (k, .ret r) => some (k, r)
  | _, _ => none

def bootCall (k : Kernel) : Call → Option (Kernel × Result)
  | .taskCreate stackSize taskPriority => runSections 2 (k.taskCreate stackSize taskPriority)
  | .semBInit s => runSections 0 (k.semBInit s)
  | .semCInit s initCount maxCount => runSections 0 (k.semCInit s initCount maxCount)
  | .semMInit m => runSections 0 (k.semMInit m)
  | .msgQInit q maxNum maxLen => runSections 0 (k.msgQInit q maxNum maxLen)
  | _ => none

/-- Interrupts are masked while a call that switched is not over. -/
def intEnabled (k : Kernel) : Bool :=
  match k.curTcb with
  | none => false
  | some cur => match k.pc cur with
    | .switched _ => false
    | _ => true

def exec (k : Kernel) : Act → Option (Kernel × Option (Call × Result))
  | .call c => do
    let cur ← k.curTcb
    if k.pc cur = .user then (k.enter cur c).bind (finish cur c) else none
  | .resume => do
    let cur ← k.curTcb
    match k.pc cur with
    | .switched c => (k.resume cur c).bind (finish cur c)
    | _ => none
  | .go => do
    let cur ← k.curTcb
    match k.pc cur with
    | .unlocked c r => finish cur c (k.go r)
    | _ => none
  | .tick => do
    let cur ← k.curTcb
    if k.intEnabled then
      let k ← k.tickAnnounce cur
      k.loadHighestTask.map fun k => (k, none)
    else none
  | .exit => do
    let cur ← k.curTcb
    if k.pc cur = .user then (k.taskReturn cur).loadHighestTask.map fun k => (k, none) else none
  | .boot c =>
    if k.curTcb = none then (k.bootCall c).map fun r => (r.1, some (c, r.2)) else none
  | .load => if k.curTcb = none then k.loadHighestTask.map fun k => (k, none) else none

def inUse (k : Kernel) : Call → Prop
  | .semBTake s _ | .semBGive s | .semBFlush s | .semBDelete s => s ∈ k.semBList
  | .semCTake s _ | .semCGive s | .semCFlush s | .semCDelete s => s ∈ k.semCList
  | .semMTake m _ | .semMGive m => m ∈ k.semMList
  | .msgQSend q _ _ _ | .msgQReceive q _ _ _ | .msgQDelete q => q ∈ k.msgQList
  | _ => True

/-- The object that a call looks at when it jumps back to `again` is set up and not deleted. -/
def againInUse (k : Kernel) : Call → Prop
  | .semBTake s _ => s ∈ k.semBList
  | .semCTake s _ => s ∈ k.semCList
  | .msgQSend q _ _ _ | .msgQReceive q _ _ _ => q ∈ k.msgQList
  | _ => True

/-- The storage an init call sets up belongs to no object and nobody waits on it. -/
def isFresh (k : Kernel) : Call → Prop
  | .semBInit s => s ∉ k.semBList ∧ k.ts.members (.semB s) = []
  | .semCInit s _ _ => s ∉ k.semCList ∧ k.ts.members (.semC s) = []
  | .semMInit m => m ∉ k.semMList ∧ k.ts.members (.semM m) = []
  | .msgQInit q _ _ => q ∉ k.msgQList ∧ k.ts.members (.msgSend q) = [] ∧
      k.ts.members (.msgRecv q) = []
  | _ => True

def argsOk (k : Kernel) : Call → Prop
  | .taskCreate stackSize taskPriority => stackSize < 2 ^ 32 ∧ taskPriority < priorityNumMax
  | .taskDelete pTcb => k.ts.live pTcb = true ∧ pTcb ≠ idle
  | .delayQDelay ticks => ticks < 2 ^ 32
  | .semBTake _ timeout | .semCTake _ timeout | .semMTake _ timeout => timeout < 2 ^ 32
  | .semCInit _ initCount maxCount => initCount < 2 ^ 32 ∧ maxCount < 2 ^ 32
  | .msgQInit _ maxNum maxLen => maxNum < 2 ^ 32 ∧ maxLen < 2 ^ 32
  | .msgQSend _ buffer bufLen timeout | .msgQReceive _ buffer bufLen timeout =>
      buffer.length = bufLen ∧ bufLen < 2 ^ 32 ∧ timeout < 2 ^ 32
  | _ => True

def callOk (k : Kernel) (c : Call) : Prop := k.inUse c ∧ k.isFresh c ∧ k.argsOk c

/-- A semaphore is only unlisted when no task is left inside a call on it. -/
def restOk (k : Kernel) : Rest → Prop
  | .unlistSemB s => k.ts.members (.semB s) = []
  | .unlistSemC s => k.ts.members (.semC s) = []
  | _ => True

def defined (k : Kernel) : Act → Prop
  | .call c => k.curTcb ≠ some idle ∧ k.callOk c
  | .resume => ∀ cur c, k.curTcb = some cur → k.pc cur = .switched c →
      (k.ts.tcb cur).delayTicks ≠ 0 → k.againInUse c
  | .go => ∀ cur c r, k.curTcb = some cur → k.pc cur = .unlocked c r → k.restOk r
  | .exit => k.curTcb ≠ some idle
  | .boot c => k.callOk c
  | _ => True

/-- The kernel's memory when `task_init` and `readyQ_init` are over. -/
def cleared : Kernel :=
  taskInit
    { ts := Tasks.zeroed.readyQInit
      curTcb := none
      pc := fun _ => .user
      taskNum := 0
      tcbMap := fun _ => 0
      stackMap := fun _ => 0
      ticks := 0
      semB := fun _ => ⟨none⟩
      semBList := []
      semC := fun _ => ⟨0, 0⟩
      semCList := []
      semM := fun _ => ⟨none, 0, 0⟩
      semMList := []
      msgQ := fun _ => ⟨0, 0, 0, []⟩
      msgQList := [] }

end Kernel

/-- The kernel from the moment `main` has created the idle task. -/
def system : System Kernel Event where
  init k := ∃ r, Kernel.cleared.bootCall (.taskCreate 1024 255) = some (k, r)
  step k e k' := k.defined e.act ∧ k.exec e.act = some (k', e.done)

end DfewOS
