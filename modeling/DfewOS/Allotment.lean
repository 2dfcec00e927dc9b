import DfewOS.Execution
import DfewOS.MutexSpec

/-!
# What leaves control blocks and stacks alone

`Kernel.allotment` is all that the allocation of control blocks and stacks reads
or writes. Only the sections of `task_create`, `task_delete` and the return of a
task from its entry function change it.
-/

namespace DfewOS
open Dlist (OsStatus eachFrom)

namespace Tasks

/-- The live tasks, and the place and size of each control block's stack. -/
def held (ts : Tasks) : (TcbPtr → Bool) × (TcbPtr → ℕ × ℕ) :=
  (ts.live, fun t => ((ts.tcb t).stackStart, (ts.tcb t).stackSize))

variable (ts : Tasks) (t : TcbPtr) (l : QueueId)

theorem held_setTcb {v : OsTcb} (hs : v.stackStart = (ts.tcb t).stackStart)
    (hz : v.stackSize = (ts.tcb t).stackSize) : (ts.setTcb t v).held = ts.held := by
  simp only [held, setTcb, Prod.mk.injEq, true_and]
  funext u
  by_cases hu : u = t
  · subst hu
    rw [Function.update_self, hs, hz]
  · rw [Function.update_of_ne hu]

@[simp] theorem held_setDelay (ticks : ℕ) : (ts.setDelay t ticks).held = ts.held :=
  ts.held_setTcb t rfl rfl

@[simp] theorem held_setPriority (priority : ℕ) :
    (ts.setPriority t priority).held = ts.held := ts.held_setTcb t rfl rfl

@[simp] theorem held_setPend (ticks : ℕ) (status : TaskStatus) (pendObj : Option ObjPtr) :
    (ts.setPend t ticks status pendObj).held = ts.held := ts.held_setTcb t rfl rfl

@[simp] theorem held_dlistAdd : (ts.dlistAdd l t).held = ts.held := rfl
@[simp] theorem held_dlistInsert (p : Option TcbPtr) :
    (ts.dlistInsert l p t).held = ts.held := rfl
@[simp] theorem held_dlistRemove : (ts.dlistRemove l t).held = ts.held := rfl
@[simp] theorem held_dlistGet : (ts.dlistGet l).1.held = ts.held := rfl
@[simp] theorem held_dlistInit : (ts.dlistInit l).held = ts.held := rfl

@[simp] theorem held_readyQPut : (ts.readyQPut t).held = ts.held := by
  simp only [readyQPut, held_dlistAdd]
  exact held_setTcb _ t rfl rfl

@[simp] theorem held_readyQRemove : (ts.readyQRemove t).held = ts.held := by
  simp only [readyQRemove]
  split_ifs <;> rfl

@[simp] theorem held_pendOn (ticks : ℕ) (status : TaskStatus) (pendObj : Option ObjPtr) :
    (ts.pendOn l t ticks status pendObj).held = ts.held := by
  simp [pendOn]

@[simp] theorem held_wakeFirst : (ts.wakeFirst l).held = ts.held := by
  rw [wakeFirst, dlistGet]
  cases (Dlist.dlistGet ts.dl l).2 with
  | none => rfl
  | some p => exact held_readyQPut _ p

@[simp] theorem held_flushFirst : (ts.flushFirst l).held = ts.held := by
  rw [flushFirst, dlistGet]
  cases (Dlist.dlistGet ts.dl l).2 with
  | none => rfl
  | some p => exact (held_readyQPut _ p).trans (held_setDelay _ p 0)

variable {ts t l} {ts' : Tasks} {n : ℕ}

theorem held_flushAll (h : flushAll l n ts = some ts') : ts'.held = ts.held := by
  induction n generalizing ts with
  | zero =>
    rw [flushAll] at h
    split_ifs at h
    obtain rfl := Option.some.inj h
    rfl
  | succ n ih =>
    rw [flushAll] at h
    split_ifs at h
    · obtain rfl := Option.some.inj h
      rfl
    · exact (ih h).trans (held_flushFirst ts l)

theorem held_popWaiters : (Kernel.popWaiters ts l).held = ts.held := by
  rw [Kernel.popWaiters, dlistGet]
  cases (Dlist.dlistGet ts.dl l).2 with
  | none => rfl
  | some p =>
    simp only [held_dlistGet, held_readyQPut, held_setDelay]
    rfl

theorem held_sortPriPut (h : ts.sortPriPut l t = some ts') : ts'.held = ts.held := by
  rw [sortPriPut] at h
  split_ifs at h
  · obtain rfl := Option.some.inj h
    rfl
  · obtain ⟨last, -, h⟩ := Option.bind_eq_some_iff.mp h
    split_ifs at h
    · obtain rfl := Option.some.inj h
      rfl
    · obtain ⟨p, -, h⟩ := Option.bind_eq_some_iff.mp h
      obtain rfl := Option.some.inj h
      rfl

theorem held_eachFrom {routine : Tasks → TcbPtr → Tasks × OsStatus} {p : Option TcbPtr}
    (hr : ∀ ts t, (routine ts t).1.held = ts.held)
    (h : eachFrom (fun ts t => ts.dl.node t) routine n ts p = some ts') : ts'.held = ts.held := by
  induction n generalizing ts p with
  | zero =>
    cases p with
    | none =>
      obtain rfl := Option.some.inj h
      rfl
    | some p => exact absurd h (by simp [eachFrom])
  | succ n ih =>
    cases p with
    | none =>
      obtain rfl := Option.some.inj h
      rfl
    | some p =>
      simp only [eachFrom] at h
      split_ifs at h
      · exact (ih h).trans (hr ts p)
      · obtain rfl := Option.some.inj h
        exact hr ts p

theorem held_foldlM {objs : List ObjPtr} {f : Tasks → ObjPtr → Option Tasks}
    (hf : ∀ ts o ts', f ts o = some ts' → ts'.held = ts.held)
    (h : objs.foldlM f ts = some ts') : ts'.held = ts.held := by
  induction objs generalizing ts with
  | nil =>
    obtain rfl := Option.some.inj h
    rfl
  | cons o objs ih =>
    obtain ⟨ts₁, hone, hrest⟩ := Option.bind_eq_some_iff.mp h
    exact (ih hrest).trans (hf ts o ts₁ hone)

end Tasks

namespace Kernel

def allotment (k : Kernel) :
    (ℕ → BitVec 32) × (ℕ → BitVec 32) × ℕ × (TcbPtr → Bool) × (TcbPtr → ℕ × ℕ) :=
  (k.tcbMap, k.stackMap, k.taskNum, k.ts.held)

variable {k k' : Kernel} {cur t : TcbPtr} {m : ObjPtr} {c : Call} {a : Act}
  {r : Kernel × Outcome} {d : Option (Call × Result)}

theorem held_waitToReady (l : QueueId) (ts : Tasks) (t : TcbPtr) :
    (waitToReady l ts t).1.held = ts.held := by
  simp only [waitToReady]
  split_ifs <;> simp

theorem held_delayToReady (ts : Tasks) (t : TcbPtr) : (delayToReady ts t).1.held = ts.held := by
  simp only [delayToReady]
  split_ifs <;> simp

theorem held_updateWaitList {ts ts' : Tasks} {l : QueueId}
    (h : updateWaitList ts l = some ts') : ts'.held = ts.held :=
  Tasks.held_eachFrom (held_waitToReady l) h

theorem allotment_tickAnnounce (h : k.tickAnnounce cur = some k') :
    k'.allotment = k.allotment := by
  simp only [tickAnnounce, Option.bind_eq_bind, Option.bind_eq_some_iff, Option.some.injEq] at h
  obtain ⟨ts₁, h₁, ts₂, h₂, ts₃, h₃, ts₄, h₄, ts₅, h₅, rfl⟩ := h
  have hq : ∀ (ts : Tasks) (q : ObjPtr) (ts' : Tasks),
      (do
        let ts ← updateWaitList ts (.msgSend q)
        updateWaitList ts (.msgRecv q)) = some ts' → ts'.held = ts.held := by
    intro ts q ts' h
    obtain ⟨ts₁, hsend, hrecv⟩ := Option.bind_eq_some_iff.mp h
    exact (held_updateWaitList hrecv).trans (held_updateWaitList hsend)
  have hheld := calc
    ts₅.held = ts₄.held := Tasks.held_eachFrom held_delayToReady h₅
    _ = ts₃.held := Tasks.held_foldlM hq h₄
    _ = ts₂.held := Tasks.held_foldlM (fun _ _ _ => held_updateWaitList) h₃
    _ = ts₁.held := Tasks.held_foldlM (fun _ _ _ => held_updateWaitList) h₂
    _ = k.ts.held := Tasks.held_foldlM (fun _ _ _ => held_updateWaitList) h₁
  simp [allotment, hheld]

theorem allotment_upOwnerPri {n : ℕ} {w : TcbPtr} (h : upOwnerPri n k w m = some k') :
    k'.allotment = k.allotment := by
  refine upOwnerPri_rel (R := fun k k' => k'.allotment = k.allotment) (fun _ => rfl)
    (fun h h' => h'.trans h) (fun k o p => ?_) (fun k o p => ?_) (fun k m p => ?_) h
  · simp [allotment]
  · simp [allotment]
  · rw [askPri_rest]
    rfl

theorem allotment_updateWaitPri (k : Kernel) (m : ObjPtr) :
    (k.updateWaitPri m).allotment = k.allotment := by
  rw [updateWaitPri]
  cases (k.ts.dl.list (.semM m)).head <;> rfl

theorem allotment_lowerMyself (k : Kernel) (cur : TcbPtr) :
    (k.lowerMyself cur).1.allotment = k.allotment := by
  simp only [lowerMyself]
  split_ifs <;> simp [allotment]

theorem allotment_semMTake {timeout : ℕ} (h : k.semMTake cur m timeout = some r) :
    r.1.allotment = k.allotment := by
  rw [semMTake] at h
  split_ifs at h
  · obtain rfl := Option.some.inj h
    rfl
  · obtain rfl := Option.some.inj h
    rfl
  · obtain ⟨k₁, hup, h⟩ := Option.bind_eq_some_iff.mp h
    obtain ⟨ts, hts, h⟩ := Option.bind_eq_some_iff.mp h
    obtain rfl := Option.some.inj h
    rw [← allotment_upOwnerPri hup]
    simp [allotment, Tasks.held_sortPriPut hts]
  · obtain rfl := Option.some.inj h
    rfl

theorem allotment_semMGive (k : Kernel) (cur : TcbPtr) (m : ObjPtr) :
    (k.semMGive cur m).1.allotment = k.allotment := by
  simp only [semMGive]
  split_ifs
  · rfl
  · simp only [Tasks.dlistGet, setSemM]
    cases (Dlist.dlistGet k.ts.dl (.semM m)).2 with
    | none => exact allotment_lowerMyself ..
    | some p =>
      simp only [allotment_lowerMyself, allotment_updateWaitPri]
      simp only [allotment, Tasks.held_readyQPut]
      rfl

theorem allotment_freeSemM (t : TcbPtr) (k : Kernel) (m : ObjPtr) :
    (freeSemM t k m).allotment = k.allotment := by
  simp only [freeSemM]
  split_ifs
  · simp only [Tasks.dlistGet, setSemM]
    cases (Dlist.dlistGet k.ts.dl (.semM m)).2 with
    | none => rfl
    | some p =>
      simp only [allotment_updateWaitPri]
      simp only [allotment, Tasks.held_readyQPut]
      rfl
  · rfl

theorem allotment_semMFree (k : Kernel) (t : TcbPtr) :
    (k.semMFree t).allotment = k.allotment := by
  rw [semMFree]
  generalize k.semMList = ms
  induction ms generalizing k with
  | nil => rfl
  | cons m ms ih => exact (ih _).trans (allotment_freeSemM t k m)

theorem allotment_unlinkTask (h : k.unlinkTask t = some k') : k'.allotment = k.allotment := by
  rw [unlinkTask] at h
  cases hs : (k.ts.tcb t).status <;> rw [hs] at h
  case ready => obtain rfl := Option.some.inj h; simp [allotment]
  case delay => obtain rfl := Option.some.inj h; simp [allotment]
  case pendSemM =>
    obtain ⟨m, -, rfl⟩ := Option.map_eq_some_iff.mp h
    rw [semMRemove, allotment_updateWaitPri]
    rfl
  all_goals
    obtain ⟨o, -, rfl⟩ := Option.map_eq_some_iff.mp h
    rfl

theorem allotment_semBTake (k : Kernel) (cur : TcbPtr) (s : ObjPtr) (timeout : ℕ) :
    (k.semBTake cur s timeout).1.allotment = k.allotment := by
  simp only [semBTake]
  split_ifs <;> simp [allotment, setSemB]

theorem allotment_semCTake (k : Kernel) (cur : TcbPtr) (s : ObjPtr) (timeout : ℕ) :
    (k.semCTake cur s timeout).1.allotment = k.allotment := by
  simp only [semCTake]
  split_ifs <;> simp [allotment, setSemC]

theorem allotment_msgQSend (k : Kernel) (cur : TcbPtr) (q : ObjPtr) (buffer : List UInt8)
    (bufLen timeout : ℕ) :
    (k.msgQSend cur q buffer bufLen timeout).1.allotment = k.allotment := by
  simp only [msgQSend]
  split_ifs <;> simp [allotment, setMsgQ]

theorem allotment_msgQReceive {q : ObjPtr} {buffer : List UInt8} {bufLen timeout : ℕ}
    (h : k.msgQReceive cur q buffer bufLen timeout = some r) : r.1.allotment = k.allotment := by
  simp only [msgQReceive] at h
  split_ifs at h
  · cases hq : (k.msgQ q).msgList with
    | nil => simp [hq] at h
    | cons message rest =>
      simp only [hq] at h
      obtain rfl := Option.some.inj h
      simp [allotment, setMsgQ]
  · obtain rfl := Option.some.inj h
    simp [allotment]
  · obtain rfl := Option.some.inj h
    rfl

theorem allotment_enter (hcreate : ∀ n p, c ≠ .taskCreate n p) (hdelete : ∀ t, c ≠ .taskDelete t)
    (h : k.enter cur c = some r) : r.1.allotment = k.allotment := by
  cases c <;> simp only [enter, Option.some.injEq] at h
  case taskCreate n p => exact absurd rfl (hcreate n p)
  case taskDelete t => exact absurd rfl (hdelete t)
  case delayQDelay ticks =>
    rw [← h, delayQDelay]
    split_ifs <;> simp [allotment]
  case semBInit s => rw [← h]; rfl
  case semBTake s timeout => rw [← h]; exact allotment_semBTake k cur s timeout
  case semBGive s => rw [← h]; simp [semBGive, allotment, setSemB]
  case semBFlush s =>
    obtain ⟨k', hk, rfl⟩ := Option.map_eq_some_iff.mp h
    obtain ⟨ts, hts, rfl⟩ := Option.map_eq_some_iff.mp hk
    simp [allotment, setSemB, Tasks.held_flushAll hts]
  case semBDelete s =>
    obtain ⟨k', hk, rfl⟩ := Option.map_eq_some_iff.mp h
    obtain ⟨ts, hts, rfl⟩ := Option.map_eq_some_iff.mp hk
    simp [allotment, setSemB, Tasks.held_flushAll hts]
  case semCInit s initCount maxCount =>
    rw [← h, semCInit]
    split_ifs <;> rfl
  case semCTake s timeout => rw [← h]; exact allotment_semCTake k cur s timeout
  case semCGive s =>
    rw [← h, semCGive]
    simp only
    split_ifs <;> simp [allotment, setSemC]
  case semCFlush s =>
    obtain ⟨k', hk, rfl⟩ := Option.map_eq_some_iff.mp h
    obtain ⟨ts, hts, rfl⟩ := Option.map_eq_some_iff.mp hk
    simp [allotment, setSemC, Tasks.held_flushAll hts]
  case semCDelete s =>
    obtain ⟨k', hk, rfl⟩ := Option.map_eq_some_iff.mp h
    obtain ⟨ts, hts, rfl⟩ := Option.map_eq_some_iff.mp hk
    simp [allotment, setSemC, Tasks.held_flushAll hts]
  case semMInit m => rw [← h]; rfl
  case semMTake m timeout => exact allotment_semMTake h
  case semMGive m => rw [← h]; exact allotment_semMGive k cur m
  case msgQInit q maxNum maxLen =>
    rw [← h, msgQInit]
    split_ifs <;> rfl
  case msgQSend q buffer bufLen timeout =>
    rw [← h]
    exact allotment_msgQSend k cur q buffer bufLen timeout
  case msgQReceive q buffer bufLen timeout => exact allotment_msgQReceive h
  case msgQDelete q =>
    rw [← h]
    simp [msgQDelete, allotment, setMsgQ, Tasks.held_popWaiters]

theorem allotment_resume (h : k.resume cur c = some r) : r.1.allotment = k.allotment := by
  cases c <;> simp only [resume, Option.some.injEq, reduceCtorEq] at h
  case delayQDelay => rw [← h]
  case semBTake s _ =>
    rw [← h, semBResume]
    split_ifs
    · exact allotment_semBTake ..
    · rfl
  case semCTake s _ =>
    rw [← h, semCResume]
    split_ifs
    · exact allotment_semCTake ..
    · rfl
  case semMTake =>
    rw [← h, semMResume]
    split_ifs <;> simp [allotment]
  case semMGive => rw [← h]
  case msgQSend q buffer bufLen _ =>
    rw [← h, msgQSendResume]
    split_ifs
    · exact allotment_msgQSend ..
    · rfl
  case msgQReceive q buffer bufLen _ =>
    rw [msgQReceiveResume] at h
    split_ifs at h
    · exact allotment_msgQReceive h
    · obtain rfl := Option.some.inj h
      rfl

theorem allotment_finish (h : finish cur c r = some (k', d)) : k'.allotment = r.1.allotment := by
  obtain ⟨k, o⟩ := r
  cases o with
  | ret x =>
    obtain ⟨rfl, -⟩ := Prod.mk.inj (Option.some.inj h)
    rfl
  | switch =>
    obtain ⟨k₁, hload, heq⟩ := Option.map_eq_some_iff.mp h
    obtain ⟨t, -, rfl⟩ := Option.map_eq_some_iff.mp hload
    obtain ⟨rfl, -⟩ := Prod.mk.inj heq
    rfl
  | unlock x =>
    obtain ⟨rfl, -⟩ := Prod.mk.inj (Option.some.inj h)
    rfl

inductive Allots (k : Kernel) : Act → Kernel → Prop
  | keeps {a : Act} {k' : Kernel} (h : k'.allotment = k.allotment) : Allots k a k'
  | create {n p : ℕ} {k' : Kernel} (h : k'.allotment = (k.taskCreate n p).1.allotment) :
      Allots k (.call (.taskCreate n p)) k'
  | boot {n p : ℕ} {k' : Kernel} {x : Result}
      (h : runSections 2 (k.taskCreate n p) = some (k', x)) : Allots k (.boot (.taskCreate n p)) k'
  | go {x : Rest} {k' : Kernel} (h : k'.allotment = (k.go x).1.allotment) : Allots k .go k'
  | delete {t : TcbPtr} {r : Kernel × Outcome} {k' : Kernel} (hr : k.taskDelete t = some r)
      (h : k'.allotment = r.1.allotment) : Allots k (.call (.taskDelete t)) k'
  | exit {t : TcbPtr} {k' : Kernel} (ht : k.curTcb = some t)
      (h : k'.allotment = (k.taskReturn t).allotment) : Allots k .exit k'

/-- A step of the kernel leaves the allotment alone, or it is a section of `task_create`, a
`task_delete` or the return of a task. -/
theorem exec_allots (h : k.exec a = some (k', d)) : Allots k a k' := by
  have hload : ∀ {k₀ : Kernel}, (k₀.loadHighestTask.map fun k => (k, none)) = some (k', d) →
      k'.allotment = k₀.allotment := by
    intro k₀ h
    obtain ⟨k₁, hk, heq⟩ := Option.map_eq_some_iff.mp h
    obtain ⟨t, -, rfl⟩ := Option.map_eq_some_iff.mp hk
    obtain ⟨rfl, -⟩ := Prod.mk.inj heq
    rfl
  cases a with
  | call c =>
    obtain ⟨cur, -, h⟩ := Option.bind_eq_some_iff.mp h
    split_ifs at h
    obtain ⟨r, henter, hfin⟩ := Option.bind_eq_some_iff.mp h
    have hall := allotment_finish hfin
    by_cases hcreate : ∃ n p, c = .taskCreate n p
    · obtain ⟨n, p, rfl⟩ := hcreate
      obtain rfl := Option.some.inj henter
      exact .create hall
    · by_cases hdelete : ∃ t, c = .taskDelete t
      · obtain ⟨t, rfl⟩ := hdelete
        exact .delete henter hall
      · refine .keeps (hall.trans (allotment_enter (fun n p hc => ?_) (fun t hc => ?_) henter))
        · exact hcreate ⟨n, p, hc⟩
        · exact hdelete ⟨t, hc⟩
  | resume =>
    obtain ⟨cur, -, h⟩ := Option.bind_eq_some_iff.mp h
    split at h
    · obtain ⟨r, hres, hfin⟩ := Option.bind_eq_some_iff.mp h
      exact .keeps ((allotment_finish hfin).trans (allotment_resume hres))
    · exact absurd h (by simp)
  | go =>
    obtain ⟨cur, -, h⟩ := Option.bind_eq_some_iff.mp h
    split at h
    next => exact .go (allotment_finish h)
    next => exact absurd h (by simp)
  | tick =>
    obtain ⟨cur, -, h⟩ := Option.bind_eq_some_iff.mp h
    split_ifs at h
    obtain ⟨k₁, htick, h⟩ := Option.bind_eq_some_iff.mp h
    exact .keeps ((hload h).trans (allotment_tickAnnounce htick))
  | exit =>
    obtain ⟨cur, hcur, h⟩ := Option.bind_eq_some_iff.mp h
    split_ifs at h
    exact .exit hcur (hload h)
  | boot c =>
    rw [exec] at h
    split_ifs at h
    obtain ⟨⟨k₁, x⟩, hboot, heq⟩ := Option.map_eq_some_iff.mp h
    obtain ⟨rfl, -⟩ := Prod.mk.inj heq
    cases c <;> simp only [bootCall, reduceCtorEq] at hboot
    case taskCreate n p => exact .boot hboot
    case semBInit s =>
      obtain ⟨rfl, -⟩ := Prod.mk.inj (Option.some.inj hboot)
      exact .keeps rfl
    case semCInit s initCount maxCount =>
      apply Allots.keeps
      simp only [semCInit] at hboot
      split_ifs at hboot <;>
      · obtain ⟨rfl, -⟩ := Prod.mk.inj (Option.some.inj hboot)
        rfl
    case semMInit m =>
      obtain ⟨rfl, -⟩ := Prod.mk.inj (Option.some.inj hboot)
      exact .keeps rfl
    case msgQInit q maxNum maxLen =>
      apply Allots.keeps
      simp only [msgQInit] at hboot
      split_ifs at hboot <;>
      · obtain ⟨rfl, -⟩ := Prod.mk.inj (Option.some.inj hboot)
        rfl
  | load =>
    rw [exec] at h
    split_ifs at h
    exact .keeps (hload h)

end Kernel

end DfewOS
