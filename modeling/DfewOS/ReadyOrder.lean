import DfewOS.Ahead
import DfewOS.TickSpec

/-!
# The order of the ready lists

A task enters a ready list at its end and leaves it from anywhere. So as long
as `t` stays in its ready list, no operation of the kernel puts a task before
it: each operation is followed here from one list surgery to the next.
-/

namespace DfewOS
open ListHeap (Lists push drop Advances)
open Tasks (Linked)

namespace Tasks

/-- No task has got ahead of `t` in a ready list that `t` is in. -/
def InOrder (t : TcbPtr) (ts ts' : Tasks) : Prop :=
  Advances QueueId.IsReady t ts.members ts'.members

variable {ts ts' ts'' : Tasks} {seq seq' : QueueId → List TcbPtr} {t u : TcbPtr} {l : QueueId}
  {x x' : Option TcbPtr}

namespace InOrder

theorem refl (ts : Tasks) : InOrder t ts ts := Advances.refl _

theorem trans (h : InOrder t ts ts') (h' : InOrder t ts' ts'') : InOrder t ts ts'' :=
  Advances.trans h h'

theorem of_linked (h : Linked ts seq x) (h' : Linked ts' seq' x')
    (ha : Advances QueueId.IsReady t seq seq') : InOrder t ts ts' := by
  rw [InOrder, Kernel.members_of_linked h, Kernel.members_of_linked h']
  exact ha

theorem of_dl (h : ts'.dl = ts.dl) : InOrder t ts ts' := by
  have hmem : ts'.members = ts.members := by
    funext l
    rw [members, members, h]
  rw [InOrder, hmem]
  exact Advances.refl _

theorem readyQPut (h : Linked ts seq (some u)) (hu : ts.live u = true) :
    InOrder t ts (ts.readyQPut u) :=
  of_linked h (h.readyQPut hu) (Advances.push seq _ u)

theorem readyQRemove (h : Linked ts seq none) (hu : ts.live u = true)
    (hs : (ts.tcb u).status = .ready) (hne : u ≠ t) : InOrder t ts (ts.readyQRemove u) :=
  of_linked h (h.readyQRemove hu hs) (Advances.drop seq _ hne)

theorem unlink (h : Linked ts seq none) (h' : Linked ts' (drop seq l u) x') (hl : ¬ l.IsReady) :
    InOrder t ts ts' := of_linked h h' (Advances.update seq hl _)

theorem head (h : InOrder t ts ts') {p : ℕ} (hf : (ts.members (.ready p)).head? = some t) :
    (ts'.members (.ready p)).head? = some t := by
  have hm := List.mem_of_head? hf
  obtain ⟨hm', hsub⟩ := h (.ready p) trivial hm
  rw [(ListHeap.ahead_eq_nil hm).mpr hf] at hsub
  exact (ListHeap.ahead_eq_nil hm').mp (List.sublist_nil.mp hsub)

end InOrder

section Operations

theorem rotate_inOrder (h : Linked ts seq none) (hu : ts.live u = true)
    (hs : (ts.tcb u).status = .ready) (hne : u ≠ t) :
    InOrder t ts ((ts.readyQRemove u).readyQPut u) := by
  have hr := h.readyQRemove hu hs
  have hlive : (ts.readyQRemove u).live u = true := by rw [readyQRemove_live, hu]
  exact (InOrder.readyQRemove h hu hs hne).trans (.readyQPut hr hlive)

theorem pendOn_inOrder (h : Linked ts seq none) (hu : ts.live u = true)
    (hs : (ts.tcb u).status = .ready) (hne : u ≠ t) (hl : ¬ l.IsReady) {ticks : ℕ}
    {status : TaskStatus} {obj : Option ObjPtr}
    (h' : Linked (ts.pendOn l u ticks status obj) seq' none) :
    InOrder t ts (ts.pendOn l u ticks status obj) := by
  have hr := h.readyQRemove hu hs
  have hrange := hr.inRange u (by rw [readyQRemove_live, hu])
  have hset : Linked ((ts.readyQRemove u).setPend u ticks status obj) _ (some u) :=
    hr.setTcb fun _ => ⟨hrange.priority, hrange.origin⟩
  have hd := Dlist.dlistAdd_lists hset.lists l hset.not_mem
  refine (InOrder.readyQRemove h hu hs hne).trans ?_
  rw [InOrder, Kernel.members_of_linked hr, Kernel.members_of_linked h']
  have hmem : seq' = push (drop seq (.ready (ts.tcb u).taskPriority) u) l u := by
    rw [← Kernel.members_of_linked h']
    funext j
    exact Tasks.members_eq hd j
  rw [hmem]
  exact Advances.update _ hl _

theorem wakeFirst_inOrder (h : Linked ts seq none) (hl : ¬ l.IsReady) :
    InOrder t ts (ts.wakeFirst l) := by
  cases hc : seq l with
  | nil =>
    rw [wakeFirst, h.dlistGet_nil hc]
    exact .refl ts
  | cons u rest =>
    have hout := h.dlistGet hl hc
    have hu : (ts.dlistGet l).1.live u = true :=
      h.live_of_mem (show u ∈ seq l by rw [hc]; exact List.mem_cons_self)
    have hdef : ts.wakeFirst l = (ts.dlistGet l).1.readyQPut u := by
      rw [wakeFirst, h.dlistGet_cons hc]
    rw [hdef]
    exact (InOrder.unlink h hout hl).trans (.readyQPut hout hu)

theorem flushed_inOrder (h : Linked ts seq none) (hl : ¬ l.IsReady) {rest : List TcbPtr}
    (hc : seq l = u :: rest) :
    InOrder t ts (((ts.dlistGet l).1.setDelay u 0).readyQPut u) := by
  have hout := h.dlistGet hl hc
  have hu : (ts.dlistGet l).1.live u = true :=
    h.live_of_mem (show u ∈ seq l by rw [hc]; exact List.mem_cons_self)
  have hrange := hout.inRange u hu
  have hset : Linked ((ts.dlistGet l).1.setDelay u 0) _ (some u) :=
    hout.setTcb fun _ => ⟨hrange.priority, hrange.origin⟩
  exact (InOrder.unlink h hset hl).trans (.readyQPut hset hu)

theorem flushAll_inOrder (hl : l.IsOther) {n : ℕ} (h : Linked ts seq none)
    (he : flushAll l n ts = some ts') : InOrder t ts ts' := by
  induction n generalizing ts seq with
  | zero =>
    rw [flushAll] at he
    split_ifs at he
    obtain rfl := Option.some.inj he
    exact .refl ts
  | succ n ih =>
    cases hc : seq l with
    | nil =>
      rw [flushAll, if_pos (by rw [h.lists.head, hc, List.head?_nil])] at he
      obtain rfl := Option.some.inj he
      exact .refl ts
    | cons u rest =>
      have hhead : (ts.dl.list l).head ≠ none := by rw [h.lists.head, hc]; simp
      have hflush : ts.flushFirst l = ((ts.dlistGet l).1.setDelay u 0).readyQPut u := by
        rw [flushFirst, h.dlistGet_cons hc]
      rw [flushAll, if_neg hhead, hflush] at he
      obtain ⟨seq₁, hlink, -⟩ : ∃ seq₁, Linked (((ts.dlistGet l).1.setDelay u 0).readyQPut u)
          seq₁ none ∧ Quiet none (fun _ => False) ts seq _ seq₁ ∧ _ := flushed_moves h hl hc
      exact (flushed_inOrder h hl.not_ready hc).trans (ih hlink he)

theorem popWaiters_inOrder (h : Linked ts seq none) (hl : l.IsOther)
    (hone : (seq l).length ≤ 1) : InOrder t ts (Kernel.popWaiters ts l) := by
  cases hc : seq l with
  | nil =>
    rw [Kernel.popWaiters, h.dlistGet_nil hc]
    exact .refl ts
  | cons u rest =>
    rw [hc, List.length_cons] at hone
    have hrest : rest = [] := List.length_eq_zero_iff.mp (by omega)
    obtain ⟨seq₁, hlink, -, hnil, -⟩ : ∃ seq₁, Linked (((ts.dlistGet l).1.setDelay u 0).readyQPut u)
        seq₁ none ∧ Quiet none (fun _ => False) ts seq _ seq₁ ∧ _ := flushed_moves h hl hc
    have hdef : Kernel.popWaiters ts l =
        ((((ts.dlistGet l).1.setDelay u 0).readyQPut u).dlistGet l).1 := by
      rw [Kernel.popWaiters, h.dlistGet_cons hc]
    rw [hdef, hlink.dlistGet_nil (hnil.trans hrest)]
    exact flushed_inOrder h hl.not_ready hc

end Operations

end Tasks

namespace Kernel
open Tasks (InOrder)

variable {k k' : Kernel} {seq : QueueId → List TcbPtr} {cur t u w : TcbPtr} {m s q : ObjPtr}
  {o : Outcome} {n p timeout : ℕ}

section Calls

theorem delayQDelay_inOrder (h : Linked k.ts seq none) (hl : k.ts.live cur = true)
    (hs : (k.ts.tcb cur).status = .ready) (hne : cur ≠ t) (ticks : ℕ) :
    InOrder t k.ts (k.delayQDelay cur ticks).1.ts := by
  obtain ⟨⟨seq', hlink, -⟩, -⟩ := delayQDelay_calm h hl hs ticks
  rw [delayQDelay] at hlink ⊢
  split_ifs at hlink ⊢
  · exact Tasks.rotate_inOrder h hl hs hne
  · exact Tasks.pendOn_inOrder (l := .delayQ) h hl hs hne (fun hr => hr) hlink

theorem semBTake_inOrder (h : Linked k.ts seq none) (hl : k.ts.live cur = true)
    (hs : (k.ts.tcb cur).status = .ready) (hr : s ∈ k.semBList) (timeout : ℕ)
    (hne : (k.semBTake cur s timeout).2 = .switch → cur ≠ t) :
    InOrder t k.ts (k.semBTake cur s timeout).1.ts := by
  obtain ⟨⟨seq', hlink, -⟩, -⟩ := semBTake_calm h hl hs hr timeout
  rw [semBTake] at hlink hne ⊢
  split_ifs at hlink hne ⊢
  · exact .of_dl rfl
  · exact Tasks.pendOn_inOrder (l := .semB s) h hl hs (hne rfl) (fun hr => hr) hlink
  · exact .refl _

theorem semCTake_inOrder (h : Linked k.ts seq none) (hl : k.ts.live cur = true)
    (hs : (k.ts.tcb cur).status = .ready) (hr : s ∈ k.semCList) (timeout : ℕ)
    (hne : (k.semCTake cur s timeout).2 = .switch → cur ≠ t) :
    InOrder t k.ts (k.semCTake cur s timeout).1.ts := by
  obtain ⟨⟨seq', hlink, -⟩, -⟩ := semCTake_calm h hl hs hr timeout
  simp only [semCTake] at hlink hne ⊢
  split_ifs at hlink hne ⊢
  · exact .of_dl rfl
  · exact Tasks.pendOn_inOrder (l := .semC s) h hl hs (hne rfl) (fun hr => hr) hlink
  · exact .refl _

theorem wakeAfter_inOrder (h : Linked k.ts seq none)
    (hs : (k.ts.tcb cur).status = .ready) {l : QueueId} (hr : ¬ l.IsReady) :
    InOrder t k.ts ((k.ts.setDelay cur 0).wakeFirst l) := by
  have hset : Linked (k.ts.setDelay cur 0) seq none := h.setDelay fun _ hne => absurd hs hne
  exact (InOrder.of_dl rfl).trans (Tasks.wakeFirst_inOrder hset hr)

theorem msgQSend_inOrder (h : Linked k.ts seq none) (hl : k.ts.live cur = true)
    (hs : (k.ts.tcb cur).status = .ready) (hr : q ∈ k.msgQList) (buffer : List UInt8)
    (bufLen timeout : ℕ) (hne : (k.msgQSend cur q buffer bufLen timeout).2 = .switch → cur ≠ t) :
    InOrder t k.ts (k.msgQSend cur q buffer bufLen timeout).1.ts := by
  obtain ⟨⟨seq', hlink, -⟩, -⟩ := msgQSend_calm h hl hs hr buffer bufLen timeout
  simp only [msgQSend] at hlink hne ⊢
  split_ifs at hlink hne ⊢
  · exact wakeAfter_inOrder h hs fun hr => hr
  · exact Tasks.pendOn_inOrder (l := .msgSend q) h hl hs (hne rfl) (fun hr => hr) hlink
  · exact .refl _

theorem msgQReceive_inOrder (h : Linked k.ts seq none) (hl : k.ts.live cur = true)
    (hs : (k.ts.tcb cur).status = .ready) (hr : q ∈ k.msgQList) {buffer : List UInt8}
    {bufLen : ℕ} {r : Kernel × Outcome} (hne : r.2 = .switch → cur ≠ t)
    (he : k.msgQReceive cur q buffer bufLen timeout = some r) : InOrder t k.ts r.1.ts := by
  obtain ⟨⟨seq', hlink, -⟩, -⟩ := msgQReceive_calm h hl hs hr he
  simp only [msgQReceive] at he
  split_ifs at he
  · cases hm : (k.msgQ q).msgList with
    | nil =>
      rw [hm] at he
      exact absurd he (by simp)
    | cons message rest =>
      rw [hm] at he
      obtain rfl := Option.some.inj he
      exact wakeAfter_inOrder h hs fun hr => hr
  · obtain rfl := Option.some.inj he
    exact Tasks.pendOn_inOrder (l := .msgRecv q) h hl hs (hne rfl) (fun hr => hr) hlink
  · obtain rfl := Option.some.inj he
    exact .refl _

theorem semCGive_inOrder (h : Linked k.ts seq none) (s : ObjPtr) :
    InOrder t k.ts (k.semCGive s).1.ts := by
  simp only [semCGive]
  split_ifs
  · exact Tasks.wakeFirst_inOrder h fun hr => hr
  · exact .refl _

theorem semBFlush_inOrder (h : Linked k.ts seq none) (he : k.semBFlush s = some k') :
    InOrder t k.ts k'.ts := by
  obtain ⟨ts', hrun, rfl⟩ := Option.map_eq_some_iff.mp he
  exact Tasks.flushAll_inOrder (l := .semB s) trivial h hrun

theorem semCFlush_inOrder (h : Linked k.ts seq none) (he : k.semCFlush s = some k') :
    InOrder t k.ts k'.ts := by
  obtain ⟨ts', hrun, rfl⟩ := Option.map_eq_some_iff.mp he
  exact Tasks.flushAll_inOrder (l := .semC s) trivial h hrun

theorem dlistInit_inOrder {ts : Tasks} {l : QueueId} (h : Linked ts seq none) (hl : seq l = []) :
    InOrder t ts (ts.dlistInit l) := InOrder.of_linked h (h.dlistInit hl) (Advances.refl _)

theorem semCInit_inOrder (h : Linked k.ts seq none) (hnil : seq (.semC s) = []) (i j : ℕ) :
    InOrder t k.ts (k.semCInit s i j).1.ts := by
  rw [semCInit]
  split_ifs
  · exact .refl _
  · exact dlistInit_inOrder h hnil

theorem msgQInit_inOrder (h : Linked k.ts seq none) (hsend : seq (.msgSend q) = [])
    (hrecv : seq (.msgRecv q) = []) (i j : ℕ) : InOrder t k.ts (k.msgQInit q i j).1.ts := by
  rw [msgQInit]
  split_ifs
  · exact .refl _
  · exact (dlistInit_inOrder h hsend).trans (dlistInit_inOrder (h.dlistInit hsend) hrecv)

theorem msgQDelete_inOrder (h : Linked k.ts seq none) (hsend : (seq (.msgSend q)).length ≤ 1)
    (hrecv : (seq (.msgRecv q)).length ≤ 1) : InOrder t k.ts (k.msgQDelete q).1.ts := by
  have hs : QueueId.IsOther (.msgSend q) := trivial
  have hr : QueueId.IsOther (.msgRecv q) := trivial
  obtain ⟨seq₁, hlink, -, -, hother⟩ : ∃ seq₁, Linked (popWaiters k.ts (.msgSend q)) seq₁ none ∧
      Tasks.Quiet none (fun _ => False) k.ts seq _ seq₁ ∧ _ := Tasks.popWaiters_moves h hs hsend
  have hsame : seq₁ (.msgRecv q) = seq (.msgRecv q) := hother _ hr.not_ready (by simp)
  have hfirst : InOrder t k.ts (popWaiters k.ts (.msgSend q)) :=
    Tasks.popWaiters_inOrder h hs hsend
  have hsecond : InOrder t (popWaiters k.ts (.msgSend q))
      (popWaiters (popWaiters k.ts (.msgSend q)) (.msgRecv q)) := by
    apply Tasks.popWaiters_inOrder hlink hr
    rw [hsame]
    exact hrecv
  exact hfirst.trans hsecond

end Calls

section Mutexes

theorem raise_inOrder (h : Linked k.ts seq none) (hl : k.ts.live u = true)
    (hs : (k.ts.tcb u).status = .ready) (hp : p < priorityNumMax) (hne : u ≠ t) :
    InOrder t k.ts (((k.ts.readyQRemove u).setPriority u p).readyQPut u) := by
  have hr := h.readyQRemove hl hs
  have hlive : (k.ts.readyQRemove u).live u = true := by rw [Tasks.readyQRemove_live, hl]
  have hset : Linked ((k.ts.readyQRemove u).setPriority u p) _ (some u) :=
    hr.setTcb fun hu => ⟨hp, (hr.inRange u hu).origin⟩
  have hput := InOrder.readyQPut (t := t) hset hlive
  have hsame : InOrder t (k.ts.readyQRemove u) ((k.ts.readyQRemove u).setPriority u p) := .of_dl rfl
  exact (InOrder.readyQRemove h hl hs hne).trans (hsame.trans hput)

theorem upOwnerPri_inOrder (h : Linked k.ts seq none)
    (hlive : ∀ m t, (k.semM m).ownerTcb = some t → k.ts.live t = true)
    (hp : (k.ts.tcb w).taskPriority < priorityNumMax) (hs : (k.ts.tcb t).status = .ready)
    (hpri : (k'.ts.tcb t).taskPriority = (k.ts.tcb t).taskPriority)
    (he : upOwnerPri n k w m = some k') : InOrder t k.ts k'.ts := by
  induction n generalizing k seq w m k' with
  | zero => exact absurd he (by simp [upOwnerPri])
  | succ n ih =>
    obtain ⟨o, ho⟩ : ∃ o, (k.semM m).ownerTcb = some o := by
      cases ho : (k.semM m).ownerTcb with
      | none => simp [upOwnerPri, ho] at he
      | some o => exact ⟨o, rfl⟩
    rw [upOwnerPri_succ n k w m ho] at he
    obtain ⟨k₁, hk₁, rfl⟩ := Option.map_eq_some_iff.mp he
    rw [askPri_ts] at hpri ⊢
    split_ifs at hk₁ with hlt
    · cases hst : (k.ts.tcb o).status <;> rw [hst] at hk₁
      case ready =>
        obtain rfl := Option.some.inj hk₁
        refine raise_inOrder h (hlive m o ho) hst hp ?_
        rintro rfl
        have hset : ((((k.ts.readyQRemove o).setPriority o
            (k.ts.tcb w).taskPriority).readyQPut o).tcb o).taskPriority =
            (k.ts.tcb w).taskPriority := by
          rw [Tasks.readyQPut_priority]
          simp [Tasks.setPriority, Tasks.setTcb]
        rw [← hpri, hset] at hlt
        exact absurd hlt (lt_irrefl _)
      case pendSemM =>
        obtain ⟨m', -, hrun⟩ := Option.bind_eq_some_iff.mp hk₁
        have hne : t ≠ o := by
          rintro rfl
          rw [hs] at hst
          exact absurd hst (by decide)
        have hkeep : (k.ts.setPriority o (k.ts.tcb w).taskPriority).tcb t = k.ts.tcb t := by
          simp [Tasks.setPriority, Tasks.setTcb, hne]
        have hlink : Linked (Kernel.ts { k with ts := k.ts.setPriority o (k.ts.tcb w).taskPriority })
            seq none := h.setPriority (show (k.ts.tcb o).status ≠ .ready by simp [hst]) hp
        have hpo : ((k.ts.setPriority o (k.ts.tcb w).taskPriority).tcb o).taskPriority =
            (k.ts.tcb w).taskPriority := by
          simp [Tasks.setPriority, Tasks.setTcb]
        have hrest := ih hlink hlive (by rw [hpo]; exact hp) (by rw [hkeep]; exact hs)
          (by rw [hkeep]; exact hpri) hrun
        exact (InOrder.of_dl rfl).trans hrest
      all_goals
        obtain rfl := Option.some.inj hk₁
        exact .of_dl rfl
    · obtain rfl := Option.some.inj hk₁
      exact .refl _

theorem sortPend_inOrder {ts ts' : Tasks} (h : Linked ts seq none) (hl : ts.live cur = true)
    (hs : (ts.tcb cur).status = .ready) (htime : timeout ≠ 0) (hne : cur ≠ t)
    (he : ((ts.readyQRemove cur).setPend cur timeout .pendSemM (some m)).sortPriPut (.semM m) cur =
      some ts') : InOrder t ts ts' ∧ (ts'.tcb t).taskPriority = (ts.tcb t).taskPriority := by
  have hr := h.readyQRemove hl hs
  have hl' : (ts.readyQRemove cur).live cur = true := by rw [Tasks.readyQRemove_live, hl]
  have hrange := hr.inRange cur hl'
  have hset : Linked ((ts.readyQRemove cur).setPend cur timeout .pendSemM (some m)) _ (some cur) :=
    hr.setTcb fun _ => ⟨hrange.priority, hrange.origin⟩
  have htcb := Tasks.setPend_tcb (ts.readyQRemove cur) cur timeout .pendSemM (some m)
  have hready : ¬ (QueueId.semM m).IsReady := fun hr => hr
  obtain ⟨ts₁, xs, ys, hrun, -, hlink, htcb₁, -, -⟩ := sortPriPut_linked hset hl' hready
    (by rw [htcb]; rfl) (by
      refine ⟨by rw [htcb]; simp [OsTcb.home], fun hc => ?_, fun _ => by rw [htcb]; exact htime⟩
      rw [htcb] at hc
      exact absurd hc (by simp))
  obtain rfl := Option.some.inj (hrun.symm.trans he)
  have hput : InOrder t ((ts.readyQRemove cur).setPend cur timeout .pendSemM (some m)) ts₁ :=
    .of_linked hset hlink (Advances.update _ hready _)
  have hsame : InOrder t (ts.readyQRemove cur)
      ((ts.readyQRemove cur).setPend cur timeout .pendSemM (some m)) := .of_dl rfl
  refine ⟨(InOrder.readyQRemove h hl hs hne).trans (hsame.trans hput), ?_⟩
  rw [htcb₁]
  simp [Tasks.setPend, Tasks.setTcb, hne.symm, Tasks.readyQRemove_tcb]

theorem semMTake_inOrder (h : k.Core) (hl : k.ts.live cur = true)
    (hcur : (k.ts.tcb cur).status = .ready) (hs : (k.ts.tcb t).status = .ready)
    (hpri : (k'.ts.tcb t).taskPriority = (k.ts.tcb t).taskPriority)
    (hne : o = .switch → cur ≠ t) (he : k.semMTake cur m timeout = some (k', o)) :
    InOrder t k.ts k'.ts := by
  rw [semMTake] at he
  split_ifs at he with hnone hown htime
  · obtain ⟨rfl, -⟩ := Prod.mk.inj (Option.some.inj he)
    exact .refl _
  · obtain ⟨rfl, -⟩ := Prod.mk.inj (Option.some.inj he)
    exact .refl _
  · obtain ⟨k₁, hup, he⟩ := Option.bind_eq_some_iff.mp he
    obtain ⟨ts', hput, he⟩ := Option.bind_eq_some_iff.mp he
    obtain ⟨rfl, rfl⟩ := Prod.mk.inj (Option.some.inj he)
    have hp := (h.linked.inRange cur hl).priority
    obtain ⟨k₂, seq₁, hrun, hlink₁, hlift, -⟩ :=
      upOwnerPri_boosts h.linked h.owner h.waited hnone hp (k.lessUrgent_card _)
    obtain rfl := Option.some.inj (hrun.symm.trans hup)
    have hl₁ : k₂.ts.live cur = true := by rw [hlift.live, hl]
    have hs₁ : (k₂.ts.tcb cur).status = .ready := by rw [hlift.tcb cur]; exact hcur
    obtain ⟨hsort, hsame⟩ := sortPend_inOrder hlink₁ hl₁ hs₁ htime (hne rfl) hput
    have hboost := upOwnerPri_inOrder h.linked h.owner hp hs (hsame.symm.trans hpri) hup
    exact hboost.trans hsort
  · obtain ⟨rfl, -⟩ := Prod.mk.inj (Option.some.inj he)
    exact .refl _

theorem lowerMyself_inOrder (h : Linked k.ts seq none) (hl : k.ts.live cur = true)
    (hs : (k.ts.tcb cur).status = .ready) (hne : (k.lowerMyself cur).2 = .switch → cur ≠ t) :
    InOrder t k.ts (k.lowerMyself cur).1.ts := by
  simp only [lowerMyself] at hne ⊢
  split_ifs at hne ⊢
  · have hp : min (k.getHighestWaitPri cur) (k.ts.tcb cur).originPri < priorityNumMax :=
      lt_of_le_of_lt (min_le_right _ _) (h.inRange cur hl).origin
    exact raise_inOrder h hl hs hp (hne rfl)
  · exact .refl _

theorem semMGive_inOrder (h : Linked k.ts seq none) (hl : k.ts.live cur = true)
    (hs : (k.ts.tcb cur).status = .ready) (hne : (k.semMGive cur m).2 = .switch → cur ≠ t) :
    InOrder t k.ts (k.semMGive cur m).1.ts := by
  have hready : ¬ (QueueId.semM m).IsReady := fun hr => hr
  obtain ⟨k₁, hk₁⟩ : ∃ k₁, k₁ =
      k.setSemM m { k.semM m with takeCount := dec32 (k.semM m).takeCount } := ⟨_, rfl⟩
  have hts : k₁.ts = k.ts := by rw [hk₁]; rfl
  simp only [semMGive, ← hk₁] at hne ⊢
  split_ifs at hne ⊢
  · exact .of_dl (by rw [hts])
  · cases hc : seq (.semM m) with
    | nil =>
      rw [hts, h.dlistGet_nil hc] at hne ⊢
      simp only at hne ⊢
      generalize hk₂ : (setSemM _ m _ : Kernel) = k₂ at hne ⊢
      have hts₂ : k₂.ts = k.ts := by rw [← hk₂]; rfl
      rw [← hts₂] at h hl hs ⊢
      exact lowerMyself_inOrder h hl hs hne
    | cons x rest =>
      have hx : x ∈ seq (.semM m) := by rw [hc]; exact List.mem_cons_self
      have hxc : x ≠ cur := by
        rintro rfl
        exact hready ((OsTcb.status_of_home (h.home_of_mem hx)).mp hs)
      have hget := h.dlistGet hready hc
      have hxl : (k.ts.dlistGet (.semM m)).1.live x = true := h.live_of_mem hx
      have hput := hget.readyQPut hxl
      rw [hts, h.dlistGet_cons hc] at hne ⊢
      simp only at hne ⊢
      generalize hk₂ : (updateWaitPri _ m : Kernel) = k₂ at hne ⊢
      have hts₂ : k₂.ts = (k.ts.dlistGet (.semM m)).1.readyQPut x := by
        rw [← hk₂, updateWaitPri]
        split <;> rfl
      rw [← hts₂] at hput
      have hcur : k₂.ts.tcb cur = k.ts.tcb cur := by
        rw [hts₂, Tasks.readyQPut_tcb, Function.update_of_ne hxc.symm]
        rfl
      have hfirst : InOrder t k.ts k₂.ts := by
        rw [hts₂]
        exact (InOrder.unlink h hget hready).trans (InOrder.readyQPut hget hxl)
      have hl₂ : k₂.ts.live cur = true := by rw [hts₂]; exact hl
      exact hfirst.trans (lowerMyself_inOrder hput hl₂ (by rw [hcur]; exact hs) hne)

end Mutexes

section TaskCalls

theorem unlinkTask_drop (h : Linked k.ts k.ts.members none) (hl : k.ts.live u = true) :
    ∃ k' l, k.unlinkTask u = some k' ∧ Linked k'.ts (drop k.ts.members l u) (some u) := by
  obtain ⟨l, hh⟩ := Option.ne_none_iff_exists'.mp (h.placed u hl (by simp)).home
  have hhome := hh
  rw [OsTcb.home] at hh
  cases hs : (k.ts.tcb u).status <;> rw [hs] at hh
  case ready => exact ⟨_, _, by rw [unlinkTask, hs], (unlinks_ready h hl hs).linked⟩
  case delay =>
    obtain rfl := Option.some.inj hh
    exact ⟨_, _, by rw [unlinkTask, hs],
      (unlinks_other h hl hhome (fun hr => hr) fun hm => hm).linked⟩
  case pendSemM =>
    obtain ⟨o, ho, rfl⟩ := Option.map_eq_some_iff.mp hh
    exact ⟨_, _, by rw [unlinkTask, hs, ho]; rfl, (unlinks_semM h hl hhome).linked⟩
  all_goals
    obtain ⟨o, ho, rfl⟩ := Option.map_eq_some_iff.mp hh
    exact ⟨_, _, by rw [unlinkTask, hs, ho]; rfl,
      (unlinks_other h hl hhome (fun hr => hr) fun hm => hm).linked⟩

theorem taskDelete_inOrder (h : k.Core) (hl : k.ts.live u = true) (hne : u ≠ t)
    (hfree : ∀ m, (k.semM m).ownerTcb = some u → k.ts.members (.semM m) = [])
    (he : k.taskDelete u = some (k', o)) : InOrder t k.ts k'.ts := by
  obtain ⟨k₁, l, hrun, hlink⟩ := unlinkTask_drop h.linked hl
  obtain ⟨k₂, seq₂, hrun₂, hun⟩ := unlinkTask_unlinks h.linked hl
  obtain rfl := Option.some.inj (hrun.symm.trans hrun₂)
  have hnil : ∀ m, (k₁.semM m).ownerTcb = some u → (k₁.ts.dl.list (.semM m)).head = none := by
    intro m ho
    have hready : ¬ (QueueId.semM m).IsReady := fun hr => hr
    have hown : (k₁.semM m).ownerTcb = (k.semM m).ownerTcb := by
      rw [hun.semM m]
      split_ifs <;> rfl
    rw [hown] at ho
    rw [hun.linked.lists.head, hun.lists _ hready, hfree m ho]
    rfl
  have hfreed : k₁.semMFree u = { k₁ with semM := freed u k₁.semMList k₁.semM } :=
    foldl_freeSemM k₁.semMList hnil
  rw [taskDelete, hrun] at he
  obtain ⟨rfl, -⟩ := Prod.mk.inj (Option.some.inj he)
  have hkill := hlink.kill
  have hts : (k₁.semMFree u).ts = k₁.ts := by rw [hfreed]
  have hsame : kill (((k₁.semMFree u).releaseStack u).releaseTcb u).ts u = kill k₁.ts u := by
    simp only [releaseTcb, releaseStack, hts]
  rw [hsame]
  exact .of_linked h.linked hkill (Advances.drop _ _ hne)

theorem taskReturn_inOrder (h : k.Core) (hl : k.ts.live cur = true)
    (hs : (k.ts.tcb cur).status = .ready) (hne : cur ≠ t) :
    InOrder t k.ts (k.taskReturn cur).ts := by
  have hkill := (h.linked.readyQRemove hl hs).kill
  exact .of_linked h.linked hkill (Advances.drop _ _ hne)

theorem taskCreateLink_inOrder (h : k.Core) (hl : k.ts.live u = false)
    (hr : (k.ts.tcb u).InRange) : InOrder t k.ts (k.taskCreateLink u).1.ts := by
  have hput := (h.linked.birth hl hr).readyQPut (by simp)
  exact .of_linked h.linked hput (Advances.push _ _ u)

end TaskCalls

section Ticks

variable {ts ts' ts'' : Tasks} {l : QueueId}

/-- The lists are linked in the end, and nobody has got ahead of any task. -/
structure TurnsKept (ts ts' : Tasks) : Prop where
  linked : ∃ seq, Linked ts' seq none
  order : ∀ t, InOrder t ts ts'

theorem TurnsKept.trans (h : TurnsKept ts ts') (h' : TurnsKept ts' ts'') : TurnsKept ts ts'' :=
  ⟨h'.linked, fun t => (h.order t).trans (h'.order t)⟩

theorem expire_inOrder (h : Linked ts seq none) (hu : u ∈ seq l) (hl : ¬ l.IsReady) :
    InOrder t ts (((ts.setDelay u 0).dlistRemove l u).readyQPut u) := by
  have hout := h.dlistRemove hu hl
  have hlive : (ts.dlistRemove l u).live u = true := h.live_of_mem hu
  have hrange := hout.inRange u hlive
  have hset : Linked ((ts.setDelay u 0).dlistRemove l u) _ (some u) :=
    hout.setTcb (v := { ts.tcb u with delayTicks := 0 }) fun _ => ⟨hrange.priority, hrange.origin⟩
  exact (InOrder.unlink h hset hl).trans (.readyQPut hset hlive)

theorem walk_inOrder (dec : ℕ → ℕ) (hl : ¬ l.IsReady) {pr ys : List TcbPtr}
    (h : Linked ts seq none) (hs : seq l = pr ++ ys)
    (he : Dlist.eachFrom (fun ts t => ts.dl.node t) (countDown dec l) n ts ys.head? = some ts') :
    InOrder t ts ts' := by
  induction ys generalizing ts pr n with
  | nil =>
    have hend : some ts = some ts' := by
      rw [← he]
      cases n <;> rfl
    obtain rfl := Option.some.inj hend
    exact .refl ts
  | cons u ys ih =>
    have hu : u ∈ seq l := by rw [hs]; simp
    cases n with
    | zero => exact absurd he (by simp [Dlist.eachFrom])
    | succ n =>
      by_cases hz : dec (ts.tcb u).delayTicks = 0
      · obtain ⟨-, -, hnext⟩ := expire_linked h hu hl
        rw [List.head?_cons, Dlist.eachFrom, countDown_expires hz] at he
        simp only [↓reduceIte, hnext] at he
        have hend : some (((ts.setDelay u 0).dlistRemove l u).readyQPut u) = some ts' := by
          rw [← he]
          cases n <;> rfl
        obtain rfl := Option.some.inj hend
        exact expire_inOrder h hu hl
      · have hset : Linked (ts.setDelay u (dec (ts.tcb u).delayTicks)) seq none :=
          h.setDelay fun _ _ => hz
        have hnext : ((ts.setDelay u (dec (ts.tcb u).delayTicks)).dl.node u).next = ys.head? :=
          h.lists.next_of_split hs
        rw [List.head?_cons, Dlist.eachFrom, countDown_stays hz] at he
        simp only [↓reduceIte, hnext] at he
        have hrest := ih hset (show seq l = (pr ++ [u]) ++ ys by simp [hs]) he
        have hsame : InOrder t ts (ts.setDelay u (dec (ts.tcb u).delayTicks)) := .of_dl rfl
        exact hsame.trans hrest

theorem dlistEach_turnsKept (h : Linked ts seq none) (hl : ¬ l.IsReady)
    (he : dlistEach l (countDown (decOf l) l) ts = some ts') : TurnsKept ts ts' := by
  obtain ⟨ts₁, seq₁, hrun, hlink, -⟩ := dlistEach_ticked h hl
  obtain rfl := Option.some.inj (hrun.symm.trans he)
  refine ⟨⟨seq₁, hlink⟩, fun t => ?_⟩
  rw [dlistEach, h.lists.head] at he
  exact walk_inOrder (decOf l) hl h (List.nil_append _).symm he

theorem updateWaitList_turnsKept (h : Linked ts seq none) (hl : ¬ l.IsReady) (hd : l ≠ .delayQ)
    (he : updateWaitList ts l = some ts') : TurnsKept ts ts' := by
  have hdec : decOf l = decWait := by
    cases l <;> first | rfl | exact absurd rfl hd
  rw [updateWaitList, waitToReady_eq, ← hdec] at he
  exact dlistEach_turnsKept h hl he

theorem foldlM_turnsKept {visit : Tasks → ObjPtr → Option Tasks}
    (hvisit : ∀ ts seq o ts', Linked ts seq none → visit ts o = some ts' → TurnsKept ts ts')
    {os : List ObjPtr} (h : Linked ts seq none) (he : os.foldlM visit ts = some ts') :
    TurnsKept ts ts' := by
  induction os generalizing ts seq with
  | nil =>
    obtain rfl := Option.some.inj he
    exact ⟨⟨seq, h⟩, fun t => .refl ts⟩
  | cons o os ih =>
    rw [List.foldlM_cons] at he
    obtain ⟨ts₁, hrun, he⟩ := Option.bind_eq_some_iff.mp he
    have hfirst := hvisit ts seq o ts₁ h hrun
    obtain ⟨seq₁, hlink⟩ := hfirst.linked
    exact hfirst.trans (ih hlink he)

theorem tickAnnounce_turnsKept (h : k.Core) (hs : (k.ts.tcb cur).status = .ready)
    (he : k.tickAnnounce cur = some k') :
    ∃ ts', TurnsKept k.ts ts' ∧ ts'.live = k.ts.live ∧ ts'.tcb cur = k.ts.tcb cur ∧
      k'.ts = (ts'.readyQRemove cur).readyQPut cur := by
  obtain ⟨ts₁, ts₂, ts₃, ts₄, ts', seq', hrun₁, hrun₂, hrun₃, hrun₄, hrun', -, ht⟩ :=
    lists_ticked h.objects h.linked
  have hfirst : TurnsKept k.ts ts₁ := foldlM_turnsKept
    (fun _ _ s _ h he => updateWaitList_turnsKept (l := .semB s) h (fun hr => hr) (by simp) he)
    h.linked hrun₁
  obtain ⟨seq₁, h₁⟩ := hfirst.linked
  have hsecond : TurnsKept ts₁ ts₂ := foldlM_turnsKept
    (fun _ _ s _ h he => updateWaitList_turnsKept (l := .semC s) h (fun hr => hr) (by simp) he)
    h₁ hrun₂
  obtain ⟨seq₂, h₂⟩ := hsecond.linked
  have hthird : TurnsKept ts₂ ts₃ := foldlM_turnsKept
    (fun _ _ m _ h he => updateWaitList_turnsKept (l := .semM m) h (fun hr => hr) (by simp) he)
    h₂ hrun₃
  obtain ⟨seq₃, h₃⟩ := hthird.linked
  have hfourth : TurnsKept ts₃ ts₄ := foldlM_turnsKept (fun ts seq q ts' h he => by
    obtain ⟨ts₁, hsend, hrecv⟩ := Option.bind_eq_some_iff.mp he
    have hone : TurnsKept ts ts₁ :=
      updateWaitList_turnsKept (l := .msgSend q) h (fun hr => hr) (by simp) hsend
    obtain ⟨seq₁, h₁⟩ := hone.linked
    exact hone.trans
      (updateWaitList_turnsKept (l := .msgRecv q) h₁ (fun hr => hr) (by simp) hrecv)) h₃ hrun₄
  obtain ⟨seq₄, h₄⟩ := hfourth.linked
  have hlast : TurnsKept ts₄ ts' := dlistEach_turnsKept (l := .delayQ) h₄ (fun hr => hr) hrun'
  refine ⟨ts', (((hfirst.trans hsecond).trans hthird).trans hfourth).trans hlast, ht.live, ?_, ?_⟩
  · apply ht.kept
    intro l hv hm
    exact ((k.mem_visited l).mp hv).1 ((OsTcb.status_of_home (h.linked.home_of_mem hm)).mp hs)
  · simp only [tickAnnounce, hrun₁, hrun₂, hrun₃, hrun₄, hrun', Option.bind_eq_bind,
      Option.bind_some, Option.some.injEq] at he
    rw [← he]

end Ticks

end Kernel

end DfewOS
