import DfewOS.Deletion

/-!
# Deleting a message queue

`msgQ_delete` frees every message, but it asks for a waiting task once where the flush of a
semaphore asks in a loop, and takes one more out of the list after that.
-/

namespace DfewOS
open ListHeap (Heap Lists)
open Dlist (OsStatus)
open Tasks (Linked)

section Messages
variable {ι α : Type*} [DecidableEq ι] [DecidableEq α]

/-- The loop that frees the messages: what is left, and the nodes in the order of their
`free`. The fuel is the number of calls of `dlist_get`. -/
def freeMessages (h : Heap ι α) (msgList : ι) : ℕ → Option (Heap ι α × List α)
  | 0 => none
  | n + 1 =>
      match Dlist.dlistGet h msgList with
      | (h, none) => some (h, [])
      | (h, some pMsgNode) =>
          (freeMessages h msgList n).map fun r => (r.1, pMsgNode :: r.2)

theorem freeMessages_spec {h : Heap ι α} {seq : ι → List α} (hl : Lists h seq) {l : ι} {n : ℕ}
    (hn : (seq l).length < n) :
    ∃ h', freeMessages h l n = some (h', seq l) ∧ Lists h' (Function.update seq l []) := by
  generalize hxs : seq l = xs at hn
  induction xs generalizing h seq n with
  | nil =>
    obtain ⟨n, rfl⟩ := Nat.exists_eq_succ_of_ne_zero (Nat.ne_of_gt hn)
    refine ⟨h, ?_, ?_⟩
    · rw [freeMessages, Dlist.dlistGet_nil hl hxs]
    · rwa [← hxs, Function.update_eq_self]
  | cons x xs ih =>
    obtain ⟨n, rfl⟩ := Nat.exists_eq_succ_of_ne_zero (Nat.ne_of_gt (Nat.zero_lt_of_lt hn))
    obtain ⟨hsome, hrest⟩ := Dlist.dlistGet_cons hl hxs
    obtain ⟨h', hrun, hl'⟩ :=
      ih hrest (Function.update_self l xs seq) (Nat.lt_of_succ_lt_succ hn)
    have hget : Dlist.dlistGet h l = ((Dlist.dlistGet h l).1, some x) := Prod.ext rfl hsome
    refine ⟨h', ?_, by rwa [Function.update_idem] at hl'⟩
    rw [freeMessages, hget]
    simp only [hrun, Option.map_some]

end Messages

namespace Kernel

/-- Every waiter is ready in its ready list and will return with an error, nobody is linked
to the queue, its messages are gone, and it is not listed. -/
structure ReleasesAll (k : Kernel) (q : ObjPtr) (k' : Kernel) : Prop where
  ready : ∀ t, t ∈ k.ts.members (.msgSend q) ∨ t ∈ k.ts.members (.msgRecv q) →
    (k'.ts.tcb t).status = .ready ∧ (k'.ts.tcb t).delayTicks = 0 ∧
      t ∈ k'.ts.members (.ready (k'.ts.tcb t).taskPriority)
  send : ∀ t ∈ k.ts.members (.msgSend q), ∀ buffer bufLen,
    k'.msgQSendResume t q buffer bufLen = (k', .ret (.status .error))
  recv : ∀ t ∈ k.ts.members (.msgRecv q), ∀ buffer bufLen,
    k'.msgQReceiveResume t q buffer bufLen = some (k', .ret (.received .error buffer))
  unlinked : k'.ts.members (.msgSend q) = [] ∧ k'.ts.members (.msgRecv q) = []
  messages : (k'.msgQ q).msgList = []
  unlisted : q ∉ k'.msgQList

variable {k : Kernel} {q : ObjPtr} {t p : TcbPtr} {rest : List TcbPtr}

theorem msgQDelete_ts (k : Kernel) (q : ObjPtr) :
    (k.msgQDelete q).1.ts = popWaiters (popWaiters k.ts (.msgSend q)) (.msgRecv q) := rfl

theorem releasesAll_of_one (h : Linked k.ts k.ts.members none) (hlist : k.msgQList.Nodup)
    (hsend : (k.ts.members (.msgSend q)).length ≤ 1)
    (hrecv : (k.ts.members (.msgRecv q)).length ≤ 1) :
    ReleasesAll k q (k.msgQDelete q).1 := by
  have hmoves : ∃ seq', Linked (k.msgQDelete q).1.ts seq' none ∧
      Tasks.Quiet none (fun _ => True) k.ts k.ts.members (k.msgQDelete q).1.ts seq' ∧
      seq' (.msgSend q) = [] ∧ seq' (.msgRecv q) = [] := msgQDelete_moves h hsend hrecv
  obtain ⟨seq', hlink, hq, hsend', hrecv'⟩ := hmoves
  have honly : ∀ xs : List TcbPtr, xs.length ≤ 1 → ∀ t ∈ xs, xs = [t] := by
    intro xs hlen t ht
    cases xs with
    | nil => cases ht
    | cons x xs =>
      rw [List.length_cons] at hlen
      rw [List.length_eq_zero_iff.mp (Nat.le_zero.mp (Nat.le_of_succ_le_succ hlen))] at ht ⊢
      rw [List.mem_singleton.mp ht]
  have hone : ∀ t, t ∈ k.ts.members (.msgSend q) ∨ t ∈ k.ts.members (.msgRecv q) →
      k.ts.members (.msgSend q) = [t] ∨ k.ts.members (.msgRecv q) = [t] := fun t ht =>
    ht.imp (honly _ hsend t) (honly _ hrecv t)
  have hfreed : ∀ t, t ∈ k.ts.members (.msgSend q) ∨ t ∈ k.ts.members (.msgRecv q) →
      ((k.msgQDelete q).1.ts.tcb t).status = .ready ∧
        ((k.msgQDelete q).1.ts.tcb t).delayTicks = 0 := fun t ht =>
    msgQDelete_only h hsend (hone t ht)
  have hmembers := members_of_linked hlink
  refine ⟨fun t ht => ?_, fun t ht buffer bufLen => ?_, fun t ht buffer bufLen => ?_, ?_, ?_, ?_⟩
  · obtain ⟨hstatus, hdelay⟩ := hfreed t ht
    have hlive : (k.msgQDelete q).1.ts.live t = true := by
      rw [hq.live]
      exact ht.elim h.live_of_mem h.live_of_mem
    refine ⟨hstatus, hdelay, ?_⟩
    rw [hmembers]
    exact hlink.mem_ready hlive hstatus
  · rw [msgQSendResume, if_neg (not_not.mpr (hfreed t (Or.inl ht)).2)]
  · rw [msgQReceiveResume, if_neg (not_not.mpr (hfreed t (Or.inr ht)).2)]
  · rw [hmembers]
    exact ⟨hsend', hrecv'⟩
  · simp [msgQDelete, setMsgQ]
  · exact hlist.not_mem_erase

theorem second_not_ready (h : Linked k.ts k.ts.members none)
    (ht : k.ts.members (.msgSend q) = p :: t :: rest ∨
      (k.ts.members (.msgSend q)).length ≤ 1 ∧ k.ts.members (.msgRecv q) = p :: t :: rest) :
    ((k.msgQDelete q).1.ts.tcb t).status ≠ .ready := by
  have hs : QueueId.IsOther (.msgSend q) := trivial
  have hwaits : ∀ {l : QueueId}, l.IsOther → k.ts.members l = p :: t :: rest →
      (k.ts.tcb t).status ≠ .ready ∧ (k.ts.members l).head? ≠ some t := by
    intro l hl hc
    have hm : t ∈ k.ts.members l := by rw [hc]; simp
    have hnodup := h.lists.nodup l
    rw [hc, List.nodup_cons] at hnodup
    refine ⟨mt (OsTcb.status_of_home (h.home_of_mem hm)).mp hl.not_ready, fun hh => ?_⟩
    rw [hc, List.head?_cons] at hh
    exact hnodup.1 (by rw [Option.some.inj hh]; exact List.mem_cons_self)
  rw [msgQDelete_ts]
  rcases ht with hc | ⟨hone, hc⟩
  · -- `t` is taken out of its list and is in no list when the receivers are asked
    obtain ⟨hstatus, hhead⟩ := hwaits hs hc
    have hfirst := popWaiters_tcb_of_ne h hhead
    obtain ⟨seq', hlink, hrest⟩ : ∃ seq',
        Linked (((k.ts.dlistGet (.msgSend q)).1.setDelay p 0).readyQPut p) seq' none ∧
          seq' (.msgSend q) = t :: rest := by
      have hmoves := @Tasks.flushed_moves none (fun _ => True) k.ts k.ts.members p (.msgSend q)
      obtain ⟨seq', hlink, -, hrest, -⟩ := hmoves h hs hc
      exact ⟨seq', hlink, hrest⟩
    have hpop : popWaiters k.ts (.msgSend q) =
        ((((k.ts.dlistGet (.msgSend q)).1.setDelay p 0).readyQPut p).dlistGet (.msgSend q)).1 := by
      rw [popWaiters, h.dlistGet_cons hc]
    have hlink' := hlink.dlistGet hs.not_ready hrest
    rw [← hpop] at hlink'
    rw [popWaiters_tcb_of_ne hlink' fun hh => hlink'.not_mem _ (List.mem_of_head? hh), hfirst]
    exact hstatus
  · obtain ⟨hstatus, hhead⟩ := hwaits (show QueueId.IsOther (.msgRecv q) from trivial) hc
    have hmoves := @Tasks.popWaiters_moves none (fun _ => True) k.ts k.ts.members (.msgSend q)
    obtain ⟨seq', hlink, -, -, hother⟩ := hmoves h hs hone
    have hsame : seq' (.msgRecv q) = k.ts.members (.msgRecv q) :=
      hother _ (fun hr => hr) (by simp)
    have hnot : (k.ts.members (.msgSend q)).head? ≠ some t := by
      intro hh
      have hm : t ∈ k.ts.members (.msgRecv q) := by rw [hc]; simp
      exact absurd (h.lists.disjoint _ _ t (List.mem_of_head? hh) hm) (by simp)
    rw [popWaiters_tcb_of_ne hlink (by rw [hsame]; exact hhead), popWaiters_tcb_of_ne h hnot]
    exact hstatus

end Kernel

open Transition (Reachable)
open Kernel

/-- The messages are freed, each once. The waiting tasks are all released if and only if there
is at most one in each list. -/
theorem msgQ_delete {k : Kernel} {q : ObjPtr} (h : Linked k.ts k.ts.members none)
    (hlist : k.msgQList.Nodup) {N : Type} [DecidableEq N] {msgs : Heap ObjPtr N}
    {nodes : ObjPtr → List N} (hmsgs : Lists msgs nodes) {contents : N → List UInt8}
    (hcontents : (nodes q).map contents = (k.msgQ q).msgList) :
    (∀ n, (nodes q).length < n → ∃ msgs' freed, freeMessages msgs q n = some (msgs', freed) ∧
      freed.Nodup ∧ freed.map contents = (k.msgQ q).msgList ∧
      Lists msgs' (Function.update nodes q [])) ∧
    (ReleasesAll k q (k.msgQDelete q).1 ↔
      (k.ts.members (.msgSend q)).length ≤ 1 ∧ (k.ts.members (.msgRecv q)).length ≤ 1) := by
  refine ⟨fun n hn => ?_, fun hall => ?_, fun hone => releasesAll_of_one h hlist hone.1 hone.2⟩
  · obtain ⟨msgs', hrun, hl⟩ := freeMessages_spec hmsgs hn
    exact ⟨msgs', nodes q, hrun, hmsgs.nodup q, hcontents, hl⟩
  · have hsplit : ∀ xs : List TcbPtr, xs.length ≤ 1 ∨ ∃ p t rest, xs = p :: t :: rest := by
      rintro (_ | ⟨p, _ | ⟨t, rest⟩⟩)
      · exact Or.inl (Nat.zero_le 1)
      · exact Or.inl (Nat.le_refl 1)
      · exact Or.inr ⟨p, t, rest, rfl⟩
    have hsend : (k.ts.members (.msgSend q)).length ≤ 1 := by
      refine (hsplit _).resolve_right ?_
      rintro ⟨p, t, rest, hc⟩
      exact second_not_ready h (Or.inl hc) (hall.ready t (Or.inl (by rw [hc]; simp))).1
    refine ⟨hsend, (hsplit _).resolve_right ?_⟩
    rintro ⟨p, t, rest, hc⟩
    exact second_not_ready h (Or.inr ⟨hsend, hc⟩) (hall.ready t (Or.inr (by rw [hc]; simp))).1

/-- Task 1 waits to send behind its own message. -/
theorem msgQ_delete_sender : ∃ k, Reachable system Safe k ∧ k.ts.members (.msgSend 0) = [1] ∧
    (k.msgQ 0).msgList = [[7]] ∧ ReleasesAll k 0 (k.msgQDelete 0).1 := by
  obtain ⟨⟨es, k⟩, hk, hfact⟩ := Option.map_eq_some_iff.mp (show
    (replay (fun _ e => e.act.isPlain) .initial
      [.boot (.msgQInit 0 1 4), .boot (.taskCreate 1024 3), .load, .call (.msgQSend 0 [7] 1 9),
        .call (.msgQSend 0 [8] 1 9)]).map
      (fun s => (s.2.ts.members (.msgSend 0), s.2.ts.members (.msgRecv 0),
        (s.2.msgQ 0).msgList)) = some ([1], [], [[7]]) by decide)
  simp only [Prod.mk.injEq] at hfact
  obtain ⟨hsend, hrecv, hmsg⟩ := hfact
  have hreach : Reachable system Safe k :=
    replay_reachable (fun k e he => Act.safe_of_isPlain he) hk
  have hinv := reachable_inv hreach
  have hempty : Lists (⟨fun _ => ⟨none, none⟩, fun _ => ⟨none, none⟩⟩ : Heap ObjPtr ℕ)
      fun _ => [] :=
    ⟨fun _ => rfl, fun _ => rfl, fun _ => trivial, fun _ => List.nodup_nil,
      fun _ _ _ h => absurd h List.not_mem_nil⟩
  have hnodes := Dlist.dlistAdd_lists hempty 0 (x := 5) (fun _ => List.not_mem_nil)
  have hcontents : (ListHeap.push (fun _ => []) 0 5 0).map (fun _ => [7]) =
      (k.msgQ 0).msgList := by
    rw [hmsg]
    rfl
  refine ⟨k, hreach, hsend, hmsg,
    (msgQ_delete hinv.linked hinv.objects.msgQ hnodes hcontents).2.mpr ⟨?_, ?_⟩⟩
  · rw [hsend]
    exact Nat.le_refl 1
  · rw [hrecv]
    exact Nat.zero_le 1

/-- Of two receivers the second one is neither ready nor linked to the queue. -/
theorem second_receiver_lost : ∃ k, Reachable system Safe k ∧ 0 ∈ k.msgQList ∧
    k.ts.members (.msgRecv 0) = [1, 2] ∧ ¬ ReleasesAll k 0 (k.msgQDelete 0).1 ∧
    ((k.msgQDelete 0).1.ts.tcb 2).status = .pendMsgR ∧
    (k.msgQDelete 0).1.ts.members (.msgRecv 0) = [] := by
  obtain ⟨⟨es, k⟩, hk, hfact⟩ := Option.map_eq_some_iff.mp (show
    (replay (fun _ e => e.act.isPlain) .initial
      [.boot (.msgQInit 0 1 4), .boot (.taskCreate 1024 3), .boot (.taskCreate 1024 4), .load,
        .call (.msgQReceive 0 [0] 1 9), .call (.msgQReceive 0 [0] 1 9)]).map
      (fun s => (s.2.msgQList, s.2.ts.members (.msgRecv 0),
        ((s.2.msgQDelete 0).1.ts.tcb 2).status,
        (s.2.msgQDelete 0).1.ts.members (.msgRecv 0))) =
      some ([0], [1, 2], .pendMsgR, []) by decide)
  simp only [Prod.mk.injEq] at hfact
  obtain ⟨hlist, hrecv, hstatus, hnil⟩ := hfact
  have hreach : Reachable system Safe k :=
    replay_reachable (fun k e he => Act.safe_of_isPlain he) hk
  refine ⟨k, hreach, by rw [hlist]; simp, hrecv, fun hall => ?_, hstatus, hnil⟩
  have hready := (hall.ready 2 (Or.inr (by rw [hrecv]; simp))).1
  rw [hstatus] at hready
  cases hready

end DfewOS
