import DfewOS.TaskSpec

/-!
# What one tick does

`dlist_each` reads the successor of a node after the routine. A task that
expires has been put at the end of a ready list by then, so its successor is
`NULL` and the walk is over: the tasks behind it are not counted down in this
tick. `Walked` says this of one list, `Ticked` of the lists a tick goes through.
-/

namespace DfewOS
open ListHeap (push drop)
open Dlist (OsStatus eachFrom)

def OsTcb.woken (v : OsTcb) : OsTcb := { v with delayTicks := 0, status := .ready, pendObj := none }

namespace Kernel
open Tasks (Linked)

def decWait (ticks : ℕ) : ℕ := if ticks ≠ waitForever then dec32 ticks else ticks

def countDown (dec : ℕ → ℕ) (l : QueueId) (ts : Tasks) (t : TcbPtr) : Tasks × OsStatus :=
  let ts := ts.setDelay t (dec (ts.tcb t).delayTicks)
  if (ts.tcb t).delayTicks = 0 then ((ts.dlistRemove l t).readyQPut t, .ok) else (ts, .ok)

theorem setDelay_self (ts : Tasks) (t : TcbPtr) : ts.setDelay t (ts.tcb t).delayTicks = ts := by
  have htcb : Function.update ts.tcb t (ts.tcb t) = ts.tcb := Function.update_eq_self _ _
  rw [Tasks.setDelay, Tasks.setTcb, htcb]

theorem waitToReady_eq (l : QueueId) : waitToReady l = countDown decWait l := by
  funext ts t
  simp only [waitToReady, countDown, decWait]
  by_cases hd : (ts.tcb t).delayTicks = waitForever
  · simp only [hd, ne_eq, not_true_eq_false, ↓reduceIte]
    rw [← hd, setDelay_self]
  · simp only [hd, ne_eq, not_false_eq_true, ↓reduceIte]

/-- `pre` was counted down, `x` expired, and the walk did not come to `post`. -/
structure Walked (dec : ℕ → ℕ) (ts ts' : Tasks) (pre : List TcbPtr) (x : Option TcbPtr)
    (post : List TcbPtr) : Prop where
  counted : ∀ t ∈ pre, dec (ts.tcb t).delayTicks ≠ 0 ∧
    ts'.tcb t = { ts.tcb t with delayTicks := dec (ts.tcb t).delayTicks }
  expired : ∀ t, x = some t → dec (ts.tcb t).delayTicks = 0 ∧ ts'.tcb t = OsTcb.woken (ts.tcb t)
  skipped : ∀ t ∈ post, ts'.tcb t = ts.tcb t
  ends : x = none → post = []

variable {ts ts' : Tasks} {seq seq' : QueueId → List TcbPtr} {l : QueueId} {t : TcbPtr}
  {dec : ℕ → ℕ}

theorem expire_linked (h : Linked ts seq none) (ht : t ∈ seq l) (hl : ¬ l.IsReady) :
    Linked (((ts.setDelay t 0).dlistRemove l t).readyQPut t)
        (push (drop seq l t) (.ready (ts.tcb t).taskPriority) t) none ∧
      (((ts.setDelay t 0).dlistRemove l t).readyQPut t).tcb =
        Function.update ts.tcb t (OsTcb.woken (ts.tcb t)) ∧
      ((((ts.setDelay t 0).dlistRemove l t).readyQPut t).dl.node t).next = none := by
  have hcomm : (ts.setDelay t 0).dlistRemove l t = (ts.dlistRemove l t).setDelay t 0 := rfl
  have hout := h.dlistRemove ht hl
  have hlive : (ts.dlistRemove l t).live t = true := h.live_of_mem ht
  have hrange := hout.inRange t hlive
  have hset : Linked ((ts.dlistRemove l t).setDelay t 0) _ (some t) :=
    hout.setTcb fun _ => ⟨hrange.priority, hrange.origin⟩
  have hput := hset.readyQPut hlive
  have hpri : (((ts.dlistRemove l t).setDelay t 0).tcb t).taskPriority =
      (ts.tcb t).taskPriority := by
    simp [Tasks.setDelay, Tasks.setTcb, Tasks.dlistRemove]
  rw [hpri] at hput
  rw [hcomm]
  refine ⟨hput, ?_, ?_⟩
  · rw [Tasks.readyQPut_tcb]
    simp [Tasks.setDelay, Tasks.setTcb, Tasks.dlistRemove, OsTcb.woken]
  · exact hput.lists.next_of_split (ListHeap.push_self ..)

theorem countDown_expires (hz : dec (ts.tcb t).delayTicks = 0) :
    countDown dec l ts t = (((ts.setDelay t 0).dlistRemove l t).readyQPut t, .ok) := by
  have hd : ((ts.setDelay t 0).tcb t).delayTicks = 0 := by simp [Tasks.setDelay, Tasks.setTcb]
  simp only [countDown, hz, hd, ↓reduceIte]

theorem countDown_stays (hz : dec (ts.tcb t).delayTicks ≠ 0) :
    countDown dec l ts t = (ts.setDelay t (dec (ts.tcb t).delayTicks), .ok) := by
  have hd : ((ts.setDelay t (dec (ts.tcb t).delayTicks)).tcb t).delayTicks =
      dec (ts.tcb t).delayTicks := by simp [Tasks.setDelay, Tasks.setTcb]
  simp only [countDown, hd, hz, ↓reduceIte]

theorem walk_rest (dec : ℕ → ℕ) (hl : ¬ l.IsReady) {n : ℕ} {pr ys : List TcbPtr} (h : Linked ts seq none)
    (hs : seq l = pr ++ ys) (hn : ys.length ≤ n) :
    ∃ ts' seq' pre x post,
      eachFrom (fun ts t => ts.dl.node t) (countDown dec l) n ts ys.head? = some ts' ∧
      Linked ts' seq' none ∧ ts'.live = ts.live ∧
      (∀ j, ¬ j.IsReady → j ≠ l → seq' j = seq j) ∧ (∀ u, u ∉ ys → ts'.tcb u = ts.tcb u) ∧
      ys = pre ++ (x.toList ++ post) ∧ seq' l = pr ++ (pre ++ post) ∧
      Walked dec ts ts' pre x post := by
  induction ys generalizing ts pr n with
  | nil =>
    refine ⟨ts, seq, [], none, [], ?_, h, rfl, fun _ _ _ => rfl, fun _ _ => rfl, rfl, hs,
      ⟨?_, ?_, ?_, fun _ => rfl⟩⟩
    · cases n <;> rfl
    · exact fun _ hm => absurd hm List.not_mem_nil
    · exact fun _ hx => absurd hx (by simp)
    · exact fun _ hm => absurd hm List.not_mem_nil
  | cons t ys ih =>
    obtain ⟨n, rfl⟩ : ∃ n', n = n' + 1 := ⟨n - 1, by rw [List.length_cons] at hn; omega⟩
    have ht : t ∈ seq l := by rw [hs]; simp
    have hnd := h.lists.nodup l
    rw [hs, List.nodup_append] at hnd
    have hys : t ∉ ys := (List.nodup_cons.mp hnd.2.1).1
    have hpr : t ∉ pr := fun hm => hnd.2.2 t hm t List.mem_cons_self rfl
    by_cases hz : dec (ts.tcb t).delayTicks = 0
    · obtain ⟨hlink, htcb, hnext⟩ := expire_linked h ht hl
      have hother : ∀ u, u ≠ t →
          (((ts.setDelay t 0).dlistRemove l t).readyQPut t).tcb u = ts.tcb u := fun u hu => by
        rw [htcb, Function.update_of_ne hu]
      have hpush : ∀ j, ¬ j.IsReady →
          push (drop seq l t) (.ready (ts.tcb t).taskPriority) t j = drop seq l t j := by
        intro j hj
        apply ListHeap.push_of_ne
        rintro rfl
        exact hj trivial
      refine ⟨_, _, [], some t, ys, ?_, hlink, rfl, ?_, ?_, rfl, ?_, ⟨?_, ?_, ?_, ?_⟩⟩
      · rw [List.head?_cons, eachFrom, countDown_expires hz]
        simp only [↓reduceIte, hnext]
        cases n <;> rfl
      · intro j hj hjl
        rw [hpush j hj, ListHeap.drop_of_ne _ _ _ hjl]
      · intro u hu
        apply hother
        rintro rfl
        exact hu List.mem_cons_self
      · rw [hpush l hl, ListHeap.drop_self, hs, List.erase_append_right _ hpr,
          List.erase_cons_head]
        rfl
      · exact fun _ hm => absurd hm List.not_mem_nil
      · intro u hu
        obtain rfl := Option.some.inj hu
        exact ⟨hz, by rw [htcb, Function.update_self]⟩
      · intro u hu
        apply hother
        rintro rfl
        exact hys hu
      · exact fun hx => absurd hx (by simp)
    · have hset : Linked (ts.setDelay t (dec (ts.tcb t).delayTicks)) seq none :=
        h.setDelay fun _ _ => hz
      have hother : ∀ u, u ≠ t →
          (ts.setDelay t (dec (ts.tcb t).delayTicks)).tcb u = ts.tcb u := fun u hu => by
        simp [Tasks.setDelay, Tasks.setTcb, hu]
      have hself : (ts.setDelay t (dec (ts.tcb t).delayTicks)).tcb t =
          { ts.tcb t with delayTicks := dec (ts.tcb t).delayTicks } := by
        simp [Tasks.setDelay, Tasks.setTcb]
      have hnext : ((ts.setDelay t (dec (ts.tcb t).delayTicks)).dl.node t).next = ys.head? :=
        h.lists.next_of_split hs
      obtain ⟨ts', seq', pre, x, post, hrun, hlink, hlive, hlists, hout, hsplit, hseq, hw⟩ :=
        ih (n := n) hset (show seq l = (pr ++ [t]) ++ ys by simp [hs])
          (by rw [List.length_cons] at hn; omega)
      have hmem : ∀ u, u ∈ pre ∨ x = some u ∨ u ∈ post → u ≠ t := by
        rintro u hu rfl
        apply hys
        rw [hsplit]
        rcases hu with hpre | rfl | hpost
        · exact List.mem_append_left _ hpre
        · exact List.mem_append_right _ (List.mem_append_left _ (by simp))
        · exact List.mem_append_right _ (List.mem_append_right _ hpost)
      refine ⟨ts', seq', t :: pre, x, post, ?_, hlink, hlive, hlists, ?_, ?_, ?_, ⟨?_, ?_, ?_, hw.ends⟩⟩
      · rw [List.head?_cons, eachFrom, countDown_stays hz]
        simp only [↓reduceIte, hnext]
        exact hrun
      · intro u hu
        rw [List.mem_cons, not_or] at hu
        rw [hout u hu.2, hother u hu.1]
      · rw [hsplit, List.cons_append]
      · rw [hseq, List.append_assoc]
        rfl
      · intro u hu
        rcases List.mem_cons.mp hu with rfl | hu
        · exact ⟨hz, by rw [hout u hys, hself]⟩
        · have hc := hw.counted u hu
          rwa [hother u (hmem u (Or.inl hu))] at hc
      · intro u hu
        have he := hw.expired u hu
        rwa [hother u (hmem u (Or.inr (Or.inl hu)))] at he
      · intro u hu
        have hk := hw.skipped u hu
        rwa [hother u (hmem u (Or.inr (Or.inr hu)))] at hk

def decOf : QueueId → ℕ → ℕ
  | .delayQ => dec32
  | _ => decWait

structure Ticked (V : List QueueId) (ts : Tasks) (seq : QueueId → List TcbPtr) (ts' : Tasks)
    (seq' : QueueId → List TcbPtr) : Prop where
  notReady : ∀ l ∈ V, ¬ l.IsReady
  live : ts'.live = ts.live
  lists : ∀ l, ¬ l.IsReady → l ∉ V → seq' l = seq l
  kept : ∀ t, (∀ l ∈ V, t ∉ seq l) → ts'.tcb t = ts.tcb t
  walked : ∀ l ∈ V, ∃ pre x post, seq l = pre ++ (x.toList ++ post) ∧ seq' l = pre ++ post ∧
    Walked (decOf l) ts ts' pre x post

theorem Ticked.nil (ts : Tasks) (seq : QueueId → List TcbPtr) : Ticked [] ts seq ts seq :=
  ⟨fun _ hl => absurd hl List.not_mem_nil, rfl, fun _ _ _ => rfl, fun _ _ => rfl,
    fun _ hl => absurd hl List.not_mem_nil⟩

theorem dlistEach_ticked (h : Linked ts seq none) (hl : ¬ l.IsReady) :
    ∃ ts' seq', dlistEach l (countDown (decOf l) l) ts = some ts' ∧ Linked ts' seq' none ∧
      Ticked [l] ts seq ts' seq' := by
  have hlen := (h.lists.nodup l).length_le_card
  rw [Fintype.card_fin] at hlen
  obtain ⟨ts', seq', pre, x, post, hrun, hlink, hlive, hlists, hout, hsplit, hseq, hw⟩ :=
    walk_rest (decOf l) hl h (List.nil_append _).symm hlen
  refine ⟨ts', seq', ?_, hlink, by simpa using hl, hlive, ?_, ?_, ?_⟩
  · rw [dlistEach, h.lists.head]
    exact hrun
  · intro j hj hjl
    exact hlists j hj fun he => hjl (List.mem_singleton.mpr he)
  · intro t ht
    exact hout t (ht l (List.mem_singleton_self l))
  · intro j hj
    obtain rfl := List.mem_singleton.mp hj
    exact ⟨pre, x, post, hsplit, hseq, hw⟩

theorem Ticked.trans {V W : List QueueId} {ts₁ : Tasks} {seq₁ : QueueId → List TcbPtr}
    (h : Linked ts seq none) (h₁ : Linked ts₁ seq₁ none) (hV : Ticked V ts seq ts₁ seq₁)
    (hW : Ticked W ts₁ seq₁ ts' seq') (hd : ∀ l ∈ V, l ∉ W) :
    Ticked (V ++ W) ts seq ts' seq' := by
  have hrV := hV.notReady
  have hrW := hW.notReady
  have hsame : ∀ l ∈ W, seq₁ l = seq l := fun l hl => hV.lists l (hrW l hl) fun hv => hd l hv hl
  refine ⟨List.forall_mem_append.mpr ⟨hrV, hrW⟩, hW.live.trans hV.live, ?_, ?_, ?_⟩
  · intro l hr hl
    rw [List.mem_append, not_or] at hl
    rw [hW.lists l hr hl.2, hV.lists l hr hl.1]
  · intro t ht
    have hnot : ∀ l ∈ W, t ∉ seq₁ l := fun l hl => by
      rw [hsame l hl]
      exact ht l (List.mem_append_right _ hl)
    rw [hW.kept t hnot, hV.kept t fun l hl => ht l (List.mem_append_left _ hl)]
  · intro l hl
    rcases List.mem_append.mp hl with hl | hl
    · obtain ⟨pre, x, post, hsplit, hseq, hw⟩ := hV.walked l hl
      have hstay : ∀ t ∈ pre ++ post, ts'.tcb t = ts₁.tcb t := fun t ht => by
        apply hW.kept
        intro j hj hm
        rw [← hseq] at ht
        exact hd l hl (h₁.lists.disjoint j l t hm ht ▸ hj)
      refine ⟨pre, x, post, hsplit, by rw [hW.lists l (hrV l hl) (hd l hl), hseq], ?_, ?_, ?_, hw.ends⟩
      · intro t ht
        rw [hstay t (List.mem_append_left _ ht)]
        exact hw.counted t ht
      · intro t ht
        obtain ⟨hz, heq⟩ := hw.expired t ht
        refine ⟨hz, ?_⟩
        rw [← heq]
        apply hW.kept
        intro j hj hm
        -- the expired task is in a ready list, and no list of `W` is one
        have hstatus : (ts₁.tcb t).status = .ready := by rw [heq]; rfl
        exact hrW j hj ((OsTcb.status_of_home (h₁.home_of_mem hm)).mp hstatus)
      · intro t ht
        rw [hstay t (List.mem_append_right _ ht)]
        exact hw.skipped t ht
    · obtain ⟨pre, x, post, hsplit, hseq, hw⟩ := hW.walked l hl
      rw [hsame l hl] at hsplit
      have hstay : ∀ t ∈ seq l, ts₁.tcb t = ts.tcb t := fun t ht => by
        apply hV.kept
        intro j hj hm
        exact hd j hj (h.lists.disjoint j l t hm ht ▸ hl)
      rw [hsplit] at hstay
      refine ⟨pre, x, post, hsplit, hseq, ?_, ?_, ?_, hw.ends⟩
      · intro t ht
        rw [← hstay t (by simp [ht])]
        exact hw.counted t ht
      · intro t ht
        rw [← hstay t (by simp [ht])]
        exact hw.expired t ht
      · intro t ht
        rw [← hstay t (by simp [ht])]
        exact hw.skipped t ht

/-- What one visit does to its lists, a loop over different objects does to all of them. -/
theorem foldlM_ticked (visit : Tasks → ObjPtr → Option Tasks) (f : ObjPtr → List QueueId)
    (hvisit : ∀ ts seq o, Linked ts seq none →
      ∃ ts' seq', visit ts o = some ts' ∧ Linked ts' seq' none ∧ Ticked (f o) ts seq ts' seq')
    (hf : ∀ o o' l, l ∈ f o → l ∈ f o' → o = o')
    {os : List ObjPtr} (hnd : os.Nodup) (h : Linked ts seq none) :
    ∃ ts' seq', os.foldlM visit ts = some ts' ∧ Linked ts' seq' none ∧
      Ticked (os.flatMap f) ts seq ts' seq' := by
  induction os generalizing ts seq with
  | nil => exact ⟨ts, seq, rfl, h, .nil ts seq⟩
  | cons o os ih =>
    rw [List.nodup_cons] at hnd
    obtain ⟨ts₁, seq₁, hrun, h₁, ht₁⟩ := hvisit ts seq o h
    obtain ⟨ts', seq', hrun', h', ht'⟩ := ih hnd.2 h₁
    refine ⟨ts', seq', ?_, h', ?_⟩
    · rw [List.foldlM_cons, hrun]
      exact hrun'
    · rw [List.flatMap_cons]
      refine ht₁.trans h h₁ ht' fun l hl hl' => ?_
      obtain ⟨o', ho', hl'⟩ := List.mem_flatMap.mp hl'
      exact hnd.1 (hf o o' l hl hl' ▸ ho')

theorem updateWaitList_ticked (h : Linked ts seq none) (hl : ¬ l.IsReady) (hd : l ≠ .delayQ) :
    ∃ ts' seq', updateWaitList ts l = some ts' ∧ Linked ts' seq' none ∧
      Ticked [l] ts seq ts' seq' := by
  have hdec : decOf l = decWait := by
    cases l <;> first | rfl | exact absurd rfl hd
  obtain ⟨ts', seq', hrun, hrest⟩ := dlistEach_ticked h hl
  refine ⟨ts', seq', ?_, hrest⟩
  rw [updateWaitList, waitToReady_eq, ← hdec]
  exact hrun

theorem msgQ_ticked (h : Linked ts seq none) (q : ObjPtr) :
    ∃ ts' seq', (do let ts ← updateWaitList ts (.msgSend q); updateWaitList ts (.msgRecv q)) =
        some ts' ∧ Linked ts' seq' none ∧
      Ticked ([.msgSend q] ++ [.msgRecv q]) ts seq ts' seq' := by
  have hs : ¬ (QueueId.msgSend q).IsReady := fun hr => hr
  have hr : ¬ (QueueId.msgRecv q).IsReady := fun hr => hr
  obtain ⟨ts₁, seq₁, hrun, h₁, ht₁⟩ := updateWaitList_ticked h hs (by simp)
  obtain ⟨ts', seq', hrun', h', ht'⟩ := updateWaitList_ticked h₁ hr (by simp)
  refine ⟨ts', seq', ?_, h', ht₁.trans h h₁ ht' (by simp)⟩
  simp only [hrun, Option.bind_eq_bind, Option.bind_some, hrun']

def visited (k : Kernel) : List QueueId :=
  k.semBList.flatMap (fun s => [.semB s]) ++ k.semCList.flatMap (fun s => [.semC s]) ++
    k.semMList.flatMap (fun m => [.semM m]) ++
    k.msgQList.flatMap (fun q => [.msgSend q] ++ [.msgRecv q]) ++ [.delayQ]

theorem mem_visited (k : Kernel) (l : QueueId) :
    l ∈ k.visited ↔ ¬ l.IsReady ∧ k.Registered l := by
  cases l <;> simp [visited, Registered, QueueId.IsReady]

theorem lists_ticked {k : Kernel} (ho : k.Objects) (h : Linked k.ts seq none) :
    ∃ ts₁ ts₂ ts₃ ts₄ ts' seq', k.semBDecrease k.ts = some ts₁ ∧ k.semCDecrease ts₁ = some ts₂ ∧
      k.semMDecrease ts₂ = some ts₃ ∧ k.msgQDecrease ts₃ = some ts₄ ∧
      delayQDecrease ts₄ = some ts' ∧ Linked ts' seq' none ∧ Ticked k.visited k.ts seq ts' seq' := by
  obtain ⟨ts₁, seq₁, hrun₁, h₁, ht₁⟩ := foldlM_ticked
    (fun ts s => updateWaitList ts (.semB s)) (fun s => [.semB s])
    (fun ts seq s h => updateWaitList_ticked h (fun hr => hr) (by simp)) (by simp) ho.semB h
  obtain ⟨ts₂, seq₂, hrun₂, h₂, ht₂⟩ := foldlM_ticked
    (fun ts s => updateWaitList ts (.semC s)) (fun s => [.semC s])
    (fun ts seq s h => updateWaitList_ticked h (fun hr => hr) (by simp)) (by simp) ho.semC h₁
  obtain ⟨ts₃, seq₃, hrun₃, h₃, ht₃⟩ := foldlM_ticked
    (fun ts m => updateWaitList ts (.semM m)) (fun m => [.semM m])
    (fun ts seq m h => updateWaitList_ticked h (fun hr => hr) (by simp)) (by simp) ho.semM h₂
  obtain ⟨ts₄, seq₄, hrun₄, h₄, ht₄⟩ := foldlM_ticked _ _ (fun ts seq q h => msgQ_ticked h q)
    (by simp) ho.msgQ h₃
  have hdelay : ¬ QueueId.delayQ.IsReady := fun hr => hr
  obtain ⟨ts', seq', hrun', h', ht'⟩ := dlistEach_ticked h₄ hdelay
  refine ⟨ts₁, ts₂, ts₃, ts₄, ts', seq', hrun₁, hrun₂, hrun₃, hrun₄, hrun', h', ?_⟩
  have hB := ht₁.trans h h₁ ht₂ fun l hl hl' => by cases l <;> simp at hl hl'
  have hC := hB.trans h h₂ ht₃ fun l hl hl' => by cases l <;> simp at hl hl'
  have hM := hC.trans h h₃ ht₄ fun l hl hl' => by cases l <;> simp at hl hl'
  exact hM.trans h h₄ ht' fun l hl hl' => by cases l <;> simp at hl hl'

structure Ticks (k k' : Kernel) : Prop where
  linked : Linked k'.ts k'.ts.members none
  fields : k' = { k with ts := k'.ts, ticks := inc32 k.ticks }
  live : k'.ts.live = k.ts.live
  kept : ∀ t, (∀ l, ¬ l.IsReady → t ∉ k.ts.members l) → k'.ts.tcb t = k.ts.tcb t
  walked : ∀ l, ¬ l.IsReady → ∃ pre x post, k.ts.members l = pre ++ (x.toList ++ post) ∧
    k'.ts.members l = pre ++ post ∧ Walked (decOf l) k.ts k'.ts pre x post

theorem tickAnnounce_ticks {k : Kernel} {cur : TcbPtr} (h : k.Core) (hl : k.ts.live cur = true)
    (hs : (k.ts.tcb cur).status = .ready) :
    ∃ k', k.tickAnnounce cur = some k' ∧ Ticks k k' := by
  obtain ⟨ts₁, ts₂, ts₃, ts₄, ts', seq', hrun₁, hrun₂, hrun₃, hrun₄, hrun', h', ht⟩ :=
    lists_ticked h.objects h.linked
  have hnot : ∀ l, ¬ l.IsReady → cur ∉ k.ts.members l := fun l hr hm =>
    hr ((OsTcb.status_of_home (h.linked.home_of_mem hm)).mp hs)
  have hcur : ts'.tcb cur = k.ts.tcb cur :=
    ht.kept cur fun l hm => hnot l ((k.mem_visited l).mp hm).1
  have hl' : ts'.live cur = true := by rw [ht.live, hl]
  have hs' : (ts'.tcb cur).status = .ready := by rw [hcur, hs]
  have hr := h'.readyQRemove hl' hs'
  have hput := hr.readyQPut (show (ts'.readyQRemove cur).live cur = true by
    rw [Tasks.readyQRemove_live, hl'])
  generalize hseq : push (drop seq' (.ready (ts'.tcb cur).taskPriority) cur)
    (.ready ((ts'.readyQRemove cur).tcb cur).taskPriority) cur = seq'' at hput
  have hlists : ∀ l, ¬ l.IsReady → seq'' l = seq' l := by
    intro l hr
    have hne : ∀ p, l ≠ .ready p := by
      rintro p rfl
      exact hr trivial
    rw [← hseq, ListHeap.push_of_ne _ _ _ (hne _), ListHeap.drop_of_ne _ _ _ (hne _)]
  have htcb : ((ts'.readyQRemove cur).readyQPut cur).tcb = ts'.tcb := by
    have hpend := (h'.placed cur hl' (by simp)).pendObj hs'
    rw [Tasks.readyQPut_tcb, Tasks.readyQRemove_tcb, ← hs', ← hpend]
    exact Function.update_eq_self _ _
  have hmem := members_of_linked hput
  have hnil : ∀ l, ¬ l.IsReady → l ∉ k.visited → k.ts.members l = [] := by
    intro l hr hv
    by_contra hne
    obtain ⟨t, ht⟩ := List.exists_mem_of_ne_nil _ hne
    exact hv ((k.mem_visited l).mpr ⟨hr, h.registered t l (h.linked.live_of_mem ht)
      (h.linked.home_of_mem ht)⟩)
  refine ⟨{ k with ticks := inc32 k.ticks, ts := (ts'.readyQRemove cur).readyQPut cur }, ?_, ?_, rfl,
    ?_, ?_, ?_⟩
  · simp only [tickAnnounce, hrun₁, hrun₂, hrun₃, hrun₄, hrun', Option.bind_eq_bind,
      Option.bind_some]
  · rw [hmem]
    exact hput
  · rw [← ht.live, ← Tasks.readyQRemove_live ts' cur]
    rfl
  · intro t hout
    rw [htcb]
    exact ht.kept t fun l hm => hout l ((k.mem_visited l).mp hm).1
  · intro l hr
    by_cases hv : l ∈ k.visited
    · obtain ⟨pre, x, post, hsplit, hseq', hw⟩ := ht.walked l hv
      refine ⟨pre, x, post, hsplit, by rw [hmem, hlists l hr, hseq'], ?_⟩
      exact ⟨fun t ht => by rw [htcb]; exact hw.counted t ht,
        fun t ht => by rw [htcb]; exact hw.expired t ht,
        fun t ht => by rw [htcb]; exact hw.skipped t ht, hw.ends⟩
    · refine ⟨[], none, [], hnil l hr hv, ?_, ?_, ?_, ?_, fun _ => rfl⟩
      · rw [hmem, hlists l hr, ht.lists l hr hv, hnil l hr hv]
        rfl
      · exact fun _ hm => absurd hm List.not_mem_nil
      · exact fun _ hx => absurd hx (by simp)
      · exact fun _ hm => absurd hm List.not_mem_nil

theorem loadHighestTask_ready {k : Kernel} (h : Linked k.ts seq none)
    (hl : k.ts.live idle = true) (hs : (k.ts.tcb idle).status = .ready) :
    ∃ t, k.loadHighestTask = some { k with curTcb := some t } ∧ k.ts.live t = true ∧
      (k.ts.tcb t).status = .ready := by
  have hm := h.mem_ready hl hs
  rcases lowest_or_empty fun p => seq (.ready p) with hemp | ⟨p, hp, ⟨t, ht⟩, hlow⟩
  · have hnil : seq (.ready (k.ts.tcb idle).taskPriority) = [] :=
      hemp _ (h.inRange idle hl).priority
    rw [hnil] at hm
    exact absurd hm List.not_mem_nil
  · have hfirst : k.ts.readyQ.highestTcb = some t := by
      rw [h.ready.highest, firstReady_eq_some hp ht hlow]
    have htm : t ∈ seq (.ready p) := List.mem_of_head? ht
    refine ⟨t, by rw [loadHighestTask, hfirst]; rfl, h.live_of_mem htm, ?_⟩
    exact (OsTcb.status_of_home (h.home_of_mem htm)).mpr trivial

end Kernel

end DfewOS
