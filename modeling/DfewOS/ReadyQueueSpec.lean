import DfewOS.ReadyQueue

/-!
# The ready queue represents a priority-ordered set of FIFO lists

`readyQ_put` and `readyQ_remove` keep the three redundant levels of the ready
queue in step. The run at the end starts from a zeroed `G_readyQ` and may
change a task's priority while the task is in no list.
-/

namespace DfewOS
open ListHeap (Lists push drop mem_push)

namespace Tasks

theorem members_eq {ts : Tasks} {seq : QueueId → List TcbPtr} (hl : Lists ts.dl seq)
    (l : QueueId) : ts.members l = seq l := by
  have h := Dlist.nodes_eq hl l
  rwa [Fintype.card_fin] at h

theorem dlistCheck_of_mem {ts : Tasks} {seq : QueueId → List TcbPtr} (hl : Lists ts.dl seq)
    {l : QueueId} {t : TcbPtr} (ht : t ∈ seq l) : Dlist.dlistCheck taskNumMax ts.dl l t = true := by
  have h := Dlist.dlistCheck_eq hl l t
  rw [Fintype.card_fin] at h
  rw [h]
  exact decide_eq_true ht

theorem dlistRemove_sound {ts : Tasks} {seq : QueueId → List TcbPtr} (hl : Lists ts.dl seq)
    {l : QueueId} {t : TcbPtr} (ht : t ∈ seq l) : (ts.dlistRemove l t).sound = ts.sound := by
  simp only [dlistRemove, dlistCheck_of_mem hl ht, Bool.and_true]

/-- The bit maps, the cached task and the priorities agree with the lists. -/
structure ReadyOk (ts : Tasks) (seq : QueueId → List TcbPtr) : Prop where
  maps : ts.readyQ.Maps fun p => seq (.ready p)
  highest : ts.readyQ.highestTcb = firstReady fun p => seq (.ready p)
  priority : ∀ p, ∀ t ∈ seq (.ready p), (ts.tcb t).taskPriority = p

theorem update_ready (seq : QueueId → List TcbPtr) (p : ℕ) (v : List TcbPtr) :
    (fun q => Function.update seq (.ready p) v (.ready q)) =
      Function.update (fun q => seq (.ready q)) p v := by
  funext q
  by_cases hq : q = p
  · subst hq; simp
  · simp [hq]

theorem push_ready (seq : QueueId → List TcbPtr) (p : ℕ) (t : TcbPtr) :
    (fun q => push seq (.ready p) t (.ready q)) = push (fun q => seq (.ready q)) p t :=
  update_ready seq p _

theorem drop_ready (seq : QueueId → List TcbPtr) (p : ℕ) (t : TcbPtr) :
    (fun q => drop seq (.ready p) t (.ready q)) = drop (fun q => seq (.ready q)) p t :=
  update_ready seq p _

theorem ReadyOk.congr {ts ts' : Tasks} {seq seq' : QueueId → List TcbPtr} (ho : ts.ReadyOk seq)
    (hr : ts'.readyQ = ts.readyQ) (hs : ∀ p, seq' (.ready p) = seq (.ready p))
    (hp : ∀ p, ∀ t ∈ seq (.ready p), (ts'.tcb t).taskPriority = (ts.tcb t).taskPriority) :
    ts'.ReadyOk seq' := by
  have he : (fun p => seq' (.ready p)) = fun p => seq (.ready p) := funext hs
  refine ⟨?_, ?_, ?_⟩
  · rw [hr, he]
    exact ho.maps
  · rw [hr, he]
    exact ho.highest
  · intro p t ht
    rw [hs] at ht
    rw [hp p t ht, ho.priority p t ht]

section Put
variable {ts : Tasks} {seq : QueueId → List TcbPtr} {t : TcbPtr}

theorem readyQPut_dl (hl : Lists ts.dl seq) (hx : ∀ l, t ∉ seq l) :
    Lists (ts.readyQPut t).dl (push seq (.ready (ts.tcb t).taskPriority) t) :=
  Dlist.dlistAdd_lists hl _ hx

theorem readyQPut_tcb (ts : Tasks) (t : TcbPtr) :
    (ts.readyQPut t).tcb =
      Function.update ts.tcb t { ts.tcb t with status := .ready, pendObj := none } := rfl

theorem readyQPut_priority (ts : Tasks) (t u : TcbPtr) :
    ((ts.readyQPut t).tcb u).taskPriority = (ts.tcb u).taskPriority := by
  rw [readyQPut_tcb]
  by_cases hu : u = t
  · subst hu; simp
  · simp [hu]

theorem readyQPut_first (h : ts.readyQ.highestTcb = none) :
    (ts.readyQPut t).readyQ.highestTcb = some t := by
  simp only [Tasks.readyQPut, h]
  rfl

theorem readyQPut_next {h : TcbPtr} (hh : ts.readyQ.highestTcb = some h) :
    (ts.readyQPut t).readyQ.highestTcb =
      if (ts.tcb t).taskPriority < (ts.tcb h).taskPriority then some t else some h := by
  simp only [Tasks.readyQPut, hh]
  rfl

theorem readyQPut_highest (ho : ts.ReadyOk seq)
    (hp : (ts.tcb t).taskPriority < priorityNumMax) :
    (ts.readyQPut t).readyQ.highestTcb =
      firstReady (push (fun q => seq (.ready q)) (ts.tcb t).taskPriority t) := by
  rcases lowest_or_empty fun q => seq (.ready q) with hemp | ⟨q, hq, ⟨h, hh⟩, hlow⟩
  · rw [readyQPut_first (ho.highest.trans (firstReady_eq_none hemp))]
    refine (firstReady_eq_some hp ?_ fun r hr => ?_).symm
    · rw [ListHeap.push_self, hemp _ hp, List.nil_append, List.head?_cons]
    · rw [ListHeap.push_of_ne _ _ _ (by omega), hemp r (by omega)]
  · have hpri : (ts.tcb h).taskPriority = q := ho.priority q h (List.mem_of_head? hh)
    rw [readyQPut_next (ho.highest.trans (firstReady_eq_some hq hh hlow)), hpri]
    by_cases hlt : (ts.tcb t).taskPriority < q
    · rw [if_pos hlt]
      refine (firstReady_eq_some hp ?_ fun r hr => ?_).symm
      · rw [ListHeap.push_self, hlow _ hlt, List.nil_append, List.head?_cons]
      · rw [ListHeap.push_of_ne _ _ _ (by omega), hlow r (by omega)]
    · rw [if_neg hlt]
      refine (firstReady_eq_some hq ?_ fun r hr => ?_).symm
      · by_cases heq : q = (ts.tcb t).taskPriority
        · rw [← heq, ListHeap.push_self, List.head?_append, hh, Option.some_or]
        · rw [ListHeap.push_of_ne _ _ _ heq, hh]
      · rw [ListHeap.push_of_ne _ _ _ (by omega), hlow r hr]

theorem readyQPut_ok (ho : ts.ReadyOk seq) (hp : (ts.tcb t).taskPriority < priorityNumMax) :
    (ts.readyQPut t).ReadyOk (push seq (.ready (ts.tcb t).taskPriority) t) := by
  refine ⟨?_, ?_, ?_⟩
  · rw [push_ready]
    exact ho.maps.put hp t _
  · rw [push_ready]
    exact readyQPut_highest ho hp
  · intro q u hu
    rw [readyQPut_priority]
    rcases (mem_push _ _ _).mp hu with hu | ⟨hq, rfl⟩
    · exact ho.priority q u hu
    · exact (QueueId.ready.inj hq).symm

end Put

section Remove
variable {ts : Tasks} {seq : QueueId → List TcbPtr} {t : TcbPtr}

theorem readyQRemove_dl (ts : Tasks) (t : TcbPtr) :
    (ts.readyQRemove t).dl = Dlist.dlistRemove ts.dl (.ready (ts.tcb t).taskPriority) t := by
  simp only [readyQRemove]
  split_ifs <;> rfl

theorem readyQRemove_tcb (ts : Tasks) (t : TcbPtr) : (ts.readyQRemove t).tcb = ts.tcb := by
  simp only [readyQRemove]
  split_ifs <;> rfl

theorem readyQRemove_live (ts : Tasks) (t : TcbPtr) : (ts.readyQRemove t).live = ts.live := by
  simp only [readyQRemove]
  split_ifs <;> rfl

theorem readyQRemove_sound (hl : Lists ts.dl seq) (ht : t ∈ seq (.ready (ts.tcb t).taskPriority)) :
    (ts.readyQRemove t).sound = ts.sound := by
  rw [← dlistRemove_sound hl ht]
  simp only [readyQRemove]
  split_ifs <;> rfl

theorem dlistRemove_head (hl : Lists ts.dl seq) {l : QueueId} (ht : t ∈ seq l) :
    ((ts.dlistRemove l t).dl.list l).head = ((seq l).erase t).head? := by
  have hl' := Dlist.dlistRemove_lists hl ht
  rw [show (ts.dlistRemove l t).dl = Dlist.dlistRemove ts.dl l t from rfl, hl'.head,
    ListHeap.drop_self]

/-- A list that stays behind when `t` leaves keeps its first task unless `t` was it. -/
theorem firstReady_drop (ho : ts.ReadyOk seq) {p : ℕ}
    (ht : t ∈ seq (.ready p)) (hth : some t ≠ ts.readyQ.highestTcb) :
    firstReady (drop (fun q => seq (.ready q)) p t) = ts.readyQ.highestTcb := by
  have hlt : p < priorityNumMax := ho.maps.lt_of_ne_nil (List.ne_nil_of_mem ht)
  rw [ho.highest] at hth ⊢
  rcases lowest_or_empty fun q => seq (.ready q) with hemp | ⟨q, hq, ⟨h, hh⟩, hlow⟩
  · exact absurd (hemp p hlt) (List.ne_nil_of_mem ht)
  · rw [firstReady_eq_some hq hh hlow] at hth ⊢
    have hne : t ≠ h := fun he => hth (congrArg some he)
    refine firstReady_eq_some hq ?_ fun r hr => ?_
    · by_cases hqp : q = p
      · subst hqp
        obtain ⟨rest, hrest⟩ := List.head?_eq_some_iff.mp hh
        rw [ListHeap.drop_self, hrest, List.erase_cons_tail (by simpa using hne.symm),
          List.head?_cons]
      · rw [ListHeap.drop_of_ne _ _ _ hqp, hh]
    · by_cases hrp : r = p
      · subst hrp
        rw [ListHeap.drop_self, hlow r hr, List.erase_nil]
      · rw [ListHeap.drop_of_ne _ _ _ hrp, hlow r hr]

/-- The cached task is the head of the lowest list, so `t` being it fixes the list. -/
theorem highest_priority (hl : Lists ts.dl seq) (ho : ts.ReadyOk seq) {p : ℕ}
    (ht : t ∈ seq (.ready p)) (hth : some t = ts.readyQ.highestTcb) :
    ∀ q < p, seq (.ready q) = [] := by
  have hlt : p < priorityNumMax := ho.maps.lt_of_ne_nil (List.ne_nil_of_mem ht)
  rw [ho.highest] at hth
  rcases lowest_or_empty fun q => seq (.ready q) with hemp | ⟨q, hq, ⟨h, hh⟩, hlow⟩
  · exact absurd (hemp p hlt) (List.ne_nil_of_mem ht)
  · rw [firstReady_eq_some hq hh hlow] at hth
    have hte : t = h := Option.some.inj hth
    have hmem : t ∈ seq (.ready q) := hte ▸ List.mem_of_head? hh
    have hpq := QueueId.ready.inj (hl.disjoint (.ready p) (.ready q) t ht hmem)
    rwa [hpq]

/-- Taking out a task of a list that keeps others: only the cached pointer may move. -/
theorem readyQRemove_nonempty (hl : Lists ts.dl seq) (ho : ts.ReadyOk seq) {p : ℕ}
    (hp : (ts.tcb t).taskPriority = p) (ht : t ∈ seq (.ready p)) {u : TcbPtr}
    (hne : ((seq (.ready p)).erase t).head? = some u) :
    (ts.readyQRemove t).ReadyOk (drop seq (.ready p) t) := by
  have hlt : p < priorityNumMax := ho.maps.lt_of_ne_nil (List.ne_nil_of_mem ht)
  have hhead : ((ts.dlistRemove (.ready p) t).dl.list (.ready p)).head = some u :=
    (dlistRemove_head hl ht).trans hne
  have hsame : (ts.dlistRemove (.ready p) t).readyQ = ts.readyQ := rfl
  have hmaps : ∀ o, ReadyQueue.Maps ⟨o, ts.readyQ.metaBMap, ts.readyQ.bMap⟩
      (drop (fun q => seq (.ready q)) p t) := by
    refine ho.maps.congr fun q => ?_
    by_cases hq : q = p
    · subst hq
      rw [ListHeap.drop_self]
      refine iff_of_false ?_ (List.ne_nil_of_mem ht)
      intro hnil
      rw [hnil] at hne
      exact absurd hne (by simp)
    · rw [ListHeap.drop_of_ne _ _ _ hq]
  have hdef : (ts.readyQRemove t).readyQ =
      ⟨if some t = ts.readyQ.highestTcb then some u else ts.readyQ.highestTcb,
        ts.readyQ.metaBMap, ts.readyQ.bMap⟩ := by
    simp only [readyQRemove, hp, hhead, hsame, reduceCtorEq, ↓reduceIte]
    split_ifs <;> rfl
  refine ⟨?_, ?_, ?_⟩
  · rw [drop_ready, hdef]
    exact hmaps _
  · rw [drop_ready, hdef]
    by_cases hth : some t = ts.readyQ.highestTcb
    · rw [if_pos hth]
      refine (firstReady_eq_some hlt (by rw [ListHeap.drop_self, hne]) fun r hr => ?_).symm
      rw [ListHeap.drop_of_ne _ _ _ (by omega), highest_priority hl ho ht hth r hr]
    · rw [if_neg hth, firstReady_drop ho ht hth]
  · intro q v hv
    rw [readyQRemove_tcb]
    exact ho.priority q v ((hl.mem_drop ht).mp hv).1

/-- Taking out the last task of a list: both maps and the cached pointer are recomputed. -/
theorem readyQRemove_last (hl : Lists ts.dl seq) (ho : ts.ReadyOk seq) {p : ℕ}
    (hp : (ts.tcb t).taskPriority = p) (ht : t ∈ seq (.ready p))
    (hnil : (seq (.ready p)).erase t = []) :
    (ts.readyQRemove t).ReadyOk (drop seq (.ready p) t) := by
  have hlt : p < priorityNumMax := ho.maps.lt_of_ne_nil (List.ne_nil_of_mem ht)
  have hl' := Dlist.dlistRemove_lists hl ht
  have hhead : ((ts.dlistRemove (.ready p) t).dl.list (.ready p)).head = none := by
    rw [dlistRemove_head hl ht, hnil, List.head?_nil]
  have hsame : (ts.dlistRemove (.ready p) t).readyQ = ts.readyQ := rfl
  have hupd : drop (fun q => seq (.ready q)) p t =
      Function.update (fun q => seq (.ready q)) p [] := by rw [drop, hnil]
  have hmaps := fun o => ho.maps.remove hlt o
  simp only [← hupd] at hmaps
  generalize hbm : BitMap.clear ts.readyQ.bMap p = bMap at hmaps
  generalize hmm : (if bMap (p >>> 5) = 0 then BitMap.clearBit ts.readyQ.metaBMap (p >>> 5)
    else ts.readyQ.metaBMap) = metaBMap at hmaps
  have hdef : (ts.readyQRemove t).readyQ =
      ⟨if some t = ts.readyQ.highestTcb then
          listArrayFirst { ts.dlistRemove (.ready p) t with
              readyQ := ⟨ts.readyQ.highestTcb, metaBMap, bMap⟩ }
            (ReadyQueue.readQHighestPri ⟨ts.readyQ.highestTcb, metaBMap, bMap⟩)
        else ts.readyQ.highestTcb, metaBMap, bMap⟩ := by
    simp only [readyQRemove, hp, hhead, hsame, hbm, hmm, ↓reduceIte]
    split_ifs <;> rfl
  refine ⟨?_, ?_, ?_⟩
  · rw [drop_ready, hdef]
    exact hmaps _
  · rw [drop_ready, hdef]
    by_cases hth : some t = ts.readyQ.highestTcb
    · simp only [if_pos hth]
      rcases lowest_or_empty (drop (fun q => seq (.ready q)) p t) with
        hemp | ⟨q, hq, ⟨h, hh⟩, hlow⟩
      · obtain ⟨hneg, hsix⟩ := (hmaps ts.readyQ.highestTcb).readQHighestPri_empty hemp
        rw [hneg, firstReady_eq_none hemp, listArrayFirst, if_pos rfl]
        exact if_pos hsix
      · have hqne : drop (fun q => seq (.ready q)) p t q ≠ [] := by
          intro he
          rw [he] at hh
          exact absurd hh (by simp)
        have hq' := congrFun (drop_ready seq p t) q
        rw [(hmaps ts.readyQ.highestTcb).readQHighestPri_eq hqne hlow,
          firstReady_eq_some hq hh hlow, listArrayFirst, if_neg (by omega), Int.toNat_natCast,
          ← hh, ← hq']
        exact hl'.head (.ready q)
    · rw [if_neg hth, firstReady_drop ho ht hth]
  · intro q v hv
    rw [readyQRemove_tcb]
    exact ho.priority q v ((hl.mem_drop ht).mp hv).1

theorem readyQRemove_ok (hl : Lists ts.dl seq) (ho : ts.ReadyOk seq)
    (ht : t ∈ seq (.ready (ts.tcb t).taskPriority)) :
    (ts.readyQRemove t).ReadyOk (drop seq (.ready (ts.tcb t).taskPriority) t) := by
  cases he : (seq (.ready (ts.tcb t).taskPriority)).erase t with
  | nil => exact readyQRemove_last hl ho rfl ht he
  | cons u rest => exact readyQRemove_nonempty hl ho rfl ht (by rw [he, List.head?_cons])

theorem readyQRemove_lists (hl : Lists ts.dl seq)
    (ht : t ∈ seq (.ready (ts.tcb t).taskPriority)) :
    Lists (ts.readyQRemove t).dl (drop seq (.ready (ts.tcb t).taskPriority) t) := by
  rw [readyQRemove_dl]
  exact Dlist.dlistRemove_lists hl ht

end Remove

theorem dlistInit_self {ts : Tasks} {l : QueueId} (h : ts.dl.list l = ⟨none, none⟩) :
    ts.dlistInit l = ts := by
  have hdl : Dlist.dlistInit ts.dl l = ts.dl := by
    rw [Dlist.dlistInit, ← h, Function.update_eq_self]
  rw [dlistInit, hdl]

theorem readyQInit_zeroed {ts : Tasks} (h : ∀ p, ts.dl.list (.ready p) = ⟨none, none⟩) :
    ts.readyQInit = ts := by
  have hfold : ∀ ps : List ℕ, ps.foldl (fun ts i => ts.dlistInit (.ready i)) ts = ts := by
    intro ps
    induction ps with
    | nil => rfl
    | cons p ps ih => rw [List.foldl_cons, dlistInit_self (h p), ih]
  exact hfold _

/-- `order` lists the tasks now in the ready queue in the order of their last `readyQ_put`. -/
inductive ReadyRun : Tasks → List TcbPtr → Prop
  | init {ts : Tasks} (zeroed : ts.readyQ = ⟨none, 0, fun _ => 0⟩)
      (noLists : ∀ p, ts.dl.list (.ready p) = ⟨none, none⟩) (others : ∃ seq, Lists ts.dl seq) :
      ReadyRun ts.readyQInit []
  | put {ts : Tasks} {order : List TcbPtr} (run : ReadyRun ts order) (t : TcbPtr) (v : OsTcb)
      (inNoList : ∀ l, t ∉ ts.members l) (priority : v.taskPriority < priorityNumMax) :
      ReadyRun ((ts.setTcb t v).readyQPut t) (order ++ [t])
  | remove {ts : Tasks} {order : List TcbPtr} (run : ReadyRun ts order) (t : TcbPtr)
      (inList : t ∈ ts.members (.ready (ts.tcb t).taskPriority))
      (someReady : ∃ p u, u ∈ (ts.readyQRemove t).members (.ready p)) :
      ReadyRun (ts.readyQRemove t) (order.erase t)

def queuedAt (ts : Tasks) (order : List TcbPtr) (p : ℕ) : List TcbPtr :=
  order.filter fun t => (ts.tcb t).taskPriority = p

structure ReadyInv (ts : Tasks) (seq : QueueId → List TcbPtr) (order : List TcbPtr) : Prop where
  lists : Lists ts.dl seq
  ok : ts.ReadyOk seq
  queued : ∀ p, seq (.ready p) = ts.queuedAt order p

theorem queuedAt_append (ts : Tasks) (order : List TcbPtr) (t : TcbPtr) (p : ℕ) :
    ts.queuedAt (order ++ [t]) p =
      if p = (ts.tcb t).taskPriority then ts.queuedAt order p ++ [t] else ts.queuedAt order p := by
  rw [queuedAt, List.filter_append]
  split_ifs with hp
  · subst hp; simp [queuedAt]
  · simp [queuedAt, Ne.symm hp]

theorem queuedAt_erase (ts : Tasks) (order : List TcbPtr) (t : TcbPtr) (p : ℕ) :
    ts.queuedAt (order.erase t) p =
      if p = (ts.tcb t).taskPriority then (ts.queuedAt order p).erase t
      else ts.queuedAt order p := by
  split_ifs with hp
  · rw [queuedAt, queuedAt, List.erase_filter]
  · have hne : t ∉ ts.queuedAt order p := by
      rw [queuedAt, List.mem_filter, decide_eq_true_eq]
      exact fun h => hp h.2.symm
    rw [← List.erase_of_not_mem hne, queuedAt, queuedAt, List.erase_filter]

theorem queuedAt_congr {ts ts' : Tasks} {order : List TcbPtr}
    (h : ∀ t ∈ order, (ts'.tcb t).taskPriority = (ts.tcb t).taskPriority) (p : ℕ) :
    ts'.queuedAt order p = ts.queuedAt order p := by
  rw [queuedAt, queuedAt]
  exact List.filter_congr fun t ht => by rw [h t ht]

theorem ReadyInv.mem_order {ts : Tasks} {seq : QueueId → List TcbPtr} {order : List TcbPtr}
    (h : ReadyInv ts seq order) {t : TcbPtr} (ht : t ∈ order) :
    t ∈ seq (.ready (ts.tcb t).taskPriority) := by
  rw [h.queued, queuedAt, List.mem_filter]
  exact ⟨ht, decide_eq_true rfl⟩

theorem ReadyInv.init {ts : Tasks} (zeroed : ts.readyQ = ⟨none, 0, fun _ => 0⟩)
    (noLists : ∀ p, ts.dl.list (.ready p) = ⟨none, none⟩) {seq : QueueId → List TcbPtr}
    (hl : Lists ts.dl seq) : ReadyInv ts.readyQInit seq [] := by
  rw [readyQInit_zeroed noLists]
  have hempty : ∀ p, seq (.ready p) = [] := by
    intro p
    have hh := hl.head (.ready p)
    rw [noLists p] at hh
    exact List.head?_eq_none_iff.mp hh.symm
  refine ⟨hl, ⟨⟨?_, ?_, ?_, fun p _ => hempty p⟩, ?_, ?_⟩, hempty⟩
  · intro p _
    simp [zeroed, hempty, BitMap.value]
  · intro g _
    simp [zeroed]
  · intro g _
    simp [zeroed]
  · rw [zeroed, firstReady_eq_none fun p _ => hempty p]
  · intro p t ht
    rw [hempty] at ht
    exact absurd ht List.not_mem_nil

theorem zeroed_lists : Lists zeroed.dl fun _ => [] :=
  ⟨fun _ => rfl, fun _ => rfl, fun _ => trivial, fun _ => List.nodup_nil,
    fun _ _ _ h => absurd h List.not_mem_nil⟩

theorem ReadyInv.put {ts : Tasks} {seq : QueueId → List TcbPtr} {order : List TcbPtr}
    (h : ReadyInv ts seq order) (t : TcbPtr) (v : OsTcb) (hx : ∀ l, t ∉ seq l)
    (hp : v.taskPriority < priorityNumMax) :
    ReadyInv ((ts.setTcb t v).readyQPut t) (push seq (.ready v.taskPriority) t)
      (order ++ [t]) := by
  have hnew : ((ts.setTcb t v).tcb t).taskPriority = v.taskPriority := by simp [setTcb]
  have hold : ∀ u, u ≠ t → ((ts.setTcb t v).tcb u) = ts.tcb u := fun u hu => by simp [setTcb, hu]
  have hne : ∀ u ∈ order, u ≠ t := by
    rintro u hu rfl
    exact hx _ (h.mem_order hu)
  have hok : (ts.setTcb t v).ReadyOk seq := by
    refine h.ok.congr rfl (fun _ => rfl) fun p u hu => ?_
    rw [hold u]
    rintro rfl
    exact hx _ hu
  have hput := readyQPut_ok hok (by rwa [hnew])
  rw [hnew] at hput
  have hdl := readyQPut_dl (show Lists (ts.setTcb t v).dl seq from h.lists) hx
  rw [hnew] at hdl
  refine ⟨hdl, hput, fun p => ?_⟩
  have hsame : ((ts.setTcb t v).readyQPut t).queuedAt order p = ts.queuedAt order p :=
    queuedAt_congr (fun u hu => by rw [readyQPut_priority, hold u (hne u hu)]) p
  rw [queuedAt_append, readyQPut_priority, hnew, hsame, ← h.queued]
  by_cases hq : p = v.taskPriority
  · subst hq; simp
  · simp [hq]

theorem ReadyInv.remove {ts : Tasks} {seq : QueueId → List TcbPtr} {order : List TcbPtr}
    (h : ReadyInv ts seq order) (t : TcbPtr) (ht : t ∈ seq (.ready (ts.tcb t).taskPriority)) :
    ReadyInv (ts.readyQRemove t) (drop seq (.ready (ts.tcb t).taskPriority) t)
      (order.erase t) := by
  refine ⟨readyQRemove_lists h.lists ht, readyQRemove_ok h.lists h.ok ht, fun p => ?_⟩
  have hsame : (ts.readyQRemove t).queuedAt order p = ts.queuedAt order p :=
    queuedAt_congr (fun u _ => by rw [readyQRemove_tcb]) p
  rw [queuedAt_erase, readyQRemove_tcb, hsame, ← h.queued]
  by_cases hq : p = (ts.tcb t).taskPriority
  · subst hq; simp
  · simp [hq]

theorem ReadyRun.inv {ts : Tasks} {order : List TcbPtr} (h : ReadyRun ts order) :
    ∃ seq, ReadyInv ts seq order := by
  induction h with
  | init zeroed noLists others =>
    obtain ⟨seq, hl⟩ := others
    exact ⟨seq, .init zeroed noLists hl⟩
  | put run t v inNoList priority ih =>
    obtain ⟨seq, ih⟩ := ih
    exact ⟨_, ih.put t v (fun l => by rw [← members_eq ih.lists]; exact inNoList l) priority⟩
  | remove run t inList someReady ih =>
    obtain ⟨seq, ih⟩ := ih
    exact ⟨_, ih.remove t (by rwa [← members_eq ih.lists])⟩

theorem ReadyInv.some_ready {ts : Tasks} {seq : QueueId → List TcbPtr} {order : List TcbPtr}
    (h : ReadyInv ts seq order) {t : TcbPtr} (ht : t ∈ order) :
    ∃ p < priorityNumMax, ∃ u, (seq (.ready p)).head? = some u ∧
      ts.readyQ.highestTcb = some u ∧ (∀ q < p, seq (.ready q) = []) ∧
      order.find? (fun v => (ts.tcb v).taskPriority = p) = some u := by
  have hmem := h.mem_order ht
  rcases lowest_or_empty fun q => seq (.ready q) with hemp | ⟨p, hp, ⟨u, hu⟩, hlow⟩
  · have hlt := h.ok.maps.lt_of_ne_nil (List.ne_nil_of_mem hmem)
    have hnil : seq (.ready (ts.tcb t).taskPriority) = [] := hemp _ hlt
    rw [hnil] at hmem
    exact absurd hmem List.not_mem_nil
  · refine ⟨p, hp, u, hu, ?_, hlow, ?_⟩
    · rw [h.ok.highest, firstReady_eq_some hp hu hlow]
    · rw [← List.head?_filter, ← hu, h.queued, queuedAt]

/-- The three levels of the ready queue agree after every run of puts and removes, and the
cached task is the one that was put first among those of the highest priority. -/
theorem readyRun_represents {ts : Tasks} {order : List TcbPtr} (h : ReadyRun ts order) :
    (∀ p < priorityNumMax,
      (ts.readyQ.bMap (p >>> 5)).getLsbD (p &&& 31) = true ↔ ts.members (.ready p) ≠ []) ∧
    (∀ g < 8, ts.readyQ.metaBMap.getLsbD g = true ↔ ts.readyQ.bMap g ≠ 0) ∧
    (∀ t ∈ order, ∀ l, t ∈ ts.members l ↔ l = .ready (ts.tcb t).taskPriority) ∧
    (∀ p, ∀ t ∈ ts.members (.ready p), t ∈ order) ∧
    (order ≠ [] → ∃ p < priorityNumMax, ∃ t, ts.readyQ.highestTcb = some t ∧
      (ts.members (.ready p)).head? = some t ∧ (∀ q < p, ts.members (.ready q) = []) ∧
      order.find? (fun u => (ts.tcb u).taskPriority = p) = some t) := by
  obtain ⟨seq, hinv⟩ := h.inv
  simp only [members_eq hinv.lists]
  refine ⟨hinv.ok.maps.bit, hinv.ok.maps.group, ?_, ?_, ?_⟩
  · intro t ht l
    constructor
    · exact fun hl => hinv.lists.disjoint _ _ t hl (hinv.mem_order ht)
    · rintro rfl
      exact hinv.mem_order ht
  · intro p t ht
    rw [hinv.queued, queuedAt, List.mem_filter] at ht
    exact ht.1
  · intro hne
    obtain ⟨t, ht⟩ := List.exists_mem_of_ne_nil order hne
    obtain ⟨p, hp, u, hu, hhigh, hlow, hfirst⟩ := hinv.some_ready ht
    exact ⟨p, hp, u, hhigh, hu, hlow, hfirst⟩

def ReadyAlone (ts : Tasks) (order : List TcbPtr) : Prop :=
  ReadyRun ts order ∧ ∃ seq, ReadyInv ts seq order ∧ ∀ l, seq l ⊆ order

theorem ReadyAlone.put {ts : Tasks} {order : List TcbPtr} (h : ReadyAlone ts order) (t : TcbPtr)
    (v : OsTcb) (ht : t ∉ order) (hp : v.taskPriority < priorityNumMax) :
    ReadyAlone ((ts.setTcb t v).readyQPut t) (order ++ [t]) := by
  obtain ⟨hrun, seq, hinv, hsub⟩ := h
  have hnone : ∀ l, t ∉ seq l := fun l hl => ht (hsub l hl)
  have hmembers : ∀ l, t ∉ ts.members l := by
    intro l
    rw [members_eq hinv.lists]
    exact hnone l
  refine ⟨hrun.put t v hmembers hp, _, hinv.put t v hnone hp, fun l u hu => ?_⟩
  rw [push, Function.update_apply] at hu
  split_ifs at hu with hl
  · exact List.append_subset.mpr ⟨fun w hw => List.mem_append_left _ (hsub _ hw),
      List.subset_append_right _ _⟩ hu
  · exact List.mem_append_left _ (hsub l hu)

/-- Tasks 5 and 7 are put at priority 3, task 6 between them at priority 1 and taken out again. -/
theorem readyRun_zeroed_rotated : ∃ ts, ReadyRun ts [5, 7] ∧ ts.readyQ.highestTcb = some 5 := by
  have hinit : ReadyAlone zeroed.readyQInit [] :=
    ⟨.init rfl (fun _ => rfl) ⟨_, zeroed_lists⟩, _, .init rfl (fun _ => rfl) zeroed_lists,
      fun _ => List.Subset.refl _⟩
  obtain ⟨hrun, seq, hinv, -⟩ := ((hinit.put 5 ⟨3, 0, 0, 0, 3, .ready, none⟩ (by decide) (by decide)).put
    6 ⟨1, 0, 0, 0, 1, .ready, none⟩ (by decide) (by decide)).put
    7 ⟨3, 0, 0, 0, 3, .ready, none⟩ (by decide) (by decide)
  set ts := (((((zeroed.readyQInit.setTcb 5 ⟨3, 0, 0, 0, 3, .ready, none⟩).readyQPut 5).setTcb 6
    ⟨1, 0, 0, 0, 1, .ready, none⟩).readyQPut 6).setTcb 7 ⟨3, 0, 0, 0, 3, .ready, none⟩).readyQPut 7
  have hfive : (ts.tcb 5).taskPriority = 3 := by simp [ts, readyQPut_priority, setTcb]
  have hseven : (ts.tcb 7).taskPriority = 3 := by simp [ts, readyQPut_priority, setTcb]
  have hsix := hinv.mem_order (t := 6) (by decide)
  have hleft : 5 ∈ (ts.readyQRemove 6).members (.ready ((ts.readyQRemove 6).tcb 5).taskPriority) := by
    rw [members_eq (hinv.remove 6 hsix).lists]
    exact (hinv.remove 6 hsix).mem_order (by decide)
  have hrest : ReadyRun (ts.readyQRemove 6) [5, 7] :=
    hrun.remove 6 (by rwa [members_eq hinv.lists]) ⟨_, 5, hleft⟩
  obtain ⟨-, -, -, -, hhigh⟩ := readyRun_represents hrest
  obtain ⟨p, -, t, ht, -, -, hfirst⟩ := hhigh (by decide)
  refine ⟨_, hrest, ht.trans ?_⟩
  rw [readyQRemove_tcb] at hfirst
  by_cases hp : 3 = p
  · simpa [hfive, hp] using hfirst.symm
  · simp [hfive, hseven, hp] at hfirst

end Tasks

end DfewOS
