import DfewOS.ReadySearch
import DfewOS.TickAccuracy
import DfewOS.Calls

/-!
# The ready queue is searched in range

A search finds a priority as long as some task is ready. Blocking calls, gives
and the boosts of `_up_owner_pri` leave the idle task or the running one ready;
the tick takes out the running task, and where that is the idle task nobody else
may be ready.
-/

namespace DfewOS
open ListHeap (Lists drop)
open BitMap (lsb)
open Transition (System Run Reachable)

/-- `LSB` is applied to non-zero words, and both indices are inside their arrays. -/
structure ReadyQueue.InRange (r : ReadyQueue) : Prop where
  group : r.metaBMap ≠ 0
  index : (BitVec.ofInt 32 (lsb r.metaBMap)).toNat < priorityNumMax / 32
  word : r.bMapAt (BitVec.ofInt 32 (lsb r.metaBMap)) ≠ 0
  priority : 0 ≤ r.readQHighestPri ∧ r.readQHighestPri < priorityNumMax

theorem ReadyQueue.Maps.inRange_iff {r : ReadyQueue} {arr : ℕ → List TcbPtr} (h : r.Maps arr) :
    r.InRange ↔ ∃ p < priorityNumMax, arr p ≠ [] := by
  rcases lowest_or_empty arr with hemp | ⟨p, hp, ⟨t, ht⟩, hlow⟩
  · refine iff_of_false (fun hr => ?_) (fun ⟨p, hp, hne⟩ => hne (hemp p hp))
    have hneg := (h.readQHighestPri_empty hemp).1
    have hpri := hr.priority.1
    omega
  · have hne : arr p ≠ [] := by
      intro hnil
      rw [hnil] at ht
      cases ht
    refine iff_of_true ?_ ⟨p, hp, hne⟩
    have hpri := h.readQHighestPri_eq hne hlow
    have hword : r.bMap (p / 32) ≠ 0 := by
      rw [BitMap.word_ne_zero_iff]
      exact ⟨p % 32, Nat.mod_lt _ (by decide), by rw [Nat.div_add_mod]; exact (h.bit p hp).mpr hne⟩
    have hdiv : p / 32 < 8 := by
      simp only [priorityNumMax] at hp
      omega
    have hmeta : r.metaBMap ≠ 0 := by
      intro hz
      have hset := (h.group _ hdiv).mpr hword
      rw [hz] at hset
      simp at hset
    obtain ⟨g, -, hset, hlsb⟩ := BitMap.lsb_of_ne_zero hmeta
    have hg : g < 8 := by
      by_contra hge
      rw [h.groupHigh g (by omega)] at hset
      cases hset
    obtain ⟨hindex, hnat⟩ := group_index_ne g hg
    refine ⟨hmeta, ?_, ?_, ?_⟩
    · rw [hlsb, hnat]
      exact hg
    · rw [hlsb, ReadyQueue.bMapAt, if_neg hindex, hnat]
      exact (h.group g hg).mp hset
    · rw [hpri]
      omega

namespace Searching
open Tasks (Linked)
open Watched (Always report ofOption)

def ReadyIn (ts : Tasks) (t : TcbPtr) : Prop := ts.live t = true ∧ (ts.tcb t).status = .ready

section Remove
variable {ts : Tasks} {seq : QueueId → List TcbPtr} {t u : TcbPtr}

theorem readyQRemove_events (ts : Tasks) (t : TcbPtr) :
    (readyQRemove ts t).events =
      if ((ts.dlistRemove (.ready (ts.tcb t).taskPriority) t).dl.list
          (.ready (ts.tcb t).taskPriority)).head = none ∧ some t = ts.readyQ.highestTcb then
        [⟨ts.readyQ.highestTcb, (ts.readyQRemove t).readyQ.metaBMap,
          (ts.readyQRemove t).readyQ.bMap⟩]
      else [] := by
  have hsame : ∀ l, (ts.dlistRemove l t).readyQ = ts.readyQ := fun _ => rfl
  simp only [readyQRemove, Tasks.readyQRemove, hsame]
  by_cases hhead : ((ts.dlistRemove (.ready (ts.tcb t).taskPriority) t).dl.list
      (.ready (ts.tcb t).taskPriority)).head = none
  · by_cases hth : some t = ts.readyQ.highestTcb
    · rw [if_pos hhead, if_pos hth, if_pos (And.intro hhead hth), if_pos hhead, if_pos hth]
      rfl
    · have hno : ¬ (((ts.dlistRemove (.ready (ts.tcb t).taskPriority) t).dl.list
          (.ready (ts.tcb t).taskPriority)).head = none ∧ some t = ts.readyQ.highestTcb) :=
        fun hc => hth hc.2
      rw [if_pos hhead, if_neg hth, if_neg hno]
      rfl
  · have hno : ¬ (((ts.dlistRemove (.ready (ts.tcb t).taskPriority) t).dl.list
        (.ready (ts.tcb t).taskPriority)).head = none ∧ some t = ts.readyQ.highestTcb) :=
      fun hc => hhead hc.1
    rw [if_neg hhead, if_neg hno]
    split_ifs <;> rfl

theorem readyQRemove_always (h : Linked ts seq none) (ht : ReadyIn ts t) :
    (readyQRemove ts t).Always ReadyQueue.InRange ↔ ∃ u, u ≠ t ∧ ReadyIn ts u := by
  have hm := h.mem_ready ht.1 ht.2
  have hmaps := (Tasks.readyQRemove_ok h.lists h.ready hm).maps
  have hdrop : ∀ u p, u ∈ drop seq (.ready (ts.tcb t).taskPriority) t (.ready p) ↔
      u ∈ seq (.ready p) ∧ u ≠ t := fun u p => h.lists.mem_drop hm
  have hrange := (hmaps.congr (fun _ => Iff.rfl) ts.readyQ.highestTcb).inRange_iff
  constructor
  · intro hall
    by_contra hno
    have hempty : ∀ p, drop seq (.ready (ts.tcb t).taskPriority) t (.ready p) = [] := by
      intro p
      rw [List.eq_nil_iff_forall_not_mem]
      intro u hu
      obtain ⟨hu, hne⟩ := (hdrop u p).mp hu
      exact hno ⟨u, hne, h.live_of_mem hu, (OsTcb.status_of_home (h.home_of_mem hu)).mpr trivial⟩
    have hhead : ((ts.dlistRemove (.ready (ts.tcb t).taskPriority) t).dl.list
        (.ready (ts.tcb t).taskPriority)).head = none := by
      have hlast := hempty (ts.tcb t).taskPriority
      rw [ListHeap.drop_self] at hlast
      rw [Tasks.dlistRemove_head h.lists hm, hlast, List.head?_nil]
    have hth : some t = ts.readyQ.highestTcb := by
      by_contra hth
      have hfirst := Tasks.firstReady_drop h.ready hm hth
      rw [← Tasks.drop_ready, firstReady_eq_none fun p _ => hempty p, h.ready.highest] at hfirst
      rcases lowest_or_empty fun p => seq (.ready p) with hemp | ⟨p, hp, ⟨u, hu⟩, hlow⟩
      · exact List.ne_nil_of_mem hm (hemp _ (h.inRange t ht.1).priority)
      · rw [firstReady_eq_some hp hu hlow] at hfirst
        cases hfirst
    rw [Always, readyQRemove_events, if_pos ⟨hhead, hth⟩] at hall
    obtain ⟨p, -, hne⟩ := hrange.mp (hall _ (List.mem_singleton_self _))
    exact hne (hempty p)
  · rintro ⟨u, hne, hu⟩ r hr
    rw [readyQRemove_events] at hr
    split_ifs at hr
    · obtain rfl := List.mem_singleton.mp hr
      apply hrange.mpr
      have hum := (hdrop u _).mpr ⟨h.mem_ready hu.1 hu.2, hne⟩
      exact ⟨(ts.tcb u).taskPriority, (h.inRange u hu.1).priority, List.ne_nil_of_mem hum⟩
    · cases hr

theorem ReadyIn.readyQPut (h : ReadyIn ts u) (t : TcbPtr) : ReadyIn (ts.readyQPut t) u := by
  refine ⟨h.1, ?_⟩
  rw [Tasks.readyQPut_tcb]
  by_cases hu : u = t
  · rw [hu, Function.update_self]
  · rw [Function.update_of_ne hu]
    exact h.2

theorem ReadyIn.setPriority (h : ReadyIn ts u) (t : TcbPtr) (p : ℕ) :
    ReadyIn (ts.setPriority t p) u := by
  refine ⟨h.1, ?_⟩
  by_cases hu : u = t
  · subst hu
    simpa [Tasks.setPriority, Tasks.setTcb] using h.2
  · simpa [Tasks.setPriority, Tasks.setTcb, hu] using h.2

end Remove

structure Attended (ts : Tasks) (t : TcbPtr) : Prop where
  linked : ∃ seq, Linked ts seq none
  ready : ReadyIn ts t
  other : ∃ u, u ≠ t ∧ ReadyIn ts u

theorem Attended.remove {ts : Tasks} {t : TcbPtr} (h : Attended ts t) :
    (readyQRemove ts t).Always ReadyQueue.InRange := by
  obtain ⟨seq, hlink⟩ := h.linked
  exact (readyQRemove_always hlink h.ready).mpr h.other

theorem Attended.pendOn {ts : Tasks} {t : TcbPtr} (h : Attended ts t) (l : QueueId) (timeout : ℕ)
    (status : TaskStatus) (pendObj : Option ObjPtr) :
    (Searching.pendOn ts l t timeout status pendObj).Always ReadyQueue.InRange :=
  h.remove.bind fun _ _ => .pure _

section Calls
variable {k : Kernel} {cur : TcbPtr}

theorem delayQDelay_always (h : Attended k.ts cur) (ticks : ℕ) :
    (delayQDelay k cur ticks).Always ReadyQueue.InRange := by
  rw [delayQDelay]
  split_ifs
  · exact h.remove.bind fun _ _ => .pure _
  · exact (h.pendOn _ _ _ _).bind fun _ _ => .pure _

theorem semBTake_always (h : Attended k.ts cur) (s : ObjPtr) (timeout : ℕ) :
    (semBTake k cur s timeout).Always ReadyQueue.InRange := by
  rw [semBTake]
  split_ifs
  · exact .pure _
  · exact (h.pendOn _ _ _ _).bind fun _ _ => .pure _
  · exact .pure _

theorem semCTake_always (h : Attended k.ts cur) (s : ObjPtr) (timeout : ℕ) :
    (semCTake k cur s timeout).Always ReadyQueue.InRange := by
  rw [semCTake]
  split_ifs
  · exact .pure _
  · exact (h.pendOn _ _ _ _).bind fun _ _ => .pure _
  · exact .pure _

theorem msgQSend_always (h : Attended k.ts cur) (q : ObjPtr) (buffer : List UInt8)
    (bufLen timeout : ℕ) :
    (msgQSend k cur q buffer bufLen timeout).Always ReadyQueue.InRange := by
  rw [msgQSend]
  split_ifs
  · exact .pure _
  · exact (h.pendOn _ _ _ _).bind fun _ _ => .pure _
  · exact .pure _

theorem msgQReceive_always (h : Attended k.ts cur) (q : ObjPtr) (buffer : List UInt8)
    (bufLen timeout : ℕ) :
    (msgQReceive k cur q buffer bufLen timeout).Always ReadyQueue.InRange := by
  rw [msgQReceive]
  split_ifs
  · exact .ofOption _
  · exact (h.pendOn _ _ _ _).bind fun _ _ => .pure _
  · exact .pure _

/-- The owner that `_up_owner_pri` moves is one of many as long as two tasks are ready. -/
theorem upOwnerPri_always {seq : QueueId → List TcbPtr} {a b w : TcbPtr} {m : ObjPtr} {n : ℕ}
    (h : Linked k.ts seq none) (hlive : ∀ m t, (k.semM m).ownerTcb = some t → k.ts.live t = true)
    (ha : ReadyIn k.ts a) (hb : ReadyIn k.ts b) (hab : a ≠ b)
    (hp : (k.ts.tcb w).taskPriority < priorityNumMax) :
    (upOwnerPri n k w m).Always ReadyQueue.InRange := by
  induction n generalizing k w m with
  | zero => exact .ofOption _
  | succ n ih =>
    rw [upOwnerPri]
    refine (Always.ofOption _).bind fun o ho => ?_
    refine Always.bind ?_ fun k' _ => ?_
    · split_ifs
      · cases hs : (k.ts.tcb o).status
        case ready =>
          have hother : ∃ u, u ≠ o ∧ ReadyIn k.ts u := by
            by_cases hao : a = o
            · exact ⟨b, fun hbo => hab (hao.trans hbo.symm), hb⟩
            · exact ⟨a, hao, ha⟩
          have hatt : Attended k.ts o := ⟨⟨seq, h⟩, ⟨hlive m o ho, hs⟩, hother⟩
          exact hatt.remove.bind fun _ _ => .pure _
        case pendSemM =>
          refine (Always.ofOption _).bind fun m' _ => ?_
          have hset := h.setPriority (show (k.ts.tcb o).status ≠ .ready by simp [hs]) hp
          refine ih hset hlive (ha.setPriority _ _) (hb.setPriority _ _) ?_
          simpa [Tasks.setPriority, Tasks.setTcb] using hp
        all_goals exact .pure _
      · exact .pure _
    · split_ifs <;> exact .pure _

theorem semMTake_always (h : k.Core) (hcur : ReadyIn k.ts cur) (hne : idle ≠ cur) (m : ObjPtr)
    (timeout : ℕ) : (semMTake k cur m timeout).Always ReadyQueue.InRange := by
  have hpri := (h.linked.inRange cur hcur.1).priority
  rw [semMTake]
  split_ifs with hfree hwait
  · exact .ofOption _
  · rw [not_or] at hfree
    refine (upOwnerPri_always h.linked h.owner hcur h.idle hne.symm hpri).bind fun k₁ hk₁ => ?_
    obtain ⟨k₂, seq₂, hrun, hlink, hlift, -⟩ :=
      Kernel.upOwnerPri_boosts h.linked h.owner h.waited hfree.1 hpri (k.lessUrgent_card _)
    have hk : k₁ = k₂ := by
      rw [upOwnerPri_value, hrun] at hk₁
      exact (Option.some.inj hk₁).symm
    have hready : ∀ t, ReadyIn k.ts t → ReadyIn k₁.ts t := by
      intro t ht
      rw [hk]
      exact ⟨by rw [hlift.live, ht.1], by rw [hlift.tcb t]; exact ht.2⟩
    have hatt : Attended k₁.ts cur :=
      ⟨⟨seq₂, hk ▸ hlink⟩, hready cur hcur, idle, hne, hready idle h.idle⟩
    exact hatt.remove.bind fun _ _ => (Always.ofOption _).bind fun _ _ => .pure _
  · exact .pure _

theorem lowerMyself_always (h : Attended k.ts cur) :
    (lowerMyself k cur).Always ReadyQueue.InRange := by
  simp only [lowerMyself]
  split_ifs
  · exact h.remove.bind fun _ _ => .pure _
  · exact .pure _

theorem updateWaitPri_ts (k : Kernel) (m : ObjPtr) : (k.updateWaitPri m).ts = k.ts := by
  rw [Kernel.updateWaitPri]
  split <;> rfl

theorem semMGive_always (h : Linked k.ts k.ts.members none) (hcur : ReadyIn k.ts cur)
    (hidle : ReadyIn k.ts idle) (hne : idle ≠ cur) (m : ObjPtr) :
    (semMGive k cur m).Always ReadyQueue.InRange := by
  have hready : ¬ (QueueId.semM m).IsReady := fun hr => hr
  simp only [semMGive]
  split_ifs
  · exact .pure _
  · rw [show ∀ v, (k.setSemM m v).ts = k.ts from fun _ => rfl]
    cases hc : k.ts.members (.semM m) with
    | nil =>
      rw [h.dlistGet_nil hc]
      exact lowerMyself_always ⟨⟨_, h⟩, hcur, idle, hne, hidle⟩
    | cons x rest =>
      rw [h.dlistGet_cons hc]
      apply lowerMyself_always
      rw [updateWaitPri_ts]
      have hget := h.dlistGet hready hc
      have hxl : (k.ts.dlistGet (.semM m)).1.live x = true :=
        h.live_of_mem (show x ∈ k.ts.members (.semM m) by rw [hc]; exact List.mem_cons_self)
      have hkeep : ∀ t, ReadyIn k.ts t → ReadyIn ((k.ts.dlistGet (.semM m)).1.readyQPut x) t := by
        intro t ht
        have hsame : ReadyIn (k.ts.dlistGet (.semM m)).1 t := ht
        exact hsame.readyQPut x
      exact ⟨⟨_, hget.readyQPut hxl⟩, hkeep cur hcur, idle, hne, hkeep idle hidle⟩

theorem taskDelete_always {t : TcbPtr} (h : Linked k.ts k.ts.members none)
    (hidle : ReadyIn k.ts idle) (hl : k.ts.live t = true) (hne : t ≠ idle) :
    (taskDelete k t).Always ReadyQueue.InRange := by
  refine Always.bind ?_ fun _ _ => .pure _
  rw [unlinkTask]
  split_ifs with hs
  · have hatt : Attended k.ts t := ⟨⟨_, h⟩, ⟨hl, hs⟩, idle, hne.symm, hidle⟩
    exact hatt.remove.bind fun _ _ => .pure _
  · exact .ofOption _

end Calls

section Tick
variable {k : Kernel} {cur : TcbPtr} {ts : Tasks}

/-- Some task besides `t` is ready, or becomes ready at the next tick. -/
def Relieved (k : Kernel) (t : TcbPtr) : Prop :=
  ∃ u, u ≠ t ∧ k.ts.live u = true ∧
    ((k.ts.tcb u).status = .ready ∨ (k.ts.tcb u).delayTicks = 1)

theorem decrease_ticked (h : k.Core) (hd : decrease k = some ts) :
    ∃ seq, Linked ts seq none ∧ Kernel.Ticked k.visited k.ts k.ts.members ts seq := by
  obtain ⟨ts₁, ts₂, ts₃, ts₄, ts', seq, hrun₁, hrun₂, hrun₃, hrun₄, hrun', hlink, hticked⟩ :=
    Kernel.lists_ticked h.objects h.linked
  have hsame : decrease k = some ts' := by
    simp only [decrease, hrun₁, hrun₂, hrun₃, hrun₄, hrun', Option.bind_eq_bind, Option.bind_some]
  rw [hsame] at hd
  obtain rfl := Option.some.inj hd
  exact ⟨seq, hlink, hticked⟩

theorem visited_of_waits (h : k.Core) {t : TcbPtr} (hl : k.ts.live t = true)
    (hs : (k.ts.tcb t).status ≠ .ready) :
    ∃ l ∈ k.visited, t ∈ k.ts.members l ∧ (k.ts.tcb t).delayTicks ≠ 0 := by
  have hplaced := h.linked.placed t hl (by simp)
  obtain ⟨l, hhome⟩ := Option.ne_none_iff_exists'.mp hplaced.home
  have hnot : ¬ l.IsReady := fun hr => hs ((OsTcb.status_of_home hhome).mpr hr)
  exact ⟨l, (k.mem_visited l).mpr ⟨hnot, h.registered t l hl hhome⟩,
    (h.linked.home t l).mpr ⟨hl, by simp, hhome⟩, hplaced.delay hs⟩

theorem kept_ready {seq : QueueId → List TcbPtr} (h : k.Core)
    (ht : Kernel.Ticked k.visited k.ts k.ts.members ts seq) {t : TcbPtr} (hr : ReadyIn k.ts t) :
    ReadyIn ts t := by
  have hnot : ∀ l ∈ k.visited, t ∉ k.ts.members l := fun l hl hm =>
    ((k.mem_visited l).mp hl).1 ((OsTcb.status_of_home (h.linked.home_of_mem hm)).mp hr.2)
  exact ⟨by rw [ht.live, hr.1], by rw [ht.kept t hnot, hr.2]⟩

theorem relieved_iff (h : k.Core) (hcur : ReadyIn k.ts cur) (hd : decrease k = some ts) :
    (∃ u, u ≠ cur ∧ ReadyIn ts u) ↔ Relieved k cur := by
  obtain ⟨seq, hlink, ht⟩ := decrease_ticked h hd
  have hwaits : ∀ l ∈ k.visited, ∀ t ∈ k.ts.members l, t ≠ cur := by
    rintro l hl t hm rfl
    exact ((k.mem_visited l).mp hl).1
      ((OsTcb.status_of_home (h.linked.home_of_mem hm)).mp hcur.2)
  constructor
  · rintro ⟨u, hne, hu⟩
    have hlive : k.ts.live u = true := by rw [← ht.live, hu.1]
    refine ⟨u, hne, hlive, ?_⟩
    by_cases hs : (k.ts.tcb u).status = .ready
    · exact Or.inl hs
    · right
      obtain ⟨l, hl, hm, hnz⟩ := visited_of_waits h hlive hs
      obtain ⟨pre, x, post, hsplit, -, hw⟩ := ht.walked l hl
      rw [hsplit] at hm
      -- only the expired task of the list has become ready
      rcases List.mem_append.mp hm with hm | hm
      · have hsame := (hw.counted u hm).2
        have hready := hu.2
        rw [hsame] at hready
        exact absurd hready hs
      · rcases List.mem_append.mp hm with hm | hm
        · have hx : x = some u := Option.mem_toList.mp hm
          exact (Kernel.decOf_eq_zero hnz).mp (hw.expired u hx).1
        · have hready := hu.2
          rw [hw.skipped u hm] at hready
          exact absurd hready hs
  · rintro ⟨u, hne, hl, hor⟩
    by_cases hs : (k.ts.tcb u).status = .ready
    · exact ⟨u, hne, kept_ready h ht ⟨hl, hs⟩⟩
    · have hone := hor.resolve_left hs
      obtain ⟨l, hvis, hm, hnz⟩ := visited_of_waits h hl hs
      obtain ⟨pre, x, post, hsplit, -, hw⟩ := ht.walked l hvis
      cases x with
      | none =>
        rw [hw.ends rfl, Option.toList_none, List.nil_append, List.append_nil] at hsplit
        exact absurd ((Kernel.decOf_eq_zero hnz).mpr hone) (hw.counted u (hsplit ▸ hm)).1
      | some y =>
        have hy : y ∈ k.ts.members l := by rw [hsplit]; simp
        have hwoken := (hw.expired y rfl).2
        refine ⟨y, hwaits l hvis y hy, ?_, ?_⟩
        · rw [ht.live, h.linked.live_of_mem hy]
        · rw [hwoken]
          rfl

theorem tickAnnounce_always (h : k.Core) (hcur : ReadyIn k.ts cur) :
    (tickAnnounce k cur).Always ReadyQueue.InRange ↔ Relieved k cur := by
  obtain ⟨k', hrun, -⟩ := Kernel.tickAnnounce_ticks h hcur.1 hcur.2
  rw [← tickAnnounce_value, tickAnnounce, Watched.value_bind, Watched.value_ofOption] at hrun
  obtain ⟨ts, hd, -⟩ := Option.bind_eq_some_iff.mp hrun
  obtain ⟨seq, hlink, ht⟩ := decrease_ticked h hd
  rw [← relieved_iff h hcur hd, ← readyQRemove_always hlink (kept_ready h ht hcur)]
  constructor
  · intro hall
    exact (hall.of_bind_of_value hd).of_bind
  · intro hall
    refine (Always.ofOption _).bind fun ts' hts' => ?_
    rw [Watched.value_ofOption, hd] at hts'
    obtain rfl := Option.some.inj hts'
    exact hall.bind fun _ _ => .pure _

end Tick

section Steps
variable {k k' : Kernel} {cur : TcbPtr} {c : Call} {e : Event}

theorem attended_running (h : k.Inv) (hcur : k.curTcb = some cur) (hne : idle ≠ cur) :
    Attended k.ts cur :=
  ⟨⟨_, h.linked⟩, h.running cur hcur, idle, hne, h.idle⟩

theorem enter_always (h : k.Inv) (hcur : k.curTcb = some cur) (hne : idle ≠ cur)
    (hok : k.callOk c) : (enter k cur c).Always ReadyQueue.InRange := by
  have hatt := attended_running h hcur hne
  cases c with
  | taskDelete t => exact taskDelete_always h.linked h.idle hok.2.2.1 hok.2.2.2
  | delayQDelay ticks => exact delayQDelay_always hatt ticks
  | semBTake s timeout => exact semBTake_always hatt s timeout
  | semCTake s timeout => exact semCTake_always hatt s timeout
  | semMTake m timeout => exact semMTake_always h.toCore hatt.ready hne m timeout
  | semMGive m => exact semMGive_always h.linked hatt.ready h.idle hne m
  | msgQSend q buffer bufLen timeout => exact msgQSend_always hatt q buffer bufLen timeout
  | msgQReceive q buffer bufLen timeout => exact msgQReceive_always hatt q buffer bufLen timeout
  | _ => exact .ofOption _

theorem resume_always (h : k.Inv) (hcur : k.curTcb = some cur) (hpc : k.pc cur = .switched c) :
    (resume k cur c).Always ReadyQueue.InRange := by
  have hne : idle ≠ cur := by
    rintro rfl
    rw [h.idlePc] at hpc
    cases hpc
  have hatt := attended_running h hcur hne
  cases c with
  | semBTake s timeout =>
    simp only [resume, semBResume]
    split_ifs
    · exact semBTake_always hatt s _
    · exact .pure _
  | semCTake s timeout =>
    simp only [resume, semCResume]
    split_ifs
    · exact semCTake_always hatt s _
    · exact .pure _
  | msgQSend q buffer bufLen timeout =>
    simp only [resume, msgQSendResume]
    split_ifs
    · exact msgQSend_always hatt q buffer bufLen _
    · exact .pure _
  | msgQReceive q buffer bufLen timeout =>
    simp only [resume, msgQReceiveResume]
    split_ifs
    · exact msgQReceive_always hatt q buffer bufLen _
    · exact .pure _
  | _ => exact .ofOption _

/-- Wherever a tick comes while the idle task runs, another task is ready or is woken by it. -/
def KeepsReady (k : Kernel) (e : Event) : Prop :=
  e.act = .tick → k.curTcb = some idle → Relieved k idle

theorem exec_tick_always (h : k.Inv) (hcur : k.curTcb = some cur) (hi : k.intEnabled = true) :
    (exec k .tick).Always ReadyQueue.InRange ↔ (cur = idle → Relieved k idle) := by
  have hrun : (exec k .tick).Always ReadyQueue.InRange ↔
      (tickAnnounce k cur).Always ReadyQueue.InRange := by
    rw [exec, hcur]
    simp only [hi, ↓reduceIte]
    constructor
    · intro hall
      exact (hall.of_bind_of_value rfl).of_bind
    · intro hall
      refine (Always.ofOption _).bind fun c hc => ?_
      obtain rfl := Option.some.inj hc
      exact hall.bind fun _ _ => .ofOption _
  rw [hrun, tickAnnounce_always h.toCore (h.running cur hcur)]
  constructor
  · intro hrel hc
    rwa [hc] at hrel
  · intro hkeep
    by_cases hc : cur = idle
    · rw [hc]
      exact hkeep hc
    · exact ⟨idle, Ne.symm hc, h.idle.1, Or.inl h.idle.2⟩

theorem exec_always (h : k.Inv) (hs : system.step k e k') :
    (exec k e.act).Always ReadyQueue.InRange ↔ KeepsReady k e := by
  obtain ⟨a, d⟩ := e
  obtain ⟨hdef, he⟩ := hs
  have hother : a ≠ .tick → KeepsReady k ⟨a, d⟩ := fun hne ht => absurd ht hne
  cases a with
  | tick =>
    have hi := Kernel.exec_tick_enabled he
    obtain ⟨cur, hcur⟩ : ∃ cur, k.curTcb = some cur := by
      cases hc : k.curTcb with
      | none => simp [Kernel.intEnabled, hc] at hi
      | some cur => exact ⟨cur, rfl⟩
    rw [exec_tick_always h hcur hi]
    constructor
    · intro hrel _ hc
      exact hrel (Option.some.inj (hcur.symm.trans hc))
    · intro hkeep hc
      exact hkeep rfl (hc ▸ hcur)
  | call c =>
    refine iff_of_true ((Always.ofOption _).bind fun cur hcur => ?_) (hother (by simp))
    have hne : idle ≠ cur := by
      rintro rfl
      exact hdef.1 hcur
    split_ifs
    · exact (enter_always h hcur hne hdef.2).bind fun _ _ => .ofOption _
    · exact .ofOption _
  | resume =>
    refine iff_of_true ((Always.ofOption _).bind fun cur hcur => ?_) (hother (by simp))
    cases hpc : k.pc cur with
    | switched c => exact (resume_always h hcur hpc).bind fun _ _ => .ofOption _
    | _ => exact .ofOption _
  | exit =>
    refine iff_of_true ((Always.ofOption _).bind fun cur hcur => ?_) (hother (by simp))
    have hne : idle ≠ cur := by
      rintro rfl
      exact hdef hcur
    split_ifs
    · have hremove := (attended_running h hcur hne).remove
      have hreturn : (taskReturn k cur).Always ReadyQueue.InRange := by
        rw [taskReturn]
        exact hremove.bind fun _ _ => .pure _
      exact hreturn.bind fun _ _ => .ofOption _
    · exact .ofOption _
  | _ => exact iff_of_true (.ofOption _) (hother (by simp))

end Steps

/-- The kernel with the ready queues that `_readQ_highest_pri` has searched so far. -/
def searchSystem : System (Kernel × List ReadyQueue) Event :=
  system.withGhost [] fun k e _ searches => searches ++ (exec k e.act).events

/-- Every search of a run is in range if and only if every tick of the run that found the idle
task running found, or woke, some other task. -/
theorem search_in_range {k₀ : Kernel} {as : List Event} {x : Kernel × List ReadyQueue}
    (h₀ : system.init k₀) (hrun : Run searchSystem (fun x e => Safe x.1 e) (k₀, []) as x) :
    (∀ r ∈ x.2, r.InRange) ↔
      Run searchSystem (fun x e => Safe x.1 e ∧ KeepsReady x.1 e) (k₀, []) as x := by
  have hinit : Reachable searchSystem (fun x e => Safe x.1 e) (k₀, []) := .init ⟨h₀, rfl⟩
  constructor
  · intro hall
    induction hrun with
    | nil => exact .nil
    | @snoc as x y e hrun hsafe hs ih =>
      have hinv : x.1.Inv := reachable_inv (hrun.reachable hinit).of_ghost
      rw [hs.2] at hall
      refine .snoc (ih fun r hr => hall r (List.mem_append_left _ hr)) ⟨hsafe, ?_⟩ hs
      rw [← exec_always hinv hs.1]
      exact fun r hr => hall r (List.mem_append_right _ hr)
  · intro hkeep
    have hboth : Reachable searchSystem (fun x e => Safe x.1 e) x ∧ ∀ r ∈ x.2, r.InRange := by
      apply hkeep.invariant (I := fun x =>
        Reachable searchSystem (fun x e => Safe x.1 e) x ∧ ∀ r ∈ x.2, r.InRange)
      · rintro x e y ⟨hreach, hall⟩ ⟨hsafe, hready⟩ hs
        refine ⟨hreach.step hsafe hs, fun r hr => ?_⟩
        rw [hs.2] at hr
        rcases List.mem_append.mp hr with hr | hr
        · exact hall r hr
        · exact (exec_always (reachable_inv hreach.of_ghost) hs.1).mpr hready r hr
      · exact ⟨hinit, fun r hr => absurd hr List.not_mem_nil⟩
    exact hboth.2

theorem run_search {P : Kernel → Event → Prop} {k k' : Kernel} {as : List Event} {a : Act}
    {d : Option (Call × Result)} (hrun : Run system P Kernel.initial as k)
    (hok : P k ⟨a, d⟩) (hdef : k.defined a) (hexec : k.exec a = some (k', d)) :
    ∃ searches, Run searchSystem (fun x e => P x.1 e) (Kernel.initial, []) (as ++ [⟨a, d⟩])
      (k', searches ++ (exec k a).events) := by
  obtain ⟨searches, hghost⟩ : ∃ searches, Run searchSystem (fun x e => P x.1 e)
      (Kernel.initial, []) as (k, searches) := hrun.exists_ghost []
  exact ⟨searches, .snoc hghost hok ⟨⟨hdef, hexec⟩, rfl⟩⟩

theorem search_in_range_delays : ∃ as x,
    Run searchSystem (fun x e => Safe x.1 e) (Kernel.initial, []) as x ∧ x.2 ≠ [] ∧
      ∀ r ∈ x.2, r.InRange := by
  let ok : Kernel → Event → Bool := fun k e => e.act.isPlain &&
    (decide (e.act ≠ .tick) || (k.ts.live 1 && decide ((k.ts.tcb 1).delayTicks = 1)))
  have hok : ∀ k e, ok k e = true → Safe k e ∧ KeepsReady k e := by
    intro k e h
    obtain ⟨hplain, htick⟩ := Bool.and_eq_true_iff.mp h
    refine ⟨Act.safe_of_isPlain hplain, fun ht _ => ?_⟩
    rcases Bool.or_eq_true_iff.mp htick with hne | hone
    · exact absurd ht (of_decide_eq_true hne)
    · obtain ⟨hl, hd⟩ := Bool.and_eq_true_iff.mp hone
      exact ⟨1, by decide, hl, Or.inr (of_decide_eq_true hd)⟩
  obtain ⟨⟨es, k⟩, hk, hfact⟩ := Option.map_eq_some_iff.mp (show
    (replay ok .initial [.boot (.taskCreate 1024 3), .load, .call (.delayQDelay 1), .tick,
      .resume]).map (fun s => (decide (s.2.defined (.call (.delayQDelay 2))),
        (s.2.exec (.call (.delayQDelay 2))).map Prod.snd,
        (exec s.2 (.call (.delayQDelay 2))).events.map ReadyQueue.readQHighestPri)) =
      some (true, some none, [255]) by decide +kernel)
  simp only [Prod.mk.injEq] at hfact
  obtain ⟨hdef, hexec, hevents⟩ := hfact
  obtain ⟨⟨k', d⟩, hexec, rfl⟩ := Option.map_eq_some_iff.mp hexec
  obtain ⟨searches, hrun⟩ := run_search (replay_run hok hk)
    (hok k ⟨.call (.delayQDelay 2), none⟩ rfl) (of_decide_eq_true hdef) hexec
  refine ⟨_, _, hrun.mono fun _ _ h => h.1, ?_, (search_in_range ⟨_, Kernel.bootCall_idle⟩
    (hrun.mono fun _ _ h => h.1)).mpr hrun⟩
  intro hnil
  rw [(List.append_eq_nil_iff.mp hnil).2] at hevents
  cases hevents

/-- The only task sleeps and a tick comes: `LSB` sees a word without bits. -/
theorem idle_alone_searches : ∃ as x,
    Run searchSystem (fun x e => Safe x.1 e) (Kernel.initial, []) as x ∧
      ∃ r ∈ x.2, r.metaBMap = 0 ∧ r.readQHighestPri = -1 ∧ ¬ r.InRange := by
  obtain ⟨⟨es, k⟩, hk, hfact⟩ := Option.map_eq_some_iff.mp (show
    (replay (fun _ e => e.act.isPlain) .initial
      [.boot (.taskCreate 1024 3), .load, .call (.delayQDelay 5)]).map
      (fun s => ((s.2.exec .tick).map Prod.snd,
        (exec s.2 .tick).events.map fun r => (r.metaBMap, r.readQHighestPri))) =
      some (some none, [(0, -1)]) by decide)
  obtain ⟨hexec, hevents⟩ := Prod.mk.inj hfact
  obtain ⟨⟨k', d⟩, hexec, rfl⟩ := Option.map_eq_some_iff.mp hexec
  obtain ⟨r, hr, hpair⟩ : ∃ r ∈ (exec k .tick).events, (r.metaBMap, r.readQHighestPri) = (0, -1) :=
    List.mem_map.mp (hevents ▸ List.mem_singleton_self _)
  obtain ⟨hmeta, hpri⟩ := Prod.mk.inj hpair
  have hrun := replay_run (P := Safe) (fun k e he => Act.safe_of_isPlain he) hk
  have hsafe : Safe k ⟨.tick, none⟩ := Act.safe_of_isPlain rfl
  obtain ⟨searches, hrun⟩ := run_search hrun hsafe trivial hexec
  exact ⟨_, _, hrun, r, List.mem_append_right _ hr, hmeta, hpri, fun h => h.group hmeta⟩

end Searching

end DfewOS
