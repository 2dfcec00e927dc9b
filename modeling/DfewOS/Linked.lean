import DfewOS.Task
import DfewOS.ReadyQueueSpec

/-!
# One queue per task

`Linked ts seq x`: the lists are `seq`, and every live task is in exactly the
list that its status, `pend_obj` and priority name, except `x`, which is on its
way from one list to another and in none. Each list operation of the kernel
moves one task; `Linked.change` is the frame for all of them.
-/

namespace DfewOS
open ListHeap (Lists push drop mem_push)

structure OsTcb.Placed (v : OsTcb) : Prop where
  home : v.home ≠ none
  pendObj : v.status = .ready → v.pendObj = none
  delay : v.status ≠ .ready → v.delayTicks ≠ 0

structure OsTcb.InRange (v : OsTcb) : Prop where
  priority : v.taskPriority < priorityNumMax
  origin : v.originPri < priorityNumMax

def QueueId.IsReady : QueueId → Prop
  | .ready _ => True
  | _ => False

theorem OsTcb.home_of_ready {v : OsTcb} (h : v.status = .ready) :
    v.home = some (.ready v.taskPriority) := by
  rw [OsTcb.home, h]

theorem OsTcb.status_of_home {v : OsTcb} {l : QueueId} (h : v.home = some l) :
    v.status = .ready ↔ l.IsReady := by
  rw [OsTcb.home] at h
  constructor
  · intro hs
    rw [hs] at h
    obtain rfl := Option.some.inj h
    trivial
  · intro hl
    cases hs : v.status <;> rw [hs] at h
    case delay => obtain rfl := Option.some.inj h; exact hl.elim
    all_goals
      obtain ⟨o, -, rfl⟩ := Option.map_eq_some_iff.mp h
      exact hl.elim

theorem OsTcb.home_congr {v w : OsTcb} (hs : w.status = v.status) (hp : w.pendObj = v.pendObj)
    (hr : v.status = .ready → w.taskPriority = v.taskPriority) : w.home = v.home := by
  rw [OsTcb.home, OsTcb.home, hs, hp]
  cases h : v.status
  case ready => rw [hr h]
  all_goals rfl

namespace Tasks

structure Linked (ts : Tasks) (seq : QueueId → List TcbPtr) (x : Option TcbPtr) : Prop where
  lists : Lists ts.dl seq
  ready : ts.ReadyOk seq
  home : ∀ t l, t ∈ seq l ↔ ts.live t = true ∧ some t ≠ x ∧ (ts.tcb t).home = some l
  placed : ∀ t, ts.live t = true → some t ≠ x → (ts.tcb t).Placed
  inRange : ∀ t, ts.live t = true → (ts.tcb t).InRange
  sound : ts.sound = true

namespace Linked
variable {ts ts' : Tasks} {seq seq' : QueueId → List TcbPtr} {x x' : Option TcbPtr}
  {t : TcbPtr} {l : QueueId}

theorem not_mem (h : Linked ts seq (some t)) (l : QueueId) : t ∉ seq l := fun hm =>
  ((h.home t l).mp hm).2.1 rfl

theorem live_of_mem (h : Linked ts seq x) (ht : t ∈ seq l) : ts.live t = true :=
  ((h.home t l).mp ht).1

theorem home_of_mem (h : Linked ts seq x) (ht : t ∈ seq l) : (ts.tcb t).home = some l :=
  ((h.home t l).mp ht).2.2

theorem mem_ready (h : Linked ts seq none) (ht : ts.live t = true)
    (hs : (ts.tcb t).status = .ready) : t ∈ seq (.ready (ts.tcb t).taskPriority) := by
  apply (h.home t _).mpr
  exact ⟨ht, by simp, OsTcb.home_of_ready hs⟩

theorem change (h : Linked ts seq x) (hx : x = none ∨ x = some t) (hx' : x' = none ∨ x' = some t)
    (hl : Lists ts'.dl seq') (hr : ts'.ReadyOk seq') (hs : ts'.sound = true)
    (htcb : ∀ u, u ≠ t → ts'.tcb u = ts.tcb u) (hlive : ∀ u, u ≠ t → ts'.live u = ts.live u)
    (hmem : ∀ u, u ≠ t → ∀ l, u ∈ seq' l ↔ u ∈ seq l)
    (hself : ∀ l, t ∈ seq' l ↔ ts'.live t = true ∧ some t ≠ x' ∧ (ts'.tcb t).home = some l)
    (hplaced : ts'.live t = true → some t ≠ x' → (ts'.tcb t).Placed)
    (hrange : ts'.live t = true → (ts'.tcb t).InRange) : Linked ts' seq' x' := by
  have hout : ∀ u, u ≠ t → some u ≠ x ∧ some u ≠ x' := by
    intro u hu
    constructor
    · rcases hx with rfl | rfl <;> simp [hu]
    · rcases hx' with rfl | rfl <;> simp [hu]
  refine ⟨hl, hr, ?_, ?_, ?_, hs⟩
  · intro u l
    by_cases hu : u = t
    · subst hu
      exact hself l
    · rw [hmem u hu, h.home, htcb u hu, hlive u hu]
      simp [hout u hu]
  · intro u hlu hxu
    by_cases hu : u = t
    · subst hu
      exact hplaced hlu hxu
    · rw [htcb u hu]
      exact h.placed u (by rw [← hlive u hu]; exact hlu) (hout u hu).1
  · intro u hlu
    by_cases hu : u = t
    · subst hu
      exact hrange hlu
    · rw [htcb u hu]
      exact h.inRange u (by rw [← hlive u hu]; exact hlu)

theorem mem_push_of_ne (seq : QueueId → List TcbPtr) {u : TcbPtr} (hu : u ≠ t) (k l : QueueId) :
    u ∈ push seq k t l ↔ u ∈ seq l := by
  rw [mem_push]
  simp [hu]

theorem mem_push_self (h : Linked ts seq (some t)) (k l : QueueId) :
    t ∈ push seq k t l ↔ k = l := by
  rw [mem_push]
  constructor
  · rintro (hm | ⟨he, -⟩)
    · exact absurd hm (h.not_mem l)
    · exact he.symm
  · exact fun he => Or.inr ⟨he.symm, rfl⟩

theorem readyQPut (h : Linked ts seq (some t)) (ht : ts.live t = true) :
    Linked (ts.readyQPut t) (push seq (.ready (ts.tcb t).taskPriority) t) none := by
  have hrange := h.inRange t ht
  have htcb : (ts.readyQPut t).tcb t = { ts.tcb t with status := .ready, pendObj := none } := by
    rw [readyQPut_tcb, Function.update_self]
  refine h.change (Or.inr rfl) (Or.inl rfl) (readyQPut_dl h.lists h.not_mem)
    (readyQPut_ok h.ready hrange.priority) h.sound ?_ (fun _ _ => rfl)
    (fun u hu => mem_push_of_ne seq hu _) ?_ ?_ ?_
  · intro u hu
    rw [readyQPut_tcb, Function.update_of_ne hu]
  · intro l
    rw [h.mem_push_self, htcb]
    simp [OsTcb.home, show (ts.readyQPut t).live t = true from ht]
  · intro _ _
    rw [htcb]
    exact ⟨by simp [OsTcb.home], fun _ => rfl, fun hne => absurd rfl hne⟩
  · intro _
    rw [htcb]
    exact ⟨hrange.priority, hrange.origin⟩

theorem not_mem_drop (hl : Lists ts.dl seq) (ht : t ∈ seq l) (k : QueueId) :
    t ∉ drop seq l t k := fun hm => ((hl.mem_drop ht).mp hm).2 rfl

theorem mem_drop_of_ne (hl : Lists ts.dl seq) (ht : t ∈ seq l) {u : TcbPtr} (hu : u ≠ t)
    (k : QueueId) : u ∈ drop seq l t k ↔ u ∈ seq k := by
  rw [hl.mem_drop ht]
  simp [hu]

theorem readyQRemove (h : Linked ts seq none) (ht : ts.live t = true)
    (hs : (ts.tcb t).status = .ready) :
    Linked (ts.readyQRemove t) (drop seq (.ready (ts.tcb t).taskPriority) t) (some t) := by
  have hm := h.mem_ready ht hs
  refine h.change (Or.inl rfl) (Or.inr rfl) (readyQRemove_lists h.lists hm)
    (readyQRemove_ok h.lists h.ready hm) ?_ ?_ ?_ (fun u hu => mem_drop_of_ne h.lists hm hu) ?_ ?_ ?_
  · rw [readyQRemove_sound h.lists hm, h.sound]
  · intro u _
    rw [readyQRemove_tcb]
  · intro u _
    rw [readyQRemove_live]
  · intro l
    exact iff_of_false (not_mem_drop h.lists hm l) (fun hc => hc.2.1 rfl)
  · exact fun _ hc => absurd rfl hc
  · intro _
    rw [readyQRemove_tcb]
    exact h.inRange t ht

theorem unlink (h : Linked ts seq none) (ht : t ∈ seq l) (hl : ¬ l.IsReady)
    (hd : Lists ts'.dl (drop seq l t)) (htcb : ts'.tcb = ts.tcb) (hlive : ts'.live = ts.live)
    (hq : ts'.readyQ = ts.readyQ) (hs : ts'.sound = ts.sound) :
    Linked ts' (drop seq l t) (some t) := by
  have hready : ∀ p, drop seq l t (.ready p) = seq (.ready p) := by
    intro p
    apply ListHeap.drop_of_ne
    rintro rfl
    exact hl trivial
  refine h.change (Or.inl rfl) (Or.inr rfl) hd ?_ (hs.trans h.sound) (fun u _ => by rw [htcb])
    (fun u _ => by rw [hlive]) (fun u hu => mem_drop_of_ne h.lists ht hu) ?_ ?_ ?_
  · exact h.ready.congr hq hready fun p u _ => by rw [htcb]
  · intro k
    exact iff_of_false (not_mem_drop h.lists ht k) (fun hc => hc.2.1 rfl)
  · exact fun _ hc => absurd rfl hc
  · intro hlt
    rw [htcb]
    exact h.inRange t (by rwa [hlive] at hlt)

theorem dlistRemove (h : Linked ts seq none) (ht : t ∈ seq l) (hl : ¬ l.IsReady) :
    Linked (ts.dlistRemove l t) (drop seq l t) (some t) :=
  h.unlink ht hl (Dlist.dlistRemove_lists h.lists ht) rfl rfl rfl (dlistRemove_sound h.lists ht)

theorem dlistGet_nil (h : Linked ts seq x) (hl : seq l = []) : ts.dlistGet l = (ts, none) := by
  rw [Tasks.dlistGet, Dlist.dlistGet_nil h.lists hl]

theorem dlistGet_cons (h : Linked ts seq x) {rest : List TcbPtr} (hl : seq l = t :: rest) :
    ts.dlistGet l = ((ts.dlistGet l).1, some t) :=
  Prod.ext rfl (Dlist.dlistGet_cons h.lists hl).1

theorem dlistGet (h : Linked ts seq none) (hl : ¬ l.IsReady) {rest : List TcbPtr}
    (hc : seq l = t :: rest) : Linked (ts.dlistGet l).1 (drop seq l t) (some t) := by
  have ht : t ∈ seq l := by rw [hc]; exact List.mem_cons_self
  have hd : drop seq l t = Function.update seq l rest := by
    rw [drop, hc, List.erase_cons_head]
  have hget : Lists (ts.dlistGet l).1.dl (drop seq l t) := by
    rw [hd]
    exact (Dlist.dlistGet_cons h.lists hc).2
  exact h.unlink ht hl hget rfl rfl rfl rfl

theorem setTcb (h : Linked ts seq (some t)) {v : OsTcb} (hv : ts.live t = true → v.InRange) :
    Linked (ts.setTcb t v) seq (some t) := by
  have hne : ∀ u, u ≠ t → (ts.setTcb t v).tcb u = ts.tcb u := fun u hu => by simp [Tasks.setTcb, hu]
  refine h.change (Or.inr rfl) (Or.inr rfl) h.lists ?_ h.sound hne (fun _ _ => rfl)
    (fun _ _ _ => Iff.rfl) ?_ ?_ ?_
  · refine h.ready.congr rfl (fun _ => rfl) fun p u hu => ?_
    rw [hne u]
    rintro rfl
    exact h.not_mem _ hu
  · intro l
    exact iff_of_false (h.not_mem l) (fun hc => hc.2.1 rfl)
  · exact fun _ hc => absurd rfl hc
  · intro hlt
    simpa [Tasks.setTcb] using hv hlt

theorem setTcb_placed (h : Linked ts seq none) {v : OsTcb} (hh : v.home = (ts.tcb t).home)
    (hp : (ts.tcb t).status = .ready → v.taskPriority = (ts.tcb t).taskPriority)
    (hv : ts.live t = true → v.Placed ∧ v.InRange) : Linked (ts.setTcb t v) seq none := by
  have hne : ∀ u, u ≠ t → (ts.setTcb t v).tcb u = ts.tcb u := fun u hu => by simp [Tasks.setTcb, hu]
  have heq : (ts.setTcb t v).tcb t = v := by simp [Tasks.setTcb]
  refine h.change (Or.inl rfl) (Or.inl rfl) h.lists ?_ h.sound hne (fun _ _ => rfl)
    (fun _ _ _ => Iff.rfl) ?_ ?_ ?_
  · refine h.ready.congr rfl (fun _ => rfl) fun p u hu => ?_
    by_cases hut : u = t
    · subst hut
      rw [heq]
      exact hp ((OsTcb.status_of_home (h.home_of_mem hu)).mpr trivial)
    · rw [hne u hut]
  · intro l
    rw [heq, hh]
    exact h.home t l
  · intro hlt _
    rw [heq]
    exact (hv hlt).1
  · intro hlt
    rw [heq]
    exact (hv hlt).2

theorem setDelay (h : Linked ts seq none) {d : ℕ}
    (hd : ts.live t = true → (ts.tcb t).status ≠ .ready → d ≠ 0) :
    Linked (ts.setDelay t d) seq none := by
  have hh : OsTcb.home { ts.tcb t with delayTicks := d } = (ts.tcb t).home :=
    OsTcb.home_congr rfl rfl fun _ => rfl
  refine h.setTcb_placed hh (fun _ => rfl) fun hlt => ?_
  have hp := h.placed t hlt (by simp)
  have hr := h.inRange t hlt
  exact ⟨⟨by rw [hh]; exact hp.home, hp.pendObj, hd hlt⟩, hr.priority, hr.origin⟩

theorem setPriority (h : Linked ts seq none) {p : ℕ} (hs : (ts.tcb t).status ≠ .ready)
    (hp : p < priorityNumMax) : Linked (ts.setPriority t p) seq none := by
  have hh : OsTcb.home { ts.tcb t with taskPriority := p } = (ts.tcb t).home :=
    OsTcb.home_congr rfl rfl fun hr => absurd hr hs
  refine h.setTcb_placed hh (fun hr => absurd hr hs) fun hlt => ?_
  have hpl := h.placed t hlt (by simp)
  exact ⟨⟨by rw [hh]; exact hpl.home, hpl.pendObj, hpl.delay⟩, hp, (h.inRange t hlt).origin⟩

theorem link (h : Linked ts seq (some t)) (ht : ts.live t = true) (hl : ¬ l.IsReady)
    (hh : (ts.tcb t).home = some l) (hp : (ts.tcb t).Placed) {xs ys : List TcbPtr}
    (hsplit : seq l = xs ++ ys) (hd : Lists ts'.dl (Function.update seq l (xs ++ t :: ys)))
    (htcb : ts'.tcb = ts.tcb) (hlive : ts'.live = ts.live) (hq : ts'.readyQ = ts.readyQ)
    (hs : ts'.sound = ts.sound) : Linked ts' (Function.update seq l (xs ++ t :: ys)) none := by
  refine h.change (Or.inr rfl) (Or.inl rfl) hd ?_ (hs.trans h.sound) (fun u _ => by rw [htcb])
    (fun u _ => by rw [hlive]) ?_ ?_ ?_ ?_
  · refine h.ready.congr hq (fun p => ?_) fun p u _ => by rw [htcb]
    apply Function.update_of_ne
    rintro rfl
    exact hl trivial
  · intro u hu k
    by_cases hk : k = l
    · subst hk
      rw [Function.update_self, hsplit]
      simp [hu]
    · rw [Function.update_of_ne hk]
  · intro k
    rw [hlive, htcb, hh]
    by_cases hk : k = l
    · subst hk
      simp [ht]
    · rw [Function.update_of_ne hk]
      refine iff_of_false (h.not_mem k) ?_
      rintro ⟨-, -, he⟩
      exact hk (Option.some.inj he).symm
  · intro _ _
    rw [htcb]
    exact hp
  · intro _
    rw [htcb]
    exact h.inRange t ht

theorem dlistAdd (h : Linked ts seq (some t)) (ht : ts.live t = true) (hl : ¬ l.IsReady)
    (hh : (ts.tcb t).home = some l) (hp : (ts.tcb t).Placed) :
    Linked (ts.dlistAdd l t) (push seq l t) none := by
  have hd := Dlist.dlistAdd_lists h.lists l h.not_mem
  exact h.link ht hl hh hp (List.append_nil _).symm hd rfl rfl rfl rfl

theorem dlistInsert (h : Linked ts seq (some t)) (ht : ts.live t = true) (hl : ¬ l.IsReady)
    (hh : (ts.tcb t).home = some l) (hp : (ts.tcb t).Placed) {xs ys : List TcbPtr}
    (hsplit : seq l = xs ++ ys) :
    Linked (ts.dlistInsert l xs.getLast? t) (Function.update seq l (xs ++ t :: ys)) none :=
  h.link ht hl hh hp hsplit (Dlist.dlistInsert_lists h.lists hsplit h.not_mem) rfl rfl rfl rfl

theorem dlistInit (h : Linked ts seq x) (hl : seq l = []) : Linked (ts.dlistInit l) seq x := by
  have hseq : Function.update seq l [] = seq := by rw [← hl, Function.update_eq_self]
  have hd := Dlist.dlistInit_lists h.lists l
  rw [hseq] at hd
  exact ⟨hd, h.ready.congr rfl (fun _ => rfl) fun _ _ _ => rfl, h.home, h.placed, h.inRange, h.sound⟩

theorem kill (h : Linked ts seq (some t)) : Linked (Kernel.kill ts t) seq none := by
  have hdead : (Kernel.kill ts t).live t = false := by simp [Kernel.kill]
  refine h.change (Or.inr rfl) (Or.inl rfl) h.lists (h.ready.congr rfl (fun _ => rfl) fun _ _ _ => rfl)
    h.sound (fun _ _ => rfl) ?_ (fun _ _ _ => Iff.rfl) ?_ ?_ ?_
  · intro u hu
    simp [Kernel.kill, hu]
  · intro l
    refine iff_of_false (h.not_mem l) fun hc => ?_
    rw [hdead] at hc
    exact absurd hc.1 (by decide)
  · intro hlt
    rw [hdead] at hlt
    exact absurd hlt (by decide)
  · intro hlt
    rw [hdead] at hlt
    exact absurd hlt (by decide)

theorem birth (h : Linked ts seq none) (ht : ts.live t = false) (hr : (ts.tcb t).InRange) :
    Linked { ts with live := Function.update ts.live t true } seq (some t) := by
  refine h.change (Or.inl rfl) (Or.inr rfl) h.lists (h.ready.congr rfl (fun _ => rfl) fun _ _ _ => rfl)
    h.sound (fun _ _ => rfl) ?_ (fun _ _ _ => Iff.rfl) ?_ ?_ ?_
  · intro u hu
    simp [hu]
  · intro l
    refine iff_of_false (fun hm => ?_) (fun hc => hc.2.1 rfl)
    rw [h.live_of_mem hm] at ht
    exact absurd ht (by decide)
  · exact fun _ hc => absurd rfl hc
  · exact fun _ => hr

theorem setTcb_dead (h : Linked ts seq none) (ht : ts.live t = false) (v : OsTcb) :
    Linked (ts.setTcb t v) seq none := by
  have hne : ∀ u, u ≠ t → (ts.setTcb t v).tcb u = ts.tcb u := fun u hu => by simp [Tasks.setTcb, hu]
  have hdead : ¬ (ts.setTcb t v).live t = true := by
    rw [show (ts.setTcb t v).live t = ts.live t from rfl, ht]
    decide
  have hout : ∀ l, t ∉ seq l := by
    intro l hm
    exact hdead (h.live_of_mem hm)
  refine h.change (Or.inl rfl) (Or.inl rfl) h.lists ?_ h.sound hne (fun _ _ => rfl)
    (fun _ _ _ => Iff.rfl) ?_ ?_ ?_
  · refine h.ready.congr rfl (fun _ => rfl) fun p u hu => ?_
    rw [hne u]
    rintro rfl
    exact hout _ hu
  · exact fun l => iff_of_false (hout l) fun hc => hdead hc.1
  · exact fun hlt => absurd hlt hdead
  · exact fun hlt => absurd hlt hdead

end Linked

end Tasks

end DfewOS
