import DfewOS.Linked

/-!
# What the blocking and waking operations leave alone

`Quiet cur` relates two states between which no mutex wait list, no priority
and, the running task `cur` apart, no ready, delayed or mutex-waiting task has
changed. The operations of the semaphores, the message queues and the delay
queue keep the lists linked and are quiet.
-/

namespace DfewOS
open ListHeap (Lists push drop mem_push)

/-- The lists that belong to neither the ready queue, the delay queue nor a mutex. -/
def QueueId.IsOther : QueueId → Prop
  | .semB _ | .semC _ | .msgSend _ | .msgRecv _ => True
  | _ => False

def QueueId.IsSemM : QueueId → Prop
  | .semM _ => True
  | _ => False

def TaskStatus.IsOther : TaskStatus → Prop
  | .pendSemB | .pendSemC | .pendMsgS | .pendMsgR => True
  | _ => False

theorem QueueId.IsOther.not_ready {l : QueueId} (h : l.IsOther) : ¬ l.IsReady := by
  cases l <;> simp_all [IsOther, IsReady]

theorem QueueId.IsOther.not_semM {l : QueueId} (h : l.IsOther) : ¬ l.IsSemM := by
  cases l <;> simp_all [IsOther, IsSemM]

theorem OsTcb.isOther_of_home {v : OsTcb} {l : QueueId} (h : v.home = some l) (hl : l.IsOther) :
    v.status.IsOther := by
  rw [OsTcb.home] at h
  cases hs : v.status <;> rw [hs] at h <;> simp only [TaskStatus.IsOther]
  case ready => obtain rfl := Option.some.inj h; exact hl
  case delay => obtain rfl := Option.some.inj h; exact hl
  case pendSemM =>
    obtain ⟨o, -, rfl⟩ := Option.map_eq_some_iff.mp h
    exact hl

namespace Tasks

/-- `goal` holds of the lists that the running task may have been put in. -/
structure Quiet (cur : Option TcbPtr) (goal : QueueId → Prop) (ts : Tasks)
    (seq : QueueId → List TcbPtr) (ts' : Tasks) (seq' : QueueId → List TcbPtr) : Prop where
  waiters : ∀ m, seq' (.semM m) = seq (.semM m)
  live : ts'.live = ts.live
  priority : ∀ t, (ts'.tcb t).taskPriority = (ts.tcb t).taskPriority
  origin : ∀ t, (ts'.tcb t).originPri = (ts.tcb t).originPri
  kept : ∀ t, some t ≠ cur → ¬ (ts.tcb t).status.IsOther → ts'.tcb t = ts.tcb t
  dead : ∀ t, ts.live t = false → ts'.tcb t = ts.tcb t
  wait : ∀ t, (ts'.tcb t).home = (ts.tcb t).home ∨ (ts'.tcb t).status = .ready ∨
    (some t = cur ∧ ∃ l, goal l ∧ (ts'.tcb t).home = some l)

namespace Quiet
variable {cur : Option TcbPtr} {goal : QueueId → Prop} {ts ts' ts'' : Tasks}
  {seq seq' seq'' : QueueId → List TcbPtr} {t : TcbPtr} {l : QueueId}

theorem relink (htcb : ts'.tcb = ts.tcb) (hlive : ts'.live = ts.live)
    (hw : ∀ m, seq' (.semM m) = seq (.semM m)) : Quiet cur goal ts seq ts' seq' :=
  ⟨hw, hlive, fun _ => by rw [htcb], fun _ => by rw [htcb], fun _ _ _ => by rw [htcb],
    fun _ _ => by rw [htcb], fun _ => Or.inl (by rw [htcb])⟩

theorem refl (ts : Tasks) (seq : QueueId → List TcbPtr) : Quiet cur goal ts seq ts seq :=
  relink rfl rfl fun _ => rfl

theorem mono {goal' : QueueId → Prop} (hg : ∀ l, goal l → goal' l)
    (h : Quiet cur goal ts seq ts' seq') : Quiet cur goal' ts seq ts' seq' := by
  refine { h with wait := fun t => ?_ }
  rcases h.wait t with he | hr | ⟨hc, l, hl, hh⟩
  · exact Or.inl he
  · exact Or.inr (Or.inl hr)
  · exact Or.inr (Or.inr ⟨hc, l, hg l hl, hh⟩)

theorem trans (h : Quiet cur goal ts seq ts' seq') (h' : Quiet cur goal ts' seq' ts'' seq'') :
    Quiet cur goal ts seq ts'' seq'' := by
  refine ⟨fun m => (h'.waiters m).trans (h.waiters m), h'.live.trans h.live,
    fun u => (h'.priority u).trans (h.priority u), fun u => (h'.origin u).trans (h.origin u),
    ?_, ?_, ?_⟩
  · intro u hu hs
    have he := h.kept u hu hs
    rw [h'.kept u hu (by rwa [he]), he]
  · intro u hu
    rw [h'.dead u (by rwa [h.live]), h.dead u hu]
  · intro u
    rcases h'.wait u with he | hready | hcur
    · rw [he]
      rcases h.wait u with he' | hready | hcur
      · exact Or.inl he'
      · right; left
        rw [OsTcb.home_of_ready hready] at he
        exact (OsTcb.status_of_home he).mpr trivial
      · exact Or.inr (Or.inr hcur)
    · exact Or.inr (Or.inl hready)
    · exact Or.inr (Or.inr hcur)

theorem setTcb (ht : ts.live t = true) (hk : some t = cur ∨ (ts.tcb t).status.IsOther)
    {v : OsTcb} (hp : v.taskPriority = (ts.tcb t).taskPriority)
    (ho : v.originPri = (ts.tcb t).originPri)
    (hwait : v.home = (ts.tcb t).home ∨ v.status = .ready ∨
      (some t = cur ∧ ∃ l, goal l ∧ v.home = some l))
    (htcb : ts'.tcb = Function.update ts.tcb t v) (hlive : ts'.live = ts.live)
    (hw : ∀ m, seq' (.semM m) = seq (.semM m)) : Quiet cur goal ts seq ts' seq' := by
  have hne : ∀ u, u ≠ t → ts'.tcb u = ts.tcb u := fun u hu => by
    rw [htcb, Function.update_of_ne hu]
  have heq : ts'.tcb t = v := by rw [htcb, Function.update_self]
  refine ⟨hw, hlive, ?_, ?_, ?_, ?_, ?_⟩
  · intro u
    by_cases hu : u = t
    · subst hu; rw [heq, hp]
    · rw [hne u hu]
  · intro u
    by_cases hu : u = t
    · subst hu; rw [heq, ho]
    · rw [hne u hu]
  · intro u hu hs
    apply hne
    rintro rfl
    rcases hk with hk | hk
    · exact hu hk
    · exact hs hk
  · intro u hu
    apply hne
    rintro rfl
    rw [ht] at hu
    exact absurd hu (by decide)
  · intro u
    by_cases hu : u = t
    · subst hu; rw [heq]; exact hwait
    · rw [hne u hu]; exact Or.inl rfl

theorem setDelay (ht : ts.live t = true) (hk : some t = cur ∨ (ts.tcb t).status.IsOther)
    (d : ℕ) : Quiet cur goal ts seq (ts.setDelay t d) seq := by
  refine setTcb ht hk ?_ ?_ (Or.inl ?_) rfl rfl fun _ => rfl
  · rfl
  · rfl
  · exact OsTcb.home_congr rfl rfl fun _ => rfl

theorem push_waiters (seq : QueueId → List TcbPtr) (hl : ¬ l.IsSemM) (t : TcbPtr) (m : ObjPtr) :
    push seq l t (.semM m) = seq (.semM m) := by
  apply ListHeap.push_of_ne
  rintro rfl
  exact hl trivial

theorem drop_waiters (seq : QueueId → List TcbPtr) (hl : ¬ l.IsSemM) (t : TcbPtr) (m : ObjPtr) :
    drop seq l t (.semM m) = seq (.semM m) := by
  apply ListHeap.drop_of_ne
  rintro rfl
  exact hl trivial

theorem not_isSemM_ready (p : ℕ) : ¬ (QueueId.ready p).IsSemM := fun h => h

theorem readyQPut (ht : ts.live t = true) (hk : some t = cur ∨ (ts.tcb t).status.IsOther)
    (p : ℕ) : Quiet cur goal ts seq (ts.readyQPut t) (push seq (.ready p) t) := by
  refine setTcb ht hk ?_ ?_ (Or.inr (Or.inl ?_)) (readyQPut_tcb ts t) rfl
    (push_waiters seq (not_isSemM_ready p) t)
  · rfl
  · rfl
  · rfl

theorem readyQRemove (ts : Tasks) (seq : QueueId → List TcbPtr) (t : TcbPtr) (p : ℕ) :
    Quiet cur goal ts seq (ts.readyQRemove t) (drop seq (.ready p) t) :=
  relink (readyQRemove_tcb ts t) (readyQRemove_live ts t) (drop_waiters seq (not_isSemM_ready p) t)

end Quiet

/-- `Linked` survives from `ts` to `ts'`, and nothing else moved. -/
def Moves (cur : Option TcbPtr) (goal : QueueId → Prop) (ts : Tasks)
    (seq : QueueId → List TcbPtr) (ts' : Tasks) : Prop :=
  ∃ seq', Linked ts' seq' none ∧ Quiet cur goal ts seq ts' seq'

section Operations
variable {cur : Option TcbPtr} {goal : QueueId → Prop} {ts : Tasks} {seq : QueueId → List TcbPtr}
  {t : TcbPtr} {l : QueueId}

theorem Moves.refl (h : Linked ts seq none) : Moves cur goal ts seq ts := ⟨seq, h, .refl ts seq⟩

theorem Moves.trans {ts' ts'' : Tasks} (h : Moves cur goal ts seq ts')
    (h' : ∀ seq', Linked ts' seq' none → Moves cur goal ts' seq' ts'') :
    Moves cur goal ts seq ts'' := by
  obtain ⟨seq', hl, hq⟩ := h
  obtain ⟨seq'', hl', hq'⟩ := h' seq' hl
  exact ⟨seq'', hl', hq.trans hq'⟩

theorem Quiet.put_moves {ts' : Tasks} {seq' : QueueId → List TcbPtr}
    (hq : Quiet cur goal ts seq ts' seq') (h : Linked ts' seq' (some t)) (ht : ts.live t = true)
    (hk : some t = cur ∨ (ts'.tcb t).status.IsOther) :
    Moves cur goal ts seq (ts'.readyQPut t) := by
  have hlive : ts'.live t = true := by rw [hq.live, ht]
  exact ⟨_, h.readyQPut hlive, hq.trans (.readyQPut hlive hk _)⟩

theorem rotate_moves (h : Linked ts seq none) (ht : ts.live t = true)
    (hs : (ts.tcb t).status = .ready) :
    Moves (some t) goal ts seq ((ts.readyQRemove t).readyQPut t) :=
  (Quiet.readyQRemove ts seq t _).put_moves (h.readyQRemove ht hs) ht (Or.inl rfl)

theorem setPend_tcb (ts : Tasks) (t : TcbPtr) (ticks : ℕ) (status : TaskStatus)
    (obj : Option ObjPtr) : (ts.setPend t ticks status obj).tcb t =
      { ts.tcb t with delayTicks := ticks, status := status, pendObj := obj } := by
  simp [setPend, Tasks.setTcb]

theorem pendOn_moves (h : Linked ts seq none) (ht : ts.live t = true)
    (hs : (ts.tcb t).status = .ready) (hl : ¬ l.IsReady) (hm : ¬ l.IsSemM) (hg : goal l)
    {ticks : ℕ} {status : TaskStatus} {obj : Option ObjPtr} (hticks : ticks ≠ 0)
    (hhome : ∀ v : OsTcb, v.status = status → v.pendObj = obj → v.home = some l) :
    Moves (some t) goal ts seq (ts.pendOn l t ticks status obj) := by
  have hr := h.readyQRemove ht hs
  have hlive : (ts.readyQRemove t).live t = true := by rw [readyQRemove_live, ht]
  have hrange := hr.inRange t hlive
  have hset : Linked ((ts.readyQRemove t).setPend t ticks status obj) _ (some t) :=
    hr.setTcb fun _ => ⟨hrange.priority, hrange.origin⟩
  have heq := setPend_tcb (ts.readyQRemove t) t ticks status obj
  have hhome' : (((ts.readyQRemove t).setPend t ticks status obj).tcb t).home = some l := by
    rw [heq]
    exact hhome _ rfl rfl
  have hplaced : (((ts.readyQRemove t).setPend t ticks status obj).tcb t).Placed := by
    refine ⟨by rw [hhome']; simp, fun hready => ?_, fun _ => by rw [heq]; exact hticks⟩
    exact absurd ((OsTcb.status_of_home hhome').mp hready) hl
  refine ⟨_, hset.dlistAdd hlive hl hhome' hplaced,
    (Quiet.readyQRemove ts seq t (ts.tcb t).taskPriority).trans ?_⟩
  refine .setTcb hlive (Or.inl rfl) ?_ ?_ (Or.inr (Or.inr ⟨rfl, l, hg, ?_⟩)) rfl rfl
    (Quiet.push_waiters _ hm t)
  · rfl
  · rfl
  · exact hhome _ rfl rfl

theorem pendOn_other_moves (h : Linked ts seq none) (ht : ts.live t = true)
    (hs : (ts.tcb t).status = .ready) (hl : l.IsOther) (hg : goal l) {ticks : ℕ}
    {status : TaskStatus} {obj : Option ObjPtr} (hticks : ticks ≠ 0)
    (hhome : ∀ v : OsTcb, v.status = status → v.pendObj = obj → v.home = some l) :
    Moves (some t) goal ts seq (ts.pendOn l t ticks status obj) :=
  pendOn_moves h ht hs hl.not_ready hl.not_semM hg hticks hhome

theorem setDelay_moves (h : Linked ts seq none) (ht : ts.live t = true)
    (hs : (ts.tcb t).status = .ready) (d : ℕ) : Moves (some t) goal ts seq (ts.setDelay t d) :=
  ⟨seq, h.setDelay fun _ hne => absurd hs hne, .setDelay ht (Or.inl rfl) d⟩

theorem dlistInit_moves (h : Linked ts seq none) (hl : seq l = []) :
    Moves cur goal ts seq (ts.dlistInit l) := ⟨seq, h.dlistInit hl, .relink rfl rfl fun _ => rfl⟩

theorem get_quiet (h : Linked ts seq none) (hl : l.IsOther) {rest : List TcbPtr}
    (hc : seq l = t :: rest) :
    Linked (ts.dlistGet l).1 (drop seq l t) (some t) ∧
      Quiet cur goal ts seq (ts.dlistGet l).1 (drop seq l t) ∧ ts.live t = true ∧
      ((ts.dlistGet l).1.tcb t).status.IsOther := by
  have ht : t ∈ seq l := by rw [hc]; exact List.mem_cons_self
  refine ⟨h.dlistGet hl.not_ready hc, ?_, h.live_of_mem ht, ?_⟩
  · exact .relink rfl rfl (Quiet.drop_waiters seq hl.not_semM t)
  · exact OsTcb.isOther_of_home (h.home_of_mem ht) hl

theorem wakeFirst_moves (h : Linked ts seq none) (hl : l.IsOther) :
    Moves cur goal ts seq (ts.wakeFirst l) := by
  cases hc : seq l with
  | nil =>
    rw [wakeFirst, h.dlistGet_nil hc]
    exact .refl h
  | cons t rest =>
    obtain ⟨hlink, hq, ht, hs⟩ := get_quiet h hl hc
    have hdef : ts.wakeFirst l = (ts.dlistGet l).1.readyQPut t := by
      rw [wakeFirst, h.dlistGet_cons hc]
    rw [hdef]
    exact hq.put_moves hlink ht (Or.inr hs)

theorem flushed_moves (h : Linked ts seq none) (hl : l.IsOther) {rest : List TcbPtr}
    (hc : seq l = t :: rest) :
    ∃ seq', Linked (((ts.dlistGet l).1.setDelay t 0).readyQPut t) seq' none ∧
      Quiet cur goal ts seq (((ts.dlistGet l).1.setDelay t 0).readyQPut t) seq' ∧
      seq' l = rest ∧ ∀ k, ¬ k.IsReady → k ≠ l → seq' k = seq k := by
  obtain ⟨hlink, hq, ht, hs⟩ := get_quiet h hl hc
  have hlive : (ts.dlistGet l).1.live t = true := ht
  have hrange := hlink.inRange t hlive
  have hset : Linked ((ts.dlistGet l).1.setDelay t 0) _ (some t) :=
    hlink.setTcb fun _ => ⟨hrange.priority, hrange.origin⟩
  have hs' : (((ts.dlistGet l).1.setDelay t 0).tcb t).status.IsOther := by
    simpa [setDelay, Tasks.setTcb] using hs
  have hlive' : ((ts.dlistGet l).1.setDelay t 0).live t = true := hlive
  have hput := hset.readyQPut hlive'
  generalize (((ts.dlistGet l).1.setDelay t 0).tcb t).taskPriority = p at hput
  have hnot : ∀ k, ¬ k.IsReady → push (drop seq l t) (.ready p) t k = drop seq l t k := by
    intro k hk
    apply ListHeap.push_of_ne
    rintro rfl
    exact hk trivial
  refine ⟨_, hput, hq.trans ((Quiet.setDelay hlive (Or.inr hs) 0).trans
    (.readyQPut hlive' (Or.inr hs') p)), ?_, fun k hk hkl => ?_⟩
  · rw [hnot l hl.not_ready, ListHeap.drop_self, hc, List.erase_cons_head]
  · rw [hnot k hk, ListHeap.drop_of_ne _ _ _ hkl]

theorem flushAll_moves (hl : l.IsOther) {n : ℕ} (h : Linked ts seq none)
    (hn : (seq l).length ≤ n) :
    ∃ ts' seq', flushAll l n ts = some ts' ∧ Linked ts' seq' none ∧
      Quiet cur goal ts seq ts' seq' ∧ seq' l = [] := by
  induction n generalizing ts seq with
  | zero =>
    have hnil : seq l = [] := List.length_eq_zero_iff.mp (by omega)
    have hhead : (ts.dl.list l).head = none := by rw [h.lists.head, hnil, List.head?_nil]
    exact ⟨ts, seq, by rw [flushAll, if_pos hhead], h, .refl ts seq, hnil⟩
  | succ n ih =>
    cases hc : seq l with
    | nil =>
      have hhead : (ts.dl.list l).head = none := by rw [h.lists.head, hc, List.head?_nil]
      exact ⟨ts, seq, by rw [flushAll, if_pos hhead], h, .refl ts seq, hc⟩
    | cons t rest =>
      have hhead : (ts.dl.list l).head ≠ none := by rw [h.lists.head, hc]; simp
      have hflush : ts.flushFirst l = ((ts.dlistGet l).1.setDelay t 0).readyQPut t := by
        rw [flushFirst, h.dlistGet_cons hc]
      obtain ⟨seq₁, hlink, hq, hrest, -⟩ := flushed_moves h hl hc
      rw [hc, List.length_cons] at hn
      obtain ⟨ts', seq', hrun, hlink', hq', hnil⟩ := ih hlink (by rw [hrest]; omega)
      refine ⟨ts', seq', ?_, hlink', hq.trans hq', hnil⟩
      rw [flushAll, if_neg hhead, hflush, hrun]

theorem popWaiters_moves (h : Linked ts seq none) (hl : l.IsOther) (hone : (seq l).length ≤ 1) :
    ∃ seq', Linked (Kernel.popWaiters ts l) seq' none ∧
      Quiet cur goal ts seq (Kernel.popWaiters ts l) seq' ∧ seq' l = [] ∧
      ∀ k, ¬ k.IsReady → k ≠ l → seq' k = seq k := by
  cases hc : seq l with
  | nil =>
    rw [Kernel.popWaiters, h.dlistGet_nil hc]
    exact ⟨seq, h, .refl ts seq, hc, fun _ _ _ => rfl⟩
  | cons t rest =>
    rw [hc, List.length_cons] at hone
    have hrest : rest = [] := List.length_eq_zero_iff.mp (by omega)
    obtain ⟨seq', hlink, hq, hnil, hother⟩ := flushed_moves h hl hc
    have hdef : Kernel.popWaiters ts l =
        ((((ts.dlistGet l).1.setDelay t 0).readyQPut t).dlistGet l).1 := by
      rw [Kernel.popWaiters, h.dlistGet_cons hc]
    rw [hdef, hlink.dlistGet_nil (hnil.trans hrest)]
    exact ⟨seq', hlink, hq, hnil.trans hrest, hother⟩

end Operations

end Tasks

end DfewOS
