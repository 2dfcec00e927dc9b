import DfewOS.Objects

/-!
# Message queues are bounded queues

`Fifo` is the abstract queue with a log of what went in and what came out. A
step of the kernel either is one of its two operations on the queue `q`, and
then returns `OS_STATUS_OK` to the caller, or leaves `q` alone. Nothing is asked
of the other steps of a run: tasks may be deleted and mutexes orphaned.
-/

namespace DfewOS

/-- `items` is what has been sent and not yet received, at most `cap` of them. -/
structure Fifo {α : Type*} (cap : ℕ) (sent received items : List α) : Prop where
  order : received ++ items = sent
  bound : items.length ≤ cap

namespace Fifo
variable {α : Type*} {cap : ℕ} {sent received items : List α} {x : α}

theorem empty (cap : ℕ) : Fifo cap ([] : List α) [] [] := ⟨rfl, Nat.zero_le _⟩

theorem put (h : Fifo cap sent received items) (hlt : items.length < cap) :
    Fifo cap (sent ++ [x]) received (items ++ [x]) := by
  refine ⟨?_, by simpa using Nat.succ_le_of_lt hlt⟩
  rw [← h.order, List.append_assoc]

theorem get (h : Fifo cap sent received (x :: items)) : Fifo cap sent (received ++ [x]) items := by
  refine ⟨?_, (Nat.le_succ _).trans h.bound⟩
  rw [← h.order, List.append_assoc, List.singleton_append]

end Fifo

open Transition (Run Reachable)

def Call.IsMsgQ : Call → Prop
  | .msgQInit _ _ _ | .msgQSend _ _ _ _ | .msgQReceive _ _ _ _ | .msgQDelete _ => True
  | _ => False

namespace Kernel

variable {k k' k'' : Kernel} {cur t : TcbPtr} {m : ObjPtr} {c : Call}

theorem semBFlush_queues {s : ObjPtr} (h : k.semBFlush s = some k') : SameQueues k k' := by
  obtain ⟨ts, -, rfl⟩ := Option.map_eq_some_iff.mp h
  exact .refl _

theorem semCFlush_queues {s : ObjPtr} (h : k.semCFlush s = some k') : SameQueues k k' := by
  obtain ⟨ts, -, rfl⟩ := Option.map_eq_some_iff.mp h
  exact .refl _

theorem go_queues (k : Kernel) (x : Rest) : SameQueues k (k.go x).1 := by
  by_cases hx : x.OnObject
  · cases x <;> first | exact .refl k | exact hx.elim
  · exact (k.go_objects hx).2.2

theorem enter_queues {r : Kernel × Outcome} (hc : ¬ c.IsMsgQ) (h : k.enter cur c = some r) :
    SameQueues k r.1 := by
  by_cases ho : c.OnObject
  · cases c <;> simp only [enter, Option.some.injEq, Option.map_eq_some_iff] at h
    case semBFlush s => obtain ⟨_, hk, rfl⟩ := h; exact semBFlush_queues hk
    case semCFlush s => obtain ⟨_, hk, rfl⟩ := h; exact semCFlush_queues hk
    case semBDelete s => obtain ⟨_, hk, rfl⟩ := h; exact semBFlush_queues hk
    case semCDelete s => obtain ⟨_, hk, rfl⟩ := h; exact semCFlush_queues hk
    all_goals first | exact absurd trivial hc | exact ho.elim | skip
    all_goals
      rw [← h]
      simp only [semBInit, semBTake, semBGive, semCInit, semCTake, semCGive]
      first | exact .refl k | (split_ifs <;> exact .refl k)
  · exact (enter_objects ho h).2.2

theorem msgQInit_cases {q n l : ℕ} {r : Kernel × Outcome} (h : k.msgQInit q n l = r) :
    SameQueues k r.1 ∨
      ((r.1.msgQ = Function.update k.msgQ q ⟨n, l, 0, []⟩ ∧
        r.1.msgQList = k.msgQList ++ [q]) ∧ r.1.pc = k.pc) := by
  rw [msgQInit] at h
  split_ifs at h
  · rw [← h]
    exact Or.inl (.refl k)
  · rw [← h]
    exact Or.inr ⟨⟨rfl, rfl⟩, rfl⟩

theorem msgQSend_cases {q bufLen timeout : ℕ} {buffer : List UInt8} {r : Kernel × Outcome}
    (h : k.msgQSend cur q buffer bufLen timeout = r) :
    (SameQueues k r.1 ∧ (r.2 = .switch ∨ r.2 = .ret (.status .error))) ∨
    ((k.msgQ q).curNum < (k.msgQ q).maxNum ∧ r.2 = .ret (.status .ok) ∧
      (r.1.msgQ = Function.update k.msgQ q { k.msgQ q with
        curNum := (k.msgQ q).curNum + 1
        msgList := (k.msgQ q).msgList ++ [buffer.take (min bufLen (k.msgQ q).maxLen)] } ∧
      r.1.msgQList = k.msgQList) ∧ r.1.pc = k.pc) := by
  simp only [msgQSend] at h
  split_ifs at h with h1 h2
  · rw [← h]
    exact Or.inr ⟨h1, rfl, ⟨rfl, rfl⟩, rfl⟩
  · rw [← h]
    exact Or.inl ⟨.refl k, Or.inl rfl⟩
  · rw [← h]
    exact Or.inl ⟨.refl k, Or.inr rfl⟩

theorem msgQReceive_cases {q bufLen timeout : ℕ} {buffer : List UInt8} {r : Kernel × Outcome}
    (h : k.msgQReceive cur q buffer bufLen timeout = some r) :
    (SameQueues k r.1 ∧ (r.2 = .switch ∨ r.2 = .ret (.received .error buffer))) ∨
    ∃ message rest, 0 < (k.msgQ q).curNum ∧ (k.msgQ q).msgList = message :: rest ∧
      r.2 = .ret (.received .ok (message.take (min bufLen (k.msgQ q).maxLen) ++
        buffer.drop (min bufLen (k.msgQ q).maxLen))) ∧
      (r.1.msgQ = Function.update k.msgQ q { k.msgQ q with
        curNum := (k.msgQ q).curNum - 1, msgList := rest } ∧
      r.1.msgQList = k.msgQList) ∧ r.1.pc = k.pc := by
  simp only [msgQReceive] at h
  split_ifs at h with h1 h2
  · cases hm : (k.msgQ q).msgList with
    | nil =>
      rw [hm] at h
      exact absurd h (by simp)
    | cons message rest =>
      rw [hm] at h
      obtain rfl := Option.some.inj h
      exact Or.inr ⟨message, rest, h1, rfl, rfl, ⟨rfl, rfl⟩, rfl⟩
  · obtain rfl := Option.some.inj h
    exact Or.inl ⟨.refl k, Or.inl rfl⟩
  · obtain rfl := Option.some.inj h
    exact Or.inl ⟨.refl k, Or.inr rfl⟩

end Kernel

def sentOn (q : ObjPtr) : Option (Call × Result) → Option (List UInt8)
  | some (.msgQSend q' buffer _ _, .status .ok) => if q' = q then some buffer else none
  | _ => none

def receivedOn (q : ObjPtr) : Option (Call × Result) → Option (List UInt8)
  | some (.msgQReceive q' _ _ _, .received .ok buffer) => if q' = q then some buffer else none
  | _ => none

/-- What a step does to the queue `q`, with the call it finishes. -/
inductive QueueStep (q : ObjPtr) (v v' : MsgQue) (d : Option (Call × Result)) : Prop
  | put {buffer : List UInt8} {bufLen timeout : ℕ} :
      d = some (.msgQSend q buffer bufLen timeout, .status .ok) → buffer.length = bufLen →
      v.curNum < v.maxNum →
      v' = { v with curNum := v.curNum + 1,
                    msgList := v.msgList ++ [buffer.take (min bufLen v.maxLen)] } →
      QueueStep q v v' d
  | get {buffer message : List UInt8} {rest : List (List UInt8)} {bufLen timeout : ℕ} :
      d = some (.msgQReceive q buffer bufLen timeout, .received .ok
        (message.take (min bufLen v.maxLen) ++ buffer.drop (min bufLen v.maxLen))) →
      buffer.length = bufLen → v.msgList = message :: rest →
      v' = { v with curNum := v.curNum - 1, msgList := rest } → QueueStep q v v' d
  | idle : v' = v → sentOn q d = none → receivedOn q d = none → QueueStep q v v' d

def Call.BuffersOk : Call → Prop
  | .msgQSend _ buffer bufLen _ | .msgQReceive _ buffer bufLen _ => buffer.length = bufLen
  | _ => True

def Pc.Fits : Pc → Prop
  | .switched c => c.BuffersOk
  | .unlocked c _ => ¬ c.IsMsgQ
  | .user => True

namespace Kernel

variable {k k' : Kernel} {cur t : TcbPtr} {c : Call} {q : ObjPtr} {a : Act} {r : Kernel × Outcome}

theorem SameQueues.idle (h : SameQueues k k') {d : Option (Call × Result)}
    (hs : sentOn q d = none) (hr : receivedOn q d = none) :
    QueueStep q (k.msgQ q) (k'.msgQ q) d := .idle (by rw [h.1]) hs hr

theorem not_msgQ_log (hc : ¬ c.IsMsgQ) (o : Outcome) :
    sentOn q (o.result.map fun x => (c, x)) = none ∧
      receivedOn q (o.result.map fun x => (c, x)) = none := by
  cases o with
  | ret x =>
    cases c
    case msgQSend => exact absurd trivial hc
    case msgQReceive => exact absurd trivial hc
    all_goals exact ⟨rfl, rfl⟩
  | switch => exact ⟨rfl, rfl⟩
  | unlock x => exact ⟨rfl, rfl⟩

theorem send_step {q' bufLen : ℕ} {buffer : List UInt8} (timeout t : ℕ)
    (hb : buffer.length = bufLen) (h : k.msgQSend cur q' buffer bufLen t = r) :
    QueueStep q (k.msgQ q) (r.1.msgQ q)
      (r.2.result.map fun x => (.msgQSend q' buffer bufLen timeout, x)) ∧
    r.1.msgQList = k.msgQList ∧ ∀ u, r.1.pc u = k.pc u ∨ r.1.pc u = .user := by
  rcases msgQSend_cases h with ⟨hsame, ho⟩ | ⟨hlt, ho, ⟨hq, hl⟩, hpc⟩
  · refine ⟨hsame.idle ?_ ?_, hsame.2⟩
    · rcases ho with ho | ho <;> rw [ho] <;> rfl
    · rcases ho with ho | ho <;> rw [ho] <;> rfl
  · refine ⟨?_, hl, fun u => Or.inl (by rw [hpc])⟩
    rw [ho, hq]
    by_cases he : q = q'
    · subst he
      rw [Function.update_self]
      exact .put rfl hb hlt rfl
    · rw [Function.update_of_ne he]
      refine .idle rfl ?_ rfl
      exact if_neg (Ne.symm he)

theorem receive_step {q' bufLen : ℕ} {buffer : List UInt8} (timeout t : ℕ)
    (hb : buffer.length = bufLen) (h : k.msgQReceive cur q' buffer bufLen t = some r) :
    QueueStep q (k.msgQ q) (r.1.msgQ q)
      (r.2.result.map fun x => (.msgQReceive q' buffer bufLen timeout, x)) ∧
    r.1.msgQList = k.msgQList ∧ ∀ u, r.1.pc u = k.pc u ∨ r.1.pc u = .user := by
  rcases msgQReceive_cases h with ⟨hsame, ho⟩ | ⟨message, rest, hlt, hm, ho, ⟨hq, hl⟩, hpc⟩
  · refine ⟨hsame.idle ?_ ?_, hsame.2⟩
    · rcases ho with ho | ho <;> rw [ho] <;> rfl
    · rcases ho with ho | ho <;> rw [ho] <;> rfl
  · refine ⟨?_, hl, fun u => Or.inl (by rw [hpc])⟩
    rw [ho, hq]
    by_cases he : q = q'
    · subst he
      rw [Function.update_self]
      exact .get rfl hb hm rfl
    · rw [Function.update_of_ne he]
      refine .idle rfl rfl ?_
      exact if_neg (Ne.symm he)

theorem SameQueues.step (h : SameQueues k r.1) (hc : ¬ c.IsMsgQ) (hq : q ∈ k.msgQList) :
    QueueStep q (k.msgQ q) (r.1.msgQ q) (r.2.result.map fun x => (c, x)) ∧ q ∈ r.1.msgQList := by
  obtain ⟨hs, hr⟩ := not_msgQ_log hc r.2
  exact ⟨h.idle hs hr, by rw [h.2.1]; exact hq⟩

theorem enter_queue (hok : k.callOk c) (hq : q ∈ k.msgQList) (hdel : c ≠ .msgQDelete q)
    (h : k.enter cur c = some r) :
    QueueStep q (k.msgQ q) (r.1.msgQ q) (r.2.result.map fun x => (c, x)) ∧ q ∈ r.1.msgQList := by
  obtain ⟨-, hfresh, hargs⟩ := hok
  by_cases hc : c.IsMsgQ
  · cases c <;> simp only [Call.IsMsgQ] at hc
    case msgQInit q' n l =>
      have hne : q ≠ q' := by
        rintro rfl
        exact hfresh.1 hq
      rcases msgQInit_cases (Option.some.inj h) with hsame | ⟨⟨hv, hl⟩, -⟩
      · refine ⟨hsame.idle ?_ ?_, by rw [hsame.2.1]; exact hq⟩
        · cases r.2 <;> rfl
        · cases r.2 <;> rfl
      · refine ⟨.idle (by rw [hv, Function.update_of_ne hne]) ?_ ?_, ?_⟩
        · cases r.2 <;> rfl
        · cases r.2 <;> rfl
        · rw [hl]
          exact List.mem_append_left _ hq
    case msgQSend q' buffer bufLen timeout =>
      obtain ⟨hstep, hl, -⟩ := send_step (q := q) timeout timeout hargs.1 (Option.some.inj h)
      exact ⟨hstep, by rw [hl]; exact hq⟩
    case msgQReceive q' buffer bufLen timeout =>
      obtain ⟨hstep, hl, -⟩ := receive_step (q := q) timeout timeout hargs.1 h
      exact ⟨hstep, by rw [hl]; exact hq⟩
    case msgQDelete q' =>
      have hne : q ≠ q' := by
        rintro rfl
        exact hdel rfl
      obtain rfl := Option.some.inj h
      refine ⟨.idle (Function.update_of_ne hne ..) rfl rfl, ?_⟩
      exact (List.mem_erase_of_ne hne).mpr hq
  · exact (enter_queues hc h).step hc hq

theorem resume_queues (hc : ¬ c.IsMsgQ) (h : k.resume cur c = some r) : SameQueues k r.1 := by
  cases c <;> simp only [resume, Option.some.injEq, reduceCtorEq] at h
  case semBTake s _ =>
    rw [semBResume] at h
    split_ifs at h
    · exact enter_queues (c := .semBTake s (k.ts.tcb cur).delayTicks) hc (congrArg some h)
    · rw [← h]
      exact .refl k
  case semCTake s _ =>
    rw [semCResume] at h
    split_ifs at h
    · exact enter_queues (c := .semCTake s (k.ts.tcb cur).delayTicks) hc (congrArg some h)
    · rw [← h]
      exact .refl k
  case semMTake m _ =>
    rw [semMResume] at h
    split_ifs at h <;> (rw [← h]; exact .refl k)
  case msgQSend => exact absurd trivial hc
  case msgQReceive => exact absurd trivial hc
  all_goals
    rw [← h]
    exact .refl k

theorem resume_queue (hb : c.BuffersOk) (hq : q ∈ k.msgQList) (h : k.resume cur c = some r) :
    QueueStep q (k.msgQ q) (r.1.msgQ q) (r.2.result.map fun x => (c, x)) ∧ q ∈ r.1.msgQList := by
  by_cases hc : c.IsMsgQ
  · cases c <;> simp only [Call.IsMsgQ] at hc
    case msgQInit => simp [resume] at h
    case msgQDelete => simp [resume] at h
    case msgQSend q' buffer bufLen timeout =>
      have hrun := Option.some.inj h
      rw [msgQSendResume] at hrun
      split_ifs at hrun
      · obtain ⟨hstep, hl, -⟩ := send_step (q := q) timeout _ hb hrun
        exact ⟨hstep, by rw [hl]; exact hq⟩
      · rw [← hrun]
        exact ⟨.idle rfl rfl rfl, hq⟩
    case msgQReceive q' buffer bufLen timeout =>
      have hrun : k.msgQReceiveResume cur q' buffer bufLen = some r := h
      rw [msgQReceiveResume] at hrun
      split_ifs at hrun
      · obtain ⟨hstep, hl, -⟩ := receive_step (q := q) timeout _ hb hrun
        exact ⟨hstep, by rw [hl]; exact hq⟩
      · obtain rfl := Option.some.inj hrun
        exact ⟨.idle rfl rfl rfl, hq⟩
  · exact (resume_queues hc h).step hc hq

theorem buffersOk_of_argsOk (h : k.argsOk c) : c.BuffersOk := by
  cases c
  case msgQSend => exact h.1
  case msgQReceive => exact h.1
  all_goals exact trivial

/-- A call is saved with its own buffers, and a message queue call is never left half way. -/
theorem enter_fits (hok : k.callOk c) (h : k.enter cur c = some r) :
    (∀ u, r.1.pc u = k.pc u ∨ r.1.pc u = .user) ∧ (r.2.pc c).Fits := by
  obtain ⟨-, -, hargs⟩ := hok
  have hswitch : r.2 = .switch → (r.2.pc c).Fits := fun ho => by
    rw [ho]
    exact buffersOk_of_argsOk hargs
  have hret : ∀ x, r.2 = .ret x → (r.2.pc c).Fits := fun x ho => by
    rw [ho]
    exact trivial
  by_cases hc : c.IsMsgQ
  · cases c <;> simp only [Call.IsMsgQ] at hc
    case msgQInit q n l =>
      have hrun := Option.some.inj h
      rcases msgQInit_cases hrun with hsame | ⟨-, hpc⟩
      · refine ⟨hsame.2.2, ?_⟩
        rw [msgQInit] at hrun
        split_ifs at hrun <;> exact hret _ (by rw [← hrun])
      · refine ⟨fun u => Or.inl (by rw [hpc]), ?_⟩
        rw [msgQInit] at hrun
        split_ifs at hrun <;> exact hret _ (by rw [← hrun])
    case msgQSend q buffer bufLen timeout =>
      rcases msgQSend_cases (Option.some.inj h) with ⟨hsame, ho⟩ | ⟨-, ho, -, hpc⟩
      · exact ⟨hsame.2.2, ho.elim hswitch (hret _)⟩
      · exact ⟨fun u => Or.inl (by rw [hpc]), hret _ ho⟩
    case msgQReceive q buffer bufLen timeout =>
      rcases msgQReceive_cases h with ⟨hsame, ho⟩ | ⟨_, _, -, -, ho, -, hpc⟩
      · exact ⟨hsame.2.2, ho.elim hswitch (hret _)⟩
      · exact ⟨fun u => Or.inl (by rw [hpc]), hret _ ho⟩
    case msgQDelete q =>
      obtain rfl := Option.some.inj h
      exact ⟨fun u => Or.inl rfl, trivial⟩
  · refine ⟨(enter_queues hc h).2.2, ?_⟩
    cases ho : r.2 with
    | ret x => exact trivial
    | switch =>
      rw [ho] at hswitch
      exact hswitch rfl
    | unlock x => exact hc

theorem resume_fits (hb : c.BuffersOk) (h : k.resume cur c = some r) :
    (∀ u, r.1.pc u = k.pc u ∨ r.1.pc u = .user) ∧ (r.2.pc c).Fits := by
  refine ⟨?_, ?_⟩
  · by_cases hc : c.IsMsgQ
    · cases c <;> simp only [Call.IsMsgQ] at hc
      case msgQInit => simp [resume] at h
      case msgQDelete => simp [resume] at h
      case msgQSend q' buffer bufLen timeout =>
        have hrun := Option.some.inj h
        rw [msgQSendResume] at hrun
        split_ifs at hrun
        · exact (send_step (q := q') timeout _ hb hrun).2.2
        · rw [← hrun]
          exact fun u => Or.inl rfl
      case msgQReceive q' buffer bufLen timeout =>
        have hrun : k.msgQReceiveResume cur q' buffer bufLen = some r := h
        rw [msgQReceiveResume] at hrun
        split_ifs at hrun
        · exact (receive_step (q := q') timeout _ hb hrun).2.2
        · obtain rfl := Option.some.inj hrun
          exact fun u => Or.inl rfl
    · exact (resume_queues hc h).2.2
  · cases ho : r.2 with
    | ret x => exact trivial
    | switch => exact hb
    | unlock x =>
      obtain ⟨k', o⟩ := r
      exact absurd (by rw [h, show o = .unlock x from ho]) resume_unlock

theorem section_queue (hs : Section k cur a c r) (hdef : k.defined a)
    (hfits : (k.pc cur).Fits) :
    ((∀ u, r.1.pc u = k.pc u ∨ r.1.pc u = .user) ∧ (r.2.pc c).Fits) ∧
    ∀ q ∈ k.msgQList, a ≠ .call (.msgQDelete q) →
      QueueStep q (k.msgQ q) (r.1.msgQ q) (r.2.result.map fun x => (c, x)) ∧
        q ∈ r.1.msgQList := by
  cases hs with
  | call hpc he =>
    refine ⟨enter_fits hdef.2 he, fun q hq hdel => enter_queue hdef.2 hq ?_ he⟩
    rintro rfl
    exact hdel rfl
  | resume hpc he =>
    rw [hpc] at hfits
    exact ⟨resume_fits hfits he, fun q hq _ => resume_queue hfits hq he⟩
  | @go c x hpc =>
    rw [hpc] at hfits
    have hsame := k.go_queues x
    refine ⟨⟨hsame.2.2, ?_⟩, fun q hq _ => hsame.step hfits hq⟩
    cases ho : (k.go x).2 with
    | ret y => exact trivial
    | switch => exact absurd ho (k.go_outcome x)
    | unlock y => exact hfits

theorem runSections_queues {n : ℕ} {x : Result} (h : runSections n r = some (k', x)) :
    SameQueues r.1 k' := by
  induction n generalizing r with
  | zero =>
    obtain ⟨k₁, o⟩ := r
    cases o <;> simp [runSections] at h
    rw [h.1]
    exact .refl k'
  | succ n ih =>
    obtain ⟨k₁, o⟩ := r
    cases o with
    | ret y =>
      simp only [runSections, Option.some.injEq, Prod.mk.injEq] at h
      rw [h.1]
      exact .refl k'
    | switch => simp [runSections] at h
    | unlock y => exact (k₁.go_queues y).trans (ih h)

theorem boot_queue {x : Result} (hok : k.callOk c) (h : k.bootCall c = some (k', x)) :
    (∀ u, k'.pc u = k.pc u ∨ k'.pc u = .user) ∧
    ∀ q ∈ k.msgQList, QueueStep q (k.msgQ q) (k'.msgQ q) (some (c, x)) ∧ q ∈ k'.msgQList := by
  have hother : SameQueues k k' → ¬ c.IsMsgQ → (∀ u, k'.pc u = k.pc u ∨ k'.pc u = .user) ∧
      ∀ q ∈ k.msgQList, QueueStep q (k.msgQ q) (k'.msgQ q) (some (c, x)) ∧ q ∈ k'.msgQList :=
    fun hsame hc => ⟨hsame.2.2, fun q hq => SameQueues.step (r := (k', .ret x)) hsame hc hq⟩
  cases c
  case taskCreate stackSize priority =>
    exact hother ((taskCreate_objects rfl).2.2.trans (runSections_queues h)) fun hc => hc
  case semBInit s =>
    exact hother ((SameQueues.refl k).trans (runSections_queues h)) fun hc => hc
  case semCInit s i n =>
    have hinit : SameQueues k (k.semCInit s i n).1 := by
      rw [semCInit]
      split_ifs <;> exact .refl k
    exact hother (hinit.trans (runSections_queues h)) fun hc => hc
  case semMInit m =>
    exact hother ((SameQueues.refl k).trans (runSections_queues h)) fun hc => hc
  case msgQInit q' n l =>
    have hret : k.msgQInit q' n l = (k', .ret x) := by
      have hrun : runSections 0 (k.msgQInit q' n l) = some (k', x) := h
      generalize k.msgQInit q' n l = r at hrun
      obtain ⟨k₁, o⟩ := r
      cases o <;> simp [runSections] at hrun
      rw [hrun.1, hrun.2]
    have hent : k.enter idle (.msgQInit q' n l) = some (k', .ret x) := congrArg some hret
    exact ⟨(enter_fits hok hent).1, fun q hq => enter_queue hok hq (by simp) hent⟩
  all_goals exact absurd h (by simp [bootCall])

theorem exec_queue {d : Option (Call × Result)} (hfits : ∀ t, (k.pc t).Fits)
    (hdef : k.defined a) (he : k.exec a = some (k', d)) :
    (∀ t, (k'.pc t).Fits) ∧ ∀ q ∈ k.msgQList, a ≠ .call (.msgQDelete q) →
      QueueStep q (k.msgQ q) (k'.msgQ q) d ∧ q ∈ k'.msgQList := by
  have hsame : d = none → SameQueues k k' → (∀ t, (k'.pc t).Fits) ∧
      ∀ q ∈ k.msgQList, a ≠ .call (.msgQDelete q) →
        QueueStep q (k.msgQ q) (k'.msgQ q) d ∧ q ∈ k'.msgQList := by
    rintro rfl hsame
    refine ⟨fun t => ?_, fun q hq _ => ⟨hsame.idle rfl rfl, by rw [hsame.2.1]; exact hq⟩⟩
    rcases hsame.2.2 t with hpc | hpc
    · rw [hpc]
      exact hfits t
    · rw [hpc]
      exact trivial
  rcases exec_cases he with ⟨cur, c, r, hcur, hs, hf⟩ | ⟨cur, k₁, hcur, rfl, ht, hload, hd⟩ |
    ⟨cur, hcur, rfl, hpc, hload, hd⟩ | ⟨c, x, hcur, rfl, hb, rfl⟩ | ⟨hcur, rfl, hload, hd⟩
  · obtain ⟨⟨hpc, hout⟩, hq⟩ := section_queue hs hdef (hfits cur)
    have hfin : k' = { r.1.setPc cur (r.2.pc c) with curTcb := k'.curTcb } ∧
        d = r.2.result.map fun x => (c, x) := by
      rcases finish_cases hf with ⟨-, rfl, hd⟩ | ⟨ho, hload, hd⟩
      · exact ⟨rfl, hd⟩
      · exact ⟨loadHighestTask_same hload, by rw [hd, ho]; rfl⟩
    obtain ⟨hk', rfl⟩ := hfin
    refine ⟨fun t => ?_, ?_⟩
    · rw [hk']
      by_cases ht : t = cur
      · subst ht
        simpa [setPc] using hout
      · rw [show ({ r.1.setPc cur (r.2.pc c) with curTcb := k'.curTcb } : Kernel).pc t = r.1.pc t from
          Function.update_of_ne ht ..]
        rcases hpc t with hp | hp
        · rw [hp]
          exact hfits t
        · rw [hp]
          exact trivial
    · rw [hk']
      exact hq
  · have htick : SameQueues k k₁ := by
      rw [tickAnnounce_fields ht]
      exact .refl k
    refine hsame hd (htick.trans ?_)
    rw [loadHighestTask_same hload]
    exact .refl k₁
  · refine hsame hd ?_
    rw [loadHighestTask_same hload]
    exact .refl k
  · obtain ⟨hpc, hq⟩ := boot_queue hdef hb
    refine ⟨fun t => ?_, fun q hm _ => hq q hm⟩
    rcases hpc t with hp | hp
    · rw [hp]
      exact hfits t
    · rw [hp]
      exact trivial
  · refine hsame hd ?_
    rw [loadHighestTask_same hload]
    exact .refl k

theorem exec_msgQInit {n l : ℕ} {x : Result} (hfits : ∀ t, (k.pc t).Fits)
    (he : k.exec a = some (k', some (.msgQInit q n l, x))) (hx : x = .obj (some q)) :
    k'.msgQ q = ⟨n, l, 0, []⟩ ∧ q ∈ k'.msgQList := by
  have hrun : ∀ {k₁ : Kernel}, k.msgQInit q n l = (k₁, .ret x) →
      k₁.msgQ q = ⟨n, l, 0, []⟩ ∧ q ∈ k₁.msgQList := by
    intro k₁ h
    rw [msgQInit] at h
    split_ifs at h with h0
    · simp [hx] at h
    · rw [← (Prod.mk.inj h).1]
      simp [setMsgQ]
  rcases exec_cases he with ⟨cur, c, r, hcur, hs, hf⟩ | ⟨_, _, -, -, -, -, hd⟩ |
    ⟨_, -, -, -, -, hd⟩ | ⟨c, y, hcur, rfl, hb, hd⟩ | ⟨-, -, -, hd⟩
  · rcases finish_cases hf with ⟨-, hk', hd⟩ | ⟨-, -, hd⟩
    · obtain ⟨y, ho, hpair⟩ := Option.map_eq_some_iff.mp hd.symm
      obtain ⟨hc, hy⟩ := Prod.mk.inj hpair
      have hset : r.1.msgQ q = ⟨n, l, 0, []⟩ ∧ q ∈ r.1.msgQList := by
        cases hs with
        | call hpc hent =>
          rw [hc] at hent
          have hret : k.msgQInit q n l = r := Option.some.inj hent
          apply hrun
          rw [hret, ← hy]
          obtain ⟨k₁, o⟩ := r
          cases o <;> simp [Outcome.result] at ho
          rw [ho]
        | resume hpc hres =>
          rw [hc] at hres
          simp [resume] at hres
        | go hpc =>
          have hfit := hfits cur
          rw [hpc, hc] at hfit
          exact absurd trivial hfit
      rw [hk']
      exact hset
    · exact absurd hd (by simp)
  · exact absurd hd (by simp)
  · exact absurd hd (by simp)
  · obtain ⟨rfl, rfl⟩ := Prod.mk.inj (Option.some.inj hd)
    have hboot : runSections 0 (k.msgQInit q n l) = some (k', x) := hb
    apply hrun
    generalize k.msgQInit q n l = r at hboot
    obtain ⟨k₁, o⟩ := r
    cases o <;> simp [runSections] at hboot
    rw [hboot.1, hboot.2]
  · exact absurd hd (by simp)

end Kernel

/-- The contents of the sends on `q` that returned `OS_STATUS_OK`, in order. -/
def sent (q : ObjPtr) (as : List Event) : List (List UInt8) := as.filterMap fun e => sentOn q e.done

def received (q : ObjPtr) (as : List Event) : List (List UInt8) :=
  as.filterMap fun e => receivedOn q e.done

def Call.FullLen (q : ObjPtr) (maxLen : ℕ) : Call → Prop
  | .msgQSend q' _ bufLen _ | .msgQReceive q' _ bufLen _ => q' = q → bufLen = maxLen
  | _ => True

instance (q : ObjPtr) (maxLen : ℕ) : (c : Call) → Decidable (c.FullLen q maxLen)
  | .msgQSend q' _ bufLen _ | .msgQReceive q' _ bufLen _ =>
    inferInstanceAs (Decidable (q' = q → bufLen = maxLen))
  | .taskCreate .. | .taskDelete _ | .delayQDelay _ | .semBInit _ | .semBTake .. | .semBGive _
  | .semBFlush _ | .semBDelete _ | .semCInit .. | .semCTake .. | .semCGive _ | .semCFlush _
  | .semCDelete _ | .semMInit _ | .semMTake .. | .semMGive _ | .msgQInit .. | .msgQDelete _ =>
    isTrue trivial

/-- The queue `q` is not deleted, and calls on it have `buf_len` equal to `max_len`. -/
def Event.KeepsQueue (q : ObjPtr) (maxLen : ℕ) (e : Event) : Prop :=
  e.act ≠ .call (.msgQDelete q) ∧ ∀ d ∈ e.done, d.1.FullLen q maxLen

instance (q : ObjPtr) (maxLen : ℕ) (e : Event) : Decidable (e.KeepsQueue q maxLen) :=
  inferInstanceAs (Decidable (e.act ≠ .call (.msgQDelete q) ∧ ∀ d ∈ e.done, d.1.FullLen q maxLen))

structure QueueOk (q : ObjPtr) (maxNum maxLen : ℕ) (as : List Event) (k : Kernel) : Prop where
  fits : ∀ t, (k.pc t).Fits
  listed : q ∈ k.msgQList
  capacity : (k.msgQ q).maxNum = maxNum
  width : (k.msgQ q).maxLen = maxLen
  num : (k.msgQ q).curNum = (k.msgQ q).msgList.length
  lens : ∀ message ∈ (k.msgQ q).msgList, message.length = maxLen
  fifo : Fifo maxNum (sent q as) (received q as) (k.msgQ q).msgList

variable {q : ObjPtr} {maxNum maxLen : ℕ} {as : List Event} {e : Event} {k k' : Kernel}

theorem QueueOk.step (h : QueueOk q maxNum maxLen as k) (hstep : system.step k e k')
    (hkeep : e.KeepsQueue q maxLen) : QueueOk q maxNum maxLen (as ++ [e]) k' := by
  obtain ⟨hfits, hqueue⟩ := Kernel.exec_queue h.fits hstep.1 hstep.2
  obtain ⟨hq, hlisted⟩ := hqueue q h.listed hkeep.1
  have hsent : sent q (as ++ [e]) = sent q as ++ (sentOn q e.done).toList := by
    cases hs : sentOn q e.done <;> simp [sent, hs]
  have hreceived : received q (as ++ [e]) = received q as ++ (receivedOn q e.done).toList := by
    cases hs : receivedOn q e.done <;> simp [received, hs]
  cases hq with
  | @put buffer bufLen timeout hd hb hlt hv =>
    have hfull : bufLen = maxLen := hkeep.2 _ hd rfl
    have hs : sentOn q e.done = some buffer := by rw [hd]; exact if_pos rfl
    have hr : receivedOn q e.done = none := by rw [hd]; rfl
    have hmessage : buffer.take (min bufLen (k.msgQ q).maxLen) = buffer := by
      rw [h.width, hfull, min_self]
      exact List.take_of_length_le (by omega)
    rw [hmessage] at hv
    rw [h.num, h.capacity] at hlt
    refine ⟨hfits, hlisted, ?_, ?_, ?_, ?_, ?_⟩
    · rw [hv, ← h.capacity]
    · rw [hv, ← h.width]
    · rw [hv]
      simp [h.num]
    · rw [hv]
      intro message hm
      rcases List.mem_append.mp hm with hm | hm
      · exact h.lens message hm
      · rw [List.mem_singleton.mp hm, hb, hfull]
    · rw [hv, hsent, hreceived, hs, hr, Option.toList_none, List.append_nil]
      exact h.fifo.put hlt
  | @get buffer message rest bufLen timeout hd hb hm hv =>
    have hfull : bufLen = maxLen := hkeep.2 _ hd rfl
    have hlen : message.length = maxLen := h.lens message (by rw [hm]; exact List.mem_cons_self)
    have hcontent : message.take (min bufLen (k.msgQ q).maxLen) ++
        buffer.drop (min bufLen (k.msgQ q).maxLen) = message := by
      rw [h.width, hfull, min_self, List.take_of_length_le (by omega),
        List.drop_eq_nil_of_le (by omega), List.append_nil]
    rw [hcontent] at hd
    have hs : sentOn q e.done = none := by rw [hd]; rfl
    have hr : receivedOn q e.done = some message := by rw [hd]; exact if_pos rfl
    have hnum := h.num
    have hfifo := h.fifo
    rw [hm] at hnum hfifo
    refine ⟨hfits, hlisted, ?_, ?_, ?_, ?_, ?_⟩
    · rw [hv, ← h.capacity]
    · rw [hv, ← h.width]
    · rw [hv]
      simp only [hnum, List.length_cons, Nat.add_sub_cancel]
    · rw [hv]
      exact fun x hx => h.lens x (by rw [hm]; exact List.mem_cons_of_mem _ hx)
    · rw [hv, hsent, hreceived, hs, hr, Option.toList_none, List.append_nil]
      exact hfifo.get
  | idle hv hs hr =>
    rw [hs, Option.toList_none, List.append_nil] at hsent
    rw [hr, Option.toList_none, List.append_nil] at hreceived
    refine ⟨hfits, hlisted, ?_, ?_, ?_, ?_, ?_⟩
    · rw [hv, h.capacity]
    · rw [hv, h.width]
    · rw [hv, h.num]
    · rw [hv]
      exact h.lens
    · rw [hv, hsent, hreceived]
      exact h.fifo

theorem reachable_fits {P : Kernel → Event → Prop} (h : Reachable system P k) :
    ∀ t, (k.pc t).Fits := by
  have hpres : ∀ k e k', (∀ t, (k.pc t).Fits) → P k e → system.step k e k' →
      ∀ t, (k'.pc t).Fits :=
    fun k e k' hfits _ hstep => (Kernel.exec_queue hfits hstep.1 hstep.2).1
  refine h.invariant ?_ hpres
  intro k₀ hinit t
  rw [Kernel.init_eq hinit, Kernel.initial_pc]
  exact trivial

/-- Since its `msgQ_init` the queue `q` is a bounded queue: what was received and what is still
in it is what was sent, in order, and a step that ends no send or receive on it with
`OS_STATUS_OK` leaves it alone. -/
theorem msgQ_fifo {k₀ k₁ : Kernel} {e₀ : Event} (h₀ : Reachable system (fun _ _ => True) k₀)
    (hinit : system.step k₀ e₀ k₁)
    (hdone : e₀.done = some (.msgQInit q maxNum maxLen, .obj (some q)))
    (hrun : Run system (fun _ e => e.KeepsQueue q maxLen) k₁ as k) :
    (k.msgQ q).curNum = (k.msgQ q).msgList.length ∧ (k.msgQ q).curNum ≤ maxNum ∧
    received q as ++ (k.msgQ q).msgList = sent q as ∧
    ∀ e k', system.step k e k' → e.KeepsQueue q maxLen → sentOn q e.done = none →
      receivedOn q e.done = none → k'.msgQ q = k.msgQ q := by
  have hfits := reachable_fits h₀
  have hexec := hinit.2
  rw [hdone] at hexec
  obtain ⟨hv, hlisted⟩ := Kernel.exec_msgQInit hfits hexec rfl
  have hstart : QueueOk q maxNum maxLen [] k₁ := by
    refine ⟨(Kernel.exec_queue hfits hinit.1 hinit.2).1, hlisted, ?_, ?_, ?_, ?_, ?_⟩
    all_goals rw [hv]
    · rfl
    · exact fun _ hm => absurd hm List.not_mem_nil
    · exact Fifo.empty maxNum
  have hok : QueueOk q maxNum maxLen as k :=
    Run.history hstart (fun as k e k' _ hk hkeep hstep => hk.step hstep hkeep) hrun
  refine ⟨hok.num, by rw [hok.num]; exact hok.fifo.bound, hok.fifo.order, ?_⟩
  intro e k' hstep hkeep hs hr
  obtain ⟨hq, -⟩ := (Kernel.exec_queue hok.fits hstep.1 hstep.2).2 q hok.listed hkeep.1
  cases hq with
  | put hd _ _ _ =>
    rw [hd] at hs
    simp [sentOn] at hs
  | get hd _ _ _ =>
    rw [hd] at hr
    simp [receivedOn] at hr
  | idle hv _ _ => exact hv

theorem msgQ_fifo_blocked : ∃ (as : List Event) (k : Kernel), sent 0 as = [[7], [8], [9]] ∧ received 0 as = [[7]] ∧
    (k.msgQ 0).msgList = [[8], [9]] ∧ (k.msgQ 0).curNum = (k.msgQ 0).msgList.length ∧
    received 0 as ++ (k.msgQ 0).msgList = sent 0 as := by
  obtain ⟨⟨k₁, d⟩, h₁, hnext⟩ := Option.bind_eq_some_iff.mp (show
    ((Kernel.initial.exec (.boot (.msgQInit 0 2 1))).bind fun r =>
      (replay (fun _ e => decide (e.KeepsQueue 0 1)) r.1
        [.boot (.taskCreate 1024 2), .boot (.taskCreate 1024 3), .load,
          .call (.msgQSend 0 [7] 1 0), .call (.msgQSend 0 [8] 1 0), .call (.msgQSend 0 [9] 1 5),
          .call (.msgQReceive 0 [0] 1 0), .tick, .resume]).map fun s =>
        (r.2, sent 0 s.1, received 0 s.1, (s.2.msgQ 0).msgList)) =
      some (some (.msgQInit 0 2 1, .obj (some 0)), [[7], [8], [9]], [[7]], [[8], [9]]) by
    set_option maxRecDepth 4000 in decide)
  obtain ⟨⟨as, k⟩, hreplay, hfact⟩ := Option.map_eq_some_iff.mp hnext
  simp only [Prod.mk.injEq] at hfact
  obtain ⟨rfl, hs, hr, hm⟩ := hfact
  have hinit : system.step .initial ⟨.boot (.msgQInit 0 2 1), some (.msgQInit 0 2 1, .obj (some 0))⟩
      k₁ := ⟨by decide, h₁⟩
  have hrun : Run system (fun _ e => e.KeepsQueue 0 1) k₁ as k :=
    replay_run (fun _ _ he => of_decide_eq_true he) hreplay
  obtain ⟨hnum, -, horder, -⟩ := msgQ_fifo (initial_reachable _) hinit rfl hrun
  exact ⟨as, k, hs, hr, hm, hnum, horder⟩

end DfewOS
