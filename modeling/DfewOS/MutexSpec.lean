import DfewOS.Invariant
import DfewOS.PriorityInheritance
import Mathlib.Data.Finset.Card
import Mathlib.Data.List.TakeWhile

/-!
# The mutex operations as steps of priority inheritance

`Kernel.pi` reads the inheritance state off the kernel. `_up_owner_pri` ends,
because each activation raises a task that was less urgent, and does what
`Boosted` says.
-/

namespace DfewOS.Kernel
open Tasks (Linked)
open PriorityInheritance (Boosted Raised)
open ListHeap (Lists push drop)

def pi (k : Kernel) : PriorityInheritance.State TcbPtr ObjPtr where
  owner m := (k.semM m).ownerTcb
  waiters m := k.ts.members (.semM m)
  priority t := (k.ts.tcb t).taskPriority
  origin t := (k.ts.tcb t).originPri
  waitPri m := (k.semM m).waitPri

theorem members_of_linked {ts : Tasks} {seq : QueueId → List TcbPtr} {x : Option TcbPtr}
    (h : Linked ts seq x) : ts.members = seq := funext (Tasks.members_eq h.lists)

/-- Between `k` and `k'` only priorities, the ready lists and `wait_pri` fields changed. -/
structure Lifted (k : Kernel) (seq : QueueId → List TcbPtr) (k' : Kernel)
    (seq' : QueueId → List TcbPtr) : Prop where
  rest : k' = { k with ts := k'.ts, semM := k'.semM }
  count : ∀ m, (k'.semM m).takeCount = (k.semM m).takeCount
  owner : ∀ m, (k'.semM m).ownerTcb = (k.semM m).ownerTcb
  live : k'.ts.live = k.ts.live
  tcb : ∀ t, k'.ts.tcb t = { k.ts.tcb t with taskPriority := (k'.ts.tcb t).taskPriority }
  lists : ∀ l, ¬ l.IsReady → seq' l = seq l

variable {k k' : Kernel} {seq seq' : QueueId → List TcbPtr} {w o t : TcbPtr} {m : ObjPtr} {n p : ℕ}

theorem Lifted.trans {k'' : Kernel} {seq'' : QueueId → List TcbPtr} (h : Lifted k seq k' seq')
    (h' : Lifted k' seq' k'' seq'') : Lifted k seq k'' seq'' := by
  refine ⟨?_, fun m => (h'.count m).trans (h.count m), fun m => (h'.owner m).trans (h.owner m),
    h'.live.trans h.live, fun t => ?_, fun l hl => (h'.lists l hl).trans (h.lists l hl)⟩
  · have h₁ := h.rest
    have h₂ := h'.rest
    rw [h₁] at h₂
    exact h₂
  · have h₁ := h.tcb t
    have h₂ := h'.tcb t
    rw [h₁] at h₂
    exact h₂

def askPri (k : Kernel) (m : ObjPtr) (p : ℕ) : Kernel :=
  if p < (k.semM m).waitPri then k.setSemM m { k.semM m with waitPri := p } else k

theorem askPri_semM (k : Kernel) (m : ObjPtr) (p : ℕ) : (k.askPri m p).semM =
    Function.update k.semM m { k.semM m with waitPri := min p (k.semM m).waitPri } := by
  rw [askPri]
  split_ifs with h
  · rw [min_eq_left h.le, setSemM]
  · rw [min_eq_right (by omega), Function.update_eq_self]

theorem askPri_rest (k : Kernel) (m : ObjPtr) (p : ℕ) :
    k.askPri m p = { k with semM := (k.askPri m p).semM } := by
  rw [askPri]
  split_ifs <;> rfl

theorem askPri_ts (k : Kernel) (m : ObjPtr) (p : ℕ) : (k.askPri m p).ts = k.ts := by
  rw [askPri_rest]

theorem pi_askPri (k : Kernel) (m : ObjPtr) (p : ℕ) : (k.askPri m p).pi = k.pi.ask m p := by
  have hsem := askPri_semM k m p
  ext m' : 2
  · by_cases hm : m' = m
    · subst hm; simp [pi, hsem, PriorityInheritance.State.ask]
    · simp [pi, hsem, PriorityInheritance.State.ask, hm]
  · simp [pi, askPri_ts, PriorityInheritance.State.ask]
  · simp [pi, askPri_ts, PriorityInheritance.State.ask]
  · simp [pi, askPri_ts, PriorityInheritance.State.ask]
  · by_cases hm : m' = m
    · subst hm; simp [pi, hsem, PriorityInheritance.State.ask]
    · simp [pi, hsem, PriorityInheritance.State.ask, hm]

theorem Lifted.askPri (h : Lifted k seq k' seq') (m : ObjPtr) (p : ℕ) :
    Lifted k seq (k'.askPri m p) seq' := by
  have hsem := askPri_semM k' m p
  have hts := askPri_ts k' m p
  refine ⟨?_, ?_, ?_, by rw [hts, h.live], fun t => by rw [hts]; exact h.tcb t, h.lists⟩
  · have h₁ := h.rest
    rw [askPri_rest, h₁]
  · intro m'
    by_cases hm : m' = m
    · subst hm; simp [hsem, h.count]
    · simp [hsem, hm, h.count]
  · intro m'
    by_cases hm : m' = m
    · subst hm; simp [hsem, h.owner]
    · simp [hsem, hm, h.owner]

theorem upOwnerPri_succ (n : ℕ) (k : Kernel) (w : TcbPtr) (m : ObjPtr)
    (ho : (k.semM m).ownerTcb = some o) :
    upOwnerPri (n + 1) k w m =
      (if (k.ts.tcb w).taskPriority < (k.ts.tcb o).taskPriority then
        match (k.ts.tcb o).status with
        | .ready => some { k with ts :=
            ((k.ts.readyQRemove o).setPriority o (k.ts.tcb w).taskPriority).readyQPut o }
        | .pendSemM => (k.ts.tcb o).pendObj.bind fun m' =>
            upOwnerPri n { k with ts := k.ts.setPriority o (k.ts.tcb w).taskPriority } o m'
        | _ => some { k with ts := k.ts.setPriority o (k.ts.tcb w).taskPriority }
      else some k).map fun k => k.askPri m (k.ts.tcb w).taskPriority := by
  have hobj : ((k.ts.setPriority o (k.ts.tcb w).taskPriority).tcb o).pendObj =
      (k.ts.tcb o).pendObj := by simp [Tasks.setPriority, Tasks.setTcb]
  have hask : ∀ x : Option Kernel, (x.bind fun k =>
      if (k.ts.tcb w).taskPriority < (k.semM m).waitPri then
        some (k.setSemM m { k.semM m with waitPri := (k.ts.tcb w).taskPriority })
      else some k) = x.map fun k => k.askPri m (k.ts.tcb w).taskPriority := by
    intro x
    cases x with
    | none => rfl
    | some k =>
      simp only [Option.bind_some, Option.map_some, askPri]
      split_ifs <;> rfl
  rw [upOwnerPri, ho, ← hask]
  simp only [Option.bind_eq_bind, Option.bind_some]
  by_cases hlt : (k.ts.tcb w).taskPriority < (k.ts.tcb o).taskPriority
  · simp only [if_pos hlt]
    cases hs : (k.ts.tcb o).status
    case pendSemM =>
      simp only [hobj]
      rw [Option.bind_assoc]
    all_goals rfl
  · simp only [if_neg hlt]
    rfl

theorem upOwnerPri_rel {R : Kernel → Kernel → Prop} (hrefl : ∀ k, R k k)
    (htrans : ∀ {k₁ k₂ k₃ : Kernel}, R k₁ k₂ → R k₂ k₃ → R k₁ k₃)
    (hraise : ∀ (k : Kernel) (o : TcbPtr) (p : ℕ), R k { k with ts := k.ts.setPriority o p })
    (hready : ∀ (k : Kernel) (o : TcbPtr) (p : ℕ),
      R k { k with ts := ((k.ts.readyQRemove o).setPriority o p).readyQPut o })
    (hask : ∀ (k : Kernel) (m : ObjPtr) (p : ℕ), R k (k.askPri m p)) {n : ℕ} {k k' : Kernel}
    {w : TcbPtr} {m : ObjPtr} (h : upOwnerPri n k w m = some k') : R k k' := by
  induction n generalizing k k' w m with
  | zero => exact absurd h (by simp [upOwnerPri])
  | succ n ih =>
    obtain ⟨o, ho⟩ : ∃ o, (k.semM m).ownerTcb = some o := by
      cases ho : (k.semM m).ownerTcb with
      | none => simp [upOwnerPri, ho] at h
      | some o => exact ⟨o, rfl⟩
    rw [upOwnerPri_succ n k w m ho] at h
    obtain ⟨k₁, hk₁, rfl⟩ := Option.map_eq_some_iff.mp h
    refine htrans ?_ (hask k₁ m _)
    split_ifs at hk₁
    · cases hs : (k.ts.tcb o).status <;> rw [hs] at hk₁
      case pendSemM =>
        obtain ⟨m', -, hrun⟩ := Option.bind_eq_some_iff.mp hk₁
        exact htrans (hraise k o _) (ih hrun)
      case ready =>
        obtain rfl := Option.some.inj hk₁
        exact hready k o _
      all_goals
        obtain rfl := Option.some.inj hk₁
        exact hraise k o _
    · obtain rfl := Option.some.inj hk₁
      exact hrefl k

theorem not_waiting (h : Linked k.ts seq none)
    (hs : (k.ts.tcb o).status ≠ .pendSemM) (m : ObjPtr) : o ∉ seq (.semM m) := by
  intro hm
  have hh := h.home_of_mem hm
  rw [OsTcb.home] at hh
  cases hst : (k.ts.tcb o).status <;> rw [hst] at hh
  case pendSemM => exact hs hst
  case ready => simp at hh
  case delay => simp at hh
  all_goals
    obtain ⟨_, -, hc⟩ := Option.map_eq_some_iff.mp hh
    exact absurd hc (by simp)

theorem waiting_of_status (h : Linked k.ts seq none) (ho : k.ts.live o = true)
    (hs : (k.ts.tcb o).status = .pendSemM) :
    ∃ m, (k.ts.tcb o).pendObj = some m ∧ o ∈ seq (.semM m) := by
  have hne := (h.placed o ho (by simp)).home
  rw [OsTcb.home, hs] at hne
  obtain ⟨l, hl⟩ := Option.ne_none_iff_exists'.mp hne
  obtain ⟨m, hm, -⟩ := Option.map_eq_some_iff.mp hl
  refine ⟨m, hm, (h.home o _).mpr ⟨ho, by simp, ?_⟩⟩
  rw [OsTcb.home, hs, hm]
  rfl

theorem pi_raise (h : Linked k.ts seq none) (h' : Linked k'.ts seq' none)
    (hsem : k'.semM = k.semM) (hlists : ∀ m, seq' (.semM m) = seq (.semM m))
    (htcb : k'.ts.tcb = Function.update k.ts.tcb o { k.ts.tcb o with taskPriority := p }) :
    k'.pi = k.pi.raise o p := by
  ext m : 2
  · simp [pi, hsem, PriorityInheritance.State.raise]
  · simp [pi, members_of_linked h, members_of_linked h', hlists, PriorityInheritance.State.raise]
  · by_cases hm : m = o
    · subst hm; simp [pi, htcb, PriorityInheritance.State.raise]
    · simp [pi, htcb, hm, PriorityInheritance.State.raise]
  · by_cases hm : m = o
    · subst hm; simp [pi, htcb, PriorityInheritance.State.raise]
    · simp [pi, htcb, hm, PriorityInheritance.State.raise]
  · simp [pi, hsem, PriorityInheritance.State.raise]

theorem lifted_raise {ts : Tasks} (hlive : ts.live = k.ts.live)
    (htcb : ts.tcb = Function.update k.ts.tcb o { k.ts.tcb o with taskPriority := p })
    (hlists : ∀ l, ¬ l.IsReady → seq' l = seq l) : Lifted k seq { k with ts := ts } seq' := by
  refine ⟨rfl, fun _ => rfl, fun _ => rfl, hlive, fun t => ?_, hlists⟩
  by_cases ht : t = o
  · subst ht; simp [htcb]
  · simp [htcb, ht]

theorem raise_ready (h : Linked k.ts seq none) (ho : k.ts.live o = true)
    (hs : (k.ts.tcb o).status = .ready) (hp : p < priorityNumMax) :
    ∃ seq', Linked (((k.ts.readyQRemove o).setPriority o p).readyQPut o) seq' none ∧
      (((k.ts.readyQRemove o).setPriority o p).readyQPut o).live = k.ts.live ∧
      (((k.ts.readyQRemove o).setPriority o p).readyQPut o).tcb =
        Function.update k.ts.tcb o { k.ts.tcb o with taskPriority := p } ∧
      ∀ l, ¬ l.IsReady → seq' l = seq l := by
  have hlive : (k.ts.readyQRemove o).live = k.ts.live := Tasks.readyQRemove_live k.ts o
  have hr := h.readyQRemove ho hs
  have hset : Linked ((k.ts.readyQRemove o).setPriority o p) _ (some o) :=
    hr.setTcb fun hl => ⟨hp, (hr.inRange o hl).origin⟩
  have hput := hset.readyQPut (by rw [← ho, ← hlive]; rfl)
  refine ⟨_, hput, hlive, ?_, fun l hl => ?_⟩
  · have hpend := (h.placed o ho (by simp)).pendObj hs
    rw [Tasks.readyQPut_tcb]
    simp only [Tasks.setPriority, Tasks.setTcb, Function.update_self, Function.update_idem,
      Tasks.readyQRemove_tcb]
    rw [← hs, ← hpend]
  · have hne : ∀ q, l ≠ .ready q := by
      rintro q rfl
      exact hl trivial
    rw [ListHeap.push_of_ne _ _ _ (hne _), ListHeap.drop_of_ne _ _ _ (hne _)]

def lessUrgent (k : Kernel) (p : ℕ) : Finset TcbPtr :=
  Finset.univ.filter fun t => p < (k.ts.tcb t).taskPriority

theorem lessUrgent_lt {ts : Tasks} (ho : p < (k.ts.tcb o).taskPriority)
    (htcb : ts.tcb = Function.update k.ts.tcb o { k.ts.tcb o with taskPriority := p }) :
    (lessUrgent { k with ts := ts } p).card < (k.lessUrgent p).card := by
  apply Finset.card_lt_card
  rw [Finset.ssubset_iff_of_subset]
  · exact ⟨o, by simp [lessUrgent, ho], by simp [lessUrgent, htcb]⟩
  · intro t ht
    by_cases hto : t = o
    · subst hto
      simp [lessUrgent, htcb] at ht
    · simpa [lessUrgent, htcb, hto] using ht

theorem boosts_last {ts : Tasks} (h : Linked k.ts seq none) (h' : Linked ts seq' none)
    (ho : (k.semM m).ownerTcb = some o) (hlt : p < (k.ts.tcb o).taskPriority)
    (hw : ∀ m', o ∉ seq (.semM m')) (hlive : ts.live = k.ts.live)
    (htcb : ts.tcb = Function.update k.ts.tcb o { k.ts.tcb o with taskPriority := p })
    (hlists : ∀ l, ¬ l.IsReady → seq' l = seq l) :
    Linked (askPri { k with ts := ts } m p).ts seq' none ∧
      Lifted k seq (askPri { k with ts := ts } m p) seq' ∧
      Boosted k.pi p m (askPri { k with ts := ts } m p).pi := by
  have hpi : pi { k with ts := ts } = k.pi.raise o p :=
    pi_raise h h' rfl (fun m => hlists _ fun hr => hr) htcb
  refine ⟨by rw [askPri_ts]; exact h', (lifted_raise hlive htcb hlists).askPri m p, ?_⟩
  rw [pi_askPri, hpi]
  refine PriorityInheritance.boosted_last ho hlt fun m' => ?_
  rw [show k.pi.waiters m' = k.ts.members (.semM m') from rfl, members_of_linked h]
  exact hw m'

theorem boosts_chain {k₂ : Kernel} {seq₂ : QueueId → List TcbPtr} {m' : ObjPtr}
    (h : Linked k.ts seq none) (ho : (k.semM m).ownerTcb = some o)
    (hlt : p < (k.ts.tcb o).taskPriority) (hw : o ∈ seq (.semM m'))
    (h' : Linked (k.ts.setPriority o p) seq none) (h₂ : Linked k₂.ts seq₂ none)
    (hlift : Lifted { k with ts := k.ts.setPriority o p } seq k₂ seq₂)
    (hboost : Boosted (pi { k with ts := k.ts.setPriority o p }) p m' k₂.pi) :
    Linked (k₂.askPri m p).ts seq₂ none ∧ Lifted k seq (k₂.askPri m p) seq₂ ∧
      Boosted k.pi p m (k₂.askPri m p).pi := by
  have hpi : pi { k with ts := k.ts.setPriority o p } = k.pi.raise o p :=
    pi_raise h h' rfl (fun _ => rfl) rfl
  rw [hpi] at hboost
  have hfirst : Lifted k seq { k with ts := k.ts.setPriority o p } seq :=
    lifted_raise rfl rfl fun _ _ => rfl
  refine ⟨by rw [askPri_ts]; exact h₂, (hfirst.trans hlift).askPri m p, ?_⟩
  rw [pi_askPri]
  have hmem : ∀ m'', k.pi.waiters m'' = seq (.semM m'') := fun m'' => by
    rw [show k.pi.waiters m'' = k.ts.members (.semM m'') from rfl, members_of_linked h]
  refine PriorityInheritance.boosted_chain ho hlt (by rw [hmem]; exact hw) (fun m'' hm => ?_) hboost
  rw [hmem] at hm
  exact QueueId.semM.inj (h.lists.disjoint _ _ o hm hw)

theorem upOwnerPri_boosts (h : Linked k.ts seq none)
    (hlive : ∀ m t, (k.semM m).ownerTcb = some t → k.ts.live t = true)
    (hwaited : ∀ m, seq (.semM m) ≠ [] → (k.semM m).ownerTcb ≠ none)
    (hown : (k.semM m).ownerTcb ≠ none) (hp : (k.ts.tcb w).taskPriority < priorityNumMax)
    (hn : (k.lessUrgent (k.ts.tcb w).taskPriority).card < n) :
    ∃ k' seq', upOwnerPri n k w m = some k' ∧ Linked k'.ts seq' none ∧ Lifted k seq k' seq' ∧
      Boosted k.pi (k.ts.tcb w).taskPriority m k'.pi := by
  induction n generalizing k seq w m with
  | zero => omega
  | succ n ih =>
    obtain ⟨o, ho⟩ := Option.ne_none_iff_exists'.mp hown
    have hop : k.pi.owner m = some o := ho
    rw [upOwnerPri_succ n k w m ho]
    generalize hq : (k.ts.tcb w).taskPriority = p at *
    by_cases hlt : p < (k.ts.tcb o).taskPriority
    · have hwo : w ≠ o := by
        rintro rfl
        omega
      have hwp : ∀ {ts : Tasks},
          ts.tcb = Function.update k.ts.tcb o { k.ts.tcb o with taskPriority := p } →
          (ts.tcb w).taskPriority = p := by
        intro ts hts
        rw [hts, Function.update_of_ne hwo, hq]
      have hset : (k.ts.setPriority o p).tcb =
          Function.update k.ts.tcb o { k.ts.tcb o with taskPriority := p } := rfl
      rw [if_pos hlt]
      cases hs : (k.ts.tcb o).status
      case ready =>
        obtain ⟨seq', h', hl', htcb, hlists⟩ := raise_ready h (hlive m o ho) hs hp
        have hnot := not_waiting h (show (k.ts.tcb o).status ≠ .pendSemM by simp [hs])
        refine ⟨_, seq', ?_, boosts_last h h' ho hlt hnot hl' htcb hlists⟩
        simp only [Option.map_some, hwp htcb]
      case pendSemM =>
        obtain ⟨m', hobj, hmem⟩ := waiting_of_status h (hlive m o ho) hs
        have h' := h.setPriority (show (k.ts.tcb o).status ≠ .ready by simp [hs]) hp
        have hpo : ((k.ts.setPriority o p).tcb o).taskPriority = p := by
          rw [hset, Function.update_self]
        have hcard := lessUrgent_lt hlt hset
        obtain ⟨k₂, seq₂, hrun, h₂, hlift, hboost⟩ : ∃ k₂ seq₂,
            upOwnerPri n { k with ts := k.ts.setPriority o p } o m' = some k₂ ∧
            Linked k₂.ts seq₂ none ∧ Lifted { k with ts := k.ts.setPriority o p } seq k₂ seq₂ ∧
            Boosted (pi { k with ts := k.ts.setPriority o p })
              ((k.ts.setPriority o p).tcb o).taskPriority m' k₂.pi :=
          ih h' hlive hwaited (hwaited m' (List.ne_nil_of_mem hmem)) (by rw [hpo]; exact hp)
            (by rw [hpo]; omega)
        rw [hpo] at hboost
        have hkeep : (k₂.ts.tcb w).taskPriority = p := by
          rw [← hwp hset]
          apply hboost.kept
          intro hr
          have hr' := hr.lt
          rw [show (pi { k with ts := k.ts.setPriority o p }).priority w =
            ((k.ts.setPriority o p).tcb w).taskPriority from rfl, hwp hset] at hr'
          exact absurd hr' (lt_irrefl _)
        refine ⟨_, seq₂, ?_, boosts_chain h ho hlt hmem h' h₂ hlift hboost⟩
        simp only [hobj, Option.bind_some, hrun, Option.map_some, hkeep]
      all_goals
        have h' := h.setPriority (show (k.ts.tcb o).status ≠ .ready by simp [hs]) hp
        have hnot := not_waiting h (show (k.ts.tcb o).status ≠ .pendSemM by simp [hs])
        refine ⟨_, seq, ?_, boosts_last h h' ho hlt hnot rfl hset fun _ _ => rfl⟩
        simp only [Option.map_some, hwp hset]
    · rw [if_neg hlt]
      refine ⟨_, seq, rfl, by rw [askPri_ts]; exact h, ?_, ?_⟩
      · have hrefl : Lifted k seq k seq :=
          ⟨rfl, fun _ => rfl, fun _ => rfl, rfl, fun _ => rfl, fun _ _ => rfl⟩
        exact hrefl.askPri m _
      · rw [pi_askPri, hq]
        exact PriorityInheritance.boosted_stop hop hlt

theorem skipLower_segment {ts : Tasks} {xs : List TcbPtr} {pr : Option TcbPtr}
    (hs : ListHeap.Segment ts.dl.node pr xs none) (hn : xs.length ≤ n) :
    ts.skipLower t n xs.head? =
      (xs.dropWhile fun u => (ts.tcb u).taskPriority < (ts.tcb t).taskPriority).head? := by
  induction xs generalizing pr n with
  | nil => cases n <;> rfl
  | cons x xs ih =>
    obtain ⟨-, hx, hr⟩ := hs
    cases n with
    | zero => simp at hn
    | succ n =>
      have hrest := ih hr (by simpa using hn)
      rw [Option.or_none] at hx
      by_cases hlt : (ts.tcb x).taskPriority < (ts.tcb t).taskPriority
      · simp [Tasks.skipLower, hlt, hx, hrest]
      · simp [Tasks.skipLower, hlt]

/-- Where `_sort_pri_put` puts the task, as a split of the list. -/
structure SortedAt (ts : Tasks) (t : TcbPtr) (xs ys : List TcbPtr) : Prop where
  front : ∀ y rest, ys = y :: rest →
    (∀ x ∈ xs, (ts.tcb x).taskPriority < (ts.tcb t).taskPriority) ∧
      (ts.tcb t).taskPriority ≤ (ts.tcb y).taskPriority
  back : ys = [] → ∀ x, xs.getLast? = some x →
    (ts.tcb x).taskPriority < (ts.tcb t).taskPriority

theorem sortPriPut_linked {ts : Tasks} {l : QueueId} (h : Linked ts seq (some t))
    (ht : ts.live t = true) (hl : ¬ l.IsReady) (hh : (ts.tcb t).home = some l)
    (hp : (ts.tcb t).Placed) :
    ∃ ts' xs ys, ts.sortPriPut l t = some ts' ∧ seq l = xs ++ ys ∧
      Linked ts' (Function.update seq l (xs ++ t :: ys)) none ∧ ts'.tcb = ts.tcb ∧
      ts'.live = ts.live ∧ SortedAt ts t xs ys := by
  have hhead := h.lists.head l
  have htail := h.lists.tail l
  have hend : Linked (ts.dlistAdd l t) (Function.update seq l (seq l ++ t :: [])) none :=
    h.dlistAdd ht hl hh hp
  by_cases hnil : seq l = []
  · refine ⟨ts.dlistAdd l t, seq l, [], ?_, (List.append_nil _).symm, hend, rfl, rfl, ?_⟩
    · rw [Tasks.sortPriPut, hhead, hnil, List.head?_nil, if_pos rfl]
    · refine ⟨fun y rest hc => absurd hc (by simp), fun _ x hx => ?_⟩
      rw [hnil] at hx
      exact absurd hx (by simp)
  · have hne : (ts.dl.list l).head ≠ none := by
      rw [hhead, ne_eq, List.head?_eq_none_iff]
      exact hnil
    obtain ⟨last, hlast⟩ := Option.ne_none_iff_exists'.mp
      (show (seq l).getLast? ≠ none by rw [ne_eq, List.getLast?_eq_none_iff]; exact hnil)
    rw [hlast] at htail
    rw [Tasks.sortPriPut, if_neg hne, htail]
    simp only [Option.bind_eq_bind, Option.bind_some]
    by_cases hlt : (ts.tcb last).taskPriority < (ts.tcb t).taskPriority
    · refine ⟨ts.dlistAdd l t, seq l, [], by rw [if_pos hlt], (List.append_nil _).symm, hend, rfl,
        rfl, ?_⟩
      refine ⟨fun y rest hc => absurd hc (by simp), fun _ x hx => ?_⟩
      rw [hlast] at hx
      rwa [← Option.some.inj hx]
    · rw [if_neg hlt, hhead, skipLower_segment (h.lists.segment l)
        (by have hle := (h.lists.nodup l).length_le_card; rwa [Fintype.card_fin] at hle)]
      generalize hq : (fun u => decide ((ts.tcb u).taskPriority < (ts.tcb t).taskPriority)) = lower
      have hsplit := (List.takeWhile_append_dropWhile (p := lower) (l := seq l)).symm
      cases hd : (seq l).dropWhile lower with
      | nil =>
        have hall := List.dropWhile_eq_nil_iff.mp hd last (List.mem_of_getLast? hlast)
        rw [← hq] at hall
        exact absurd (of_decide_eq_true hall) hlt
      | cons y rest =>
        rw [hd] at hsplit
        have hprev := h.lists.previous_of_split hsplit
        refine ⟨ts.dlistInsert l ((seq l).takeWhile lower).getLast? t, _, _, ?_, hsplit,
          h.dlistInsert ht hl hh hp hsplit, rfl, rfl, ?_⟩
        · simp only [List.head?_cons, Option.bind_some, hprev]
        · refine ⟨fun z zs hz => ⟨fun x hx => ?_, ?_⟩, fun hc => absurd hc (by simp)⟩
          · have hx' := List.mem_takeWhile_imp hx
            rw [← hq] at hx'
            exact of_decide_eq_true hx'
          · obtain rfl := (List.cons.inj hz).1
            have hy := List.head?_dropWhile_not lower (seq l)
            rw [hd, ← hq] at hy
            simpa using hy

/-- What a task that blocks on `m` leaves behind; `k₁` is the state after the boost. -/
structure BlocksOn (k : Kernel) (cur : TcbPtr) (m : ObjPtr) (timeout : ℕ) (k₁ k' : Kernel)
    (xs ys : List TcbPtr) : Prop where
  linked : Linked k'.ts k'.ts.members none
  rest : k' = { k with ts := k'.ts, semM := k'.semM }
  boosted : Boosted k.pi (k.ts.tcb cur).taskPriority m k₁.pi
  owner : ∀ m', (k'.semM m').ownerTcb = (k.semM m').ownerTcb
  count : ∀ m', (k'.semM m').takeCount = (k.semM m').takeCount
  semM : k'.semM = k₁.semM
  live : k'.ts.live = k.ts.live
  tcb : ∀ t, t ≠ cur → k'.ts.tcb t = { k.ts.tcb t with taskPriority := (k₁.ts.tcb t).taskPriority }
  self : k'.ts.tcb cur = { k.ts.tcb cur with
    delayTicks := timeout, status := .pendSemM, pendObj := some m }
  priority : ∀ t, (k'.ts.tcb t).taskPriority = (k₁.ts.tcb t).taskPriority
  split : k.ts.members (.semM m) = xs ++ ys
  waiters : k'.ts.members (.semM m) = xs ++ cur :: ys
  others : ∀ l, ¬ l.IsReady → l ≠ .semM m → k'.ts.members l = k.ts.members l
  sorted : PriorityInheritance.Placed k₁.pi (k.ts.tcb cur).taskPriority xs ys

theorem lessUrgent_card (k : Kernel) (p : ℕ) : (k.lessUrgent p).card < taskNumMax + 1 := by
  have hle := Finset.card_le_univ (k.lessUrgent p)
  rw [Fintype.card_fin] at hle
  omega

/-- A take that has to wait: the chain is boosted, then the caller goes to its place. -/
theorem semMTake_blocks {cur : TcbPtr} {timeout : ℕ} (h : k.Core) (hl : k.ts.live cur = true)
    (hs : (k.ts.tcb cur).status = .ready) (hnone : (k.semM m).ownerTcb ≠ none)
    (hother : (k.semM m).ownerTcb ≠ some cur) (htime : timeout ≠ 0) :
    ∃ k₁ k' xs ys, k.semMTake cur m timeout = some (k', .switch) ∧
      BlocksOn k cur m timeout k₁ k' xs ys := by
  have hlink := h.linked
  obtain ⟨k₁, seq₁, hrun, hlink₁, hlift, hboost⟩ :=
    upOwnerPri_boosts hlink h.owner h.waited hnone (hlink.inRange cur hl).priority
      (k.lessUrgent_card _)
  have hl₁ : k₁.ts.live cur = true := by rw [hlift.live, hl]
  have hs₁ : (k₁.ts.tcb cur).status = .ready := by rw [hlift.tcb cur]; exact hs
  have hp₁ : (k₁.ts.tcb cur).taskPriority = (k.ts.tcb cur).taskPriority := by
    apply hboost.kept
    exact fun hr => absurd hr.lt (lt_irrefl _)
  have hr := hlink₁.readyQRemove hl₁ hs₁
  have hl₂ : (k₁.ts.readyQRemove cur).live cur = true := by rw [Tasks.readyQRemove_live, hl₁]
  have hrange := hr.inRange cur hl₂
  have hset : Linked ((k₁.ts.readyQRemove cur).setPend cur timeout .pendSemM (some m)) _ (some cur) :=
    hr.setTcb fun _ => ⟨hrange.priority, hrange.origin⟩
  have htcb₂ := Tasks.setPend_tcb (k₁.ts.readyQRemove cur) cur timeout .pendSemM (some m)
  have hpri₂ : ∀ t, ((((k₁.ts.readyQRemove cur).setPend cur timeout .pendSemM (some m)).tcb t).taskPriority) =
      (k₁.ts.tcb t).taskPriority := by
    intro t
    by_cases ht : t = cur
    · subst ht
      rw [htcb₂, Tasks.readyQRemove_tcb]
    · simp [Tasks.setPend, Tasks.setTcb, ht, Tasks.readyQRemove_tcb]
  have hready : ¬ (QueueId.semM m).IsReady := fun hr => hr
  have hhome : (((k₁.ts.readyQRemove cur).setPend cur timeout .pendSemM (some m)).tcb cur).home =
      some (.semM m) := by rw [htcb₂]; rfl
  have hplaced : (((k₁.ts.readyQRemove cur).setPend cur timeout .pendSemM (some m)).tcb cur).Placed := by
    refine ⟨by rw [hhome]; simp, fun hc => ?_, fun _ => by rw [htcb₂]; exact htime⟩
    rw [htcb₂] at hc
    exact absurd hc (by simp)
  obtain ⟨ts', xs, ys, hsort, hsplit, hlink', htcb', hlive', hat⟩ :=
    sortPriPut_linked hset hl₂ hready hhome hplaced
  have hdrop : ∀ l, ¬ l.IsReady →
      drop seq₁ (.ready (k₁.ts.tcb cur).taskPriority) cur l = k.ts.members l := by
    intro l hnr
    rw [← hlift.lists l hnr]
    apply ListHeap.drop_of_ne
    rintro rfl
    exact hnr trivial
  rw [hdrop _ hready] at hsplit
  have hmem := members_of_linked hlink'
  refine ⟨k₁, { k₁ with ts := ts' }, xs, ys, ?_, ?_⟩
  · simp only [semMTake, if_neg hnone, if_neg hother, htime, ne_eq, not_false_eq_true,
      ↓reduceIte, hrun, Option.bind_eq_bind, Option.bind_some, hsort]
  · refine ⟨?_, ?_, hboost, hlift.owner, hlift.count, rfl, ?_, ?_, ?_, ?_, hsplit, ?_, ?_, ?_⟩
    · rw [hmem]
      exact hlink'
    · have hrest := hlift.rest
      rw [hrest]
    · rw [hlive', ← hlift.live, ← Tasks.readyQRemove_live k₁.ts cur]
      rfl
    · intro t ht
      rw [htcb', ← hlift.tcb t]
      simp [Tasks.setPend, Tasks.setTcb, ht, Tasks.readyQRemove_tcb]
    · rw [htcb', htcb₂, Tasks.readyQRemove_tcb, hlift.tcb cur, hp₁]
    · intro t
      rw [htcb', hpri₂]
    · rw [hmem, Function.update_self]
    · intro l hnr hne
      rw [hmem, Function.update_of_ne hne, hdrop l hnr]
    · constructor
      · intro y rest hy
        obtain ⟨hfront, hback⟩ := hat.front y rest hy
        rw [hpri₂, hpri₂, hp₁] at hback
        refine ⟨fun x hx => ?_, hback⟩
        have hlt := hfront x hx
        rwa [hpri₂, hpri₂, hp₁] at hlt
      · intro hy x hx
        have hlt := hat.back hy x hx
        rwa [hpri₂, hpri₂, hp₁] at hlt

theorem checkOwner_le (k : Kernel) (cur : TcbPtr) (b : ℕ) (m : ObjPtr) :
    k.checkOwner cur b m ≤ b ∧
      ((k.semM m).ownerTcb = some cur → k.checkOwner cur b m ≤ (k.semM m).waitPri) ∧
      (k.checkOwner cur b m = b ∨
        ((k.semM m).ownerTcb = some cur ∧ k.checkOwner cur b m = (k.semM m).waitPri)) := by
  rw [checkOwner]
  split_ifs with hc
  · exact ⟨hc.2.le, fun _ => le_refl _, Or.inr ⟨hc.1, rfl⟩⟩
  · refine ⟨le_refl _, fun ho => ?_, Or.inl rfl⟩
    rw [not_and] at hc
    have hnlt := hc ho
    omega

theorem foldl_checkOwner (k : Kernel) (cur : TcbPtr) (ms : List ObjPtr) (b : ℕ) :
    ms.foldl (k.checkOwner cur) b ≤ b ∧
      (∀ m ∈ ms, (k.semM m).ownerTcb = some cur →
        ms.foldl (k.checkOwner cur) b ≤ (k.semM m).waitPri) ∧
      (ms.foldl (k.checkOwner cur) b = b ∨
        ∃ m, (k.semM m).ownerTcb = some cur ∧ ms.foldl (k.checkOwner cur) b = (k.semM m).waitPri) := by
  induction ms generalizing b with
  | nil => exact ⟨le_refl _, fun _ hm => absurd hm List.not_mem_nil, Or.inl rfl⟩
  | cons m ms ih =>
    obtain ⟨hle, hown, hatt⟩ := k.checkOwner_le cur b m
    obtain ⟨ihle, ihown, ihatt⟩ := ih (k.checkOwner cur b m)
    rw [List.foldl_cons]
    refine ⟨ihle.trans hle, fun m' hm' ho => ?_, ?_⟩
    · rcases List.mem_cons.mp hm' with rfl | hm'
      · exact ihle.trans (hown ho)
      · exact ihown m' hm' ho
    · rcases ihatt with heq | hex
      · rw [heq]
        rcases hatt with hb | ⟨ho, hw⟩
        · exact Or.inl hb
        · exact Or.inr ⟨m, ho, hw⟩
      · exact Or.inr hex

theorem lowerMyself_linked {cur : TcbPtr} (h : Linked k.ts seq none) (hl : k.ts.live cur = true)
    (hs : (k.ts.tcb cur).status = .ready) :
    ∃ seq', Linked (k.lowerMyself cur).1.ts seq' none ∧
      (k.lowerMyself cur).1.ts.live = k.ts.live ∧
      (k.lowerMyself cur).1 = { k with ts := (k.lowerMyself cur).1.ts } ∧
      (k.lowerMyself cur).1.ts.tcb = Function.update k.ts.tcb cur { k.ts.tcb cur with
        taskPriority :=
          if (k.ts.tcb cur).taskPriority <
              min (k.getHighestWaitPri cur) (k.ts.tcb cur).originPri
          then min (k.getHighestWaitPri cur) (k.ts.tcb cur).originPri
          else (k.ts.tcb cur).taskPriority } ∧
      (∀ l, ¬ l.IsReady → seq' l = seq l) ∧
      ((k.lowerMyself cur).2 = .switch ∨ (k.lowerMyself cur).2 = .ret (.status .ok)) := by
  simp only [lowerMyself]
  split_ifs with hlt
  · have hp : min (k.getHighestWaitPri cur) (k.ts.tcb cur).originPri < priorityNumMax :=
      lt_of_le_of_lt (min_le_right _ _) (h.inRange cur hl).origin
    obtain ⟨seq', h', hlive, htcb, hlists⟩ := raise_ready h hl hs hp
    exact ⟨seq', h', hlive, rfl, htcb, hlists, Or.inl rfl⟩
  · exact ⟨seq, h, rfl, rfl, (Function.update_eq_self _ _).symm, fun _ _ => rfl, Or.inr rfl⟩

/-- The head of a wait list, as `_update_wait_pri` stores it. -/
def firstPri (ts : Tasks) : List TcbPtr → ℕ
  | [] => 255
  | t :: _ => (ts.tcb t).taskPriority

theorem updateWaitPri_eq {x : Option TcbPtr} (h : Linked k.ts seq x) (m : ObjPtr) :
    k.updateWaitPri m =
      k.setSemM m { k.semM m with waitPri := firstPri k.ts (seq (.semM m)) } := by
  have hhead := h.lists.head (.semM m)
  rw [updateWaitPri, hhead]
  cases seq (.semM m) <;> rfl

/-- `m` passes to `n`, the head of its wait list, or to nobody; the giver `cur` is not looked
at. -/
structure HandsOver (k : Kernel) (cur : TcbPtr) (m : ObjPtr) (k' : Kernel)
    (seq' : QueueId → List TcbPtr) (n : Option TcbPtr) (rest : List TcbPtr) : Prop where
  linked : Linked k'.ts seq' none
  fields : k' = { k with ts := k'.ts, semM := k'.semM }
  split : k.ts.members (.semM m) = n.toList ++ rest
  nil : n = none → rest = []
  waiters : seq' (.semM m) = rest
  others : ∀ l, ¬ l.IsReady → l ≠ .semM m → seq' l = k.ts.members l
  owner : (k'.semM m).ownerTcb = n
  count : (k'.semM m).takeCount = 0
  waitPri : (k'.semM m).waitPri =
    if n = none then (k.semM m).waitPri else firstPri k.ts rest
  semM : ∀ m', m' ≠ m → k'.semM m' = k.semM m'
  live : k'.ts.live = k.ts.live
  tcb : ∀ t, t ≠ cur → some t ≠ n → k'.ts.tcb t = k.ts.tcb t
  next : ∀ t, n = some t → t ≠ cur ∧
    k'.ts.tcb t = { k.ts.tcb t with status := .ready, pendObj := none }

structure Gives (k : Kernel) (cur : TcbPtr) (m : ObjPtr) (k' : Kernel) (n : Option TcbPtr)
    (rest : List TcbPtr) : Prop extends HandsOver k cur m k' k'.ts.members n rest where
  self : k'.ts.tcb cur = { k.ts.tcb cur with
    taskPriority :=
      if (k.ts.tcb cur).taskPriority < min (k'.getHighestWaitPri cur) (k.ts.tcb cur).originPri
      then min (k'.getHighestWaitPri cur) (k.ts.tcb cur).originPri
      else (k.ts.tcb cur).taskPriority }

theorem getHighestWaitPri_congr {cur : TcbPtr} (hsem : k'.semM = k.semM)
    (hlist : k'.semMList = k.semMList) : k'.getHighestWaitPri cur = k.getHighestWaitPri cur := by
  have hcheck : k'.checkOwner cur = k.checkOwner cur := by
    funext b m
    rw [checkOwner, checkOwner, hsem]
  rw [getHighestWaitPri, getHighestWaitPri, hcheck, hlist]

theorem HandsOver.lower {cur : TcbPtr} {x : Option TcbPtr} {rest : List TcbPtr}
    (h : HandsOver k cur m k' seq' x rest) (hl : k.ts.live cur = true)
    (hs : (k.ts.tcb cur).status = .ready) (hcur : k'.ts.tcb cur = k.ts.tcb cur) :
    Gives k cur m (k'.lowerMyself cur).1 x rest ∧
      ((k'.lowerMyself cur).2 = .switch ∨ (k'.lowerMyself cur).2 = .ret (.status .ok)) := by
  obtain ⟨seq'', hlink, hlive, hfields, htcb, hlists, hout⟩ :=
    lowerMyself_linked h.linked (by rw [h.live]; exact hl) (by rw [hcur]; exact hs)
  have hsem : (k'.lowerMyself cur).1.semM = k'.semM := by rw [hfields]
  have hlist : (k'.lowerMyself cur).1.semMList = k'.semMList := by rw [hfields]
  have hmem := members_of_linked hlink
  have hready : ∀ m, ¬ (QueueId.semM m).IsReady := fun _ hr => hr
  have htcb' : ∀ t, t ≠ cur → (k'.lowerMyself cur).1.ts.tcb t = k'.ts.tcb t := fun t ht => by
    rw [htcb, Function.update_of_ne ht]
  refine ⟨⟨⟨?_, ?_, h.split, h.nil, ?_, ?_, ?_, ?_, ?_, ?_, ?_, ?_, ?_⟩, ?_⟩, hout⟩
  · rw [hmem]
    exact hlink
  · have hf := h.fields
    rw [hfields]
    rw [hf]
  · rw [hmem, hlists _ (hready m), h.waiters]
  · intro l hnr hne
    rw [hmem, hlists l hnr, h.others l hnr hne]
  · rw [hsem, h.owner]
  · rw [hsem, h.count]
  · rw [hsem, h.waitPri]
  · intro m' hm
    rw [hsem, h.semM m' hm]
  · rw [hlive, h.live]
  · intro t ht hx
    rw [htcb' t ht, h.tcb t ht hx]
  · intro t ht
    obtain ⟨hne, heq⟩ := h.next t ht
    exact ⟨hne, by rw [htcb' t hne, heq]⟩
  · rw [htcb, Function.update_self, hcur, getHighestWaitPri_congr hsem hlist]

theorem semMGive_free {cur : TcbPtr} (h : Linked k.ts k.ts.members none)
    (hl : k.ts.live cur = true) (hs : (k.ts.tcb cur).status = .ready)
    (hout : dec32 (k.semM m).takeCount = 0) (hnil : k.ts.members (.semM m) = []) :
    Gives k cur m (k.semMGive cur m).1 none [] ∧
      ((k.semMGive cur m).2 = .switch ∨ (k.semMGive cur m).2 = .ret (.status .ok)) := by
  have hdef : k.semMGive cur m =
      (k.setSemM m { k.semM m with ownerTcb := none, takeCount := 0 }).lowerMyself cur := by
    simp only [semMGive, setSemM, Function.update_self, hout, ne_eq, not_true_eq_false, ↓reduceIte,
      h.dlistGet_nil hnil, Function.update_idem]
  rw [hdef]
  have hover : HandsOver k cur m (k.setSemM m { k.semM m with ownerTcb := none, takeCount := 0 })
      k.ts.members none [] := by
    refine ⟨h, rfl, hnil, fun _ => rfl, hnil, fun _ _ _ => rfl, ?_, ?_, ?_, ?_, rfl,
      fun _ _ _ => rfl, fun t ht => absurd ht (by simp)⟩
    · simp [setSemM]
    · simp [setSemM]
    · simp [setSemM]
    · intro m' hm
      simp [setSemM, hm]
  exact hover.lower hl hs rfl

theorem semMGive_next {cur x : TcbPtr} {rest : List TcbPtr} (h : Linked k.ts k.ts.members none)
    (hl : k.ts.live cur = true) (hs : (k.ts.tcb cur).status = .ready)
    (hout : dec32 (k.semM m).takeCount = 0) (hc : k.ts.members (.semM m) = x :: rest) :
    Gives k cur m (k.semMGive cur m).1 (some x) rest ∧
      ((k.semMGive cur m).2 = .switch ∨ (k.semMGive cur m).2 = .ret (.status .ok)) := by
  have hready : ¬ (QueueId.semM m).IsReady := fun hr => hr
  have hx : x ∈ k.ts.members (.semM m) := by rw [hc]; exact List.mem_cons_self
  have hxl := h.live_of_mem hx
  have hxc : x ≠ cur := by
    rintro rfl
    exact hready ((OsTcb.status_of_home (h.home_of_mem hx)).mp hs)
  have hget := h.dlistGet hready hc
  have hput := hget.readyQPut (show (k.ts.dlistGet (.semM m)).1.live x = true from hxl)
  generalize hts : (k.ts.dlistGet (.semM m)).1.readyQPut x = ts₁ at hput
  have htcb₁ : ts₁.tcb = Function.update k.ts.tcb x
      { k.ts.tcb x with status := .ready, pendObj := none } := by
    rw [← hts, Tasks.readyQPut_tcb]
    rfl
  have hlive₁ : ts₁.live = k.ts.live := by rw [← hts]; rfl
  generalize hseq : push (drop k.ts.members (.semM m) x)
    (.ready ((k.ts.dlistGet (.semM m)).1.tcb x).taskPriority) x = seq₁ at hput
  have hlists : ∀ l, ¬ l.IsReady → seq₁ l = drop k.ts.members (.semM m) x l := by
    intro l hnr
    rw [← hseq]
    apply ListHeap.push_of_ne
    rintro rfl
    exact hnr trivial
  have hrest : seq₁ (.semM m) = rest := by
    rw [hlists _ hready, ListHeap.drop_self, hc, List.erase_cons_head]
  have hfirst : firstPri ts₁ rest = firstPri k.ts rest := by
    cases rest with
    | nil => rfl
    | cons y ys =>
      by_cases hy : y = x
      · subst hy; simp [firstPri, htcb₁]
      · simp [firstPri, htcb₁, hy]
  have hdef : k.semMGive cur m = (setSemM { k with ts := ts₁ } m
      { ownerTcb := some x, takeCount := 0, waitPri := firstPri k.ts rest }).lowerMyself cur := by
    have hupd := updateWaitPri_eq (show Linked (setSemM { k with ts := ts₁ } m
      { k.semM m with ownerTcb := some x, takeCount := 0 }).ts seq₁ none from hput) m
    rw [hrest, show (setSemM { k with ts := ts₁ } m
      { k.semM m with ownerTcb := some x, takeCount := 0 }).ts = ts₁ from rfl, hfirst] at hupd
    obtain ⟨ts₀, hts₀⟩ : ∃ ts₀, (k.ts.dlistGet (.semM m)).1 = ts₀ := ⟨_, rfl⟩
    have hget₀ : k.ts.dlistGet (.semM m) = (ts₀, some x) := by rw [h.dlistGet_cons hc, hts₀]
    rw [hts₀] at hts
    simp only [semMGive, setSemM, Function.update_self, hout, ne_eq, not_true_eq_false, ↓reduceIte,
      hget₀, Function.update_idem, hts] at hupd ⊢
    rw [hupd]
  rw [hdef]
  have hover : HandsOver k cur m (setSemM { k with ts := ts₁ } m
      { ownerTcb := some x, takeCount := 0, waitPri := firstPri k.ts rest }) seq₁ (some x) rest := by
    refine ⟨hput, rfl, hc, fun hn => absurd hn (by simp), hrest, ?_, ?_, ?_, ?_, ?_, hlive₁, ?_, ?_⟩
    · intro l hnr hne
      rw [hlists l hnr, ListHeap.drop_of_ne _ _ _ hne]
    · simp [setSemM]
    · simp [setSemM]
    · simp [setSemM]
    · intro m' hm
      simp [setSemM, hm]
    · intro t _ ht
      rw [show (setSemM { k with ts := ts₁ } m _).ts = ts₁ from rfl, htcb₁,
        Function.update_of_ne (by simpa using ht)]
    · intro t ht
      obtain rfl := Option.some.inj ht
      refine ⟨hxc, ?_⟩
      rw [show (setSemM { k with ts := ts₁ } m _).ts = ts₁ from rfl, htcb₁, Function.update_self]
  refine hover.lower hl hs ?_
  rw [show (setSemM { k with ts := ts₁ } m _).ts = ts₁ from rfl, htcb₁,
    Function.update_of_ne hxc.symm]

theorem semMTake_cases {cur : TcbPtr} {timeout : ℕ} {o : Outcome} (h : k.Core)
    (hl : k.ts.live cur = true) (hs : (k.ts.tcb cur).status = .ready)
    (he : k.semMTake cur m timeout = some (k', o)) :
    ((k.semM m).ownerTcb = none ∧ o = .ret (.status .ok) ∧
      k' = k.setSemM m { k.semM m with ownerTcb := some cur, takeCount := 1 }) ∨
    ((k.semM m).ownerTcb = some cur ∧ o = .ret (.status .error) ∧
      k' = k.setSemM m { k.semM m with takeCount := inc32 (k.semM m).takeCount }) ∨
    ((k.semM m).ownerTcb ≠ none ∧ (k.semM m).ownerTcb ≠ some cur ∧ timeout = 0 ∧
      o = .ret (.status .error) ∧ k' = k) ∨
    ((k.semM m).ownerTcb ≠ none ∧ (k.semM m).ownerTcb ≠ some cur ∧ timeout ≠ 0 ∧ o = .switch ∧
      ∃ k₁ xs ys, BlocksOn k cur m timeout k₁ k' xs ys) := by
  by_cases hnone : (k.semM m).ownerTcb = none
  · left
    rw [semMTake, if_pos hnone, Option.some.injEq, Prod.mk.injEq] at he
    exact ⟨hnone, he.2.symm, he.1.symm⟩
  · right
    by_cases hcur : (k.semM m).ownerTcb = some cur
    · left
      rw [semMTake, if_neg hnone, if_pos hcur, Option.some.injEq, Prod.mk.injEq] at he
      exact ⟨hcur, he.2.symm, he.1.symm⟩
    · right
      by_cases htime : timeout = 0
      · left
        have hz : ¬ timeout ≠ 0 := fun hne => hne htime
        rw [semMTake, if_neg hnone, if_neg hcur, if_neg hz, Option.some.injEq,
          Prod.mk.injEq] at he
        exact ⟨hnone, hcur, htime, he.2.symm, he.1.symm⟩
      · right
        obtain ⟨k₁, k₂, xs, ys, hrun, hb⟩ := semMTake_blocks h hl hs hnone hcur htime
        rw [hrun, Option.some.injEq, Prod.mk.injEq] at he
        obtain ⟨rfl, rfl⟩ := he
        exact ⟨hnone, hcur, htime, rfl, k₁, xs, ys, hb⟩

theorem semMGive_cases {cur : TcbPtr} {o : Outcome} (h : Linked k.ts k.ts.members none)
    (hl : k.ts.live cur = true) (hs : (k.ts.tcb cur).status = .ready)
    (he : k.semMGive cur m = (k', o)) :
    (dec32 (k.semM m).takeCount ≠ 0 ∧ o = .ret (.status .ok) ∧
      k' = k.setSemM m { k.semM m with takeCount := dec32 (k.semM m).takeCount }) ∨
    (dec32 (k.semM m).takeCount = 0 ∧ (o = .switch ∨ o = .ret (.status .ok)) ∧
      ∃ n rest, Gives k cur m k' n rest) := by
  by_cases hout : dec32 (k.semM m).takeCount = 0
  · right
    have hk' : k' = (k.semMGive cur m).1 := by rw [he]
    have ho : o = (k.semMGive cur m).2 := by rw [he]
    rw [hk', ho]
    cases hc : k.ts.members (.semM m) with
    | nil =>
      obtain ⟨hg, hor⟩ := semMGive_free h hl hs hout hc
      exact ⟨hout, hor, none, [], hg⟩
    | cons x rest =>
      obtain ⟨hg, hor⟩ := semMGive_next h hl hs hout hc
      exact ⟨hout, hor, some x, rest, hg⟩
  · left
    simp only [semMGive, setSemM, Function.update_self, ne_eq, hout, not_false_eq_true,
      ↓reduceIte, Prod.mk.injEq] at he
    exact ⟨hout, he.2.symm, he.1.symm⟩

end DfewOS.Kernel
