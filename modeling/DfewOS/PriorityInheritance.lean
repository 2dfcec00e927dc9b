import Mathlib.Data.Fintype.Card
import Mathlib.Data.List.Basic
import Mathlib.Logic.Function.Basic
import Mathlib.Logic.Relation
import Mathlib.Order.Bounds.Basic

/-!
# Priority inheritance

Tasks own mutexes and wait for mutexes; a lower number is a more urgent
priority. `Raised s p m` are the tasks that a task of priority `p` blocking on
`m` has to boost: the owner of `m`, the owner of what that owner waits for, and
so on while the owner is less urgent than `p`. `Exact` says that every boost is
owed to somebody, `Ordered` that every wait list is sorted and its head cached.
-/

namespace DfewOS.PriorityInheritance

@[ext] structure State (T M : Type*) where
  owner : M → Option T
  waiters : M → List T
  priority : T → ℕ
  origin : T → ℕ
  waitPri : M → ℕ

variable {T M : Type*} {s s' s₁ : State T M} {p top : ℕ} {m m' : M} {t u o : T}

inductive Raised (s : State T M) (p : ℕ) (m : M) : T → Prop
  | owner {o : T} : s.owner m = some o → p < s.priority o → Raised s p m o
  | chain {u o : T} {m' : M} : Raised s p m u → u ∈ s.waiters m' → s.owner m' = some o →
      p < s.priority o → Raised s p m o

def Touched (s : State T M) (p : ℕ) (m m' : M) : Prop :=
  m' = m ∨ ∃ u, Raised s p m u ∧ u ∈ s.waiters m'

structure Boosted (s : State T M) (p : ℕ) (m : M) (s' : State T M) : Prop where
  owner : s'.owner = s.owner
  waiters : s'.waiters = s.waiters
  origin : s'.origin = s.origin
  raised : ∀ t, Raised s p m t → s'.priority t = p
  kept : ∀ t, ¬ Raised s p m t → s'.priority t = s.priority t
  touched : ∀ m', Touched s p m m' → s'.waitPri m' = min p (s.waitPri m')
  untouched : ∀ m', ¬ Touched s p m m' → s'.waitPri m' = s.waitPri m'

theorem Raised.lt (h : Raised s p m t) : p < s.priority t := by
  cases h with
  | owner _ hp => exact hp
  | chain _ _ _ hp => exact hp

theorem Raised.owned (h : Raised s p m t) : ∃ m', s.owner m' = some t := by
  cases h with
  | owner ho _ => exact ⟨m, ho⟩
  | chain _ _ ho _ => exact ⟨_, ho⟩

theorem Boosted.le (h : Boosted s p m s') (t : T) : s'.priority t ≤ s.priority t := by
  by_cases ht : Raised s p m t
  · have hlt := ht.lt
    have heq := h.raised t ht
    omega
  · exact le_of_eq (h.kept t ht)

section Recursion
variable [DecidableEq T] [DecidableEq M]

def State.raise (s : State T M) (o : T) (p : ℕ) : State T M :=
  { s with priority := Function.update s.priority o p }

def State.ask (s : State T M) (m : M) (p : ℕ) : State T M :=
  { s with waitPri := Function.update s.waitPri m (min p (s.waitPri m)) }

omit [DecidableEq T] [DecidableEq M] in
theorem not_raised (ho : s.owner m = some o) (hp : ¬ p < s.priority o) : ¬ Raised s p m t := by
  intro h
  induction h with
  | owner ho' hp' =>
    rw [ho] at ho'
    obtain rfl := Option.some.inj ho'
    exact hp hp'
  | chain _ _ _ _ ih => exact ih

omit [DecidableEq T] [DecidableEq M] in
theorem raised_last (ho : s.owner m = some o) (hp : p < s.priority o)
    (hw : ∀ m', o ∉ s.waiters m') : Raised s p m t ↔ t = o := by
  constructor
  · intro h
    induction h with
    | owner ho' _ => exact Option.some.inj (ho'.symm.trans ho)
    | chain _ hu _ _ ih =>
      rw [ih] at hu
      exact absurd hu (hw _)
  · rintro rfl
    exact .owner ho hp

omit [DecidableEq M] in
theorem raised_chain (ho : s.owner m = some o) (hp : p < s.priority o) (hw : o ∈ s.waiters m')
    (honly : ∀ m'', o ∈ s.waiters m'' → m'' = m') :
    Raised s p m t ↔ t = o ∨ Raised (s.raise o p) p m' t := by
  have hne : ∀ v, v ≠ o → (s.raise o p).priority v = s.priority v := fun v hv =>
    Function.update_of_ne hv ..
  have hlt : ∀ v, p < (s.raise o p).priority v → p < s.priority v ∧ v ≠ o := by
    intro v hv
    have hvo : v ≠ o := by
      rintro rfl
      simp [State.raise] at hv
    rw [hne v hvo] at hv
    exact ⟨hv, hvo⟩
  constructor
  · intro h
    induction h with
    | owner ho' _ => exact Or.inl (Option.some.inj (ho'.symm.trans ho))
    | @chain u v m'' _ hu ho' hp' ih =>
      by_cases hv : v = o
      · exact Or.inl hv
      · right
        have hp'' : p < (s.raise o p).priority v := by rwa [hne v hv]
        rcases ih with rfl | ih
        · rw [honly m'' hu] at ho'
          exact .owner ho' hp''
        · exact .chain ih hu ho' hp''
  · rintro (rfl | h)
    · exact .owner ho hp
    · induction h with
      | owner ho' hp' => exact .chain (.owner ho hp) hw ho' (hlt _ hp').1
      | chain _ hu ho' hp' ih => exact .chain ih hu ho' (hlt _ hp').1

omit [DecidableEq T] in
theorem boosted_stop (ho : s.owner m = some o) (hp : ¬ p < s.priority o) :
    Boosted s p m (s.ask m p) := by
  refine ⟨rfl, rfl, rfl, fun t ht => absurd ht (not_raised ho hp), fun _ _ => rfl, ?_, ?_⟩
  · rintro m' (rfl | ⟨u, hu, -⟩)
    · simp [State.ask]
    · exact absurd hu (not_raised ho hp)
  · intro m' hm
    have hne : m' ≠ m := fun he => hm (Or.inl he)
    simp [State.ask, hne]

theorem boosted_last (ho : s.owner m = some o) (hp : p < s.priority o)
    (hw : ∀ m', o ∉ s.waiters m') : Boosted s p m ((s.raise o p).ask m p) := by
  refine ⟨rfl, rfl, rfl, ?_, ?_, ?_, ?_⟩
  · intro t ht
    rw [raised_last ho hp hw] at ht
    subst ht
    simp [State.raise, State.ask]
  · intro t ht
    rw [raised_last ho hp hw] at ht
    simp [State.raise, State.ask, ht]
  · rintro m' (rfl | ⟨u, hu, hm⟩)
    · simp [State.ask, State.raise]
    · rw [raised_last ho hp hw] at hu
      subst hu
      exact absurd hm (hw m')
  · intro m' hm
    have hne : m' ≠ m := fun he => hm (Or.inl he)
    simp [State.ask, State.raise, hne]

theorem boosted_chain (ho : s.owner m = some o) (hp : p < s.priority o) (hw : o ∈ s.waiters m')
    (honly : ∀ m'', o ∈ s.waiters m'' → m'' = m') (h : Boosted (s.raise o p) p m' s₁) :
    Boosted s p m (s₁.ask m p) := by
  have hiff : ∀ t, Raised s p m t ↔ t = o ∨ Raised (s.raise o p) p m' t := fun t =>
    raised_chain ho hp hw honly
  have hself : ¬ Raised (s.raise o p) p m' o := by
    intro hr
    have hlt := hr.lt
    simp [State.raise] at hlt
  have htouch : ∀ m'', Touched s p m m'' ↔ m'' = m ∨ Touched (s.raise o p) p m' m'' := by
    intro m''
    constructor
    · rintro (rfl | ⟨u, hu, hm⟩)
      · exact Or.inl rfl
      · right
        rcases (hiff u).mp hu with rfl | hu
        · exact Or.inl (honly m'' hm)
        · exact Or.inr ⟨u, hu, hm⟩
    · rintro (rfl | rfl | ⟨u, hu, hm⟩)
      · exact Or.inl rfl
      · exact Or.inr ⟨o, .owner ho hp, hw⟩
      · exact Or.inr ⟨u, (hiff u).mpr (Or.inr hu), hm⟩
  refine ⟨h.owner, h.waiters, h.origin, ?_, ?_, ?_, ?_⟩
  · intro t ht
    rcases (hiff t).mp ht with rfl | ht
    · rw [show (s₁.ask m p).priority t = s₁.priority t from rfl, h.kept t hself]
      simp [State.raise]
    · exact h.raised t ht
  · intro t ht
    rw [hiff, not_or] at ht
    rw [show (s₁.ask m p).priority t = s₁.priority t from rfl, h.kept t ht.2]
    simp [State.raise, ht.1]
  · intro m'' hm
    by_cases hmm : m'' = m
    · subst hmm
      rw [show (s₁.ask m'' p).waitPri m'' = min p (s₁.waitPri m'') by simp [State.ask]]
      by_cases ht : Touched (s.raise o p) p m' m''
      · rw [h.touched m'' ht, ← min_assoc, min_self]
        rfl
      · rw [h.untouched m'' ht]
        rfl
    · rw [show (s₁.ask m p).waitPri m'' = s₁.waitPri m'' by simp [State.ask, hmm]]
      rw [h.touched m'' (((htouch m'').mp hm).resolve_left hmm)]
      rfl
  · intro m'' hm
    rw [htouch, not_or] at hm
    rw [show (s₁.ask m p).waitPri m'' = s₁.waitPri m'' by simp [State.ask, hm.1]]
    exact h.untouched m'' hm.2

end Recursion

/-- What a task may run at: its own priority and those of the tasks it keeps waiting. -/
def State.dues (s : State T M) (t : T) : Set ℕ :=
  {p | p = s.origin t ∨ ∃ m, s.owner m = some t ∧ ∃ w ∈ s.waiters m, s.priority w = p}

/-- Every priority of a task in `live` is owed to somebody, and nothing more is owed. -/
def Exact (s : State T M) (live : T → Prop) : Prop :=
  ∀ t, live t → IsLeast (s.dues t) (s.priority t)

/-- `wait_pri` of `m` is right about the waiters that are more urgent than `t` itself. -/
def Agrees (s : State T M) (t : T) (m : M) : Prop :=
  IsLeast {p | p = s.origin t ∨ ∃ w ∈ s.waiters m, s.priority w = p} (min (s.waitPri m) (s.origin t))

/-- Whoever owes its priority to a waiter that goes owes it to somebody else too. -/
def Spare (s : State T M) (gone : M → T → Prop) : Prop :=
  ∀ m t, s.owner m = some t → ∀ w ∈ s.waiters m, gone m w → s.priority w = s.priority t →
    s.priority t = s.origin t ∨
      ∃ m', s.owner m' = some t ∧ ∃ w' ∈ s.waiters m', ¬ gone m' w' ∧ s.priority w' = s.priority t

section Exactness
variable {live live' : T → Prop}

/-- The waiter `t` of priority `p` joins the list of `m` after the chain was boosted. -/
theorem Exact.blocked (h : Exact s live) (hb : Boosted s (s.priority t) m s₁)
    (how : s'.owner = s₁.owner) (hpri : s'.priority = s₁.priority) (hor : s'.origin = s₁.origin)
    (hmem : ∀ m' w, w ∈ s'.waiters m' ↔ w ∈ s.waiters m' ∨ (m' = m ∧ w = t)) :
    Exact s' live := by
  have hself : s₁.priority t = s.priority t := by
    apply hb.kept
    intro hr
    exact absurd hr.lt (lt_irrefl _)
  have hle := hb.le
  -- a waiter of a raised owner's mutex that was itself raised now sits at the new priority
  have hwaiter : ∀ m' w, w ∈ s'.waiters m' →
      (s₁.priority w = s.priority t ∧ Touched s (s.priority t) m m') ∨
      (w ∈ s.waiters m' ∧ s₁.priority w = s.priority w) := by
    intro m' w hw
    rcases (hmem m' w).mp hw with hw | ⟨rfl, rfl⟩
    · by_cases hr : Raised s (s.priority t) m w
      · exact Or.inl ⟨hb.raised w hr, Or.inr ⟨w, hr, hw⟩⟩
      · exact Or.inr ⟨hw, hb.kept w hr⟩
    · exact Or.inl ⟨hself, Or.inl rfl⟩
  have hraise : ∀ m' o, Touched s (s.priority t) m m' → s.owner m' = some o →
      s₁.priority o ≤ s.priority t := by
    intro m' o ht ho
    by_cases hlt : s.priority t < s.priority o
    · apply le_of_eq
      apply hb.raised
      rcases ht with rfl | ⟨u, hu, hm⟩
      · exact .owner ho hlt
      · exact .chain hu hm ho hlt
    · have hleo := hle o
      omega
  refine fun o ho => ⟨?_, ?_⟩
  · rw [hpri]
    by_cases hr : Raised s (s.priority t) m o
    · rw [hb.raised o hr]
      right
      cases hr with
      | owner hown _ =>
        exact ⟨m, by rw [how, hb.owner, hown], t, (hmem m t).mpr (Or.inr ⟨rfl, rfl⟩),
          by rw [hpri, hself]⟩
      | @chain v _ m' hv hm hown _ =>
        exact ⟨m', by rw [how, hb.owner, hown], v, (hmem m' v).mpr (Or.inl hm),
          by rw [hpri, hb.raised v hv]⟩
    · rw [hb.kept o hr]
      rcases (h o ho).1 with heq | ⟨m', hown, w, hw, heq⟩
      · exact Or.inl (by rw [hor, hb.origin, heq])
      · right
        refine ⟨m', by rw [how, hb.owner, hown], w, (hmem m' w).mpr (Or.inl hw), ?_⟩
        rw [hpri, ← heq]
        apply hb.kept
        intro hrw
        have hlt := hrw.lt
        exact hr (.chain hrw hw hown (by omega))
  · rintro q (rfl | ⟨m', hown, w, hw, rfl⟩)
    · rw [hpri, hor, hb.origin]
      exact (hle o).trans ((h o ho).2 (Or.inl rfl))
    · rw [how, hb.owner] at hown
      rw [hpri]
      rcases hwaiter m' w hw with ⟨heq, ht⟩ | ⟨hold, heq⟩
      · rw [heq]
        exact hraise m' o ht hown
      · rw [heq]
        exact (hle o).trans ((h o ho).2 (Or.inr ⟨m', hown, w, hold, rfl⟩))

/-- Waiters leave and mutexes lose their owner, but nobody's priority changes: what is needed
is that no owner's priority was owed to the waiters that left. -/
theorem Exact.shrink {gone : M → T → Prop} (h : Exact s live) (hlive : ∀ t, live' t → live t)
    (hpri : ∀ t, s'.priority t = s.priority t) (hor : ∀ t, s'.origin t = s.origin t)
    (how : ∀ m t, live' t → (s'.owner m = some t ↔ s.owner m = some t))
    (hw : ∀ m w, w ∈ s'.waiters m ↔ w ∈ s.waiters m ∧ ¬ gone m w) (hspare : Spare s gone) :
    Exact s' live' := by
  refine fun t ht => ⟨?_, ?_⟩
  · rw [hpri t]
    have hdue : s.priority t = s.origin t ∨ ∃ m, s.owner m = some t ∧
        ∃ w ∈ s.waiters m, ¬ gone m w ∧ s.priority w = s.priority t := by
      rcases (h t (hlive t ht)).1 with heq | ⟨m, hown, w, hm, heq⟩
      · exact Or.inl heq
      · by_cases hg : gone m w
        · exact hspare m t hown w hm hg heq
        · exact Or.inr ⟨m, hown, w, hm, hg, heq⟩
    rcases hdue with heq | ⟨m, hown, w, hm, hg, heq⟩
    · exact Or.inl (by rw [heq, hor])
    · exact Or.inr ⟨m, (how m t ht).mpr hown, w, (hw m w).mpr ⟨hm, hg⟩, by rw [hpri, heq]⟩
  · rw [hpri t]
    rintro q (rfl | ⟨m, hown, w, hm, rfl⟩)
    · rw [hor t]
      exact (h t (hlive t ht)).2 (Or.inl rfl)
    · rw [hpri w]
      apply (h t (hlive t ht)).2
      exact Or.inr ⟨m, (how m t ht).mp hown, w, ((hw m w).mp hm).1, rfl⟩

/-- What `t` falls back to: the least of what its mutexes ask for, `top` without any. -/
theorem isLeast_fallback {h : ℕ} (hagree : ∀ m, s.owner m = some t → Agrees s t m)
    (htop : s.origin t ≤ top) (hlow : ∀ m, s.owner m = some t → h ≤ s.waitPri m)
    (hatt : h = top ∨ ∃ m, s.owner m = some t ∧ h = s.waitPri m) :
    IsLeast (s.dues t) (min h (s.origin t)) := by
  constructor
  · rcases le_total (s.origin t) h with hle | hle
    · rw [min_eq_right hle]
      exact Or.inl rfl
    · rcases hatt with rfl | ⟨m, hown, rfl⟩
      · exact Or.inl (by omega)
      · rcases (hagree m hown).1 with heq | ⟨w, hw, heq⟩
        · exact Or.inl heq
        · exact Or.inr ⟨m, hown, w, hw, heq⟩
  · rintro q (rfl | ⟨m, hown, w, hw, rfl⟩)
    · exact min_le_right _ _
    · have hm := hlow m hown
      have hask := (hagree m hown).2 (Or.inr ⟨w, hw, rfl⟩)
      omega

/-- The owner `t` gives `m` to `n`, the head of the list, if there is one, and falls back. -/
theorem Exact.given {n : Option T} {rest : List T} {next : ℕ} (h : Exact s live)
    (hown : s.owner m = some t) (hsplit : s.waiters m = n.toList ++ rest)
    (hfirst : ∀ u, n = some u → ∀ w ∈ rest, s.priority u ≤ s.priority w)
    (htw : ∀ m', t ∉ s.waiters m') (how : s'.owner m = n)
    (how' : ∀ m', m' ≠ m → s'.owner m' = s.owner m') (hw : s'.waiters m = rest)
    (hw' : ∀ m', m' ≠ m → s'.waiters m' = s.waiters m')
    (hpri : ∀ u, u ≠ t → s'.priority u = s.priority u)
    (hpt : s'.priority t = if s.priority t < next then next else s.priority t)
    (hor : s'.origin = s.origin) (hnext : IsLeast (s'.dues t) next) : Exact s' live := by
  have hne : ∀ m' w, w ∈ s.waiters m' → w ≠ t := by
    rintro m' w hm rfl
    exact htw m' hm
  have hrest : ∀ w ∈ rest, w ∈ s.waiters m := fun w hm => by
    rw [hsplit]
    exact List.mem_append_right _ hm
  intro u hu
  by_cases hut : u = t
  · subst hut
    have hmem : s.priority u ≤ next := by
      apply (h u hu).2
      rcases hnext.1 with heq | ⟨m', hown', w, hwm, heq⟩
      · exact Or.inl (by rw [heq, hor])
      · have hm : m' ≠ m := by
          rintro rfl
          rw [how] at hown'
          subst hown'
          exact htw m' (by rw [hsplit]; exact List.mem_append_left _ (by simp))
        rw [hw' m' hm] at hwm
        rw [how' m' hm] at hown'
        exact Or.inr ⟨m', hown', w, hwm, by rw [← heq, hpri w (hne m' w hwm)]⟩
    have heq : s'.priority u = next := by
      rw [hpt]
      split_ifs with hlt
      · rfl
      · omega
    rw [heq]
    exact hnext
  · rw [hpri u hut]
    constructor
    · rcases (h u hu).1 with heq | ⟨m', hown', w, hwm, heq⟩
      · exact Or.inl (by rw [heq, hor])
      · have hm : m' ≠ m := by
          rintro rfl
          rw [hown] at hown'
          exact hut (Option.some.inj hown').symm
        exact Or.inr ⟨m', by rw [how' m' hm, hown'], w, by rw [hw' m' hm]; exact hwm,
          by rw [hpri w (hne m' w hwm), heq]⟩
    · rintro q (rfl | ⟨m', hown', w, hwm, rfl⟩)
      · rw [hor]
        exact (h u hu).2 (Or.inl rfl)
      · by_cases hm : m' = m
        · subst hm
          rw [how] at hown'
          rw [hw] at hwm
          rw [hpri w (hne m' w (hrest w hwm))]
          exact hfirst u hown' w hwm
        · rw [how' m' hm] at hown'
          rw [hw' m' hm] at hwm
          rw [hpri w (hne m' w hwm)]
          exact (h u hu).2 (Or.inr ⟨m', hown', w, hwm, rfl⟩)

/-- The wait lists stay as they are; mutexes that nobody waits for may change hands. -/
theorem Exact.still (h : Exact s live) (hw : ∀ m, s'.waiters m = s.waiters m)
    (how : ∀ m, s'.owner m = s.owner m ∨ s.waiters m = [])
    (hpri : ∀ t, live t → s'.priority t = s.priority t ∧ s'.origin t = s.origin t)
    (hwl : ∀ m, ∀ w ∈ s.waiters m, live w)
    (hborn : ∀ t, live' t → live t ∨
      ((∀ m, s'.owner m ≠ some t) ∧ s'.priority t = s'.origin t)) : Exact s' live' := by
  have hwaiter : ∀ m, ∀ w ∈ s.waiters m, s'.priority w = s.priority w := fun m w hm =>
    (hpri w (hwl m w hm)).1
  intro t ht
  rcases hborn t ht with hl | ⟨hno, heq⟩
  · have hdues : s'.dues t = s.dues t := by
      ext q
      constructor
      · rintro (hq | ⟨m, hown, w, hm, hq⟩)
        · exact Or.inl (by rw [hq, (hpri t hl).2])
        · rw [hw] at hm
          have hsame := (how m).resolve_right (List.ne_nil_of_mem hm)
          exact Or.inr ⟨m, by rw [← hsame, hown], w, hm, by rw [← hwaiter m w hm, hq]⟩
      · rintro (hq | ⟨m, hown, w, hm, hq⟩)
        · exact Or.inl (by rw [hq, (hpri t hl).2])
        · have hsame := (how m).resolve_right (List.ne_nil_of_mem hm)
          exact Or.inr ⟨m, by rw [hsame, hown], w, by rw [hw]; exact hm,
            by rw [hwaiter m w hm, hq]⟩
    rw [hdues, (hpri t hl).1]
    exact h t hl
  · refine ⟨Or.inl heq, ?_⟩
    rintro q (rfl | ⟨m, hown, -⟩)
    · exact le_of_eq heq
    · exact absurd hown (hno m)

end Exactness

def State.first (s : State T M) (top : ℕ) (m : M) : ℕ :=
  match s.waiters m with
  | [] => top
  | w :: _ => s.priority w

def Sorted (s : State T M) : Prop := ∀ m, (s.waiters m).Pairwise fun a b => s.priority a ≤ s.priority b

structure Ordered (s : State T M) (known : M → Prop) (top : ℕ) : Prop where
  sorted : ∀ m, (s.waiters m).Pairwise fun a b => s.priority a ≤ s.priority b
  wait : ∀ m, known m → s.waitPri m = s.first top m

/-- What is left of the order when a list has lost its first task. -/
structure Bounded (s : State T M) (known : M → Prop) : Prop where
  sorted : Sorted s
  bound : ∀ m, known m → ∀ w ∈ s.waiters m, s.waitPri m ≤ s.priority w

section Order
variable {known known' : M → Prop}

theorem Sorted.first_le (h : Sorted s) {w : T} (hw : w ∈ s.waiters m) : s.first top m ≤ s.priority w := by
  have hsorted := h m
  rw [State.first]
  cases hc : s.waiters m with
  | nil =>
    rw [hc] at hw
    exact absurd hw List.not_mem_nil
  | cons u rest =>
    rw [hc] at hw hsorted
    rcases List.mem_cons.mp hw with rfl | hw
    · exact le_refl _
    · exact (List.pairwise_cons.mp hsorted).1 w hw

theorem Sorted.shrink (h : Sorted s) (hw : ∀ m, (s'.waiters m).Sublist (s.waiters m))
    (hpri : ∀ m, ∀ w ∈ s'.waiters m, s'.priority w = s.priority w) : Sorted s' := by
  intro m
  refine ((h m).sublist (hw m)).imp_of_mem fun ha hb hle => ?_
  rw [hpri m _ ha, hpri m _ hb]
  exact hle

theorem Ordered.shrink (h : Ordered s known top) (hw : ∀ m, (s'.waiters m).Sublist (s.waiters m))
    (hpri : ∀ m, ∀ w ∈ s'.waiters m, s'.priority w = s.priority w)
    (hwait : ∀ m, known' m → s'.waitPri m = s'.first top m) : Ordered s' known' top :=
  ⟨Sorted.shrink h.sorted hw hpri, hwait⟩

theorem Bounded.shrink (top : ℕ) (h : Bounded s known) (hw : ∀ m, (s'.waiters m).Sublist (s.waiters m))
    (hpri : ∀ m, ∀ w ∈ s'.waiters m, s'.priority w = s.priority w)
    (hwait : ∀ m, known' m → s'.waitPri m = s'.first top m ∨ (known m ∧ s'.waitPri m = s.waitPri m)) :
    Bounded s' known' := by
  have hsorted := h.sorted.shrink hw hpri
  refine ⟨hsorted, fun m hm w hmem => ?_⟩
  rcases hwait m hm with heq | ⟨hk, heq⟩
  · rw [heq]
    exact hsorted.first_le hmem
  · rw [heq, hpri m w hmem]
    exact h.bound m hk w ((hw m).mem hmem)

theorem Ordered.still (h : Ordered s known top) (hw : ∀ m, s'.waiters m = s.waiters m)
    (hpri : ∀ m, ∀ w ∈ s.waiters m, s'.priority w = s.priority w)
    (hwp : ∀ m, known' m → (known m ∧ s'.waitPri m = s.waitPri m) ∨
      (s.waiters m = [] ∧ s'.waitPri m = top)) : Ordered s' known' top := by
  refine h.shrink (fun m => ?_) (fun m w hm => ?_) fun m hm => ?_
  · rw [hw]
  · rw [hw] at hm
    exact hpri m w hm
  · rcases hwp m hm with ⟨hk, heq⟩ | ⟨hnil, heq⟩
    · rw [heq, h.wait m hk, State.first, State.first, hw]
      cases hc : s.waiters m with
      | nil => rfl
      | cons w rest => exact (hpri m w (by rw [hc]; exact List.mem_cons_self)).symm
    · rw [heq, State.first, hw, hnil]

theorem Bounded.still (h : Bounded s known) (hw : ∀ m, s'.waiters m = s.waiters m)
    (hpri : ∀ m, ∀ w ∈ s.waiters m, s'.priority w = s.priority w)
    (hwp : ∀ m, known' m → (known m ∧ s'.waitPri m = s.waitPri m) ∨
      (s.waiters m = [] ∧ s'.waitPri m = top)) : Bounded s' known' := by
  refine h.shrink top (fun m => ?_) (fun m w hm => ?_) fun m hm => ?_
  · rw [hw]
  · rw [hw] at hm
    exact hpri m w hm
  · rcases hwp m hm with hold | ⟨hnil, heq⟩
    · exact Or.inr hold
    · left
      rw [heq, State.first, hw, hnil]

/-- A raised waiter keeps the order when whoever stands before it is raised with it or is
already as urgent. -/
def InPlace (s : State T M) (p : ℕ) (m : M) : Prop :=
  ∀ m', (s.waiters m').Pairwise fun a b =>
    Raised s p m b → Raised s p m a ∨ s.priority a ≤ p

theorem Sorted.boosted (h : Sorted s) (hb : Boosted s p m s₁) (hplace : InPlace s p m) : Sorted s₁ := by
  intro m'
  rw [hb.waiters]
  refine ((h m').and (hplace m')).imp fun {a b} hab => ?_
  by_cases hr : Raised s p m b
  · rw [hb.raised b hr]
    rcases hab.2 hr with ha | ha
    · exact le_of_eq (hb.raised a ha)
    · exact (hb.le a).trans ha
  · rw [hb.kept b hr]
    exact (hb.le a).trans hab.1

theorem Ordered.boosted (h : Ordered s known top) (hb : Boosted s p m s₁) (hplace : InPlace s p m)
    {m' : M} (hk : known m') (hm : m' ≠ m) : s₁.waitPri m' = s₁.first top m' := by
  have hold := h.wait m' hk
  rw [State.first, hb.waiters]
  rw [State.first] at hold
  have hpair := hplace m'
  cases hc : s.waiters m' with
  | nil =>
    rw [hc] at hold
    have ht : ¬ Touched s p m m' := by
      rintro (he | ⟨u, -, hu⟩)
      · exact hm he
      · rw [hc] at hu
        exact absurd hu List.not_mem_nil
    rw [hb.untouched m' ht, hold]
  | cons a rest =>
    rw [hc] at hold hpair
    simp only at hold ⊢
    by_cases hra : Raised s p m a
    · have ht : Touched s p m m' := Or.inr ⟨a, hra, by rw [hc]; exact List.mem_cons_self⟩
      have hlt := hra.lt
      rw [hb.touched m' ht, hb.raised a hra]
      omega
    · rw [hb.kept a hra]
      by_cases ht : Touched s p m m'
      · rw [hb.touched m' ht, hold]
        rcases ht with he | ⟨u, hu, hmem⟩
        · exact absurd he hm
        · rw [hc] at hmem
          rcases List.mem_cons.mp hmem with rfl | hmem
          · exact absurd hu hra
          · have hle := ((List.pairwise_cons.mp hpair).1 u hmem hu).resolve_left hra
            omega
      · rw [hb.untouched m' ht, hold]

theorem Bounded.boosted (h : Bounded s known) (hb : Boosted s p m s₁) {m' : M} (hk : known m') {w : T}
    (hw : w ∈ s.waiters m') : s₁.waitPri m' ≤ s₁.priority w := by
  have hbound := h.bound m' hk w hw
  by_cases ht : Touched s p m m'
  · rw [hb.touched m' ht]
    by_cases hr : Raised s p m w
    · rw [hb.raised w hr]
      exact min_le_left _ _
    · rw [hb.kept w hr]
      exact (min_le_right _ _).trans hbound
  · rw [hb.untouched m' ht, hb.kept w fun hr => ht (Or.inr ⟨w, hr, hw⟩)]
    exact hbound

/-- `t` is put before the first waiter that is not more urgent, or behind a more urgent last
one. -/
structure Placed (s : State T M) (p : ℕ) (xs ys : List T) : Prop where
  front : ∀ y rest, ys = y :: rest → (∀ x ∈ xs, s.priority x < p) ∧ p ≤ s.priority y
  back : ys = [] → ∀ x, xs.getLast? = some x → s.priority x < p

theorem Placed.of_sorted {xs ys : List T} (h : Placed s p xs ys)
    (hs : (xs ++ ys).Pairwise fun a b => s.priority a ≤ s.priority b) :
    (∀ x ∈ xs, s.priority x < p) ∧ ∀ y ∈ ys, p ≤ s.priority y := by
  rw [List.pairwise_append] at hs
  cases ys with
  | nil =>
    refine ⟨fun x hx => ?_, fun y hy => absurd hy List.not_mem_nil⟩
    cases hl : xs.getLast? with
    | none =>
      rw [List.getLast?_eq_none_iff.mp hl] at hx
      exact absurd hx List.not_mem_nil
    | some z =>
      have hz := h.back rfl z hl
      obtain ⟨zs, rfl⟩ := List.getLast?_eq_some_iff.mp hl
      rcases List.mem_append.mp hx with hx | hx
      · have hle := (List.pairwise_append.mp hs.1).2.2 x hx z (by simp)
        omega
      · rw [List.mem_singleton] at hx
        rw [hx]
        exact hz
  | cons y rest =>
    obtain ⟨hfront, hy⟩ := h.front y rest rfl
    refine ⟨hfront, fun z hz => ?_⟩
    rcases List.mem_cons.mp hz with rfl | hz
    · exact hy
    · have hle := (List.pairwise_cons.mp hs.2.1).1 z hz
      omega

/-- The waiter `t` joins the list of `m` after the chain was boosted. -/
structure Joins (s : State T M) (t : T) (m : M) (s₁ s' : State T M) (xs ys : List T) : Prop where
  boosted : Boosted s (s.priority t) m s₁
  split : s.waiters m = xs ++ ys
  placed : Placed s₁ (s.priority t) xs ys
  priority : s'.priority = s₁.priority
  waitPri : s'.waitPri = s₁.waitPri
  waiters : s'.waiters m = xs ++ t :: ys
  others : ∀ m', m' ≠ m → s'.waiters m' = s.waiters m'

theorem Boosted.self (hb : Boosted s (s.priority t) m s₁) : s₁.priority t = s.priority t := by
  apply hb.kept
  exact fun hr => absurd hr.lt (lt_irrefl _)

section Joining
variable {xs ys : List T}

theorem Joins.around (hj : Joins s t m s₁ s' xs ys) (h : Sorted s₁) :
    (∀ x ∈ xs, s₁.priority x < s.priority t) ∧ ∀ y ∈ ys, s.priority t ≤ s₁.priority y := by
  have hsm := h m
  rw [hj.boosted.waiters, hj.split] at hsm
  exact hj.placed.of_sorted hsm

theorem Joins.sorted (hj : Joins s t m s₁ s' xs ys) (h : Sorted s₁) : Sorted s' := by
  obtain ⟨hfront, hback⟩ := hj.around h
  intro m'
  rw [hj.priority]
  by_cases hm : m' = m
  · subst hm
    have hsm := h m'
    rw [hj.boosted.waiters, hj.split] at hsm
    rw [hj.waiters]
    rw [List.pairwise_append] at hsm ⊢
    refine ⟨hsm.1, List.pairwise_cons.mpr ⟨fun y hy => ?_, hsm.2.1⟩, fun x hx y hy => ?_⟩
    · rw [hj.boosted.self]
      exact hback y hy
    · rcases List.mem_cons.mp hy with rfl | hy
      · rw [hj.boosted.self]
        exact (hfront x hx).le
      · exact hsm.2.2 x hx y hy
  · rw [hj.others m' hm, ← hj.boosted.waiters]
    exact h m'

theorem Ordered.joined (h : Ordered s known top) (hj : Joins s t m s₁ s' xs ys)
    (hplace : InPlace s (s.priority t) m) (htop : s.priority t ≤ top) : Ordered s' known top := by
  have hsorted : Sorted s₁ := Sorted.boosted h.sorted hj.boosted hplace
  obtain ⟨hfront, hback⟩ := hj.around hsorted
  refine ⟨hj.sorted hsorted, fun m' hk => ?_⟩
  rw [hj.waitPri, State.first, hj.priority]
  by_cases hm : m' = m
  · subst hm
    have hold := h.wait m' hk
    rw [State.first, hj.split] at hold
    rw [hj.waiters, hj.boosted.touched m' (Or.inl rfl), hold]
    cases xs with
    | nil =>
      cases ys with
      | nil => simpa [hj.boosted.self] using htop
      | cons y rest =>
        have hy := (hback y List.mem_cons_self).trans (hj.boosted.le y)
        simpa [hj.boosted.self] using hy
    | cons x rest =>
      have hlt := hfront x List.mem_cons_self
      have hx : s₁.priority x = s.priority x := by
        apply hj.boosted.kept
        intro hr
        rw [hj.boosted.raised x hr] at hlt
        exact absurd hlt (lt_irrefl _)
      simp only [List.cons_append, hx]
      omega
  · have hold := h.boosted hj.boosted hplace hk hm
    rw [State.first, hj.boosted.waiters] at hold
    rw [hj.others m' hm]
    exact hold

theorem Bounded.joined (h : Bounded s known) (hj : Joins s t m s₁ s' xs ys)
    (hplace : InPlace s (s.priority t) m) : Bounded s' known := by
  refine ⟨hj.sorted (h.sorted.boosted hj.boosted hplace), fun m' hk w hw => ?_⟩
  rw [hj.waitPri, hj.priority]
  by_cases hm : m' = m
  · subst hm
    rw [hj.waiters] at hw
    by_cases hwt : w = t
    · subst hwt
      rw [hj.boosted.touched m' (Or.inl rfl), hj.boosted.self]
      exact min_le_left _ _
    · refine h.boosted hj.boosted hk ?_
      rw [hj.split]
      simpa [hwt] using hw
  · rw [hj.others m' hm] at hw
    exact h.boosted hj.boosted hk hw

end Joining

end Order

/-- No owner is less urgent than a task that waits for what it has. -/
def Covered (s : State T M) : Prop :=
  ∀ m t, s.owner m = some t → ∀ w ∈ s.waiters m, s.priority t ≤ s.priority w

def WaitsOn (s : State T M) (t u : T) : Prop := ∃ m, t ∈ s.waiters m ∧ s.owner m = some u

section Covering

theorem Covered.chain (h : Covered s) (hw : Relation.TransGen (WaitsOn s) t u) :
    s.priority u ≤ s.priority t := by
  induction hw with
  | single hw =>
    obtain ⟨m, hm, ho⟩ := hw
    exact h m _ ho _ hm
  | tail _ hw ih =>
    obtain ⟨m, hm, ho⟩ := hw
    exact (h m _ ho _ hm).trans ih

theorem Covered.shrink (h : Covered s)
    (hw : ∀ m t, s'.owner m = some t → ∀ w ∈ s'.waiters m,
      w ∈ s.waiters m ∧ s.owner m = some t ∧ s'.priority t = s.priority t ∧
        s'.priority w = s.priority w) : Covered s' := by
  intro m t ho w hm
  obtain ⟨hold, howner, ht, hwaiter⟩ := hw m t ho w hm
  rw [ht, hwaiter]
  exact h m t howner w hold

theorem Covered.blocked (h : Covered s) (hb : Boosted s (s.priority t) m s₁)
    (how : s'.owner = s₁.owner) (hpri : s'.priority = s₁.priority)
    (hmem : ∀ m' w, w ∈ s'.waiters m' → w ∈ s.waiters m' ∨ (m' = m ∧ w = t)) : Covered s' := by
  have hself : s₁.priority t = s.priority t := by
    apply hb.kept
    exact fun hr => absurd hr.lt (lt_irrefl _)
  intro m' o ho w hw
  rw [how, hb.owner] at ho
  rw [hpri]
  have hlow : (s.priority t < s.priority o → Raised s (s.priority t) m o) →
      s₁.priority o ≤ s.priority t := by
    intro hraised
    by_cases hlt : s.priority t < s.priority o
    · exact le_of_eq (hb.raised o (hraised hlt))
    · exact (hb.le o).trans (not_lt.mp hlt)
  rcases hmem m' w hw with hold | ⟨rfl, rfl⟩
  · by_cases hr : Raised s (s.priority t) m w
    · rw [hb.raised w hr]
      exact hlow fun hlt => .chain hr hold ho hlt
    · rw [hb.kept w hr]
      exact (hb.le o).trans (h m' o ho w hold)
  · rw [hself]
    exact hlow fun hlt => .owner ho hlt

/-- `m` goes to `n`, the most urgent of its waiters, and `t` falls back to something not less
urgent than any waiter of its other mutexes. -/
theorem Covered.given {n : Option T} {rest : List T} (h : Covered s)
    (hsplit : s.waiters m = n.toList ++ rest)
    (hfirst : ∀ u, n = some u → ∀ w ∈ rest, s.priority u ≤ s.priority w)
    (htn : n ≠ some t) (htw : ∀ m', t ∉ s.waiters m') (how : s'.owner m = n)
    (how' : ∀ m', m' ≠ m → s'.owner m' = s.owner m') (hw : s'.waiters m = rest)
    (hw' : ∀ m', m' ≠ m → s'.waiters m' = s.waiters m')
    (hpri : ∀ u, u ≠ t → s'.priority u = s.priority u)
    (hfall : s'.priority t = s.priority t ∨
      ∀ m', s'.owner m' = some t → ∀ w ∈ s'.waiters m', s'.priority t ≤ s'.priority w) :
    Covered s' := by
  intro m' u ho w hm
  have hold : w ∈ s.waiters m' := by
    by_cases hmm : m' = m
    · subst hmm
      rw [hw] at hm
      rw [hsplit]
      exact List.mem_append_right _ hm
    · rwa [hw' m' hmm] at hm
  have hwt : w ≠ t := by
    rintro rfl
    exact htw m' hold
  by_cases hmm : m' = m
  · subst hmm
    rw [hw] at hm
    rw [how] at ho
    have hut : u ≠ t := by
      rintro rfl
      exact htn ho
    rw [hpri u hut, hpri w hwt]
    exact hfirst u ho w hm
  · by_cases hut : u = t
    · subst hut
      rcases hfall with hsame | hlow
      · rw [how' m' hmm] at ho
        rw [hsame, hpri w hwt]
        exact h m' u ho w hold
      · exact hlow m' ho w hm
    · rw [how' m' hmm] at ho
      rw [hpri u hut, hpri w hwt]
      exact h m' u ho w hold

end Covering

/-- Whoever waits for a mutex has only mutexes of a lower rank. -/
def Ranked {α : Type*} [Preorder α] (s : State T M) (rank : M → α) : Prop :=
  ∀ m m' t, s.owner m = some t → t ∈ s.waiters m' → rank m < rank m'

section Ranking
variable {α : Type*} [Preorder α] {rank : M → α}

theorem Ranked.rises (h : Ranked s rank) (hw : Relation.TransGen (WaitsOn s) t u) :
    ∃ m m', t ∈ s.waiters m ∧ s.owner m' = some u ∧ rank m ≤ rank m' := by
  induction hw with
  | single hw =>
    obtain ⟨m, hm, ho⟩ := hw
    exact ⟨m, m, hm, ho, le_refl _⟩
  | @tail v w _ hw ih =>
    obtain ⟨m, m', hm, ho, hle⟩ := ih
    obtain ⟨m'', hm'', ho''⟩ := hw
    exact ⟨m, m'', hm, ho'', hle.trans (h m' m'' v ho hm'').le⟩

theorem Ranked.acyclic (h : Ranked s rank) (t : T) : ¬ Relation.TransGen (WaitsOn s) t t := by
  intro hcycle
  obtain ⟨m, m', hm, ho, hle⟩ := h.rises hcycle
  exact absurd (h m' m t ho hm) (not_lt_of_ge hle)

theorem Ranked.chain_ends [Finite T] (h : Ranked s rank)
    (howned : ∀ m, s.waiters m ≠ [] → ∃ u, s.owner m = some u) (ht : t ∈ s.waiters m) :
    ∃ u, Relation.TransGen (WaitsOn s) t u ∧ ∀ m', u ∉ s.waiters m' := by
  have : Std.Irrefl (Relation.TransGen fun u t => WaitsOn s t u) :=
    ⟨fun v hcycle => h.acyclic v (Relation.transGen_swap.mp hcycle)⟩
  have hwf := Finite.wellFounded_of_trans_of_irrefl (Relation.TransGen fun u t => WaitsOn s t u)
  induction t using hwf.induction generalizing m with
  | _ t ih =>
    obtain ⟨u, hu⟩ := howned m (List.ne_nil_of_mem ht)
    have hnext : WaitsOn s t u := ⟨m, ht, hu⟩
    by_cases hlast : ∃ m', u ∈ s.waiters m'
    · obtain ⟨m', hm'⟩ := hlast
      obtain ⟨v, hv, hend⟩ := ih u (.single hnext) hm'
      exact ⟨v, .head hnext hv, hend⟩
    · exact ⟨u, .single hnext, not_exists.mp hlast⟩

end Ranking

end DfewOS.PriorityInheritance
