import Mathlib.Logic.Basic
import Mathlib.Data.List.Basic

/-!
# Labelled transition systems and their runs

A run may be restricted step by step: `Run S ok` only takes a step from `s`
with label `a` when `ok s a` holds. Invariants of all reachable states follow
from the initial states and one step, and an invariant that is already known
may be used on both sides of the step. `System.withGhost` adds a history
variable, which restricts no run.
-/

namespace DfewOS.Transition

variable {σ α : Type*}

structure System (σ α : Type*) where
  init : σ → Prop
  step : σ → α → σ → Prop

inductive Run (S : System σ α) (ok : σ → α → Prop) (s₀ : σ) : List α → σ → Prop
  | nil : Run S ok s₀ [] s₀
  | snoc {as : List α} {s s' : σ} {a : α} :
      Run S ok s₀ as s → ok s a → S.step s a s' → Run S ok s₀ (as ++ [a]) s'

def Reachable (S : System σ α) (ok : σ → α → Prop) (s : σ) : Prop :=
  ∃ s₀ as, S.init s₀ ∧ Run S ok s₀ as s

variable {S : System σ α} {ok ok' : σ → α → Prop}

theorem Run.mono (h : ∀ s a, ok s a → ok' s a) {s₀ s : σ} {as : List α}
    (hr : Run S ok s₀ as s) : Run S ok' s₀ as s := by
  induction hr with
  | nil => exact .nil
  | snoc _ ha hs ih => exact .snoc ih (h _ _ ha) hs

theorem Run.trans {s₀ s₁ s₂ : σ} {as bs : List α} (h : Run S ok s₀ as s₁)
    (h' : Run S ok s₁ bs s₂) : Run S ok s₀ (as ++ bs) s₂ := by
  induction h' with
  | nil => rwa [List.append_nil]
  | snoc _ ha hs ih =>
    rw [← List.append_assoc]
    exact .snoc ih ha hs

theorem Run.single {s s' : σ} {a : α} (ha : ok s a) (hs : S.step s a s') : Run S ok s [a] s' :=
  Run.snoc Run.nil ha hs

theorem Run.reachable {s₀ s : σ} {as : List α} (hr : Run S ok s₀ as s)
    (h : Reachable S ok s₀) : Reachable S ok s := by
  obtain ⟨s₁, bs, h₁, hb⟩ := h
  exact ⟨s₁, bs ++ as, h₁, hb.trans hr⟩

theorem Reachable.mono (h : ∀ s a, ok s a → ok' s a) {s : σ} (hr : Reachable S ok s) :
    Reachable S ok' s := by
  obtain ⟨s₀, as, h₀, hr⟩ := hr
  exact ⟨s₀, as, h₀, hr.mono h⟩

theorem Reachable.init {s : σ} (h : S.init s) : Reachable S ok s := ⟨s, [], h, .nil⟩

theorem Reachable.step {s s' : σ} {a : α} (hr : Reachable S ok s) (ha : ok s a)
    (hs : S.step s a s') : Reachable S ok s' := by
  obtain ⟨s₀, as, h₀, hr⟩ := hr
  exact ⟨s₀, as ++ [a], h₀, .snoc hr ha hs⟩

theorem Run.nil_eq {s₀ s : σ} (hr : Run S ok s₀ [] s) : s = s₀ := by
  generalize hbs : ([] : List α) = bs at hr
  cases hr with
  | nil => rfl
  | snoc _ _ _ => exact absurd hbs.symm (List.append_ne_nil_of_right_ne_nil _ (List.cons_ne_nil _ []))

theorem Run.snoc_cases {s₀ s' : σ} {as : List α} {a : α} (hr : Run S ok s₀ (as ++ [a]) s') :
    ∃ s, Run S ok s₀ as s ∧ ok s a ∧ S.step s a s' := by
  generalize hbs : as ++ [a] = bs at hr
  cases hr with
  | nil => exact absurd hbs (List.append_ne_nil_of_right_ne_nil as (List.cons_ne_nil a []))
  | snoc hr ha hs =>
    obtain ⟨rfl, hlast⟩ := List.append_inj' hbs rfl
    obtain rfl := (List.cons.inj hlast).1
    exact ⟨_, hr, ha, hs⟩

theorem Run.unique (hdet : ∀ s a s₁ s₂, S.step s a s₁ → S.step s a s₂ → s₁ = s₂) {s₀ s s' : σ}
    {as : List α} (h : Run S ok s₀ as s) (h' : Run S ok' s₀ as s') : s = s' := by
  induction h generalizing s' with
  | nil => exact h'.nil_eq.symm
  | snoc _ _ hs ih =>
    obtain ⟨s₁, hr, _, hs'⟩ := h'.snoc_cases
    obtain rfl := ih hr
    exact hdet _ _ _ _ hs hs'

theorem Run.invariant {I : σ → Prop} (step : ∀ s a s', I s → ok s a → S.step s a s' → I s')
    {s₀ s : σ} {as : List α} (h₀ : I s₀) (hr : Run S ok s₀ as s) : I s := by
  induction hr with
  | nil => exact h₀
  | snoc _ ha hs ih => exact step _ _ _ ih ha hs

theorem Run.strengthen {I : σ → Prop} (step : ∀ s a s', I s → ok s a → S.step s a s' → I s')
    (h : ∀ s a, I s → ok s a → ok' s a) {s₀ s : σ} {as : List α} (h₀ : I s₀)
    (hr : Run S ok s₀ as s) : Run S ok' s₀ as s := by
  induction hr with
  | nil => exact .nil
  | snoc hr ha hs ih => exact .snoc ih (h _ _ (hr.invariant step h₀) ha) hs

theorem Reachable.invariant {I : σ → Prop} (init : ∀ s, S.init s → I s)
    (step : ∀ s a s', I s → ok s a → S.step s a s' → I s') {s : σ}
    (hr : Reachable S ok s) : I s := by
  obtain ⟨s₀, as, h₀, hr⟩ := hr
  exact hr.invariant step (init s₀ h₀)

theorem Reachable.invariant_rel {I J : σ → Prop} (known : ∀ s, Reachable S ok s → J s)
    (init : ∀ s, S.init s → I s)
    (step : ∀ s a s', J s → J s' → I s → ok s a → S.step s a s' → I s') {s : σ}
    (hr : Reachable S ok s) : I s := by
  obtain ⟨s₀, as, h₀, hr⟩ := hr
  induction hr with
  | nil => exact init _ h₀
  | snoc hr ha hs ih =>
    have hJ := known _ ⟨s₀, _, h₀, hr⟩
    exact step _ _ _ hJ (known _ ⟨s₀, _, h₀, .snoc hr ha hs⟩) ih ha hs

theorem Run.history {I : List α → σ → Prop} {s₀ : σ} (h₀ : I [] s₀)
    (step : ∀ as s a s', Run S ok s₀ as s → I as s → ok s a → S.step s a s' → I (as ++ [a]) s')
    {s : σ} {as : List α} (hr : Run S ok s₀ as s) : I as s := by
  induction hr with
  | nil => exact h₀
  | snoc hr ha hs ih => exact step _ _ _ _ hr ih ha hs

section Ghost
variable {γ : Type*} {g₀ : γ} {upd : σ → α → σ → γ → γ}

/-- `S` with a value beside the state that the steps write and never read. -/
def System.withGhost (S : System σ α) (g₀ : γ) (upd : σ → α → σ → γ → γ) : System (σ × γ) α where
  init x := S.init x.1 ∧ x.2 = g₀
  step x a y := S.step x.1 a y.1 ∧ y.2 = upd x.1 a y.1 x.2

theorem Reachable.of_ghost {x : σ × γ}
    (h : Reachable (S.withGhost g₀ upd) (fun x a => ok x.1 a) x) : Reachable S ok x.1 := by
  apply h.invariant
  · exact fun x hx => .init hx.1
  · exact fun x a y hx ha hs => hx.step ha hs.1

theorem Run.exists_ghost {s₀ s : σ} {as : List α} (g : γ) (h : Run S ok s₀ as s) :
    ∃ g', Run (S.withGhost g₀ upd) (fun x a => ok x.1 a) (s₀, g) as (s, g') := by
  induction h with
  | nil => exact ⟨g, .nil⟩
  | @snoc _ s s' a _ ha hs ih =>
    obtain ⟨g', hg⟩ := ih
    exact ⟨upd s a s' g', .snoc hg ha ⟨hs, rfl⟩⟩

theorem Reachable.exists_ghost {s : σ} (h : Reachable S ok s) :
    ∃ g, Reachable (S.withGhost g₀ upd) (fun x a => ok x.1 a) (s, g) := by
  obtain ⟨s₀, as, h₀, hr⟩ := h
  obtain ⟨g, hg⟩ : ∃ g, Run (S.withGhost g₀ upd) (fun x a => ok x.1 a) (s₀, g₀) as (s, g) :=
    hr.exists_ghost g₀
  exact ⟨g, (s₀, g₀), as, ⟨h₀, rfl⟩, hg⟩

end Ghost

end DfewOS.Transition
