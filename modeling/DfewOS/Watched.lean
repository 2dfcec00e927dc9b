import Mathlib.Tactic.Common

/-!
# Programs that report what they look at

A `Watched ε α` is a program that may fail, with the events it reports up to
its end or to its failure. `Always P` says that every reported event satisfies
`P`; it follows from the parts of a program in the order in which they run.
-/

namespace DfewOS

universe u

structure Watched (ε : Type u) (α : Type u) where
  value : Option α
  events : List ε

namespace Watched

variable {ε α β : Type u}

def report (e : ε) (a : α) : Watched ε α := ⟨some a, [e]⟩

def ofOption (o : Option α) : Watched ε α := ⟨o, []⟩

instance : Monad (Watched ε) where
  pure a := ⟨some a, []⟩
  bind x f := match x.value with
    | none => ⟨none, x.events⟩
    | some a => ⟨(f a).value, x.events ++ (f a).events⟩

@[simp] theorem value_report (e : ε) (a : α) : (report e a).value = some a := rfl

@[simp] theorem value_ofOption (o : Option α) : (ofOption o : Watched ε α).value = o := rfl

@[simp] theorem value_pure (a : α) : (pure a : Watched ε α).value = some a := rfl

@[simp] theorem value_bind (x : Watched ε α) (f : α → Watched ε β) :
    (x >>= f).value = x.value.bind fun a => (f a).value := by
  obtain ⟨o, es⟩ := x
  cases o <;> rfl

def Always (P : ε → Prop) (x : Watched ε α) : Prop := ∀ e ∈ x.events, P e

variable {P Q : ε → Prop} {x : Watched ε α} {f : α → Watched ε β}

theorem Always.pure (a : α) : (Pure.pure a : Watched ε α).Always P :=
  fun _ he => absurd he List.not_mem_nil

theorem Always.ofOption (o : Option α) : (Watched.ofOption o : Watched ε α).Always P :=
  fun _ he => absurd he List.not_mem_nil

theorem always_report {e : ε} {a : α} : (report e a).Always P ↔ P e :=
  ⟨fun h => h e (List.mem_singleton_self e), fun h _ he => List.mem_singleton.mp he ▸ h⟩

theorem Always.bind (hx : x.Always P) (hf : ∀ a, x.value = some a → (f a).Always P) :
    (x >>= f).Always P := by
  obtain ⟨o, es⟩ := x
  cases o with
  | none => exact hx
  | some a =>
    intro e he
    rcases List.mem_append.mp he with he | he
    · exact hx e he
    · exact hf a rfl e he

theorem Always.of_bind (h : (x >>= f).Always P) : x.Always P := by
  obtain ⟨o, es⟩ := x
  cases o with
  | none => exact h
  | some a => exact fun e he => h e (List.mem_append_left _ he)

theorem Always.of_bind_of_value {a : α} (h : (x >>= f).Always P) (ha : x.value = some a) :
    (f a).Always P := by
  obtain ⟨o, es⟩ := x
  obtain rfl := ha
  exact fun e he => h e (List.mem_append_right _ he)

theorem Always.mono (h : x.Always P) (hPQ : ∀ e, P e → Q e) : x.Always Q :=
  fun e he => hPQ e (h e he)

end Watched

end DfewOS
