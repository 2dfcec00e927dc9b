import Mathlib.Order.Lattice
import Mathlib.Data.List.Basic

/-!
# A running maximum

A loop that keeps the greatest value it has met and where it has met it. Behind a list with
values above the one it starts with, it holds a place of the list with the greatest value.
-/

structure RunningMax (α β : Type*) where
  value : β
  place : Option α

namespace RunningMax

variable {α β : Type*} [LinearOrder β]

/-- `if (value > max) { max = value; place = a; }` -/
def take (value : β) (a : α) (m : RunningMax α β) : RunningMax α β :=
  if m.value < value then ⟨value, some a⟩ else m

def scan (f : α → β) : List α → RunningMax α β → RunningMax α β
  | [], m => m
  | a :: l, m => scan f l (m.take (f a) a)

variable {f : α → β} {a : α} {l : List α} {m : RunningMax α β}

theorem scan_cons : scan f (a :: l) m = scan f l (m.take (f a) a) := rfl

theorem take_of_lt {value : β} (h : m.value < value) : m.take value a = ⟨value, some a⟩ := if_pos h

theorem take_of_le {value : β} (h : value ≤ m.value) : m.take value a = m := if_neg h.not_gt

theorem scan_held (f : α → β) (a : α) (l : List α) :
    ∃ b ∈ a :: l, scan f l ⟨f a, some a⟩ = ⟨f b, some b⟩ ∧
      ∀ c ∈ a :: l, f c ≤ f b := by
  induction l generalizing a with
  | nil =>
    refine ⟨a, List.mem_cons_self, rfl, fun c hc => ?_⟩
    rw [List.mem_singleton.mp hc]
  | cons d l ih =>
    rw [scan_cons]
    rcases lt_or_ge (f a) (f d) with hlt | hge
    · obtain ⟨b, hb, hrun, hmax⟩ := ih d
      refine ⟨b, List.mem_cons_of_mem a hb, ?_, fun c hc => ?_⟩
      · rw [take_of_lt hlt]
        exact hrun
      · rcases List.mem_cons.mp hc with rfl | hc
        · exact le_trans (le_of_lt hlt) (hmax d List.mem_cons_self)
        · exact hmax c hc
    · obtain ⟨b, hb, hrun, hmax⟩ := ih a
      refine ⟨b, ?_, ?_, fun c hc => ?_⟩
      · rcases List.mem_cons.mp hb with rfl | hb
        · exact List.mem_cons_self
        · exact List.mem_cons_of_mem a (List.mem_cons_of_mem d hb)
      · rw [take_of_le hge]
        exact hrun
      · rcases List.mem_cons.mp hc with rfl | hc
        · exact hmax c List.mem_cons_self
        · rcases List.mem_cons.mp hc with rfl | hc
          · exact le_trans hge (hmax a List.mem_cons_self)
          · exact hmax c (List.mem_cons_of_mem a hc)

theorem scan_best (hl : l ≠ []) (hlow : ∀ a ∈ l, m.value < f a) :
    ∃ b ∈ l, scan f l m = ⟨f b, some b⟩ ∧ ∀ c ∈ l, f c ≤ f b := by
  obtain ⟨a, l, rfl⟩ := List.exists_cons_of_ne_nil hl
  rw [scan_cons, take_of_lt (hlow a List.mem_cons_self)]
  exact scan_held f a l

end RunningMax
