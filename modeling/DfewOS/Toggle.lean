import Mathlib.Data.List.Nodup
import Mathlib.Logic.Function.Basic

/-!
# Cells that are toggled

An array of cells and the cells that were toggled so far. A list of cells without repetitions
toggles each of them once; if toggling is an involution, the same list in any order brings the
cells back.
-/

structure Toggle (ι α : Type*) where
  cell : ι → α
  toggled : List ι

namespace Toggle

variable {ι α : Type*} [DecidableEq ι] {inv : α → α} {i : ι} {l l' : List ι} {m : Toggle ι α}

/-- `a[i] = inv (a[i])` -/
def toggle (inv : α → α) (m : Toggle ι α) (i : ι) : Toggle ι α :=
  ⟨Function.update m.cell i (inv (m.cell i)), i :: m.toggled⟩

def toggleAll (inv : α → α) (m : Toggle ι α) (l : List ι) : Toggle ι α := l.foldl (toggle inv) m

theorem toggleAll_append : toggleAll inv m (l ++ l') = toggleAll inv (toggleAll inv m l) l' :=
  List.foldl_append

theorem toggleAll_count (i : ι) :
    (toggleAll inv m l).toggled.count i = l.count i + m.toggled.count i := by
  induction l generalizing m with
  | nil => exact (Nat.zero_add _).symm
  | cons j l ih =>
    rw [toggleAll, List.foldl_cons]
    refine ih.trans ?_
    rw [toggle, List.count_cons, List.count_cons]
    omega

theorem toggleAll_of_not_mem (h : i ∉ l) : (toggleAll inv m l).cell i = m.cell i := by
  induction l generalizing m with
  | nil => rfl
  | cons j l ih =>
    obtain ⟨hne, hrest⟩ := List.ne_and_not_mem_of_not_mem_cons h
    exact (ih hrest).trans (Function.update_of_ne hne _ _)

theorem toggleAll_of_mem (hnodup : l.Nodup) (h : i ∈ l) :
    (toggleAll inv m l).cell i = inv (m.cell i) := by
  induction l generalizing m with
  | nil => exact absurd h List.not_mem_nil
  | cons j l ih =>
    obtain ⟨hj, hl⟩ := List.nodup_cons.mp hnodup
    rcases List.mem_cons.mp h with rfl | hmem
    · exact (toggleAll_of_not_mem hj).trans (Function.update_self ..)
    · have hne : i ≠ j := fun heq => hj (heq ▸ hmem)
      refine (ih hl hmem).trans (congrArg inv ?_)
      exact Function.update_of_ne hne _ _

theorem toggleAll_twice (hinv : Function.Involutive inv) (hnodup : l.Nodup) :
    (toggleAll inv (toggleAll inv m l) l).cell = m.cell := by
  funext i
  by_cases h : i ∈ l
  · rw [toggleAll_of_mem hnodup h, toggleAll_of_mem hnodup h, hinv]
  · rw [toggleAll_of_not_mem h, toggleAll_of_not_mem h]

end Toggle
