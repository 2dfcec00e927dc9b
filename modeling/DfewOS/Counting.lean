import Mathlib.Data.List.Nodup
import Mathlib.Logic.Function.Basic
import Mathlib.Data.Nat.Notation

/-!
# Counting along a function with one value changed
-/

namespace Counting

variable {α β : Type*} [DecidableEq α] (P : β → Bool) (f : α → β) {l : List α} {a : α} {b : β}

theorem countP_update_notMem (h : a ∉ l) :
    l.countP (fun x => P (Function.update f a b x)) = l.countP fun x => P (f x) := by
  apply List.countP_congr
  intro x hx
  have hne : x ≠ a := fun heq => h (heq ▸ hx)
  rw [Function.update_of_ne hne]

theorem countP_update (hnd : l.Nodup) (hmem : a ∈ l) :
    l.countP (fun x => P (Function.update f a b x)) + (if P (f a) then 1 else 0) =
      l.countP (fun x => P (f x)) + (if P b then 1 else 0) := by
  induction l with
  | nil => cases hmem
  | cons x l ih =>
    obtain ⟨hx, hnd⟩ := List.nodup_cons.mp hnd
    rw [List.countP_cons, List.countP_cons]
    obtain rfl | htail := List.mem_cons.mp hmem
    · rw [countP_update_notMem P f hx, Function.update_self]
      omega
    · have hne : x ≠ a := fun heq => hx (heq ▸ htail)
      rw [Function.update_of_ne hne]
      have := ih hnd htail
      omega

end Counting
