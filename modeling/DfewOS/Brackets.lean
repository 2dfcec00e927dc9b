import Mathlib.Data.Nat.Notation
import Mathlib.Data.List.Basic
import Mathlib.Data.List.Infix

/-!
# Matching brackets

`closing` goes through a list with a count of the brackets that are open and stops at the one
that closes the last of them. What stands in front of it is `Balanced`.
-/

namespace Brackets

variable {α : Type*} [DecidableEq α] (l r : α)

/-- What stands in front of and behind the bracket that closes the last one of `n`. -/
def closing : ℕ → List α → Option (List α × List α)
  | _, [] => none
  | n, c :: s =>
      if c = l then (closing (n + 1) s).map (Prod.map (c :: ·) id)
      else if c = r then
        if n ≤ 1 then some ([], s) else (closing (n - 1) s).map (Prod.map (c :: ·) id)
      else (closing n s).map (Prod.map (c :: ·) id)

/-- Behind `n` brackets that are open, `s` never closes more than are open, and closes all but
those that were open before. -/
structure Balanced (n : ℕ) (s : List α) : Prop where
  sane : ∀ u, u <+: s → u.count r ≤ u.count l + n
  settled : s.count r = s.count l + n

variable {l r} {n : ℕ} {s inside after : List α}

theorem closing_append (h : closing l r n s = some (inside, after)) : s = inside ++ r :: after := by
  induction s generalizing n inside with
  | nil => cases h
  | cons c s ih =>
    have hpass : ∀ {m}, (closing l r m s).map (Prod.map (c :: ·) id) = some (inside, after) →
        c :: s = inside ++ r :: after := by
      intro m hmap
      obtain ⟨⟨i, a⟩, hi, heq⟩ := Option.map_eq_some_iff.mp hmap
      obtain ⟨rfl, rfl⟩ := Prod.mk.inj heq
      exact congrArg (c :: ·) (ih hi)
    rw [closing] at h
    split_ifs at h with hl hr hn
    · exact hpass h
    · obtain ⟨rfl, rfl⟩ := Prod.mk.inj (Option.some.inj h)
      rw [hr]
      rfl
    · exact hpass h
    · exact hpass h

theorem balanced_nil : Balanced l r n [] ↔ n = 0 := by
  constructor
  · exact fun h => (by simpa using h.settled : 0 = n).symm
  · rintro rfl
    exact ⟨fun u hu => by simp [List.prefix_nil.mp hu], rfl⟩

theorem balanced_cons {c : α} {m : ℕ}
    (h : ∀ u : List α, ((c :: u).count r ≤ (c :: u).count l + n ↔ u.count r ≤ u.count l + m) ∧
      ((c :: u).count r = (c :: u).count l + n ↔ u.count r = u.count l + m)) :
    Balanced l r n (c :: s) ↔ Balanced l r m s := by
  constructor
  · rintro ⟨hsane, hsettled⟩
    exact ⟨fun u hu => (h u).1.mp (hsane _ ((List.prefix_cons_inj c).mpr hu)), (h s).2.mp hsettled⟩
  · rintro ⟨hsane, hsettled⟩
    refine ⟨fun u hu => ?_, (h s).2.mpr hsettled⟩
    rcases List.prefix_cons_iff.mp hu with rfl | ⟨v, rfl, hv⟩
    · simp
    · exact (h v).1.mpr (hsane v hv)

theorem balanced_opens (hlr : l ≠ r) : Balanced l r n (l :: s) ↔ Balanced l r (n + 1) s := by
  refine balanced_cons fun u => ?_
  rw [List.count_cons_self, List.count_cons_of_ne hlr]
  omega

theorem balanced_closes (hlr : l ≠ r) : Balanced l r (n + 1) (r :: s) ↔ Balanced l r n s := by
  refine balanced_cons fun u => ?_
  rw [List.count_cons_self, List.count_cons_of_ne hlr.symm]
  omega

theorem not_balanced_closes (hlr : l ≠ r) : ¬ Balanced l r 0 (r :: s) := by
  intro h
  have hfirst := h.sane [r] ⟨s, rfl⟩
  rw [List.count_singleton_self, List.count_singleton, beq_false_of_ne hlr.symm] at hfirst
  exact absurd hfirst (by decide)

theorem balanced_other {c : α} (hl : c ≠ l) (hr : c ≠ r) : Balanced l r n (c :: s) ↔ Balanced l r n s := by
  refine balanced_cons fun u => ?_
  rw [List.count_cons_of_ne hl, List.count_cons_of_ne hr]
  exact ⟨Iff.rfl, Iff.rfl⟩

/-- The bracket that closes is the first one in front of which the brackets are balanced. -/
theorem closing_eq_some_iff (hlr : l ≠ r) : closing l r (n + 1) s = some (inside, after) ↔
    s = inside ++ r :: after ∧ Balanced l r n inside := by
  induction s generalizing n inside with
  | nil => simp [closing]
  | cons c s ih =>
    have hpass : ∀ {m}, (c = r → n ≠ 0) → (∀ w, Balanced l r n (c :: w) ↔ Balanced l r m w) →
        ((closing l r (m + 1) s).map (Prod.map (c :: ·) id) = some (inside, after) ↔
          c :: s = inside ++ r :: after ∧ Balanced l r n inside) := by
      intro m hstay hcons
      rw [Option.map_eq_some_iff]
      constructor
      · rintro ⟨⟨w, a⟩, hw, heq⟩
        obtain ⟨rfl, rfl⟩ := Prod.mk.inj heq
        obtain ⟨rfl, hbalanced⟩ := ih.mp hw
        exact ⟨rfl, (hcons w).mpr hbalanced⟩
      · rintro ⟨heq, hbalanced⟩
        cases inside with
        | nil => exact absurd (balanced_nil.mp hbalanced) (hstay (List.cons.inj heq).1)
        | cons d w =>
          obtain ⟨rfl, rfl⟩ := List.cons.inj heq
          exact ⟨(w, after), ih.mpr ⟨rfl, (hcons w).mp hbalanced⟩, rfl⟩
    rw [closing]
    split_ifs with hl hr hn
    · subst hl
      exact hpass (fun h => absurd h hlr) fun w => balanced_opens hlr
    · subst hr
      obtain rfl : n = 0 := by omega
      cases inside with
      | nil => simp [balanced_nil]
      | cons d w =>
        refine iff_of_false nofun ?_
        rintro ⟨heq, hbalanced⟩
        obtain ⟨rfl, -⟩ := List.cons.inj heq
        exact not_balanced_closes hlr hbalanced
    · subst hr
      obtain ⟨k, rfl⟩ : ∃ k, n = k + 1 := ⟨n - 1, by omega⟩
      exact hpass (fun _ => Nat.succ_ne_zero k) fun w => balanced_closes hlr
    · exact hpass (fun h => absurd h hr) fun w => balanced_other hl hr

end Brackets
