import Mathlib.Data.Nat.Notation
import Mathlib.Data.Set.Basic

/-!
# Maximal runs between separators

A list is cut by the elements of a set `S` into the maximal runs of elements that are not in
`S`. A scan that passes the separators from a position on and then the elements up to the
next one has found the next run (`MaximalRun.next`, `next_or_behind`).
-/

namespace MaximalRuns

variable {α : Type*} {S : Set α} {s : List α} {c : α} {o n i j k : ℕ}

def SepAt (S : Set α) (s : List α) (k : ℕ) : Prop := ∃ c ∈ S, s[k]? = some c

theorem SepAt.lt (h : SepAt S s k) : k < s.length := by
  obtain ⟨c, -, hc⟩ := h
  exact (List.getElem?_eq_some_iff.mp hc).1

@[simp] theorem sepAt_zero : SepAt S (c :: s) 0 ↔ c ∈ S := by simp [SepAt]

@[simp] theorem sepAt_succ : SepAt S (c :: s) (k + 1) ↔ SepAt S s k := by simp [SepAt]

theorem sepAt_drop : SepAt S (s.drop o) k ↔ SepAt S s (o + k) := by
  rw [SepAt, SepAt, List.getElem?_drop]

structure MaximalRun (S : Set α) (s : List α) (i j : ℕ) : Prop where
  nonempty : i < j
  inside : j ≤ s.length
  run : ∀ k, i ≤ k → k < j → ¬ SepAt S s k
  left : i = 0 ∨ SepAt S s (i - 1)
  right : j = s.length ∨ SepAt S s j

theorem not_run (hsep : ∀ k, o ≤ k → k < s.length → SepAt S s k) (h : MaximalRun S s i j) : i < o := by
  have hlt := h.nonempty
  have hin := h.inside
  by_contra hle
  exact h.run i le_rfl hlt (hsep i (by omega) (by omega))

section Next
variable (hsep : ∀ k, o ≤ k → k < i → SepAt S s k) (hrun : ∀ k, i ≤ k → k < j → ¬ SepAt S s k)
  (hend : j = s.length ∨ SepAt S s j)
include hsep hrun hend

theorem MaximalRun.next (hleft : o = 0 ∨ SepAt S s (o - 1)) (hoi : o ≤ i) (hij : i < j) :
    MaximalRun S s i j where
  nonempty := hij
  inside := by
    rcases hend with heq | hsep
    · exact heq.le
    · exact hsep.lt.le
  run := hrun
  left := by
    rcases Nat.lt_or_ge o i with hlt | hge
    · exact Or.inr (hsep (i - 1) (by omega) (by omega))
    · obtain rfl : i = o := by omega
      exact hleft
  right := hend

theorem next_or_behind {u v : ℕ} (h : MaximalRun S s u v) (hou : o ≤ u) :
    (u, v) = (i, j) ∨ j < u := by
  have hlt := h.nonempty
  have hin := h.inside
  have hiu : i ≤ u := by
    by_contra hbefore
    exact h.run u le_rfl hlt (hsep u hou (by omega))
  rcases Nat.lt_or_ge u j with huj | hju
  · have hui : u = i := by
      rcases h.left with hzero | hleft
      · omega
      · by_contra hne
        exact hrun (u - 1) (by omega) (by omega) hleft
    have hvj : v = j := by
      rcases Nat.lt_trichotomy v j with hless | heq | hmore
      · rcases h.right with hlast | hright
        · rcases hend with hall | hat
          · omega
          · have hlong := hat.lt
            omega
        · exact absurd hright (hrun v (by omega) hless)
      · exact heq
      · rcases hend with hall | hat
        · omega
        · exact absurd hat (h.run j (by omega) hmore)
    exact Or.inl (by rw [hui, hvj])
  · refine Or.inr (lt_of_le_of_ne hju fun heq => ?_)
    subst heq
    rcases hend with hall | hat
    · omega
    · exact h.run j le_rfl hlt hat

end Next

end MaximalRuns
