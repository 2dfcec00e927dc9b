import Mathlib.Order.Lattice
import Mathlib.Data.List.Basic
import Mathlib.Data.List.Perm.Basic

/-!
# Bubble sort that ends with a pass without changes

A pass over the first `n + 1` elements carries the greatest of them to the
place `n`; a pass that changes nothing has found them in order.
-/

namespace DfewOS.BubbleSort

variable {α : Type*} [LinearOrder α]

/-- `n` comparisons from the head on; whether an exchange was made. -/
def pass : ℕ → List α → List α × Bool
  | n + 1, a :: b :: l =>
    if b < a then (b :: (pass n (a :: l)).1, true)
    else (a :: (pass n (b :: l)).1, (pass n (b :: l)).2)
  | _, l => (l, false)

def passes : ℕ → List α → List α
  | 0, l => l
  | n + 1, l => if (pass (n + 1) l).2 then passes n (pass (n + 1) l).1 else (pass (n + 1) l).1

def sort (l : List α) : List α := passes (l.length - 1) l

theorem pass_zero (l : List α) : pass 0 l = (l, false) := by
  rw [pass]
  exact fun n a b l h => absurd h (by simp)

variable {n : ℕ} {low high : List α}

theorem le_last {front : List α} {a m : α} (hperm : (front ++ [m]).Perm (a :: low))
    (hmax : ∀ x ∈ front, x ≤ m) : a ≤ m := by
  rcases List.mem_append.mp (hperm.mem_iff.mpr List.mem_cons_self) with ha | ha
  · exact hmax a ha
  · exact (List.mem_singleton.mp ha).le

theorem pass_append (hlow : low.length = n + 1) (high : List α) :
    ∃ front m, (pass n (low ++ high)).1 = front ++ m :: high ∧ (front ++ [m]).Perm low ∧
      ∀ x ∈ front, x ≤ m := by
  induction n generalizing low with
  | zero =>
    obtain ⟨a, rfl⟩ := List.length_eq_one_iff.mp hlow
    rw [pass_zero]
    exact ⟨[], a, rfl, .refl _, by simp⟩
  | succ n ih =>
    obtain ⟨a, low, rfl⟩ := List.exists_cons_of_length_eq_add_one hlow
    obtain ⟨b, low, rfl⟩ := List.exists_cons_of_length_eq_add_one (Nat.succ.inj hlow)
    have hlen (x : α) : (x :: low).length = n + 1 := Nat.succ.inj hlow
    rw [List.cons_append, List.cons_append, pass]
    split_ifs with hlt
    · obtain ⟨front, m, hpass, hperm, hmax⟩ := ih (hlen a)
      refine ⟨b :: front, m, congrArg (b :: ·) hpass, (hperm.cons b).trans (.swap a b low), ?_⟩
      exact List.forall_mem_cons.mpr ⟨hlt.le.trans (le_last hperm hmax), hmax⟩
    · obtain ⟨front, m, hpass, hperm, hmax⟩ := ih (hlen b)
      refine ⟨a :: front, m, congrArg (a :: ·) hpass, hperm.cons a, ?_⟩
      exact List.forall_mem_cons.mpr ⟨(not_lt.mp hlt).trans (le_last hperm hmax), hmax⟩

theorem pass_unchanged (hlow : low.length = n + 1) (h : (pass n (low ++ high)).2 = false) :
    (pass n (low ++ high)).1 = low ++ high ∧ low.Pairwise (· ≤ ·) := by
  induction n generalizing low with
  | zero =>
    obtain ⟨a, rfl⟩ := List.length_eq_one_iff.mp hlow
    rw [pass_zero]
    exact ⟨rfl, List.pairwise_singleton _ a⟩
  | succ n ih =>
    obtain ⟨a, low, rfl⟩ := List.exists_cons_of_length_eq_add_one hlow
    obtain ⟨b, low, rfl⟩ := List.exists_cons_of_length_eq_add_one (Nat.succ.inj hlow)
    rw [List.cons_append, List.cons_append, pass] at h ⊢
    split_ifs at h ⊢ with hlt
    obtain ⟨hpass, hsorted⟩ := ih (Nat.succ.inj hlow) h
    refine ⟨congrArg (a :: ·) hpass, List.pairwise_cons.mpr ⟨?_, hsorted⟩⟩
    refine List.forall_mem_cons.mpr ⟨not_lt.mp hlt, fun x hx => ?_⟩
    exact (not_lt.mp hlt).trans (List.rel_of_pairwise_cons hsorted hx)

theorem passes_append (hlow : low.length = n + 1) (hhigh : high.Pairwise (· ≤ ·))
    (hle : ∀ x ∈ low, ∀ y ∈ high, x ≤ y) :
    (passes n (low ++ high)).Perm (low ++ high) ∧ (passes n (low ++ high)).Pairwise (· ≤ ·) := by
  induction n generalizing low high with
  | zero =>
    obtain ⟨a, rfl⟩ := List.length_eq_one_iff.mp hlow
    exact ⟨.refl _, List.pairwise_cons.mpr ⟨hle a List.mem_cons_self, hhigh⟩⟩
  | succ n ih =>
    rw [passes]
    split_ifs with hchanged
    · obtain ⟨front, m, hpass, hperm, hmax⟩ := pass_append hlow high
      have hmem {x : α} (hx : x ∈ front) : x ∈ low :=
        hperm.mem_iff.mp (List.mem_append_left _ hx)
      have hm : m ∈ low := hperm.mem_iff.mp (List.mem_append_right _ (List.mem_singleton_self m))
      have hlen := hperm.length_eq
      rw [List.length_append, List.length_singleton, hlow] at hlen
      have hrest : (m :: high).Pairwise (· ≤ ·) := List.pairwise_cons.mpr ⟨hle m hm, hhigh⟩
      obtain ⟨hp, hs⟩ := ih (Nat.succ.inj hlen) hrest fun x hx =>
        List.forall_mem_cons.mpr ⟨hmax x hx, hle x (hmem hx)⟩
      rw [hpass]
      refine ⟨hp.trans ?_, hs⟩
      have := hperm.append_right high
      rwa [List.append_assoc] at this
    · obtain ⟨hpass, hsorted⟩ := pass_unchanged hlow (Bool.eq_false_iff.mpr hchanged)
      rw [hpass]
      exact ⟨.refl _, List.pairwise_append.mpr ⟨hsorted, hhigh, hle⟩⟩

theorem sort_spec (l : List α) : (sort l).Perm l ∧ (sort l).Pairwise (· ≤ ·) := by
  cases l with
  | nil => exact ⟨.refl _, .nil⟩
  | cons a l =>
    have hlow : (a :: l).length = l.length + 1 := rfl
    have h := passes_append hlow List.Pairwise.nil (by simp)
    rwa [List.append_nil] at h

end DfewOS.BubbleSort
