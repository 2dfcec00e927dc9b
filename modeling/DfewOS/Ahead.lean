import DfewOS.ListHeap

/-!
# Who stands before an element of a queue

`ahead t xs` are the elements before the first `t`. Appending to a queue in
which `t` stands, and taking another element out of it, lets nobody get ahead
of `t`; taking the first one out brings `t` forward. `Advances` says this of
some queues of a family.
-/

namespace DfewOS.ListHeap

variable {ι α : Type*} [DecidableEq α]

def ahead (t : α) (xs : List α) : List α := xs.takeWhile fun x => x ≠ t

theorem ahead_cons_self (t : α) (xs : List α) : ahead t (t :: xs) = [] := by
  simp [ahead]

theorem ahead_cons_of_ne {t x : α} (h : x ≠ t) (xs : List α) :
    ahead t (x :: xs) = x :: ahead t xs := by
  simp [ahead, h]

theorem ahead_append {t : α} {xs : List α} (h : t ∈ xs) (ys : List α) :
    ahead t (xs ++ ys) = ahead t xs := by
  induction xs with
  | nil => exact absurd h List.not_mem_nil
  | cons x xs ih =>
    by_cases hx : x = t
    · subst hx
      rw [List.cons_append, ahead_cons_self, ahead_cons_self]
    · rw [List.cons_append, ahead_cons_of_ne hx, ahead_cons_of_ne hx, ih]
      exact (List.mem_cons.mp h).resolve_left fun he => hx he.symm

theorem ahead_erase {t u : α} (h : u ≠ t) (xs : List α) :
    (ahead t (xs.erase u)).Sublist (ahead t xs) := by
  induction xs with
  | nil => exact List.Sublist.refl _
  | cons x xs ih =>
    by_cases hu : x = u
    · subst hu
      rw [List.erase_cons_head, ahead_cons_of_ne h]
      exact List.sublist_cons_self x _
    · rw [List.erase_cons_tail (by simpa using hu)]
      by_cases hx : x = t
      · subst hx
        rw [ahead_cons_self, ahead_cons_self]
      · rw [ahead_cons_of_ne hx, ahead_cons_of_ne hx]
        exact ih.cons_cons x

theorem ahead_eq_nil {t : α} {xs : List α} (h : t ∈ xs) : ahead t xs = [] ↔ xs.head? = some t := by
  cases xs with
  | nil => exact absurd h List.not_mem_nil
  | cons x xs =>
    by_cases hx : x = t
    · subst hx
      simp [ahead_cons_self]
    · simp [ahead_cons_of_ne hx, hx]

theorem ahead_rotate {t u : α} {xs : List α} (h : u ≠ t) (ht : t ∈ xs) (hu : xs.head? = some u) :
    (ahead t (xs.erase u ++ [u])).length + 1 = (ahead t xs).length := by
  cases xs with
  | nil => exact absurd ht List.not_mem_nil
  | cons x xs =>
    obtain rfl := Option.some.inj hu
    have hmem : t ∈ xs := (List.mem_cons.mp ht).resolve_left fun he => h he.symm
    rw [List.erase_cons_head, ahead_append hmem, ahead_cons_of_ne h, List.length_cons]

/-- In the queues `S`, `t` stays where it is and nobody gets ahead of it. -/
def Advances (S : ι → Prop) (t : α) (seq seq' : ι → List α) : Prop :=
  ∀ i, S i → t ∈ seq i → t ∈ seq' i ∧ (ahead t (seq' i)).Sublist (ahead t (seq i))

namespace Advances
variable {S : ι → Prop} {t u : α} {seq seq' seq'' : ι → List α} {i : ι}

theorem of_eq (h : ∀ i, S i → seq' i = seq i) : Advances S t seq seq' := by
  intro i hi ht
  rw [h i hi]
  exact ⟨ht, List.Sublist.refl _⟩

theorem refl (seq : ι → List α) : Advances S t seq seq := of_eq fun _ _ => rfl

theorem trans (h : Advances S t seq seq') (h' : Advances S t seq' seq'') :
    Advances S t seq seq'' := by
  intro i hi ht
  obtain ⟨ht', hsub⟩ := h i hi ht
  obtain ⟨ht'', hsub'⟩ := h' i hi ht'
  exact ⟨ht'', hsub'.trans hsub⟩

variable [DecidableEq ι]

theorem push (seq : ι → List α) (i : ι) (u : α) : Advances S t seq (push seq i u) := by
  intro j _ ht
  by_cases hj : j = i
  · subst hj
    rw [push_self, ahead_append ht]
    exact ⟨List.mem_append_left _ ht, List.Sublist.refl _⟩
  · rw [push_of_ne _ _ _ hj]
    exact ⟨ht, List.Sublist.refl _⟩

theorem drop (seq : ι → List α) (i : ι) (h : u ≠ t) : Advances S t seq (drop seq i u) := by
  intro j _ ht
  by_cases hj : j = i
  · subst hj
    rw [drop_self]
    exact ⟨(List.mem_erase_of_ne h.symm).mpr ht, ahead_erase h _⟩
  · rw [drop_of_ne _ _ _ hj]
    exact ⟨ht, List.Sublist.refl _⟩

theorem update (seq : ι → List α) (hi : ¬ S i) (xs : List α) :
    Advances S t seq (Function.update seq i xs) := by
  apply of_eq
  intro j hj
  apply Function.update_of_ne
  rintro rfl
  exact hi hj

end Advances

end DfewOS.ListHeap
