import Mathlib.Data.Set.Basic

/-!
# Painting cells

Cells that are painted over and over. `Within S` says that only cells of `S` are painted;
`Restores old S` that the cells of `S` are as in `old` afterwards, and that whatever else was
painted is as in `old` too, so that what was restored before stays restored.
-/

namespace DfewOS.Painting

variable {ι α β : Type*} {S S' : Set ι} {old f f' f'' : ι → α}

def Within (S : Set ι) (f f' : ι → α) : Prop := ∀ k, k ∉ S → f' k = f k

theorem Within.refl (S : Set ι) (f : ι → α) : Within S f f := fun _ _ => rfl

theorem Within.trans (h : Within S f f') (h' : Within S f' f'') : Within S f f'' :=
  fun k hk => (h' k hk).trans (h k hk)

theorem Within.mono (h : Within S f f') (hS : S ⊆ S') : Within S' f f' :=
  fun k hk => h k fun hmem => hk (hS hmem)

theorem Within.loop {l : List β} {body : β → (ι → α) → ι → α}
    (h : ∀ i ∈ l, ∀ g, Within S g (body i g)) (f : ι → α) :
    Within S f (l.foldl (fun g i => body i g) f) := by
  induction l generalizing f with
  | nil => exact .refl S f
  | cons i l ih =>
    have hfirst := h i List.mem_cons_self f
    exact hfirst.trans (ih (fun j hj => h j (List.mem_cons_of_mem i hj)) (body i f))

structure Restores (old : ι → α) (S : Set ι) (f f' : ι → α) : Prop where
  done : ∀ k ∈ S, f' k = old k
  kept : ∀ k, f' k = f k ∨ f' k = old k

theorem Restores.refl (old f : ι → α) : Restores old ∅ f f :=
  ⟨fun _ hk => absurd hk (Set.notMem_empty _), fun _ => Or.inl rfl⟩

theorem Restores.trans (h : Restores old S f f') (h' : Restores old S' f' f'') :
    Restores old (S ∪ S') f f'' := by
  refine ⟨fun k hk => ?_, fun k => ?_⟩
  · rcases hk with hk | hk
    · rcases h'.kept k with hsame | hold
      · rw [hsame, h.done k hk]
      · exact hold
    · exact h'.done k hk
  · rcases h'.kept k with hsame | hold
    · rw [hsame]
      exact h.kept k
    · exact Or.inr hold

theorem Restores.mono (h : Restores old S f f') (hS : S' ⊆ S) : Restores old S' f f' :=
  ⟨fun k hk => h.done k (hS hk), h.kept⟩

theorem Restores.loop {l : List β} {body : β → (ι → α) → ι → α} {cells : β → Set ι}
    (h : ∀ i ∈ l, ∀ g, Restores old (cells i) g (body i g)) (f : ι → α) :
    Restores old {k | ∃ i ∈ l, k ∈ cells i} f (l.foldl (fun g i => body i g) f) := by
  induction l generalizing f with
  | nil => exact ⟨fun k hk => by simp at hk, fun _ => Or.inl rfl⟩
  | cons i l ih =>
    have hfirst := h i List.mem_cons_self f
    have hrest := ih (fun j hj => h j (List.mem_cons_of_mem i hj)) (body i f)
    refine (hfirst.trans hrest).mono fun k hk => ?_
    obtain ⟨j, hj, hk⟩ := hk
    rcases List.mem_cons.mp hj with rfl | hj
    · exact Or.inl hk
    · exact Or.inr ⟨j, hj, hk⟩

theorem Restores.all (h : Within S old f) (h' : Restores old S f f') : f' = old := by
  funext k
  by_cases hk : k ∈ S
  · exact h'.done k hk
  · rcases h'.kept k with hsame | hold
    · rw [hsame, h k hk]
    · exact hold

theorem loop_each {P : β → (ι → α) → Prop} {l : List β} {body : β → (ι → α) → ι → α}
    (h : ∀ i ∈ l, ∀ g, P i (body i g)) (h' : ∀ i j g, i ≠ j → P i g → P i (body j g))
    {i : β} (hi : i ∈ l) (f : ι → α) : P i (l.foldl (fun g i => body i g) f) := by
  have hkept : ∀ (l' : List β) (g : ι → α), l' ⊆ l → P i g →
      P i (l'.foldl (fun g i => body i g) g) := by
    intro l' g hsub hg
    induction l' generalizing g with
    | nil => exact hg
    | cons j l' ih =>
      refine ih (body j g) (fun x hx => hsub (List.mem_cons_of_mem j hx)) ?_
      by_cases hij : i = j
      · rw [hij]
        exact h j (hsub List.mem_cons_self) g
      · exact h' i j g hij hg
  obtain ⟨l₁, l₂, rfl⟩ := List.append_of_mem hi
  rw [List.foldl_append, List.foldl_cons]
  refine hkept l₂ _ (fun x hx => by simp [hx]) (h i hi _)

end DfewOS.Painting
