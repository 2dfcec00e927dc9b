import Mathlib.Data.List.Lex
import Mathlib.Order.Lattice

/-!
# Text that ends with a NUL

The characters that lie in a memory from an address on, up to the first NUL. Two texts are
compared character by character until they differ, where the NUL counts as a character
(`differ`). Any key that tells characters apart makes a total order of that, the
lexicographic order of the keys; if the key of the NUL is the least one, the terminators may
be left out.
-/

namespace NulText

/-- The text `s` lies at `p`. -/
def Text (byte : ℕ → UInt8) : ℕ → List UInt8 → Prop
  | p, [] => byte p = 0
  | p, c :: s => byte p = c ∧ c ≠ 0 ∧ Text byte (p + 1) s

variable {byte : ℕ → UInt8} {p : ℕ} {a b s : List UInt8}

theorem Text.not_nul (h : Text byte p s) : 0 ∉ s := by
  induction s generalizing p with
  | nil => exact List.not_mem_nil
  | cons c s ih => exact List.not_mem_cons_of_ne_of_not_mem (Ne.symm h.2.1) (ih h.2.2)

theorem Text.unique (ha : Text byte p a) (hb : Text byte p b) : a = b := by
  induction a generalizing p b with
  | nil =>
    cases b with
    | nil => rfl
    | cons d b => exact absurd (hb.1.symm.trans ha) hb.2.1
  | cons c a ih =>
    cases b with
    | nil => exact absurd (ha.1.symm.trans hb) ha.2.1
    | cons d b =>
      obtain rfl : c = d := ha.1.symm.trans hb.1
      rw [ih ha.2.2 hb.2.2]

theorem Text.congr {byte' : ℕ → UInt8} (h : Text byte p s)
    (hsame : ∀ x, p ≤ x → x ≤ p + s.length → byte' x = byte x) : Text byte' p s := by
  induction s generalizing p with
  | nil => exact (hsame p le_rfl le_rfl).trans h
  | cons c s ih =>
    rw [List.length_cons] at hsame
    exact ⟨(hsame p le_rfl (by omega)).trans h.1, h.2.1,
      ih h.2.2 fun x hge hle => hsame x (by omega) (by omega)⟩

theorem Text.drop (h : Text byte p s) {i : ℕ} (hi : i ≤ s.length) : Text byte (p + i) (s.drop i) := by
  induction i generalizing p s with
  | zero => exact h
  | succ i ih =>
    cases s with
    | nil => exact absurd hi (Nat.not_succ_le_zero i)
    | cons c s =>
      rw [show p + (i + 1) = p + 1 + i by omega]
      exact ih h.2.2 (Nat.le_of_succ_le_succ hi)

theorem Text.right {a b : List UInt8} (h : Text byte p (a ++ b)) : Text byte (p + a.length) b := by
  have hdrop := h.drop (Nat.le_add_right a.length b.length |>.trans (List.length_append).ge)
  rwa [List.drop_left] at hdrop

theorem Text.head (h : Text byte p s) : byte p = s.headD 0 := by
  cases s with
  | nil => exact h
  | cons c s => exact h.1

theorem Text.getD (h : Text byte p s) {i : ℕ} (hi : i ≤ s.length) : byte (p + i) = s.getD i 0 := by
  rw [(h.drop hi).head, List.headD_eq_head?_getD, List.head?_drop, List.getD_eq_getElem?_getD]

theorem Text.getD_ne (h : Text byte p s) {i : ℕ} (hi : i < s.length) : s.getD i 0 ≠ 0 := by
  rw [List.getD_eq_getElem?_getD, List.getElem?_eq_getElem hi, Option.getD_some]
  exact fun hzero => h.not_nul (hzero ▸ List.getElem_mem hi)

theorem Text.take (h : Text byte p s) {i : ℕ} (hi : i < s.length) :
    Text (Function.update byte (p + i) 0) p (s.take i) := by
  induction i generalizing p s with
  | zero => exact Function.update_self ..
  | succ i ih =>
    cases s with
    | nil => exact absurd hi (Nat.not_lt_zero _)
    | cons c s =>
      obtain ⟨hbyte, hc, hrest⟩ := h
      refine ⟨?_, hc, ?_⟩
      · rw [Function.update_of_ne (by omega)]
        exact hbyte
      · rw [show p + (i + 1) = p + 1 + i by omega]
        exact ih hrest (Nat.lt_of_succ_lt_succ hi)

theorem Text.cut {byte' : ℕ → UInt8} {a b : List UInt8} (h : Text byte p (a ++ b))
    (hend : byte' (p + a.length) = 0) (hsame : ∀ x, p ≤ x → x < p + a.length → byte' x = byte x) :
    Text byte' p a := by
  induction a generalizing p with
  | nil => exact hend
  | cons c a ih =>
    rw [List.length_cons] at hend hsame
    refine ⟨(hsame p le_rfl (by omega)).trans h.1, h.2.1, ih h.2.2 ?_ fun x hge hlt => ?_⟩
    · rwa [show p + 1 + a.length = p + (a.length + 1) by omega]
    · exact hsame x (by omega) (by omega)

theorem Text.terminator (h : Text byte p s) : byte (p + s.length) = 0 := by
  rw [← List.append_nil s] at h
  exact h.right

/-- A text stays while no byte in front of its terminator changes, and that stays a NUL. -/
theorem Text.keep {byte' : ℕ → UInt8} (h : Text byte p s) (hend : byte' (p + s.length) = 0)
    (hsame : ∀ x < p + s.length, byte' x = byte x) : Text byte' p s := by
  rw [← List.append_nil s] at h
  exact h.cut hend fun x _ hlt => hsame x hlt

theorem Text.of_getD (hnul : 0 ∉ s) (h : ∀ i ≤ s.length, byte (p + i) = s.getD i 0) : Text byte p s := by
  induction s generalizing p with
  | nil => exact h 0 le_rfl
  | cons c s ih =>
    obtain ⟨hc, hs⟩ := List.ne_and_not_mem_of_not_mem_cons hnul
    refine ⟨h 0 (Nat.zero_le _), hc.symm, ih hs fun i hi => ?_⟩
    rw [show p + 1 + i = p + (i + 1) by omega]
    exact h (i + 1) (Nat.succ_le_succ hi)

theorem Text.of_list (h : 0 ∉ s) : Text (fun x => s.getD (x - p) 0) p s :=
  .of_getD h fun i _ => by rw [Nat.add_sub_cancel_left]

def differ : List UInt8 → List UInt8 → UInt8 × UInt8
  | [], [] => (0, 0)
  | [], d :: _ => (0, d)
  | c :: _, [] => (c, 0)
  | c :: a, d :: b => if c = d then differ a b else (c, d)

theorem differ_swap (a b : List UInt8) : (differ a b).swap = differ b a := by
  induction a generalizing b with
  | nil => cases b <;> rfl
  | cons c a ih =>
    cases b with
    | nil => rfl
    | cons d b =>
      rw [differ, differ]
      by_cases hcd : c = d
      · rw [if_pos hcd, if_pos hcd.symm, ih]
      · rw [if_neg hcd, if_neg (Ne.symm hcd)]
        rfl

/-- The keys of a text and of its terminator. -/
def keys {β : Type*} (key : UInt8 → β) (s : List UInt8) : List β := (s ++ [0]).map key

theorem keys_injective {β : Type*} {key : UInt8 → β} (hkey : Function.Injective key) :
    Function.Injective (keys key) :=
  (List.map_injective_iff.mpr hkey).comp (List.append_left_injective _)

section Lexicographic
variable {β : Type*} [LinearOrder β] {key : UInt8 → β} {x y : β} {xs ys : List β}

theorem cons_lt_cons_self : x :: xs < x :: ys ↔ xs < ys := by
  rw [List.cons_lt_cons_iff, or_iff_right (lt_irrefl x), and_iff_right rfl]

theorem cons_lt_cons_of_ne (hne : x ≠ y) : x :: xs < y :: ys ↔ x < y := by
  rw [List.cons_lt_cons_iff, or_iff_left fun h => hne h.1]

theorem differ_lt (hkey : Function.Injective key) (ha : 0 ∉ a) (hb : 0 ∉ b) :
    key (differ a b).1 < key (differ a b).2 ↔ keys key a < keys key b := by
  induction a generalizing b with
  | nil =>
    cases b with
    | nil => exact iff_of_false (lt_irrefl _) (lt_irrefl _)
    | cons d b =>
      have hne : (0 : UInt8) ≠ d := fun h => hb (h ▸ List.mem_cons_self)
      exact (cons_lt_cons_of_ne (hkey.ne hne)).symm
  | cons c a ih =>
    have hc : c ≠ 0 := fun h => ha (h ▸ List.mem_cons_self)
    cases b with
    | nil => exact (cons_lt_cons_of_ne (hkey.ne hc)).symm
    | cons d b =>
      by_cases hcd : c = d
      · subst hcd
        rw [differ, if_pos rfl, ih (fun h => ha (List.mem_cons_of_mem _ h))
          fun h => hb (List.mem_cons_of_mem _ h)]
        exact cons_lt_cons_self.symm
      · rw [differ, if_neg hcd]
        exact (cons_lt_cons_of_ne (hkey.ne hcd)).symm

theorem differ_gt (hkey : Function.Injective key) (ha : 0 ∉ a) (hb : 0 ∉ b) :
    key (differ a b).2 < key (differ a b).1 ↔ keys key b < keys key a := by
  rw [← differ_lt hkey hb ha, ← differ_swap a b]
  rfl

theorem keys_lt (hleast : ∀ c, c ≠ 0 → key 0 < key c) (ha : 0 ∉ a) (hb : 0 ∉ b) :
    keys key a < keys key b ↔ a.map key < b.map key := by
  induction a generalizing b with
  | nil =>
    cases b with
    | nil => exact iff_of_false (lt_irrefl _) (lt_irrefl _)
    | cons d b =>
      have hlt := hleast d fun h => hb (h ▸ List.mem_cons_self)
      exact iff_of_true (List.cons_lt_cons_iff.mpr (Or.inl hlt)) (List.nil_lt_cons _ _)
  | cons c a ih =>
    cases b with
    | nil =>
      have hlt := hleast c fun h => ha (h ▸ List.mem_cons_self)
      exact iff_of_false (lt_asymm (List.cons_lt_cons_iff.mpr (Or.inl hlt))) (List.not_lt_nil _)
    | cons d b =>
      have hrest := ih (fun h => ha (List.mem_cons_of_mem _ h)) fun h => hb (List.mem_cons_of_mem _ h)
      simp only [keys, List.cons_append, List.map_cons] at hrest ⊢
      rw [List.cons_lt_cons_iff, List.cons_lt_cons_iff, hrest]

end Lexicographic

/-- `le` is a total order of the texts in `S`, which are given with their addresses. -/
structure Orders (S : Set (ℕ × List UInt8)) (le : ℕ × List UInt8 → ℕ × List UInt8 → Prop) : Prop where
  refl : ∀ x ∈ S, ∀ y ∈ S, x.2 = y.2 → le x y
  total : ∀ x ∈ S, ∀ y ∈ S, le x y ∨ le y x
  antisymm : ∀ x ∈ S, ∀ y ∈ S, le x y → le y x → x.2 = y.2
  trans : ∀ x ∈ S, ∀ y ∈ S, ∀ z ∈ S, le x y → le y z → le x z

theorem Orders.of_keys {β : Type*} [LinearOrder β] {f : List UInt8 → β}
    {S : Set (ℕ × List UInt8)} {le : ℕ × List UInt8 → ℕ × List UInt8 → Prop}
    (hf : Function.Injective f) (hle : ∀ x ∈ S, ∀ y ∈ S, (le x y ↔ f x.2 ≤ f y.2)) : Orders S le where
  refl x hx y hy h := (hle x hx y hy).mpr (congrArg f h).le
  total x hx y hy := by
    rw [hle x hx y hy, hle y hy x hx]
    exact le_total _ _
  antisymm x hx y hy hxy hyx :=
    hf (le_antisymm ((hle x hx y hy).mp hxy) ((hle y hy x hx).mp hyx))
  trans x hx y hy z hz hxy hyz :=
    (hle x hx z hz).mpr (le_trans ((hle x hx y hy).mp hxy) ((hle y hy z hz).mp hyz))

end NulText
