import Mathlib.Data.Nat.Notation
import Mathlib.Tactic.SplitIfs

/-!
# Texts in characters of one or two bytes

A text is cut into characters from its front: a byte and the one behind it are one character if
the test of the two says so, every other byte is one by itself. Behind any character the rest is
cut in the same way, so that texts that follow each other from one boundary to the next have the
characters of the whole.
-/

namespace DoubleByte

variable {α : Type*} {double : α → α → Bool} {s : List α} {p : List α} {cs ds : List (List α)} {n : ℕ}

def chars (double : α → α → Bool) : List α → List (List α)
  | [] => []
  | [c] => [[c]]
  | c :: d :: s => if double c d then [c, d] :: chars double s else [c] :: chars double (d :: s)

/-- The text begins with the characters `cs`. -/
def Cut (double : α → α → Bool) (s : List α) (cs : List (List α)) : Prop :=
  chars double s = cs ++ chars double (s.drop cs.flatten.length)

def Boundary (double : α → α → Bool) (s : List α) (n : ℕ) : Prop :=
  ∃ cs, Cut double s cs ∧ n = cs.flatten.length

/-- Where the characters begin if the first one begins at `n`. -/
def starts : ℕ → List (List α) → List ℕ
  | _, [] => []
  | n, c :: cs => n :: starts (n + c.length) cs

theorem flatten_chars (double : α → α → Bool) (s : List α) : (chars double s).flatten = s := by
  fun_induction chars double s with
  | case1 => rfl
  | case2 c => rfl
  | case3 c d s _ ih => rw [List.flatten_cons, ih]; rfl
  | case4 c d s _ ih => rw [List.flatten_cons, ih]; rfl

theorem chars_cons (double : α → α → Bool) (c : α) (t : List α) :
    ∃ p, chars double (c :: t) = p :: chars double ((c :: t).drop p.length) ∧
      (p = [c] ∧ (∀ d ∈ t.head?, double c d = false) ∨
        ∃ d t', t = d :: t' ∧ double c d = true ∧ p = [c, d]) := by
  cases t with
  | nil => exact ⟨[c], rfl, Or.inl ⟨rfl, nofun⟩⟩
  | cons d t =>
    rw [chars]
    split_ifs with hdouble
    · exact ⟨[c, d], rfl, Or.inr ⟨d, t, rfl, hdouble, rfl⟩⟩
    · refine ⟨[c], rfl, Or.inl ⟨rfl, fun e he => ?_⟩⟩
      obtain rfl : d = e := by simpa using he
      exact Bool.eq_false_iff.mpr hdouble

theorem cut_nil (double : α → α → Bool) (s : List α) : Cut double s [] := rfl

theorem Cut.append (h : Cut double s cs) (h' : Cut double (s.drop cs.flatten.length) ds) :
    Cut double s (cs ++ ds) := by
  rw [Cut, List.flatten_append, List.length_append, ← List.drop_drop, List.append_assoc, ← h']
  exact h

theorem Cut.snoc (h : Cut double s cs)
    (hp : chars double (s.drop cs.flatten.length) =
      p :: chars double ((s.drop cs.flatten.length).drop p.length)) : Cut double s (cs ++ [p]) := by
  refine h.append ?_
  rw [Cut, List.flatten_singleton]
  exact hp

theorem Cut.length_le (h : Cut double s cs) : cs.flatten.length ≤ s.length := by
  have hs := flatten_chars double s
  rw [h, List.flatten_append] at hs
  have hlen := congrArg List.length hs
  rw [List.length_append] at hlen
  omega

theorem Boundary.append (h : Boundary double s n) (h' : Cut double (s.drop n) ds) :
    Boundary double s (n + ds.flatten.length) := by
  obtain ⟨cs, hcut, rfl⟩ := h
  refine ⟨cs ++ ds, hcut.append h', ?_⟩
  rw [List.flatten_append, List.length_append]

theorem starts_append (n : ℕ) (cs ds : List (List α)) :
    starts n (cs ++ ds) = starts n cs ++ starts (n + cs.flatten.length) ds := by
  induction cs generalizing n with
  | nil => rfl
  | cons c cs ih =>
    rw [List.cons_append, starts, ih, starts, List.flatten_cons, List.length_append, Nat.add_assoc]
    rfl

theorem starts_add (k n : ℕ) (cs : List (List α)) :
    starts (k + n) cs = (starts n cs).map (k + ·) := by
  induction cs generalizing n with
  | nil => rfl
  | cons c cs ih =>
    rw [starts, starts, List.map_cons, Nat.add_assoc, ih]

end DoubleByte
