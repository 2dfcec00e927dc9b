import Mathlib.Data.List.Basic
import Mathlib.Data.List.TakeWhile

/-!
# The words of a text

The words of a list are the parts between its separators that are not empty.
-/

namespace Words

variable {α : Type*} {sep : α → Bool} {c : α} {s t : List α}

def words (sep : α → Bool) (s : List α) : List (List α) :=
  (s.splitOnP sep).filter fun w => !w.isEmpty

/-- The first word, if the text does not begin with a separator. -/
def word (sep : α → Bool) (s : List α) : List α := s.takeWhile fun c => !sep c

def behind (sep : α → Bool) (s : List α) : List α := s.dropWhile fun c => !sep c

@[simp] theorem words_nil : words sep [] = [] := rfl

theorem words_sep (h : sep c = true) : words sep (c :: s) = words sep s := by
  rw [words, List.splitOnP_cons_eq_if_modifyHead, if_pos h, List.filter_cons_of_neg (by simp)]
  rfl

theorem word_append_behind (sep : α → Bool) (s : List α) : word sep s ++ behind sep s = s :=
  List.takeWhile_append_dropWhile

theorem word_sep (h : sep c = true) : word sep (c :: s) = [] := by simp [word, h]

theorem behind_sep (h : sep c = true) : behind sep (c :: s) = c :: s := by simp [behind, h]

theorem word_cons (h : sep c = false) : word sep (c :: s) = c :: word sep s := by simp [word, h]

theorem behind_cons (h : sep c = false) : behind sep (c :: s) = behind sep s := by simp [behind, h]

theorem splitOnP_eq (sep : α → Bool) (s : List α) :
    ∃ ws, s.splitOnP sep = word sep s :: ws ∧
      (ws.filter fun w => !w.isEmpty) = words sep (behind sep s) := by
  induction s with
  | nil => exact ⟨[], rfl, rfl⟩
  | cons c s ih =>
    obtain ⟨ws, hsplit, hwords⟩ := ih
    cases hc : sep c with
    | true =>
      refine ⟨s.splitOnP sep, ?_, ?_⟩
      · rw [List.splitOnP_cons_eq_if_modifyHead, if_pos hc, word_sep hc]
      · rw [behind_sep hc, words_sep hc]
        rfl
    | false =>
      refine ⟨ws, ?_, ?_⟩
      · rw [List.splitOnP_cons_eq_if_modifyHead, if_neg (by simp [hc]), hsplit, word_cons hc]
        rfl
      · rw [hwords, behind_cons hc]

theorem words_cons (h : sep c = false) :
    words sep (c :: s) = (c :: word sep s) :: words sep (behind sep s) := by
  obtain ⟨ws, hsplit, hwords⟩ := splitOnP_eq sep (c :: s)
  rw [words, hsplit, word_cons h, List.filter_cons_of_pos (by simp), hwords, behind_cons h]

theorem words_of_word (h : word sep s ≠ []) :
    words sep s = word sep s :: words sep (behind sep s) := by
  cases s with
  | nil => exact absurd rfl h
  | cons c s =>
    cases hc : sep c with
    | true => exact absurd (word_sep hc) h
    | false => rw [words_cons hc, word_cons hc, behind_cons hc]

theorem ne_nil_of_mem_words {w : List α} (h : w ∈ words sep s) : w ≠ [] := by
  simpa using (List.mem_filter.mp h).2

theorem words_eq_nil : words sep s = [] ↔ ∀ c ∈ s, sep c = true := by
  induction s with
  | nil => simp
  | cons c s ih =>
    cases hc : sep c with
    | true => simp [words_sep hc, ih, hc]
    | false => simp [words_cons hc, hc]

theorem words_blank_append (h : ∀ c ∈ s, sep c = true) : words sep (s ++ t) = words sep t := by
  induction s with
  | nil => rfl
  | cons c s ih =>
    rw [List.cons_append, words_sep (h c List.mem_cons_self)]
    exact ih fun d hd => h d (List.mem_cons_of_mem c hd)

theorem words_append_sep (h : sep c = true) :
    words sep (s ++ c :: t) = words sep s ++ words sep t := by
  rw [words, List.splitOnP_append_cons _ _ h, List.filter_append]
  rfl

theorem words_free (h : ∀ c ∈ s, sep c = false) : words sep s = if s = [] then [] else [s] := by
  rw [words, List.splitOnP_eq_singleton h]
  cases s <;> rfl

theorem words_flatten (sep : α → Bool) (s : List α) :
    (words sep s).flatten = s.filter fun c => !sep c := by
  induction hn : s.length using Nat.strongRecOn generalizing s with
  | ind n ih =>
    cases s with
    | nil => rfl
    | cons c s =>
      cases hc : sep c with
      | true =>
        rw [words_sep hc, ih s.length (by rw [← hn]; exact Nat.lt_succ_self _) s rfl,
          List.filter_cons_of_neg (by simp [hc])]
      | false =>
        have hlen : (behind sep s).length < n := by
          rw [← hn, List.length_cons]
          exact Nat.lt_succ_of_le (List.length_dropWhile_le _ _)
        have hword : (word sep s).filter (fun c => !sep c) = word sep s :=
          List.filter_eq_self.mpr fun c hmem => List.mem_takeWhile_imp (p := fun c => !sep c) hmem
        rw [words_cons hc, List.flatten_cons, ih _ hlen _ rfl, List.filter_cons_of_pos (by simp [hc])]
        conv_rhs => rw [← word_append_behind sep s, List.filter_append, hword]
        rfl

theorem behind_eq_nil : behind sep s = [] ↔
    words sep (behind sep s) = [] ∧ ∀ c ∈ s.getLast?, sep c = false := by
  have happ := word_append_behind sep s
  constructor
  · intro hnil
    refine ⟨by rw [hnil, words_nil], fun c hc => ?_⟩
    rw [hnil, List.append_nil] at happ
    rw [← happ] at hc
    simpa using List.mem_takeWhile_imp (List.mem_of_getLast? hc)
  · rintro ⟨hwords, hlast⟩
    by_contra hne
    have hend : s.getLast? = (behind sep s).getLast? := by
      conv_lhs => rw [← happ, List.getLast?_append_of_ne_nil _ hne]
    have hmem : (behind sep s).getLast hne ∈ s.getLast? := by
      rw [hend]
      exact List.getLast?_eq_some_getLast hne
    have hsep := words_eq_nil.mp hwords _ (List.getLast_mem hne)
    exact absurd (hsep.symm.trans (hlast _ hmem)) (by decide)

end Words
