import Mathlib.Data.List.Destutter
import Mathlib.Data.List.DropRight

/-!
# The latest entries of a record

A record to which nothing is added that it ends with already, and of which only the last
entries are kept.
-/

namespace Latest

variable {α : Type*}

theorem length_rtake (n : ℕ) (l : List α) : (l.rtake n).length = min n l.length := by
  rw [List.rtake, List.length_drop]
  omega

theorem getLast?_rtake (n : ℕ) (l : List α) : (l.rtake (n + 1)).getLast? = l.getLast? := by
  rcases l.eq_nil_or_concat with rfl | ⟨l, b, rfl⟩
  · rw [List.rtake_nil]
  · rw [List.concat_eq_append, List.rtake_concat_succ, List.getLast?_concat, List.getLast?_concat]

theorem rtake_tail {n : ℕ} {l : List α} (h : n < l.length) : (l.rtake (n + 1)).tail = l.rtake n := by
  rw [List.rtake, List.rtake, List.tail_drop]
  congr 1
  omega

theorem rtake_of_le {n : ℕ} {l : List α} (h : l.length ≤ n) : l.rtake n = l := by
  rw [List.rtake, Nat.sub_eq_zero_of_le h, List.drop_zero]

variable [DecidableEq α]

/-- The last `n` entries after removal of immediate repetitions. -/
def latest (n : ℕ) (l : List α) : List α := (l.destutter (· ≠ ·)).rtake n

theorem destutter'_concat (a : α) (l : List α) (b : α) :
    (l ++ [b]).destutter' (· ≠ ·) a =
      if (l.destutter' (· ≠ ·) a).getLast? = some b then l.destutter' (· ≠ ·) a
      else l.destutter' (· ≠ ·) a ++ [b] := by
  induction l generalizing a with
  | nil =>
    rw [List.nil_append, List.destutter'_singleton, List.destutter'_nil, List.getLast?_singleton]
    by_cases hab : a = b
    · rw [if_neg (not_not.mpr hab), if_pos (congrArg some hab)]
    · rw [if_pos hab, if_neg fun h => hab (Option.some.inj h)]
      rfl
  | cons c l ih =>
    rw [List.cons_append, List.destutter'_cons, List.destutter'_cons]
    by_cases hac : a ≠ c
    · have hne : l.destutter' (· ≠ ·) c ≠ [] := List.destutter'_ne_nil l (· ≠ ·)
      rw [if_pos hac, if_pos hac, ih, List.getLast?_cons_of_ne_nil hne]
      split_ifs
      · rfl
      · rfl
    · rw [if_neg hac, if_neg hac, ih]

theorem destutter_concat (l : List α) (b : α) :
    (l ++ [b]).destutter (· ≠ ·) =
      if (l.destutter (· ≠ ·)).getLast? = some b then l.destutter (· ≠ ·)
      else l.destutter (· ≠ ·) ++ [b] := by
  cases l with
  | nil => rfl
  | cons a l => exact destutter'_concat a l b

theorem latest_concat (n : ℕ) (l : List α) (b : α) :
    latest (n + 1) (l ++ [b]) =
      if (latest (n + 1) l).getLast? = some b then latest (n + 1) l
      else if (latest (n + 1) l).length < n + 1 then latest (n + 1) l ++ [b]
      else (latest (n + 1) l).tail ++ [b] := by
  rw [latest, latest, destutter_concat, getLast?_rtake, length_rtake]
  split_ifs with hsame hroom
  · rfl
  · rw [List.rtake_concat_succ, rtake_of_le (by omega), rtake_of_le (by omega)]
  · rw [List.rtake_concat_succ, rtake_tail (by omega)]

end Latest
