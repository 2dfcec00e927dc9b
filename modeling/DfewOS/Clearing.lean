import Mathlib.Data.List.Basic

/-!
# Clearing full rows

Rows are taken out one at a time, from the last one on, and an empty row comes in front for each
of them. `partly` is what the rows are like when those from some index on have been dealt with.
-/

namespace Clearing

variable {α : Type*} (full : α → Bool) (empty : α)

/-- The row `y` is taken out, and those before it move up by one. -/
def fall (y : ℕ) (rows : List α) : List α := empty :: rows.eraseIdx y

/-- The rows that are not full, behind as many empty ones as there are full ones. -/
def cleared (rows : List α) : List α :=
  List.replicate (rows.countP full) empty ++ rows.filter fun r => !full r

def partly (m : ℕ) (rows : List α) : List α :=
  List.replicate ((rows.drop m).countP full) empty ++
    (rows.take m ++ (rows.drop m).filter fun r => !full r)

variable {full empty} {rows : List α} {m : ℕ} {r : α}

theorem partly_zero (rows : List α) : partly full empty 0 rows = cleared full empty rows := rfl

theorem filter_eq_self_of_countP (h : rows.countP full = 0) : (rows.filter fun r => !full r) = rows := by
  rw [List.countP_eq_zero] at h
  exact List.filter_eq_self.mpr fun r hr => by simpa using h r hr

theorem partly_start (h : (rows.drop m).countP full = 0) : partly full empty m rows = rows := by
  rw [partly, h, filter_eq_self_of_countP h, List.take_append_drop]
  rfl

theorem partly_done (h : (rows.take m).countP full = 0) :
    partly full empty m rows = cleared full empty rows := by
  have hsplit := List.take_append_drop m rows
  have hcount : rows.countP full = (rows.drop m).countP full := by
    conv_lhs => rw [← hsplit, List.countP_append, h, Nat.zero_add]
  have hfilter : (rows.filter fun r => !full r) =
      rows.take m ++ (rows.drop m).filter fun r => !full r := by
    conv_lhs => rw [← hsplit, List.filter_append, filter_eq_self_of_countP h]
  rw [partly, cleared, hcount, hfilter]

theorem take_succ_of (h : rows[m]? = some r) : rows.take (m + 1) = rows.take m ++ [r] := by
  rw [List.take_add_one, h]
  rfl

theorem drop_of (h : rows[m]? = some r) : rows.drop m = r :: rows.drop (m + 1) := by
  obtain ⟨hlt, hr⟩ := List.getElem?_eq_some_iff.mp h
  rw [List.drop_eq_getElem_cons hlt, hr]

theorem partly_skip (h : rows[m]? = some r) (hr : full r = false) :
    partly full empty (m + 1) rows = partly full empty m rows := by
  rw [partly, partly, take_succ_of h, drop_of h, List.countP_cons_of_neg (by simp [hr]),
    List.filter_cons_of_pos (by simp [hr]), List.append_assoc]
  rfl

theorem partly_getElem? (h : rows[m]? = some r) :
    (partly full empty (m + 1) rows)[(rows.drop (m + 1)).countP full + m]? = some r := by
  have hlt := (List.getElem?_eq_some_iff.mp h).1
  have hlength : (rows.take m).length = m := by
    rw [List.length_take]
    omega
  rw [partly, List.getElem?_append_right (by simp), List.length_replicate, Nat.add_sub_cancel_left,
    take_succ_of h, List.append_assoc, List.getElem?_append_right (by omega), hlength, Nat.sub_self]
  rfl

theorem partly_fall (h : rows[m]? = some r) (hr : full r = true) :
    fall empty ((rows.drop (m + 1)).countP full + m) (partly full empty (m + 1) rows) =
      partly full empty m rows := by
  have hlt := (List.getElem?_eq_some_iff.mp h).1
  have hlength : (rows.take m).length = m := by
    rw [List.length_take]
    omega
  rw [fall, partly, partly, take_succ_of h, drop_of h, List.countP_cons_of_pos hr,
    List.filter_cons_of_neg (by simp [hr]), List.eraseIdx_append_of_length_le (by simp),
    List.length_replicate, Nat.add_sub_cancel_left, List.append_assoc,
    List.eraseIdx_append_of_length_le (by omega), hlength, Nat.sub_self, List.replicate_succ]
  rfl

theorem countP_take_succ (h : rows[m]? = some r) :
    (rows.take (m + 1)).countP full = (rows.take m).countP full + if full r then 1 else 0 := by
  rw [take_succ_of h, List.countP_append, List.countP_singleton]

theorem countP_drop_of (h : rows[m]? = some r) :
    (rows.drop m).countP full = (rows.drop (m + 1)).countP full + if full r then 1 else 0 := by
  rw [drop_of h, List.countP_cons]

/-- What holds for each two rows in order still does, if it does for an empty row in front. -/
theorem pairwise_partly {R : α → α → Prop} (h : rows.Pairwise R) (hempty : ∀ r, R empty r) (m : ℕ) :
    (partly full empty m rows).Pairwise R := by
  have hsub : (rows.take m ++ (rows.drop m).filter fun r => !full r).Sublist rows := by
    conv_rhs => rw [← List.take_append_drop m rows]
    exact (List.Sublist.refl _).append List.filter_sublist
  refine List.pairwise_append.mpr ⟨?_, h.sublist hsub, fun r hr r' _ => ?_⟩
  · exact List.pairwise_replicate.mpr (Or.inr (hempty empty))
  · rw [List.eq_of_mem_replicate hr]
    exact hempty r'

end Clearing
