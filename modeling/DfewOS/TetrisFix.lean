import DfewOS.Clearing
import DfewOS.TetrisScore

/-!
# Fixing a block in Tetris

What `fix_block` makes of the lines of a screen, with the colours of the nodes that are set. The
block is put to its place, and the lines that are full then are cleared. The loop over the
lines takes them out one at a time, from the bottom up; a line that comes down to the place
of another may be full itself.
-/

namespace DfewOS.Tetris
open Clearing

@[ext] structure Row where
  line : Line
  colours : ℕ → TypeColor

def Row.empty : Row := ⟨0, fun _ => .noColor⟩

/-- The nodes of the block, as the `COOR`s that they are assigned to. -/
def Block.cells (blk : Block) : List Coor := blk.coors.map toShort

def Row.put (cells : List Coor) (color : TypeColor) (y : ℕ) (r : Row) : Row where
  line := (cells.filter fun c : Coor => c.y = (y : ℤ)).foldl
    (fun line c => bitSet line c.x.toNat) r.line
  colours x := if ⟨x, y⟩ ∈ cells then color else r.colours x

namespace Ctrl

/-- A node that is not set counts as one without colour. -/
def row (ctrl : Ctrl) (y : ℕ) : Row where
  line := ctrl.scr.scrMap y
  colours x := if x < ctrl.scr.columnNum ∧ bitVal (ctrl.scr.scrMap y) x = true then
    ctrl.nodeColorMap y x else .noColor

def rows (ctrl : Ctrl) : List Row := (List.range ctrl.scr.rowNum).map ctrl.row

def full (ctrl : Ctrl) (r : Row) : Bool := r.line = ctrl.fullMask

def placed (ctrl : Ctrl) : List Row :=
  (List.range ctrl.scr.rowNum).map fun y =>
    (ctrl.row y).put ctrl.blk.cells (colorMap ctrl.blk.type) y

end Ctrl

/-- The lines that are not empty reach down to the bottom, and none is full. -/
structure Pile (ctrl : Ctrl) : Prop where
  down : ∀ i j, i < j → j < ctrl.scr.rowNum → ctrl.scr.scrMap j = 0 → ctrl.scr.scrMap i = 0
  notFull : ∀ y < ctrl.scr.rowNum, ctrl.scr.scrMap y ≠ ctrl.fullMask

/-- A node of the block is on the floor or on a node of the pile. -/
def Rests (scr : Screen) (blk : Block) : Prop :=
  ∃ c ∈ blk.cells, c.y + 1 = scr.rowNum ∨ bitVal (scr.scrMap (c.y.toNat + 1)) c.x.toNat = true

section Rows
variable {ctrl ctrl' : Ctrl} {y : ℕ} {c : Coor} {cells : List Coor} {color : TypeColor} {r : Row}

theorem put_nil (color : TypeColor) (y : ℕ) (r : Row) : r.put [] color y = r := by
  rw [Row.put]
  simp

theorem put_cons (c : Coor) (cells : List Coor) (color : TypeColor) (y : ℕ) (r : Row) :
    (r.put [c] color y).put cells color y = r.put (c :: cells) color y := by
  ext1
  · simp only [Row.put, List.filter_cons, List.filter_nil]
    split_ifs
    · rfl
    · rfl
  · funext x
    simp only [Row.put, List.mem_cons, List.not_mem_nil, or_false]
    by_cases hcells : ⟨x, y⟩ ∈ cells
    · rw [if_pos hcells, if_pos (Or.inr hcells)]
    · rw [if_neg hcells]
      exact if_congr (or_iff_left hcells).symm rfl rfl

theorem row_of_zero (h : ctrl.scr.scrMap y = 0) : ctrl.row y = Row.empty := by
  rw [Ctrl.row, h]
  simp [Row.empty, bitVal]

theorem row_congr (hcol : ctrl'.scr.columnNum = ctrl.scr.columnNum)
    (hline : ctrl'.scr.scrMap y = ctrl.scr.scrMap y)
    (hcolour : ctrl'.nodeColorMap y = ctrl.nodeColorMap y) : ctrl'.row y = ctrl.row y := by
  rw [Ctrl.row, Ctrl.row, hcol, hline, hcolour]

/-! ## Lines that fall -/

theorem updateLine_row {i : ℕ} (ctrl : Ctrl) :
    (ctrl.updateLine y (ctrl.scr.scrMap i) (ctrl.nodeColorMap i)).row y = ctrl.row i := by
  ext1
  · simp [Ctrl.row, Ctrl.updateLine]
  · funext x
    simp only [Ctrl.row, Ctrl.updateLine, Function.update_self]
    split_ifs with hset hx
    · rfl
    · exact absurd hset.1 hx
    · rfl

theorem updateLine_other {i : ℕ} {val : Line} {colours : ℕ → TypeColor} (hi : i ≠ y) :
    (ctrl.updateLine y val colours).row i = ctrl.row i :=
  row_congr rfl (Function.update_of_ne hi _ _) (Function.update_of_ne hi _ _)

theorem fallLines_row (y : ℕ) (ctrl : Ctrl)
    (hdown : ∀ i j, i < j → j < y → ctrl.scr.scrMap j = 0 → ctrl.scr.scrMap i = 0) (i : ℕ) :
    (ctrl.fallLines y).row i =
      if i ≤ y then (if i = 0 then Row.empty else ctrl.row (i - 1)) else ctrl.row i := by
  induction y generalizing ctrl with
  | zero =>
    rw [Ctrl.fallLines]
    split_ifs with hle hzero
    · rw [hzero]
      exact row_of_zero (by simp [Ctrl.updateLine])
    · omega
    · exact updateLine_other (by omega)
  | succ y ih =>
    have hother : ∀ j, j ≤ y → (ctrl.updateLine (y + 1) (ctrl.scr.scrMap y)
        (ctrl.nodeColorMap y)).scr.scrMap j = ctrl.scr.scrMap j :=
      fun j hj => Function.update_of_ne (by omega) _ _
    have hnew : (ctrl.updateLine (y + 1) (ctrl.scr.scrMap y) (ctrl.nodeColorMap y)).scr.scrMap (y + 1) =
        ctrl.scr.scrMap y := Function.update_self ..
    simp only [Ctrl.fallLines, hnew]
    by_cases hempty : ctrl.scr.scrMap y = 0
    · rw [if_pos hempty]
      have habove : ∀ j ≤ y, ctrl.row j = Row.empty := by
        intro j hj
        refine row_of_zero ?_
        rcases hj.lt_or_eq with hlt | rfl
        · exact hdown j y hlt (Nat.lt_succ_self y) hempty
        · exact hempty
      rcases Nat.lt_trichotomy i (y + 1) with hlt | rfl | hgt
      · rw [updateLine_other (by omega), if_pos hlt.le, habove i (by omega)]
        split_ifs
        · rfl
        · exact (habove (i - 1) (by omega)).symm
      · rw [updateLine_row, if_pos le_rfl, if_neg (by omega), Nat.add_sub_cancel]
      · rw [updateLine_other (by omega), if_neg (by omega)]
    · rw [if_neg hempty, ih _ fun j k hjk hk hzero => ?_]
      · rcases Nat.lt_trichotomy i (y + 1) with hlt | rfl | hgt
        · rw [if_pos (by omega), if_pos hlt.le]
          split_ifs
          · rfl
          · exact updateLine_other (by omega)
        · rw [if_neg (by omega), if_pos le_rfl, if_neg (by omega), updateLine_row, Nat.add_sub_cancel]
        · rw [if_neg (by omega), if_neg (by omega), updateLine_other (by omega)]
      · rw [hother k hk.le] at hzero
        rw [hother j (by omega)]
        exact hdown j k hjk (by omega) hzero

theorem rows_getElem? (ctrl : Ctrl) (i : ℕ) :
    ctrl.rows[i]? = if i < ctrl.scr.rowNum then some (ctrl.row i) else none := by
  rw [Ctrl.rows, List.getElem?_map]
  split_ifs with hlt
  · rw [List.getElem?_range hlt, Option.map_some]
  · rw [List.getElem?_eq_none (by rw [List.length_range]; omega), Option.map_none]

theorem fallLines_counts (y : ℕ) (ctrl : Ctrl) :
    (ctrl.fallLines y).fullLine = ctrl.fullLine ∧ (ctrl.fallLines y).score = ctrl.score := by
  induction y generalizing ctrl with
  | zero => exact ⟨rfl, rfl⟩
  | succ y ih =>
    simp only [Ctrl.fallLines]
    split_ifs
    · exact ⟨rfl, rfl⟩
    · exact ih _

theorem length_rows (ctrl : Ctrl) : ctrl.rows.length = ctrl.scr.rowNum := by
  rw [Ctrl.rows, List.length_map, List.length_range]

theorem fallLines_rows (hy : y < ctrl.scr.rowNum)
    (hdown : ∀ i j, i < j → j < ctrl.scr.rowNum → ctrl.scr.scrMap j = 0 → ctrl.scr.scrMap i = 0) :
    (ctrl.fallLines y).rows = fall Row.empty y ctrl.rows := by
  have hrow := fallLines_row y ctrl fun i j hij hj => hdown i j hij (by omega)
  refine List.ext_getElem? fun i => ?_
  rw [rows_getElem?, (fallLines_kept y ctrl).rows, hrow]
  cases i with
  | zero => rw [if_pos (by omega), if_pos (Nat.zero_le y), if_pos rfl, fall, List.getElem?_cons_zero]
  | succ i =>
    rw [fall, List.getElem?_cons_succ, List.getElem?_eraseIdx, rows_getElem?, rows_getElem?,
      if_neg (Nat.succ_ne_zero i), Nat.add_sub_cancel]
    split_ifs <;> first | rfl | omega

def Down (rows : List Row) : Prop := rows.Pairwise fun r r' => r'.line = 0 → r.line = 0

theorem down_iff (ctrl : Ctrl) : Down ctrl.rows ↔
    ∀ i j, i < j → j < ctrl.scr.rowNum → ctrl.scr.scrMap j = 0 → ctrl.scr.scrMap i = 0 := by
  rw [Down, List.pairwise_iff_getElem]
  simp only [Ctrl.rows, List.length_map, List.length_range, List.getElem_map, List.getElem_range, Ctrl.row]
  constructor
  · exact fun h i j hij hj => h i j (by omega) hj hij
  · exact fun h i j _ hj hij => h i j hij hj

/-! ## Clearing -/

/-- Of the rows that are there after the block was fixed, those from `m` on have been cleared. -/
structure Partly (ctrl₁ ctrl : Ctrl) (m : ℕ) : Prop where
  kept : Kept ctrl₁ ctrl
  rows : ctrl.rows = partly ctrl₁.full Row.empty m ctrl₁.rows
  le : m ≤ ctrl₁.rows.length
  fullLine : ctrl.fullLine = ((ctrl₁.rows.take m).countP ctrl₁.full : ℕ)
  score : ctrl.score = ctrl₁.score

def deleted (ctrl₁ : Ctrl) (m : ℕ) : ℕ := (ctrl₁.rows.drop m).countP ctrl₁.full

variable {ctrl₁ : Ctrl} {m i fuel : ℕ}

theorem exists_row (hm : m + 1 ≤ ctrl₁.rows.length) : ∃ r, ctrl₁.rows[m]? = some r :=
  ⟨_, List.getElem?_eq_getElem hm⟩

theorem deleted_of (hr : ctrl₁.rows[m]? = some r) :
    deleted ctrl₁ m = deleted ctrl₁ (m + 1) + if ctrl₁.full r = true then 1 else 0 :=
  countP_drop_of hr

theorem Partly.row (h : Partly ctrl₁ ctrl (m + 1)) (hr : ctrl₁.rows[m]? = some r)
    (hi : i = deleted ctrl₁ (m + 1) + m) : i < ctrl.scr.rowNum ∧ ctrl.row i = r := by
  have hget : (partly ctrl₁.full Row.empty (m + 1) ctrl₁.rows)[deleted ctrl₁ (m + 1) + m]? = some r :=
    partly_getElem? hr
  rw [← h.rows, ← hi, rows_getElem?] at hget
  split_ifs at hget with hlt
  exact ⟨hlt, Option.some.inj hget⟩

theorem Partly.full_iff (h : Partly ctrl₁ ctrl (m + 1)) (hr : ctrl₁.rows[m]? = some r)
    (hi : i = deleted ctrl₁ (m + 1) + m) :
    ctrl.scr.scrMap i = ctrl.fullMask ↔ ctrl₁.full r = true := by
  have hline : ctrl.scr.scrMap i = r.line := congrArg Row.line (h.row hr hi).2
  rw [hline, h.kept.mask, Ctrl.full, decide_eq_true_iff]

theorem Partly.skip (h : Partly ctrl₁ ctrl (m + 1)) (hr : ctrl₁.rows[m]? = some r)
    (hfull : ctrl₁.full r = false) : Partly ctrl₁ ctrl m := by
  refine ⟨h.kept, ?_, Nat.le_of_succ_le h.le, ?_, h.score⟩
  · rw [h.rows, partly_skip hr hfull]
  · rw [h.fullLine, countP_take_succ hr, hfull]
    simp

theorem Partly.delete (h : Partly ctrl₁ ctrl (m + 1)) (hdown : Down ctrl₁.rows)
    (hr : ctrl₁.rows[m]? = some r) (hfull : ctrl₁.full r = true)
    (hi : i = deleted ctrl₁ (m + 1) + m) :
    Partly ctrl₁ { ctrl.fallLines i with fullLine := (ctrl.fallLines i).fullLine - 1 } m := by
  have hkept := fallLines_kept i ctrl
  obtain ⟨hline, hscore⟩ := fallLines_counts i ctrl
  have hdown' : Down ctrl.rows := by
    rw [h.rows]
    exact pairwise_partly hdown (fun _ _ => rfl) _
  refine ⟨h.kept.trans ⟨hkept.columns, hkept.rows, hkept.mask, hkept.blk, hkept.events⟩, ?_,
    Nat.le_of_succ_le h.le, ?_, hscore.trans h.score⟩
  · have hrows := fallLines_rows (h.row hr hi).1 ((down_iff ctrl).mp hdown')
    rw [h.rows, hi, deleted, partly_fall hr hfull] at hrows
    rw [← hrows, hi, deleted]
    rfl
  · simp only [hline, h.fullLine, countP_take_succ hr, hfull, if_true]
    omega

theorem deleteThisLine_partly (hdown : Down ctrl₁.rows) (hmask : ctrl₁.fullMask ≠ 0)
    (h : Partly ctrl₁ ctrl (m + 1)) (hr : ctrl₁.rows[m]? = some r) (hfull : ctrl₁.full r = true)
    (hi : i = deleted ctrl₁ (m + 1) + m) (hfuel : m < fuel) :
    ∃ m' ctrl', ctrl.deleteThisLine fuel i = some ctrl' ∧ Partly ctrl₁ ctrl' m' ∧
      i + 1 = deleted ctrl₁ m' + m' ∧ ctrl'.scr.scrMap i ≠ ctrl'.fullMask := by
  induction fuel generalizing ctrl m r with
  | zero => exact absurd hfuel (Nat.not_lt_zero m)
  | succ fuel ih =>
    have hnext := h.delete hdown hr hfull hi
    have hplace : i + 1 = deleted ctrl₁ m + m := by
      rw [deleted_of hr, if_pos hfull]
      omega
    rw [Ctrl.deleteThisLine]
    split_ifs with hagain
    · cases m with
      | zero =>
        have hempty : deleted ctrl₁ 0 = i + 1 := by omega
        have hrow := rows_getElem? { ctrl.fallLines i with fullLine := (ctrl.fallLines i).fullLine - 1 } i
        rw [hnext.rows, partly, ← deleted, hempty, List.getElem?_append_left (by simp),
          List.getElem?_replicate, if_pos (Nat.lt_succ_self i)] at hrow
        split_ifs at hrow
        have hline := congrArg Row.line (Option.some.inj hrow)
        have hmask' := hnext.kept.mask
        exact absurd (hmask'.symm.trans (hagain.symm.trans hline.symm)) hmask
      | succ m =>
        obtain ⟨r', hr'⟩ := exists_row hnext.le
        have hi' : i = deleted ctrl₁ (m + 1) + m := by omega
        exact ih hnext hr' ((hnext.full_iff hr' hi').mp hagain) hi' (Nat.lt_of_succ_lt_succ hfuel)
    · exact ⟨m, _, rfl, hnext, hplace, hagain⟩

structure Clears (ctrl₁ ctrl : Ctrl) : Prop where
  kept : Kept ctrl₁ ctrl
  rows : ctrl.rows = cleared ctrl₁.full Row.empty ctrl₁.rows
  fullLine : ctrl.fullLine = 0
  score : ctrl.score = ctrl₁.score

theorem Partly.clears (h : Partly ctrl₁ ctrl m) (hline : ctrl.fullLine = 0) : Clears ctrl₁ ctrl := by
  refine ⟨h.kept, ?_, hline, h.score⟩
  have hcount := h.fullLine
  rw [hline] at hcount
  rw [h.rows, partly_done (by omega)]

/-- The line `i` is the next one to look at: it stands for the row before `m`, or for an empty one. -/
def Faces (ctrl₁ : Ctrl) (i m : ℕ) : Prop :=
  i = deleted ctrl₁ m + m ∨ (m = 0 ∧ i ≤ deleted ctrl₁ 0)

theorem deleteLines_clears (hdown : Down ctrl₁.rows) (hmask : ctrl₁.fullMask ≠ 0)
    (h : Partly ctrl₁ ctrl m) (hfaces : Faces ctrl₁ i m) :
    ∃ ctrl', ctrl.deleteLines i = some ctrl' ∧ Clears ctrl₁ ctrl' := by
  induction i generalizing ctrl m with
  | zero =>
    obtain rfl : m = 0 := by
      rcases hfaces with hplace | ⟨hm, -⟩
      · omega
      · exact hm
    exact ⟨ctrl, rfl, h.clears h.fullLine⟩
  | succ i ih =>
    rw [Ctrl.deleteLines]
    by_cases hline : ctrl.fullLine = 0
    · rw [if_pos hline]
      exact ⟨ctrl, rfl, h.clears hline⟩
    · rw [if_neg hline]
      cases m with
      | zero => exact absurd h.fullLine hline
      | succ m =>
        have hi : i = deleted ctrl₁ (m + 1) + m := by
          rcases hfaces with hplace | ⟨hm, -⟩
          · omega
          · exact absurd hm (Nat.succ_ne_zero m)
        obtain ⟨r, hr⟩ := exists_row h.le
        have hiff := h.full_iff hr hi
        cases hfull : ctrl₁.full r with
        | false =>
          rw [if_pos (hiff.not.mpr (by rw [hfull]; decide))]
          refine ih (h.skip hr hfull) (Or.inl ?_)
          rw [deleted_of hr, hfull, hi]
          rfl
        | true =>
          rw [if_neg (not_not.mpr (hiff.mpr hfull))]
          obtain ⟨m', ctrl', hdelete, hpartly, hplace, hstop⟩ :=
            deleteThisLine_partly hdown hmask h hr hfull hi (show m < i + 1 by omega)
          rw [hdelete, Option.bind_some]
          cases m' with
          | zero => exact ih hpartly (Or.inr ⟨rfl, by omega⟩)
          | succ m' =>
            have hi' : i = deleted ctrl₁ (m' + 1) + m' := by omega
            obtain ⟨r', hr'⟩ := exists_row hpartly.le
            have hnot : ctrl₁.full r' = false :=
              Bool.eq_false_iff.mpr ((hpartly.full_iff hr' hi').not.mp hstop)
            refine ih (hpartly.skip hr' hnot) (Or.inl ?_)
            rw [deleted_of hr', hnot, hi']
            rfl

end Rows
end DfewOS.Tetris
