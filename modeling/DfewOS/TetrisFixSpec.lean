import DfewOS.TetrisFix

/-!
# The rows that fixing a block clears

The nodes of the block are set one after the other, and the lines that this fills are counted.
The screen is a pile before, and it is one again afterwards.
-/

namespace DfewOS.Tetris
open Clearing Screen

/-! ## The cells of a block -/

theorem short_add {n j : ℤ} (hj : 0 ≤ j ∧ j ≤ 3) (hs : 0 ≤ short (n + j)) :
    short (n + j) = short n + j := by
  unfold short Int.bmod at *
  simp only [Nat.reducePow, Nat.cast_ofNat] at *
  split_ifs at * <;> omega

theorem short_inj {n i j : ℤ} (hi : 0 ≤ i ∧ i ≤ 3) (hj : 0 ≤ j ∧ j ≤ 3)
    (h : short (n + i) = short (n + j)) : i = j := by
  unfold short Int.bmod at h
  simp only [Nat.reducePow, Nat.cast_ofNat] at h
  split_ifs at h <;> omega

theorem blockMap_above (type : BlockType) : ∀ pos ∈ blockMap type, ∀ j ∈ List.range 4,
    (j : ℤ) ≤ pos.y → ∃ pos' ∈ blockMap type, pos'.y = (j : ℤ) := by
  cases type <;> decide

variable {blk : Block} {ctrl ctrl₁ : Ctrl}

theorem cells_eq (blk : Block) : blk.cells = (blockMap blk.type).map fun pos =>
    ⟨short (blk.base.x + pos.x), short (blk.base.y + pos.y)⟩ := by
  rw [Block.cells, Block.coors, List.map_map]
  rfl

theorem cells_nodup (blk : Block) : blk.cells.Nodup := by
  rw [cells_eq]
  refine (List.nodup_map_iff_inj_on (blockMap_nodup blk.type)).mpr fun pos hpos pos' hpos' heq => ?_
  obtain ⟨hx, hy⟩ := blockMap_bounds blk.type pos hpos
  obtain ⟨hx', hy'⟩ := blockMap_bounds blk.type pos' hpos'
  obtain ⟨hcol, hrow⟩ := GridPath.Cell.mk.inj heq
  exact GridPath.Cell.ext (short_inj hx hx' hcol) (short_inj hy hy' hrow)

theorem length_cells (blk : Block) : blk.cells.length = 4 := by
  rw [cells_eq, List.length_map]
  cases blk.type <;> rfl

theorem cells_between (hin : ∀ c ∈ blk.cells, 0 ≤ c.y) {c c₀ : Coor} {y : ℤ} (hc : c ∈ blk.cells)
    (hc₀ : c₀ ∈ blk.cells) (hle : c.y ≤ y) (hle' : y ≤ c₀.y) : ∃ c' ∈ blk.cells, c'.y = y := by
  have hline : ∀ pos ∈ blockMap blk.type,
      0 ≤ short (blk.base.y + pos.y) ∧ short (blk.base.y + pos.y) = short blk.base.y + pos.y := by
    intro pos hpos
    have hpos' := hin _ (by rw [cells_eq]; exact List.mem_map_of_mem hpos)
    exact ⟨hpos', short_add (blockMap_bounds blk.type pos hpos).2 hpos'⟩
  simp only [cells_eq, List.mem_map] at hc hc₀ ⊢
  obtain ⟨pos, hpos, rfl⟩ := hc
  obtain ⟨pos₀, hpos₀, rfl⟩ := hc₀
  dsimp only at hle hle'
  rw [(hline pos hpos).2] at hle
  rw [(hline pos₀ hpos₀).2] at hle'
  obtain ⟨-, hbound, -⟩ := blockMap_bounds blk.type pos hpos
  obtain ⟨-, -, hbound₀⟩ := blockMap_bounds blk.type pos₀ hpos₀
  obtain ⟨pos', hpos', hy⟩ := blockMap_above blk.type pos₀ hpos₀ (y - short blk.base.y).toNat
    (List.mem_range.mpr (by omega)) (by omega)
  refine ⟨_, ⟨pos', hpos', rfl⟩, ?_⟩
  dsimp only
  rw [(hline pos' hpos').2]
  omega

/-! ## Setting the nodes -/

namespace Ctrl

def withNode (c : Coor) (ctrl : Ctrl) : Ctrl :=
  { ctrl with
    scr := ctrl.scr.setLine c.y.toNat (bitSet (ctrl.scr.scrMap c.y.toNat) c.x.toNat)
    nodeColorMap := Function.update ctrl.nodeColorMap c.y.toNat
      (Function.update (ctrl.nodeColorMap c.y.toNat) c.x.toNat (colorMap ctrl.blk.type)) }

end Ctrl

theorem fixNode_eq {c : Coor} (hc : ctrl.scr.Inside c) :
    ctrl.fixNode c = if (ctrl.withNode c).scr.scrMap c.y.toNat = ctrl.fullMask then
      some (c.y, { ctrl.withNode c with fullLine := ctrl.fullLine + 1 })
      else some (-1, ctrl.withNode c) := by
  rw [Ctrl.fixNode, if_pos hc]
  simp only [Ctrl.withNode, setLine, Function.update_self]

theorem withNode_other {c : Coor} {y : ℕ} (hy : y ≠ c.y.toNat) : (ctrl.withNode c).row y = ctrl.row y :=
  row_congr rfl (Function.update_of_ne hy _ _) (Function.update_of_ne hy _ _)

theorem withNode_row {c : Coor} (hcol : ctrl.scr.columnNum ≤ 32) (hc : ctrl.scr.Inside c) (y : ℕ) :
    (ctrl.withNode c).row y = (ctrl.row y).put [c] (colorMap ctrl.blk.type) y := by
  obtain ⟨x₀, y₀⟩ := c
  obtain ⟨⟨hx, hx'⟩, hy, -⟩ := hc
  dsimp only at hx hx' hy
  lift x₀ to ℕ using hx
  lift y₀ to ℕ using hy
  by_cases hline : y = y₀
  · subst hline
    have hval : (ctrl.withNode ⟨x₀, y⟩).scr.scrMap y = bitSet (ctrl.scr.scrMap y) x₀ :=
      Function.update_self ..
    have hcolours : (ctrl.withNode ⟨x₀, y⟩).nodeColorMap y =
        Function.update (ctrl.nodeColorMap y) x₀ (colorMap ctrl.blk.type) := Function.update_self ..
    have hcolumns : (ctrl.withNode ⟨x₀, y⟩).scr.columnNum = ctrl.scr.columnNum := rfl
    ext1
    · simpa [Ctrl.row, Row.put] using hval
    · funext x
      simp only [Ctrl.row, Row.put, hval, hcolours, hcolumns, List.mem_singleton, GridPath.Cell.mk.injEq,
        and_true, Nat.cast_inj]
      by_cases hx₀ : x = x₀
      · subst hx₀
        have hset : bitVal (bitSet (ctrl.scr.scrMap y) x) x = true := by
          rw [bitVal_bitSet _ _ (by omega), decide_eq_true rfl, Bool.or_true]
        rw [if_pos rfl, if_pos ⟨by omega, hset⟩, Function.update_self]
      · rw [if_neg hx₀, Function.update_of_ne hx₀]
        refine if_congr (and_congr_right fun hlt => ?_) rfl rfl
        rw [bitVal_bitSet _ _ (by omega), decide_eq_false hx₀, Bool.or_false]
  · rw [withNode_other (by simpa using hline)]
    ext1
    · simp [Row.put, Ne.symm hline]
    · funext x
      simp [Row.put, hline]

theorem withNode_rows {c : Coor} (ctrl : Ctrl) :
    (ctrl.withNode c).rows = ctrl.rows.set c.y.toNat ((ctrl.withNode c).row c.y.toNat) := by
  refine List.ext_getElem? fun y => ?_
  have hrows : (ctrl.withNode c).scr.rowNum = ctrl.scr.rowNum := rfl
  rw [List.getElem?_set, rows_getElem?, rows_getElem?, length_rows, hrows]
  by_cases hline : c.y.toNat = y
  · rw [if_pos hline, hline]
  · rw [if_neg hline, withNode_other (Ne.symm hline)]

theorem withNode_countP {c : Coor} (hc : ctrl.scr.FreeCell c)
    (hmask : bitVal ctrl.fullMask c.x.toNat = true) :
    (ctrl.withNode c).rows.countP ctrl.full = ctrl.rows.countP ctrl.full +
      if (ctrl.withNode c).scr.scrMap c.y.toNat = ctrl.fullMask then 1 else 0 := by
  obtain ⟨⟨-, hy, hy'⟩, hbit⟩ := hc
  have hlt : c.y.toNat < ctrl.rows.length := by
    rw [length_rows]
    omega
  have hold : ctrl.full ctrl.rows[c.y.toNat] = false := by
    have hget := rows_getElem? ctrl c.y.toNat
    rw [List.getElem?_eq_getElem hlt, if_pos (by omega)] at hget
    rw [Option.some.inj hget, Ctrl.full, decide_eq_false_iff_not]
    intro hfull
    have hline : ctrl.scr.scrMap c.y.toNat = ctrl.fullMask := hfull
    rw [hline, hmask] at hbit
    cases hbit
  rw [withNode_rows, List.countP_set hlt, hold]
  exact congrArg (ctrl.rows.countP ctrl.full + ·) (if_congr decide_eq_true_iff rfl rfl)

/-- The lines that are full are counted, and none of them is below `bottom`. -/
structure Counted (ctrl : Ctrl) (bottom : ℤ) : Prop where
  fullLine : ctrl.fullLine = (ctrl.rows.countP ctrl.full : ℕ)
  below : bottom < ctrl.scr.rowNum
  covers : ∀ y < ctrl.scr.rowNum, ctrl.scr.scrMap y = ctrl.fullMask → (y : ℤ) ≤ bottom

/-- The cells have been set, and the lines that are full are counted. -/
structure Fixing (cells : List Coor) (ctrl ctrl₁ : Ctrl) (bottom : ℤ) : Prop where
  kept : Kept ctrl ctrl₁
  score : ctrl₁.score = ctrl.score
  row : ∀ y, ctrl₁.row y = (ctrl.row y).put cells (colorMap ctrl.blk.type) y
  le : ctrl₁.fullLine ≤ ctrl.fullLine + cells.length
  counted : Counted ctrl₁ bottom

theorem fixNode_fixing {c : Coor} {bottom : ℤ} (hcol : ctrl.scr.columnNum ≤ 32)
    (hmask : ∀ x < ctrl.scr.columnNum, bitVal ctrl.fullMask x = true) (hcount : Counted ctrl bottom)
    (hc : ctrl.scr.FreeCell c) :
    ∃ fixLine ctrl₁, ctrl.fixNode c = some (fixLine, ctrl₁) ∧ Fixing [c] ctrl ctrl₁ (max fixLine bottom) ∧
      ctrl₁.scr = ctrl.scr.setLine c.y.toNat (bitSet (ctrl.scr.scrMap c.y.toNat) c.x.toNat) := by
  obtain ⟨⟨hx, hx'⟩, hy, hy'⟩ := hc.1
  have hbelow := hcount.below
  have hfull := hcount.fullLine
  have hcountP := withNode_countP hc (hmask c.x.toNat (by omega))
  have hcovers : ∀ y < ctrl.scr.rowNum, y ≠ c.y.toNat →
      (ctrl.withNode c).scr.scrMap y = ctrl.fullMask → (y : ℤ) ≤ bottom := by
    intro y hlt hne hline
    have hsame : (ctrl.withNode c).scr.scrMap y = ctrl.scr.scrMap y := Function.update_of_ne hne _ _
    exact hcount.covers y hlt (hsame.symm.trans hline)
  rw [fixNode_eq hc.1]
  split_ifs with hline
  · rw [if_pos hline] at hcountP
    refine ⟨c.y, _, rfl, ⟨⟨rfl, rfl, rfl, rfl, rfl⟩, rfl, withNode_row hcol hc.1, ?_, ?_, ?_, ?_⟩, rfl⟩
    · simp
    · have hrows : ((ctrl.withNode c).rows.countP ctrl.full : ℤ) = ctrl.rows.countP ctrl.full + 1 := by
        rw [hcountP]
        rfl
      exact (congrArg (· + 1) hfull).trans hrows.symm
    · exact max_lt hy' hbelow
    · intro y hlt hmask'
      by_cases hne : y = c.y.toNat
      · exact le_max_of_le_left (by omega)
      · exact le_max_of_le_right (hcovers y hlt hne hmask')
  · rw [if_neg hline, Nat.add_zero] at hcountP
    refine ⟨-1, _, rfl, ⟨⟨rfl, rfl, rfl, rfl, rfl⟩, rfl, withNode_row hcol hc.1, ?_, ?_, ?_, ?_⟩, rfl⟩
    · exact le_add_of_nonneg_right (by simp)
    · exact hfull.trans (congrArg Nat.cast hcountP.symm)
    · exact max_lt (show (-1 : ℤ) < ctrl.scr.rowNum by omega) hbelow
    · intro y hlt hmask'
      by_cases hne : y = c.y.toNat
      · exact absurd (hne ▸ hmask') hline
      · exact le_max_of_le_right (hcovers y hlt hne hmask')

theorem fixNodes_fixing {coors : List Coor} {bottom : ℤ} (hcol : ctrl.scr.columnNum ≤ 32)
    (hmask : ∀ x < ctrl.scr.columnNum, bitVal ctrl.fullMask x = true) (hcount : Counted ctrl bottom)
    (hfree : ∀ c ∈ coors.map toShort, ctrl.scr.FreeCell c) (hnd : (coors.map toShort).Nodup) :
    ∃ bottom₁ ctrl₁, ctrl.fixNodes coors bottom = some (bottom₁, ctrl₁) ∧
      Fixing (coors.map toShort) ctrl ctrl₁ bottom₁ := by
  induction coors generalizing ctrl bottom with
  | nil =>
    refine ⟨bottom, ctrl, rfl, .refl ctrl, rfl, fun y => (put_nil _ y _).symm, ?_, hcount⟩
    simp
  | cons c coors ih =>
    rw [List.map_cons] at hfree hnd ⊢
    obtain ⟨hnot, hnd⟩ := List.nodup_cons.mp hnd
    have hc := hfree _ List.mem_cons_self
    obtain ⟨fixLine, ctrl₁, hfix, hone, hscr⟩ := fixNode_fixing hcol hmask hcount hc
    have hfree' : ∀ c' ∈ coors.map toShort, ctrl₁.scr.FreeCell c' := by
      intro c' hc'
      rw [hscr]
      exact freeCell_setLine hcol hc.1 (hfree c' (List.mem_cons_of_mem _ hc')) fun heq => hnot (heq ▸ hc')
    obtain ⟨bottom₂, ctrl₂, hrest, htwo⟩ := ih (by rw [hone.kept.columns]; exact hcol)
      (by rw [hone.kept.columns, hone.kept.mask]; exact hmask) hone.counted hfree' hnd
    refine ⟨bottom₂, ctrl₂, ?_, hone.kept.trans htwo.kept, htwo.score.trans hone.score, fun y => ?_, ?_,
      htwo.counted⟩
    · rw [Ctrl.fixNodes, hfix, Option.bind_some]
      exact hrest
    · rw [htwo.row, hone.row, hone.kept.blk, put_cons]
    · have hle := hone.le
      have hle' := htwo.le
      rw [List.length_singleton] at hle
      rw [List.length_cons]
      omega

/-! ## The pile with the block on it -/

theorem put_bit {cells : List Coor} {color : TypeColor} {x y : ℕ} (r : Row) (hx : x < 32) :
    bitVal (r.put cells color y).line x =
      (bitVal r.line x || decide (∃ c ∈ cells, c.y = (y : ℤ) ∧ c.x.toNat = x)) := by
  induction cells generalizing r with
  | nil => simp [put_nil]
  | cons c cells ih =>
    have hone : bitVal (r.put [c] color y).line x =
        (bitVal r.line x || decide (c.y = (y : ℤ) ∧ c.x.toNat = x)) := by
      by_cases hline : c.y = (y : ℤ)
      · simp [Row.put, hline, bitVal_bitSet _ _ hx, eq_comm]
      · simp [Row.put, hline]
    rw [← put_cons, ih, hone, Bool.or_assoc]
    simp only [List.exists_mem_cons_iff, Bool.decide_or]

theorem put_line_eq_zero {cells : List Coor} {color : TypeColor} {y : ℕ} (r : Row)
    (hin : ∀ c ∈ cells, c.x.toNat < 32) :
    (r.put cells color y).line = 0 ↔ r.line = 0 ∧ ∀ c ∈ cells, c.y ≠ (y : ℤ) := by
  constructor
  · intro hzero
    have hbit : ∀ x < 32, bitVal r.line x = false ∧ ¬ ∃ c ∈ cells, c.y = (y : ℤ) ∧ c.x.toNat = x := by
      intro x hx
      have hput : bitVal (r.put cells color y).line x = _ := put_bit r hx
      have hclear : bitVal (r.put cells color y).line x = false := by
        rw [hzero]
        exact BitVec.getLsbD_zero
      rw [hclear, eq_comm, Bool.or_eq_false_iff, decide_eq_false_iff_not] at hput
      exact hput
    refine ⟨BitVec.eq_of_getLsbD_eq fun x hx => (hbit x hx).1.trans BitVec.getLsbD_zero.symm, ?_⟩
    exact fun c hc hline => (hbit _ (hin c hc)).2 ⟨c, hc, hline, rfl⟩
  · rintro ⟨hzero, hnone⟩
    refine BitVec.eq_of_getLsbD_eq fun x hx => (put_bit r hx).trans ?_
    rw [hzero, decide_eq_false fun ⟨c, hc, hline, _⟩ => hnone c hc hline]
    simp [bitVal]

theorem bitVal_mask {n x : ℕ} (hn : n ≤ 31) (hx : x < n) : bitVal ((1#32 <<< n) - 1) x = true := by
  have hpow : 2 ^ n < 2 ^ 32 := Nat.pow_lt_pow_right (by omega) (by omega)
  have hpos : 0 < 2 ^ n := Nat.two_pow_pos n
  have hval : ((1#32 <<< n) - 1).toNat = 2 ^ n - 1 := by
    simp only [BitVec.toNat_sub, BitVec.toNat_shiftLeft, BitVec.toNat_ofNat, Nat.shiftLeft_eq,
      BitVec.ofNat_eq_ofNat]
    omega
  rw [bitVal, ← BitVec.testBit_toNat, hval, Nat.testBit_two_pow_sub_one, decide_eq_true hx]

theorem Pile.placed (h : Pile ctrl) (hfree : ∀ c ∈ ctrl.blk.cells, ctrl.scr.FreeCell c)
    (hcol : ctrl.scr.columnNum ≤ 32) (hrest : Rests ctrl.scr ctrl.blk) {bottom : ℤ}
    (hfix : Fixing ctrl.blk.cells ctrl ctrl₁ bottom) : Down ctrl₁.rows := by
  have hin : ∀ c ∈ ctrl.blk.cells, c.x.toNat < 32 ∧ 0 ≤ c.y := by
    intro c hc
    obtain ⟨⟨⟨hx, hx'⟩, hy, -⟩, -⟩ := hfree c hc
    exact ⟨by omega, hy⟩
  have hline : ∀ y, ctrl₁.scr.scrMap y = 0 ↔
      ctrl.scr.scrMap y = 0 ∧ ∀ c ∈ ctrl.blk.cells, c.y ≠ (y : ℤ) := by
    intro y
    have hrow : ctrl₁.scr.scrMap y =
        (Row.put ctrl.blk.cells (colorMap ctrl.blk.type) y (ctrl.row y)).line :=
      congrArg Row.line (hfix.row y)
    rw [hrow]
    exact put_line_eq_zero (ctrl.row y) fun c hc => (hin c hc).1
  rw [down_iff, hfix.kept.rows]
  intro i j hij hj hzero
  obtain ⟨hzero, hnone⟩ := (hline j).mp hzero
  refine (hline i).mpr ⟨h.down i j hij hj hzero, fun c hc hi => ?_⟩
  obtain ⟨c₀, hc₀, hsupport⟩ := hrest
  have hlow := (hin c₀ hc₀).2
  rcases le_or_gt (j : ℤ) c₀.y with hle | hlt
  · obtain ⟨c', hc', hj'⟩ := cells_between (fun c hc => (hin c hc).2) hc hc₀
      (show c.y ≤ (j : ℤ) by omega) hle
    exact hnone c' hc' hj'
  · rcases hsupport with hfloor | hset
    · omega
    · have hbelow : ctrl.scr.scrMap (c₀.y.toNat + 1) = 0 := by
        rcases Nat.lt_or_ge (c₀.y.toNat + 1) j with hlt' | hge
        · exact h.down _ j hlt' hj hzero
        · rwa [show c₀.y.toNat + 1 = j by omega]
      rw [hbelow] at hset
      simp [bitVal] at hset

/-! ## Fixing the block -/

theorem Counted.start (hline : ctrl.fullLine = 0) (hpile : Pile ctrl) : Counted ctrl (-1) := by
  refine ⟨?_, by omega, fun y hlt hfull => absurd hfull (hpile.notFull y hlt)⟩
  rw [hline, eq_comm, Nat.cast_eq_zero, List.countP_eq_zero]
  intro r hr
  obtain ⟨y, hy, rfl⟩ := List.mem_map.mp hr
  rw [Ctrl.full, decide_eq_true_iff]
  exact hpile.notFull y (List.mem_range.mp hy)

theorem Counted.partly {bottom : ℤ} (h : Counted ctrl bottom) :
    Partly ctrl ctrl (bottom + 1).toNat ∧ Faces ctrl (bottom + 1).toNat (bottom + 1).toNat := by
  have hbelow := h.below
  have hnone : (ctrl.rows.drop (bottom + 1).toNat).countP ctrl.full = 0 := by
    rw [List.countP_eq_zero]
    intro r hr hfull
    obtain ⟨i, hi⟩ := List.mem_iff_getElem?.mp hr
    rw [List.getElem?_drop, rows_getElem?] at hi
    split_ifs at hi with hlt
    obtain rfl := Option.some.inj hi
    have hle := h.covers _ hlt (of_decide_eq_true hfull)
    omega
  have hsplit : ctrl.rows.countP ctrl.full = (ctrl.rows.take (bottom + 1).toNat).countP ctrl.full := by
    conv_lhs => rw [← List.take_append_drop (bottom + 1).toNat ctrl.rows, List.countP_append, hnone]
    rfl
  refine ⟨⟨.refl ctrl, (partly_start hnone).symm, ?_, ?_, rfl⟩, Or.inl ?_⟩
  · rw [length_rows]
    omega
  · rw [h.fullLine, hsplit]
  · rw [deleted, hnone, Nat.zero_add]

theorem Fixing.rows {bottom : ℤ} (h : Fixing ctrl.blk.cells ctrl ctrl₁ bottom) :
    ctrl₁.rows = ctrl.placed := by
  rw [Ctrl.rows, h.kept.rows]
  exact List.map_congr_left fun y _ => h.row y

theorem Clears.pile (h : Clears ctrl ctrl₁) (hmask : ctrl.fullMask ≠ 0) (hdown : Down ctrl.rows) :
    Pile ctrl₁ := by
  constructor
  · rw [← down_iff, h.rows, ← partly_zero]
    exact pairwise_partly hdown (fun _ _ => rfl) 0
  · intro y hlt hfull
    have hmem : ctrl₁.row y ∈ ctrl₁.rows := List.mem_map_of_mem (List.mem_range.mpr hlt)
    rw [h.kept.mask] at hfull
    rw [h.rows, cleared, List.mem_append] at hmem
    rcases hmem with hempty | hold
    · have hline : ctrl₁.scr.scrMap y = 0 := congrArg Row.line (List.eq_of_mem_replicate hempty)
      exact hmask (hfull.symm.trans hline)
    · have hnot := List.of_mem_filter hold
      rw [Bool.not_eq_true', Ctrl.full, decide_eq_false_iff_not] at hnot
      exact hnot hfull

/-- The screen is `ctrl.placed` without its full rows, and these have brought in `s`. -/
structure Fixed (ctrl ctrl' : Ctrl) (s : ℤ) : Prop where
  rows : ctrl'.rows = cleared ctrl.full Row.empty ctrl.placed
  worth : scoreMap[ctrl.placed.countP ctrl.full]? = some s
  score : ctrl'.score = ctrl.score + s
  fullLine : ctrl'.fullLine = 0
  pile : Pile ctrl'
  columnNum : ctrl'.scr.columnNum = ctrl.scr.columnNum
  rowNum : ctrl'.scr.rowNum = ctrl.scr.rowNum
  mask : ctrl'.fullMask = ctrl.fullMask

theorem scoreMap_getD {k : ℕ} (hk : k ≤ 4) : scoreMap[k]? = some (scoreMap.getD k 0) := by
  have hlt : k < scoreMap.length := Nat.lt_succ_of_le hk
  rw [List.getD_eq_getElem?_getD, List.getElem?_eq_getElem hlt]
  rfl

/-- The block is put where it rests, the rows that are full then are cleared, and the screen is a
pile again. -/
theorem fixBlock_clears (hcol : 6 ≤ ctrl.scr.columnNum ∧ ctrl.scr.columnNum ≤ 31)
    (hmask : ctrl.fullMask = (1#32 <<< ctrl.scr.columnNum) - 1) (hline : ctrl.fullLine = 0)
    (hpile : Pile ctrl) (hfree : ctrl.scr.anyOccupied ctrl.blk.coors = false)
    (hrest : Rests ctrl.scr ctrl.blk) :
    ∃ ctrl' s, ctrl.fixBlock = some ctrl' ∧ Fixed ctrl ctrl' s := by
  have hcells : ∀ c ∈ ctrl.blk.cells, ctrl.scr.FreeCell c := by
    intro c hc
    obtain ⟨c', hc', rfl⟩ := List.mem_map.mp hc
    exact isOccupied_eq_false.mp (anyOccupied_eq_false.mp hfree c' hc')
  have hbits : ∀ x < ctrl.scr.columnNum, bitVal ctrl.fullMask x = true := by
    rw [hmask]
    exact fun x hx => bitVal_mask hcol.2 hx
  have hmask₀ : ctrl.fullMask ≠ 0 := by
    rw [hmask]
    exact fullMask_ne_zero (by omega)
  let ctrl₀ : Ctrl := { ctrl with events := .fixed ctrl.scr ctrl.blk :: ctrl.events }
  have hpile₀ : Pile ctrl₀ := ⟨hpile.down, hpile.notFull⟩
  have hcol₀ : ctrl₀.scr.columnNum ≤ 32 := show ctrl.scr.columnNum ≤ 32 by omega
  obtain ⟨bottom, ctrl₁, hfix, hfixing⟩ := fixNodes_fixing hcol₀ hbits
    (show Counted ctrl₀ (-1) from .start hline hpile₀) hcells (cells_nodup ctrl.blk)
  have hdown : Down ctrl₁.rows := hpile₀.placed hcells hcol₀ hrest hfixing
  have hrows : ctrl₁.rows = ctrl.placed := show ctrl₁.rows = ctrl₀.placed from Fixing.rows hfixing
  have hfull : ctrl₁.full = ctrl.full := by
    funext r
    rw [Ctrl.full, Ctrl.full, hfixing.kept.mask]
  have hcount := hfixing.counted.fullLine
  rw [hrows, hfull] at hcount
  have hle : ctrl.placed.countP ctrl.full ≤ 4 := by
    have hbound : ctrl₁.fullLine ≤ ctrl.fullLine + ctrl.blk.cells.length := hfixing.le
    rw [length_cells, hline] at hbound
    omega
  let ctrl₂ : Ctrl := { ctrl₁ with score := ctrl₁.score + scoreMap.getD ctrl₁.fullLine.toNat 0 }
  have hclears : ∃ ctrl', ctrl.fixBlock = some ctrl' ∧ Clears ctrl₂ ctrl' := by
    have hrun : ctrl.fixBlock =
        if ctrl₁.fullLine ≠ 0 then ctrl₂.deleteLines (bottom + 1).toNat else some ctrl₁ := by
      rw [Ctrl.fixBlock, show ctrl₀.fixNodes ctrl₀.blk.coors (-1) = some (bottom, ctrl₁) from hfix]
      rfl
    obtain ⟨hpartly, hfaces⟩ := (show Counted ctrl₂ bottom from
      ⟨hfixing.counted.fullLine, hfixing.counted.below, hfixing.counted.covers⟩).partly
    rw [hrun]
    by_cases hzero : ctrl₁.fullLine = 0
    · rw [if_neg (not_not.mpr hzero)]
      refine ⟨ctrl₁, rfl, ⟨rfl, rfl, rfl, rfl, rfl⟩, ?_, hzero, ?_⟩
      · exact (hpartly.clears hzero).rows
      · simp [ctrl₂, hzero, scoreMap]
    · rw [if_pos hzero]
      have hmask₁ : ctrl₁.fullMask ≠ 0 := hfixing.kept.mask ▸ hmask₀
      exact deleteLines_clears hdown hmask₁ hpartly hfaces
  obtain ⟨ctrl', hrun, hclears⟩ := hclears
  refine ⟨ctrl', _, hrun, ?_, scoreMap_getD hle, ?_, hclears.fullLine, ?_, ?_, ?_, ?_⟩
  · rw [hclears.rows, show ctrl₂.rows = ctrl.placed from hrows, show ctrl₂.full = ctrl.full from hfull]
  · rw [hclears.score, show ctrl₂.score = ctrl₁.score + _ from rfl, hfixing.score, hcount,
      Int.toNat_natCast]
  · exact hclears.pile (show ctrl₁.fullMask ≠ 0 from hfixing.kept.mask ▸ hmask₀) hdown
  · exact hclears.kept.columns.trans hfixing.kept.columns
  · exact hclears.kept.rows.trans hfixing.kept.rows
  · exact hclears.kept.mask.trans hfixing.kept.mask

/-- An upright I block that fills two lines, with one between them that it does not fill. -/
def twoLines : Ctrl where
  nodeColorMap _ _ := .z
  scr := ⟨fun y => [0, 2, 62, 30, 62].getD y 0, 6, 5⟩
  fullMask := 63
  fullLine := 0
  score := 0
  blk := ⟨⟨0, 1⟩, .i0⟩
  inAutoMode := false
  events := []

theorem fixBlock_clears_twoLines : ∃ ctrl', twoLines.fixBlock = some ctrl' ∧
    ctrl'.rows.map Row.line = [0, 0, 0, 3, 31] ∧ ctrl'.score = 3 := by
  have hpile : Pile twoLines := by
    have hdown : ∀ j < 5, ∀ i < j, twoLines.scr.scrMap j = 0 → twoLines.scr.scrMap i = 0 := by decide
    exact ⟨fun i j hij hj => hdown j hj i hij, by decide⟩
  obtain ⟨ctrl', s, hrun, hfixed⟩ := fixBlock_clears (by decide) (by decide) rfl hpile (by decide)
    ⟨⟨0, 4⟩, by decide, .inl (by decide)⟩
  refine ⟨ctrl', hrun, ?_, ?_⟩
  · rw [hfixed.rows]
    decide
  · have hworth : some 3 = some s := hfixed.worth
    rw [hfixed.score, ← Option.some.inj hworth]
    rfl

end DfewOS.Tetris
