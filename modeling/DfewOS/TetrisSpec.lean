import DfewOS.Tetris
import Mathlib.Data.BitVec

/-!
# Collisions in Tetris

Every motion and every fixing of a block is at a place where all four nodes are free. A
new block is not checked: one that overlaps stays where it appeared until a motion finds a
free place for it.
-/

namespace DfewOS.Tetris
open Transition

theorem short_eq {n : ℤ} (h : -32768 ≤ n) (h' : n < 32768) : short n = n := by
  unfold short Int.bmod
  simp only [Nat.reducePow, Nat.cast_ofNat]
  split <;> omega

theorem short_of_nonneg {n : ℤ} (h : -32768 ≤ n) (h' : n < 65536) (hs : 0 ≤ short n) :
    n < 32768 := by
  unfold short Int.bmod at hs
  simp only [Nat.reducePow, Nat.cast_ofNat] at hs
  split at hs <;> omega

/-! ## Free places -/

/-- All four nodes are inside the screen and none of them is set. -/
def Clear (scr : Screen) (blk : Block) : Prop :=
  ∀ c ∈ blk.coors, scr.Inside c ∧ bitVal (scr.scrMap c.y.toNat) c.x.toNat = false

instance (scr : Screen) (blk : Block) : Decidable (Clear scr blk) :=
  inferInstanceAs (Decidable (∀ c ∈ blk.coors, _))

def Block.shift (dx dy : ℤ) (blk : Block) : Block :=
  { blk with base := ⟨blk.base.x + dx, blk.base.y + dy⟩ }

theorem coors_shift (dx dy : ℤ) (blk : Block) :
    (blk.shift dx dy).coors = blk.coors.map fun c => ⟨c.x + dx, c.y + dy⟩ := by
  simp only [Block.coors, Block.shift, List.map_map]
  apply List.map_congr_left
  intro pos _
  apply GridPath.Cell.ext <;> simp only [Function.comp_apply] <;> omega

theorem blockMap_bounds (type : BlockType) :
    ∀ pos ∈ blockMap type, (0 ≤ pos.x ∧ pos.x ≤ 3) ∧ 0 ≤ pos.y ∧ pos.y ≤ 3 := by
  cases type <;> decide

theorem blockMap_nodup (type : BlockType) : (blockMap type).Nodup := by
  cases type <;> decide

theorem blockMap_base (type : BlockType) :
    (∃ pos ∈ blockMap type, pos.x = 0) ∧ ∃ pos ∈ blockMap type, pos.y = 0 := by
  cases type <;> decide

variable {scr : Screen} {blk : Block}

theorem coors_bounds {c : Coor} (hc : c ∈ blk.coors) :
    (blk.base.x ≤ c.x ∧ c.x ≤ blk.base.x + 3) ∧ blk.base.y ≤ c.y ∧ c.y ≤ blk.base.y + 3 := by
  obtain ⟨pos, hpos, rfl⟩ := List.mem_map.mp hc
  have := blockMap_bounds blk.type pos hpos
  dsimp only
  omega

theorem Clear.base (h : Clear scr blk) : scr.Inside blk.base := by
  obtain ⟨⟨px, hpx, hx⟩, py, hpy, hy⟩ := blockMap_base blk.type
  obtain ⟨hinx, -⟩ := h _ (List.mem_map_of_mem hpx)
  obtain ⟨hiny, -⟩ := h _ (List.mem_map_of_mem hpy)
  simp only [Screen.Inside, hx, add_zero] at hinx
  simp only [Screen.Inside, hy, add_zero] at hiny
  exact ⟨hinx.1, hiny.2⟩

theorem isOccupied_eq_false {c : Coor} :
    scr.isOccupied c = false ↔ scr.Inside c ∧ bitVal (scr.scrMap c.y.toNat) c.x.toNat = false := by
  unfold Screen.isOccupied
  split
  · next h => simp only [h, true_and]
  · next h => simp only [h, false_and, Bool.true_eq_false]

theorem anyOccupied_eq_false {coors : List Coor} :
    scr.anyOccupied coors = false ↔ ∀ c ∈ coors, scr.isOccupied (toShort c) = false := by
  simp only [Screen.anyOccupied, List.any_eq_false, Bool.not_eq_true]

/-- The base of a block that is at most one step away from the screen. -/
structure Near (blk : Block) : Prop where
  x : -1 ≤ blk.base.x ∧ blk.base.x < 32764
  y : 0 ≤ blk.base.y ∧ blk.base.y ≤ 32768

/-- The loop over the nodes finds out whether the place is free. A line from 32768 on is
taken for occupied. -/
theorem anyOccupied_coors (h : Near blk) :
    scr.anyOccupied blk.coors = false ↔ Clear scr blk ∧ ∀ c ∈ blk.coors, c.y < 32768 := by
  have hshort : ∀ c ∈ blk.coors, c.y < 32768 → toShort c = c := by
    intro c hc hy
    have hbounds := coors_bounds hc
    have hbase := h.x
    have hbase' := h.y
    apply GridPath.Cell.ext
    · exact short_eq (by omega) (by omega)
    · exact short_eq (by omega) hy
  rw [anyOccupied_eq_false]
  constructor
  · intro hfree
    have hy : ∀ c ∈ blk.coors, c.y < 32768 := by
      intro c hc
      have hbounds := coors_bounds hc
      have hbase := h.y
      obtain ⟨⟨-, hpos, -⟩, -⟩ := isOccupied_eq_false.mp (hfree c hc)
      exact short_of_nonneg (by omega) (by omega) hpos
    refine ⟨fun c hc => ?_, hy⟩
    have hc' := isOccupied_eq_false.mp (hfree c hc)
    rwa [hshort c hc (hy c hc)] at hc'
  · rintro ⟨hclear, hy⟩ c hc
    rw [hshort c hc (hy c hc)]
    exact isOccupied_eq_false.mpr (hclear c hc)

/-! ## Fixing a block -/

structure Kept (ctrl ctrl' : Ctrl) : Prop where
  columns : ctrl'.scr.columnNum = ctrl.scr.columnNum
  rows : ctrl'.scr.rowNum = ctrl.scr.rowNum
  mask : ctrl'.fullMask = ctrl.fullMask
  blk : ctrl'.blk = ctrl.blk
  events : ctrl'.events = ctrl.events

theorem Kept.refl (ctrl : Ctrl) : Kept ctrl ctrl := ⟨rfl, rfl, rfl, rfl, rfl⟩

theorem Kept.trans {c₁ c₂ c₃ : Ctrl} (h : Kept c₁ c₂) (h' : Kept c₂ c₃) : Kept c₁ c₃ :=
  ⟨h'.columns.trans h.columns, h'.rows.trans h.rows, h'.mask.trans h.mask, h'.blk.trans h.blk,
    h'.events.trans h.events⟩

variable {ctrl : Ctrl}

theorem fallLines_kept (y : ℕ) (ctrl : Ctrl) : Kept ctrl (ctrl.fallLines y) := by
  induction y generalizing ctrl with
  | zero => exact ⟨rfl, rfl, rfl, rfl, rfl⟩
  | succ y ih =>
    simp only [Ctrl.fallLines]
    split
    · exact ⟨rfl, rfl, rfl, rfl, rfl⟩
    · have h := ih (ctrl.updateLine (y + 1) (ctrl.scr.scrMap y) (ctrl.nodeColorMap y))
      exact ⟨h.columns, h.rows, h.mask, h.blk, h.events⟩

theorem fallLines_empty (y : ℕ) (ctrl : Ctrl) :
    ∃ z ≤ y, (ctrl.fallLines y).scr.scrMap z = 0 ∧ ∀ i < y, ctrl.scr.scrMap i = 0 → i < z := by
  induction y generalizing ctrl with
  | zero => exact ⟨0, le_refl 0, by simp [Ctrl.fallLines, Ctrl.updateLine], nofun⟩
  | succ y ih =>
    simp only [Ctrl.fallLines]
    split
    · next hempty => exact ⟨y + 1, le_refl _, hempty, fun i hi _ => hi⟩
    · next hline =>
      obtain ⟨z, hz, hempty, hcloser⟩ :=
        ih (ctrl.updateLine (y + 1) (ctrl.scr.scrMap y) (ctrl.nodeColorMap y))
      refine ⟨z, by omega, hempty, fun i hi hzero => ?_⟩
      simp only [Ctrl.updateLine, Function.update_self] at hline
      have hne : i ≠ y := by
        rintro rfl
        exact hline hzero
      apply hcloser i (by omega)
      simpa only [Ctrl.updateLine, Function.update_of_ne (show i ≠ y + 1 by omega)] using hzero

theorem deleteThisLine_total {fuel y : ℕ} (hmask : ctrl.fullMask ≠ 0)
    (hfuel : (∃ z < y, ctrl.scr.scrMap z = 0 ∧ y ≤ z + fuel) ∨ y < fuel) :
    ∃ ctrl', ctrl.deleteThisLine fuel y = some ctrl' ∧ Kept ctrl ctrl' := by
  induction fuel generalizing ctrl with
  | zero => omega
  | succ fuel ih =>
    have hkept := fallLines_kept y ctrl
    obtain ⟨z, hz, hempty, hcloser⟩ := fallLines_empty y ctrl
    simp only [Ctrl.deleteThisLine]
    split
    · next hfull =>
      have hne : z ≠ y := by
        rintro rfl
        rw [hempty, hkept.mask] at hfull
        exact hmask hfull.symm
      have hfuel' : y ≤ z + fuel := by
        obtain ⟨i, hi, hzero, hle⟩ | hlt := hfuel
        · have := hcloser i hi hzero
          omega
        · omega
      let next : Ctrl := { ctrl.fallLines y with fullLine := (ctrl.fallLines y).fullLine - 1 }
      have hmask' : next.fullMask ≠ 0 := fun h => hmask (hkept.mask.symm.trans h)
      obtain ⟨ctrl', hrun, hkept'⟩ := ih hmask' (.inl ⟨z, by omega, hempty, hfuel'⟩)
      exact ⟨ctrl', hrun, hkept.trans ⟨hkept'.columns, hkept'.rows, hkept'.mask, hkept'.blk,
        hkept'.events⟩⟩
    · exact ⟨_, rfl, hkept.columns, hkept.rows, hkept.mask, hkept.blk, hkept.events⟩

theorem deleteLines_total (ctrl : Ctrl) (i : ℕ) (hmask : ctrl.fullMask ≠ 0) :
    ∃ ctrl', ctrl.deleteLines i = some ctrl' ∧ Kept ctrl ctrl' := by
  induction i generalizing ctrl with
  | zero => exact ⟨ctrl, rfl, .refl ctrl⟩
  | succ i ih =>
    simp only [Ctrl.deleteLines]
    split
    · exact ⟨ctrl, rfl, .refl ctrl⟩
    split
    · exact ih ctrl hmask
    · obtain ⟨ctrl₁, hrun, hkept⟩ := deleteThisLine_total hmask (.inr (Nat.lt_succ_self i))
      have hmask₁ : ctrl₁.fullMask ≠ 0 := fun h => hmask (hkept.mask.symm.trans h)
      obtain ⟨ctrl₂, hrest, hkept'⟩ := ih ctrl₁ hmask₁
      exact ⟨ctrl₂, by rw [hrun, Option.bind_some, hrest], hkept.trans hkept'⟩

theorem fixNode_total {c : Coor} (hc : ctrl.scr.Inside c) :
    ∃ fixLine ctrl', ctrl.fixNode c = some (fixLine, ctrl') ∧ Kept ctrl ctrl' := by
  simp only [Ctrl.fixNode, if_pos hc]
  split
  · exact ⟨_, _, rfl, rfl, rfl, rfl, rfl, rfl⟩
  · exact ⟨_, _, rfl, rfl, rfl, rfl, rfl, rfl⟩

theorem fixNodes_total (ctrl : Ctrl) {coors : List Coor} (bottomFullLine : ℤ)
    (hin : ∀ c ∈ coors, ctrl.scr.Inside (toShort c)) :
    ∃ line ctrl', ctrl.fixNodes coors bottomFullLine = some (line, ctrl') ∧ Kept ctrl ctrl' := by
  induction coors generalizing bottomFullLine ctrl with
  | nil => exact ⟨bottomFullLine, ctrl, rfl, .refl ctrl⟩
  | cons c coors ih =>
    obtain ⟨fixLine, ctrl₁, hfix, hkept⟩ := fixNode_total (hin c List.mem_cons_self)
    have hin₁ : ∀ c' ∈ coors, ctrl₁.scr.Inside (toShort c') := by
      intro c' hc'
      have := hin c' (List.mem_cons_of_mem c hc')
      rwa [Screen.Inside, hkept.columns, hkept.rows]
    obtain ⟨line, ctrl₂, hrest, hkept'⟩ := ih ctrl₁ (max fixLine bottomFullLine) hin₁
    refine ⟨line, ctrl₂, ?_, hkept.trans hkept'⟩
    simp only [Ctrl.fixNodes, hfix, Option.bind_some, hrest]

theorem fixBlock_total (ctrl : Ctrl) (hmask : ctrl.fullMask ≠ 0)
    (hfree : ctrl.scr.anyOccupied ctrl.blk.coors = false) :
    ∃ ctrl', ctrl.fixBlock = some ctrl' ∧
      Kept { ctrl with events := .fixed ctrl.scr ctrl.blk :: ctrl.events } ctrl' := by
  have hin : ∀ c ∈ ctrl.blk.coors, ctrl.scr.Inside (toShort c) := fun c hc =>
    (isOccupied_eq_false.mp (anyOccupied_eq_false.mp hfree c hc)).1
  obtain ⟨line, ctrl₁, hfix, hkept⟩ := fixNodes_total
    { ctrl with events := .fixed ctrl.scr ctrl.blk :: ctrl.events } (-1) hin
  simp only [Ctrl.fixBlock, hfix, Option.bind_some]
  split
  · obtain ⟨ctrl₂, hdelete, hkept'⟩ := deleteLines_total
      { ctrl₁ with score := ctrl₁.score + scoreMap.getD ctrl₁.fullLine.toNat 0 }
      (line + 1).toNat (by rw [hkept.mask]; exact hmask)
    exact ⟨ctrl₂, hdelete, hkept.trans ⟨hkept'.columns, hkept'.rows, hkept'.mask, hkept'.blk,
      hkept'.events⟩⟩
  · exact ⟨ctrl₁, rfl, hkept⟩

/-! ## Motions -/

theorem sideways_eq {step : ℤ} (h : Near (ctrl.blk.shift step 0)) :
    ctrl.sideways step = if ctrl.scr.anyOccupied (ctrl.blk.shift step 0).coors then (.error, ctrl)
      else (.ok, ctrl.assign (ctrl.blk.shift step 0)) := by
  have hx := h.x
  simp only [Block.shift] at hx
  have hshort : short (ctrl.blk.base.x + step) = ctrl.blk.base.x + step :=
    short_eq (by omega) (by omega)
  have hcoors := coors_shift step 0 ctrl.blk
  simp only [add_zero] at hcoors
  rw [hcoors]
  simp only [Ctrl.sideways, hshort, Block.shift, add_zero]

theorem blocked_eq (ctrl : Ctrl) :
    ctrl.blocked = ctrl.scr.anyOccupied (ctrl.blk.shift 0 1).coors := by
  simp only [Ctrl.blocked, coors_shift, add_zero]

theorem descend_eq (h : Near ctrl.blk) (hy : ctrl.blk.base.y + 1 < 32768) :
    ctrl.descend = ctrl.assign (ctrl.blk.shift 0 1) := by
  have hpos := h.y
  have hshort : short (ctrl.blk.base.y + 1) = ctrl.blk.base.y + 1 :=
    short_eq (by omega) hy
  simp only [Ctrl.descend, Block.shift, hshort, add_zero]

def Event.Clear : Event → Prop
  | .moved scr blk => Tetris.Clear scr blk
  | .fixed scr blk => Tetris.Clear scr blk

/-- Where a new block appears. -/
def spawnBase (columnNum : ℕ) : Coor := ⟨(columnNum / 2 : ℕ) - 1, 0⟩

/-- A block that is not at a free place is still where it appeared. -/
structure Inv (columnNum rowNum : ℕ) (ctrl : Ctrl) : Prop where
  columns : ctrl.scr.columnNum = columnNum
  rows : ctrl.scr.rowNum = rowNum
  mask : ctrl.fullMask ≠ 0
  base : (0 ≤ ctrl.blk.base.x ∧ ctrl.blk.base.x < 32) ∧
    0 ≤ ctrl.blk.base.y ∧ ctrl.blk.base.y < 32768 ∧ ctrl.blk.base.y < rowNum
  place : ctrl.scr.anyOccupied ctrl.blk.coors = false ∨ ctrl.blk.base = spawnBase columnNum
  events : ∀ e ∈ ctrl.events, e.Clear

variable {columnNum rowNum : ℕ}

theorem Inv.near (h : Inv columnNum rowNum ctrl) (dx dy : ℤ) (hdx : -1 ≤ dx ∧ dx ≤ 1)
    (hdy : 0 ≤ dy ∧ dy ≤ 1) : Near (ctrl.blk.shift dx dy) := by
  have hbase := h.base
  constructor <;> simp only [Block.shift] <;> omega

theorem Inv.assign (h : Inv columnNum rowNum ctrl) (hcol : columnNum ≤ 31) {blk' : Block}
    (hnear : Near blk') (hfree : ctrl.scr.anyOccupied blk'.coors = false) :
    Inv columnNum rowNum (ctrl.assign blk') := by
  obtain ⟨hclear, hy⟩ := (anyOccupied_coors hnear).mp hfree
  obtain ⟨⟨hx, hx'⟩, hy', hy''⟩ := hclear.base
  rw [h.columns] at hx'
  rw [h.rows] at hy''
  obtain ⟨-, pos, hpos, hzero⟩ := blockMap_base blk'.type
  have hlow : blk'.base.y + pos.y < 32768 := hy _ (List.mem_map_of_mem hpos)
  refine ⟨h.columns, h.rows, h.mask, ?_, .inl hfree, fun e he => ?_⟩
  · simp only [Ctrl.assign]
    omega
  · obtain rfl | he := List.mem_cons.mp he
    · exact hclear
    · exact h.events e he

theorem newBlock_inv (hcol : 6 ≤ columnNum ∧ columnNum ≤ 31) (hrow : 5 ≤ rowNum) (rand : ℕ)
    (hcolumns : ctrl.scr.columnNum = columnNum) (hrows : ctrl.scr.rowNum = rowNum)
    (hmask : ctrl.fullMask ≠ 0) (hevents : ∀ e ∈ ctrl.events, e.Clear) :
    Inv columnNum rowNum (ctrl.newBlock rand) := by
  have hbase : (ctrl.newBlock rand).blk.base = spawnBase columnNum := by
    simp only [Ctrl.newBlock, hcolumns, spawnBase]
    rw [short_eq (by omega) (by omega)]
  refine ⟨hcolumns, hrows, hmask, ?_, .inr hbase, hevents⟩
  rw [hbase]
  simp only [spawnBase]
  omega

theorem Inv.fix (h : Inv columnNum rowNum ctrl) (hcol : 6 ≤ columnNum ∧ columnNum ≤ 31)
    (hrow : 5 ≤ rowNum) (hy : 0 < ctrl.blk.base.y) (rand : ℕ) :
    ∃ ctrl', ctrl.fixBlock = some ctrl' ∧ Inv columnNum rowNum (ctrl'.newBlock rand) := by
  have hfree : ctrl.scr.anyOccupied ctrl.blk.coors = false := by
    obtain hfree | hspawn := h.place
    · exact hfree
    · rw [hspawn] at hy
      exact absurd hy (lt_irrefl 0)
  have hnear : Near ctrl.blk := by
    have hbase := h.base
    constructor <;> omega
  obtain ⟨hclear, -⟩ := (anyOccupied_coors hnear).mp hfree
  obtain ⟨ctrl', hfix, hkept⟩ := fixBlock_total ctrl h.mask hfree
  refine ⟨ctrl', hfix, newBlock_inv hcol hrow rand (hkept.columns.trans h.columns)
    (hkept.rows.trans h.rows) (by rw [hkept.mask]; exact h.mask) fun e he => ?_⟩
  rw [hkept.events] at he
  obtain rfl | he := List.mem_cons.mp he
  · exact hclear
  · exact h.events e he

theorem Inv.descend (h : Inv columnNum rowNum ctrl) (hcol : columnNum ≤ 31)
    (hfree : ctrl.blocked = false) :
    Inv columnNum rowNum ctrl.descend ∧ ctrl.descend.blk.base.y = ctrl.blk.base.y + 1 := by
  have hnear := h.near 0 1 (by decide) (by decide)
  rw [blocked_eq] at hfree
  obtain ⟨-, hy⟩ := (anyOccupied_coors hnear).mp hfree
  obtain ⟨-, pos, hpos, hzero⟩ := blockMap_base ctrl.blk.type
  have hlow : ctrl.blk.base.y + 1 + pos.y < 32768 := hy _ (List.mem_map_of_mem hpos)
  have hself : Near ctrl.blk := by
    have hbase := h.base
    constructor <;> omega
  rw [descend_eq hself (by omega)]
  exact ⟨h.assign hcol hnear hfree, rfl⟩

theorem down_inv (h : Inv columnNum rowNum ctrl) (hcol : 6 ≤ columnNum ∧ columnNum ≤ 31)
    (hrow : 5 ≤ rowNum) (rand : ℕ) :
    ∃ r, ctrl.down rand = some r ∧ Inv columnNum rowNum r.2 := by
  simp only [Ctrl.down]
  split
  · split
    · next hy =>
      obtain ⟨ctrl', hfix, hinv⟩ := h.fix hcol hrow hy rand
      exact ⟨_, by rw [hfix]; rfl, hinv⟩
    · exact ⟨_, rfl, h⟩
  · next hfree => exact ⟨_, rfl, (h.descend hcol.2 (Bool.eq_false_iff.mpr hfree)).1⟩

theorem bottomLoop_inv (hcol : 6 ≤ columnNum ∧ columnNum ≤ 31) (hrow : 5 ≤ rowNum) (rand : ℕ)
    {fuel : ℕ} (h : Inv columnNum rowNum ctrl) (hfuel : (rowNum : ℤ) < ctrl.blk.base.y + fuel) :
    ∃ r, ctrl.bottomLoop rand fuel = some r ∧ Inv columnNum rowNum r.2 := by
  induction fuel generalizing ctrl with
  | zero =>
    have hbase := h.base
    omega
  | succ fuel ih =>
    simp only [Ctrl.bottomLoop]
    split
    · split
      · next hy =>
        obtain ⟨ctrl', hfix, hinv⟩ := h.fix hcol hrow hy rand
        exact ⟨_, by rw [hfix]; rfl, hinv⟩
      · exact ⟨_, rfl, h⟩
    · next hfree =>
      obtain ⟨hinv, hbase⟩ := h.descend hcol.2 (Bool.eq_false_iff.mpr hfree)
      exact ih hinv (by rw [hbase]; omega)

/-- A motion to the side and a turn do nothing, or take the block to a free place. -/
structure Shifted (ctrl ctrl' : Ctrl) : Prop where
  cases : ctrl' = ctrl ∨ ∃ blk, ctrl' = ctrl.assign blk ∧ Near blk ∧
    ctrl.scr.anyOccupied blk.coors = false

theorem Shifted.inv {ctrl' : Ctrl} (h : Shifted ctrl ctrl') (hcol : columnNum ≤ 31)
    (hinv : Inv columnNum rowNum ctrl) : Inv columnNum rowNum ctrl' := by
  obtain rfl | ⟨blk, rfl, hnear, hfree⟩ := h.cases
  · exact hinv
  · exact hinv.assign hcol hnear hfree

theorem sideways_shifted (h : Inv columnNum rowNum ctrl) (step : ℤ) (hstep : -1 ≤ step ∧ step ≤ 1) :
    Shifted ctrl (ctrl.sideways step).2 := by
  have hnear := h.near step 0 hstep (by decide)
  rw [sideways_eq hnear]
  split
  · exact ⟨.inl rfl⟩
  · next hfree => exact ⟨.inr ⟨_, rfl, hnear, Bool.eq_false_iff.mpr hfree⟩⟩

theorem turn_shifted (h : Inv columnNum rowNum ctrl) : Shifted ctrl ctrl.turn.2 := by
  simp only [Ctrl.turn]
  split
  · exact ⟨.inl rfl⟩
  split
  · exact ⟨.inl rfl⟩
  · next hfree =>
    have hbase := h.base
    have hnear : Near { ctrl.blk with type := Ctrl.newType ctrl.blk.type } := by
      constructor <;> dsimp only <;> omega
    exact ⟨.inr ⟨_, rfl, hnear, Bool.eq_false_iff.mpr hfree⟩⟩

/-! ## Games -/

theorem process_inv {job : Job} (hcol : 6 ≤ columnNum ∧ columnNum ≤ 31) (hrow : 5 ≤ rowNum)
    (h : Inv columnNum rowNum job.ctrl) (rand : ℕ) (msg : Msg) :
    ∃ job', job.process rand msg = some job' ∧ Inv columnNum rowNum job'.ctrl := by
  cases msg with
  | left => exact ⟨_, rfl, (sideways_shifted h (-1) (by decide)).inv hcol.2 h⟩
  | right => exact ⟨_, rfl, (sideways_shifted h 1 (by decide)).inv hcol.2 h⟩
  | turn => exact ⟨_, rfl, (turn_shifted h).inv hcol.2 h⟩
  | down =>
    simp only [Job.process]
    split
    · exact ⟨job, rfl, h⟩
    · obtain ⟨r, hrun, hinv⟩ := down_inv h hcol hrow rand
      exact ⟨_, by rw [hrun]; rfl, hinv⟩
  | bottom =>
    simp only [Job.process]
    split
    · exact ⟨job, rfl, h⟩
    · have hbase := h.base
      have hrows := h.rows
      obtain ⟨r, hrun, hinv⟩ := bottomLoop_inv hcol hrow rand h
        (show (rowNum : ℤ) < job.ctrl.blk.base.y + (job.ctrl.scr.rowNum + 1 : ℕ) by omega)
      exact ⟨_, by rw [Ctrl.bottom, hrun]; rfl, hinv⟩
  | auto => exact ⟨_, rfl, h.columns, h.rows, h.mask, h.base, h.place, h.events⟩
  | hold => exact ⟨_, rfl, h⟩
  | quit => exact ⟨_, rfl, h⟩

theorem fullMask_ne_zero {n : ℕ} (h : 0 < n) : (1#32 <<< n) - 1 ≠ 0 := by
  intro hzero
  have hbit := congrArg (fun line : Line => line.getLsbD 0) (sub_eq_zero.mp hzero)
  simp only [BitVec.getLsbD_shiftLeft] at hbit
  rw [decide_eq_true h] at hbit
  simp at hbit

theorem rbInit_inv (hcol : 6 ≤ columnNum ∧ columnNum ≤ 31) (hrow : 5 ≤ rowNum) (rand : ℕ) :
    Inv columnNum rowNum (rbInit columnNum rowNum rand) := by
  have hmin : min tetrisMaxColumn columnNum = columnNum :=
    min_eq_right (show columnNum ≤ 32 by omega)
  apply newBlock_inv hcol hrow rand hmin rfl
  · simp only [hmin]
    exact fullMask_ne_zero (by omega)
  · exact nofun

theorem reachable_inv (hcol : 6 ≤ columnNum ∧ columnNum ≤ 31) (hrow : 5 ≤ rowNum) {job : Job}
    (h : Reachable (tetris columnNum rowNum) (fun _ _ => True) job) :
    Inv columnNum rowNum job.ctrl := by
  apply h.invariant (I := fun job => Inv columnNum rowNum job.ctrl)
  · rintro job ⟨rand, rfl⟩
    exact rbInit_inv hcol hrow rand
  · rintro job a job' hinv - ⟨-, hstep⟩
    obtain ⟨job'', hrun, hinv'⟩ := process_inv hcol hrow hinv a.2 a.1
    obtain rfl := Option.some.inj (hstep.symm.trans hrun)
    exact hinv'

theorem Inv.clear_or_spawn (h : Inv columnNum rowNum ctrl) :
    Clear ctrl.scr ctrl.blk ∨ ctrl.blk.base = spawnBase columnNum := by
  have hbase := h.base
  have hnear : Near ctrl.blk := by constructor <;> omega
  exact h.place.imp_left fun hfree => ((anyOccupied_coors hnear).mp hfree).1

theorem Shifted.clear {ctrl' : Ctrl} (h : Shifted ctrl ctrl') :
    ctrl'.blk = ctrl.blk ∨ Clear ctrl'.scr ctrl'.blk := by
  obtain rfl | ⟨blk, rfl, hnear, hfree⟩ := h.cases
  · exact .inl rfl
  · exact .inr ((anyOccupied_coors hnear).mp hfree).1

theorem top_over (h : Inv columnNum rowNum ctrl) (hy : ctrl.blk.base.y = 0)
    (hbelow : ¬ Clear ctrl.scr (ctrl.blk.shift 0 1)) (rand : ℕ) :
    ctrl.down rand = some (.gameOver, ctrl) ∧ ctrl.bottom rand = some (.gameOver, ctrl) := by
  have hnear := h.near 0 1 (by decide) (by decide)
  have hblocked : ctrl.blocked = true := by
    rw [blocked_eq]
    by_contra hfree
    exact hbelow ((anyOccupied_coors hnear).mp (Bool.eq_false_iff.mpr hfree)).1
  have htop : ¬ ctrl.blk.base.y > 0 := by omega
  simp only [Ctrl.down, Ctrl.bottom, Ctrl.bottomLoop, hblocked, if_true, if_neg htop, and_self]

/-- Every motion and every fixing was at a free place. A new block that overlaps has not moved
from where it appeared; it leaves for a free place only, and while it cannot go down it is
the last. -/
theorem collision_free (hcol : 6 ≤ columnNum ∧ columnNum ≤ 31) (hrow : 5 ≤ rowNum) {job : Job}
    (h : Reachable (tetris columnNum rowNum) (fun _ _ => True) job) :
    (∀ e ∈ job.ctrl.events, e.Clear) ∧
    (¬ Clear job.ctrl.scr job.ctrl.blk →
      job.ctrl.blk.base = spawnBase columnNum ∧
      (∀ rand msg job', msg = .left ∨ msg = .right ∨ msg = .turn →
        job.process rand msg = some job' →
          job'.ctrl.blk = job.ctrl.blk ∨ Clear job'.ctrl.scr job'.ctrl.blk) ∧
      (job.holdOn = false → ¬ Clear job.ctrl.scr (job.ctrl.blk.shift 0 1) → ∀ rand,
        job.process rand .down = some { job with ended := true } ∧
        job.process rand .bottom = some { job with ended := true })) ∧
    ∀ rand msg, ∃ job', job.process rand msg = some job' := by
  have hinv := reachable_inv hcol hrow h
  refine ⟨hinv.events, fun hoverlap => ?_, fun rand msg => ?_⟩
  · have hspawn : job.ctrl.blk.base = spawnBase columnNum :=
      hinv.clear_or_spawn.resolve_left hoverlap
    refine ⟨hspawn, fun rand msg job' hmsg hrun => ?_, fun hhold hbelow rand => ?_⟩
    · obtain rfl | rfl | rfl := hmsg
      · obtain rfl := Option.some.inj hrun
        exact (sideways_shifted hinv (-1) (by decide)).clear
      · obtain rfl := Option.some.inj hrun
        exact (sideways_shifted hinv 1 (by decide)).clear
      · obtain rfl := Option.some.inj hrun
        exact (turn_shifted hinv).clear
    · obtain ⟨hdown, hbottom⟩ := top_over hinv (by rw [hspawn]; rfl) hbelow rand
      simp only [Job.process, hhold, Bool.false_eq_true, if_false, hdown, hbottom, Option.map_some,
        Job.after, decide_true, and_self]
  · obtain ⟨job', hrun, -⟩ := process_inv hcol hrow hinv rand msg
    exact ⟨job', hrun⟩

/-- Some messages, each with the value of `rand` that it meets. -/
def Job.play : List (Msg × ℕ) → Job → Option Job
  | [], job => some job
  | (msg, rand) :: rest, job =>
    if job.ended then none else (job.process rand msg).bind (Job.play rest)

theorem reachable_play {msgs : List (Msg × ℕ)} {job job' : Job}
    (h : Reachable (tetris columnNum rowNum) (fun _ _ => True) job)
    (hplay : job.play msgs = some job') :
    Reachable (tetris columnNum rowNum) (fun _ _ => True) job' := by
  induction msgs generalizing job with
  | nil =>
    obtain rfl := Option.some.inj hplay
    exact h
  | cons a msgs ih =>
    simp only [Job.play] at hplay
    split at hplay
    · cases hplay
    · next hover =>
      obtain ⟨job₁, hrun, hrest⟩ := Option.bind_eq_some_iff.mp hplay
      exact ih (h.step trivial (a := a) ⟨Bool.eq_false_iff.mpr hover, hrun⟩) hrest

/-- Two upright I blocks on the smallest screen: the first goes down by one line and is
fixed, the second appears on top of it. -/
theorem second_block : ∃ job,
    (⟨rbInit 6 5 1, false, false⟩ : Job).play [(.down, 1), (.down, 1)] = some job ∧
      job.ended = false ∧ ¬ Clear job.ctrl.scr job.ctrl.blk ∧
      (job.process 0 .left).any (fun job' => job'.ctrl.blk.base = ⟨1, 0⟩) = true := by
  have hfacts : ((⟨rbInit 6 5 1, false, false⟩ : Job).play [(.down, 1), (.down, 1)]).any (fun job =>
      !job.ended && !decide (Clear job.ctrl.scr job.ctrl.blk) &&
        (job.process 0 .left).any fun job' => job'.ctrl.blk.base = ⟨1, 0⟩) = true := by
    decide
  obtain ⟨job, hplay, hjob⟩ := (Option.any_eq_true _ _).mp hfacts
  simp only [Bool.and_eq_true, Bool.not_eq_true', decide_eq_false_iff_not] at hjob
  exact ⟨job, hplay, hjob.1.1, hjob.1.2, hjob.2⟩

theorem second_reachable {job : Job}
    (hplay : (⟨rbInit 6 5 1, false, false⟩ : Job).play [(.down, 1), (.down, 1)] = some job) :
    Reachable (tetris 6 5) (fun _ _ => True) job :=
  reachable_play (.init ⟨1, rfl⟩) hplay

/-- An overlapping block can move: beside the pile there is a free place. -/
theorem overlap_moves : ∃ job job' : Job, Reachable (tetris 6 5) (fun _ _ => True) job ∧
    job.ended = false ∧ ¬ Clear job.ctrl.scr job.ctrl.blk ∧ job.process 0 .left = some job' ∧
      job'.ctrl.blk.base ≠ job.ctrl.blk.base := by
  obtain ⟨job, hplay, hover, hoverlap, hleft⟩ := second_block
  have hreach := second_reachable hplay
  obtain ⟨job', hrun, hbase⟩ := (Option.any_eq_true _ _).mp hleft
  have hspawn : job.ctrl.blk.base = spawnBase 6 :=
    (reachable_inv (by decide) (by decide) hreach).clear_or_spawn.resolve_left hoverlap
  refine ⟨job, job', hreach, hover, hoverlap, hrun, ?_⟩
  rw [of_decide_eq_true hbase, hspawn]
  decide

theorem collision_free_second : ∃ job : Job, ¬ Clear job.ctrl.scr job.ctrl.blk ∧
    (∀ e ∈ job.ctrl.events, e.Clear) ∧ job.ctrl.blk.base = spawnBase 6 := by
  obtain ⟨job, hplay, -, hoverlap, -⟩ := second_block
  obtain ⟨hevents, hstay, -⟩ := collision_free (by decide) (by decide) (second_reachable hplay)
  exact ⟨job, hoverlap, hevents, (hstay hoverlap).1⟩

end DfewOS.Tetris
