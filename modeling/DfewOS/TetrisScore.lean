import DfewOS.TetrisAuto
import DfewOS.GridFall
import DfewOS.Counting

/-!
# The score of a placement in Tetris

The space below a block is how far it can fall, column by column: the gap between its
lowest node and the first node of the screen that is set. Scoring a placement restores the
screen.
-/

namespace DfewOS.Tetris
open GridFall

namespace Screen

variable {scr : Screen} {blk : Block}

def FreeCell (scr : Screen) (c : Coor) : Prop :=
  scr.Inside c ∧ bitVal (scr.scrMap c.y.toNat) c.x.toNat = false

theorem clear_shift_iff (k : ℤ) : Clear scr (blk.shift 0 k) ↔ Fits scr.FreeCell blk.coors k := by
  simp only [Clear, coors_shift, List.forall_mem_map, Fits, FreeCell, add_zero]

/-! ## The first line of a column that is set -/

/-- What `minY` says of a column when the lines before `n` have been looked at. -/
def Found (scr : Screen) (x n : ℕ) (minY : ℤ) : Prop :=
  (minY = scr.rowNum ∧ ∀ j < n, bitVal (scr.scrMap j) x = false) ∨
    ∃ j < n, minY = (j : ℤ) ∧ j < scr.rowNum ∧ bitVal (scr.scrMap j) x = true ∧
      ∀ i < j, bitVal (scr.scrMap i) x = false

theorem Found.succ {x n : ℕ} {minY : ℤ} (h : Found scr x n minY) (hn : n < scr.rowNum) :
    Found scr x (n + 1)
      (if minY = scr.rowNum ∧ bitVal (scr.scrMap n) x = true then n else minY) := by
  obtain ⟨hnone, hbefore⟩ | ⟨j, hj, hminY, hjrow, hset, hbefore⟩ := h
  · cases hbit : bitVal (scr.scrMap n) x with
    | true =>
      rw [if_pos ⟨hnone, rfl⟩]
      exact .inr ⟨n, Nat.lt_succ_self n, rfl, hn, hbit, hbefore⟩
    | false =>
      rw [if_neg fun hcon => nomatch hcon.2]
      refine .inl ⟨hnone, fun j hj => ?_⟩
      obtain hlt | rfl := Nat.lt_succ_iff_lt_or_eq.mp hj
      · exact hbefore j hlt
      · exact hbit
  · rw [if_neg (by omega)]
    exact .inr ⟨j, by omega, hminY, hjrow, hset, hbefore⟩

def missing (scr : Screen) (minY : ℤ → ℤ) (offsets : List ℤ) : ℕ :=
  offsets.countP fun o => minY o = (scr.rowNum : ℤ)

theorem missing_congr {minY minY' : ℤ → ℤ} {offsets : List ℤ}
    (h : ∀ o ∈ offsets, minY' o = minY o) : scr.missing minY' offsets = scr.missing minY offsets :=
  List.countP_congr fun o ho => by rw [h o ho]

theorem missing_cons (minY : ℤ → ℤ) (o : ℤ) (offsets : List ℤ) :
    scr.missing minY (o :: offsets) =
      scr.missing minY offsets + if minY o = scr.rowNum then 1 else 0 := by
  simp only [missing, List.countP_cons, decide_eq_true_eq]

theorem minYLine_spec (blk : Block) {i : ℕ} (hi : i < scr.rowNum) {offsets : List ℤ} (hnd : offsets.Nodup)
    (leftCol : ℤ) (minY : ℤ → ℤ) :
    ∃ minY' : ℤ → ℤ, scr.minYLine blk i offsets (leftCol, minY) =
        (leftCol - scr.missing minY offsets + scr.missing minY' offsets, minY') ∧
      (∀ o ∈ offsets, minY' o =
        if minY o = scr.rowNum ∧ bitVal (scr.scrMap i) (blk.base.x + o).toNat = true then (i : ℤ)
        else minY o) ∧
      ∀ o, o ∉ offsets → minY' o = minY o := by
  induction offsets generalizing leftCol minY with
  | nil =>
    refine ⟨minY, ?_, nofun, fun _ _ => rfl⟩
    rw [minYLine, sub_add_cancel]
  | cons o offsets ih =>
    obtain ⟨ho, hnd⟩ := List.nodup_cons.mp hnd
    by_cases hfind : minY o = scr.rowNum ∧ bitVal (scr.scrMap i) (blk.base.x + o).toNat = true
    · obtain ⟨minY', hrun, hin, hout⟩ := ih hnd (leftCol - 1) (Function.update minY o i)
      have hupd : ∀ o' ∈ offsets, Function.update minY o (i : ℤ) o' = minY o' := by
        intro o' ho'
        have hne : o' ≠ o := fun h => ho (h ▸ ho')
        rw [Function.update_of_ne hne]
      have hself : minY' o = i := by rw [hout o ho, Function.update_self]
      refine ⟨minY', ?_, fun o' ho' => ?_, fun o' ho' => ?_⟩
      · simp only [minYLine, hfind.1, ne_eq, not_true_eq_false, if_false, hfind.2, if_true, hrun]
        rw [missing_congr hupd, missing_cons, missing_cons, hself, if_pos hfind.1,
          if_neg (by omega)]
        congr 1
        omega
      · obtain rfl | htail := List.mem_cons.mp ho'
        · rw [hself, if_pos hfind]
        · rw [hin o' htail, hupd o' htail]
      · have hne : o' ≠ o := fun h => ho' (h ▸ List.mem_cons_self)
        rw [hout o' fun h => ho' (List.mem_cons_of_mem o h), Function.update_of_ne hne]
    · obtain ⟨minY', hrun, hin, hout⟩ := ih hnd leftCol minY
      have hself : minY' o = minY o := hout o ho
      refine ⟨minY', ?_, fun o' ho' => ?_, fun o' ho' => ?_⟩
      · have hskip : scr.minYLine blk i (o :: offsets) (leftCol, minY) =
            scr.minYLine blk i offsets (leftCol, minY) := by
          simp only [minYLine]
          split
          · rfl
          · next hnone => rw [if_neg fun hbit => hfind ⟨not_not.mp hnone, hbit⟩]
        rw [hskip, hrun, missing_cons, missing_cons, hself]
        congr 1
        omega
      · obtain rfl | htail := List.mem_cons.mp ho'
        · rw [hself, if_neg hfind]
        · exact hin o' htail
      · exact hout o' fun h => ho' (List.mem_cons_of_mem o h)

theorem minYLines_spec (blk : Block) {offsets : List ℤ} (hnd : offsets.Nodup) (n : ℕ) {i : ℕ}
    (hn : i + n = scr.rowNum) {leftCol : ℤ} {minY : ℤ → ℤ}
    (hleft : leftCol = scr.missing minY offsets)
    (hfound : ∀ o ∈ offsets, scr.Found (blk.base.x + o).toNat i (minY o)) :
    ∀ o ∈ offsets, scr.Found (blk.base.x + o).toNat scr.rowNum
      (scr.minYLines blk offsets n i (leftCol, minY) o) := by
  induction n generalizing i leftCol minY with
  | zero =>
    obtain rfl : i = scr.rowNum := hn
    exact hfound
  | succ n ih =>
    obtain ⟨minY', hrun, hin, -⟩ := minYLine_spec blk (show i < scr.rowNum by omega) hnd
      leftCol minY
    have hfound' : ∀ o ∈ offsets, scr.Found (blk.base.x + o).toNat (i + 1) (minY' o) := by
      intro o ho
      rw [hin o ho]
      exact (hfound o ho).succ (by omega)
    have hleft' : leftCol - scr.missing minY offsets + scr.missing minY' offsets =
        scr.missing minY' offsets := by omega
    simp only [minYLines, hrun, hleft']
    split
    · next hzero =>
      intro o ho
      obtain ⟨hnone, -⟩ | ⟨j, hj, hrest⟩ := hfound' o ho
      · have hall : scr.missing minY' offsets = 0 := by omega
        exact absurd (decide_eq_true hnone) (List.countP_eq_zero.mp hall o ho)
      · exact .inr ⟨j, by omega, hrest⟩
    · exact ih (by omega) rfl hfound'

/-! ## The gap of a column -/

theorem blockMap_columns (type : BlockType) :
    (∀ pos ∈ blockMap type, pos.x ∈ Int.range 0 (getTypeColumnNum type)) ∧
      (∀ o ∈ Int.range 0 (getTypeColumnNum type), ∃ pos ∈ blockMap type, pos.x = o) ∧
      1 ≤ getTypeColumnNum type ∧ getTypeColumnNum type ≤ 4 := by
  cases type <;> decide

theorem range_nodup (n : ℤ) : (Int.range 0 n).Nodup := by
  apply List.Nodup.map _ List.nodup_range
  intro a b h
  dsimp only at h
  omega

theorem maxY_fold (y o : ℤ) (nodes : List Coor) (maxY : ℤ → ℤ) :
    let maxY' := nodes.foldl
      (fun maxY pos => Function.update maxY pos.x (max (maxY pos.x) (y + pos.y))) maxY
    maxY o ≤ maxY' o ∧ (∀ pos ∈ nodes, pos.x = o → y + pos.y ≤ maxY' o) ∧
      (maxY' o = maxY o ∨ ∃ pos ∈ nodes, pos.x = o ∧ maxY' o = y + pos.y) := by
  induction nodes generalizing maxY with
  | nil => exact ⟨le_refl _, nofun, .inl rfl⟩
  | cons pos nodes ih =>
    obtain ⟨hle, hnodes, hmem⟩ := ih (Function.update maxY pos.x (max (maxY pos.x) (y + pos.y)))
    simp only [List.foldl_cons]
    by_cases hpos : o = pos.x
    · subst hpos
      rw [Function.update_self] at hle hmem
      refine ⟨(le_max_left _ _).trans hle, fun pos' hpos' hx => ?_, ?_⟩
      · obtain rfl | htail := List.mem_cons.mp hpos'
        · exact (le_max_right _ _).trans hle
        · exact hnodes pos' htail hx
      · obtain hsame | ⟨pos', hpos', hx, hmax⟩ := hmem
        · obtain hleft | hright := max_choice (maxY pos.x) (y + pos.y)
          · exact .inl (hsame.trans hleft)
          · exact .inr ⟨pos, List.mem_cons_self, rfl, hsame.trans hright⟩
        · exact .inr ⟨pos', List.mem_cons_of_mem pos hpos', hx, hmax⟩
    · rw [Function.update_of_ne hpos] at hle hmem
      refine ⟨hle, fun pos' hpos' hx => ?_, ?_⟩
      · obtain rfl | htail := List.mem_cons.mp hpos'
        · exact absurd hx.symm hpos
        · exact hnodes pos' htail hx
      · obtain hsame | ⟨pos', hpos', hx, hmax⟩ := hmem
        · exact .inl hsame
        · exact .inr ⟨pos', List.mem_cons_of_mem pos hpos', hx, hmax⟩

theorem blkMaxY_greatest (blk : Block) {o : ℤ} (ho : o ∈ Int.range 0 (getTypeColumnNum blk.type)) :
    IsGreatest {y | (⟨blk.base.x + o, y⟩ : Coor) ∈ blk.coors} (blkMaxY blk o) := by
  obtain ⟨-, hnodes, hmem⟩ := maxY_fold blk.base.y o (blockMap blk.type) fun _ => blk.base.y
  constructor
  · obtain hsame | ⟨pos, hpos, rfl, hmax⟩ := hmem
    · -- a column has a node, which is not above the base
      obtain ⟨pos, hpos, rfl⟩ := (blockMap_columns blk.type).2.1 o ho
      have hle := hnodes pos hpos rfl
      rw [hsame] at hle
      have hbounds := blockMap_bounds blk.type pos hpos
      have hcell : (⟨blk.base.x + pos.x, blk.base.y + pos.y⟩ : Coor) ∈ blk.coors :=
        List.mem_map_of_mem hpos
      rw [show blk.base.y + pos.y = blkMaxY blk pos.x by
        rw [blkMaxY, hsame]
        omega] at hcell
      exact hcell
    · have hcell : (⟨blk.base.x + pos.x, blk.base.y + pos.y⟩ : Coor) ∈ blk.coors :=
        List.mem_map_of_mem hpos
      rw [← hmax] at hcell
      exact hcell
  · rintro y hy
    obtain ⟨pos, hpos, heq⟩ := List.mem_map.mp hy
    obtain ⟨hx, rfl⟩ := GridPath.Cell.mk.inj heq
    exact hnodes pos hpos (by omega)

theorem minFold_spec (f : ℤ → ℤ) (offsets : List ℤ) (init : ℤ) :
    let r := offsets.foldl (fun space i => min space (f i)) init
    r ≤ init ∧ (∀ o ∈ offsets, r ≤ f o) ∧ (r = init ∨ ∃ o ∈ offsets, f o = r) := by
  induction offsets generalizing init with
  | nil => exact ⟨le_refl _, nofun, .inl rfl⟩
  | cons o offsets ih =>
    obtain ⟨hle, hrest, hmem⟩ := ih (min init (f o))
    simp only [List.foldl_cons]
    refine ⟨hle.trans (min_le_left _ _), fun o' ho' => ?_, ?_⟩
    · obtain rfl | htail := List.mem_cons.mp ho'
      · exact hle.trans (min_le_right _ _)
      · exact hrest o' htail
    · obtain hsame | ⟨o', ho', hmeets⟩ := hmem
      · obtain hleft | hright := min_choice init (f o)
        · exact .inl (hsame.trans hleft)
        · exact .inr ⟨o, List.mem_cons_self, (hsame.trans hright).symm⟩
      · exact .inr ⟨o', List.mem_cons_of_mem o ho', hmeets⟩

/-- The columns of the block are columns of the screen. -/
structure Aligned (scr : Screen) (blk : Block) : Prop where
  left : 0 ≤ blk.base.x
  right : blk.base.x + getTypeColumnNum blk.type ≤ scr.columnNum
  top : 0 ≤ blk.base.y

theorem Aligned.inside_x (h : Aligned scr blk) {c : Coor} (hc : c ∈ blk.coors) :
    0 ≤ c.x ∧ c.x < scr.columnNum := by
  obtain ⟨pos, hp, rfl⟩ := List.mem_map.mp hc
  have hx := Int.mem_range_iff.mp ((blockMap_columns blk.type).1 pos hp)
  have hleft := h.left
  have hright := h.right
  dsimp only
  omega

theorem Found.topped {x : ℤ} (hx : 0 ≤ x ∧ x < scr.columnNum) (top : ℤ → ℤ)
    (h : scr.Found x.toNat scr.rowNum (top x)) : Topped scr.FreeCell top 0 x := by
  obtain ⟨hnone, hbefore⟩ | ⟨j, hj, htop, -, hset, hbefore⟩ := h
  · constructor
    · intro y hy hlt
      rw [hnone] at hlt
      exact ⟨⟨hx, hy, hlt⟩, hbefore y.toNat (by omega)⟩
    · rintro ⟨⟨-, -, hlt⟩, -⟩
      rw [hnone] at hlt
      exact lt_irrefl _ hlt
  · constructor
    · intro y hy hlt
      rw [htop] at hlt
      exact ⟨⟨hx, hy, by dsimp only; omega⟩, hbefore y.toNat (by omega)⟩
    · rintro ⟨-, hfree⟩
      rw [htop] at hfree
      exact absurd (hset.symm.trans hfree) nofun

theorem Found.bounds {x : ℕ} {minY : ℤ} (h : scr.Found x scr.rowNum minY) :
    0 ≤ minY ∧ minY ≤ scr.rowNum := by
  obtain ⟨rfl, -⟩ | ⟨j, hj, rfl, -⟩ := h <;> omega

/-- The space below a block is the least gap between a node and the top of its column. -/
theorem minInterval_least (h : Aligned scr blk) :
    ∃ top : ℤ → ℤ, (∀ c ∈ blk.coors, Topped scr.FreeCell top 0 c.x ∧ 0 ≤ top c.x) ∧
      IsLeast (gaps top blk.coors) (scr.minIntervalBetweenBlkScr blk) := by
  obtain ⟨hcols, -, hnum, hnum'⟩ := blockMap_columns blk.type
  let offsets := Int.range 0 (getTypeColumnNum blk.type)
  let minY := scr.minYLines blk offsets scr.rowNum 0 (getTypeColumnNum blk.type, fun _ => scr.rowNum)
  have hall : scr.missing (fun _ => scr.rowNum) offsets = offsets.length :=
    List.countP_eq_length.mpr fun _ _ => decide_eq_true rfl
  have hlen : (offsets.length : ℤ) = getTypeColumnNum blk.type := by
    simp only [offsets, Int.range, List.length_map, List.length_range]
    omega
  have hfound : ∀ o ∈ offsets, scr.Found (blk.base.x + o).toNat scr.rowNum (minY o) :=
    minYLines_spec blk (range_nodup _) scr.rowNum (Nat.zero_add _) (by rw [hall, hlen])
      fun _ _ => .inl ⟨rfl, nofun⟩
  have hoff : ∀ c ∈ blk.coors, c.x - blk.base.x ∈ offsets := by
    intro c hc
    obtain ⟨pos, hpos, rfl⟩ := List.mem_map.mp hc
    rw [add_sub_cancel_left]
    exact hcols pos hpos
  have hcolumn : ∀ c ∈ blk.coors,
      scr.Found c.x.toNat scr.rowNum (minY (c.x - blk.base.x)) := by
    intro c hc
    have hf := hfound _ (hoff c hc)
    rwa [add_sub_cancel] at hf
  refine ⟨fun x => minY (x - blk.base.x), fun c hc => ⟨?_, (hcolumn c hc).bounds.1⟩, ?_⟩
  · have hx := Int.mem_range_iff.mp (hoff c hc)
    have hleft := h.left
    have hright := h.right
    exact Found.topped ⟨by omega, by omega⟩ (fun x => minY (x - blk.base.x)) (hcolumn c hc)
  · obtain ⟨hle, hleast, hmem⟩ := minFold_spec (fun i => minY i - blkMaxY blk i - 1) offsets scr.rowNum
    have hgap : IsLeast {g | ∃ o ∈ offsets, minY o - blkMaxY blk o - 1 = g}
        (scr.minIntervalBetweenBlkScr blk) := by
      refine ⟨?_, ?_⟩
      · obtain hnone | hsome := hmem
        · -- a node leaves less than all lines
          have hzero : (0 : ℤ) ∈ offsets := Int.mem_range_iff.mpr ⟨le_refl 0, by omega⟩
          have hlt := hleast 0 hzero
          have hbounds : 0 ≤ minY 0 ∧ minY 0 ≤ scr.rowNum := (hfound 0 hzero).bounds
          have hlow := coors_bounds (blkMaxY_greatest blk hzero).1
          have htop := h.top
          dsimp only at hlow hlt
          omega
        · exact hsome
      · rintro g ⟨o, ho, rfl⟩
        exact hleast o ho
    refine gaps_columns (offsets.map (blk.base.x + ·)) (fun x => blkMaxY blk (x - blk.base.x))
      ?_ ?_ ?_
    · intro c hc
      exact List.mem_map.mpr ⟨_, hoff c hc, by omega⟩
    · intro x hx
      obtain ⟨o, ho, rfl⟩ := List.mem_map.mp hx
      rw [add_sub_cancel_left]
      exact blkMaxY_greatest blk ho
    · convert hgap using 1
      ext g
      simp only [Set.mem_ofPred_eq, List.mem_map, exists_exists_and_eq_and, add_sub_cancel_left]

theorem minInterval_clear (h : Aligned scr blk) {k : ℤ} (hk : 0 ≤ k)
    (hle : k ≤ scr.minIntervalBetweenBlkScr blk) : Clear scr (blk.shift 0 k) := by
  obtain ⟨top, htop, hgap⟩ := minInterval_least h
  rw [clear_shift_iff]
  apply fits_of_le (fun c hc => (htop c hc).1) _ hgap hk hle
  intro c hc
  have hbounds := coors_bounds hc
  have := h.top
  omega

theorem minInterval_stops (h : Aligned scr blk) :
    ¬ Clear scr (blk.shift 0 (scr.minIntervalBetweenBlkScr blk + 1)) := by
  obtain ⟨top, htop, hgap⟩ := minInterval_least h
  rw [clear_shift_iff]
  exact not_fits (fun c hc => (htop c hc).1) hgap

theorem minInterval_pos (h : Aligned scr blk) (htop : blk.base.y = 0) {lines : ℕ}
    (hlines : lines ≤ scr.rowNum) (hempty : ∀ y < lines, scr.scrMap y = 0) :
    (lines : ℤ) - 4 ≤ scr.minIntervalBetweenBlkScr blk := by
  obtain ⟨top, hcols, ⟨c, hc, hmeets⟩, -⟩ := minInterval_least h
  obtain ⟨htopped, hpos⟩ := hcols c hc
  have hbounds := coors_bounds hc
  by_contra hless
  have hcol := h.inside_x hc
  have hfree : scr.FreeCell ⟨c.x, top c.x⟩ := by
    refine ⟨⟨hcol, hpos, by dsimp only; omega⟩, ?_⟩
    dsimp only
    rw [hempty (top c.x).toNat (by omega)]
    exact BitVec.getLsbD_zero
  exact htopped.stop hfree

/-! ## Setting and restoring -/

theorem bitVal_bitSet (line : Line) (p : ℕ) {x : ℕ} (hx : x < 32) :
    bitVal (bitSet line p) x = (bitVal line x || decide (x = p)) := by
  simp only [bitVal, bitSet, BitVec.getLsbD_or, BitVec.getLsbD_shiftLeft, hx, decide_true,
    Bool.true_and, BitVec.getLsbD_one]
  congr 1
  grind

theorem bitVal_bitClr (line : Line) (p : ℕ) {x : ℕ} (hx : x < 32) :
    bitVal (bitClr line p) x = (bitVal line x && !decide (x = p)) := by
  simp only [bitVal, bitClr, BitVec.getLsbD_and, BitVec.getLsbD_not, BitVec.getLsbD_shiftLeft, hx,
    decide_true, Bool.true_and, BitVec.getLsbD_one]
  congr 2
  grind

theorem ext_bits {scr' : Screen} (hcolumns : scr'.columnNum = scr.columnNum)
    (hrows : scr'.rowNum = scr.rowNum)
    (hbits : ∀ y x, x < 32 → bitVal (scr'.scrMap y) x = bitVal (scr.scrMap y) x) : scr' = scr := by
  obtain ⟨scrMap, columnNum, rowNum⟩ := scr
  obtain ⟨scrMap', columnNum', rowNum'⟩ := scr'
  obtain rfl : columnNum' = columnNum := hcolumns
  obtain rfl : rowNum' = rowNum := hrows
  have hmap : scrMap' = scrMap := by
    funext y
    exact BitVec.eq_of_getLsbD_eq (hbits y)
  rw [hmap]

structure Resized (scr scr' : Screen) (bits : ℕ → ℕ → Bool) : Prop where
  columns : scr'.columnNum = scr.columnNum
  rows : scr'.rowNum = scr.rowNum
  bit : ∀ y x, x < 32 → bitVal (scr'.scrMap y) x = bits y x

def isNode (coors : List Coor) (y x : ℕ) : Bool := coors.any fun c => c.y.toNat = y ∧ c.x.toNat = x

theorem setLine_bit {c : Coor} (line : Line) (y x : ℕ) :
    bitVal ((scr.setLine c.y.toNat line).scrMap y) x =
      if y = c.y.toNat then bitVal line x else bitVal (scr.scrMap y) x := by
  unfold setLine
  by_cases hy : y = c.y.toNat
  · simp only [hy, Function.update_self, if_true]
  · simp only [Function.update_of_ne hy, if_neg hy]

theorem freeCell_setLine {c c' : Coor} (hcol : scr.columnNum ≤ 32) (hc : scr.Inside c)
    (hc' : scr.FreeCell c') (hne : c' ≠ c) :
    (scr.setLine c.y.toNat (bitSet (scr.scrMap c.y.toNat) c.x.toNat)).FreeCell c' := by
  obtain ⟨hin, hfree⟩ := hc'
  refine ⟨hin, ?_⟩
  obtain ⟨⟨hx, hx'⟩, hy, -⟩ := hc
  obtain ⟨⟨hx₁, hx₁'⟩, hy₁, -⟩ := hin
  rw [setLine_bit]
  split_ifs with hline
  · rw [bitVal_bitSet _ _ (by omega), ← hline, hfree, Bool.false_or, decide_eq_false_iff_not]
    intro hcolumn
    exact hne (GridPath.Cell.ext (by omega) (by omega))
  · exact hfree

theorem setNodes_spec {coors : List Coor} (hin : ∀ c ∈ coors, scr.Inside c) (fullLine : ℕ) :
    ∃ fullLine' scr', scr.setNodes coors fullLine = some (fullLine', scr') ∧
      Resized scr scr' fun y x => bitVal (scr.scrMap y) x || isNode coors y x := by
  induction coors generalizing scr fullLine with
  | nil => exact ⟨fullLine, scr, rfl, rfl, rfl, fun y x _ => by simp [isNode]⟩
  | cons c coors ih =>
    simp only [setNodes, if_pos (hin c List.mem_cons_self)]
    let line := bitSet (scr.scrMap c.y.toNat) c.x.toNat
    have hin' : ∀ c' ∈ coors, (scr.setLine c.y.toNat line).Inside c' := fun c' hc' =>
      hin c' (List.mem_cons_of_mem c hc')
    obtain ⟨fullLine', scr', hrun, hres⟩ :=
      ih hin' (if line = scr.fullMask then fullLine + 1 else fullLine)
    refine ⟨fullLine', scr', hrun, hres.columns, hres.rows, fun y x hx => ?_⟩
    rw [hres.bit y x hx, setLine_bit]
    simp only [isNode, List.any_cons, line]
    split
    · next hy =>
      rw [bitVal_bitSet _ _ hx, hy]
      grind
    · next hy => grind

theorem clrNodes_spec {coors : List Coor} (hin : ∀ c ∈ coors, scr.Inside c) :
    ∃ scr', scr.clrNodes coors = some scr' ∧
      Resized scr scr' fun y x => bitVal (scr.scrMap y) x && !isNode coors y x := by
  induction coors generalizing scr with
  | nil => exact ⟨scr, rfl, rfl, rfl, fun y x _ => by simp [isNode]⟩
  | cons c coors ih =>
    simp only [clrNodes, if_pos (hin c List.mem_cons_self)]
    let line := bitClr (scr.scrMap c.y.toNat) c.x.toNat
    have hin' : ∀ c' ∈ coors, (scr.setLine c.y.toNat line).Inside c' := fun c' hc' =>
      hin c' (List.mem_cons_of_mem c hc')
    obtain ⟨scr', hrun, hres⟩ := ih hin'
    refine ⟨scr', hrun, hres.columns, hres.rows, fun y x hx => ?_⟩
    rw [hres.bit y x hx, setLine_bit]
    simp only [isNode, List.any_cons, line]
    split
    · next hy =>
      rw [bitVal_bitClr _ _ hx, hy]
      grind
    · next hy => grind

theorem holesInLines_bounds (scr : Screen) (col : ℕ) (lines : List ℕ) (cover : Bool) (holeNum : ℤ) :
    holeNum ≤ scr.holesInLines col lines cover holeNum ∧
      scr.holesInLines col lines cover holeNum ≤ holeNum + lines.length := by
  induction lines generalizing cover holeNum with
  | nil => simp [holesInLines]
  | cons i lines ih =>
    simp only [holesInLines, List.length_cons, Nat.cast_add, Nat.cast_one]
    split
    · split
      · have := ih true holeNum
        omega
      · have hhole : 0 ≤ (if cover = true then 1 else 0 : ℤ) ∧
            (if cover = true then 1 else 0 : ℤ) ≤ 1 := by cases cover <;> decide
        have := ih cover (holeNum + if cover = true then 1 else 0)
        omega
    · have := ih cover holeNum
      omega

theorem calAllHolesInScr_bounds (scr : Screen) :
    0 ≤ scr.calAllHolesInScr ∧ scr.calAllHolesInScr ≤ scr.columnNum * scr.rowNum := by
  have hfold : ∀ (cols : List ℕ) (holeNum : ℤ),
      let r := cols.foldl (fun holeNum i => holeNum + scr.calHolesInOneColumn i) holeNum
      holeNum ≤ r ∧ r ≤ holeNum + cols.length * scr.rowNum := by
    intro cols
    induction cols with
    | nil => simp
    | cons i cols ih =>
      intro holeNum
      have hcol := holesInLines_bounds scr i (List.range scr.rowNum) false 0
      rw [List.length_range] at hcol
      have hrest := ih (holeNum + scr.calHolesInOneColumn i)
      unfold calHolesInOneColumn at *
      simp only [List.foldl_cons, List.length_cons, Nat.cast_add, Nat.cast_one, add_mul, one_mul]
      omega
  have h := hfold (List.range scr.columnNum) 0
  rw [List.length_range, zero_add] at h
  exact h

theorem scoreMap_nonneg (n : ℕ) : 0 ≤ scoreMap.getD n 0 := by
  rw [List.getD_eq_getElem?_getD]
  cases h : scoreMap[n]? with
  | none => exact le_refl 0
  | some score =>
    have hall : ∀ score ∈ scoreMap, 0 ≤ score := by decide
    exact hall score (List.mem_of_getElem? h)

/-- Scoring a placement sets four empty nodes and restores them; a placement with space below
it has a score above the least integer. -/
theorem getScore_spec (h : Aligned scr blk) (hspace : 0 ≤ scr.minIntervalBetweenBlkScr blk) :
    ∃ score, scr.getScore blk = some (score, scr) ∧
      (scr.columnNum ≤ 31 → scr.rowNum ≤ 65536 → intMin < score) := by
  let space := scr.minIntervalBetweenBlkScr blk
  have hclear := minInterval_clear h hspace (le_refl space)
  rw [clear_shift_iff] at hclear
  let coors : List Coor := blk.coors.map fun c => ⟨c.x, c.y + space⟩
  have hfree : ∀ c ∈ coors, scr.FreeCell c := by
    intro c hc
    obtain ⟨c', hc', rfl⟩ := List.mem_map.mp hc
    exact hclear c' hc'
  obtain ⟨fullLine, scr₁, hset, hres⟩ := setNodes_spec (fun c hc => (hfree c hc).1) 0
  have hin₁ : ∀ c ∈ coors, scr₁.Inside c := by
    intro c hc
    have hin := (hfree c hc).1
    unfold Inside at *
    rwa [hres.columns, hres.rows]
  obtain ⟨scr₂, hclr, hres'⟩ := clrNodes_spec hin₁
  have hsame : scr₂ = scr := by
    apply ext_bits (hres'.columns.trans hres.columns) (hres'.rows.trans hres.rows)
    intro y x hx
    rw [hres'.bit y x hx, hres.bit y x hx]
    cases hnode : isNode coors y x with
    | false => simp
    | true =>
      obtain ⟨c, hc, hcell⟩ := List.any_eq_true.mp hnode
      obtain ⟨rfl, rfl⟩ := of_decide_eq_true hcell
      simpa using (hfree c hc).2
  have hneg : ¬ scr.minIntervalBetweenBlkScr blk < 0 := not_lt.mpr hspace
  simp only [getScore, if_neg hneg]
  have hset' : scr.setNodes (blk.coors.map fun c => ⟨c.x, c.y + scr.minIntervalBetweenBlkScr blk⟩) 0 =
      some (fullLine, scr₁) := hset
  have hclr' : scr₁.clrNodes (blk.coors.map fun c => ⟨c.x, c.y + scr.minIntervalBetweenBlkScr blk⟩) =
      some scr₂ := hclr
  rw [hset', Option.bind_some]
  dsimp only
  rw [hclr', Option.map_some, hsame]
  refine ⟨_, rfl, fun hcolumns hrows => ?_⟩
  have hholes := calAllHolesInScr_bounds scr
  have hholes₁ := calAllHolesInScr_bounds scr₁
  have hproduct : (scr₁.columnNum * scr₁.rowNum : ℤ) ≤ 31 * 65536 := by
    rw [hres.columns, hres.rows]
    have := Nat.mul_le_mul hcolumns hrows
    omega
  have hheight : scr₁.getHeight ≤ 65536 := by
    have hrows₁ := hres.rows
    unfold getHeight
    omega
  have hscore := scoreMap_nonneg fullLine
  have hdanger : 0 ≤ dangeriousHeight scr₁.rowNum := by
    unfold dangeriousHeight
    omega
  have hleast : intMin = -2147483648 := by decide
  split <;> omega

end Screen

end DfewOS.Tetris
