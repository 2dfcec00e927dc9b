import DfewOS.TetrisScore
import DfewOS.Watched

/-!
# The lines that get_score visits

`get_score` and the functions it calls once more, reporting each line of the screen that is
read or written and each cell that is set. Their values are those of `TetrisAuto`
(`getScore_value`). All loops stay between the first line and the last, and the block is
dropped on empty cells only, so that clearing them restores the screen.
-/

namespace DfewOS.Tetris

/-- What is reported: an access to `scr_map[y]`, and the setting of a cell with what its bit
was. -/
inductive Access
  | line (y : ℤ)
  | set (c : Coor) (old : Bool)

abbrev Visiting := Watched Access

namespace Visiting
open Watched (report ofOption Always always_report)

/-! ## The code -/

/-- `scr->scr_map[i]` -/
def line (scr : Screen) (i : ℕ) : Visiting Line := report (.line i) (scr.scrMap i)

def minYLine (scr : Screen) (blk : Block) (i : ℕ) : List ℤ → ℤ × (ℤ → ℤ) → Visiting (ℤ × (ℤ → ℤ))
  | [], st => return st
  | offset :: offsets, (leftCol, minY) =>
    if minY offset ≠ scr.rowNum then minYLine scr blk i offsets (leftCol, minY)
    else do
      let val ← line scr i
      if bitVal val (blk.base.x + offset).toNat then
        minYLine scr blk i offsets (leftCol - 1, Function.update minY offset i)
      else minYLine scr blk i offsets (leftCol, minY)

def minYLines (scr : Screen) (blk : Block) (offsets : List ℤ) :
    ℕ → ℕ → ℤ × (ℤ → ℤ) → Visiting (ℤ → ℤ)
  | 0, _, (_, minY) => return minY
  | n + 1, i, st => do
    let (leftCol, minY) ← minYLine scr blk i offsets st
    if leftCol = 0 then return minY else minYLines scr blk offsets n (i + 1) (leftCol, minY)

def minIntervalBetweenBlkScr (scr : Screen) (blk : Block) : Visiting ℤ := do
  let blockColNum := getTypeColumnNum blk.type
  let offsets := Int.range 0 blockColNum
  let maxY := Screen.blkMaxY blk
  let minY ← minYLines scr blk offsets scr.rowNum 0 (blockColNum, fun _ => scr.rowNum)
  return offsets.foldl (fun space i => min space (minY i - maxY i - 1)) scr.rowNum

def holesInLines (scr : Screen) (col : ℕ) : List ℕ → Bool → ℤ → Visiting ℤ
  | [], _, holeNum => return holeNum
  | i :: lines, cover, holeNum => do
    let val ← line scr i
    if val ≠ scr.fullMask then do
      let val ← line scr i
      if bitVal val col then holesInLines scr col lines true holeNum
      else holesInLines scr col lines cover (holeNum + if cover then 1 else 0)
    else holesInLines scr col lines cover holeNum

def calHolesInOneColumn (scr : Screen) (col : ℕ) : Visiting ℤ :=
  holesInLines scr col (List.range scr.rowNum) false 0

def holesInColumns (scr : Screen) : List ℕ → ℤ → Visiting ℤ
  | [], holeNum => return holeNum
  | i :: cols, holeNum => do
    let holes ← calHolesInOneColumn scr i
    holesInColumns scr cols (holeNum + holes)

def calAllHolesInScr (scr : Screen) : Visiting ℤ := holesInColumns scr (List.range scr.columnNum) 0

def firstLine (scr : Screen) : ℕ → ℕ → Visiting ℕ
  | 0, i => return i
  | n + 1, i => do
    let val ← line scr i
    if val = 0 then firstLine scr n (i + 1) else return i

def getHeight (scr : Screen) : Visiting ℤ := do
  let i ← firstLine scr scr.rowNum 0
  return scr.rowNum - i

def nodeLine (scr : Screen) (c : Coor) : Visiting Line := do
  report (.line c.y) ()
  ofOption (if scr.Inside c then some (scr.scrMap c.y.toNat) else none)

def setNodes : List Coor → ℕ → Screen → Visiting (ℕ × Screen)
  | [], fullLine, scr => return (fullLine, scr)
  | c :: coors, fullLine, scr => do
    let val ← nodeLine scr c
    report (.set c (bitVal val c.x.toNat)) ()
    let line := bitSet val c.x.toNat
    let fullLine := if line = scr.fullMask then fullLine + 1 else fullLine
    setNodes coors fullLine (scr.setLine c.y.toNat line)

def clrNodes : List Coor → Screen → Visiting Screen
  | [], scr => return scr
  | c :: coors, scr => do
    let val ← nodeLine scr c
    clrNodes coors (scr.setLine c.y.toNat (bitClr val c.x.toNat))

def getScore (blk : Block) (scr : Screen) : Visiting (ℤ × Screen) := do
  let holeNum ← calAllHolesInScr scr
  let spaceToBottom ← minIntervalBetweenBlkScr scr blk
  if spaceToBottom < 0 then return (intMin, scr)
  else do
    let coors := blk.coors.map fun c => ⟨c.x, c.y + spaceToBottom⟩
    let (fullLine, scr) ← setNodes coors 0 scr
    let score := scoreMap.getD fullLine 0
    let score := score + spaceToBottom * 2
    let h ← getHeight scr
    let height := h - fullLine
    let score :=
      if height > Screen.dangeriousHeight scr.rowNum then
        score - (height - Screen.dangeriousHeight scr.rowNum) * 2
      else score
    let holes ← calAllHolesInScr scr
    let holeNum := holes - holeNum
    let score := score - holeNum * 5
    let scr ← clrNodes coors scr
    return (score, scr)

/-! ## The values -/

section Value
variable (scr : Screen) (blk : Block)

theorem line_value (i : ℕ) : (line scr i).value = some (scr.scrMap i) := rfl

theorem minYLine_value (i : ℕ) (offsets : List ℤ) (st : ℤ × (ℤ → ℤ)) :
    (minYLine scr blk i offsets st).value = some (scr.minYLine blk i offsets st) := by
  induction offsets generalizing st with
  | nil => rfl
  | cons offset offsets ih =>
    obtain ⟨leftCol, minY⟩ := st
    rw [minYLine, Screen.minYLine]
    split_ifs with hfound hset
    · exact ih _
    · rw [Watched.value_bind, line_value, Option.bind_some, if_pos hset]
      exact ih _
    · rw [Watched.value_bind, line_value, Option.bind_some, if_neg hset]
      exact ih _

theorem minYLines_value (offsets : List ℤ) (n i : ℕ) (st : ℤ × (ℤ → ℤ)) :
    (minYLines scr blk offsets n i st).value = some (scr.minYLines blk offsets n i st) := by
  induction n generalizing i st with
  | zero => rfl
  | succ n ih =>
    rw [minYLines, Screen.minYLines, Watched.value_bind, minYLine_value, Option.bind_some]
    dsimp only
    split_ifs
    · rfl
    · exact ih _ _

theorem minInterval_value :
    (minIntervalBetweenBlkScr scr blk).value = some (scr.minIntervalBetweenBlkScr blk) := by
  simp only [minIntervalBetweenBlkScr, Screen.minIntervalBetweenBlkScr, Watched.value_bind,
    minYLines_value, Option.bind_some, Watched.value_pure]

theorem holesInLines_value (col : ℕ) (lines : List ℕ) (cover : Bool) (holeNum : ℤ) :
    (holesInLines scr col lines cover holeNum).value =
      some (scr.holesInLines col lines cover holeNum) := by
  induction lines generalizing cover holeNum with
  | nil => rfl
  | cons i lines ih =>
    rw [holesInLines, Screen.holesInLines, Watched.value_bind, line_value, Option.bind_some]
    by_cases hfull : scr.scrMap i ≠ scr.fullMask
    · rw [if_pos hfull, if_pos hfull, Watched.value_bind, line_value, Option.bind_some]
      by_cases hset : bitVal (scr.scrMap i) col = true
      · rw [if_pos hset, if_pos hset]
        exact ih _ _
      · rw [if_neg hset, if_neg hset]
        exact ih _ _
    · rw [if_neg hfull, if_neg hfull]
      exact ih _ _

theorem holesInColumns_value (cols : List ℕ) (holeNum : ℤ) : (holesInColumns scr cols holeNum).value =
    some (cols.foldl (fun holeNum i => holeNum + scr.calHolesInOneColumn i) holeNum) := by
  induction cols generalizing holeNum with
  | nil => rfl
  | cons i cols ih =>
    rw [holesInColumns, Watched.value_bind, calHolesInOneColumn, holesInLines_value, Option.bind_some]
    exact ih _

theorem calAllHoles_value : (calAllHolesInScr scr).value = some scr.calAllHolesInScr :=
  holesInColumns_value scr _ 0

theorem firstLine_value (n i : ℕ) : (firstLine scr n i).value = some (scr.firstLine n i) := by
  induction n generalizing i with
  | zero => rfl
  | succ n ih =>
    rw [firstLine, Screen.firstLine, Watched.value_bind, line_value, Option.bind_some]
    split_ifs
    · exact ih _
    · rfl

theorem getHeight_value : (getHeight scr).value = some scr.getHeight := by
  rw [getHeight, Watched.value_bind, firstLine_value, Option.bind_some]
  rfl

theorem setNodes_value (coors : List Coor) (fullLine : ℕ) :
    (setNodes coors fullLine scr).value = scr.setNodes coors fullLine := by
  induction coors generalizing scr fullLine with
  | nil => rfl
  | cons c coors ih =>
    simp only [setNodes, nodeLine, Screen.setNodes, Watched.value_bind, Watched.value_report,
      Watched.value_ofOption, Option.bind_some]
    by_cases hin : scr.Inside c
    · simp only [if_pos hin, Option.bind_some, ih]
    · simp only [if_neg hin]
      rfl

theorem clrNodes_value (coors : List Coor) : (clrNodes coors scr).value = scr.clrNodes coors := by
  induction coors generalizing scr with
  | nil => rfl
  | cons c coors ih =>
    simp only [clrNodes, nodeLine, Screen.clrNodes, Watched.value_bind, Watched.value_report,
      Watched.value_ofOption, Option.bind_some]
    split_ifs
    · simp only [Option.bind_some, ih]
    · rfl

theorem getScore_value : (getScore blk scr).value = scr.getScore blk := by
  rw [getScore, Screen.getScore, Watched.value_bind, calAllHoles_value, Option.bind_some,
    Watched.value_bind, minInterval_value, Option.bind_some]
  dsimp only
  split_ifs with hspace
  · rfl
  · rw [Watched.value_bind, setNodes_value]
    cases scr.setNodes (blk.coors.map fun c => ⟨c.x, c.y + scr.minIntervalBetweenBlkScr blk⟩) 0 with
    | none => rfl
    | some r =>
      simp only [Option.bind_some, Watched.value_bind, getHeight_value, calAllHoles_value,
        clrNodes_value, Watched.value_pure]
      cases r.2.clrNodes (blk.coors.map fun c => ⟨c.x, c.y + scr.minIntervalBetweenBlkScr blk⟩) <;> rfl

end Value

/-! ## The lines -/

/-- A line of a screen with `rows` lines, or a cell that was empty. -/
def Proper (rows : ℕ) : Access → Prop
  | .line y => 0 ≤ y ∧ y < rows
  | .set _ old => old = false

section Lines
variable {scr : Screen} {rows : ℕ}

theorem line_always {i : ℕ} (hi : i < rows) : (line scr i).Always (Proper rows) :=
  always_report.mpr ⟨Int.natCast_nonneg i, Int.ofNat_lt.mpr hi⟩

theorem minYLine_always (blk : Block) {i : ℕ} (hi : i < rows) (offsets : List ℤ) (st : ℤ × (ℤ → ℤ)) :
    (minYLine scr blk i offsets st).Always (Proper rows) := by
  induction offsets generalizing st with
  | nil => exact Always.pure st
  | cons offset offsets ih =>
    obtain ⟨leftCol, minY⟩ := st
    rw [minYLine]
    split_ifs with hfound
    · exact ih _
    · refine (line_always hi).bind fun val _ => ?_
      split_ifs
      · exact ih _
      · exact ih _

theorem minYLines_always (blk : Block) (offsets : List ℤ) {n i : ℕ} (hrows : i + n ≤ rows)
    (st : ℤ × (ℤ → ℤ)) : (minYLines scr blk offsets n i st).Always (Proper rows) := by
  induction n generalizing i st with
  | zero => exact Always.pure st.2
  | succ n ih =>
    refine (minYLine_always blk (by omega) offsets st).bind fun r _ => ?_
    dsimp only
    split_ifs
    · exact Always.pure r.2
    · exact ih (by omega) _

theorem minInterval_always (blk : Block) :
    (minIntervalBetweenBlkScr scr blk).Always (Proper scr.rowNum) :=
  (minYLines_always blk _ (Nat.zero_add _).le _).bind fun _ _ => Always.pure _

theorem holesInLines_always (col : ℕ) {lines : List ℕ} (hlines : ∀ i ∈ lines, i < rows) (cover : Bool)
    (holeNum : ℤ) : (holesInLines scr col lines cover holeNum).Always (Proper rows) := by
  induction lines generalizing cover holeNum with
  | nil => exact Always.pure holeNum
  | cons i lines ih =>
    have hline : (line scr i).Always (Proper rows) := line_always (hlines i List.mem_cons_self)
    have hrest := ih fun j hj => hlines j (List.mem_cons_of_mem i hj)
    refine hline.bind fun val _ => ?_
    by_cases hfull : val ≠ scr.fullMask
    · rw [if_pos hfull]
      refine hline.bind fun val _ => ?_
      by_cases hset : bitVal val col = true
      · rw [if_pos hset]
        exact hrest _ _
      · rw [if_neg hset]
        exact hrest _ _
    · rw [if_neg hfull]
      exact hrest _ _

theorem holesInColumns_always (cols : List ℕ) (holeNum : ℤ) :
    (holesInColumns scr cols holeNum).Always (Proper scr.rowNum) := by
  induction cols generalizing holeNum with
  | nil => exact Always.pure holeNum
  | cons i cols ih =>
    exact (holesInLines_always i (fun j hj => List.mem_range.mp hj) false 0).bind fun holes _ => ih _

theorem firstLine_always {n i : ℕ} (hrows : i + n ≤ rows) : (firstLine scr n i).Always (Proper rows) := by
  induction n generalizing i with
  | zero => exact Always.pure i
  | succ n ih =>
    refine (line_always (by omega)).bind fun val _ => ?_
    split_ifs
    · exact ih (by omega)
    · exact Always.pure i

theorem getHeight_always : (getHeight scr).Always (Proper scr.rowNum) :=
  (firstLine_always (Nat.zero_add _).le).bind fun _ _ => Always.pure _

theorem nodeLine_always {c : Coor} (hc : scr.Inside c) : (nodeLine scr c).Always (Proper scr.rowNum) := by
  refine Always.bind (always_report.mpr ⟨hc.2.1, hc.2.2⟩) fun _ _ => ?_
  exact Always.ofOption _

theorem nodeLine_value {c : Coor} (hc : scr.Inside c) :
    (nodeLine scr c).value = some (scr.scrMap c.y.toNat) := by
  rw [nodeLine, Watched.value_bind, Watched.value_report, Option.bind_some, Watched.value_ofOption,
    if_pos hc]

theorem clrNodes_always {coors : List Coor} (hin : ∀ c ∈ coors, scr.Inside c) :
    (clrNodes coors scr).Always (Proper scr.rowNum) := by
  induction coors generalizing scr with
  | nil => exact Always.pure scr
  | cons c coors ih =>
    refine (nodeLine_always (hin c List.mem_cons_self)).bind fun val _ => ?_
    have hrest : ∀ c' ∈ coors, (scr.setLine c.y.toNat (bitClr val c.x.toNat)).Inside c' :=
      fun c' hc' => hin c' (List.mem_cons_of_mem c hc')
    exact ih hrest

theorem setNodes_always {coors : List Coor} (hcol : scr.columnNum ≤ 32) (hnd : coors.Nodup)
    (hfree : ∀ c ∈ coors, scr.FreeCell c) (fullLine : ℕ) :
    (setNodes coors fullLine scr).Always (Proper scr.rowNum) := by
  induction coors generalizing scr fullLine with
  | nil => exact Always.pure (fullLine, scr)
  | cons c coors ih =>
    obtain ⟨hnot, hnd⟩ := List.nodup_cons.mp hnd
    obtain ⟨hin, hempty⟩ := hfree c List.mem_cons_self
    refine (nodeLine_always hin).bind fun val hval => ?_
    obtain rfl : scr.scrMap c.y.toNat = val := Option.some.inj ((nodeLine_value hin).symm.trans hval)
    refine Always.bind (always_report.mpr hempty) fun _ _ => ?_
    have hrest : ∀ c' ∈ coors, (scr.setLine c.y.toNat
        (bitSet (scr.scrMap c.y.toNat) c.x.toNat)).FreeCell c' := fun c' hc' =>
      Screen.freeCell_setLine hcol hin (hfree c' (List.mem_cons_of_mem c hc')) fun heq => hnot (heq ▸ hc')
    refine ih ?_ hnd hrest _
    exact hcol

end Lines

theorem dropped_nodup (blk : Block) (k : ℤ) : (blk.coors.map fun c => (⟨c.x, c.y + k⟩ : Coor)).Nodup := by
  rw [Block.coors, List.map_map]
  refine (List.nodup_map_iff_inj_on (blockMap_nodup blk.type)).mpr fun pos _ pos' _ heq => ?_
  have hx := congrArg GridPath.Cell.x heq
  have hy := congrArg GridPath.Cell.y heq
  dsimp only [Function.comp_apply] at hx hy
  exact GridPath.Cell.ext (by omega) (by omega)

theorem dropped_free {scr : Screen} {blk : Block} (h : scr.Aligned blk)
    (hspace : 0 ≤ scr.minIntervalBetweenBlkScr blk) :
    ∀ c ∈ blk.coors.map fun c => (⟨c.x, c.y + scr.minIntervalBetweenBlkScr blk⟩ : Coor), scr.FreeCell c := by
  have hclear := Screen.minInterval_clear h hspace (le_refl _)
  rw [Screen.clear_shift_iff] at hclear
  intro c hc
  obtain ⟨c', hc', rfl⟩ := List.mem_map.mp hc
  exact hclear c' hc'

theorem getScore_always {scr : Screen} {blk : Block} (hcol : scr.columnNum ≤ 32) (h : scr.Aligned blk) :
    (getScore blk scr).Always (Proper scr.rowNum) := by
  have hholes : ∀ scr : Screen, (calAllHolesInScr scr).Always (Proper scr.rowNum) :=
    fun scr => holesInColumns_always _ 0
  refine (hholes scr).bind fun holeNum _ => ?_
  refine (minInterval_always blk).bind fun space hspace => ?_
  obtain rfl : scr.minIntervalBetweenBlkScr blk = space :=
    Option.some.inj ((minInterval_value scr blk).symm.trans hspace)
  split_ifs with hneg
  · exact Always.pure _
  · have hfree := dropped_free h (not_lt.mp hneg)
    refine (setNodes_always hcol (dropped_nodup blk _) hfree 0).bind fun r hr => ?_
    rw [setNodes_value] at hr
    obtain ⟨fullLine, scr₁, hset, hres⟩ := Screen.setNodes_spec (fun c hc => (hfree c hc).1) 0
    obtain rfl : (fullLine, scr₁) = r := Option.some.inj (hset.symm.trans hr)
    have hin : ∀ c ∈ blk.coors.map fun c => (⟨c.x, c.y + scr.minIntervalBetweenBlkScr blk⟩ : Coor),
        scr₁.Inside c := by
      intro c hc
      have hc := (hfree c hc).1
      unfold Screen.Inside at *
      rwa [hres.columns, hres.rows]
    dsimp only
    rw [← hres.rows]
    refine getHeight_always.bind fun height _ => ?_
    refine (hholes scr₁).bind fun holes _ => ?_
    exact (clrNodes_always hin).bind fun _ _ => Always.pure _

end Visiting

/-- Scoring leaves the screen as it was, visits its lines only and sets empty cells only. -/
theorem score_untouched {scr : Screen} {blk : Block} (hcol : scr.columnNum ≤ 31)
    (h : scr.Aligned blk) :
    (∃ score, (Visiting.getScore blk scr).value = some (score, scr)) ∧
      (Visiting.getScore blk scr).Always (Visiting.Proper scr.rowNum) := by
  refine ⟨?_, Visiting.getScore_always (by omega) h⟩
  rw [Visiting.getScore_value]
  by_cases hspace : 0 ≤ scr.minIntervalBetweenBlkScr blk
  · obtain ⟨score, hrun, -⟩ := Screen.getScore_spec h hspace
    exact ⟨score, hrun⟩
  · exact ⟨intMin, by simp only [Screen.getScore, if_pos (not_le.mp hspace)]⟩

/-- Two rows with gaps at the bottom, and a column that is two cells higher than they are. -/
def pileScreen : Screen := ⟨fun row => if row < 16 then 0 else if row < 18 then 0x80 else 0x1e7, 10, 20⟩

theorem score_untouched_pile :
    (∃ score, (Visiting.getScore ⟨⟨6, 0⟩, .s0⟩ pileScreen).value = some (score, pileScreen)) ∧
      (Visiting.getScore ⟨⟨6, 0⟩, .s0⟩ pileScreen).Always (Visiting.Proper 20) :=
  score_untouched (by decide) ⟨by decide, by decide, by decide⟩

end DfewOS.Tetris
