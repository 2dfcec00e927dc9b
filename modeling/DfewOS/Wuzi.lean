import Mathlib.Data.List.Flatten
import Mathlib.Data.List.Nodup
import Mathlib.Data.Int.Notation
import Mathlib.Data.Nat.Notation

/-!
# Wuzi Qi

The board of wuzi.c and the counters it keeps for each of the 572 ways to have five in a
row, with `wuzi_start` and `_put_a_chessman` as the source has them.
-/

namespace DfewOS.Wuzi

abbrev rowNum : ℕ := 15
abbrev colNum : ℕ := 15
abbrev chessmanMax : ℕ := rowNum * colNum
abbrev winCaseNum : ℕ := rowNum * (colNum - 4) + (rowNum - 4) * colNum +
  (rowNum - 4) * (colNum - 4) + (rowNum - 4) * (colNum - 4)
abbrev winNever : ℕ := 6

inductive Chessman
  | white
  | black
  deriving DecidableEq

/-- `1 - chessman` -/
def Chessman.other : Chessman → Chessman
  | white => black
  | black => white

@[simp] theorem Chessman.other_other (p : Chessman) : p.other.other = p := by
  cases p <;> rfl

theorem Chessman.other_ne (p : Chessman) : p.other ≠ p := by
  cases p <;> exact nofun

theorem Chessman.eq_or_other (p q : Chessman) : q = p ∨ q = p.other := by
  cases p <;> cases q <;> simp [other]

/-- `win p` is the number of the chessman itself: `WUZI_WHITE_WIN` or `WUZI_BLACK_WIN`. -/
inductive Status
  | win (p : Chessman)
  | dogfall
  | goAhead
  | nonlegal
  deriving DecidableEq

abbrev Cell := ℕ × ℕ
/-- `none` is `CHESSMAN_NONE`. -/
abbrev Board := Cell → Option Chessman
abbrev WinCaseTable := Cell → ℕ → Bool
abbrev OccupyNum := Chessman → ℕ → ℕ

/-- `_G_win_case_table[row][col][i] = 1` -/
def WinCaseTable.set (t : WinCaseTable) (c : Cell) (i : ℕ) : WinCaseTable :=
  fun c' i' => if c' = c ∧ i' = i then true else t c' i'

def OccupyNum.set (o : OccupyNum) (p : Chessman) (i n : ℕ) : OccupyNum :=
  fun p' i' => if p' = p ∧ i' = i then n else o p' i'

def Board.put (b : Board) (c : Cell) (p : Chessman) : Board :=
  fun c' => if c' = c then some p else b c'

structure Game where
  chessmanNum : ℕ
  chessboard : Board
  occupyNum : OccupyNum
  winCaseTable : WinCaseTable
  initialized : Bool

/-- The globals before the first `wuzi_start`. -/
def boot : Game := ⟨0, fun _ => none, fun _ _ => 0, fun _ _ => false, false⟩

def winCase (cell : ℕ → Cell) : List Cell := (List.range 5).map cell

/-- The inner loop of `wuzi_start` and the step of `win_case_index`. -/
def markWinCase (s : WinCaseTable × ℕ) (cell : ℕ → Cell) : WinCaseTable × ℕ :=
  ((List.range 5).foldl (fun t i => t.set (cell i) s.2) s.1, s.2 + 1)

def initWinCaseTable (t : WinCaseTable) : WinCaseTable :=
  let s : WinCaseTable × ℕ := (t, 0)
  let s := (List.range rowNum).foldl (fun s row =>
    (List.range (colNum - 4)).foldl (fun s col =>
      markWinCase s fun i => (row, col + i)) s) s
  let s := (List.range colNum).foldl (fun s col =>
    (List.range (rowNum - 4)).foldl (fun s row =>
      markWinCase s fun i => (row + i, col)) s) s
  let s := (List.range (rowNum - 4)).foldl (fun s row =>
    (List.range (colNum - 4)).foldl (fun s col =>
      markWinCase s fun i => (row + i, col + i)) s) s
  -- the columns run from the last down to 4
  let s := (List.range (rowNum - 4)).foldl (fun s row =>
    (List.range' 4 (colNum - 4)).reverse.foldl (fun s col =>
      markWinCase s fun i => (row + i, col - i)) s) s
  s.1

def wuziStart (g : Game) : Game :=
  let g := { g with
    chessmanNum := 0
    chessboard := fun _ => none
    occupyNum := fun _ _ => 0 }
  if g.initialized then g
  else { g with winCaseTable := initWinCaseTable g.winCaseTable, initialized := true }

/-- The loop over the ways to win; `true` if it returned at a fifth chessman. -/
def occupy (t : WinCaseTable) (p : Chessman) (c : Cell) : List ℕ → OccupyNum → OccupyNum × Bool
  | [], o => (o, false)
  | i :: is, o =>
    if t c i then
      if o p i ≠ winNever then
        let o := o.set p i (o p i + 1)
        if o p i = 5 then (o, true)
        else occupy t p c is (o.set p.other i winNever)
      else occupy t p c is (o.set p.other i winNever)
    else occupy t p c is o

def putAChessman (g : Game) (p : Chessman) (row col : ℤ) : Status × Game :=
  if row ≥ rowNum ∨ col ≥ colNum ∨ row < 0 ∨ col < 0 then (.nonlegal, g)
  else
    let c : Cell := (row.toNat, col.toNat)
    if g.chessboard c ≠ none then (.nonlegal, g)
    else
      let (o, won) := occupy g.winCaseTable p c (List.range winCaseNum) g.occupyNum
      if won then (.win p, { g with occupyNum := o })
      else
        let g := { g with
          occupyNum := o
          chessmanNum := g.chessmanNum + 1
          chessboard := g.chessboard.put c p }
        if g.chessmanNum = chessmanMax then (.dogfall, g) else (.goAhead, g)

def wuziWhiteDo (g : Game) (row col : ℤ) : Status × Game := putAChessman g .white row col

def wuziBlackDo (g : Game) (row col : ℤ) : Status × Game := putAChessman g .black row col

/-! ## The ways to win -/

def winCaseCells : List (ℕ → Cell) :=
  ((List.range rowNum).flatMap fun row => (List.range (colNum - 4)).map fun col i =>
    (row, col + i)) ++
  ((List.range colNum).flatMap fun col => (List.range (rowNum - 4)).map fun row i =>
    (row + i, col)) ++
  ((List.range (rowNum - 4)).flatMap fun row => (List.range (colNum - 4)).map fun col i =>
    (row + i, col + i)) ++
  ((List.range (rowNum - 4)).flatMap fun row => (List.range' 4 (colNum - 4)).reverse.map
    fun col i => (row + i, col - i))

def winCases : List (List Cell) := winCaseCells.map winCase

theorem winCases_length : winCases.length = winCaseNum := by
  simp only [winCases, winCaseCells, List.length_map, List.length_append, List.length_flatMap,
    List.length_range, List.length_reverse, List.length_range', List.map_const',
    List.sum_replicate_nat]
  rfl

/-- Five cells of the board next to each other in a row, a column or a diagonal. -/
def FiveInARow (cells : List Cell) : Prop :=
  ∃ row col : ℕ, row < rowNum ∧ col < colNum ∧
    ((col + 4 < colNum ∧ cells = winCase fun i => (row, col + i)) ∨
     (row + 4 < rowNum ∧ cells = winCase fun i => (row + i, col)) ∨
     (row + 4 < rowNum ∧ col + 4 < colNum ∧ cells = winCase fun i => (row + i, col + i)) ∨
     (row + 4 < rowNum ∧ 4 ≤ col ∧ cells = winCase fun i => (row + i, col - i)))

theorem mem_winCases {cells : List Cell} : cells ∈ winCases ↔ FiveInARow cells := by
  simp only [winCases, winCaseCells, List.map_append, List.map_flatMap, List.map_map,
    List.mem_append, List.mem_flatMap, List.mem_map, List.mem_range, List.mem_reverse,
    List.mem_range'_1, Function.comp_apply]
  constructor
  · rintro (((⟨row, hrow, col, hcol, rfl⟩ | ⟨col, hcol, row, hrow, rfl⟩) |
      ⟨row, hrow, col, hcol, rfl⟩) | ⟨row, hrow, col, hcol, rfl⟩)
    · exact ⟨row, col, hrow, by omega, .inl ⟨by omega, rfl⟩⟩
    · exact ⟨row, col, by omega, hcol, .inr (.inl ⟨by omega, rfl⟩)⟩
    · exact ⟨row, col, by omega, by omega, .inr (.inr (.inl ⟨by omega, by omega, rfl⟩))⟩
    · exact ⟨row, col, by omega, by omega, .inr (.inr (.inr ⟨by omega, by omega, rfl⟩))⟩
  · rintro ⟨row, col, hrow, hcol, ⟨h, rfl⟩ | ⟨h, rfl⟩ | ⟨h, h', rfl⟩ | ⟨h, h', rfl⟩⟩
    · exact .inl (.inl (.inl ⟨row, hrow, col, by omega, rfl⟩))
    · exact .inl (.inl (.inr ⟨col, hcol, row, by omega, rfl⟩))
    · exact .inl (.inr ⟨row, by omega, col, by omega, rfl⟩)
    · exact .inr ⟨row, by omega, col, by omega, rfl⟩

theorem FiveInARow.length {cells : List Cell} (h : FiveInARow cells) : cells.length = 5 := by
  obtain ⟨row, col, -, -, ⟨-, rfl⟩ | ⟨-, rfl⟩ | ⟨-, -, rfl⟩ | ⟨-, -, rfl⟩⟩ := h <;> rfl

theorem FiveInARow.nodup {cells : List Cell} (h : FiveInARow cells) : cells.Nodup := by
  have hcell : ∀ cell : ℕ → Cell, (∀ i < 5, ∀ j < 5, cell i = cell j → i = j) →
      (winCase cell).Nodup := by
    intro cell hinj
    refine List.Nodup.map_on ?_ List.nodup_range
    intro i hi j hj heq
    exact hinj i (List.mem_range.mp hi) j (List.mem_range.mp hj) heq
  obtain ⟨row, col, -, -, ⟨-, rfl⟩ | ⟨-, rfl⟩ | ⟨-, -, rfl⟩ | ⟨-, -, rfl⟩⟩ := h
  all_goals
    apply hcell
    intro i hi j hj heq
    have := Prod.mk.inj heq
    omega

def lineCells (k : ℕ) : List Cell := winCases.getD k []

theorem lineCells_fiveInARow {k : ℕ} (hk : k < winCaseNum) : FiveInARow (lineCells k) := by
  rw [← winCases_length] at hk
  unfold lineCells
  rw [List.getD_eq_getElem?_getD, List.getElem?_eq_getElem hk]
  exact mem_winCases.mp (List.getElem_mem hk)

/-! ## The table -/

theorem markWinCase_apply (s : WinCaseTable × ℕ) (cell : ℕ → Cell) (c : Cell) (k : ℕ) :
    (markWinCase s cell).1 c k = (s.1 c k || (decide (k = s.2) && decide (c ∈ winCase cell))) := by
  have hloop : ∀ (l : List ℕ) (t : WinCaseTable),
      (l.foldl (fun t i => t.set (cell i) s.2) t) c k =
        (t c k || (decide (k = s.2) && decide (c ∈ l.map cell))) := by
    intro l
    induction l with
    | nil => simp
    | cons i l ih =>
      intro t
      rw [List.foldl_cons, ih]
      simp only [WinCaseTable.set, List.map_cons, List.mem_cons]
      by_cases hk : k = s.2 <;> by_cases hc : c = cell i <;> simp [hk, hc]
  exact hloop _ _

theorem markWinCases_apply (cells : List (ℕ → Cell)) (s : WinCaseTable × ℕ) (c : Cell) (k : ℕ) :
    (cells.foldl markWinCase s).1 c k =
      (s.1 c k || (decide (s.2 ≤ k) && decide (c ∈ (cells.map winCase).getD (k - s.2) []))) := by
  induction cells generalizing s with
  | nil => simp
  | cons cell cells ih =>
    rw [List.foldl_cons, ih, markWinCase_apply]
    have hnext : (markWinCase s cell).2 = s.2 + 1 := rfl
    rw [hnext, List.map_cons]
    obtain hlt | rfl | hgt := Nat.lt_trichotomy k s.2
    · simp [show ¬ s.2 + 1 ≤ k by omega, show ¬ s.2 ≤ k by omega, show k ≠ s.2 by omega]
    · simp [show ¬ s.2 + 1 ≤ s.2 by omega]
    · obtain ⟨d, hd⟩ : ∃ d, k - s.2 = d + 1 := ⟨k - s.2 - 1, by omega⟩
      have hd' : k - (s.2 + 1) = d := by omega
      simp [hd, hd', show s.2 + 1 ≤ k by omega, show s.2 ≤ k by omega, show k ≠ s.2 by omega]

theorem initWinCaseTable_eq (t : WinCaseTable) :
    initWinCaseTable t = (winCaseCells.foldl markWinCase (t, 0)).1 := by
  simp only [initWinCaseTable, winCaseCells, List.foldl_append, List.foldl_flatMap,
    List.foldl_map]

theorem initWinCaseTable_apply (c : Cell) (k : ℕ) :
    initWinCaseTable (fun _ _ => false) c k = decide (c ∈ lineCells k) := by
  rw [initWinCaseTable_eq, markWinCases_apply]
  simp [lineCells, winCases]

end DfewOS.Wuzi
