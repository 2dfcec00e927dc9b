import DfewOS.Wuzi
import Mathlib.Data.List.Induction

/-!
# The counters of Wuzi Qi

A direct account of a play: the board is what the accepted moves put on it. The game
keeps it, and the counters agree with it, as long as no move has won; the winning move
itself is found, but not put down.
-/

namespace DfewOS.Wuzi

structure Move where
  chessman : Chessman
  row : ℤ
  col : ℤ

structure Play where
  board : Board
  accepted : ℕ

namespace Play

def start : Play := ⟨fun _ => none, 0⟩

def Legal (p : Play) (m : Move) : Prop :=
  0 ≤ m.row ∧ m.row < rowNum ∧ 0 ≤ m.col ∧ m.col < colNum ∧
    p.board (m.row.toNat, m.col.toNat) = none

instance (p : Play) (m : Move) : Decidable (p.Legal m) := by
  unfold Legal
  infer_instance

def move (p : Play) (m : Move) : Play :=
  if p.Legal m then
    ⟨p.board.put (m.row.toNat, m.col.toNat) m.chessman, p.accepted + 1⟩
  else p

def moves (p : Play) (ms : List Move) : Play := ms.foldl move p

/-- Some five in a row that the move lies on holds the mover's chessmen only. -/
def Completes (p : Play) (m : Move) : Prop :=
  p.Legal m ∧ ∃ cells, FiveInARow cells ∧ (m.row.toNat, m.col.toNat) ∈ cells ∧
    ∀ c ∈ cells, (p.move m).board c = some m.chessman

end Play

/-- How often a chessman stands on the line, unless the other side does too. -/
def occupancy (b : Board) (p : Chessman) (cells : List Cell) : ℕ :=
  if ∃ c ∈ cells, b c = some p.other then winNever else cells.countP fun c => b c = some p

structure Bookkept (g : Game) (p : Play) : Prop where
  chessboard : g.chessboard = p.board
  chessmanNum : g.chessmanNum = p.accepted
  occupyNum : ∀ q, ∀ k < winCaseNum, g.occupyNum q k = occupancy p.board q (lineCells k)

@[simp] theorem set_apply (o : OccupyNum) (p q : Chessman) (i k n : ℕ) :
    o.set p i n q k = if q = p ∧ k = i then n else o q k := rfl

/-! ## The loop over the ways to win -/

/-- What one round of the loop leaves in the counters of its index. -/
def occupied (o : OccupyNum) (p : Chessman) : OccupyNum := fun q k =>
  if q = p then if o p k = winNever then winNever else o p k + 1 else winNever

theorem occupy_won (t : WinCaseTable) (p : Chessman) (c : Cell) {is : List ℕ} (hnd : is.Nodup)
    (o : OccupyNum) : (occupy t p c is o).2 = true ↔ ∃ i ∈ is, t c i = true ∧ o p i = 4 := by
  induction is generalizing o with
  | nil => simp [occupy]
  | cons i is ih =>
    obtain ⟨hi, hnd⟩ := List.nodup_cons.mp hnd
    -- a later index is not touched by this round
    have hkeep : ∀ o' : OccupyNum, (∀ k, k ≠ i → o' p k = o p k) →
        ((∃ j ∈ is, t c j = true ∧ o' p j = 4) ↔ ∃ j ∈ is, t c j = true ∧ o p j = 4) := by
      intro o' ho'
      have hne : ∀ j ∈ is, o' p j = o p j := fun j hj => ho' j fun h => hi (h ▸ hj)
      constructor
      · rintro ⟨j, hj, ht, ho⟩
        exact ⟨j, hj, ht, by rw [← hne j hj, ho]⟩
      · rintro ⟨j, hj, ht, ho⟩
        exact ⟨j, hj, ht, by rw [hne j hj, ho]⟩
    simp only [occupy, List.mem_cons, exists_eq_or_imp]
    split
    · next ht =>
      split
      · simp only [set_apply, and_self, if_true]
        split
        · next hfive =>
          have hfour : o p i = 4 := by omega
          simp [ht, hfour]
        · next hfive =>
          have hfour : o p i ≠ 4 := by omega
          rw [ih hnd, hkeep]
          · simp [hfour]
          · intro k hk
            simp [hk]
      · next hnever =>
        have hfour : o p i ≠ 4 := by
          rw [not_not.mp hnever]
          decide
        rw [ih hnd, hkeep]
        · simp [hfour]
        · intro k hk
          simp [hk]
    · next ht => simp [ih hnd, ht]

theorem occupy_kept (t : WinCaseTable) (p : Chessman) (c : Cell) {is : List ℕ} (hnd : is.Nodup)
    (o : OccupyNum) (h : (occupy t p c is o).2 = false) (q : Chessman) (k : ℕ) :
    (occupy t p c is o).1 q k = if k ∈ is ∧ t c k = true then occupied o p q k else o q k := by
  induction is generalizing o with
  | nil => simp [occupy]
  | cons i is ih =>
    obtain ⟨hi, hnd⟩ := List.nodup_cons.mp hnd
    have hq : q = p ∨ q = p.other := p.eq_or_other q
    have hne := p.other_ne
    have hne' := p.other_ne.symm
    simp only [occupy] at h ⊢
    by_cases ht : t c i = true
    · simp only [ht, if_true] at h ⊢
      by_cases hnever : o p i = winNever
      · simp only [hnever, ne_eq, not_true_eq_false, if_false] at h ⊢
        rw [ih hnd _ h]
        by_cases hk : k = i
        · subst hk
          obtain rfl | rfl := hq <;> simp [hi, ht, occupied, hnever, hne, hne']
        · obtain rfl | rfl := hq <;> simp [hk, occupied, hne, hne']
      · simp only [hnever, ne_eq, not_false_eq_true, if_true, set_apply, and_self] at h ⊢
        by_cases hfive : o p i + 1 = 5
        · simp [hfive] at h
        · simp only [hfive, if_false] at h ⊢
          rw [ih hnd _ h]
          by_cases hk : k = i
          · subst hk
            obtain rfl | rfl := hq <;> simp [hi, ht, occupied, hnever, hne, hne']
          · obtain rfl | rfl := hq <;> simp [hk, occupied, hne, hne']
    · simp only [ht, if_false, Bool.false_eq_true] at h ⊢
      rw [ih hnd _ h]
      by_cases hk : k = i
      · subst hk
        simp [hi, ht]
      · simp [hk]

/-! ## One line and one more chessman -/

section Line

variable {b : Board} {p : Chessman} {c : Cell} {cells : List Cell}

theorem put_self : b.put c p c = some p := if_pos rfl

theorem put_of_ne {c' : Cell} (h : c' ≠ c) : b.put c p c' = b c' := if_neg h

theorem put_congr (h : c ∉ cells) {c' : Cell} (hc' : c' ∈ cells) : b.put c p c' = b c' :=
  put_of_ne fun heq => h (heq ▸ hc')

theorem occupancy_put_notMem (h : c ∉ cells) (q : Chessman) :
    occupancy (b.put c p) q cells = occupancy b q cells := by
  unfold occupancy
  have hopp : (∃ c' ∈ cells, b.put c p c' = some q.other) ↔ ∃ c' ∈ cells, b c' = some q.other := by
    constructor
    · rintro ⟨c', hmem, hc'⟩
      exact ⟨c', hmem, by rwa [put_congr h hmem] at hc'⟩
    · rintro ⟨c', hmem, hc'⟩
      exact ⟨c', hmem, by rwa [put_congr h hmem]⟩
  have hcount : cells.countP (fun c' => b.put c p c' = some q) =
      cells.countP fun c' => b c' = some q := by
    apply List.countP_congr
    intro c' hmem
    rw [put_congr h hmem]
  rw [if_congr hopp rfl rfl, hcount]

theorem occupancy_put_other (h : c ∈ cells) : occupancy (b.put c p) p.other cells = winNever := by
  unfold occupancy
  rw [if_pos ⟨c, h, by rw [p.other_other, put_self]⟩]

theorem countP_put (hnd : cells.Nodup) (hmem : c ∈ cells) (hfree : b c = none) :
    cells.countP (fun c' => b.put c p c' = some p) =
      cells.countP (fun c' => b c' = some p) + 1 := by
  induction cells with
  | nil => cases hmem
  | cons d cells ih =>
    obtain ⟨hd, hnd⟩ := List.nodup_cons.mp hnd
    obtain rfl | htail := List.mem_cons.mp hmem
    · have hrest : cells.countP (fun c' => b.put c p c' = some p) =
          cells.countP fun c' => b c' = some p := by
        apply List.countP_congr
        intro c' hc'
        rw [put_congr hd hc']
      rw [List.countP_cons_of_pos (by simp [put_self]),
        List.countP_cons_of_neg (by simp [hfree]), hrest]
    · have hne : d ≠ c := by
        rintro rfl
        exact hd htail
      rw [List.countP_cons, List.countP_cons, ih hnd htail, put_of_ne hne]
      omega

theorem occupancy_eq_never (hlen : cells.length = 5) :
    occupancy b p cells = winNever ↔ ∃ c' ∈ cells, b c' = some p.other := by
  unfold occupancy
  split
  · next h => exact iff_of_true rfl h
  · next h =>
    refine iff_of_false ?_ h
    have hle := List.countP_le_length (p := fun c' => decide (b c' = some p)) (l := cells)
    have hsix : winNever = 6 := rfl
    omega

theorem occupancy_put_self (hlen : cells.length = 5) (hnd : cells.Nodup) (hmem : c ∈ cells)
    (hfree : b c = none) : occupancy (b.put c p) p cells =
      if occupancy b p cells = winNever then winNever else occupancy b p cells + 1 := by
  have hopp : (∃ c' ∈ cells, b.put c p c' = some p.other) ↔ ∃ c' ∈ cells, b c' = some p.other := by
    constructor
    · rintro ⟨c', hc', h⟩
      by_cases heq : c' = c
      · rw [heq, put_self] at h
        exact absurd (Option.some.inj h).symm p.other_ne
      · exact ⟨c', hc', by rwa [put_of_ne heq] at h⟩
    · rintro ⟨c', hc', h⟩
      have heq : c' ≠ c := by
        rintro rfl
        simp [hfree] at h
      exact ⟨c', hc', by rwa [put_of_ne heq]⟩
  by_cases h : ∃ c' ∈ cells, b c' = some p.other
  · rw [if_pos ((occupancy_eq_never hlen).mpr h)]
    exact (occupancy_eq_never hlen).mpr (hopp.mpr h)
  · rw [if_neg (mt (occupancy_eq_never hlen).mp h)]
    unfold occupancy
    rw [if_neg (mt hopp.mp h), if_neg h, countP_put hnd hmem hfree]

theorem occupancy_four (hlen : cells.length = 5) (hnd : cells.Nodup) (hmem : c ∈ cells)
    (hfree : b c = none) :
    occupancy b p cells = 4 ↔ ∀ c' ∈ cells, b.put c p c' = some p := by
  have hcount := countP_put (p := p) hnd hmem hfree
  have hall : (∀ c' ∈ cells, b.put c p c' = some p) ↔
      cells.countP (fun c' => b c' = some p) = 4 := by
    rw [show (∀ c' ∈ cells, b.put c p c' = some p) ↔
      cells.countP (fun c' => b.put c p c' = some p) = cells.length by
        rw [List.countP_eq_length]
        simp, hlen]
    omega
  rw [hall]
  unfold occupancy
  split
  · next hopp =>
    -- a chessman of the other side on the line leaves at most three of these
    obtain ⟨c', hc', h⟩ := hopp
    refine iff_of_false (by decide) ?_
    intro hfour
    have hfull := (hall.mpr hfour) c' hc'
    have hne : c' ≠ c := by
      rintro rfl
      simp [hfree] at h
    rw [put_of_ne hne, h] at hfull
    exact p.other_ne (Option.some.inj hfull)
  · exact Iff.rfl

end Line

/-! ## One move -/

def TableOk (g : Game) : Prop :=
  if g.initialized then ∀ c k, g.winCaseTable c k = decide (c ∈ lineCells k)
  else g.winCaseTable = fun _ _ => false

def Game.move (g : Game) (m : Move) : Status × Game :=
  match m.chessman with
  | .white => wuziWhiteDo g m.row m.col
  | .black => wuziBlackDo g m.row m.col

theorem Game.move_eq (g : Game) (m : Move) :
    g.move m = putAChessman g m.chessman m.row m.col := by
  obtain ⟨chessman, row, col⟩ := m
  cases chessman <;> rfl

structure InPlay (g : Game) (p : Play) : Prop extends Bookkept g p where
  table : ∀ c k, g.winCaseTable c k = decide (c ∈ lineCells k)

section Move

variable {g : Game} {p : Play} {m : Move}

theorem move_not_legal (h : InPlay g p) (hm : ¬ p.Legal m) : g.move m = (.nonlegal, g) := by
  rw [Game.move_eq, putAChessman]
  split
  · rfl
  · dsimp only
    split
    · rfl
    · next hin hfree =>
      rw [h.chessboard] at hfree
      exact absurd ⟨by omega, by omega, by omega, by omega, not_not.mp hfree⟩ hm

theorem move_legal (h : InPlay g p) (hm : p.Legal m) :
    g.move m =
      let c := (m.row.toNat, m.col.toNat)
      let r := occupy g.winCaseTable m.chessman c (List.range winCaseNum) g.occupyNum
      if r.2 then (.win m.chessman, { g with occupyNum := r.1 })
      else
        let g' : Game := { g with
          occupyNum := r.1
          chessmanNum := g.chessmanNum + 1
          chessboard := g.chessboard.put c m.chessman }
        if g'.chessmanNum = chessmanMax then (.dogfall, g') else (.goAhead, g') := by
  obtain ⟨hr, hr', hc, hc', hfree⟩ := hm
  rw [Game.move_eq, putAChessman, if_neg (by omega), h.chessboard]
  simp only [hfree, ne_eq, not_true_eq_false, if_false]

theorem occupy_won_iff (h : InPlay g p) (hm : p.Legal m) :
    (occupy g.winCaseTable m.chessman (m.row.toNat, m.col.toNat) (List.range winCaseNum)
      g.occupyNum).2 = true ↔ p.Completes m := by
  rw [occupy_won _ _ _ List.nodup_range]
  have hboard : (p.move m).board = p.board.put (m.row.toNat, m.col.toNat) m.chessman := by
    rw [Play.move, if_pos hm]
  have hfree : p.board (m.row.toNat, m.col.toNat) = none := hm.2.2.2.2
  unfold Play.Completes
  rw [hboard]
  simp only [List.mem_range, h.table, decide_eq_true_eq, hm, true_and]
  constructor
  · rintro ⟨k, hk, hmem, hfour⟩
    have hline := lineCells_fiveInARow hk
    rw [h.occupyNum m.chessman k hk, occupancy_four hline.length hline.nodup hmem hfree] at hfour
    exact ⟨lineCells k, hline, hmem, hfour⟩
  · rintro ⟨cells, hline, hmem, hfull⟩
    obtain ⟨k, hk, rfl⟩ := List.getElem_of_mem (mem_winCases.mpr hline)
    have hcells : lineCells k = winCases[k] := by
      unfold lineCells
      rw [List.getD_eq_getElem?_getD, List.getElem?_eq_getElem hk]
      rfl
    rw [winCases_length] at hk
    rw [← hcells] at hline hmem hfull
    refine ⟨k, hk, hmem, ?_⟩
    rw [h.occupyNum m.chessman k hk, occupancy_four hline.length hline.nodup hmem hfree]
    exact hfull

theorem occupy_bookkept (h : InPlay g p) (hm : p.Legal m)
    (hwon : (occupy g.winCaseTable m.chessman (m.row.toNat, m.col.toNat)
      (List.range winCaseNum) g.occupyNum).2 = false) (q : Chessman) (k : ℕ)
    (hk : k < winCaseNum) :
    (occupy g.winCaseTable m.chessman (m.row.toNat, m.col.toNat) (List.range winCaseNum)
      g.occupyNum).1 q k =
      occupancy (p.board.put (m.row.toNat, m.col.toNat) m.chessman) q (lineCells k) := by
  have hline := lineCells_fiveInARow hk
  have hfree : p.board (m.row.toNat, m.col.toNat) = none := hm.2.2.2.2
  rw [occupy_kept _ _ _ List.nodup_range _ hwon]
  simp only [List.mem_range, hk, h.table, decide_eq_true_eq, true_and]
  by_cases hmem : (m.row.toNat, m.col.toNat) ∈ lineCells k
  · rw [if_pos hmem]
    unfold occupied
    obtain rfl | rfl := m.chessman.eq_or_other q
    · rw [if_pos rfl, h.occupyNum m.chessman k hk,
        occupancy_put_self hline.length hline.nodup hmem hfree]
    · rw [if_neg m.chessman.other_ne, occupancy_put_other hmem]
  · rw [if_neg hmem, h.occupyNum q k hk, occupancy_put_notMem hmem]

theorem move_inPlay (h : InPlay g p) (hm : ¬ p.Completes m) :
    InPlay (g.move m).2 (p.move m) ∧ ∀ q, (g.move m).1 ≠ .win q := by
  by_cases hlegal : p.Legal m
  · have hwon : (occupy g.winCaseTable m.chessman (m.row.toNat, m.col.toNat)
        (List.range winCaseNum) g.occupyNum).2 = false :=
      Bool.eq_false_iff.mpr (mt (occupy_won_iff h hlegal).mp hm)
    have hkept := occupy_bookkept h hlegal hwon
    have hplay : p.move m = ⟨p.board.put (m.row.toNat, m.col.toNat) m.chessman, p.accepted + 1⟩ :=
      if_pos hlegal
    rw [move_legal h hlegal, hplay]
    dsimp only
    generalize occupy g.winCaseTable m.chessman (m.row.toNat, m.col.toNat)
      (List.range winCaseNum) g.occupyNum = r at hwon hkept ⊢
    rw [hwon, if_neg Bool.false_ne_true]
    have hboard := congrArg (Board.put · (m.row.toNat, m.col.toNat) m.chessman) h.chessboard
    have hnum := congrArg (· + 1) h.chessmanNum
    split
    · exact ⟨⟨⟨hboard, hnum, hkept⟩, h.table⟩, nofun⟩
    · exact ⟨⟨⟨hboard, hnum, hkept⟩, h.table⟩, nofun⟩
  · rw [move_not_legal h hlegal, Play.move, if_neg hlegal]
    exact ⟨h, nofun⟩

theorem move_completes (h : InPlay g p) (hm : p.Completes m) :
    (g.move m).1 = .win m.chessman ∧ (g.move m).2.chessboard = p.board ∧
      (g.move m).2.chessmanNum = p.accepted := by
  have hwon := (occupy_won_iff h hm.1).mpr hm
  rw [move_legal h hm.1]
  simp only [hwon, if_true]
  exact ⟨trivial, h.chessboard, h.chessmanNum⟩

end Move

/-! ## Whole plays -/

inductive Op
  | start
  | move (m : Move)

def Game.exec (g : Game) : Op → Game
  | .start => wuziStart g
  | .move m => (g.move m).2

def Game.run (g : Game) (ops : List Op) : Game := ops.foldl exec g

def Game.moves (g : Game) (ms : List Move) : Game := ms.foldl (fun g m => (g.move m).2) g

theorem putAChessman_table (g : Game) (p : Chessman) (row col : ℤ) :
    (putAChessman g p row col).2.winCaseTable = g.winCaseTable ∧
      (putAChessman g p row col).2.initialized = g.initialized := by
  unfold putAChessman
  dsimp only
  split
  · exact ⟨rfl, rfl⟩
  · split
    · exact ⟨rfl, rfl⟩
    · split
      · exact ⟨rfl, rfl⟩
      · split <;> exact ⟨rfl, rfl⟩

theorem run_tableOk (ops : List Op) {g : Game} (h : TableOk g) : TableOk (g.run ops) := by
  induction ops generalizing g with
  | nil => exact h
  | cons op ops ih =>
    apply ih
    cases op with
    | start =>
      unfold TableOk at h ⊢
      unfold Game.exec wuziStart
      cases hinit : g.initialized with
      | true => simpa [hinit] using h
      | false =>
        rw [hinit] at h
        intro c k
        simp only [Bool.false_eq_true, if_false] at h ⊢
        rw [h, initWinCaseTable_apply]
    | move m =>
      obtain ⟨htable, hinit⟩ := putAChessman_table g m.chessman m.row m.col
      unfold TableOk at h ⊢
      simp only [Game.exec, Game.move_eq]
      rwa [htable, hinit]

theorem boot_tableOk : TableOk boot := rfl

theorem occupancy_start (q : Chessman) (cells : List Cell) :
    occupancy Play.start.board q cells = 0 := by
  simp [occupancy, Play.start]

theorem wuziStart_inPlay {g : Game} (h : TableOk g) : InPlay (wuziStart g) Play.start := by
  have htable : ∀ c k, (wuziStart g).winCaseTable c k = decide (c ∈ lineCells k) := by
    unfold TableOk at h
    unfold wuziStart
    cases hinit : g.initialized with
    | true => simpa [hinit] using h
    | false =>
      intro c k
      simp only [hinit, Bool.false_eq_true, if_false] at h ⊢
      rw [h, initWinCaseTable_apply]
  refine ⟨⟨?_, ?_, ?_⟩, htable⟩
  · unfold wuziStart
    dsimp only
    split <;> rfl
  · unfold wuziStart
    dsimp only
    split <;> rfl
  · intro q k _
    rw [occupancy_start]
    unfold wuziStart
    dsimp only
    split <;> rfl

/-- No move of the list completes a line. -/
def NoWin (p : Play) (ms : List Move) : Prop :=
  ∀ before m after, ms = before ++ m :: after → ¬ (p.moves before).Completes m

theorem NoWin.cons {p : Play} {m : Move} {ms : List Move} (h : NoWin p (m :: ms)) :
    ¬ p.Completes m ∧ NoWin (p.move m) ms := by
  refine ⟨h [] m ms rfl, ?_⟩
  intro before m' after heq
  exact h (m :: before) m' after (by rw [heq, List.cons_append])

theorem moves_inPlay {ms : List Move} {g : Game} {p : Play} (h : InPlay g p) (hms : NoWin p ms) :
    InPlay (g.moves ms) (p.moves ms) := by
  induction ms generalizing g p with
  | nil => exact h
  | cons m ms ih => exact ih (move_inPlay h hms.cons.1).1 hms.cons.2

theorem countP_put_le (b : Board) (c : Cell) (p q : Chessman) {cells : List Cell}
    (hnd : cells.Nodup) :
    cells.countP (fun c' => b.put c p c' = some q) ≤
      cells.countP (fun c' => b c' = some q) + 1 := by
  induction cells with
  | nil => simp
  | cons d cells ih =>
    obtain ⟨hd, hnd⟩ := List.nodup_cons.mp hnd
    rw [List.countP_cons, List.countP_cons]
    by_cases hdc : d = c
    · have hrest : cells.countP (fun c' => b.put c p c' = some q) =
          cells.countP fun c' => b c' = some q := by
        apply List.countP_congr
        intro c' hc'
        rw [put_congr (hdc ▸ hd) hc']
      rw [hrest]
      split <;> omega
    · rw [put_of_ne hdc]
      have := ih hnd
      omega

theorem Play.moves_append (p : Play) (ms ms' : List Move) :
    p.moves (ms ++ ms') = (p.moves ms).moves ms' :=
  List.foldl_append

theorem countP_moves_le (ms : List Move) (q : Chessman) {cells : List Cell}
    (hnd : cells.Nodup) :
    cells.countP (fun c => (Play.start.moves ms).board c = some q) ≤ ms.length := by
  induction ms using List.reverseRecOn with
  | nil => simp [Play.moves, Play.start]
  | append_singleton ms m ih =>
    rw [Play.moves_append, List.length_append, List.length_singleton]
    change cells.countP (fun c => ((Play.start.moves ms).move m).board c = some q) ≤ _
    unfold Play.move
    split
    · exact Nat.le_trans (countP_put_le _ _ _ _ hnd) (Nat.succ_le_succ ih)
    · omega

theorem noWin_of_short {ms : List Move} (h : ms.length ≤ 4) : NoWin Play.start ms := by
  rintro before m after rfl ⟨-, cells, hline, -, hfull⟩
  have hle := countP_moves_le (before ++ [m]) m.chessman hline.nodup
  have hall : cells.countP (fun c => ((Play.start.moves before).move m).board c =
      some m.chessman) = cells.length := by
    rw [List.countP_eq_length]
    simpa using hfull
  rw [Play.moves_append] at hle
  change cells.countP (fun c => ((Play.start.moves before).move m).board c =
      some m.chessman) ≤ _ at hle
  rw [hall, hline.length] at hle
  simp only [List.length_append, List.length_cons, List.length_nil] at h hle
  omega

/-- A new game and any moves none of which wins: the game is that of the play, a next move
wins exactly if it completes a line, and it is recorded exactly if it does not. -/
theorem wuzi_bookkeeping (ops : List Op) (ms : List Move) (m : Move)
    (hms : NoWin Play.start ms) :
    let g := (wuziStart (boot.run ops)).moves ms
    let p := Play.start.moves ms
    Bookkept g p ∧
    (∀ q, (g.move m).1 = .win q ↔ q = m.chessman ∧ p.Completes m) ∧
    (¬ p.Legal m ↔ (g.move m).1 = .nonlegal) ∧
    (¬ p.Legal m → (g.move m).2 = g) ∧
    (Bookkept (g.move m).2 (p.move m) ↔ ¬ p.Completes m) := by
  intro g p
  have h : InPlay g p := moves_inPlay (wuziStart_inPlay (run_tableOk ops boot_tableOk)) hms
  refine ⟨h.toBookkept, ?_, ?_, ?_, ?_⟩
  · intro q
    by_cases hm : p.Completes m
    · rw [(move_completes h hm).1]
      simp [hm, eq_comm]
    · simp [(move_inPlay h hm).2 q, hm]
  · by_cases hlegal : p.Legal m
    · refine iff_of_false (not_not.mpr hlegal) ?_
      rw [move_legal h hlegal]
      simp only
      split
      · exact nofun
      · split <;> exact nofun
    · exact iff_of_true hlegal (by rw [move_not_legal h hlegal])
  · intro hlegal
    rw [move_not_legal h hlegal]
  · refine ⟨?_, fun hm => (move_inPlay h hm).1.toBookkept⟩
    intro hkept hm
    have hnum := hkept.chessmanNum
    have hplay : p.move m = ⟨p.board.put (m.row.toNat, m.col.toNat) m.chessman, p.accepted + 1⟩ :=
      if_pos hm.1
    rw [(move_completes h hm).2.2, hplay] at hnum
    exact absurd hnum (Nat.ne_of_lt (Nat.lt_succ_self _))

def whiteRow (n : ℕ) : List Move := (List.range n).map fun i => ⟨.white, 0, i⟩

theorem wuzi_bookkeeping_four :
    let g := (wuziStart (boot.run [])).moves (whiteRow 4)
    (g.move ⟨.black, 0, 3⟩).1 = .nonlegal ∧ (g.move ⟨.black, 0, 3⟩).2 = g :=
  have h := wuzi_bookkeeping [] (whiteRow 4) ⟨.black, 0, 3⟩ (noWin_of_short (by decide))
  ⟨h.2.2.1.mp (by decide), h.2.2.2.1 (by decide)⟩

/-- The fifth chessman of a row is not on the board, nor counted. -/
theorem winning_move_unrecorded :
    NoWin Play.start (whiteRow 4) ∧
    ¬ Bookkept (((wuziStart boot).moves (whiteRow 4)).move ⟨.white, 0, 4⟩).2
      ((Play.start.moves (whiteRow 4)).move ⟨.white, 0, 4⟩) := by
  have hshort : NoWin Play.start (whiteRow 4) := noWin_of_short (by decide)
  refine ⟨hshort, fun hkept => ?_⟩
  have h := moves_inPlay (wuziStart_inPlay boot_tableOk) hshort
  have hline : FiveInARow (winCase fun i => (0, 0 + i)) :=
    ⟨0, 0, by decide, by decide, .inl ⟨by decide, rfl⟩⟩
  have hfive : (Play.start.moves (whiteRow 4)).Completes ⟨.white, 0, 4⟩ :=
    ⟨by decide, _, hline, by decide, by decide⟩
  have hnum := hkept.chessmanNum
  rw [(move_completes h hfive).2.2] at hnum
  exact absurd hnum (by decide)

end DfewOS.Wuzi
