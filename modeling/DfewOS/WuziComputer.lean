import DfewOS.Counting
import DfewOS.RunningMax
import DfewOS.WuziSpec
import Mathlib.Algebra.Order.BigOperators.Group.List
import Mathlib.Algebra.Order.Group.Int
import Mathlib.Algebra.Ring.Int.Defs

/-!
# The computer's reply

`_computer_do` grades every free cell for both sides and replies on the best cell of one
side. Its coordinates are assigned in the loops only, and the grades are looked up by the
counters. In every position of a game that is not over some cell is free and the counters
are at most 6, so that the reply is found and legal.
-/

namespace DfewOS.Wuzi

/-! ## The code -/

/-- `int score[7]` -/
def score : List ℤ := [1, 5, 50, 100, 400, 0, 0]

/-- The loop over the ways to win adds to the grades of the cell for the player, who is
white, and for the computer. -/
def gradeCell (g : Game) (c : Cell) : List ℕ → ℤ × ℤ → Option (ℤ × ℤ)
  | [], r => some r
  | k :: ks, (player, comput) =>
    if g.winCaseTable c k then
      (score[g.occupyNum .white k]?).bind fun s => (score[g.occupyNum .black k]?).bind fun s' =>
        gradeCell g c ks (player + s, comput + s')
    else gradeCell g c ks (player, comput)

/-- `FOR_EACH_ROW(i)`, `FOR_EACH_COL(j)` -/
def eachCell : List Cell := (List.range rowNum).flatMap fun i => (List.range colNum).map fun j => (i, j)

/-- `max_player_grade` with `defend_row` and `defend_col`, or `max_comput_grade` with
`attack_row` and `attack_col`, which are `none` until they are assigned. -/
abbrev Maximum := RunningMax Cell ℤ

def gradeCells (g : Game) : List Cell → Maximum × Maximum → Option (Maximum × Maximum)
  | [], r => some r
  | c :: cs, (player, comput) =>
    if g.chessboard c = none then
      (gradeCell g c (List.range winCaseNum) (0, 0)).bind fun r =>
        gradeCells g cs (player.take r.1 c, comput.take r.2 c)
    else gradeCells g cs (player, comput)

/-- The status, the game and the cell of the reply; `none` if `score` is read outside or if
the cell is not assigned. -/
def computerDo (g : Game) : Option (Status × Game × Cell) :=
  (gradeCells g eachCell (⟨-1, none⟩, ⟨-1, none⟩)).bind fun (player, comput) =>
    (if player.value ≥ comput.value ∧ player.value > 100 then player.place else comput.place).map
      fun c => ((wuziBlackDo g c.1 c.2).1, (wuziBlackDo g c.1 c.2).2, c)

def playerDo (g : Game) (row col : ℤ) : Status × Game := wuziWhiteDo g row col

/-- The reply is `none` when there is none. -/
def wuziRoundDo (g : Game) (row col : ℤ) : Option (Status × Game × Option Cell) :=
  let (status, g) := playerDo g row col
  if status ≠ .goAhead then some (status, g, none)
  else (computerDo g).map fun (status, g, c) => (status, g, some c)

/-! ## The grades -/

def scoreOf (n : ℕ) : ℤ := score.getD n 0

def grade (g : Game) (q : Chessman) (c : Cell) : ℤ :=
  (((List.range winCaseNum).filter (g.winCaseTable c)).map fun k => scoreOf (g.occupyNum q k)).sum

theorem score_some {n : ℕ} (h : n ≤ winNever) : score[n]? = some (scoreOf n) := by
  have hlt : n < score.length := Nat.lt_succ_of_le h
  rw [scoreOf, List.getD_eq_getElem?_getD, List.getElem?_eq_getElem hlt]
  rfl

theorem scoreOf_nonneg (n : ℕ) : 0 ≤ scoreOf n := by
  rcases Nat.lt_or_ge n score.length with hlt | hge
  · have hall : ∀ n < score.length, 0 ≤ scoreOf n := by decide
    exact hall n hlt
  · rw [scoreOf, List.getD_eq_getElem?_getD, List.getElem?_eq_none hge]
    exact le_rfl

theorem grade_nonneg (g : Game) (q : Chessman) (c : Cell) : 0 ≤ grade g q c := by
  apply List.sum_nonneg
  intro s hs
  obtain ⟨k, -, rfl⟩ := List.mem_map.mp hs
  exact scoreOf_nonneg _

section Search
variable {g : Game}

theorem gradeCell_eq (hle : ∀ q, ∀ k < winCaseNum, g.occupyNum q k ≤ winNever) (c : Cell)
    (ks : List ℕ) (hks : ∀ k ∈ ks, k < winCaseNum) (player comput : ℤ) :
    gradeCell g c ks (player, comput) =
      some (player + ((ks.filter (g.winCaseTable c)).map fun k => scoreOf (g.occupyNum .white k)).sum,
        comput + ((ks.filter (g.winCaseTable c)).map fun k => scoreOf (g.occupyNum .black k)).sum) := by
  induction ks generalizing player comput with
  | nil => simp [gradeCell]
  | cons k ks ih =>
    have hk := hks k List.mem_cons_self
    have hrest := ih fun j hj => hks j (List.mem_cons_of_mem k hj)
    rw [gradeCell]
    cases htable : g.winCaseTable c k with
    | true =>
      rw [if_pos rfl, score_some (hle .white k hk), score_some (hle .black k hk), Option.bind_some,
        Option.bind_some, hrest, List.filter_cons_of_pos htable]
      simp only [List.map_cons, List.sum_cons, add_assoc]
    | false =>
      rw [if_neg Bool.false_ne_true, hrest, List.filter_cons_of_neg (by simp [htable])]

theorem gradeCell_winCases (hle : ∀ q, ∀ k < winCaseNum, g.occupyNum q k ≤ winNever) (c : Cell) :
    gradeCell g c (List.range winCaseNum) (0, 0) = some (grade g .white c, grade g .black c) := by
  have h := gradeCell_eq hle c (List.range winCaseNum) (fun k hk => List.mem_range.mp hk) 0 0
  simp only [zero_add] at h
  exact h

theorem gradeCells_eq (hle : ∀ q, ∀ k < winCaseNum, g.occupyNum q k ≤ winNever) (cs : List Cell)
    (player comput : Maximum) :
    gradeCells g cs (player, comput) =
      some (RunningMax.scan (grade g .white) (cs.filter (g.chessboard · = none)) player,
        RunningMax.scan (grade g .black) (cs.filter (g.chessboard · = none)) comput) := by
  induction cs generalizing player comput with
  | nil => rfl
  | cons c cs ih =>
    rw [gradeCells]
    by_cases hfree : g.chessboard c = none
    · rw [if_pos hfree, gradeCell_winCases hle, Option.bind_some,
        List.filter_cons_of_pos (by simpa using hfree), RunningMax.scan_cons, RunningMax.scan_cons]
      generalize grade g .white c = a
      generalize grade g .black c = b
      exact ih _ _
    · rw [if_neg hfree, ih, List.filter_cons_of_neg (by simpa using hfree)]

end Search

def Free (g : Game) (c : Cell) : Prop := c.1 < rowNum ∧ c.2 < colNum ∧ g.chessboard c = none

def Best (g : Game) (q : Chessman) (c : Cell) : Prop :=
  Free g c ∧ ∀ c', Free g c' → grade g q c' ≤ grade g q c

theorem best_of_choice {g : Game} {P : Prop} [Decidable P] {c w b : Cell} (hc : c = if P then w else b)
    (hw : Best g .white w) (hb : Best g .black b) :
    (P → Best g .white c) ∧ (¬ P → Best g .black c) := by
  refine ⟨fun h => ?_, fun h => ?_⟩
  · rwa [hc, if_pos h]
  · rwa [hc, if_neg h]

theorem mem_eachCell {c : Cell} : c ∈ eachCell ↔ c.1 < rowNum ∧ c.2 < colNum := by
  obtain ⟨i, j⟩ := c
  simp only [eachCell, List.mem_flatMap, List.mem_map, List.mem_range, Prod.mk.injEq]
  constructor
  · rintro ⟨i', hi, j', hj, rfl, rfl⟩
    exact ⟨hi, hj⟩
  · rintro ⟨hi, hj⟩
    exact ⟨i, hi, j, hj, rfl, rfl⟩

theorem mem_free {g : Game} {c : Cell} : c ∈ eachCell.filter (g.chessboard · = none) ↔ Free g c := by
  rw [List.mem_filter, mem_eachCell, decide_eq_true_eq, and_assoc]
  rfl

theorem computerDo_eq {g : Game} (hle : ∀ q, ∀ k < winCaseNum, g.occupyNum q k ≤ winNever)
    (hfree : ∃ c, Free g c) :
    ∃ w b, Best g .white w ∧ Best g .black b ∧ computerDo g =
      let c := if grade g .white w ≥ grade g .black b ∧ grade g .white w > 100 then w else b
      some ((wuziBlackDo g c.1 c.2).1, (wuziBlackDo g c.1 c.2).2, c) := by
  have hne : eachCell.filter (g.chessboard · = none) ≠ [] := by
    obtain ⟨c, hc⟩ := hfree
    exact List.ne_nil_of_mem (mem_free.mpr hc)
  have hmax : ∀ q, ∃ c, Best g q c ∧
      RunningMax.scan (grade g q) (eachCell.filter (g.chessboard · = none)) ⟨-1, none⟩ =
        ⟨grade g q c, some c⟩ := by
    intro q
    obtain ⟨c, hc, hrun, hall⟩ := RunningMax.scan_best (f := grade g q) (m := ⟨-1, none⟩) hne
      fun c _ => lt_of_lt_of_le (by decide) (grade_nonneg g q c)
    exact ⟨c, ⟨mem_free.mp hc, fun c' hc' => hall c' (mem_free.mpr hc')⟩, hrun⟩
  obtain ⟨w, hw, hrunw⟩ := hmax .white
  obtain ⟨b, hb, hrunb⟩ := hmax .black
  refine ⟨w, b, hw, hb, ?_⟩
  rw [computerDo, gradeCells_eq hle, Option.bind_some, hrunw, hrunb]
  dsimp only
  split_ifs <;> rfl

/-! ## Positions of a game -/

/-- The positions that rounds without an end of the game lead to. -/
inductive Reached (start : Game) : Game → Prop
  | start : Reached start start
  | round {g g' : Game} {row col : ℤ} {status : Status} {reply : Option Cell} :
      Reached start g → wuziRoundDo g row col = some (status, g', reply) →
      status = .goAhead ∨ status = .nonlegal → Reached start g'

structure Going (g : Game) (p : Play) : Prop extends InPlay g p where
  occupied : eachCell.countP (fun c => p.board c ≠ none) = p.accepted
  notFull : p.accepted < chessmanMax

theorem eachCell_nodup : eachCell.Nodup := by
  have h : (List.product (List.range rowNum) (List.range colNum)).Nodup :=
    List.Nodup.product List.nodup_range List.nodup_range
  exact h

theorem eachCell_length : eachCell.length = chessmanMax := by
  simp only [eachCell, List.length_flatMap, List.length_map, List.length_range, List.map_const',
    List.sum_replicate_nat]

theorem occupancy_le {b : Board} {q : Chessman} {line : List Cell} (hlen : line.length = 5) :
    occupancy b q line ≤ winNever := by
  unfold occupancy
  split
  · exact le_rfl
  · have hcount := List.countP_le_length (p := fun c => decide (b c = some q)) (l := line)
    have hsix : winNever = 6 := rfl
    omega

section Round
variable {g : Game} {p : Play} {m : Move}

theorem InPlay.occupyNum_le (h : InPlay g p) (q : Chessman) {k : ℕ} (hk : k < winCaseNum) :
    g.occupyNum q k ≤ winNever := by
  rw [h.occupyNum q k hk]
  exact occupancy_le (lineCells_fiveInARow hk).length

theorem Going.free (h : Going g p) : ∃ c, Free g c := by
  by_contra hnone
  have hall : eachCell.countP (fun c => p.board c ≠ none) = eachCell.length := by
    rw [List.countP_eq_length]
    intro c hc
    rw [decide_eq_true_eq]
    intro hfree
    obtain ⟨hrow, hcol⟩ := mem_eachCell.mp hc
    exact hnone ⟨c, hrow, hcol, by rw [h.chessboard, hfree]⟩
  have hfull := h.notFull
  rw [← h.occupied, hall, eachCell_length] at hfull
  exact lt_irrefl _ hfull

theorem put_eq_update (b : Board) (c : Cell) (q : Chessman) : b.put c q = Function.update b c (some q) := by
  funext c'
  rw [Board.put, Function.update_apply]

theorem occupied_move (hm : p.Legal m) (h : eachCell.countP (fun c => p.board c ≠ none) = p.accepted) :
    eachCell.countP (fun c => (p.move m).board c ≠ none) = (p.move m).accepted := by
  obtain ⟨hr, hr', hc, hc', hfree⟩ := hm
  have hmem : (m.row.toNat, m.col.toNat) ∈ eachCell := mem_eachCell.mpr ⟨by omega, by omega⟩
  have hcount := Counting.countP_update (fun o : Option Chessman => decide (o ≠ none)) p.board
    (b := some m.chessman) eachCell_nodup hmem
  rw [hfree] at hcount
  rw [Play.move, if_pos ⟨hr, hr', hc, hc', hfree⟩, put_eq_update]
  simp only [ne_eq, not_true_eq_false, decide_false, Bool.false_eq_true, if_false, add_zero,
    reduceCtorEq, not_false_eq_true, decide_true, if_true] at hcount
  rw [← h]
  simpa using hcount

theorem Going.move (h : Going g p) (hgo : (g.move m).1 = .goAhead) :
    p.Legal m ∧ Going (g.move m).2 (p.move m) := by
  have hlegal : p.Legal m := by
    by_contra hnot
    rw [move_not_legal h.toInPlay hnot] at hgo
    cases hgo
  have hno : ¬ p.Completes m := by
    intro hc
    rw [(move_completes h.toInPlay hc).1] at hgo
    cases hgo
  have hkept := (move_inPlay h.toInPlay hno).1
  refine ⟨hlegal, hkept, occupied_move hlegal h.occupied, ?_⟩
  have haccepted : (p.move m).accepted = p.accepted + 1 := by rw [Play.move, if_pos hlegal]
  have hmax : (p.move m).accepted ≠ chessmanMax := by
    intro heq
    have hwon : (occupy g.winCaseTable m.chessman (m.row.toNat, m.col.toNat)
        (List.range winCaseNum) g.occupyNum).2 = false :=
      Bool.eq_false_iff.mpr (mt (occupy_won_iff h.toInPlay hlegal).mp hno)
    rw [move_legal h.toInPlay hlegal] at hgo
    dsimp only at hgo
    rw [hwon, if_neg Bool.false_ne_true, if_pos] at hgo
    · cases hgo
    · rw [← heq, haccepted, h.chessmanNum]
  have hlt := h.notFull
  omega

theorem Going.goAhead (h : Going g p) (hm : p.Legal m) (hno : ¬ p.Completes m)
    (hnum : p.accepted + 1 < chessmanMax) : (g.move m).1 = .goAhead := by
  have hwon : (occupy g.winCaseTable m.chessman (m.row.toNat, m.col.toNat)
      (List.range winCaseNum) g.occupyNum).2 = false :=
    Bool.eq_false_iff.mpr (mt (occupy_won_iff h.toInPlay hm).mp hno)
  rw [move_legal h.toInPlay hm]
  dsimp only
  rw [hwon, if_neg Bool.false_ne_true, if_neg]
  rw [h.chessmanNum]
  omega

theorem Going.nonlegal (h : Going g p) (hm : (g.move m).1 = .nonlegal) : (g.move m).2 = g := by
  have hnot : ¬ p.Legal m := by
    intro hlegal
    rw [move_legal h.toInPlay hlegal] at hm
    dsimp only at hm
    split_ifs at hm
  rw [move_not_legal h.toInPlay hnot]

theorem legal_of_free (h : Going g p) {c : Cell} (hc : Free g c) (q : Chessman) :
    p.Legal ⟨q, c.1, c.2⟩ := by
  obtain ⟨hrow, hcol, hfree⟩ := hc
  refine ⟨Int.natCast_nonneg _, Int.ofNat_lt.mpr hrow, Int.natCast_nonneg _, Int.ofNat_lt.mpr hcol, ?_⟩
  rw [← h.chessboard]
  exact hfree

theorem Going.reply (h : Going g p) :
    ∃ w b, Best g .white w ∧ Best g .black b ∧ ∃ c,
      c = (if grade g .white w ≥ grade g .black b ∧ grade g .white w > 100 then w else b) ∧
      Free g c ∧ (g.move ⟨.black, c.1, c.2⟩).1 ≠ .nonlegal ∧
      computerDo g = some ((g.move ⟨.black, c.1, c.2⟩).1, (g.move ⟨.black, c.1, c.2⟩).2, c) := by
  obtain ⟨w, b, hw, hb, hrun⟩ := computerDo_eq (fun q k hk => h.toInPlay.occupyNum_le q hk) h.free
  have hfree : Free g (if grade g .white w ≥ grade g .black b ∧ grade g .white w > 100 then w else b) := by
    split_ifs
    · exact hw.1
    · exact hb.1
  refine ⟨w, b, hw, hb, _, rfl, hfree, ?_, hrun⟩
  intro hnon
  have hlegal := legal_of_free h hfree .black
  rw [move_legal h.toInPlay hlegal] at hnon
  dsimp only at hnon
  split_ifs at hnon

theorem Going.round (h : Going g p) {row col : ℤ} {status : Status} {g' : Game} {reply : Option Cell}
    (hround : wuziRoundDo g row col = some (status, g', reply))
    (hgo : status = .goAhead ∨ status = .nonlegal) : ∃ p', Going g' p' := by
  have hplayer : playerDo g row col = g.move ⟨.white, row, col⟩ := rfl
  rw [wuziRoundDo, hplayer] at hround
  dsimp only at hround
  by_cases hstatus : (g.move ⟨.white, row, col⟩).1 = .goAhead
  · have hmoved := (h.move hstatus).2
    obtain ⟨w, b, -, -, c, -, -, hlegal, hrun⟩ := hmoved.reply
    rw [if_neg (not_not.mpr hstatus), hrun] at hround
    simp only [Option.map_some, Option.some.injEq, Prod.mk.injEq] at hround
    obtain ⟨rfl, rfl, -⟩ := hround
    exact ⟨_, (hmoved.move (hgo.resolve_right hlegal)).2⟩
  · rw [if_pos hstatus] at hround
    simp only [Option.some.injEq, Prod.mk.injEq] at hround
    obtain ⟨rfl, rfl, -⟩ := hround
    rw [h.nonlegal (hgo.resolve_left hstatus)]
    exact ⟨p, h⟩

theorem start_going (ops : List Op) : Going (wuziStart (boot.run ops)) Play.start where
  toInPlay := wuziStart_inPlay (run_tableOk ops boot_tableOk)
  occupied := by
    rw [List.countP_eq_zero.mpr (fun c _ => by simp [Play.start])]
    rfl
  notFull := by decide

theorem Reached.going {start : Game} (h : Reached start g) {p₁ : Play} (hstart : Going start p₁) :
    ∃ p, Going g p := by
  induction h with
  | start => exact ⟨p₁, hstart⟩
  | round hreached hround hgo ih =>
    obtain ⟨p, hp⟩ := ih
    exact hp.round hround hgo

end Round

/-- After any rounds and a player's move that do not end the game, the computer's reply is
found and legal: the best cell for the player if it is worth more than 100 and no less than
the best cell for the computer, and otherwise the latter. -/
theorem computer_replies (ops : List Op) {g : Game} (h : Reached (wuziStart (boot.run ops)) g)
    (row col : ℤ) (hgo : (playerDo g row col).1 = .goAhead) :
    let g' := (playerDo g row col).2
    ∃ status g'' c, computerDo g' = some (status, g'', c) ∧ status ≠ .nonlegal ∧ Free g' c ∧
      ∃ w b, Best g' .white w ∧ Best g' .black b ∧
        (grade g' .white w ≥ grade g' .black b ∧ grade g' .white w > 100 → Best g' .white c) ∧
        (¬ (grade g' .white w ≥ grade g' .black b ∧ grade g' .white w > 100) → Best g' .black c) := by
  intro g'
  obtain ⟨p, hp⟩ := h.going (start_going ops)
  have hmoved : Going g' (p.move ⟨.white, row, col⟩) := (hp.move (m := ⟨.white, row, col⟩) hgo).2
  obtain ⟨w, b, hw, hb, c, hc, hfree, hlegal, hrun⟩ := hmoved.reply
  refine ⟨_, _, c, hrun, hlegal, hfree, w, b, hw, hb, ?_⟩
  exact best_of_choice hc hw hb

theorem computer_replies_first :
    (playerDo (wuziStart (boot.run [])) 7 7).1 = .goAhead ∧
    ∃ status g'' c, computerDo (playerDo (wuziStart (boot.run [])) 7 7).2 = some (status, g'', c) ∧
      status ≠ .nonlegal := by
  have hshort : NoWin Play.start [⟨.white, 7, 7⟩] := noWin_of_short (by decide)
  have hgo : (playerDo (wuziStart (boot.run [])) 7 7).1 = .goAhead :=
    (start_going []).goAhead (m := ⟨.white, 7, 7⟩) (by decide) hshort.cons.1 (by decide)
  obtain ⟨status, g'', c, hrun, hlegal, -⟩ := computer_replies [] .start 7 7 hgo
  exact ⟨hgo, status, g'', c, hrun, hlegal⟩

end DfewOS.Wuzi
