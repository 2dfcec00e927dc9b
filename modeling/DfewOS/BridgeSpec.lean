import DfewOS.Bridge

/-!
# The counter, the map and the cursor of Lianliankan agree

Every action keeps the blocks in pairs, the counter at their number, and the cursor on a
block while there is one. A level that could not be started has the counter -1 and an
empty map.
-/

namespace DfewOS.Lian
open GridPath Transition

namespace Bridge

def OnBlock (map : Map) (c : Coor) : Prop := Interior c ∧ map c ≠ 0

/-- What holds of the globals whatever the counter says. -/
structure Sound (b : Bridge) : Prop where
  bordered : Bordered b.map
  idle : b.opCntTmp = 0
  marked : b.marked.x ≠ 0 → Interior b.marked
  cur : 0 < b.time → Interior b.cur

structure Inv (b : Bridge) : Prop extends Sound b where
  even : ∀ type, type ≠ 0 → Even (typeCount b.map type)
  left : b.left = blockCount b.map ∨ (b.left = -1 ∧ blockCount b.map = 0)
  block : 0 < b.left → OnBlock b.map b.cur

/-- A level that `_start_level` could start, until all levels are done. -/
def Running (b : Bridge) : Prop := 0 ≤ b.left

variable {b : Bridge} (env : Surroundings)

theorem Sound.elapse (h : Sound b) (n : ℕ) : Sound (b.elapse n) where
  bordered := h.bordered
  idle := h.idle
  marked := h.marked
  cur ht := h.cur (by simp only [Bridge.elapse] at ht; omega)

theorem Inv.elapse (h : Inv b) (n : ℕ) : Inv (b.elapse n) where
  toSound := h.toSound.elapse n
  even := h.even
  left := h.left
  block := h.block

theorem Inv.counted (h : Inv b) (hpos : 0 < b.left) : b.left = blockCount b.map := by
  obtain hleft | ⟨hleft, -⟩ := h.left
  · exact hleft
  · omega

/-! ## Moving the cursor -/

theorem move_interior {p : Coor} (hp : Interior p) (d : Dir)
    (h : atBorder (d.move 1 p) d = false) : Interior (d.move 1 p) := by
  unfold Interior at *
  cases d <;> have hend := of_decide_eq_false h <;> simp only [Dir.move] at hend ⊢ <;> omega

theorem scan_spec {map : Map} (hmap : Bordered map) (d : Dir) (n : ℕ) {p : Coor}
    (hp : Interior p) {m : ℤ} (hm : 0 < m) (hmn : m ≤ n) (hend : map (d.move m p) ≠ 0) :
    ∃ q, scan map d n p = some q ∧ (atBorder q d = false → OnBlock map q) := by
  induction n generalizing p m with
  | zero => omega
  | succ n ih =>
    simp only [scan]
    split
    · next hzero =>
      have hnext : Interior (d.move 1 p) := hmap.interior (hp.move_onMap d) hzero
      have hne : m ≠ 1 := by
        rintro rfl
        exact hend hzero
      have hmove : d.move (m - 1) (d.move 1 p) = d.move m p := by
        rw [Dir.move_move]
        congr 1
        omega
      exact ih hnext (by omega) (by omega) (hmove ▸ hend)
    · next hzero => exact ⟨_, rfl, fun hborder => ⟨move_interior hp d hborder, hzero⟩⟩

/-- The cursor has stayed where it was, or stands on a block; it has if `moved`. -/
structure Moved (b b' : Bridge) (moved : Prop) : Prop where
  rest : b' = { b with cur := b'.cur, time := b'.time }
  time : b'.time ≤ b.time
  cur : b'.cur = b.cur ∨ OnBlock b.map b'.cur
  block : moved → OnBlock b.map b'.cur

theorem Moved.refl (b : Bridge) {moved : Prop} (h : ¬ moved) : Moved b b moved :=
  ⟨rfl, le_refl _, .inl rfl, fun hm => absurd hm h⟩

theorem Moved.trans {b' b'' : Bridge} {first second : Prop} (h : Moved b b' first)
    (h' : Moved b' b'' second) : Moved b b'' second := by
  have hmap : b'.map = b.map := by rw [h.rest]
  have hrest := h'.rest
  rw [h.rest] at hrest
  refine ⟨hrest, h'.time.trans h.time, ?_, fun hm => hmap ▸ h'.block hm⟩
  obtain hcur | hblock := h'.cur
  · rw [hcur]
    exact h.cur
  · exact .inr (hmap ▸ hblock)

theorem Moved.inv {b' : Bridge} {moved : Prop} (h : Moved b b' moved) (hb : Inv b) : Inv b' := by
  have hcur : b'.cur = b.cur ∨ OnBlock b.map b'.cur := h.cur
  have htime := h.time
  rw [h.rest]
  refine ⟨⟨hb.bordered, hb.idle, hb.marked, fun ht => ?_⟩, hb.even, hb.left, fun hpos => ?_⟩
  · obtain heq | hblock := hcur
    · exact heq ▸ hb.cur (lt_of_lt_of_le ht htime)
    · exact hblock.1
  · obtain heq | hblock := hcur
    · exact heq ▸ hb.block hpos
    · exact hblock

theorem elapse_moved (b : Bridge) (n : ℕ) {moved : Prop} (h : ¬ moved) :
    Moved b (b.elapse n) moved := by
  refine ⟨rfl, ?_, .inl rfl, fun hm => absurd hm h⟩
  simp only [Bridge.elapse]
  omega

theorem bridgeMove_spec (lapse : ℕ) (d : Dir) (hmap : Bordered b.map)
    (hcur : 0 < b.time → Interior b.cur) :
    ∃ interval b', b.bridgeMove lapse d = some (interval, b') ∧ Moved b b' (interval ≠ 0) := by
  have hlapse : Moved b (b.elapse lapse) ((0 : ℕ) ≠ 0) := elapse_moved b lapse (not_not.mpr rfl)
  simp only [bridgeMove]
  split
  · exact ⟨0, _, rfl, hlapse⟩
  · next htime =>
    have hin : Interior b.cur := hcur (by have := hlapse.time; omega)
    obtain ⟨m, hm, hle, hend⟩ := border_ahead hmap hin d
    obtain ⟨q, hscan, hq⟩ := scan_spec hmap d (rowNum + 2) hin hm hle hend
    have hrun : scan (b.elapse lapse).map d (rowNum + 2) (b.elapse lapse).cur = some q := hscan
    rw [hrun, Option.map_some]
    split
    · exact ⟨0, _, rfl, hlapse⟩
    · next hborder =>
      have hblock := hq (Bool.eq_false_iff.mpr hborder)
      exact ⟨_, _, rfl, rfl, hlapse.time, .inr hblock, fun _ => hblock⟩

theorem tryMoves_spec (lapse : ℕ → ℕ) (k : ℕ) (dirs : List Dir) (hmap : Bordered b.map)
    (hcur : 0 < b.time → Interior b.cur) :
    ∃ moved b', b.tryMoves lapse k dirs = some (moved, b') ∧ Moved b b' (moved = true) := by
  induction dirs generalizing b k with
  | nil => exact ⟨false, b, rfl, .refl b nofun⟩
  | cons d dirs ih =>
    obtain ⟨interval, b₁, hmove, h₁⟩ := bridgeMove_spec (lapse k) d hmap hcur
    simp only [tryMoves, hmove, Option.bind_some]
    split
    · next hne => exact ⟨true, b₁, rfl, h₁.rest, h₁.time, h₁.cur, fun _ => h₁.block hne⟩
    · have hmap₁ : b₁.map = b.map := by rw [h₁.rest]
      have hcur₁ : 0 < b₁.time → Interior b₁.cur := by
        intro ht
        obtain heq | hblock := h₁.cur
        · exact heq ▸ hcur (lt_of_lt_of_le ht h₁.time)
        · exact hblock.1
      obtain ⟨moved, b₂, hrest, h₂⟩ := ih (k + 1) (hmap₁ ▸ hmap) hcur₁
      exact ⟨moved, b₂, hrest, h₁.trans h₂⟩

theorem mem_cellsFrom {row col : ℤ} (hrow : 1 ≤ row ∧ row ≤ rowNum)
    (hcol : 1 ≤ col ∧ col ≤ colNum + 1) {c : Coor} : c ∈ cellsFrom row col ↔ Interior c := by
  have hrows : rowNum = 10 := rfl
  have hcols : colNum = 10 := rfl
  simp only [cellsFrom, List.mem_append, List.mem_map, List.mem_flatMap, Int.mem_range_iff, Interior]
  constructor
  · rintro (((⟨j, hj, rfl⟩ | ⟨i, hi, j, hj, rfl⟩) | ⟨i, hi, j, hj, rfl⟩) | ⟨j, hj, rfl⟩) <;>
      dsimp only <;> omega
  · rintro ⟨hx, hx', hy, hy'⟩
    obtain hlt | heq | hgt := lt_trichotomy c.y row
    · exact .inl (.inr ⟨c.y, by omega, c.x, by omega, rfl⟩)
    · obtain hcol' | hcol' := lt_or_ge c.x col
      · exact .inr ⟨c.x, by omega, heq ▸ rfl⟩
      · exact .inl (.inl (.inl ⟨c.x, by omega, heq ▸ rfl⟩))
    · exact .inl (.inl (.inr ⟨c.y, by omega, c.x, by omega, rfl⟩))

theorem exists_block {map : Map} (h : 0 < blockCount map) : ∃ c, OnBlock map c := by
  obtain ⟨c, hc, hne⟩ := List.countP_pos_iff.mp h
  exact ⟨c, mem_interiorCells.mp hc, by simpa using hne⟩

theorem find_block (map : Map) {cells : List Coor} (hcells : ∀ c, c ∈ cells ↔ Interior c) :
    (∃ c, cells.find? (fun c => map c ≠ 0) = some c ∧ OnBlock map c) ∨
      (cells.find? (fun c => map c ≠ 0) = none ∧ ¬ 0 < blockCount map) := by
  cases hfind : cells.find? fun c => map c ≠ 0 with
  | some c =>
    have hmem := List.mem_of_find?_eq_some hfind
    exact .inl ⟨c, rfl, (hcells c).mp hmem, by simpa using List.find?_some hfind⟩
  | none =>
    refine .inr ⟨rfl, fun hpos => ?_⟩
    obtain ⟨c, hin, hne⟩ := exists_block hpos
    have hzero := List.find?_eq_none.mp hfind c ((hcells c).mpr hin)
    simp [hne] at hzero

theorem makeCur_spec {row col : ℤ} (hrow : 1 ≤ row ∧ row ≤ rowNum)
    (hcol : 1 ≤ col ∧ col ≤ colNum + 1) :
    Moved b (b.makeCur row col) (0 < blockCount b.map) := by
  unfold makeCur
  obtain ⟨c, hfind, hblock⟩ | ⟨hfind, hnone⟩ :=
    find_block b.map fun c => mem_cellsFrom hrow hcol (c := c)
  · rw [hfind]
    exact ⟨rfl, le_refl _, .inr hblock, fun _ => hblock⟩
  · rw [hfind]
    exact .refl b hnone

/-! ## Levels -/

theorem startLevel_inv (h : Sound b) {level : ℕ} (hlevel : level < levelNum) :
    ∃ left b', b.startLevel env level = (left, b') ∧ b'.left = left ∧ Inv b' := by
  obtain ⟨left, map', hinit, hpaired, hleft⟩ := lianInit_spec hlevel env.calloc env.rand h.bordered
  simp only [startLevel, hinit]
  split
  · next hnonpos =>
    have hnone : left = -1 ∧ blockCount map' = 0 := by
      obtain hnone | ⟨hpos, -⟩ := hleft
      · exact hnone
      · omega
    exact ⟨left, _, rfl, rfl, ⟨hpaired.bordered, h.idle, h.marked, h.cur⟩, hpaired.even,
      .inr hnone, fun hpos => absurd hpos (not_lt.mpr hnonpos)⟩
  · next hpos =>
    have hcount : left = blockCount map' := by
      obtain ⟨hnone, -⟩ | ⟨-, hcount⟩ := hleft
      · omega
      · exact hcount
    obtain ⟨c, hfind, hblock⟩ | ⟨-, hnone⟩ :=
      find_block map' fun c => mem_interiorCells (c := c)
    · rw [hfind]
      exact ⟨left, _, rfl, rfl, ⟨hpaired.bordered, h.idle, fun hne => absurd rfl hne,
        fun _ => hblock.1⟩, hpaired.even, .inl hcount, fun _ => hblock⟩
    · omega

theorem load_inv : Inv load where
  bordered := mapOf_bordered nofun
  idle := rfl
  marked h := absurd rfl h
  cur h := absurd h (lt_irrefl 0)
  even type htype := by
    have hzero : typeCount (mapOf []) type = 0 := by
      rw [typeCount, List.countP_eq_zero]
      intro c hc
      simpa [mapOf, mem_interiorCells.mp hc] using htype.symm
    exact hzero ▸ Even.zero
  left := .inl (by
    have hzero : blockCount (mapOf []) = 0 := by
      rw [blockCount, List.countP_eq_zero]
      intro c hc
      simp [mapOf, mem_interiorCells.mp hc]
    change (0 : ℤ) = blockCount (mapOf [])
    rw [hzero]
    rfl)
  block h := absurd h (lt_irrefl 0)

theorem bridgeInit_inv (h : Inv b) : Inv (b.bridgeInit env).2 := by
  have hsound : Sound { b with level := 0 } := ⟨h.bordered, h.idle, h.marked, h.cur⟩
  obtain ⟨left, b', hstart, hleft, hb⟩ := startLevel_inv env hsound (show 0 < levelNum by decide)
  simp only [bridgeInit, hstart]
  split
  · exact hb
  · next hpos =>
    have hblock := hb.block (by omega)
    exact ⟨⟨hb.bordered, hb.idle, hb.marked, fun _ => hblock.1⟩, hb.even, hb.left, hb.block⟩

theorem bridgeExit_inv (h : Inv b) : Inv b.bridgeExit where
  bordered := h.bordered
  idle := h.idle
  marked := h.marked
  cur ht := absurd ht (lt_irrefl 0)
  even := h.even
  left := h.left
  block := h.block

/-! ## Marking -/

theorem deleteMatched_spec (h : Inv b) (hop : Legal b.map ⟨b.cur, b.marked⟩) :
    Sound b.deleteMatched ∧ (∀ type, type ≠ 0 → Even (typeCount b.deleteMatched.map type)) ∧
      b.deleteMatched.left = blockCount b.deleteMatched.map := by
  have hcount := blockCount_delete hop
  refine ⟨⟨h.bordered.delete hop, h.idle, h.marked, h.cur⟩, fun type htype => ?_, ?_⟩
  · have heven := Nat.even_iff.mp (h.even type htype)
    exact Nat.even_iff.mpr ((typeCount_delete hop htype).trans heven)
  · have hleft : b.left = blockCount b.map := by
      obtain hleft | ⟨-, hnone⟩ := h.left <;> omega
    change b.left - 2 = (blockCount (b.map.delete ⟨b.cur, b.marked⟩) : ℤ)
    omega

theorem nextLevel_inv (h : Inv b) (hin : Interior b.cur) : Inv (b.nextLevel env).2 := by
  simp only [nextLevel]
  split
  · next hlevel =>
    have hsound : Sound { ({ b with level := b.level + 1 } : Bridge).elapse (env.lapse 1) with
        time := b.time - env.lapse 1 + oneLevelTime } :=
      ⟨h.bordered, h.idle, h.marked, fun _ => hin⟩
    obtain ⟨left, b', hstart, hleft, hb⟩ := startLevel_inv env hsound hlevel
    have hsame : ({ b' with left := left } : Bridge) = b' := by rw [← hleft]
    generalize hrun : startLevel env _ _ = r
    obtain rfl : r = (left, b') := hrun.symm.trans hstart
    dsimp only
    rw [hsame]
    split
    · exact bridgeExit_inv hb
    · exact hb
  · exact bridgeExit_inv ⟨⟨h.bordered, h.idle, h.marked, h.cur⟩, h.even, h.left, h.block⟩

theorem matched_inv (h : Inv b) (hop : Legal b.map ⟨b.cur, b.marked⟩) :
    ∃ reply b', b.matched env = some (reply, b') ∧ Inv b' := by
  obtain ⟨hsound, heven, hleft⟩ := deleteMatched_spec h hop
  simp only [matched]
  split
  · next hzero =>
    have hb : Inv b.deleteMatched :=
      ⟨hsound, heven, .inl hleft, fun hpos => absurd hzero hpos.ne'⟩
    exact ⟨_, _, rfl, nextLevel_inv env hb hop.start⟩
  · next hne =>
    obtain ⟨moved, b', hmoves, hmoved⟩ := tryMoves_spec
      (b := { b.deleteMatched with marked := { b.deleteMatched.marked with x := 0 } })
      env.lapse 2 [.left, .right, .up, .down] hsound.bordered hsound.cur
    rw [hmoves, Option.map_some]
    refine ⟨_, _, rfl, ?_⟩
    have hmap : b'.map = b.deleteMatched.map := by rw [hmoved.rest]
    -- one of the two ends on a block, whatever the time
    have hend : ∃ b'', (if moved then b' else b'.makeCur 1 1) = b'' ∧ Moved
        { b.deleteMatched with marked := { b.deleteMatched.marked with x := 0 } } b'' True := by
      cases hm : moved with
      | true => exact ⟨b', rfl, hmoved.rest, hmoved.time, hmoved.cur, fun _ => hmoved.block hm⟩
      | false =>
        have hmake : Moved b' (b'.makeCur 1 1) (0 < blockCount b'.map) :=
          makeCur_spec (by decide) (by decide)
        have hpos : 0 < blockCount b'.map := by
          rw [hmap]
          omega
        have hboth := hmoved.trans hmake
        exact ⟨_, rfl, hboth.rest, hboth.time, hboth.cur, fun _ => hboth.block hpos⟩
    obtain ⟨b'', heq, hb''⟩ := hend
    rw [heq]
    have hcur : OnBlock b.deleteMatched.map b''.cur := hb''.block trivial
    rw [hb''.rest]
    exact ⟨⟨hsound.bordered, hsound.idle, fun hx => absurd rfl hx, fun _ => hcur.1⟩, heven,
      .inl hleft, fun _ => hcur⟩

theorem bridgeMark_inv (h : Inv b) :
    ∃ reply b', b.bridgeMark env = some (reply, b') ∧ Inv b' := by
  have he := h.elapse (env.lapse 0)
  simp only [bridgeMark]
  split
  · exact ⟨_, _, rfl, he⟩
  · next htime =>
    have hcur : Interior b.cur := he.cur (by omega)
    split
    · exact ⟨_, _, rfl, ⟨he.bordered, he.idle, fun _ => hcur, he.cur⟩, he.even, he.left, he.block⟩
    · next hx =>
      have hmarked : Interior b.marked := h.marked hx
      split
      · obtain ⟨found, way, hcheck, hiff, -⟩ := lianCheck_spec he.bordered hmarked hcur b.way
        have hrun : lianCheck (b.elapse (env.lapse 0)).map (b.elapse (env.lapse 0)).marked
            (b.elapse (env.lapse 0)).cur (b.elapse (env.lapse 0)).way = some (found, way) := hcheck
        have hway : Inv { b.elapse (env.lapse 0) with way := way } :=
          ⟨⟨he.bordered, he.idle, he.marked, he.cur⟩, he.even, he.left, he.block⟩
        rw [hrun, Option.bind_some]
        cases found with
        | true => exact matched_inv env hway ⟨hcur, hmarked, (hiff.mp rfl).symm⟩
        | false => exact ⟨_, _, rfl, hway⟩
      · exact ⟨_, _, rfl, ⟨he.bordered, he.idle, fun hne => absurd rfl hne, he.cur⟩, he.even,
          he.left, he.block⟩

/-! ## Help -/

theorem Recorded.plays {map : Map} {ops : List OpDelete} (h : Recorded map ops)
    (hmap : Bordered map) : ∃ map', Plays map ops map' ∧ (0 ∈ leavable map → blockCount map' = 0) := by
  by_cases hzero : 0 ∈ leavable map
  · obtain ⟨map', hplays, hcount⟩ := h.clears hzero
    exact ⟨map', hplays, fun _ => hcount⟩
  · obtain ⟨map', hlasts⟩ := h.lasts hzero
    exact ⟨map', hlasts.plays hmap, fun hmem => absurd hmem hzero⟩

theorem record_first {s : Solver} {map map' : Map} (h : Plays map s.record map')
    (hcnt : s.opCnt ≠ 0) : Legal map (s.ops 0) := by
  obtain ⟨n, hn⟩ := Nat.exists_eq_succ_of_ne_zero hcnt
  rw [Solver.record, hn, List.range_succ_eq_map, List.map_cons] at h
  cases h with
  | cons hop _ => exact hop

/-- The solver leaves the map alone, and its record begins with a pair to delete, when it is
not empty; it is not when all blocks can be deleted. -/
theorem lianLeft_help (h : Inv b) (hpos : 0 < b.left) :
    ∃ left s, lianLeft (opsMax + 1) b.left { b.toSolver with opCnt := 0 } = some (left, s) ∧
      s.map = b.map ∧ s.opCntTmp = 0 ∧ (s.opCnt ≠ 0 → Legal b.map (s.ops 0)) ∧
      (left = 0 → s.opCnt ≠ 0) := by
  have hcount := h.counted hpos
  have hfuel : blockCount b.map < 2 * (opsMax + 1) := by
    have := blockCount_le b.map
    omega
  obtain ⟨m, s, hrun, hleast, hmap, hidle, hrec⟩ :=
    lianLeft_top (s := { b.toSolver with opCnt := 0 }) h.bordered h.idle hfuel
  obtain ⟨map', hplays, hclear⟩ := Recorded.plays hrec h.bordered
  refine ⟨m, s, hcount ▸ hrun, hmap, hidle, record_first hplays, fun hzero hcnt => ?_⟩
  obtain rfl : m = 0 := by omega
  have hempty : s.record = [] := by rw [Solver.record, hcnt]; rfl
  have hleft := hplays.count
  have hnone := hclear hleast.1
  rw [hempty, List.length_nil] at hleft
  have hsame : blockCount b.map = 0 := by
    change blockCount map' + 2 * 0 = blockCount b.map at hleft
    omega
  omega

theorem markFirst_inv (h : Inv b) (hop : Legal b.map (b.ops 0)) :
    ∃ b', b.markFirst env = some b' ∧ Inv b' := by
  have hblock : OnBlock b.map (b.ops 0).stop := ⟨hop.stop, hop.linked.symm.2.1⟩
  have hb : Inv { b with marked := (b.ops 0).start, cur := (b.ops 0).stop } :=
    ⟨⟨h.bordered, h.idle, fun _ => hop.start, fun _ => hop.stop⟩, h.even, h.left, fun _ => hblock⟩
  obtain ⟨reply, b', hmark, hb'⟩ := bridgeMark_inv env hb
  exact ⟨b', by rw [markFirst, hmark]; rfl, hb'⟩

theorem bridgeHelp_inv (h : Inv b) : ∃ r b', b.bridgeHelp env = some (r, b') ∧ Inv b' := by
  simp only [bridgeHelp]
  split
  · exact ⟨0, b, rfl, h⟩
  · next hpos =>
    obtain ⟨left, s, hrun, hmap, hidle, hfirst, hsome⟩ := lianLeft_help h (not_le.mp hpos)
    have hb : Inv { b with toSolver := s } :=
      ⟨⟨hmap ▸ h.bordered, hidle, h.marked, h.cur⟩, hmap ▸ h.even, hmap ▸ h.left, hmap ▸ h.block⟩
    rw [hrun, Option.bind_some]
    dsimp only
    by_cases hcnt : s.opCnt = 0
    · rw [if_neg fun hzero => hsome hzero hcnt, if_pos hcnt]
      exact ⟨0, _, rfl, hb⟩
    · obtain ⟨b', hmark, hb'⟩ := markFirst_inv env hb (hmap ▸ hfirst hcnt)
      rw [hmark, if_neg hcnt]
      split
      · exact ⟨1, b', rfl, hb'⟩
      · exact ⟨0, b', rfl, hb'⟩

/-! ## Runs -/

theorem perform_inv (h : Inv b) (a : Action) : ∃ b', a.perform env b = some b' ∧ Inv b' := by
  cases a with
  | init => exact ⟨_, rfl, bridgeInit_inv env h⟩
  | move d =>
    obtain ⟨interval, b', hmove, hmoved⟩ := bridgeMove_spec (env.lapse 0) d h.bordered h.cur
    exact ⟨b', by rw [Action.perform, hmove]; rfl, hmoved.inv h⟩
  | next =>
    refine ⟨_, rfl, ?_⟩
    have he := h.elapse (env.lapse 0)
    simp only [bridgeNext]
    split
    · exact he
    · next htime =>
      have hcur : Interior (b.elapse (env.lapse 0)).cur := he.cur (by omega)
      obtain ⟨hx, hx', hy, hy'⟩ := hcur
      exact (makeCur_spec ⟨hy, hy'⟩ ⟨by omega, by omega⟩).inv he
  | mark =>
    obtain ⟨reply, b', hmark, hb'⟩ := bridgeMark_inv env h
    exact ⟨b', by rw [Action.perform, hmark]; rfl, hb'⟩
  | help =>
    obtain ⟨r, b', hhelp, hb'⟩ := bridgeHelp_inv env h
    exact ⟨b', by rw [Action.perform, hhelp]; rfl, hb'⟩
  | exit => exact ⟨_, rfl, bridgeExit_inv h⟩
  | reorder =>
    obtain ⟨hpaired, hcount, hfilled⟩ := lianReorder_spec env.rand ⟨h.bordered, h.even⟩
    refine ⟨_, rfl, ⟨hpaired.bordered, h.idle, h.marked, h.cur⟩, hpaired.even, ?_, fun hpos => ?_⟩
    · change b.left = blockCount (lianReorder env.rand b.map).2 ∨ _
      rw [hcount]
      exact h.left
    · obtain ⟨hin, hne⟩ := h.block hpos
      exact ⟨hin, hfilled _ hin hne⟩

theorem reachable_inv (h : Reachable game (fun _ _ => True) b) : Inv b := by
  apply h.invariant
  · rintro b rfl
    exact load_inv
  · intro b a b' hb _ hstep
    obtain ⟨b'', hperform, hb''⟩ := perform_inv a.2 hb a.1
    obtain rfl := Option.some.inj (hstep.symm.trans hperform)
    exact hb''

/-- In a running level the counter is the number of blocks, each type has an even number of
them, the border is untouched and the cursor is on a block while there is one; and every
action ends. -/
theorem board_parity (h : Reachable game (fun _ _ => True) b) :
    (Running b → b.left = blockCount b.map ∧
      (∀ type, type ≠ 0 → Even (typeCount b.map type)) ∧
      (∀ c, OnMap c → ¬ Interior c → b.map c = -1) ∧
      (0 < b.left → Interior b.cur ∧ b.map b.cur ≠ 0)) ∧
    ∀ (a : Action) (env : Surroundings), ∃ b', a.perform env b = some b' := by
  have hb := reachable_inv h
  refine ⟨fun hrunning => ⟨?_, hb.even, hb.bordered.border, hb.block⟩, fun a env => ?_⟩
  · obtain hleft | ⟨hleft, -⟩ := hb.left
    · exact hleft
    · unfold Running at hrunning
      omega
  · obtain ⟨b', hperform, -⟩ := perform_inv env hb a
    exact ⟨b', hperform⟩

/-- In the first level, where `rand` always gives 0, the first block and the next are marked. -/
def firstPair : Option Bridge :=
  [Action.init, .mark, .next, .mark].foldlM (fun b a => a.perform ⟨fun _ => 0, true, fun _ => 0⟩ b) load

theorem firstPair_left : firstPair.map left = some 50 := by decide +kernel

theorem performs_reachable {as : List Action} {env : Surroundings} {b b' : Bridge}
    (h : Reachable game (fun _ _ => True) b) (hb : as.foldlM (fun b a => a.perform env b) b = some b') :
    Reachable game (fun _ _ => True) b' := by
  induction as generalizing b with
  | nil =>
    cases hb
    exact h
  | cons a as ih =>
    rw [List.foldlM_cons] at hb
    obtain ⟨b₁, hfirst, hrest⟩ := Option.bind_eq_some_iff.mp hb
    exact ih (h.step trivial (a := (a, env)) hfirst) hrest

theorem board_parity_pair : ∃ b, firstPair = some b ∧ b.left = 50 ∧ b.left = blockCount b.map ∧
    Interior b.cur ∧ b.map b.cur ≠ 0 := by
  obtain ⟨b, hb, hfifty⟩ := Option.map_eq_some_iff.mp firstPair_left
  have hreach : Reachable game (fun _ _ => True) b := performs_reachable (.init rfl) hb
  obtain ⟨hleft, -, -, hblock⟩ := (board_parity hreach).1 (by rw [Running, hfifty]; decide)
  exact ⟨b, hb, hfifty, hleft, hblock (by rw [hfifty]; decide)⟩

end Bridge

end DfewOS.Lian
