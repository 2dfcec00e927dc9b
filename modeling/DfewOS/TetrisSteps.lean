import DfewOS.TetrisScore

/-!
# The auto player does what it has scored

`find_steps` finds a placement with the greatest score, and its messages bring the block
there: the turns and the motions to the side stay in the empty lines at the top, and
`bottom` stops where the space below the placement ends.
-/

namespace DfewOS.Tetris

variable {scr : Screen} {blk : Block}

/-! ## The best placement -/

structure IsPlacement (columnNum : ℕ) (blk b : Block) : Prop where
  rotation : colorMap b.type = colorMap blk.type
  left : 0 ≤ b.base.x
  right : b.base.x + getTypeColumnNum b.type ≤ columnNum
  top : b.base.y = blk.base.y

theorem mem_blockTypes (type : BlockType) : type ∈ blockTypes := by
  cases type <;> decide

theorem mem_rotations (t type : BlockType) :
    type ∈ (List.range (getTurnNum t).1).map (fun k => blockType ((getTurnNum t).2.num + k)) ↔
      colorMap type = colorMap t := by
  have hall : ∀ t ∈ blockTypes, ∀ type ∈ blockTypes,
      type ∈ (List.range (getTurnNum t).1).map (fun k => blockType ((getTurnNum t).2.num + k)) ↔
        colorMap type = colorMap t := by
    decide
  exact hall t (mem_blockTypes t) type (mem_blockTypes type)

theorem mem_placements {columnNum : ℕ} {b : Block} :
    b ∈ placements columnNum blk ↔ IsPlacement columnNum blk b := by
  obtain ⟨⟨x, y⟩, type⟩ := b
  have hrot := mem_rotations blk.type type
  simp only [List.mem_map, List.mem_range] at hrot
  simp only [placements, List.mem_flatMap, List.mem_range, List.mem_map, Int.mem_range_iff]
  constructor
  · rintro ⟨k, hk, x', ⟨hx, hx'⟩, heq⟩
    simp only [Block.mk.injEq, GridPath.Cell.mk.injEq] at heq
    obtain ⟨⟨rfl, rfl⟩, rfl⟩ := heq
    exact ⟨hrot.mp ⟨k, hk, rfl⟩, hx, by dsimp only; omega, rfl⟩
  · rintro ⟨hcolor, hleft, hright, htop⟩
    obtain ⟨k, hk, rfl⟩ := hrot.mpr hcolor
    dsimp only at hleft hright htop
    exact ⟨k, hk, x, ⟨hleft, by omega⟩, by rw [htop]⟩

def scoreOf (scr : Screen) (b : Block) : ℤ := ((scr.getScore b).map Prod.fst).getD 0

theorem tryPlacements_spec {bs : List Block}
    (hbs : ∀ b ∈ bs, scr.getScore b = some (scoreOf scr b, scr)) (best : Best) :
    ∃ best', tryPlacements bs best scr = some (best', scr) ∧ best.maxScore ≤ best'.maxScore ∧
      (∀ b ∈ bs, scoreOf scr b ≤ best'.maxScore) ∧
      (best' = best ∨ ∃ b ∈ bs, best' = ⟨scoreOf scr b, b.type, b.base.x⟩) := by
  induction bs generalizing best with
  | nil => exact ⟨best, rfl, le_refl _, nofun, .inl rfl⟩
  | cons b bs ih =>
    let next := if best.maxScore < scoreOf scr b then ⟨scoreOf scr b, b.type, b.base.x⟩ else best
    obtain ⟨best', hrun, hle, hall, hmem⟩ :=
      ih (fun b' hb' => hbs b' (List.mem_cons_of_mem b hb')) next
    have hnext : best.maxScore ≤ next.maxScore ∧ scoreOf scr b ≤ next.maxScore ∧
        (next = best ∨ next = ⟨scoreOf scr b, b.type, b.base.x⟩) := by
      by_cases hlt : best.maxScore < scoreOf scr b
      · rw [show next = ⟨scoreOf scr b, b.type, b.base.x⟩ from if_pos hlt]
        exact ⟨hlt.le, le_refl _, .inr rfl⟩
      · rw [show next = best from if_neg hlt]
        exact ⟨le_refl _, not_lt.mp hlt, .inl rfl⟩
    refine ⟨best', ?_, hnext.1.trans hle, fun b' hb' => ?_, ?_⟩
    · simp only [tryPlacements, hbs b List.mem_cons_self, Option.bind_some]
      exact hrun
    · obtain rfl | htail := List.mem_cons.mp hb'
      · exact hnext.2.1.trans hle
      · exact hall b' htail
    · obtain rfl | ⟨b', hb', hbest⟩ := hmem
      · exact hnext.2.2.imp_right fun h => ⟨b, List.mem_cons_self, h⟩
      · exact .inr ⟨b', List.mem_cons_of_mem b hb', hbest⟩

/-! ## The list of steps -/

theorem pushTimes_eq (msg : Msg) (n : ℕ) {steps : Steps} (h : steps.length + n ≤ autoMsgMax) :
    steps.pushTimes msg n = some (steps ++ List.replicate n msg) := by
  induction n generalizing steps with
  | zero => rw [Steps.pushTimes, List.replicate_zero, List.append_nil]
  | succ n ih =>
    have hroom : steps.length < autoMsgMax := by omega
    rw [Steps.pushTimes, Steps.push, if_pos hroom, Option.bind_some, ih (by simp; omega),
      List.append_assoc, List.replicate_succ]
    rfl

def turns (t type : BlockType) : ℕ :=
  (if type.num < t.num then type.num + (getTurnNum t).1 else type.num) - t.num

theorem turns_spec {t type : BlockType} (h : colorMap type = colorMap t) :
    turns t type ≤ 3 ∧ (Ctrl.newType^[turns t type]) t = type ∧ (t = .o0 → turns t type = 0) := by
  have hall : ∀ t ∈ blockTypes, ∀ type ∈ blockTypes, colorMap type = colorMap t →
      turns t type ≤ 3 ∧ (Ctrl.newType^[turns t type]) t = type ∧ (t = .o0 → turns t type = 0) := by
    decide
  exact hall t (mem_blockTypes t) type (mem_blockTypes type) h

theorem colorMap_newType (type : BlockType) (h : type ≠ .o0) :
    colorMap (Ctrl.newType type) = colorMap type ∧ Ctrl.newType type ≠ .o0 := by
  cases type <;> first | exact absurd rfl h | decide

def sideMsg (x x' : ℤ) : Msg := if x < x' then .right else .left

theorem steps_eq {best : Best} (hcolor : colorMap best.type = colorMap blk.type)
    (hx : (best.baseX - blk.base.x).natAbs ≤ 46) :
    best.steps blk [] = some (List.replicate (turns blk.type best.type) .turn ++
      List.replicate (best.baseX - blk.base.x).natAbs (sideMsg blk.base.x best.baseX) ++
        [.bottom]) := by
  have hturns := (turns_spec hcolor).1
  have hmax : autoMsgMax = 50 := rfl
  have hturn : Steps.pushTimes .turn (turns blk.type best.type) [] =
      some (List.replicate (turns blk.type best.type) .turn) :=
    pushTimes_eq .turn _ (by rw [List.length_nil]; omega)
  unfold turns at hturn hturns ⊢
  simp only [Best.steps, hturn, Option.bind_some]
  have hside : ∀ (msg : Msg) (n : ℕ), n ≤ 46 → ∀ (m : ℕ), m ≤ 3 →
      (Steps.pushTimes msg n (List.replicate m .turn)).bind (Steps.push .bottom) =
        some (List.replicate m .turn ++ List.replicate n msg ++ [.bottom]) := by
    intro msg n hn m hm
    rw [pushTimes_eq msg n (by rw [List.length_replicate]; omega), Option.bind_some, Steps.push,
      if_pos (by rw [List.length_append, List.length_replicate, List.length_replicate]; omega)]
  unfold sideMsg
  split
  · rw [show (best.baseX - blk.base.x).toNat = (best.baseX - blk.base.x).natAbs by omega]
    exact hside .right _ hx _ hturns
  · rw [show (blk.base.x - best.baseX).toNat = (best.baseX - blk.base.x).natAbs by omega]
    exact hside .left _ hx _ hturns

/-! ## Running the steps -/

theorem play_append (a b : List (Msg × ℕ)) (job : Job) :
    job.play (a ++ b) = (job.play a).bind (Job.play b) := by
  induction a generalizing job with
  | nil => rfl
  | cons m a ih =>
    simp only [List.cons_append, Job.play]
    split
    · rfl
    · rw [Option.bind_assoc]
      congr 1
      funext job'
      exact ih job'

theorem play_cons {job : Job} (h : job.ended = false) (msg : Msg) (rand : ℕ) (rest : List (Msg × ℕ)) :
    job.play ((msg, rand) :: rest) = (job.process rand msg).bind (Job.play rest) := by
  simp only [Job.play, h, Bool.false_eq_true, if_false]

def Ctrl.moveTo (blk : Block) (moved : List Event) (ctrl : Ctrl) : Ctrl :=
  { ctrl with blk := blk, events := moved ++ ctrl.events }

def Travelled (job job' : Job) (blk : Block) : Prop :=
  ∃ moved, job' = { job with ctrl := job.ctrl.moveTo blk moved } ∧
    ∀ e ∈ moved, ∃ b, e = Event.moved job.ctrl.scr b

theorem Travelled.refl (job : Job) : Travelled job job job.ctrl.blk := ⟨[], rfl, nofun⟩

theorem Travelled.assign (job : Job) (blk : Block) :
    Travelled job { job with ctrl := job.ctrl.assign blk } blk :=
  ⟨[.moved job.ctrl.scr blk], rfl, fun _ he => ⟨blk, List.mem_singleton.mp he⟩⟩

theorem Travelled.trans {j₁ j₂ j₃ : Job} {blk blk' : Block} (h : Travelled j₁ j₂ blk)
    (h' : Travelled j₂ j₃ blk') : Travelled j₁ j₃ blk' := by
  obtain ⟨moved, rfl, hmoved⟩ := h
  obtain ⟨moved', rfl, hmoved'⟩ := h'
  refine ⟨moved' ++ moved, by simp only [Ctrl.moveTo, List.append_assoc], fun e he => ?_⟩
  obtain he | he := List.mem_append.mp he
  · exact hmoved' e he
  · exact hmoved e he

theorem Travelled.kept {job job' : Job} {blk : Block} (h : Travelled job job' blk) :
    job'.ctrl.scr = job.ctrl.scr ∧ job'.ctrl.blk = blk ∧ job'.holdOn = job.holdOn ∧
      job'.ctrl.fullMask = job.ctrl.fullMask := by
  obtain ⟨moved, rfl, -⟩ := h
  exact ⟨rfl, rfl, rfl, rfl⟩

/-- The block is on the first line of a screen with five empty lines at its top. -/
structure AtTop (job : Job) : Prop where
  running : job.ended = false
  columns : job.ctrl.scr.columnNum ≤ 31
  rows : 5 ≤ job.ctrl.scr.rowNum
  empty : ∀ y < 5, job.ctrl.scr.scrMap y = 0
  line : job.ctrl.blk.base.y = 0

theorem AtTop.travelled {job job' : Job} {blk : Block} (h : AtTop job) (ht : Travelled job job' blk)
    (hline : blk.base.y = 0) : AtTop job' := by
  obtain ⟨moved, rfl, -⟩ := ht
  exact ⟨h.running, h.columns, h.rows, h.empty, hline⟩

/-- The five lines at the top have room for a block on the first and on the second line. -/
theorem free_top (h : scr.Aligned blk) (hcol : scr.columnNum ≤ 31) (hrow : 5 ≤ scr.rowNum)
    (hempty : ∀ y < 5, scr.scrMap y = 0) (hy : blk.base.y ≤ 1) :
    scr.anyOccupied blk.coors = false := by
  have hleft := h.left
  have hright := h.right
  have htop := h.top
  have hnum := (Screen.blockMap_columns blk.type).2.2.1
  have hnear : Near blk := by constructor <;> omega
  rw [anyOccupied_coors hnear]
  constructor
  · intro c hc
    have hbounds := coors_bounds hc
    refine ⟨⟨h.inside_x hc, by omega, by omega⟩, ?_⟩
    rw [hempty c.y.toNat (by omega)]
    exact BitVec.getLsbD_zero
  · intro c hc
    have hbounds := coors_bounds hc
    omega

theorem play_turns (rand n : ℕ) {job : Job} (h : AtTop job) (hleft : 0 ≤ job.ctrl.blk.base.x)
    (hright : job.ctrl.blk.base.x + 4 ≤ job.ctrl.scr.columnNum)
    (htype : job.ctrl.blk.type = .o0 → n = 0) :
    ∃ job', job.play (List.replicate n (.turn, rand)) = some job' ∧
      Travelled job job' { job.ctrl.blk with type := (Ctrl.newType^[n]) job.ctrl.blk.type } := by
  induction n generalizing job with
  | zero => exact ⟨job, rfl, .refl job⟩
  | succ n ih =>
    have hne : job.ctrl.blk.type ≠ .o0 := fun ho => Nat.succ_ne_zero n (htype ho)
    let blk : Block := { job.ctrl.blk with type := Ctrl.newType job.ctrl.blk.type }
    have hline : blk.base.y = 0 := h.line
    have hnum := (Screen.blockMap_columns blk.type).2.2.2
    have hfree : job.ctrl.scr.anyOccupied blk.coors = false := by
      apply free_top _ h.columns h.rows h.empty (by omega)
      exact ⟨hleft, by dsimp only [blk] at hnum ⊢; omega, by omega⟩
    have hturn : job.process rand .turn = some { job with ctrl := job.ctrl.assign blk } := by
      simp only [Job.process, Ctrl.turn, if_neg hne]
      rw [if_neg (Bool.eq_false_iff.mp hfree)]
    have hstep := Travelled.assign job blk
    obtain ⟨job', hrun, htravel⟩ := ih (h.travelled hstep hline) hleft hright fun ho =>
      absurd ho (colorMap_newType job.ctrl.blk.type hne).2
    refine ⟨job', ?_, hstep.trans htravel⟩
    rw [List.replicate_succ, play_cons h.running, hturn, Option.bind_some]
    exact hrun

theorem shift_shift (dx dy dx' dy' : ℤ) (blk : Block) :
    (blk.shift dx dy).shift dx' dy' = blk.shift (dx + dx') (dy + dy') := by
  simp only [Block.shift, add_assoc]

theorem shift_zero (blk : Block) : blk.shift 0 0 = blk := by
  simp only [Block.shift, add_zero]

def IsSide (msg : Msg) (step : ℤ) : Prop := msg = .right ∧ step = 1 ∨ msg = .left ∧ step = -1

theorem process_side {msg : Msg} {step : ℤ} (h : IsSide msg step) (rand : ℕ) (job : Job) :
    job.process rand msg = some { job with ctrl := (job.ctrl.sideways step).2 } := by
  obtain ⟨rfl, rfl⟩ | ⟨rfl, rfl⟩ := h <;> rfl

theorem play_side (rand n : ℕ) {job : Job} (h : AtTop job) {msg : Msg} {step : ℤ}
    (hmsg : IsSide msg step) (hstart : job.ctrl.scr.Aligned job.ctrl.blk)
    (hend : job.ctrl.scr.Aligned (job.ctrl.blk.shift (step * n) 0)) :
    ∃ job', job.play (List.replicate n (msg, rand)) = some job' ∧
      Travelled job job' (job.ctrl.blk.shift (step * n) 0) := by
  induction n generalizing job with
  | zero =>
    rw [Nat.cast_zero, mul_zero, shift_zero]
    exact ⟨job, rfl, .refl job⟩
  | succ n ih =>
    have hsum : step * ((n + 1 : ℕ) : ℤ) = step + step * n := by
      rw [Nat.cast_succ, mul_add, mul_one, add_comm]
    rw [hsum] at hend ⊢
    have hstep : step = 1 ∨ step = -1 := hmsg.elim (fun h => .inl h.2) fun h => .inr h.2
    have hnext : job.ctrl.scr.Aligned (job.ctrl.blk.shift step 0) := by
      obtain ⟨hleft, hright, htop⟩ := hend
      obtain ⟨hleft', hright', htop'⟩ := hstart
      simp only [Block.shift] at *
      obtain rfl | rfl := hstep <;> constructor <;> dsimp only <;> omega
    have hline : (job.ctrl.blk.shift step 0).base.y = 0 := by
      simp only [Block.shift, h.line, add_zero]
    have hfree := free_top hnext h.columns h.rows h.empty (by omega)
    have hnear : Near (job.ctrl.blk.shift step 0) := by
      have hcol := h.columns
      have hleft := hnext.left
      have hright := hnext.right
      have hnum := (Screen.blockMap_columns (job.ctrl.blk.shift step 0).type).2.2.1
      constructor <;> omega
    have hmove : job.process rand msg =
        some { job with ctrl := job.ctrl.assign (job.ctrl.blk.shift step 0) } := by
      rw [process_side hmsg, sideways_eq hnear, if_neg (Bool.eq_false_iff.mp hfree)]
    have htravel := Travelled.assign job (job.ctrl.blk.shift step 0)
    have hend' : job.ctrl.scr.Aligned ((job.ctrl.blk.shift step 0).shift (step * n) 0) := by
      rwa [shift_shift, add_zero]
    obtain ⟨job', hrun, htravel'⟩ := ih (h.travelled htravel hline) hnext hend'
    refine ⟨job', ?_, ?_⟩
    · rw [List.replicate_succ, play_cons h.running, hmove, Option.bind_some]
      exact hrun
    · have hboth := htravel.trans htravel'
      change Travelled job job' ((job.ctrl.blk.shift step 0).shift (step * n) 0) at hboth
      rwa [shift_shift, add_zero] at hboth

theorem bottomLoop_drop (rand : ℕ) {n fuel : ℕ} {ctrl : Ctrl}
    (hx : -1 ≤ ctrl.blk.base.x ∧ ctrl.blk.base.x < 32764)
    (hy : 0 ≤ ctrl.blk.base.y ∧ ctrl.blk.base.y < 32768)
    (hfree : ∀ k : ℕ, 1 ≤ k → k ≤ n → ctrl.scr.anyOccupied (ctrl.blk.shift 0 k).coors = false)
    (hstop : ctrl.scr.anyOccupied (ctrl.blk.shift 0 (n + 1)).coors = true)
    (hpos : 0 < ctrl.blk.base.y + n) (hfuel : n < fuel) :
    ∃ moved, (∀ e ∈ moved, ∃ b, e = Event.moved ctrl.scr b) ∧
      ctrl.bottomLoop rand fuel = (ctrl.moveTo (ctrl.blk.shift 0 n) moved).fixBlock.map
        fun ctrl => (.error, ctrl.newBlock rand) := by
  induction n generalizing ctrl fuel with
  | zero =>
    obtain ⟨fuel, rfl⟩ := Nat.exists_eq_succ_of_ne_zero hfuel.ne'
    have hblocked : ctrl.blocked = true := by
      rw [blocked_eq]
      simpa using hstop
    refine ⟨[], nofun, ?_⟩
    rw [Ctrl.bottomLoop, if_pos hblocked, if_pos (by omega), Nat.cast_zero, shift_zero]
    rfl
  | succ n ih =>
    obtain ⟨fuel, rfl⟩ := Nat.exists_eq_succ_of_ne_zero (Nat.ne_of_gt (Nat.zero_lt_of_lt hfuel))
    have hone := hfree 1 (le_refl 1) (by omega)
    rw [Nat.cast_one] at hone
    have hnear : Near (ctrl.blk.shift 0 1) := by
      constructor <;> simp only [Block.shift] <;> omega
    have hlow : ctrl.blk.base.y + 1 < 32768 := by
      obtain ⟨-, pos, hp, hzero⟩ := blockMap_base ctrl.blk.type
      have hline := ((anyOccupied_coors hnear).mp hone).2 _ (List.mem_map_of_mem hp)
      simp only [Block.shift, hzero, add_zero] at hline
      exact hline
    have hdescend : ctrl.descend = ctrl.assign (ctrl.blk.shift 0 1) :=
      descend_eq ⟨hx, by omega⟩ hlow
    have hshift : ∀ k : ℤ, (ctrl.blk.shift 0 1).shift 0 k = ctrl.blk.shift 0 (k + 1) := by
      intro k
      rw [shift_shift, add_zero, add_comm]
    let next := ctrl.assign (ctrl.blk.shift 0 1)
    have hx' : -1 ≤ next.blk.base.x ∧ next.blk.base.x < 32764 := by
      simpa only [next, Ctrl.assign, Block.shift, add_zero] using hx
    have hy' : next.blk.base.y = ctrl.blk.base.y + 1 := rfl
    have hfree' : ∀ k : ℕ, 1 ≤ k → k ≤ n →
        next.scr.anyOccupied (next.blk.shift 0 k).coors = false := by
      intro k hk hkn
      have hk' := hfree (k + 1) (by omega) (by omega)
      rw [Nat.cast_succ] at hk'
      simp only [next, Ctrl.assign, hshift]
      exact hk'
    have hstop' : next.scr.anyOccupied (next.blk.shift 0 (n + 1)).coors = true := by
      rw [Nat.cast_succ] at hstop
      simp only [next, Ctrl.assign, hshift]
      exact hstop
    obtain ⟨moved, hmoved, hrun⟩ := ih hx' (by omega) hfree' hstop' (by omega)
      (show n < fuel by omega)
    refine ⟨moved ++ [.moved ctrl.scr (ctrl.blk.shift 0 1)], fun e he => ?_, ?_⟩
    · obtain he | he := List.mem_append.mp he
      · exact hmoved e he
      · exact ⟨_, List.mem_singleton.mp he⟩
    · have hblocked : ¬ ctrl.blocked = true := by
        rw [blocked_eq, hone]
        exact Bool.false_ne_true
      rw [Ctrl.bottomLoop, if_neg hblocked, hdescend, hrun]
      simp only [next, Ctrl.moveTo, Ctrl.assign, hshift, Nat.cast_succ, List.append_assoc,
        List.singleton_append]

def Fixes (job job' : Job) (blk : Block) : Prop :=
  ∃ moved, job'.ctrl.events = .fixed job.ctrl.scr blk :: (moved ++ job.ctrl.events) ∧
    ∀ e ∈ moved, ∃ b, e = Event.moved job.ctrl.scr b

theorem Travelled.fixes {j₁ j₂ j₃ : Job} {blk blk' : Block} (h : Travelled j₁ j₂ blk)
    (h' : Fixes j₂ j₃ blk') : Fixes j₁ j₃ blk' := by
  obtain ⟨moved, rfl, hmoved⟩ := h
  obtain ⟨moved', hevents, hmoved'⟩ := h'
  refine ⟨moved' ++ moved, by rw [hevents, List.append_assoc]; rfl, fun e he => ?_⟩
  obtain he | he := List.mem_append.mp he
  · exact hmoved' e he
  · exact hmoved e he

theorem play_bottom (rand : ℕ) {n : ℕ} {job : Job} (h : AtTop job) (hhold : job.holdOn = false)
    (hmask : job.ctrl.fullMask ≠ 0) (halign : job.ctrl.scr.Aligned job.ctrl.blk)
    (hfree : ∀ k : ℕ, 1 ≤ k → k ≤ n →
      job.ctrl.scr.anyOccupied (job.ctrl.blk.shift 0 k).coors = false)
    (hstop : job.ctrl.scr.anyOccupied (job.ctrl.blk.shift 0 (n + 1)).coors = true)
    (hn : 1 ≤ n) (hrow : n ≤ job.ctrl.scr.rowNum) :
    ∃ job', job.play [(.bottom, rand)] = some job' ∧ Fixes job job' (job.ctrl.blk.shift 0 n) := by
  have hline := h.line
  have hcol := h.columns
  have hleft := halign.left
  have hright := halign.right
  have hnum := (Screen.blockMap_columns job.ctrl.blk.type).2.2.1
  obtain ⟨moved, hmoved, hrun⟩ := bottomLoop_drop rand ⟨by omega, by omega⟩ ⟨by omega, by omega⟩
    hfree hstop (by omega) (show n < job.ctrl.scr.rowNum + 1 by omega)
  obtain ⟨ctrl', hfix, hkept⟩ := fixBlock_total (job.ctrl.moveTo (job.ctrl.blk.shift 0 n) moved)
    hmask (hfree n hn (le_refl n))
  rw [hfix, Option.map_some] at hrun
  have hprocess : job.process rand .bottom = some (job.after (.error, ctrl'.newBlock rand)) := by
    simp only [Job.process, hhold, Bool.false_eq_true, if_false, Ctrl.bottom, hrun, Option.map_some]
  refine ⟨_, by rw [play_cons h.running, hprocess]; rfl, moved, hkept.events, hmoved⟩

/-! ## The whole game of one block -/

/-- A new block below which five lines are empty. -/
structure Fresh (job : Job) : Prop where
  running : job.ended = false
  hold : job.holdOn = false
  columns : 6 ≤ job.ctrl.scr.columnNum ∧ job.ctrl.scr.columnNum ≤ 31
  rows : 5 ≤ job.ctrl.scr.rowNum
  empty : ∀ y < 5, job.ctrl.scr.scrMap y = 0
  base : job.ctrl.blk.base = spawnBase job.ctrl.scr.columnNum
  mask : job.ctrl.fullMask = job.ctrl.scr.fullMask

theorem Fresh.atTop {job : Job} (h : Fresh job) : AtTop job :=
  ⟨h.running, h.columns.2, h.rows, h.empty, by rw [h.base]; rfl⟩

theorem Fresh.aligned {job : Job} (h : Fresh job) {b : Block}
    (hb : IsPlacement job.ctrl.scr.columnNum job.ctrl.blk b) : job.ctrl.scr.Aligned b := by
  have hline := h.atTop.line
  have htop := hb.top
  exact ⟨hb.left, hb.right, by omega⟩

theorem Fresh.space {job : Job} (h : Fresh job) {b : Block}
    (hb : IsPlacement job.ctrl.scr.columnNum job.ctrl.blk b) :
    1 ≤ job.ctrl.scr.minIntervalBetweenBlkScr b := by
  have hline := h.atTop.line
  exact Screen.minInterval_pos (h.aligned hb) (hb.top.trans hline) h.rows h.empty

theorem Fresh.score {job : Job} (h : Fresh job) (hrow : job.ctrl.scr.rowNum ≤ 65536) {b : Block}
    (hb : IsPlacement job.ctrl.scr.columnNum job.ctrl.blk b) :
    job.ctrl.scr.getScore b = some (scoreOf job.ctrl.scr b, job.ctrl.scr) ∧
      intMin < scoreOf job.ctrl.scr b := by
  have hspace := h.space hb
  obtain ⟨score, hrun, hmin⟩ := Screen.getScore_spec (h.aligned hb) (by omega)
  have hscore : scoreOf job.ctrl.scr b = score := by rw [scoreOf, hrun]; rfl
  rw [hscore]
  exact ⟨hrun, hmin h.columns.2 hrow⟩

def stepsTo (blk b : Block) : Steps :=
  List.replicate (turns blk.type b.type) .turn ++
    List.replicate (b.base.x - blk.base.x).natAbs (sideMsg blk.base.x b.base.x) ++ [.bottom]

theorem findSteps_spec {job : Job} (h : Fresh job) (hrow : job.ctrl.scr.rowNum ≤ 65536) :
    ∃ b, IsPlacement job.ctrl.scr.columnNum job.ctrl.blk b ∧
      findSteps job.ctrl.blk [] job.ctrl.scr = some (stepsTo job.ctrl.blk b, job.ctrl.scr) ∧
      (stepsTo job.ctrl.blk b).length ≤ autoMsgMax ∧
      ∀ b', IsPlacement job.ctrl.scr.columnNum job.ctrl.blk b' →
        scoreOf job.ctrl.scr b' ≤ scoreOf job.ctrl.scr b := by
  have hcol := h.columns
  have hx : job.ctrl.blk.base.x = (job.ctrl.scr.columnNum / 2 : ℕ) - 1 := by rw [h.base]; rfl
  have hscores : ∀ b ∈ placements job.ctrl.scr.columnNum job.ctrl.blk,
      job.ctrl.scr.getScore b = some (scoreOf job.ctrl.scr b, job.ctrl.scr) := fun b hb =>
    (h.score hrow (mem_placements.mp hb)).1
  obtain ⟨best, hrun, -, hall, hmem⟩ :=
    tryPlacements_spec hscores ⟨intMin, job.ctrl.blk.type, job.ctrl.blk.base.x⟩
  -- the block where it is is a placement, so there is one
  have hself : IsPlacement job.ctrl.scr.columnNum job.ctrl.blk job.ctrl.blk := by
    have hnum := (Screen.blockMap_columns job.ctrl.blk.type).2.2.2
    exact ⟨rfl, by omega, by omega, rfl⟩
  have hfound : ∃ b ∈ placements job.ctrl.scr.columnNum job.ctrl.blk,
      best = ⟨scoreOf job.ctrl.scr b, b.type, b.base.x⟩ := by
    obtain rfl | hb := hmem
    · have hle := hall _ (mem_placements.mpr hself)
      have hlt := (h.score hrow hself).2
      dsimp only at hle
      omega
    · exact hb
  obtain ⟨b, hb, rfl⟩ := hfound
  have hplace := mem_placements.mp hb
  have hnum := (Screen.blockMap_columns b.type).2.2.1
  have hright := hplace.right
  have hleft := hplace.left
  have hside : (b.base.x - job.ctrl.blk.base.x).natAbs ≤ 46 := by omega
  have hsteps : Best.steps ⟨scoreOf job.ctrl.scr b, b.type, b.base.x⟩ job.ctrl.blk [] =
      some (stepsTo job.ctrl.blk b) := steps_eq hplace.rotation hside
  refine ⟨b, hplace, ?_, ?_, fun b' hb' => hall b' (mem_placements.mpr hb')⟩
  · rw [findSteps, hrun, Option.bind_some]
    dsimp only
    rw [hsteps]
    rfl
  · have hturns := (turns_spec hplace.rotation).1
    have hmax : autoMsgMax = 50 := rfl
    simp only [stepsTo, List.length_append, List.length_replicate, List.length_singleton]
    omega

/-- The steps to a placement end with the block fixed `n` lines below it, if `bottom` can go
down by `n` lines there. -/
theorem play_steps {job : Job} (h : Fresh job) (rand : ℕ) {b : Block}
    (hb : IsPlacement job.ctrl.scr.columnNum job.ctrl.blk b) {n : ℕ} (hn : 1 ≤ n)
    (hrow : n ≤ job.ctrl.scr.rowNum)
    (hfree : ∀ k : ℕ, 1 ≤ k → k ≤ n → job.ctrl.scr.anyOccupied (b.shift 0 k).coors = false)
    (hstop : job.ctrl.scr.anyOccupied (b.shift 0 (n + 1)).coors = true) :
    ∃ job', job.play ((stepsTo job.ctrl.blk b).map (·, rand)) = some job' ∧
      Fixes job job' (b.shift 0 n) := by
  have hcol := h.columns
  have hx : job.ctrl.blk.base.x = (job.ctrl.scr.columnNum / 2 : ℕ) - 1 := by rw [h.base]; rfl
  have hline := h.atTop.line
  obtain ⟨-, hiter, hzero⟩ := turns_spec hb.rotation
  obtain ⟨job₁, hturns, htravel₁⟩ := play_turns rand (turns job.ctrl.blk.type b.type) h.atTop
    (by omega) (by omega) hzero
  rw [hiter] at htravel₁
  have htop₁ := h.atTop.travelled htravel₁ hline
  obtain ⟨hscr₁, hblk₁, -, -⟩ := htravel₁.kept
  let step : ℤ := if job.ctrl.blk.base.x < b.base.x then 1 else -1
  have hside : IsSide (sideMsg job.ctrl.blk.base.x b.base.x) step := by
    unfold IsSide sideMsg
    by_cases hlt : job.ctrl.blk.base.x < b.base.x
    · exact .inl ⟨if_pos hlt, if_pos hlt⟩
    · exact .inr ⟨if_neg hlt, if_neg hlt⟩
  have htarget : job₁.ctrl.blk.shift (step * (b.base.x - job.ctrl.blk.base.x).natAbs) 0 = b := by
    have hdist : step * (b.base.x - job.ctrl.blk.base.x).natAbs = b.base.x - job.ctrl.blk.base.x := by
      simp only [step]
      split <;> omega
    have hy := hb.top
    rw [hdist, hblk₁]
    obtain ⟨⟨x, y⟩, type⟩ := b
    simp only [Block.shift, Block.mk.injEq, GridPath.Cell.mk.injEq, and_true]
    dsimp only at hy
    omega
  have hstart : job₁.ctrl.scr.Aligned job₁.ctrl.blk := by
    have hnum := (Screen.blockMap_columns b.type).2.2.2
    rw [hscr₁, hblk₁]
    constructor <;> dsimp only <;> omega
  obtain ⟨job₂, hmoves, htravel₂⟩ := play_side rand (b.base.x - job.ctrl.blk.base.x).natAbs htop₁
    hside hstart (by rw [htarget, hscr₁]; exact h.aligned hb)
  rw [htarget] at htravel₂
  have htop₂ := htop₁.travelled htravel₂ (hb.top.trans hline)
  have htravel := htravel₁.trans htravel₂
  obtain ⟨hscr₂, hblk₂, hhold₂, hmask₂⟩ := htravel.kept
  obtain ⟨job₃, hbottom, hfixes⟩ := play_bottom rand htop₂ (hhold₂.trans h.hold)
    (by rw [hmask₂, h.mask]; exact fullMask_ne_zero (by omega))
    (by rw [hscr₂, hblk₂]; exact h.aligned hb) (by rw [hscr₂, hblk₂]; exact hfree)
    (by rw [hscr₂, hblk₂]; exact hstop) hn (by rw [hscr₂]; exact hrow)
  rw [hblk₂] at hfixes
  refine ⟨job₃, ?_, htravel.fixes hfixes⟩
  simp only [stepsTo, List.map_append, List.map_replicate, List.map_singleton, play_append, hturns,
    Option.bind_some, hmoves, hbottom]

/-- What the messages of `find_steps` do: they fix the block as a placement with the greatest
score, at the end of the space below it. -/
def Realised (job : Job) (rand : ℕ) : Prop :=
  ∃ steps, findSteps job.ctrl.blk [] job.ctrl.scr = some (steps, job.ctrl.scr) ∧
    steps.length ≤ autoMsgMax ∧
    ∃ b score, IsPlacement job.ctrl.scr.columnNum job.ctrl.blk b ∧
      job.ctrl.scr.getScore b = some (score, job.ctrl.scr) ∧
      (∀ b', IsPlacement job.ctrl.scr.columnNum job.ctrl.blk b' →
        ∃ score', job.ctrl.scr.getScore b' = some (score', job.ctrl.scr) ∧ score' ≤ score) ∧
      ∃ job', job.play (steps.map (·, rand)) = some job' ∧
        Fixes job job' (b.shift 0 (job.ctrl.scr.minIntervalBetweenBlkScr b))

/-- As far as the coordinates of a node are not too great for a `short`, the messages bring the
block to a best placement. -/
theorem auto_realised {job : Job} (h : Fresh job) (hrow : job.ctrl.scr.rowNum ≤ 32768) (rand : ℕ) :
    Realised job rand := by
  obtain ⟨b, hb, hsteps, hlen, hbest⟩ := findSteps_spec h (by omega)
  have halign := h.aligned hb
  have hspace := h.space hb
  have hcol := h.columns
  have hline : b.base.y = 0 := hb.top.trans h.atTop.line
  have hnum := (Screen.blockMap_columns b.type).2.2.1
  have hleft := hb.left
  have hright := hb.right
  let space := job.ctrl.scr.minIntervalBetweenBlkScr b
  obtain ⟨n, hspace_eq⟩ := Int.eq_ofNat_of_zero_le (show 0 ≤ space by omega)
  have hclear : ∀ k : ℕ, k ≤ n → Clear job.ctrl.scr (b.shift 0 k) := fun k hk =>
    Screen.minInterval_clear halign (by omega) (by omega)
  have hlow : (n : ℤ) < job.ctrl.scr.rowNum := by
    have hin := (hclear n (le_refl n)).base.2.2
    simp only [Block.shift] at hin
    omega
  have hnear : ∀ k : ℤ, 0 ≤ k → k ≤ n + 1 → Near (b.shift 0 k) := by
    intro k hk hkn
    constructor <;> simp only [Block.shift] <;> omega
  obtain ⟨job', hplay, hfixes⟩ := play_steps h rand hb (n := n) (by omega) (by omega)
    (fun k hk hkn => by
      rw [anyOccupied_coors (hnear k (by omega) (by omega))]
      refine ⟨hclear k hkn, fun c hc => ?_⟩
      have hin := (hclear k hkn c hc).1.2.2
      omega)
    (by
      by_contra hfree
      have hstops := Screen.minInterval_stops halign
      rw [show job.ctrl.scr.minIntervalBetweenBlkScr b = n from hspace_eq] at hstops
      exact hstops ((anyOccupied_coors (hnear (n + 1) (by omega) (le_refl _))).mp
        (Bool.eq_false_iff.mpr hfree)).1)
  refine ⟨_, hsteps, hlen, b, _, hb, (h.score (by omega) hb).1, fun b' hb' => ?_, job', hplay, ?_⟩
  · exact ⟨_, (h.score (by omega) hb').1, hbest b' hb'⟩
  · rw [show job.ctrl.scr.minIntervalBetweenBlkScr b = n from hspace_eq]
    exact hfixes

theorem fresh_rbInit {columnNum rowNum : ℕ} (hcol : 6 ≤ columnNum ∧ columnNum ≤ 31)
    (hrow : 5 ≤ rowNum) (rand : ℕ) : Fresh ⟨rbInit columnNum rowNum rand, false, false⟩ := by
  have hmin : min tetrisMaxColumn columnNum = columnNum :=
    min_eq_right (show columnNum ≤ 32 by omega)
  have hcolumns : (rbInit columnNum rowNum rand).scr.columnNum = columnNum := hmin
  refine ⟨rfl, rfl, by rw [hcolumns]; exact hcol, hrow, fun y _ => rfl, ?_, rfl⟩
  have hshort : short ((columnNum / 2 : ℕ) - 1) = (columnNum / 2 : ℕ) - 1 :=
    short_eq (by omega) (by omega)
  change (⟨short ((min tetrisMaxColumn columnNum / 2 : ℕ) - 1), 0⟩ : Coor) =
    spawnBase (min tetrisMaxColumn columnNum)
  rw [hmin, hshort, spawnBase]

def pileJob : Job :=
  ⟨{ rbInit 10 20 7 with scr := ⟨fun y => if y < 18 then 0 else 0x1e7, 10, 20⟩ }, false, false⟩

theorem pileJob_fresh : Fresh pileJob := by
  have hempty : Fresh ⟨rbInit 10 20 7, false, false⟩ := fresh_rbInit (by decide) (by decide) 7
  exact ⟨rfl, rfl, by decide, by decide, fun y hy => if_pos (by omega), hempty.base, hempty.mask⟩

theorem auto_realised_pile : Realised pileJob 0 := auto_realised pileJob_fresh (by decide) 0

/-! ## A screen too high -/

theorem oBlock_coors {b : Block} (h : b.type = .o0) :
    (∀ c ∈ b.coors, c.y ≤ b.base.y + 1) ∧ ∃ c ∈ b.coors, c.y = b.base.y + 1 := by
  simp [Block.coors, h, blockMap]

/-- A screen with a line that no `short` reaches, and an O block on it. -/
def tallJob : Job := ⟨rbInit 6 32769 0, false, false⟩

theorem tallJob_placement {b : Block} (hb : IsPlacement 6 tallJob.ctrl.blk b) :
    b.type = .o0 ∧ b.base.y = 0 := by
  refine ⟨?_, hb.top⟩
  have hcolor : colorMap b.type = .o := hb.rotation
  cases htype : b.type <;> rw [htype] at hcolor <;> first | rfl | cases hcolor

theorem tallJob_clear {b : Block} (hb : IsPlacement 6 tallJob.ctrl.blk b) {k : ℤ} (hk : 0 ≤ k)
    (hle : k ≤ 32767) : Clear tallJob.ctrl.scr (b.shift 0 k) := by
  obtain ⟨htype, hline⟩ := tallJob_placement hb
  have halign : tallJob.ctrl.scr.Aligned (b.shift 0 k) := by
    have hleft := hb.left
    have hright : b.base.x + getTypeColumnNum b.type ≤ ((6 : ℕ) : ℤ) := hb.right
    constructor
    · simpa only [Block.shift, add_zero] using hleft
    · change b.base.x + 0 + getTypeColumnNum b.type ≤ ((6 : ℕ) : ℤ)
      omega
    · simp only [Block.shift, hline]
      omega
  intro c hc
  have hlow := (oBlock_coors (b := b.shift 0 k) htype).1 c hc
  have hbounds := coors_bounds hc
  simp only [Block.shift] at hlow hbounds
  exact ⟨⟨halign.inside_x hc, by omega, by
    change c.y < ((32769 : ℕ) : ℤ)
    omega⟩, BitVec.getLsbD_zero⟩

theorem tallJob_space {b : Block} (hb : IsPlacement 6 tallJob.ctrl.blk b) :
    tallJob.ctrl.scr.minIntervalBetweenBlkScr b = 32767 := by
  have hfresh : Fresh tallJob := fresh_rbInit (by decide) (by decide) 0
  obtain ⟨htype, hline⟩ := tallJob_placement hb
  have hspace := hfresh.space hb
  let space := tallJob.ctrl.scr.minIntervalBetweenBlkScr b
  have hclear := Screen.minInterval_clear (hfresh.aligned hb) (k := space) (by omega) (le_refl _)
  obtain ⟨c, hc, hlow⟩ := (oBlock_coors (b := b.shift 0 space) htype).2
  have hin : c.y < ((32769 : ℕ) : ℤ) := (hclear c hc).1.2.2
  simp only [Block.shift] at hlow
  have hge : ¬ space + 1 ≤ 32767 := fun hle =>
    Screen.minInterval_stops (hfresh.aligned hb) (tallJob_clear hb (by omega) hle)
  omega

/-- There the block stops one line above the placement. -/
theorem tall_not_realised : ¬ Realised tallJob 0 := by
  rintro ⟨steps, hfind, -, b, score, hb, -, -, job', hplay, moved, hevents, -⟩
  have hfresh : Fresh tallJob := fresh_rbInit (by decide) (by decide) 0
  have hrow : tallJob.ctrl.scr.rowNum ≤ 65536 := by
    change 32769 ≤ 65536
    omega
  obtain ⟨b₀, hb₀, hfind₀, -⟩ := findSteps_spec hfresh hrow
  obtain ⟨htype, hline⟩ := tallJob_placement hb₀
  have hnear : ∀ k : ℤ, 0 ≤ k → k ≤ 32767 → Near (b₀.shift 0 k) := by
    intro k hk hle
    have hleft := hb₀.left
    have hright : b₀.base.x + getTypeColumnNum b₀.type ≤ ((6 : ℕ) : ℤ) := hb₀.right
    have hnum := (Screen.blockMap_columns b₀.type).2.2.1
    constructor <;> simp only [Block.shift] <;> omega
  obtain ⟨job'', hplay', moved', hevents', -⟩ := play_steps hfresh 0 hb₀ (n := 32766) (by omega)
    (by change 32766 ≤ 32769; omega)
    (fun k hk hkn => by
      rw [anyOccupied_coors (hnear k (by omega) (by omega))]
      refine ⟨tallJob_clear hb₀ (by omega) (by omega), fun c hc => ?_⟩
      have hlow := (oBlock_coors (b := b₀.shift 0 k) htype).1 c hc
      simp only [Block.shift] at hlow
      omega)
    (by
      by_contra hfree
      obtain ⟨c, hc, hlow⟩ := (oBlock_coors (b := b₀.shift 0 32767) htype).2
      have hshort := ((anyOccupied_coors (hnear 32767 (by omega) (le_refl _))).mp
        (Bool.eq_false_iff.mpr hfree)).2 c hc
      simp only [Block.shift] at hlow
      omega)
  obtain ⟨rfl, -⟩ := Prod.mk.inj (Option.some.inj (hfind.symm.trans hfind₀))
  obtain rfl := Option.some.inj (hplay.symm.trans hplay')
  have hsame := hevents.symm.trans hevents'
  rw [tallJob_space hb] at hsame
  have hblk := (Event.fixed.inj (List.cons.inj hsame).1).2
  have hy := congrArg (fun blk : Block => blk.base.y) hblk
  have htop := (tallJob_placement hb).2
  simp only [Block.shift] at hy
  omega

end DfewOS.Tetris
