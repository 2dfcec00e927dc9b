import DfewOS.Lian

/-!
# What the link check decides

Each search either fails and leaves the stack as it was, or adds to it the corners it has
found. Together they find every path of at most three lines through empty cells.
-/

namespace DfewOS.Lian
open GridPath

def Interior (c : Coor) : Prop := 1 ≤ c.x ∧ c.x ≤ colNum ∧ 1 ≤ c.y ∧ c.y ≤ rowNum

/-- On the map, its border included. -/
def OnMap (c : Coor) : Prop := 0 ≤ c.x ∧ c.x ≤ colNum + 1 ∧ 0 ≤ c.y ∧ c.y ≤ rowNum + 1

instance (c : Coor) : Decidable (Interior c) := by
  unfold Interior
  infer_instance

structure Bordered (map : Map) : Prop where
  border : ∀ c, OnMap c → ¬ Interior c → map c = -1
  blocks : ∀ c, Interior c → 0 ≤ map c

def Free (map : Map) (c : Coor) : Prop := Interior c ∧ map c = 0

theorem Interior.onMap {c : Coor} (h : Interior c) : OnMap c := by
  unfold Interior at h
  unfold OnMap
  omega

theorem Interior.move_onMap {c : Coor} (h : Interior c) (d : Dir) : OnMap (d.move 1 c) := by
  unfold Interior at h
  unfold OnMap
  cases d <;> simp only [Dir.move] <;> omega

theorem Bordered.interior {map : Map} (h : Bordered map) {c : Coor} (hc : OnMap c)
    (hzero : map c = 0) : Interior c := by
  by_contra hout
  have := h.border c hc hout
  omega

def mapOf (blocks : List (Coor × ℤ)) : Map := fun c =>
  if Interior c then (blocks.lookup c).getD 0 else -1

theorem mapOf_bordered {blocks : List (Coor × ℤ)} (h : ∀ b ∈ blocks, 0 ≤ b.2) :
    Bordered (mapOf blocks) where
  border c _ hout := if_neg hout
  blocks c hin := by
    rw [mapOf, if_pos hin]
    cases hlook : blocks.lookup c with
    | none => exact le_refl 0
    | some t =>
      obtain ⟨k, hmem⟩ : ∃ k, (k, t) ∈ blocks := by
        obtain ⟨l₁, l₂, rfl, -⟩ := List.lookup_eq_some_iff.mp hlook
        exact ⟨c, by simp⟩
      exact h _ hmem

/-! ## One line -/

theorem before_move (d : Dir) (n k : ℤ) (p : Coor) :
    before (d.move n p) (d.move k p) d = decide (k < n) := by
  cases d <;> simp [before, Dir.move]

theorem walk_eq_end (map : Map) (d : Dir) (n : ℕ) (p : Coor) (hn : 0 < n) :
    walk map d (d.move n p) n p = d.move n p ↔
      ∀ k : ℤ, 0 < k → k < n → map (d.move k p) = 0 := by
  induction n generalizing p with
  | zero => omega
  | succ n ih =>
    have hstep : ∀ k : ℤ, d.move k (d.move 1 p) = d.move (1 + k) p := fun k => d.move_move k 1 p
    have hbefore : before (d.move (n + 1 : ℕ) p) (d.move 1 p) d = decide (0 < n) := by
      rw [before_move]
      simp only [decide_eq_decide]
      omega
    simp only [walk, hbefore, Bool.and_eq_true, decide_eq_true_eq, beq_iff_eq]
    by_cases hlast : 0 < n
    · have hend : d.move (n + 1 : ℕ) p = d.move n (d.move 1 p) := by
        rw [hstep]
        congr 1
        omega
      by_cases hzero : map (d.move 1 p) = 0
      · rw [if_pos ⟨hlast, hzero⟩, hend, ih (d.move 1 p) hlast]
        constructor
        · intro h k hk hkn
          by_cases hone : k = 1
          · rwa [hone]
          · have hcell := h (k - 1) (by omega) (by omega)
            rwa [hstep, show 1 + (k - 1) = k by omega] at hcell
        · intro h k hk hkn
          rw [hstep]
          exact h (1 + k) (by omega) (by omega)
      · rw [if_neg fun h => hzero h.2]
        refine iff_of_false ?_ fun h => hzero (h 1 (by omega) (by omega))
        intro h
        have := d.move_inj h
        omega
    · obtain rfl : n = 0 := by omega
      rw [if_neg fun h => hlast h.1]
      refine iff_of_true rfl ?_
      intro k hk hkn
      omega

theorem dirTo_move (d : Dir) {n : ℤ} (hn : 0 < n) (s : Coor) : dirTo s (d.move n s) = some d := by
  cases d <;> grind [dirTo, Dir.move]

theorem distance_move (d : Dir) (n : ℕ) (s : Coor) : distance s (d.move n s) = n := by
  cases d <;> simp only [distance, Dir.move] <;> omega

theorem dirTo_some {s e : Coor} {d : Dir} (h : dirTo s e = some d) :
    ∃ n : ℤ, 0 < n ∧ e = d.move n s := by
  unfold dirTo at h
  split at h
  · obtain rfl := Option.some.inj h
    exact ⟨s.x - e.x, by omega, by apply Cell.ext <;> simp only [Dir.move] <;> omega⟩
  split at h
  · obtain rfl := Option.some.inj h
    exact ⟨e.x - s.x, by omega, by apply Cell.ext <;> simp only [Dir.move] <;> omega⟩
  split at h
  · obtain rfl := Option.some.inj h
    exact ⟨s.y - e.y, by omega, by apply Cell.ext <;> simp only [Dir.move] <;> omega⟩
  split at h
  · obtain rfl := Option.some.inj h
    exact ⟨e.y - s.y, by omega, by apply Cell.ext <;> simp only [Dir.move] <;> omega⟩
  · cases h

theorem reach_move (map : Map) (d : Dir) {n : ℤ} (hn : 0 < n) (s : Coor) :
    reach map s (d.move n s) = true ↔ Leg (map · = 0) d.row s (d.move n s) := by
  obtain ⟨m, rfl⟩ := Int.eq_ofNat_of_zero_le hn.le
  rw [leg_move d hn, reach, dirTo_move d hn]
  simp only [distance_move, decide_eq_true_eq]
  exact walk_eq_end map d m s (by omega)

theorem leg_free {map : Map} {row : Bool} {s e : Coor} (hs : Interior s) (he : OnMap e) :
    Leg (map · = 0) row s e ↔ Leg (Free map) row s e := by
  unfold Interior at hs
  unfold OnMap at he
  cases row with
  | true =>
    simp only [Leg, Row, Free, and_congr_right_iff]
    intro hy hx
    refine forall_congr' fun x => forall_congr' fun hlo => forall_congr' fun hhi => ?_
    have hin : Interior ⟨x, s.y⟩ := by
      unfold Interior
      simp only
      omega
    simp only [hin, true_and]
  | false =>
    simp only [Leg, Col, Free, and_congr_right_iff]
    intro hx hy
    refine forall_congr' fun y => forall_congr' fun hlo => forall_congr' fun hhi => ?_
    have hin : Interior ⟨s.x, y⟩ := by
      unfold Interior
      simp only
      omega
    simp only [hin, true_and]

theorem reach_iff {map : Map} {s e : Coor} (hs : Interior s) (he : OnMap e) :
    reach map s e = true ↔ ∃ row, Leg (Free map) row s e := by
  simp only [← leg_free hs he]
  constructor
  · intro h
    cases hd : dirTo s e with
    | none => simp [reach, hd] at h
    | some d =>
      obtain ⟨n, hn, rfl⟩ := dirTo_some hd
      exact ⟨d.row, (reach_move map d hn s).mp h⟩
  · rintro ⟨row, h⟩
    obtain ⟨d, rfl, n, hn, rfl⟩ := leg_exists_move h
    exact (reach_move map d hn s).mpr h

/-! ## Two lines -/

def Corner (map : Map) (s e c : Coor) : Prop :=
  ∃ row, Leg (Free map) row s c ∧ Free map c ∧ Leg (Free map) (!row) c e

theorem Way.push_some {w : Way} (h : w.length < 4) (c : Coor) : w.push c = some (w ++ [c]) :=
  if_pos h

@[simp] theorem Way.pop_append (w : Way) (c : Coor) : Way.pop (w ++ [c]) = w :=
  List.dropLast_concat

theorem reach_past {map : Map} {s : Coor} (hs : Interior s) (d : Dir) {n : ℤ} (hn : 0 < n)
    (hpast : OnMap (d.move (n + 1) s)) :
    reach map s (d.move (n + 1) s) = true ↔
      Leg (Free map) d.row s (d.move n s) ∧ Free map (d.move n s) := by
  rw [reach_move map d (by omega) s, leg_free hs hpast, leg_move d (by omega), leg_move d hn]
  constructor
  · intro h
    exact ⟨fun k hk hkn => h k hk (by omega), h n hn (by omega)⟩
  · rintro ⟨h, hlast⟩ k hk hkn
    obtain hlt | rfl : k < n ∨ k = n := by omega
    · exact h k hk hlt
    · exact hlast

theorem lrTurn_spec (map : Map) {s e : Coor} (hs : Interior s) (he : Interior e) {d : Dir} {n : ℤ}
    (hn : 0 < n) (hpast : OnMap (d.move (n + 1) s)) {w : Way} (hw : w.length < 4) :
    ∃ found w', lrTurn map s e (d.move (n + 1) s) (d.move n s) w = some (found, w') ∧
      (found = true ↔ Leg (Free map) d.row s (d.move n s) ∧ Free map (d.move n s) ∧
        ∃ row, Leg (Free map) row (d.move n s) e) ∧
      w' = if found then w ++ [d.move n s] else w := by
  unfold lrTurn
  by_cases hreach : reach map s (d.move (n + 1) s) = true
  · obtain ⟨hleg, hfree⟩ := (reach_past hs d hn hpast).mp hreach
    rw [if_pos hreach, Way.push_some hw, Option.map_some]
    by_cases hend : reach map (d.move n s) e = true
    · rw [if_pos hend]
      exact ⟨true, _, rfl, by simpa [hleg, hfree] using (reach_iff hfree.1 he.onMap).mp hend, rfl⟩
    · rw [if_neg hend, Way.pop_append]
      refine ⟨false, w, rfl, ?_, rfl⟩
      simpa [hleg, hfree] using mt (reach_iff hfree.1 he.onMap).mpr hend
  · rw [if_neg hreach]
    refine ⟨false, w, rfl, iff_of_false nofun ?_, rfl⟩
    rintro ⟨hleg, hfree, -⟩
    exact hreach ((reach_past hs d hn hpast).mpr ⟨hleg, hfree⟩)

theorem turnPoints_none {s e : Coor} (h : turnPoints s e = none) : s.x = e.x ∨ s.y = e.y := by
  grind [turnPoints]

theorem turnPoints_some {s e past₀ past₁ : Coor} (hs : Interior s) (he : Interior e)
    (h : turnPoints s e = some (past₀, past₁)) :
    s.x ≠ e.x ∧ s.y ≠ e.y ∧ OnMap past₀ ∧ OnMap past₁ ∧ ∃ d₀ d₁ : Dir, ∃ n₀ n₁ : ℤ,
      d₀.row = true ∧ d₁.row = false ∧ 0 < n₀ ∧ 0 < n₁ ∧
      past₀ = d₀.move (n₀ + 1) s ∧ past₁ = d₁.move (n₁ + 1) s ∧
      (⟨e.x, past₀.y⟩ : Coor) = d₀.move n₀ s ∧ (⟨past₁.x, e.y⟩ : Coor) = d₁.move n₁ s := by
  unfold Interior at hs he
  unfold turnPoints at h
  unfold OnMap
  split at h
  · obtain ⟨rfl, rfl⟩ := Prod.mk.inj (Option.some.inj h)
    refine ⟨by omega, by omega, by dsimp only; omega, by dsimp only; omega, .left, .up, s.x - e.x, s.y - e.y, rfl,
      rfl, by omega, by omega, ?_, ?_, ?_, ?_⟩
    all_goals
      apply Cell.ext <;> simp only [Dir.move]
      all_goals omega
  split at h
  · obtain ⟨rfl, rfl⟩ := Prod.mk.inj (Option.some.inj h)
    refine ⟨by omega, by omega, by dsimp only; omega, by dsimp only; omega, .right, .up, e.x - s.x, s.y - e.y, rfl,
      rfl, by omega, by omega, ?_, ?_, ?_, ?_⟩
    all_goals
      apply Cell.ext <;> simp only [Dir.move]
      all_goals omega
  split at h
  · obtain ⟨rfl, rfl⟩ := Prod.mk.inj (Option.some.inj h)
    refine ⟨by omega, by omega, by dsimp only; omega, by dsimp only; omega, .left, .down, s.x - e.x, e.y - s.y, rfl,
      rfl, by omega, by omega, ?_, ?_, ?_, ?_⟩
    all_goals
      apply Cell.ext <;> simp only [Dir.move]
      all_goals omega
  split at h
  · obtain ⟨rfl, rfl⟩ := Prod.mk.inj (Option.some.inj h)
    refine ⟨by omega, by omega, by dsimp only; omega, by dsimp only; omega, .right, .down, e.x - s.x, e.y - s.y, rfl,
      rfl, by omega, by omega, ?_, ?_, ?_, ?_⟩
    all_goals
      apply Cell.ext <;> simp only [Dir.move]
      all_goals omega
  · cases h

theorem corner_iff {map : Map} {s e c : Coor} :
    Corner map s e c ↔ Free map c ∧
      ((c = ⟨e.x, s.y⟩ ∧ Leg (Free map) true s c ∧ Leg (Free map) false c e) ∨
       (c = ⟨s.x, e.y⟩ ∧ Leg (Free map) false s c ∧ Leg (Free map) true c e)) := by
  constructor
  · rintro ⟨row, hsc, hfree, hce⟩
    refine ⟨hfree, ?_⟩
    cases row with
    | true =>
      have hy : s.y = c.y := hsc.1
      have hx : c.x = e.x := hce.1
      exact .inl ⟨Cell.ext hx hy.symm, hsc, hce⟩
    | false =>
      have hx : s.x = c.x := hsc.1
      have hy : c.y = e.y := hce.1
      exact .inr ⟨Cell.ext hx.symm hy, hsc, hce⟩
  · rintro ⟨hfree, ⟨-, hsc, hce⟩ | ⟨-, hsc, hce⟩⟩
    · exact ⟨true, hsc, hfree, hce⟩
    · exact ⟨false, hsc, hfree, hce⟩

theorem Corner.ne {map : Map} {s e c : Coor} (h : Corner map s e c) : s.x ≠ e.x ∧ s.y ≠ e.y := by
  obtain ⟨-, ⟨rfl, hsc, hce⟩ | ⟨rfl, hsc, hce⟩⟩ := corner_iff.mp h
  · exact ⟨hsc.2.1, hce.2.1⟩
  · exact ⟨hce.2.1, hsc.2.1⟩

theorem leg_from_row {map : Map} {s e : Coor} :
    (∃ row, Leg (Free map) row ⟨e.x, s.y⟩ e) ↔ Leg (Free map) false ⟨e.x, s.y⟩ e := by
  simp [Leg, Row]

theorem leg_from_col {map : Map} {s e : Coor} :
    (∃ row, Leg (Free map) row ⟨s.x, e.y⟩ e) ↔ Leg (Free map) true ⟨s.x, e.y⟩ e := by
  simp [Leg, Col]

theorem lrReach_spec (map : Map) {s e : Coor} (hs : Interior s) (he : Interior e) {w : Way}
    (hw : w.length < 4) :
    ∃ found w', lrReach map s e w = some (found, w') ∧
      (found = true → ∃ c, w' = w ++ [c] ∧ Corner map s e c) ∧
      (found = false → w' = w ∧ ∀ c, ¬ Corner map s e c) := by
  unfold lrReach
  cases hturn : turnPoints s e with
  | none =>
    refine ⟨false, w, rfl, nofun, fun _ => ⟨rfl, fun c hc => ?_⟩⟩
    have hne := hc.ne
    have := turnPoints_none hturn
    omega
  | some pasts =>
    obtain ⟨past₀, past₁⟩ := pasts
    obtain ⟨hx, hy, hpast₀, hpast₁, d₀, d₁, n₀, n₁, hd₀, hd₁, hn₀, hn₁, rfl, rfl, hturn₀,
      hturn₁⟩ := turnPoints_some hs he hturn
    have hc₀ : d₀.move n₀ s = ⟨e.x, s.y⟩ := by
      rw [← hturn₀]
      cases d₀ <;> first | rfl | cases hd₀
    have hc₁ : d₁.move n₁ s = ⟨s.x, e.y⟩ := by
      rw [← hturn₁]
      cases d₁ <;> first | rfl | cases hd₁
    obtain ⟨found₀, w₀, hrun₀, hfound₀, rfl⟩ :=
      lrTurn_spec map (e := e) hs he hn₀ hpast₀ hw
    obtain ⟨found₁, w₁, hrun₁, hfound₁, rfl⟩ :=
      lrTurn_spec map (e := e) hs he hn₁ hpast₁ hw
    simp only [hturn₀, hturn₁, hrun₀, Option.bind_some]
    rw [hd₀, hc₀, leg_from_row] at hfound₀
    rw [hd₁, hc₁, leg_from_col] at hfound₁
    rw [hc₀, hc₁]
    cases found₀ with
    | true =>
      obtain ⟨hsc, hfree, hce⟩ := hfound₀.mp rfl
      exact ⟨true, _, rfl, fun _ => ⟨_, rfl, corner_iff.mpr ⟨hfree, .inl ⟨rfl, hsc, hce⟩⟩⟩, nofun⟩
    | false =>
      simp only [Bool.false_eq_true, if_false]
      rw [← hc₁, hrun₁, hc₁]
      refine ⟨found₁, _, rfl, ?_, ?_⟩
      · rintro rfl
        obtain ⟨hsc, hfree, hce⟩ := hfound₁.mp rfl
        exact ⟨_, rfl, corner_iff.mpr ⟨hfree, .inr ⟨rfl, hsc, hce⟩⟩⟩
      · rintro rfl
        refine ⟨rfl, fun c hc => ?_⟩
        obtain ⟨hfree, ⟨rfl, hsc, hce⟩ | ⟨rfl, hsc, hce⟩⟩ := corner_iff.mp hc
        · exact absurd (hfound₀.mpr ⟨hsc, hfree, hce⟩) Bool.false_ne_true
        · exact absurd (hfound₁.mpr ⟨hsc, hfree, hce⟩) Bool.false_ne_true

/-! ## Three lines -/

/-- A first turn `c` some free cells away from `s`, and a corner `c'` between it and `e`. -/
def Turned (map : Map) (d : Dir) (s e c c' : Coor) : Prop :=
  ∃ k, 0 < k ∧ c = d.move k s ∧ (∀ j, 0 < j → j ≤ k → Free map (d.move j s)) ∧
    Corner map c e c'

theorem turned_step {map : Map} {d : Dir} {s e c c' : Coor} :
    Turned map d s e c c' ↔ Free map (d.move 1 s) ∧
      (c = d.move 1 s ∧ Corner map c e c' ∨ Turned map d (d.move 1 s) e c c') := by
  constructor
  · rintro ⟨k, hk, rfl, hfree, hcorner⟩
    refine ⟨hfree 1 (by omega) (by omega), ?_⟩
    by_cases hone : k = 1
    · subst hone
      exact .inl ⟨rfl, hcorner⟩
    · refine .inr ⟨k - 1, by omega, ?_, ?_, hcorner⟩
      · rw [d.move_move]
        congr 1
        omega
      · intro j hj hjk
        rw [d.move_move]
        exact hfree (1 + j) (by omega) (by omega)
  · rintro ⟨hfirst, ⟨rfl, hcorner⟩ | ⟨k, hk, rfl, hfree, hcorner⟩⟩
    · refine ⟨1, by omega, rfl, ?_, hcorner⟩
      intro j hj hj1
      rwa [show j = 1 by omega]
    · refine ⟨1 + k, by omega, d.move_move k 1 s, ?_, hcorner⟩
      intro j hj hjk
      by_cases hone : j = 1
      · rwa [hone]
      · have hcell := hfree (j - 1) (by omega) (by omega)
        rwa [d.move_move, show 1 + (j - 1) = j by omega] at hcell

theorem turnLoop_spec {map : Map} (hmap : Bordered map) {e : Coor} (he : Interior e) (d : Dir)
    {n : ℕ} {turn : Coor} (hin : Interior turn)
    (hend : ∃ m : ℤ, 0 < m ∧ m ≤ n ∧ map (d.move m turn) ≠ 0) {w : Way} (hw : w.length < 3) :
    ∃ found w', turnLoop map e d n turn w = some (found, w') ∧
      (found = true → ∃ c c', w' = w ++ [c, c'] ∧ Turned map d turn e c c') ∧
      (found = false → w' = w ∧ ∀ c c', ¬ Turned map d turn e c c') := by
  induction n generalizing turn with
  | zero =>
    obtain ⟨m, hm, hmn, -⟩ := hend
    omega
  | succ n ih =>
    rw [turnLoop]
    by_cases hzero : map (d.move 1 turn) = 0
    · have hnext : Interior (d.move 1 turn) := hmap.interior (hin.move_onMap d) hzero
      have hlen : (w ++ [d.move 1 turn]).length < 4 := by
        rw [List.length_append, List.length_singleton]
        omega
      obtain ⟨found, w', hrun, hfound, hnone⟩ := lrReach_spec map hnext he hlen
      simp only [hzero, if_true, Way.push_some (show w.length < 4 by omega), Option.bind_some,
        hrun]
      cases found with
      | true =>
        obtain ⟨c', rfl, hcorner⟩ := hfound rfl
        refine ⟨true, _, rfl, fun _ => ⟨d.move 1 turn, c', by simp, ?_⟩, nofun⟩
        exact turned_step.mpr ⟨⟨hnext, hzero⟩, .inl ⟨rfl, hcorner⟩⟩
      | false =>
        obtain ⟨rfl, hno⟩ := hnone rfl
        simp only [Bool.false_eq_true, if_false, Way.pop_append]
        have hend' : ∃ m : ℤ, 0 < m ∧ m ≤ n ∧ map (d.move m (d.move 1 turn)) ≠ 0 := by
          obtain ⟨m, hm, hmn, hcell⟩ := hend
          have hne : m ≠ 1 := by
            rintro rfl
            exact hcell hzero
          refine ⟨m - 1, by omega, by omega, ?_⟩
          rwa [d.move_move, show 1 + (m - 1) = m by omega]
        obtain ⟨found, w', hrun, hfound, hnone⟩ := ih hnext hend'
        refine ⟨found, w', hrun, ?_, ?_⟩
        · intro hf
          obtain ⟨c, c', hw', hturned⟩ := hfound hf
          exact ⟨c, c', hw', turned_step.mpr ⟨⟨hnext, hzero⟩, .inr hturned⟩⟩
        · intro hf
          refine ⟨(hnone hf).1, fun c c' hturned => ?_⟩
          obtain ⟨-, ⟨rfl, hcorner⟩ | hrest⟩ := turned_step.mp hturned
          · exact hno c' hcorner
          · exact (hnone hf).2 c c' hrest
    · simp only [hzero, if_false]
      refine ⟨false, w, rfl, nofun, fun _ => ⟨rfl, fun c c' hturned => ?_⟩⟩
      exact hzero (turned_step.mp hturned).1.2

theorem border_ahead {map : Map} (hmap : Bordered map) {s : Coor} (hs : Interior s) (d : Dir) :
    ∃ m : ℤ, 0 < m ∧ m ≤ 12 ∧ map (d.move m s) ≠ 0 := by
  have hborder : ∀ m : ℤ, OnMap (d.move m s) → ¬ Interior (d.move m s) → map (d.move m s) ≠ 0 := by
    intro m hon hout
    have := hmap.border _ hon hout
    omega
  unfold Interior at hs hborder
  unfold OnMap at hborder
  have hrows : rowNum = 10 := rfl
  have hcols : colNum = 10 := rfl
  cases d with
  | left => exact ⟨s.x, by omega, by omega, hborder _ (by dsimp only [Dir.move]; omega)
      (by dsimp only [Dir.move]; omega)⟩
  | right => exact ⟨11 - s.x, by omega, by omega, hborder _ (by dsimp only [Dir.move]; omega)
      (by dsimp only [Dir.move]; omega)⟩
  | up => exact ⟨s.y, by omega, by omega, hborder _ (by dsimp only [Dir.move]; omega)
      (by dsimp only [Dir.move]; omega)⟩
  | down => exact ⟨11 - s.y, by omega, by omega, hborder _ (by dsimp only [Dir.move]; omega)
      (by dsimp only [Dir.move]; omega)⟩

theorem lrLrReach_spec {map : Map} (hmap : Bordered map) {s e : Coor} (hs : Interior s)
    (he : Interior e) {w : Way} (hw : w.length < 3) :
    ∃ found w', lrLrReach map s e w = some (found, w') ∧
      (found = true → ∃ d c c', w' = w ++ [c, c'] ∧ Turned map d s e c c') ∧
      (found = false → w' = w ∧ ∀ d c c', ¬ Turned map d s e c c') := by
  have hloop : ∀ d, ∃ found w', turnLoop map e d 12 s w = some (found, w') ∧
      (found = true → ∃ c c', w' = w ++ [c, c'] ∧ Turned map d s e c c') ∧
      (found = false → w' = w ∧ ∀ c c', ¬ Turned map d s e c c') :=
    fun d => turnLoop_spec hmap he d hs (border_ahead hmap hs d) hw
  unfold lrLrReach
  obtain ⟨found, w', hrun, hfound, hnone⟩ := hloop .left
  rw [hrun]
  cases found with
  | true => exact ⟨true, w', rfl, fun _ => ⟨.left, hfound rfl⟩, nofun⟩
  | false =>
    obtain ⟨rfl, hleft⟩ := hnone rfl
    obtain ⟨found, w', hrun, hfound, hnone⟩ := hloop .right
    simp only [Option.bind_some, Bool.false_eq_true, if_false, hrun]
    cases found with
    | true => exact ⟨true, w', rfl, fun _ => ⟨.right, hfound rfl⟩, nofun⟩
    | false =>
      obtain ⟨rfl, hright⟩ := hnone rfl
      obtain ⟨found, w', hrun, hfound, hnone⟩ := hloop .up
      simp only [Bool.false_eq_true, if_false, hrun, Option.bind_some]
      cases found with
      | true => exact ⟨true, w', rfl, fun _ => ⟨.up, hfound rfl⟩, nofun⟩
      | false =>
        obtain ⟨rfl, hup⟩ := hnone rfl
        obtain ⟨found, w', hrun, hfound, hdown⟩ := hloop .down
        simp only [Bool.false_eq_true, if_false]
        refine ⟨found, w', hrun, fun hf => ⟨.down, hfound hf⟩, fun hf => ⟨(hdown hf).1, ?_⟩⟩
        intro d
        cases d with
        | left => exact hleft
        | right => exact hright
        | up => exact hup
        | down => exact (hdown hf).2

/-! ## The check -/

theorem turned_leg {map : Map} {d : Dir} {s e c c' : Coor} (h : Turned map d s e c c') :
    Leg (Free map) d.row s c ∧ Free map c ∧ Corner map c e c' := by
  obtain ⟨k, hk, rfl, hfree, hcorner⟩ := h
  exact ⟨(leg_move d hk s).mpr fun j hj hjk => hfree j hj (by omega), hfree k hk (by omega), hcorner⟩

theorem leg_turned {map : Map} {row : Bool} {s e c c' : Coor} (hleg : Leg (Free map) row s c)
    (hfree : Free map c) (hcorner : Corner map c e c') : ∃ d, Turned map d s e c c' := by
  obtain ⟨d, rfl, k, hk, rfl⟩ := leg_exists_move hleg
  refine ⟨d, k, hk, rfl, fun j hj hjk => ?_, hcorner⟩
  obtain hlt | rfl : j < k ∨ j = k := by omega
  · exact (leg_move d hk s).mp hleg j hj hlt
  · exact hfree

/-- Two different blocks of the same type that a path of at most three lines joins. -/
def Linked (map : Map) (s e : Coor) : Prop :=
  s ≠ e ∧ map s ≠ 0 ∧ map s = map e ∧ Joined (Free map) 2 s e

theorem Linked.symm {map : Map} {s e : Coor} (h : Linked map s e) : Linked map e s := by
  obtain ⟨hne, hblock, htype, hpath⟩ := h
  exact ⟨hne.symm, htype ▸ hblock, htype.symm, hpath.symm⟩

/-- What `_G_way` holds when the check succeeds. -/
def GoodWay (map : Map) (s e : Coor) (w : Way) : Prop :=
  w.length ≤ 4 ∧ w.head? = some s ∧ w.getLast? = some e ∧ ∃ row, Zigzag (Free map) row w

theorem lianCheck_spec {map : Map} (hmap : Bordered map) {s e : Coor} (hs : Interior s)
    (he : Interior e) (w : Way) :
    ∃ found w', lianCheck map s e w = some (found, w') ∧ (found = true ↔ Linked map s e) ∧
      (found = true → GoodWay map s e w') := by
  unfold lianCheck
  by_cases hse : s.x = e.x ∧ s.y = e.y
  · rw [if_pos hse]
    exact ⟨false, w, rfl, iff_of_false nofun fun h => h.1 (Cell.ext hse.1 hse.2), nofun⟩
  by_cases hblock : map s = 0
  · rw [if_neg hse, if_pos hblock]
    exact ⟨false, w, rfl, iff_of_false nofun fun h => h.2.1 hblock, nofun⟩
  by_cases htype : map s ≠ map e
  · rw [if_neg hse, if_neg hblock, if_pos htype]
    exact ⟨false, w, rfl, iff_of_false nofun fun h => htype h.2.2.1, nofun⟩
  rw [if_neg hse, if_neg hblock, if_neg htype]
  have hne : s ≠ e := fun h => hse (h ▸ ⟨rfl, rfl⟩)
  have hnots : ¬ Free map s := fun h => hblock h.2
  have hnote : ¬ Free map e := fun h => hblock ((not_not.mp htype).trans h.2)
  have hlinked : Linked map s e ↔ _ :=
    ⟨fun h => (joined_two hnots hnote hne).mp h.2.2.2, fun h =>
      ⟨hne, hblock, not_not.mp htype, (joined_two hnots hnote hne).mpr h⟩⟩
  rw [hlinked]
  have harrive : ∀ w : Way, w.length < 4 → arrive e w = some (true, w ++ [e]) := by
    intro w hw
    rw [arrive, Way.push_some hw]
    rfl
  rw [Way.push_some (by simp), Option.bind_some, List.nil_append]
  by_cases hone : reach map s e = true
  · rw [if_pos hone, harrive _ (by simp)]
    obtain ⟨row, hleg⟩ := (reach_iff hs he.onMap).mp hone
    refine ⟨true, _, rfl, iff_of_true rfl ⟨row, .inl hleg⟩, fun _ => ?_⟩
    exact ⟨by simp, rfl, rfl, row, hleg, by simp, trivial⟩
  rw [if_neg hone]
  have hnoleg : ∀ row, ¬ Leg (Free map) row s e :=
    fun row h => hone ((reach_iff hs he.onMap).mpr ⟨row, h⟩)
  obtain ⟨found, w', hrun, hfound, hnone⟩ := lrReach_spec map (w := [s]) hs he (by simp)
  rw [hrun, Option.bind_some]
  cases found with
  | true =>
    obtain ⟨c, rfl, row, hsc, hc, hce⟩ := hfound rfl
    simp only [if_true]
    rw [harrive _ (by simp)]
    refine ⟨true, _, rfl, iff_of_true rfl ⟨row, .inr (.inl ⟨c, hsc, hc, hce⟩)⟩, fun _ => ?_⟩
    exact ⟨by simp, rfl, rfl, row, hsc, fun _ => hc, hce, by simp, trivial⟩
  | false =>
    obtain ⟨rfl, hnotwo⟩ := hnone rfl
    simp only [Bool.false_eq_true, if_false]
    obtain ⟨found, w', hrun, hfound, hnothree⟩ :=
      lrLrReach_spec hmap (w := [s]) hs he (by simp)
    rw [hrun, Option.bind_some]
    cases found with
    | true =>
      obtain ⟨d, c, c', rfl, hturned⟩ := hfound rfl
      simp only [if_true]
      rw [harrive _ (by simp)]
      obtain ⟨hsc, hc, row, hcc', hc', hc'e⟩ := turned_leg hturned
      -- the second line does not go on along the first, or there were two lines only
      obtain rfl : row = !d.row := by
        refine Bool.eq_not.mpr fun hrow => ?_
        subst hrow
        have hsc' : s ≠ c' := fun h => hnots (h ▸ hc')
        exact hnotwo c' ⟨d.row, hsc.trans hcc' hc hsc', hc', hc'e⟩
      rw [Bool.not_not] at hc'e
      refine ⟨true, _, rfl, iff_of_true rfl ⟨d.row, .inr (.inr ⟨c, c', hsc, hc, hcc', hc', hc'e⟩)⟩,
        fun _ => ?_⟩
      refine ⟨by simp, rfl, rfl, d.row, hsc, fun _ => hc, hcc', fun _ => hc', ?_, by simp, trivial⟩
      rwa [Bool.not_not]
    | false =>
      simp only [Bool.false_eq_true, if_false]
      refine ⟨false, _, rfl, iff_of_false nofun ?_, nofun⟩
      rintro ⟨row, hleg | ⟨c, hsc, hc, hce⟩ | ⟨c, c', hsc, hc, hcc', hc', hc'e⟩⟩
      · exact hnoleg row hleg
      · exact hnotwo c ⟨row, hsc, hc, hce⟩
      · have hcorner : Corner map c e c' := ⟨!row, hcc', hc', by rwa [Bool.not_not]⟩
        obtain ⟨d, hturned⟩ := leg_turned hsc hc hcorner
        exact (hnothree rfl).2 d c c' hturned

/-- The check finds a path of at most two turns through empty cells exactly if there is one,
whatever the stack held before, and in both orders of the cells. -/
theorem link_check {map : Map} (hmap : Bordered map) {s e : Coor} (hs : Interior s)
    (he : Interior e) (w : Way) :
    ∃ found w', lianCheck map s e w = some (found, w') ∧ (found = true ↔ Linked map s e) ∧
      (found = true → GoodWay map s e w') ∧
      (lianCheck map e s w).map Prod.fst = some found := by
  obtain ⟨found, w', hrun, hiff, hway⟩ := lianCheck_spec hmap hs he w
  refine ⟨found, w', hrun, hiff, hway, ?_⟩
  obtain ⟨found', w'', hrun', hiff', -⟩ := lianCheck_spec hmap he hs w
  rw [hrun', Option.map_some]
  congr 1
  rw [Bool.eq_iff_iff, hiff, hiff']
  exact ⟨Linked.symm, Linked.symm⟩

theorem link_check_diagonal :
    ∃ w, lianCheck (mapOf [(⟨1, 1⟩, 3), (⟨5, 7⟩, 3)]) ⟨1, 1⟩ ⟨5, 7⟩ [] = some (true, w) ∧
      GoodWay (mapOf [(⟨1, 1⟩, 3), (⟨5, 7⟩, 3)]) ⟨1, 1⟩ ⟨5, 7⟩ w := by
  have hmap : Bordered (mapOf [(⟨1, 1⟩, 3), (⟨5, 7⟩, 3)]) := mapOf_bordered (by decide)
  have hs : Interior ⟨1, 1⟩ := by decide
  have he : Interior ⟨5, 7⟩ := by decide
  obtain ⟨found, w, hrun, -, hway, -⟩ := link_check hmap hs he []
  have hfound : (lianCheck (mapOf [(⟨1, 1⟩, 3), (⟨5, 7⟩, 3)]) ⟨1, 1⟩ ⟨5, 7⟩ []).map Prod.fst =
      some true := by decide
  rw [hrun, Option.map_some] at hfound
  obtain rfl := Option.some.inj hfound
  exact ⟨w, hrun, hway rfl⟩

end DfewOS.Lian
