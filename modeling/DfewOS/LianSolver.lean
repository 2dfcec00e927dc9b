import DfewOS.LianLeft
import DfewOS.Counting

/-!
# The solver finds the minimum

Every pair of linked blocks is tried in one of its orders, so the smallest number found is
the smallest that any play leaves. The record of a call is the play of the branch that the
call explored last.
-/

namespace DfewOS.Lian
open GridPath

/-! ## Deletions -/

variable {map map' : Map} {op : OpDelete}

theorem Map.delete_apply (map : Map) (op : OpDelete) (c : Coor) :
    map.delete op c = if c = op.stop ∨ c = op.start then 0 else map c := by
  unfold Map.delete Map.set
  by_cases hstop : c = op.stop
  · simp [hstop]
  · by_cases hstart : c = op.start
    · simp [hstart, Function.update_apply]
    · simp [hstop, hstart]

theorem Map.delete_swap (map : Map) (s e : Coor) : map.delete ⟨s, e⟩ = map.delete ⟨e, s⟩ := by
  funext c
  simp only [Map.delete_apply, or_comm]

theorem Map.delete_restore (map : Map) (op : OpDelete) :
    ((map.delete op).set op.start (map op.start)).set op.stop (map op.stop) = map := by
  funext c
  unfold Map.set
  by_cases hstop : c = op.stop
  · simp [hstop]
  · rw [Function.update_of_ne hstop]
    by_cases hstart : c = op.start
    · rw [hstart, Function.update_self]
    · simp [hstop, hstart, Map.delete_apply]

theorem Bordered.delete (h : Bordered map) (hop : Legal map op) : Bordered (map.delete op) where
  border c hon hout := by
    have hne : ¬ (c = op.stop ∨ c = op.start) := by
      rintro (rfl | rfl)
      · exact hout hop.stop
      · exact hout hop.start
    rw [Map.delete_apply, if_neg hne]
    exact h.border c hon hout
  blocks c hin := by
    rw [Map.delete_apply]
    split
    · exact le_refl 0
    · exact h.blocks c hin

theorem countP_delete (P : ℤ → Bool) (hzero : P 0 = false) (hop : Legal map op) :
    interiorCells.countP (fun c => P (map.delete op c)) + (if P (map op.start) then 2 else 0) =
      interiorCells.countP fun c => P (map c) := by
  have hne : op.stop ≠ op.start := hop.linked.1.symm
  have htype : map op.stop = map op.start := hop.linked.2.2.1.symm
  have hfirst := Counting.countP_update (b := 0) P map interiorCells_nodup
    (mem_interiorCells.mpr hop.start)
  have hsecond := Counting.countP_update (b := 0) P (map.set op.start 0) interiorCells_nodup
    (mem_interiorCells.mpr hop.stop)
  rw [show map.set op.start 0 op.stop = map op.start by
    rw [Map.set, Function.update_of_ne hne, htype]] at hsecond
  simp only [hzero, Bool.false_eq_true, if_false] at hfirst hsecond
  unfold Map.delete Map.set at *
  split at hfirst
  · next h =>
    simp only [h, if_true] at hsecond ⊢
    omega
  · next h =>
    simp only [h, if_false, Bool.false_eq_true] at hsecond ⊢
    omega

theorem blockCount_delete (hop : Legal map op) : blockCount (map.delete op) + 2 = blockCount map := by
  have h := countP_delete (fun block => decide (block ≠ 0)) (by simp) hop
  rwa [if_pos (by simpa using hop.linked.2.1)] at h

theorem typeCount_delete (hop : Legal map op) {type : ℤ} (htype : type ≠ 0) :
    typeCount (map.delete op) type % 2 = typeCount map type % 2 := by
  have h := countP_delete (fun block => decide (block = type)) (by simp [htype.symm]) hop
  unfold typeCount
  split at h <;> omega

/-! ## Plays -/

theorem Plays.count {ops : List OpDelete} (h : Plays map ops map') :
    blockCount map' + 2 * ops.length = blockCount map := by
  induction h with
  | nil map => rfl
  | cons hop _ ih =>
    have := blockCount_delete hop
    rw [List.length_cons]
    omega

theorem Plays.typeCount {ops : List OpDelete} (h : Plays map ops map') {type : ℤ}
    (htype : type ≠ 0) : typeCount map' type % 2 = typeCount map type % 2 := by
  induction h with
  | nil map => rfl
  | cons hop _ ih => rw [ih, typeCount_delete hop htype]

theorem blockCount_leavable (map : Map) : blockCount map ∈ leavable map := ⟨[], map, .nil map, rfl⟩

theorem leavable_delete (hop : Legal map op) {n : ℕ} (h : n ∈ leavable (map.delete op)) :
    n ∈ leavable map := by
  obtain ⟨ops, map', hplays, hcount⟩ := h
  exact ⟨op :: ops, map', .cons hop hplays, hcount⟩

theorem leavable_cases {n : ℕ} (h : n ∈ leavable map) :
    n = blockCount map ∨ ∃ op ∈ pairs, Legal map op ∧ n ∈ leavable (map.delete op) := by
  obtain ⟨ops, map', hplays, hcount⟩ := h
  cases hplays with
  | nil => exact .inl hcount.symm
  | @cons _ _ op ops hop hplays =>
    right
    obtain ⟨s, e⟩ := op
    have hne : s ≠ e := hop.linked.1
    by_cases hmem : (⟨s, e⟩ : OpDelete) ∈ pairs
    · exact ⟨⟨s, e⟩, hmem, hop, ops, map', hplays, hcount⟩
    · refine ⟨⟨e, s⟩, ?_, ⟨hop.stop, hop.start, hop.linked.symm⟩, ops, map', ?_, hcount⟩
      · rw [mem_pairs] at hmem ⊢
        have hcoor : s.x ≠ e.x ∨ s.y ≠ e.y := by
          by_contra hcon
          simp only [not_or, not_not] at hcon
          exact hne (Cell.ext hcon.1 hcon.2)
        have hs := hop.start
        have he := hop.stop
        refine ⟨he, hs, ?_⟩
        by_contra hcon
        exact hmem ⟨hs, he, by dsimp only at hcon ⊢; omega⟩
      · rwa [Map.delete_swap]

def canGo (map : Map) (op : OpDelete) : Bool :=
  (lianCheck map op.start op.stop []).map Prod.fst == some true

def lastOf (map : Map) (ops : List OpDelete) : Option OpDelete := ops.reverse.find? (canGo map)

/-- The last pair, in the order of the loops, that may be deleted. -/
def lastLegal (map : Map) : Option OpDelete := lastOf map pairs

theorem lastOf_concat (map : Map) (ops : List OpDelete) (op : OpDelete) :
    lastOf map (ops ++ [op]) = if canGo map op then some op else lastOf map ops := by
  unfold lastOf
  rw [List.reverse_append, List.reverse_singleton, List.singleton_append, List.find?_cons]
  cases canGo map op <;> rfl

/-- The play that always deletes the last pair. -/
inductive LastFirst : Map → List OpDelete → Map → Prop
  | done {map : Map} : lastLegal map = none → LastFirst map [] map
  | step {map map' : Map} {op : OpDelete} {ops : List OpDelete} :
      lastLegal map = some op → LastFirst (map.delete op) ops map' → LastFirst map (op :: ops) map'

theorem LastFirst.unique {ops ops' : List OpDelete} {map'' : Map} (h : LastFirst map ops map')
    (h' : LastFirst map ops' map'') : ops = ops' ∧ map' = map'' := by
  induction h generalizing ops' with
  | done hnone =>
    cases h' with
    | done => exact ⟨rfl, rfl⟩
    | step hsome => rw [hnone] at hsome; cases hsome
  | step hsome _ ih =>
    cases h' with
    | done hnone => rw [hnone] at hsome; cases hsome
    | step hsome' hrest =>
      obtain rfl := Option.some.inj (hsome.symm.trans hsome')
      obtain ⟨rfl, rfl⟩ := ih hrest
      exact ⟨rfl, rfl⟩

theorem check_iff (hmap : Bordered map) {op : OpDelete} (hs : Interior op.start)
    (he : Interior op.stop) :
    canGo map op = true ↔ Legal map op := by
  obtain ⟨found, w', hrun, hiff, -⟩ := lianCheck_spec hmap hs he []
  rw [canGo, hrun, Option.map_some, beq_iff_eq, Option.some.injEq, hiff]
  exact ⟨fun h => ⟨hs, he, h⟩, fun h => h.linked⟩

theorem lastLegal_legal (hmap : Bordered map) (h : lastLegal map = some op) : Legal map op := by
  have hmem := List.mem_reverse.mp (List.mem_of_find?_eq_some h)
  obtain ⟨hs, he, -⟩ := mem_pairs.mp hmem
  exact (check_iff hmap hs he).mp (List.find?_some h)

theorem LastFirst.plays {ops : List OpDelete} (h : LastFirst map ops map') (hmap : Bordered map) :
    Plays map ops map' := by
  induction h with
  | done _ => exact .nil _
  | step hsome _ ih =>
    have hop := lastLegal_legal hmap hsome
    exact .cons hop (ih (hmap.delete hop))

/-! ## The record -/

namespace Solver

theorem range_map_succ {f : ℕ → OpDelete} (n : ℕ) :
    (List.range (n + 1)).map f = (List.range n).map f ++ [f n] := by
  rw [List.range_succ, List.map_append, List.map_singleton]

theorem pushOp_path (s : Solver) (op : OpDelete) :
    (List.range (s.opCntTmp + 1)).map (Function.update s.opsTmp s.opCntTmp op) = s.path ++ [op] := by
  rw [range_map_succ, Function.update_self]
  congr 1
  apply List.map_congr_left
  intro i hi
  rw [Function.update_of_ne (Nat.ne_of_lt (List.mem_range.mp hi))]

theorem popOp_path (s : Solver) : s.popOp.path = s.path.dropLast := by
  unfold path popOp
  cases s.opCntTmp with
  | zero => rfl
  | succ n => rw [range_map_succ, List.dropLast_concat, Nat.add_sub_cancel]

theorem saveOp_map (s : Solver) : s.saveOp.map = s.map := by
  unfold saveOp
  split <;> rfl

theorem saveOp_depth (s : Solver) : s.saveOp.opCntTmp = s.opCntTmp := by
  unfold saveOp
  split <;> rfl

theorem saveOp_path (s : Solver) : s.saveOp.path = s.path := by
  unfold saveOp
  split <;> rfl

theorem saveOp_record_empty {s : Solver} (h : s.opCnt = 0) : s.saveOp.record = s.path := by
  unfold saveOp record path
  split
  · apply List.map_congr_left
    intro i hi
    exact if_pos (List.mem_range.mp hi)
  · rw [show s.opCntTmp = 0 by omega, h]
    rfl

theorem saveOp_record_longer {s : Solver} {op : OpDelete} {ops : List OpDelete}
    (h : s.record = s.path ++ op :: ops) : s.saveOp.record = s.record := by
  have hlen := congrArg List.length h
  simp only [record, path, List.length_map, List.length_range, List.length_append,
    List.length_cons] at hlen
  rw [saveOp, if_neg (by omega)]

end Solver

/-! ## A call and its loop -/

/-- What a call adds to the record: a play that deletes all blocks, if there is one, and
the play that always deletes the last pair otherwise. -/
structure Recorded (map : Map) (ops : List OpDelete) : Prop where
  clears : 0 ∈ leavable map → ∃ map', Plays map ops map' ∧ blockCount map' = 0
  lasts : 0 ∉ leavable map → ∃ map', LastFirst map ops map'

structure CallDone (s : Solver) (r : ℤ) (s' : Solver) : Prop where
  map : s'.map = s.map
  depth : s'.opCntTmp = s.opCntTmp
  path : s'.path = s.path
  least : ∃ n : ℕ, r = n ∧ IsLeast (leavable s.map) n
  record : ∃ ops, s'.record = s.path ++ ops ∧ Recorded s.map ops

/-- Between two pairs of the loop, when those of `tried` are done: `k` is the least number
left so far, and the record that of the last branch. -/
structure LoopInv (s₀ : Solver) (tried : List OpDelete) (k : ℕ) (s : Solver) : Prop where
  map : s.map = s₀.map
  depth : s.opCntTmp = s₀.opCntTmp
  path : s.path = s₀.path
  pos : k ≠ 0
  mem : k ∈ leavable s₀.map
  le : k ≤ blockCount s₀.map
  lower : ∀ op ∈ tried, Legal s₀.map op → ∀ n ∈ leavable (s₀.map.delete op), k ≤ n
  none : lastOf s₀.map tried = none → s.opCnt = 0
  some : ∀ op, lastOf s₀.map tried = some op →
    ∃ ops, s.record = s₀.path ++ op :: ops ∧ Recorded (s₀.map.delete op) ops

structure LoopDone (s₀ : Solver) (r : ℤ) (s : Solver) : Prop where
  map : s.map = s₀.map
  depth : s.opCntTmp = s₀.opCntTmp
  path : s.path = s₀.path
  least : ∃ n : ℕ, r = n ∧ IsLeast (leavable s₀.map) n
  record : (s.opCnt = 0 ∧ Recorded s₀.map []) ∨
    ∃ op ops, s.record = s₀.path ++ op :: ops ∧ Recorded s₀.map (op :: ops)

theorem LoopInv.done {s₀ s : Solver} {k : ℕ} (hmap : Bordered s₀.map)
    (h : LoopInv s₀ pairs k s) : LoopDone s₀ k s := by
  have hleast : IsLeast (leavable s₀.map) k := by
    refine ⟨h.mem, fun n hn => ?_⟩
    obtain rfl | ⟨op, hop, hlegal, hmem⟩ := leavable_cases hn
    · exact h.le
    · exact h.lower op hop hlegal n hmem
  have hzero : 0 ∉ leavable s₀.map := fun hmem => h.pos (Nat.le_zero.mp (hleast.2 hmem))
  refine ⟨h.map, h.depth, h.path, ⟨k, rfl, hleast⟩, ?_⟩
  cases hlast : lastLegal s₀.map with
  | none => exact .inl ⟨h.none hlast, fun hmem => absurd hmem hzero, fun _ => ⟨_, .done hlast⟩⟩
  | some op =>
    obtain ⟨ops, hrecord, hops⟩ := h.some op hlast
    have hlegal := lastLegal_legal hmap hlast
    obtain ⟨map', hlasts⟩ := hops.lasts fun hmem => hzero (leavable_delete hlegal hmem)
    exact .inr ⟨op, ops, hrecord, fun hmem => absurd hmem hzero, fun _ => ⟨map', .step hlast hlasts⟩⟩

def Solver.deleted (s : Solver) (op : OpDelete) : Solver :=
  { s with
    map := s.map.delete op
    opsTmp := Function.update s.opsTmp s.opCntTmp op
    opCntTmp := s.opCntTmp + 1 }

def Solver.restored (s : Solver) (op : OpDelete) (tStart tEnd : ℤ) : Solver :=
  { s.popOp with map := (s.map.set op.start tStart).set op.stop tEnd }

theorem Solver.deleted_path (s : Solver) (op : OpDelete) : (s.deleted op).path = s.path ++ [op] :=
  s.pushOp_path op

/-- One pair that is deleted: the call below it either clears the map, or the loop goes on. -/
theorem LoopInv.deleted {s₀ s s' : Solver} {tried : List OpDelete} {k : ℕ} {r : ℤ}
    (hmap : Bordered s₀.map) (h : LoopInv s₀ tried k s) (hop : Legal s₀.map op)
    (hcall : CallDone (s.deleted op) r s') :
    ∃ n : ℕ, r = n ∧
      (min k n = 0 → LoopDone s₀ 0 (s'.restored op (s.map op.start) (s.map op.stop))) ∧
      (min k n ≠ 0 → LoopInv s₀ (tried ++ [op]) (min k n)
        (s'.restored op (s.map op.start) (s.map op.stop))) := by
  obtain ⟨n, hr, hleast⟩ := hcall.least
  have hdeleted : (s.deleted op).map = s₀.map.delete op := congrArg (Map.delete · op) h.map
  rw [hdeleted] at hleast
  have hmap' : (s'.restored op (s.map op.start) (s.map op.stop)).map = s₀.map := by
    change (s'.map.set op.start (s.map op.start)).set op.stop (s.map op.stop) = s₀.map
    rw [hcall.map, hdeleted, h.map]
    exact Map.delete_restore s₀.map op
  have hdepth : s'.opCntTmp - 1 = s₀.opCntTmp := by
    rw [hcall.depth, ← h.depth]
    rfl
  have hpath : s'.popOp.path = s₀.path := by
    rw [Solver.popOp_path, hcall.path, Solver.deleted_path, List.dropLast_concat, h.path]
  have hrecord : ∃ ops, s'.record = s₀.path ++ op :: ops ∧ Recorded (s₀.map.delete op) ops := by
    obtain ⟨ops, hops, hrec⟩ := hcall.record
    rw [Solver.deleted_path, h.path, List.append_assoc] at hops
    exact ⟨ops, hops, hdeleted ▸ hrec⟩
  refine ⟨n, hr, fun hmin => ?_, fun hmin => ?_⟩
  · obtain rfl : n = 0 := by
      have := h.pos
      omega
    have hzero : 0 ∈ leavable s₀.map := leavable_delete hop hleast.1
    refine ⟨hmap', hdepth, hpath, ⟨0, rfl, hzero, fun _ _ => Nat.zero_le _⟩, ?_⟩
    obtain ⟨ops, hops, hrec⟩ := hrecord
    obtain ⟨map', hplays, hcount⟩ := hrec.clears hleast.1
    exact .inr ⟨op, ops, hops, fun _ => ⟨map', .cons hop hplays, hcount⟩, fun hne => absurd hzero hne⟩
  · have hcan : canGo s₀.map op = true := (check_iff hmap hop.start hop.stop).mpr hop
    refine ⟨hmap', hdepth, hpath, hmin, ?_, (min_le_left k n).trans h.le, ?_, ?_, ?_⟩
    · obtain hk | hn : min k n = k ∨ min k n = n := by omega
      · rw [hk]
        exact h.mem
      · rw [hn]
        exact leavable_delete hop hleast.1
    · intro op' hop' hlegal m hm
      obtain hold | hnew := List.mem_append.mp hop'
      · exact (min_le_left k n).trans (h.lower op' hold hlegal m hm)
      · obtain rfl := List.mem_singleton.mp hnew
        exact (min_le_right k n).trans (hleast.2 hm)
    · rw [lastOf_concat, if_pos hcan]
      exact nofun
    · rw [lastOf_concat, if_pos hcan]
      rintro op' hsome
      obtain rfl := Option.some.inj hsome
      exact hrecord

theorem LoopInv.skipped {s₀ s : Solver} {tried : List OpDelete} {k : ℕ} (hmap : Bordered s₀.map)
    (h : LoopInv s₀ tried k s) (hs : Interior op.start) (he : Interior op.stop)
    (hop : ¬ Legal s₀.map op) (way : Way) :
    LoopInv s₀ (tried ++ [op]) k { s with way := way } := by
  have hcan : ¬ canGo s₀.map op = true := mt (check_iff hmap hs he).mp hop
  refine ⟨h.map, h.depth, h.path, h.pos, h.mem, h.le, ?_, ?_, ?_⟩
  · intro op' hop' hlegal
    obtain hold | hnew := List.mem_append.mp hop'
    · exact h.lower op' hold hlegal
    · obtain rfl := List.mem_singleton.mp hnew
      exact absurd hlegal hop
  · rw [lastOf_concat, if_neg hcan]
    exact h.none
  · rw [lastOf_concat, if_neg hcan]
    exact h.some

theorem tryPairs_spec {sub : ℤ → Solver → Option (ℤ × Solver)} (s₀ : Solver)
    (hmap : Bordered s₀.map) (hroom : 2 * s₀.opCntTmp + blockCount s₀.map ≤ 2 * opsMax)
    (hsub : ∀ s, Bordered s.map → blockCount s.map + 2 = blockCount s₀.map →
      s.opCntTmp = s₀.opCntTmp + 1 → ∃ r s', sub (blockCount s.map) s = some (r, s') ∧
        CallDone s r s')
    (rest : List OpDelete) {tried : List OpDelete} (hpairs : pairs = tried ++ rest) {k : ℕ}
    {s : Solver} (h : LoopInv s₀ tried k s) :
    ∃ r s', tryPairs sub (blockCount s₀.map) rest k s = some (r, s') ∧ LoopDone s₀ r s' := by
  induction rest generalizing tried k s with
  | nil =>
    rw [List.append_nil] at hpairs
    subst hpairs
    exact ⟨k, s, rfl, h.done hmap⟩
  | cons op rest ih =>
    have hpairs' : pairs = (tried ++ [op]) ++ rest := by rw [hpairs, List.append_assoc]; rfl
    obtain ⟨hs, he, -⟩ := mem_pairs.mp (hpairs ▸ List.mem_append_right tried List.mem_cons_self)
    obtain ⟨found, way, hcheck, hiff, -⟩ := lianCheck_spec (h.map ▸ hmap) hs he s.way
    rw [h.map] at hiff
    simp only [tryPairs, hcheck, Option.bind_some]
    by_cases hop : Legal s₀.map op
    · obtain rfl : found = true := hiff.mpr hop.linked
      have hcount := blockCount_delete hop
      have hdepth : s.opCntTmp < opsMax := by
        have := h.depth
        omega
      have hnext : (Solver.deleted { s with way := way } op).map = s₀.map.delete op :=
        congrArg (Map.delete · op) h.map
      have hsubLeft : (blockCount s₀.map : ℤ) - 2 =
          blockCount (Solver.deleted { s with way := way } op).map := by
        rw [hnext]
        omega
      obtain ⟨r, s', hrun, hcall⟩ := hsub (Solver.deleted { s with way := way } op)
        (hnext ▸ hmap.delete hop) (hnext ▸ hcount) (congrArg (· + 1) h.depth)
      rw [← hsubLeft] at hrun
      have hinv : LoopInv s₀ tried k { s with way := way } :=
        ⟨h.map, h.depth, h.path, h.pos, h.mem, h.le, h.lower, h.none, h.some⟩
      obtain ⟨n, rfl, hzero, hnonzero⟩ := hinv.deleted hmap hop hcall
      have hpush : ({ s with way := way, map := s.map.delete op } : Solver).pushOp op =
          some (Solver.deleted { s with way := way } op) := if_pos hdepth
      simp only [if_true, hpush, Option.bind_some, hrun]
      have hmin : min (k : ℤ) (n : ℤ) = (min k n : ℕ) := by omega
      rw [hmin]
      by_cases hk : min k n = 0
      · rw [hk]
        exact ⟨0, _, rfl, hzero hk⟩
      · rw [if_neg (by omega)]
        exact ih hpairs' (hnonzero hk)
    · obtain rfl : found = false := Bool.eq_false_iff.mpr fun hf => hop ⟨hs, he, hiff.mp hf⟩
      simp only [Bool.false_eq_true, if_false]
      exact ih hpairs' (h.skipped hmap hs he hop way)

theorem lianLeft_spec (fuel : ℕ) {s : Solver} (hmap : Bordered s.map)
    (hfuel : blockCount s.map < 2 * fuel)
    (hroom : 2 * s.opCntTmp + blockCount s.map ≤ 2 * opsMax) :
    ∃ r s', lianLeft fuel (blockCount s.map) s = some (r, s') ∧ CallDone s r s' := by
  induction fuel generalizing s with
  | zero => omega
  | succ fuel ih =>
    simp only [lianLeft]
    by_cases hcount : blockCount s.map = 0
    · have hleast : IsLeast (leavable s.map) 0 :=
        ⟨hcount ▸ blockCount_leavable s.map, fun _ _ => Nat.zero_le _⟩
      rw [if_pos (by omega)]
      refine ⟨_, _, rfl, ?_⟩
      refine ⟨Solver.saveOp_map _, Solver.saveOp_depth _, Solver.saveOp_path _,
        ⟨0, by omega, hleast⟩, [], ?_, fun _ => ⟨s.map, .nil _, hcount⟩, fun hne => absurd hleast.1 hne⟩
      rw [Solver.saveOp_record_empty rfl, List.append_nil]
      rfl
    · rw [if_neg (by omega)]
      have hsub : ∀ s' : Solver, Bordered s'.map → blockCount s'.map + 2 = blockCount s.map →
          s'.opCntTmp = s.opCntTmp + 1 → ∃ r s'', lianLeft fuel (blockCount s'.map) s' =
            some (r, s'') ∧ CallDone s' r s'' :=
        fun s' hmap' hc hd => ih hmap' (by omega) (by omega)
      have hinv : LoopInv { s with opCnt := 0 } [] (blockCount s.map) { s with opCnt := 0 } :=
        ⟨rfl, rfl, rfl, hcount, blockCount_leavable s.map, le_refl _, nofun, fun _ => rfl, nofun⟩
      obtain ⟨r, s', hrun, hdone⟩ := tryPairs_spec { s with opCnt := 0 } hmap hroom hsub pairs rfl hinv
      refine ⟨r, s'.saveOp, by rw [hrun]; rfl, ?_⟩
      have hpath : s'.path = s.path := hdone.path
      refine ⟨(Solver.saveOp_map _).trans hdone.map, (Solver.saveOp_depth _).trans hdone.depth,
        (Solver.saveOp_path _).trans hpath, hdone.least, ?_⟩
      obtain ⟨hempty, hrec⟩ | ⟨op, ops, hrecord, hrec⟩ := hdone.record
      · exact ⟨[], by rw [Solver.saveOp_record_empty hempty, hpath, List.append_nil], hrec⟩
      · have hlonger : s'.record = s'.path ++ op :: ops := by rw [hrecord, hdone.path]
        exact ⟨op :: ops, by rw [Solver.saveOp_record_longer hlonger, hlonger, hpath], hrec⟩

/-! ## Top-level calls -/

theorem blockCount_le (map : Map) : blockCount map ≤ 2 * opsMax := by
  have hlen : interiorCells.length = 100 := by decide
  exact (List.countP_le_length).trans hlen.le

theorem lianLeft_top {s : Solver} (hmap : Bordered s.map) (htop : s.opCntTmp = 0) {fuel : ℕ}
    (hfuel : blockCount s.map < 2 * fuel) :
    ∃ (m : ℕ) (s' : Solver), lianLeft fuel (blockCount s.map) s = some ((m : ℤ), s') ∧
      IsLeast (leavable s.map) m ∧ s'.map = s.map ∧ s'.opCntTmp = 0 ∧
      Recorded s.map s'.record := by
  have hroom : 2 * s.opCntTmp + blockCount s.map ≤ 2 * opsMax := by
    have := blockCount_le s.map
    omega
  obtain ⟨r, s', hrun, hdone⟩ := lianLeft_spec fuel hmap hfuel hroom
  obtain ⟨m, rfl, hleast⟩ := hdone.least
  obtain ⟨ops, hops, hrec⟩ := hdone.record
  have hempty : s.path = [] := by rw [Solver.path, htop]; rfl
  rw [hempty, List.nil_append] at hops
  exact ⟨m, s', hrun, hleast, hdone.map, hdone.depth.trans htop, hops ▸ hrec⟩

theorem Plays.unique {ops : List OpDelete} {map'' : Map} (h : Plays map ops map')
    (h' : Plays map ops map'') : map' = map'' := by
  induction h with
  | nil map => cases h'; rfl
  | cons _ _ ih =>
    cases h' with
    | cons _ hrest => exact ih hrest

/-- The solver ends, leaves the map as it was, and returns the least number of blocks that a
play can leave. -/
theorem lianLeft_minimum {s : Solver} (hmap : Bordered s.map) (htop : s.opCntTmp = 0) {fuel : ℕ}
    (hfuel : blockCount s.map < 2 * fuel) :
    ∃ (m : ℕ) (s' : Solver), lianLeft fuel (blockCount s.map) s = some ((m : ℤ), s') ∧
      s'.map = s.map ∧ s'.opCntTmp = 0 ∧ IsLeast (leavable s.map) m := by
  obtain ⟨m, s', hrun, hleast, hmap', hdepth, -⟩ := lianLeft_top hmap htop hfuel
  exact ⟨m, s', hrun, hmap', hdepth, hleast⟩

/-- The globals before the first call on a map. -/
def Solver.start (map : Map) : Solver :=
  let none : OpDelete := ⟨⟨0, 0⟩, ⟨0, 0⟩⟩
  { map := map, way := [], opCnt := 0, ops := fun _ => none, opCntTmp := 0, opsTmp := fun _ => none }

/-- Seven blocks: one of type 2 is shut into the corner by the first of three of type 1. -/
def sevenBlocks : List (Coor × ℤ) :=
  [(⟨1, 1⟩, 2), (⟨2, 1⟩, 1), (⟨1, 2⟩, 3), (⟨5, 5⟩, 2), (⟨5, 8⟩, 4), (⟨9, 10⟩, 1), (⟨10, 10⟩, 1)]

theorem sevenBlocks_bordered : Bordered (mapOf sevenBlocks) := mapOf_bordered (by decide)

theorem sevenBlocks_count : blockCount (mapOf sevenBlocks) = 7 := by decide

theorem sevenBlocks_fuel : blockCount (Solver.start (mapOf sevenBlocks)).map < 2 * 4 :=
  (show blockCount (Solver.start (mapOf sevenBlocks)).map = 7 from sevenBlocks_count) ▸ by decide

theorem lianLeft_minimum_seven :
    ∃ (m : ℕ) (s' : Solver), lianLeft 4 (blockCount (mapOf sevenBlocks))
        (Solver.start (mapOf sevenBlocks)) = some ((m : ℤ), s') ∧
      s'.map = mapOf sevenBlocks ∧ s'.opCntTmp = 0 ∧ IsLeast (leavable (mapOf sevenBlocks)) m :=
  lianLeft_minimum (s := Solver.start (mapOf sevenBlocks)) sevenBlocks_bordered rfl sevenBlocks_fuel

/-- The record is always a play; it leaves what the solver returns exactly if the map can be
cleared, or if always deleting the last pair leaves the least number of blocks. -/
theorem lianLeft_record {s : Solver} (hmap : Bordered s.map) (htop : s.opCntTmp = 0) {fuel : ℕ}
    (hfuel : blockCount s.map < 2 * fuel) :
    ∃ (m : ℕ) (s' : Solver), lianLeft fuel (blockCount s.map) s = some ((m : ℤ), s') ∧
      (∃ map', Plays s.map s'.record map') ∧
      ((∃ map', Plays s.map s'.record map' ∧ blockCount map' = m ∧
          s'.opCnt = (blockCount s.map - m) / 2) ↔
        (0 ∈ leavable s.map ∨ ∃ ops map', LastFirst s.map ops map' ∧
          IsLeast (leavable s.map) (blockCount map'))) := by
  obtain ⟨m, s', hrun, hleast, -, -, hrec⟩ := lianLeft_top hmap htop hfuel
  refine ⟨m, s', hrun, ?_⟩
  have hcnt : ∀ map', Plays s.map s'.record map' → blockCount map' = m →
      s'.opCnt = (blockCount s.map - m) / 2 := by
    intro map' hplays hm
    have hcount := hplays.count
    simp only [Solver.record, List.length_map, List.length_range] at hcount
    omega
  by_cases hzero : 0 ∈ leavable s.map
  · obtain ⟨map', hplays, hclear⟩ := hrec.clears hzero
    have hm : m = 0 := Nat.le_zero.mp (hleast.2 hzero)
    rw [← hm] at hclear
    exact ⟨⟨map', hplays⟩, iff_of_true ⟨map', hplays, hclear, hcnt map' hplays hclear⟩ (.inl hzero)⟩
  · obtain ⟨map', hlast⟩ := hrec.lasts hzero
    have hplays := hlast.plays hmap
    refine ⟨⟨map', hplays⟩, ?_, ?_⟩
    · rintro ⟨map'', hplays', hm, -⟩
      obtain rfl := hplays.unique hplays'
      exact .inr ⟨_, map', hlast, hm ▸ hleast⟩
    · rintro (hmem | ⟨ops, map'', hlast', hleast'⟩)
      · exact absurd hmem hzero
      · obtain ⟨-, rfl⟩ := hlast.unique hlast'
        have hm : blockCount map' = m := hleast'.unique hleast
        exact ⟨map', hplays, hm, hcnt map' hplays hm⟩

theorem lianLeft_record_seven :
    ∃ (m : ℕ) (s' : Solver), lianLeft 4 (blockCount (mapOf sevenBlocks))
        (Solver.start (mapOf sevenBlocks)) = some ((m : ℤ), s') ∧
      ∃ map', Plays (mapOf sevenBlocks) s'.record map' := by
  obtain ⟨m, s', hrun, hplays, -⟩ :=
    lianLeft_record (s := Solver.start (mapOf sevenBlocks)) sevenBlocks_bordered rfl sevenBlocks_fuel
  exact ⟨m, s', hrun, hplays⟩

theorem mapOf_mem {blocks : List (Coor × ℤ)} {c : Coor} (hin : Interior c)
    (h : mapOf blocks c ≠ 0) : c ∈ blocks.map Prod.fst := by
  rw [mapOf, if_pos hin] at h
  by_contra hmem
  have hnone : blocks.lookup c = none := by
    rw [List.lookup_eq_none_iff]
    intro b hb
    rw [bne_iff_ne]
    rintro rfl
    exact hmem (List.mem_map_of_mem hb)
  exact h (by rw [hnone]; rfl)

/-- Of two branches the first leaves three blocks, the last five. -/
theorem record_not_least :
    ∃ (m : ℕ) (s' : Solver), lianLeft 4 (blockCount (mapOf sevenBlocks))
        (Solver.start (mapOf sevenBlocks)) = some ((m : ℤ), s') ∧
      ¬ ∃ map', Plays (mapOf sevenBlocks) s'.record map' ∧ blockCount map' = m := by
  obtain ⟨m, s', hrun, hleast, -, -, hrec⟩ :=
    lianLeft_top (s := Solver.start (mapOf sevenBlocks)) sevenBlocks_bordered rfl sevenBlocks_fuel
  rw [show (Solver.start (mapOf sevenBlocks)).map = mapOf sevenBlocks from rfl] at hleast hrec
  refine ⟨m, s', hrun, ?_⟩
  rintro ⟨map', hplays, hm⟩
  have hcount := sevenBlocks_count
  have hodd : 0 ∉ leavable (mapOf sevenBlocks) := by
    rintro ⟨ops, map', hplays, hzero⟩
    have := hplays.count
    omega
  -- the last pair in the order of the loops lies in the last row, and nothing can follow it
  have hlast : lastLegal (mapOf sevenBlocks) = some ⟨⟨9, 10⟩, ⟨10, 10⟩⟩ := by decide +kernel
  have hnone : lastLegal ((mapOf sevenBlocks).delete ⟨⟨9, 10⟩, ⟨10, 10⟩⟩) = none := by
    have hlegal := lastLegal_legal sevenBlocks_bordered hlast
    cases hsome : lastLegal ((mapOf sevenBlocks).delete ⟨⟨9, 10⟩, ⟨10, 10⟩⟩) with
    | none => rfl
    | some op =>
      have hop := lastLegal_legal (sevenBlocks_bordered.delete hlegal) hsome
      have hcan := (check_iff (sevenBlocks_bordered.delete hlegal) hop.start hop.stop).mpr hop
      have hblock : ∀ c, Interior c →
          (mapOf sevenBlocks).delete ⟨⟨9, 10⟩, ⟨10, 10⟩⟩ c ≠ 0 → c ∈ sevenBlocks.map Prod.fst := by
        intro c hin hc
        rw [Map.delete_apply] at hc
        exact mapOf_mem hin fun hzero => hc (by rw [hzero, ite_self])
      have hstart := hblock op.start hop.start hop.linked.2.1
      have hstop := hblock op.stop hop.stop (hop.linked.2.2.1 ▸ hop.linked.2.1)
      have hall : ∀ s ∈ sevenBlocks.map Prod.fst, ∀ e ∈ sevenBlocks.map Prod.fst,
          canGo ((mapOf sevenBlocks).delete ⟨⟨9, 10⟩, ⟨10, 10⟩⟩) ⟨s, e⟩ = false := by
        decide
      exact absurd hcan (by rw [hall _ hstart _ hstop]; exact Bool.false_ne_true)
  obtain ⟨map₁, hlasts⟩ := hrec.lasts hodd
  obtain ⟨hrecord, -⟩ := hlasts.unique (.step hlast (.done hnone))
  have hfive := hplays.count
  rw [hrecord] at hfive
  have hfirst : Legal (mapOf sevenBlocks) ⟨⟨2, 1⟩, ⟨9, 10⟩⟩ :=
    (check_iff sevenBlocks_bordered (by decide) (by decide)).mp (by decide)
  have hsecond : Legal ((mapOf sevenBlocks).delete ⟨⟨2, 1⟩, ⟨9, 10⟩⟩) ⟨⟨1, 1⟩, ⟨5, 5⟩⟩ :=
    (check_iff (sevenBlocks_bordered.delete hfirst) (by decide) (by decide)).mp (by decide)
  have hthree := (Plays.cons hfirst (.cons hsecond (.nil _))).count
  have hle : m ≤ 3 := hleast.2 ⟨_, _, .cons hfirst (.cons hsecond (.nil _)), by
    simp only [List.length_cons, List.length_nil] at hthree
    omega⟩
  simp only [List.length_cons, List.length_nil] at hfive
  omega

end DfewOS.Lian
