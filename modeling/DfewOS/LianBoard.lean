import DfewOS.LianSolver
import Mathlib.Algebra.Group.Nat.Even

/-!
# The boards of Lianliankan

`lian_init` deals pairs of blocks over the shape of a level, `lian_reorder` deals the
blocks that are left over their own cells. Both shuffle first, with `rand i` for the value
of the `i`-th call of `rand`. The blocks on the map, read row by row, are in the end those
that were dealt, in another order.
-/

namespace DfewOS.Lian
open GridPath

abbrev levelNum : ℕ := 15

abbrev shapeNum : ℕ := 3

def typeNum : List ℕ := [8, 12, 16, 20, 24]

def levelMaps : List (List (List ℤ)) :=
  let B : ℤ := -1
  [[[B, B, B, B, B, B, B, B, B, B, B, B],
    [B, 0, 0, 0, 0, 0, 0, 0, 0, 0, 0, B],
    [B, 0, 1, 1, 1, 1, 1, 1, 1, 1, 0, B],
    [B, 0, 1, 1, 1, 1, 1, 1, 1, 1, 0, B],
    [B, 0, 1, 1, 1, 1, 1, 1, 1, 1, 0, B],
    [B, 0, 0, 0, 0, 1, 1, 0, 0, 0, 0, B],
    [B, 0, 0, 0, 0, 1, 1, 0, 0, 0, 0, B],
    [B, 0, 1, 1, 1, 1, 1, 1, 1, 1, 0, B],
    [B, 0, 1, 1, 1, 1, 1, 1, 1, 1, 0, B],
    [B, 0, 1, 1, 1, 1, 1, 1, 1, 1, 0, B],
    [B, 0, 0, 0, 0, 0, 0, 0, 0, 0, 0, B],
    [B, B, B, B, B, B, B, B, B, B, B, B]],
   [[B, B, B, B, B, B, B, B, B, B, B, B],
    [B, 0, 0, 0, 0, 0, 0, 0, 0, 0, 0, B],
    [B, 0, 1, 1, 1, 1, 1, 1, 1, 1, 0, B],
    [B, 0, 1, 1, 1, 0, 0, 1, 1, 1, 0, B],
    [B, 0, 1, 1, 1, 1, 1, 1, 1, 1, 0, B],
    [B, 0, 0, 0, 0, 1, 1, 1, 0, 0, 0, B],
    [B, 0, 1, 1, 0, 1, 1, 0, 0, 1, 0, B],
    [B, 0, 1, 1, 1, 1, 1, 1, 1, 1, 0, B],
    [B, 0, 1, 1, 1, 1, 1, 1, 1, 1, 0, B],
    [B, 0, 1, 1, 1, 1, 1, 1, 1, 1, 0, B],
    [B, 0, 0, 0, 0, 0, 0, 0, 0, 0, 0, B],
    [B, B, B, B, B, B, B, B, B, B, B, B]],
   [[B, B, B, B, B, B, B, B, B, B, B, B],
    [B, 0, 0, 0, 0, 0, 0, 0, 0, 0, 0, B],
    [B, 0, 1, 1, 1, 1, 1, 1, 1, 1, 0, B],
    [B, 0, 1, 1, 1, 1, 1, 1, 1, 1, 0, B],
    [B, 0, 1, 1, 1, 1, 1, 1, 1, 1, 0, B],
    [B, 0, 1, 1, 1, 1, 1, 1, 1, 1, 0, B],
    [B, 0, 1, 1, 1, 1, 1, 1, 1, 1, 0, B],
    [B, 0, 1, 1, 1, 1, 1, 1, 1, 1, 0, B],
    [B, 0, 1, 1, 1, 1, 1, 1, 1, 1, 0, B],
    [B, 0, 1, 1, 1, 1, 1, 1, 1, 1, 0, B],
    [B, 0, 0, 0, 0, 0, 0, 0, 0, 0, 0, B],
    [B, B, B, B, B, B, B, B, B, B, B, B]]]

/-- `_G_level_maps[shape][c.y][c.x]` -/
def levelMap (shape : ℕ) (c : Coor) : ℤ :=
  ((levelMaps.getD shape []).getD c.y.toNat []).getD c.x.toNat 0

def makeBlocks (types : ℕ) : ℕ → ℕ → List ℤ
  | 0, _ => []
  | pairs + 1, type => (type + 1) :: (type + 1) :: makeBlocks types pairs ((type + 1) % types)

def exchange (temp : List ℤ) (i ex : ℕ) : List ℤ :=
  (temp.set i (temp.getD ex 0)).set ex (temp.getD i 0)

/-- The loop that exchanges the blocks from `i` on, `n` of them. -/
def shuffleFrom (rand : ℕ → ℕ) : ℕ → ℕ → List ℤ → List ℤ
  | 0, _, temp => temp
  | n + 1, i, temp => shuffleFrom rand n (i + 1) (exchange temp i (i + rand i % (n + 1)))

def shuffle (rand : ℕ → ℕ) (temp : List ℤ) : List ℤ := shuffleFrom rand temp.length 0 temp

/-- The loops that fill the map, where `filled` says so; the blocks come from the end of
`temp`. -/
def fill (filled : Coor → Bool) : List Coor → List ℤ → Map → Map
  | [], _, map => map
  | c :: cells, temp, map =>
    if filled c then fill filled cells temp.dropLast (map.set c (temp.getLastD 0))
    else fill filled cells temp map

def Map.clear (map : Map) : Map := fun c => if c ∈ interiorCells then 0 else map c

def lianInit (level : ℕ) (calloc : Bool) (rand : ℕ → ℕ) (map : Map) : ℤ × Map :=
  if level ≥ levelNum then (-1, map)
  else
    let shape := levelMap (level % shapeNum)
    let fillCnt := interiorCells.countP fun c => shape c ≠ 0
    let map := map.clear
    if fillCnt % 2 ≠ 0 then (-1, map)
    else if !calloc then (-1, map)
    else
      let temp := makeBlocks (typeNum.getD (level / shapeNum) 0) (fillCnt / 2) 0
      (fillCnt, fill (fun c => shape c ≠ 0) interiorCells (shuffle rand temp) map)

def blocks (map : Map) : List ℤ := (interiorCells.map map).filter (· ≠ 0)

def lianReorder (rand : ℕ → ℕ) (map : Map) : ℤ × Map :=
  let temp := blocks map
  (temp.length, fill (fun c => map c ≠ 0) interiorCells (shuffle rand temp) map)

/-! ## Dealing -/

variable {map : Map} {temp : List ℤ}

theorem blockCount_eq (map : Map) : blockCount map = (blocks map).length := by
  rw [blockCount, blocks, ← List.countP_eq_length_filter, List.countP_map]
  rfl

theorem typeCount_eq (map : Map) {type : ℤ} (htype : type ≠ 0) :
    typeCount map type = (blocks map).count type := by
  rw [typeCount, blocks, List.count_filter (by simpa using htype), List.count, List.countP_map]
  apply List.countP_congr
  intro c _
  simp

theorem exchange_perm {i ex : ℕ} (hi : i < temp.length) (hex : ex < temp.length) :
    (exchange temp i ex).Perm temp := by
  have hget : ∀ k (hk : k < temp.length), temp.getD k 0 = temp[k] := by
    intro k hk
    rw [List.getD_eq_getElem?_getD, List.getElem?_eq_getElem hk, Option.getD_some]
  rw [exchange, hget i hi, hget ex hex]
  exact List.set_set_perm hi hex

theorem exchange_length (temp : List ℤ) (i ex : ℕ) : (exchange temp i ex).length = temp.length := by
  rw [exchange, List.length_set, List.length_set]

theorem shuffleFrom_perm (rand : ℕ → ℕ) {n i : ℕ} (h : i + n = temp.length) :
    (shuffleFrom rand n i temp).Perm temp := by
  induction n generalizing i temp with
  | zero => exact .refl temp
  | succ n ih =>
    have hex : i + rand i % (n + 1) < temp.length := by
      have : rand i % (n + 1) < n + 1 := Nat.mod_lt (rand i) (Nat.succ_pos n)
      omega
    have hrest : (shuffleFrom rand n (i + 1) (exchange temp i (i + rand i % (n + 1)))).Perm
        (exchange temp i (i + rand i % (n + 1))) := ih (by rw [exchange_length]; omega)
    exact hrest.trans (exchange_perm (by omega) hex)

theorem shuffle_perm (rand : ℕ → ℕ) (temp : List ℤ) : (shuffle rand temp).Perm temp :=
  shuffleFrom_perm rand (Nat.zero_add _)

theorem fill_notMem (filled : Coor → Bool) {cells : List Coor} {c : Coor}
    (h : c ∈ cells → filled c = false) : fill filled cells temp map c = map c := by
  induction cells generalizing temp map with
  | nil => rfl
  | cons c' cells ih =>
    have hrest : c ∈ cells → filled c = false := fun hmem => h (List.mem_cons_of_mem c' hmem)
    rw [fill]
    split
    · next hfill =>
      have hne : c ≠ c' := by
        rintro rfl
        rw [h List.mem_cons_self] at hfill
        cases hfill
      rw [ih hrest, Map.set, Function.update_of_ne hne]
    · exact ih hrest

theorem fill_mem (filled : Coor → Bool) {cells : List Coor} (hnd : cells.Nodup)
    (hlen : temp.length = cells.countP filled) {c : Coor} (hc : c ∈ cells)
    (hfill : filled c = true) : fill filled cells temp map c ∈ temp := by
  induction cells generalizing temp map with
  | nil => cases hc
  | cons c' cells ih =>
    obtain ⟨hc', hnd⟩ := List.nodup_cons.mp hnd
    cases hfill' : filled c' with
    | false =>
      have hne : c ≠ c' := by
        rintro rfl
        rw [hfill] at hfill'
        cases hfill'
      rw [List.countP_cons_of_neg (by simp [hfill'])] at hlen
      simp only [fill, hfill', Bool.false_eq_true, if_false]
      exact ih hnd hlen (List.mem_of_ne_of_mem hne hc)
    | true =>
      rw [List.countP_cons_of_pos hfill'] at hlen
      obtain rfl | ⟨temp, t, rfl⟩ := List.eq_nil_or_concat temp
      · rw [List.length_nil] at hlen
        omega
      rw [List.concat_eq_append] at *
      simp only [fill, hfill', if_true, List.dropLast_concat, List.getLastD_concat]
      obtain rfl | htail := List.mem_cons.mp hc
      · rw [fill_notMem filled fun hmem => absurd hmem hc', Map.set, Function.update_self]
        exact List.mem_append_right temp (List.mem_singleton_self t)
      · exact List.mem_append_left [t] (ih hnd (by simpa using hlen) htail)

theorem fill_blocks (filled : Coor → Bool) {cells : List Coor} (hnd : cells.Nodup)
    (hlen : temp.length = cells.countP filled) (htemp : ∀ t ∈ temp, t ≠ 0)
    (hempty : ∀ c ∈ cells, filled c = false → map c = 0) :
    (cells.map (fill filled cells temp map)).filter (· ≠ 0) = temp.reverse := by
  induction cells generalizing temp map with
  | nil =>
    obtain rfl : temp = [] := List.length_eq_zero_iff.mp hlen
    rfl
  | cons c cells ih =>
    obtain ⟨hc, hnd⟩ := List.nodup_cons.mp hnd
    cases hfill : filled c with
    | false =>
      rw [List.countP_cons_of_neg (by simp [hfill])] at hlen
      have hzero : map c = 0 := hempty c List.mem_cons_self hfill
      have hrest := ih hnd hlen htemp fun c' hc' => hempty c' (List.mem_cons_of_mem c hc')
      simp only [fill, hfill, Bool.false_eq_true, if_false, List.map_cons]
      rw [List.filter_cons_of_neg (by simp [fill_notMem filled (fun h => absurd h hc), hzero])]
      exact hrest
    | true =>
      rw [List.countP_cons_of_pos hfill] at hlen
      obtain rfl | ⟨temp, t, rfl⟩ := List.eq_nil_or_concat temp
      · rw [List.length_nil] at hlen
        omega
      rw [List.concat_eq_append] at *
      have ht : t ≠ 0 := htemp t (by simp)
      have hempty' : ∀ c' ∈ cells, filled c' = false → map.set c t c' = 0 := by
        intro c' hc' hf
        have hne : c' ≠ c := fun heq => hc (heq ▸ hc')
        rw [Map.set, Function.update_of_ne hne]
        exact hempty c' (List.mem_cons_of_mem c hc') hf
      have hrest := ih hnd (by simpa using hlen) (fun u hu => htemp u (by simp [hu])) hempty'
      simp only [fill, hfill, if_true, List.dropLast_concat, List.getLastD_concat, List.map_cons]
      have hhead : fill filled cells temp (map.set c t) c = t := by
        rw [fill_notMem filled fun hmem => absurd hmem hc, Map.set, Function.update_self]
      rw [hhead, List.filter_cons_of_pos (by simpa using ht), hrest, List.reverse_append]
      rfl

theorem makeBlocks_pos (types pairs type : ℕ) : ∀ t ∈ makeBlocks types pairs type, 0 < t := by
  induction pairs generalizing type with
  | zero => exact nofun
  | succ pairs ih =>
    intro t ht
    simp only [makeBlocks, List.mem_cons] at ht
    obtain rfl | rfl | ht := ht
    · omega
    · omega
    · exact ih _ t ht

theorem makeBlocks_length (types pairs type : ℕ) :
    (makeBlocks types pairs type).length = 2 * pairs := by
  induction pairs generalizing type with
  | zero => rfl
  | succ pairs ih =>
    simp only [makeBlocks, List.length_cons, ih]
    omega

theorem makeBlocks_even (types pairs type : ℕ) (t : ℤ) :
    Even ((makeBlocks types pairs type).count t) := by
  induction pairs generalizing type with
  | zero => exact Even.zero
  | succ pairs ih =>
    have hrest := ih ((type + 1) % types)
    simp only [makeBlocks, List.count_cons]
    split
    · rw [add_assoc]
      exact hrest.add (by decide)
    · simpa using hrest

/-! ## The two boards -/

/-- A board of a level: blocks in pairs within the border. -/
structure Paired (map : Map) : Prop where
  bordered : Bordered map
  even : ∀ type, type ≠ 0 → Even (typeCount map type)

theorem mem_blocks {t : ℤ} : t ∈ blocks map ↔ t ≠ 0 ∧ ∃ c, Interior c ∧ map c = t := by
  simp only [blocks, List.mem_filter, List.mem_map, mem_interiorCells, decide_eq_true_eq]
  tauto

theorem Bordered.clear (h : Bordered map) : Bordered map.clear where
  border c hon hout := by
    rw [Map.clear, if_neg (mt mem_interiorCells.mp hout)]
    exact h.border c hon hout
  blocks c hin := by
    rw [Map.clear, if_pos (mem_interiorCells.mpr hin)]

theorem blocks_clear (map : Map) : blocks map.clear = [] := by
  rw [blocks, List.filter_eq_nil_iff]
  intro t ht
  obtain ⟨c, hc, rfl⟩ := List.mem_map.mp ht
  simp [Map.clear, hc]

theorem fill_spec (filled : Coor → Bool) (hmap : Bordered map)
    (hlen : temp.length = interiorCells.countP filled) (htemp : ∀ t ∈ temp, 0 < t)
    (hempty : ∀ c ∈ interiorCells, filled c = false → map c = 0) :
    Bordered (fill filled interiorCells temp map) ∧
      blocks (fill filled interiorCells temp map) = temp.reverse := by
  refine ⟨⟨fun c hon hout => ?_, fun c hin => ?_⟩, ?_⟩
  · rw [fill_notMem filled fun hmem => absurd (mem_interiorCells.mp hmem) hout]
    exact hmap.border c hon hout
  · have hmem := mem_interiorCells.mpr hin
    cases hfill : filled c with
    | false => rw [fill_notMem filled fun _ => hfill, hempty c hmem hfill]
    | true => exact (htemp _ (fill_mem filled interiorCells_nodup hlen hmem hfill)).le
  · exact fill_blocks filled interiorCells_nodup hlen (fun t ht => (htemp t ht).ne') hempty

theorem fillCnt_even (shape : ℕ) (h : shape < shapeNum) :
    (interiorCells.countP fun c => levelMap shape c ≠ 0) % 2 = 0 ∧
      0 < interiorCells.countP fun c => levelMap shape c ≠ 0 := by
  have hcases : shape = 0 ∨ shape = 1 ∨ shape = 2 := by
    have hnum : shapeNum = 3 := rfl
    omega
  obtain rfl | rfl | rfl := hcases <;> decide

theorem lianInit_spec {level : ℕ} (hlevel : level < levelNum) (calloc : Bool) (rand : ℕ → ℕ)
    (hmap : Bordered map) :
    ∃ left map', lianInit level calloc rand map = (left, map') ∧ Paired map' ∧
      ((left = -1 ∧ blockCount map' = 0) ∨ (0 < left ∧ left = blockCount map')) := by
  obtain ⟨heven, hpos⟩ := fillCnt_even (level % shapeNum) (Nat.mod_lt level (by decide))
  have hclear := hmap.clear
  simp only [lianInit]
  rw [if_neg (Nat.not_le.mpr hlevel), if_neg (not_not.mpr heven)]
  cases calloc with
  | false =>
    refine ⟨-1, map.clear, rfl, ⟨hclear, fun type htype => ?_⟩, .inl ⟨rfl, ?_⟩⟩
    · rw [typeCount_eq _ htype, blocks_clear]
      exact Even.zero
    · rw [blockCount_eq, blocks_clear]
      rfl
  | true =>
    have hperm := shuffle_perm rand (makeBlocks (typeNum.getD (level / shapeNum) 0)
      ((interiorCells.countP fun c => levelMap (level % shapeNum) c ≠ 0) / 2) 0)
    have hlen := hperm.length_eq
    rw [makeBlocks_length] at hlen
    obtain ⟨hbordered, hblocks⟩ := fill_spec (fun c => levelMap (level % shapeNum) c ≠ 0)
      hclear (by omega) (fun t ht => makeBlocks_pos _ _ _ t (hperm.mem_iff.mp ht))
      (fun c hc _ => by rw [Map.clear, if_pos hc])
    refine ⟨_, _, rfl, ⟨hbordered, fun type htype => ?_⟩, .inr ⟨by omega, ?_⟩⟩
    · rw [typeCount_eq _ htype, hblocks, (List.reverse_perm _).count_eq, hperm.count_eq]
      exact makeBlocks_even _ _ _ type
    · rw [blockCount_eq, hblocks, List.length_reverse]
      omega

theorem lianReorder_spec (rand : ℕ → ℕ) (hmap : Paired map) :
    Paired (lianReorder rand map).2 ∧ blockCount (lianReorder rand map).2 = blockCount map ∧
      ∀ c, Interior c → map c ≠ 0 → (lianReorder rand map).2 c ≠ 0 := by
  have hperm := shuffle_perm rand (blocks map)
  have hlen : (shuffle rand (blocks map)).length = interiorCells.countP fun c => map c ≠ 0 := by
    rw [hperm.length_eq, ← blockCount_eq, blockCount]
  have hpos : ∀ t ∈ shuffle rand (blocks map), 0 < t := by
    intro t ht
    obtain ⟨hne, c, hc, rfl⟩ := mem_blocks.mp (hperm.mem_iff.mp ht)
    have := hmap.bordered.blocks c hc
    omega
  obtain ⟨hbordered, hblocks⟩ := fill_spec (fun c => map c ≠ 0) hmap.bordered hlen hpos
    (fun c _ hf => by simpa using hf)
  refine ⟨⟨hbordered, fun type htype => ?_⟩, ?_, fun c hc hne => ?_⟩
  · have heven := hmap.even type htype
    rw [typeCount_eq _ htype] at heven ⊢
    rwa [lianReorder, hblocks, (List.reverse_perm _).count_eq, hperm.count_eq]
  · rw [blockCount_eq, blockCount_eq, lianReorder, hblocks, List.length_reverse, hperm.length_eq]
  · have hmem : (lianReorder rand map).2 c ∈ shuffle rand (blocks map) :=
      fill_mem (fun c => map c ≠ 0) interiorCells_nodup hlen (mem_interiorCells.mpr hc)
        (by simpa using hne)
    exact (hpos _ hmem).ne'

end DfewOS.Lian
