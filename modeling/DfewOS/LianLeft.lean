import DfewOS.LianSpec
import Mathlib.Order.Bounds.Basic

/-!
# The solver of Lianliankan

`lian_left` with the globals it keeps its record in, and the plays it searches: sequences
of legal deletions. `fuel` bounds the depth of the recursion.
-/

namespace DfewOS.Lian
open GridPath

structure OpDelete where
  start : Coor
  stop : Coor
  deriving DecidableEq

abbrev opsMax : ℕ := rowNum * colNum / 2

structure Solver where
  map : Map
  way : Way
  opCnt : ℕ
  ops : ℕ → OpDelete
  opCntTmp : ℕ
  opsTmp : ℕ → OpDelete

def Map.set (map : Map) (c : Coor) (block : ℤ) : Map := Function.update map c block

/-- The map without two of its blocks. -/
def Map.delete (map : Map) (op : OpDelete) : Map := (map.set op.start 0).set op.stop 0

namespace Solver

def pushOp (s : Solver) (op : OpDelete) : Option Solver :=
  if s.opCntTmp < opsMax then
    some { s with opsTmp := Function.update s.opsTmp s.opCntTmp op, opCntTmp := s.opCntTmp + 1 }
  else none

def popOp (s : Solver) : Solver := { s with opCntTmp := s.opCntTmp - 1 }

def saveOp (s : Solver) : Solver :=
  if s.opCntTmp > s.opCnt then
    { s with
      opCnt := s.opCntTmp
      ops := fun i => if i < s.opCntTmp then s.opsTmp i else s.ops i }
  else s

/-- The operations `_G_ops[0]` to `_G_ops[_G_op_cnt - 1]`. -/
def record (s : Solver) : List OpDelete := (List.range s.opCnt).map s.ops

/-- The operations on the way to the current call. -/
def path (s : Solver) : List OpDelete := (List.range s.opCntTmp).map s.opsTmp

end Solver

def coorAt (j i : ℕ) : Coor := ⟨j, i⟩

/-- The pairs that the loops of `lian_left` try, in their order: the rest of the row, then
the rows that follow. -/
def pairs : List OpDelete :=
  (List.range' 1 rowNum).flatMap fun i => (List.range' 1 colNum).flatMap fun j =>
    ((List.range' (j + 1) (colNum - j)).map fun q => ⟨coorAt j i, coorAt q i⟩) ++
    (List.range' (i + 1) (rowNum - i)).flatMap fun p =>
      (List.range' 1 colNum).map fun q => ⟨coorAt j i, coorAt q p⟩

/-- The loops over the pairs, left at once when nothing is left. -/
def tryPairs (sub : ℤ → Solver → Option (ℤ × Solver)) (leftBlocks : ℤ) :
    List OpDelete → ℤ → Solver → Option (ℤ × Solver)
  | [], minLeft, s => some (minLeft, s)
  | op :: rest, minLeft, s =>
    (lianCheck s.map op.start op.stop s.way).bind fun (canGo, way) =>
      let s := { s with way := way }
      if canGo then
        let tStart := s.map op.start
        let tEnd := s.map op.stop
        ({ s with map := s.map.delete op }.pushOp op).bind fun s =>
          (sub (leftBlocks - 2) s).bind fun (subLeft, s) =>
            let s := s.popOp
            let s := { s with map := (s.map.set op.start tStart).set op.stop tEnd }
            let minLeft := min minLeft subLeft
            if minLeft = 0 then some (minLeft, s) else tryPairs sub leftBlocks rest minLeft s
      else tryPairs sub leftBlocks rest minLeft s

def lianLeft : ℕ → ℤ → Solver → Option (ℤ × Solver)
  | 0, _, _ => none
  | fuel + 1, leftBlocks, s =>
    let s := { s with opCnt := 0 }
    (if leftBlocks = 0 then some (leftBlocks, s)
      else tryPairs (lianLeft fuel) leftBlocks pairs leftBlocks s).map fun (minLeft, s) =>
        (minLeft, s.saveOp)

/-! ## Plays -/

def interiorCells : List Coor :=
  (List.range' 1 rowNum).flatMap fun i => (List.range' 1 colNum).map fun j => coorAt j i

/-- The number of blocks. -/
def blockCount (map : Map) : ℕ := interiorCells.countP fun c => map c ≠ 0

/-- The number of blocks of one type. -/
def typeCount (map : Map) (type : ℤ) : ℕ := interiorCells.countP fun c => map c = type

structure Legal (map : Map) (op : OpDelete) : Prop where
  start : Interior op.start
  stop : Interior op.stop
  linked : Linked map op.start op.stop

/-- Deletions one after the other, each of them legal. -/
inductive Plays : Map → List OpDelete → Map → Prop
  | nil (map : Map) : Plays map [] map
  | cons {map map' : Map} {op : OpDelete} {ops : List OpDelete} :
      Legal map op → Plays (map.delete op) ops map' → Plays map (op :: ops) map'

/-- The numbers of blocks that a play can leave. -/
def leavable (map : Map) : Set ℕ := {n | ∃ ops map', Plays map ops map' ∧ blockCount map' = n}

theorem coorAt_toNat {c : Coor} (h : Interior c) : coorAt c.x.toNat c.y.toNat = c := by
  unfold Interior at h
  apply Cell.ext <;> simp only [coorAt] <;> omega

theorem coorAt_interior {i j : ℕ} :
    Interior (coorAt j i) ↔ (1 ≤ j ∧ j < 1 + colNum) ∧ 1 ≤ i ∧ i < 1 + rowNum := by
  simp only [Interior, coorAt]
  omega

theorem mem_interiorCells {c : Coor} : c ∈ interiorCells ↔ Interior c := by
  simp only [interiorCells, List.mem_flatMap, List.mem_map, List.mem_range'_1]
  constructor
  · rintro ⟨i, hi, j, hj, rfl⟩
    exact coorAt_interior.mpr ⟨hj, hi⟩
  · intro h
    have hbounds : Interior (coorAt c.x.toNat c.y.toNat) := by rwa [coorAt_toNat h]
    obtain ⟨hj, hi⟩ := coorAt_interior.mp hbounds
    exact ⟨c.y.toNat, hi, c.x.toNat, hj, coorAt_toNat h⟩

theorem interiorCells_nodup : interiorCells.Nodup := by decide

theorem mem_pairs {op : OpDelete} :
    op ∈ pairs ↔ Interior op.start ∧ Interior op.stop ∧
      (op.start.y < op.stop.y ∨ op.start.y = op.stop.y ∧ op.start.x < op.stop.x) := by
  simp only [pairs, List.mem_flatMap, List.mem_append, List.mem_map, List.mem_range'_1]
  have hrows : rowNum = 10 := rfl
  have hcols : colNum = 10 := rfl
  constructor
  · rintro ⟨i, hi, j, hj, ⟨q, hq, rfl⟩ | ⟨p, hp, q, hq, rfl⟩⟩
    · have hlast : q < j + 1 + (10 - j) := hq.2
      refine ⟨coorAt_interior.mpr ⟨hj, hi⟩, coorAt_interior.mpr ⟨by omega, hi⟩, .inr ⟨rfl, ?_⟩⟩
      simp only [coorAt]
      omega
    · have hlast : p < i + 1 + (10 - i) := hp.2
      refine ⟨coorAt_interior.mpr ⟨hj, hi⟩, coorAt_interior.mpr ⟨hq, by omega⟩, .inl ?_⟩
      simp only [coorAt]
      omega
  · obtain ⟨s, e⟩ := op
    rintro ⟨hs, he, horder⟩
    dsimp only at hs he horder
    have hs' := coorAt_toNat hs
    have he' := coorAt_toNat he
    unfold Interior at hs he
    refine ⟨s.y.toNat, by omega, s.x.toNat, by omega, ?_⟩
    obtain hlt | ⟨heq, hlt⟩ := horder
    · exact .inr ⟨e.y.toNat, by omega, e.x.toNat, by omega, by rw [hs', he']⟩
    · exact .inl ⟨e.x.toNat, by omega, by rw [hs', heq, he']⟩

end DfewOS.Lian
