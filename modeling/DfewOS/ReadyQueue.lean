import DfewOS.State
import DfewOS.BitMap

/-!
# The ready queue

`readyQ.c`: 256 lists, one bit per list in `bMap`, one bit per word of `bMap`
in `metaBMap`, and a cached pointer to the first task of the highest priority.
The reads of `_readQ_highest_pri` and of `listArray` at index -1 follow the
layout of `READY_QUEUE`: the word before `bMap` is `metaBMap`, and the head of
`listArray[-1]` is the word `bMap[6]`.
-/

namespace DfewOS
open ListHeap (Lists push drop)
open BitMap (lsb)

def ReadyQueue.bMapAt (r : ReadyQueue) (index : BitVec 32) : BitVec 32 :=
  if index = -1 then r.metaBMap else r.bMap index.toNat

def ReadyQueue.readQHighestPri (r : ReadyQueue) : Int :=
  let highBits := BitVec.ofInt 32 (lsb r.metaBMap)
  let lowBits := BitVec.ofInt 32 (lsb (r.bMapAt highBits))
  ((highBits <<< 5) ||| lowBits).toInt

namespace Tasks

def wordAsTcb (w : BitVec 32) : Option TcbPtr :=
  if w = 0 then none else some (Fin.ofNat taskNumMax w.toNat)

/-- `DL_FIRST(&G_readyQ.listArray[index])`. -/
def listArrayFirst (ts : Tasks) (index : Int) : Option TcbPtr :=
  if index = -1 then wordAsTcb (ts.readyQ.bMap 6) else (ts.dl.list (.ready index.toNat)).head

def readyQInit (ts : Tasks) : Tasks :=
  (List.range priorityNumMax).foldl (fun ts i => ts.dlistInit (.ready i)) ts

def readyQPut (ts : Tasks) (pTcb : TcbPtr) : Tasks :=
  let priority := (ts.tcb pTcb).taskPriority
  let highest := match ts.readyQ.highestTcb with
    | none => some pTcb
    | some h => if priority < (ts.tcb h).taskPriority then some pTcb else some h
  let readyQ : ReadyQueue :=
    { highestTcb := highest
      metaBMap := BitMap.setBit ts.readyQ.metaBMap (priority >>> 5)
      bMap := BitMap.set ts.readyQ.bMap priority }
  let ts := { ts with readyQ := readyQ }
  let ts := ts.setTcb pTcb { ts.tcb pTcb with status := .ready, pendObj := none }
  ts.dlistAdd (.ready priority) pTcb

def readyQRemove (ts : Tasks) (pTcb : TcbPtr) : Tasks :=
  let priority := (ts.tcb pTcb).taskPriority
  let ts := ts.dlistRemove (.ready priority) pTcb
  if (ts.dl.list (.ready priority)).head = none then
    let bMap := BitMap.clear ts.readyQ.bMap priority
    let metaBMap := if bMap (priority >>> 5) = 0
      then BitMap.clearBit ts.readyQ.metaBMap (priority >>> 5) else ts.readyQ.metaBMap
    let ts := { ts with readyQ := { ts.readyQ with metaBMap := metaBMap, bMap := bMap } }
    if some pTcb = ts.readyQ.highestTcb then
      { ts with readyQ :=
        { ts.readyQ with highestTcb := ts.listArrayFirst ts.readyQ.readQHighestPri } }
    else ts
  else if some pTcb = ts.readyQ.highestTcb then
    -- this priority has another one
    { ts with readyQ :=
      { ts.readyQ with highestTcb := (ts.dl.list (.ready priority)).head } }
  else ts

end Tasks

def firstReady (arr : ℕ → List TcbPtr) : Option TcbPtr :=
  (List.range priorityNumMax).findSome? fun p => (arr p).head?

theorem firstReady_eq_some {arr : ℕ → List TcbPtr} {p : ℕ} {t : TcbPtr}
    (hp : p < priorityNumMax) (ht : (arr p).head? = some t) (hlow : ∀ q < p, arr q = []) :
    firstReady arr = some t := by
  have hsplit : List.range priorityNumMax =
      List.range p ++ p :: List.range' (p + 1) (priorityNumMax - (p + 1)) := by
    obtain ⟨n, hn⟩ := Nat.exists_eq_add_of_lt hp
    have hrest : p + n + 1 - (p + 1) = n := by omega
    rw [hn, hrest, List.range_eq_range', List.range_eq_range', Nat.add_assoc,
      ← List.range'_append_1, List.range'_succ, Nat.zero_add]
  have hnone : (List.range p).findSome? (fun p => (arr p).head?) = none := by
    rw [List.findSome?_eq_none_iff]
    intro q hq
    rw [hlow q (List.mem_range.mp hq), List.head?_nil]
  rw [firstReady, hsplit, List.findSome?_append, hnone, Option.none_or, List.findSome?_cons, ht]

theorem firstReady_eq_none {arr : ℕ → List TcbPtr} (h : ∀ p < priorityNumMax, arr p = []) :
    firstReady arr = none := by
  rw [firstReady, List.findSome?_eq_none_iff]
  intro p hp
  rw [h p (List.mem_range.mp hp), List.head?_nil]

theorem lowest_or_empty (arr : ℕ → List TcbPtr) :
    (∀ p < priorityNumMax, arr p = []) ∨
      ∃ p < priorityNumMax, (∃ t, (arr p).head? = some t) ∧ ∀ q < p, arr q = [] := by
  by_cases h : ∃ p, p < priorityNumMax ∧ arr p ≠ []
  · obtain ⟨hp, hne⟩ := Nat.find_spec h
    refine Or.inr ⟨Nat.find h, hp, ⟨_, List.head?_eq_some_head hne⟩, fun q hq => ?_⟩
    by_contra hq'
    exact Nat.find_min h hq ⟨by omega, hq'⟩
  · left
    intro p hp
    by_contra hne
    exact h ⟨p, hp, hne⟩

structure ReadyQueue.Maps (r : ReadyQueue) (arr : ℕ → List TcbPtr) : Prop where
  bit : ∀ p < priorityNumMax, (BitMap.value r.bMap p = true ↔ arr p ≠ [])
  group : ∀ g < 8, (r.metaBMap.getLsbD g = true ↔ r.bMap g ≠ 0)
  groupHigh : ∀ g, 8 ≤ g → r.metaBMap.getLsbD g = false
  high : ∀ p, priorityNumMax ≤ p → arr p = []

theorem highest_index : ∀ g < 8, ∀ b < 32,
    ((BitVec.ofInt 32 (g : ℕ) <<< 5) ||| BitVec.ofInt 32 (b : ℕ)).toInt = ((32 * g + b : ℕ) : Int) := by
  decide

theorem group_index_ne : ∀ g < 8, BitVec.ofInt 32 (g : ℕ) ≠ -1 ∧ (BitVec.ofInt 32 (g : ℕ)).toNat = g := by
  decide

namespace ReadyQueue.Maps
variable {r : ReadyQueue} {arr : ℕ → List TcbPtr}

theorem lt_of_ne_nil (h : r.Maps arr) {p : ℕ} (hp : arr p ≠ []) : p < priorityNumMax := by
  by_contra hge
  exact hp (h.high p (by omega))

theorem readQHighestPri_eq (h : r.Maps arr) {p : ℕ} (hp : arr p ≠ [])
    (hlow : ∀ q < p, arr q = []) : r.readQHighestPri = (p : Int) := by
  have hlt : p < 256 := h.lt_of_ne_nil hp
  have hdiv : 32 * (p / 32) + p % 32 = p := Nat.div_add_mod p 32
  have hg : p / 32 < 8 := by omega
  have hb : p % 32 < 32 := Nat.mod_lt _ (by decide)
  have hval : BitMap.value r.bMap p = true := (h.bit p hlt).mpr hp
  have hclear : ∀ q < p, BitMap.value r.bMap q = false := by
    intro q hq
    have hne := mt (h.bit q (by simp only [priorityNumMax]; omega)).mp (by simp [hlow q hq])
    simpa using hne
  have hgroup : lsb r.metaBMap = (p / 32 : ℕ) := by
    refine BitMap.lsb_eq ((h.group _ hg).mpr ?_) ?_
    · rw [BitMap.word_ne_zero_iff]
      exact ⟨p % 32, hb, by rw [hdiv]; exact hval⟩
    · intro j hj
      have hz := mt (h.group j (by omega)).mp (by
        rw [BitMap.word_ne_zero_iff]
        rintro ⟨b, hb', hset⟩
        rw [hclear (32 * j + b) (by omega)] at hset
        exact absurd hset (by decide))
      simpa using hz
  have hword : r.bMapAt (BitVec.ofInt 32 (p / 32 : ℕ)) = r.bMap (p / 32) := by
    rw [bMapAt, if_neg (group_index_ne _ hg).1, (group_index_ne _ hg).2]
  have hbit : lsb (r.bMap (p / 32)) = (p % 32 : ℕ) := by
    refine BitMap.lsb_eq ?_ ?_
    · simpa only [BitMap.value, BitMap.word_index, BitMap.bit_index] using hval
    · intro j hj
      have hc := hclear (32 * (p / 32) + j) (by omega)
      have hw : (32 * (p / 32) + j) / 32 = p / 32 := by omega
      have hm : (32 * (p / 32) + j) % 32 = j := by omega
      simpa only [BitMap.value, BitMap.word_index, BitMap.bit_index, hw, hm] using hc
  rw [readQHighestPri, hgroup]
  simp only [hword, hbit]
  rw [highest_index _ hg _ hb, hdiv]

theorem readQHighestPri_empty (h : r.Maps arr) (he : ∀ p < priorityNumMax, arr p = []) :
    r.readQHighestPri = -1 ∧ r.bMap 6 = 0 := by
  have hword : ∀ g < 8, r.bMap g = 0 := by
    intro g hg
    by_contra hne
    obtain ⟨b, hb, hset⟩ := (BitMap.word_ne_zero_iff _ _).mp hne
    have hlt : 32 * g + b < priorityNumMax := by simp only [priorityNumMax]; omega
    exact (h.bit _ hlt).mp hset (he _ hlt)
  have hmeta : r.metaBMap = 0 := by
    rw [BitMap.eq_zero_iff]
    intro j _
    by_cases hj : j < 8
    · simpa [hword j hj] using h.group j hj
    · exact h.groupHigh j (by omega)
  refine ⟨?_, hword 6 (by decide)⟩
  have hneg : BitVec.ofInt 32 (-1) = (-1 : BitVec 32) := by decide
  rw [readQHighestPri, hmeta, BitMap.lsb_zero]
  simp only [hneg, bMapAt, ↓reduceIte, hmeta, BitMap.lsb_zero]
  decide

theorem put (h : r.Maps arr) {p : ℕ} (hp : p < priorityNumMax) (t : TcbPtr) (o : Option TcbPtr) :
    ReadyQueue.Maps ⟨o, BitMap.setBit r.metaBMap (p >>> 5), BitMap.set r.bMap p⟩
      (Function.update arr p (arr p ++ [t])) := by
  have hg : p >>> 5 < 8 := by
    rw [BitMap.word_index]
    exact Nat.div_lt_of_lt_mul hp
  refine ⟨?_, ?_, ?_, ?_⟩
  · intro q hq
    simp only [BitMap.value_set, Bool.or_eq_true, decide_eq_true_eq, h.bit q hq]
    by_cases hqp : q = p
    · subst hqp; simp
    · simp [hqp, Ne.symm hqp]
  · intro g hg'
    simp only [BitMap.getLsbD_setBit _ (show p >>> 5 < 32 by omega), Bool.or_eq_true,
      decide_eq_true_eq, h.group g hg']
    by_cases hgp : g = p >>> 5
    · subst hgp
      have hset : BitMap.set r.bMap p (p >>> 5) ≠ 0 := by
        rw [BitMap.word_ne_zero_iff]
        refine ⟨p % 32, by omega, ?_⟩
        rw [BitMap.word_index, Nat.div_add_mod, BitMap.value_set]
        simp
      simpa using hset
    · simp [BitMap.set, hgp, Ne.symm hgp]
  · intro g hg'
    rw [BitMap.getLsbD_setBit _ (show p >>> 5 < 32 by omega), h.groupHigh g hg']
    simp
    omega
  · intro q hq
    rw [Function.update_of_ne (by omega), h.high q hq]

theorem remove (h : r.Maps arr) {p : ℕ} (hp : p < priorityNumMax) (o : Option TcbPtr) :
    ReadyQueue.Maps
      ⟨o, if BitMap.clear r.bMap p (p >>> 5) = 0 then BitMap.clearBit r.metaBMap (p >>> 5)
          else r.metaBMap, BitMap.clear r.bMap p⟩
      (Function.update arr p []) := by
  have hg : p >>> 5 < 8 := by
    rw [BitMap.word_index]
    exact Nat.div_lt_of_lt_mul hp
  have hg32 : p >>> 5 < 32 := by omega
  have hword : ∀ g, g ≠ p >>> 5 → BitMap.clear r.bMap p g = r.bMap g :=
    fun g hgp => Function.update_of_ne hgp ..
  refine ⟨?_, ?_, ?_, ?_⟩
  · intro q hq
    simp only [BitMap.value_clear, Bool.and_eq_true, Bool.not_eq_true', decide_eq_false_iff_not,
      h.bit q hq]
    by_cases hqp : q = p
    · subst hqp; simp
    · simp [hqp, Ne.symm hqp]
  · intro g hg'
    by_cases hgp : g = p >>> 5
    · subst hgp
      by_cases hz : BitMap.clear r.bMap p (p >>> 5) = 0
      · rw [if_pos hz, BitMap.getLsbD_clearBit _ hg32]
        simp [hz]
      · have hnz : r.bMap (p >>> 5) ≠ 0 := by
          intro h0
          exact hz (by simp [BitMap.clear, h0, BitMap.clearBit])
        rw [if_neg hz]
        exact iff_of_true ((h.group _ hg').mpr hnz) hz
    · simp only [hword g hgp, ← h.group g hg']
      by_cases hz : BitMap.clear r.bMap p (p >>> 5) = 0
      · rw [if_pos hz, BitMap.getLsbD_clearBit _ hg32]
        simp [Ne.symm hgp]
      · rw [if_neg hz]
  · intro g hg'
    have hfalse := h.groupHigh g hg'
    split_ifs
    · rw [BitMap.getLsbD_clearBit _ hg32, hfalse, Bool.false_and]
    · exact hfalse
  · intro q hq
    rw [Function.update_of_ne (by omega), h.high q hq]

theorem congr (h : r.Maps arr) {arr' : ℕ → List TcbPtr} (he : ∀ p, arr' p = [] ↔ arr p = [])
    (o : Option TcbPtr) : ReadyQueue.Maps ⟨o, r.metaBMap, r.bMap⟩ arr' := by
  refine ⟨?_, h.group, h.groupHigh, fun p hp => (he p).mpr (h.high p hp)⟩
  intro p hp
  rw [ne_eq, he p]
  exact h.bit p hp

end ReadyQueue.Maps

end DfewOS
