import DfewOS.State
import DfewOS.BitMap

/-!
# Task control blocks and stacks as resources

The bit maps `_G_tcb_map` and `_G_stack_map` of `task.c`, a set bit meaning
available. A task's stack is a run of pages; addresses are those of
`bsp_config.h`, and the address 0 stands for `NULL`.
-/

namespace DfewOS
open BitMap (lsb)

abbrev uint32Max : ℕ := 4294967295

def dec32 (x : ℕ) : ℕ := if x = 0 then uint32Max else x - 1

def inc32 (x : ℕ) : ℕ := if x = uint32Max then 0 else x + 1

abbrev memStackLow : ℕ := 0x50800000
abbrev memStackPageSize : ℕ := 4096
abbrev memStackPageNum : ℕ := 2048

def allocTcbFrom (tcbMap : ℕ → BitVec 32) : ℕ → ℕ → ℕ → Option ((ℕ → BitVec 32) × ℕ)
  | 0, _, _ => none
  | n + 1, indexTcbMap, indexTcb =>
    let lowestAvailable := lsb (tcbMap indexTcbMap)
    if lowestAvailable ≠ -1 then
      some (Function.update tcbMap indexTcbMap
          (BitMap.clearBit (tcbMap indexTcbMap) lowestAvailable.toNat),
        indexTcb + lowestAvailable.toNat)
    else allocTcbFrom tcbMap n (indexTcbMap + 1) (indexTcb + 32)

def needStackPages (stackSize : ℕ) : ℕ :=
  (stackSize + memStackPageSize - 1) % 2 ^ 32 / memStackPageSize

/-- The inner loop of `_alloc_stack`, at most `n` more pages, with `current_page` and
`matched_stack_pages`. -/
def matchPages (stackMap : ℕ → BitVec 32) : ℕ → ℕ → ℕ → ℕ × ℕ
  | 0, currentPage, matched => (currentPage, matched)
  | n + 1, currentPage, matched =>
    if BitMap.value stackMap currentPage = false then (currentPage + 1, matched)
    else matchPages stackMap n (currentPage + 1) (matched + 1)

def searchPages (stackMap : ℕ → BitVec 32) (need : ℕ) : ℕ → ℕ → ℕ → ℕ × ℕ
  | 0, currentPage, matched => (currentPage, matched)
  | n + 1, currentPage, matched =>
    if currentPage + need ≤ memStackPageNum then
      let (currentPage, matched) := matchPages stackMap need currentPage 0
      if matched = need then (currentPage, matched)
      else searchPages stackMap need n currentPage matched
    else (currentPage, matched)

def clearPages (stackMap : ℕ → BitVec 32) : ℕ → ℕ → ℕ → BitVec 32
  | 0, _ => stackMap
  | n + 1, page => clearPages (BitMap.clear stackMap (page - 1)) n (page - 1)

def setPages (stackMap : ℕ → BitVec 32) : ℕ → ℕ → ℕ → BitVec 32
  | 0, _ => stackMap
  | n + 1, page => setPages (BitMap.set stackMap (page - 1)) n (page - 1)

namespace Kernel

def allocTcb (k : Kernel) : Option (Kernel × TcbPtr) :=
  (allocTcbFrom k.tcbMap ((taskNumMax + 31) / 32) 0 0).map fun r =>
    ({ k with tcbMap := r.1 }, Fin.ofNat taskNumMax r.2)

def releaseTcb (k : Kernel) (pTcb : TcbPtr) : Kernel :=
  { k with tcbMap := BitMap.set k.tcbMap pTcb.val }

/-- The stack top, or 0 when no run of free pages is long enough. -/
def allocStack (k : Kernel) (stackSize : ℕ) : Kernel × ℕ :=
  let need := needStackPages stackSize
  let (currentPage, matched) := searchPages k.stackMap need (memStackPageNum + 1) 0 0
  if matched = need then
    ({ k with stackMap := clearPages k.stackMap need currentPage },
      memStackLow + currentPage * memStackPageSize)
  else (k, 0)

def releaseStack (k : Kernel) (pTcb : TcbPtr) : Kernel :=
  let t := k.ts.tcb pTcb
  let topPage := (t.stackStart - memStackLow) / memStackPageSize
  { k with stackMap := setPages k.stackMap (needStackPages t.stackSize) topPage }

end Kernel

theorem allocTcbFrom_some {tcbMap tcbMap' : ℕ → BitVec 32} {n i r : ℕ}
    (h : allocTcbFrom tcbMap n i (32 * i) = some (tcbMap', r)) :
    r < 32 * (i + n) ∧ BitMap.value tcbMap r = true ∧ tcbMap' = BitMap.clear tcbMap r := by
  induction n generalizing i with
  | zero => simp [allocTcbFrom] at h
  | succ n ih =>
    rw [allocTcbFrom] at h
    by_cases hz : tcbMap i = 0
    · simp only [hz, BitMap.lsb_zero, ne_eq, not_true_eq_false, ↓reduceIte] at h
      have hnext : allocTcbFrom tcbMap n (i + 1) (32 * (i + 1)) = some (tcbMap', r) := h
      obtain ⟨hr, hrest⟩ := ih hnext
      exact ⟨by omega, hrest⟩
    · obtain ⟨b, hb, hval, hlsb⟩ := BitMap.lsb_of_ne_zero hz
      have hw : (32 * i + b) >>> 5 = i := by rw [BitMap.word_index]; omega
      have hm : (32 * i + b) &&& 0x1f = b := by rw [BitMap.bit_index]; omega
      rw [hlsb, if_pos (by omega)] at h
      simp only [Int.toNat_natCast, Option.some.injEq, Prod.mk.injEq] at h
      obtain ⟨rfl, rfl⟩ := h
      refine ⟨by omega, ?_, ?_⟩
      · rw [BitMap.value, hw, hm, hval]
      · rw [BitMap.clear, hw, hm]

end DfewOS
