import DfewOS.Bfill
import DfewOS.Execution
import DfewOS.TaskPoolSpec
import Mathlib.Order.Bounds.Basic

/-!
# First fit of task stacks

`_alloc_stack` with the memory that it fills. The search takes the lowest run of free
pages: a used page that it meets ends every run it has passed. The number of pages is
computed in 32 bits, and is 0 for the sizes at both ends of the range.
-/

namespace DfewOS
open MemH (sub32 toInt32 bfill)

def Kernel.allocStackFill (k : Kernel) (mem : ℕ → UInt8) (stackSize : ℕ) :
    Kernel × (ℕ → UInt8) × ℕ :=
  let need := needStackPages stackSize
  let (currentPage, matched) := searchPages k.stackMap need (memStackPageNum + 1) 0 0
  if matched = need then
    let p := memStackLow + currentPage * memStackPageSize
    ({ k with stackMap := clearPages k.stackMap need currentPage },
      bfill mem (sub32 p stackSize) (toInt32 stackSize) 0xcc, p)
  else (k, mem, 0)

theorem Kernel.allocStackFill_allocStack (k : Kernel) (mem : ℕ → UInt8) (stackSize : ℕ) :
    ((k.allocStackFill mem stackSize).1, (k.allocStackFill mem stackSize).2.2) =
      k.allocStack stackSize := by
  simp only [allocStackFill, allocStack]
  split_ifs <;> rfl

def FreeRun (stackMap : ℕ → BitVec 32) (n first : ℕ) : Prop :=
  first + n ≤ memStackPageNum ∧
    ∀ q, first ≤ q → q < first + n → BitMap.value stackMap q = true

section Search
variable {stackMap : ℕ → BitVec 32} {need n page matched : ℕ}

theorem matchPages_stop (h : (matchPages stackMap n page matched).2 ≠ matched + n) :
    page < (matchPages stackMap n page matched).1 ∧
      BitMap.value stackMap ((matchPages stackMap n page matched).1 - 1) = false := by
  induction n generalizing page matched with
  | zero => exact absurd rfl h
  | succ n ih =>
    rw [matchPages] at h ⊢
    split_ifs with hused
    · exact ⟨by omega, hused⟩
    · rw [if_neg hused] at h
      have hrest : (matchPages stackMap n (page + 1) (matched + 1)).2 ≠ matched + 1 + n := by
        omega
      obtain ⟨hlt, hstop⟩ := ih hrest
      exact ⟨by omega, hstop⟩

/-- The search ends at the lowest run, or behind every place where one could start. -/
theorem searchPages_first (hneed : 0 < need) (hfuel : memStackPageNum < page + n)
    (hmatched : matched < need) (hpassed : ∀ q, FreeRun stackMap need q → page ≤ q) :
    ((searchPages stackMap need n page matched).2 = need ∧
      ∃ first, IsLeast {q | FreeRun stackMap need q} first ∧
        (searchPages stackMap need n page matched).1 = first + need) ∨
    ((searchPages stackMap need n page matched).2 < need ∧
      ∀ q, ¬ FreeRun stackMap need q) := by
  induction n generalizing page matched with
  | zero =>
    refine Or.inr ⟨hmatched, fun q hq => ?_⟩
    have hle := hpassed q hq
    have hroom := hq.1
    omega
  | succ n ih =>
    rw [searchPages]
    split_ifs with hroom
    · have hspec := matchPages_spec (Prod.eta (matchPages stackMap need page 0)).symm
      rw [Nat.zero_add] at hspec
      obtain ⟨hle, hle', hm, hall⟩ := hspec
      simp only
      split_ifs with hrun
      · obtain ⟨hend, hfree⟩ := hall hrun
        exact Or.inl ⟨hrun, page, ⟨⟨hroom, hfree⟩, hpassed⟩, hend⟩
      · have hshort : (matchPages stackMap need page 0).2 ≠ 0 + need := by omega
        obtain ⟨hlt, hused⟩ := matchPages_stop hshort
        apply ih (by omega) (by omega)
        intro q hq
        have hpage := hpassed q hq
        by_contra hbefore
        have hin := hq.2 ((matchPages stackMap need page 0).1 - 1) (by omega) (by omega)
        rw [hused] at hin
        cases hin
    · refine Or.inr ⟨hmatched, fun q hq => ?_⟩
      have hle := hpassed q hq
      have hend := hq.1
      omega

end Search

def exactStackPages (stackSize : ℕ) : ℕ := (stackSize + (memStackPageSize - 1)) / memStackPageSize

theorem needStackPages_exact {stackSize : ℕ} (h : stackSize ≤ 2 ^ 32 - 4096) :
    needStackPages stackSize = exactStackPages stackSize := by
  simp only [needStackPages, exactStackPages, memStackPageSize]
  omega

theorem needStackPages_wrapped {stackSize : ℕ} (hlt : stackSize < 2 ^ 32)
    (h : stackSize = 0 ∨ 2 ^ 32 - 4096 < stackSize) : needStackPages stackSize = 0 := by
  simp only [needStackPages, memStackPageSize]
  omega

/-- What is expected of `_alloc_stack`: the lowest run of free pages is taken and filled
from its top down, and without a run nothing happens. -/
structure FirstFit (k : Kernel) (mem : ℕ → UInt8) (stackSize : ℕ) : Prop where
  found : (k.allocStackFill mem stackSize).2.2 ≠ 0 ↔
    1 ≤ exactStackPages stackSize ∧
      ∃ first, FreeRun k.stackMap (exactStackPages stackSize) first
  taken : (k.allocStackFill mem stackSize).2.2 ≠ 0 →
    ∃ first, IsLeast {q | FreeRun k.stackMap (exactStackPages stackSize) q} first ∧
      (k.allocStackFill mem stackSize).2.2 =
        memStackLow + (first + exactStackPages stackSize) * memStackPageSize ∧
      (k.allocStackFill mem stackSize).1 =
        { k with stackMap := (k.allocStackFill mem stackSize).1.stackMap } ∧
      (∀ q, BitMap.value (k.allocStackFill mem stackSize).1.stackMap q =
        (BitMap.value k.stackMap q &&
          !decide (first ≤ q ∧ q < first + exactStackPages stackSize))) ∧
      ∀ x, (k.allocStackFill mem stackSize).2.1 x =
        if (k.allocStackFill mem stackSize).2.2 - stackSize ≤ x ∧
          x < (k.allocStackFill mem stackSize).2.2 then 0xcc else mem x
  refused : (k.allocStackFill mem stackSize).2.2 = 0 → k.allocStackFill mem stackSize = (k, mem, 0)

section Alloc
variable {k : Kernel} {mem : ℕ → UInt8} {stackSize : ℕ}

theorem bfill_stack {page : ℕ} (hpage : page ≤ memStackPageNum)
    (hsize : stackSize ≤ page * memStackPageSize) (x : ℕ) :
    bfill mem (sub32 (memStackLow + page * memStackPageSize) stackSize) (toInt32 stackSize) 0xcc
        x =
      if memStackLow + page * memStackPageSize - stackSize ≤ x ∧
        x < memStackLow + page * memStackPageSize then 0xcc else mem x := by
  have hlow : sub32 (memStackLow + page * memStackPageSize) stackSize =
      memStackLow + page * memStackPageSize - stackSize := by
    simp only [sub32, memStackLow, memStackPageSize, memStackPageNum] at *
    omega
  have hint : toInt32 stackSize = stackSize := by
    simp only [memStackPageSize, memStackPageNum] at *
    rw [toInt32, if_pos (by omega)]
  have hle : stackSize ≤ memStackLow + page * memStackPageSize := by omega
  rw [MemH.bfill_eq, hlow, hint]
  have hiff : (memStackLow + page * memStackPageSize - stackSize ≤ x ∧
      (x : ℤ) < (memStackLow + page * memStackPageSize - stackSize : ℕ) + (stackSize : ℤ)) ↔
      (memStackLow + page * memStackPageSize - stackSize ≤ x ∧
        x < memStackLow + page * memStackPageSize) := by
    omega
  simp only [hiff]

theorem FirstFit.of_size (hpos : 1 ≤ stackSize) (hle : stackSize ≤ 2 ^ 32 - 4096) :
    FirstFit k mem stackSize := by
  have hexact := needStackPages_exact hle
  have hneed : 1 ≤ exactStackPages stackSize := by
    simp only [exactStackPages, memStackPageSize]
    omega
  have hsize : stackSize ≤ exactStackPages stackSize * memStackPageSize := by
    simp only [exactStackPages, memStackPageSize]
    omega
  have hfuel : memStackPageNum < 0 + (memStackPageNum + 1) := by omega
  have hsearch := searchPages_first hneed hfuel hneed
    (fun q (_ : FreeRun k.stackMap (exactStackPages stackSize) q) => Nat.zero_le q)
  generalize hr : searchPages k.stackMap (exactStackPages stackSize) (memStackPageNum + 1) 0 0 = r
    at hsearch
  obtain ⟨hfound, first, hleast, hpage⟩ | ⟨hmissed, hnone⟩ := hsearch
  · have halloc : k.allocStackFill mem stackSize =
        ({ k with stackMap := clearPages k.stackMap (exactStackPages stackSize) r.1 },
          bfill mem (sub32 (memStackLow + r.1 * memStackPageSize) stackSize)
            (toInt32 stackSize) 0xcc,
          memStackLow + r.1 * memStackPageSize) := by
      simp only [Kernel.allocStackFill, hexact, hr, if_pos hfound]
    have hroom := hleast.1.1
    have htop : memStackLow + r.1 * memStackPageSize ≠ 0 := by
      simp only [memStackLow]
      omega
    rw [hpage] at halloc htop
    refine ⟨?_, fun _ => ⟨first, hleast, ?_, ?_, ?_, ?_⟩, ?_⟩
    · rw [halloc]
      exact ⟨fun _ => ⟨hneed, first, hleast.1⟩, fun _ => htop⟩
    · rw [halloc]
    · rw [halloc]
    · intro q
      rw [halloc, value_clearPages (by omega), Nat.add_sub_cancel]
    · intro x
      rw [halloc]
      exact bfill_stack hroom
        (le_trans hsize (Nat.mul_le_mul_right _ (Nat.le_add_left ..))) x
    · rw [halloc]
      exact fun h => absurd h htop
  · have halloc : k.allocStackFill mem stackSize = (k, mem, 0) := by
      simp only [Kernel.allocStackFill, hexact, hr, if_neg (Nat.ne_of_lt hmissed)]
    refine ⟨?_, ?_, fun _ => halloc⟩
    · rw [halloc]
      exact ⟨fun h => absurd rfl h, fun h => absurd h.2.choose_spec (hnone _)⟩
    · rw [halloc]
      exact fun h => absurd rfl h

theorem allocStackFill_wrapped (h : needStackPages stackSize = 0) :
    (k.allocStackFill mem stackSize).2.2 = memStackLow := by
  simp [Kernel.allocStackFill, h, searchPages, matchPages]

theorem FirstFit.size (hlt : stackSize < 2 ^ 32) (h : FirstFit k mem stackSize) :
    1 ≤ stackSize ∧ stackSize ≤ 2 ^ 32 - 4096 := by
  by_contra hbad
  have hzero := needStackPages_wrapped hlt (show stackSize = 0 ∨ 2 ^ 32 - 4096 < stackSize by
    omega)
  have htop : (k.allocStackFill mem stackSize).2.2 ≠ 0 := by
    rw [allocStackFill_wrapped hzero]
    decide
  obtain ⟨hpages, first, hroom, -⟩ := h.found.mp htop
  simp only [exactStackPages, memStackPageSize, memStackPageNum] at hpages hroom
  omega

end Alloc

/-- `_alloc_stack` is a first fit exactly for the sizes whose pages it counts right. -/
theorem first_fit (k : Kernel) (mem : ℕ → UInt8) (stackSize : ℕ) (hlt : stackSize < 2 ^ 32) :
    FirstFit k mem stackSize ↔ 1 ≤ stackSize ∧ stackSize ≤ 2 ^ 32 - 4096 :=
  ⟨fun h => h.size hlt, fun h => FirstFit.of_size h.1 h.2⟩

theorem first_fit_page : FirstFit Kernel.cleared (fun _ => 0) 4096 :=
  (first_fit Kernel.cleared (fun _ => 0) 4096 (by decide)).mpr ⟨by decide, by decide⟩

/-- A stack of nearly 4 GiB is refused by no map: its number of pages wraps to 0. -/
theorem huge_stack_not_refused : ¬ FirstFit Kernel.cleared (fun _ => 0) 0xfffff001 := by
  intro h
  have hsize := (h.size (by decide)).2
  omega

end DfewOS
