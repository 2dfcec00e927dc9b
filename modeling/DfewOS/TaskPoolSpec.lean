import DfewOS.Task
import Mathlib.Order.Interval.Finset.Nat

/-!
# What the allocators of control blocks and stacks do

`_alloc_stack` finds a run of free pages below the page it stops at, and clears
exactly the bits of that run; `_release_stack` sets the bits of the pages below
the stack's top. Neither looks at a page outside the map.
-/

namespace DfewOS

section Search
variable {stackMap : ℕ → BitVec 32} {need n page matched page' matched' : ℕ}

theorem matchPages_spec (h : matchPages stackMap n page matched = (page', matched')) :
    page ≤ page' ∧ page' ≤ page + n ∧ matched' ≤ matched + n ∧
      (matched' = matched + n → page' = page + n ∧
        ∀ p, page ≤ p → p < page + n → BitMap.value stackMap p = true) := by
  induction n generalizing page matched with
  | zero =>
    obtain ⟨rfl, rfl⟩ := Prod.mk.inj h
    exact ⟨by omega, by omega, by omega, fun _ => ⟨rfl, fun p hle hlt => by omega⟩⟩
  | succ n ih =>
    rw [matchPages] at h
    split_ifs at h with hfree
    · obtain ⟨rfl, rfl⟩ := Prod.mk.inj h
      exact ⟨by omega, by omega, by omega, fun heq => by omega⟩
    · obtain ⟨hle, hle', hm, hall⟩ := ih h
      refine ⟨by omega, by omega, by omega, fun heq => ?_⟩
      obtain ⟨hend, hrun⟩ := hall (by omega)
      refine ⟨by omega, fun p hp hlt => ?_⟩
      by_cases hfirst : p = page
      · rw [hfirst]
        simpa using hfree
      · exact hrun p (by omega) (by omega)

theorem searchPages_found (h : searchPages stackMap need n page matched = (page', matched'))
    (hmatched : matched < need) (hfound : matched' = need) :
    need ≤ page' ∧ page' ≤ memStackPageNum ∧
      ∀ p, page' - need ≤ p → p < page' → BitMap.value stackMap p = true := by
  induction n generalizing page matched with
  | zero =>
    obtain ⟨rfl, rfl⟩ := Prod.mk.inj h
    omega
  | succ n ih =>
    rw [searchPages] at h
    split_ifs at h with hroom
    · obtain ⟨-, -, hle, hall⟩ := matchPages_spec (Prod.eta (matchPages stackMap need page 0)).symm
      rw [Nat.zero_add] at hle hall
      simp only at h
      split_ifs at h with hrun
      · obtain ⟨rfl, rfl⟩ := Prod.mk.inj h
        obtain ⟨hend, hrun⟩ := hall hrun
        rw [hend]
        refine ⟨by omega, by omega, fun p hp hlt => hrun p (by omega) hlt⟩
      · exact ih h (by omega)
    · obtain ⟨rfl, rfl⟩ := Prod.mk.inj h
      omega

theorem value_clearPages (h : n ≤ page) (p : ℕ) :
    BitMap.value (clearPages stackMap n page) p =
      (BitMap.value stackMap p && !decide (page - n ≤ p ∧ p < page)) := by
  induction n generalizing stackMap page with
  | zero =>
    have hno : ¬ (page - 0 ≤ p ∧ p < page) := by omega
    rw [clearPages, decide_eq_false hno, Bool.not_false, Bool.and_true]
  | succ n ih =>
    rw [clearPages, ih (by omega), BitMap.value_clear, Bool.and_assoc]
    congr 1
    rw [← Bool.not_or, ← Bool.decide_or]
    congr 2
    rw [eq_iff_iff]
    omega

theorem value_setPages (h : n ≤ page) (p : ℕ) :
    BitMap.value (setPages stackMap n page) p =
      (BitMap.value stackMap p || decide (page - n ≤ p ∧ p < page)) := by
  induction n generalizing stackMap page with
  | zero =>
    have hno : ¬ (page - 0 ≤ p ∧ p < page) := by omega
    rw [setPages, decide_eq_false hno, Bool.or_false]
  | succ n ih =>
    rw [setPages, ih (by omega), BitMap.value_set, Bool.or_assoc]
    congr 1
    rw [← Bool.decide_or]
    congr 1
    rw [eq_iff_iff]
    omega

end Search

namespace Kernel
variable {k k' : Kernel} {p : TcbPtr} {stackSize pStack : ℕ}

theorem allocTcb_some (h : k.allocTcb = some (k', p)) :
    BitMap.value k.tcbMap p.val = true ∧
      k' = { k with tcbMap := BitMap.clear k.tcbMap p.val } := by
  obtain ⟨⟨map, r⟩, halloc, heq⟩ := Option.map_eq_some_iff.mp h
  obtain ⟨hlt, hval, hmap⟩ := allocTcbFrom_some (i := 0) halloc
  obtain ⟨rfl, rfl⟩ := Prod.mk.inj heq
  have hindex : (Fin.ofNat taskNumMax r).val = r := Nat.mod_eq_of_lt hlt
  rw [hindex]
  exact ⟨hval, by rw [hmap]⟩

theorem taskCreate_cases {priority : ℕ} {o : Outcome}
    (he : k.taskCreate stackSize priority = (k', o)) :
    (k' = k ∧ o = .ret (.tcb none)) ∨
    ∃ p v, BitMap.value k.tcbMap p.val = true ∧ o = .unlock (.allocStack p) ∧
      v.taskPriority = priority ∧ v.originPri = priority ∧
      v.stackSize = alignStackSize stackSize ∧
      k' = { k with tcbMap := BitMap.clear k.tcbMap p.val, ts := k.ts.setTcb p v } := by
  rw [taskCreate] at he
  cases ha : k.allocTcb with
  | none =>
    rw [ha, Prod.mk.injEq] at he
    exact Or.inl ⟨he.1.symm, he.2.symm⟩
  | some r =>
    obtain ⟨k₁, p⟩ := r
    obtain ⟨hval, rfl⟩ := allocTcb_some ha
    rw [ha, Prod.mk.injEq] at he
    exact Or.inr ⟨p, _, hval, he.2.symm, rfl, rfl, rfl, he.1.symm⟩

theorem allocStack_some (hneed : 0 < needStackPages stackSize)
    (h : k.allocStack stackSize = (k', pStack)) (hp : pStack ≠ 0) :
    ∃ page, needStackPages stackSize ≤ page ∧ page ≤ memStackPageNum ∧
      pStack = memStackLow + page * memStackPageSize ∧
      (∀ q, page - needStackPages stackSize ≤ q → q < page →
        BitMap.value k.stackMap q = true) ∧
      k' = { k with stackMap := clearPages k.stackMap (needStackPages stackSize) page } := by
  rw [allocStack] at h
  simp only at h
  split_ifs at h with hfound
  · obtain ⟨rfl, rfl⟩ := Prod.mk.inj h
    obtain ⟨hle, hnum, hfree⟩ := searchPages_found (Prod.eta _).symm hneed hfound
    exact ⟨_, hle, hnum, rfl, hfree, rfl⟩
  · obtain ⟨rfl, rfl⟩ := Prod.mk.inj h
    exact absurd rfl hp

theorem allocStack_none (h : k.allocStack stackSize = (k', 0)) : k' = k := by
  rw [allocStack] at h
  simp only at h
  split_ifs at h with hfound
  · have hstart := (Prod.mk.inj h).2
    have hlow : 0 < memStackLow := by decide
    omega
  · exact (Prod.mk.inj h).1.symm

theorem taskCreateStack_some (hneed : 0 < needStackPages (k.ts.tcb p).stackSize) :
    k.taskCreateStack p = (k, .unlock (.releaseTcb p)) ∨
    ∃ page, needStackPages (k.ts.tcb p).stackSize ≤ page ∧ page ≤ memStackPageNum ∧
      (∀ q, page - needStackPages (k.ts.tcb p).stackSize ≤ q → q < page →
        BitMap.value k.stackMap q = true) ∧
      k.taskCreateStack p =
        ({ k with
            stackMap := clearPages k.stackMap (needStackPages (k.ts.tcb p).stackSize) page
            ts := k.ts.setTcb p { k.ts.tcb p with
              stackStart := memStackLow + page * memStackPageSize } },
          .unlock (.linkTask p)) := by
  obtain ⟨k', pStack, h⟩ : ∃ k' q, k.allocStack (k.ts.tcb p).stackSize = (k', q) := ⟨_, _, rfl⟩
  simp only [taskCreateStack, h]
  by_cases hp : pStack = 0
  · subst hp
    rw [if_pos rfl, allocStack_none h]
    exact Or.inl rfl
  · obtain ⟨page, hle, hnum, rfl, hfree, rfl⟩ := allocStack_some hneed h hp
    rw [if_neg hp]
    exact Or.inr ⟨page, hle, hnum, hfree, rfl⟩

end Kernel

end DfewOS
