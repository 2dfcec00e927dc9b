import DfewOS.Bisect
import Mathlib.Algebra.GroupWithZero.Nat
import Mathlib.Data.Nat.Find
import Mathlib.Tactic.ByContra

/-!
# How much of a stack has been used

`_stack_used_percent` of `task.c`, with the linear search of its disabled branch. A stack is
filled with `0xcc` when the task is created and grows downwards, so that the words that still hold
that pattern are at its low end. The halving of the addresses follows that of the numbers of the
words.
-/

namespace DfewOS.StackUsed
open Loops (loop loop_rounds loop_follows)
open Bisect (Turns Brackets halve apart halving_finds)

/-- `*(uint32 *)p`, the lowest byte first. -/
def word (byte : UInt32 → UInt8) (p : UInt32) : ℕ :=
  (byte p).toNat + 2 ^ 8 * (byte (p + 1)).toNat + 2 ^ 16 * (byte (p + 2)).toNat +
    2 ^ 24 * (byte (p + 3)).toNat

structure Search where
  low : UInt32
  high : UInt32
  mid : UInt32

def middle (low high : UInt32) : UInt32 := low + (high - low) / 4 / 2 * 4

def Search.round (byte : UInt32 → UInt8) (s : Search) : Search :=
  if word byte s.mid = 0xcccccccc then ⟨s.mid + 4, s.high, middle (s.mid + 4) s.high⟩
  else ⟨s.low, s.mid, middle s.low s.mid⟩

def searched (fuel : ℕ) (byte : UInt32 → UInt8) (stackStart stackSize : UInt32) : Option Search :=
  let low := stackStart - stackSize
  let high := stackStart - 4
  loop (fun s => s.low < s.high) (Search.round byte) fuel ⟨low, high, middle low high⟩

def stackUsedPercent (fuel : ℕ) (byte : UInt32 → UInt8) (stackStart stackSize : UInt32) :
    Option UInt32 :=
  (searched fuel byte stackStart stackSize).map fun s => 1 + (stackStart - s.mid) * 100 / stackSize

/-- `while (*low++ == 0xcc); low--;` -/
def scanned (fuel : ℕ) (byte : UInt32 → UInt8) (stackStart stackSize : UInt32) : Option UInt32 :=
  loop (fun low => byte low = 0xcc) (· + 1) fuel (stackStart - stackSize)

/-- The first `k` words of the stack, and no others, hold the pattern. -/
structure Unused (byte : UInt32 → UInt8) (stackStart stackSize : UInt32) (k : ℕ) : Prop where
  lies : (stackStart - stackSize).toNat + stackSize.toNat ≤ 2 ^ 32
  words : stackSize.toNat % 4 = 0
  size : stackSize.toNat ≤ 2 ^ 25
  lt : k < stackSize.toNat / 4
  below : ∀ i < k, word byte (stackStart - stackSize + UInt32.ofNat (4 * i)) = 0xcccccccc
  above : ∀ i, k ≤ i → i < stackSize.toNat / 4 →
    word byte (stackStart - stackSize + UInt32.ofNat (4 * i)) ≠ 0xcccccccc

variable {byte : UInt32 → UInt8} {stackStart stackSize p : UInt32} {k fuel i : ℕ} {s : Search}
  {r : ℕ × ℕ}

theorem word_unused : word byte p = 0xcccccccc ↔
    byte p = 0xcc ∧ byte (p + 1) = 0xcc ∧ byte (p + 2) = 0xcc ∧ byte (p + 3) = 0xcc := by
  have h₀ := (byte p).toNat_lt
  have h₁ := (byte (p + 1)).toNat_lt
  have h₂ := (byte (p + 2)).toNat_lt
  have h₃ := (byte (p + 3)).toNat_lt
  simp only [word, ← UInt8.toNat_inj]
  simp
  omega

def wordAt (stackStart stackSize : UInt32) (i : ℕ) : UInt32 :=
  stackStart - stackSize + UInt32.ofNat (4 * i)

theorem wordAt_toNat (h : Unused byte stackStart stackSize k) (hi : i < stackSize.toNat / 4) :
    (wordAt stackStart stackSize i).toNat = (stackStart - stackSize).toNat + 4 * i := by
  have hlies := h.lies
  rw [wordAt, UInt32.toNat_add, UInt32.toNat_ofNat']
  omega

theorem Unused.turns (h : Unused byte stackStart stackSize k) :
    Turns (fun i => word byte (wordAt stackStart stackSize i) = 0xcccccccc) k (stackSize.toNat / 4) where
  below i hi := decide_eq_true (h.below i hi)
  above i hk hi := decide_eq_false (h.above i hk hi)

/-- The pointers are to the words of an interval and of its middle. -/
structure Points (stackStart stackSize : UInt32) (s : Search) (r : ℕ × ℕ) : Prop where
  low : s.low = wordAt stackStart stackSize r.1
  high : s.high = wordAt stackStart stackSize r.2
  mid : s.mid = wordAt stackStart stackSize (Bisect.middle r)
  le : r.1 ≤ r.2
  lt : r.2 < stackSize.toNat / 4

theorem middle_wordAt (h : Unused byte stackStart stackSize k) (hle : r.1 ≤ r.2)
    (hlt : r.2 < stackSize.toNat / 4) :
    middle (wordAt stackStart stackSize r.1) (wordAt stackStart stackSize r.2) =
      wordAt stackStart stackSize (Bisect.middle r) := by
  have hlow := wordAt_toNat h (show r.1 < stackSize.toNat / 4 by omega)
  have hhigh := wordAt_toNat h hlt
  have hmid := wordAt_toNat h (show Bisect.middle r < stackSize.toNat / 4 by rw [Bisect.middle]; omega)
  have hlies := h.lies
  apply UInt32.toNat_inj.mp
  rw [hmid, middle, Bisect.middle]
  generalize (stackStart - stackSize).toNat = base at hlow hhigh hlies ⊢
  simp only [UInt32.toNat_add, UInt32.toNat_mul, UInt32.toNat_div, UInt32.toNat_sub, hlow, hhigh,
    UInt32.reduceToNat]
  omega

theorem Points.round (h : Unused byte stackStart stackSize k) (hpoints : Points stackStart stackSize s r)
    (hapart : r.1 < r.2) :
    Points stackStart stackSize (s.round byte)
      (halve (fun i => word byte (wordAt stackStart stackSize i) = 0xcccccccc) r) := by
  obtain ⟨hlow, hhigh, hmid, hle, hlt⟩ := hpoints
  obtain ⟨hge, hless⟩ := Bisect.middle_lt hapart
  have hnext : wordAt stackStart stackSize (Bisect.middle r) + 4 =
      wordAt stackStart stackSize (Bisect.middle r + 1) := by
    have hhere := wordAt_toNat h (show Bisect.middle r < stackSize.toNat / 4 by omega)
    have hthere := wordAt_toNat h (show Bisect.middle r + 1 < stackSize.toNat / 4 by omega)
    have hlies := h.lies
    apply UInt32.toNat_inj.mp
    rw [hthere, UInt32.toNat_add, hhere]
    simp only [UInt32.reduceToNat]
    omega
  rw [Search.round, halve, hmid, hlow, hhigh]
  simp only [decide_eq_true_iff]
  split_ifs with hword
  · rw [hnext]
    exact ⟨rfl, rfl, middle_wordAt (r := (Bisect.middle r + 1, r.2)) h hless hlt, hless, hlt⟩
  · have hmiddle := middle_wordAt (r := (r.1, Bisect.middle r)) h hge (Nat.lt_trans hless hlt)
    exact ⟨rfl, rfl, hmiddle, hge, Nat.lt_trans hless hlt⟩

theorem searched_eq (h : Unused byte stackStart stackSize k) (hfuel : stackSize.toNat / 4 ≤ fuel) :
    ∃ s, searched fuel byte stackStart stackSize = some s ∧ s.low = wordAt stackStart stackSize k ∧
      s.mid = wordAt stackStart stackSize k ∧ s.high = wordAt stackStart stackSize k := by
  have hlies := h.lies
  have hwords := h.words
  have hk := h.lt
  have hhigh : stackStart - 4 = wordAt stackStart stackSize (stackSize.toNat / 4 - 1) := by
    have hlast := wordAt_toNat h (show stackSize.toNat / 4 - 1 < stackSize.toNat / 4 by omega)
    apply UInt32.toNat_inj.mp
    rw [hlast]
    simp only [UInt32.toNat_sub, UInt32.reduceToNat] at hlies ⊢
    omega
  have hlow : stackStart - stackSize = wordAt stackStart stackSize 0 := (UInt32.add_zero _).symm
  have hstart : Points stackStart stackSize
      ⟨stackStart - stackSize, stackStart - 4, middle (stackStart - stackSize) (stackStart - 4)⟩
      (0, stackSize.toNat / 4 - 1) := by
    rw [hhigh]
    refine ⟨hlow, rfl, ?_, Nat.zero_le _, by simp only; omega⟩
    rw [hlow]
    exact middle_wordAt (r := (0, stackSize.toNat / 4 - 1)) h (Nat.zero_le _) (by simp only; omega)
  have hbrackets : Brackets k (stackSize.toNat / 4) (0, stackSize.toNat / 4 - 1) :=
    ⟨Nat.zero_le k, by simp only; omega, Nat.sub_le _ 1⟩
  have htest : ∀ s r, Points stackStart stackSize s r → decide (s.low < s.high) = apart r := by
    intro s r hp
    have hnext := wordAt_toNat h (show r.1 < stackSize.toNat / 4 from Nat.lt_of_le_of_lt hp.le hp.lt)
    have hlast := wordAt_toNat h hp.lt
    rw [apart, hp.low, hp.high]
    refine decide_eq_decide.mpr ?_
    rw [UInt32.lt_iff_toNat_lt, hnext, hlast]
    omega
  obtain ⟨s, hloop, hpoints⟩ := loop_follows (Points stackStart stackSize) htest
    (fun s r hp hr => hp.round h (of_decide_eq_true hr)) hstart
    (halving_finds h.turns hbrackets (show stackSize.toNat / 4 - 1 - 0 < fuel by omega))
  refine ⟨s, hloop, hpoints.low, ?_, hpoints.high⟩
  rw [hpoints.mid, Bisect.middle]
  congr 1
  omega

def byteAt (stackStart stackSize : UInt32) (i : ℕ) : UInt32 :=
  stackStart - stackSize + UInt32.ofNat i

theorem byteAt_toNat (h : Unused byte stackStart stackSize k) (hi : i < stackSize.toNat) :
    (byteAt stackStart stackSize i).toNat = (stackStart - stackSize).toNat + i := by
  have hlies := h.lies
  rw [byteAt, UInt32.toNat_add, UInt32.toNat_ofNat']
  omega

theorem byteAt_add {j : ℕ} :
    byteAt stackStart stackSize i + UInt32.ofNat j = byteAt stackStart stackSize (i + j) := by
  rw [byteAt, byteAt, UInt32.ofNat_add, UInt32.add_assoc]

theorem wordAt_unused : word byte (wordAt stackStart stackSize i) = 0xcccccccc ↔
    ∀ j < 4, byte (byteAt stackStart stackSize (4 * i + j)) = 0xcc := by
  have hbytes : wordAt stackStart stackSize i = byteAt stackStart stackSize (4 * i) := rfl
  have hsecond : byteAt stackStart stackSize (4 * i) + 1 = byteAt stackStart stackSize (4 * i + 1) :=
    byteAt_add
  have hthird : byteAt stackStart stackSize (4 * i) + 2 = byteAt stackStart stackSize (4 * i + 2) :=
    byteAt_add
  have hfourth : byteAt stackStart stackSize (4 * i) + 3 = byteAt stackStart stackSize (4 * i + 3) :=
    byteAt_add
  rw [word_unused, hbytes, hsecond, hthird, hfourth]
  constructor
  · rintro ⟨h₀, h₁, h₂, h₃⟩ j hj
    match j, hj with
    | 0, _ => exact h₀
    | 1, _ => exact h₁
    | 2, _ => exact h₂
    | 3, _ => exact h₃
  · intro h
    exact ⟨h 0 (by omega), h 1 (by omega), h 2 (by omega), h 3 (by omega)⟩

theorem byteAt_unused (h : Unused byte stackStart stackSize k) (hi : i < 4 * k) :
    byte (byteAt stackStart stackSize i) = 0xcc := by
  have hword := wordAt_unused.mp (h.below (i / 4) (by omega)) (i % 4) (by omega)
  rwa [show 4 * (i / 4) + i % 4 = i by omega] at hword

theorem scanned_eq (h : Unused byte stackStart stackSize k) (hfuel : stackSize.toNat ≤ fuel) :
    ∃ p, scanned fuel byte stackStart stackSize = some p ∧
      (wordAt stackStart stackSize k).toNat ≤ p.toNat ∧
      p.toNat < (wordAt stackStart stackSize k).toNat + 4 := by
  have hwords := h.words
  have hk := h.lt
  have hused : ∃ i, byte (byteAt stackStart stackSize i) ≠ 0xcc ∧ i < 4 * k + 4 := by
    by_contra hnone
    refine h.above k (Nat.le_refl k) hk (wordAt_unused.mpr fun j hj => ?_)
    by_contra hbyte
    exact hnone ⟨4 * k + j, hbyte, by omega⟩
  obtain ⟨hbyte, hlast⟩ := Nat.find_spec hused
  have hfirst : ∀ i < Nat.find hused, byte (byteAt stackStart stackSize i) = 0xcc := by
    intro i hi
    by_contra hbyte
    exact Nat.find_min hused hi ⟨hbyte, by omega⟩
  have hge : 4 * k ≤ Nat.find hused :=
    Nat.le_of_not_lt fun hlt => hbyte (byteAt_unused h hlt)
  generalize Nat.find hused = m at hbyte hlast hfirst hge
  obtain ⟨p, hloop, rfl⟩ := loop_rounds
    (fun j p => ∃ i, i + j = m ∧ p = byteAt stackStart stackSize i) m
    (fun j p ⟨i, hi, hp⟩ => ⟨decide_eq_true (hp ▸ hfirst i (by omega)), i + 1, by omega,
      hp ▸ byteAt_add⟩)
    (fun p ⟨i, hi, hp⟩ => ⟨decide_eq_false (hp ▸ (show i = m from hi) ▸ hbyte),
      (show p = byteAt stackStart stackSize m from hi ▸ hp)⟩)
    (show ∃ i, i + m = m ∧ stackStart - stackSize = byteAt stackStart stackSize i from
      ⟨0, Nat.zero_add m, (UInt32.add_zero _).symm⟩)
    (show m < fuel by omega)
  have hp := byteAt_toNat h (show m < stackSize.toNat by omega)
  have hword := wordAt_toNat h hk
  exact ⟨_, hloop, by omega, by omega⟩

theorem percent_toNat (h : Unused byte stackStart stackSize k) :
    (1 + (stackStart - wordAt stackStart stackSize k) * 100 / stackSize).toNat =
      1 + (stackSize.toNat - 4 * k) * 100 / stackSize.toNat := by
  have hk := h.lt
  have hsize := h.size
  have hword := wordAt_toNat h hk
  have hleft : (stackStart - wordAt stackStart stackSize k).toNat = stackSize.toNat - 4 * k := by
    have hlies := h.lies
    rw [UInt32.toNat_sub] at hlies hword ⊢
    omega
  have hdiv : (stackSize.toNat - 4 * k) * 100 / stackSize.toNat ≤ 100 :=
    Nat.div_le_of_le_mul (Nat.mul_le_mul_right 100 (Nat.sub_le _ _))
  rw [UInt32.toNat_add, UInt32.toNat_div, UInt32.toNat_mul, hleft]
  simp only [UInt32.reduceToNat]
  rw [Nat.mod_eq_of_lt (show (stackSize.toNat - 4 * k) * 100 < 2 ^ 32 by omega),
    Nat.mod_eq_of_lt (by omega)]

theorem stackUsedPercent_search (h : Unused byte stackStart stackSize k)
    (hfuel : stackSize.toNat ≤ fuel) :
    ∃ s p percent, searched fuel byte stackStart stackSize = some s ∧
      stackUsedPercent fuel byte stackStart stackSize = some percent ∧
      scanned fuel byte stackStart stackSize = some p ∧
      (s.low = s.mid ∧ s.high = s.mid ∧ s.mid = wordAt stackStart stackSize k) ∧
      word byte s.mid ≠ 0xcccccccc ∧
      (∀ i < k, word byte (wordAt stackStart stackSize i) = 0xcccccccc) ∧
      (s.mid.toNat ≤ p.toNat ∧ p.toNat < s.mid.toNat + 4) ∧
      1 ≤ percent.toNat ∧ percent.toNat ≤ 101 := by
  obtain ⟨s, hsearched, hlow, hmid, hhigh⟩ := searched_eq h (show stackSize.toNat / 4 ≤ fuel by omega)
  obtain ⟨p, hscanned, hge, hlt⟩ := scanned_eq h hfuel
  have hpercent : stackUsedPercent fuel byte stackStart stackSize =
      some (1 + (stackStart - wordAt stackStart stackSize k) * 100 / stackSize) := by
    rw [stackUsedPercent, hsearched, Option.map_some, hmid]
  have hdiv : (stackSize.toNat - 4 * k) * 100 / stackSize.toNat ≤ 100 :=
    Nat.div_le_of_le_mul (Nat.mul_le_mul_right 100 (Nat.sub_le _ _))
  refine ⟨s, p, _, hsearched, hpercent, hscanned, ⟨hlow.trans hmid.symm, hhigh.trans hmid.symm, hmid⟩,
    ?_, h.below, ?_, ?_⟩
  · rw [hmid]
    exact h.above k (Nat.le_refl k) h.lt
  · rw [hmid]
    exact ⟨hge, hlt⟩
  · rw [percent_toNat h]
    exact ⟨Nat.le_add_right 1 _, Nat.add_le_add_left hdiv 1⟩

/-- A stack of 64 bytes at `0x1000`, of which the last 8 have been written. -/
def someStack (p : UInt32) : UInt8 := if p < 0x1038 then 0xcc else 0

theorem stackUsedPercent_search_some :
    ∃ s p percent, searched 64 someStack 0x1040 64 = some s ∧
      stackUsedPercent 64 someStack 0x1040 64 = some percent ∧
      scanned 64 someStack 0x1040 64 = some p ∧
      (s.low = s.mid ∧ s.high = s.mid ∧ s.mid = wordAt 0x1040 64 14) ∧
      word someStack s.mid ≠ 0xcccccccc ∧
      (∀ i < 14, word someStack (wordAt 0x1040 64 i) = 0xcccccccc) ∧
      (s.mid.toNat ≤ p.toNat ∧ p.toNat < s.mid.toNat + 4) ∧
      1 ≤ percent.toNat ∧ percent.toNat ≤ 101 :=
  stackUsedPercent_search
    ⟨by decide, by decide, by decide, by decide, by decide, by decide⟩ (by decide)

end DfewOS.StackUsed
