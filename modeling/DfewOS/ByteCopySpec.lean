import DfewOS.ByteCopy
import DfewOS.MemHSpec
import Mathlib.Data.Nat.Bitwise

/-!
# What copying does

`At` ties the pointers of a copy to the part of the area that has been moved. In a copy that
goes forward that part grows from below, in one that goes backward from above. The loops
compare addresses of 32 bits: where the destination ends within the last word of the address
space the forward loop over words never finds its end, and where it ends with the address
space the loops that compare with its end are not entered.
-/

namespace DfewOS.CString
open Loops (loop loop_rounds loop_never loop_mono loop_of_true loop_of_false)
open Memory (Moved fresh)
open MemH (add32 sub32 toInt32)

section Words

theorem aligned_iff (p : ℕ) : p &&& alignment = 0 ↔ p % 4 = 0 := by
  have hmod : p &&& alignment = p % 4 := Nat.and_two_pow_sub_one_eq_mod p 2
  rw [hmod]

theorem same_alignment_iff (p q : ℕ) : (p ^^^ q) &&& alignment = 0 ↔ p % 4 = q % 4 := by
  have hmod : (p ^^^ q) % 4 = p % 4 ^^^ q % 4 := Nat.xor_mod_two_pow (n := 2)
  rw [aligned_iff, hmod]
  exact Nat.xor_eq_zero_iff

theorem offset_of_nat (p n : ℕ) : offset p n = (p + n) % 2 ^ 32 := by
  rw [offset]
  omega

end Words

/-- The pointers of `c` are at byte `k` of the area, of which the bytes from `lo` up to `hi`
have been moved. -/
structure Copying.At (old : Memory) (src dst lo hi k : ℕ) (c : Copying) : Prop where
  source : c.source = (src + k) % 2 ^ 32
  destination : c.destination = (dst + k) % 2 ^ 32
  moved : Moved old c.memory src dst lo hi

section Steps
variable {old : Memory} {src dst lo hi k j n : ℕ} {c : Copying}

theorem Copying.At.forward (h : c.At old src dst 0 k k)
    (hs : src + k < 2 ^ 32) (hd : dst + k < 2 ^ 32)
    (hsafe : dst ≤ src ∨ src + k + j ≤ dst) :
    (c.forward j).At old src dst 0 (k + j) (k + j) := by
  have hsource : c.source = src + k := h.source.trans (Nat.mod_eq_of_lt hs)
  have hdestination : c.destination = dst + k := h.destination.trans (Nat.mod_eq_of_lt hd)
  have hmoved := h.moved.above (k := j) (Nat.zero_le k) hsafe
  constructor
  · rw [Copying.forward, hsource, add32]
    exact congrArg (· % 2 ^ 32) (Nat.add_assoc ..)
  · rw [Copying.forward, hdestination, add32]
    exact congrArg (· % 2 ^ 32) (Nat.add_assoc ..)
  · rw [Copying.forward, hsource, hdestination]
    exact hmoved

theorem Copying.At.backward (h : c.At old src dst k n k) (hj : j ≤ k) (hpos : 0 < j)
    (hword : j ≤ 4) (hk : k ≤ n) (hs : src + k ≤ 2 ^ 32) (hd : dst + k ≤ 2 ^ 32)
    (hsafe : src ≤ dst) : (c.backward j).At old src dst (k - j) n (k - j) := by
  have hsource : sub32 c.source j = src + (k - j) := by
    rw [h.source, sub32]
    omega
  have hdestination : sub32 c.destination j = dst + (k - j) := by
    rw [h.destination, sub32]
    omega
  have hpart : Moved old c.memory src dst (k - j + j) n := by
    rw [Nat.sub_add_cancel hj]
    exact h.moved
  have hmoved := hpart.below (by omega) (Or.inl hsafe)
  constructor
  · rw [Copying.backward, hsource]
    exact (Nat.mod_eq_of_lt (show src + (k - j) < 2 ^ 32 by omega)).symm
  · rw [Copying.backward, hdestination]
    exact (Nat.mod_eq_of_lt (show dst + (k - j) < 2 ^ 32 by omega)).symm
  · rw [Copying.backward, hsource, hdestination]
    exact hmoved

end Steps

section Forward
variable {old : Memory} {src dst n k : ℕ} {c : Copying} (fuel : ℕ)

theorem bytes_forward (h : c.At old src dst 0 k k) (hk : k ≤ n) (hs : src + n ≤ 2 ^ 32)
    (hd : dst + n < 2 ^ 32) (hsafe : dst ≤ src ∨ src + n ≤ dst) (hfuel : n < fuel) :
    ∃ t, loop (fun c => c.destination < (dst + n) % 2 ^ 32) (Copying.forward 1) fuel c = some t ∧
      t.At old src dst 0 n n := by
  apply loop_rounds (fun j s => ∃ k, k + j = n ∧ s.At old src dst 0 k k) (n - k)
  · rintro j s ⟨k, hkn, hat⟩
    refine ⟨?_, k + 1, by omega, hat.forward (by omega) (by omega) (by omega)⟩
    rw [hat.destination]
    exact decide_eq_true (by omega)
  · rintro s ⟨k, rfl, hat⟩
    refine ⟨?_, hat⟩
    rw [hat.destination]
    exact decide_eq_false (by omega)
  · exact ⟨k, by omega, h⟩
  · omega

theorem align_forward (h : c.At old src dst 0 0 0) (hn : 10 ≤ n) (hs : src + n ≤ 2 ^ 32)
    (hd : dst + n ≤ 2 ^ 32) (hsafe : dst ≤ src ∨ src + n ≤ dst) (hfuel : 3 < fuel) :
    ∃ t, loop Copying.unaligned (Copying.forward 1) fuel c = some t ∧
      t.At old src dst 0 ((4 - dst % 4) % 4) ((4 - dst % 4) % 4) := by
  apply loop_rounds (fun j s => ∃ k, k + j = (4 - dst % 4) % 4 ∧ s.At old src dst 0 k k)
    ((4 - dst % 4) % 4)
  · rintro j s ⟨k, hk, hat⟩
    refine ⟨?_, k + 1, by omega, hat.forward (by omega) (by omega) (by omega)⟩
    rw [Copying.unaligned, hat.destination]
    exact decide_eq_true (by rw [ne_eq, aligned_iff]; omega)
  · rintro s ⟨k, hk, hat⟩
    obtain rfl : k = (4 - dst % 4) % 4 := hk
    refine ⟨?_, hat⟩
    rw [Copying.unaligned, hat.destination]
    exact decide_eq_false (by rw [ne_eq, aligned_iff]; omega)
  · exact ⟨0, by omega, h⟩
  · omega

theorem words_forward (h : c.At old src dst 0 k k) (hk : k ≤ n) (hs : src + n ≤ 2 ^ 32)
    (hd : dst + n < 2 ^ 32 - 4) (hsafe : dst ≤ src ∨ src + n ≤ dst) (hfuel : n < fuel) :
    ∃ t, loop (fun c => add32 c.destination 4 ≤ (dst + n) % 2 ^ 32) (Copying.forward 4) fuel c =
      some t ∧ ∃ k ≤ n, t.At old src dst 0 k k := by
  apply loop_rounds (fun j s => ∃ k, k ≤ n ∧ (n - k) / 4 = j ∧ s.At old src dst 0 k k) ((n - k) / 4)
  · rintro j s ⟨k, hkn, hj, hat⟩
    refine ⟨?_, k + 4, by omega, by omega, hat.forward (by omega) (by omega) (by omega)⟩
    rw [hat.destination, add32]
    exact decide_eq_true (by omega)
  · rintro s ⟨k, hkn, hj, hat⟩
    refine ⟨?_, k, hkn, hat⟩
    rw [hat.destination, add32]
    exact decide_eq_false (by omega)
  · exact ⟨k, hk, rfl, h⟩
  · omega

end Forward

section Backward
variable {old : Memory} {src dst n k : ℕ} {c : Copying} (fuel : ℕ)

theorem bytes_backward (h : c.At old src dst k n k) (hk : k ≤ n) (hs : src + k ≤ 2 ^ 32)
    (hd : dst + k < 2 ^ 32) (hsafe : src ≤ dst) (hfuel : k < fuel) :
    ∃ t, loop (fun c => dst < c.destination) (Copying.backward 1) fuel c = some t ∧
      t.At old src dst 0 n 0 := by
  apply loop_rounds (fun j s => j ≤ k ∧ s.At old src dst j n j) k
  · rintro j s ⟨hj, hat⟩
    have hnext := hat.backward (j := 1) (by omega) (by omega) (by omega) (by omega) (by omega)
      (by omega) hsafe
    rw [Nat.add_sub_cancel] at hnext
    refine ⟨?_, by omega, hnext⟩
    rw [hat.destination]
    exact decide_eq_true (by omega)
  · rintro s ⟨-, hat⟩
    refine ⟨?_, hat⟩
    rw [hat.destination]
    exact decide_eq_false (by omega)
  · exact ⟨le_rfl, h⟩
  · exact hfuel

theorem align_backward (h : c.At old src dst n n n) (hn : 10 ≤ n) (hd : dst + n ≤ 2 ^ 32)
    (hsafe : src ≤ dst) (hfuel : 3 < fuel) :
    ∃ t, loop Copying.unaligned (Copying.backward 1) fuel c = some t ∧
      t.At old src dst (n - (dst + n) % 4) n (n - (dst + n) % 4) := by
  apply loop_rounds (fun j s => ∃ k, k + (dst + n) % 4 = n + j ∧ j ≤ (dst + n) % 4 ∧
    s.At old src dst k n k) ((dst + n) % 4)
  · rintro j s ⟨k, hk, hj, hat⟩
    refine ⟨?_, k - 1, by omega, by omega,
      hat.backward (by omega) (by omega) (by omega) (by omega) (by omega) (by omega) hsafe⟩
    rw [Copying.unaligned, hat.destination]
    exact decide_eq_true (by rw [ne_eq, aligned_iff]; omega)
  · rintro s ⟨k, hk, -, hat⟩
    obtain rfl : k = n - (dst + n) % 4 := by omega
    refine ⟨?_, hat⟩
    rw [Copying.unaligned, hat.destination]
    exact decide_eq_false (by rw [ne_eq, aligned_iff]; omega)
  · exact ⟨n, by omega, le_rfl, h⟩
  · omega

/-- The destination is not at the bottom of the address space, so no address wraps. -/
theorem words_backward (h : c.At old src dst k n k) (hk : k ≤ n) (hd : dst + k < 2 ^ 32)
    (hword : (dst + k) % 4 = 0) (hsafe : src < dst) (hfuel : k < fuel) :
    ∃ t, loop (fun c => dst ≤ sub32 c.destination 4) (Copying.backward 4) fuel c = some t ∧
      ∃ i ≤ k, t.At old src dst i n i := by
  apply loop_rounds (fun j s => ∃ i, i ≤ k ∧ i / 4 = j ∧ (dst + i) % 4 = 0 ∧
    s.At old src dst i n i) (k / 4)
  · rintro j s ⟨i, hi, hj, hfour, hat⟩
    refine ⟨?_, i - 4, by omega, by omega, by omega,
      hat.backward (by omega) (by omega) (by omega) (by omega) (by omega) (by omega) (by omega)⟩
    rw [hat.destination, sub32]
    exact decide_eq_true (by omega)
  · rintro s ⟨i, hi, hj, hfour, hat⟩
    refine ⟨?_, i, hi, hat⟩
    rw [hat.destination, sub32]
    exact decide_eq_false (by omega)
  · exact ⟨k, le_rfl, rfl, hword, h⟩
  · omega

end Backward

section Ways
variable {src dst n : ℕ}

theorem forward_iff (hs : src < 2 ^ 32) (hd : dst < 2 ^ 32) (hn : n < 2 ^ 31)
    (hsrc : src + n ≤ 2 ^ 32) : (toInt32 (sub32 dst src) ≤ 0 ∨ (n : ℤ) ≤ toInt32 (sub32 dst src)) ↔
      ¬ (src < dst ∧ dst < src + n) := by
  rw [toInt32, sub32]
  split_ifs with hlow <;> omega

theorem bytewise_iff (m : Memory) : Copying.bytewise ⟨m, src, dst⟩ n = true ↔
    n < 10 ∨ dst % 4 ≠ src % 4 := by
  rw [Copying.bytewise, decide_eq_true_iff, ne_eq, same_alignment_iff]
  exact or_congr (by omega) Iff.rfl

/-- The loops of a copy come to its end. -/
def Reached (src dst n : ℕ) : Prop :=
  if n < 10 ∨ dst % 4 ≠ src % 4 then dst + n < 2 ^ 32
  else (src < dst ∧ dst < src + n) ∨ dst + n < 2 ^ 32 - 4 ∨
    (dst + n = 2 ^ 32 ∧ n - (4 - dst % 4) % 4 = 8)

theorem forward_start (old : Memory) (hs : src < 2 ^ 32) (hd : dst < 2 ^ 32) :
    Copying.At old src dst 0 0 0 ⟨old, src, dst⟩ :=
  ⟨(Nat.mod_eq_of_lt hs).symm, (Nat.mod_eq_of_lt hd).symm, .refl ..⟩

theorem backward_start (old : Memory) (src dst n : ℕ) :
    Copying.At old src dst n n n ⟨old, offset src n, offset dst n⟩ :=
  ⟨offset_of_nat .., offset_of_nat .., .refl ..⟩

theorem copyForward_moved (old : Memory) (hs : src < 2 ^ 32) (hd : dst < 2 ^ 32) (hsrc : src + n ≤ 2 ^ 32)
    (hsafe : dst ≤ src ∨ src + n ≤ dst) (hr : Reached src dst n) :
    ∃ t, copyForward (n + 10) ⟨old, src, dst⟩ n = some t ∧ Moved old t.memory src dst 0 n := by
  have hstart := forward_start old hs hd
  rw [Reached] at hr
  by_cases hbytes : n < 10 ∨ dst % 4 ≠ src % 4
  · rw [if_pos hbytes] at hr
    obtain ⟨t, ht, hat⟩ := bytes_forward (n + 10) hstart (by omega) hsrc hr hsafe (by omega)
    refine ⟨t, ?_, hat.moved⟩
    rw [copyForward, if_pos ((bytewise_iff old).mpr hbytes)]
    simp only [offset_of_nat]
    exact ht
  · rw [if_neg hbytes] at hr
    have hword : ¬ Copying.bytewise ⟨old, src, dst⟩ n = true :=
      fun h => hbytes ((bytewise_iff old).mp h)
    obtain ⟨c, hc, hat⟩ := align_forward (n + 10) hstart (by omega) hsrc (by omega) hsafe
      (by omega)
    have hfirst := hat.forward (j := 4) (by omega) (by omega) (by omega)
    rw [copyForward, if_neg hword, hc]
    simp only [offset_of_nat, Option.bind_some]
    rcases hr with hback | hlow | ⟨htop, height⟩
    · omega
    · obtain ⟨w, hw, k, hk, hat⟩ := words_forward (n + 10) hfirst (by omega) hsrc hlow hsafe
        (by omega)
      obtain ⟨t, ht, hat⟩ := bytes_forward (n + 10) hat hk hsrc (by omega) hsafe (by omega)
      rw [hw]
      exact ⟨t, ht, hat.moved⟩
    · have hlast := hfirst.forward (j := 4) (by omega) (by omega) (by omega)
      have hmore : decide (add32 (c.forward 4).destination 4 ≤ (dst + n) % 2 ^ 32) = true := by
        rw [hfirst.destination, add32]
        exact decide_eq_true (by omega)
      have hdone : decide (add32 ((c.forward 4).forward 4).destination 4 ≤ (dst + n) % 2 ^ 32) =
          false := by
        rw [hlast.destination, add32]
        exact decide_eq_false (by omega)
      have hend : decide (((c.forward 4).forward 4).destination < (dst + n) % 2 ^ 32) = false := by
        rw [hlast.destination]
        exact decide_eq_false (by omega)
      refine ⟨(c.forward 4).forward 4, ?_, ?_⟩
      · rw [loop_of_true (by exact hmore), loop_of_false (by exact hdone), Option.bind_some,
          loop_of_false (by exact hend)]
      · have hall : (4 - dst % 4) % 4 + 4 + 4 = n := by omega
        exact hall ▸ hlast.moved

theorem copyBackward_moved (old : Memory) (hdst : dst + n ≤ 2 ^ 32) (hover : src < dst ∧ dst < src + n)
    (hr : Reached src dst n) :
    ∃ t, copyBackward (n + 10) ⟨old, src, dst⟩ n = some t ∧ Moved old t.memory src dst 0 n := by
  have hstart := backward_start old src dst n
  have hiff : Copying.bytewise ⟨old, offset src n, offset dst n⟩ n = true ↔
      n < 10 ∨ dst % 4 ≠ src % 4 := by
    rw [bytewise_iff, offset_of_nat, offset_of_nat]
    omega
  rw [Reached] at hr
  by_cases hbytes : n < 10 ∨ dst % 4 ≠ src % 4
  · rw [if_pos hbytes] at hr
    obtain ⟨t, ht, hat⟩ := bytes_backward (n + 10) hstart le_rfl (by omega) hr (by omega)
      (by omega)
    refine ⟨t, ?_, hat.moved⟩
    rw [copyBackward, if_pos (hiff.mpr hbytes)]
    exact ht
  · obtain ⟨c, hc, hat⟩ := align_backward (n + 10) hstart (by omega) hdst (by omega)
      (by omega)
    have hfirst := hat.backward (j := 4) (by omega) (by omega) (by omega) (by omega) (by omega)
      (by omega) (by omega)
    obtain ⟨w, hw, k, hk, hat⟩ := words_backward (n + 10) hfirst (by omega) (by omega)
      (by omega) (by omega) (by omega)
    obtain ⟨t, ht, hat⟩ := bytes_backward (n + 10) hat (by omega) (by omega) (by omega)
      (by omega) (by omega)
    refine ⟨t, ?_, hat.moved⟩
    rw [copyBackward, if_neg (fun h => hbytes (hiff.mp h))]
    simp only [hc, hw, Option.bind_some]
    exact ht

theorem bcopy_moved (old : Memory) (hs : src < 2 ^ 32) (hd : dst < 2 ^ 32) (hn : n < 2 ^ 31)
    (hsrc : src + n ≤ 2 ^ 32) (hdst : dst + n ≤ 2 ^ 32) (hr : Reached src dst n) :
    ∃ m, bcopy (n + 10) old src dst n = some m ∧ Moved old m src dst 0 n := by
  rw [bcopy]
  by_cases hover : src < dst ∧ dst < src + n
  · obtain ⟨t, ht, hmoved⟩ := copyBackward_moved old hdst hover hr
    simp only [if_neg (fun h => (forward_iff hs hd hn hsrc).mp h hover), ht]
    exact ⟨t.memory, rfl, hmoved⟩
  · obtain ⟨t, ht, hmoved⟩ := copyForward_moved old hs hd hsrc (by omega) hr
    simp only [if_pos ((forward_iff hs hd hn hsrc).mpr hover), ht]
    exact ⟨t.memory, rfl, hmoved⟩

end Ways

section Failing
variable {old m : Memory} {src dst n fuel more : ℕ} {c t : Copying} {z : ℤ}

theorem copyForward_mono (h : copyForward fuel c z = some t) (hle : fuel ≤ more) :
    copyForward more c z = some t := by
  rw [copyForward] at h ⊢
  obtain ⟨w, hw, ht⟩ := Option.bind_eq_some_iff.mp h
  refine Option.bind_eq_some_iff.mpr ⟨w, ?_, loop_mono ht hle⟩
  split_ifs at hw ⊢
  · exact hw
  · obtain ⟨u, hu, hw⟩ := Option.bind_eq_some_iff.mp hw
    exact Option.bind_eq_some_iff.mpr ⟨u, loop_mono hu hle, loop_mono hw hle⟩

theorem copyBackward_mono (h : copyBackward fuel c z = some t) (hle : fuel ≤ more) :
    copyBackward more c z = some t := by
  rw [copyBackward] at h ⊢
  obtain ⟨w, hw, ht⟩ := Option.bind_eq_some_iff.mp h
  refine Option.bind_eq_some_iff.mpr ⟨w, ?_, loop_mono ht hle⟩
  split_ifs at hw ⊢
  · exact hw
  · obtain ⟨u, hu, hw⟩ := Option.bind_eq_some_iff.mp hw
    exact Option.bind_eq_some_iff.mpr ⟨u, loop_mono hu hle, loop_mono hw hle⟩

theorem bcopy_mono (h : bcopy fuel old src dst z = some m) (hle : fuel ≤ more) :
    bcopy more old src dst z = some m := by
  rw [bcopy] at h ⊢
  obtain ⟨t, ht, hm⟩ := Option.map_eq_some_iff.mp h
  refine Option.map_eq_some_iff.mpr ⟨t, ?_, hm⟩
  split_ifs at ht ⊢
  · exact copyForward_mono ht hle
  · exact copyBackward_mono ht hle

theorem bcopy_unique {m' : Memory} (h : bcopy fuel old src dst z = some m)
    (h' : bcopy more old src dst z = some m') : m = m' := by
  have hmax := bcopy_mono h (Nat.le_max_left fuel more)
  have hmax' := bcopy_mono h' (Nat.le_max_right fuel more)
  exact Option.some.inj (hmax.symm.trans hmax')

/-- Past the last word of the address space the loop over words goes on at its bottom. -/
theorem bcopy_endless (hs : src < 2 ^ 32) (hd : dst < 2 ^ 32) (hn : n < 2 ^ 31)
    (hsrc : src + n ≤ 2 ^ 32) (hdst : dst + n < 2 ^ 32) (hr : ¬ Reached src dst n) :
    bcopy fuel old src dst n = none := by
  rw [Reached] at hr
  have hbytes : ¬ (n < 10 ∨ dst % 4 ≠ src % 4) := fun h => hr (by rw [if_pos h]; exact hdst)
  rw [if_neg hbytes] at hr
  have hword : ¬ Copying.bytewise ⟨old, src, dst⟩ n = true :=
    fun h => hbytes ((bytewise_iff old).mp h)
  rw [bcopy]
  simp only [if_pos ((forward_iff hs hd hn hsrc).mpr fun h => hr (Or.inl h)), Option.map_eq_none_iff]
  apply Option.eq_none_iff_forall_ne_some.mpr
  intro t ht
  obtain ⟨c, hc, hat⟩ := align_forward (max fuel (n + 10)) (forward_start old hs hd)
    (by omega) hsrc (by omega) (by omega) (by omega)
  have hmore := copyForward_mono ht (Nat.le_max_left fuel (n + 10))
  rw [copyForward, if_neg hword, hc, Option.bind_some] at hmore
  have hnever : loop (fun c => add32 c.destination 4 ≤ offset dst n) (Copying.forward 4)
      (max fuel (n + 10)) (c.forward 4) = none := by
    apply loop_never fun c => c.destination % 4 = 0 ∧ c.destination < 2 ^ 32
    · rintro s ⟨hfour, hlt⟩
      refine ⟨?_, ?_, ?_⟩
      · rw [offset_of_nat, add32]
        exact decide_eq_true (by omega)
      · have hnext : (s.forward 4).destination = (s.destination + 4) % 2 ^ 32 := rfl
        omega
      · exact Nat.mod_lt _ (by decide)
    · have hnext : (c.forward 4).destination = (c.destination + 4) % 2 ^ 32 := rfl
      have hfour := hat.destination
      omega
  simp only [hnever] at hmore
  exact absurd hmore (by simp)

theorem bcopy_short (hs : src < 2 ^ 32) (hd : dst < 2 ^ 32) (hn : n < 2 ^ 31)
    (hsrc : src + n ≤ 2 ^ 32) (hdst : dst + n = 2 ^ 32) (hr : ¬ Reached src dst n) :
    ∃ k < n, ∀ old, ∃ m, bcopy (n + 10) old src dst n = some m ∧ Moved old m src dst 0 k := by
  rw [Reached] at hr
  by_cases hbytes : n < 10 ∨ dst % 4 ≠ src % 4
  · refine ⟨0, by omega, fun old => ⟨old, ?_, .refl ..⟩⟩
    rw [bcopy]
    by_cases hover : src < dst ∧ dst < src + n
    · have hiff : Copying.bytewise ⟨old, offset src n, offset dst n⟩ n = true := by
        rw [bytewise_iff, offset_of_nat, offset_of_nat]
        omega
      have htop : offset dst n = 0 := by
        rw [offset_of_nat]
        omega
      simp only [if_neg (fun h => (forward_iff hs hd hn hsrc).mp h hover), copyBackward, if_pos hiff,
        Option.bind_some]
      rw [loop_of_false]
      · rfl
      · simp only [htop]
        exact decide_eq_false (Nat.not_lt_zero dst)
    · have htop : offset dst n = 0 := by
        rw [offset_of_nat]
        omega
      simp only [if_pos ((forward_iff hs hd hn hsrc).mpr hover), copyForward,
        if_pos ((bytewise_iff old).mpr hbytes), Option.bind_some]
      rw [loop_of_false]
      · rfl
      · simp only [htop]
        exact decide_eq_false (Nat.not_lt_zero dst)
  · rw [if_neg hbytes] at hr
    have hover : ¬ (src < dst ∧ dst < src + n) := fun h => hr (Or.inl h)
    refine ⟨(4 - dst % 4) % 4 + 4, by omega, fun old => ?_⟩
    have hword : ¬ Copying.bytewise ⟨old, src, dst⟩ n = true :=
      fun h => hbytes ((bytewise_iff old).mp h)
    obtain ⟨c, hc, hat⟩ := align_forward (n + 10) (forward_start old hs hd)
      (by omega) hsrc (by omega) (by omega) (by omega)
    have hfirst := hat.forward (j := 4) (by omega) (by omega) (by omega)
    have hdone : decide (add32 (c.forward 4).destination 4 ≤ offset dst n) = false := by
      rw [hfirst.destination, add32, offset_of_nat]
      exact decide_eq_false (by omega)
    have hend : decide ((c.forward 4).destination < offset dst n) = false := by
      rw [hfirst.destination, offset_of_nat]
      exact decide_eq_false (by omega)
    refine ⟨(c.forward 4).memory, ?_, hfirst.moved⟩
    rw [bcopy]
    simp only [if_pos ((forward_iff hs hd hn hsrc).mpr hover), copyForward, if_neg hword, hc,
      Option.bind_some]
    rw [loop_of_false (by exact hdone), Option.bind_some, loop_of_false (by exact hend)]
    rfl

end Failing

/-- The `n` bytes at `src` are now at `dst`, and nothing else has changed. -/
structure Moves (mem : ℕ → UInt8) (m : Memory) (src dst n : ℕ) : Prop where
  moved : ∀ i < n, m.byte (dst + i) = mem (src + i)
  kept : ∀ x, ¬ (dst ≤ x ∧ x < dst + n) → m.byte x = mem x
  reads : ∀ x ∈ m.reads, (src ≤ x ∧ x < src + n) ∨ (dst ≤ x ∧ x < dst + n)

/-- Both functions return from every memory, and have moved the bytes. -/
def IsMemmove (src dst n : ℕ) : Prop := ∀ mem,
  (∃ fuel m, bcopy fuel (fresh mem) src dst n = some m ∧ Moves mem m src dst n) ∧
    ∃ fuel m, memmove fuel (fresh mem) dst src n = some (m, dst) ∧ Moves mem m src dst n

section Memmove
variable {mem : ℕ → UInt8} {m : Memory} {src dst n k : ℕ}

theorem Moved.moves (h : Moved (fresh mem) m src dst 0 n) : Moves mem m src dst n := by
  refine ⟨fun i hi => ?_, fun x hx => ?_, fun x hx => ?_⟩
  · rw [h.byte, if_pos (by omega), Nat.add_sub_cancel_left]
    rfl
  · rw [h.byte, if_neg (by omega)]
    rfl
  · have hread := (h.reads x).mp hx
    rw [fresh, or_iff_right List.not_mem_nil] at hread
    omega

theorem Moved.moves_self (h : Moved (fresh mem) m dst dst 0 k) (hk : k ≤ n) :
    Moves mem m dst dst n := by
  have hsame : ∀ x, m.byte x = mem x := by
    intro x
    rw [h.byte]
    split_ifs
    · rw [show dst + (x - dst) = x by omega]
      rfl
    · rfl
  refine ⟨fun i _ => hsame _, fun x _ => hsame x, fun x hx => ?_⟩
  have hread := (h.reads x).mp hx
  rw [fresh, or_iff_right List.not_mem_nil] at hread
  omega

theorem isMemmove_of (hn : n < 2 ^ 31) (h : ∀ mem, ∃ fuel m, bcopy fuel (fresh mem) src dst n = some m ∧
    Moves mem m src dst n) : IsMemmove src dst n := by
  intro mem
  obtain ⟨fuel, m, hm, hmoves⟩ := h mem
  have hint : toInt32 n = n := by rw [toInt32, if_pos hn]
  refine ⟨⟨fuel, m, hm, hmoves⟩, fuel, m, ?_, hmoves⟩
  rw [memmove, hint, hm]
  rfl

end Memmove

/-- `bcopy` is `memmove` except where the destination ends at the top of the address space. -/
theorem bcopy_memmove {src dst n : ℕ} (hs : src < 2 ^ 32) (hd : dst < 2 ^ 32) (hn : n < 2 ^ 31)
    (hsrc : src + n ≤ 2 ^ 32) (hdst : dst + n ≤ 2 ^ 32) :
    IsMemmove src dst n ↔ Reached src dst n ∨ (src = dst ∧ dst + n = 2 ^ 32) := by
  constructor
  · intro h
    by_contra hbad
    rw [not_or] at hbad
    rcases Nat.lt_or_eq_of_le hdst with hlt | htop
    · obtain ⟨fuel, m, hm, -⟩ := (h fun _ => 0).1
      rw [bcopy_endless hs hd hn hsrc hlt hbad.1] at hm
      exact absurd hm (by simp)
    · obtain ⟨k, hk, hall⟩ := bcopy_short hs hd hn hsrc htop hbad.1
      -- the first byte that is left behind
      obtain ⟨short, hshort, hpart⟩ := hall (fresh fun x => if x = src + k then 1 else 0)
      obtain ⟨fuel, m, hm, hmoves⟩ := (h fun x => if x = src + k then 1 else 0).1
      obtain rfl := bcopy_unique hm hshort
      have hmust := hmoves.moved k hk
      have hkept := hpart.byte (dst + k)
      rw [if_neg (by omega)] at hkept
      have hne : dst + k ≠ src + k := by omega
      simp only [hkept, fresh, if_neg hne, if_pos] at hmust
      exact absurd hmust (by decide)
  · rintro (hr | ⟨rfl, htop⟩)
    · apply isMemmove_of hn
      intro mem
      obtain ⟨m, hm, hmoved⟩ := bcopy_moved (fresh mem) hs hd hn hsrc hdst hr
      exact ⟨n + 10, m, hm, Moved.moves hmoved⟩
    · apply isMemmove_of hn
      intro mem
      by_cases hr : Reached src src n
      · obtain ⟨m, hm, hmoved⟩ := bcopy_moved (fresh mem) hs hd hn hsrc hdst hr
        exact ⟨n + 10, m, hm, Moved.moves hmoved⟩
      · obtain ⟨k, hk, hall⟩ := bcopy_short hs hd hn hsrc htop hr
        obtain ⟨m, hm, hmoved⟩ := hall (fresh mem)
        exact ⟨n + 10, m, hm, Moved.moves_self hmoved (by omega)⟩

/-- An overlap of eight bytes, which is copied backward. -/
theorem bcopy_memmove_overlap : IsMemmove 0x51000020 0x51000024 12 :=
  (bcopy_memmove (by decide) (by decide) (by decide) (by decide) (by decide)).mpr
    (Or.inl (by rw [Reached]; decide))

/-- A copy to the last words of the address space does not return. -/
theorem bcopy_to_last_word : ¬ IsMemmove 0x51000020 0xfffffff0 13 := by
  intro h
  obtain ⟨fuel, m, hm, -⟩ := (h fun _ => 0).1
  have hnone : bcopy fuel (fresh fun _ => 0) 0x51000020 0xfffffff0 (13 : ℕ) = none :=
    bcopy_endless (by decide) (by decide) (by decide) (by decide) (by decide)
      (by rw [Reached]; decide)
  exact absurd (hnone.symm.trans hm) (by simp)

end DfewOS.CString
