import Mathlib.Data.Nat.Notation
import Mathlib.Tactic.Ring

/-!
# Linear maps and weights of bit vectors

`combine pat x` is the sum (exclusive or) of the patterns of the bits that are
set in `x`, the linear map with the columns `pat`. `weight x` is their number.
-/

namespace DfewOS.XorBits

variable {v w : ℕ} {pat : ℕ → BitVec w} {x y : BitVec v}

theorem xor_and (x y m : BitVec v) : (x ^^^ y) &&& m = (x &&& m) ^^^ (y &&& m) := by
  apply BitVec.eq_of_getLsbD_eq
  intro i _
  simp only [BitVec.getLsbD_and, BitVec.getLsbD_xor]
  exact Bool.and_xor_distrib_right _ _ _

theorem complement_xor (x y : BitVec v) : ~~~(x ^^^ y) = ~~~x ^^^ y := by
  apply BitVec.eq_of_getLsbD_eq
  intro k hk
  simp only [BitVec.getLsbD_not, BitVec.getLsbD_xor, hk, decide_true, Bool.true_and]
  cases x.getLsbD k <;> cases y.getLsbD k <;> rfl

theorem complement_xor_complement (x y : BitVec v) : ~~~x ^^^ ~~~y = x ^^^ y := by
  rw [← complement_xor, BitVec.xor_comm x, ← complement_xor, BitVec.not_not, BitVec.xor_comm]

def combineBelow (pat : ℕ → BitVec w) (x : BitVec v) : ℕ → BitVec w
  | 0 => 0#w
  | n + 1 => combineBelow pat x n ^^^ if x.getLsbD n then pat n else 0#w

def combine (pat : ℕ → BitVec w) (x : BitVec v) : BitVec w := combineBelow pat x v

theorem combineBelow_xor (n : ℕ) : combineBelow pat (x ^^^ y) n =
    combineBelow pat x n ^^^ combineBelow pat y n := by
  induction n with
  | zero => exact BitVec.xor_zero.symm
  | succ n ih =>
    have hbit : (if (x ^^^ y).getLsbD n then pat n else 0#w) =
        (if x.getLsbD n then pat n else 0#w) ^^^ (if y.getLsbD n then pat n else 0#w) := by
      rw [BitVec.getLsbD_xor]
      cases x.getLsbD n <;> cases y.getLsbD n <;> simp
    rw [combineBelow, combineBelow, combineBelow, ih, hbit]
    ac_rfl

theorem combine_xor : combine pat (x ^^^ y) = combine pat x ^^^ combine pat y :=
  combineBelow_xor v

theorem combineBelow_twoPow {k : ℕ} (hk : k < v) (n : ℕ) :
    combineBelow pat (BitVec.twoPow v k) n = if k < n then pat k else 0#w := by
  induction n with
  | zero => rfl
  | succ n ih =>
    rw [combineBelow, ih, BitVec.getLsbD_twoPow, decide_eq_true hk, Bool.true_and]
    rcases lt_trichotomy k n with hlt | rfl | hgt
    · rw [if_pos hlt, if_neg (by simpa using hlt.ne), if_pos (by omega), BitVec.xor_zero]
    · rw [if_neg (by omega), if_pos (by simp), if_pos (by omega), BitVec.zero_xor]
    · rw [if_neg (by omega), if_neg (by simpa using hgt.ne'), if_neg (by omega), BitVec.xor_zero]

theorem combine_twoPow {k : ℕ} (hk : k < v) : combine pat (BitVec.twoPow v k) = pat k := by
  rw [combine, combineBelow_twoPow hk, if_pos hk]

def weightBelow (x : BitVec v) : ℕ → ℕ
  | 0 => 0
  | n + 1 => weightBelow x n + (x.getLsbD n).toNat

def weight (x : BitVec v) : ℕ := weightBelow x v

theorem weightBelow_xor (x y : BitVec v) (n : ℕ) :
    weightBelow (x ^^^ y) n + 2 * weightBelow (x &&& y) n = weightBelow x n + weightBelow y n := by
  induction n with
  | zero => rfl
  | succ n ih =>
    rw [weightBelow, weightBelow, weightBelow, weightBelow, BitVec.getLsbD_xor, BitVec.getLsbD_and]
    cases x.getLsbD n <;> cases y.getLsbD n <;> simp <;> omega

theorem weight_xor (x y : BitVec v) :
    weight (x ^^^ y) + 2 * weight (x &&& y) = weight x + weight y := weightBelow_xor x y v

theorem weightBelow_not (x : BitVec v) {n : ℕ} (hn : n ≤ v) :
    weightBelow x n + weightBelow (~~~x) n = n := by
  induction n with
  | zero => rfl
  | succ n ih =>
    have hbit : (~~~x).getLsbD n = !x.getLsbD n := by
      rw [BitVec.getLsbD_not, decide_eq_true (show n < v by omega), Bool.true_and]
    rw [weightBelow, weightBelow, hbit]
    have := ih (by omega)
    cases x.getLsbD n <;> simp <;> omega

theorem weight_not (x : BitVec v) : weight x + weight (~~~x) = v := weightBelow_not x (Nat.le_refl v)

theorem weightBelow_twoPow {k : ℕ} (hk : k < v) (n : ℕ) :
    weightBelow (BitVec.twoPow v k) n = if k < n then 1 else 0 := by
  induction n with
  | zero => rfl
  | succ n ih =>
    rw [weightBelow, ih, BitVec.getLsbD_twoPow, decide_eq_true hk, Bool.true_and]
    rcases lt_trichotomy k n with hlt | rfl | hgt
    · rw [if_pos hlt, if_pos (by omega), decide_eq_false hlt.ne]
      rfl
    · rw [if_neg (by omega), if_pos (by omega), decide_eq_true rfl]
      rfl
    · rw [if_neg (by omega), if_neg (by omega), decide_eq_false hgt.ne']
      rfl

theorem weight_twoPow {k : ℕ} (hk : k < v) : weight (BitVec.twoPow v k) = 1 := by
  rw [weight, weightBelow_twoPow hk, if_pos hk]

theorem twoPow_and_twoPow {j k : ℕ} (h : j ≠ k) :
    BitVec.twoPow v j &&& BitVec.twoPow v k = 0#v := by
  apply BitVec.eq_of_getLsbD_eq
  intro i hi
  rw [BitVec.getLsbD_and, BitVec.getLsbD_twoPow, BitVec.getLsbD_twoPow]
  rw [BitVec.getLsbD_zero]
  by_cases hj : j = i
  · rw [decide_eq_false (show ¬ k = i from fun hk => h (hj.trans hk.symm)), Bool.and_false,
      Bool.and_false]
  · rw [decide_eq_false hj, Bool.and_false, Bool.false_and]

theorem weight_zero : weight 0#v = 0 := by
  have hxor := weight_xor 0#v 0#v
  rw [BitVec.xor_zero, BitVec.and_zero] at hxor
  omega

theorem eq_zero_of_weight (h : weight x = 0) : x = 0#v := by
  have hbelow (n : ℕ) (hn : weightBelow x n = 0) : ∀ k < n, x.getLsbD k = false := by
    induction n with
    | zero => exact fun k hk => absurd hk (Nat.not_lt_zero k)
    | succ n ih =>
      rw [weightBelow, Nat.add_eq_zero_iff] at hn
      intro k hk
      rcases Nat.lt_succ_iff_lt_or_eq.mp hk with hlt | rfl
      · exact ih hn.1 k hlt
      · exact Bool.toNat_eq_zero.mp hn.2
  apply BitVec.eq_of_getLsbD_eq
  intro k hk
  rw [hbelow v h k hk, BitVec.getLsbD_zero]

theorem weight_pair {j k : ℕ} (hj : j < v) (hk : k < v) (h : j ≠ k) :
    weight (BitVec.twoPow v j ^^^ BitVec.twoPow v k) = 2 := by
  have hxor := weight_xor (BitVec.twoPow v j) (BitVec.twoPow v k)
  rw [twoPow_and_twoPow h, weight_zero, weight_twoPow hj, weight_twoPow hk] at hxor
  omega

end DfewOS.XorBits
