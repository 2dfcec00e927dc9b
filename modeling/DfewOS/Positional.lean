import Mathlib.Data.Nat.Digits.Lemmas

/-!
# Positional notation

The digits of a number with the highest one first, as they are printed, and the number
that a reader makes of digits, which may read them in another base and stops at the first
one that is none there.
-/

namespace Positional

/-- The number read so far is `x`; the digits are read on in base `b`. -/
def value (b x : ℕ) (ds : List ℕ) : ℕ := ds.foldl (fun x d => x * b + d) x

/-- The digits of `n` in base `b`, the highest first; 0 has one digit. -/
def numeral (b n : ℕ) : List ℕ := if n = 0 then [0] else (Nat.digits b n).reverse

variable {b c n x y : ℕ}

theorem value_append (ds es : List ℕ) : value b x (ds ++ es) = value b (value b x ds) es :=
  List.foldl_append ..

theorem value_concat (ds : List ℕ) (d : ℕ) : value b x (ds ++ [d]) = value b x ds * b + d :=
  value_append ds [d]

theorem value_lt_mul_pow {ds : List ℕ} (hds : ∀ d ∈ ds, d < b) :
    value b x ds < (x + 1) * b ^ ds.length := by
  induction ds generalizing x with
  | nil => rw [List.length_nil, Nat.pow_zero, Nat.mul_one]; exact Nat.lt_succ_self x
  | cons d ds ih =>
    have hd : d < b := hds d List.mem_cons_self
    have hstep : x * b + d + 1 ≤ (x + 1) * b := by
      rw [Nat.succ_mul]
      omega
    calc value b x (d :: ds) < (x * b + d + 1) * b ^ ds.length :=
          ih fun e he => hds e (List.mem_cons_of_mem _ he)
      _ ≤ (x + 1) * b * b ^ ds.length := Nat.mul_le_mul_right _ hstep
      _ = (x + 1) * b ^ (d :: ds).length := by rw [List.length_cons, Nat.pow_succ', Nat.mul_assoc]

theorem value_lt_pow {ds : List ℕ} (hds : ∀ d ∈ ds, d < b) : value b 0 ds < b ^ ds.length := by
  have h := value_lt_mul_pow (x := 0) hds
  rwa [Nat.zero_add, Nat.one_mul] at h

theorem mul_pow_le_value (ds : List ℕ) : x * b ^ ds.length ≤ value b x ds := by
  induction ds generalizing x with
  | nil => rw [List.length_nil, Nat.pow_zero, Nat.mul_one]; exact le_refl x
  | cons d ds ih =>
    calc x * b ^ (d :: ds).length = x * b * b ^ ds.length := by
          rw [List.length_cons, Nat.pow_succ', Nat.mul_assoc]
      _ ≤ (x * b + d) * b ^ ds.length := Nat.mul_le_mul_right _ (Nat.le_add_right ..)
      _ ≤ value b x (d :: ds) := ih

/-- At least the power of the base that has as many digits, unless the first digit is 0. -/
theorem pow_le_value {ds : List ℕ} {d : ℕ} (hhead : ∀ e ∈ (ds ++ [d]).head?, 0 < e) :
    b ^ ds.length ≤ value b 0 (ds ++ [d]) := by
  cases ds with
  | nil =>
    have hd : 0 < d := hhead d rfl
    simp only [value, List.nil_append, List.foldl_cons, List.foldl_nil, List.length_nil, Nat.pow_zero]
    omega
  | cons e ds =>
    have he : 0 < e := hhead e rfl
    have hlen : (ds ++ [d]).length = ds.length + 1 := by simp
    calc b ^ (e :: ds).length = 1 * b ^ (ds ++ [d]).length := by
          rw [List.length_cons, hlen, Nat.one_mul]
      _ ≤ (0 * b + e) * b ^ (ds ++ [d]).length := Nat.mul_le_mul_right _ (by omega)
      _ ≤ value b 0 (e :: ds ++ [d]) := mul_pow_le_value (ds ++ [d])

theorem numeral_of_lt (h : n < b) : numeral b n = [n] := by
  by_cases hn : n = 0
  · rw [numeral, if_pos hn, hn]
  · rw [numeral, if_neg hn, Nat.digits_of_lt b n hn h]
    rfl

/-- The last digit is the remainder, the ones in front of it are those of the quotient. -/
theorem numeral_step (hb : 1 < b) (h : b ≤ n) :
    numeral b n = numeral b (n / b) ++ [n % b] := by
  have hn : 0 < n := by omega
  have hquot : 0 < n / b := Nat.div_pos h (by omega)
  rw [numeral, numeral, if_neg (by omega), if_neg (by omega), Nat.digits_def' hb hn,
    List.reverse_cons]

theorem value_numeral (hb : 1 < b) (n : ℕ) : value b 0 (numeral b n) = n := by
  induction n using Nat.strongRecOn with
  | ind n ih =>
    by_cases h : n < b
    · rw [numeral_of_lt h]
      simp [value]
    · have hlt : n / b < n := Nat.div_lt_self (by omega) hb
      rw [numeral_step hb (by omega), value_concat, ih (n / b) hlt, Nat.mul_comm]
      exact Nat.div_add_mod n b

theorem numeral_lt (hb : 1 < b) {d : ℕ} (hd : d ∈ numeral b n) : d < b := by
  rw [numeral] at hd
  split at hd
  · have : d = 0 := by simpa using hd
    omega
  · exact Nat.digits_lt_base hb (List.mem_reverse.mp hd)

theorem numeral_ne_nil (hb : 1 < b) (n : ℕ) : numeral b n ≠ [] := by
  by_cases h : n < b
  · rw [numeral_of_lt h]
    simp
  · rw [numeral_step hb (by omega)]
    simp

theorem numeral_length_le (hb : 1 < b) {k : ℕ} (hk : 0 < k) (h : n < b ^ k) :
    (numeral b n).length ≤ k := by
  rw [numeral]
  split
  · exact hk
  · rename_i hn
    rw [List.length_reverse]
    exact (Nat.digits_length_le_iff hb n).mpr h

theorem numeral_head (hb : 1 < b) (hn : 0 < n) : ∃ d ds, 0 < d ∧ numeral b n = d :: ds := by
  induction n using Nat.strongRecOn with
  | ind n ih =>
    by_cases h : n < b
    · exact ⟨n, [], hn, numeral_of_lt h⟩
    · have hlt : n / b < n := Nat.div_lt_self hn hb
      obtain ⟨d, ds, hd, heq⟩ := ih (n / b) hlt (Nat.div_pos (by omega) (by omega))
      rw [numeral_step hb (by omega), heq]
      exact ⟨d, ds ++ [n % b], hd, rfl⟩

/-! ## Digits read in a smaller base -/

theorem value_lt_value (hb : 0 < b) (hbc : b ≤ c) (ds : List ℕ) (h : x < y) :
    value b x ds < value c y ds := by
  induction ds generalizing x y with
  | nil => exact h
  | cons d ds ih =>
    have hmul : x * b < y * c := Nat.mul_lt_mul_of_lt_of_le h hbc (lt_of_lt_of_le hb hbc)
    exact ih (Nat.add_lt_add_right hmul d)

theorem le_value (hb : 0 < b) (ds : List ℕ) : x ≤ value b x ds := by
  induction ds generalizing x with
  | nil => exact le_refl x
  | cons d ds ih =>
    have hmul : x ≤ x * b := Nat.le_mul_of_pos_right x hb
    exact le_trans (le_trans hmul (Nat.le_add_right _ d)) ih

theorem value_prefix_le (hb : 0 < b) (ds es : List ℕ) : value b x ds ≤ value b x (ds ++ es) := by
  rw [value_append]
  exact le_value hb es

/-- A reader in a smaller base that stops at the first digit which is none there reads
less, unless there is only one digit and that is one. -/
theorem value_takeWhile_lt {d : ℕ} {ds : List ℕ} (hb : 0 < b) (hbc : b < c) (hd : 0 < d)
    (hmore : b ≤ d ∨ ds ≠ []) :
    value b 0 ((d :: ds).takeWhile (· < b)) < value c 0 (d :: ds) := by
  by_cases hfirst : d < b
  · have hne : ds ≠ [] := hmore.resolve_left (by omega)
    have hsplit : ds.takeWhile (· < b) ++ ds.dropWhile (· < b) = ds := List.takeWhile_append_dropWhile
    rw [List.takeWhile_cons_of_pos (by simpa using hfirst)]
    change value b (0 * b + d) (ds.takeWhile (· < b)) < value c (0 * c + d) ds
    rw [Nat.zero_mul, Nat.zero_mul, Nat.zero_add]
    cases htake : ds.takeWhile (· < b) with
    | nil =>
      obtain ⟨e, es, rfl⟩ := List.exists_cons_of_ne_nil hne
      have hgrow : d < d * c + e := by nlinarith
      exact lt_of_lt_of_le hgrow (le_value (by omega) es)
    | cons e es =>
      rw [htake] at hsplit
      have hstep : d * b + e < d * c + e := by nlinarith
      calc value b d (e :: es) < value c d (e :: es) :=
            value_lt_value hb hbc.le es hstep
        _ ≤ value c d ds := by
            rw [← hsplit]
            exact value_prefix_le (by omega) ..
  · rw [List.takeWhile_cons_of_neg (by simpa using hfirst)]
    have hpos : 0 < 0 * c + d := by omega
    exact lt_of_lt_of_le hpos (le_value (by omega) ds)

end Positional
