import DfewOS.NumText
import DfewOS.Positional

/-!
# Reading digits

What the loop of `_Stoul` makes of the digits in front of it, in any base from 2 to 36. The
table `ndigs` holds for each base the greatest number of digits with which a number can still
have 32 bits, up to a power of the base that is `2 ^ 32` itself; with fewer digits no number
overflows, with more every one does, and with as many the test on the last digit is exact.
-/

namespace DfewOS.NumText
open Positional

/-! ## Digits -/

/-- The value of a digit; letters of either case count from 10 on. -/
def digitValue (c : Char) : Option ℕ :=
  if '0' ≤ c ∧ c ≤ '9' then some (c.toNat - 48)
  else if 'a' ≤ c ∧ c ≤ 'z' then some (c.toNat - 87)
  else if 'A' ≤ c ∧ c ≤ 'Z' then some (c.toNat - 55)
  else none

def digitsOf (base : ℕ) : List Char → List ℕ
  | [] => []
  | c :: sc => match digitIn base c with
    | none => []
    | some d => d :: digitsOf base sc

def behind (base : ℕ) (sc : List Char) : List Char := sc.dropWhile fun c => (digitIn base c).isSome

section Digits
variable {base d : ℕ} {c : Char} {sc : List Char}

theorem digitIn_some_iff : digitIn base c = some d ↔
    d < base ∧ ∃ h : d < digits.length, digits[d] = tolower c ∧ ∀ j, (hj : j < d) → digits[j] ≠ tolower c := by
  rw [digitIn, List.findIdx?_eq_some_iff_getElem]
  simp only [List.length_take, List.getElem_take, beq_iff_eq, lt_min_iff]
  constructor
  · rintro ⟨⟨hbase, hlen⟩, heq, hbefore⟩
    exact ⟨hbase, hlen, heq, hbefore⟩
  · rintro ⟨hbase, hlen, heq, hbefore⟩
    exact ⟨⟨hbase, hlen⟩, heq, hbefore⟩

theorem digitIn_iff (hbase : base ≤ 36) : digitIn base c = some d ↔ digitIn 36 c = some d ∧ d < base := by
  rw [digitIn_some_iff, digitIn_some_iff]
  constructor
  · rintro ⟨hd, hrest⟩
    exact ⟨⟨lt_of_lt_of_le hd hbase, hrest⟩, hd⟩
  · rintro ⟨⟨-, hrest⟩, hd⟩
    exact ⟨hd, hrest⟩

theorem digitIn_ascii : ∀ n < 128, digitIn 36 (Char.ofNat n) = digitValue (Char.ofNat n) := by
  decide +kernel

theorem digitIn_all (c : Char) : digitIn 36 c = digitValue c := by
  by_cases hascii : c.toNat < 128
  · have h := digitIn_ascii c.toNat hascii
    rwa [Char.ofNat_toNat] at h
  · have hnone : ∀ x : Char, x.toNat < 128 → ¬ c ≤ x := fun x hx hle => by
      have hnat : c.toNat ≤ x.toNat := hle
      omega
    have hlower : tolower c = c := by
      rw [tolower, if_neg fun h => hnone 'Z' (by decide) h.2]
    have hvalue : digitValue c = none := by
      rw [digitValue, if_neg fun h => hnone '9' (by decide) h.2, if_neg fun h => hnone 'z' (by decide) h.2,
        if_neg fun h => hnone 'Z' (by decide) h.2]
    have hdigits : digits.all (fun x => x.toNat < 128) = true := rfl
    rw [hvalue, digitIn, List.findIdx?_eq_none_iff]
    intro x hx
    rw [hlower, beq_eq_false_iff_ne]
    rintro rfl
    exact hascii (of_decide_eq_true (List.all_eq_true.mp hdigits x (List.mem_of_mem_take hx)))

theorem digitIn_eq (hbase : base ≤ 36) : digitIn base c = some d ↔ digitValue c = some d ∧ d < base := by
  rw [digitIn_iff hbase, digitIn_all]

theorem digitsOf_lt (hbase : base ≤ 36) : ∀ d ∈ digitsOf base sc, d < base := by
  induction sc with
  | nil => exact fun d hd => absurd hd List.not_mem_nil
  | cons c sc ih =>
    intro d hd
    rw [digitsOf] at hd
    split at hd
    · exact absurd hd List.not_mem_nil
    · rename_i e he
      rcases List.mem_cons.mp hd with rfl | hd
      · exact ((digitIn_iff hbase).mp he).2
      · exact ih d hd

theorem behind_none (h : digitsOf base sc = []) : behind base sc = sc := by
  cases sc with
  | nil => rfl
  | cons c sc =>
    cases hdigit : digitIn base c with
    | none => exact List.dropWhile_cons_of_neg (by simp [hdigit])
    | some d =>
      rw [digitsOf, hdigit] at h
      exact absurd h (List.cons_ne_nil _ _)

theorem digitIn_zero (hpos : 0 < base) (hbase : base ≤ 36) : digitIn base '0' = some 0 :=
  (digitIn_eq hbase).mpr ⟨rfl, hpos⟩

theorem value_digitsOf (hpos : 0 < base) (hbase : base ≤ 36) (sc : List Char) :
    value base 0 (digitsOf base (sc.dropWhile (· = '0'))) = value base 0 (digitsOf base sc) := by
  induction sc with
  | nil => rfl
  | cons c sc ih =>
    by_cases hc : c = '0'
    · subst hc
      rw [List.dropWhile_cons_of_pos (by decide), ih, digitsOf, digitIn_zero hpos hbase]
      simp only [value, List.foldl_cons, Nat.zero_mul, Nat.add_zero]
    · rw [List.dropWhile_cons_of_neg (by simpa using hc)]

theorem behind_zeros (hpos : 0 < base) (hbase : base ≤ 36) (sc : List Char) :
    behind base (sc.dropWhile (· = '0')) = behind base sc := by
  induction sc with
  | nil => rfl
  | cons c sc ih =>
    by_cases hc : c = '0'
    · subst hc
      rw [List.dropWhile_cons_of_pos (by decide), ih, behind, behind,
        List.dropWhile_cons_of_pos (by rw [digitIn_zero hpos hbase]; rfl)]
    · rw [List.dropWhile_cons_of_neg (by simpa using hc)]

theorem digitValue_zero (h : digitValue c = some 0) : c = '0' := by
  have hnat : ∀ x y : Char, x ≤ y → x.toNat ≤ y.toNat := fun _ _ h => h
  rw [digitValue] at h
  split_ifs at h with hdigit hsmall hcapital
  · have hlow : 48 ≤ c.toNat := hnat '0' c hdigit.1
    have hzero : c.toNat - 48 = 0 := Option.some.inj h
    have heq : c.toNat = 48 := by omega
    rw [← Char.ofNat_toNat c, heq]
  · have hlow : 97 ≤ c.toNat := hnat 'a' c hsmall.1
    have hzero : c.toNat - 87 = 0 := Option.some.inj h
    omega
  · have hlow : 65 ≤ c.toNat := hnat 'A' c hcapital.1
    have hzero : c.toNat - 55 = 0 := Option.some.inj h
    omega

theorem head_ne_zero (hbase : base ≤ 36) (sc : List Char) :
    ∀ d ∈ (digitsOf base (sc.dropWhile (· = '0'))).head?, 0 < d := by
  intro d hd
  cases hsc : sc.dropWhile (· = '0') with
  | nil =>
    rw [hsc] at hd
    exact absurd hd (by simp [digitsOf])
  | cons c rest =>
    have hc : c ≠ '0' := by
      have hhead := List.head_dropWhile_not (p := (· = '0')) (l := sc) (by rw [hsc]; exact List.cons_ne_nil _ _)
      simp only [hsc, List.head_cons, decide_eq_false_iff_not] at hhead
      exact hhead
    rw [hsc, digitsOf] at hd
    cases hdigit : digitIn base c with
    | none =>
      rw [hdigit] at hd
      exact absurd hd (by simp)
    | some e =>
      rw [hdigit] at hd
      obtain rfl : e = d := by simpa using hd
      refine Nat.pos_of_ne_zero fun hzero => hc (digitValue_zero ?_)
      exact hzero ▸ ((digitIn_eq hbase).mp hdigit).1

end Digits

/-! ## The loop -/

section Loop
variable {base : ℕ} {x y dig : BitVec 32} {n : ℕ}

theorem accumulate_none {sc : List Char} (h : digitsOf base sc = []) :
    accumulate base sc x y dig n = ⟨x, y, dig, n, sc⟩ := by
  cases sc with
  | nil => rfl
  | cons c sc =>
    cases hdigit : digitIn base c with
    | none => rw [accumulate, hdigit]
    | some d =>
      rw [digitsOf, hdigit] at h
      exact absurd h (List.cons_ne_nil _ _)

theorem accumulate_digitsOf {ds : List ℕ} {d : ℕ} (sc : List Char) (h : digitsOf base sc = ds ++ [d])
    (k : ℕ) (y dig : BitVec 32) (n : ℕ) :
    accumulate base sc (BitVec.ofNat 32 k) y dig n =
      ⟨BitVec.ofNat 32 (value base k (ds ++ [d])), BitVec.ofNat 32 (value base k ds),
        BitVec.ofNat 32 d, n + (ds ++ [d]).length, behind base sc⟩ := by
  induction sc generalizing ds k y dig n with
  | nil => exact absurd h.symm (by simp [digitsOf])
  | cons c sc ih =>
    cases hdigit : digitIn base c with
    | none =>
      rw [digitsOf, hdigit] at h
      exact absurd h.symm (by simp)
    | some e =>
      rw [digitsOf, hdigit] at h
      have hx : BitVec.ofNat 32 k * BitVec.ofNat 32 base + BitVec.ofNat 32 e =
          BitVec.ofNat 32 (k * base + e) := by
        rw [BitVec.ofNat_add, BitVec.ofNat_mul]
      have hbehind : behind base (c :: sc) = behind base sc := by
        rw [behind, List.dropWhile_cons_of_pos (by simp [hdigit])]
        rfl
      rw [accumulate, hdigit, hbehind]
      simp only [hx]
      cases ds with
      | nil =>
        obtain ⟨rfl, hnone⟩ := List.cons.inj h
        rw [accumulate_none hnone, behind_none hnone]
        rfl
      | cons f ds =>
        obtain ⟨rfl, hrest⟩ := List.cons.inj h
        rw [ih hrest]
        simp only [value, List.cons_append, List.foldl_cons, List.length_cons, Nat.add_assoc,
          Nat.add_comm 1]

end Loop

/-! ## Overflow -/

section Overflow
variable {base : ℕ}

theorem ndigs_bounds : ∀ base < 37, 2 ≤ base → 0 < ndigs.getD base 0 ∧
    base ^ (ndigs.getD base 0 - 1) ≤ 2 ^ 32 ∧ 2 ^ 32 < base ^ ndigs.getD base 0 := by
  decide

theorem last_digit_overflow {m d : ℕ} (hbase : 2 ≤ base) (hbase' : base ≤ 36) (hm : m < 2 ^ 32)
    (hd : d < base) :
    (BitVec.ofNat 32 (m * base + d) < BitVec.ofNat 32 (m * base + d) - BitVec.ofNat 32 d ∨
      (BitVec.ofNat 32 (m * base + d) - BitVec.ofNat 32 d) / BitVec.ofNat 32 base ≠
        BitVec.ofNat 32 m) ↔ 2 ^ 32 ≤ m * base + d := by
  have hsub : BitVec.ofNat 32 (m * base + d) - BitVec.ofNat 32 d = BitVec.ofNat 32 (m * base) := by
    rw [BitVec.ofNat_add, BitVec.add_sub_cancel]
  have hb : base % 2 ^ 32 = base := Nat.mod_eq_of_lt (by omega)
  rw [hsub, BitVec.lt_def, ne_eq, ← BitVec.toNat_inj, BitVec.toNat_udiv]
  simp only [BitVec.toNat_ofNat, hb, Nat.mod_eq_of_lt hm]
  rcases Nat.lt_or_ge (m * base) (2 ^ 32) with hfit | hover
  · rw [Nat.mod_eq_of_lt hfit, Nat.mul_div_cancel m (by omega), or_iff_left fun h => h rfl]
    omega
  · have hdiv : m * base % 2 ^ 32 / base < m :=
      Nat.div_lt_of_lt_mul (by rw [Nat.mul_comm base m]; omega)
    exact iff_of_true (Or.inr (Nat.ne_of_lt hdiv)) (by omega)

theorem overflow_iff (hbase : 2 ≤ base) (hbase' : base ≤ 36) {ds : List ℕ} {d : ℕ}
    (hlt : ∀ e ∈ ds ++ [d], e < base) (hhead : ∀ e ∈ (ds ++ [d]).head?, 0 < e) (rest : List Char) :
    Accumulated.overflow ⟨BitVec.ofNat 32 (value base 0 (ds ++ [d])), BitVec.ofNat 32 (value base 0 ds),
      BitVec.ofNat 32 d, (ds ++ [d]).length, rest⟩ base = true ↔ 2 ^ 32 ≤ value base 0 (ds ++ [d]) := by
  obtain ⟨hmost, hlow, hhigh⟩ := ndigs_bounds base (by omega) hbase
  have hless : value base 0 (ds ++ [d]) < base ^ (ds ++ [d]).length := value_lt_pow hlt
  have hless' : value base 0 ds < base ^ ds.length :=
    value_lt_pow fun e he => hlt e (List.mem_append_left _ he)
  have hmore : base ^ ds.length ≤ value base 0 (ds ++ [d]) := pow_le_value hhead
  have hlen : (ds ++ [d]).length = ds.length + 1 := by simp
  simp only [Accumulated.overflow, decide_eq_true_iff]
  generalize hn : ndigs.getD base 0 = most at hmost hlow hhigh ⊢
  rcases Nat.lt_trichotomy (ds ++ [d]).length most with hfew | hsame | hmany
  · have hpow : base ^ (ds ++ [d]).length ≤ base ^ (most - 1) :=
      Nat.pow_le_pow_right (by omega) (by omega)
    refine iff_of_false ?_ (by omega)
    rintro (h | ⟨h, -⟩) <;> omega
  · have hpow : base ^ ds.length ≤ base ^ (most - 1) := Nat.pow_le_pow_right (by omega) (by omega)
    rw [or_iff_right (by omega), and_iff_right hsame, value_concat]
    exact last_digit_overflow hbase hbase' (by omega) (hlt d (by simp))
  · have hpow : base ^ most ≤ base ^ ds.length := Nat.pow_le_pow_right (by omega) (by omega)
    exact iff_of_true (Or.inl hmany) (by omega)

end Overflow

theorem behind_length (base : ℕ) (sc : List Char) : (behind base sc).length ≤ sc.length :=
  (List.dropWhile_suffix _).length_le

theorem behind_length_lt {base : ℕ} {sc : List Char} (h : digitsOf base sc ≠ []) :
    (behind base sc).length < sc.length := by
  cases sc with
  | nil => exact absurd rfl h
  | cons c sc =>
    cases hdigit : digitIn base c with
    | none =>
      rw [digitsOf, hdigit] at h
      exact absurd rfl h
    | some d =>
      rw [behind, List.dropWhile_cons_of_pos (by simp [hdigit])]
      exact Nat.lt_succ_of_le (behind_length base sc)

/-- The result for the number `m`: a sign is applied to the number that stands for an
overflow as well. -/
def wrapped (minus : Bool) (m : ℕ) : BitVec 32 :=
  let x := if 2 ^ 32 ≤ m then BitVec.allOnes 32 else BitVec.ofNat 32 m
  if minus then -x else x

section Digits
variable {base m : ℕ} {sc : List Char}

theorem readDigits_of {a : Accumulated} (ha : accumulate base (sc.dropWhile (· = '0')) 0 0 0 0 = a)
    (hx : a.x = BitVec.ofNat 32 m) (hover : a.overflow base = decide (2 ^ 32 ≤ m))
    (hshort : a.rest.length < sc.length) (minus : Bool) :
    readDigits base minus sc = ⟨wrapped minus m, a.rest, 2 ^ 32 ≤ m⟩ := by
  rw [readDigits, ha]
  simp only [if_neg (Nat.ne_of_lt hshort), hover, hx, wrapped, decide_eq_true_iff]

theorem dropWhile_of_digitsOf (hpos : 0 < base) (hbase : base ≤ 36) (h : digitsOf base sc = []) :
    sc.dropWhile (· = '0') = sc := by
  cases sc with
  | nil => rfl
  | cons c sc =>
    refine List.dropWhile_cons_of_neg fun hc => ?_
    rw [of_decide_eq_true hc, digitsOf, digitIn_zero hpos hbase] at h
    exact List.cons_ne_nil _ _ h

theorem readDigits_eq (hbase : 2 ≤ base) (hbase' : base ≤ 36) (minus : Bool) (sc : List Char) :
    readDigits base minus sc =
      if digitsOf base sc = [] then ⟨0, sc, false⟩
      else ⟨wrapped minus (value base 0 (digitsOf base sc)), behind base sc,
        2 ^ 32 ≤ value base 0 (digitsOf base sc)⟩ := by
  have hpos : 0 < base := by omega
  split_ifs with hnone
  · rw [readDigits, dropWhile_of_digitsOf hpos hbase' hnone, accumulate_none hnone]
    simp only [if_true]
  · have hvalue := value_digitsOf hpos hbase' sc
    have hbehind := behind_zeros hpos hbase' sc
    have hhead := head_ne_zero hbase' sc
    have hlt : ∀ d ∈ digitsOf base (sc.dropWhile (· = '0')), d < base := digitsOf_lt hbase'
    have hshort := behind_length_lt hnone
    rw [← hbehind] at hshort ⊢
    rw [← hvalue]
    rcases List.eq_nil_or_concat' (digitsOf base (sc.dropWhile (· = '0'))) with hzeros | ⟨ds, d, hds⟩
    · rw [behind_none hzeros] at hshort ⊢
      rw [hzeros]
      refine readDigits_of (accumulate_none hzeros) rfl ?_ hshort minus
      obtain ⟨hmost, -⟩ := ndigs_bounds base (by omega) hbase
      have hfew : ¬ (ndigs.getD base 0 < 0) := Nat.not_lt_zero _
      have hnot : ¬ (0 = ndigs.getD base 0) := by omega
      simp only [Accumulated.overflow, hfew, hnot, false_and, false_or]
      decide
    · have hacc := accumulate_digitsOf _ hds 0 0 0 0
      rw [hds] at hlt hhead ⊢
      refine readDigits_of hacc rfl ?_ hshort minus
      rw [Nat.zero_add]
      exact Bool.eq_iff_iff.mpr ((overflow_iff hbase hbase' hlt hhead _).trans decide_eq_true_iff.symm)

end Digits

end DfewOS.NumText
