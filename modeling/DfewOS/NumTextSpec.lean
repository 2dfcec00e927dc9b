import DfewOS.NumberLayout
import DfewOS.Stoul
import Mathlib.Data.List.TakeWhile

/-!
# Printing a number and reading it back

`sprintf` prints the decimal digits of a number, with a sign and padding in front of them.
`atoi` reads blanks, a sign and digits, but takes a number that begins with 0 for an octal
one: a text that was padded with zeros comes back only if it has one octal digit.
-/

namespace DfewOS.NumText
open Positional

/-! ## What is printed -/

def digitChar (d : ℕ) : Char := Char.ofNat (d + 48)

def plain (minus : Bool) (val : ℕ) : List Char :=
  (if minus then ['-'] else []) ++ (numeral 10 val).map digitChar

theorem plain_eq (minus : Bool) (val : ℕ) : plain minus val = signed 10 minus val := by
  have hall : ∀ d < 10, digitChar d = hexChar d := by decide
  rw [plain, signed, List.map_congr_left fun d hd => hall d (numeral_lt (by decide) hd)]

theorem numberText_eq {val w : ℕ} (hval : val < 2 ^ 32) (hw : w ≤ 15) (minus zero : Bool) :
    numberText 10 val minus zero w =
      List.replicate (w - (plain minus val).length) (if zero then '0' else ' ') ++
        plain minus val := by
  rw [numberText_signed (Or.inl rfl) hval, Nat.min_eq_left hw, plain_eq]

/-- The sign and the digits of a 32-bit `int`. -/
def plainOf (n : BitVec 32) : List Char := plain n.msb n.toInt.natAbs

def conversion (zero : Bool) (w : ℕ) : List Char :=
  '%' :: ((if zero then ['0'] else []) ++ (if w = 0 then [] else Nat.toDigits 10 w) ++ ['d'])

theorem readSpec_conversion : ∀ zero, ∀ w < 16,
    (conversion zero w).tail.head? ≠ some '%' ∧
      readSpec (conversion zero w).tail = ⟨zero, false, false, w, some 'd', []⟩ := by
  decide

theorem sprintf_conversion (zero : Bool) {w : ℕ} (hw : w ≤ 15) (n : BitVec 32) :
    sprintf (conversion zero w) [.word n] =
      some (List.replicate (w - (plainOf n).length) (if zero then '0' else ' ') ++ plainOf n,
        (List.replicate (w - (plainOf n).length) (if zero then '0' else ' ') ++
          plainOf n).length) := by
  obtain ⟨hpercent, hspec⟩ := readSpec_conversion zero w (by omega)
  have htext : putNumber 'd' ⟨zero, false, false, w, some 'd', []⟩ n =
      List.replicate (w - (plainOf n).length) (if zero then '0' else ' ') ++ plainOf n := by
    cases hmsb : n.msb with
    | true =>
      have hplain : plainOf n = plain true (0 - n).toNat := by
        rw [plainOf, hmsb, natAbs_of_msb hmsb]
      rw [putNumber, hmsb, if_pos ⟨rfl, rfl⟩, hplain]
      exact numberText_eq (0 - n).isLt hw true zero
    | false =>
      have hplain : plainOf n = plain false n.toNat := by
        rw [plainOf, hmsb, natAbs_of_not_msb hmsb]
      rw [putNumber, hmsb, if_neg (fun h => Bool.false_ne_true h.2), hplain]
      exact numberText_eq n.isLt hw false zero
  have hconvert : convert ⟨zero, false, false, w, some 'd', []⟩ [.word n] =
      .text (putNumber 'd' ⟨zero, false, false, w, some 'd', []⟩ n) [] := rfl
  have hcons : conversion zero w = '%' :: (conversion zero w).tail := rfl
  rw [sprintf, hcons, sprintfFrom, if_neg (fun h => h rfl), if_neg hpercent, hspec]
  simp only [hconvert, htext]
  rw [sprintfFrom, List.nil_append, Nat.zero_add]

/-! ## What is read -/

theorem digitIn_digitChar {base : ℕ} (hbase : base = 8 ∨ base = 10) {d : ℕ} (hd : d < 10) :
    digitIn base (digitChar d) = if d < base then some d else none := by
  rcases hbase with rfl | rfl
  · have hall : ∀ d < 10, digitIn 8 (digitChar d) = if d < 8 then some d else none := by decide
    exact hall d hd
  · have hall : ∀ d < 10, digitIn 10 (digitChar d) = if d < 10 then some d else none := by
      decide
    exact hall d hd

theorem digitsOf_numerals {base : ℕ} (hbase : base = 8 ∨ base = 10) {ds : List ℕ}
    (hds : ∀ d ∈ ds, d < 10) : digitsOf base (ds.map digitChar) = ds.takeWhile (· < base) := by
  induction ds with
  | nil => rfl
  | cons d ds ih =>
    have hd := digitIn_digitChar hbase (hds d List.mem_cons_self)
    rw [List.map_cons, digitsOf, hd]
    by_cases hlt : d < base
    · rw [if_pos hlt, List.takeWhile_cons_of_pos (by simpa using hlt),
        ih fun e he => hds e (List.mem_cons_of_mem _ he)]
    · rw [if_neg hlt, List.takeWhile_cons_of_neg (by simpa using hlt)]

theorem wrapped_of_lt {m : ℕ} (hm : m < 2 ^ 32) (minus : Bool) :
    wrapped minus m = if minus then -BitVec.ofNat 32 m else BitVec.ofNat 32 m := by
  simp only [wrapped, if_neg (Nat.not_le.mpr hm)]

theorem readDigits_decimal {m : ℕ} (hm : m < 2 ^ 32) (minus : Bool) :
    (readDigits 10 minus ((numeral 10 m).map digitChar)).val =
      if minus then -BitVec.ofNat 32 m else BitVec.ofNat 32 m := by
  have hall : ∀ d ∈ numeral 10 m, d < 10 := fun d hd => numeral_lt (by decide) hd
  have hdigits : digitsOf 10 ((numeral 10 m).map digitChar) = numeral 10 m := by
    rw [digitsOf_numerals (Or.inr rfl) hall, List.takeWhile_eq_self_iff.mpr (by simpa using hall)]
  rw [readDigits_eq (by decide) (by decide), hdigits, if_neg (numeral_ne_nil (by decide) m),
    value_numeral (by decide)]
  exact wrapped_of_lt hm minus

theorem value_zeros (k : ℕ) (s : List Char) :
    value 8 0 (digitsOf 8 (List.replicate k '0' ++ s)) = value 8 0 (digitsOf 8 s) := by
  induction k with
  | zero => rfl
  | succ k ih =>
    rw [List.replicate_succ, List.cons_append, digitsOf, digitIn_zero (by decide) (by decide)]
    exact ih

theorem readDigits_octal (k : ℕ) (s : List Char) (minus : Bool) :
    (readDigits 8 minus (List.replicate (k + 1) '0' ++ s)).val =
      wrapped minus (value 8 0 (digitsOf 8 s)) := by
  have hsome : digitsOf 8 (List.replicate (k + 1) '0' ++ s) ≠ [] := by
    rw [List.replicate_succ, List.cons_append, digitsOf, digitIn_zero (by decide) (by decide)]
    exact List.cons_ne_nil _ _
  rw [readDigits_eq (by decide) (by decide), if_neg hsome, value_zeros]

/-! ## atoi on printed texts -/

theorem atoi_blanks (k : ℕ) (s : List Char) : atoi (List.replicate k ' ' ++ s) = atoi s := by
  have hdrop : (List.replicate k ' ' ++ s).dropWhile isspace = s.dropWhile isspace := by
    rw [List.dropWhile_append]
    have hblanks : (List.replicate k ' ').dropWhile isspace = [] := by
      simp [isspace]
    rw [hblanks]
    rfl
  rw [atoi, atoi, stoul, stoul, hdrop]

theorem atoi_unsigned {c : Char} {s : List Char} (hspace : isspace c = false) (hminus : c ≠ '-')
    (hplus : c ≠ '+') :
    atoi (c :: s) = (readDigits (getBase 0 (c :: s)).1 false (getBase 0 (c :: s)).2).val := by
  have hdrop : (c :: s).dropWhile isspace = c :: s :=
    List.dropWhile_cons_of_neg (by simp [hspace])
  simp only [atoi, stoul, hdrop]
  simp [hminus, hplus]

theorem atoi_minus (s : List Char) :
    atoi ('-' :: s) = (readDigits (getBase 0 s).1 true (getBase 0 s).2).val := by
  have hdrop : ('-' :: s).dropWhile isspace = '-' :: s :=
    List.dropWhile_cons_of_neg (by decide)
  simp only [atoi, stoul, hdrop]
  simp

theorem getBase_decimal {s : List Char} (h : s.head? ≠ some '0') : getBase 0 s = (10, s) := by
  simp [getBase, h]

theorem getBase_octal (k : ℕ) {s : List Char} (hx : s.head? ≠ some 'x')
    (hX : s.head? ≠ some 'X') :
    getBase 0 (List.replicate (k + 1) '0' ++ s) =
      (8, List.replicate (k + 1) '0' ++ s) := by
  have hmark : hexMark (List.replicate (k + 1) '0' ++ s) = false := by
    cases k with
    | zero => simp [hexMark, hx, hX]
    | succ k => simp [hexMark, List.replicate_succ]
  rw [getBase, hmark]
  simp [List.replicate_succ]

theorem atoi_zeros (k : ℕ) {s : List Char} (hx : s.head? ≠ some 'x') (hX : s.head? ≠ some 'X') :
    atoi (List.replicate (k + 1) '0' ++ s) = wrapped false (value 8 0 (digitsOf 8 s)) := by
  have hcons : List.replicate (k + 1) '0' ++ s = '0' :: (List.replicate k '0' ++ s) := by
    rw [List.replicate_succ, List.cons_append]
  rw [hcons, atoi_unsigned (by decide) (by decide) (by decide), ← hcons, getBase_octal k hx hX]
  exact readDigits_octal k s false

theorem digits_head {m : ℕ} (hpos : 0 < m) :
    ∃ d ds, 0 < d ∧ d < 10 ∧ numeral 10 m = d :: ds ∧
      digitChar d ∉ ['0', 'x', 'X', '-', '+'] ∧ isspace (digitChar d) = false := by
  obtain ⟨d, ds, hd, hhead⟩ := numeral_head (by decide : 1 < 10) hpos
  have hlt : d < 10 := numeral_lt (by decide) (by rw [hhead]; simp)
  have hall : ∀ d < 10, 0 < d → digitChar d ∉ ['0', 'x', 'X', '-', '+'] ∧
      isspace (digitChar d) = false := by decide
  obtain ⟨hchar, hspace⟩ := hall d hlt hd
  exact ⟨d, ds, hd, hlt, hhead, hchar, hspace⟩

/-- The decimal digits of a number from 8 on are less when they are read in base 8. -/
theorem value_octal_lt {m : ℕ} (h : 8 ≤ m) :
    value 8 0 ((numeral 10 m).takeWhile (· < 8)) < m := by
  obtain ⟨d, ds, hd, hhead⟩ := numeral_head (by decide : 1 < 10) (by omega : 0 < m)
  have hdecimal := value_numeral (by decide : 1 < 10) m
  rw [hhead] at hdecimal ⊢
  have hmore : 8 ≤ d ∨ ds ≠ [] := by
    by_contra hone
    rw [not_or, not_not] at hone
    have hd' : d = m := by simpa [hone.2, value] using hdecimal
    omega
  calc value 8 0 ((d :: ds).takeWhile (· < 8)) < value 10 0 (d :: ds) :=
        value_takeWhile_lt (by decide) (by decide) hd hmore
    _ = m := hdecimal

theorem ofNat_natAbs (n : BitVec 32) :
    n = if n.msb then -BitVec.ofNat 32 n.toInt.natAbs else BitVec.ofNat 32 n.toInt.natAbs := by
  cases hmsb : n.msb with
  | true =>
    rw [if_pos rfl, natAbs_of_msb hmsb, BitVec.ofNat_toNat, BitVec.setWidth_eq]
    simp
  | false =>
    rw [if_neg Bool.false_ne_true, natAbs_of_not_msb hmsb, BitVec.ofNat_toNat, BitVec.setWidth_eq]

theorem natAbs_lt (n : BitVec 32) : n.toInt.natAbs < 2 ^ 32 := by
  cases hmsb : n.msb with
  | true =>
    rw [natAbs_of_msb hmsb]
    exact (0 - n).isLt
  | false =>
    rw [natAbs_of_not_msb hmsb]
    exact n.isLt

theorem natAbs_pos_of_msb {n : BitVec 32} (h : n.msb = true) : 0 < n.toInt.natAbs := by
  have hlt := n.isLt
  rw [BitVec.toInt_eq_msb_cond, if_pos h]
  omega

theorem atoi_plain (n : BitVec 32) : atoi (plainOf n) = n := by
  have hlt := natAbs_lt n
  have hn := ofNat_natAbs n
  by_cases hzero : n.toInt.natAbs = 0
  · have hmsb : n.msb = false := by
      cases hmsb : n.msb with
      | true => exact absurd (natAbs_pos_of_msb hmsb) (by omega)
      | false => rfl
    rw [hmsb, if_neg Bool.false_ne_true, hzero] at hn
    rw [hn]
    decide
  · obtain ⟨d, ds, hd, hd', hhead, hchar, hspace⟩ := digits_head (by omega : 0 < n.toInt.natAbs)
    simp only [List.mem_cons, not_or] at hchar
    have hfirst : ((numeral 10 n.toInt.natAbs).map digitChar).head? ≠ some '0' := by
      rw [hhead]
      simpa using hchar.1
    have hread := readDigits_decimal hlt n.msb
    rw [← hn] at hread
    cases hmsb : n.msb with
    | true =>
      rw [hmsb] at hread
      have hplain : plainOf n = '-' :: (numeral 10 n.toInt.natAbs).map digitChar := by
        rw [plainOf, hmsb]
        rfl
      rw [hplain, atoi_minus, getBase_decimal hfirst]
      exact hread
    | false =>
      rw [hmsb] at hread
      have hplain : plainOf n = (numeral 10 n.toInt.natAbs).map digitChar := by
        rw [plainOf, hmsb]
        rfl
      rw [hhead, List.map_cons] at hread hfirst hplain
      rw [hplain, atoi_unsigned hspace hchar.2.2.2.1 hchar.2.2.2.2.1, getBase_decimal hfirst]
      exact hread

theorem atoi_zero_padded (k : ℕ) (n : BitVec 32) :
    atoi (List.replicate (k + 1) '0' ++ plainOf n) = n ↔ 0 ≤ n.toInt ∧ n.toInt < 8 := by
  cases hmsb : n.msb with
  | true =>
    have hpos := natAbs_pos_of_msb hmsb
    have hplain : plainOf n = '-' :: (numeral 10 n.toInt.natAbs).map digitChar := by
      rw [plainOf, hmsb]
      rfl
    have hread : atoi (List.replicate (k + 1) '0' ++ plainOf n) = 0 := by
      rw [hplain, atoi_zeros k (by simp) (by simp)]
      rfl
    have hneg : n.toInt < 0 := by
      rw [BitVec.toInt_eq_msb_cond, hmsb]
      have := n.isLt
      simp
      omega
    rw [hread]
    constructor
    · intro h
      rw [← h] at hneg
      exact absurd hneg (by decide)
    · intro h
      omega
  | false =>
    have hint : n.toInt = n.toNat := by
      rw [BitVec.toInt_eq_msb_cond, hmsb]
      rfl
    have hplain : plainOf n = (numeral 10 n.toNat).map digitChar := by
      rw [plainOf, hmsb, natAbs_of_not_msb hmsb]
      rfl
    rw [hint, hplain]
    by_cases hzero : n.toNat = 0
    · have htext : List.replicate (k + 1) '0' ++ (numeral 10 n.toNat).map digitChar =
          List.replicate (k + 1 + 1) '0' ++ [] := by
        rw [hzero, List.append_nil, List.replicate_succ' (n := k + 1)]
        rfl
      have hn : n = 0 := BitVec.eq_of_toNat_eq hzero
      rw [htext, atoi_zeros (k + 1) (by simp) (by simp), hn]
      decide
    · obtain ⟨d, ds, hd, hd', hhead, hchar, hspace⟩ := digits_head (by omega : 0 < n.toNat)
      simp only [List.mem_cons, not_or] at hchar
      have hall : ∀ e ∈ numeral 10 n.toNat, e < 10 := fun e he => numeral_lt (by decide) he
      have hread : atoi (List.replicate (k + 1) '0' ++ (numeral 10 n.toNat).map digitChar) =
          wrapped false (value 8 0 ((numeral 10 n.toNat).takeWhile (· < 8))) := by
        rw [atoi_zeros k (by rw [hhead]; simpa using hchar.2.1) (by rw [hhead]; simpa using hchar.2.2.1),
          digitsOf_numerals (Or.inl rfl) hall]
      rw [hread]
      by_cases hsmall : n.toNat < 8
      · have hnum : numeral 10 n.toNat = [n.toNat] := numeral_of_lt (by omega)
        have hvalue : value 8 0 [n.toNat] = n.toNat := by
          rw [value, List.foldl_cons, List.foldl_nil, Nat.zero_mul, Nat.zero_add]
        rw [hnum, List.takeWhile_cons_of_pos (by simpa using hsmall), List.takeWhile_nil, hvalue,
          wrapped_of_lt n.isLt]
        exact iff_of_true (by simp) (by omega)
      · have hless := value_octal_lt (by omega : 8 ≤ n.toNat)
        rw [wrapped_of_lt (lt_trans hless n.isLt)]
        refine iff_of_false (fun h => ?_) (by omega)
        have hnat := congrArg BitVec.toNat h
        rw [if_neg Bool.false_ne_true, BitVec.toNat_ofNat, Nat.mod_eq_of_lt (lt_trans hless n.isLt)] at hnat
        omega

/-! ## The round trip -/

/-- The text of a number under a conversion is read back as the number. -/
def RoundTrip (zero : Bool) (w : ℕ) (n : BitVec 32) : Prop :=
  ∃ text res, sprintf (conversion zero w) [.word n] = some (text, res) ∧
    atoi text = n ∧ sscanf text "%d".toList = n

/-- A number is read back unless zeros are put in front of it, and then if it has one
octal digit. -/
theorem print_read (zero : Bool) (w : ℕ) (hw : w ≤ 15) (n : BitVec 32) :
    RoundTrip zero w n ↔
      zero = false ∨ w ≤ (plainOf n).length ∨ (0 ≤ n.toInt ∧ n.toInt < 8) := by
  have hscan : ∀ text, sscanf text "%d".toList = atoi text := fun text => by
    rw [sscanf, if_pos (Or.inl rfl)]
  have htrip : RoundTrip zero w n ↔ atoi (List.replicate (w - (plainOf n).length)
      (if zero then '0' else ' ') ++ plainOf n) = n := by
    rw [RoundTrip]
    simp only [hscan, sprintf_conversion zero hw n, Option.some.injEq, Prod.mk.injEq]
    constructor
    · rintro ⟨text, res, ⟨rfl, rfl⟩, h, -⟩
      exact h
    · intro h
      exact ⟨_, _, ⟨rfl, rfl⟩, h, h⟩
  rw [htrip]
  cases zero with
  | false =>
    have hread := atoi_blanks (w - (plainOf n).length) (plainOf n)
    simp [hread, atoi_plain]
  | true =>
    by_cases hfits : w ≤ (plainOf n).length
    · rw [show w - (plainOf n).length = 0 by omega]
      simp [hfits, atoi_plain]
    · obtain ⟨k, hk⟩ : ∃ k, w - (plainOf n).length = k + 1 :=
        ⟨w - (plainOf n).length - 1, by omega⟩
      rw [hk]
      simp only [if_true, atoi_zero_padded k n, hfits]
      simp

theorem print_read_seven : RoundTrip true 2 7 :=
  (print_read true 2 (by decide) 7).mpr (Or.inr (Or.inr (by decide)))

/-- The 8th month as the date command prints it. -/
theorem eighth_month_not_read : ¬ RoundTrip true 2 8 := by
  rintro ⟨text, res, hprint, hread, -⟩
  have htext : sprintf (conversion true 2) [.word 8] = some ("08".toList, 2) :=
    sprintf_conversion true (by decide) 8
  rw [htext, Option.some.injEq, Prod.mk.injEq] at hprint
  rw [← hprint.1] at hread
  exact absurd hread (by decide)

end DfewOS.NumText
