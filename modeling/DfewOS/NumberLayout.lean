import DfewOS.NumText
import DfewOS.Positional

/-!
# A number in the buffer of sprintf

The digits of a number are put into the end of a buffer of 15 characters, then its sign, and
then the padding, which ends where the buffer does. The width of a conversion is read back
from its digits.
-/

namespace DfewOS.NumText
open Positional

def hexChar (d : ℕ) : Char := Char.ofNat (if 9 < d then d + 55 else d + 48)

section Digits
variable {r i val : ℕ}

theorem putDigits_numeral (hr : 1 < r) (hr' : r ≤ 16) (hi : 0 < i) (h : val < r ^ i) (s : List Char) :
    putDigits r i val s = (numeral r val).map hexChar ++ s := by
  induction i generalizing val s with
  | zero => omega
  | succ i ih =>
    have hchar : Char.ofNat (if 57 < val % r + 48 then val % r + 48 + 7 else val % r + 48) =
        hexChar (val % r) := by
      rw [hexChar]
      by_cases hletter : 9 < val % r
      · rw [if_pos (by omega), if_pos hletter]
      · rw [if_neg (by omega), if_neg hletter]
    simp only [putDigits, hchar]
    by_cases hlast : val < r
    · rw [if_pos (Nat.div_eq_of_lt hlast), numeral_of_lt hlast, Nat.mod_eq_of_lt hlast]
      rfl
    · have hpos : 0 < i := by
        rcases Nat.eq_zero_or_pos i with rfl | hpos
        · rw [Nat.zero_add, Nat.pow_one] at h
          exact absurd h hlast
        · exact hpos
      have hquot : val / r < r ^ i := by
        rw [Nat.pow_succ] at h
        exact Nat.div_lt_of_lt_mul (by rwa [Nat.mul_comm] at h)
      have hmore : val / r ≠ 0 := by
        have hdiv : 0 < val / r := Nat.div_pos (by omega) (by omega)
        omega
      have hstep : numeral r val = numeral r (val / r) ++ [val % r] := numeral_step hr (by omega)
      rw [if_neg hmore, ih hpos hquot, hstep, List.map_append, List.append_assoc]
      rfl

theorem pad_replicate (c : Char) (w i : ℕ) (s : List Char) :
    pad c (15 - w) i s = List.replicate (i - (15 - w)) c ++ s := by
  induction i generalizing s with
  | zero =>
    rw [Nat.zero_sub]
    rfl
  | succ i ih =>
    rw [pad]
    split
    · rw [ih, show i + 1 - (15 - w) = i - (15 - w) + 1 by omega, List.replicate_succ',
        List.append_assoc]
      rfl
    · rw [show i + 1 - (15 - w) = 0 by omega]
      rfl

def signed (r : ℕ) (minus : Bool) (val : ℕ) : List Char :=
  (if minus then ['-'] else []) ++ (numeral r val).map hexChar

theorem numeral_fits (hr : r = 10 ∨ r = 16) (h : val < 2 ^ 32) : (numeral r val).length ≤ 10 := by
  rcases hr with rfl | rfl
  · exact numeral_length_le (by decide) (by decide) (lt_trans h (by decide))
  · exact numeral_length_le (by decide) (by decide) (lt_trans h (by decide))

theorem signed_length (hr : r = 10 ∨ r = 16) (h : val < 2 ^ 32) (minus : Bool) :
    (signed r minus val).length ≤ 11 := by
  have hlen := numeral_fits hr h
  rw [signed, List.length_append, List.length_map]
  cases minus <;> simp <;> omega

theorem numberText_signed (hr : r = 10 ∨ r = 16) (hval : val < 2 ^ 32) (w : ℕ) (minus zero : Bool) :
    numberText r val minus zero w =
      List.replicate (min w 15 - (signed r minus val).length) (if zero then '0' else ' ') ++
        signed r minus val := by
  have hlen := numeral_fits hr hval
  have hroom := signed_length hr hval minus
  have hdigits : putDigits r 15 val [] = (numeral r val).map hexChar := by
    have hpow : val < r ^ 15 := by
      rcases hr with rfl | rfl <;> exact lt_trans hval (by decide)
    rw [putDigits_numeral (by omega) (by omega) (by decide) hpow, List.append_nil]
  have hsigned : (if ((numeral r val).map hexChar).length < 15 ∧ minus = true
      then '-' :: (numeral r val).map hexChar else (numeral r val).map hexChar) =
      signed r minus val := by
    rw [signed, List.length_map]
    cases minus with
    | true => rw [if_pos ⟨by omega, rfl⟩]; rfl
    | false => rw [if_neg (fun h => Bool.false_ne_true h.2)]; rfl
  simp only [numberText, hdigits, hsigned]
  rw [pad_replicate, show 15 - (signed r minus val).length - (15 - w) =
    min w 15 - (signed r minus val).length by omega]

end Digits

theorem natAbs_of_not_msb {n : BitVec 32} (h : n.msb = false) : n.toInt.natAbs = n.toNat := by
  rw [BitVec.toInt_eq_msb_cond, h]
  simp

theorem natAbs_of_msb {n : BitVec 32} (h : n.msb = true) : n.toInt.natAbs = (0 - n).toNat := by
  have hlt := n.isLt
  have hpos : 2 ^ 31 ≤ n.toNat := by
    have := BitVec.msb_eq_decide n
    rw [h] at this
    simpa using this.symm
  rw [BitVec.toInt_eq_msb_cond, h, BitVec.toNat_sub]
  simp
  omega

/-! ## Reading a conversion -/

theorem hexChar_digit : ∀ d < 10, '0' ≤ hexChar d ∧ hexChar d ≤ '9' ∧ (hexChar d).toNat - 48 = d := by
  decide

theorem readWidth_digits {ds : List ℕ} (hds : ∀ d ∈ ds, d < 10) (x : ℕ) {c : Char}
    (hc : ¬ ('0' ≤ c ∧ c ≤ '9')) (rest : List Char) :
    readWidth (ds.map hexChar ++ c :: rest) x = (value 10 x ds, c :: rest) := by
  induction ds generalizing x with
  | nil =>
    rw [List.map_nil, List.nil_append, readWidth, if_neg hc]
    rfl
  | cons d ds ih =>
    obtain ⟨hlow, hhigh, hvalue⟩ := hexChar_digit d (hds d List.mem_cons_self)
    rw [List.map_cons, List.cons_append, readWidth, if_pos ⟨hlow, hhigh⟩, hvalue,
      ih fun e he => hds e (List.mem_cons_of_mem _ he)]
    rfl

def widthText (w : ℕ) : List Char := if w = 0 then [] else (numeral 10 w).map hexChar

theorem readWidth_widthText (w : ℕ) {c : Char} (hc : ¬ ('0' ≤ c ∧ c ≤ '9')) (rest : List Char) :
    readWidth (widthText w ++ c :: rest) 0 = (w, c :: rest) := by
  rw [widthText]
  split_ifs with hzero
  · rw [List.nil_append, readWidth, if_neg hc, hzero]
  · rw [readWidth_digits (fun d hd => numeral_lt (by decide) hd) 0 hc, value_numeral (by decide)]

theorem widthText_head (w : ℕ) {c : Char} (rest : List Char) (hc : c ≠ '0' ∧ c ≠ ' ' ∧ c ≠ '%') :
    ∃ x u, widthText w ++ c :: rest = x :: u ∧ x ≠ '0' ∧ x ≠ ' ' ∧ x ≠ '%' := by
  rw [widthText]
  split_ifs with hzero
  · exact ⟨c, rest, rfl, hc⟩
  · obtain ⟨d, ds, hpos, hnum⟩ := numeral_head (b := 10) (by decide) (Nat.pos_of_ne_zero hzero)
    have hlt : d < 10 := numeral_lt (by decide) (by rw [hnum]; exact List.mem_cons_self)
    have hall : ∀ d < 10, 0 < d → hexChar d ≠ '0' ∧ hexChar d ≠ ' ' ∧ hexChar d ≠ '%' := by decide
    exact ⟨hexChar d, _, by rw [hnum]; rfl, hall d hlt hpos⟩

def conversionText (zero : Bool) (w : ℕ) (long : Bool) (c : Char) : List Char :=
  (if zero then ['0'] else []) ++ (widthText w ++ ((if long then ['l'] else []) ++ [c]))

theorem skip_of_ne {p x : Char} (h : x ≠ p) (u : List Char) : skip p (x :: u) = (false, x :: u) := by
  rw [skip, List.head?_cons, if_neg fun heq => h (Option.some.inj heq)]

theorem skip_self (p : Char) (u : List Char) : skip p (p :: u) = (true, u) := by
  rw [skip, List.head?_cons, if_pos rfl, List.tail_cons]

structure TypeChar (c : Char) : Prop where
  not_digit : ¬ ('0' ≤ c ∧ c ≤ '9')
  not_long : c ≠ 'l'
  not_blank : c ≠ ' '
  not_percent : c ≠ '%'

theorem readSpec_conversionText (zero : Bool) (w : ℕ) (long : Bool) {c : Char} (hc : TypeChar c)
    (rest : List Char) :
    readSpec (conversionText zero w long c ++ rest) = ⟨zero, long, false, w, some c, rest⟩ ∧
      (conversionText zero w long c ++ rest).head? ≠ some '%' := by
  have hzero : c ≠ '0' := by
    rintro rfl
    exact hc.not_digit (by decide)
  obtain ⟨e, u, heu, he, hlong⟩ : ∃ e u, (if long then ['l'] else []) ++ c :: rest = e :: u ∧
      (¬ ('0' ≤ e ∧ e ≤ '9') ∧ e ≠ '0' ∧ e ≠ ' ' ∧ e ≠ '%') ∧
      skip 'l' (e :: u) = (long, c :: rest) := by
    cases long with
    | true => exact ⟨'l', c :: rest, rfl, by decide, skip_self ..⟩
    | false => exact ⟨c, rest, rfl, ⟨hc.not_digit, hzero, hc.not_blank, hc.not_percent⟩,
        skip_of_ne hc.not_long rest⟩
  have hlongLong : (if long then skip 'l' (c :: rest) else (false, c :: rest)) = (false, c :: rest) := by
    rw [skip_of_ne hc.not_long, ite_self]
  have htext : conversionText zero w long c ++ rest =
      (if zero then ['0'] else []) ++ (widthText w ++ e :: u) := by
    rw [conversionText, List.append_assoc, List.append_assoc, List.append_assoc, List.singleton_append, heu]
  obtain ⟨x, v, hxv, hx⟩ := widthText_head w u he.2
  have hwidth := readWidth_widthText w he.1 u
  rw [hxv] at htext hwidth
  have hskip : skip '0' ((if zero then ['0'] else []) ++ x :: v) = (zero, x :: v) := by
    cases zero with
    | true => exact skip_self ..
    | false => exact skip_of_ne hx.1 v
  constructor
  · rw [htext, readSpec]
    simp only [hskip, skip_of_ne hx.2.1, hwidth, hlong, hlongLong, List.head?_cons, List.tail_cons]
  · rw [htext]
    cases zero with
    | true => exact fun h => absurd (Option.some.inj h) (by decide)
    | false => exact fun h => hx.2.2 (Option.some.inj h)

end DfewOS.NumText
