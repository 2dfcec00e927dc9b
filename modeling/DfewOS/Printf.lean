import DfewOS.NumberLayout

/-!
# Formatting

`sprintf`, and `serialPrintf` of `serial.c`, on formats that are made of pieces. Each piece
puts out a text of its own. The number of a conversion goes through a buffer of 15
characters with its padding in front of the sign, so it is laid out as ANSI has it unless it is
to be wider than the buffer or there are zeros in front of a minus sign.
-/

namespace DfewOS.NumText
open Positional

/-! ## serialPrintf -/

/-- The characters that were given to `uart_putc`, which adds a '\r' to each '\n', and the
result of the call. -/
def serialPutc (sent : List Char) (c : Char) : List Char × ℕ := (sent ++ [c], 1)

def serialPuts (sent : List Char) : List Char → List Char × ℕ
  | [] => (sent, 0)
  | c :: s =>
    let r := serialPuts (serialPutc sent c).1 s
    (r.1, r.2 + 1)

/-- `serialPuts` reads its argument, `df_sputs` tests it for `NULL`. -/
def readsNull (sp : Spec) (args : List Arg) : Bool :=
  match sp.type, args with
  | some 's', .str none :: _ => true
  | _, _ => false

def serialPrintfFrom (str : List Char) (args : List Arg) (sent : List Char) (res : ℕ) :
    Option (List Char × ℕ) :=
  match str with
  | [] => some (sent, res)
  | c :: str =>
      if c ≠ '%' then serialPrintfFrom str args (serialPutc sent c).1 (res + 1)
      else if str.head? = some '%' then
        let r := serialPutc sent '%'
        serialPrintfFrom str.tail args r.1 (res + r.2)
      else if readsNull (readSpec str) args then none
      else
        match convert (readSpec str) args with
        | .leave => some (sent, res)
        | .text t args =>
          let r := serialPuts sent t
          serialPrintfFrom (readSpec str).rest args r.1 (res + r.2)
        | .illTyped => none
termination_by str.length
decreasing_by
  · exact Nat.lt_succ_self _
  · simp only [List.length_tail, List.length_cons]
    omega
  · exact Nat.lt_succ_of_le (readSpec_length _)

def serialPrintf (str : List Char) (args : List Arg) : Option (List Char × ℕ) :=
  serialPrintfFrom str args [] 0

theorem serialPuts_eq (sent s : List Char) : serialPuts sent s = (sent ++ s, s.length) := by
  induction s generalizing sent with
  | nil => rw [serialPuts, List.append_nil, List.length_nil]
  | cons c s ih => rw [serialPuts, serialPutc, ih, List.append_assoc, List.length_cons, List.singleton_append]

/-! ## Pieces of a format -/

inductive Kind
  | d
  | u
  | X

def Kind.char : Kind → Char
  | .d => 'd'
  | .u => 'u'
  | .X => 'X'

/-- A part of a format with the argument that it takes. The width 0 is left out. -/
inductive Piece
  | literal (c : Char)
  | percent
  | character (v : BitVec 32)
  | string (s : List Char)
  | number (k : Kind) (zero : Bool) (w : ℕ) (long : Bool) (v : BitVec 32)

namespace Piece

def text : Piece → List Char
  | literal c => [c]
  | percent => ['%', '%']
  | character _ => ['%', 'c']
  | string _ => ['%', 's']
  | number k zero w long _ => '%' :: conversionText zero w long k.char

def args : Piece → List Arg
  | literal _ => []
  | percent => []
  | character v => [.word v]
  | string s => [.str (some s)]
  | number _ _ _ _ v => [.word v]

def Valid : Piece → Prop
  | literal c => c ≠ '%' ∧ c ≠ Char.ofNat 0
  | number _ _ w _ _ => w ≤ 100
  | _ => True

end Piece

def format (ps : List Piece) : List Char := ps.flatMap Piece.text

def arguments (ps : List Piece) : List Arg := ps.flatMap Piece.args

/-! ## The ANSI layout -/

def sign (k : Kind) (v : BitVec 32) : List Char :=
  match k with
  | .d => if v.toInt < 0 then ['-'] else []
  | _ => []

def numerals (k : Kind) (v : BitVec 32) : List Char :=
  match k with
  | .d => (numeral 10 v.toInt.natAbs).map hexChar
  | .u => (numeral 10 v.toNat).map hexChar
  | .X => (numeral 16 v.toNat).map hexChar

/-- Zeros stand between the sign and the digits, blanks in front of the sign. -/
def layout (zero : Bool) (w : ℕ) (sign numerals : List Char) : List Char :=
  let n := w - (sign.length + numerals.length)
  if zero then sign ++ (List.replicate n '0' ++ numerals)
  else List.replicate n ' ' ++ (sign ++ numerals)

def Piece.ansi : Piece → List Char
  | literal c => [c]
  | percent => ['%']
  | character v => [Char.ofNat (v.toNat % 256)]
  | string s => s
  | number k zero w _ v => layout zero w (sign k v) (numerals k v)

/-- The calls put out what ANSI has them put out, and the number of characters. -/
def LaidOut (ps : List Piece) : Prop :=
  let t := ps.flatMap Piece.ansi
  sprintf (format ps) (arguments ps) = some (t, t.length) ∧
    (serialPrintf (format ps) (arguments ps)).map Prod.fst = some t

/-! ## What the code puts out -/

def Piece.put : Piece → List Char
  | literal c => [c]
  | percent => ['%']
  | character v => [Char.ofNat (v.toNat % 256)]
  | string s => s
  | number k zero w _ v =>
    List.replicate (min w 15 - (sign k v ++ numerals k v).length) (if zero then '0' else ' ') ++
      (sign k v ++ numerals k v)

section Number
variable {v : BitVec 32}

theorem toInt_neg_iff : v.toInt < 0 ↔ v.msb = true := by
  rw [BitVec.msb_eq_toInt, decide_eq_true_iff]

theorem signed_minus (h : v.msb = true) : sign .d v ++ numerals .d v = signed 10 true (0 - v).toNat := by
  rw [sign, if_pos (toInt_neg_iff.mpr h), numerals, natAbs_of_msb h]
  rfl

theorem signed_plus (h : ¬ v.msb = true) : sign .d v ++ numerals .d v = signed 10 false v.toNat := by
  rw [sign, if_neg (fun hneg => h (toInt_neg_iff.mp hneg)), numerals,
    natAbs_of_not_msb (Bool.eq_false_iff.mpr h)]
  rfl

theorem putNumber_eq (k : Kind) (v : BitVec 32) (sp : Spec) : putNumber k.char sp v =
    List.replicate (min sp.w 15 - (sign k v ++ numerals k v).length) (if sp.zero then '0' else ' ') ++
      (sign k v ++ numerals k v) := by
  cases k with
  | d =>
    rw [putNumber]
    by_cases hminus : v.msb = true
    · rw [if_pos ⟨rfl, hminus⟩, signed_minus hminus]
      exact numberText_signed (Or.inl rfl) (0 - v).isLt sp.w true sp.zero
    · rw [if_neg fun h => hminus h.2, signed_plus hminus]
      exact numberText_signed (Or.inl rfl) v.isLt sp.w false sp.zero
  | u => exact numberText_signed (Or.inl rfl) v.isLt sp.w false sp.zero
  | X => exact numberText_signed (Or.inr rfl) v.isLt sp.w false sp.zero

end Number

section Steps
variable {str buff t : List Char} {as as' : List Arg} {res w : ℕ} {zero long : Bool} {c : Char}
  {p : Piece} {ps : List Piece}

theorem Kind.typeChar (k : Kind) : TypeChar k.char := by
  cases k <;> constructor <;> decide

theorem typeChar_c : TypeChar 'c' := by constructor <;> decide

theorem typeChar_s : TypeChar 's' := by constructor <;> decide

theorem sprintf_conversionText (zero : Bool) (w : ℕ) (long : Bool) (hc : TypeChar c)
    (ht : convert ⟨zero, long, false, w, some c, str⟩ as = .text t as') :
    sprintfFrom ('%' :: (conversionText zero w long c ++ str)) as buff res =
      sprintfFrom str as' (buff ++ t) (res + t.length) := by
  obtain ⟨hspec, hhead⟩ := readSpec_conversionText zero w long hc str
  rw [sprintfFrom, if_neg (fun h => h rfl), if_neg hhead, hspec]
  simp only [ht]

theorem serialPrintf_conversionText (zero : Bool) (w : ℕ) (long : Bool) (hc : TypeChar c)
    (hnull : readsNull ⟨zero, long, false, w, some c, str⟩ as = false)
    (ht : convert ⟨zero, long, false, w, some c, str⟩ as = .text t as') :
    serialPrintfFrom ('%' :: (conversionText zero w long c ++ str)) as buff res =
      serialPrintfFrom str as' (buff ++ t) (res + t.length) := by
  obtain ⟨hspec, hhead⟩ := readSpec_conversionText zero w long hc str
  rw [serialPrintfFrom, if_neg (fun h => h rfl), if_neg hhead, hspec, hnull]
  simp only [Bool.false_eq_true, if_false, ht, serialPuts_eq]

theorem convert_number (k : Kind) (v : BitVec 32) :
    convert ⟨zero, long, false, w, some k.char, str⟩ (.word v :: as) =
      .text (Piece.put (.number k zero w long v)) as := by
  have htext := putNumber_eq k v ⟨zero, long, false, w, some k.char, str⟩
  have hkind : k.char ≠ 's' ∧ k.char ≠ 'c' ∧ radix k.char ≠ 0 := by
    cases k <;> decide
  simp only [convert, if_neg hkind.1, if_neg hkind.2.1, if_neg hkind.2.2, Bool.false_eq_true, if_false,
    htext]
  rfl

theorem readsNull_number (k : Kind) (v : BitVec 32) :
    readsNull ⟨zero, long, false, w, some k.char, str⟩ (.word v :: as) = false := by
  cases k <;> rfl

theorem sprintf_piece (hp : p.Valid) :
    sprintfFrom (p.text ++ str) (p.args ++ as) buff res =
      sprintfFrom str as (buff ++ p.put) (res + p.put.length) := by
  cases p with
  | literal c =>
    rw [Piece.text, List.singleton_append, sprintfFrom, if_pos hp.1]
    rfl
  | percent =>
    have hhead : ('%' :: str).head? = some '%' := rfl
    change sprintfFrom ('%' :: '%' :: str) as buff res = _
    rw [sprintfFrom, if_neg (fun h => h rfl), if_pos hhead]
    rfl
  | character v => exact sprintf_conversionText false 0 false typeChar_c rfl
  | string s => exact sprintf_conversionText false 0 false typeChar_s rfl
  | number k zero w long v => exact sprintf_conversionText zero w long k.typeChar (convert_number k v)

theorem serialPrintf_piece (hp : p.Valid) :
    serialPrintfFrom (p.text ++ str) (p.args ++ as) buff res =
      serialPrintfFrom str as (buff ++ p.put) (res + p.put.length) := by
  cases p with
  | literal c =>
    rw [Piece.text, List.singleton_append, serialPrintfFrom, if_pos hp.1]
    rfl
  | percent =>
    have hhead : ('%' :: str).head? = some '%' := rfl
    change serialPrintfFrom ('%' :: '%' :: str) as buff res = _
    rw [serialPrintfFrom, if_neg (fun h => h rfl), if_pos hhead]
    rfl
  | character v => exact serialPrintf_conversionText false 0 false typeChar_c rfl rfl
  | string s => exact serialPrintf_conversionText false 0 false typeChar_s rfl rfl
  | number k zero w long v =>
    exact serialPrintf_conversionText zero w long k.typeChar (readsNull_number k v) (convert_number k v)

theorem sprintf_pieces (hps : ∀ p ∈ ps, p.Valid) (buff : List Char) (res : ℕ) :
    sprintfFrom (format ps) (arguments ps) buff res =
      some (buff ++ ps.flatMap Piece.put, res + (ps.flatMap Piece.put).length) := by
  induction ps generalizing buff res with
  | nil =>
    rw [format, List.flatMap_nil, sprintfFrom, List.flatMap_nil, List.append_nil]
    rfl
  | cons p ps ih =>
    have hrest := ih (fun q hq => hps q (List.mem_cons_of_mem _ hq)) (buff ++ p.put) (res + p.put.length)
    rw [format, arguments, List.flatMap_cons, List.flatMap_cons, sprintf_piece (hps p List.mem_cons_self)]
    rw [List.flatMap_cons, List.length_append, ← List.append_assoc, ← Nat.add_assoc]
    exact hrest

theorem serialPrintf_pieces (hps : ∀ p ∈ ps, p.Valid) (sent : List Char) (res : ℕ) :
    serialPrintfFrom (format ps) (arguments ps) sent res =
      some (sent ++ ps.flatMap Piece.put, res + (ps.flatMap Piece.put).length) := by
  induction ps generalizing sent res with
  | nil =>
    rw [format, List.flatMap_nil, serialPrintfFrom, List.flatMap_nil, List.append_nil]
    rfl
  | cons p ps ih =>
    have hrest := ih (fun q hq => hps q (List.mem_cons_of_mem _ hq)) (sent ++ p.put) (res + p.put.length)
    rw [format, arguments, List.flatMap_cons, List.flatMap_cons,
      serialPrintf_piece (hps p List.mem_cons_self)]
    rw [List.flatMap_cons, List.length_append, ← List.append_assoc, ← Nat.add_assoc]
    exact hrest

end Steps

/-! ## Where the layouts agree -/

/-- The number is not to be wider than the buffer, and no zeros go in front of a minus sign. -/
def Piece.Plain : Piece → Prop
  | number k zero w _ v =>
    w ≤ 15 ∧ ¬ (zero = true ∧ sign k v = ['-'] ∧ (sign k v ++ numerals k v).length < w)
  | _ => True

section Agree
variable {p : Piece} {ps : List Piece}

theorem sign_cases (k : Kind) (v : BitVec 32) : sign k v = [] ∨ sign k v = ['-'] := by
  cases k with
  | d =>
    rw [sign]
    split_ifs
    · exact Or.inr rfl
    · exact Or.inl rfl
  | u => exact Or.inl rfl
  | X => exact Or.inl rfl

theorem signed_short (k : Kind) (v : BitVec 32) : (sign k v ++ numerals k v).length ≤ 11 := by
  cases k with
  | d =>
    by_cases hminus : v.msb = true
    · rw [signed_minus hminus]
      exact signed_length (Or.inl rfl) (0 - v).isLt true
    · rw [signed_plus hminus]
      exact signed_length (Or.inl rfl) v.isLt false
  | u => exact signed_length (Or.inl rfl) v.isLt false
  | X => exact signed_length (Or.inr rfl) v.isLt false

theorem layout_length (zero : Bool) (w : ℕ) (sign numerals : List Char) :
    (layout zero w sign numerals).length = max w (sign ++ numerals).length := by
  rw [layout]
  cases zero <;> simp <;> omega

theorem put_length (k : Kind) (zero : Bool) (w : ℕ) (long : Bool) (v : BitVec 32) :
    (Piece.put (.number k zero w long v)).length = max (min w 15) (sign k v ++ numerals k v).length := by
  rw [Piece.put, List.length_append, List.length_replicate]
  omega

theorem put_length_le (p : Piece) : p.put.length ≤ p.ansi.length := by
  cases p with
  | number k zero w long v =>
    rw [put_length, Piece.ansi, layout_length]
    omega
  | _ => exact le_rfl

theorem zeros_minus {n : ℕ} (hn : 0 < n) (ds : List Char) :
    List.replicate n '0' ++ (['-'] ++ ds) ≠ ['-'] ++ (List.replicate n '0' ++ ds) := by
  obtain ⟨n, rfl⟩ : ∃ m, n = m + 1 := ⟨n - 1, by omega⟩
  intro h
  rw [List.replicate_succ, List.cons_append, List.singleton_append] at h
  exact absurd (List.cons.inj h).1 (by decide)

theorem put_eq_ansi_iff (p : Piece) : p.put = p.ansi ↔ p.Plain := by
  cases p with
  | number k zero w long v =>
    have hshort := signed_short k v
    have hsum : (sign k v).length + (numerals k v).length = (sign k v ++ numerals k v).length :=
      (List.length_append ..).symm
    by_cases hw : w ≤ 15
    · rw [Piece.put, Piece.ansi, layout, hsum, Nat.min_eq_left hw, Piece.Plain, and_iff_right hw]
      cases zero with
      | false => exact iff_of_true rfl fun h => Bool.false_ne_true h.1
      | true =>
        simp only [if_true, true_and]
        rcases sign_cases k v with hsign | hsign
        · rw [hsign]
          exact iff_of_true rfl fun h => List.cons_ne_nil _ _ h.1.symm
        · rw [hsign, and_iff_right rfl]
          rcases Nat.eq_zero_or_pos (w - (['-'] ++ numerals k v).length) with hnone | hsome
          · rw [hnone]
            exact iff_of_true rfl (by omega)
          · exact iff_of_false (zeros_minus hsome _) (by omega)
    · refine iff_of_false (fun h => ?_) fun h => hw h.1
      have hlen := congrArg List.length h
      rw [put_length, Piece.ansi, layout_length] at hlen
      omega
  | _ => exact iff_of_true rfl trivial

theorem flatMap_length_le (ps : List Piece) {f g : Piece → List Char} (hle : ∀ p, (f p).length ≤ (g p).length) :
    (ps.flatMap f).length ≤ (ps.flatMap g).length := by
  induction ps with
  | nil => exact le_rfl
  | cons p ps ih =>
    rw [List.flatMap_cons, List.flatMap_cons, List.length_append, List.length_append]
    exact Nat.add_le_add (hle p) ih

theorem flatMap_agree {f g : Piece → List Char} (hle : ∀ p, (f p).length ≤ (g p).length) :
    ps.flatMap f = ps.flatMap g ↔ ∀ p ∈ ps, f p = g p := by
  induction ps with
  | nil => exact iff_of_true rfl fun p hp => absurd hp List.not_mem_nil
  | cons p ps ih =>
    rw [List.flatMap_cons, List.flatMap_cons, List.forall_mem_cons, ← ih]
    constructor
    · intro h
      have hlen := congrArg List.length h
      have hrest := flatMap_length_le ps hle
      have hfirst := hle p
      rw [List.length_append, List.length_append] at hlen
      exact List.append_inj h (by omega)
    · rintro ⟨hfirst, hrest⟩
      rw [hfirst, hrest]

end Agree

theorem laidOut_iff {ps : List Piece} (hps : ∀ p ∈ ps, p.Valid) : LaidOut ps ↔ ∀ p ∈ ps, p.Plain := by
  have hagree : ps.flatMap Piece.put = ps.flatMap Piece.ansi ↔ ∀ p ∈ ps, p.Plain := by
    rw [flatMap_agree put_length_le]
    exact forall₂_congr fun p _ => put_eq_ansi_iff p
  rw [← hagree, LaidOut, sprintf, sprintf_pieces hps, serialPrintf, serialPrintf_pieces hps]
  simp only [List.nil_append, Nat.zero_add, Option.some.injEq, Prod.mk.injEq, Option.map_some]
  constructor
  · exact fun h => h.2
  · intro h
    exact ⟨⟨h, by rw [h]⟩, h⟩

/-- `sprintf` and `serialPrintf` lay numbers out as ANSI has it unless one is to be wider than
15 characters or is negative and filled up with zeros. -/
theorem printf_layout (ps : List Piece) (hps : ∀ p ∈ ps, p.Valid) :
    LaidOut ps ↔ ∀ p ∈ ps, p.Plain :=
  laidOut_iff hps

theorem printf_layout_example : LaidOut [.literal 'n', .number .d false 5 true 0xffffffff, .percent] :=
  (printf_layout _ (by simp [Piece.Valid])).mpr (by
    simp [Piece.Plain])

/-- `%03d` of -5 is "0-5", and `%16u` of 1 has 15 characters. -/
theorem printf_zeros_minus : ¬ LaidOut [.number .d true 3 false (-5)] ∧
    ¬ LaidOut [.number .u false 16 false 1] := by
  have hminus : sign .d (-5) = ['-'] := rfl
  have hfive : numerals .d (-5) = ['5'] := by
    rw [numerals, show (-5 : BitVec 32).toInt.natAbs = 5 from rfl, numeral_of_lt (by decide)]
    rfl
  constructor
  · intro h
    have hplain := (laidOut_iff (by simp [Piece.Valid])).mp h _ List.mem_cons_self
    exact hplain.2 ⟨rfl, hminus, by rw [hminus, hfive]; decide⟩
  · intro h
    have hplain := (laidOut_iff (by simp [Piece.Valid])).mp h _ List.mem_cons_self
    exact absurd hplain.1 (by decide)

end DfewOS.NumText
