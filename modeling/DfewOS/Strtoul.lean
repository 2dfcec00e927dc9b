import DfewOS.Stoul
import Mathlib.Data.List.TakeWhile

/-!
# _Stoul and the ANSI function

The ANSI function reads the longest text that is made of blanks, a sign, the mark `0x` of base
16 and at least one digit, and nothing if there is none. `_Stoul` takes a `0x` for the mark
before it has seen a digit, does not go back to the beginning if there are no digits, and
negates the number that stands for an overflow.
-/

namespace DfewOS.NumText
open Positional

/-! ## The ANSI function -/

def baseOf (base : ℕ) (mark digits : List Char) : ℕ :=
  if base ≠ 0 then base
  else if mark ≠ [] then 16
  else if digits.head? = some '0' then 8
  else 10

structure Body (base : ℕ) (t mark digits rest : List Char) : Prop where
  split : t = mark ++ (digits ++ rest)
  marked : mark = [] ∨ ((mark = ['0', 'x'] ∨ mark = ['0', 'X']) ∧ (base = 0 ∨ base = 16))
  nonempty : digits ≠ []
  digit : ∀ c ∈ digits, ∃ d < baseOf base mark digits, digitValue c = some d

structure Subject (base : ℕ) (s blanks sign mark digits rest : List Char) : Prop where
  split : s = blanks ++ (sign ++ (mark ++ (digits ++ rest)))
  blank : ∀ c ∈ blanks, isspace c = true
  signed : sign = [] ∨ sign = ['-'] ∨ sign = ['+']
  body : Body base (mark ++ (digits ++ rest)) mark digits rest

def ansi (b : ℕ) (minus : Bool) (ds : List ℕ) (rest : List Char) : Read :=
  let m := value b 0 ds
  ⟨if 2 ^ 32 ≤ m then BitVec.allOnes 32 else if minus then -BitVec.ofNat 32 m else BitVec.ofNat 32 m,
    rest, 2 ^ 32 ≤ m⟩

/-- `r` is the result of the ANSI function. -/
def Strtoul (base : ℕ) (s : List Char) (r : Read) : Prop :=
  (∃ blanks sign mark digits rest, Subject base s blanks sign mark digits rest ∧
    (∀ blanks' sign' mark' digits' rest', Subject base s blanks' sign' mark' digits' rest' →
      rest.length ≤ rest'.length) ∧
    r = ansi (baseOf base mark digits) (sign = ['-']) (digits.filterMap digitValue) rest) ∨
  (∀ blanks sign mark digits rest, ¬ Subject base s blanks sign mark digits rest) ∧ r = ⟨0, s, false⟩

/-! ## Blanks and sign -/

def IsSign (c : Option Char) : Prop := c = some '-' ∨ c = some '+'

instance (c : Option Char) : Decidable (IsSign c) := inferInstanceAs (Decidable (_ ∨ _))

def unsigned (t : List Char) : List Char := if IsSign t.head? then t.tail else t

def signOf (t : List Char) : List Char := if IsSign t.head? then t.take 1 else []

section Subject
variable {base : ℕ} {s t blanks sign mark digits rest : List Char} {c : Char} {d : ℕ}

theorem digitValue_class (h : digitValue c = some d) :
    isspace c = false ∧ c ≠ '-' ∧ c ≠ '+' := by
  have hnat : ∀ x y : Char, x ≤ y → x.toNat ≤ y.toNat := fun _ _ h => h
  have hlow : 48 ≤ c.toNat := by
    rw [digitValue] at h
    split_ifs at h with hdigit hsmall hcapital
    · exact hnat '0' c hdigit.1
    · exact le_trans (by decide) (hnat 'a' c hsmall.1)
    · exact le_trans (by decide) (hnat 'A' c hcapital.1)
  have hne : ∀ x : Char, x.toNat < 48 → c ≠ x := by
    rintro x hx rfl
    omega
  refine ⟨?_, hne '-' (by decide), hne '+' (by decide)⟩
  rw [isspace, decide_eq_false_iff_not]
  rintro (h | ⟨-, h⟩)
  · exact hne ' ' (by decide) h
  · omega

theorem Body.head (h : Body base t mark digits rest) :
    ∃ c u, t = c :: u ∧ isspace c = false ∧ c ≠ '-' ∧ c ≠ '+' := by
  rcases h.marked with hmark | ⟨hmark, -⟩
  · obtain ⟨c, ds, hds⟩ := List.exists_cons_of_ne_nil h.nonempty
    obtain ⟨d, -, hd⟩ := h.digit c (hds ▸ List.mem_cons_self)
    refine ⟨c, ds ++ rest, ?_, digitValue_class hd⟩
    rw [h.split, hmark, hds]
    rfl
  · rcases hmark with rfl | rfl
    · exact ⟨'0', _, h.split, by decide, by decide, by decide⟩
    · exact ⟨'0', _, h.split, by decide, by decide, by decide⟩

theorem subject_iff : Subject base s blanks sign mark digits rest ↔
    blanks = s.takeWhile isspace ∧ sign = signOf (s.dropWhile isspace) ∧
      Body base (unsigned (s.dropWhile isspace)) mark digits rest := by
  constructor
  · rintro ⟨hsplit, hblank, hsign, hbody⟩
    obtain ⟨c, u, hcu, hspace, hminus, hplus⟩ := hbody.head
    have hnosign : ¬ IsSign (c :: u).head? := by
      rintro (h | h)
      · exact hminus (Option.some.inj h)
      · exact hplus (Option.some.inj h)
    have hhead : ∃ e w, sign ++ (c :: u) = e :: w ∧ isspace e = false ∧
        sign = signOf (sign ++ (c :: u)) ∧ unsigned (sign ++ (c :: u)) = c :: u := by
      rcases hsign with rfl | rfl | rfl
      · exact ⟨c, u, rfl, hspace, by rw [signOf, List.nil_append, if_neg hnosign],
          by rw [unsigned, List.nil_append, if_neg hnosign]⟩
      · exact ⟨'-', c :: u, rfl, by decide, rfl, rfl⟩
      · exact ⟨'+', c :: u, rfl, by decide, rfl, rfl⟩
    obtain ⟨e, w, hew, hespace, hsignOf, hunsigned⟩ := hhead
    rw [hcu] at hsplit hbody
    have hdrop : s.dropWhile isspace = sign ++ (c :: u) := by
      rw [hsplit, List.dropWhile_append_of_pos hblank, hew,
        List.dropWhile_cons_of_neg (by rw [hespace]; exact Bool.false_ne_true)]
    have htake : s.takeWhile isspace = blanks := by
      rw [hsplit, List.takeWhile_append_of_pos hblank, hew,
        List.takeWhile_cons_of_neg (by rw [hespace]; exact Bool.false_ne_true), List.append_nil]
    rw [hdrop, htake, hunsigned]
    exact ⟨rfl, hsignOf, hbody⟩
  · rintro ⟨rfl, rfl, hbody⟩
    have hsign : signOf (s.dropWhile isspace) ++ unsigned (s.dropWhile isspace) = s.dropWhile isspace := by
      rw [signOf, unsigned]
      split_ifs
      · rw [← List.drop_one, List.take_append_drop]
      · rfl
    refine ⟨?_, fun c hc => List.mem_takeWhile_imp hc, ?_, hbody.split ▸ hbody⟩
    · rw [← hbody.split, hsign, List.takeWhile_append_dropWhile]
    · rw [signOf]
      split_ifs with h
      · cases hdrop : s.dropWhile isspace with
        | nil => exact Or.inl rfl
        | cons c u =>
          rw [hdrop] at h
          rcases h with h | h
          · exact Or.inr (Or.inl (by rw [Option.some.inj h]; rfl))
          · exact Or.inr (Or.inr (by rw [Option.some.inj h]; rfl))
      · exact Or.inl rfl

end Subject

/-! ## The mark and the digits -/

def Marked (base : ℕ) (t : List Char) : Prop :=
  (base = 0 ∨ base = 16) ∧ t.head? = some '0' ∧ hexMark t = true

instance (base : ℕ) (t : List Char) : Decidable (Marked base t) :=
  inferInstanceAs (Decidable ((base = 0 ∨ base = 16) ∧ t.head? = some '0' ∧ hexMark t = true))

section Body
variable {base b : ℕ} {t u mark digits rest : List Char} {c : Char} {d : ℕ}

theorem getBase_marked (h : Marked base t) :
    getBase base t = (16, t.drop 2) ∧ ∃ x u, (x = 'x' ∨ x = 'X') ∧ t = '0' :: x :: u := by
  obtain ⟨hbase, hhead, hmark⟩ := h
  constructor
  · rw [getBase]
    rcases hbase with rfl | rfl
    · rw [if_neg (by decide), if_neg (fun h => h hhead), if_pos hmark]
    · rw [if_pos (by decide), if_pos ⟨rfl, hhead, hmark⟩]
  · cases t with
    | nil => exact absurd hhead (by simp)
    | cons c t =>
      obtain rfl : c = '0' := Option.some.inj hhead
      rw [hexMark, List.tail_cons, decide_eq_true_iff] at hmark
      cases t with
      | nil => exact absurd hmark (by simp)
      | cons x u => exact ⟨x, u, hmark.imp Option.some.inj Option.some.inj, rfl⟩

theorem getBase_plain (h : ¬ Marked base t) :
    getBase base t = (if base ≠ 0 then base else if t.head? = some '0' then 8 else 10, t) := by
  rw [getBase]
  by_cases hbase : base = 0
  · subst hbase
    rw [if_neg (show ¬ ((0 : ℕ) : ℤ) ≠ 0 by decide), if_neg (show ¬ (0 : ℕ) ≠ 0 by decide)]
    by_cases hhead : t.head? = some '0'
    · rw [if_neg (fun hne => hne hhead), if_neg fun hmark => h ⟨Or.inl rfl, hhead, hmark⟩, if_pos hhead]
    · rw [if_pos hhead, if_neg hhead]
  · have hmark : ¬ ((base : ℤ) = 16 ∧ t.head? = some '0' ∧ hexMark t = true) := by
      rintro ⟨h16, hrest⟩
      exact h ⟨Or.inr (by omega), hrest⟩
    rw [if_pos (by omega), if_neg hmark, if_pos hbase, Int.toNat_natCast]

theorem getBase_bounds (hbase : base = 0 ∨ (2 ≤ base ∧ base ≤ 36)) (t : List Char) :
    2 ≤ (getBase base t).1 ∧ (getBase base t).1 ≤ 36 := by
  by_cases hmark : Marked base t
  · rw [(getBase_marked hmark).1]
    exact ⟨(by decide : 2 ≤ 16), (by decide : 16 ≤ 36)⟩
  · rw [getBase_plain hmark]
    simp only
    split_ifs <;> omega

theorem digitsOf_filterMap (hb : b ≤ 36) (u : List Char) :
    digitsOf b u = (u.takeWhile fun c => (digitIn b c).isSome).filterMap digitValue := by
  induction u with
  | nil => rfl
  | cons c u ih =>
    cases hdigit : digitIn b c with
    | none =>
      rw [digitsOf, hdigit, List.takeWhile_cons_of_neg (by simp [hdigit])]
      rfl
    | some d =>
      rw [digitsOf, hdigit, List.takeWhile_cons_of_pos (by simp [hdigit]),
        List.filterMap_cons_some ((digitIn_eq hb).mp hdigit).1, ih]

theorem digitIn_isSome (hb : b ≤ 36) : (digitIn b c).isSome = true ↔ ∃ d < b, digitValue c = some d := by
  rw [Option.isSome_iff_exists]
  simp only [digitIn_eq hb, and_comm]

theorem digits_front (hb : b ≤ 36) (hsplit : u = digits ++ rest) (hne : digits ≠ [])
    (hdigit : ∀ c ∈ digits, ∃ d < b, digitValue c = some d) :
    digitsOf b u ≠ [] ∧ (behind b u).length ≤ rest.length ∧
      (rest.length ≤ (behind b u).length →
        digits = u.takeWhile (fun c => (digitIn b c).isSome) ∧ rest = behind b u) := by
  have hall : ∀ c ∈ digits, (digitIn b c).isSome = true := fun c hc => (digitIn_isSome hb).mpr (hdigit c hc)
  have hbehind : behind b u = behind b rest := by
    rw [hsplit, behind, List.dropWhile_append_of_pos hall]
    rfl
  have htake : u.takeWhile (fun c => (digitIn b c).isSome) =
      digits ++ rest.takeWhile fun c => (digitIn b c).isSome := by
    rw [hsplit, List.takeWhile_append_of_pos hall]
  refine ⟨?_, hbehind ▸ behind_length b rest, fun hle => ?_⟩
  · obtain ⟨c, ds, rfl⟩ := List.exists_cons_of_ne_nil hne
    obtain ⟨d, -, hd⟩ := hdigit c List.mem_cons_self
    rw [digitsOf_filterMap hb, htake, List.cons_append, List.filterMap_cons_some hd]
    exact List.cons_ne_nil _ _
  · have hparts : rest.takeWhile (fun c => (digitIn b c).isSome) ++ behind b rest = rest :=
      List.takeWhile_append_dropWhile
    have hnone : rest.takeWhile (fun c => (digitIn b c).isSome) = [] := by
      refine List.eq_nil_of_length_eq_zero ?_
      have hlen := congrArg List.length hparts
      rw [List.length_append] at hlen
      rw [hbehind] at hle
      omega
    rw [hnone, List.nil_append] at hparts
    exact ⟨by rw [htake, hnone, List.append_nil], by rw [hbehind, hparts]⟩

theorem digits_all (hb : b ≤ 36) (hne : digitsOf b u ≠ []) :
    u = u.takeWhile (fun c => (digitIn b c).isSome) ++ behind b u ∧
      u.takeWhile (fun c => (digitIn b c).isSome) ≠ [] ∧
      ∀ c ∈ u.takeWhile (fun c => (digitIn b c).isSome), ∃ d < b, digitValue c = some d := by
  refine ⟨List.takeWhile_append_dropWhile.symm, fun hnil => hne ?_, fun c hc => ?_⟩
  · rw [digitsOf_filterMap hb, hnil]
    rfl
  · exact (digitIn_isSome hb).mp (List.mem_takeWhile_imp (p := fun c => (digitIn b c).isSome) hc)

theorem baseOf_plain (hsplit : t = digits ++ rest) (hne : digits ≠ []) (h : ¬ Marked base t) :
    baseOf base [] digits = (getBase base t).1 := by
  obtain ⟨c, ds, hds⟩ := List.exists_cons_of_ne_nil hne
  have hhead : t.head? = digits.head? := by
    rw [hsplit, hds]
    rfl
  rw [getBase_plain h, baseOf, hhead]
  simp only [ne_eq, not_true, if_false]

theorem Body.lone (hb : Body base t [] digits rest) (h : Marked base t) :
    digits = ['0'] ∧ rest = t.tail := by
  obtain ⟨-, x, u, hx, ht⟩ := getBase_marked h
  obtain ⟨c, ds, hds⟩ := List.exists_cons_of_ne_nil hb.nonempty
  have hsplit := hb.split
  rw [List.nil_append, ht, hds, List.cons_append] at hsplit
  obtain ⟨rfl, htail⟩ := List.cons.inj hsplit
  cases ds with
  | nil =>
    rw [hds, ht]
    exact ⟨rfl, htail.symm⟩
  | cons e ds =>
    obtain ⟨rfl, -⟩ := List.cons.inj htail
    obtain ⟨d, hlt, hd⟩ := hb.digit x (by rw [hds]; simp)
    have hsmall : baseOf base [] digits ≤ 16 := by
      rw [baseOf, hds]
      rcases h.1 with rfl | rfl <;> simp
    have hvalue : digitValue x = some 33 := by
      rcases hx with rfl | rfl <;> decide
    obtain rfl : (33 : ℕ) = d := Option.some.inj (hvalue.symm.trans hd)
    omega

theorem Body.taken (hb : Body base t mark digits rest) (hmark : mark ≠ []) :
    Marked base t ∧ baseOf base mark digits = 16 ∧ t.drop 2 = digits ++ rest := by
  obtain ⟨hx, hbase⟩ := hb.marked.resolve_left hmark
  have hsplit := hb.split
  have hsixteen : baseOf base mark digits = 16 := by
    rw [baseOf]
    rcases hbase with rfl | rfl
    · rw [if_neg (fun h => h rfl), if_pos hmark]
    · rw [if_pos (by decide)]
  rcases hx with rfl | rfl <;>
    exact ⟨⟨hbase, by rw [hsplit]; rfl, by rw [hsplit]; rfl⟩, hsixteen, by rw [hsplit]; rfl⟩

theorem longest_body (hbase : base = 0 ∨ (2 ≤ base ∧ base ≤ 36)) (hu : getBase base t = (b, u))
    (hds : digitsOf b u ≠ []) :
    (∃ mark, Body base t mark (u.takeWhile fun c => (digitIn b c).isSome) (behind b u) ∧
      baseOf base mark (u.takeWhile fun c => (digitIn b c).isSome) = b) ∧
    ∀ mark digits rest, Body base t mark digits rest → (behind b u).length ≤ rest.length ∧
      (rest.length ≤ (behind b u).length → baseOf base mark digits = b ∧
        digits = u.takeWhile (fun c => (digitIn b c).isSome) ∧ rest = behind b u) := by
  have hb : b ≤ 36 := by
    have hbounds := (getBase_bounds hbase t).2
    rwa [hu] at hbounds
  obtain ⟨hsplit, hne, hdigit⟩ := digits_all hb hds
  by_cases hmark : Marked base t
  · obtain ⟨hget, x, w, hx, ht⟩ := getBase_marked hmark
    obtain ⟨rfl, rfl⟩ := Prod.mk.inj (hu.symm.trans hget)
    constructor
    · have hsixteen : ∀ digits, baseOf base ['0', x] digits = 16 := by
        intro digits
        rw [baseOf]
        rcases hmark.1 with rfl | rfl <;> simp
      refine ⟨['0', x], ⟨?_, Or.inr ⟨?_, hmark.1⟩, hne, ?_⟩, hsixteen _⟩
      · rw [← hsplit, ht]
        rfl
      · exact hx.imp (fun h => by rw [h]) fun h => by rw [h]
      · rw [hsixteen]
        exact hdigit
    · intro mark digits rest hbody
      by_cases hnone : mark = []
      · subst hnone
        have hshort := behind_length 16 (t.drop 2)
        rw [(hbody.lone hmark).2]
        rw [List.length_drop] at hshort
        have hlong : 2 ≤ t.length := by
          rw [ht]
          exact Nat.le_add_left 2 w.length
        rw [List.length_tail]
        exact ⟨by omega, fun hle => by omega⟩
      · obtain ⟨-, hsixteen, hrest⟩ := hbody.taken hnone
        obtain ⟨-, hle, heq⟩ := digits_front hb hrest hbody.nonempty (hsixteen ▸ hbody.digit)
        exact ⟨hle, fun h => ⟨hsixteen, heq h⟩⟩
  · have hut : u = t := by
      have hget := getBase_plain hmark
      rw [hu] at hget
      exact (Prod.mk.inj hget).2
    subst hut
    have hbaseOf : ∀ digits rest, u = digits ++ rest → digits ≠ [] → baseOf base [] digits = b := by
      intro digits rest hparts hnil
      rw [baseOf_plain hparts hnil hmark, hu]
    constructor
    · refine ⟨[], ⟨hsplit, Or.inl rfl, hne, ?_⟩, hbaseOf _ _ hsplit hne⟩
      rw [hbaseOf _ _ hsplit hne]
      exact hdigit
    · intro mark digits rest hbody
      obtain rfl : mark = [] := by
        by_contra hnone
        exact hmark (hbody.taken hnone).1
      have hparts : u = digits ++ rest := hbody.split
      have hat := hbaseOf _ _ hparts hbody.nonempty
      obtain ⟨-, hle, heq⟩ := digits_front hb hparts hbody.nonempty (hat ▸ hbody.digit)
      exact ⟨hle, fun h => ⟨hat, heq h⟩⟩

theorem Body.no_digits (hbase : base = 0 ∨ (2 ≤ base ∧ base ≤ 36)) (hu : getBase base t = (b, u))
    (hds : digitsOf b u = []) (hbody : Body base t mark digits rest) :
    Marked base t ∧ mark = [] ∧ digits = ['0'] ∧ rest = t.tail := by
  have hb : b ≤ 36 := by
    have hbounds := (getBase_bounds hbase t).2
    rwa [hu] at hbounds
  by_cases hmark : Marked base t
  · have hget := (getBase_marked hmark).1
    obtain ⟨rfl, rfl⟩ := Prod.mk.inj (hu.symm.trans hget)
    by_cases hnone : mark = []
    · subst hnone
      exact ⟨hmark, rfl, hbody.lone hmark⟩
    · obtain ⟨-, hsixteen, hrest⟩ := hbody.taken hnone
      exact absurd hds (digits_front hb hrest hbody.nonempty (hsixteen ▸ hbody.digit)).1
  · obtain rfl : mark = [] := by
      by_contra hnone
      exact hmark (hbody.taken hnone).1
    have hut : u = t := by
      have hget := getBase_plain hmark
      rw [hu] at hget
      exact (Prod.mk.inj hget).2
    have hparts : t = digits ++ rest := hbody.split
    have hat : baseOf base [] digits = b := by rw [baseOf_plain hparts hbody.nonempty hmark, hu]
    rw [hut] at hds
    exact absurd hds (digits_front hb hparts hbody.nonempty (hat ▸ hbody.digit)).1

theorem lone_body (h : Marked base t) : Body base t [] ['0'] t.tail := by
  obtain ⟨-, x, w, -, ht⟩ := getBase_marked h
  refine ⟨by rw [ht]; rfl, Or.inl rfl, List.cons_ne_nil _ _, fun c hc => ⟨0, ?_, ?_⟩⟩
  · rw [baseOf]
    rcases h.1 with rfl | rfl <;> simp
  · rw [List.mem_singleton.mp hc]
    rfl

end Body

/-! ## The results -/

section Results
variable {base b : ℕ} {s u : List Char} {r : Read}

def minusSign (s : List Char) : Bool := signOf (s.dropWhile isspace) = ['-']

theorem strtoul_iff : Strtoul base s r ↔
    (∃ mark digits rest, Body base (unsigned (s.dropWhile isspace)) mark digits rest ∧
      (∀ mark' digits' rest', Body base (unsigned (s.dropWhile isspace)) mark' digits' rest' →
        rest.length ≤ rest'.length) ∧
      r = ansi (baseOf base mark digits) (minusSign s) (digits.filterMap digitValue) rest) ∨
    (∀ mark digits rest, ¬ Body base (unsigned (s.dropWhile isspace)) mark digits rest) ∧
      r = ⟨0, s, false⟩ := by
  simp only [Strtoul, subject_iff, minusSign]
  constructor
  · rintro (⟨blanks, sign, mark, digits, rest, ⟨rfl, rfl, hbody⟩, hmost, hr⟩ | ⟨hnone, hr⟩)
    · exact Or.inl ⟨mark, digits, rest, hbody, fun _ _ _ h => hmost _ _ _ _ _ ⟨rfl, rfl, h⟩, hr⟩
    · exact Or.inr ⟨fun _ _ _ h => hnone _ _ _ _ _ ⟨rfl, rfl, h⟩, hr⟩
  · rintro (⟨mark, digits, rest, hbody, hmost, hr⟩ | ⟨hnone, hr⟩)
    · exact Or.inl ⟨_, _, mark, digits, rest, ⟨rfl, rfl, hbody⟩, fun _ _ _ _ _ h => hmost _ _ _ h.2.2, hr⟩
    · exact Or.inr ⟨fun _ _ _ _ _ h => hnone _ _ _ h.2.2, hr⟩

variable (hbase : base = 0 ∨ (2 ≤ base ∧ base ≤ 36))
  (hu : getBase base (unsigned (s.dropWhile isspace)) = (b, u))
include hbase hu

theorem strtoul_digits (hds : digitsOf b u ≠ []) :
    Strtoul base s r ↔ r = ansi b (minusSign s) (digitsOf b u) (behind b u) := by
  have hb : b ≤ 36 := by
    have hbounds := (getBase_bounds hbase (unsigned (s.dropWhile isspace))).2
    rwa [hu] at hbounds
  obtain ⟨⟨mark, hbody, hat⟩, hall⟩ := longest_body hbase hu hds
  rw [strtoul_iff, digitsOf_filterMap hb]
  constructor
  · rintro (⟨mark', digits', rest', hbody', hmost, hr⟩ | ⟨hnone, -⟩)
    · obtain ⟨hat', rfl, rfl⟩ := (hall _ _ _ hbody').2 (hmost _ _ _ hbody)
      rw [hr, hat']
    · exact absurd hbody (hnone _ _ _)
  · intro hr
    exact Or.inl ⟨mark, _, _, hbody, fun _ _ _ h => (hall _ _ _ h).1, by rw [hr, hat]⟩

theorem strtoul_no_digits (hds : digitsOf b u = []) : Strtoul base s r ↔
    r = ⟨0, if Marked base (unsigned (s.dropWhile isspace)) then (unsigned (s.dropWhile isspace)).tail
      else s, false⟩ := by
  have hlone : ∀ b rest, ansi b (minusSign s) (['0'].filterMap digitValue) rest = ⟨0, rest, false⟩ := by
    intro b rest
    have hvalue : value b 0 (['0'].filterMap digitValue) = 0 := by
      simp [value, digitValue]
    rw [ansi, hvalue]
    cases minusSign s <;> rfl
  rw [strtoul_iff]
  split_ifs with hmark
  · constructor
    · rintro (⟨mark, digits, rest, hbody, -, hr⟩ | ⟨hnone, -⟩)
      · obtain ⟨-, rfl, rfl, rfl⟩ := hbody.no_digits hbase hu hds
        rw [hr, hlone]
      · exact absurd (lone_body hmark) (hnone _ _ _)
    · intro hr
      refine Or.inl ⟨_, _, _, lone_body hmark, fun _ _ _ h => ?_, by rw [hr, hlone]⟩
      rw [(h.no_digits hbase hu hds).2.2.2]
  · have hnone : ∀ mark digits rest, ¬ Body base (unsigned (s.dropWhile isspace)) mark digits rest :=
      fun _ _ _ h => hmark (h.no_digits hbase hu hds).1
    rw [or_iff_right fun h => h.elim fun _ h => h.elim fun _ h => h.elim fun _ h => hnone _ _ _ h.1,
      and_iff_right hnone]

end Results

/-- There is a digit, and a number with a minus sign does not overflow; or there is none, and
nothing has been read in search of one. -/
def ReadsWell (base : ℤ) (s : List Char) : Prop :=
  let t := getBase base (unsigned (s.dropWhile isspace))
  (digitsOf t.1 t.2 = [] → t.2 = s) ∧
    (digitsOf t.1 t.2 ≠ [] → ¬ (minusSign s = true ∧ 2 ^ 32 ≤ value t.1 0 (digitsOf t.1 t.2)))

instance (base : ℤ) (s : List Char) : Decidable (ReadsWell base s) := by
  unfold ReadsWell
  infer_instance

section Stoul
variable {base : ℕ} {s : List Char}

theorem minusSign_eq : minusSign s = decide ((s.dropWhile isspace).head? = some '-') := by
  rw [minusSign, signOf]
  cases s.dropWhile isspace with
  | nil => rfl
  | cons c t =>
    by_cases hc : IsSign (some c)
    · rw [List.head?_cons, if_pos hc]
      exact decide_eq_decide.mpr ⟨fun h => congrArg List.head? h, fun h => by rw [Option.some.inj h]; rfl⟩
    · rw [List.head?_cons, if_neg hc]
      exact decide_eq_decide.mpr ⟨fun h => absurd h.symm (List.cons_ne_nil _ _), fun h => absurd (Or.inl h) hc⟩

theorem stoul_eq (hbase : base = 0 ∨ (2 ≤ base ∧ base ≤ 36)) (s : List Char) :
    stoul s base = readDigits (getBase base (unsigned (s.dropWhile isspace))).1 (minusSign s)
      (getBase base (unsigned (s.dropWhile isspace))).2 := by
  have hvalid : ¬ ((base : ℤ) < 0 ∨ (base : ℤ) = 1 ∨ 36 < (base : ℤ)) := by omega
  rw [minusSign_eq, unsigned]
  simp only [stoul, if_neg hvalid]
  rfl

theorem unsigned_length (t : List Char) : (unsigned t).length ≤ t.length := by
  rw [unsigned]
  split_ifs
  · rw [List.length_tail]
    exact Nat.sub_le _ _
  · exact le_rfl

theorem wrapped_iff (minus : Bool) (m : ℕ) : wrapped minus m =
    (if 2 ^ 32 ≤ m then BitVec.allOnes 32 else if minus then -BitVec.ofNat 32 m else BitVec.ofNat 32 m) ↔
      ¬ (minus = true ∧ 2 ^ 32 ≤ m) := by
  simp only [wrapped]
  split_ifs with hminus hover hover
  · exact iff_of_false (by decide) fun h => h ⟨hminus, hover⟩
  · exact iff_of_true rfl fun h => hover h.2
  · exact iff_of_true rfl fun h => hminus h.1
  · exact iff_of_true rfl fun h => hminus h.1

theorem stoul_strtoul_iff (hbase : base = 0 ∨ (2 ≤ base ∧ base ≤ 36)) :
    Strtoul base s (stoul s base) ↔ ReadsWell base s := by
  obtain ⟨hlow, hhigh⟩ := getBase_bounds hbase (unsigned (s.dropWhile isspace))
  rw [stoul_eq hbase, readDigits_eq hlow hhigh, ReadsWell]
  rcases hu : getBase base (unsigned (s.dropWhile isspace)) with ⟨b, u⟩
  simp only
  by_cases hds : digitsOf b u = []
  · rw [if_pos hds, imp_iff_right hds, and_iff_left fun h => absurd hds h, strtoul_no_digits hbase hu hds,
      Read.mk.injEq, and_iff_right rfl,
      and_iff_left rfl]
    split_ifs with hmark
    · obtain ⟨hget, x, w, -, ht⟩ := getBase_marked hmark
      obtain ⟨-, rfl⟩ := Prod.mk.inj (hu.symm.trans hget)
      have hlong : 2 ≤ (unsigned (s.dropWhile isspace)).length := by
        rw [ht]
        exact Nat.le_add_left 2 w.length
      have hshort := unsigned_length (s.dropWhile isspace)
      have hdrop : (s.dropWhile isspace).length ≤ s.length := (List.dropWhile_suffix _).length_le
      refine iff_of_false (fun h => ?_) fun h => ?_
      · have hlen := congrArg List.length h
        rw [List.length_drop, List.length_tail] at hlen
        omega
      · have hlen := congrArg List.length h
        rw [List.length_drop] at hlen
        omega
    · exact Iff.rfl
  · rw [if_neg hds, imp_iff_right hds, and_iff_right fun h => absurd h hds, strtoul_digits hbase hu hds, ansi,
      Read.mk.injEq,
      and_iff_left ⟨rfl, rfl⟩, wrapped_iff]

end Stoul

/-- `_Stoul` is the ANSI function on the texts that it reads well, in every base. -/
theorem stoul_is_strtoul (s : List Char) (base : ℕ) (hbase : base = 0 ∨ (2 ≤ base ∧ base ≤ 36)) :
    Strtoul base s (stoul s base) ↔ ReadsWell base s :=
  stoul_strtoul_iff hbase

theorem stoul_is_strtoul_hex : Strtoul 0 " -0xff;".toList (stoul " -0xff;".toList 0) :=
  (stoul_is_strtoul _ 0 (Or.inl rfl)).mpr (by decide)

/-- An overflow with a minus sign reads as 1, and a mark without digits is skipped. -/
theorem stoul_minus_overflow : ¬ Strtoul 10 "-4294967296".toList (stoul "-4294967296".toList 10) ∧
    (stoul "-4294967296".toList 10).val = 1 ∧ ¬ Strtoul 16 "0xg".toList (stoul "0xg".toList 16) ∧
    ¬ Strtoul 10 "  x".toList (stoul "  x".toList 10) := by
  have h10 : (10 : ℕ) = 0 ∨ (2 ≤ 10 ∧ 10 ≤ 36) := by decide
  have h16 : (16 : ℕ) = 0 ∨ (2 ≤ 16 ∧ 16 ≤ 36) := by decide
  refine ⟨fun h => absurd ((stoul_strtoul_iff h10).mp h) ?_, by decide,
    fun h => absurd ((stoul_strtoul_iff h16).mp h) ?_, fun h => absurd ((stoul_strtoul_iff h10).mp h) ?_⟩ <;> decide

end DfewOS.NumText
