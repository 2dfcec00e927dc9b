import DfewOS.NulText
import Mathlib.Algebra.Order.Ring.Int

/-!
# Comparing strings

`strcmp`, `strncmp` and `memcmp` of `string.c`. All of them come to the first characters that
differ. `strncmp` and `memcmp` subtract these as bytes, `strcmp` as signed characters: its
order is a total one as well, but another one if just one of the two characters is above 0x7f.
-/

namespace DfewOS.CString
open NulText (Text differ differ_lt differ_gt keys keys_lt keys_injective Orders)

def signedChar (c : UInt8) : ℤ := if c < 128 then c.toNat else c.toNat - 256

def strcmp (byte : ℕ → UInt8) : ℕ → ℕ → ℕ → Option ℤ
  | 0, _, _ => none
  | fuel + 1, s1, s2 =>
    if byte s1 ≠ 0 ∧ byte s2 ≠ 0 then
      if byte s1 ≠ byte s2 then some (signedChar (byte s1) - signedChar (byte s2))
      else strcmp byte fuel (s1 + 1) (s2 + 1)
    else some (signedChar (byte s1) - signedChar (byte s2))

/-- The last argument is `n`. -/
def strncmp (byte : ℕ → UInt8) : ℕ → ℕ → ℕ → ℤ
  | _, _, 0 => 0
  | s1, s2, n + 1 =>
    if byte s1 = byte s2 then
      if byte s1 = 0 ∨ n = 0 then 0 else strncmp byte (s1 + 1) (s2 + 1) n
    else (byte s1).toNat - (byte s2).toNat

/-- The last argument is `n`. -/
def memcmp (byte : ℕ → UInt8) : ℕ → ℕ → ℕ → ℤ
  | _, _, 0 => 0
  | p1, p2, n + 1 =>
    if byte p1 = byte p2 then
      if n = 0 then 0 else memcmp byte (p1 + 1) (p2 + 1) n
    else (byte p1).toNat - (byte p2).toNat

section Differ
variable {byte : ℕ → UInt8} {s t n fuel : ℕ} {a b : List UInt8} {x y : ℕ × List UInt8}

theorem strcmp_differ (ha : Text byte s a) (hb : Text byte t b) (hfuel : a.length < fuel) :
    strcmp byte fuel s t = some (signedChar (differ a b).1 - signedChar (differ a b).2) := by
  induction a generalizing s t b fuel with
  | nil =>
    obtain ⟨fuel, rfl⟩ : ∃ f, fuel = f + 1 := ⟨fuel - 1, by omega⟩
    rw [strcmp, if_neg fun h => h.1 ha]
    cases b with
    | nil => rw [ha, hb, differ]
    | cons d b => rw [ha, hb.1, differ]
  | cons c a ih =>
    obtain ⟨fuel, rfl⟩ : ∃ f, fuel = f + 1 := ⟨fuel - 1, by omega⟩
    obtain ⟨hs, hc, ha⟩ := ha
    rw [strcmp, hs]
    cases b with
    | nil =>
      rw [if_neg fun h => h.2 hb, hb, differ]
    | cons d b =>
      obtain ⟨ht, hd, hb⟩ := hb
      rw [ht, if_pos ⟨hc, hd⟩, differ]
      by_cases hcd : c = d
      · rw [if_neg (not_not_intro hcd), if_pos hcd]
        exact ih ha hb (Nat.lt_of_succ_lt_succ hfuel)
      · rw [if_pos hcd, if_neg hcd]

theorem strncmp_differ (ha : Text byte s a) (hb : Text byte t b) (hn : a.length < n) :
    strncmp byte s t n = (differ a b).1.toNat - (differ a b).2.toNat := by
  induction a generalizing s t b n with
  | nil =>
    obtain ⟨n, rfl⟩ : ∃ k, n = k + 1 := ⟨n - 1, by omega⟩
    rw [strncmp, ha]
    cases b with
    | nil => rw [hb, if_pos rfl, if_pos (Or.inl rfl), differ, sub_self]
    | cons d b => rw [hb.1, if_neg (Ne.symm hb.2.1), differ]
  | cons c a ih =>
    obtain ⟨n, rfl⟩ : ∃ k, n = k + 1 := ⟨n - 1, by omega⟩
    obtain ⟨hs, hc, ha⟩ := ha
    rw [strncmp, hs]
    cases b with
    | nil => rw [hb, if_neg hc, differ]
    | cons d b =>
      obtain ⟨ht, hd, hb⟩ := hb
      rw [ht, differ]
      by_cases hcd : c = d
      · have hlong : a.length < n := Nat.lt_of_succ_lt_succ hn
        rw [if_pos hcd, if_pos hcd, if_neg (by rintro (h | h) <;> [exact hc h; omega])]
        exact ih ha hb hlong
      · rw [if_neg hcd, if_neg hcd]

theorem memcmp_differ (ha : Text byte s a) (hb : Text byte t b) :
    memcmp byte s t (min a.length b.length + 1) = (differ a b).1.toNat - (differ a b).2.toNat := by
  induction a generalizing s t b with
  | nil =>
    rw [List.length_nil, Nat.zero_min, memcmp, ha]
    cases b with
    | nil => rw [hb, if_pos rfl, if_pos rfl, differ, sub_self]
    | cons d b => rw [hb.1, if_neg (Ne.symm hb.2.1), differ]
  | cons c a ih =>
    obtain ⟨hs, hc, ha⟩ := ha
    rw [memcmp, hs]
    cases b with
    | nil => rw [hb, if_neg hc, differ]
    | cons d b =>
      obtain ⟨ht, hd, hb⟩ := hb
      rw [ht, differ, List.length_cons, List.length_cons, Nat.succ_min_succ]
      by_cases hcd : c = d
      · rw [if_pos hcd, if_pos hcd, if_neg (Nat.succ_ne_zero _)]
        exact ih ha hb
      · rw [if_neg hcd, if_neg hcd]

end Differ

section Order
variable {byte : ℕ → UInt8} {s t n : ℕ} {a b : List UInt8} {c d : UInt8}

theorem toNat_injective : Function.Injective UInt8.toNat := fun _ _ => UInt8.toNat_inj.mp

theorem signedChar_injective : Function.Injective signedChar := by
  intro c d h
  have hc := c.toNat_lt
  have hd := d.toNat_lt
  simp only [signedChar, UInt8.lt_iff_toNat_lt] at h
  exact toNat_injective (by split_ifs at h <;> omega)

theorem nul_first (hc : c ≠ 0) : (0 : UInt8).toNat < c.toNat :=
  Nat.pos_of_ne_zero fun h => hc (toNat_injective h)

def SignOf (r : ℤ) (a b : List UInt8) : Prop :=
  (r < 0 ↔ a.map UInt8.toNat < b.map UInt8.toNat) ∧
    (0 < r ↔ b.map UInt8.toNat < a.map UInt8.toNat)

theorem signOf_differ (ha : Text byte s a) (hb : Text byte t b) :
    SignOf ((differ a b).1.toNat - (differ a b).2.toNat) a b := by
  have hna := ha.not_nul
  have hnb := hb.not_nul
  rw [SignOf, ← keys_lt (fun _ => nul_first) hna hnb, ← keys_lt (fun _ => nul_first) hnb hna,
    ← differ_lt toNat_injective hna hnb, ← differ_gt toNat_injective hna hnb]
  omega

/-- The characters at which the strings differ lie on the same side of 0x80. -/
def SameHalf (a b : List UInt8) : Prop := (differ a b).1 < 128 ↔ (differ a b).2 < 128

instance : Decidable (SameHalf a b) :=
  inferInstanceAs (Decidable ((differ a b).1 < 128 ↔ (differ a b).2 < 128))

theorem signed_iff : ((signedChar c - signedChar d < 0 ↔ c.toNat < d.toNat) ∧
    (0 < signedChar c - signedChar d ↔ d.toNat < c.toNat)) ↔ (c < 128 ↔ d < 128) := by
  have hc := c.toNat_lt
  have hd := d.toNat_lt
  simp only [signedChar, UInt8.lt_iff_toNat_lt]
  have h128 : (128 : UInt8).toNat = 128 := rfl
  rw [h128]
  split_ifs <;> omega

theorem signOf_signed (ha : Text byte s a) (hb : Text byte t b) :
    SignOf (signedChar (differ a b).1 - signedChar (differ a b).2) a b ↔ SameHalf a b := by
  have hna := ha.not_nul
  have hnb := hb.not_nul
  rw [SignOf, ← keys_lt (fun _ => nul_first) hna hnb, ← keys_lt (fun _ => nul_first) hnb hna,
    ← differ_lt toNat_injective hna hnb, ← differ_gt toNat_injective hna hnb]
  exact signed_iff

/-- The three functions agree with the order of the bytes. -/
def OneOrder (byte : ℕ → UInt8) (s t : ℕ) (a b : List UInt8) (n : ℕ) : Prop :=
  (∃ fuel r, strcmp byte fuel s t = some r ∧ SignOf r a b) ∧ SignOf (strncmp byte s t n) a b ∧
    SignOf (memcmp byte s t (min a.length b.length + 1)) a b

theorem strcmp_mono {fuel more : ℕ} {r : ℤ} (h : strcmp byte fuel s t = some r) (hle : fuel ≤ more) :
    strcmp byte more s t = some r := by
  induction fuel generalizing s t more with
  | zero => exact absurd h (by simp [strcmp])
  | succ fuel ih =>
    obtain ⟨more, rfl⟩ : ∃ m, more = m + 1 := ⟨more - 1, by omega⟩
    rw [strcmp] at h ⊢
    split_ifs at h ⊢ with hend hne
    · exact h
    · exact ih h (by omega)
    · exact h

theorem strcmp_unique {fuel : ℕ} {r : ℤ} (ha : Text byte s a) (hb : Text byte t b)
    (h : strcmp byte fuel s t = some r) :
    r = signedChar (differ a b).1 - signedChar (differ a b).2 := by
  have hlong := strcmp_differ ha hb (show a.length < max fuel (a.length + 1) by omega)
  exact Option.some.inj ((strcmp_mono h (by omega)).symm.trans hlong)

theorem oneOrder_iff (ha : Text byte s a) (hb : Text byte t b) (hn : a.length < n) :
    OneOrder byte s t a b n ↔ SameHalf a b := by
  rw [OneOrder, strncmp_differ ha hb hn, memcmp_differ ha hb, ← signOf_signed ha hb]
  constructor
  · rintro ⟨⟨fuel, r, hr, hsign⟩, -⟩
    exact strcmp_unique ha hb hr ▸ hsign
  · intro hsign
    exact ⟨⟨a.length + 1, _, strcmp_differ ha hb (Nat.lt_succ_self _), hsign⟩,
      signOf_differ ha hb, signOf_differ ha hb⟩

/-- The strings of a memory, with their addresses. -/
def strings (byte : ℕ → UInt8) : Set (ℕ × List UInt8) := {x | Text byte x.1 x.2}

theorem differ_le {β : Type*} [LinearOrder β] {key : UInt8 → β} (hkey : Function.Injective key)
    (ha : Text byte s a) (hb : Text byte t b) :
    key (differ a b).1 ≤ key (differ a b).2 ↔ keys key a ≤ keys key b := by
  rw [← not_lt, ← not_lt, differ_gt hkey ha.not_nul hb.not_nul]

theorem strcmp_orders (byte : ℕ → UInt8) : Orders (strings byte)
    (fun x y => ∃ fuel r, strcmp byte fuel x.1 y.1 = some r ∧ r ≤ 0) := by
  refine .of_keys (keys_injective signedChar_injective) fun x hx y hy => ?_
  rw [← differ_le signedChar_injective hx hy]
  constructor
  · rintro ⟨fuel, r, hr, hle⟩
    rw [strcmp_unique hx hy hr] at hle
    exact sub_nonpos.mp hle
  · intro hle
    exact ⟨x.2.length + 1, _, strcmp_differ hx hy (Nat.lt_succ_self _), sub_nonpos.mpr hle⟩

theorem bytes_le : (c.toNat - d.toNat : ℤ) ≤ 0 ↔ c.toNat ≤ d.toNat := by omega

theorem strncmp_orders (byte : ℕ → UInt8) (n : ℕ) : Orders {x ∈ strings byte | x.2.length < n}
    (fun x y => strncmp byte x.1 y.1 n ≤ 0) := by
  refine .of_keys (keys_injective toNat_injective) fun x hx y hy => ?_
  rw [strncmp_differ hx.1 hy.1 hx.2, bytes_le, differ_le toNat_injective hx.1 hy.1]

theorem memcmp_orders (byte : ℕ → UInt8) : Orders (strings byte)
    (fun x y => memcmp byte x.1 y.1 (min x.2.length y.2.length + 1) ≤ 0) := by
  refine .of_keys (keys_injective toNat_injective) fun x hx y hy => ?_
  rw [memcmp_differ hx hy, bytes_le, differ_le toNat_injective hx hy]

end Order

/-- Each of the functions orders the strings totally; the three orders are the one of the bytes
exactly between strings whose first different characters lie on the same side of 0x80. -/
theorem one_string_order (byte : ℕ → UInt8) :
    (∀ s t a b n, Text byte s a → Text byte t b → a.length < n → b.length < n →
      (OneOrder byte s t a b n ↔ SameHalf a b)) ∧
    Orders (strings byte) (fun x y => ∃ fuel r, strcmp byte fuel x.1 y.1 = some r ∧ r ≤ 0) ∧
    (∀ n, Orders {x ∈ strings byte | x.2.length < n} fun x y => strncmp byte x.1 y.1 n ≤ 0) ∧
    Orders (strings byte) fun x y =>
      memcmp byte x.1 y.1 (min x.2.length y.2.length + 1) ≤ 0 :=
  ⟨fun _ _ _ _ _ ha hb hn _ => oneOrder_iff ha hb hn, strcmp_orders byte, strncmp_orders byte,
    memcmp_orders byte⟩

def twoStrings (p : ℕ) : UInt8 := if p = 16 then 0x61 else if p = 32 then 0x62 else 0

theorem one_string_order_ascii : OneOrder twoStrings 16 32 [0x61] [0x62] 2 :=
  ((one_string_order twoStrings).1 16 32 [0x61] [0x62] 2 ⟨rfl, by decide, rfl⟩ ⟨rfl, by decide, rfl⟩
    (by decide) (by decide)).mpr (by decide)

def mixedStrings (p : ℕ) : UInt8 :=
  if p = 16 then 0x61 else if p = 32 then 0xb0 else if p = 33 then 0xa1 else 0

theorem strcmp_mixed : ∃ a b, Text mixedStrings 16 a ∧ Text mixedStrings 32 b ∧
    ¬ OneOrder mixedStrings 16 32 a b 3 := by
  have ha : Text mixedStrings 16 [0x61] := ⟨rfl, by decide, rfl⟩
  have hb : Text mixedStrings 32 [0xb0, 0xa1] := ⟨rfl, by decide, rfl, by decide, rfl⟩
  refine ⟨_, _, ha, hb, fun horder => ?_⟩
  exact absurd ((oneOrder_iff ha hb (by decide)).mp horder) (by decide)

end DfewOS.CString
