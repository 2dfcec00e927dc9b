import DfewOS.Memory
import DfewOS.NulText
import Mathlib.Algebra.Group.Nat.Defs

/-!
# Appending a bounded number of characters

`strncat` of `string.c`. The bound is looked at only behind a character that has been copied,
and after it has been decremented. A bound of 0 therefore lets `2 ^ 32` characters pass, and
every other bound as many as it says.
-/

namespace DfewOS.CString
open Memory (Looked)
open NulText (Text)

/-- `while (*s++ != '\0');` and `s--` -/
def findNul : ℕ → Memory → ℕ → Option (Memory × ℕ)
  | 0, _, _ => none
  | fuel + 1, m, s => if m.byte s = 0 then some (m.touch s, s) else findNul fuel (m.touch s) (s + 1)

def strncatLoop : ℕ → Memory → ℕ → ℕ → BitVec 32 → Option Memory
  | 0, _, _, _, _ => none
  | fuel + 1, m, s, append, n =>
    let c := m.byte append
    let m := (m.touch append).store s c
    if c = 0 then some m
    else if n - 1 = 0 then some (m.store (s + 1) 0)
    else strncatLoop fuel m (s + 1) (append + 1) (n - 1)

def strncat (fuel : ℕ) (m : Memory) (dest append : ℕ) (n : BitVec 32) : Option (Memory × ℕ) :=
  (findNul fuel m dest).bind fun r => (strncatLoop fuel r.1 r.2 append n).map fun m => (m, dest)

/-- The text `t` has been appended to the text `s` at `dest`, and nothing else was written. -/
structure Appended (m m' : Memory) (dest : ℕ) (s t : List UInt8) : Prop where
  text : Text m'.byte dest (s ++ t)
  kept : ∀ x, x < dest + s.length ∨ dest + s.length + t.length < x → m'.byte x = m.byte x
  writes : ∀ x ∈ m'.writes, x ∈ m.writes ∨
    (dest + s.length ≤ x ∧ x ≤ dest + s.length + t.length)

def passes (n : BitVec 32) : ℕ := (n - 1).toNat + 1

theorem passes_zero : passes 0 = 2 ^ 32 := by decide

theorem passes_of_ne {n : BitVec 32} (h : n ≠ 0) : passes n = n.toNat := by
  rw [passes]
  have hpos : n.toNat ≠ 0 := fun h0 => h (BitVec.eq_of_toNat_eq h0)
  bv_omega

theorem passes_succ {n : BitVec 32} (h : n - 1 ≠ 0) : passes n = passes (n - 1) + 1 := by
  rw [passes_of_ne h]
  rfl

section Loop
variable {m m' : Memory} {A : Set ℕ} {s t : List UInt8} {dest fuel more p q : ℕ} {n : BitVec 32}

theorem findNul_found (h : Text m.byte p s) (hfuel : s.length < fuel) :
    ∃ m', findNul fuel m p = some (m', p + s.length) ∧ m'.byte = m.byte ∧ m'.writes = m.writes := by
  induction s generalizing m p fuel with
  | nil =>
    obtain ⟨fuel, rfl⟩ : ∃ f, fuel = f + 1 := ⟨fuel - 1, by omega⟩
    have hnul : m.byte p = 0 := h
    refine ⟨m.touch p, ?_, rfl, rfl⟩
    rw [findNul, if_pos hnul]
    rfl
  | cons c s ih =>
    obtain ⟨fuel, rfl⟩ : ∃ f, fuel = f + 1 := ⟨fuel - 1, by omega⟩
    obtain ⟨hbyte, hc, hrest⟩ := h
    obtain ⟨m', hfind, hsame, hwrites⟩ := ih (m := m.touch p) hrest (Nat.lt_of_succ_lt_succ hfuel)
    refine ⟨m', ?_, hsame, hwrites⟩
    rw [findNul, hbyte, if_neg hc, hfind, List.length_cons, Nat.add_right_comm, Nat.add_assoc]

theorem strncatLoop_copies (h : Text m.byte q t) (hapart : q + t.length < p ∨ p < q)
    (hfuel : t.length < fuel) :
    ∃ m', strncatLoop fuel m p q n = some m' ∧ Appended m m' p [] (t.take (passes n)) := by
  induction t generalizing m p q n fuel with
  | nil =>
    obtain ⟨fuel, rfl⟩ : ∃ f, fuel = f + 1 := ⟨fuel - 1, by omega⟩
    have hnul : m.byte q = 0 := h
    refine ⟨(m.touch q).store p 0, ?_, ?_, fun x hx => ?_, fun x hx => ?_⟩
    · simp only [strncatLoop, hnul, if_true]
    · rw [List.take_nil]
      exact Function.update_self ..
    · rw [List.take_nil, List.length_nil] at hx
      exact Memory.store_of_ne (by omega)
    · rcases List.mem_cons.mp hx with rfl | hold
      · exact Or.inr ⟨le_rfl, Nat.le_add_right ..⟩
      · exact Or.inl hold
  | cons c t ih =>
    obtain ⟨fuel, rfl⟩ : ∃ f, fuel = f + 1 := ⟨fuel - 1, by omega⟩
    obtain ⟨hbyte, hc, hrest⟩ := h
    rw [List.length_cons] at hapart hfuel
    rw [strncatLoop]
    simp only [hbyte, if_neg hc]
    by_cases hlast : n - 1 = 0
    · have htake : (c :: t).take (passes n) = [c] := by rw [passes, hlast]; rfl
      rw [if_pos hlast, htake]
      refine ⟨_, rfl, ⟨?_, hc, ?_⟩, fun x hx => ?_, fun x hx => ?_⟩
      · rw [Memory.store_of_ne (by omega)]
        exact Function.update_self ..
      · exact Function.update_self ..
      · simp only [List.length_nil, List.length_singleton] at hx
        rw [Memory.store_of_ne (by omega), Memory.store_of_ne (by omega)]
        rfl
      · simp only [List.length_nil, List.length_singleton]
        rcases List.mem_cons.mp hx with rfl | hx
        · exact Or.inr (by omega)
        · rcases List.mem_cons.mp hx with rfl | hold
          · exact Or.inr (by omega)
          · exact Or.inl hold
    · have htake : (c :: t).take (passes n) = c :: t.take (passes (n - 1)) := by
        rw [passes_succ hlast, List.take_succ_cons]
      have hnext : Text ((m.touch q).store p c).byte (q + 1) t :=
        hrest.congr fun x hge hle => Memory.store_of_ne (by omega)
      have hmore : t.length < fuel := Nat.lt_of_succ_lt_succ hfuel
      obtain ⟨m', hloop, happ⟩ := ih (p := p + 1) (n := n - 1) hnext (by omega) hmore
      have hkept := happ.kept
      have hwrites := happ.writes
      rw [if_neg hlast, htake]
      refine ⟨m', hloop, ⟨?_, hc, happ.text⟩, fun x hx => ?_, fun x hx => ?_⟩
      · rw [hkept p (by simp)]
        exact Function.update_self ..
      · simp only [List.length_nil, List.length_cons, Nat.add_zero] at hx hkept
        rw [hkept x (by omega), Memory.store_of_ne (by omega)]
        rfl
      · simp only [List.length_nil, List.length_cons, Nat.add_zero] at hwrites ⊢
        rcases hwrites x hx with hold | hnew
        · rcases List.mem_cons.mp hold with rfl | hold
          · exact Or.inr (by omega)
          · exact Or.inl hold
        · exact Or.inr (by omega)

theorem text_append (hs : Text m.byte p s) (hsame : ∀ x, p ≤ x → x < p + s.length → m'.byte x = m.byte x)
    (ht : Text m'.byte (p + s.length) t) : Text m'.byte p (s ++ t) := by
  induction s generalizing p with
  | nil => exact ht
  | cons c s ih =>
    obtain ⟨hbyte, hc, hrest⟩ := hs
    rw [List.length_cons] at hsame ht
    refine ⟨(hsame p le_rfl (by omega)).trans hbyte, hc, ih hrest ?_ ?_⟩
    · exact fun x hge hlt => hsame x (by omega) (by omega)
    · rwa [show p + 1 + s.length = p + (s.length + 1) by omega]

theorem strncat_appends (n : BitVec 32) (hs : Text m.byte dest s) (ht : Text m.byte q t)
    (hapart : q + t.length < dest ∨ dest + s.length < q) :
    ∃ fuel m', strncat fuel m dest q n = some (m', dest) ∧ Appended m m' dest s (t.take (passes n)) := by
  have henough : s.length < s.length + t.length + 1 := by omega
  have hmore : t.length < s.length + t.length + 1 := by omega
  obtain ⟨m₁, hfind, hsame, hwritten⟩ := findNul_found hs henough
  obtain ⟨m', hloop, happ⟩ := strncatLoop_copies (m := m₁) (p := dest + s.length) (n := n)
    (hsame.symm ▸ ht) (by omega) hmore
  have hkept := happ.kept
  have hwrites := happ.writes
  simp only [List.length_nil, Nat.add_zero] at hkept hwrites
  refine ⟨s.length + t.length + 1, m', ?_, ?_, fun x hx => ?_, fun x hx => ?_⟩
  · rw [strncat, hfind, Option.bind_some, hloop, Option.map_some]
  · exact text_append hs (fun x _ hlt => by rw [hkept x (Or.inl hlt), hsame]) happ.text
  · rw [hkept x hx, hsame]
  · rw [← hwritten]
    exact hwrites x hx

theorem findNul_mono {r : Memory × ℕ} (h : findNul fuel m p = some r) (hle : fuel ≤ more) :
    findNul more m p = some r := by
  induction fuel generalizing m p more with
  | zero => exact absurd h (by simp [findNul])
  | succ fuel ih =>
    obtain ⟨more, rfl⟩ : ∃ k, more = k + 1 := ⟨more - 1, by omega⟩
    rw [findNul] at h ⊢
    split_ifs at h ⊢
    · exact h
    · exact ih h (by omega)

theorem strncatLoop_mono (h : strncatLoop fuel m p q n = some m') (hle : fuel ≤ more) :
    strncatLoop more m p q n = some m' := by
  induction fuel generalizing m p q n more with
  | zero => exact absurd h (by simp [strncatLoop])
  | succ fuel ih =>
    obtain ⟨more, rfl⟩ : ∃ k, more = k + 1 := ⟨more - 1, by omega⟩
    simp only [strncatLoop] at h ⊢
    split_ifs at h ⊢
    · exact h
    · exact h
    · exact ih h (by omega)

theorem strncat_mono {r : Memory × ℕ} (h : strncat fuel m dest q n = some r) (hle : fuel ≤ more) :
    strncat more m dest q n = some r := by
  rw [strncat] at h ⊢
  obtain ⟨x, hx, hr⟩ := Option.bind_eq_some_iff.mp h
  obtain ⟨m', hm', hr⟩ := Option.map_eq_some_iff.mp hr
  rw [findNul_mono hx hle, Option.bind_some, strncatLoop_mono hm' hle, Option.map_some, hr]

theorem strncat_unique {r r' : Memory × ℕ} (h : strncat fuel m dest q n = some r)
    (h' : strncat more m dest q n = some r') : r = r' :=
  Option.some.inj ((strncat_mono h (Nat.le_max_left fuel more)).symm.trans
    (strncat_mono h' (Nat.le_max_right fuel more)))

end Loop

/-- `strncat` keeps to its bound exactly if that is not 0 or there is nothing to append. -/
theorem strncat_bound {m : Memory} {dest q : ℕ} {s t : List UInt8} (n : BitVec 32)
    (hs : Text m.byte dest s) (ht : Text m.byte q t)
    (hapart : q + t.length < dest ∨ dest + s.length < q) :
    (∃ fuel m', strncat fuel m dest q n = some (m', dest) ∧ Appended m m' dest s (t.take n.toNat)) ↔
      n ≠ 0 ∨ t = [] := by
  obtain ⟨fuel, m', hrun, happ⟩ := strncat_appends n hs ht hapart
  constructor
  · rintro ⟨more, m₁, hrun₁, happ₁⟩
    obtain rfl : m' = m₁ := (Prod.mk.inj (strncat_unique hrun hrun₁)).1
    by_contra hnot
    obtain ⟨hn, ht⟩ := not_or.mp hnot
    obtain rfl : n = 0 := not_not.mp hn
    have htexts := happ.text.unique happ₁.text
    rw [passes_zero] at htexts
    have hlen := congrArg List.length (List.append_cancel_left htexts)
    have hpos := List.length_pos_iff.mpr ht
    have hzero : (0 : BitVec 32).toNat = 0 := rfl
    rw [List.length_take, List.length_take, hzero] at hlen
    omega
  · rintro (hn | rfl)
    · rw [passes_of_ne hn] at happ
      exact ⟨fuel, m', hrun, happ⟩
    · rw [List.take_nil] at happ ⊢
      exact ⟨fuel, m', hrun, happ⟩

/-! ## Two strings -/

def catMemory : Memory := .fresh fun x => if x = 1 then 97 else if x = 8 then 98 else 0

theorem catMemory_a : Text catMemory.byte 1 [97] :=
  ⟨rfl, by decide, show catMemory.byte 2 = 0 from rfl⟩

theorem catMemory_b : Text catMemory.byte 8 [98] :=
  ⟨rfl, by decide, show catMemory.byte 9 = 0 from rfl⟩

theorem strncat_bound_one :
    ∃ fuel m', strncat fuel catMemory 1 8 1 = some (m', 1) ∧
      Appended catMemory m' 1 [97] (List.take (1 : BitVec 32).toNat [98]) :=
  (strncat_bound 1 catMemory_a catMemory_b (Or.inr (by decide))).mpr (Or.inl (by decide))

/-- With the bound 0 the whole string is appended. -/
theorem strncat_zero : Text catMemory.byte 1 [97] ∧ Text catMemory.byte 8 [98] ∧
    ¬ ∃ fuel m', strncat fuel catMemory 1 8 0 = some (m', 1) ∧
      Appended catMemory m' 1 [97] (List.take (0 : BitVec 32).toNat [98]) := by
  refine ⟨catMemory_a, catMemory_b, ?_⟩
  obtain ⟨fuel, m', hrun, happ⟩ := strncat_appends 0 catMemory_a catMemory_b (Or.inr (by decide))
  rintro ⟨more, m₁, hrun₁, happ₁⟩
  obtain rfl : m' = m₁ := (Prod.mk.inj (strncat_unique hrun hrun₁)).1
  exact absurd (happ.text.unique happ₁.text) (by decide)

end DfewOS.CString
