import DfewOS.Glob
import DfewOS.StrFilter

/-!
# Which strings a filter lets through

The arrays of a filter hold the pattern: `fail_back` is the position behind the last star,
and the loop over the string is the matcher that starts anew behind it. So a filter lets only
matches through, and of these the ones that can be found without taking back a part of what has
matched behind a star. It misses none if nothing behind a star overlaps with itself.
-/

namespace DfewOS.StrFilter
open Glob

/-- The pattern of an alternative. -/
def pattern (alt : List Char) : Pattern Char := alt.map fun c => if c = '*' then none else some c

/-- Some alternative matches, the empty one everything. -/
def Globs (alts : List (List Char)) (string : List Char) : Prop :=
  ∃ alt ∈ alts, alt = [] ∨ Matches (pattern alt) string

/-! ## The arrays -/

def Compiled (f : Filter) : ℕ → ℤ → Pattern Char → Prop
  | pos, backTo, [] => f.nextChar pos = nul ∧ f.failBack pos = backTo
  | pos, _, none :: p => Compiled f pos pos p
  | pos, backTo, some c :: p =>
      c ≠ nul ∧ f.nextChar pos = c ∧ f.failBack pos = backTo ∧ Compiled f (pos + 1) backTo p

theorem fill_star (f : Filter) (pos : ℕ) (backTo : ℤ) (alt : List Char) :
    fill f pos backTo ('*' :: alt) =
      if pos = strFilterMaxLen - 1 then (f.put pos nul pos, false) else fill f pos pos alt := rfl

theorem fill_char {c : Char} (hc : c ≠ '*') (f : Filter) (pos : ℕ) (backTo : ℤ)
    (alt : List Char) :
    fill f pos backTo (c :: alt) =
      if pos + 1 = strFilterMaxLen - 1 then
        ((f.put pos c backTo).put (pos + 1) nul backTo, false)
      else fill (f.put pos c backTo) (pos + 1) backTo alt := by
  simp only [fill, if_neg hc]

theorem fill_filterLen (f : Filter) (pos : ℕ) (backTo : ℤ) (alt : List Char) :
    (fill f pos backTo alt).1.filterLen = f.filterLen := by
  induction alt generalizing f pos backTo with
  | nil => rfl
  | cons c alt ih =>
    by_cases hc : c = '*'
    · subst hc
      rw [fill_star]
      split
      · rfl
      · exact ih f pos pos
    · rw [fill_char hc]
      split
      · rfl
      · exact ih (f.put pos c backTo) (pos + 1) backTo

theorem fill_below {k pos : ℕ} (hk : k < pos) (f : Filter) (backTo : ℤ) (alt : List Char) :
    (fill f pos backTo alt).1.nextChar k = f.nextChar k ∧
      (fill f pos backTo alt).1.failBack k = f.failBack k := by
  have hput (f : Filter) (pos : ℕ) (hk : k < pos) (c : Char) (backTo : ℤ) :
      (f.put pos c backTo).nextChar k = f.nextChar k ∧
        (f.put pos c backTo).failBack k = f.failBack k :=
    ⟨Function.update_of_ne (Nat.ne_of_lt hk) _ _, Function.update_of_ne (Nat.ne_of_lt hk) _ _⟩
  induction alt generalizing f pos backTo with
  | nil => exact hput f pos hk _ _
  | cons c alt ih =>
    by_cases hc : c = '*'
    · subst hc
      rw [fill_star]
      split
      · exact hput f pos hk _ _
      · exact ih hk f pos
    · rw [fill_char hc]
      have hk' : k < pos + 1 := Nat.lt_succ_of_lt hk
      have hfirst := hput f pos hk c backTo
      split
      · have hlast := hput (f.put pos c backTo) (pos + 1) hk' nul backTo
        exact ⟨hlast.1.trans hfirst.1, hlast.2.trans hfirst.2⟩
      · have hrest := ih hk' (f.put pos c backTo) backTo
        exact ⟨hrest.1.trans hfirst.1, hrest.2.trans hfirst.2⟩

theorem fill_compiled {alt : List Char} (hnul : nul ∉ alt) (f : Filter) (backTo : ℤ) {pos : ℕ}
    (hlen : pos + alt.length < strFilterMaxLen - 1) :
    (fill f pos backTo alt).2 = true ∧
      Compiled (fill f pos backTo alt).1 pos backTo (pattern alt) := by
  induction alt generalizing f pos backTo with
  | nil => exact ⟨rfl, Function.update_self .., Function.update_self ..⟩
  | cons c alt ih =>
    rw [List.length_cons] at hlen
    have hrest : nul ∉ alt := fun h => hnul (List.mem_cons_of_mem c h)
    by_cases hc : c = '*'
    · subst hc
      have hfull : pos ≠ strFilterMaxLen - 1 := by omega
      rw [fill_star, if_neg hfull]
      exact ih hrest f pos (by omega)
    · have hfull : pos + 1 ≠ strFilterMaxLen - 1 := by omega
      rw [fill_char hc, if_neg hfull]
      have hshort : pos + 1 + alt.length < strFilterMaxLen - 1 := by omega
      obtain ⟨hdone, hcompiled⟩ := ih hrest (f.put pos c backTo) backTo hshort
      obtain ⟨hnext, hback⟩ := fill_below (Nat.lt_succ_self pos) (f.put pos c backTo) backTo alt
      refine ⟨hdone, ?_⟩
      rw [pattern, List.map_cons, if_neg hc]
      refine ⟨fun h => hnul (by rw [← h]; exact List.mem_cons_self), ?_, ?_, hcompiled⟩
      · rw [hnext]
        exact Function.update_self ..
      · rw [hback]
        exact Function.update_self ..

/-! ## The loop over the string -/

variable {f : Filter} {pos : ℕ} {backTo : ℤ} {p B : Pattern Char} {s : Place Char} {c : Char}

theorem Compiled.failBack (h : Compiled f pos backTo p) (hp : Settled p) :
    f.failBack pos = backTo := by
  cases p with
  | nil => exact h.2
  | cons o p =>
    cases o with
    | none => exact absurd rfl hp
    | some c => exact h.2.2.1

theorem Compiled.nextChar (h : Compiled f pos backTo p) (hp : Settled p) (hc : c ≠ nul) :
    c = f.nextChar pos ↔ p.head? = some (some c) := by
  cases p with
  | nil => simp [h.1, hc]
  | cons o p =>
    cases o with
    | none => exact absurd rfl hp
    | some a =>
      rw [h.2.1]
      simp [eq_comm]

theorem Compiled.ends (h : Compiled f pos backTo p) (hp : Settled p) :
    f.nextChar pos = nul ↔ p = [] := by
  cases p with
  | nil => simp [h.1]
  | cons o p =>
    cases o with
    | none => exact absurd rfl hp
    | some a => simp [h.2.1, h.1]

theorem Compiled.tail (h : Compiled f pos backTo p) (hp : p.head? = some (some c)) :
    Compiled f (pos + 1) backTo p.tail := by
  obtain ⟨r, rfl⟩ := List.head?_eq_some_iff.mp hp
  exact h.2.2.2

def Back (f : Filter) (backTo : ℤ) : Option (Pattern Char) → Prop
  | none => backTo = -1
  | some B => Settled B ∧ ∃ k : ℕ, backTo = k ∧ Compiled f k k B

structure Stands (f : Filter) (pos : ℕ) (s : Place Char) : Prop where
  settled : Settled s.rest
  compiled : Compiled f pos (f.failBack pos) s.rest
  back : Back f (f.failBack pos) s.back

theorem compiled_stars {pre : Pattern Char} (hpre : letters pre = []) :
    Compiled f pos backTo (pre ++ none :: B) ↔ Compiled f pos pos B := by
  induction pre generalizing backTo with
  | nil => rfl
  | cons o pre ih =>
    cases o with
    | none => exact ih hpre
    | some a => cases hpre

theorem stands_settle {b : Option (Pattern Char)} (h : Compiled f pos backTo p)
    (hb : Back f backTo b) : Stands f pos (settle b p) := by
  rcases settle_cases b p with ⟨hp, hsettle⟩ | ⟨pre, B, rfl, hpre, hB, hsettle⟩
  · rw [hsettle]
    have hfail := h.failBack hp
    exact ⟨hp, by rwa [hfail], by rwa [hfail]⟩
  · rw [hsettle]
    have hcompiled : Compiled f pos pos B := (compiled_stars hpre).mp h
    have hfail := hcompiled.failBack hB
    exact ⟨hB, by rwa [hfail], hB, pos, hfail, hcompiled⟩

theorem scan_step (h : Stands f pos s) (hc : c ≠ nul) (string : List Char) :
    (∃ s' pos', s.step c = some s' ∧ Stands f pos' s' ∧
        scan f pos (c :: string) = scan f pos' string) ∨
      (s.step c = none ∧ scan f pos (c :: string) = none) := by
  rw [Place.step, scan]
  by_cases hhead : s.rest.head? = some (some c)
  · rw [if_pos hhead, if_pos ((h.compiled.nextChar h.settled hc).mpr hhead)]
    exact Or.inl ⟨_, _, rfl, stands_settle (h.compiled.tail hhead) h.back, rfl⟩
  · rw [if_neg hhead, if_neg (mt (h.compiled.nextChar h.settled hc).mp hhead)]
    have hback := h.back
    cases hb : s.back with
    | none =>
      have hfail : f.failBack pos = -1 := by rwa [hb] at hback
      rw [if_pos hfail]
      exact Or.inr ⟨rfl, rfl⟩
    | some B =>
      rw [hb] at hback
      obtain ⟨hB, k, hk, hcompiled⟩ := hback
      have hfail := hcompiled.failBack hB
      have hstand : Back f k (some B) := ⟨hB, k, rfl, hcompiled⟩
      left
      rw [hk, if_neg (by omega), Int.toNat_natCast]
      simp only
      by_cases hfirst : B.head? = some (some c)
      · rw [if_pos hfirst, if_pos ((hcompiled.nextChar hB hc).mpr hfirst)]
        exact ⟨_, _, rfl, stands_settle (hcompiled.tail hfirst) hstand, rfl⟩
      · rw [if_neg hfirst, if_neg (mt (hcompiled.nextChar hB hc).mp hfirst)]
        exact ⟨_, _, rfl, ⟨hB, by rwa [hfail], by rwa [hfail]⟩, rfl⟩

theorem scan_run (h : Stands f pos s) {string : List Char} (hstring : nul ∉ string) :
    (∃ s' pos', s.run string = some s' ∧ scan f pos string = some pos' ∧ Stands f pos' s') ∨
      (s.run string = none ∧ scan f pos string = none) := by
  induction string generalizing pos s with
  | nil => exact Or.inl ⟨s, pos, rfl, rfl, h⟩
  | cons c string ih =>
    have hc : c ≠ nul := fun h => hstring (by rw [← h]; exact List.mem_cons_self)
    have hrest : nul ∉ string := fun h => hstring (List.mem_cons_of_mem c h)
    rw [Place.run]
    rcases scan_step h hc string with ⟨s', pos', hstep, h', hscan⟩ | ⟨hstep, hscan⟩
    · rw [hstep, Option.bind_some, hscan]
      exact ih h' hrest
    · rw [hstep, hscan]
      exact Or.inr ⟨rfl, rfl⟩

theorem compatible_cons (h : Compiled f 0 (-1) p) (next : List Filter) {string : List Char}
    (hstring : nul ∉ string) :
    strFilterIsCompatibility (f :: next) string = true ↔
      f.filterLen = 0 ∨ accepts p string = true ∨
        strFilterIsCompatibility next string = true := by
  rw [strFilterIsCompatibility]
  by_cases hlen : f.filterLen = 0
  · simp [hlen]
  rw [if_neg hlen, accepts]
  have hstart : Stands f 0 (settle none p) := stands_settle h rfl
  rcases scan_run hstart hstring with ⟨s', pos', hrun, hscan, hstands⟩ | ⟨hrun, hscan⟩
  · rw [hrun, hscan]
    by_cases hend : s'.rest = []
    · simp [hend, (hstands.compiled.ends hstands.settled).mpr hend]
    · simp [hend, mt (hstands.compiled.ends hstands.settled).mp hend, hlen]
  · rw [hrun, hscan]
    simp [hlen]

/-! ## The chain -/

/-- The alternatives in one string. -/
def bars (alts : List (List Char)) : List Char := ['|'].intercalate alts

variable {alt rest : List Char} {alts : List (List Char)}

theorem takeWhile_bar (hbar : '|' ∉ alt) (h : rest.head? = none ∨ rest.head? = some '|') :
    (alt ++ rest).takeWhile (· ≠ '|') = alt := by
  have halt : ∀ c ∈ alt, decide (c ≠ '|') = true := fun c hc =>
    decide_eq_true fun heq => hbar (heq ▸ hc)
  rw [List.takeWhile_append_of_pos halt]
  cases rest with
  | nil => exact List.append_nil alt
  | cons c rest =>
    have hc : c = '|' := by simpa using h
    subst hc
    exact List.append_nil alt

theorem strFilterCreate_bar (hbar : '|' ∉ alt) (rest : List Char)
    (hfill : (fill (.blank alt.length) 0 (-1) alt).2 = true) :
    strFilterCreate (alt ++ '|' :: rest) =
      (fill (.blank alt.length) 0 (-1) alt).1 :: strFilterCreate rest := by
  rw [strFilterCreate, takeWhile_bar hbar (Or.inr rfl), List.take_left, if_pos]
  · have hdrop : (alt ++ '|' :: rest).drop (alt.length + 1) = rest := by simp
    rw [hdrop]
  · exact ⟨hfill, by simp⟩

theorem strFilterCreate_last (hbar : '|' ∉ alt) :
    strFilterCreate alt = [(fill (.blank alt.length) 0 (-1) alt).1] := by
  have htake : alt.takeWhile (· ≠ '|') = alt := by
    have h : (alt ++ []).takeWhile (· ≠ '|') = alt := takeWhile_bar hbar (Or.inl rfl)
    rwa [List.append_nil] at h
  rw [strFilterCreate, htake, List.take_length, if_neg]
  rintro ⟨-, h⟩
  simp at h

/-- An alternative that `str_filter_create` takes whole. -/
structure Fits (alt : List Char) : Prop where
  noBar : '|' ∉ alt
  noNul : nul ∉ alt
  short : alt.length < strFilterMaxLen - 1

theorem compatible_iff (hne : alts ≠ []) (hfits : ∀ alt ∈ alts, Fits alt) {string : List Char}
    (hstring : nul ∉ string) :
    strFilterIsCompatibility (strFilterCreate (bars alts)) string = true ↔
      ∃ alt ∈ alts, alt = [] ∨ accepts (pattern alt) string = true := by
  induction alts with
  | nil => exact absurd rfl hne
  | cons alt alts ih =>
    have halt := hfits alt List.mem_cons_self
    have hshort : 0 + alt.length < strFilterMaxLen - 1 := by
      rw [Nat.zero_add]
      exact halt.short
    obtain ⟨hfill, hcompiled⟩ := fill_compiled halt.noNul (.blank alt.length) (-1) hshort
    have hlen : (fill (.blank alt.length) 0 (-1) alt).1.filterLen = 0 ↔ alt = [] := by
      rw [fill_filterLen]
      exact List.length_eq_zero_iff
    have hsplit (next : List Filter) := compatible_cons hcompiled next hstring
    simp only [hlen] at hsplit
    cases alts with
    | nil =>
      have hbars : bars [alt] = alt := by simp [bars]
      rw [hbars, strFilterCreate_last halt.noBar, hsplit]
      simp [strFilterIsCompatibility]
    | cons alt' alts =>
      have hbars : bars (alt :: alt' :: alts) = alt ++ '|' :: bars (alt' :: alts) := by
        simp [bars, List.intercalate]
      have hrest := ih (List.cons_ne_nil _ _) fun a ha => hfits a (List.mem_cons_of_mem alt ha)
      rw [hbars, strFilterCreate_bar halt.noBar _ hfill, hsplit, hrest, ← or_assoc]
      simp only [List.exists_mem_cons_iff]

theorem letters_pattern (hnul : nul ∉ alt) : ∀ c ∈ letters (pattern alt), c ≠ nul := by
  intro c hc
  simp only [letters, pattern, List.filterMap_map, List.mem_filterMap] at hc
  obtain ⟨a, ha, hac⟩ := hc
  rintro rfl
  by_cases hstar : a = '*'
  · simp [hstar] at hac
  · simp only [Function.comp_apply, if_neg hstar, id_eq, Option.some.injEq] at hac
    exact hnul (hac ▸ ha)

/-- A filter of one alternative is exact if and only if nothing overlaps behind a star. -/
theorem exact_iff (halt : Fits alt) :
    (∀ string, nul ∉ string →
      (strFilterIsCompatibility (strFilterCreate (bars [alt])) string = true ↔
        Globs [alt] string)) ↔ OverlapFree (pattern alt) := by
  have hfits : ∀ a ∈ [alt], Fits a := fun a ha => by
    rw [List.mem_singleton.mp ha]
    exact halt
  have hpass (string : List Char) (hstring : nul ∉ string) :=
    compatible_iff (List.cons_ne_nil alt []) hfits hstring
  rw [← accepts_iff_matches (Q := fun c => c ≠ nul) (letters_pattern halt.noNul)]
  constructor
  · intro h string hstring
    have hnul : nul ∉ string := fun hmem => hstring nul hmem rfl
    by_cases hempty : alt = []
    · -- the empty pattern, which the filter does not even look at
      subst hempty
      have hfree : OverlapFree (pattern []) := by
        intro pre B u u' c ts tl hP
        cases pre <;> cases hP
      exact ⟨(accepts_spec _ string).1, (accepts_spec _ string).2 hfree⟩
    · have hiff := (hpass string hnul).symm.trans (h string hnul)
      simpa [Globs, hempty] using hiff
  · intro h string hstring
    rw [hpass string hstring]
    have hiff := h string fun c hc heq => hstring (heq ▸ hc)
    simp [Globs, hiff]

/-- Filters for the end of a name are exact if the first letter does not come again in them. -/
theorem exact_extension {c : Char} {u : List Char} (halt : Fits ('*' :: c :: u)) (hstar : '*' ∉ c :: u)
    (hc : c ∉ u) {string : List Char} (hstring : nul ∉ string) :
    strFilterIsCompatibility (strFilterCreate (bars ['*' :: c :: u])) string = true ↔
      Globs ['*' :: c :: u] string := by
  have hpattern : pattern ('*' :: c :: u) = none :: some c :: u.map some := by
    have hletter (a : Char) (ha : a ∈ c :: u) :
        (if a = '*' then none else some a) = some a := by
      refine if_neg ?_
      rintro rfl
      exact hstar ha
    rw [pattern, List.map_cons, if_pos rfl, List.map_congr_left hletter, List.map_cons]
  exact (exact_iff halt).mpr (hpattern ▸ overlapFree_star hc) string hstring

/-- What passes a filter matches one of its alternatives, and of what matches exactly that passes
in which some alternative is found. An alternative in which nothing overlaps behind a star is
found wherever it matches; as a filter of its own it is exact only then. -/
theorem str_filter (alts : List (List Char)) (hne : alts ≠ []) (hfits : ∀ alt ∈ alts, Fits alt) :
    (∀ string, nul ∉ string →
      ((strFilterIsCompatibility (strFilterCreate (bars alts)) string = true ↔
          Globs alts string) ↔
        ¬ Globs alts string ∨ ∃ alt ∈ alts, alt = [] ∨ Finds (pattern alt) string)) ∧
    (∀ string, nul ∉ string →
      strFilterIsCompatibility (strFilterCreate (bars alts)) string = true →
        Globs alts string) ∧
    (∀ string, nul ∉ string → ∀ alt ∈ alts, OverlapFree (pattern alt) →
      (alt = [] ∨ Matches (pattern alt) string) →
        strFilterIsCompatibility (strFilterCreate (bars alts)) string = true) ∧
    ∀ alt ∈ alts,
      ((∀ string, nul ∉ string →
        (strFilterIsCompatibility (strFilterCreate (bars [alt])) string = true ↔
          Globs [alt] string)) ↔ OverlapFree (pattern alt)) := by
  have hglobs (string : List Char) (hstring : nul ∉ string)
      (h : strFilterIsCompatibility (strFilterCreate (bars alts)) string = true) :
      Globs alts string := by
    obtain ⟨alt, halt, h⟩ := (compatible_iff hne hfits hstring).mp h
    exact ⟨alt, halt, h.imp_right (accepts_spec (pattern alt) string).1⟩
  refine ⟨fun string hstring => ?_, hglobs, fun string hstring alt halt hfree h => ?_,
    fun alt halt => exact_iff (hfits alt halt)⟩
  · have hpass := compatible_iff hne hfits hstring
    simp only [accepts_iff_finds] at hpass
    rw [← hpass]
    constructor
    · intro h
      by_cases hmatch : Globs alts string
      · exact Or.inr (h.mpr hmatch)
      · exact Or.inl hmatch
    · rintro (hno | h)
      · exact iff_of_false (fun h => hno (hglobs string hstring h)) hno
      · exact iff_of_true h (hglobs string hstring h)
  · rw [compatible_iff hne hfits hstring]
    exact ⟨alt, halt, h.imp_right ((accepts_spec (pattern alt) string).2 hfree)⟩

/-- `"class.c"` passes `"*aab|*ss.c"` as it should, though its alternative overlaps. -/
theorem str_filter_class :
    (strFilterIsCompatibility
        (strFilterCreate (bars [['*', 'a', 'a', 'b'], ['*', 's', 's', '.', 'c']]))
        ['c', 'l', 'a', 's', 's', '.', 'c'] = true ↔
      Globs [['*', 'a', 'a', 'b'], ['*', 's', 's', '.', 'c']]
        ['c', 'l', 'a', 's', 's', '.', 'c']) ∧
    ¬ OverlapFree (pattern ['*', 's', 's', '.', 'c']) := by
  have haab : Fits ['*', 'a', 'a', 'b'] := ⟨by decide, by decide, by decide⟩
  have hssc : Fits ['*', 's', 's', '.', 'c'] := ⟨by decide, by decide, by decide⟩
  have hfound : Finds (pattern ['*', 's', 's', '.', 'c']) ['c', 'l', 'a', 's', 's', '.', 'c'] := by
    refine .star (x := ['c', 'l', 'a']) (by simp [Settled]) ?_ ?_
    · exact .letter 'c' (by decide) (.letter 'l' (by decide) (.letter 'a' (by decide) .nil))
    · exact .letter 's' (.letter 's' (.letter '.' (.letter 'c' .nil)))
  refine ⟨((str_filter _ (by decide) ?_).1 _ (by decide)).mpr (Or.inr ?_), fun hfree => ?_⟩
  · simp [haab, hssc]
  · exact ⟨_, List.mem_cons_of_mem _ List.mem_cons_self, Or.inr hfound⟩
  · exact hfree [] _ ['s', 's'] ['s'] 's' _ _ rfl
      ⟨rfl, by simp [Settled], by decide, by decide, ⟨['s'], rfl⟩, rfl⟩

/-- `"*aab"` does not let `"aaab"` pass: behind the mismatch the matcher takes the third
letter for the first one of the piece. -/
theorem aaab_missed :
    strFilterIsCompatibility (strFilterCreate (bars [['*', 'a', 'a', 'b']])) ['a', 'a', 'a', 'b'] =
        false ∧
      Globs [['*', 'a', 'a', 'b']] ['a', 'a', 'a', 'b'] := by
  have hbars : bars [['*', 'a', 'a', 'b']] = ['*', 'a', 'a', 'b'] := rfl
  rw [hbars, strFilterCreate_last (by decide)]
  refine ⟨by decide, _, List.mem_singleton.mpr rfl, Or.inr ?_⟩
  exact .starOn 'a' (.starEnd (.letter 'a' (.letter 'a' (.letter 'b' .nil))))

end DfewOS.StrFilter
