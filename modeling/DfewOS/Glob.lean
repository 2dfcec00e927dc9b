import Mathlib.Data.Nat.Notation
import Mathlib.Data.List.Basic

/-!
# Glob patterns and a matcher without backtracking

A pattern is a list of letters and stars. The matcher reads each letter once: on a mismatch
it starts anew behind the last star, with the present letter only. What it accepts matches;
it finds every match exactly if no piece behind a star overlaps with itself, that is, if no
mismatch in the piece can be the continuation of a later start.
-/

namespace Glob

variable {α : Type*}

/-- A letter is `some`, a star is `none`. -/
abbrev Pattern (α : Type*) := List (Option α)

inductive Matches : Pattern α → List α → Prop
  | nil : Matches [] []
  | letter {p : Pattern α} {w : List α} (a : α) : Matches p w → Matches (some a :: p) (a :: w)
  | starEnd {p : Pattern α} {w : List α} : Matches p w → Matches (none :: p) w
  | starOn {p : Pattern α} {w : List α} (a : α) :
      Matches (none :: p) w → Matches (none :: p) (a :: w)

def letters (p : Pattern α) : List α := p.filterMap id

variable {p q B P ts : Pattern α} {u v w x : List α} {a c : α}

@[simp] theorem letters_nil : letters ([] : Pattern α) = [] := rfl
@[simp] theorem letters_star (p : Pattern α) : letters (none :: p) = letters p := rfl
@[simp] theorem letters_letter (a : α) (p : Pattern α) :
    letters (some a :: p) = a :: letters p := rfl

@[simp] theorem letters_append (p q : Pattern α) : letters (p ++ q) = letters p ++ letters q :=
  List.filterMap_append ..

@[simp] theorem letters_map_some (u : List α) : letters (u.map some) = u := by
  induction u with
  | nil => rfl
  | cons a u ih => simp [ih]

/-! ## Matching -/

@[simp] theorem matches_nil : Matches ([] : Pattern α) w ↔ w = [] := by
  constructor
  · rintro ⟨⟩
    rfl
  · rintro rfl
    exact .nil

theorem matches_letter : Matches (some a :: p) w ↔ ∃ v, w = a :: v ∧ Matches p v := by
  constructor
  · intro h
    cases h with
    | letter _ h => exact ⟨_, rfl, h⟩
  · rintro ⟨v, rfl, h⟩
    exact .letter a h

theorem Matches.star (x : List α) (h : Matches p w) : Matches (none :: p) (x ++ w) := by
  induction x with
  | nil => exact .starEnd h
  | cons a x ih => exact .starOn a ih

theorem matches_star : Matches (none :: p) w ↔ ∃ x v, w = x ++ v ∧ Matches p v := by
  constructor
  · intro h
    generalize hq : none :: p = q at h
    induction h with
    | nil => cases hq
    | letter _ _ => cases hq
    | starEnd h =>
      cases hq
      exact ⟨[], _, rfl, h⟩
    | starOn a _ ih =>
      obtain ⟨x, v, rfl, hv⟩ := ih hq
      exact ⟨a :: x, v, rfl, hv⟩
  · rintro ⟨x, v, rfl, h⟩
    exact h.star x

theorem Matches.star_append (x : List α) (h : Matches (none :: p) w) :
    Matches (none :: p) (x ++ w) := by
  obtain ⟨y, v, rfl, hv⟩ := matches_star.mp h
  rw [← List.append_assoc]
  exact hv.star (x ++ y)

theorem Matches.append (hp : Matches p v) (hq : Matches q w) : Matches (p ++ q) (v ++ w) := by
  induction hp with
  | nil => exact hq
  | letter a _ ih => exact .letter a ih
  | starEnd _ ih => exact .starEnd ih
  | starOn a _ ih => exact .starOn a ih

theorem matches_letters (p : Pattern α) : Matches p (letters p) := by
  induction p with
  | nil => exact .nil
  | cons o p ih =>
    cases o with
    | none => exact .starEnd ih
    | some a => exact .letter a ih

theorem matches_map_some : Matches (u.map some ++ p) w ↔ ∃ v, w = u ++ v ∧ Matches p v := by
  induction u generalizing w with
  | nil => simp
  | cons a u ih =>
    simp only [List.map_cons, List.cons_append, matches_letter, ih]
    constructor
    · rintro ⟨_, rfl, v, rfl, h⟩
      exact ⟨v, rfl, h⟩
    · rintro ⟨v, rfl, h⟩
      exact ⟨_, rfl, v, rfl, h⟩

/-! ## The matcher -/

/-- Where the matcher stands: the pattern behind the last star, if there was one, and the
pattern that is still to be read. -/
structure Place (α : Type*) where
  back : Option (Pattern α)
  rest : Pattern α

/-- Stars are passed at once. -/
def settle (back : Option (Pattern α)) : Pattern α → Place α
  | none :: p => settle (some p) p
  | some a :: p => ⟨back, some a :: p⟩
  | [] => ⟨back, []⟩

section Matcher
variable [DecidableEq α]

/-- One letter; `none` if there is no star to go back to. -/
def Place.step (s : Place α) (c : α) : Option (Place α) :=
  if s.rest.head? = some (some c) then some (settle s.back s.rest.tail)
  else
    match s.back with
    | none => none
    | some B =>
        if B.head? = some (some c) then some (settle (some B) B.tail) else some ⟨some B, B⟩

def Place.run : Place α → List α → Option (Place α)
  | s, [] => some s
  | s, c :: w => (s.step c).bind fun s' => s'.run w

def accepts (p : Pattern α) (w : List α) : Bool :=
  match (settle none p).run w with
  | none => false
  | some s => s.rest.isEmpty

end Matcher

def Settled (p : Pattern α) : Prop := p.head? ≠ some none

theorem settle_cases (b : Option (Pattern α)) (p : Pattern α) :
    (Settled p ∧ settle b p = ⟨b, p⟩) ∨
      ∃ pre B, p = pre ++ none :: B ∧ letters pre = [] ∧ Settled B ∧
        settle b p = ⟨some B, B⟩ := by
  induction p generalizing b with
  | nil => exact Or.inl ⟨by simp [Settled], rfl⟩
  | cons o p ih =>
    cases o with
    | some a => exact Or.inl ⟨by simp [Settled], rfl⟩
    | none =>
      right
      rcases ih (some p) with ⟨hp, hsettle⟩ | ⟨pre, B, rfl, hpre, hB, hsettle⟩
      · exact ⟨[], p, rfl, rfl, hp, hsettle⟩
      · exact ⟨none :: pre, B, rfl, hpre, hB, hsettle⟩

theorem matches_stars {pre : Pattern α} (hpre : letters pre = []) :
    Matches (pre ++ none :: B) w ↔ Matches (none :: B) w := by
  induction pre generalizing w with
  | nil => rfl
  | cons o pre ih =>
    cases o with
    | some a => cases hpre
    | none =>
      rw [List.cons_append, matches_star]
      constructor
      · rintro ⟨x, v, rfl, h⟩
        exact ((ih hpre).mp h).star_append x
      · intro h
        exact ⟨[], w, rfl, (ih hpre).mpr h⟩

/-! ## Overlaps -/

/-- Behind a star stands `u`, with no `c` behind it, and the piece starts as well with an end
`u'` of `u` and `c`: a matcher that reads `u` and `c` may not start anew at `c`. -/
structure Overlap (B : Pattern α) (u u' : List α) (c : α) (ts tl : Pattern α) : Prop where
  split : B = u.map some ++ ts
  settled : Settled ts
  stops : ts.head? ≠ some (some c)
  nonempty : u' ≠ []
  suffix : u' <:+ u
  again : B = (u' ++ [c]).map some ++ tl

def OverlapFree (P : Pattern α) : Prop :=
  ∀ pre B u u' c ts tl, P = pre ++ none :: B → ¬ Overlap B u u' c ts tl

theorem overlapFree_of_head (h : ∀ pre b B, P = pre ++ none :: some b :: B → b ∉ letters B) :
    OverlapFree P := by
  intro pre B u u' c ts tl hP hover
  obtain ⟨b, u'', rfl⟩ := List.exists_cons_of_ne_nil hover.nonempty
  have hB : B = some b :: ((u'' ++ [c]).map some ++ tl) := hover.again
  obtain ⟨x, hx⟩ := hover.suffix
  cases x with
  | nil =>
    -- then `c` stands where the piece was said to stop
    have hu : u = b :: u'' := hx.symm
    have hts : ts = some c :: tl := by
      have heq := hover.split.symm.trans hover.again
      rw [hu, List.map_append, List.append_assoc] at heq
      exact List.append_cancel_left heq
    exact hover.stops (by rw [hts]; rfl)
  | cons a x =>
    have hB' : B = some a :: ((x ++ b :: u'').map some ++ ts) := by
      rw [hover.split, ← hx]
      rfl
    have hhead : a = b := by
      rw [hB] at hB'
      exact (Option.some.inj (List.cons.inj hB').1).symm
    subst hhead
    refine h pre a _ (by rw [hP, hB']) ?_
    rw [letters_append, letters_map_some]
    exact List.mem_append_left _ (List.mem_append_right _ List.mem_cons_self)

theorem overlapFree_star (h : a ∉ u) : OverlapFree (none :: some a :: u.map some) := by
  apply overlapFree_of_head
  intro pre b B hP
  cases pre with
  | nil =>
    obtain ⟨hb, rfl⟩ := List.cons.inj (List.cons.inj hP).2
    rw [← Option.some.inj hb, letters_map_some]
    exact h
  | cons o pre =>
    have hmem : none ∈ (a :: u).map some := by
      rw [List.map_cons, (List.cons.inj hP).2]
      exact List.mem_append_right _ List.mem_cons_self
    simp at hmem

theorem head_of_matches (hp : Settled p) (h : Matches p (c :: v)) :
    p.head? = some (some c) := by
  cases h with
  | letter _ _ => rfl
  | starEnd _ => exact absurd rfl hp
  | starOn _ _ => exact absurd rfl hp

theorem matches_anew (hfree : ∀ u' tl, ¬ Overlap B u u' c ts tl) (hsplit : B = u.map some ++ ts)
    (hts : Settled ts) (hstop : ts.head? ≠ some (some c))
    (h : Matches (none :: B) (u ++ c :: v)) : Matches (none :: B) (c :: v) := by
  obtain ⟨x, y, hxy, hy⟩ := matches_star.mp h
  rcases List.append_eq_append_iff.mp hxy with ⟨z, rfl, hz⟩ | ⟨u', hu, rfl⟩
  · rw [hz]
    exact hy.star z
  -- the match starts in `u`, at its end `u'`
  by_cases hne : u' = []
  · subst hne
    exact hy.starEnd
  exfalso
  have hlen : u'.length ≤ u.length := by
    rw [hu, List.length_append]
    omega
  have hparts : u = u.take u'.length ++ u.drop u'.length := (List.take_append_drop ..).symm
  have hB : B = (u.take u'.length).map some ++ ((u.drop u'.length).map some ++ ts) := by
    rw [hsplit, ← List.append_assoc, ← List.map_append, ← hparts]
  rw [hB] at hy
  obtain ⟨w, hw, hrest⟩ := matches_map_some.mp hy
  have hfront : u'.length = (u.take u'.length).length := by
    rw [List.length_take, Nat.min_eq_left hlen]
  obtain ⟨hu', rfl⟩ := List.append_inj hw hfront
  rw [← hu'] at hB
  cases hdrop : u.drop u'.length with
  | nil =>
    rw [hdrop] at hrest
    exact hstop (head_of_matches hts hrest)
  | cons d g =>
    rw [hdrop] at hB hrest
    obtain ⟨_, hcons, -⟩ := matches_letter.mp hrest
    obtain ⟨rfl, -⟩ := List.cons.inj hcons
    refine hfree u' (g.map some ++ ts) ⟨hsplit, hts, hstop, hne, ⟨x, hu.symm⟩, ?_⟩
    rw [hB]
    simp

/-! ## What the matcher finds -/

/-- The place after `w` was read: without a star `w` is the front of the pattern; behind a
star the word goes on as what was read since. -/
inductive Reads (P : Pattern α) : List α → Place α → Prop
  | front {w : List α} {rest : Pattern α} : P = w.map some ++ rest → Reads P w ⟨none, rest⟩
  | star {w u : List α} {rest B pre : Pattern α} : P = pre ++ none :: B → Settled B →
      B = u.map some ++ rest → (∀ v, Matches (none :: B) (u ++ v) → Matches P (w ++ v)) →
      (OverlapFree P → ∀ v, Matches P (w ++ v) → Matches (none :: B) (u ++ v)) →
      Reads P w ⟨some B, rest⟩

variable {s : Place α}

theorem Reads.settle {b : Option (Pattern α)} {rest : Pattern α} (h : Reads P w ⟨b, rest⟩) :
    Reads P w (settle b rest) ∧ Settled (settle b rest).rest := by
  rcases settle_cases b rest with ⟨hrest, hsettle⟩ | ⟨pre', B', hrest, hpre', hB', hsettle⟩
  · rw [hsettle]
    exact ⟨h, hrest⟩
  rw [hsettle]
  refine ⟨?_, hB'⟩
  cases h with
  | front hP =>
    have hiff : ∀ v, Matches P (w ++ v) ↔ Matches (none :: B') v := by
      intro v
      rw [hP, hrest, matches_map_some]
      constructor
      · rintro ⟨v', hv, h⟩
        rw [List.append_cancel_left hv]
        exact (matches_stars hpre').mp h
      · intro h
        exact ⟨v, rfl, (matches_stars hpre').mpr h⟩
    have hsplit : P = (w.map some ++ pre') ++ none :: B' := by
      rw [hP, hrest, List.append_assoc]
    exact .star (u := []) hsplit hB' rfl (fun v => (hiff v).mpr) fun _ v => (hiff v).mp
  | @star u _ B pre hP hB hu hsound hcomplete =>
    -- the letters up to the next star are matched where they were read
    have hon : ∀ v, Matches (none :: B') v → Matches (none :: B) (u ++ v) := by
      intro v h
      rw [hu, hrest]
      exact .starEnd (matches_map_some.mpr ⟨v, rfl, (matches_stars hpre').mpr h⟩)
    have hback : ∀ v, Matches (none :: B) (u ++ v) → Matches (none :: B') v := by
      intro v h
      obtain ⟨x, y, hxy, hy⟩ := matches_star.mp h
      rw [hu, hrest] at hy
      obtain ⟨y', rfl, hy'⟩ := matches_map_some.mp hy
      have hsuffix : y' <:+ v := by
        have hlen := congrArg List.length hxy
        simp only [List.length_append] at hlen
        have hsuffix : u ++ y' <:+ u ++ v := ⟨x, hxy.symm⟩
        exact List.suffix_of_suffix_length_le ((List.suffix_append u y').trans hsuffix)
          (List.suffix_append u v) (by omega)
      obtain ⟨z, rfl⟩ := hsuffix
      exact ((matches_stars hpre').mp hy').star_append z
    have hsplit : P = (pre ++ none :: (u.map some ++ pre')) ++ none :: B' := by
      rw [hP, hu, hrest]
      simp
    exact .star (u := []) hsplit hB' rfl (fun v h => hsound v (hon v h))
      fun hfree v h => hback v (hcomplete hfree v h)

section
variable [DecidableEq α]

theorem Reads.step (h : Reads P w s) (hs : Settled s.rest) (c : α) :
    (∃ s', s.step c = some s' ∧ Reads P (w ++ [c]) s' ∧ Settled s'.rest) ∨
      (s.step c = none ∧ ∀ v, ¬ Matches P (w ++ c :: v)) := by
  have hword : ∀ v, w ++ [c] ++ v = w ++ c :: v := fun v => by simp
  rw [Place.step]
  by_cases hhead : s.rest.head? = some (some c)
  · rw [if_pos hhead]
    left
    refine ⟨_, rfl, Reads.settle ?_⟩
    cases h with
    | @front rest hP =>
      obtain ⟨r, rfl⟩ : ∃ r, rest = some c :: r := List.head?_eq_some_iff.mp hhead
      exact .front (by rw [hP]; simp)
    | @star u rest B pre hP hB hu hsound hcomplete =>
      obtain ⟨r, rfl⟩ : ∃ r, rest = some c :: r := List.head?_eq_some_iff.mp hhead
      have hu' : ∀ v, u ++ [c] ++ v = u ++ c :: v := fun v => by simp
      refine .star (u := u ++ [c]) hP hB (by rw [hu]; simp) ?_ ?_
      · intro v hv
        rw [hu'] at hv
        rw [hword]
        exact hsound _ hv
      · intro hfree v hv
        rw [hword] at hv
        rw [hu']
        exact hcomplete hfree _ hv
  · rw [if_neg hhead]
    cases h with
    | @front rest hP =>
      right
      refine ⟨rfl, fun v hv => ?_⟩
      rw [hP] at hv
      obtain ⟨v', hv', hrest⟩ := matches_map_some.mp hv
      rw [← List.append_cancel_left hv'] at hrest
      exact hhead (head_of_matches hs hrest)
    | @star u rest B pre hP hB hu hsound hcomplete =>
      left
      have hsound' : ∀ v, Matches (none :: B) v → Matches P (w ++ v) := fun v hv =>
        hsound v (hv.star_append u)
      have hanew (hfree : OverlapFree P) (v : List α) (hv : Matches P (w ++ c :: v)) :
          Matches (none :: B) (c :: v) :=
        matches_anew (fun u' tl => hfree pre B u u' c rest tl hP) hu hs hhead
          (hcomplete hfree (c :: v) hv)
      simp only
      by_cases hfirst : B.head? = some (some c)
      · obtain ⟨B', rfl⟩ : ∃ r, B = some c :: r :=
          List.head?_eq_some_iff.mp hfirst
        rw [if_pos hfirst]
        refine ⟨_, rfl, Reads.settle (.star (u := [c]) hP hB rfl ?_ ?_)⟩
        · intro v hv
          rw [hword]
          exact hsound' _ hv
        · intro hfree v hv
          rw [hword] at hv
          exact hanew hfree v hv
      · rw [if_neg hfirst]
        refine ⟨_, rfl, .star (u := []) hP hB rfl ?_ ?_, hB⟩
        · intro v hv
          rw [hword]
          exact hsound' (c :: v) (hv.starOn c)
        · intro hfree v hv
          rw [hword] at hv
          cases hanew hfree v hv with
          | starEnd h => exact absurd (head_of_matches hB h) hfirst
          | starOn _ h => exact h

theorem Reads.run (h : Reads P w s) (hs : Settled s.rest) (v : List α) :
    (∃ s', s.run v = some s' ∧ Reads P (w ++ v) s' ∧ Settled s'.rest) ∨
      (s.run v = none ∧ ¬ Matches P (w ++ v)) := by
  induction v generalizing w s with
  | nil =>
    rw [List.append_nil]
    exact Or.inl ⟨s, rfl, h, hs⟩
  | cons c v ih =>
    rw [Place.run]
    rcases h.step hs c with ⟨s', hstep, h', hs'⟩ | ⟨hstep, hno⟩
    · have hword : w ++ [c] ++ v = w ++ c :: v := by simp
      rw [hstep, Option.bind_some, ← hword]
      exact ih h' hs'
    · rw [hstep]
      exact Or.inr ⟨rfl, hno v⟩

/-- What the matcher accepts matches, and without overlaps it accepts all that matches. -/
theorem accepts_spec (P : Pattern α) (w : List α) :
    (accepts P w = true → Matches P w) ∧
      (OverlapFree P → Matches P w → accepts P w = true) := by
  have hstart : Reads P [] ⟨none, P⟩ := .front rfl
  obtain ⟨h, hs⟩ := hstart.settle
  rcases h.run hs w with ⟨s, hrun, hread, hrest⟩ | ⟨hrun, hno⟩
  · rw [List.nil_append] at hread
    rw [accepts, hrun]
    simp only [List.isEmpty_iff]
    cases hread with
    | @front rest hP =>
      constructor
      · rintro rfl
        rw [hP]
        exact matches_map_some.mpr ⟨[], by simp, .nil⟩
      · intro _ hm
        rw [hP] at hm
        obtain ⟨v, hv, hm⟩ := matches_map_some.mp hm
        have hnil : v = [] := by simpa using hv
        subst hnil
        cases hm with
        | nil => rfl
        | starEnd _ => exact absurd rfl hrest
    | @star u rest B pre hP hB hu hsound hcomplete =>
      constructor
      · rintro rfl
        have hm := hsound [] (.starEnd (by rw [hu]; exact matches_map_some.mpr ⟨[], rfl, .nil⟩))
        rwa [List.append_nil] at hm
      · intro hfree hm
        rw [← List.append_nil w] at hm
        obtain ⟨x, y, hxy, hy⟩ := matches_star.mp (hcomplete hfree [] hm)
        rw [hu] at hy
        obtain ⟨v, rfl, hv⟩ := matches_map_some.mp hy
        have hnil : v = [] := by
          have hlen := congrArg List.length hxy
          simp only [List.length_append, List.length_nil] at hlen
          exact List.length_eq_zero_iff.mp (by omega)
        subst hnil
        cases hv with
        | nil => rfl
        | starEnd _ => exact absurd rfl hrest
  · rw [List.nil_append] at hno
    rw [accepts, hrun]
    constructor
    · intro h
      cases h
    · intro _ hm
      exact absurd hm hno

/-! ## What an overlap costs -/

theorem run_letters (b : Option (Pattern α)) (p q : Pattern α) :
    ∃ b', (settle b (p ++ q)).run (letters p) = some (settle b' q) := by
  induction p generalizing b with
  | nil => exact ⟨b, rfl⟩
  | cons o p ih =>
    cases o with
    | none => exact ih (some (p ++ q))
    | some a =>
      obtain ⟨b', hrun⟩ := ih b
      refine ⟨b', ?_⟩
      rw [← hrun]
      simp [settle, Place.run, Place.step]

theorem run_map_some (b : Option (Pattern α)) (u : List α) (q : Pattern α) :
    (settle b (u.map some ++ q)).run u = some (settle b q) := by
  induction u with
  | nil => rfl
  | cons a u ih =>
    rw [← ih]
    simp [settle, Place.run, Place.step]

theorem run_append (s : Place α) (v w : List α) :
    s.run (v ++ w) = (s.run v).bind fun s' => s'.run w := by
  induction v generalizing s with
  | nil => rfl
  | cons c v ih =>
    rw [List.cons_append, Place.run, Place.run]
    cases hstep : s.step c with
    | none => rfl
    | some s' => exact ih s'

/-- The rest is never longer than what stands behind the star. -/
def Place.Fits (s : Place α) : Prop :=
  ∀ B, s.back = some B → (letters s.rest).length ≤ (letters B).length

omit [DecidableEq α] in
theorem fits_settle {b : Option (Pattern α)} {p : Pattern α} (h : Place.Fits ⟨b, p⟩) :
    (settle b p).Fits ∧ letters (settle b p).rest = letters p := by
  rcases settle_cases b p with ⟨-, hsettle⟩ | ⟨pre, B, rfl, hpre, -, hsettle⟩
  · rw [hsettle]
    exact ⟨h, rfl⟩
  · rw [hsettle]
    refine ⟨fun B' hB' => ?_, by simp [hpre]⟩
    cases hB'
    exact Nat.le_refl _

theorem fits_step (h : s.Fits) {s' : Place α} (hstep : s.step c = some s') :
    s'.Fits ∧ (letters s.rest).length ≤ (letters s'.rest).length + 1 := by
  have htail (p : Pattern α) : (letters p.tail).length ≤ (letters p).length ∧
      (letters p).length ≤ (letters p.tail).length + 1 := by
    cases p with
    | nil => exact ⟨Nat.le_refl _, Nat.zero_le _⟩
    | cons o p =>
      cases o with
      | none => exact ⟨Nat.le_refl _, Nat.le_succ _⟩
      | some a => exact ⟨Nat.le_succ _, Nat.le_refl _⟩
  rw [Place.step] at hstep
  split at hstep
  · cases hstep
    have hfits : Place.Fits ⟨s.back, s.rest.tail⟩ := fun B hB => Nat.le_trans (htail s.rest).1 (h B hB)
    obtain ⟨hs', hrest⟩ := fits_settle hfits
    rw [hrest]
    exact ⟨hs', (htail s.rest).2⟩
  · cases hback : s.back with
    | none =>
      rw [hback] at hstep
      cases hstep
    | some B =>
      rw [hback] at hstep
      simp only at hstep
      have hB := h B hback
      split at hstep
      · cases hstep
        have hfits : Place.Fits ⟨some B, B.tail⟩ := fun B' hB' => by
          cases hB'
          exact (htail B).1
        obtain ⟨hs', hrest⟩ := fits_settle hfits
        rw [hrest]
        exact ⟨hs', Nat.le_trans hB (htail B).2⟩
      · cases hstep
        refine ⟨fun B' hB' => ?_, Nat.le_trans hB (Nat.le_succ _)⟩
        cases hB'
        exact Nat.le_refl _

theorem step_back (hstop : ts.head? ≠ some (some c)) :
    Place.step ⟨some B, ts⟩ c = Place.step ⟨some B, B⟩ c := by
  rw [Place.step, Place.step, if_neg hstop]
  by_cases hfirst : B.head? = some (some c)
  · rw [if_pos hfirst]
    exact if_pos hfirst
  · rw [if_neg hfirst]

theorem fits_run (h : s.Fits) {s' : Place α} (hrun : s.run w = some s') :
    (letters s.rest).length ≤ (letters s'.rest).length + w.length := by
  induction w generalizing s with
  | nil =>
    cases hrun
    exact Nat.le_refl _
  | cons c w ih =>
    rw [Place.run] at hrun
    obtain ⟨t, hstep, hrun⟩ := Option.bind_eq_some_iff.mp hrun
    obtain ⟨ht, hle⟩ := fits_step h hstep
    have hle' := ih ht hrun
    rw [List.length_cons]
    omega

/-- With an overlap a word is missed: the match starts anew within `u`, but the matcher only
behind it. -/
theorem overlap_missed {pre : Pattern α} {u u' : List α} {tl : Pattern α}
    (hP : P = pre ++ none :: B) (h : Overlap B u u' c ts tl) :
    Matches P (letters pre ++ (u ++ c :: letters tl)) ∧
      accepts P (letters pre ++ (u ++ c :: letters tl)) = false := by
  obtain ⟨x, hx⟩ := h.suffix
  constructor
  · rw [hP]
    refine (matches_letters pre).append ?_
    rw [h.again, ← hx, List.append_assoc]
    refine Matches.star x (matches_map_some.mpr ⟨letters tl, by simp, matches_letters tl⟩)
  · -- up to `u` the matcher follows the pattern
    obtain ⟨b, hpre⟩ := run_letters none pre (none :: B)
    have hu : (settle b (none :: B)).run u = some ⟨some B, ts⟩ := by
      have hts : settle (some B) ts = ⟨some B, ts⟩ := by
        rcases settle_cases (some B) ts with ⟨-, hsettle⟩ | ⟨pre', B', rfl, hpre', -, -⟩
        · exact hsettle
        · cases pre' with
          | nil => exact absurd rfl h.settled
          | cons o pre' =>
            cases o with
            | none => exact absurd rfl h.settled
            | some a => cases hpre'
      rw [settle, ← hts, ← run_map_some (some B) u ts, ← h.split]
    rw [accepts, hP, run_append, hpre, Option.bind_some, run_append, hu, Option.bind_some,
      Place.run, step_back h.stops]
    -- it starts anew behind `u`, and then the rest is too long
    cases hstep : Place.step ⟨some B, B⟩ c with
    | none => rfl
    | some s' =>
      rw [Option.bind_some]
      have hfits : Place.Fits ⟨some B, B⟩ := fun B' hB' => by
        cases hB'
        exact Nat.le_refl _
      obtain ⟨hs', hle⟩ := fits_step hfits hstep
      cases hrun : s'.run (letters tl) with
      | none => rfl
      | some t =>
        have hle' := fits_run hs' hrun
        have hlen : (letters B).length = u'.length + ((letters tl).length + 1) := by
          rw [h.again]
          simp
        have hpos : 0 < u'.length := List.length_pos_iff.mpr h.nonempty
        cases hrest : t.rest with
        | cons _ _ => simp [hrest]
        | nil =>
          rw [hrest, letters_nil, List.length_nil] at hle'
          simp only at hle
          omega

omit [DecidableEq α] in
theorem letters_overlap {pre : Pattern α} {u u' : List α} {tl : Pattern α}
    (hP : P = pre ++ none :: B) (h : Overlap B u u' c ts tl) (ha : a ∈ letters pre ++ (u ++ c :: letters tl)) :
    a ∈ letters P := by
  have hu : a ∈ u → a ∈ letters B := by
    intro ha
    rw [h.split]
    simp [ha]
  have hagain : a ∈ c :: letters tl → a ∈ letters B := by
    intro ha
    rw [h.again]
    simp only [letters_append, letters_map_some, List.mem_append]
    rcases List.mem_cons.mp ha with rfl | ha
    · exact Or.inl (Or.inr (List.mem_singleton.mpr rfl))
    · exact Or.inr ha
  rw [hP, letters_append, letters_star]
  rcases List.mem_append.mp ha with ha | ha
  · exact List.mem_append_left _ ha
  · exact List.mem_append_right _ ((List.mem_append.mp ha).elim hu hagain)

/-- The matcher is exact just for the patterns without overlaps, also if only words over
some letters are read that include those of the pattern. -/
theorem accepts_iff_matches {Q : α → Prop} (hQ : ∀ a ∈ letters P, Q a) :
    (∀ w, (∀ a ∈ w, Q a) → (accepts P w = true ↔ Matches P w)) ↔ OverlapFree P := by
  constructor
  · intro h pre B u u' c ts tl hP hover
    obtain ⟨hm, hmiss⟩ := overlap_missed hP hover
    rw [(h _ fun a ha => hQ a (letters_overlap hP hover ha)).mpr hm] at hmiss
    cases hmiss
  · intro hfree w _
    exact ⟨(accepts_spec P w).1, (accepts_spec P w).2 hfree⟩

end

/-! ## The matches that are found -/

/-- The word `x` is passed over in front of `v` by whoever looks for `B`: it is cut into letters
that do not begin `B`, and into beginnings of `B` that the word does not go on with. -/
inductive Passes (B : Pattern α) : List α → List α → Prop
  | nil {v : List α} : Passes B [] v
  | letter {x v : List α} (c : α) : B.head? ≠ some (some c) → Passes B x v → Passes B (c :: x) v
  | breaks {u x v : List α} {c : α} {ts : Pattern α} : u ≠ [] → B = u.map some ++ ts →
      Settled ts → (x ++ v).head? = some c → ts.head? ≠ some (some c) → Passes B x v →
      Passes B (u ++ x) v

/-- Matching where no star takes the beginning of the match with it. -/
inductive Finds : Pattern α → List α → Prop
  | nil : Finds [] []
  | letter {p : Pattern α} {w : List α} (a : α) : Finds p w → Finds (some a :: p) (a :: w)
  | stars {p : Pattern α} {w : List α} : Finds (none :: p) w → Finds (none :: none :: p) w
  | star {p : Pattern α} {x v : List α} : Settled p → Passes p x v → Finds p v →
      Finds (none :: p) (x ++ v)

section
variable [DecidableEq α]

/-- The matcher ends in a place where nothing is left of the pattern. -/
def Place.Accepts (s : Place α) (w : List α) : Prop := ∃ s', s.run w = some s' ∧ s'.rest = []

variable {s : Place α} {b : Option (Pattern α)}

theorem accepts_iff (P : Pattern α) (w : List α) :
    accepts P w = true ↔ (settle none P).Accepts w := by
  rw [accepts, Place.Accepts]
  cases (settle none P).run w with
  | none => simp
  | some s => simp

theorem Place.accepts_nil : s.Accepts [] ↔ s.rest = [] :=
  ⟨fun ⟨_, h, hs⟩ => Option.some.inj h ▸ hs, fun h => ⟨s, rfl, h⟩⟩

theorem Place.accepts_cons {s' : Place α} (h : s.step c = some s') (v : List α) :
    s.Accepts (c :: v) ↔ s'.Accepts v := by
  rw [Place.Accepts, Place.run, h, Option.bind_some]
  rfl

omit [DecidableEq α] in
theorem settle_settled (hp : Settled p) : settle b p = ⟨b, p⟩ := by
  rcases settle_cases b p with ⟨-, h⟩ | ⟨pre, B, rfl, hpre, -, -⟩
  · exact h
  · cases pre with
    | nil => exact absurd rfl hp
    | cons o pre =>
      cases o with
      | none => exact absurd rfl hp
      | some a => cases hpre

theorem step_letter (b : Option (Pattern α)) (a : α) (p : Pattern α) :
    Place.step ⟨b, some a :: p⟩ a = some (settle b p) := by
  rw [Place.step]
  exact if_pos rfl

theorem step_skip (h : B.head? ≠ some (some c)) :
    Place.step ⟨some B, B⟩ c = some ⟨some B, B⟩ := by
  rw [Place.step, if_neg h]
  exact if_neg h

/-- The word stops following the pattern in front of `c`, and the matcher starts anew there. -/
def BreaksOff (B p : Pattern α) (v : List α) : Prop :=
  ∃ u ts c y, p = u.map some ++ ts ∧ Settled ts ∧ v = u ++ c :: y ∧ ts.head? ≠ some (some c) ∧
    Place.Accepts ⟨some B, B⟩ (c :: y)

theorem not_breaksOff_star : ¬ BreaksOff B (none :: p) v := by
  rintro ⟨u, ts, c, y, hp, hts, -⟩
  cases u with
  | nil =>
    obtain rfl : none :: p = ts := hp
    exact hts rfl
  | cons a u => cases hp

theorem not_breaksOff_nil : ¬ BreaksOff B p [] := by
  rintro ⟨u, ts, c, y, -, -, hv, -⟩
  exact absurd hv.symm (List.append_ne_nil_of_right_ne_nil u (List.cons_ne_nil c y))

theorem breaksOff_stop (hp : Settled p) (hstop : p.head? ≠ some (some c)) (v : List α) :
    BreaksOff B p (c :: v) ↔ Place.Accepts ⟨some B, B⟩ (c :: v) := by
  refine ⟨?_, fun h => ⟨[], p, c, v, rfl, hp, rfl, hstop, h⟩⟩
  rintro ⟨u, ts, d, y, rfl, -, hv, -, h⟩
  cases u with
  | nil =>
    obtain ⟨rfl, rfl⟩ := List.cons.inj hv
    exact h
  | cons a u =>
    obtain ⟨rfl, -⟩ := List.cons.inj hv
    exact absurd rfl hstop

theorem breaksOff_letter (c : α) (p : Pattern α) (v : List α) :
    BreaksOff B (some c :: p) (c :: v) ↔ BreaksOff B p v := by
  constructor
  · rintro ⟨u, ts, d, y, hp, hts, hv, hstop, h⟩
    cases u with
    | nil =>
      obtain rfl : some c :: p = ts := hp
      obtain ⟨rfl, -⟩ := List.cons.inj hv
      exact absurd rfl hstop
    | cons a u => exact ⟨u, ts, d, y, (List.cons.inj hp).2, hts, (List.cons.inj hv).2, hstop, h⟩
  · rintro ⟨u, ts, d, y, rfl, hts, rfl, hstop, h⟩
    exact ⟨c :: u, ts, d, y, rfl, hts, rfl, hstop, h⟩

theorem accepts_stop (hp : Settled p) (hstop : p.head? ≠ some (some c)) (v : List α) :
    (settle (some B) p).Accepts (c :: v) ↔ BreaksOff B p (c :: v) := by
  rw [settle_settled hp, breaksOff_stop hp hstop, Place.Accepts, Place.run, step_back hstop]
  rfl

/-- From a place behind the star the rest of the pattern is found, or the word breaks off. -/
theorem accepts_or_breaks (hstar : ∀ q v, none :: q <:+ p →
      ((settle (some B) (none :: q)).Accepts v ↔ Finds (none :: q) v)) (v : List α) :
    (settle (some B) p).Accepts v ↔ Finds p v ∨ BreaksOff B p v := by
  induction p generalizing v with
  | nil =>
    cases v with
    | nil => exact iff_of_true (Place.accepts_nil.mpr rfl) (Or.inl .nil)
    | cons c v =>
      rw [accepts_stop (by simp [Settled]) (by simp)]
      exact (or_iff_right nofun).symm
  | cons o p ih =>
    cases o with
    | none =>
      rw [hstar p v (List.suffix_refl _)]
      exact (or_iff_left not_breaksOff_star).symm
    | some a =>
      have ih := ih fun q v hq => hstar q v (hq.trans (List.suffix_cons _ _))
      cases v with
      | nil =>
        refine iff_of_false (fun h => ?_) (not_or.mpr ⟨nofun, not_breaksOff_nil⟩)
        exact absurd (Place.accepts_nil.mp h) (List.cons_ne_nil _ _)
      | cons c v =>
        by_cases hc : c = a
        · subst hc
          rw [show settle (some B) (some c :: p) = ⟨some B, some c :: p⟩ from rfl,
            Place.accepts_cons (step_letter _ _ _), ih, breaksOff_letter]
          refine or_congr_left ⟨.letter c, fun h => ?_⟩
          cases h with
          | letter _ h => exact h
        · have hstop : (some a :: p).head? ≠ some (some c) := fun h =>
            hc (Option.some.inj (Option.some.inj h)).symm
          rw [accepts_stop (by simp [Settled]) hstop]
          refine (or_iff_right fun h => ?_).symm
          cases h
          exact hc rfl

theorem star_accepts (hB : Settled B) (hstar : ∀ q v, none :: q <:+ B →
      ((settle (some B) (none :: q)).Accepts v ↔ Finds (none :: q) v)) (w : List α) :
    Place.Accepts ⟨some B, B⟩ w ↔ Finds (none :: B) w := by
  have hcut (v : List α) := accepts_or_breaks hstar v
  rw [settle_settled hB] at hcut
  constructor
  · intro h
    induction hlen : w.length using Nat.strongRecOn generalizing w with
    | _ n ih =>
      rcases (hcut w).mp h with hfind | ⟨u, ts, c, y, hsplit, hts, rfl, hstop, hback⟩
      · exact .star (x := []) hB .nil hfind
      · cases u with
        | nil =>
          obtain rfl : B = ts := hsplit
          rw [Place.accepts_cons (step_skip hstop)] at hback
          have hfinds := ih _ (by rw [← hlen]; simp) y hback rfl
          cases hfinds with
          | stars => exact absurd rfl hB
          | @star _ x _ _ hx hv => exact .star (x := c :: x) hB (.letter c hstop hx) hv
        | cons a u =>
          have hshort : (c :: y).length < n := by
            rw [← hlen, List.length_append, List.length_cons]
            exact Nat.lt_add_of_pos_left (Nat.succ_pos _)
          have hfinds := ih _ hshort (c :: y) hback rfl
          generalize hw : c :: y = w' at hfinds
          cases hfinds with
          | stars => exact absurd rfl hB
          | @star _ x v _ hx hv =>
            rw [← List.append_assoc]
            refine .star hB (.breaks (List.cons_ne_nil a u) hsplit hts ?_ hstop hx) hv
            rw [← hw]
            rfl
  · intro h
    cases h with
    | stars => exact absurd rfl hB
    | star _ hx hv =>
      induction hx with
      | nil => exact (hcut _).mpr (Or.inl hv)
      | letter c hstop _ ih =>
        rw [List.cons_append, Place.accepts_cons (step_skip hstop)]
        exact ih hv
      | @breaks u x v c ts _ hsplit hts hhead hstop _ ih =>
        obtain ⟨y, hy⟩ := List.head?_eq_some_iff.mp hhead
        have hrest := ih hv
        rw [hy] at hrest
        rw [List.append_assoc, hy]
        exact (hcut _).mpr (Or.inr ⟨u, ts, c, y, hsplit, hts, rfl, hstop, hrest⟩)

theorem stars_accepts (p : Pattern α) (b : Option (Pattern α)) (w : List α) :
    (settle b (none :: p)).Accepts w ↔ Finds (none :: p) w := by
  induction hlen : p.length using Nat.strongRecOn generalizing p b w with
  | _ n ih =>
    cases p with
    | nil =>
      refine star_accepts (by simp [Settled]) (fun q v hq => ?_) w
      exact absurd (List.suffix_nil.mp hq) (List.cons_ne_nil _ _)
    | cons o p =>
      cases o with
      | none =>
        rw [settle, ih p.length (by rw [← hlen]; simp) p _ w rfl]
        refine ⟨.stars, fun h => ?_⟩
        cases h with
        | stars h => exact h
        | star hB => exact absurd rfl hB
      | some a =>
        refine star_accepts (by simp [Settled]) (fun q v hq => ?_) w
        have hshort := hq.length_le
        exact ih q.length (by simp only [List.length_cons] at hshort hlen; omega) q _ v rfl

theorem accepts_iff_finds (P : Pattern α) (w : List α) : accepts P w = true ↔ Finds P w := by
  rw [accepts_iff]
  induction P generalizing w with
  | nil =>
    cases w with
    | nil => exact iff_of_true (Place.accepts_nil.mpr rfl) .nil
    | cons c w =>
      refine iff_of_false ?_ (by rintro ⟨⟩)
      rintro ⟨s', hrun, -⟩
      cases hrun
  | cons o p ih =>
    cases o with
    | none => exact stars_accepts p none w
    | some a =>
      cases w with
      | nil =>
        refine iff_of_false (fun h => ?_) (by rintro ⟨⟩)
        exact absurd (Place.accepts_nil.mp h) (List.cons_ne_nil _ _)
      | cons c w =>
        by_cases hc : c = a
        · subst hc
          rw [show settle none (some c :: p) = ⟨none, some c :: p⟩ from rfl,
            Place.accepts_cons (step_letter _ _ _), ih]
          refine ⟨.letter c, fun h => ?_⟩
          cases h with
          | letter _ h => exact h
        · have hstop : (some a :: p).head? ≠ some (some c) := fun h =>
            hc (Option.some.inj (Option.some.inj h)).symm
          refine iff_of_false ?_ fun h => ?_
          · rintro ⟨s', hrun, -⟩
            rw [show settle none (some a :: p) = ⟨none, some a :: p⟩ from rfl, Place.run,
              Place.step, if_neg hstop] at hrun
            cases hrun
          · cases h
            exact hc rfl

end

end Glob
