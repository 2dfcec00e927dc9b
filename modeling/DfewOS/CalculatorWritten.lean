import DfewOS.ExprGrammar

/-!
# The texts that the calculator makes a tree of

`Spells` writes the texts down from left to right: a text is put together from the texts of its
parts, and nothing is read. Any character that is not a blank is an operator between two terms, so
long as what stands in front of it does not take it. `Written` texts are all those that the parser
reads to their end.
-/

namespace DfewOS.Calculator
open Brackets

/-- The last prim of a text is a numeral or brackets; a bracket that stays open has the one that
closes it for its operator. -/
inductive Ending
  | numeral
  | closed
  | opened

def Ending.Precedes : Ending → List UInt8 → Prop
  | .numeral, s => ∀ c ∈ s.head?, isData c = false
  | .closed, _ => True
  | .opened, s => s.head? = some ')'.toUInt8

/-- A term is compound if it has a factor; of an expression the last term counts. -/
inductive Part
  | prim
  | term (compound : Bool)
  | expr (compound : Bool)

def Blank (b : List UInt8) : Prop := ∀ c ∈ b, isspace c = true

/-- Blanks can stand in front of a numeral and behind the first prim of a term, but not behind a
right operand of `*` or `/`: there they end the term, and in front of a bracket they keep it open. -/
inductive Spells : Part → Ending → List UInt8 → Expr → Prop
  | numeral {b d} : Blank b → digits d ≠ [] → behind d = [] → Spells .prim .numeral (b ++ d) (.num d)
  | brackets {k t w b e} : Spells (.expr k) t w e → Blank b → t.Precedes b → (k = true → b = []) →
      Balanced '('.toUInt8 ')'.toUInt8 0 (w ++ b) → Spells .prim .closed ('('.toUInt8 :: (w ++ b ++ [')'.toUInt8])) e
  | opened {t w b e} : Spells (.expr true) t w e → Blank b → t.Precedes b → b ≠ [] →
      Balanced '('.toUInt8 ')'.toUInt8 0 (w ++ b) → Spells .prim .opened ('('.toUInt8 :: (w ++ b)) e
  | single {t w e} : Spells .prim t w e → Spells (.term false) t w e
  | factor {k t w b c t' w' e e'} : Spells (.term k) t w e → Blank b → (k = true → b = []) →
      isFactor c = true → t.Precedes (b ++ [c]) → Spells .prim t' w' e' →
      Spells (.term true) t' (w ++ (b ++ c :: w')) (.bin c e e')
  | first {k t w e} : Spells (.term k) t w e → Spells (.expr k) t w e
  | operator {k t w b c k' t' w' e e'} : Spells (.expr k) t w e → Blank b → isspace c = false →
      (isFactor c = true → k = true ∧ b ≠ []) → t.Precedes (b ++ [c]) → Spells (.term k') t' w' e' →
      Spells (.expr k') t' (w ++ (b ++ c :: w')) (.bin c e e')

def Written (s : List UInt8) (e : Expr) : Prop :=
  ∃ k t w b, Spells (.expr k) t w e ∧ Blank b ∧ t.Precedes b ∧ s = w ++ b

variable {k : Bool} {t : Ending} {part : Part} {phase : Phase} {s b w R r u : List UInt8} {c : UInt8}
  {e e' : Expr}

/-! ## What is left behind a part -/

/-- Of the text `R` behind a part with such an end the parser has left `r`. -/
structure Leaves (k : Bool) (t : Ending) (R r : List UInt8) : Prop where
  precedes : t.Precedes R
  blanks : ∃ b, Blank b ∧ (t ≠ .opened → b = []) ∧ r = if k then b ++ R else skip (b ++ R)

theorem Blank.skip_append (h : Blank b) (s : List UInt8) : skip (b ++ s) = skip s :=
  List.dropWhile_append_of_pos h

theorem Blank.skip_eq (h : Blank b) : skip b = [] := List.dropWhile_eq_nil_iff.mpr h

theorem blank_of_skip (h : skip s = []) : Blank s := List.dropWhile_eq_nil_iff.mp h

theorem blank_takeWhile (s : List UInt8) : Blank (s.takeWhile isspace) := fun _ hc => List.mem_takeWhile_imp hc

theorem data_not_space (h : isData c = true) : isspace c = false := by
  by_contra hspace
  rw [Bool.not_eq_false, isspace, decide_eq_true_iff] at hspace
  rw [isData, decide_eq_true_iff, isdigit, decide_eq_true_iff] at h
  rcases h with ⟨hlow, -⟩ | rfl
  · rcases hspace with rfl | ⟨-, hhigh⟩
    · exact absurd hlow (by decide)
    · exact absurd (UInt8.le_trans hlow hhigh) (show ¬ '0'.toUInt8 ≤ 13 by decide)
  · exact absurd hspace (by decide)

theorem precedes_cons (s : List UInt8) : t.Precedes (c :: s) ↔ t.Precedes [c] := by
  cases t <;> exact Iff.rfl

theorem precedes_append (b : List UInt8) (s : List UInt8) :
    t.Precedes (b ++ c :: s) ↔ t.Precedes (b ++ [c]) := by
  cases b with
  | nil => exact precedes_cons s
  | cons d b => exact (precedes_cons _).trans (precedes_cons _).symm

theorem opened_append (hb : Blank b) (h : Ending.opened.Precedes (b ++ s)) :
    b = [] ∧ s.head? = some ')'.toUInt8 := by
  cases b with
  | nil => exact ⟨rfl, h⟩
  | cons d b =>
    obtain rfl := Option.some.inj h
    exact absurd (hb _ (List.mem_cons_self ..)) (by decide)

theorem precedes_blank (hb : Blank b) (h : t.Precedes b) : t ≠ .opened := by
  rintro rfl
  rw [← List.append_nil b] at h
  exact nomatch (opened_append hb h).2

theorem precedes_factor (hb : Blank b) (h : t.Precedes (b ++ c :: s)) (hc : isFactor c = true) :
    t ≠ .opened := by
  rintro rfl
  obtain rfl := Option.some.inj (opened_append hb h).2
  exact absurd hc (by decide)

theorem Leaves.skip_eq (h : Leaves k t R r) : skip r = skip R := by
  obtain ⟨b, hb, -, rfl⟩ := h.blanks
  split_ifs
  · exact hb.skip_append R
  · rw [skip_skip, hb.skip_append]

theorem leaves_self (h : t.Precedes R) : Leaves true t R R := ⟨h, [], nofun, fun _ => rfl, rfl⟩

theorem Leaves.skipped (h : Leaves true t R r) : Leaves false t R (skip r) := by
  obtain ⟨b, hb, ht, rfl⟩ := h.blanks
  exact ⟨h.precedes, b, hb, ht, rfl⟩

theorem Leaves.eq_of_closed (h : Leaves k t R r) (ht : t ≠ .opened) : r = if k then R else skip R := by
  obtain ⟨b, -, hb, rfl⟩ := h.blanks
  rw [hb ht, List.nil_append]

theorem Leaves.factor (h : Leaves k t (b ++ c :: s) r) (hb : Blank b) (hk : k = true → b = [])
    (hc : isFactor c = true) : r = c :: s := by
  rw [h.eq_of_closed (precedes_factor hb h.precedes hc)]
  split_ifs with hk'
  · rw [hk hk', List.nil_append]
  · rw [hb.skip_append, skip_of_not_space (factor_not_space hc)]

theorem Leaves.before_factor (h : Leaves k t R (c :: s)) (hc : isFactor c = true) :
    ∃ b, R = b ++ c :: s ∧ Blank b ∧ (k = true → b = []) := by
  have hskip := h.skip_eq
  rw [skip_of_not_space (factor_not_space hc)] at hskip
  have hR := takeWhile_append_skip R
  rw [← hskip] at hR
  refine ⟨R.takeWhile isspace, hR.symm, blank_takeWhile R, fun hk => ?_⟩
  rw [← hR] at h
  have ht := precedes_factor (blank_takeWhile R) h.precedes hc
  have heq := h.eq_of_closed ht
  rw [if_pos hk] at heq
  exact List.append_left_eq_self.mp heq.symm

theorem Leaves.head_operator (h : Leaves k t (b ++ c :: s) r) (hb : Blank b) (hspace : isspace c = false)
    (hc : isFactor c = true → k = true ∧ b ≠ []) : ∀ d ∈ r.head?, isFactor d = false := by
  intro d hd
  by_contra hfactor
  rw [Bool.not_eq_false] at hfactor
  obtain ⟨rest, rfl⟩ := List.head?_eq_some_iff.mp hd
  obtain ⟨b', heq, hb', hk⟩ := h.before_factor hfactor
  have hskip := congrArg skip heq
  rw [hb.skip_append, hb'.skip_append, skip_of_not_space hspace,
    skip_of_not_space (factor_not_space hfactor)] at hskip
  obtain ⟨rfl, rfl⟩ := List.cons.inj hskip
  obtain ⟨rfl, hne⟩ := hc hfactor
  rw [hk rfl, List.nil_append] at heq
  exact hne (List.append_left_eq_self.mp heq)

theorem Leaves.before_operator (h : Leaves k t R r) (hs : skip r = c :: s)
    (hhead : ∀ d ∈ r.head?, isFactor d = false) :
    ∃ b, R = b ++ c :: s ∧ Blank b ∧ (isFactor c = true → k = true ∧ b ≠ []) := by
  rw [h.skip_eq] at hs
  have hR := takeWhile_append_skip R
  rw [hs] at hR
  refine ⟨R.takeWhile isspace, hR.symm, blank_takeWhile R, fun hc => ?_⟩
  by_contra hnot
  rw [← hR] at h
  have hr : r = c :: s := h.factor (blank_takeWhile R) (fun hk => ?_) hc
  · rw [hr] at hhead
    exact Bool.false_ne_true ((hhead c rfl).symm.trans hc)
  · by_contra hne
    exact hnot ⟨hk, hne⟩

/-! ## What is written is read -/

/-- The parser reads the text of a part wherever it stands, and goes on behind it. -/
def Sound : Part → Ending → List UInt8 → Expr → Prop
  | .prim, t, w, e => ∀ R, t.Precedes R → ∃ u, Leaves true t R u ∧ Reads .prim (w ++ R) e u
  | .term k, t, w, e => ∀ R, t.Precedes R → ∃ u, Leaves k t R u ∧
      ∀ e' r, Reads (.terms e) u e' r → Reads .term (w ++ R) e' r
  | .expr k, t, w, e => ∀ R, t.Precedes R → ∃ u, Leaves k t R u ∧ ((∀ d ∈ u.head?, isFactor d = false) →
      ∀ e' r, Reads (.exprs e) u e' r → Reads .expr (w ++ R) e' r)

section Soundness
variable {d w' after : List UInt8} {k' : Bool} {t' : Ending}

theorem digits_append (hd : digits d ≠ []) (hwhole : behind d = []) (hR : ∀ c ∈ R.head?, isData c = false) :
    digits (d ++ R) = digits d ∧ behind (d ++ R) = R := by
  have hsign : sign (d ++ R) = sign d := by
    cases d with
    | nil => exact absurd rfl hd
    | cons c d => rfl
  have hlength : (sign d).length ≤ d.length := by
    have hall := congrArg List.length (numeral_append_behind d)
    rw [numeral, List.length_append, List.length_append] at hall
    omega
  have hdata : ∀ c ∈ d.drop (sign d).length, isData c = true := List.dropWhile_eq_nil_iff.mp hwhole
  have hnone : R.takeWhile isData = [] ∧ R.dropWhile isData = R := by
    cases R with
    | nil => exact ⟨rfl, rfl⟩
    | cons c R => simp [hR c rfl]
  rw [digits, behind, hsign, List.drop_append_of_le_length hlength, List.takeWhile_append_of_pos hdata,
    List.dropWhile_append_of_pos hdata, hnone.1, hnone.2, List.append_nil, digits,
    List.takeWhile_eq_self_iff.mpr hdata]
  exact ⟨rfl, rfl⟩

theorem digits_not_space (h : digits (c :: s) ≠ []) : isspace c = false := by
  rw [digits, sign] at h
  split_ifs at h with hc
  · rw [isSign, decide_eq_true_iff] at hc
    rcases hc with rfl | rfl <;> decide
  · refine data_not_space ?_
    by_contra hdata
    exact h (List.takeWhile_cons_of_neg hdata)

theorem sound_numeral (hb : Blank b) (hd : digits d ≠ []) (hwhole : behind d = []) :
    Sound .prim .numeral (b ++ d) (.num d) := by
  intro R hR
  obtain ⟨hdigits, hbehind⟩ := digits_append hd hwhole hR
  have hnum : numeral (d ++ R) = d := by
    have hall := numeral_append_behind (d ++ R)
    rw [hbehind] at hall
    exact List.append_cancel_right hall
  have hskip : skip (b ++ d ++ R) = d ++ R := by
    rw [List.append_assoc, hb.skip_append]
    cases d with
    | nil => exact absurd rfl hd
    | cons c d => exact skip_of_not_space (digits_not_space hd)
  have hsome : digits (skip (b ++ d ++ R)) ≠ [] := by
    rw [hskip, hdigits]
    exact hd
  have hread : Reads .prim (b ++ d ++ R) _ _ := .operand (operand_head hsome) hsome
  rw [hskip, hnum, hbehind] at hread
  exact ⟨R, leaves_self hR, hread⟩

/-- The expression in front of the bracket that closes is read, but for the blanks behind a factor. -/
theorem reads_inside (h : Sound (.expr k) t w e) (hb : Blank b) (ht : t.Precedes b)
    (hbalanced : Balanced '('.toUInt8 ')'.toUInt8 0 (w ++ b)) (after : List UInt8) :
    Reads .prim ('('.toUInt8 :: (w ++ b ++ ')'.toUInt8 :: after)) e
      ((if k then b else []) ++ ')'.toUInt8 :: after).tail := by
  obtain ⟨u, hleaves, hread⟩ := h b ht
  have heq := hleaves.eq_of_closed (precedes_blank hb ht)
  rw [hb.skip_eq] at heq
  have hskip : skip u = [] := hleaves.skip_eq.trans hb.skip_eq
  rw [← heq]
  refine .brackets ((closing_eq_some_iff (by decide)).mpr ⟨rfl, hbalanced⟩) ?_
  refine hread (head_skip_factor ?_) e u (.ends (.exprs hskip))
  rw [hskip]
  exact nofun

theorem sound_brackets (h : Sound (.expr k) t w e) (hb : Blank b) (ht : t.Precedes b)
    (hk : k = true → b = []) (hbalanced : Balanced '('.toUInt8 ')'.toUInt8 0 (w ++ b)) :
    Sound .prim .closed ('('.toUInt8 :: (w ++ b ++ [')'.toUInt8])) e := by
  intro R hR
  have hread := reads_inside h hb ht hbalanced R
  have hnone : (if k then b else []) = [] := by
    split_ifs with hk'
    · exact hk hk'
    · rfl
  rw [hnone] at hread
  refine ⟨R, leaves_self hR, ?_⟩
  rw [List.cons_append, List.append_assoc]
  exact hread

theorem sound_opened (h : Sound (.expr true) t w e) (hb : Blank b) (ht : t.Precedes b) (hne : b ≠ [])
    (hbalanced : Balanced '('.toUInt8 ')'.toUInt8 0 (w ++ b)) :
    Sound .prim .opened ('('.toUInt8 :: (w ++ b)) e := by
  intro R hR
  cases R with
  | nil => cases hR
  | cons d after =>
    obtain rfl := Option.some.inj hR
    cases b with
    | nil => exact absurd rfl hne
    | cons c b =>
      refine ⟨b ++ ')'.toUInt8 :: after, ⟨hR, b, ?_, fun h => absurd rfl h, rfl⟩, ?_⟩
      · exact fun c hc => hb c (List.mem_cons_of_mem _ hc)
      · exact reads_inside h hb ht hbalanced after

theorem sound_factor (h : Sound (.term k) t w e) (hb : Blank b) (hk : k = true → b = [])
    (hc : isFactor c = true) (ht : t.Precedes (b ++ [c])) (h' : Sound .prim t' w' e') :
    Sound (.term true) t' (w ++ (b ++ c :: w')) (.bin c e e') := by
  intro R hR
  obtain ⟨u, hleaves, hread⟩ := h (b ++ c :: (w' ++ R)) ((precedes_append b _).mpr ht)
  obtain ⟨u', hleaves', hread'⟩ := h' R hR
  refine ⟨u', hleaves', fun e₀ r hrest => ?_⟩
  rw [List.append_assoc, List.append_assoc, List.cons_append]
  obtain rfl := hleaves.factor hb hk hc
  exact hread e₀ r (.splits (.terms hc) hread' hrest)

theorem sound_single (h : Sound .prim t w e) : Sound (.term false) t w e := by
  intro R hR
  obtain ⟨u, hleaves, hread⟩ := h R hR
  exact ⟨skip u, hleaves.skipped, fun e' r hrest => .splits .term hread hrest⟩

theorem sound_first (h : Sound (.term k) t w e) : Sound (.expr k) t w e := by
  intro R hR
  obtain ⟨u, hleaves, hread⟩ := h R hR
  refine ⟨u, hleaves, fun hhead e' r hrest => ?_⟩
  exact .splits .expr (hread e u (.ends (.terms hhead))) hrest

theorem sound_operator (h : Sound (.expr k) t w e) (hb : Blank b) (hspace : isspace c = false)
    (hc : isFactor c = true → k = true ∧ b ≠ []) (ht : t.Precedes (b ++ [c]))
    (h' : Sound (.term k') t' w' e') : Sound (.expr k') t' (w ++ (b ++ c :: w')) (.bin c e e') := by
  intro R hR
  obtain ⟨u, hleaves, hread⟩ := h (b ++ c :: (w' ++ R)) ((precedes_append b _).mpr ht)
  obtain ⟨u', hleaves', hread'⟩ := h' R hR
  refine ⟨u', hleaves', fun hhead e₀ r hrest => ?_⟩
  rw [List.append_assoc, List.append_assoc, List.cons_append]
  have hskip : skip u = c :: (w' ++ R) := by
    rw [hleaves.skip_eq, hb.skip_append, skip_of_not_space hspace]
  refine hread (hleaves.head_operator hb hspace hc) e₀ r (.splits (.exprs hskip) ?_ hrest)
  exact hread' e' u' (.ends (.terms hhead))

end Soundness

theorem spells_sound (h : Spells part t w e) : Sound part t w e := by
  induction h with
  | numeral hb hd hwhole => exact sound_numeral hb hd hwhole
  | brackets _ hb ht hk hbalanced ih => exact sound_brackets ih hb ht hk hbalanced
  | opened _ hb ht hne hbalanced ih => exact sound_opened ih hb ht hne hbalanced
  | single _ ih => exact sound_single ih
  | factor _ hb hk hc ht _ ih ih' => exact sound_factor ih hb hk hc ht ih'
  | first _ ih => exact sound_first ih
  | operator _ hb hspace hc ht _ ih ih' => exact sound_operator ih hb hspace hc ht ih'

theorem written_reads (h : Written s e) : ∃ r, Reads .expr s e r := by
  obtain ⟨k, t, w, b, hspells, hb, ht, rfl⟩ := h
  obtain ⟨u, hleaves, hread⟩ := spells_sound hspells b ht
  have hskip : skip u = [] := hleaves.skip_eq.trans hb.skip_eq
  refine ⟨u, hread (head_skip_factor ?_) e u (.ends (.exprs hskip))⟩
  rw [hskip]
  exact nofun

/-! ## What is read is written -/

def Complete : Phase → List UInt8 → Expr → List UInt8 → Prop
  | .prim, s, e, r => ∃ t w R, s = w ++ R ∧ Leaves true t R r ∧ Spells .prim t w e
  | .term, s, e, r => ∃ k t w R, s = w ++ R ∧ Leaves k t R r ∧ (∀ d ∈ r.head?, isFactor d = false) ∧
      Spells (.term k) t w e
  | .terms x, s, e, r => ∀ k t w R, Leaves k t R s → Spells (.term k) t w x →
      ∃ k' t' w' R', w ++ R = w' ++ R' ∧ Leaves k' t' R' r ∧ (∀ d ∈ r.head?, isFactor d = false) ∧
        Spells (.term k') t' w' e
  | .expr, s, e, r => ∃ k t w b, s = w ++ b ∧ Leaves k t b r ∧ Blank b ∧ Spells (.expr k) t w e
  | .exprs x, s, e, r => ∀ k t w R, Leaves k t R s → (∀ d ∈ s.head?, isFactor d = false) →
      Spells (.expr k) t w x →
        ∃ k' t' w' b, w ++ R = w' ++ b ∧ Leaves k' t' b r ∧ Blank b ∧ Spells (.expr k') t' w' e

section Completeness
variable {x : Expr} {inside after s₁ s₂ : List UInt8}

theorem numeral_whole (hs : digits s ≠ []) : digits (numeral s) = digits s ∧ behind (numeral s) = [] := by
  have hsign : sign (numeral s) = sign s := by
    cases s with
    | nil => exact absurd rfl hs
    | cons c s =>
      by_cases hc : isSign c = true
      · simp [numeral, sign, hc]
      · cases hd : digits (c :: s) with
        | nil => exact absurd hd hs
        | cons d ds =>
          have hfirst := hd
          rw [digits, sign, if_neg hc, List.length_nil, List.drop_zero, List.takeWhile_cons] at hfirst
          split_ifs at hfirst
          obtain rfl := (List.cons.inj hfirst).1
          simp [numeral, sign, hc, hd]
  have hrest : (numeral s).drop (sign s).length = digits s := List.drop_left
  have hdata : ∀ c ∈ digits s, isData c = true := fun c hc => List.mem_takeWhile_imp hc
  rw [behind, digits, hsign, hrest]
  exact ⟨List.takeWhile_eq_self_iff.mpr hdata, List.dropWhile_eq_nil_iff.mpr hdata⟩

theorem complete_operand (hs : digits (skip s) ≠ []) :
    Complete .prim s (.num (numeral (skip s))) (behind (skip s)) := by
  obtain ⟨hdigits, hwhole⟩ := numeral_whole hs
  have hpre : Ending.numeral.Precedes (behind (skip s)) := by
    intro c hc
    have hhead := List.head?_dropWhile_not isData ((skip s).drop (sign (skip s)).length)
    rwa [show ((skip s).drop (sign (skip s)).length |>.dropWhile isData).head? = some c from hc] at hhead
  refine ⟨.numeral, s.takeWhile isspace ++ numeral (skip s), behind (skip s), ?_, leaves_self hpre, ?_⟩
  · rw [List.append_assoc, numeral_append_behind, takeWhile_append_skip]
  · exact .numeral (blank_takeWhile s) (hdigits ▸ hs) hwhole

theorem complete_brackets {rest : List UInt8}
    (hc : closing '('.toUInt8 ')'.toUInt8 1 s = some (inside, after)) (h : Complete .expr inside e rest) :
    Complete .prim ('('.toUInt8 :: s) e (rest ++ ')'.toUInt8 :: after).tail := by
  obtain ⟨k, t, w, b, rfl, hleaves, hb, hspells⟩ := h
  obtain ⟨rfl, hbalanced⟩ := (closing_eq_some_iff (by decide)).mp hc
  have hrest := hleaves.eq_of_closed (precedes_blank hb hleaves.precedes)
  rw [hb.skip_eq] at hrest
  subst hrest
  by_cases hk : k = true → b = []
  · have hnone : (if k then b else []) = [] := by
      split_ifs with hk'
      · exact hk hk'
      · rfl
    rw [hnone]
    refine ⟨.closed, _, after, ?_, leaves_self trivial, .brackets hspells hb hleaves.precedes hk hbalanced⟩
    rw [List.cons_append, List.append_assoc (w ++ b)]
    rfl
  · obtain ⟨rfl, hne⟩ := Classical.not_imp.mp hk
    refine ⟨.opened, _, ')'.toUInt8 :: after, rfl, ?_, .opened hspells hb hleaves.precedes hne hbalanced⟩
    cases b with
    | nil => exact absurd rfl hne
    | cons c b =>
      exact ⟨rfl, b, fun c hc => hb c (List.mem_cons_of_mem _ hc), fun h => absurd rfl h, rfl⟩

theorem complete_termsEnd (hs : ∀ d ∈ s.head?, isFactor d = false) : Complete (.terms x) s x s :=
  fun _ _ _ _ hleaves hspells => ⟨_, _, _, _, rfl, hleaves, hs, hspells⟩

theorem complete_exprsEnd (hs : skip s = []) : Complete (.exprs x) s x s := by
  intro k t w R hleaves _ hspells
  refine ⟨k, t, w, R, rfl, hleaves, blank_of_skip ?_, hspells⟩
  rw [← hleaves.skip_eq, hs]

theorem complete_term (h : Complete .prim s x s₁) (h' : Complete (.terms x) (skip s₁) e r) :
    Complete .term s e r := by
  obtain ⟨t, w, R, rfl, hleaves, hspells⟩ := h
  exact h' false t w R hleaves.skipped (.single hspells)

theorem complete_terms (hc : isFactor c = true) (h : Complete .prim s e s₁)
    (h' : Complete (.terms (.bin c x e)) s₁ e' r) : Complete (.terms x) (c :: s) e' r := by
  intro k t w R hleaves hspells
  obtain ⟨t', w', R', rfl, hleaves', hspells'⟩ := h
  obtain ⟨b, rfl, hb, hk⟩ := hleaves.before_factor hc
  have ht := (precedes_append b _).mp hleaves.precedes
  have hmore := h' true t' _ R' hleaves' (.factor hspells hb hk hc ht hspells')
  rwa [List.append_assoc, List.append_assoc, List.cons_append] at hmore

theorem complete_expr (h : Complete .term s x s₁) (h' : Complete (.exprs x) s₁ e r) :
    Complete .expr s e r := by
  obtain ⟨k, t, w, R, rfl, hleaves, hhead, hspells⟩ := h
  exact h' k t w R hleaves hhead (.first hspells)

theorem complete_exprs (hs : skip s = c :: s₁) (h : Complete .term s₁ e s₂)
    (h' : Complete (.exprs (.bin c x e)) s₂ e' r) : Complete (.exprs x) s e' r := by
  intro k t w R hleaves hhead hspells
  obtain ⟨k', t', w', R', rfl, hleaves', hhead', hspells'⟩ := h
  obtain ⟨b, rfl, hb, hc⟩ := hleaves.before_operator hs hhead
  have ht := (precedes_append b _).mp hleaves.precedes
  have hmore := h' k' t' _ R' hleaves' hhead' (.operator hspells hb (skip_head hs) hc ht hspells')
  rwa [List.append_assoc, List.append_assoc, List.cons_append] at hmore

end Completeness

theorem reads_complete (h : Reads phase s e r) : Complete phase s e r := by
  induction h with
  | operand _ hd => exact complete_operand hd
  | brackets hc _ ih => exact complete_brackets hc ih
  | ends h =>
    cases h with
    | terms hs => exact complete_termsEnd hs
    | exprs hs => exact complete_exprsEnd hs
  | splits hs _ _ ih ih' =>
    cases hs with
    | term => exact complete_term ih ih'
    | terms hc => exact complete_terms hc ih ih'
    | expr => exact complete_expr ih ih'
    | exprs hs => exact complete_exprs hs ih ih'

theorem written_iff : Written s e ↔ ∃ r, Reads .expr s e r := by
  refine ⟨written_reads, ?_⟩
  rintro ⟨r, hread⟩
  obtain ⟨k, t, w, b, rfl, hleaves, hb, hspells⟩ := reads_complete hread
  exact ⟨k, t, w, b, hspells, hb, hleaves.precedes, rfl⟩

end DfewOS.Calculator
