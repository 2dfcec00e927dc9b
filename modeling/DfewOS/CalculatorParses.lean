import DfewOS.CalculatorWritten

/-!
# Where the calculator parses its grammar

A text is derived and read side by side. As long as the left operands of the one tree are the left
operands of the other, both have taken the same tokens, unless a blank behind a right operand has
ended a term too soon or was taken for the bracket behind it. A text that is not well-formed is
answered as illegal if the parser makes no tree of it or if the tree has an unknown operator at
its root.
-/

namespace DfewOS.Calculator
open Brackets
open NulText (Text)

def Stray (s : List UInt8) : Prop := ∃ t, skip s = ')'.toUInt8 :: t

def NoFactor (s : List UInt8) : Prop := ∀ d ∈ (skip s).head?, isFactor d = false

/-- The trees `e` and `e'` are left operands in one expression of the grammar. -/
structure Meeting (e e' E : Expr) : Prop where
  proper : E.Proper
  derived : Spine e E
  read : Spine e' E

section Meetings
variable {x e e' E : Expr} {c : UInt8}

theorem Meeting.sub {y y' : Expr} (h : Meeting e e' E) (hy : Spine y e) (hy' : Spine y' e') :
    Meeting y y' E :=
  ⟨h.proper, hy.trans h.derived, hy'.trans h.read⟩

theorem Meeting.right {y y' : Expr} {d : UInt8} (h : Meeting (.bin c x y) (.bin d x y') E) :
    y' = y ∧ Meeting y y y := by
  have hproper := h.derived.proper h.proper
  exact ⟨h.derived.next h.read, hproper.2.2, .refl, .refl⟩

end Meetings

/-- A prim is read as it is derived, or a bracket is left over. -/
def AgreesPrim (s : List UInt8) (e : Expr) (r : List UInt8) : Prop :=
  ∀ E e' r', Meeting e e' E → Reads .prim s e' r' → e' = e ∧ (r' = r ∧ Clean .prim s e r ∨ Stray r')

/-- What reading `s` in `phase` comes to if it derives `e` and leaves `r`. -/
inductive Outcomes (phase : Phase) (s : List UInt8) (e : Expr) (r r' : List UInt8) : Expr → Prop
  | same : Clean phase s e r' → skip r' = skip r → Outcomes phase s e r r' e
  | stray {e'} : Stray r' → Outcomes phase s e r r' e'
  | short {e' c t q t'} : Clean phase s e' r' → skip r' = c :: t → isFactor c = true →
      Derives .prim t q t' → AgreesPrim t q t' → Derives (.terms (.bin c e' q)) t' e r →
      Outcomes phase s e r r' e'

/-- What holds of a derivation. -/
def Agrees : Phase → List UInt8 → Expr → List UInt8 → Prop
  | .prim, s, e, r => AgreesPrim s e r
  | .term, s, e, r => NoFactor r → ∀ E e' r', Meeting e e' E → Reads .term s e' r' →
      Outcomes .term s e r r' e'
  | .terms x, s, e, r => NoFactor r → ∀ E s' e' r', Meeting e e' E → skip s' = skip s →
      Reads (.terms x) s' e' r' → Outcomes (.terms x) s' e r r' e'
  | .expr, s, e, r => skip r = [] → ∀ E e' r', Meeting e e' E → Reads .expr s e' r' →
      e' = e ∧ Clean .expr s e r'
  | .exprs x, s, e, r => skip r = [] → ∀ E s' e' r', Meeting e e' E → skip s' = skip s →
      Reads (.exprs x) s' e' r' → e' = e ∧ Clean (.exprs x) s' e r'

/-! ## Reading step by step -/

variable {x e e' E : Expr} {c : UInt8} {s s' r r' t : List UInt8} {phase : Phase}

theorem reads_prim_brackets (h : Reads .prim s e r) (hs : skip s = '('.toUInt8 :: t) :
    s = '('.toUInt8 :: t ∧ ∃ inside after rest, closing '('.toUInt8 ')'.toUInt8 1 t = some (inside, after) ∧
      Reads .expr inside e rest ∧ r = (rest ++ ')'.toUInt8 :: after).tail := by
  cases h with
  | operand _ hd =>
    rw [hs] at hd
    exact absurd rfl hd
  | brackets hc hr =>
    rw [skip_of_not_space (by decide)] at hs
    obtain rfl := (List.cons.inj hs).2
    exact ⟨rfl, _, _, _, hc, hr, rfl⟩
  | ends h => cases h
  | splits h => cases h

theorem reads_end (h : Reads phase s e r) (hphase : phase = .expr ∨ ∃ x, phase = .exprs x) :
    skip r = [] := by
  induction h with
  | operand | brackets => simp at hphase
  | ends h =>
    cases h with
    | terms => simp at hphase
    | exprs hs => exact hs
  | splits hs _ _ _ ih =>
    cases hs with
    | term | terms => simp at hphase
    | expr | exprs => exact ih (Or.inr ⟨_, rfl⟩)

theorem reads_terms_cons (hc : isFactor c = true) (h : Reads (.terms x) (c :: t) e r) :
    ∃ q u, Reads .prim t q u ∧ Reads (.terms (.bin c x q)) u e r := by
  cases h with
  | ends h =>
    cases h with
    | terms hs => cases hc.symm.trans (hs _ rfl)
  | splits h hr hr' =>
    cases h with
    | terms => exact ⟨_, _, hr, hr'⟩

theorem reads_terms_end (hs : ∀ d ∈ s.head?, isFactor d = false) (h : Reads (.terms x) s e r) :
    e = x ∧ r = s :=
  (only_ends (.terms hs) e r).mp h

theorem reads_exprs_cons (hs : skip s = c :: t) (h : Reads (.exprs x) s e r) :
    ∃ q u, Reads .term t q u ∧ Reads (.exprs (.bin c x q)) u e r := by
  cases h with
  | ends h =>
    cases h with
    | exprs hnil => cases hnil.symm.trans hs
  | splits h hr hr' =>
    cases h with
    | exprs hs' =>
      obtain ⟨rfl, rfl⟩ := List.cons.inj (hs'.symm.trans hs)
      exact ⟨_, _, hr, hr'⟩

theorem stray_exprs (h : Stray s) (hproper : e.Proper) : ¬ Reads (.exprs x) s e r := by
  intro hr
  obtain ⟨t, hs⟩ := h
  obtain ⟨q, u, -, hr'⟩ := reads_exprs_cons hs hr
  have hop := ((reads_spine hr' _ rfl).proper hproper).1
  exact absurd hop (by decide)

theorem stray_head (h : Stray s) : ∀ d ∈ s.head?, isFactor d = false := by
  obtain ⟨t, hs⟩ := h
  refine head_skip_factor fun d hd => ?_
  rw [hs] at hd
  obtain rfl := Option.some.inj hd
  rfl

theorem stray_terms (h : Stray s) (hr : Reads (.terms x) s e r) : e = x ∧ Stray r := by
  obtain ⟨rfl, rfl⟩ := reads_terms_end (stray_head h) hr
  exact ⟨rfl, h⟩

theorem reads_term_cases (h : Reads .term s e r) :
    ∃ q u, Reads .prim s q u ∧ Reads (.terms q) (skip u) e r := by
  cases h with
  | ends h => cases h
  | splits h hr hr' =>
    cases h with
    | term => exact ⟨_, _, hr, hr'⟩

theorem reads_expr_cases (h : Reads .expr s e r) :
    ∃ q u, Reads .term s q u ∧ Reads (.exprs q) u e r := by
  cases h with
  | ends h => cases h
  | splits h hr hr' =>
    cases h with
    | expr => exact ⟨_, _, hr, hr'⟩

/-! ## Side by side -/

section Agreement
variable {e₀ q : Expr} {s₁ s₂ inside after : List UInt8}

theorem agrees_numeral (hd : digits (skip s) ≠ []) :
    AgreesPrim s (.num (numeral (skip s))) (behind (skip s)) := by
  intro E e' r' _ hr
  obtain ⟨rfl, rfl⟩ := (only_operand (operand_head hd) hd e' r').mp hr
  exact ⟨rfl, Or.inl ⟨rfl, .numeral hd⟩⟩

theorem agrees_brackets (hs : skip s = '('.toUInt8 :: t)
    (hc : closing '('.toUInt8 ')'.toUInt8 1 t = some (inside, after)) (hr : skip r = [])
    (ih : Agrees .expr inside e r) : AgreesPrim s e after := by
  intro E e' r' hm hread
  obtain ⟨rfl, inside', after', rest, hc', hinside, rfl⟩ := reads_prim_brackets hread hs
  obtain ⟨rfl, rfl⟩ := Prod.mk.inj (Option.some.inj (hc'.symm.trans hc))
  obtain ⟨rfl, hclean⟩ := ih hr E e' rest hm hinside
  refine ⟨rfl, ?_⟩
  have hblank := reads_end hinside (Or.inl rfl)
  cases rest with
  | nil => exact Or.inl ⟨rfl, .brackets hc hclean⟩
  | cons d rest =>
    have hrest : Blank rest := fun d hd => blank_of_skip hblank d (List.mem_cons_of_mem _ hd)
    refine Or.inr ⟨after', ?_⟩
    rw [List.cons_append, List.tail_cons, hrest.skip_append]
    exact skip_of_not_space (by decide)

theorem agrees_term (hterms : Derives (.terms e₀) s₁ e r) (ihp : Agrees .prim s e₀ s₁)
    (iht : Agrees (.terms e₀) s₁ e r) : Agrees .term s e r := by
  intro hfollow E e' r' hm hr
  obtain ⟨p, u, hp, hrest⟩ := reads_term_cases hr
  obtain ⟨rfl, ⟨rfl, hclean⟩ | hstray⟩ :=
    ihp E p u (hm.sub (derives_spine hterms _ rfl) (reads_spine hrest _ rfl)) hp
  · cases iht hfollow E (skip u) e' r' hm (skip_skip u) hrest with
    | same hclean' hskip => exact .same (.term hclean hclean') hskip
    | stray hstray => exact .stray hstray
    | short hclean' hs hc hprim hq hnext => exact .short (.term hclean hclean') hs hc hprim hq hnext
  · obtain ⟨t, ht⟩ := hstray
    exact .stray (stray_terms ⟨t, (skip_skip u).trans ht⟩ hrest).2

theorem agrees_termsEnd : Agrees (.terms x) s x s := by
  intro hfollow E s' e' r' _ hs hr
  have hhead : ∀ d ∈ s'.head?, isFactor d = false := head_skip_factor (hs ▸ hfollow)
  obtain ⟨rfl, rfl⟩ := reads_terms_end hhead hr
  exact .same (.termsEnd hhead) hs

theorem agrees_termsNext (hs : skip s = c :: s₁) (hc : isFactor c = true) (hprim : Derives .prim s₁ q s₂)
    (hterms : Derives (.terms (.bin c x q)) s₂ e r) (ihp : Agrees .prim s₁ q s₂)
    (iht : Agrees (.terms (.bin c x q)) s₂ e r) : Agrees (.terms x) s e r := by
  intro hfollow E s' e' r' hm hs' hr
  by_cases hhead : ∀ d ∈ s'.head?, isFactor d = false
  · obtain ⟨rfl, rfl⟩ := reads_terms_end hhead hr
    exact .short (.termsEnd hhead) (hs'.trans hs) hc hprim ihp hterms
  · obtain rfl : s' = c :: s₁ := by
      push Not at hhead
      obtain ⟨d, hd, hfactor⟩ := hhead
      rw [ne_eq, Bool.not_eq_false] at hfactor
      cases s' with
      | nil => cases hd
      | cons d' s' =>
        obtain rfl := Option.some.inj hd
        exact (skip_of_not_space (factor_not_space hfactor)).symm.trans (hs'.trans hs)
    obtain ⟨q', u, hq, hrest⟩ := reads_terms_cons hc hr
    obtain ⟨rfl, hself⟩ := (hm.sub (derives_spine hterms _ rfl) (reads_spine hrest _ rfl)).right
    obtain ⟨-, ⟨rfl, hclean⟩ | hstray⟩ := ihp _ _ u hself hq
    · cases iht hfollow E u e' r' hm rfl hrest with
      | same hclean' hskip => exact .same (.termsNext hc hclean hclean') hskip
      | stray hstray => exact .stray hstray
      | short hclean' hs hc' hprim hq hnext =>
        exact .short (.termsNext hc hclean hclean') hs hc' hprim hq hnext
    · exact .stray (stray_terms hstray hrest).2

theorem derives_exprs_noFactor (h : Derives (.exprs x) s e r) (hr : skip r = []) : NoFactor s := by
  intro d hd
  cases h with
  | exprsEnd =>
    rw [hr] at hd
    cases hd
  | exprsNext hs hc =>
    rw [hs] at hd
    obtain rfl := Option.some.inj hd
    exact sign_not_factor hc

theorem agrees_exprsEnd : Agrees (.exprs x) s x s := by
  intro hend E s' e' r' _ hs hr
  obtain ⟨rfl, rfl⟩ := (only_ends (.exprs (hs.trans hend)) e' r').mp hr
  exact ⟨rfl, .exprsEnd (hs.trans hend)⟩

theorem agrees_exprsNext (hs : skip s = c :: s₁) (hc : isSign c = true)
    (hexprs : Derives (.exprs (.bin c x q)) s₂ e r) (iht : Agrees .term s₁ q s₂)
    (ihe : Agrees (.exprs (.bin c x q)) s₂ e r) : Agrees (.exprs x) s e r := by
  intro hend E s' e' r' hm hs' hr
  obtain ⟨q', u, hq, hrest⟩ := reads_exprs_cons (hs'.trans hs) hr
  obtain ⟨rfl, hself⟩ := (hm.sub (derives_spine hexprs _ rfl) (reads_spine hrest _ rfl)).right
  cases iht (derives_exprs_noFactor hexprs hend) _ _ u hself hq with
  | same hclean hskip =>
    obtain ⟨rfl, hclean'⟩ := ihe hend E u e' r' hm hskip hrest
    exact ⟨rfl, .exprsNext (hs'.trans hs) hc hclean hclean'⟩
  | stray hstray => exact absurd hrest (stray_exprs hstray (hm.read.proper hm.proper))
  | short _ _ _ _ _ hterms => exact absurd (derives_spine hterms _ rfl) not_spine_self

theorem agrees_lastFactor {y T : Expr} {t' u w : List UInt8} (hm : Meeting e e' E)
    (hexprs : Derives (.exprs e₀) s₁ e r) (hend : skip r = []) (ihe : Agrees (.exprs e₀) s₁ e r)
    (hclean : Clean .term s y u) (hs : skip u = c :: t) (hc : isFactor c = true) (hq : AgreesPrim t q t')
    (hterms : Derives (.terms (.bin c y q)) t' e₀ s₁) (hT : Reads .term t T w)
    (hrest : Reads (.exprs (.bin c y T)) w e' r') : e' = e ∧ Clean .expr s e r' := by
  have hspine : Spine (.bin c y q) e := (derives_spine hterms _ rfl).trans (derives_spine hexprs _ rfl)
  obtain ⟨rfl, hself⟩ := (hm.sub hspine (reads_spine hrest _ rfl)).right
  obtain ⟨p, v, hp, hfactors⟩ := reads_term_cases hT
  obtain ⟨rfl, ⟨rfl, hclean'⟩ | hstray⟩ := hq _ p v (hself.sub .refl (reads_spine hfactors _ rfl)) hp
  · have hhead : NoFactor v := by
      intro d hd
      by_contra hfactor
      rw [Bool.not_eq_false] at hfactor
      obtain ⟨rest, hv⟩ : ∃ rest, skip v = d :: rest := List.head?_eq_some_iff.mp hd
      rw [hv] at hfactors
      obtain ⟨_, _, -, hmore⟩ := reads_terms_cons hfactor hfactors
      exact not_spine_self (reads_spine hmore _ rfl)
    obtain ⟨-, rfl⟩ := reads_terms_end hhead hfactors
    cases hterms with
    | termsEnd =>
      obtain ⟨rfl, hclean''⟩ := ihe hend E _ e' r' hm (skip_skip _) hrest
      exact ⟨rfl, .lastFactor hclean hs hc hclean' hhead hclean''⟩
    | termsNext hs' hc' =>
      refine absurd (hhead _ ?_) (Bool.not_eq_false _ ▸ hc')
      rw [hs']
      rfl
  · obtain ⟨rest, ht⟩ := hstray
    have hstray' := (stray_terms ⟨rest, (skip_skip v).trans ht⟩ hfactors).2
    exact absurd hrest (stray_exprs hstray' (hm.read.proper hm.proper))

theorem agrees_expr (hexprs : Derives (.exprs e₀) s₁ e r) (iht : Agrees .term s e₀ s₁)
    (ihe : Agrees (.exprs e₀) s₁ e r) : Agrees .expr s e r := by
  intro hend E e' r' hm hr
  obtain ⟨y, u, hy, hrest⟩ := reads_expr_cases hr
  have hsub := hm.sub (derives_spine hexprs _ rfl) (reads_spine hrest _ rfl)
  cases iht (derives_exprs_noFactor hexprs hend) E y u hsub hy with
  | same hclean hskip =>
    obtain ⟨rfl, hclean'⟩ := ihe hend E u e' r' hm hskip hrest
    exact ⟨rfl, .expr hclean hclean'⟩
  | stray hstray => exact absurd hrest (stray_exprs hstray (hm.read.proper hm.proper))
  | short hclean hs hc _ hq hterms =>
    obtain ⟨T, w, hT, hrest'⟩ := reads_exprs_cons hs hrest
    exact agrees_lastFactor hm hexprs hend ihe hclean hs hc hq hterms hT hrest'

end Agreement

theorem derives_agrees (h : Derives phase s e r) : Agrees phase s e r := by
  induction h with
  | numeral hd => exact agrees_numeral hd
  | brackets hs hc _ hr ih => exact agrees_brackets hs hc hr ih
  | term _ hterms ihp iht => exact agrees_term hterms ihp iht
  | termsEnd => exact agrees_termsEnd
  | termsNext hs hc hprim hterms ihp iht => exact agrees_termsNext hs hc hprim hterms ihp iht
  | expr _ hexprs iht ihe => exact agrees_expr hexprs iht ihe
  | exprsEnd => exact agrees_exprsEnd
  | exprsNext hs hc _ hexprs iht ihe => exact agrees_exprsNext hs hc hexprs iht ihe

/-! ## One tree for each text -/

theorem derives_proper (h : Derives phase s e r) (hleft : ∀ x ∈ phase.left, x.Proper) : e.Proper := by
  induction h with
  | numeral => exact trivial
  | brackets _ _ _ _ ih => exact ih nofun
  | term _ _ ih₁ ih₂ => exact ih₂ fun x hx => Option.some.inj hx ▸ ih₁ nofun
  | expr _ _ ih₁ ih₂ => exact ih₂ fun x hx => Option.some.inj hx ▸ ih₁ nofun
  | termsEnd => exact hleft _ rfl
  | exprsEnd => exact hleft _ rfl
  | termsNext _ hc _ _ ih₁ ih₂ =>
    exact ih₂ fun x hx => Option.some.inj hx ▸ ⟨Or.inr hc, hleft _ rfl, ih₁ nofun⟩
  | exprsNext _ hc _ _ ih₁ ih₂ =>
    exact ih₂ fun x hx => Option.some.inj hx ▸ ⟨Or.inl hc, hleft _ rfl, ih₁ nofun⟩

def Phase.Ended : Phase → List UInt8 → Prop
  | .prim, _ => True
  | .term, r | .terms _, r => NoFactor r
  | .expr, r | .exprs _, r => skip r = []

theorem derives_unique (h : Derives phase s e r) (hend : phase.Ended r) (h' : Derives phase s e' r')
    (hend' : phase.Ended r') : e' = e ∧ r' = r := by
  induction h generalizing e' r' with
  | numeral hd =>
    cases h' with
    | numeral => exact ⟨rfl, rfl⟩
    | brackets hs =>
      rw [hs] at hd
      exact absurd rfl hd
  | brackets hs hc _ hr ih =>
    cases h' with
    | numeral hd =>
      rw [hs] at hd
      exact absurd rfl hd
    | brackets hs' hc' hinside hr' =>
      obtain rfl := (List.cons.inj (hs'.symm.trans hs)).2
      obtain ⟨rfl, rfl⟩ := Prod.mk.inj (Option.some.inj (hc'.symm.trans hc))
      exact ⟨(ih hr hinside hr').1, rfl⟩
  | term _ _ ih₁ ih₂ =>
    cases h' with
    | term h₁ h₂ =>
      obtain ⟨rfl, rfl⟩ := ih₁ trivial h₁ trivial
      exact ih₂ hend h₂ hend'
  | termsEnd =>
    cases h' with
    | termsEnd => exact ⟨rfl, rfl⟩
    | termsNext hs hc => cases hc.symm.trans (hend _ (by rw [hs]; rfl))
  | termsNext hs hc _ _ ih₁ ih₂ =>
    cases h' with
    | termsEnd => cases hc.symm.trans (hend' _ (by rw [hs]; rfl))
    | termsNext hs' _ h₁ h₂ =>
      obtain ⟨rfl, rfl⟩ := List.cons.inj (hs'.symm.trans hs)
      obtain ⟨rfl, rfl⟩ := ih₁ trivial h₁ trivial
      exact ih₂ hend h₂ hend'
  | expr _ hexprs ih₁ ih₂ =>
    cases h' with
    | expr h₁ h₂ =>
      obtain ⟨rfl, rfl⟩ := ih₁ (derives_exprs_noFactor hexprs hend) h₁ (derives_exprs_noFactor h₂ hend')
      exact ih₂ hend h₂ hend'
  | exprsEnd =>
    cases h' with
    | exprsEnd => exact ⟨rfl, rfl⟩
    | exprsNext hs => cases hs.symm.trans hend
  | exprsNext hs hc _ hexprs ih₁ ih₂ =>
    cases h' with
    | exprsEnd => cases hs.symm.trans hend'
    | exprsNext hs' _ h₁ h₂ =>
      obtain ⟨rfl, rfl⟩ := List.cons.inj (hs'.symm.trans hs)
      obtain ⟨rfl, rfl⟩ := ih₁ (derives_exprs_noFactor hexprs hend) h₁ (derives_exprs_noFactor h₂ hend')
      exact ih₂ hend h₂ hend'

theorem wellFormed_unique (h : WellFormed s e) (h' : WellFormed s e') : e' = e := by
  obtain ⟨r, hr, hend⟩ := h
  obtain ⟨r', hr', hend'⟩ := h'
  exact (derives_unique hr hend hr' hend').1

theorem clean_wellFormed (h : Clean .expr s e r) : WellFormed s e := by
  obtain ⟨r', hr, hskip⟩ := clean_derives h
  exact ⟨r', hr, hskip.trans (reads_end (clean_reads h) (Or.inl rfl))⟩

theorem clean_iff (h : WellFormed s e) : Clean .expr s e r ↔ Reads .expr s e r := by
  obtain ⟨r₁, hr, hend⟩ := h
  refine ⟨clean_reads, fun hread => ?_⟩
  exact (derives_agrees hr hend e e r ⟨derives_proper hr nofun, .refl, .refl⟩ hread).2

theorem Shows.unique {t : Tree} (h : Shows t e) (h' : Shows t e') : e' = e := by
  induction h generalizing e' with
  | num =>
    cases h' with
    | num => rfl
    | bin hl => cases hl
  | bin hl _ ihl ihr =>
    cases h' with
    | num => cases hl
    | bin hl' hr' => rw [ihl hl', ihr hr']

/-! ## The calculator and the grammar -/

/-- What stands in the node at the root. -/
def Expr.data : Expr → List UInt8
  | .num data => data
  | .bin op _ _ => [op]

/-- The root is neither an operator of the grammar nor, as a single digit is, a number to the
evaluation. -/
def Expr.Unknown (e : Expr) : Prop :=
  e.data.length ≤ 1 ∧ isdigit (e.data.headD 0) = false ∧ isSign (e.data.headD 0) = false ∧
    isFactor (e.data.headD 0) = false

/-- A division by 0 is no report that the text is illegal. -/
def Line.Reports : Line → Prop
  | .unlegal _ => True
  | .error string => string = "unknown operator!"

/-- The text is reported as illegal instead of being given a value: what is returned is 0 whatever
the arithmetic does, so that it is not a result of it. -/
def ReportsIllegal (fuel p : ℕ) (m : ℕ → UInt8) : Prop :=
  ∀ (V : Type) (cal : CalType V), ∃ st, calculate cal fuel p (.start m) = some (cal.zero, st) ∧
    ∃ line ∈ st.printed, line.Reports

/-- A well-formed text has become its tree, and any other is reported as illegal. -/
def ParsesGrammar (fuel p : ℕ) (m : ℕ → UInt8) (s : List UInt8) (t : Tree) : Prop :=
  (∀ e, WellFormed s e → Shows t e) ∧ ((∀ e, ¬ WellFormed s e) → ReportsIllegal fuel p m)

theorem destory_printed (t : Tree) (st : State) : (destoryTree t st).printed = st.printed := by
  induction t generalizing st with
  | null => rfl
  | node id data l r ihl ihr => exact (ihr _).trans (ihl st)

def truths : CalType Bool := ⟨false, fun _ => true, fun _ _ => true, fun _ _ => true, fun _ _ => true,
  fun _ _ => true, fun _ => false⟩

section Calculate
variable {V : Type} (cal : CalType V) {m : ℕ → UInt8} {p fuel : ℕ} {t : Tree} {st : State}

theorem Shows.root (h : Shows t e) : ∃ id l r, t = .node id e.data l r := by
  cases h with
  | num => exact ⟨_, _, _, rfl⟩
  | bin => exact ⟨_, _, _, rfl⟩

theorem value_unknown (h : Shows t e) (he : e.Unknown) :
    ∃ st', calBtreeValue cal t st = (cal.zero, error "unknown operator!" st') := by
  obtain ⟨id, l, r, rfl⟩ := h.root
  obtain ⟨hlength, hdigit, hsign, hfactor⟩ := he
  rw [isSign, decide_eq_false_iff_not, not_or] at hsign
  rw [isFactor, decide_eq_false_iff_not, not_or] at hfactor
  have hshort : ¬ (e.data.length > 1 ∨ isdigit (e.data.headD 0) = true) := by
    rw [hdigit, not_or]
    exact ⟨Nat.not_lt.mpr hlength, Bool.false_ne_true⟩
  refine ⟨(st.loads id e.data.length).log (.load id 0), ?_⟩
  rw [calBtreeValue]
  simp only [if_neg hshort, if_neg hsign.1, if_neg hsign.2, if_neg hfactor.1, if_neg hfactor.2]

theorem unknown_of_value (h : Shows t e) (hvalue : (calBtreeValue truths t st).1 = false) : e.Unknown := by
  obtain ⟨id, l, r, rfl⟩ := h.root
  simp only [calBtreeValue] at hvalue
  split_ifs at hvalue with hnumber hadd hsub hmul hdiv hzero
  · cases hvalue
  · cases hvalue
  · cases hvalue
  · cases hvalue
  · cases hzero
  · cases hvalue
  · rw [not_or, Nat.not_lt, Bool.not_eq_true] at hnumber
    refine ⟨hnumber.1, hnumber.2, ?_, ?_⟩
    · exact decide_eq_false fun h => h.elim hadd hsub
    · exact decide_eq_false fun h => h.elim hmul hdiv

theorem parsesGrammar_iff {s : List UInt8} {p' : ℕ} (hrun : getExprTree fuel p p (.start m) = some (t, p', st))
    (hparsed : Parsed .expr s p t p') : ParsesGrammar fuel p m s t ↔
      (∃ e r, Clean .expr s e r) ∨ ((∀ e, ¬ WellFormed s e) ∧ ∀ e, Written s e → e.Unknown) := by
  constructor
  · rintro ⟨htree, hillegal⟩
    by_cases hwell : ∃ e, WellFormed s e
    · obtain ⟨e, he⟩ := hwell
      refine Or.inl ⟨e, ?_⟩
      have hshows := htree e he
      cases hparsed with
      | stops => exact absurd rfl hshows.ne_null
      | reads _ honly hshows' =>
        obtain rfl := hshows.unique hshows'
        exact ⟨_, (clean_iff he).mpr ((honly _ _).mpr ⟨rfl, rfl⟩)⟩
    · have hnone : ∀ e, ¬ WellFormed s e := fun e he => hwell ⟨e, he⟩
      refine Or.inr ⟨hnone, fun e hwritten => ?_⟩
      obtain ⟨r, hread⟩ := written_iff.mp hwritten
      obtain ⟨st', hcalculate, -⟩ := hillegal hnone Bool truths
      cases hparsed with
      | stops hnever => exact absurd hread (hnever _ _)
      | reads _ honly hshows =>
        obtain ⟨rfl, -⟩ := (honly _ _).mp hread
        rw [calculate_tree truths hrun hshows.ne_null] at hcalculate
        exact unknown_of_value hshows (Prod.mk.inj (Option.some.inj hcalculate)).1
  · rintro (⟨e, r, hclean⟩ | ⟨hnone, hunknown⟩)
    · have hwell := clean_wellFormed hclean
      refine ⟨fun e' he' => ?_, fun hnone => absurd hwell (hnone e)⟩
      obtain rfl := wellFormed_unique hwell he'
      cases hparsed with
      | stops hnever => exact absurd (clean_reads hclean) (hnever _ _)
      | reads _ honly hshows =>
        obtain ⟨rfl, -⟩ := (honly _ _).mp (clean_reads hclean)
        exact hshows
    · refine ⟨fun e he => absurd he (hnone e), fun _ V cal => ?_⟩
      cases hparsed with
      | stops => exact ⟨_, calculate_null cal hrun, _, List.mem_cons_self .., trivial⟩
      | @reads _ e _ r _ honly hshows =>
        have hwritten : Written s e := written_iff.mpr ⟨r, (honly _ _).mpr ⟨rfl, rfl⟩⟩
        obtain ⟨st', hvalue⟩ : ∃ st', calBtreeValue cal _ st = (cal.zero,
            error "unknown operator!" st') := value_unknown cal hshows (hunknown e hwritten)
        have hcalculate := calculate_tree cal hrun hshows.ne_null
        rw [hvalue] at hcalculate
        refine ⟨_, hcalculate, .error "unknown operator!", ?_, rfl⟩
        rw [destory_printed]
        exact List.mem_cons_self ..

/-- The calculator follows the grammar on clean texts, and on texts that are not well-formed if each
tree that they are written as has an unknown operator at its root. -/
theorem calculate_parses {s : List UInt8} (h : Text m p s) (hfits : Fits .expr s) (hfuel : s.length < fuel) :
    ∃ t p' st v st', getExprTree fuel p p (.start m) = some (t, p', st) ∧
      calculate cal fuel p (.start m) = some (v, st') ∧ (∀ event ∈ st'.events, event.InData) ∧
      (ParsesGrammar fuel p m s t ↔
        (∃ e r, Clean .expr s e r) ∨ ((∀ e, ¬ WellFormed s e) ∧ ∀ e, Written s e → e.Unknown)) := by
  obtain ⟨t, p', st, hrun, hparsed, -⟩ := expr_good fuel s p p (.start m) hfuel h
  obtain ⟨v, st', hcalculate, heffect⟩ := calculate_effect cal h hfuel
  exact ⟨t, p', st, v, st', hrun, hcalculate, heffect.inData.mpr ⟨nofun, hfits⟩,
    parsesGrammar_iff hrun hparsed⟩

end Calculate

/-! ## Two texts -/

def oneDigit (c : Char) : Expr := .num [c.toUInt8]

/-- `(1+2)*3` -/
def bracketed : List UInt8 := ['(', '1', '+', '2', ')', '*', '3'].map Char.toUInt8

def onePlusTwo : Expr := .bin '+'.toUInt8 (oneDigit '1') (oneDigit '2')

theorem head_of_all (h : s.head?.all (fun d => !isFactor d) = true) : ∀ d ∈ s.head?, isFactor d = false := by
  intro d hd
  rw [Option.mem_def.mp hd, Option.all_some, Bool.not_eq_true'] at h
  exact h

theorem clean_bracketed :
    Clean .expr bracketed (.bin '*'.toUInt8 onePlusTwo (oneDigit '3')) [] := by
  have hsum : Clean .expr (['1', '+', '2'].map Char.toUInt8) onePlusTwo [] :=
    .expr (.term (.numeral (by decide)) (.termsEnd (head_of_all rfl)))
      (.exprsNext rfl (by decide) (.term (.numeral (by decide)) (.termsEnd (head_of_all rfl))) (.exprsEnd rfl))
  have htimes : Clean (.terms onePlusTwo) (['*', '3'].map Char.toUInt8)
      (.bin '*'.toUInt8 onePlusTwo (oneDigit '3')) [] :=
    .termsNext (by decide) (.numeral (by decide)) (.termsEnd (head_of_all rfl))
  have hparts : closing '('.toUInt8 ')'.toUInt8 1 (['1', '+', '2', ')', '*', '3'].map Char.toUInt8) =
      some (['1', '+', '2'].map Char.toUInt8, ['*', '3'].map Char.toUInt8) := by rfl
  exact .expr (.term (.brackets hparts hsum) htimes) (.exprsEnd rfl)

theorem calculate_parses_bracketed : ∃ t p' st v st',
    getExprTree 8 1 1 (.start (memory bracketed)) = some (t, p', st) ∧
      calculate natCal 8 1 (.start (memory bracketed)) = some (v, st') ∧
      ParsesGrammar 8 1 (memory bracketed) bracketed t := by
  have htext : Text (memory bracketed) 1 bracketed := Text.of_list (by decide)
  obtain ⟨t, p', st, v, st', hrun, hcalculate, -, hiff⟩ :=
    calculate_parses natCal htext (fits_of_length (by decide)) (show _ < 8 by decide)
  exact ⟨t, p', st, v, st', hrun, hcalculate, hiff.mpr (Or.inl ⟨_, _, clean_bracketed⟩)⟩

/-- `1+2*3 *4` -/
def blankBehind : List UInt8 := ['1', '+', '2', '*', '3', ' ', '*', '4'].map Char.toUInt8

def product : Expr := .bin '*'.toUInt8 (.bin '*'.toUInt8 (oneDigit '2') (oneDigit '3')) (oneDigit '4')

theorem wellFormed_blankBehind : WellFormed blankBehind (.bin '+'.toUInt8 (oneDigit '1') product) := by
  have hproduct : Derives .term (['2', '*', '3', ' ', '*', '4'].map Char.toUInt8) product [] :=
    .term (.numeral (by decide)) (.termsNext rfl (by decide) (.numeral (by decide))
      (.termsNext rfl (by decide) (.numeral (by decide)) .termsEnd))
  exact ⟨[], .expr (.term (.numeral (by decide)) .termsEnd)
    (.exprsNext rfl (by decide) hproduct .exprsEnd), rfl⟩

theorem reads_blankBehind : Reads .expr blankBehind
    (.bin '*'.toUInt8 (.bin '+'.toUInt8 (oneDigit '1') (.bin '*'.toUInt8 (oneDigit '2') (oneDigit '3')))
      (oneDigit '4')) [] := by
  have hfour : Reads .term (['4'].map Char.toUInt8) (oneDigit '4') [] :=
    .splits .term (.operand (by decide) (by decide)) (.ends (.terms (head_of_all rfl)))
  have hfactors : Reads .term (['2', '*', '3', ' ', '*', '4'].map Char.toUInt8)
      (.bin '*'.toUInt8 (oneDigit '2') (oneDigit '3')) ([' ', '*', '4'].map Char.toUInt8) :=
    .splits .term (.operand (by decide) (by decide))
      (.splits (.terms (show isFactor '*'.toUInt8 = true by decide)) (.operand (by decide) (by decide))
        (.ends (.terms (head_of_all rfl))))
  have hone : Reads .term blankBehind (oneDigit '1')
      (['+', '2', '*', '3', ' ', '*', '4'].map Char.toUInt8) :=
    .splits .term (.operand (by decide) (by decide)) (.ends (.terms (head_of_all rfl)))
  exact .splits .expr hone (.splits (.exprs rfl) hfactors (.splits (.exprs rfl) hfour (.ends (.exprs rfl))))

/-- The term ends at the blank, and what comes behind it is multiplied with the sum. -/
theorem blankBehind_misread : WellFormed blankBehind (.bin '+'.toUInt8 (oneDigit '1') product) ∧
    ∃ t p' st, getExprTree 9 1 1 (.start (memory blankBehind)) = some (t, p', st) ∧
      ¬ Shows t (.bin '+'.toUInt8 (oneDigit '1') product) := by
  refine ⟨wellFormed_blankBehind, ?_⟩
  have htext : Text (memory blankBehind) 1 blankBehind := Text.of_list (by decide)
  obtain ⟨t, p', st, hrun, hparsed, -⟩ := expr_good 9 blankBehind 1 1 (.start _) (by decide) htext
  refine ⟨t, p', st, hrun, fun hshows => ?_⟩
  cases hparsed with
  | stops hnever => exact hnever _ _ reads_blankBehind
  | reads _ honly hshows' =>
    obtain ⟨rfl, -⟩ := (honly _ _).mp reads_blankBehind
    exact absurd (hshows'.unique hshows) (by decide)

end DfewOS.Calculator
