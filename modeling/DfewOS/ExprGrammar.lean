import DfewOS.Calculate

/-!
# Well-formed expressions

`Derives` is the grammar of expressions, with blanks in front of each token. A numeral takes all
digits and points that it can, and brackets hold what is in front of the bracket that closes them.
The calculator reads texts in its own way: `Clean` texts are those that it reads by this grammar.
-/

namespace DfewOS.Calculator
open Brackets

/-- `expr = term {(+|-) term}`, `term = prim {(*|/) prim}`, `prim = numeral | ( expr )`: a text with
its tree and with what comes behind the expression. -/
inductive Derives : Phase → List UInt8 → Expr → List UInt8 → Prop
  | numeral {s} : digits (skip s) ≠ [] → Derives .prim s (.num (numeral (skip s))) (behind (skip s))
  | brackets {s t inside after e r} : skip s = '('.toUInt8 :: t →
      closing '('.toUInt8 ')'.toUInt8 1 t = some (inside, after) → Derives .expr inside e r →
      skip r = [] → Derives .prim s e after
  | term {s e₀ s₁ e r} : Derives .prim s e₀ s₁ → Derives (.terms e₀) s₁ e r → Derives .term s e r
  | termsEnd {s e} : Derives (.terms e) s e s
  | termsNext {s c s₁ e₀ e₁ s₂ e r} : skip s = c :: s₁ → isFactor c = true → Derives .prim s₁ e₁ s₂ →
      Derives (.terms (.bin c e₀ e₁)) s₂ e r → Derives (.terms e₀) s e r
  | expr {s e₀ s₁ e r} : Derives .term s e₀ s₁ → Derives (.exprs e₀) s₁ e r → Derives .expr s e r
  | exprsEnd {s e} : Derives (.exprs e) s e s
  | exprsNext {s c s₁ e₀ e₁ s₂ e r} : skip s = c :: s₁ → isSign c = true → Derives .term s₁ e₁ s₂ →
      Derives (.exprs (.bin c e₀ e₁)) s₂ e r → Derives (.exprs e₀) s e r

def WellFormed (s : List UInt8) (e : Expr) : Prop := ∃ r, Derives .expr s e r ∧ skip r = []

/-- An expression without a blank in front of an opening bracket and without one behind the right
operand of a `*` or `/` that is followed by `*`, `/` or `)`. The last `*` or `/` of the first term
may have a blank in front of it nevertheless. -/
inductive Clean : Phase → List UInt8 → Expr → List UInt8 → Prop
  | numeral {s} : digits (skip s) ≠ [] → Clean .prim s (.num (numeral (skip s))) (behind (skip s))
  | brackets {s inside after e} : closing '('.toUInt8 ')'.toUInt8 1 s = some (inside, after) →
      Clean .expr inside e [] → Clean .prim ('('.toUInt8 :: s) e after
  | term {s e₀ s₁ e r} : Clean .prim s e₀ s₁ → Clean (.terms e₀) (skip s₁) e r → Clean .term s e r
  | termsEnd {s e} : (∀ c ∈ s.head?, isFactor c = false) → Clean (.terms e) s e s
  | termsNext {c s e₀ e₁ s₁ e r} : isFactor c = true → Clean .prim s e₁ s₁ →
      Clean (.terms (.bin c e₀ e₁)) s₁ e r → Clean (.terms e₀) (c :: s) e r
  | expr {s e₀ s₁ e r} : Clean .term s e₀ s₁ → Clean (.exprs e₀) s₁ e r → Clean .expr s e r
  | lastFactor {s e₀ s₁ c s₂ e₁ s₃ e r} : Clean .term s e₀ s₁ → skip s₁ = c :: s₂ → isFactor c = true →
      Clean .prim s₂ e₁ s₃ → (∀ d ∈ (skip s₃).head?, isFactor d = false) →
      Clean (.exprs (.bin c e₀ e₁)) (skip s₃) e r → Clean .expr s e r
  | exprsEnd {s e} : skip s = [] → Clean (.exprs e) s e s
  | exprsNext {s c s₁ e₀ e₁ s₂ e r} : skip s = c :: s₁ → isSign c = true → Clean .term s₁ e₁ s₂ →
      Clean (.exprs (.bin c e₀ e₁)) s₂ e r → Clean (.exprs e₀) s e r

/-! ## Left operands -/

def Expr.leaves : Expr → ℕ
  | .num _ => 1
  | .bin _ left right => left.leaves + right.leaves

/-- `x` is the expression, or its left operand, or the left operand of that, and so on. -/
inductive Spine (x : Expr) : Expr → Prop
  | refl : Spine x x
  | left {op e e'} : Spine x e → Spine x (.bin op e e')

/-- The operators are those of the grammar. -/
def Expr.Proper : Expr → Prop
  | .num _ => True
  | .bin op left right => (isSign op = true ∨ isFactor op = true) ∧ left.Proper ∧ right.Proper

variable {x y e e₁ : Expr} {c : UInt8} {s r v : List UInt8} {phase : Phase}

theorem leaves_pos (e : Expr) : 0 < e.leaves := by
  induction e with
  | num => exact Nat.one_pos
  | bin _ _ _ ih => exact Nat.add_pos_left ih _

theorem Spine.trans {z : Expr} (h : Spine x y) (h' : Spine y z) : Spine x z := by
  induction h' with
  | refl => exact h
  | left _ ih => exact .left ih

theorem Spine.leaves_le (h : Spine x e) : x.leaves ≤ e.leaves := by
  induction h with
  | refl => exact le_rfl
  | left _ ih => exact ih.trans (Nat.le_add_right _ _)

theorem Spine.proper (h : Spine x e) (he : e.Proper) : x.Proper := by
  induction h with
  | refl => exact he
  | left _ ih => exact ih he.2.1

theorem not_spine_self : ¬ Spine (.bin c x y) x := by
  intro h
  have hle := h.leaves_le
  have hpos := leaves_pos y
  rw [Expr.leaves] at hle
  omega

theorem Spine.total (h : Spine x e) (h' : Spine y e) : Spine x y ∨ Spine y x := by
  induction h with
  | refl => exact Or.inr h'
  | left hx ih =>
    cases h' with
    | refl => exact Or.inl (.left hx)
    | left hy => exact ih hy

theorem Spine.next {d : UInt8} {y' : Expr} (h : Spine (.bin c x y) e) (h' : Spine (.bin d x y') e) :
    y' = y := by
  have hself : ∀ {c d y y'}, Spine (.bin c x y) (.bin d x y') → y' = y := by
    intro c d y y' hspine
    cases hspine with
    | refl => rfl
    | left hx => exact absurd hx not_spine_self
  rcases h.total h' with hspine | hspine
  · exact hself hspine
  · exact (hself hspine).symm

/-- The tree that a loop starts with. -/
def Phase.left : Phase → Option Expr
  | .terms e | .exprs e => some e
  | .prim | .term | .expr => none

theorem reads_spine (h : Reads phase s e r) : ∀ x ∈ phase.left, Spine x e := by
  induction h with
  | operand => exact nofun
  | brackets => exact nofun
  | ends h =>
    cases h <;> exact fun x hx => Option.some.inj hx ▸ .refl
  | splits hs _ _ _ ih =>
    cases hs with
    | term => exact nofun
    | terms => exact fun x hx => Option.some.inj hx ▸ Spine.trans (.left .refl) (ih _ rfl)
    | expr => exact nofun
    | exprs => exact fun x hx => Option.some.inj hx ▸ Spine.trans (.left .refl) (ih _ rfl)

theorem derives_spine (h : Derives phase s e r) : ∀ x ∈ phase.left, Spine x e := by
  induction h with
  | numeral => exact nofun
  | brackets => exact nofun
  | term => exact nofun
  | expr => exact nofun
  | termsEnd => exact fun x hx => Option.some.inj hx ▸ .refl
  | exprsEnd => exact fun x hx => Option.some.inj hx ▸ .refl
  | termsNext _ _ _ _ _ ih => exact fun x hx => Option.some.inj hx ▸ Spine.trans (.left .refl) (ih _ rfl)
  | exprsNext _ _ _ _ _ ih => exact fun x hx => Option.some.inj hx ▸ Spine.trans (.left .refl) (ih _ rfl)

/-! ## Blanks -/

theorem skip_head {t : List UInt8} (h : skip s = c :: t) : isspace c = false := by
  have hhead := List.head?_dropWhile_not isspace s
  rwa [show s.dropWhile isspace = c :: t from h] at hhead

theorem skip_skip (s : List UInt8) : skip (skip s) = skip s := by
  cases hs : skip s with
  | nil => rfl
  | cons c t => exact skip_of_not_space (skip_head hs)

theorem operand_head (h : digits (skip s) ≠ []) : s.head? ≠ some '('.toUInt8 := by
  intro hhead
  cases s with
  | nil => cases hhead
  | cons c s =>
    obtain rfl := Option.some.inj hhead
    exact h rfl

theorem sign_not_factor (h : isSign c = true) : isFactor c = false := by
  rw [isSign, decide_eq_true_iff] at h
  rcases h with rfl | rfl <;> rfl

theorem head_skip_factor (h : ∀ d ∈ (skip s).head?, isFactor d = false) :
    ∀ d ∈ s.head?, isFactor d = false := by
  intro d hd
  cases s with
  | nil => cases hd
  | cons c s =>
    obtain rfl := Option.some.inj hd
    by_contra hfactor
    rw [Bool.not_eq_false] at hfactor
    rw [skip_of_not_space (factor_not_space hfactor)] at h
    exact Bool.false_ne_true ((h _ rfl).symm.trans hfactor)

theorem derives_skip (h : Derives phase s e r) {s' : List UInt8} (hs : skip s' = skip s) :
    ∃ r', Derives phase s' e r' ∧ skip r' = skip r := by
  induction h generalizing s' with
  | numeral hd => exact ⟨_, hs ▸ .numeral (hs ▸ hd), rfl⟩
  | brackets hopen hc hinside hend => exact ⟨_, .brackets (hs.trans hopen) hc hinside hend, rfl⟩
  | term _ _ ih₁ ih₂ =>
    obtain ⟨r₁, h₁, hr₁⟩ := ih₁ hs
    obtain ⟨r₂, h₂, hr₂⟩ := ih₂ hr₁
    exact ⟨r₂, .term h₁ h₂, hr₂⟩
  | termsEnd => exact ⟨s', .termsEnd, hs⟩
  | termsNext hc hfactor h₁ h₂ => exact ⟨_, .termsNext (hs.trans hc) hfactor h₁ h₂, rfl⟩
  | expr _ _ ih₁ ih₂ =>
    obtain ⟨r₁, h₁, hr₁⟩ := ih₁ hs
    obtain ⟨r₂, h₂, hr₂⟩ := ih₂ hr₁
    exact ⟨r₂, .expr h₁ h₂, hr₂⟩
  | exprsEnd => exact ⟨s', .exprsEnd, hs⟩
  | exprsNext hc hsign h₁ h₂ => exact ⟨_, .exprsNext (hs.trans hc) hsign h₁ h₂, rfl⟩

theorem derives_termsSnoc {s₁ s₂ : List UInt8} (h : Derives phase s e r) (hphase : ∃ x, phase = .terms x)
    (hs : skip r = c :: s₁) (hc : isFactor c = true) (hprim : Derives .prim s₁ e₁ s₂) :
    Derives phase s (.bin c e e₁) s₂ := by
  induction h with
  | termsEnd => exact .termsNext hs hc hprim .termsEnd
  | termsNext hc' hfactor h₁ _ _ ih => exact .termsNext hc' hfactor h₁ (ih ⟨_, rfl⟩ hs)
  | numeral | brackets | term | expr | exprsEnd | exprsNext =>
    obtain ⟨x, hx⟩ := hphase
    cases hx

/-! ## Clean texts -/

theorem clean_reads (h : Clean phase s e r) : Reads phase s e r := by
  induction h with
  | numeral hd => exact .operand (operand_head hd) hd
  | brackets hc _ ih => exact .brackets hc ih
  | term _ _ ih₁ ih₂ => exact .splits .term ih₁ ih₂
  | termsEnd hs => exact .ends (.terms hs)
  | termsNext hc _ _ ih₁ ih₂ => exact .splits (.terms hc) ih₁ ih₂
  | expr _ _ ih₁ ih₂ => exact .splits .expr ih₁ ih₂
  | lastFactor _ hs _ _ hend _ ih₁ ih₂ ih₃ =>
    exact .splits .expr ih₁ (.splits (.exprs hs) (.splits .term ih₂ (.ends (.terms hend))) ih₃)
  | exprsEnd hs => exact .ends (.exprs hs)
  | exprsNext hs _ _ _ ih₁ ih₂ => exact .splits (.exprs hs) ih₁ ih₂

theorem clean_derives (h : Clean phase s e r) : ∃ r', Derives phase s e r' ∧ skip r' = skip r := by
  induction h with
  | numeral hd => exact ⟨_, .numeral hd, rfl⟩
  | brackets hc _ ih =>
    obtain ⟨r', hr, hend⟩ := ih
    exact ⟨_, .brackets (skip_of_not_space (by decide)) hc hr hend, rfl⟩
  | @term s e₀ s₁ e r _ _ ih₁ ih₂ =>
    obtain ⟨r₁, h₁, hr₁⟩ := ih₁
    obtain ⟨r₂, h₂, hr₂⟩ := ih₂
    obtain ⟨r₃, h₃, hr₃⟩ := derives_skip h₂ (hr₁.trans (skip_skip s₁).symm)
    exact ⟨r₃, .term h₁ h₃, hr₃.trans hr₂⟩
  | termsEnd => exact ⟨_, .termsEnd, rfl⟩
  | termsNext hc _ _ ih₁ ih₂ =>
    obtain ⟨r₁, h₁, hr₁⟩ := ih₁
    obtain ⟨r₂, h₂, hr₂⟩ := ih₂
    obtain ⟨r₃, h₃, hr₃⟩ := derives_skip h₂ hr₁
    exact ⟨r₃, .termsNext (skip_of_not_space (factor_not_space hc)) hc h₁ h₃, hr₃.trans hr₂⟩
  | expr _ _ ih₁ ih₂ =>
    obtain ⟨r₁, h₁, hr₁⟩ := ih₁
    obtain ⟨r₂, h₂, hr₂⟩ := ih₂
    obtain ⟨r₃, h₃, hr₃⟩ := derives_skip h₂ hr₁
    exact ⟨r₃, .expr h₁ h₃, hr₃.trans hr₂⟩
  | @lastFactor s e₀ s₁ c s₂ e₁ s₃ e r _ hs hc _ _ _ ih₁ ih₂ ih₃ =>
    obtain ⟨r₁, h₁, hr₁⟩ := ih₁
    obtain ⟨r₂, h₂, hr₂⟩ := ih₂
    obtain ⟨r₃, h₃, hr₃⟩ := ih₃
    obtain ⟨r₄, h₄, hr₄⟩ := derives_skip h₃ (hr₂.trans (skip_skip s₃).symm)
    cases h₁ with
    | term hprim hterms =>
      have hterms' := derives_termsSnoc hterms ⟨_, rfl⟩ (hr₁.trans hs) hc h₂
      exact ⟨r₄, .expr (.term hprim hterms') h₄, hr₄.trans hr₃⟩
  | exprsEnd => exact ⟨_, .exprsEnd, rfl⟩
  | exprsNext hs hc _ _ ih₁ ih₂ =>
    obtain ⟨r₁, h₁, hr₁⟩ := ih₁
    obtain ⟨r₂, h₂, hr₂⟩ := ih₂
    obtain ⟨r₃, h₃, hr₃⟩ := derives_skip h₂ hr₁
    exact ⟨r₃, .exprsNext hs hc h₁ h₃, hr₃.trans hr₂⟩

end DfewOS.Calculator
