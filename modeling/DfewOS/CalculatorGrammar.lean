import DfewOS.Brackets
import DfewOS.Calculator

/-!
# What the calculator reads

`Reads` are the texts that the parser makes a tree of, with what it leaves of them, and `Wants`
are the places in a text where it looks for an operand. Both follow the functions of the parser:
a blank is passed over in front of an operand, of an operator and behind the first prim of a
term, and nowhere else.
-/

namespace DfewOS.Calculator
open Brackets

/-- A binary tree without its nodes. -/
inductive Expr
  | num (data : List UInt8)
  | bin (op : UInt8) (left right : Expr)
  deriving DecidableEq

def skip (s : List UInt8) : List UInt8 := s.dropWhile isspace

def sign : List UInt8 → List UInt8
  | c :: _ => if isSign c then [c] else []
  | [] => []

/-- The digits and points behind the sign, and what comes behind them. -/
def digits (s : List UInt8) : List UInt8 := (s.drop (sign s).length).takeWhile isData

def behind (s : List UInt8) : List UInt8 := (s.drop (sign s).length).dropWhile isData

def numeral (s : List UInt8) : List UInt8 := sign s ++ digits s

/-- The parts of the parser; two of them are loops with the tree they have so far. -/
inductive Phase
  | prim
  | term
  | terms (left : Expr)
  | expr
  | exprs (left : Expr)

/-- To read `s` in `phase`, `s₁` is read in `first`; with its tree and with what it leaves the
parser goes on. -/
inductive Splits : Phase → List UInt8 → Phase → List UInt8 → (Expr → Phase) →
    (List UInt8 → List UInt8) → Prop
  | term {s} : Splits .term s .prim s .terms skip
  | terms {c s e₀} : isFactor c = true →
      Splits (.terms e₀) (c :: s) .prim s (fun e => .terms (.bin c e₀ e)) id
  | expr {s} : Splits .expr s .term s .exprs id
  | exprs {c s s₁ e₀} : skip s = c :: s₁ →
      Splits (.exprs e₀) s .term s₁ (fun e => .exprs (.bin c e₀ e)) id

inductive Ends : Phase → List UInt8 → Expr → Prop
  | terms {s e} : (∀ c ∈ s.head?, isFactor c = false) → Ends (.terms e) s e
  | exprs {s e} : skip s = [] → Ends (.exprs e) s e

inductive Reads : Phase → List UInt8 → Expr → List UInt8 → Prop
  | operand {s} : s.head? ≠ some '('.toUInt8 → digits (skip s) ≠ [] →
      Reads .prim s (.num (numeral (skip s))) (behind (skip s))
  | brackets {s inside after e rest} :
      closing '('.toUInt8 ')'.toUInt8 1 s = some (inside, after) → Reads .expr inside e rest →
      Reads .prim ('('.toUInt8 :: s) e (rest ++ ')'.toUInt8 :: after).tail
  | ends {phase s e} : Ends phase s e → Reads phase s e s
  | splits {phase s first s₁ next f e₁ r₁ e r} : Splits phase s first s₁ next f →
      Reads first s₁ e₁ r₁ → Reads (next e₁) (f r₁) e r → Reads phase s e r

inductive Wants : Phase → List UInt8 → List UInt8 → Prop
  | operand {s} : s.head? ≠ some '('.toUInt8 → Wants .prim s (skip s)
  | brackets {s inside after v} : closing '('.toUInt8 ')'.toUInt8 1 s = some (inside, after) →
      Wants .expr inside v → Wants .prim ('('.toUInt8 :: s) v
  | first {phase s first s₁ next f v} : Splits phase s first s₁ next f → Wants first s₁ v →
      Wants phase s v
  | next {phase s first s₁ next f e₁ r₁ v} : Splits phase s first s₁ next f →
      Reads first s₁ e₁ r₁ → Wants (next e₁) (f r₁) v → Wants phase s v

/-- The numeral in front of the text fits into `data`, with its NUL. -/
def Short (v : List UInt8) : Prop := (numeral v).length < calDataMaxLen

/-- All numerals that are read fit. -/
def Fits (phase : Phase) (s : List UInt8) : Prop := ∀ v, Wants phase s v → Short v

variable {phase phase' first : Phase} {s s₁ s₂ inside after v : List UInt8} {c : UInt8} {e e₁ : Expr}
  {next : Expr → Phase} {f : List UInt8 → List UInt8}

theorem Splits.unique {first' : Phase} {s₁' : List UInt8} {next' : Expr → Phase}
    {f' : List UInt8 → List UInt8} (h : Splits phase s first s₁ next f)
    (h' : Splits phase s first' s₁' next' f') : first' = first ∧ s₁' = s₁ ∧ next' = next ∧ f' = f := by
  cases h with
  | term =>
    cases h'
    exact ⟨rfl, rfl, rfl, rfl⟩
  | terms =>
    cases h'
    exact ⟨rfl, rfl, rfl, rfl⟩
  | expr =>
    cases h'
    exact ⟨rfl, rfl, rfl, rfl⟩
  | exprs hs =>
    cases h' with
    | exprs hs' =>
      obtain ⟨rfl, rfl⟩ := List.cons.inj (hs'.symm.trans hs)
      exact ⟨rfl, rfl, rfl, rfl⟩

theorem Ends.not_splits (h : Ends phase s e) : ¬ Splits phase s first s₁ next f := by
  intro h'
  cases h with
  | terms hs =>
    cases h' with
    | terms hc => cases hc.symm.trans (hs _ rfl)
  | exprs hs =>
    cases h' with
    | exprs hc => cases hc.symm.trans hs

theorem Ends.unique {e' : Expr} (h : Ends phase s e) (h' : Ends phase s e') : e' = e := by
  cases h <;> cases h' <;> rfl

def Only (phase : Phase) (s : List UInt8) (e₀ : Expr) (s₀ : List UInt8) : Prop :=
  ∀ e s', Reads phase s e s' ↔ e = e₀ ∧ s' = s₀

def Never (phase : Phase) (s : List UInt8) : Prop := ∀ e s', ¬ Reads phase s e s'

/-! ## Prims -/

theorem only_operand (hs : s.head? ≠ some '('.toUInt8) (hd : digits (skip s) ≠ []) :
    Only .prim s (.num (numeral (skip s))) (behind (skip s)) := by
  intro e r
  constructor
  · intro h
    cases h with
    | operand => exact ⟨rfl, rfl⟩
    | brackets => exact absurd rfl hs
    | ends h => cases h
    | splits h => cases h
  · rintro ⟨rfl, rfl⟩
    exact .operand hs hd

theorem never_operand (hs : s.head? ≠ some '('.toUInt8) (hd : digits (skip s) = []) : Never .prim s := by
  intro e r h
  cases h with
  | operand _ hne => exact hne hd
  | brackets => exact hs rfl
  | ends h => cases h
  | splits h => cases h

theorem fits_operand (hs : s.head? ≠ some '('.toUInt8) : Fits .prim s ↔ Short (skip s) := by
  constructor
  · exact fun h => h _ (.operand hs)
  · intro h v hv
    cases hv with
    | operand => exact h
    | brackets => exact absurd rfl hs
    | first h => cases h
    | next h => cases h

theorem only_brackets (hc : closing '('.toUInt8 ')'.toUInt8 1 s = some (inside, after))
    (h : Only .expr inside e s₁) :
    Only .prim ('('.toUInt8 :: s) e (s₁ ++ ')'.toUInt8 :: after).tail := by
  intro e' r
  constructor
  · intro hr
    cases hr with
    | operand hs => exact absurd rfl hs
    | brackets hc' hr =>
      obtain ⟨rfl, rfl⟩ := Prod.mk.inj (Option.some.inj (hc'.symm.trans hc))
      obtain ⟨rfl, rfl⟩ := (h _ _).mp hr
      exact ⟨rfl, rfl⟩
    | ends h => cases h
    | splits h => cases h
  · rintro ⟨rfl, rfl⟩
    exact .brackets hc ((h _ _).mpr ⟨rfl, rfl⟩)

theorem never_brackets (h : ∀ inside after, closing '('.toUInt8 ')'.toUInt8 1 s = some (inside, after) →
    Never .expr inside) : Never .prim ('('.toUInt8 :: s) := by
  intro e' r hr
  cases hr with
  | operand hs => exact hs rfl
  | brackets hc hr => exact h _ _ hc _ _ hr
  | ends h => cases h
  | splits h => cases h

theorem fits_brackets (hc : closing '('.toUInt8 ')'.toUInt8 1 s = some (inside, after)) :
    Fits .prim ('('.toUInt8 :: s) ↔ Fits .expr inside := by
  constructor
  · exact fun h v hv => h v (.brackets hc hv)
  · intro h v hv
    cases hv with
    | operand hs => exact absurd rfl hs
    | brackets hc' hv =>
      obtain ⟨rfl, rfl⟩ := Prod.mk.inj (Option.some.inj (hc'.symm.trans hc))
      exact h v hv
    | first h => cases h
    | next h => cases h

theorem fits_unmatched (hc : closing '('.toUInt8 ')'.toUInt8 1 s = none) :
    Fits .prim ('('.toUInt8 :: s) := by
  intro v hv
  cases hv with
  | operand hs => exact absurd rfl hs
  | brackets hc' => cases hc'.symm.trans hc
  | first h => cases h
  | next h => cases h

/-! ## Terms and expressions -/

theorem only_ends (h : Ends phase s e) : Only phase s e s := by
  intro e' r
  constructor
  · intro hr
    cases hr with
    | operand => cases h
    | brackets => cases h
    | ends h' => exact ⟨h.unique h', rfl⟩
    | splits h' => exact absurd h' h.not_splits
  · rintro ⟨rfl, rfl⟩
    exact .ends h

theorem fits_ends (h : Ends phase s e) : Fits phase s := by
  intro v hv
  cases hv with
  | operand => cases h
  | brackets => cases h
  | first h' => exact absurd h' h.not_splits
  | next h' => exact absurd h' h.not_splits

theorem reads_splits (h : Splits phase s first s₁ next f) (h₁ : Only first s₁ e₁ s₂) (e : Expr)
    (r : List UInt8) : Reads phase s e r ↔ Reads (next e₁) (f s₂) e r := by
  constructor
  · intro hr
    cases hr with
    | operand => cases h
    | brackets => cases h
    | ends h' => exact absurd h h'.not_splits
    | splits h' hr₁ hr₂ =>
      obtain ⟨rfl, rfl, rfl, rfl⟩ := h.unique h'
      obtain ⟨rfl, rfl⟩ := (h₁ _ _).mp hr₁
      exact hr₂
  · exact fun hr => .splits h ((h₁ _ _).mpr ⟨rfl, rfl⟩) hr

theorem never_splits (h : Splits phase s first s₁ next f) (h₁ : Never first s₁) : Never phase s := by
  intro e r hr
  cases hr with
  | operand => cases h
  | brackets => cases h
  | ends h' => exact h'.not_splits h
  | splits h' hr₁ =>
    obtain ⟨rfl, rfl, -⟩ := h.unique h'
    exact h₁ _ _ hr₁

theorem fits_splits (h : Splits phase s first s₁ next f) (h₁ : Only first s₁ e₁ s₂) :
    Fits phase s ↔ Fits first s₁ ∧ Fits (next e₁) (f s₂) := by
  constructor
  · exact fun hf => ⟨fun v hv => hf v (.first h hv),
      fun v hv => hf v (.next h ((h₁ _ _).mpr ⟨rfl, rfl⟩) hv)⟩
  · rintro ⟨hf, hf'⟩ v hv
    cases hv with
    | operand => cases h
    | brackets => cases h
    | first h' hv =>
      obtain ⟨rfl, rfl, -⟩ := h.unique h'
      exact hf v hv
    | next h' hr₁ hv =>
      obtain ⟨rfl, rfl, rfl, rfl⟩ := h.unique h'
      obtain ⟨rfl, rfl⟩ := (h₁ _ _).mp hr₁
      exact hf' v hv

theorem fits_splits_never (h : Splits phase s first s₁ next f) (h₁ : Never first s₁) :
    Fits phase s ↔ Fits first s₁ := by
  constructor
  · exact fun hf v hv => hf v (.first h hv)
  · intro hf v hv
    cases hv with
    | operand => cases h
    | brackets => cases h
    | first h' hv =>
      obtain ⟨rfl, rfl, -⟩ := h.unique h'
      exact hf v hv
    | next h' hr₁ =>
      obtain ⟨rfl, rfl, -⟩ := h.unique h'
      exact absurd hr₁ (h₁ _ _)

end DfewOS.Calculator
