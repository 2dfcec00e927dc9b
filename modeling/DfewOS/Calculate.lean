import DfewOS.CalculatorSpec

/-!
# A calculation leaves no trace

`calculate` ends on every text, puts all of its bytes back and frees each node that it has
allocated once. The characters of `data` that it writes and reads are in bounds if and only if
all numerals fit that the parser comes to.
-/

namespace DfewOS.Calculator
open Brackets
open NulText (Text)

/-! ## Short texts -/

theorem length_behind_le (v : List UInt8) : (behind v).length ≤ v.length :=
  ((List.dropWhile_sublist _).trans (List.drop_sublist _ _)).length_le

theorem Splits.length_le {phase first : Phase} {s s₁ : List UInt8} {next : Expr → Phase}
    {f : List UInt8 → List UInt8} (h : Splits phase s first s₁ next f) :
    s₁.length ≤ s.length ∧ ∀ r, (f r).length ≤ r.length := by
  cases h with
  | term => exact ⟨le_rfl, length_skip_le⟩
  | terms => exact ⟨Nat.le_succ _, fun _ => le_rfl⟩
  | expr => exact ⟨le_rfl, fun _ => le_rfl⟩
  | exprs hs =>
    have hlength := length_skip_le s
    rw [hs, List.length_cons] at hlength
    exact ⟨by omega, fun _ => le_rfl⟩

theorem reads_length {phase : Phase} {s r : List UInt8} {e : Expr} (h : Reads phase s e r) :
    r.length ≤ s.length := by
  induction h with
  | operand => exact (length_behind_le _).trans (length_skip_le _)
  | brackets hc _ ih =>
    rw [closing_append hc]
    simp only [List.length_tail, List.length_append, List.length_cons]
    omega
  | ends => exact le_rfl
  | splits hs _ _ ih₁ ih₂ => exact ih₂.trans ((hs.length_le.2 _).trans (ih₁.trans hs.length_le.1))

theorem wants_length {phase : Phase} {s v : List UInt8} (h : Wants phase s v) : v.length ≤ s.length := by
  induction h with
  | operand => exact length_skip_le _
  | brackets hc _ ih =>
    rw [closing_append hc]
    simp only [List.length_append, List.length_cons]
    omega
  | first hs _ ih => exact ih.trans hs.length_le.1
  | next hs hr _ ih => exact ih.trans ((hs.length_le.2 _).trans ((reads_length hr).trans hs.length_le.1))

theorem length_numeral_le (v : List UInt8) : (numeral v).length ≤ v.length := by
  have happend := congrArg List.length (numeral_append_behind v)
  rw [List.length_append] at happend
  omega

theorem fits_of_length {phase : Phase} {s : List UInt8} (h : s.length < calDataMaxLen) : Fits phase s :=
  fun _ hv => (length_numeral_le _).trans_lt ((wants_length hv).trans_lt h)

/-! ## The tree and its value -/

/-- The numerals of an expression fit. -/
def Expr.Small : Expr → Prop
  | .num data => data.length < calDataMaxLen
  | .bin _ left right => left.Small ∧ right.Small

/-- What the loops have so far. -/
def Phase.Small : Phase → Prop
  | .terms left | .exprs left => left.Small
  | .prim | .term | .expr => True

theorem reads_small {phase : Phase} {s r : List UInt8} {e : Expr} (h : Reads phase s e r)
    (hfits : Fits phase s) (hleft : phase.Small) : e.Small := by
  induction h with
  | operand hs => exact (fits_operand hs).mp hfits
  | brackets hc _ ih => exact ih ((fits_brackets hc).mp hfits) trivial
  | ends h =>
    cases h
    · exact hleft
    · exact hleft
  | splits hs hr hr' ih₁ ih₂ =>
    have hfirst := fun hsmall => ih₁ (fun v hv => hfits v (.first hs hv)) hsmall
    have hrest := ih₂ fun v hv => hfits v (.next hs hr hv)
    cases hs with
    | term => exact hrest (hfirst trivial)
    | terms => exact hrest ⟨hleft, hfirst trivial⟩
    | expr => exact hrest (hfirst trivial)
    | exprs => exact hrest ⟨hleft, hfirst trivial⟩

/-- The `data` of all nodes fits. -/
def Tree.Small : Tree → Prop
  | .null => True
  | .node _ data pLNode pRNode => data.length < calDataMaxLen ∧ pLNode.Small ∧ pRNode.Small

theorem Shows.small {t : Tree} {e : Expr} (h : Shows t e) (he : e.Small) : t.Small := by
  induction h with
  | num => exact ⟨he, trivial, trivial⟩
  | bin _ _ ihl ihr => exact ⟨show 1 < calDataMaxLen by decide, ihl he.1, ihr he.2⟩

theorem loads_effect (st : State) (id len : ℕ) (a : Multiset ℕ) :
    Effect st (st.loads id len) a a (len < calDataMaxLen) := by
  induction len with
  | zero =>
    refine ⟨rfl, fun h => h, fun _ h => h, ?_⟩
    simp [State.loads, State.log, Event.InData, and_comm]
  | succ len ih =>
    have hlog : Effect (st.loads id len) (st.loads id (len + 1)) a a (len + 1 < calDataMaxLen) := by
      refine ⟨rfl, fun h => h, fun _ h => h, ?_⟩
      simp [State.loads, State.log, Event.InData, and_comm]
    exact (ih.trans hlog).congr ⟨fun h => h.2, fun h => ⟨Nat.lt_of_succ_lt h, h⟩⟩

section Values
variable {V : Type} (cal : CalType V)

theorem value_effect (t : Tree) (st : State) (a : Multiset ℕ) :
    ∃ F, Effect st (calBtreeValue cal t st).2 a a F ∧ (t.Small → F) := by
  induction t generalizing st with
  | null => exact ⟨True, .refl st a, fun _ => trivial⟩
  | node id data l r ihl ihr =>
    have hread : Effect st ((st.loads id data.length).log (.load id 0)) a a
        (data.length < calDataMaxLen) := by
      have hfirst := (loads_effect st id data.length a).trans (loads_effect _ id 0 a)
      exact hfirst.congr (and_iff_left (by decide))
    obtain ⟨F, hl, hF⟩ := ihl ((st.loads id data.length).log (.load id 0))
    obtain ⟨G, hr, hG⟩ := ihr (calBtreeValue cal l ((st.loads id data.length).log (.load id 0))).2
    obtain ⟨H, hr', hH⟩ := ihr ((st.loads id data.length).log (.load id 0))
    obtain ⟨K, hl', hK⟩ := ihl (calBtreeValue cal r ((st.loads id data.length).log (.load id 0))).2
    simp only [calBtreeValue]
    split_ifs
    · exact ⟨_, hread.trans (loads_effect _ id data.length a), fun hs => ⟨hs.1, hs.1⟩⟩
    · exact ⟨_, (hread.trans hl).trans hr, fun hs => ⟨⟨hs.1, hF hs.2.1⟩, hG hs.2.2⟩⟩
    · exact ⟨_, (hread.trans hl).trans hr, fun hs => ⟨⟨hs.1, hF hs.2.1⟩, hG hs.2.2⟩⟩
    · exact ⟨_, (hread.trans hl).trans hr, fun hs => ⟨⟨hs.1, hF hs.2.1⟩, hG hs.2.2⟩⟩
    · exact ⟨_, (hread.trans hr').trans (.print _ _ a), fun hs => ⟨⟨hs.1, hH hs.2.2⟩, trivial⟩⟩
    · exact ⟨_, (hread.trans hr').trans hl', fun hs => ⟨⟨hs.1, hH hs.2.2⟩, hK hs.2.1⟩⟩
    · exact ⟨_, hread.trans (.print _ _ a), fun hs => ⟨hs.1, trivial⟩⟩

end Values

/-! ## Calculating -/

section Calculate
variable {V : Type} (cal : CalType V) {m : ℕ → UInt8} {p fuel : ℕ} {s : List UInt8}

/-- Nothing has happened yet. -/
def State.start (m : ℕ → UInt8) : State := ⟨m, 0, [], []⟩

theorem calculate_null {p' : ℕ} {st st' : State} (h : getExprTree fuel p p st = some (.null, p', st')) :
    calculate cal fuel p st = some (cal.zero, st'.print (.unlegal p')) := by
  rw [calculate, h]
  rfl

theorem calculate_tree {t : Tree} {p' : ℕ} {st st' : State} (h : getExprTree fuel p p st = some (t, p', st'))
    (ht : t ≠ .null) : calculate cal fuel p st =
      some ((calBtreeValue cal t st').1, destoryTree t (calBtreeValue cal t st').2) := by
  rw [calculate, h]
  cases t with
  | null => exact absurd rfl ht
  | node id data l r => rfl

theorem calculate_effect (h : Text m p s) (hfuel : s.length < fuel) :
    ∃ v st, calculate cal fuel p (.start m) = some (v, st) ∧ Effect (.start m) st 0 0 (Fits .expr s) := by
  obtain ⟨t, p', st, hrun, hparsed, heffect⟩ := expr_good fuel s p p (.start m) hfuel h
  cases hparsed with
  | stops hnever =>
    exact ⟨_, _, calculate_null cal hrun, (heffect.trans (.print _ _ 0)).congr (and_iff_left trivial)⟩
  | reads _ honly hshows =>
    obtain ⟨F, hvalue, hF⟩ := value_effect cal t st t.ids
    have hall := (heffect.trans hvalue).trans (destory_effect t _)
    refine ⟨_, _, calculate_tree cal hrun hshows.ne_null, hall.congr ?_⟩
    rw [and_iff_left trivial, and_iff_left_iff_imp]
    exact fun hfits => hF (hshows.small (reads_small ((honly _ _).mpr ⟨rfl, rfl⟩) hfits trivial))

/-- The bytes of the text are what they were, and each node that was allocated has been freed
once. -/
theorem calculate_traceless (h : Text m p s) (hfits : Fits .expr s) (hfuel : s.length < fuel) :
    ∃ v st, calculate cal fuel p (.start m) = some (v, st) ∧ st.text = m ∧
      (freed st.events).Perm (allocated st.events) ∧ (allocated st.events).Nodup ∧
      ∀ e ∈ st.events, e.InData := by
  obtain ⟨v, st, hrun, heffect⟩ := calculate_effect cal h hfuel
  refine ⟨v, st, hrun, heffect.text, ?_, ?_, ?_⟩
  · have howns := heffect.owns 0 rfl
    rw [add_zero, add_zero, Multiset.coe_eq_coe] at howns
    exact howns.symm
  · rw [heffect.numbered rfl]
    exact List.nodup_reverse.mpr List.nodup_range
  · exact heffect.inData.mpr ⟨nofun, hfits⟩

/-- All accesses to `data` are in bounds if and only if all numerals fit that the parser comes
to. -/
theorem calculate_in_data (h : Text m p s) (hfuel : s.length < fuel) :
    ∃ v st, calculate cal fuel p (.start m) = some (v, st) ∧
      ((∀ e ∈ st.events, e.InData) ↔ Fits .expr s) := by
  obtain ⟨v, st, hrun, heffect⟩ := calculate_effect cal h hfuel
  exact ⟨v, st, hrun, heffect.inData.trans (and_iff_right nofun)⟩

end Calculate

/-! ## Some texts -/

def natCal : CalType ℕ where
  zero := 0
  atof data := data.foldl (fun n c => 10 * n + (c.toNat - 48)) 0
  add := (· + ·)
  sub := (· - ·)
  mul := (· * ·)
  div := (· / ·)
  isZero n := n == 0

def memory (s : List UInt8) : ℕ → UInt8 := fun x => s.getD (x - 1) 0

def noFactor : List UInt8 := ['(', '1', '+', '2', ')', '*', '(', '3', '*', ')'].map Char.toUInt8

theorem calculate_traceless_noFactor : ∃ v st,
    calculate natCal 11 1 (.start (memory noFactor)) = some (v, st) ∧ st.text = memory noFactor ∧
      (freed st.events).Perm (allocated st.events) := by
  have htext : Text (memory noFactor) 1 noFactor := Text.of_list (by decide)
  obtain ⟨v, st, hrun, hbytes, hfreed, -⟩ :=
    calculate_traceless natCal htext (fits_of_length (by decide)) (show _ < 11 by decide)
  exact ⟨v, st, hrun, hbytes, hfreed⟩

theorem calculate_in_data_noFactor : ∃ v st,
    calculate natCal 11 1 (.start (memory noFactor)) = some (v, st) ∧ ∀ e ∈ st.events, e.InData := by
  have htext : Text (memory noFactor) 1 noFactor := Text.of_list (by decide)
  obtain ⟨v, st, hrun, hiff⟩ := calculate_in_data natCal htext (show _ < 11 by decide)
  exact ⟨v, st, hrun, hiff.mpr (fits_of_length (by decide))⟩

def twentyDigits : List UInt8 := List.replicate 20 '7'.toUInt8

/-- The NUL behind twenty digits is out of bounds. -/
theorem twentyDigits_out : ∃ v st,
    calculate natCal 21 1 (.start (memory twentyDigits)) = some (v, st) ∧
      ∃ e ∈ st.events, ¬ e.InData := by
  have htext : Text (memory twentyDigits) 1 twentyDigits := Text.of_list (by decide)
  obtain ⟨v, st, hrun, heffect⟩ := calculate_effect natCal htext (show _ < 21 by decide)
  refine ⟨v, st, hrun, ?_⟩
  by_contra hall
  have hin : ∀ e ∈ st.events, e.InData := fun e he => by_contra fun hout => hall ⟨e, he, hout⟩
  have hfits := (heffect.inData.mp hin).2
  have hshort : Short twentyDigits := hfits _ (.first .expr (.first .term (.operand (by decide))))
  exact absurd hshort (by unfold Short; decide)

end DfewOS.Calculator
