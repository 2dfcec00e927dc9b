import DfewOS.CalculatorGrammar
import DfewOS.NulText
import Mathlib.Algebra.Order.Group.Multiset
import Mathlib.Data.List.TakeWhile

/-!
# What the parser of the calculator does

Each function of the parser is met with what it reads of a text, and with an `Effect`: the bytes
of the text are what they were, the nodes that are allocated and not freed are those of the tree,
and all that is written into `data` fits if all numerals fit that are read.
-/

namespace DfewOS.Calculator
open Brackets
open NulText (Text)

/-! ## Effects -/

def allocated (events : List Event) : List ℕ :=
  events.filterMap fun | .calloc id => some id | _ => none

def freed (events : List Event) : List ℕ := events.filterMap fun | .free id => some id | _ => none

/-- Only characters of `data` are written and read; `calloc` has cleared all of them. -/
def Event.InData : Event → Prop
  | .store _ pos | .load _ pos => pos < calDataMaxLen
  | .calloc _ | .free _ => True

def Tree.ids : Tree → Multiset ℕ
  | .null => 0
  | .node id _ pLNode pRNode => {id} + (pLNode.ids + pRNode.ids)

/-- From `st` to `st'` the nodes that belong to the parser change from `owned` to `owned'`, beside
any others. -/
structure Effect (st st' : State) (owned owned' : Multiset ℕ) (fits : Prop) : Prop where
  text : st'.text = st.text
  numbered : allocated st.events = (List.range st.next).reverse →
    allocated st'.events = (List.range st'.next).reverse
  owns : ∀ x, (allocated st.events : Multiset ℕ) = freed st.events + (owned + x) →
    (allocated st'.events : Multiset ℕ) = freed st'.events + (owned' + x)
  inData : (∀ e ∈ st'.events, e.InData) ↔ (∀ e ∈ st.events, e.InData) ∧ fits

section Effects
variable {st st₁ st' : State} {a b c : Multiset ℕ} {F G : Prop} {id pos : ℕ}

theorem Effect.refl (st : State) (a : Multiset ℕ) : Effect st st a a True :=
  ⟨rfl, fun h => h, fun _ h => h, (and_true _).symm.to_iff⟩

theorem Effect.trans (h : Effect st st₁ a b F) (h' : Effect st₁ st' b c G) : Effect st st' a c (F ∧ G) where
  text := h'.text.trans h.text
  numbered hn := h'.numbered (h.numbered hn)
  owns x hx := h'.owns x (h.owns x hx)
  inData := by rw [h'.inData, h.inData, and_assoc]

theorem Effect.congr (h : Effect st st' a b F) (hFG : F ↔ G) : Effect st st' a b G :=
  ⟨h.text, h.numbered, h.owns, h.inData.trans (and_congr_right' hFG)⟩

theorem Effect.frame (h : Effect st st' a b F) (c : Multiset ℕ) : Effect st st' (a + c) (b + c) F where
  text := h.text
  numbered := h.numbered
  owns x hx := by
    rw [add_assoc] at hx ⊢
    exact h.owns (c + x) hx
  inData := h.inData

theorem Effect.use (h : Effect st st' a 0 F) (c : Multiset ℕ) : Effect st st' (a + c) c F := by
  have hframe := h.frame c
  rwa [zero_add] at hframe

theorem Effect.make (h : Effect st st' 0 b F) (c : Multiset ℕ) : Effect st st' c (b + c) F := by
  have hframe := h.frame c
  rwa [zero_add] at hframe

theorem Effect.store (st : State) (id pos : ℕ) (a : Multiset ℕ) :
    Effect st (st.log (.store id pos)) a a (pos < calDataMaxLen) :=
  ⟨rfl, fun h => h, fun _ h => h, by simp [State.log, Event.InData, and_comm]⟩

theorem Effect.calloc (st : State) : Effect st st.calloc 0 {st.next} True where
  text := rfl
  numbered h := by
    have hcons : allocated st.calloc.events = st.next :: allocated st.events := rfl
    rw [hcons, h, State.calloc, List.range_succ, List.reverse_append]
    rfl
  owns x hx := by
    have hcons : (allocated st.calloc.events : Multiset ℕ) = {st.next} + allocated st.events := rfl
    rw [hcons, hx, zero_add, add_left_comm]
    rfl
  inData := by simp [State.calloc, Event.InData]

theorem Effect.free (st : State) (id : ℕ) : Effect st (st.log (.free id)) {id} 0 True where
  text := rfl
  numbered h := h
  owns x hx := by
    have hcons : (freed (st.log (.free id)).events : Multiset ℕ) = {id} + freed st.events := rfl
    have hsame : allocated (st.log (.free id)).events = allocated st.events := rfl
    rw [hsame, hcons, hx, zero_add, add_left_comm, add_assoc]
  inData := by simp [State.log, Event.InData]

theorem Effect.print (st : State) (line : Line) (a : Multiset ℕ) : Effect st (st.print line) a a True :=
  ⟨rfl, fun h => h, fun _ h => h, (and_true _).symm.to_iff⟩

theorem Effect.poke {q : ℕ} {d d' : UInt8} (h : Effect (st.poke q d) st' a b F) (hq : st.text q = d') :
    Effect st (st'.poke q d') a b F where
  text := by
    rw [State.poke, h.text, State.poke, ← hq, Function.update_idem, Function.update_eq_self]
  numbered := h.numbered
  owns := h.owns
  inData := h.inData

theorem destory_effect (t : Tree) (st : State) : Effect st (destoryTree t st) t.ids 0 True := by
  induction t generalizing st with
  | null => exact .refl st 0
  | node id data l r ihl ihr =>
    have hsubtrees := ((ihl st).use (r.ids + {id})).trans ((ihr _).use {id})
    have hall := (hsubtrees.trans (.free _ id)).congr (show (True ∧ True) ∧ True ↔ True by simp)
    rwa [← add_assoc, add_comm] at hall

end Effects

/-! ## Loops over the text -/

section Loops
variable {text : ℕ → UInt8} {fuel p : ℕ} {s : List UInt8}

theorem takeWhile_append_skip (s : List UInt8) : s.takeWhile isspace ++ skip s = s :=
  List.takeWhile_append_dropWhile

theorem skip_blank (h : Text text p s) (hfuel : s.length < fuel) :
    skipBlank text fuel p = some (p + (s.takeWhile isspace).length) := by
  induction s generalizing fuel p with
  | nil =>
    cases fuel with
    | zero => exact absurd hfuel (Nat.not_lt_zero _)
    | succ fuel =>
      have hbyte : text p = 0 := h
      rw [skipBlank, hbyte, if_neg (by decide)]
      rfl
  | cons c s ih =>
    cases fuel with
    | zero => exact absurd hfuel (Nat.not_lt_zero _)
    | succ fuel =>
      rw [skipBlank, h.1, List.takeWhile_cons]
      split_ifs with hc
      · rw [ih h.2.2 (Nat.lt_of_succ_lt_succ hfuel), List.length_cons]
        congr 1
        omega
      · rfl

theorem text_skip (h : Text text p s) : Text text (p + (s.takeWhile isspace).length) (skip s) := by
  rw [← takeWhile_append_skip s] at h
  exact h.right

theorem length_skip_le (s : List UInt8) : (skip s).length ≤ s.length := (List.dropWhile_sublist _).length_le

theorem closeLoop_spec {n q : ℕ} (h : Text text (q + 1) s) (hfuel : s.length < fuel) :
    closeLoop text fuel n q =
      some ((closing '('.toUInt8 ')'.toUInt8 n s).map fun r => q + 1 + r.1.length) := by
  induction s generalizing fuel n q with
  | nil =>
    cases fuel with
    | zero => exact absurd hfuel (Nat.not_lt_zero _)
    | succ fuel =>
      have hbyte : text (q + 1) = 0 := h
      simp only [closeLoop, hbyte, closing]
      rfl
  | cons c s ih =>
    cases fuel with
    | zero => exact absurd hfuel (Nat.not_lt_zero _)
    | succ fuel =>
      have hpass : ∀ m, closeLoop text fuel m (q + 1) = some
          (((closing '('.toUInt8 ')'.toUInt8 m s).map (Prod.map (c :: ·) id)).map fun r =>
            q + 1 + r.1.length) := by
        intro m
        rw [ih h.2.2 (Nat.lt_of_succ_lt_succ hfuel), Option.map_map]
        congr 2
        funext r
        simp only [Function.comp_apply, Prod.map_fst, List.length_cons]
        omega
      simp only [closeLoop, h.1, closing, if_neg h.2.1, hpass]
      split_ifs <;> rfl

theorem dataLoop_spec {st : State} (id : ℕ) (data : List UInt8) (a : Multiset ℕ) (h : Text st.text p s)
    (hfuel : s.length < fuel) :
    ∃ st', dataLoop id fuel p data st =
        some (p + (s.takeWhile isData).length, data ++ s.takeWhile isData, st') ∧
      st'.next = st.next ∧ Effect st st' a a (∀ i, data.length ≤ i →
        i < (data ++ s.takeWhile isData).length → i < calDataMaxLen) := by
  induction s generalizing fuel p st data with
  | nil =>
    cases fuel with
    | zero => exact absurd hfuel (Nat.not_lt_zero _)
    | succ fuel =>
      have hbyte : st.text p = 0 := h
      refine ⟨st, ?_, rfl, (Effect.refl st a).congr ?_⟩
      · simp only [dataLoop, hbyte]
        rw [if_neg (by decide), List.takeWhile_nil, List.append_nil]
        rfl
      · simp only [List.takeWhile_nil, List.append_nil, true_iff]
        exact fun i hi hi' => absurd hi (Nat.not_le.mpr hi')
  | cons c s ih =>
    cases fuel with
    | zero => exact absurd hfuel (Nat.not_lt_zero _)
    | succ fuel =>
      simp only [dataLoop, h.1, List.takeWhile_cons]
      split_ifs with hc
      · have htext : Text (st.log (.store id data.length)).text (p + 1) s := h.2.2
        obtain ⟨st', hrun, hnext, heffect⟩ := ih (data ++ [c]) htext (Nat.lt_of_succ_lt_succ hfuel)
        refine ⟨st', ?_, hnext, ((Effect.store st id data.length a).trans heffect).congr ?_⟩
        · rw [hrun, List.append_assoc, List.length_cons, List.singleton_append, Nat.add_right_comm,
            Nat.add_assoc]
        · simp only [List.append_assoc, List.singleton_append, List.length_append, List.length_cons]
          constructor
          · rintro ⟨hfirst, hrest⟩ i hi hi'
            rcases hi.eq_or_lt with rfl | hlt
            · exact hfirst
            · exact hrest i (by simpa using Nat.succ_le_of_lt hlt) (by simpa using hi')
          · intro hall
            refine ⟨hall _ le_rfl (by omega), fun i hi hi' => hall i ?_ (by simpa using hi')⟩
            rw [List.length_nil] at hi
            omega
      · refine ⟨st, by simp, rfl, (Effect.refl st a).congr ?_⟩
        simp only [List.append_nil, true_iff]
        exact fun i hi hi' => absurd hi (Nat.not_le.mpr hi')

end Loops

/-! ## Nodes -/

/-- The nodes of the tree make up the expression. -/
inductive Shows : Tree → Expr → Prop
  | num {id data} : Shows (.node id data .null .null) (.num data)
  | bin {id c l r e e'} : Shows l e → Shows r e' → Shows (.node id [c] l r) (.bin c e e')

inductive Parsed (phase : Phase) (s : List UInt8) (p : ℕ) : Tree → ℕ → Prop
  | stops {p'} : Never phase s → Parsed phase s p .null p'
  | reads {t e u s'} : s = u ++ s' → Only phase s e s' → Shows t e → Parsed phase s p t (p + u.length)

/-- A part of the parser that owns some nodes reads the text `s` at `p`. -/
def Meets (phase : Phase) (owned : Multiset ℕ) (s : List UInt8) (p : ℕ) (st : State) (r : Result) : Prop :=
  ∃ t p' st', r = some (t, p', st') ∧ Parsed phase s p t p' ∧ Effect st st' owned t.ids (Fits phase s)

section Nodes
variable {st : State} {fuel p p_expr : ℕ} {s s₁ v : List UInt8} {c : UInt8}

theorem operator_null (h : Text st.text p s) (hfuel : s.length < fuel) (hs : skip s = []) :
    getOperatorNode fuel p p_expr st = some (.null, p_expr, st) := by
  have htext := text_skip h
  rw [hs] at htext
  have hbyte : st.text (p + (s.takeWhile isspace).length) = 0 := htext
  simp only [getOperatorNode, skip_blank h hfuel, Option.map_some, hbyte, if_true]

theorem operator_node (p_expr : ℕ) (h : Text st.text p s) (hfuel : s.length < fuel)
    (hs : skip s = c :: s₁) :
    ∃ st', getOperatorNode fuel p p_expr st =
        some (.node st.next [c] .null .null, p + (s.takeWhile isspace).length + 1, st') ∧
      Effect st st' 0 {st.next} True := by
  have htext := text_skip h
  rw [hs] at htext
  refine ⟨(st.calloc.log (.store st.next 0)).log (.store st.next 1), ?_, ?_⟩
  · simp only [getOperatorNode, skip_blank h hfuel, Option.map_some, htext.1, if_neg htext.2.1]
  · have hstores := ((Effect.calloc st).trans (.store _ st.next 0 _)).trans (.store _ st.next 1 _)
    exact hstores.congr (by decide)

theorem numeral_append_behind (v : List UInt8) : numeral v ++ behind v = v := by
  have hsign : sign v ++ v.drop (sign v).length = v := by
    cases v with
    | nil => rfl
    | cons c v =>
      rw [sign]
      split_ifs <;> rfl
  rw [numeral, behind, List.append_assoc, digits, List.takeWhile_append_dropWhile, hsign]

theorem numeral_all_sign (v : List UInt8) : (numeral v).getLast?.all isSign = true ↔ digits v = [] := by
  rcases List.eq_nil_or_concat (digits v) with hnil | ⟨ds, d, hd⟩
  · rw [numeral, hnil, List.append_nil]
    refine iff_of_true ?_ rfl
    cases v with
    | nil => rfl
    | cons c v =>
      rw [sign]
      split_ifs with hc
      · exact hc
      · rfl
  · have hdata : isData d = true := by
      have hmem : d ∈ digits v := by
        rw [hd]
        simp
      exact List.mem_takeWhile_imp hmem
    have hsign : isSign d = false := by
      by_contra htrue
      rw [Bool.not_eq_false, isSign, decide_eq_true_iff] at htrue
      rcases htrue with rfl | rfl <;> exact absurd hdata (by decide)
    rw [numeral, hd, List.concat_eq_append, ← List.append_assoc, List.getLast?_concat]
    simp [hsign]

theorem operand_data (a : Multiset ℕ) (id : ℕ) (h : Text st.text p (c :: v)) (hfuel : v.length + 1 < fuel) :
    ∃ st', (if isSign c then dataLoop id fuel (p + 1) [c] (st.log (.store id 0))
        else dataLoop id fuel p [] st) =
          some (p + (numeral (c :: v)).length, numeral (c :: v), st') ∧
      st'.next = st.next ∧ Effect st st' a a (∀ i < (numeral (c :: v)).length, i < calDataMaxLen) := by
  by_cases hc : isSign c = true
  · have htext : Text (st.log (.store id 0)).text (p + 1) v := h.2.2
    obtain ⟨st', hrun, hnext, heffect⟩ := dataLoop_spec id [c] a htext (Nat.lt_of_succ_lt hfuel)
    have hnum : numeral (c :: v) = [c] ++ v.takeWhile isData := by simp [numeral, digits, sign, hc]
    refine ⟨st', ?_, hnext, ((Effect.store st id 0 a).trans heffect).congr ?_⟩
    · rw [if_pos hc, hrun, hnum, List.length_append, List.length_singleton, Nat.add_assoc]
    · rw [hnum]
      constructor
      · rintro ⟨-, hrest⟩ i hi
        rcases Nat.eq_zero_or_pos i with rfl | hpos
        · decide
        · exact hrest i hpos hi
      · exact fun hall => ⟨by decide, fun i _ hi => hall i hi⟩
  · obtain ⟨st', hrun, hnext, heffect⟩ := dataLoop_spec id [] a h hfuel
    have hnum : numeral (c :: v) = (c :: v).takeWhile isData := by simp [numeral, digits, sign, hc]
    refine ⟨st', ?_, hnext, heffect.congr ?_⟩
    · rw [if_neg hc, hrun, hnum, List.nil_append]
    · rw [hnum, List.nil_append]
      exact ⟨fun hall i hi => hall i (Nat.zero_le i) hi, fun hall i _ hi => hall i hi⟩

theorem operand_meets (h : Text st.text p s) (hfuel : s.length < fuel) (hs : s.head? ≠ some '('.toUInt8) :
    Meets .prim 0 s p st (getOperandNode fuel p p st) := by
  have htext := text_skip h
  have hlength := length_skip_le s
  simp only [getOperandNode, skip_blank h hfuel, Option.bind_some]
  cases hv : skip s with
  | nil =>
    rw [hv] at htext
    have hbyte : st.text (p + (s.takeWhile isspace).length) = 0 := htext
    rw [if_pos hbyte]
    refine ⟨.null, p, st, rfl, .stops (never_operand hs (by rw [hv]; rfl)), (Effect.refl st 0).congr ?_⟩
    rw [fits_operand hs, hv, true_iff]
    exact Nat.succ_pos _
  | cons c v =>
    rw [hv] at htext hlength
    have hcalloc : Text st.calloc.text (p + (s.takeWhile isspace).length) (c :: v) := htext
    obtain ⟨st', hrun, -, heffect⟩ := operand_data {st.next} st.next hcalloc (hlength.trans_lt hfuel)
    rw [if_neg (by rw [htext.1]; exact htext.2.1), htext.1, hrun, Option.bind_some]
    have hstored := (((Effect.calloc st).trans heffect).trans
      (.store _ st.next (numeral (c :: v)).length _)).congr (show _ ↔ Fits .prim s by
        rw [fits_operand hs, hv, true_and]
        exact ⟨fun hfit => hfit.2, fun hfit => ⟨fun i hi => hi.trans hfit, hfit⟩⟩)
    split_ifs with hall
    · have hnone : digits (skip s) = [] := by
        rw [hv]
        exact (numeral_all_sign _).mp hall
      refine ⟨.null, p, _, rfl, .stops (never_operand hs hnone), ?_⟩
      exact (hstored.trans (.free _ st.next)).congr (and_iff_left trivial)
    · have hsome : digits (skip s) ≠ [] := by
        rw [hv]
        exact fun hnil => hall ((numeral_all_sign _).mpr hnil)
      have honly := only_operand hs hsome
      rw [hv] at honly
      have hsplit : s = (s.takeWhile isspace ++ numeral (c :: v)) ++ behind (c :: v) := by
        rw [List.append_assoc, numeral_append_behind, ← hv, takeWhile_append_skip]
      refine ⟨_, _, _, by rw [Nat.add_assoc, ← List.length_append], .reads hsplit honly .num, ?_⟩
      simpa [Tree.ids] using hstored

end Nodes

/-! ## The parser -/

section Parser
variable {st st₁ : State} {fuel n p p₁ p_expr : ℕ} {s s₁ u : List UInt8} {c : UInt8} {phase first : Phase}
  {next : Expr → Phase} {f : List UInt8 → List UInt8} {owned owned₁ : Multiset ℕ} {e e₁ : Expr}
  {t : Tree} {r : Result} {sub : ℕ → ℕ → State → Result}

/-- `sub` is as good as `getExprTree` on texts of less than `n` characters. -/
def Good (n : ℕ) (sub : ℕ → ℕ → State → Result) : Prop :=
  ∀ s p p_expr st, s.length < n → Text st.text p s → Meets .expr 0 s p st (sub p p_expr st)

theorem Shows.ne_null (h : Shows t e) : t ≠ .null := by
  cases h <;> exact Tree.noConfusion

theorem Meets.step (h : Splits phase s first s₁ next f) (h₁ : Only first s₁ e₁ u)
    (heffect : Effect st st₁ owned owned₁ (Fits first s₁))
    (hrest : Meets (next e₁) owned₁ (f u) p₁ st₁ r) (hpos : ∃ w, s = w ++ f u ∧ p₁ = p + w.length) :
    Meets phase owned s p st r := by
  obtain ⟨t, p', st', hrun, hparsed, heffect'⟩ := hrest
  refine ⟨t, p', st', hrun, ?_, (heffect.trans heffect').congr (fits_splits h h₁).symm⟩
  obtain ⟨w, hsplit, rfl⟩ := hpos
  cases hparsed with
  | stops hnever => exact .stops fun e r hr => hnever e r ((reads_splits h h₁ e r).mp hr)
  | @reads _ e v s' heq honly hshows =>
    rw [Nat.add_assoc, ← List.length_append]
    refine .reads (by rw [List.append_assoc, ← heq, hsplit]) (fun e' r => ?_) hshows
    exact (reads_splits h h₁ e' r).trans (honly e' r)

/-- The bracket that closes is put back after the expression in front of it has been read. -/
theorem brackets_meets {inside after : List UInt8} (hgood : Good n sub)
    (h : Text st.text p ('('.toUInt8 :: s)) (hlength : s.length < n) (hc : closing '('.toUInt8 ')'.toUInt8 1 s = some (inside, after)) :
    Meets .prim 0 ('('.toUInt8 :: s) p st
      ((sub (p + 1) p (st.poke (p + 1 + inside.length) 0)).map fun (pNode, expr, st) =>
        (pNode, expr + 1, st.poke (p + 1 + inside.length) ')'.toUInt8)) := by
  have hsplit := closing_append hc
  have htext : Text (st.poke (p + 1 + inside.length) 0).text (p + 1) inside := by
    have hcut := h.2.2.take (show inside.length < s.length by simp [hsplit])
    rwa [hsplit, List.take_left] at hcut
  have hbyte : st.text (p + 1 + inside.length) = ')'.toUInt8 := by
    have hright := h.2.2
    rw [hsplit] at hright
    exact hright.right.1
  obtain ⟨t, p', st', hrun, hparsed, heffect⟩ := hgood inside (p + 1) p _ (by
    rw [hsplit, List.length_append] at hlength
    omega) htext
  refine ⟨t, p' + 1, _, by rw [hrun]; rfl, ?_, (heffect.poke hbyte).congr (fits_brackets hc).symm⟩
  cases hparsed with
  | stops hnever =>
    refine .stops (never_brackets fun inside' after' hc' => ?_)
    obtain ⟨rfl, rfl⟩ := Prod.mk.inj (Option.some.inj (hc'.symm.trans hc))
    exact hnever
  | @reads _ e v s' heq honly hshows =>
    obtain ⟨d, rest, hd⟩ : ∃ d rest, s' ++ ')'.toUInt8 :: after = d :: rest := by
      cases s' with
      | nil => exact ⟨_, _, rfl⟩
      | cons d s' => exact ⟨_, _, rfl⟩
    have hparts : '('.toUInt8 :: s = ('('.toUInt8 :: (v ++ [d])) ++ rest := by
      rw [hsplit, heq, List.append_assoc, hd, List.cons_append, List.append_assoc]
      rfl
    have honly' := only_brackets hc honly
    rw [hd] at honly'
    have hpos : p + 1 + v.length + 1 = p + ('('.toUInt8 :: (v ++ [d])).length := by simp; omega
    rw [hpos]
    exact .reads hparts honly' hshows

theorem prim_meets (hgood : Good n sub) (h : Text st.text p s) (hlength : s.length < n + 1)
    (hfuel : s.length < fuel) : Meets .prim 0 s p st (getPrim sub fuel p p st) := by
  rw [getPrim]
  split_ifs with hopen
  · cases s with
    | nil =>
      have hbyte : st.text p = 0 := h
      rw [hbyte] at hopen
      exact absurd hopen (by decide)
    | cons d s =>
      obtain rfl : d = '('.toUInt8 := h.1.symm.trans hopen
      rw [closeLoop_spec h.2.2 (Nat.lt_of_succ_lt hfuel)]
      cases hc : closing '('.toUInt8 ')'.toUInt8 1 s with
      | none =>
        refine ⟨.null, p, _, rfl, .stops (never_brackets ?_), (Effect.print st _ 0).congr ?_⟩
        · exact fun inside after hc' => nomatch hc.symm.trans hc'
        · exact (true_iff _).mpr (fits_unmatched hc)
      | some parts => exact brackets_meets hgood h (Nat.lt_of_succ_lt_succ hlength) hc
  · refine operand_meets h hfuel fun hhead => hopen ?_
    cases s with
    | nil => cases hhead
    | cons d s => exact h.1.trans (Option.some.inj hhead)

theorem skip_of_not_space (hc : isspace c = false) : skip (c :: s) = c :: s := by simp [skip, hc]

theorem factor_not_space (hc : isFactor c = true) : isspace c = false := by
  rw [isFactor, decide_eq_true_iff] at hc
  rcases hc with rfl | rfl <;> decide

/-- An operator in front of a prim or a term that cannot be read is freed, and so is the tree. -/
theorem Effect.dismantle {id : ℕ} {st₂ : State} {F : Prop} (h : Effect st st₁ 0 {id} True)
    (h' : Effect st₁ st₂ 0 0 F) : Effect st (destoryTree t (st₂.log (.free id))) t.ids 0 F := by
  have hread := (h.make t.ids).trans (h'.make _)
  rw [zero_add] at hread
  have hfreed := hread.trans ((Effect.free st₂ id).use t.ids)
  exact (hfreed.trans (destory_effect t _)).congr (by simp)

theorem Effect.join {id : ℕ} {st₂ : State} {F : Prop} {t₁ : Tree} (data : List UInt8)
    (h : Effect st st₁ 0 {id} True) (h' : Effect st₁ st₂ 0 t₁.ids F) :
    Effect st st₂ t.ids (Tree.node id data t t₁).ids F := by
  have hjoined := (h.make t.ids).trans (h'.make _)
  rw [add_comm t₁.ids, add_assoc] at hjoined
  exact hjoined.congr (and_iff_right trivial)

theorem termLoop_meets {k : ℕ} (hgood : Good n sub) (h : Text st.text p s) (hlength : s.length < n + 1)
    (hfuel : s.length < fuel) (hk : s.length < k) (hshows : Shows t e) :
    Meets (.terms e) t.ids s p st (termLoop sub fuel k t p st) := by
  induction k generalizing s p st t e with
  | zero => exact absurd hk (Nat.not_lt_zero _)
  | succ k ih =>
    rw [termLoop]
    by_cases hc : isFactor (st.text p) = true
    · cases s with
      | nil =>
        have hbyte : st.text p = 0 := h
        rw [hbyte] at hc
        exact absurd hc (by decide)
      | cons c s =>
        rw [if_pos hc]
        rw [h.1] at hc
        have hspace := factor_not_space hc
        obtain ⟨st₁, hrun, hoperator⟩ := operator_node p h hfuel (skip_of_not_space hspace)
        have htext : Text st₁.text (p + 1) s := hoperator.text ▸ h.2.2
        rw [hrun, List.takeWhile_cons_of_neg (by simp [hspace])]
        obtain ⟨t₁, p₁, st₂, hprim, hparsed, heffect⟩ :=
          prim_meets hgood htext (Nat.lt_of_succ_lt hlength) (Nat.lt_of_succ_lt hfuel)
        simp only [List.length_nil, Nat.add_zero, Option.bind_some, hprim]
        have hsplits : Splits (.terms e) (c :: s) .prim s (fun e₁ => .terms (.bin c e e₁)) id := .terms hc
        cases hparsed with
        | stops hnever =>
          refine ⟨.null, p₁, _, rfl, .stops (never_splits hsplits hnever), ?_⟩
          exact (hoperator.dismantle heffect).congr (fits_splits_never hsplits hnever).symm
        | @reads _ e₁ u s' heq honly hshows₁ =>
          have hlength' : s'.length ≤ s.length := by
            rw [heq, List.length_append]
            omega
          have hrest : Text st₂.text (p + 1 + u.length) s' := by
            rw [heffect.text]
            exact (heq ▸ htext : Text st₁.text (p + 1) (u ++ s')).right
          have hpos : ∃ w, c :: s = w ++ id s' ∧ p + 1 + u.length = p + w.length :=
            ⟨c :: u, by rw [heq]; rfl, by rw [List.length_cons]; omega⟩
          cases t₁ with
          | null => exact absurd rfl hshows₁.ne_null
          | node id₁ data₁ l₁ r₁ =>
            rw [List.length_cons] at hlength hfuel hk
            refine Meets.step hsplits honly (Effect.join [c] hoperator heffect) ?_ hpos
            exact ih hrest (show s'.length < n + 1 by omega) (show s'.length < fuel by omega)
              (show s'.length < k by omega) (.bin hshows hshows₁)
    · have hends : Ends (.terms e) s e := by
        refine .terms fun c hc' => ?_
        cases s with
        | nil => cases hc'
        | cons d s =>
          obtain rfl := Option.some.inj hc'
          rw [h.1] at hc
          exact Bool.eq_false_iff.mpr hc
      rw [if_neg hc]
      exact ⟨t, p, st, rfl, .reads (u := []) rfl (only_ends hends) hshows,
        (Effect.refl st t.ids).congr ((true_iff _).mpr (fits_ends hends))⟩

theorem term_meets (p_expr : ℕ) (hgood : Good n sub) (h : Text st.text p s) (hlength : s.length < n + 1)
    (hfuel : s.length < fuel) : Meets .term 0 s p st (getTermTree sub fuel p p_expr st) := by
  obtain ⟨t, p', st', hprim, hparsed, heffect⟩ := prim_meets hgood h hlength hfuel
  simp only [getTermTree, hprim, Option.bind_some]
  cases hparsed with
  | stops hnever =>
    refine ⟨.null, p_expr, st', rfl, .stops (never_splits .term hnever), ?_⟩
    exact heffect.congr (fits_splits_never .term hnever).symm
  | @reads _ e u s' heq honly hshows =>
    have hlength' : s'.length ≤ s.length := by
      rw [heq, List.length_append]
      omega
    have hskip := length_skip_le s'
    have hrest : Text st'.text (p + u.length) s' := by
      rw [heffect.text]
      exact (heq ▸ h : Text st.text p (u ++ s')).right
    have hpos : ∃ w, s = w ++ skip s' ∧ p + u.length + (s'.takeWhile isspace).length = p + w.length :=
      ⟨u ++ s'.takeWhile isspace, by rw [List.append_assoc, takeWhile_append_skip, heq],
        by rw [List.length_append, Nat.add_assoc]⟩
    cases t with
    | null => exact absurd rfl hshows.ne_null
    | node id data l r =>
      simp only [skip_blank hrest (show s'.length < fuel by omega), Option.bind_some]
      refine Meets.step .term honly heffect ?_ hpos
      exact termLoop_meets hgood (text_skip hrest) (show (skip s').length < n + 1 by omega)
        (show (skip s').length < fuel by omega) (show (skip s').length < fuel by omega) hshows

theorem exprLoop_meets {k : ℕ} (hgood : Good n sub) (h : Text st.text p s) (hlength : s.length < n + 1)
    (hfuel : s.length < fuel) (hk : s.length < k) (hshows : Shows t e) :
    Meets (.exprs e) t.ids s p st ((getOperatorNode fuel p p st).bind fun (pOperator, expr, st) =>
      exprLoop sub fuel k t pOperator expr st) := by
  induction k generalizing s p st t e with
  | zero => exact absurd hk (Nat.not_lt_zero _)
  | succ k ih =>
    cases hs : skip s with
    | nil =>
      rw [operator_null h hfuel hs]
      exact ⟨t, p, st, rfl, .reads (u := []) rfl (only_ends (.exprs hs)) hshows,
        (Effect.refl st t.ids).congr ((true_iff _).mpr (fits_ends (.exprs hs)))⟩
    | cons c s₁ =>
      obtain ⟨st₁, hrun, hoperator⟩ := operator_node p h hfuel hs
      have hblanks := takeWhile_append_skip s
      rw [hs] at hblanks
      have hlength₁ := congrArg List.length hblanks
      rw [List.length_append, List.length_cons] at hlength₁
      have htext : Text st₁.text (p + (s.takeWhile isspace).length + 1) s₁ := by
        have hskip := text_skip h
        rw [hs] at hskip
        exact hoperator.text ▸ hskip.2.2
      obtain ⟨t₁, p₁, st₂, hterm, hparsed, heffect⟩ :=
        term_meets (p + (s.takeWhile isspace).length + 1) hgood htext (by omega)
          (show s₁.length < fuel by omega)
      simp only [hrun, Option.bind_some, exprLoop, hterm]
      have hsplits : Splits (.exprs e) s .term s₁ (fun e₁ => .exprs (.bin c e e₁)) id := .exprs hs
      cases hparsed with
      | stops hnever =>
        refine ⟨.null, p₁, _, rfl, .stops (never_splits hsplits hnever), ?_⟩
        exact (hoperator.dismantle heffect).congr (fits_splits_never hsplits hnever).symm
      | @reads _ e₁ u s' heq honly hshows₁ =>
        have hlength' : s'.length ≤ s₁.length := by
          rw [heq, List.length_append]
          omega
        have hrest : Text st₂.text (p + (s.takeWhile isspace).length + 1 + u.length) s' := by
          rw [heffect.text]
          exact (heq ▸ htext : Text st₁.text _ (u ++ s')).right
        have hpos : ∃ w, s = w ++ id s' ∧
            p + (s.takeWhile isspace).length + 1 + u.length = p + w.length :=
          ⟨s.takeWhile isspace ++ c :: u, by rw [List.append_assoc, List.cons_append, id, ← heq, hblanks],
            by rw [List.length_append, List.length_cons]; omega⟩
        cases t₁ with
        | null => exact absurd rfl hshows₁.ne_null
        | node id₁ data₁ l₁ r₁ =>
          refine Meets.step hsplits honly (Effect.join [c] hoperator heffect) ?_ hpos
          exact ih hrest (show s'.length < n + 1 by omega) (show s'.length < fuel by omega)
            (show s'.length < k by omega) (.bin hshows hshows₁)

end Parser

/-- `getExprTree` does what the grammar says, on every text that is shorter than its fuel. -/
theorem expr_good (fuel : ℕ) : Good fuel (getExprTree fuel) := by
  induction fuel with
  | zero => exact fun s p p_expr st hlength => absurd hlength (Nat.not_lt_zero _)
  | succ fuel ih =>
    intro s p p_expr st hlength h
    obtain ⟨t, p', st', hterm, hparsed, heffect⟩ := term_meets p ih h hlength hlength
    simp only [getExprTree, hterm, Option.bind_some]
    cases hparsed with
    | stops hnever =>
      refine ⟨.null, p_expr, st', rfl, .stops (never_splits .expr hnever), ?_⟩
      exact heffect.congr (fits_splits_never .expr hnever).symm
    | @reads _ e u s' heq honly hshows =>
      have hlength' : s'.length ≤ s.length := by
        rw [heq, List.length_append]
        omega
      have hrest : Text st'.text (p + u.length) s' := by
        rw [heffect.text]
        exact (heq ▸ h : Text st.text p (u ++ s')).right
      cases t with
      | null => exact absurd rfl hshows.ne_null
      | node id data l r =>
        refine Meets.step .expr honly heffect ?_ ⟨u, heq, rfl⟩
        exact exprLoop_meets ih hrest (show s'.length < fuel + 1 by omega)
          (show s'.length < fuel + 1 by omega) (show s'.length < fuel + 1 by omega) hshows

end DfewOS.Calculator
