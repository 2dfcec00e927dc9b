import DfewOS.FtpDispatch

/-!
# What a command line is split into

The line is blanks, the command, blanks, the options, blanks and the rest: `Splits`. The options
are the words behind the command that begin with a dash, and none behind a word of two dashes.
Each loop finds the end of what it runs over, and each terminator falls behind what has been
found and in front of what is still to be read.
-/

namespace DfewOS.Ftp
open Calculator (isspace)
open Memory (Looked fresh)
open NulText (Text)
open Walk (skipWhile Lies skipWhile_text skipWhile_rest)
open Words (words word behind words_nil words_sep words_cons words_of_word words_append_sep words_free
  words_blank_append word_append_behind)

def Blank (s : List UInt8) : Prop := ∀ c ∈ s, isspace c = true

/-- The words from the first on that begin with a dash, up to a word of two dashes. -/
def optionBlock : List (List UInt8) → List (List UInt8)
  | [] => []
  | w :: ws =>
    if w.head? = some dash then w :: (if w = [dash, dash] then [] else optionBlock ws) else []

/-- A line in front of its rest: options that are not surrounded by blanks. -/
structure Options (s opts : List UInt8) : Prop where
  block : words isspace opts = optionBlock (words isspace s)
  head : ∀ c ∈ opts.head?, isspace c = false
  last : ∀ c ∈ opts.getLast?, isspace c = false

section Words
variable {s : List UInt8}

theorem takeWhile_inWord (h : 0 ∉ s) : s.takeWhile inWord = word isspace s := by
  induction s with
  | nil => rfl
  | cons c s ih =>
    obtain ⟨hc, hs⟩ := List.ne_and_not_mem_of_not_mem_cons h
    have hiff : inWord c = !isspace c := by
      rw [inWord]
      cases isspace c <;> simp [Ne.symm hc]
    rw [word, List.takeWhile_cons, List.takeWhile_cons, hiff]
    cases isspace c with
    | true => rfl
    | false => exact congrArg (c :: ·) (ih hs)

end Words

/-! ## The options -/

section Blocks
variable {t u v lead opts gap arg rest : List UInt8} {c : UInt8}

/-- How a text begins with options. -/
structure Block (t lead opts gap arg : List UInt8) : Prop where
  split : t = lead ++ opts ++ gap ++ arg
  blank_lead : Blank lead
  blank_gap : Blank gap
  options : Options t opts
  arg_head : ∀ c ∈ arg.head?, isspace c = false
  apart : opts ≠ [] → gap = [] → arg = []
  no_gap : opts = [] → gap = []

theorem blank_takeWhile (t : List UInt8) : Blank (t.takeWhile isspace) := fun _ hc =>
  List.mem_takeWhile_imp hc

theorem head_dropWhile (hc : c ∈ (t.dropWhile isspace).head?) : isspace c = false := by
  have hnot := List.head?_dropWhile_not isspace t
  rw [Option.mem_def] at hc
  rw [hc] at hnot
  exact hnot

theorem words_dropWhile (t : List UInt8) : words isspace (t.dropWhile isspace) = words isspace t := by
  conv_rhs => rw [← List.takeWhile_append_dropWhile (p := isspace) (l := t)]
  exact (words_blank_append (blank_takeWhile t)).symm

theorem block_none (hdash : ∀ c ∈ (t.dropWhile isspace).head?, c ≠ dash) :
    Block t (t.takeWhile isspace) [] [] (t.dropWhile isspace) where
  split := by rw [List.append_nil, List.append_nil, List.takeWhile_append_dropWhile]
  blank_lead := blank_takeWhile t
  blank_gap c hc := absurd hc List.not_mem_nil
  options := by
    have hnone : ∀ c ∈ (none : Option UInt8), isspace c = false := fun c hc =>
      absurd hc (Option.not_mem_none c)
    refine ⟨?_, hnone, hnone⟩
    rw [← words_dropWhile t]
    have hhead : ∀ c ∈ (t.dropWhile isspace).head?, isspace c = false := fun c => head_dropWhile
    cases hu : t.dropWhile isspace with
    | nil => rfl
    | cons c u =>
      rw [hu] at hdash hhead
      rw [words_cons (hhead c rfl), optionBlock, if_neg]
      · rfl
      · exact fun h => hdash c rfl (Option.some.inj h)
  arg_head c := head_dropWhile
  apart hne := absurd rfl hne
  no_gap _ := rfl

theorem isspace_dash : isspace dash = false := by decide

theorem word_dash (v : List UInt8) : word isspace (dash :: v) = dash :: word isspace v :=
  Words.word_cons isspace_dash

theorem block_last (hu : t.dropWhile isspace = dash :: dash :: c :: v) (hc : isspace c = true) :
    Block t (t.takeWhile isspace) [dash, dash] ((c :: v).takeWhile isspace)
      ((c :: v).dropWhile isspace) where
  split := by
    rw [List.append_assoc, List.append_assoc, List.takeWhile_append_dropWhile]
    conv_lhs => rw [← List.takeWhile_append_dropWhile (p := isspace) (l := t), hu]
    rfl
  blank_lead := blank_takeWhile t
  blank_gap := blank_takeWhile _
  options := by
    refine ⟨?_, fun d hd => ?_, fun d hd => ?_⟩
    · have htwo : ∀ b ∈ [dash, dash], isspace b = false := by
        rintro b (_ | ⟨_, _ | ⟨_, ⟨⟩⟩⟩) <;> exact isspace_dash
      have hwords : words isspace t = [dash, dash] :: words isspace v := by
        rw [← words_dropWhile t, hu]
        exact (words_append_sep (s := [dash, dash]) hc).trans (congrArg (· ++ _) (words_free htwo))
      rw [hwords, words_free htwo, optionBlock]
      rfl
    · obtain rfl := Option.some.inj hd
      exact isspace_dash
    · obtain rfl := Option.some.inj hd
      exact isspace_dash
  arg_head d := head_dropWhile
  apart _ hgap := absurd hgap (by rw [List.takeWhile_cons_of_pos hc]; exact List.cons_ne_nil _ _)
  no_gap h := absurd h (List.cons_ne_nil _ _)

theorem head_behind (hc : c ∈ (behind isspace t).head?) : isspace c = true := by
  have hnot := List.head?_dropWhile_not (fun c => !isspace c) t
  rw [Option.mem_def, behind] at hc
  rw [hc] at hnot
  simpa using hnot

theorem mem_word (hc : c ∈ word isspace t) : isspace c = false := by
  simpa using List.mem_takeWhile_imp (p := fun c => !isspace c) hc

theorem block_more {w : List UInt8} (hu : t.dropWhile isspace = w ++ rest)
    (hw : word isspace (w ++ rest) = w) (hrest : behind isspace (w ++ rest) = rest)
    (hdash : w.head? = some dash) (hlast : w ≠ [dash, dash] ∨ rest = [])
    (h : Block rest lead opts gap arg) :
    Block t (t.takeWhile isspace) (if opts = [] then w else w ++ lead ++ opts)
      (if opts = [] then lead else gap) arg := by
  have hne : w ≠ [] := by
    rintro rfl
    exact absurd hdash (by decide)
  have hfree : ∀ c ∈ w, isspace c = false := fun c hc => mem_word (hw.symm ▸ hc)
  have hblank : ∀ c ∈ rest.head?, isspace c = true := fun c hc => head_behind (hrest.symm ▸ hc)
  have ht : t = t.takeWhile isspace ++ (w ++ rest) := by
    rw [← hu, List.takeWhile_append_dropWhile]
  have hwords : optionBlock (words isspace t) = w :: words isspace opts := by
    rw [← words_dropWhile t, hu, words_of_word (by rwa [hw]), hw, hrest, optionBlock, if_pos hdash]
    rcases hlast with htwo | hnil
    · rw [if_neg htwo, h.options.block]
    · have hopts : words isspace opts = [] := by rw [h.options.block, hnil]; rfl
      rw [hopts, hnil]
      exact congrArg _ (ite_self _)
  have hhead : ∀ {s : List UInt8}, ∀ c ∈ (w ++ s).head?, isspace c = false := by
    intro s c hc
    rw [List.head?_append_of_ne_nil _ hne, hdash] at hc
    exact Option.some.inj hc ▸ isspace_dash
  by_cases hopts : opts = []
  · have hgap := h.no_gap hopts
    have hsplit := h.split
    rw [hopts, hgap, List.append_nil, List.append_nil] at hsplit
    rw [if_pos hopts, if_pos hopts]
    refine ⟨?_, blank_takeWhile t, h.blank_lead, ⟨?_, ?_, ?_⟩, h.arg_head, ?_, fun hnil => absurd hnil hne⟩
    · rw [List.append_assoc, List.append_assoc, ← hsplit]
      exact ht
    · rw [hwords, hopts, words_free hfree, if_neg hne]
      rfl
    · exact List.append_nil w ▸ hhead
    · exact fun c hc => hfree c (List.mem_of_getLast? hc)
    · rintro - rfl
      cases arg with
      | nil => rfl
      | cons c arg =>
        subst hsplit
        exact absurd ((hblank c rfl).symm.trans (h.arg_head c rfl)) (by decide)
  · -- the options behind this one begin behind a blank
    obtain ⟨c, lead', rfl⟩ : ∃ c lead', lead = c :: lead' := by
      cases lead with
      | cons c lead => exact ⟨c, lead, rfl⟩
      | nil =>
        obtain ⟨d, opts', rfl⟩ := List.exists_cons_of_ne_nil hopts
        have hsplit := h.split
        rw [hsplit] at hblank
        exact absurd ((hblank d rfl).symm.trans (h.options.head d rfl)) (by decide)
    rw [if_neg hopts, if_neg hopts]
    refine ⟨?_, blank_takeWhile t, h.blank_gap, ⟨?_, ?_, ?_⟩, h.arg_head, fun _ => h.apart hopts, ?_⟩
    · conv_lhs => rw [ht, h.split]
      simp only [List.append_assoc]
    · have hc := h.blank_lead c List.mem_cons_self
      have hlead : Blank lead' := fun d hd => h.blank_lead d (List.mem_cons_of_mem c hd)
      rw [hwords, List.append_assoc, List.cons_append, words_append_sep hc, words_blank_append hlead,
        words_free hfree, if_neg hne]
      rfl
    · rw [List.append_assoc]
      exact hhead
    · rw [List.getLast?_append_of_ne_nil _ hopts]
      exact h.options.last
    · exact fun hnil => absurd (List.append_eq_nil_iff.mp hnil).2 hopts

end Blocks

section SkipOpt
variable {m : Memory} {A : Set ℕ} {t : List UInt8} {p fuel : ℕ}

theorem word_drop {u : List UInt8} {j : ℕ} (hj : j ≤ (word isspace u).length) :
    word isspace (u.drop j) = (word isspace u).drop j := by
  induction j generalizing u with
  | zero => rfl
  | succ j ih =>
    cases u with
    | nil => exact absurd hj (Nat.not_succ_le_zero j)
    | cons c u =>
      cases hc : isspace c with
      | true =>
        rw [Words.word_sep hc] at hj
        exact absurd hj (Nat.not_succ_le_zero j)
      | false =>
        rw [Words.word_cons hc] at hj ⊢
        exact ih (Nat.le_of_succ_le_succ hj)

theorem skipWhile_word {u : List UInt8} {q j : ℕ} (hu : Text m.byte q u) (hA : Lies A q u)
    (hj : j ≤ (word isspace u).length) (hfuel : u.length < fuel) :
    ∃ m', skipWhile inWord fuel m (q + j) = some (m', q + (word isspace u).length) ∧ Looked m m' A := by
  have hlen : j ≤ u.length := hj.trans (List.takeWhile_sublist _).length_le
  have htext := hu.drop hlen
  obtain ⟨m', hskip, hlook⟩ := skipWhile_text htext (hA.drop hlen) (show inWord 0 = false by decide)
    (show (u.drop j).length < fuel by rw [List.length_drop]; omega)
  refine ⟨m', ?_, hlook⟩
  rw [hskip, takeWhile_inWord htext.not_nul, word_drop hj, List.length_drop]
  congr 2
  omega

/-- `skipOptLoop` returns where the block ends, and `pcLast` behind its last option. -/
def SkipsBlock (A : Set ℕ) (m : Memory) (p : ℕ) (t : List UInt8) (last : Option ℕ)
    (r : Option (Memory × ℕ × Option ℕ)) : Prop :=
  ∃ m' lead opts gap arg, Block t lead opts gap arg ∧ Looked m m' A ∧
    r = some (m', p + (lead ++ opts ++ gap).length,
      if opts = [] then last else some (p + (lead ++ opts).length))

theorem SkipsBlock.more {m' : Memory} {last last' : Option ℕ} {r : Option (Memory × ℕ × Option ℕ)}
    {w rest : List UInt8} {q : ℕ} (hu : t.dropWhile isspace = w ++ rest)
    (hw : word isspace (w ++ rest) = w) (hrest : behind isspace (w ++ rest) = rest)
    (hdash : w.head? = some dash) (hlast : w ≠ [dash, dash] ∨ rest = []) (hlook : Looked m m' A)
    (hq : q = p + (t.takeWhile isspace).length + w.length) (hl : last' = some q)
    (h : SkipsBlock A m' q rest last' r) : SkipsBlock A m p t last r := by
  obtain ⟨m₁, lead, opts, gap, arg, hblock, hlook₁, hr⟩ := h
  refine ⟨m₁, _, _, _, arg, block_more hu hw hrest hdash hlast hblock, hlook.trans hlook₁, ?_⟩
  have hne : w ≠ [] := by
    rintro rfl
    exact absurd hdash (by decide)
  subst hl hq
  rw [hr]
  by_cases hopts : opts = []
  · have hgap := hblock.no_gap hopts
    subst hopts hgap
    simp only [if_true, if_neg hne, List.length_append, List.length_nil, Nat.add_zero, Nat.add_assoc]
  · have happ : w ++ lead ++ opts ≠ [] := fun hnil => hopts (List.append_eq_nil_iff.mp hnil).2
    simp only [if_neg hopts, if_neg happ, List.length_append, Nat.add_assoc]

/-- A round ends behind a word of two dashes and the blanks there, or behind its word. -/
theorem skipOption_text {v : List UInt8} {q : ℕ} (hu : Text m.byte q (dash :: v))
    (hA : Lies A q (dash :: v)) (hfuel : (dash :: v).length < fuel) :
    (∃ m' c v', v = dash :: c :: v' ∧ isspace c = true ∧ Looked m m' A ∧ skipOption fuel m q =
      some ⟨m', q + 2, q + 2 + ((c :: v').takeWhile isspace).length, true⟩) ∨
    ∃ m', (word isspace (dash :: v) ≠ [dash, dash] ∨ behind isspace (dash :: v) = []) ∧ Looked m m' A ∧
      skipOption fuel m q = some ⟨m', q + (word isspace (dash :: v)).length,
        q + (word isspace (dash :: v)).length, false⟩ := by
  have hword : word isspace (dash :: v) = dash :: word isspace v := word_dash v
  have hlook : Looked m (m.touch (q + 1)) A := .touch m (hA 1 (Nat.succ_le_succ (Nat.zero_le _)))
  have hsecond : (m.touch (q + 1)).byte (q + 1) = v.headD 0 := hu.2.2.head
  rw [skipOption]
  dsimp only
  by_cases htwo : v.headD 0 = dash
  · rw [if_pos (hsecond.trans htwo)]
    obtain ⟨v', rfl⟩ : ∃ v', v = dash :: v' := by
      cases v with
      | nil => exact absurd htwo (by decide)
      | cons c v =>
        obtain rfl : c = dash := htwo
        exact ⟨v, rfl⟩
    have hlook₂ : Looked m ((m.touch (q + 1)).touch (q + 2)) A :=
      hlook.trans (.touch _ (hA 2 (Nat.succ_le_succ (Nat.succ_le_succ (Nat.zero_le _)))))
    have hthird : ((m.touch (q + 1)).touch (q + 2)).byte (q + 2) = v'.headD 0 := hu.2.2.2.2.head
    rw [hthird]
    cases hblank : isspace (v'.headD 0) with
    | true =>
      left
      obtain ⟨c, v, rfl⟩ : ∃ c v, v' = c :: v := by
        cases v' with
        | nil => exact absurd hblank (by decide)
        | cons c v => exact ⟨c, v, rfl⟩
      have hc : isspace c = true := hblank
      simp only [List.length_cons] at hfuel
      obtain ⟨m₃, hskip, hlook₃⟩ : ∃ m₃, skipWhile isspace fuel ((m.touch (q + 1)).touch (q + 2)) (q + 3) =
          some (m₃, q + 3 + (v.takeWhile isspace).length) ∧ Looked _ m₃ A :=
        skipWhile_text hu.2.2.2.2.2.2 hA.tail.tail.tail (by decide) (by omega)
      refine ⟨m₃, c, v, rfl, hc, hlook₂.trans hlook₃, ?_⟩
      rw [if_pos rfl, hskip, List.takeWhile_cons_of_pos hc, List.length_cons,
        show q + 2 + ((v.takeWhile isspace).length + 1) = q + 3 + (v.takeWhile isspace).length by omega]
      rfl
    | false =>
      right
      obtain ⟨m₃, hend, hlook₃⟩ : ∃ m₃, skipWhile inWord fuel ((m.touch (q + 1)).touch (q + 2)) (q + 2) =
          some (m₃, q + (word isspace (dash :: dash :: v')).length) ∧ Looked _ m₃ A :=
        skipWhile_word hu hA (by
          rw [hword, word_dash]
          exact Nat.succ_le_succ (Nat.succ_le_succ (Nat.zero_le _))) hfuel
      refine ⟨m₃, ?_, hlook₂.trans hlook₃, ?_⟩
      · cases v' with
        | nil => exact Or.inr rfl
        | cons c v' =>
          have hc : isspace c = false := hblank
          rw [hword, word_dash, Words.word_cons hc]
          exact Or.inl (by simp)
      · rw [if_neg Bool.false_ne_true, hend]
        rfl
  · right
    rw [if_neg (fun h => htwo (hsecond.symm.trans h))]
    obtain ⟨m₃, hend, hlook₃⟩ : ∃ m₃, skipWhile inWord fuel (m.touch (q + 1)) (q + 1) =
        some (m₃, q + (word isspace (dash :: v)).length) ∧ Looked _ m₃ A :=
      skipWhile_word hu hA (by
        rw [hword]
        exact Nat.succ_le_succ (Nat.zero_le _)) hfuel
    refine ⟨m₃, Or.inl fun hdashes => htwo ?_, hlook.trans hlook₃, ?_⟩
    · rw [hword] at hdashes
      have hv := (List.cons.inj hdashes).2
      cases v with
      | nil => exact absurd hv (by simp [word])
      | cons c v =>
        cases hc : isspace c with
        | true =>
          rw [Words.word_sep hc] at hv
          exact absurd hv.symm (List.cons_ne_nil _ _)
        | false =>
          rw [Words.word_cons hc] at hv
          exact (List.cons.inj hv).1
    · rw [hend]
      rfl

theorem length_behind_dash (v : List UInt8) : (behind isspace (dash :: v)).length ≤ v.length := by
  rw [Words.behind_cons isspace_dash]
  exact List.length_dropWhile_le ..

theorem skipOptLoop_text (ht : Text m.byte p t) (hA : Lies A p t) (hfuel : t.length + 1 < fuel)
    (last : Option ℕ) : SkipsBlock A m p t last (skipOptLoop fuel m p last) := by
  induction hn : t.length using Nat.strongRecOn generalizing m p t fuel last with
  | ind n ih =>
    obtain ⟨fuel, rfl⟩ : ∃ f, fuel = f + 1 := ⟨fuel - 1, by omega⟩
    obtain ⟨m₁, q, hskip, hlook₁, hq, hu, hAu⟩ := skipWhile_rest ht hA
      (show isspace 0 = false by decide) (show t.length < fuel by omega)
    have hlen : (t.dropWhile isspace).length ≤ t.length := List.length_dropWhile_le ..
    have htouch : Looked m (m₁.touch q) A := hlook₁.trans (.touch m₁ (hAu 0 (Nat.zero_le _)))
    rw [skipOptLoop, hskip, Option.bind_some]
    dsimp only
    rw [hu.head]
    by_cases hdash : (t.dropWhile isspace).headD 0 = dash
    · rw [if_pos hdash]
      obtain ⟨v, hv⟩ : ∃ v, t.dropWhile isspace = dash :: v := by
        cases hcase : t.dropWhile isspace with
        | nil =>
          rw [hcase] at hdash
          exact absurd hdash (by decide)
        | cons c v =>
          rw [hcase] at hdash
          obtain rfl : c = dash := hdash
          exact ⟨v, rfl⟩
      rw [hv] at hu hAu hlen
      rcases skipOption_text (m := m₁.touch q) hu hAu (show (dash :: v).length < fuel by omega) with
        ⟨m₂, c, v', rfl, hc, hlook₂, hround⟩ | ⟨m₂, hlast, hlook₂, hround⟩
      · rw [hround, Option.bind_some, if_pos rfl]
        refine ⟨m₂, _, _, _, _, block_last hv hc, htouch.trans hlook₂, ?_⟩
        rw [if_neg (List.cons_ne_nil _ _), List.length_append, List.length_append, hq]
        simp only [List.length_cons, List.length_nil, Nat.add_assoc, Nat.zero_add, Nat.reduceAdd]
      · rw [hround, Option.bind_some, if_neg Bool.false_ne_true]
        have hw := word_append_behind isspace (dash :: v)
        have hbehind := length_behind_dash v
        rw [List.length_cons] at hlen
        refine SkipsBlock.more (hv.trans hw.symm) (by rw [hw]) (by rw [hw]) (by rw [word_dash]; rfl) hlast
          (htouch.trans hlook₂) (by rw [← hq]) rfl (ih (behind isspace (dash :: v)).length (by omega) ?_ ?_
            (by omega) _ rfl)
        · rw [hlook₂.byte]
          rw [← hw] at hu
          exact hu.right
        · rw [← hw] at hAu
          exact hAu.right
    · rw [if_neg hdash]
      have hno : ∀ c ∈ (t.dropWhile isspace).head?, c ≠ dash := by
        rintro c hc rfl
        rw [List.headD_eq_head?_getD, Option.mem_def.mp hc] at hdash
        exact hdash rfl
      refine ⟨_, _, _, _, _, block_none hno, htouch, ?_⟩
      rw [List.append_nil, List.append_nil, ← hq, if_pos rfl]

end SkipOpt

/-! ## The line -/

section Line
variable {m m₀ m₁ : Memory} {A : Set ℕ} {s t : List UInt8} {p q fuel : ℕ}

structure Inside (A : Set ℕ) (m₀ m : Memory) : Prop where
  reads : ∀ x ∈ m.reads, x ∈ m₀.reads ∨ x ∈ A
  writes : ∀ x ∈ m.writes, x ∈ m₀.writes ∨ x ∈ A

theorem Inside.of_looked (h : Looked m₀ m A) : Inside A m₀ m :=
  ⟨h.reads, fun _ hx => Or.inl (h.writes ▸ hx)⟩

theorem Inside.trans (h : Inside A m₀ m₁) (h' : Inside A m₁ m) : Inside A m₀ m where
  reads x hx := (h'.reads x hx).elim (h.reads x) Or.inr
  writes x hx := (h'.writes x hx).elim (h.writes x) Or.inr

theorem Inside.store (m : Memory) {value : UInt8} (hp : p ∈ A) : Inside A m (m.store p value) where
  reads _ hx := Or.inl hx
  writes x hx := by
    rcases List.mem_cons.mp hx with rfl | hold
    · exact Or.inr hp
    · exact Or.inl hold

theorem toupper_ne_zero {c : UInt8} (hc : c ≠ 0) : toupper c ≠ 0 := by
  rw [toupper]
  split_ifs with hlower
  · intro hzero
    have hnat := congrArg UInt8.toNat hzero
    have hge := UInt8.le_iff_toNat_le.mp hlower.1
    have hle := UInt8.le_iff_toNat_le.mp hlower.2
    rw [UInt8.toNat_sub_of_le _ _ (UInt8.le_iff_toNat_le.mpr (by
      simp at hge hle ⊢
      omega))] at hnat
    simp at hge hle hnat
    omega
  · exact hc

theorem upcase_text (h : Text m.byte p s) (hA : Lies A p s) (hfuel : s.length < fuel) :
    ∃ m', upcase fuel m p = some (m', p + (word isspace s).length) ∧ Inside A m m' ∧
      Text m'.byte p ((word isspace s).map toupper ++ behind isspace s) ∧
      ∀ x < p, m'.byte x = m.byte x := by
  induction s generalizing m p fuel with
  | nil =>
    obtain ⟨fuel, rfl⟩ : ∃ f, fuel = f + 1 := ⟨fuel - 1, by omega⟩
    have hnul : m.byte p = 0 := h
    refine ⟨m.touch p, ?_, .of_looked (.touch m (hA 0 le_rfl)), h, fun _ _ => rfl⟩
    rw [upcase, hnul, if_neg (by decide)]
    rfl
  | cons c s ih =>
    obtain ⟨fuel, rfl⟩ : ∃ f, fuel = f + 1 := ⟨fuel - 1, by omega⟩
    obtain ⟨hbyte, hc, hrest⟩ := h
    have htouch : Inside A m (m.touch p) := .of_looked (.touch m (hA 0 (Nat.zero_le _)))
    rw [upcase, hbyte]
    cases hspace : isspace c with
    | true =>
      refine ⟨m.touch p, ?_, htouch, ?_, fun _ _ => rfl⟩
      · rw [if_neg (by simp [inWord, hspace]), Words.word_sep hspace]
        rfl
      · rw [Words.word_sep hspace, Words.behind_sep hspace]
        exact ⟨hbyte, hc, hrest⟩
    | false =>
      have hstore : ∀ x ≠ p, ((m.touch p).store p (toupper c)).byte x = m.byte x := fun x hx =>
        Memory.store_of_ne hx
      obtain ⟨m', hup, hinside, htext, hbelow⟩ :=
        ih (m := (m.touch p).store p (toupper c))
          (hrest.congr fun x hge _ => hstore x (by omega)) hA.tail (Nat.lt_of_succ_lt_succ hfuel)
      refine ⟨m', ?_, (htouch.trans (.store _ (hA 0 (Nat.zero_le _)))).trans hinside, ?_, fun x hx => ?_⟩
      · rw [if_pos (by simp [inWord, hc, hspace]), hup, Words.word_cons hspace, List.length_cons]
        congr 2
        omega
      · rw [Words.word_cons hspace, Words.behind_cons hspace]
        refine ⟨?_, toupper_ne_zero hc, htext⟩
        rw [hbelow p (Nat.lt_succ_self p)]
        exact Function.update_self ..
      · rw [hbelow x (by omega), hstore x (by omega)]

theorem cut_text (h : Text m.byte q t) (hA : Lies A q t) :
    ∃ m', cut m q = (m', q + t.length - t.tail.length) ∧ Inside A m m' ∧ m'.byte q = 0 ∧
      Text m'.byte (q + t.length - t.tail.length) t.tail ∧ ∀ x ≠ q, m'.byte x = m.byte x := by
  cases t with
  | nil =>
    have hnul : m.byte q = 0 := h
    refine ⟨m.touch q, ?_, .of_looked (.touch m (hA 0 le_rfl)), hnul, h, fun _ _ => rfl⟩
    rw [cut, if_pos hnul]
    rfl
  | cons c t =>
    obtain ⟨hbyte, hc, hrest⟩ := h
    have hstore : ∀ x ≠ q, ((m.touch q).store q 0).byte x = m.byte x := fun x hx => Memory.store_of_ne hx
    have hnext : q + (c :: t).length - (c :: t).tail.length = q + 1 := by
      rw [List.length_cons, List.tail_cons]
      omega
    rw [hnext]
    refine ⟨(m.touch q).store q 0, ?_, ?_, Function.update_self .., ?_, hstore⟩
    · rw [cut, if_neg (by rw [hbyte]; exact hc)]
    · exact (Inside.of_looked (.touch m (hA 0 (Nat.zero_le _)))).trans (.store _ (hA 0 (Nat.zero_le _)))
    · exact hrest.congr fun x hge _ => hstore x (by omega)

theorem ftpsSkipOpt_text (h : Text m.byte p t) (hA : Lies A p t) (hfuel : t.length + 1 < fuel)
    (hhead : ∀ c ∈ t.head?, isspace c = false) :
    ∃ m' opts gap arg, Block t [] opts gap arg ∧
      ftpsSkipOpt fuel m p = some (m', p + (opts ++ gap).length) ∧ Inside A m m' ∧
      Text m'.byte (p + (opts ++ gap).length) arg ∧ Text m'.byte p (if opts = [] then arg else opts) ∧
      ∀ x < p, m'.byte x = m.byte x := by
  obtain ⟨m', lead, opts, gap, arg, hblock, hlook, hloop⟩ := skipOptLoop_text h hA hfuel none
  obtain rfl : lead = [] := by
    cases lead with
    | nil => rfl
    | cons c lead =>
      have hsplit := hblock.split
      rw [hsplit] at hhead
      exact absurd ((hblock.blank_lead c List.mem_cons_self).symm.trans (hhead c rfl)) (by decide)
  rw [List.nil_append] at hloop
  have hsplit : t = (opts ++ gap) ++ arg := hblock.split
  have htext : Text m'.byte p ((opts ++ gap) ++ arg) := by
    rw [hlook.byte, ← hsplit]
    exact h
  rw [ftpsSkipOpt, hloop, Option.map_some]
  by_cases hopts : opts = []
  · have hgap := hblock.no_gap hopts
    subst hopts hgap
    exact ⟨m', [], [], arg, hblock, rfl, .of_looked hlook, htext, htext, fun x _ => by rw [hlook.byte]⟩
  · have hlast : p + opts.length ∈ A := hA _ (by rw [hsplit, List.length_append, List.length_append]; omega)
    have hstore : ∀ x ≠ p + opts.length, (m'.store (p + opts.length) 0).byte x = m'.byte x := fun x hx =>
      Memory.store_of_ne hx
    have hnul : (m'.store (p + opts.length) 0).byte (p + opts.length) = 0 := Function.update_self ..
    have hpos := List.length_pos_iff.mpr hopts
    refine ⟨m'.store (p + opts.length) 0, opts, gap, arg, hblock, ?_, ?_, ?_, ?_, fun x hx => ?_⟩
    · rw [if_neg hopts]
    · exact (Inside.of_looked hlook).trans (.store _ hlast)
    · -- the terminator is in front of the argument, or is its end
      by_cases hgap : gap = []
      · have harg := hblock.apart hopts hgap
        subst hgap harg
        rw [List.append_nil]
        exact hnul
      · have hgappos := List.length_pos_iff.mpr hgap
        refine htext.right.congr fun x hge _ => hstore x ?_
        rw [List.length_append] at hge
        omega
    · rw [if_neg hopts]
      rw [List.append_assoc] at htext
      exact htext.cut hnul fun x _ hlt => hstore x (by omega)
    · rw [hstore x (by omega), hlook.byte]

/-- The command, the options and what follows them. CR and LF are blanks: in a buffer of several
lines what follows may come from a later line. -/
structure Splits (s w opts arg : List UInt8) : Prop where
  split : ∃ lead gap gap', Blank lead ∧ Blank gap ∧ Blank gap' ∧
    s = lead ++ w ++ gap ++ opts ++ gap' ++ arg
  word : w = (words isspace s).headD []
  block : words isspace opts = optionBlock (words isspace s).tail
  head : ∀ c ∈ opts.head?, isspace c = false
  last : ∀ c ∈ opts.getLast?, isspace c = false
  arg_head : ∀ c ∈ arg.head?, isspace c = false

/-- What `_ftps_dispatch_cmd` is to come to on the text `s` at `p`. Only `args` ends with a line, and
not always with the first one. -/
structure Dispatches (byte : ℕ → UInt8) (p : ℕ) (s w opts arg : List UInt8) (d : Dispatched) : Prop where
  cmd : Text d.memory.byte d.cmd (w.map toupper)
  opts : Text d.memory.byte d.opts opts
  args : Text d.memory.byte d.args (arg.takeWhile inLine)
  reads : ∀ x ∈ d.memory.reads, p ≤ x ∧ x ≤ p + s.length
  writes : ∀ x ∈ d.memory.writes, p ≤ x ∧ x ≤ p + s.length

theorem words_line (s : List UInt8) :
    (words isspace s).headD [] = word isspace (s.dropWhile isspace) ∧
      (words isspace s).tail = words isspace (behind isspace (s.dropWhile isspace)) := by
  rw [← words_dropWhile s]
  have hhead : ∀ c ∈ (s.dropWhile isspace).head?, isspace c = false := fun c => head_dropWhile
  cases hu : s.dropWhile isspace with
  | nil => exact ⟨rfl, rfl⟩
  | cons c u =>
    rw [hu] at hhead
    rw [words_cons (hhead c rfl), Words.word_cons (hhead c rfl), Words.behind_cons (hhead c rfl)]
    exact ⟨rfl, rfl⟩

theorem words_tail (t : List UInt8) :
    words isspace (behind isspace t).tail = words isspace (behind isspace t) := by
  have hhead : ∀ c ∈ (behind isspace t).head?, isspace c = true := fun c => head_behind
  cases hu : behind isspace t with
  | nil => rfl
  | cons c u =>
    rw [hu] at hhead
    exact (words_sep (hhead c rfl)).symm

theorem splits_of_block {u v opts gap arg : List UInt8} (hu : u = s.dropWhile isspace)
    (hv : v = (behind isspace u).tail.dropWhile isspace) (h : Block v [] opts gap arg) :
    Splits s (word isspace u) opts arg where
  split := by
    refine ⟨s.takeWhile isspace, (behind isspace u).take 1 ++ (behind isspace u).tail.takeWhile isspace,
      gap, blank_takeWhile s, ?_, h.blank_gap, ?_⟩
    · intro c hc
      rcases List.mem_append.mp hc with hfirst | hmore
      · cases hb : behind isspace u with
        | nil =>
          rw [hb] at hfirst
          exact absurd hfirst List.not_mem_nil
        | cons d b =>
          rw [hb] at hfirst
          obtain rfl := List.mem_singleton.mp hfirst
          exact head_behind (t := u) (by rw [hb]; rfl)
      · exact blank_takeWhile _ c hmore
    · have hv' : v = opts ++ gap ++ arg := h.split
      have hback : (behind isspace u).take 1 ++ (behind isspace u).tail = behind isspace u := by
        cases behind isspace u <;> rfl
      calc s = s.takeWhile isspace ++ u := by rw [hu, List.takeWhile_append_dropWhile]
        _ = s.takeWhile isspace ++ (word isspace u ++ behind isspace u) := by rw [word_append_behind]
        _ = s.takeWhile isspace ++ (word isspace u ++ ((behind isspace u).take 1 ++
              ((behind isspace u).tail.takeWhile isspace ++ v))) := by
            rw [hv, List.takeWhile_append_dropWhile, hback]
        _ = _ := by
            rw [hv']
            simp only [List.append_assoc]
  word := by rw [hu, (words_line s).1]
  block := by rw [h.options.block, hv, words_dropWhile, words_tail, (words_line s).2, hu]
  head := h.options.head
  last := h.options.last
  arg_head := h.arg_head

theorem command_text {u : List UInt8} (h : Text m.byte p u) (hA : Lies A p u) (hfuel : u.length < fuel) :
    ∃ m₁ m₂ q, upcase fuel m p = some (m₁, p + (word isspace u).length) ∧
      cut m₁ (p + (word isspace u).length) = (m₂, q) ∧ Inside A m m₂ ∧
      Text m₂.byte p ((word isspace u).map toupper) ∧ Text m₂.byte q (behind isspace u).tail ∧
      Lies A q (behind isspace u).tail ∧
      (p + (word isspace u).length < q ∨
        p + (word isspace u).length = q ∧ (behind isspace u).tail = []) := by
  obtain ⟨m₁, hup, hinside₁, htext₁, -⟩ := upcase_text h hA hfuel
  have hsplit := word_append_behind isspace u
  have hbehind : Text m₁.byte (p + (word isspace u).length) (behind isspace u) := by
    have hright := htext₁.right
    rwa [List.length_map] at hright
  have hAb : Lies A (p + (word isspace u).length) (behind isspace u) := by
    rw [← hsplit] at hA
    exact hA.right
  obtain ⟨m₂, hcut, hinside₂, hnul, htail, hsame⟩ := cut_text hbehind hAb
  refine ⟨m₁, m₂, _, hup, hcut, hinside₁.trans hinside₂, ?_, htail, ?_, ?_⟩
  · refine htext₁.cut ?_ fun x _ hlt => hsame x ?_ <;> rw [List.length_map] at *
    · exact hnul
    · omega
  · cases hb : behind isspace u with
    | nil =>
      rw [hb] at hAb
      exact hAb
    | cons c b =>
      rw [hb] at hAb
      rw [List.length_cons, List.tail_cons,
        show p + (word isspace u).length + (b.length + 1) - b.length =
          p + (word isspace u).length + 1 by omega]
      exact hAb.tail
  · cases behind isspace u with
    | nil => exact Or.inr ⟨rfl, rfl⟩
    | cons c b =>
      left
      rw [List.length_cons, List.tail_cons]
      omega

theorem argument_text {a : List UInt8} (h : Text m.byte p a) (hA : Lies A p a) (hfuel : a.length < fuel) :
    ∃ m₁ q, skipWhile inLine fuel m p = some (m₁, q) ∧ Inside A m (cut m₁ q).1 ∧
      Text (cut m₁ q).1.byte p (a.takeWhile inLine) ∧ p ≤ q ∧ (cut m₁ q).1.byte q = 0 ∧
      ∀ x ≠ q, (cut m₁ q).1.byte x = m.byte x := by
  obtain ⟨m₁, q, hskip, hlook, hq, hrest, hAq⟩ :=
    skipWhile_rest h hA (show inLine 0 = false by decide) hfuel
  have htext : Text m.byte p (a.takeWhile inLine ++ a.dropWhile inLine) := by
    rwa [List.takeWhile_append_dropWhile]
  obtain ⟨m₂, hcut, hinside, hnul, -, hsame⟩ := cut_text hrest hAq
  have hsame' : ∀ x ≠ q, m₂.byte x = m.byte x := fun x hx => (hsame x hx).trans (by rw [hlook.byte])
  refine ⟨m₁, q, hskip, ?_, ?_, by omega, ?_, ?_⟩ <;> rw [hcut]
  · exact (Inside.of_looked hlook).trans hinside
  · exact htext.cut (hq ▸ hnul) fun x _ hlt => hsame' x (by omega)
  · exact hnul
  · exact hsame'

/-- A line is split into its command in upper case, its options and its argument, each with a
terminator, and nothing outside the line is looked at. -/
theorem ftps_dispatch_cmd_splits (byte : ℕ → UInt8) (p fuel : ℕ) (s : List UInt8) (h : Text byte p s)
    (hfuel : s.length + 1 < fuel) :
    ∃ d w opts arg, ftpsDispatchCmd fuel (fresh byte) p = some d ∧ Splits s w opts arg ∧
      Dispatches byte p s w opts arg d := by
  obtain ⟨A, hline, hA⟩ : ∃ A, (∀ x, x ∈ A ↔ p ≤ x ∧ x ≤ p + s.length) ∧ Lies A p s :=
    ⟨{x | p ≤ x ∧ x ≤ p + s.length}, fun _ => Iff.rfl, fun i hi => ⟨by omega, by omega⟩⟩
  obtain ⟨m₁, c, hlead, hlook₁, -, hu, hAu⟩ := skipWhile_rest (m := fresh byte) h hA
    (show isspace 0 = false by decide) (show s.length < fuel by omega)
  have hlen : (s.dropWhile isspace).length ≤ s.length := List.length_dropWhile_le ..
  generalize hu' : s.dropWhile isspace = u at *
  obtain ⟨m₂, m₃, q, hup, hcut, hinside₃, hcmd, ht, hAt, hq⟩ :=
    command_text hu hAu (show u.length < fuel by omega)
  have hlent : (behind isspace u).tail.length ≤ u.length := by
    have hle : (behind isspace u).length ≤ u.length := List.length_dropWhile_le ..
    rw [List.length_tail]
    omega
  obtain ⟨m₄, o, hgap, hlook₄, ho, hv, hAv⟩ := skipWhile_rest ht hAt (show isspace 0 = false by decide)
    (show (behind isspace u).tail.length < fuel by omega)
  have hlenv : ((behind isspace u).tail.dropWhile isspace).length ≤ (behind isspace u).tail.length :=
    List.length_dropWhile_le ..
  have hhead : ∀ c ∈ ((behind isspace u).tail.dropWhile isspace).head?, isspace c = false := fun c =>
    head_dropWhile
  generalize hv' : (behind isspace u).tail.dropWhile isspace = v at *
  obtain ⟨m₅, opts, gap, arg, hblock, hskip, hinside₅, harg, hopts, hbelow⟩ :=
    ftpsSkipOpt_text hv hAv (show v.length + 1 < fuel by omega) hhead
  have hvlen : (opts ++ gap).length + arg.length = v.length := by
    rw [← List.length_append]
    exact congrArg List.length hblock.split.symm
  have hAarg : Lies A (o + (opts ++ gap).length) arg := by
    have hsplit : v = (opts ++ gap) ++ arg := hblock.split
    rw [hsplit] at hAv
    exact hAv.right
  obtain ⟨m₆, e, hend, hinside₆, hargs, he, hnul, hsame⟩ :=
    argument_text harg hAarg (show arg.length < fuel by omega)
  refine ⟨⟨(cut m₆ e).1, c, if o = o + (opts ++ gap).length then c + (word isspace u).length else o,
    o + (opts ++ gap).length⟩, word isspace u, opts, arg, ?_, splits_of_block hu'.symm hv'.symm hblock, ?_⟩
  · rw [ftpsDispatchCmd, hlead, Option.bind_some]
    dsimp only
    rw [hup, Option.bind_some]
    dsimp only
    rw [hcut]
    dsimp only
    rw [hgap, Option.bind_some]
    dsimp only
    rw [hskip, Option.bind_some]
    dsimp only
    rw [hend]
    rfl
  · have hinside : Inside A (fresh byte) (cut m₆ e).1 :=
      ((((Inside.of_looked hlook₁).trans hinside₃).trans (.of_looked hlook₄)).trans hinside₅).trans hinside₆
    -- the terminator behind the command is still there
    have heoc : (cut m₆ e).1.byte (c + (word isspace u).length) = 0 := by
      by_cases hlast : c + (word isspace u).length = e
      · exact hlast ▸ hnul
      · rw [hsame _ hlast]
        have hterminator := hcmd.terminator
        rw [List.length_map] at hterminator
        rcases hq with hlt | ⟨heq, htail⟩
        · rw [hbelow _ (by omega), hlook₄.byte]
          exact hterminator
        · rw [htail] at ho hv'
          subst hv'
          obtain ⟨hboth, hargnil⟩ := Nat.add_eq_zero_iff.mp hvlen
          rw [List.length_eq_zero_iff.mp hargnil, hboth] at harg
          rw [heq, show q = o + 0 from ho.symm]
          exact harg
    refine ⟨?_, ?_, hargs, fun x hx => ?_, fun x hx => ?_⟩
    · exact hcmd.keep (by rw [List.length_map]; exact heoc) fun x hlt => by
        rw [List.length_map] at hlt
        rw [hsame x (by omega), hbelow x (by omega), hlook₄.byte]
    · dsimp only
      by_cases hnone : opts = []
      · have hgapnil := hblock.no_gap hnone
        subst hnone hgapnil
        rw [if_pos (show o = o + ([] ++ [] : List UInt8).length from rfl)]
        exact heoc
      · have hpos := List.length_pos_iff.mpr hnone
        rw [List.length_append] at he
        rw [if_neg (by rw [List.length_append]; omega)]
        rw [if_neg hnone] at hopts
        refine hopts.keep ?_ fun x hlt => hsame x (by omega)
        by_cases hlast : o + opts.length = e
        · exact hlast ▸ hnul
        · exact (hsame _ hlast).trans hopts.terminator
    · exact (hline x).mp ((hinside.reads x hx).resolve_left List.not_mem_nil)
    · exact (hline x).mp ((hinside.writes x hx).resolve_left List.not_mem_nil)

def listLine : List UInt8 := [108, 115, 32, 45, 108, 32, 97, 13, 10]

theorem ftps_dispatch_cmd_splits_list :
    ∃ d w opts arg, ftpsDispatchCmd 11 (fresh fun x => listLine.getD (x - 64) 0) 64 = some d ∧
      Splits listLine w opts arg ∧
      Dispatches (fun x => listLine.getD (x - 64) 0) 64 listLine w opts arg d :=
  ftps_dispatch_cmd_splits _ 64 11 listLine (.of_list (by decide)) (by decide)

end Line

end DfewOS.Ftp
