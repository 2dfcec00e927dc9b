import DfewOS.Memory
import DfewOS.NulText
import DfewOS.Words

/-!
# Splitting a command line

`cmdDispatchArg` of `cmd.c`. The line is cut into words in place: a NUL is written over each
blank, and the address of each first character is noted. The scan ends with the line or as
soon as the last argument has been noted, which is before the end of that word.
-/

namespace DfewOS.Cmd
open NulText (Text)
open Words

def argNumMax : ℕ := 10

/-- `_G_command`, `_G_argc` and `_G_argv`. -/
structure Args where
  command : ℕ
  argc : ℕ
  argv : ℕ → ℕ

def isspace (c : UInt8) : Bool := c = 32 ∨ (9 ≤ c ∧ c ≤ 13)

/-- `_G_argv[_G_argc] = p` and `_G_argc++`; there is no entry behind the last one. -/
def Args.note (a : Args) (p : ℕ) : Option Args :=
  if a.argc < argNumMax then
    some { a with argc := a.argc + 1, argv := Function.update a.argv a.argc p }
  else none

def dispatchLoop : ℕ → Memory → ℕ → Bool → Args → Option (Memory × Args)
  | 0, _, _, _, _ => none
  | fuel + 1, m, p, afterBlank, a =>
    let c := m.byte p
    let m := m.touch p
    if c = 0 then some (m, a)
    else if isspace c then dispatchLoop fuel (m.store p 0) (p + 1) true a
    else if afterBlank then
      (a.note p).bind fun a =>
        if a.argc = argNumMax then some (m, a) else dispatchLoop fuel m (p + 1) false a
    else dispatchLoop fuel m (p + 1) false a

def cmdDispatchArg (fuel : ℕ) (m : Memory) (cmd_line : ℕ) (a : Args) : Option (Memory × Args) :=
  dispatchLoop fuel m cmd_line true { a with command := cmd_line, argc := 0 }

/-- The line `s` at `p` has been split into its words, and nothing but the line was accessed. -/
structure Split (m m' : Memory) (p : ℕ) (s : List UInt8) (a : Args) : Prop where
  argc : a.argc = min (words isspace s).length argNumMax
  argv : ∀ i w, i < argNumMax → (words isspace s)[i]? = some w → Text m'.byte (a.argv i) w
  command : ∀ w, (words isspace s)[0]? = some w → Text m'.byte a.command w
  kept : ∀ x, x < p ∨ p + s.length < x → m'.byte x = m.byte x
  reads : ∀ x ∈ m'.reads, x ∈ m.reads ∨ (p ≤ x ∧ x ≤ p + s.length)
  writes : ∀ x ∈ m'.writes, x ∈ m.writes ∨ (p ≤ x ∧ x ≤ p + s.length)

def upcoming (afterBlank : Bool) (s : List UInt8) : List (List UInt8) :=
  words isspace (if afterBlank then s else behind isspace s)

/-- What the scan does from `p` on. The words before the last argument are cut off. -/
structure Scanned (m m' : Memory) (p : ℕ) (s : List UInt8) (afterBlank : Bool)
    (a a' : Args) : Prop where
  argc : a'.argc = min (a.argc + (upcoming afterBlank s).length) argNumMax
  argv : ∀ i w, (upcoming afterBlank s)[i]? = some w → a.argc + i + 1 < argNumMax →
    Text m'.byte (a'.argv (a.argc + i)) w
  last : ∀ i w, (upcoming afterBlank s)[i]? = some w → a.argc + i + 1 = argNumMax →
    ∃ u, u <:+ s ∧ word isspace u = w ∧ words isspace u = (upcoming afterBlank s).drop i ∧
      Text m'.byte (a'.argv (a.argc + i)) u
  current : afterBlank = false → Text m'.byte p (word isspace s)
  here : afterBlank = true → word isspace s ≠ [] → a'.argv a.argc = p
  old : ∀ i < a.argc, a'.argv i = a.argv i
  command : a'.command = a.command
  kept : ∀ x, x < p ∨ p + s.length ≤ x → m'.byte x = m.byte x
  reads : ∀ x ∈ m'.reads, x ∈ m.reads ∨ (p ≤ x ∧ x ≤ p + s.length)
  writes : ∀ x ∈ m'.writes, x ∈ m.writes ∨ (p ≤ x ∧ x < p + s.length)

section Loop
variable {m m' : Memory} {p fuel more : ℕ} {c : UInt8} {s : List UInt8} {b : Bool} {a a' : Args}

theorem note_eq (h : a.argc < argNumMax) (p : ℕ) :
    a.note p = some { a with argc := a.argc + 1, argv := Function.update a.argv a.argc p } :=
  if_pos h

theorem upcoming_sep (h : isspace c = true) (b : Bool) :
    upcoming b (c :: s) = upcoming true s := by
  cases b with
  | true => exact words_sep h
  | false =>
    rw [upcoming, if_neg (by decide), behind_sep h]
    exact words_sep h

theorem upcoming_word (h : isspace c = false) :
    upcoming true (c :: s) = (c :: word isspace s) :: upcoming false s := words_cons h

theorem upcoming_within (h : isspace c = false) : upcoming false (c :: s) = upcoming false s := by
  rw [upcoming, if_neg (by decide), behind_cons h]
  rfl

theorem scanned_nil (hnul : m.byte p = 0) (ha : a.argc < argNumMax) :
    Scanned m (m.touch p) p [] b a a := by
  have hnone : upcoming b [] = [] := by cases b <;> rfl
  refine ⟨?_, ?_, ?_, fun _ => hnul, fun _ hw => absurd rfl hw, fun _ _ => rfl, rfl, fun _ _ => rfl,
    fun x hx => ?_,
    fun x hx => Or.inl hx⟩
  · rw [hnone]
    exact (Nat.min_eq_left ha.le).symm
  · rw [hnone]
    exact fun i w hw => absurd hw (by simp)
  · rw [hnone]
    exact fun i w hw => absurd hw (by simp)
  · rcases List.mem_cons.mp hx with rfl | hold
    · exact Or.inr (by simp)
    · exact Or.inl hold

theorem reads_next {x : ℕ} {log : List ℕ}
    (h : x ∈ p :: log ∨ (p + 1 ≤ x ∧ x ≤ p + 1 + s.length)) :
    x ∈ log ∨ (p ≤ x ∧ x ≤ p + (c :: s).length) := by
  rw [List.length_cons]
  rcases h with hold | hnew
  · rcases List.mem_cons.mp hold with rfl | hold
    · exact Or.inr (by omega)
    · exact Or.inl hold
  · exact Or.inr (by omega)

theorem writes_next {x : ℕ} {log : List ℕ}
    (h : x ∈ log ∨ (p + 1 ≤ x ∧ x < p + 1 + s.length)) :
    x ∈ log ∨ (p ≤ x ∧ x < p + (c :: s).length) := by
  rw [List.length_cons]
  rcases h with hold | hnew
  · exact Or.inl hold
  · exact Or.inr (by omega)

theorem scanned_sep (h : isspace c = true)
    (hrest : Scanned ((m.touch p).store p 0) m' (p + 1) s true a a') :
    Scanned m m' p (c :: s) b a a' := by
  have hkept := hrest.kept
  refine ⟨?_, ?_, ?_, fun _ => ?_, fun _ hw => absurd (word_sep h) hw, hrest.old, hrest.command,
    fun x hx => ?_, fun x hx => ?_, fun x hx => ?_⟩
  · rw [upcoming_sep h]
    exact hrest.argc
  · rw [upcoming_sep h]
    exact hrest.argv
  · rw [upcoming_sep h]
    intro i w hw hi
    obtain ⟨u, hsuffix, hu⟩ := hrest.last i w hw hi
    exact ⟨u, hsuffix.trans (List.suffix_cons c s), hu⟩
  · rw [word_sep h]
    exact (hkept p (Or.inl (Nat.lt_succ_self p))).trans (Function.update_self ..)
  · rw [List.length_cons] at hx
    rw [hkept x (by omega), Memory.store_of_ne (by omega)]
    rfl
  · exact reads_next (hrest.reads x hx)
  · rcases hrest.writes x hx with hold | hnew
    · rcases List.mem_cons.mp hold with rfl | hold
      · exact Or.inr ⟨le_rfl, Nat.lt_add_of_pos_right (Nat.succ_pos s.length)⟩
      · exact Or.inl hold
    · exact writes_next (Or.inr hnew)

theorem scanned_within (hbyte : m.byte p = c) (hc : c ≠ 0) (h : isspace c = false)
    (hrest : Scanned (m.touch p) m' (p + 1) s false a a') : Scanned m m' p (c :: s) false a a' := by
  have hkept := hrest.kept
  refine ⟨?_, ?_, ?_, fun _ => ?_, fun hb => absurd hb (by decide), hrest.old, hrest.command,
    fun x hx => ?_, fun x hx => ?_, fun x hx => ?_⟩
  · rw [upcoming_within h]
    exact hrest.argc
  · rw [upcoming_within h]
    exact hrest.argv
  · rw [upcoming_within h]
    intro i w hw hi
    obtain ⟨u, hsuffix, hu⟩ := hrest.last i w hw hi
    exact ⟨u, hsuffix.trans (List.suffix_cons c s), hu⟩
  · rw [word_cons h]
    exact ⟨(hkept p (Or.inl (Nat.lt_succ_self p))).trans hbyte, hc, hrest.current rfl⟩
  · rw [List.length_cons] at hx
    exact hkept x (by omega)
  · exact reads_next (hrest.reads x hx)
  · exact writes_next (hrest.writes x hx)

theorem scanned_noted (hbyte : m.byte p = c) (hc : c ≠ 0) (h : isspace c = false)
    (ha : a.argc + 1 < argNumMax)
    (hrest : Scanned (m.touch p) m' (p + 1) s false
      { a with argc := a.argc + 1, argv := Function.update a.argv a.argc p } a') :
    Scanned m m' p (c :: s) true a a' := by
  have hkept := hrest.kept
  have hold := hrest.old
  have hargv := hrest.argv
  have hlast := hrest.last
  simp only at hold hargv hlast
  have hhere : a'.argv a.argc = p := (hold a.argc (Nat.lt_succ_self _)).trans (Function.update_self ..)
  refine ⟨?_, ?_, ?_, fun hb => absurd hb (by decide), fun _ _ => hhere, fun i hi => ?_,
    hrest.command, fun x hx => ?_, fun x hx => ?_, fun x hx => ?_⟩
  · rw [upcoming_word h, List.length_cons, hrest.argc]
    exact congrArg (min · _) (by simp only; omega)
  · rw [upcoming_word h]
    intro i w hw hi
    cases i with
    | zero =>
      obtain rfl : c :: word isspace s = w := Option.some.inj hw
      rw [Nat.add_zero, hhere]
      exact ⟨(hkept p (Or.inl (Nat.lt_succ_self p))).trans hbyte, hc, hrest.current rfl⟩
    | succ i =>
      rw [show a.argc + (i + 1) = a.argc + 1 + i by omega]
      exact hargv i w hw (by omega)
  · rw [upcoming_word h]
    intro i w hw hi
    cases i with
    | zero => exact absurd hi (by omega)
    | succ i =>
      rw [show a.argc + (i + 1) = a.argc + 1 + i by omega]
      obtain ⟨u, hsuffix, hu⟩ := hlast i w hw (by omega)
      exact ⟨u, hsuffix.trans (List.suffix_cons c s), hu⟩
  · rw [hold i (by omega), Function.update_of_ne (by omega)]
  · rw [List.length_cons] at hx
    exact hkept x (by omega)
  · exact reads_next (hrest.reads x hx)
  · exact writes_next (hrest.writes x hx)

/-- The first character of the last argument: the line stays as it is from there on. -/
theorem scanned_last (h : isspace c = false) (ha : a.argc + 1 = argNumMax)
    (hs : Text m.byte p (c :: s)) :
    Scanned m (m.touch p) p (c :: s) true a
      { a with argc := a.argc + 1, argv := Function.update a.argv a.argc p } := by
  refine ⟨?_, ?_, ?_, fun hb => absurd hb (by decide), fun _ _ => Function.update_self ..,
    fun i hi => ?_, rfl, fun _ _ => rfl, fun x hx => ?_, fun x hx => Or.inl hx⟩
  · rw [upcoming_word h, List.length_cons]
    simp only
    omega
  · exact fun i w hw hi => absurd hi (by omega)
  · rw [upcoming_word h]
    intro i w hw hi
    obtain rfl : i = 0 := by omega
    obtain rfl : c :: word isspace s = w := Option.some.inj hw
    refine ⟨c :: s, List.suffix_rfl, word_cons h, words_cons h, ?_⟩
    simp only [Nat.add_zero, Function.update_self]
    exact hs
  · exact Function.update_of_ne (by omega) _ _
  · rw [List.length_cons]
    rcases List.mem_cons.mp hx with rfl | hold
    · exact Or.inr (by omega)
    · exact Or.inl hold

theorem dispatchLoop_scans (hs : Text m.byte p s) (ha : a.argc < argNumMax) (hfuel : s.length < fuel) :
    ∃ m' a', dispatchLoop fuel m p b a = some (m', a') ∧ Scanned m m' p s b a a' := by
  induction s generalizing m p b a fuel with
  | nil =>
    obtain ⟨fuel, rfl⟩ : ∃ f, fuel = f + 1 := ⟨fuel - 1, by omega⟩
    have hnul : m.byte p = 0 := hs
    refine ⟨m.touch p, a, ?_, scanned_nil hnul ha⟩
    simp only [dispatchLoop, hnul, if_true]
  | cons c s ih =>
    obtain ⟨fuel, rfl⟩ : ∃ f, fuel = f + 1 := ⟨fuel - 1, by omega⟩
    have hline := hs
    obtain ⟨hbyte, hc, hrest⟩ := hs
    have hmore : s.length < fuel := Nat.lt_of_succ_lt_succ hfuel
    simp only [dispatchLoop, hbyte, if_neg hc]
    cases hspace : isspace c with
    | true =>
      have hnext : Text ((m.touch p).store p 0).byte (p + 1) s :=
        hrest.congr fun x hge hle => Memory.store_of_ne (by omega)
      obtain ⟨m', a', hloop, hscan⟩ := ih (b := true) hnext ha hmore
      exact ⟨m', a', hloop, scanned_sep hspace hscan⟩
    | false =>
      cases b with
      | false =>
        obtain ⟨m', a', hloop, hscan⟩ := ih (m := m.touch p) (b := false) hrest ha hmore
        exact ⟨m', a', hloop, scanned_within hbyte hc hspace hscan⟩
      | true =>
        simp only [Bool.false_eq_true, if_false, if_true, note_eq ha, Option.bind_some]
        by_cases hlast : a.argc + 1 = argNumMax
        · rw [if_pos hlast]
          exact ⟨_, _, rfl, scanned_last hspace hlast hline⟩
        · rw [if_neg hlast]
          obtain ⟨m', a', hloop, hscan⟩ := ih (m := m.touch p) (b := false)
            (a := { a with argc := a.argc + 1, argv := Function.update a.argv a.argc p }) hrest
            (Nat.lt_of_le_of_ne ha hlast) hmore
          exact ⟨m', a', hloop, scanned_noted hbyte hc hspace (Nat.lt_of_le_of_ne ha hlast) hscan⟩

theorem dispatchLoop_mono {r : Memory × Args} (h : dispatchLoop fuel m p b a = some r)
    (hle : fuel ≤ more) : dispatchLoop more m p b a = some r := by
  induction fuel generalizing m p b a more with
  | zero => exact absurd h (by simp [dispatchLoop])
  | succ fuel ih =>
    obtain ⟨more, rfl⟩ : ∃ k, more = k + 1 := ⟨more - 1, by omega⟩
    simp only [dispatchLoop] at h ⊢
    split_ifs at h ⊢
    · exact h
    · exact ih h (by omega)
    · obtain ⟨a₁, hnote, hnext⟩ := Option.bind_eq_some_iff.mp h
      rw [hnote, Option.bind_some]
      split_ifs at hnext ⊢
      · exact hnext
      · exact ih hnext (by omega)
    · exact ih h (by omega)

theorem dispatchLoop_unique {r r' : Memory × Args} (h : dispatchLoop fuel m p b a = some r)
    (h' : dispatchLoop more m p b a = some r') : r = r' :=
  Option.some.inj ((dispatchLoop_mono h (Nat.le_max_left fuel more)).symm.trans
    (dispatchLoop_mono h' (Nat.le_max_right fuel more)))

end Loop

section Line
variable {m m' : Memory} {p : ℕ} {c : UInt8} {s : List UInt8} {a a' : Args}

theorem dispatch_scans (hs : Text m.byte p s) (a : Args) :
    ∃ fuel m' a', cmdDispatchArg fuel m p a = some (m', a') ∧
      Scanned m m' p s true { a with command := p, argc := 0 } a' := by
  obtain ⟨m', a', hloop, hscan⟩ := dispatchLoop_scans (b := true)
    (a := { a with command := p, argc := 0 }) hs (Nat.succ_pos 9) (Nat.lt_succ_self s.length)
  exact ⟨s.length + 1, m', a', hloop, hscan⟩

theorem split_of_last (hc : isspace c = false)
    (hscan : Scanned m m' p (c :: s) true { a with command := p, argc := 0 } a')
    (hlast : ∀ w, (words isspace (c :: s))[9]? = some w → Text m'.byte (a'.argv 9) w) :
    Split m m' p (c :: s) a' := by
  have hargc := hscan.argc
  have hargv := hscan.argv
  have hhere := hscan.here rfl (by simp [word_cons hc])
  simp only [upcoming, if_true, Nat.zero_add] at hargc hargv hhere
  refine ⟨hargc, fun i w hi hw => ?_, fun w hw => ?_, fun x hx => hscan.kept x (by omega), hscan.reads,
    fun x hx => ?_⟩
  · rw [argNumMax] at hi
    rcases Nat.lt_or_ge i 9 with hlt | hge
    · exact hargv i w hw (Nat.succ_lt_succ hlt)
    · obtain rfl : i = 9 := by omega
      exact hlast w hw
  · rw [hscan.command, ← hhere]
    exact hargv 0 w hw (by decide)
  · rcases hscan.writes x hx with hold | hnew
    · exact Or.inl hold
    · exact Or.inr ⟨hnew.1, hnew.2.le⟩

theorem split_iff (hc : isspace c = false)
    (hscan : Scanned m m' p (c :: s) true { a with command := p, argc := 0 } a') :
    Split m m' p (c :: s) a' ↔ (words isspace (c :: s)).length < argNumMax ∨
      ((words isspace (c :: s)).length = argNumMax ∧ ∀ e ∈ (c :: s).getLast?, isspace e = false) := by
  rcases Nat.lt_or_ge 9 (words isspace (c :: s)).length with hmany | hfew
  · have hw := List.getElem?_eq_getElem hmany
    have hlast := hscan.last 9
    simp only [upcoming, if_true, Nat.zero_add] at hlast
    obtain ⟨u, hsuffix, hword, hwords, htext⟩ := hlast _ hw rfl
    have hne := ne_nil_of_mem_words (List.getElem_mem hmany)
    have hu : u ≠ [] := fun hnil => hne (hword.symm.trans (by rw [hnil]; rfl))
    have hcut : Split m m' p (c :: s) a' ↔ behind isspace u = [] := by
      have happ := word_append_behind isspace u
      constructor
      · intro hsplit
        have heq := htext.unique (hsplit.argv 9 _ (by decide) hw)
        exact List.append_right_eq_self.mp ((happ.trans heq).trans hword.symm)
      · intro hnil
        refine split_of_last hc hscan fun w hw' => ?_
        obtain rfl := Option.some.inj (hw.symm.trans hw')
        rw [hnil, List.append_nil, hword] at happ
        rwa [happ]
    have hlength : words isspace (behind isspace u) = [] ↔
        (words isspace (c :: s)).length = argNumMax := by
      have hlen := congrArg List.length hwords
      rw [words_of_word (hword ▸ hne), List.length_cons, List.length_drop] at hlen
      rw [← List.length_eq_zero_iff, argNumMax]
      omega
    obtain ⟨before, hbefore⟩ := hsuffix
    have hend : (c :: s).getLast? = u.getLast? := by
      rw [← hbefore, List.getLast?_append_of_ne_nil _ hu]
    have hnot : ¬ (words isspace (c :: s)).length < argNumMax := Nat.not_lt.mpr hmany
    rw [hcut, behind_eq_nil, hlength, hend, or_iff_right hnot]
  · refine iff_of_true (split_of_last hc hscan fun w hw => ?_) (Or.inl (Nat.lt_succ_of_le hfew))
    exact absurd (List.getElem?_eq_some_iff.mp hw).1 (Nat.not_lt.mpr hfew)

theorem dispatch_unique {fuel more : ℕ} {r r' : Memory × Args}
    (h : cmdDispatchArg fuel m p a = some r) (h' : cmdDispatchArg more m p a = some r') :
    r = r' :=
  dispatchLoop_unique h h'

end Line

/-- A line is split into its words exactly if nothing stands behind the tenth one. -/
theorem dispatch_splits {m : Memory} {p : ℕ} {c : UInt8} {s : List UInt8} (a : Args)
    (hs : Text m.byte p (c :: s)) (hc : isspace c = false) :
    (∃ fuel m' a', cmdDispatchArg fuel m p a = some (m', a') ∧ Split m m' p (c :: s) a') ↔
      (words isspace (c :: s)).length < argNumMax ∨
      ((words isspace (c :: s)).length = argNumMax ∧ ∀ e ∈ (c :: s).getLast?, isspace e = false) := by
  obtain ⟨fuel, m', a', hrun, hscan⟩ := dispatch_scans hs a
  rw [← split_iff hc hscan]
  constructor
  · rintro ⟨more, m₁, a₁, hrun₁, hsplit⟩
    obtain ⟨rfl, rfl⟩ := Prod.mk.inj (dispatch_unique hrun hrun₁)
    exact hsplit
  · exact fun hsplit => ⟨fuel, m', a', hrun, hsplit⟩

/-! ## A line of eleven words -/

def elevenWords : List UInt8 :=
  [97, 32, 98, 32, 99, 32, 100, 32, 101, 32, 102, 32, 103, 32, 104, 32, 105, 32, 106, 32, 107]

def threeWords : List UInt8 := [99, 112, 32, 32, 47, 97, 32, 98, 32]

def lineMemory (s : List UInt8) : Memory := .fresh fun x => s.getD (x - 1) 0

def noArgs : Args := ⟨0, 0, fun _ => 0⟩

theorem dispatch_splits_three : words isspace threeWords = [[99, 112], [47, 97], [98]] ∧
    ∃ fuel m' a', cmdDispatchArg fuel (lineMemory threeWords) 1 noArgs = some (m', a') ∧
      Split (lineMemory threeWords) m' 1 threeWords a' := by
  have hwords : words isspace threeWords = [[99, 112], [47, 97], [98]] := by decide
  have hfew : (words isspace threeWords).length < argNumMax := by
    rw [hwords]
    decide
  exact ⟨hwords, (dispatch_splits noArgs (Text.of_list (by decide)) (by decide)).mpr (Or.inl hfew)⟩

/-- The tenth argument runs on to the end of the line. -/
theorem dispatch_eleven : Text (lineMemory elevenWords).byte 1 elevenWords ∧ isspace 97 = false ∧
    ¬ ∃ fuel m' a', cmdDispatchArg fuel (lineMemory elevenWords) 1 noArgs = some (m', a') ∧
      Split (lineMemory elevenWords) m' 1 elevenWords a' := by
  have hs : Text (lineMemory elevenWords).byte 1 elevenWords := Text.of_list (by decide)
  refine ⟨hs, by decide, ?_⟩
  obtain ⟨fuel, m', a', hrun, hscan⟩ := dispatch_scans hs noArgs
  rintro ⟨more, m₁, a₁, hrun₁, hsplit⟩
  obtain ⟨rfl, rfl⟩ := Prod.mk.inj (dispatch_unique hrun hrun₁)
  exact absurd ((split_iff (by decide) hscan).mp hsplit) (by decide)

end DfewOS.Cmd
