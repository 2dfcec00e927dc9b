import DfewOS.ShellLine

/-!
# The line that is read and the history

The array shows the line of the editor at all times (`Shows`), key by key, and the history holds
the latest lines.
-/

namespace DfewOS.Shell
open Cmd (Str strcmp strcpy strlen)
open Latest (latest)
open NulText (Text)

section Bytes
variable {byte : ℕ → UInt8} {p k size : ℕ} {c : UInt8} {l : List UInt8} {m : Memory}

def Lies (byte : ℕ → UInt8) (p : ℕ) (l : List UInt8) : Prop :=
  ∀ k, (h : k < l.length) → byte (p + k) = l[k]

theorem Lies.text (h : Lies byte p l) (hnul : 0 ∉ l) (hend : byte (p + l.length) = 0) :
    Text byte p l := by
  induction l generalizing p with
  | nil => exact hend
  | cons c l ih =>
    obtain ⟨hc, hl⟩ := List.ne_and_not_mem_of_not_mem_cons hnul
    refine ⟨h 0 (Nat.zero_lt_succ _), hc.symm, ih (fun k hk => ?_) hl ?_⟩
    · have hnext := h (k + 1) (Nat.succ_lt_succ hk)
      rwa [show p + 1 + k = p + (k + 1) by omega]
    · rwa [show p + 1 + l.length = p + (l.length + 1) by omega]

theorem lies_of_text (h : Text byte p l) : Lies byte p l := by
  induction l generalizing p with
  | nil => exact fun k hk => absurd hk (Nat.not_lt_zero k)
  | cons c l ih =>
    obtain ⟨hbyte, -, hrest⟩ := h
    intro k hk
    cases k with
    | zero => exact hbyte
    | succ k =>
      have hnext := ih hrest k (Nat.lt_of_succ_lt_succ hk)
      rwa [show p + 1 + k = p + (k + 1) by omega] at hnext

theorem Lies.concat (h : Lies m.byte p l) (c : UInt8) :
    Lies (m.store (p + l.length) c).byte p (l ++ [c]) := by
  intro k hk
  rw [List.length_append, List.length_singleton] at hk
  rcases Nat.lt_or_ge k l.length with hlt | hge
  · rw [Memory.store_of_ne (by omega), List.getElem_append_left hlt]
    exact h k hlt
  · obtain rfl : k = l.length := by omega
    rw [List.getElem_concat_length rfl]
    exact Function.update_self ..

theorem Lies.take (h : Lies byte p l) (n : ℕ) : Lies byte p (l.take n) := by
  intro k hk
  rw [List.length_take] at hk
  rw [List.getElem_take]
  exact h k (by omega)

theorem Lies.close (h : Lies m.byte p l) (hnul : 0 ∉ l) : Text (m.store (p + l.length) 0).byte p l := by
  refine Lies.text (fun k hk => ?_) hnul (Function.update_self ..)
  rw [Memory.store_of_ne (by omega)]
  exact h k hk

theorem stringAt_text (h : Text byte p l) (hlt : l.length < size) :
    stringAt byte size p = some ⟨l, h.not_nul⟩ := by
  induction l generalizing p size with
  | nil =>
    obtain ⟨size, rfl⟩ : ∃ k, size = k + 1 := ⟨size - 1, by omega⟩
    have hnul : byte p = 0 := h
    rw [stringAt, dif_pos hnul]
  | cons c l ih =>
    obtain ⟨size, rfl⟩ : ∃ k, size = k + 1 := ⟨size - 1, by omega⟩
    have hne : byte p ≠ 0 := by
      rw [h.1]
      exact h.2.1
    rw [stringAt, dif_neg hne, ih h.2.2 (Nat.lt_of_succ_lt_succ hlt), Option.map_some]
    exact congrArg some (Subtype.ext (congrArg (· :: l) h.1))

theorem copyTo_kept (m : Memory) (p : ℕ) (l : List UInt8) {x : ℕ} (hx : x < p) :
    (copyTo m p l).byte x = m.byte x := by
  induction l generalizing m p with
  | nil => exact Memory.store_of_ne (by omega)
  | cons c l ih =>
    rw [copyTo, ih _ _ (by omega)]
    exact Memory.store_of_ne (by omega)

theorem copyTo_text (m : Memory) (p : ℕ) (hnul : 0 ∉ l) : Text (copyTo m p l).byte p l := by
  induction l generalizing m p with
  | nil => exact Function.update_self ..
  | cons c l ih =>
    obtain ⟨hc, hl⟩ := List.ne_and_not_mem_of_not_mem_cons hnul
    refine ⟨?_, hc.symm, ih _ _ hl⟩
    rw [copyTo, copyTo_kept _ _ _ (Nat.lt_succ_self p)]
    exact Function.update_self ..

theorem copyTo_writes (m : Memory) (p : ℕ) (l : List UInt8) :
    ∀ x ∈ (copyTo m p l).writes, x ∈ m.writes ∨ (p ≤ x ∧ x ≤ p + l.length) := by
  induction l generalizing m p with
  | nil =>
    intro x hx
    rcases List.mem_cons.mp hx with rfl | hold
    · exact Or.inr ⟨le_rfl, le_rfl⟩
    · exact Or.inl hold
  | cons c l ih =>
    intro x hx
    rw [List.length_cons]
    rcases ih _ _ x hx with hold | hnew
    · rcases List.mem_cons.mp hold with rfl | hold
      · exact Or.inr (by omega)
      · exact Or.inl hold
    · exact Or.inr (by omega)

end Bytes

/-- The array and the variables show the line of the editor; `m₀` is the memory before the call. -/
structure Shows (m₀ : Memory) (s : ℕ) (e : Edit) (ed : Editor) : Prop where
  i : e.i = ed.line.length
  index : e.p_history_index = ed.selected
  lies : Lies e.m.byte s ed.line
  noNul : 0 ∉ ed.line
  le : ed.line.length ≤ cmdLenMax
  writes : ∀ x ∈ e.m.writes, x ∈ m₀.writes ∨ (s ≤ x ∧ x < s + cmdLenMax)

structure Ends (m₀ : Memory) (s : ℕ) (e : Edit) (line : List UInt8) : Prop where
  i : e.i = line.length
  text : Text e.m.byte s line
  lt : line.length < cmdLenMax
  writes : ∀ x ∈ e.m.writes, x ∈ m₀.writes ∨ (s ≤ x ∧ x < s + cmdLenMax)

structure Lines (list : List Str) (history : List (List UInt8)) : Prop where
  eq : list.map (·.1) = history
  fits : ∀ node ∈ list, strlen node < cmdLenMax

section Keys
variable {m₀ : Memory} {s : ℕ} {e : Edit} {ed : Editor} {list : List Str} {history : List (List UInt8)}
  {input : List UInt8} {k : Key} {keys : List Key}

theorem stores {m : Memory} {x : ℕ} (h : ∀ y ∈ m.writes, y ∈ m₀.writes ∨ (s ≤ y ∧ y < s + cmdLenMax))
    (hx : s ≤ x ∧ x < s + cmdLenMax) (c : UInt8) :
    ∀ y ∈ (m.store x c).writes, y ∈ m₀.writes ∨ (s ≤ y ∧ y < s + cmdLenMax) := by
  intro y hy
  rcases List.mem_cons.mp hy with rfl | hold
  · exact Or.inr hx
  · exact h y hold

theorem Lines.length (h : Lines list history) : list.length = history.length := by
  rw [← h.eq, List.length_map]

theorem Shows.load (h : Shows m₀ s e ed) (hlines : Lines list history) (index : Option ℕ) :
    Shows m₀ s (e.load list s index) (ed.select history index) := by
  have hentry : index.bind (history[·]?) = (index.bind (list[·]?)).map (·.1) := by
    cases index with
    | none => rfl
    | some k => rw [Option.bind_some, Option.bind_some, ← hlines.eq, List.getElem?_map]
  rw [Edit.load, Editor.select, hentry]
  cases hnode : index.bind (list[·]?) with
  | none => exact ⟨h.i, rfl, h.lies, h.noNul, h.le, h.writes⟩
  | some node =>
    obtain ⟨k, -, hk⟩ := Option.bind_eq_some_iff.mp hnode
    have hfits : node.1.length < cmdLenMax := hlines.fits node (List.mem_of_getElem? hk)
    refine ⟨rfl, rfl, lies_of_text (copyTo_text _ _ node.2), node.2, hfits.le, fun x hx => ?_⟩
    rcases copyTo_writes _ _ _ x hx with hold | hnew
    · exact h.writes x hold
    · exact Or.inr ⟨hnew.1, by omega⟩

theorem Shows.put {c : UInt8} (h : Shows m₀ s e ed) (hlt : ed.line.length < cmdLenMax) (hc : c ≠ 0) :
    Shows m₀ s { e with m := e.m.store (s + e.i) c, i := e.i + 1 } { ed with line := ed.line ++ [c] } := by
  refine ⟨?_, h.index, ?_, ?_, ?_, stores h.writes ⟨by omega, ?_⟩ c⟩
  · simp only [h.i, List.length_append, List.length_singleton]
  · simp only [h.i]
    exact h.lies.concat c
  · simpa using ⟨h.noNul, hc.symm⟩
  · rw [List.length_append, List.length_singleton]
    exact hlt
  · rw [h.i]
    omega

theorem Shows.erase (h : Shows m₀ s e ed) :
    Shows m₀ s (if e.i ≥ 1 then { e with i := e.i - 1 } else e)
      { ed with line := ed.line.dropLast } := by
  have hdrop : ed.line.dropLast = ed.line.take (ed.line.length - 1) := List.dropLast_eq_take
  refine ⟨?_, ?_, ?_, ?_, ?_, ?_⟩
  · rw [List.length_dropLast, ← h.i]
    split_ifs
    · rfl
    · omega
  · split_ifs
    · exact h.index
    · exact h.index
  · rw [hdrop]
    split_ifs
    · exact h.lies.take _
    · exact h.lies.take _
  · exact fun hmem => h.noNul (List.mem_of_mem_take (hdrop ▸ hmem))
  · rw [List.length_dropLast]
    exact (Nat.sub_le _ _).trans h.le
  · split_ifs
    · exact h.writes
    · exact h.writes

/-- A key other than Enter does to the array what it does to the line of the editor. -/
theorem Shows.key (h : Shows m₀ s e ed) (hlines : Lines list history)
    (hlt : ed.line.length < cmdLenMax) (hk : k ≠ .enter) (input : List UInt8) :
    ∃ e', e.key list s (k.bytes ++ input) = some (false, e', input) ∧
      Shows m₀ s e' (ed.key history k) := by
  cases k with
  | char c hc =>
    simp only [List.mem_cons, List.not_mem_nil, or_false, not_or] at hc
    obtain ⟨hnul, hbackspace, htab, henter, hesc⟩ := hc
    refine ⟨_, ?_, h.put hlt hnul⟩
    rw [Key.bytes, List.singleton_append, Edit.key, if_neg henter, if_neg hbackspace, if_neg htab,
      if_neg hesc]
  | backspace => exact ⟨_, rfl, h.erase⟩
  | up =>
    refine ⟨_, rfl, ?_⟩
    rw [Edit.arrow, if_pos rfl, Editor.key, ← h.index, ← hlines.length]
    exact h.load hlines _
  | down =>
    refine ⟨_, rfl, ?_⟩
    rw [Edit.arrow, if_neg (by decide), if_pos rfl, Editor.key, ← h.index, ← hlines.length]
    exact h.load hlines _
  | enter => exact absurd rfl hk

theorem Shows.enter (list : List Str) (h : Shows m₀ s e ed)
    (hlt : ed.line.length < cmdLenMax) (input : List UInt8) :
    ∃ e', e.key list s (Key.enter.bytes ++ input) = some (true, e', input) ∧ Ends m₀ s e' ed.line := by
  refine ⟨_, rfl, h.i, ?_, hlt, stores h.writes ⟨by omega, ?_⟩ 0⟩
  · simp only [h.i]
    exact h.lies.close h.noNul
  · rw [h.i]
    omega

theorem read_cons (hk : k ≠ .enter) : ed.read history (k :: keys) =
    if (ed.key history k).line.length < cmdLenMax then (ed.key history k).read history keys
    else some ((ed.key history k).line.take (cmdLenMax - 1), keys) := by
  cases k with
  | enter => exact absurd rfl hk
  | char | backspace | up | down => rfl

def Yields (m₀ : Memory) (s : ℕ) (result : Option (Edit × List UInt8)) :
    Option (List UInt8 × List Key) → Prop
  | none => result = none
  | some (line, keys) => ∃ e', result = some (e', keys.flatMap Key.bytes) ∧ Ends m₀ s e' line

theorem Shows.full (h : Shows m₀ s e ed) (hfull : ed.line.length = cmdLenMax) :
    Ends m₀ s { e with m := e.m.store (s + (cmdLenMax - 1)) 0, i := e.i - 1 }
      (ed.line.take (cmdLenMax - 1)) := by
  have hlength : (ed.line.take (cmdLenMax - 1)).length = cmdLenMax - 1 := by
    rw [List.length_take, hfull]
    exact Nat.min_eq_left (Nat.sub_le ..)
  have hclose := (h.lies.take (cmdLenMax - 1)).close fun hmem => h.noNul (List.mem_of_mem_take hmem)
  refine ⟨?_, ?_, ?_, stores h.writes ?_ 0⟩
  · simp only [h.i, hfull, hlength]
  · rw [hlength] at hclose
    exact hclose
  · rw [hlength]
    decide
  · rw [cmdLenMax]
    omega

theorem loop_yields {fuel : ℕ} (hlines : Lines list history) (h : Shows m₀ s e ed)
    (hlt : ed.line.length < cmdLenMax) (hfuel : (keys.flatMap Key.bytes).length < fuel) :
    Yields m₀ s (Edit.loop list s fuel e (keys.flatMap Key.bytes)) (ed.read history keys) := by
  have hi : e.i < cmdLenMax := by
    rw [h.i]
    exact hlt
  induction keys generalizing e ed fuel with
  | nil =>
    obtain ⟨fuel, rfl⟩ : ∃ f, fuel = f + 1 := ⟨fuel - 1, by omega⟩
    rw [Edit.loop, if_pos hi]
    rfl
  | cons k keys ih =>
    obtain ⟨fuel, rfl⟩ : ∃ f, fuel = f + 1 := ⟨fuel - 1, by omega⟩
    rw [List.flatMap_cons] at hfuel ⊢
    rw [Edit.loop, if_pos hi]
    by_cases hk : k = .enter
    · obtain ⟨e', hkey, hends⟩ := h.enter list hlt (keys.flatMap Key.bytes)
      rw [hk, hkey, Option.bind_some, if_pos rfl]
      exact ⟨e', rfl, hends⟩
    · have hbytes : 0 < k.bytes.length := by cases k <;> exact Nat.zero_lt_succ _
      rw [List.length_append] at hfuel
      have hmore : (keys.flatMap Key.bytes).length < fuel := by omega
      obtain ⟨e', hkey, hshows⟩ := h.key hlines hlt hk (keys.flatMap Key.bytes)
      rw [hkey, Option.bind_some, if_neg Bool.false_ne_true, read_cons hk]
      split_ifs with hroom
      · refine ih hshows hroom hmore ?_
        rw [hshows.i]
        exact hroom
      · obtain ⟨fuel, rfl⟩ : ∃ f, fuel = f + 1 := ⟨fuel - 1, by omega⟩
        have hfull : (ed.key history k).line.length = cmdLenMax :=
          Nat.le_antisymm hshows.le (Nat.le_of_not_lt hroom)
        have hi' : e'.i = cmdLenMax := hshows.i.trans hfull
        rw [Edit.loop, if_neg hi'.not_lt, if_pos hi']
        exact ⟨_, rfl, hshows.full hfull⟩

/-- The variables at the head of the loop, from those with which it is entered. -/
inductive Visits (list : List Str) (s : ℕ) : Edit → List UInt8 → Edit → Prop where
  | here (e : Edit) (input : List UInt8) : Visits list s e input e
  | next {e e' e'' : Edit} {input input' : List UInt8} (hlt : e.i < cmdLenMax)
      (hkey : e.key list s input = some (false, e', input')) (hrest : Visits list s e' input' e'') :
      Visits list s e input e''

theorem visits_le {e' : Edit} (hlines : Lines list history)
    (hvisits : Visits list s e input e') (hinput : input = keys.flatMap Key.bytes)
    (h : Shows m₀ s e ed) : e'.i ≤ cmdLenMax ∧
      ∀ x ∈ e'.m.writes, x ∈ m₀.writes ∨ (s ≤ x ∧ x < s + cmdLenMax) := by
  induction hvisits generalizing ed keys with
  | here e input =>
    rw [h.i]
    exact ⟨h.le, h.writes⟩
  | next hlt hkey _ ih =>
    have hline : ed.line.length < cmdLenMax := h.i ▸ hlt
    cases keys with
    | nil =>
      rw [hinput] at hkey
      exact absurd hkey (by simp [Edit.key])
    | cons k keys =>
      rw [hinput, List.flatMap_cons] at hkey
      by_cases hk : k = .enter
      · obtain ⟨e', henter, -⟩ := h.enter list hline (keys.flatMap Key.bytes)
        rw [hk, henter] at hkey
        exact absurd (congrArg Prod.fst (Option.some.inj hkey)) Bool.true_eq_false.mp
      · obtain ⟨e', hstep, hshows⟩ := h.key hlines hline hk (keys.flatMap Key.bytes)
        rw [hstep] at hkey
        obtain ⟨rfl, rfl⟩ := Prod.mk.inj (Prod.mk.inj (Option.some.inj hkey)).2
        exact ih rfl hshows

end Keys

/-- The history after the lines that have been read. -/
structure Keeps (h : History) (lines : List (List UInt8)) : Prop where
  lines : Lines h.list (remembered lines)
  num : h.num = h.list.length

section Remember
variable {h : History} {lines : List (List UInt8)} {line : Str} {m : Memory} {s : ℕ} {keys : List Key}

theorem boot_keeps : Keeps .boot [] :=
  ⟨⟨rfl, fun _ hnode => absurd hnode List.not_mem_nil⟩, rfl⟩

theorem remembered_nil (lines : List (List UInt8)) : remembered (lines ++ [[]]) = remembered lines := by
  rw [remembered, List.filter_append]
  simp [remembered]

theorem remembered_concat (lines : List (List UInt8)) {l : List UInt8} (hl : l ≠ []) :
    remembered (lines ++ [l]) =
      if (remembered lines).getLast? = some l then remembered lines
      else if (remembered lines).length < historyMax then remembered lines ++ [l]
      else (remembered lines).tail ++ [l] := by
  rw [remembered, List.filter_append, List.filter_cons_of_pos (by simpa using hl)]
  exact Latest.latest_concat 2 _ l

theorem Keeps.last (h' : Keeps h lines) :
    (h.list.getLast?.all fun last => strcmp line last ≠ 0) = true ↔
      (remembered lines).getLast? ≠ some line.1 := by
  rw [← h'.lines.eq, List.getLast?_map]
  cases h.list.getLast? with
  | none => exact iff_of_true rfl (by simp)
  | some last =>
    rw [Option.all_some, decide_eq_true_iff, Option.map_some, Ne, Cmd.strcmp_eq_zero, Ne,
      Option.some.injEq, Subtype.ext_iff, eq_comm]

theorem Keeps.add (h' : Keeps h lines) (hline : line.1 ≠ []) (hfits : strlen line < cmdLenMax)
    (hnew : (remembered lines).getLast? ≠ some line.1) :
    ∃ h₁, h.add line = some h₁ ∧ Keeps h₁ (lines ++ [line.1]) := by
  have hremember := remembered_concat lines hline
  have hlength := h'.lines.length
  rw [if_neg hnew, ← hlength, ← h'.num, ← h'.lines.eq] at hremember
  rw [History.add]
  split_ifs at hremember ⊢ with hroom
  · rw [strcpy, if_pos hfits, Option.map_some]
    refine ⟨_, rfl, ⟨?_, fun node hnode => ?_⟩, ?_⟩
    · rw [hremember, List.map_append]
      rfl
    · rcases List.mem_append.mp hnode with hold | hlast
      · exact h'.lines.fits node hold
      · rw [List.mem_singleton.mp hlast]
        exact hfits
    · simp only [h'.num, List.length_append, List.length_singleton]
  · have hlong : historyMax ≤ h.list.length := h'.num ▸ Nat.le_of_not_lt hroom
    cases hlist : h.list with
    | nil =>
      rw [hlist] at hlong
      exact absurd hlong (by decide)
    | cons first list =>
      have hnum := h'.num
      rw [hlist, List.length_cons] at hnum
      simp only [strcpy, if_pos hfits, Option.map_some]
      refine ⟨_, rfl, ⟨?_, fun node hnode => ?_⟩, ?_⟩
      · rw [hremember, hlist, List.map_cons, List.tail_cons, List.map_append]
        rfl
      · rcases List.mem_append.mp hnode with hold | hlast
        · exact h'.lines.fits node (hlist ▸ List.mem_cons_of_mem first hold)
        · rw [List.mem_singleton.mp hlast]
          exact hfits
      · simp only [hnum, List.length_append, List.length_singleton]

/-- The start of a call. -/
def Edit.start (m : Memory) : Edit := ⟨m, 0, none⟩

theorem start_shows (m : Memory) (s : ℕ) : Shows m s (.start m) ⟨[], none⟩ :=
  ⟨rfl, rfl, fun k hk => absurd hk (Nat.not_lt_zero k), List.not_mem_nil, Nat.zero_le _,
    fun _ => Or.inl⟩

/-- What a call should do: it waits, or it returns the line of the editor in the array. -/
def Returns (m : Memory) (s : ℕ) (lines : List (List UInt8))
    (result : Option (Memory × History × ℕ × List UInt8)) : Option (List UInt8 × List Key) → Prop
  | none => result = none
  | some (line, keys) => ∃ m' h', result = some (m', h', line.length, keys.flatMap Key.bytes) ∧
      Text m'.byte s line ∧ (∀ x ∈ m'.writes, x ∈ m.writes ∨ (s ≤ x ∧ x < s + cmdLenMax)) ∧
      Keeps h' (lines ++ [line])

theorem Keeps.call (h' : Keeps h lines) (m : Memory) (s : ℕ) (keys : List Key) :
    Returns m s lines (getCmdLine m s h (keys.flatMap Key.bytes))
      ((Editor.mk [] none).read (remembered lines) keys) := by
  have hyields : Yields m s (Edit.loop h.list s ((keys.flatMap Key.bytes).length + 1) (.start m)
      (keys.flatMap Key.bytes)) ((Editor.mk [] none).read (remembered lines) keys) :=
    loop_yields h'.lines (start_shows m s) (by decide) (Nat.lt_succ_self _)
  rw [getCmdLine]
  revert hyields
  cases (Editor.mk [] none).read (remembered lines) keys with
  | none =>
    intro hnone
    rw [← Edit.start, hnone]
    rfl
  | some r =>
    rintro ⟨e', hloop, hends⟩
    rw [← Edit.start, hloop, Option.bind_some]
    have hi := hends.i
    by_cases hempty : r.1 = []
    · rw [hempty, List.length_nil] at hi
      rw [if_neg (not_not.mpr hi), hi]
      refine ⟨_, h, ?_, hends.text, hends.writes, ?_⟩
      · rw [hempty]
        rfl
      · rw [hempty]
        exact ⟨(remembered_nil lines).symm ▸ h'.lines, h'.num⟩
    · have hline : e'.i ≠ 0 := by
        rw [hi]
        exact fun h0 => hempty (List.eq_nil_of_length_eq_zero h0)
      rw [if_pos hline, stringAt_text hends.text hends.lt, Option.bind_some, hi]
      by_cases hnew : (remembered lines).getLast? ≠ some r.1
      · have hchars : (⟨r.1, hends.text.not_nul⟩ : Str).1 ≠ [] := hempty
        obtain ⟨h₁, hadd, hkeeps⟩ := h'.add hchars hends.lt hnew
        rw [if_pos (h'.last.mpr hnew), hadd, Option.map_some]
        exact ⟨_, h₁, rfl, hends.text, hends.writes, hkeeps⟩
      · rw [if_neg (h'.last.not.mpr hnew)]
        have hsame := remembered_concat lines hempty
        rw [if_pos (not_not.mp hnew)] at hsame
        exact ⟨_, h, rfl, hends.text, hends.writes, hsame.symm ▸ h'.lines, h'.num⟩

end Remember

/-- The history after some calls, each with an array and with keys of its own, and the lines
that they have returned. -/
inductive Calls : History → List (List UInt8) → Prop where
  | boot : Calls .boot []
  | call {h h' : History} {lines : List (List UInt8)} {line : List UInt8} {m m' : Memory} {s i : ℕ}
      {keys : List Key} {rest : List UInt8} (hcalls : Calls h lines)
      (hcall : getCmdLine m s h (keys.flatMap Key.bytes) = some (m', h', i, rest))
      (hline : Text m'.byte s line) : Calls h' (lines ++ [line])

theorem Calls.keeps {h : History} {lines : List (List UInt8)} (hcalls : Calls h lines) :
    Keeps h lines := by
  induction hcalls with
  | boot => exact boot_keeps
  | @call h h' lines line m m' s i keys rest _ hcall hline ih =>
    have hreturns := ih.call m s keys
    revert hreturns
    cases (Editor.mk [] none).read (remembered lines) keys with
    | none =>
      intro hnone
      exact absurd (hcall.symm.trans hnone) (by simp)
    | some r =>
      rintro ⟨m₁, h₁, hcall₁, htext, -, hkeeps⟩
      obtain ⟨rfl, hrest⟩ := Prod.mk.inj (Option.some.inj (hcall.symm.trans hcall₁))
      obtain ⟨rfl, -⟩ := Prod.mk.inj hrest
      rwa [← htext.unique hline]

/-- After any calls, the history holds the latest lines, and the next call reads the line of the
editor, whatever is typed. -/
theorem get_cmd_line_edits {h : History} {lines : List (List UInt8)} (hcalls : Calls h lines) :
    h.list.map (·.1) = remembered lines ∧ ∀ m s keys,
      (∀ e, Visits h.list s (.start m) (keys.flatMap Key.bytes) e → e.i ≤ cmdLenMax ∧
        ∀ x ∈ e.m.writes, x ∈ m.writes ∨ (s ≤ x ∧ x < s + cmdLenMax)) ∧
      Returns m s lines (getCmdLine m s h (keys.flatMap Key.bytes))
        ((Editor.mk [] none).read (remembered lines) keys) :=
  have hkeeps := hcalls.keeps
  ⟨hkeeps.lines.eq, fun m s keys =>
    ⟨fun _ hvisits => visits_le hkeeps.lines hvisits rfl (start_shows m s), hkeeps.call m s keys⟩⟩

/-- "a" and Enter, then Up and Enter. -/
theorem get_cmd_line_edits_twice : ∃ h m' h', Calls h [[97]] ∧
    getCmdLine (.fresh fun _ => 0) 0 h [27, 91, 65, 13] = some (m', h', 1, []) ∧
    Text m'.byte 0 [97] := by
  have hfirst := ((get_cmd_line_edits .boot).2 (.fresh fun _ => 0) 0
    [.char 97 (by decide), .enter]).2
  have hread : (Editor.mk [] none).read (remembered []) [.char 97 (by decide), .enter] =
    some ([97], []) := rfl
  rw [hread] at hfirst
  obtain ⟨m₁, h₁, hcall, htext, -⟩ := hfirst
  have hcalls : Calls h₁ [[97]] := Calls.boot.call hcall htext
  have hsecond := ((get_cmd_line_edits hcalls).2 (.fresh fun _ => 0) 0 [.up, .enter]).2
  have hup : (Editor.mk [] none).read (remembered [[97]]) [.up, .enter] = some ([97], []) := rfl
  rw [hup] at hsecond
  obtain ⟨m', h', hagain, htext', -⟩ := hsecond
  exact ⟨h₁, m', h', hcalls, hagain, htext'⟩

end DfewOS.Shell
