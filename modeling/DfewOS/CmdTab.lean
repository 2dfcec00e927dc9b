import DfewOS.StringOrder

/-!
# Completing a command

`cmdTab` of `cmd.c`. Two static variables live on between the calls: the last prefix, in a
buffer of 20 bytes, and the node of the last command that was offered. A pointer into the list
of commands is the rest of the list from its node on, and `NULL` is the empty rest.

Asked again and again for the same prefix, the function walks around a cycle of the matching
commands and the prefix itself (`cycle`); `At` says where in the cycle it stands.
-/

namespace DfewOS.Cmd
open NulText

/-- The characters of a string up to its NUL. -/
abbrev Str := {s : List UInt8 // 0 ∉ s}

def strcmp (a b : Str) : ℤ :=
  CString.signedChar (differ a.1 b.1).1 - CString.signedChar (differ a.1 b.1).2

/-- The last argument is `n`. -/
def strncmp (a b : Str) (n : ℕ) : ℤ :=
  (differ (a.1.take n) (b.1.take n)).1.toNat - (differ (a.1.take n) (b.1.take n)).2.toNat

def strlen (s : Str) : ℕ := s.1.length

/-- `strcpy` to an array of `size` bytes; the NUL has to find room, too. -/
def strcpy (size : ℕ) (s : Str) : Option Str := if strlen s < size then some s else none

structure Tab where
  lastPrefix : Str
  pLast : List Str

def Tab.boot : Tab := ⟨⟨[], by decide⟩, []⟩

/-- `while (pLast != NULL)` -/
def findMatch (pre : Str) : List Str → List Str
  | [] => []
  | cmdName :: next =>
    if strncmp pre cmdName (strlen pre) = 0 then cmdName :: next else findMatch pre next

def cmdTab (cmds : List Str) (pre : Str) (tab : Tab) : Option (Tab × Str × ℕ) :=
  (if strcmp tab.lastPrefix pre ≠ 0 then (strcpy 20 pre).map fun p => Tab.mk p cmds
    else if tab.pLast = [] then some { tab with pLast := cmds }
    else some { tab with pLast := tab.pLast.tail }).map fun tab =>
  let pLast := findMatch pre tab.pLast
  let cmdLine := pLast.headD pre
  ({ tab with pLast }, cmdLine, strlen cmdLine)

/-- What a sequence of calls yields. -/
def tabs (cmds : List Str) : Tab → List Str → Option (List (Str × ℕ))
  | _, [] => some []
  | tab, pre :: pres =>
    (cmdTab cmds pre tab).bind fun r => (tabs cmds r.1 pres).map (r.2 :: ·)

/-! ## The cycle -/

def candidates (cmds : List Str) (pre : Str) : List Str := cmds.filter fun name => pre.1 <+: name.1

def cycle (cmds : List Str) (pre : Str) : List Str := candidates cmds pre ++ [pre]

/-- How often the last calls, the most recent of which comes first, asked for `pre` already. -/
def repeats (before : List Str) (pre : Str) : ℕ := (before.takeWhile (· = pre)).length

def position (cmds before : List Str) (pre : Str) : ℕ :=
  repeats before pre % (cycle cmds pre).length

def completion (cmds before : List Str) (pre : Str) : Str × ℕ :=
  let name := (cycle cmds pre).getD (position cmds before pre) pre
  (name, strlen name)

def completions (cmds : List Str) : List Str → List Str → List (Str × ℕ)
  | _, [] => []
  | before, pre :: pres => completion cmds before pre :: completions cmds (pre :: before) pres

section Text
variable {byte : ℕ → UInt8} {s t n fuel : ℕ} {a b : Str}

/-! ## The comparisons are those of `string.c`. -/

theorem strcmp_text (ha : Text byte s a.1) (hb : Text byte t b.1) (hfuel : a.1.length < fuel) :
    CString.strcmp byte fuel s t = some (strcmp a b) :=
  CString.strcmp_differ ha hb hfuel

theorem strncmp_take {u v : List UInt8} (ha : Text byte s u) (hb : Text byte t v) :
    CString.strncmp byte s t n =
      (differ (u.take n) (v.take n)).1.toNat - (differ (u.take n) (v.take n)).2.toNat := by
  induction n generalizing s t u v with
  | zero => rfl
  | succ n ih =>
    cases u with
    | nil =>
      have hs : byte s = 0 := ha
      cases v with
      | nil =>
        have ht : byte t = 0 := hb
        rw [CString.strncmp, if_pos (hs.trans ht.symm), if_pos (Or.inl hs)]
        rfl
      | cons d v =>
        obtain ⟨ht, hd, -⟩ := hb
        rw [CString.strncmp, hs, ht, if_neg hd.symm]
        rfl
    | cons c u =>
      obtain ⟨hs, hc, hu⟩ := ha
      cases v with
      | nil =>
        have ht : byte t = 0 := hb
        rw [CString.strncmp, hs, ht, if_neg hc]
        rfl
      | cons d v =>
        obtain ⟨ht, hd, hv⟩ := hb
        rw [CString.strncmp, hs, ht, List.take_succ_cons, List.take_succ_cons, differ]
        split_ifs with hcd hend
        · obtain rfl : n = 0 := hend.resolve_left hc
          rfl
        · exact ih hu hv
        · rfl

theorem strncmp_text (ha : Text byte s a.1) (hb : Text byte t b.1) :
    CString.strncmp byte s t n = strncmp a b n :=
  strncmp_take ha hb

theorem differ_same {key : UInt8 → ℤ} (hkey : Function.Injective key) {u v : List UInt8}
    (hu : 0 ∉ u) (hv : 0 ∉ v) : key (differ u v).1 - key (differ u v).2 = 0 ↔ u = v := by
  rw [sub_eq_zero]
  constructor
  · intro heq
    have hlt := (differ_lt hkey hu hv).not.mp heq.not_lt
    have hgt := (differ_gt hkey hu hv).not.mp heq.symm.not_lt
    exact keys_injective hkey (le_antisymm (not_lt.mp hgt) (not_lt.mp hlt))
  · rintro rfl
    have hlt := (differ_lt hkey hu hu).not.mpr (lt_irrefl _)
    have hgt := (differ_gt hkey hu hu).not.mpr (lt_irrefl _)
    exact le_antisymm (not_lt.mp hgt) (not_lt.mp hlt)

theorem strcmp_eq_zero : strcmp a b = 0 ↔ a = b := by
  rw [strcmp, differ_same CString.signedChar_injective a.2 b.2, Subtype.ext_iff]

theorem strncmp_eq_zero : strncmp a b (strlen a) = 0 ↔ a.1 <+: b.1 := by
  have hkey : Function.Injective fun c : UInt8 => (c.toNat : ℤ) :=
    Nat.cast_injective.comp CString.toNat_injective
  have ha : 0 ∉ a.1.take (strlen a) := fun h => a.2 (List.mem_of_mem_take h)
  have hb : 0 ∉ b.1.take (strlen a) := fun h => b.2 (List.mem_of_mem_take h)
  rw [strncmp, differ_same hkey ha hb, strlen, List.take_length, List.prefix_iff_eq_take]

end Text

/-- The static variables stand at the `j`-th place of the cycle for `pre`. -/
structure At (cmds : List Str) (tab : Tab) (pre : Str) (j : ℕ) : Prop where
  last : tab.lastPrefix = pre
  rest : candidates tab.pLast pre = (candidates cmds pre).drop j
  offered : ∀ name ∈ tab.pLast.head?, pre.1 <+: name.1
  le : j ≤ (candidates cmds pre).length

section Walk
variable {cmds l pres before : List Str} {pre w : Str} {tab : Tab} {j : ℕ}

theorem candidates_cons (name : Str) (l : List Str) (pre : Str) :
    candidates (name :: l) pre =
      if pre.1 <+: name.1 then name :: candidates l pre else candidates l pre := by
  rw [candidates, List.filter_cons]
  simp only [decide_eq_true_eq]
  rfl

theorem findMatch_candidates (pre : Str) (l : List Str) :
    candidates (findMatch pre l) pre = candidates l pre := by
  induction l with
  | nil => rfl
  | cons name l ih =>
    rw [findMatch]
    split_ifs with hmatch
    · rfl
    · rw [ih, candidates_cons, if_neg (strncmp_eq_zero.not.mp hmatch)]

theorem findMatch_offers (pre : Str) (l : List Str) :
    ∀ name ∈ (findMatch pre l).head?, pre.1 <+: name.1 := by
  induction l with
  | nil => exact fun name hname => absurd hname (Option.not_mem_none name)
  | cons name l ih =>
    rw [findMatch]
    split_ifs with hmatch
    · intro name' hname'
      obtain rfl : name = name' := Option.some.inj hname'
      exact strncmp_eq_zero.mp hmatch
    · exact ih

theorem headD_candidates (h : ∀ name ∈ l.head?, pre.1 <+: name.1) :
    l.headD pre = (candidates l pre).headD pre := by
  cases l with
  | nil => rfl
  | cons name l => rw [candidates_cons, if_pos (h name rfl), List.headD_cons, List.headD_cons]

theorem cycle_getD (hj : j ≤ (candidates cmds pre).length) :
    (cycle cmds pre).getD j pre = ((candidates cmds pre).drop j).headD pre := by
  rw [cycle, List.headD_eq_head?_getD, List.head?_drop, List.getD_eq_getElem?_getD]
  rcases hj.lt_or_eq with hlt | rfl
  · rw [List.getElem?_append_left hlt]
  · simp

theorem at_findMatch (h : candidates l pre = (candidates cmds pre).drop j)
    (hj : j ≤ (candidates cmds pre).length) :
    At cmds ⟨pre, findMatch pre l⟩ pre j ∧
      (findMatch pre l).headD pre = (cycle cmds pre).getD j pre := by
  have hoffers := findMatch_offers pre l
  have hrest := (findMatch_candidates pre l).trans h
  refine ⟨⟨rfl, hrest, hoffers, hj⟩, ?_⟩
  rw [headD_candidates hoffers, hrest, cycle_getD hj]

theorem at_start (cmds : List Str) (pre : Str) :
    At cmds ⟨pre, findMatch pre cmds⟩ pre 0 ∧
      (findMatch pre cmds).headD pre = (cycle cmds pre).getD 0 pre :=
  at_findMatch rfl (Nat.zero_le _)

theorem length_cycle (cmds : List Str) (pre : Str) :
    (cycle cmds pre).length = (candidates cmds pre).length + 1 := by
  rw [cycle, List.length_append, List.length_singleton]

theorem boot_at (cmds : List Str) :
    At cmds .boot Tab.boot.lastPrefix (candidates cmds Tab.boot.lastPrefix).length :=
  ⟨rfl, List.drop_length.symm, fun name hname => absurd hname (Option.not_mem_none name), le_rfl⟩

theorem cmdTab_new (hat : At cmds tab w j) (hne : pre ≠ w) (hlen : strlen pre < 20) :
    ∃ tab', cmdTab cmds pre tab = some (tab', (cycle cmds pre).getD 0 pre,
      strlen ((cycle cmds pre).getD 0 pre)) ∧ At cmds tab' pre 0 := by
  obtain ⟨hat', hname⟩ := at_start cmds pre
  have hdiffer : strcmp tab.lastPrefix pre ≠ 0 := by
    rw [hat.last]
    exact fun h => hne (strcmp_eq_zero.mp h).symm
  refine ⟨_, ?_, hat'⟩
  rw [cmdTab, if_pos hdiffer, strcpy, if_pos hlen, Option.map_some, Option.map_some, ← hname]

/-- The same prefix again: one place further, and from the last place to the first one. -/
theorem cmdTab_again (hat : At cmds tab pre j) :
    ∃ k tab', k = (j + 1) % (cycle cmds pre).length ∧
      cmdTab cmds pre tab = some (tab', (cycle cmds pre).getD k pre,
        strlen ((cycle cmds pre).getD k pre)) ∧ At cmds tab' pre k := by
  obtain ⟨last, pLast⟩ := tab
  obtain ⟨rfl, hrest, hoffered, hle⟩ := hat
  have hsame : ¬ strcmp last last ≠ 0 := not_not.mpr (strcmp_eq_zero.mpr rfl)
  simp only at hrest hoffered hle ⊢
  cases pLast with
  | nil =>
    have hend : (candidates cmds last).length ≤ j := List.drop_eq_nil_iff.mp hrest.symm
    obtain ⟨hat', hname⟩ := at_start cmds last
    refine ⟨0, _, ?_, ?_, hat'⟩
    · rw [length_cycle, Nat.le_antisymm hle hend, Nat.mod_self]
    · rw [cmdTab, if_neg hsame, if_pos rfl, Option.map_some, ← hname]
  | cons name next =>
    rw [candidates_cons, if_pos (hoffered name rfl)] at hrest
    have hlt : j < (candidates cmds last).length := by
      by_contra hge
      rw [List.drop_eq_nil_iff.mpr (Nat.le_of_not_lt hge)] at hrest
      exact List.cons_ne_nil _ _ hrest
    have hnext : candidates next last = (candidates cmds last).drop (j + 1) := by
      rw [List.drop_eq_getElem_cons hlt] at hrest
      exact (List.cons.inj hrest).2
    obtain ⟨hat', hname⟩ := at_findMatch hnext hlt
    refine ⟨j + 1, _, ?_, ?_, hat'⟩
    · rw [length_cycle, Nat.mod_eq_of_lt (Nat.succ_lt_succ hlt)]
    · rw [cmdTab, if_neg hsame, if_neg (List.cons_ne_nil _ _), Option.map_some, ← hname]
      rfl

/-- The static variables after the calls `before`: the next place is the one for the next call. -/
def Follows (cmds : List Str) (tab : Tab) (before : List Str) : Prop :=
  ∃ w j, At cmds tab w j ∧ strlen w < 20 ∧
    ∀ pre, position cmds before pre = if pre = w then (j + 1) % (cycle cmds pre).length else 0

theorem boot_follows (cmds : List Str) : Follows cmds .boot [] := by
  refine ⟨_, _, boot_at cmds, by decide, fun pre => ?_⟩
  have hstart : position cmds [] pre = 0 := Nat.zero_mod _
  rw [hstart]
  split_ifs with hempty
  · rw [hempty, length_cycle, Nat.mod_self]
  · rfl

theorem position_again (cmds before : List Str) (pre : Str) :
    position cmds (pre :: before) pre = (position cmds before pre + 1) % (cycle cmds pre).length := by
  rw [position, position, repeats, List.takeWhile_cons_of_pos (by simp), List.length_cons, Nat.mod_add_mod]
  rfl

theorem position_new (hne : pre ≠ w) : position cmds (w :: before) pre = 0 := by
  rw [position, repeats, List.takeWhile_cons_of_neg (by simpa using hne.symm), List.length_nil,
    Nat.zero_mod]

theorem at_follows (hat : At cmds tab pre (position cmds before pre)) (hlen : strlen pre < 20) :
    Follows cmds tab (pre :: before) := by
  refine ⟨pre, _, hat, hlen, fun pre' => ?_⟩
  split_ifs with hsame
  · rw [hsame, position_again]
  · exact position_new hsame

theorem Follows.call (h : Follows cmds tab before) (hlen : strlen pre < 20) :
    ∃ tab', cmdTab cmds pre tab = some (tab', completion cmds before pre) ∧
      Follows cmds tab' (pre :: before) := by
  obtain ⟨w, j, hat, -, hposition⟩ := h
  have hpre := hposition pre
  by_cases hsame : pre = w
  · rw [if_pos hsame] at hpre
    subst hsame
    obtain ⟨k, tab', hk, hcall, hat'⟩ := cmdTab_again hat
    rw [← hk] at hpre
    refine ⟨tab', ?_, at_follows (hpre.symm ▸ hat') hlen⟩
    rw [hcall, completion, hpre]
  · rw [if_neg hsame] at hpre
    obtain ⟨tab', hcall, hat'⟩ := cmdTab_new hat hsame hlen
    refine ⟨tab', ?_, at_follows (hpre.symm ▸ hat') hlen⟩
    rw [hcall, completion, hpre]

/-- One call, whose prefix does not fit the buffer, which holds another one therefore. -/
theorem Follows.overrun (h : Follows cmds tab before) (hlen : ¬ strlen pre < 20) :
    cmdTab cmds pre tab = none := by
  obtain ⟨w, j, hat, hfits, -⟩ := h
  have hdiffer : strcmp tab.lastPrefix pre ≠ 0 := by
    rw [hat.last]
    intro hsame
    rw [strcmp_eq_zero.mp hsame] at hfits
    exact hlen hfits
  rw [cmdTab, if_pos hdiffer, strcpy, if_neg hlen]
  rfl

theorem Follows.tabs (h : Follows cmds tab before) :
    tabs cmds tab pres = some (completions cmds before pres) ↔ ∀ pre ∈ pres, strlen pre < 20 := by
  induction pres generalizing tab before with
  | nil => exact iff_of_true rfl (fun pre hpre => absurd hpre List.not_mem_nil)
  | cons pre pres ih =>
    by_cases hlen : strlen pre < 20
    · obtain ⟨tab', hcall, hfollows⟩ := h.call hlen
      rw [Cmd.tabs, hcall, Option.bind_some, completions, List.forall_mem_cons, and_iff_right hlen,
        ← ih hfollows]
      constructor
      · intro hrest
        obtain ⟨outs, houts, heq⟩ := Option.map_eq_some_iff.mp hrest
        rw [houts, (List.cons.inj heq).2]
      · intro hrest
        rw [hrest]
        rfl
    · rw [Cmd.tabs, h.overrun hlen]
      exact iff_of_false (fun hrun => by cases hrun) fun hall => hlen (hall pre List.mem_cons_self)

end Walk

/-- The calls walk around the cycles exactly if each prefix fits the buffer. -/
theorem cmdTab_cycles (cmds pres : List Str) :
    tabs cmds .boot pres = some (completions cmds [] pres) ↔ ∀ pre ∈ pres, strlen pre < 20 :=
  (boot_follows cmds).tabs

/-- Twenty characters and the NUL are one byte too many. -/
theorem cmdTab_long : ∃ pre : Str, strlen pre = 20 ∧
    tabs [] .boot [pre] ≠ some (completions [] [] [pre]) := by
  refine ⟨⟨List.replicate 20 97, by decide⟩, by decide, ?_⟩
  rw [tabs, (boot_follows []).overrun (by decide)]
  exact fun h => by cases h

end DfewOS.Cmd
