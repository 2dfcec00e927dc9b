import DfewOS.FtpPathSpec
import DfewOS.Words

/-!
# The paths of the file shell

`yaffs_up_dir`, `_dir_append` and `_make_abs_path` of `yaffs_cmd.c`. Strings are lists of
characters without the terminating NUL; a step that leaves the buffer of the absolute path has no
result. An absolute path is taken as it is. Of a relative one every component in front of a `/` is
appended together with it, an empty one too, and `..` takes back whatever stands last.
-/

namespace DfewOS.YaffsPath
open Ftp (pathLenMax prevSlash prevSlash_some strncat strncatFrom_eq)
open Words (word behind words words_nil words_sep words_free words_append_sep word_sep behind_sep
  word_cons behind_cons)

def isSlash (c : Char) : Bool := c = '/'

def dot : List Char := ['.']

def dotDot : List Char := ['.', '.']

def fit (path : List Char) : Option (List Char) :=
  if path.length < pathLenMax then some path else none

def yaffsUpDir (dir : List Char) : Option (List Char) :=
  if dir.length ≤ 1 then some dir
  else (prevSlash dir (dir.length - 1)).map fun e => dir.take (e + 1)

/-- `word` and `behind` part `append` at the slash that `strchr` finds. -/
def dirAppend : ℕ → List Char → List Char → Option (List Char)
  | 0, _, _ => none
  | fuel + 1, oldDir, append =>
    match behind isSlash append with
    | [] =>
      if append = dot then some oldDir
      else if append = dotDot then yaffsUpDir oldDir
      else fit (oldDir ++ append)
    | _ :: next =>
      (if word isSlash append = dot then some oldDir
        else if word isSlash append = dotDot then yaffsUpDir oldDir
        else fit (strncat oldDir append ((word isSlash append).length + 1))).bind
          fun oldDir => dirAppend fuel oldDir next

def makeAbsPath (fuel : ℕ) (pwd userPath : List Char) : Option (List Char) :=
  if userPath.head? = some '/' then fit userPath
  else (fit pwd).bind fun absPath => dirAppend fuel absPath userPath

/-! ## Directories as lists of components -/

def components (path : List Char) : List (List Char) := words isSlash path

/-- The parts of a path between its slashes, the empty ones too. -/
def items (path : List Char) : List (List Char) := path.splitOnP isSlash

/-- `/` or `/c1/.../ck/`. -/
def dirText (dir : List (List Char)) : List Char := '/' :: dir.flatMap fun c => c ++ ['/']

def enter (dir : List (List Char)) (c : List Char) : List (List Char) :=
  if c = dot then dir else if c = dotDot then dir.dropLast else dir ++ [c]

/-- The path, component by component from left to right, where empty ones are ignored. -/
def resolve (dir : List (List Char)) (path : List Char) : List (List Char) :=
  (items path).foldl (fun dir c => if c = [] then dir else enter dir c) dir

/-- What is to come out for a path, of which an absolute one begins at the root. -/
def Resolves (dir : List (List Char)) (path : List Char) (result : Option (List Char)) : Prop :=
  ∃ r, result = some r ∧ r.head? = some '/' ∧
    components r = resolve (if path.head? = some '/' then [] else dir) path

/-- No `..` takes back an empty component. -/
def TakesNames : List (List Char) → List (List Char) → Prop
  | _, [] => True
  | dir, c :: cs => (c = dotDot → dir.getLast? ≠ some []) ∧ TakesNames (enter dir c) cs

/-- The text with the last component, behind which no slash is put. -/
def entered (dir : List (List Char)) (c : List Char) : List Char :=
  if c = dot then dirText dir else if c = dotDot then dirText dir.dropLast else dirText dir ++ c

/-- Every text on the way has room in the buffer. -/
def Fits : List (List Char) → List (List Char) → Prop
  | _, [] => True
  | dir, [c] => (entered dir c).length < pathLenMax
  | dir, c :: d :: cs => (dirText (enter dir c)).length < pathLenMax ∧ Fits (enter dir c) (d :: cs)

def Parted (dir : List (List Char)) : Prop := ∀ c ∈ dir, '/' ∉ c

variable {dir : List (List Char)} {c d path append : List Char} {fuel : ℕ}

theorem dirText_append : dirText (dir ++ [c]) = dirText dir ++ (c ++ ['/']) := by
  rw [dirText, List.flatMap_append, List.flatMap_singleton]
  rfl

theorem dirText_last (dir : List (List Char)) : ∃ front, dirText dir = front ++ ['/'] := by
  induction dir using List.reverseRecOn with
  | nil => exact ⟨[], rfl⟩
  | append_singleton dir c ih => exact ⟨dirText dir ++ c, by rw [dirText_append, List.append_assoc]⟩

theorem Parted.enter (h : Parted dir) (hc : '/' ∉ c) : Parted (enter dir c) := by
  rw [YaffsPath.enter]
  split_ifs
  · exact h
  · exact fun d hd => h d (List.mem_of_mem_dropLast hd)
  · intro d hd
    rcases List.mem_append.mp hd with hold | hnew
    · exact h d hold
    · rw [List.mem_singleton.mp hnew]
      exact hc

theorem free_of_not_mem (hc : '/' ∉ c) : ∀ x ∈ c, isSlash x = false := by
  intro x hx
  refine decide_eq_false fun he => hc ?_
  rwa [← he]

theorem yaffsUpDir_dirText (h : Parted dir) : yaffsUpDir (dirText dir) = some (dirText dir.dropLast) := by
  induction dir using List.reverseRecOn with
  | nil => rfl
  | append_singleton dir c _ =>
    obtain ⟨front, hfront⟩ := dirText_last dir
    have hc : '/' ∉ c := h c (List.mem_append_right _ (List.mem_singleton.mpr rfl))
    have htext : dirText (dir ++ [c]) = front ++ '/' :: (c ++ ['/']) := by
      rw [dirText_append, hfront, List.append_assoc, List.singleton_append]
    have hlength : (dirText (dir ++ [c])).length = front.length + 1 + c.length + 1 := by
      rw [htext, List.length_append, List.length_cons, List.length_append, List.length_singleton]
      omega
    have hslash : (dirText (dir ++ [c]))[front.length]? = some '/' := by
      rw [htext, List.getElem?_append_right (Nat.le_refl _), Nat.sub_self]
      rfl
    obtain ⟨e, he, hge, hlt, hat⟩ :=
      prevSlash_some (show front.length < front.length + 1 + c.length by omega) hslash
    obtain rfl : e = front.length := by
      by_contra hne
      obtain ⟨i, rfl⟩ := Nat.exists_eq_add_of_lt (show front.length < e by omega)
      rw [htext, List.getElem?_append_right (by omega), show front.length + i + 1 - front.length = i + 1 by
        omega, List.getElem?_cons_succ, List.getElem?_append_left (by omega)] at hat
      exact hc (List.mem_of_getElem? hat)
    rw [yaffsUpDir, if_neg (by omega), hlength, Nat.add_sub_cancel, he, Option.map_some,
      List.dropLast_concat, hfront, htext]
    rw [List.take_append, List.take_of_length_le (Nat.le_succ _), Nat.add_sub_cancel_left]
    rfl

theorem words_free_cons (hc : '/' ∉ c) (cs : List (List Char)) :
    words isSlash c ++ cs.filter (fun c => !c.isEmpty) = (c :: cs).filter fun c => !c.isEmpty := by
  rw [words_free (free_of_not_mem hc)]
  cases c <;> rfl

theorem components_dirText (h : Parted dir) :
    components (dirText dir) = dir.filter fun c => !c.isEmpty := by
  have hbehind : words isSlash (dir.flatMap fun c => c ++ ['/']) = dir.filter fun c => !c.isEmpty := by
    induction dir with
    | nil => rfl
    | cons c dir ih =>
      obtain ⟨hc, hdir⟩ := List.forall_mem_cons.mp h
      rw [List.flatMap_cons, List.append_assoc, List.singleton_append, words_append_sep (by decide),
        ih hdir, words_free_cons hc dir]
  rw [components, dirText, words_sep (by decide), hbehind]

theorem components_dirText_append (h : Parted dir) (hc : '/' ∉ c) :
    components (dirText dir ++ c) = (dir ++ [c]).filter fun c => !c.isEmpty := by
  obtain ⟨front, hfront⟩ := dirText_last dir
  have hsep : isSlash '/' = true := by decide
  have hdir := components_dirText h
  rw [components, hfront, words_append_sep hsep, words_nil, List.append_nil] at hdir
  have hlast := words_free_cons hc []
  rw [List.filter_nil, List.append_nil] at hlast
  rw [components, hfront, List.append_assoc, List.singleton_append, words_append_sep hsep,
    List.filter_append, hdir, hlast]

/-! ## One component after the other -/

theorem items_cons (hc : '/' ∉ c) : items (c ++ '/' :: path) = c :: items path :=
  List.splitOnP_append_cons_of_forall_mem (free_of_not_mem hc) '/' (by decide) path

theorem items_last (hc : '/' ∉ c) : items c = [c] := List.splitOnP_eq_singleton (free_of_not_mem hc)

theorem path_cases (path : List Char) : (behind isSlash path = [] ∧ '/' ∉ path) ∨
    ∃ c next, path = c ++ '/' :: next ∧ '/' ∉ c ∧ word isSlash path = c ∧
      behind isSlash path = '/' :: next := by
  induction path with
  | nil => exact Or.inl ⟨rfl, List.not_mem_nil⟩
  | cons x path ih =>
    by_cases hx : x = '/'
    · subst hx
      have hsep : isSlash '/' = true := by decide
      exact Or.inr ⟨[], path, rfl, List.not_mem_nil, word_sep hsep, behind_sep hsep⟩
    · have hfree : isSlash x = false := decide_eq_false hx
      rcases ih with ⟨hbehind, hmem⟩ | ⟨c, next, rfl, hc, hword, hbehind⟩
      · exact Or.inl ⟨(behind_cons hfree).trans hbehind,
          List.not_mem_cons_of_ne_of_not_mem (Ne.symm hx) hmem⟩
      · exact Or.inr ⟨x :: c, next, rfl, List.not_mem_cons_of_ne_of_not_mem (Ne.symm hx) hc,
          (word_cons hfree).trans (congrArg _ hword), (behind_cons hfree).trans hbehind⟩

theorem step_dirText (h : Parted dir) (hfits : (dirText (enter dir c)).length < pathLenMax) :
    (if c = dot then some (dirText dir)
      else if c = dotDot then yaffsUpDir (dirText dir)
      else fit (strncat (dirText dir) (c ++ '/' :: path) (c.length + 1))) =
    some (dirText (enter dir c)) := by
  rw [enter] at hfits ⊢
  split_ifs at hfits ⊢ with hdot hup
  · rfl
  · exact yaffsUpDir_dirText h
  · rw [dirText_append] at hfits ⊢
    have hlength : c.length + 1 < 2 ^ 32 := by
      simp only [List.length_append, List.length_singleton, pathLenMax] at hfits
      omega
    have hcut : (c ++ '/' :: path).take (c.length + 1) = c ++ ['/'] := by
      rw [List.take_append, List.take_of_length_le (Nat.le_succ _), Nat.add_sub_cancel_left]
      rfl
    rw [strncat, strncatFrom_eq _ (Nat.succ_pos _) hlength, hcut, fit, if_pos hfits]

theorem last_dirText (h : Parted dir) (hfits : (entered dir c).length < pathLenMax) :
    (if c = dot then some (dirText dir)
      else if c = dotDot then yaffsUpDir (dirText dir) else fit (dirText dir ++ c)) =
    some (entered dir c) := by
  rw [entered] at hfits ⊢
  split_ifs at hfits ⊢ with hdot hup
  · rfl
  · exact yaffsUpDir_dirText h
  · rw [fit, if_pos hfits]

theorem filter_enter (hname : c = dotDot → dir.getLast? ≠ some []) :
    (enter dir c).filter (fun c => !c.isEmpty) =
      if c = [] then dir.filter fun c => !c.isEmpty
      else enter (dir.filter fun c => !c.isEmpty) c := by
  rw [enter, enter]
  split_ifs with hdot hempty hup hempty hempty
  · rfl
  · rfl
  · subst hup
    exact absurd hempty (List.cons_ne_nil _ _)
  · induction dir using List.reverseRecOn with
    | nil => rfl
    | append_singleton dir d _ =>
      have hd : d ≠ [] := by
        rintro rfl
        exact hname hup List.getLast?_concat
      rw [List.dropLast_concat, List.filter_append, List.filter_cons_of_pos (by simpa using hd),
        List.filter_nil, List.dropLast_concat]
  · rw [List.filter_append, hempty]
    exact List.append_nil _
  · rw [List.filter_append, List.filter_cons_of_pos (by simpa using hempty), List.filter_nil]

theorem components_entered (h : Parted dir) (hc : '/' ∉ c) :
    components (entered dir c) = (enter dir c).filter fun c => !c.isEmpty := by
  rw [entered, enter]
  split_ifs with hdot hup
  · exact components_dirText h
  · exact components_dirText fun d hd => h d (List.mem_of_mem_dropLast hd)
  · exact components_dirText_append h hc

theorem dirAppend_resolves (h : Parted dir) (hfits : Fits dir (items append))
    (hfuel : append.length < fuel) :
    ∃ r, dirAppend fuel (dirText dir) append = some r ∧ (TakesNames dir (items append) →
      components r = resolve (dir.filter fun c => !c.isEmpty) append) := by
  induction fuel generalizing dir append with
  | zero => exact absurd hfuel (Nat.not_lt_zero _)
  | succ fuel ih =>
    rcases path_cases append with ⟨hbehind, hfree⟩ | ⟨c, next, rfl, hc, hword, hbehind⟩
    · rw [items_last hfree] at hfits
      refine ⟨entered dir append, ?_, fun hnames => ?_⟩
      · rw [dirAppend, hbehind]
        exact last_dirText h hfits
      · rw [items_last hfree] at hnames
        rw [components_entered h hfree, filter_enter hnames.1, resolve, items_last hfree]
        rfl
    · obtain ⟨d, cs, hitems⟩ := List.exists_cons_of_ne_nil (List.splitOnP_ne_nil isSlash next)
      rw [items_cons hc, show items next = d :: cs from hitems] at hfits
      obtain ⟨hfit, hrest⟩ := hfits
      rw [← show items next = d :: cs from hitems] at hrest
      have hnext : next.length < fuel := by
        rw [List.length_append, List.length_cons] at hfuel
        omega
      obtain ⟨r, hr, hcomponents⟩ := ih (h.enter hc) hrest hnext
      refine ⟨r, ?_, fun hnames => ?_⟩
      · rw [dirAppend, hbehind]
        simp only [hword]
        rw [step_dirText h hfit, Option.bind_some, hr]
      · rw [items_cons hc] at hnames
        rw [hcomponents hnames.2, filter_enter hnames.1, resolve, resolve, items_cons hc, List.foldl_cons]

/-! ## The root -/

theorem yaffsUpDir_head {r : List Char} (h : path.head? = some '/') (hr : yaffsUpDir path = some r) :
    r.head? = some '/' := by
  rw [yaffsUpDir] at hr
  split_ifs at hr
  · exact Option.some.inj hr ▸ h
  · obtain ⟨e, -, rfl⟩ := Option.map_eq_some_iff.mp hr
    rw [List.head?_take, if_neg (Nat.succ_ne_zero e)]
    exact h

theorem fit_append_head {r : List Char} (h : path.head? = some '/') (hr : fit (path ++ append) = some r) :
    r.head? = some '/' := by
  rw [fit] at hr
  split_ifs at hr
  rw [← Option.some.inj hr, List.head?_append, h]
  rfl

theorem dirAppend_head {r : List Char} (h : path.head? = some '/') (hr : dirAppend fuel path append = some r) :
    r.head? = some '/' := by
  induction fuel generalizing path append with
  | zero => cases hr
  | succ fuel ih =>
    rw [dirAppend] at hr
    split at hr
    · split_ifs at hr
      · exact Option.some.inj hr ▸ h
      · exact yaffsUpDir_head h hr
      · exact fit_append_head h hr
    · obtain ⟨next, hnext, hrest⟩ := Option.bind_eq_some_iff.mp hr
      refine ih ?_ hrest
      split_ifs at hnext
      · exact Option.some.inj hnext ▸ h
      · exact yaffsUpDir_head h hnext
      · exact fit_append_head h hnext

theorem makeAbsPath_head {pwd r : List Char} (h : pwd.head? = some '/')
    (hr : makeAbsPath fuel pwd path = some r) : r.head? = some '/' := by
  rw [makeAbsPath] at hr
  split_ifs at hr with habs
  · rw [fit] at hr
    split_ifs at hr
    exact Option.some.inj hr ▸ habs
  · obtain ⟨dir, hdir, hrest⟩ := Option.bind_eq_some_iff.mp hr
    rw [fit] at hdir
    split_ifs at hdir
    exact dirAppend_head (Option.some.inj hdir ▸ h) hrest

/-! ## Room -/

theorem dropLast_length_le (dir : List (List Char)) :
    (dirText dir.dropLast).length ≤ (dirText dir).length := by
  induction dir using List.reverseRecOn with
  | nil => exact Nat.le_refl _
  | append_singleton dir d _ =>
    rw [List.dropLast_concat, dirText_append, List.length_append]
    exact Nat.le_add_right _ _

theorem entered_length_le : (entered dir c).length ≤ (dirText dir).length + c.length := by
  have hback := dropLast_length_le dir
  rw [entered]
  split_ifs
  · exact Nat.le_add_right _ _
  · omega
  · rw [List.length_append]

theorem enter_length_le : (dirText (enter dir c)).length ≤ (dirText dir).length + c.length + 1 := by
  have hback := dropLast_length_le dir
  rw [enter]
  split_ifs
  · omega
  · omega
  · rw [dirText_append, List.length_append, List.length_append, List.length_singleton, Nat.add_assoc]

/-- There is room on the way where there is room for both paths one behind the other. -/
theorem fits_of_length (h : (dirText dir).length + path.length < pathLenMax) :
    Fits dir (items path) := by
  induction hn : path.length using Nat.strongRecOn generalizing dir path with
  | ind n ih =>
    subst hn
    rcases path_cases path with ⟨-, hfree⟩ | ⟨c, next, rfl, hc, -, -⟩
    · rw [items_last hfree]
      exact Nat.lt_of_le_of_lt entered_length_le h
    · obtain ⟨d, cs, hitems⟩ := List.exists_cons_of_ne_nil (List.splitOnP_ne_nil isSlash next)
      have hlength : (dirText (enter dir c)).length ≤ _ := enter_length_le
      rw [List.length_append, List.length_cons] at h ih
      have hrest := ih next.length (by omega)
        (show (dirText (enter dir c)).length + next.length < pathLenMax by omega) rfl
      rw [items_cons hc, show items next = d :: cs from hitems]
      rw [show items next = d :: cs from hitems] at hrest
      exact ⟨by omega, hrest⟩

/-- An absolute path is left as it is. A relative one in which no `..` takes back an empty
component comes out resolved, as long as the texts on the way have room. Whatever comes out begins
at the root. -/
theorem makeAbsPath_resolves (hdir : ∀ c ∈ dir, c ≠ [] ∧ '/' ∉ c)
    (hpwd : (dirText dir).length < pathLenMax) (hfuel : path.length < fuel) :
    (path.head? = some '/' → path.length < pathLenMax →
      makeAbsPath fuel (dirText dir) path = some path) ∧
    (path.head? ≠ some '/' → Fits dir (items path) →
      (∃ r, makeAbsPath fuel (dirText dir) path = some r) ∧
      (TakesNames dir (items path) → Resolves dir path (makeAbsPath fuel (dirText dir) path))) ∧
    ∀ r, makeAbsPath fuel (dirText dir) path = some r → r.head? = some '/' := by
  refine ⟨fun habs hfits => ?_, fun hrel hfits => ?_, fun r hr => ?_⟩
  · rw [makeAbsPath, if_pos habs, fit, if_pos hfits]
  · have hparted : Parted dir := fun c hc => (hdir c hc).2
    have hfull : (dir.filter fun c => !c.isEmpty) = dir :=
      List.filter_eq_self.mpr fun c hc => by simpa using (hdir c hc).1
    obtain ⟨r, hr, hcomponents⟩ := dirAppend_resolves hparted hfits hfuel
    have hrun : makeAbsPath fuel (dirText dir) path = some r := by
      rw [makeAbsPath, if_neg hrel, fit, if_pos hpwd, Option.bind_some, hr]
    refine ⟨⟨r, hrun⟩, fun hnames => ⟨r, hrun, makeAbsPath_head rfl hrun, ?_⟩⟩
    rw [hcomponents hnames, if_neg hrel, hfull]
  · exact makeAbsPath_head rfl hr

/-- In `/n1/`: `../a`, and `/a`. -/
theorem makeAbsPath_resolves_n1 :
    Resolves [['n', '1']] ['.', '.', '/', 'a']
      (makeAbsPath 5 (dirText [['n', '1']]) ['.', '.', '/', 'a']) ∧
    makeAbsPath 5 (dirText [['n', '1']]) ['/', 'a'] = some ['/', 'a'] :=
  ⟨((makeAbsPath_resolves (by decide) (by decide) (by decide)).2.1 (by decide)
      (fits_of_length (by decide))).2 ⟨by decide, by decide, trivial⟩,
    (makeAbsPath_resolves (by decide) (by decide) (by decide)).1 (by decide) (by decide)⟩

/-- `/a/../b` stays as it is; in `a//../b` the `..` takes back the empty component only; and for
`bb/..` in a directory of 255 characters the buffer has no room on the way. -/
theorem makeAbsPath_unresolved :
    ¬ Resolves [] ['/', 'a', '/', '.', '.', '/', 'b']
      (makeAbsPath 8 (dirText []) ['/', 'a', '/', '.', '.', '/', 'b']) ∧
    ¬ Resolves [] ['a', '/', '/', '.', '.', '/', 'b']
      (makeAbsPath 8 (dirText []) ['a', '/', '/', '.', '.', '/', 'b']) ∧
    ¬ Resolves [List.replicate 253 'c'] ['b', 'b', '/', '.', '.']
      (makeAbsPath 6 (dirText [List.replicate 253 'c']) ['b', 'b', '/', '.', '.']) ∧
    (dirText (resolve [List.replicate 253 'c'] ['b', 'b', '/', '.', '.'])).length < pathLenMax := by
  have habs : makeAbsPath 8 (dirText []) ['/', 'a', '/', '.', '.', '/', 'b'] =
      some ['/', 'a', '/', '.', '.', '/', 'b'] := by decide
  have hempty : makeAbsPath 8 (dirText []) ['a', '/', '/', '.', '.', '/', 'b'] =
      some ['/', 'a', '/', 'b'] := by decide
  have hfull : makeAbsPath 6 (dirText [List.replicate 253 'c']) ['b', 'b', '/', '.', '.'] = none := by
    decide +kernel
  rw [habs, hempty, hfull]
  refine ⟨?_, ?_, ?_, by decide +kernel⟩
  · rintro ⟨r, hr, -, hcomponents⟩
    obtain rfl := Option.some.inj hr
    exact absurd hcomponents (by decide)
  · rintro ⟨r, hr, -, hcomponents⟩
    obtain rfl := Option.some.inj hr
    exact absurd hcomponents (by decide)
  · rintro ⟨r, hr, -⟩
    exact absurd hr (Option.some_ne_none r).symm

end DfewOS.YaffsPath
