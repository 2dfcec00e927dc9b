import DfewOS.FtpPath

/-!
# The working directory over a session

The directory stays below the root path with which the session began, as long as the steps
that cut it and those that replace it are made for that root path. The shell may set
another one, which the code does not keep apart from the session's.
-/

namespace DfewOS.Ftp
open Transition (Run)

/-! ## The string functions -/

theorem pred_of_pos {n : ℕ} (hn : 0 < n) (hlt : n < 2 ^ 32) :
    (n + (2 ^ 32 - 1)) % 2 ^ 32 = n - 1 := by
  omega

theorem strncatFrom_eq (append : List Char) {n : ℕ} (hn : 0 < n) (hlt : n < 2 ^ 32) :
    strncatFrom append n = append.take n := by
  induction append generalizing n with
  | nil => simp [strncatFrom]
  | cons c append ih =>
    obtain ⟨k, rfl⟩ := Nat.exists_eq_add_of_le' hn
    rw [strncatFrom, pred_of_pos hn hlt, Nat.add_sub_cancel, List.take_succ_cons]
    by_cases hk : k = 0
    · rw [if_pos hk, hk, List.take_zero]
    · rw [if_neg hk, ih (by omega) (by omega)]

theorem strncatFrom_length (append : List Char) (n : ℕ) :
    (strncatFrom append n).length ≤ append.length := by
  induction append generalizing n with
  | nil => exact Nat.le_refl _
  | cons c append ih =>
    rw [strncatFrom]
    split
    · simp
    · exact Nat.succ_le_succ (ih _)

theorem prevSlash_some {curPath : List Char} {j n : ℕ} (hj : j < n)
    (hslash : curPath[j]? = some '/') :
    ∃ e, prevSlash curPath n = some e ∧ j ≤ e ∧ e < n ∧ curPath[e]? = some '/' := by
  induction n with
  | zero => omega
  | succ n ih =>
    rw [prevSlash]
    split
    · rename_i hn
      exact ⟨n, rfl, by omega, by omega, hn⟩
    · rename_i hn
      have hne : j ≠ n := by
        rintro rfl
        exact hn hslash
      obtain ⟨e, he, hle, hlt, hat⟩ := ih (by omega)
      exact ⟨e, he, hle, by omega, hat⟩

theorem getLast?_take_succ {path : List Char} {e : ℕ} {c : Char} (h : path[e]? = some c) :
    (path.take (e + 1)).getLast? = some c := by
  rw [List.take_add_one, h]
  simp

theorem appendSlash_eq {path : List Char} (hne : path ≠ []) :
    ∃ path', appendSlash path = some path' ∧ path'.getLast? = some '/' ∧ path <+: path' ∧
      path'.length ≤ path.length + 1 := by
  obtain ⟨c, hc⟩ : ∃ c, path.getLast? = some c :=
    ⟨_, List.getLast?_eq_some_getLast hne⟩
  rw [appendSlash, hc]
  by_cases hslash : c = '/'
  · subst hslash
    exact ⟨path, by simp, hc, List.prefix_refl path, Nat.le_succ _⟩
  · refine ⟨path ++ ['/'], by simp [hslash], by simp, List.prefix_append .., by simp⟩

/-! ## The invariant -/

/-- A root path that a session may begin with: it ends with a '/' and leaves room for the
NUL; the longest one has no second '/' in front of the last. -/
structure IsRoot (root : List Char) : Prop where
  slash : root.getLast? = some '/'
  fits : root.length < pathLenMax
  single : root.length = pathLenMax - 1 → root[pathLenMax - 3]? ≠ some '/'

/-- `current_path` fits its buffer, ends with '/' and starts with the session's root. -/
structure PathOk (s : Session) : Prop where
  fits : s.currentPath.length < pathLenMax
  slash : s.currentPath.getLast? = some '/'
  below : s.began <+: s.currentPath

def Below (root dir : List Char) : Prop :=
  root <+: dir ∨ (dir ≠ [] ∧ dir.getLast? ≠ some '/' ∧ root = dir ++ ['/'])

/-- When `_ftps_cd` keeps to the directories below the session's root and to its buffer. -/
def Session.SafeCd (s : Session) (dir : List Char) (access : Bool) : Prop :=
  if dir = ['.'] then True
  else if dir = ['.', '.'] then s.currentPath = s.rootPath ∨ s.currentPath ≠ s.began
  else if s.rootPath <+: dir then access = true → Below s.began dir
  else s.currentPath.length < pathLenMax - 2 ∨ s.currentPath.length + dir.length < pathLenMax

def Session.Safe (s : Session) : PathEvent → Prop
  | .cwd dir access => s.SafeCd dir access
  | .cdup => s.SafeCd ['.', '.'] false
  | .setRootPath _ _ => True

/-- What a session keeps: its root was a good one, and the path is below it. -/
def Good (root : List Char) (st : Option Session) : Prop :=
  ∃ s, st = some s ∧ s.began = root ∧ PathOk s

section Steps

variable {root : List Char} {s : Session}

theorem appendSlash_below (hroot : IsRoot root) {path : List Char} (hbelow : root <+: path) :
    ∃ path', appendSlash (path.take (pathLenMax - 2)) = some path' ∧ path'.length < pathLenMax ∧
      path'.getLast? = some '/' ∧ root <+: path' := by
  obtain ⟨rest, rfl⟩ := hbelow
  have hpos : 0 < root.length := by
    cases root with
    | nil => cases hroot.slash
    | cons c root => exact Nat.succ_pos _
  have hne : (root ++ rest).take (pathLenMax - 2) ≠ [] := by
    intro h
    have hzero := congrArg List.length h
    rw [List.length_take, List.length_append, List.length_nil] at hzero
    simp only [pathLenMax] at hzero
    omega
  obtain ⟨path', hpath, hslash, hprefix, hlen⟩ := appendSlash_eq hne
  have htake : ((root ++ rest).take (pathLenMax - 2)).length ≤ pathLenMax - 2 := by simp
  refine ⟨path', hpath, by simp only [pathLenMax] at *; omega, hslash, ?_⟩
  by_cases hshort : root.length ≤ pathLenMax - 2
  · have hroot' : root <+: (root ++ rest).take (pathLenMax - 2) := by
      rw [List.take_append, List.take_of_length_le hshort]
      exact List.prefix_append ..
    exact hroot'.trans hprefix
  · -- the longest root path loses its '/' and gets it back
    have hfull : root.length = pathLenMax - 1 := by
      have := hroot.fits
      simp only [pathLenMax] at *
      omega
    obtain ⟨front, hfront⟩ : ∃ front, root = front ++ ['/'] :=
      List.getLast?_eq_some_iff.mp hroot.slash
    have hlength : front.length = pathLenMax - 2 := by
      rw [hfront, List.length_append] at hfull
      simp only [pathLenMax, List.length_singleton] at *
      omega
    have hcut : (root ++ rest).take (pathLenMax - 2) = front := by
      rw [hfront, List.append_assoc, List.take_left' hlength]
    have hend : front.getLast? ≠ some '/' := by
      have hsingle := hroot.single hfull
      rw [hfront, List.getElem?_append_left (by rw [hlength]; decide)] at hsingle
      rwa [List.getLast?_eq_getElem?, hlength]
    obtain ⟨c, hc⟩ : ∃ c, front.getLast? = some c := by
      cases hlast : front.getLast? with
      | none =>
        rw [List.getLast?_eq_none_iff] at hlast
        rw [hlast] at hlength
        cases hlength
      | some c => exact ⟨c, rfl⟩
    have hcslash : c ≠ '/' := by
      rintro rfl
      exact hend hc
    rw [hcut, appendSlash, hc] at hpath
    simp only [if_neg hcslash, Option.some.injEq] at hpath
    rw [← hpath, hfront]

theorem cd_parent (hroot : IsRoot root) (hbegan : s.began = root) (hok : PathOk s)
    (hbelow : s.currentPath ≠ s.began) :
    ∃ e, prevSlash s.currentPath (s.currentPath.length - 1) = some e ∧
      PathOk { s with currentPath := s.currentPath.take (e + 1) } := by
  obtain ⟨rest, hrest⟩ := hok.below
  obtain ⟨front, hfront⟩ : ∃ front, root = front ++ ['/'] :=
    List.getLast?_eq_some_iff.mp hroot.slash
  have hne : rest ≠ [] := by
    rintro rfl
    rw [List.append_nil] at hrest
    exact hbelow hrest.symm
  have hpos : 0 < rest.length := List.length_pos_iff.mpr hne
  have hcur : s.currentPath = front ++ '/' :: rest := by
    rw [← hrest, hbegan, hfront, List.append_assoc]
    rfl
  have hat : s.currentPath[front.length]? = some '/' := by
    rw [hcur]
    simp
  have hlt : front.length < s.currentPath.length - 1 := by
    rw [hcur, List.length_append, List.length_cons]
    omega
  obtain ⟨e, he, hle, hlast, hslash⟩ := prevSlash_some hlt hat
  refine ⟨e, he, ?_, getLast?_take_succ hslash, ?_⟩
  · exact lt_of_le_of_lt (List.take_sublist ..).length_le hok.fits
  · rw [hbegan, hcur, hfront]
    refine List.prefix_iff_eq_take.mpr ?_
    rw [List.take_take, List.length_append, List.length_singleton,
      min_eq_left (by omega : front.length + 1 ≤ e + 1), List.take_append]
    simp

theorem tempAbsPath_relative {rootPath curPath dir : List Char} (hrel : ¬ rootPath <+: dir)
    (hlen : curPath.length < pathLenMax)
    (hroom : curPath.length < pathLenMax - 2 ∨ curPath.length + dir.length < pathLenMax) :
    ∃ rest, tempAbsPath rootPath curPath dir =
      some ((curPath ++ rest).take (pathLenMax - 2)) := by
  refine ⟨strncatFrom dir (((pathLenMax : ℤ) - curPath.length - 2) % 2 ^ 32).toNat, ?_⟩
  have hfits : (strncat curPath dir
      (((pathLenMax : ℤ) - curPath.length - 2) % 2 ^ 32).toNat).length < pathLenMax := by
    rw [strncat, List.length_append]
    rcases hroom with hroom | hroom
    · have hn : (((pathLenMax : ℤ) - curPath.length - 2) % 2 ^ 32).toNat =
          pathLenMax - 2 - curPath.length := by
        simp only [pathLenMax] at *
        omega
      rw [hn, strncatFrom_eq dir (by omega) (by simp only [pathLenMax] at *; omega)]
      have := List.length_take_le (pathLenMax - 2 - curPath.length) dir
      simp only [pathLenMax] at *
      omega
    · have := strncatFrom_length dir (((pathLenMax : ℤ) - curPath.length - 2) % 2 ^ 32).toNat
      omega
  rw [tempAbsPath, if_neg hrel]
  simp only [if_pos hfits]
  rfl

theorem good_cd (hroot : IsRoot root) {dir : List Char} {access : Bool}
    (hbegan : s.began = root) (hok : PathOk s) (hsafe : s.SafeCd dir access) :
    Good root (s.cd dir access) := by
  have hstay : Good root (some s) := ⟨s, rfl, hbegan, hok⟩
  have hmove {path : List Char} (hbelow : root <+: path) :
      Good root (((appendSlash (path.take (pathLenMax - 2))).map fun path =>
        (path, Dlist.OsStatus.ok)).map fun r => { s with currentPath := r.1 }) := by
    obtain ⟨path', hpath, hlen, hslash, hprefix⟩ := appendSlash_below hroot hbelow
    rw [hpath]
    exact ⟨_, rfl, hbegan, hlen, hslash, hbegan ▸ hprefix⟩
  rw [Session.cd, ftpsCd]
  rw [Session.SafeCd] at hsafe
  by_cases hdot : dir = ['.']
  · rw [if_pos hdot]
    exact hstay
  rw [if_neg hdot] at hsafe ⊢
  by_cases hparent : dir = ['.', '.']
  · rw [if_pos hparent] at hsafe ⊢
    by_cases hat : s.currentPath = s.rootPath
    · rw [if_neg (not_not.mpr hat)]
      exact hstay
    · obtain ⟨e, he, hpath⟩ := cd_parent hroot hbegan hok (hsafe.resolve_left hat)
      rw [if_pos hat, he]
      exact ⟨_, rfl, hbegan, hpath⟩
  rw [if_neg hparent] at hsafe ⊢
  by_cases habs : s.rootPath <+: dir
  · rw [if_pos habs] at hsafe
    rw [tempAbsPath, if_pos habs, Option.bind_some]
    cases access with
    | false => exact hstay
    | true =>
      rcases hsafe rfl with hbelow | ⟨hne, hslash, heq⟩
      · exact hmove (hbegan ▸ hbelow)
      · -- the root itself, its '/' left out
        obtain ⟨c, hc⟩ : ∃ c, dir.getLast? = some c := ⟨_, List.getLast?_eq_some_getLast hne⟩
        have hcslash : c ≠ '/' := by
          rintro rfl
          exact hslash hc
        have hlen : dir.length ≤ pathLenMax - 2 := by
          have hfits := hroot.fits
          rw [← hbegan, heq, List.length_append, List.length_singleton] at hfits
          omega
        rw [if_pos rfl, List.take_of_length_le hlen, appendSlash, hc]
        simp only [if_neg hcslash]
        refine ⟨_, rfl, hbegan, ?_, by simp, ?_⟩
        · rw [← heq, hbegan]
          exact hroot.fits
        · simp only [heq, List.prefix_refl]
  · rw [if_neg habs] at hsafe
    obtain ⟨rest, hrest⟩ := tempAbsPath_relative habs hok.fits hsafe
    rw [hrest, Option.bind_some]
    cases access with
    | false => exact hstay
    | true => exact hmove (hbegan ▸ hok.below.trans (List.prefix_append ..))

theorem good_exec (hroot : IsRoot root) {e : PathEvent} (hbegan : s.began = root)
    (hok : PathOk s) (hsafe : s.Safe e) : Good root (s.exec e) := by
  cases e with
  | cwd dir access => exact good_cd hroot hbegan hok hsafe
  | cdup => exact good_cd hroot hbegan hok hsafe
  | setRootPath path ready =>
    refine ⟨_, rfl, ?_⟩
    unfold Session.setRootPath
    cases path with
    | none => exact ⟨hbegan, hok⟩
    | some path =>
      cases ready with
      | false => exact ⟨hbegan, hok⟩
      | true => exact ⟨hbegan, hok.fits, hok.slash, hok.below⟩

end Steps

/-- A session that begins with a good root path keeps `current_path` below it, in its
buffer and with a '/' at its end, in every run whose steps are safe. -/
theorem current_path (root : List Char) (hroot : IsRoot root) (es : List PathEvent)
    (st : Option Session)
    (hrun : Run sessions (fun st e => ∀ s, st = some s → s.Safe e) (Session.begin root) es st) :
    Good root st := by
  apply Run.invariant (I := Good root) ?_ ?_ hrun
  · rintro st e st' ⟨s, rfl, hbegan, hok⟩ hsafe ⟨s', hs, rfl⟩
    cases hs
    exact good_exec hroot hbegan hok (hsafe s rfl)
  · rw [Session.begin, if_pos hroot.fits]
    exact ⟨_, rfl, rfl, hroot.fits, hroot.slash, List.prefix_refl root⟩

/-- CWD to a directory below the root, and CDUP back. -/
theorem current_path_cdup : Good ['/'] (some ⟨['/'], ['/'], ['/']⟩) := by
  have hroot : IsRoot ['/'] := ⟨rfl, by decide, by decide⟩
  refine current_path ['/'] hroot [.cwd ['/', 'a'] true, .cdup] _ ?_
  have hbegin : Session.begin ['/'] = some ⟨['/'], ['/'], ['/']⟩ := rfl
  have hfirst : Run sessions (fun st e => ∀ s, st = some s → s.Safe e) (Session.begin ['/'])
      [.cwd ['/', 'a'] true] (some ⟨['/'], ['/', 'a', '/'], ['/']⟩) := by
    refine .snoc .nil ?_ ⟨_, hbegin, by decide⟩
    rintro s hs
    cases hs
    exact fun _ => Or.inl (by decide)
  refine .snoc hfirst ?_ ⟨_, rfl, by decide⟩
  rintro s hs
  cases hs
  exact Or.inr (by decide)

/-- The shell sets the root to `/n1/a` before a session begins; or a session begins at `/`,
the shell sets `/n1/`, and CDUP leaves the buffer. -/
theorem current_path_lost :
    (∃ s, Session.begin ['/', 'n', '1', '/', 'a'] = some s ∧ ¬ PathOk s) ∧
      Run sessions (fun _ _ => True) (Session.begin ['/'])
        [.setRootPath (some ['/', 'n', '1', '/']) true, .cdup] none := by
  constructor
  · refine ⟨_, rfl, fun h => ?_⟩
    exact absurd h.slash (by decide)
  · have hset : Run sessions (fun _ _ => True) (Session.begin ['/'])
        [.setRootPath (some ['/', 'n', '1', '/']) true]
        (some ⟨['/', 'n', '1', '/'], ['/'], ['/']⟩) :=
      .snoc .nil trivial ⟨⟨['/'], ['/'], ['/']⟩, rfl, rfl⟩
    exact .snoc hset trivial ⟨_, rfl, by decide⟩

end DfewOS.Ftp
