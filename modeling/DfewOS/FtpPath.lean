import Mathlib.Data.List.Basic
import DfewOS.Dlist
import DfewOS.Transition

/-!
# The working directory of an FTP session

`_ftps_cd` of `net/app/ftp.c` on the string in `current_path`, and the root path that the
shell may set between two commands. Strings are lists of characters without the
terminating NUL; a step that reads or writes outside one of its buffers has no result.
-/

namespace DfewOS.Ftp
open Dlist (OsStatus)

def pathLenMax : ℕ := 256

/-- The loop of `strncat`; `--n` on a `size_t` goes from 0 to its greatest value. -/
def strncatFrom : List Char → ℕ → List Char
  | [], _ => []
  | c :: append, n =>
      if (n + (2 ^ 32 - 1)) % 2 ^ 32 = 0 then [c]
      else c :: strncatFrom append ((n + (2 ^ 32 - 1)) % 2 ^ 32)

def strncat (dest append : List Char) (n : ℕ) : List Char := dest ++ strncatFrom append n

/-- `while (*--end != '/');`, from the offset `end` of `cur_path` down. -/
def prevSlash (curPath : List Char) : ℕ → Option ℕ
  | 0 => none
  | e + 1 => if curPath[e]? = some '/' then some e else prevSlash curPath e

/-- `strcpy` of `temp_abs_path` to `cur_path`, and a '/' at its end if there is none. -/
def appendSlash (path : List Char) : Option (List Char) :=
  match path.getLast? with
  | none => none
  | some c => some (if c = '/' then path else path ++ ['/'])

/-- `temp_abs_path` behind the copies, unless they leave the buffer. -/
def tempAbsPath (rootPath curPath dir : List Char) : Option (List Char) :=
  if rootPath <+: dir then some (dir.take (pathLenMax - 2))
  else
    let n : ℤ := pathLenMax - curPath.length - 2
    let path := strncat curPath dir (n % 2 ^ 32).toNat
    if path.length < pathLenMax then some (path.take (pathLenMax - 2)) else none

/-- `_ftps_cd`; `access` tells whether `yaffs_access` finds the path. -/
def ftpsCd (rootPath curPath dir : List Char) (access : Bool) :
    Option (List Char × OsStatus) :=
  if dir = ['.'] then some (curPath, .ok)
  else if dir = ['.', '.'] then
    if curPath ≠ rootPath then
      (prevSlash curPath (curPath.length - 1)).map fun e => (curPath.take (e + 1), .ok)
    else some (curPath, .error)
  else
    (tempAbsPath rootPath curPath dir).bind fun path =>
      if access then (appendSlash path).map fun path => (path, .ok)
      else some (curPath, .error)

/-- A session: `_G_root_path`, `current_path`, and the root path that was in force when
the session began, which nothing reads. -/
structure Session where
  rootPath : List Char
  currentPath : List Char
  began : List Char
deriving DecidableEq, Repr

/-- `strcpy (pNewSession->current_path, _G_root_path)` -/
def Session.begin (rootPath : List Char) : Option Session :=
  if rootPath.length < pathLenMax then some ⟨rootPath, rootPath, rootPath⟩ else none

/-- What happens between the begin and the end of a session. -/
inductive PathEvent
  | cwd (dir : List Char) (access : Bool)
  | cdup
  /-- The shell's `ftps_set_root_path`; `ready` if the path opens and `malloc` succeeds. -/
  | setRootPath (path : Option (List Char)) (ready : Bool)
deriving DecidableEq, Repr

def Session.cd (s : Session) (dir : List Char) (access : Bool) : Option Session :=
  (ftpsCd s.rootPath s.currentPath dir access).map fun r => { s with currentPath := r.1 }

def Session.setRootPath (s : Session) (path : Option (List Char)) (ready : Bool) : Session :=
  match path with
  | none => s
  | some path => if ready then { s with rootPath := path } else s

def Session.exec (s : Session) : PathEvent → Option Session
  | .cwd dir access => s.cd dir access
  | .cdup => s.cd ['.', '.'] false
  | .setRootPath path ready => some (s.setRootPath path ready)

/-- Sessions as long as no step has left its buffers; `none` is the state behind such a step. -/
def sessions : Transition.System (Option Session) PathEvent where
  init st := ∃ rootPath, st = Session.begin rootPath
  step st e st' := ∃ s, st = some s ∧ st' = s.exec e

end DfewOS.Ftp
