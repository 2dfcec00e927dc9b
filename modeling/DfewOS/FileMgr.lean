import DfewOS.StrFilter
import DfewOS.Transition

/-!
# The filters of the file manager

`file_mgr_show`, `file_mgr_register`, `file_mgr_unregister` and `file_mgr_unregister_all` of
`gui/app/file_mgr.c` with the `STR_FILTER` nodes that they allocate and free. A pointer to a node
is the number of its allocation, so that a node in memory that was used before is another node.
`malloc` does not return if there is no memory. A call that writes behind one of the arrays of
`STR_FILTER_MAX_LEN` characters has no result.
-/

namespace DfewOS.FileMgr
open StrFilter (Filter strFilterCreate strFilterMaxLen)

structure FilterNode where
  filter : Filter
  pNext : Option ℕ

structure Heap where
  /-- The nodes in use. -/
  node : ℕ → Option FilterNode
  allocated : ℕ
  freed : List ℕ

def Heap.set (h : Heap) (p : ℕ) (x : FilterNode) : Heap :=
  { h with node := Function.update h.node p (some x) }

def Heap.calloc (h : Heap) (f : Filter) : Heap :=
  { h.set h.allocated ⟨f, none⟩ with allocated := h.allocated + 1 }

/-- The nodes of `str_filter_create`: each is allocated and filled in front of the call that makes
the node behind it. -/
def Heap.create (h : Heap) : List Filter → Heap × Option ℕ
  | [] => (h, none)
  | f :: next =>
    let r := (h.calloc f).create next
    (r.1.set h.allocated ⟨f, r.2⟩, some h.allocated)

def Heap.strFilterDelete (h : Heap) : Option ℕ → Heap
  | none => h
  | some p => { h with node := Function.update h.node p none, freed := p :: h.freed }

structure ExecNode where
  filter : List Char
  pFilter : Option ℕ
  openFunc : ℕ

structure State where
  heap : Heap
  /-- `_G.filter` -/
  filter : List Char
  execList : List ExecNode

def strcpy (filter : List Char) : Option (List Char) :=
  if filter.length < strFilterMaxLen then some filter else none

def fileMgrShow (s : State) (filter : List Char) : Option State :=
  let r := s.heap.create (strFilterCreate filter)
  (strcpy filter).map fun saved => { s with heap := r.1.strFilterDelete r.2, filter := saved }

/-- The list after the first node with `filter` got another function. -/
def replaceFunc (filter : List Char) (openFunc : ℕ) : List ExecNode → Option (List ExecNode)
  | [] => none
  | e :: es =>
    if filter = e.filter then some ({ e with openFunc := openFunc } :: es)
    else (replaceFunc filter openFunc es).map (e :: ·)

def fileMgrRegister (s : State) (filter : List Char) (openFunc : ℕ) : Option State :=
  match replaceFunc filter openFunc s.execList with
  | some execList => some { s with execList := execList }
  | none =>
    let r := s.heap.create (strFilterCreate filter)
    (strcpy filter).map fun saved =>
      { s with heap := r.1, execList := ⟨saved, r.2, openFunc⟩ :: s.execList }

/-- The first node with `filter`, and the list without it. -/
def takeExec (filter : List Char) : List ExecNode → Option (ExecNode × List ExecNode)
  | [] => none
  | e :: es => if filter = e.filter then some (e, es) else (takeExec filter es).map fun r => (r.1, e :: r.2)

def fileMgrUnregister (s : State) (filter : List Char) : State :=
  match takeExec filter s.execList with
  | none => s
  | some (e, es) => { s with heap := s.heap.strFilterDelete e.pFilter, execList := es }

def Heap.deleteAll (h : Heap) : List ExecNode → Heap
  | [] => h
  | e :: es => (h.strFilterDelete e.pFilter).deleteAll es

def fileMgrUnregisterAll (s : State) : State :=
  { s with heap := s.heap.deleteAll s.execList, execList := [] }

inductive Call
  | fileMgrShow (filter : List Char)
  | fileMgrRegister (filter : List Char) (openFunc : ℕ)
  | fileMgrUnregister (filter : List Char)
  | fileMgrUnregisterAll

def State.exec (s : State) : Call → Option State
  | .fileMgrShow filter => fileMgrShow s filter
  | .fileMgrRegister filter openFunc => fileMgrRegister s filter openFunc
  | .fileMgrUnregister filter => some (fileMgrUnregister s filter)
  | .fileMgrUnregisterAll => some (fileMgrUnregisterAll s)

def boot : State := ⟨⟨fun _ => none, 0, []⟩, [], []⟩

def fileMgr : Transition.System State Call where
  init s := s = boot
  step s c s' := s.exec c = some s'

end DfewOS.FileMgr
