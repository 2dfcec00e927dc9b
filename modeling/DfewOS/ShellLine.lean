import DfewOS.CmdTab
import DfewOS.Latest
import DfewOS.Memory

/-!
# Reading a command line

`getCmdLine` and `loadHistory` of `shell.c`. The line is edited in an array of the caller,
which has a NUL behind the line only after some keys. The lines of the history are strings in
arrays of the same size, and a pointer into the history is an index. `serial_getc` takes the
next of the bytes that come in, and `serial_tstc` says whether there is one. Without Tab, whose
completion is left out here, `have_tab` stays 0. What is echoed is left out, too.

`Editor` says what the keys are meant to do.
-/

namespace DfewOS.Shell
open Cmd (Str strcmp strcpy strlen)
open Latest (latest)

def cmdLenMax : ℕ := 1024

def historyMax : ℕ := 3

/-- `history_list` and `history_num`. -/
structure History where
  list : List Str
  num : ℕ

def History.boot : History := ⟨[], 0⟩

/-- The variables of `getCmdLine`, with the memory in which the line lies. -/
structure Edit where
  m : Memory
  i : ℕ
  p_history_index : Option ℕ

theorem nul_not_mem_nil : (0 : UInt8) ∉ ([] : List UInt8) := List.not_mem_nil

def stringAt (byte : ℕ → UInt8) : ℕ → ℕ → Option Str
  | 0, _ => none
  | size + 1, p =>
    if h : byte p = 0 then some ⟨[], nul_not_mem_nil⟩
    else (stringAt byte size (p + 1)).map fun s =>
      ⟨byte p :: s.1, List.not_mem_cons_of_ne_of_not_mem (Ne.symm h) s.2⟩

def copyTo (m : Memory) (p : ℕ) : List UInt8 → Memory
  | [] => m.store p 0
  | c :: s => copyTo (m.store p c) (p + 1) s

def dlLast (list : List Str) : Option ℕ := if list.length = 0 then none else some (list.length - 1)

def dlPrevious (k : ℕ) : Option ℕ := if k = 0 then none else some (k - 1)

def dlNext (list : List Str) (k : ℕ) : Option ℕ := if k + 1 < list.length then some (k + 1) else none

def loadHistory (m : Memory) (cmd_line old_len : ℕ) : Option Str → Memory × ℕ
  | some node => (copyTo m cmd_line node.1, strlen node)
  | none => (m, old_len)

section Keys
variable (list : List Str) (s : ℕ)

/-- `i = loadHistory (s, i, p_history_index)` -/
def Edit.load (e : Edit) (index : Option ℕ) : Edit :=
  let r := loadHistory e.m s e.i (index.bind (list[·]?))
  ⟨r.1, r.2, index⟩

def Edit.arrow (c : UInt8) (e : Edit) : Edit :=
  if c = 65 then e.load list s (match e.p_history_index with
    | none => dlLast list
    | some k => dlPrevious k)
  else if c = 66 then e.load list s (e.p_history_index.bind (dlNext list))
  else e

/-- `case '\033'` -/
def Edit.escape (e : Edit) : List UInt8 → Edit × List UInt8
  | [] => (e, [])
  | b :: input =>
    if b = 91 then
      match input with
      | [] => (e, [])
      | c :: input => (e.arrow list s c, input)
    else (e, input)

/-- One key: whether it was Enter, the variables after it, and the bytes that are left. -/
def Edit.key (e : Edit) : List UInt8 → Option (Bool × Edit × List UInt8)
  | [] => none
  | c :: input =>
    if c = 13 then some (true, { e with m := e.m.store (s + e.i) 0 }, input)
    else if c = 8 then some (false, if e.i ≥ 1 then { e with i := e.i - 1 } else e, input)
    else if c = 9 then none
    else if c = 27 then some (false, e.escape list s input)
    else some (false, { e with m := e.m.store (s + e.i) c, i := e.i + 1 }, input)

def Edit.loop : ℕ → Edit → List UInt8 → Option (Edit × List UInt8)
  | 0, _, _ => none
  | fuel + 1, e, input =>
    if e.i < cmdLenMax then
      (e.key list s input).bind fun r =>
        if r.1 then some r.2 else Edit.loop fuel r.2.1 r.2.2
    else if e.i = cmdLenMax then
      some ({ e with m := e.m.store (s + (cmdLenMax - 1)) 0, i := e.i - 1 }, input)
    else some (e, input)

end Keys

/-- `strcpy` to a node, which is new or the oldest one, and `dlist_add`. -/
def History.add (h : History) (line : Str) : Option History :=
  if h.num < historyMax then
    (strcpy cmdLenMax line).map fun node => ⟨h.list ++ [node], h.num + 1⟩
  else
    match h.list with
    | [] => none
    | _ :: list => (strcpy cmdLenMax line).map fun node => ⟨list ++ [node], h.num⟩

/-- The memory, the history, the result and the bytes that are left. -/
def getCmdLine (m : Memory) (s : ℕ) (h : History) (input : List UInt8) :
    Option (Memory × History × ℕ × List UInt8) :=
  (Edit.loop h.list s (input.length + 1) ⟨m, 0, none⟩ input).bind fun r =>
    if r.1.i ≠ 0 then
      (stringAt r.1.m.byte cmdLenMax s).bind fun line =>
        if (h.list.getLast?.all fun last => strcmp line last ≠ 0) then
          (h.add line).map fun h => (r.1.m, h, r.1.i, r.2)
        else some (r.1.m, h, r.1.i, r.2)
    else some (r.1.m, h, r.1.i, r.2)

/-! ## The editor -/

/-- A key, and the bytes it sends. Control characters do not go into the line. -/
inductive Key where
  | char (c : UInt8) (h : c ∉ [0, 8, 9, 13, 27])
  | backspace
  | up
  | down
  | enter

def Key.bytes : Key → List UInt8
  | .char c _ => [c]
  | .backspace => [8]
  | .up => [27, 91, 65]
  | .down => [27, 91, 66]
  | .enter => [13]

structure Editor where
  line : List UInt8
  selected : Option ℕ

section Editing
variable (history : List (List UInt8))

/-- An entry takes the place of the line; past an end of the history, the line stays. -/
def Editor.select (e : Editor) (k : Option ℕ) : Editor :=
  ⟨(k.bind (history[·]?)).getD e.line, k⟩

def Editor.key (e : Editor) : Key → Editor
  | .char c _ => { e with line := e.line ++ [c] }
  | .backspace => { e with line := e.line.dropLast }
  | .up => e.select history (match e.selected with
    | none => if history.length = 0 then none else some (history.length - 1)
    | some k => if k = 0 then none else some (k - 1))
  | .down => e.select history (e.selected.bind fun k =>
      if k + 1 < history.length then some (k + 1) else none)
  | .enter => e

/-- The line that is read, cut to its greatest length, and the keys that are left. The line is
complete with Enter, or when it is full. -/
def Editor.read : Editor → List Key → Option (List UInt8 × List Key)
  | _, [] => none
  | e, .enter :: keys => some (e.line, keys)
  | e, k :: keys =>
    if (e.key history k).line.length < cmdLenMax then Editor.read (e.key history k) keys
    else some ((e.key history k).line.take (cmdLenMax - 1), keys)

end Editing

/-- What the history should hold after the lines that have been read. -/
def remembered (lines : List (List UInt8)) : List (List UInt8) :=
  latest historyMax (lines.filter (· ≠ []))

end DfewOS.Shell
