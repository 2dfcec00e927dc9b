import Mathlib.Data.Nat.Notation
import Mathlib.Logic.Function.Basic

/-!
# The calculator

`calculate` parses a string into a binary tree, evaluates the tree and frees it. An expression in
brackets is cut off in place while it is parsed. The loops and the recursion take `fuel`; nodes
are numbered in the order in which they are allocated. Each function that has a `p_expr` returns
the tree with what `*p_expr` is then. All lines that are printed are kept in the state.
-/

namespace DfewOS.Calculator

def calDataMaxLen : ℕ := 20

def isspace (c : UInt8) : Bool := c = 32 ∨ (9 ≤ c ∧ c ≤ 13)

def isdigit (c : UInt8) : Bool := '0'.toUInt8 ≤ c ∧ c ≤ '9'.toUInt8

def isData (c : UInt8) : Bool := isdigit c ∨ c = '.'.toUInt8

def isSign (c : UInt8) : Bool := c = '+'.toUInt8 ∨ c = '-'.toUInt8

def isFactor (c : UInt8) : Bool := c = '*'.toUInt8 ∨ c = '/'.toUInt8

/-- What happens to the node `id`: it is allocated or freed, or the character `pos` of its `data`
is written or is read for its value. -/
inductive Event
  | calloc (id : ℕ)
  | free (id : ℕ)
  | store (id pos : ℕ)
  | load (id pos : ℕ)
  deriving DecidableEq

inductive Tree
  | null
  | node (id : ℕ) (data : List UInt8) (pLNode pRNode : Tree)

/-- `unlegal` is the line of `calculate`, with the address of the text that it names. -/
inductive Line
  | error (string : String)
  | unlegal (stop : ℕ)

/-- The bytes of the string, the number of the next node, what has happened and what has been
printed, the last of it first; no function reads these two. -/
structure State where
  text : ℕ → UInt8
  next : ℕ
  events : List Event
  printed : List Line

namespace State

def print (line : Line) (st : State) : State := { st with printed := line :: st.printed }

def log (e : Event) (st : State) : State := { st with events := e :: st.events }

def calloc (st : State) : State := { st with next := st.next + 1, events := .calloc st.next :: st.events }

def poke (p : ℕ) (c : UInt8) (st : State) : State := { st with text := Function.update st.text p c }

def loads (id : ℕ) : ℕ → State → State
  | 0, st => st.log (.load id 0)
  | len + 1, st => (st.loads id len).log (.load id (len + 1))

end State

abbrev Result := Option (Tree × ℕ × State)

def error (string : String) (st : State) : State := st.print (.error string)

def destoryTree : Tree → State → State
  | .null, st => st
  | .node id _ pLNode pRNode, st => (destoryTree pRNode (destoryTree pLNode st)).log (.free id)

def skipBlank (text : ℕ → UInt8) : ℕ → ℕ → Option ℕ
  | 0, _ => none
  | fuel + 1, str => if isspace (text str) then skipBlank text fuel (str + 1) else some str

def dataLoop (id : ℕ) : ℕ → ℕ → List UInt8 → State → Option (ℕ × List UInt8 × State)
  | 0, _, _, _ => none
  | fuel + 1, expr, data, st =>
    let c := st.text expr
    if isData c then dataLoop id fuel (expr + 1) (data ++ [c]) (st.log (.store id data.length))
    else some (expr, data, st)

def getOperandNode (fuel expr p_expr : ℕ) (st : State) : Result :=
  (skipBlank st.text fuel expr).bind fun expr =>
    let c := st.text expr
    let id := st.next
    if c = 0 then some (.null, p_expr, st)
    else
      (if isSign c then dataLoop id fuel (expr + 1) [c] (st.calloc.log (.store id 0))
        else dataLoop id fuel expr [] st.calloc).bind fun (expr, data, st) =>
          let st := st.log (.store id data.length)
          if data.getLast?.all isSign then some (.null, p_expr, st.log (.free id))
          else some (.node id data .null .null, expr, st)

def getOperatorNode (fuel expr p_expr : ℕ) (st : State) : Result :=
  (skipBlank st.text fuel expr).map fun expr =>
    let c := st.text expr
    let id := st.next
    if c = 0 then (.null, p_expr, st)
    else (.node id [c] .null .null, expr + 1, (st.calloc.log (.store id 0)).log (.store id 1))

/-- The search for the bracket that closes; without one it ends at the NUL. -/
def closeLoop (text : ℕ → UInt8) : ℕ → ℕ → ℕ → Option (Option ℕ)
  | 0, _, _ => none
  | fuel + 1, left_bracket_num, sub_expr_end =>
    let c := text (sub_expr_end + 1)
    if c = '('.toUInt8 then closeLoop text fuel (left_bracket_num + 1) (sub_expr_end + 1)
    else if c = ')'.toUInt8 then
      if left_bracket_num ≤ 1 then some (some (sub_expr_end + 1))
      else closeLoop text fuel (left_bracket_num - 1) (sub_expr_end + 1)
    else if c = 0 then some none
    else closeLoop text fuel left_bracket_num (sub_expr_end + 1)

section Parser
variable (sub : ℕ → ℕ → State → Result) (fuel : ℕ)

def getPrim (expr p_expr : ℕ) (st : State) : Result :=
  if st.text expr = '('.toUInt8 then
    (closeLoop st.text fuel 1 expr).bind fun
      | none => some (.null, p_expr, error "unmatched brack_num" st)
      | some sub_expr_end =>
        (sub (expr + 1) expr (st.poke sub_expr_end 0)).map fun (pNode, expr, st) =>
          (pNode, expr + 1, st.poke sub_expr_end ')'.toUInt8)
  else getOperandNode fuel expr expr st

/-- The loop of `getTermTree`. Behind `pRight` blanks are not skipped: what `skipBlank`
returns there is not used. -/
def termLoop : ℕ → Tree → ℕ → State → Result
  | 0, _, _, _ => none
  | n + 1, pLeft, expr, st =>
    if isFactor (st.text expr) then
      (getOperatorNode fuel expr expr st).bind fun
        | (.null, _, _) => none
        | (.node id data _ _, expr, st) =>
          (getPrim sub fuel expr expr st).bind fun
            | (.null, expr, st) => some (.null, expr, destoryTree pLeft (st.log (.free id)))
            | (pRight, expr, st) => termLoop n (.node id data pLeft pRight) expr st
    else some (pLeft, expr, st)

def getTermTree (expr p_expr : ℕ) (st : State) : Result :=
  (getPrim sub fuel expr expr st).bind fun
    | (.null, _, st) => some (.null, p_expr, st)
    | (pLeft, expr, st) =>
      (skipBlank st.text fuel expr).bind fun expr => termLoop sub fuel fuel pLeft expr st

def exprLoop : ℕ → Tree → Tree → ℕ → State → Result
  | 0, _, _, _, _ => none
  | _ + 1, pLeft, .null, expr, st => some (pLeft, expr, st)
  | n + 1, pLeft, .node id data _ _, expr, st =>
    (getTermTree sub fuel expr expr st).bind fun
      | (.null, expr, st) => some (.null, expr, destoryTree pLeft (st.log (.free id)))
      | (pRight, expr, st) =>
        (getOperatorNode fuel expr expr st).bind fun (pOperator, expr, st) =>
          exprLoop n (.node id data pLeft pRight) pOperator expr st

end Parser

def getExprTree : ℕ → ℕ → ℕ → State → Result
  | 0, _, _, _ => none
  | fuel + 1, expr, p_expr, st =>
    (getTermTree (getExprTree fuel) (fuel + 1) expr expr st).bind fun
      | (.null, _, st) => some (.null, p_expr, st)
      | (pLeft, expr, st) =>
        (getOperatorNode (fuel + 1) expr expr st).bind fun (pOperator, expr, st) =>
          exprLoop (getExprTree fuel) (fuel + 1) (fuel + 1) pLeft pOperator expr st

structure CalType (V : Type) where
  zero : V
  atof : List UInt8 → V
  add : V → V → V
  sub : V → V → V
  mul : V → V → V
  div : V → V → V
  isZero : V → Bool

section Values
variable {V : Type} (cal : CalType V)

/-- `strlen` and `atof` read all of `data`. Of two operands in one expression of the source the
left one is taken first. -/
def calBtreeValue : Tree → State → V × State
  | .null, st => (cal.zero, st)
  | .node id data pLNode pRNode, st =>
    let st := (st.loads id data.length).log (.load id 0)
    if data.length > 1 ∨ isdigit (data.headD 0) then (cal.atof data, st.loads id data.length)
    else
      let c := data.headD 0
      let l := calBtreeValue pLNode
      let r := calBtreeValue pRNode
      if c = '+'.toUInt8 then (cal.add (l st).1 (r (l st).2).1, (r (l st).2).2)
      else if c = '-'.toUInt8 then (cal.sub (l st).1 (r (l st).2).1, (r (l st).2).2)
      else if c = '*'.toUInt8 then (cal.mul (l st).1 (r (l st).2).1, (r (l st).2).2)
      else if c = '/'.toUInt8 then
        if cal.isZero (r st).1 then (cal.zero, error "divide by 0" (r st).2)
        else (cal.div (l (r st).2).1 (r st).1, (l (r st).2).2)
      else (cal.zero, error "unknown operator!" st)

def calculate (fuel expression : ℕ) (st : State) : Option (V × State) :=
  (getExprTree fuel expression expression st).map fun
    | (.null, expression, st) => (cal.zero, st.print (.unlegal expression))
    | (pBTree, _, st) =>
      let (value, st) := calBtreeValue cal pBTree st
      (value, destoryTree pBTree st)

end Values
end DfewOS.Calculator
