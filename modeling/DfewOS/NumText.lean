import Mathlib.Data.Int.Notation
import Mathlib.Data.Nat.Notation

/-!
# Numbers as text

`sprintf`, `_Stoul`, `atoi` and `sscanf` of `string.c`. A string is the list of its
characters without the terminating NUL; what stands behind its end reads as NUL. The
`unsigned long` of the code has 32 bits.
-/

namespace DfewOS.NumText

/-! ## sprintf -/

inductive Arg
  | word (v : BitVec 32)
  | dword (v : BitVec 64)
  | str (s : Option (List Char))

/-- What stands between `%` and the type, the type, and the format behind it. -/
structure Spec where
  zero : Bool
  long : Bool
  longLong : Bool
  w : ℕ
  type : Option Char
  rest : List Char
deriving DecidableEq, Repr

/-- `if (c == p) c = *str++;` -/
def skip (p : Char) (s : List Char) : Bool × List Char :=
  if s.head? = some p then (true, s.tail) else (false, s)

def readWidth : List Char → ℕ → ℕ × List Char
  | [], w => (w, [])
  | c :: s, w => if '0' ≤ c ∧ c ≤ '9' then readWidth s (w * 10 + (c.toNat - 48)) else (w, c :: s)

def readSpec (s : List Char) : Spec :=
  let zero := skip '0' s
  let blank := skip ' ' zero.2
  let width := readWidth blank.2 0
  let long := skip 'l' width.2
  let longLong := if long.1 then skip 'l' long.2 else (false, long.2)
  ⟨zero.1, long.1, longLong.1, width.1, longLong.2.head?, longLong.2.tail⟩

def radix (c : Char) : ℕ :=
  if c = 'd' ∨ c = 'u' then 10
  else if c = 'X' ∨ c = 'x' ∨ c = 'p' then 16
  else 0

/-- The `do`-loop that puts the digits of `val` in front of `s`, with `i` free cells. -/
def putDigits (r : ℕ) : ℕ → ℕ → List Char → List Char
  | 0, _, s => s
  | i + 1, val, s =>
      let c := val % r + 48
      let s := Char.ofNat (if 57 < c then c + 7 else c) :: s
      if val / r = 0 then s else putDigits r i (val / r) s

/-- `while (i && i > w) s[--i] = c;` -/
def pad (c : Char) (w : ℤ) : ℕ → List Char → List Char
  | 0, s => s
  | i + 1, s => if w < i + 1 then pad c w i (c :: s) else s

def numberText (r val : ℕ) (minus zero : Bool) (w : ℕ) : List Char :=
  let s := putDigits r 15 val []
  let s := if s.length < 15 ∧ minus then '-' :: s else s
  pad (if zero then '0' else ' ') (15 - w) (15 - s.length) s

/-- What one conversion does: the loop is left, a text is put out with the arguments that
remain, or the argument is not of the type that `va_arg` asks for. -/
inductive Conversion
  | leave
  | text (t : List Char) (args : List Arg)
  | illTyped

def putNumber (c : Char) (sp : Spec) (val : BitVec 32) : List Char :=
  if c = 'd' ∧ val.msb then numberText (radix c) (0 - val).toNat true sp.zero sp.w
  else numberText (radix c) val.toNat false sp.zero sp.w

def convert (sp : Spec) (args : List Arg) : Conversion :=
  match sp.type with
  | none => .leave
  | some c =>
      if c = 's' then
        match args with
        | .str s :: args => .text (s.getD []) args
        | _ => .illTyped
      else if c = 'c' then
        match args with
        | .word v :: args => .text [Char.ofNat (v.toNat % 256)] args
        | _ => .illTyped
      else if radix c = 0 then .leave
      else if sp.longLong then
        match args with
        | .dword v :: args => .text (putNumber c sp (v.setWidth 32)) args
        | _ => .illTyped
      else
        match args with
        | .word v :: args => .text (putNumber c sp v) args
        | _ => .illTyped

theorem skip_length (p : Char) (s : List Char) : (skip p s).2.length ≤ s.length := by
  unfold skip
  split
  · simp
  · exact Nat.le_refl _

theorem readWidth_length (s : List Char) (w : ℕ) : (readWidth s w).2.length ≤ s.length := by
  induction s generalizing w with
  | nil => exact Nat.le_refl _
  | cons c s ih =>
    rw [readWidth]
    split
    · exact Nat.le_succ_of_le (ih _)
    · exact Nat.le_refl _

theorem readSpec_length (s : List Char) : (readSpec s).rest.length ≤ s.length := by
  have hzero := skip_length '0' s
  have hblank := skip_length ' ' (skip '0' s).2
  have hwidth := readWidth_length (skip ' ' (skip '0' s).2).2 0
  have hlong := skip_length 'l' (readWidth (skip ' ' (skip '0' s).2).2 0).2
  have hlong' := skip_length 'l' (skip 'l' (readWidth (skip ' ' (skip '0' s).2).2 0).2).2
  simp only [readSpec]
  split <;> simp only [List.length_tail] <;> omega

def sprintfFrom (str : List Char) (args : List Arg) (buff : List Char) (res : ℕ) :
    Option (List Char × ℕ) :=
  match str with
  | [] => some (buff, res)
  | c :: str =>
      if c ≠ '%' then sprintfFrom str args (buff ++ [c]) (res + 1)
      else if str.head? = some '%' then sprintfFrom str.tail args (buff ++ ['%']) (res + 1)
      else
        match convert (readSpec str) args with
        | .leave => some (buff, res)
        | .text t args => sprintfFrom (readSpec str).rest args (buff ++ t) (res + t.length)
        | .illTyped => none
termination_by str.length
decreasing_by
  · exact Nat.lt_succ_self _
  · simp only [List.length_tail, List.length_cons]
    omega
  · exact Nat.lt_succ_of_le (readSpec_length _)

def sprintf (str : List Char) (args : List Arg) : Option (List Char × ℕ) :=
  sprintfFrom str args [] 0

/-! ## atoi -/

def digits : List Char := "0123456789abcdefghijklmnopqrstuvwxyz".toList

def ndigs : List ℕ :=
  [0, 0, 33, 21, 17, 14, 13, 12, 11, 11,
   10, 10, 9, 9, 9, 9, 9, 8, 8, 8,
   8, 8, 8, 8, 7, 7, 7, 7, 7, 7,
   7, 7, 7, 7, 7, 7, 7]

def isspace (c : Char) : Bool := c = ' ' ∨ (9 ≤ c.toNat ∧ c.toNat ≤ 13)

def tolower (c : Char) : Char :=
  if 'A' ≤ c ∧ c ≤ 'Z' then Char.ofNat (c.toNat ||| 0x20) else c

/-- `memchr(digits, tolower(c), base)` -/
def digitIn (base : ℕ) (c : Char) : Option ℕ :=
  (digits.take base).findIdx? (· == tolower c)

/-- The variables of `_Stoul` behind the loop that accumulates the digits; `count` is
`sc - s2`. -/
structure Accumulated where
  x : BitVec 32
  y : BitVec 32
  dig : BitVec 32
  count : ℕ
  rest : List Char

def accumulate (base : ℕ) : List Char → BitVec 32 → BitVec 32 → BitVec 32 → ℕ → Accumulated
  | [], x, y, dig, n => ⟨x, y, dig, n, []⟩
  | c :: sc, x, y, dig, n =>
      match digitIn base c with
      | none => ⟨x, y, dig, n, c :: sc⟩
      | some d =>
          accumulate base sc (x * BitVec.ofNat 32 base + BitVec.ofNat 32 d) x (BitVec.ofNat 32 d)
            (n + 1)

def Accumulated.overflow (a : Accumulated) (base : ℕ) : Bool :=
  let most := ndigs.getD base 0
  most < a.count ∨ (a.count = most ∧
    (a.x < a.x - a.dig ∨ (a.x - a.dig) / BitVec.ofNat 32 base ≠ a.y))

/-- The result of `_Stoul`, the text behind the number, and whether `errno` was set. -/
structure Read where
  val : BitVec 32
  endptr : List Char
  erange : Bool
deriving DecidableEq, Repr

/-- `sc[1] == 'x' || sc[1] == 'X'` -/
def hexMark (sc : List Char) : Bool :=
  sc.tail.head? = some 'x' ∨ sc.tail.head? = some 'X'

def getBase (base : ℤ) (sc : List Char) : ℕ × List Char :=
  if base ≠ 0 then
    if base = 16 ∧ sc.head? = some '0' ∧ hexMark sc then (16, sc.drop 2) else (base.toNat, sc)
  else if sc.head? ≠ some '0' then (10, sc)
  else if hexMark sc then (16, sc.drop 2)
  else (8, sc)

def readDigits (base : ℕ) (minus : Bool) (sc : List Char) : Read :=
  let a := accumulate base (sc.dropWhile (· = '0')) 0 0 0 0
  if a.rest.length = sc.length then ⟨0, a.rest, false⟩
  else
    let x := if a.overflow base then BitVec.allOnes 32 else a.x
    ⟨if minus then -x else x, a.rest, a.overflow base⟩

def stoul (s : List Char) (base : ℤ) : Read :=
  let sc := s.dropWhile isspace
  let minus : Bool := sc.head? = some '-'
  let sc := if sc.head? = some '-' ∨ sc.head? = some '+' then sc.tail else sc
  if base < 0 ∨ base = 1 ∨ 36 < base then ⟨0, sc, false⟩
  else readDigits (getBase base sc).1 minus (getBase base sc).2

def atoi (s : List Char) : BitVec 32 := (stoul s 0).val

/-- The number that is stored for the one conversion `sscanf` knows. -/
def sscanf (str fmt : List Char) : BitVec 32 :=
  if fmt = "%d".toList ∨ fmt = "0x%X".toList ∨ fmt = "0x%x".toList then atoi str else 0

end DfewOS.NumText
