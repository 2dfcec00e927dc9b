import Mathlib.Data.Nat.Notation
import Mathlib.Data.Int.Notation
import Mathlib.Data.List.Basic
import Mathlib.Logic.Function.Basic

/-!
# String filters

`str_filter_create` and `str_filter_is_compatibility` of `gui/app/file_mgr.c`. A string is
the list of its characters without the terminating NUL; the chain of `pNext` is a list.
-/

namespace DfewOS.StrFilter

def strFilterMaxLen : ℕ := 40

def nul : Char := Char.ofNat 0

/-- `STR_FILTER` without its link. -/
structure Filter where
  filterLen : ℕ
  nextChar : ℕ → Char
  failBack : ℕ → ℤ

def Filter.put (f : Filter) (pos : ℕ) (c : Char) (backTo : ℤ) : Filter :=
  { f with
    nextChar := Function.update f.nextChar pos c
    failBack := Function.update f.failBack pos backTo }

/-- The loop over `filter[i]` and the entry behind it; `false` if the arrays are full and the
loop is left. -/
def fill (f : Filter) (pos : ℕ) (backTo : ℤ) : List Char → Filter × Bool
  | [] => (f.put pos nul backTo, true)
  | c :: filter =>
      let f' := if c = '*' then f else f.put pos c backTo
      let pos' := if c = '*' then pos else pos + 1
      let backTo' := if c = '*' then (pos : ℤ) else backTo
      if pos' = strFilterMaxLen - 1 then (f'.put pos' nul backTo', false)
      else fill f' pos' backTo' filter

def Filter.blank (filterLen : ℕ) : Filter := ⟨filterLen, fun _ => nul, fun _ => 0⟩

/-- `str_filter_create`; a loop that is left stops in front of a character that is no '|'. -/
def strFilterCreate (filter : List Char) : List Filter :=
  let filterLen := (filter.takeWhile (· ≠ '|')).length
  let f := fill (.blank filterLen) 0 (-1) (filter.take filterLen)
  if f.2 ∧ filter[filterLen]? = some '|' then
    f.1 :: strFilterCreate (filter.drop (filterLen + 1))
  else [f.1]
termination_by filter.length
decreasing_by
  rename_i h
  have hlen := (List.getElem?_eq_some_iff.mp h.2).1
  rw [List.length_drop]
  omega

/-- The loop over the string; `none` if it is left for the next filter. -/
def scan (f : Filter) (pos : ℕ) : List Char → Option ℕ
  | [] => some pos
  | c :: string =>
      if c = f.nextChar pos then scan f (pos + 1) string
      else if f.failBack pos = -1 then none
      else
        let pos' := (f.failBack pos).toNat
        if c = f.nextChar pos' then scan f (pos' + 1) string else scan f pos' string

def strFilterIsCompatibility : List Filter → List Char → Bool
  | [], _ => false
  | f :: next, string =>
      if f.filterLen = 0 then true
      else
        match scan f 0 string with
        | none => strFilterIsCompatibility next string
        | some pos =>
            if f.nextChar pos = nul then true else strFilterIsCompatibility next string

end DfewOS.StrFilter
