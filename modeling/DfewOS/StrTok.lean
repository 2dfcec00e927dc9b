import DfewOS.Memory
import DfewOS.NulText

/-!
# Breaking a string into tokens

`strspn`, `strpbrk` and `strtokR` of `string.c` in a memory that logs its accesses. A
pointer is an address, and 0 is `NULL`. The two searches go through the set of separators
for each character; `ppLast` is the value of the pointer that the caller keeps.
-/

namespace DfewOS.CString

/-- Reads one character after another from `p` on, up to the first at which the search stops. -/
def seek (stop : UInt8 → Bool) : ℕ → Memory → ℕ → Option (Memory × UInt8)
  | 0, _, _ => none
  | fuel + 1, m, p =>
    if stop (m.byte p) then some (m.touch p, m.byte p) else seek stop fuel (m.touch p) (p + 1)

/-- `save` is the string itself, and `s` has not been advanced where its index is taken. -/
def strspnLoop (sep save : ℕ) : ℕ → Memory → ℕ → Option (Memory × ℕ)
  | 0, _, _ => none
  | fuel + 1, m, s =>
    let c1 := m.byte s
    if c1 = 0 then some (m.touch s, s - save)
    else (seek (fun c2 => c2 = c1 ∨ c2 = 0) fuel (m.touch s) sep).bind fun r =>
      if r.2 = c1 then strspnLoop sep save fuel r.1 (s + 1) else some (r.1, s - save)

def strspn (fuel : ℕ) (m : Memory) (s sep : ℕ) : Option (Memory × ℕ) :=
  strspnLoop sep s fuel m s

def strpbrk (s2 : ℕ) : ℕ → Memory → ℕ → Option (Memory × ℕ)
  | 0, _, _ => none
  | fuel + 1, m, s1 =>
    let c := m.byte s1
    if c = 0 then some (m.touch s1, 0)
    else (seek (fun sc => sc = 0 ∨ sc = c) fuel (m.touch s1) s2).bind fun r =>
      if r.2 = 0 then strpbrk s2 fuel r.1 (s1 + 1) else some (r.1, s1)

/-- The memory, `*ppLast` and the result after the call. -/
def strtokR (fuel : ℕ) (m : Memory) (string separators ppLast : ℕ) : Option (Memory × ℕ × ℕ) :=
  if string = 0 ∧ ppLast = 0 then some (m, ppLast, 0)
  else
    let string := if string = 0 then ppLast else string
    (strspn fuel m string separators).bind fun r =>
      let string := string + r.2
      let m := r.1.touch string
      if r.1.byte string = 0 then some (m, 0, 0)
      else (strpbrk separators fuel m string).bind fun r =>
        if r.2 = 0 then some (r.1, 0, string) else some (r.1.store r.2 0, r.2 + 1, string)

end DfewOS.CString
