import DfewOS.Calculator
import DfewOS.Walk
import DfewOS.Words

/-!
# Command lines of the FTP server

`_ftps_dispatch_cmd` and `_ftps_skip_opt` of `net/app/ftp.c` on a line in memory. Both move a
pointer along the line and put terminators into it. The loops take `fuel`.
-/

namespace DfewOS.Ftp
open Calculator (isspace)
open Walk (skipWhile)

def dash : UInt8 := 45

def toupper (c : UInt8) : UInt8 := if 97 ≤ c ∧ c ≤ 122 then c - 32 else c

/-- `*p && !isspace (*p)` -/
def inWord (c : UInt8) : Bool := c ≠ 0 ∧ isspace c = false

/-- `*p && *p != '\r' && *p != '\n'` -/
def inLine (c : UInt8) : Bool := c ≠ 0 ∧ c ≠ 13 ∧ c ≠ 10

def upcase : ℕ → Memory → ℕ → Option (Memory × ℕ)
  | 0, _, _ => none
  | fuel + 1, m, p =>
    if inWord (m.byte p) then upcase fuel ((m.touch p).store p (toupper (m.byte p))) (p + 1)
    else some (m.touch p, p)

/-- `if (*p) *p++ = '\0'` -/
def cut (m : Memory) (p : ℕ) : Memory × ℕ :=
  if m.byte p = 0 then (m.touch p, p) else ((m.touch p).store p 0, p + 1)

/-- Where `pcLast` and `pcBuf` are behind an option, and whether it is the word that ends them. -/
structure Behind where
  memory : Memory
  pcLast : ℕ
  pcBuf : ℕ
  breaks : Bool

def skipOption (fuel : ℕ) (m : Memory) (pcBuf : ℕ) : Option Behind :=
  let m := m.touch (pcBuf + 1)
  if m.byte (pcBuf + 1) = dash then
    let m := m.touch (pcBuf + 2)
    if isspace (m.byte (pcBuf + 2)) then
      (skipWhile isspace fuel m (pcBuf + 3)).map fun (m, next) => ⟨m, pcBuf + 2, next, true⟩
    else (skipWhile inWord fuel m (pcBuf + 2)).map fun (m, next) => ⟨m, next, next, false⟩
  else (skipWhile inWord fuel m (pcBuf + 1)).map fun (m, next) => ⟨m, next, next, false⟩

/-- The loop of `_ftps_skip_opt`: the memory, `pcBuf` and `pcLast`. -/
def skipOptLoop : ℕ → Memory → ℕ → Option ℕ → Option (Memory × ℕ × Option ℕ)
  | 0, _, _, _ => none
  | fuel + 1, m, pcBuf, pcLast =>
    (skipWhile isspace fuel m pcBuf).bind fun (m, pcBuf) =>
      if m.byte pcBuf = dash then
        (skipOption fuel (m.touch pcBuf) pcBuf).bind fun o =>
          if o.breaks then some (o.memory, o.pcBuf, some o.pcLast)
          else skipOptLoop fuel o.memory o.pcBuf (some o.pcLast)
      else some (m.touch pcBuf, pcBuf, pcLast)

def ftpsSkipOpt (fuel : ℕ) (m : Memory) (p : ℕ) : Option (Memory × ℕ) :=
  (skipOptLoop fuel m p none).map fun (m, pcBuf, pcLast) =>
    (match pcLast with
      | some last => m.store last 0
      | none => m, pcBuf)

/-- `*ppcCmd`, `*ppcOpts` and `*ppcArgs`. -/
structure Dispatched where
  memory : Memory
  cmd : ℕ
  opts : ℕ
  args : ℕ

def ftpsDispatchCmd (fuel : ℕ) (m : Memory) (pcBuffer : ℕ) : Option Dispatched :=
  (skipWhile isspace fuel m pcBuffer).bind fun (m, cmd) =>
    (upcase fuel m cmd).bind fun (m, pcEoc) =>
      let (m, pcTemp) := cut m pcEoc
      (skipWhile isspace fuel m pcTemp).bind fun (m, opts) =>
        (ftpsSkipOpt fuel m opts).bind fun (m, args) =>
          (skipWhile inLine fuel m args).map fun (m, pcTemp) =>
            ⟨(cut m pcTemp).1, cmd, if opts = args then pcEoc else opts, args⟩

end DfewOS.Ftp
