import DfewOS.Dlist

/-!
# The software clock

timeLib.c: the clock keeps the time it was set to and the ticks of that moment; the time
now is calculated from both. `TIME_SOCKET` is a struct of `int`s, whose `/` and `%` round
towards zero. Ticks are `uint32`, `sysClkRateGet()` is `SYS_CLK_RATE`.
-/

namespace DfewOS
open Dlist (OsStatus)

structure TimeSocket where
  iYear : ℤ
  iMon : ℤ
  iDay : ℤ
  iHour : ℤ
  iMin : ℤ
  iSec : ℤ
  iWday : ℤ
  iYday : ℤ
  deriving DecidableEq

namespace TimeLib

def sysClkRate : ℕ := 100

def isLeapyear (iYear : ℤ) : Bool :=
  iYear.tmod 400 = 0 || (iYear.tmod 4 = 0 && iYear.tmod 100 ≠ 0)

def monthDays (iYear iMonth : ℤ) : ℤ :=
  if iMonth ∈ [1, 3, 5, 7, 8, 10, 12] then 31
  else if iMonth ∈ [4, 6, 9, 11] then 30
  else if iMonth = 2 then if isLeapyear iYear then 29 else 28
  else 0

def checkTime (t : TimeSocket) : OsStatus :=
  if t.iSec < 0 ∨ t.iSec > 59 ∨ t.iMin < 0 ∨ t.iMin > 59 ∨ t.iHour < 0 ∨ t.iHour > 23 ∨
      t.iYear < 1000 ∨ t.iYear > 9999 ∨ t.iMon < 1 ∨ t.iMon > 12 ∨
      t.iDay < 1 ∨ t.iDay > monthDays t.iYear t.iMon then .error
  else .ok

def addMonths (iYear : ℤ) : ℕ → ℤ → ℤ
  | 0, iYday => iYday
  | iMonth + 1, iYday => addMonths iYear iMonth (iYday + monthDays iYear (iMonth + 1))

def updateDayOfYear (t : TimeSocket) : TimeSocket :=
  { t with iYday := addMonths t.iYear (t.iMon - 1).toNat (t.iDay - 1) }

def updateWeekday (t : TimeSocket) : TimeSocket :=
  let t := updateDayOfYear t
  let iNewYearDay := (t.iYear + (t.iYear - 1).tdiv 400 - (t.iYear - 1).tdiv 100 +
    (t.iYear - 1).tdiv 4).tmod 7
  { t with iWday := (iNewYearDay + t.iYday).tmod 7 }

def addDay (t : TimeSocket) : TimeSocket :=
  if t.iDay < monthDays t.iYear t.iMon then { t with iDay := t.iDay + 1 }
  else if t.iMon + 1 = 13 then { t with iDay := 1, iMon := 1, iYear := t.iYear + 1 }
  else { t with iDay := 1, iMon := t.iMon + 1 }

def addDays (t : TimeSocket) (iDays : ℤ) : TimeSocket := addDay^[iDays.toNat] t

/-- A field of the time and `iCarry`, when `n` is added to the field `base`. -/
def carried (base n modulus : ℤ) : ℤ × ℤ :=
  if base + n.tmod modulus > modulus - 1 then ((base + n.tmod modulus).tmod modulus, 1)
  else (base + n.tmod modulus, 0)

/-- The time `iSeconds` behind `base`; the rest of `tsNowTime` is left as it is. -/
def calculate (base : TimeSocket) (iSeconds : ℤ) (tsNowTime : TimeSocket) : TimeSocket :=
  let sec := carried base.iSec iSeconds 60
  let iMinutes := iSeconds.tdiv 60 + sec.2
  let min := carried base.iMin iMinutes 60
  let iHours := iMinutes.tdiv 60 + min.2
  let hour := carried base.iHour iHours 24
  let iDays := iHours.tdiv 24 + hour.2
  addDays { tsNowTime with iSec := sec.1, iMin := min.1, iHour := hour.1,
                           iYear := base.iYear, iMon := base.iMon, iDay := base.iDay } iDays

structure Clock where
  base : TimeSocket
  setMomentTicks : ℕ
  deriving DecidableEq

/-- The clock when the system starts. -/
def Clock.boot : Clock := ⟨⟨1970, 1, 1, 0, 0, 0, 6, 0⟩, 0⟩

def elapsedSeconds (ticks setMomentTicks : ℕ) : ℤ :=
  ((ticks + (2 ^ 32 - setMomentTicks)) % 2 ^ 32 / sysClkRate : ℕ)

namespace Clock

def calculateNowTime (clock : Clock) (ticks : ℕ) (tsNowTime : TimeSocket) : TimeSocket :=
  calculate clock.base (elapsedSeconds ticks clock.setMomentTicks) tsNowTime

def timeSet (clock : Clock) (ticks : ℕ) (t : TimeSocket) : Clock × OsStatus :=
  match checkTime t with
  | .error => (clock, .error)
  | .ok => (⟨t, ticks⟩, .ok)

/-- `tsNowTime` is what the local variable holds before it is assigned. -/
def timeGet (clock : Clock) (ticks : ℕ) (tsNowTime : TimeSocket) : TimeSocket :=
  updateWeekday (clock.calculateNowTime ticks tsNowTime)

end Clock

inductive Field
  | year | month | day | hour | minute | second
  deriving DecidableEq

def Field.assign (v : ℤ) (t : TimeSocket) : Field → TimeSocket
  | year => { t with iYear := v }
  | month => { t with iMon := v }
  | day => { t with iDay := v }
  | hour => { t with iHour := v }
  | minute => { t with iMin := v }
  | second => { t with iSec := v }

end TimeLib

end DfewOS
