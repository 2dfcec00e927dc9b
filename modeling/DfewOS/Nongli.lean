import Mathlib.Algebra.Group.Int.Defs
import Mathlib.Data.Int.Notation
import Mathlib.Data.Nat.Notation

/-!
# The lunar date

`nongli_get_date` of `nongli.c`: the year, the month, the day and whether the month is a leap one;
the texts are left out. The table has three bytes for each year from 1901 on. Reading outside of
it has no result.
-/

namespace DfewOS.Nongli

def yearCode : List ℕ := [
  0x04, 0xae, 0x53, 0x0a, 0x57, 0x48, 0x55, 0x26, 0xbd, 0x0d, 0x26, 0x50, 0x0d, 0x95, 0x44,
  0x46, 0xaa, 0xb9, 0x05, 0x6a, 0x4d, 0x09, 0xad, 0x42, 0x24, 0xae, 0xb6, 0x04, 0xae, 0x4a,
  0x6a, 0x4d, 0xbe, 0x0a, 0x4d, 0x52, 0x0d, 0x25, 0x46, 0x5d, 0x52, 0xba, 0x0b, 0x54, 0x4e,
  0x0d, 0x6a, 0x43, 0x29, 0x6d, 0x37, 0x09, 0x5b, 0x4b, 0x74, 0x9b, 0xc1, 0x04, 0x97, 0x54,
  0x0a, 0x4b, 0x48, 0x5b, 0x25, 0xbc, 0x06, 0xa5, 0x50, 0x06, 0xd4, 0x45, 0x4a, 0xda, 0xb8,
  0x02, 0xb6, 0x4d, 0x09, 0x57, 0x42, 0x24, 0x97, 0xb7, 0x04, 0x97, 0x4a, 0x66, 0x4b, 0x3e,
  0x0d, 0x4a, 0x51, 0x0e, 0xa5, 0x46, 0x56, 0xd4, 0xba, 0x05, 0xad, 0x4e, 0x02, 0xb6, 0x44,
  0x39, 0x37, 0x38, 0x09, 0x2e, 0x4b, 0x7c, 0x96, 0xbf, 0x0c, 0x95, 0x53, 0x0d, 0x4a, 0x48,
  0x6d, 0xa5, 0x3b, 0x0b, 0x55, 0x4f, 0x05, 0x6a, 0x45, 0x4a, 0xad, 0xb9, 0x02, 0x5d, 0x4d,
  0x09, 0x2d, 0x42, 0x2c, 0x95, 0xb6, 0x0a, 0x95, 0x4a, 0x7b, 0x4a, 0xbd, 0x06, 0xca, 0x51,
  0x0b, 0x55, 0x46, 0x55, 0x5a, 0xbb, 0x04, 0xda, 0x4e, 0x0a, 0x5b, 0x43, 0x35, 0x2b, 0xb8,
  0x05, 0x2b, 0x4c, 0x8a, 0x95, 0x3f, 0x0e, 0x95, 0x52, 0x06, 0xaa, 0x48, 0x7a, 0xd5, 0x3c,
  0x0a, 0xb5, 0x4f, 0x04, 0xb6, 0x45, 0x4a, 0x57, 0x39, 0x0a, 0x57, 0x4d, 0x05, 0x26, 0x42,
  0x3e, 0x93, 0x35, 0x0d, 0x95, 0x49, 0x75, 0xaa, 0xbe, 0x05, 0x6a, 0x51, 0x09, 0x6d, 0x46,
  0x54, 0xae, 0xbb, 0x04, 0xad, 0x4f, 0x0a, 0x4d, 0x43, 0x4d, 0x26, 0xb7, 0x0d, 0x25, 0x4b,
  0x8d, 0x52, 0xbf, 0x0b, 0x54, 0x52, 0x0b, 0x6a, 0x47, 0x69, 0x6d, 0x3c, 0x09, 0x5b, 0x50,
  0x04, 0x9b, 0x45, 0x4a, 0x4b, 0xb9, 0x0a, 0x4b, 0x4d, 0xab, 0x25, 0xc2, 0x06, 0xa5, 0x54,
  0x06, 0xd4, 0x49, 0x6a, 0xda, 0x3d, 0x0a, 0xb6, 0x51, 0x09, 0x37, 0x46, 0x54, 0x97, 0xbb,
  0x04, 0x97, 0x4f, 0x06, 0x4b, 0x44, 0x36, 0xa5, 0x37, 0x0e, 0xa5, 0x4a, 0x86, 0xb2, 0xbf,
  0x05, 0xac, 0x53, 0x0a, 0xb6, 0x47, 0x59, 0x36, 0xbc, 0x09, 0x2e, 0x50, 0x0c, 0x96, 0x45,
  0x4d, 0x4a, 0xb8, 0x0d, 0x4a, 0x4c, 0x0d, 0xa5, 0x41, 0x25, 0xaa, 0xb6, 0x05, 0x6a, 0x49,
  0x7a, 0xad, 0xbd, 0x02, 0x5d, 0x52, 0x09, 0x2d, 0x47, 0x5c, 0x95, 0xba, 0x0a, 0x95, 0x4e,
  0x0b, 0x4a, 0x43, 0x4b, 0x55, 0x37, 0x0a, 0xd5, 0x4a, 0x95, 0x5a, 0xbf, 0x04, 0xba, 0x53,
  0x0a, 0x5b, 0x48, 0x65, 0x2b, 0xbc, 0x05, 0x2b, 0x50, 0x0a, 0x93, 0x45, 0x47, 0x4a, 0xb9,
  0x06, 0xaa, 0x4c, 0x0a, 0xd5, 0x41, 0x24, 0xda, 0xb6, 0x04, 0xb6, 0x4a, 0x69, 0x57, 0x3d,
  0x0a, 0x4e, 0x51, 0x0d, 0x26, 0x46, 0x5e, 0x93, 0x3a, 0x0d, 0x53, 0x4d, 0x05, 0xaa, 0x43,
  0x36, 0xb5, 0x37, 0x09, 0x6d, 0x4b, 0xb4, 0xae, 0xbf, 0x04, 0xad, 0x53, 0x0a, 0x4d, 0x48,
  0x6d, 0x25, 0xbc, 0x0d, 0x25, 0x4f, 0x0d, 0x52, 0x44, 0x5d, 0xaa, 0x38, 0x0b, 0x5a, 0x4c,
  0x05, 0x6d, 0x41, 0x24, 0xad, 0xb6, 0x04, 0x9b, 0x4a, 0x7a, 0x4b, 0xbe, 0x0a, 0x4b, 0x51,
  0x0a, 0xa5, 0x46, 0x5b, 0x52, 0xba, 0x06, 0xd2, 0x4e, 0x0a, 0xda, 0x42, 0x35, 0x5b, 0x37,
  0x09, 0x37, 0x4b, 0x84, 0x97, 0xc1, 0x04, 0x97, 0x53, 0x06, 0x4b, 0x48, 0x66, 0xa5, 0x3c,
  0x0e, 0xa5, 0x4f, 0x06, 0xb2, 0x44, 0x4a, 0xb6, 0x38, 0x0a, 0xae, 0x4c, 0x09, 0x2e, 0x42,
  0x3c, 0x97, 0x35, 0x0c, 0x96, 0x49, 0x7d, 0x4a, 0xbd, 0x0d, 0x4a, 0x51, 0x0d, 0xa5, 0x45,
  0x55, 0xaa, 0xba, 0x05, 0x6a, 0x4e, 0x0a, 0x6d, 0x43, 0x45, 0x2e, 0xb7, 0x05, 0x2d, 0x4b,
  0x8a, 0x95, 0xbf, 0x0a, 0x95, 0x53, 0x0b, 0x4a, 0x47, 0x6b, 0x55, 0x3b, 0x0a, 0xd5, 0x4f,
  0x05, 0x5a, 0x45, 0x4a, 0x5d, 0x38, 0x0a, 0x5b, 0x4c, 0x05, 0x2b, 0x42, 0x3a, 0x93, 0xb6,
  0x06, 0x93, 0x49, 0x77, 0x29, 0xbd, 0x06, 0xaa, 0x51, 0x0a, 0xd5, 0x46, 0x54, 0xda, 0xba,
  0x04, 0xb6, 0x4e, 0x0a, 0x57, 0x43, 0x45, 0x27, 0x38, 0x0d, 0x26, 0x4a, 0x8e, 0x93, 0x3e,
  0x0d, 0x52, 0x52, 0x0d, 0xaa, 0x47, 0x66, 0xb5, 0x3b, 0x05, 0x6d, 0x4f, 0x04, 0xae, 0x45,
  0x4a, 0x4e, 0xb9, 0x0a, 0x4d, 0x4c, 0x0d, 0x15, 0x41, 0x2d, 0x92, 0xb5]

/-- `_G_year_code[i]` -/
def code (i : ℤ) : Option ℕ := if 0 ≤ i then yearCode[i.toNat]? else none

def daysInterval : List ℤ := [0, 31, 59, 90, 120, 151, 181, 212, 243, 273, 304, 334]

def isLeapyear (year : ℤ) : Bool :=
  year.tmod 400 = 0 ∨ (year.tmod 4 = 0 ∧ year.tmod 100 ≠ 0)

/-- `moon` is an `unsigned char` and `table_addr` an `unsigned short`. -/
def isBigMoon (moon tableAddr : ℤ) : Option Bool :=
  let moon := (moon % 2 ^ 8).toNat
  let tableAddr := tableAddr % 2 ^ 16
  if 1 ≤ moon ∧ moon ≤ 4 then (code tableAddr).map fun c => c &&& (0x10 >>> moon) ≠ 0
  else if 5 ≤ moon ∧ moon ≤ 12 then
    (code (tableAddr + 1)).map fun c => c &&& (0x100 >>> (moon - 4)) ≠ 0
  else if moon = 13 then (code (tableAddr + 2)).map fun c => c &&& 0x80 ≠ 0
  else some false

def moonDays (moon tableAddr : ℤ) : Option ℤ :=
  (isBigMoon moon tableAddr).map fun big => if big then 30 else 29

structure NongliDate where
  nian : ℤ
  yue : ℤ
  ri : ℤ
  isRun : ℤ

structure Walk where
  todayInterval : ℤ
  yue : ℤ
  isRun : ℤ
  moon : ℤ
  moonDays : ℤ

section Loops
variable (tableAddr leapMoon : ℤ)

/-- `while (today_interval >= moon_days)` -/
def forward : ℕ → Walk → Option Walk
  | 0, _ => none
  | fuel + 1, w =>
    if w.todayInterval ≥ w.moonDays then
      let isRun := if w.yue = leapMoon then 1 - w.isRun else w.isRun
      let yue := if w.yue = leapMoon then (if isRun = 0 then w.yue + 1 else w.yue) else w.yue + 1
      let moon := w.moon + 1
      (moonDays moon tableAddr).bind fun days =>
        forward fuel ⟨w.todayInterval - w.moonDays, yue, isRun, moon, days⟩
    else some w

/-- `while (today_interval > moon_days)` -/
def backward : ℕ → Walk → Option Walk
  | 0, _ => none
  | fuel + 1, w =>
    if w.todayInterval > w.moonDays then
      let yue := if w.isRun = 0 then w.yue - 1 else w.yue
      let isRun := if yue = leapMoon then 1 - w.isRun else w.isRun
      let moon := w.moon - 1
      (moonDays moon tableAddr).bind fun days =>
        backward fuel ⟨w.todayInterval - w.moonDays, yue, isRun, moon, days⟩
    else some w

end Loops

def afterChunjie (year tableAddr todayInterval : ℤ) : Option NongliDate :=
  (moonDays 1 tableAddr).bind fun days =>
  (code tableAddr).bind fun c =>
  (forward tableAddr (c >>> 4) (todayInterval.toNat + 1) ⟨todayInterval, 1, 0, 1, days⟩).map fun w =>
    ⟨year, w.yue, w.todayInterval + 1, w.isRun⟩

def beforeChunjie (year tableAddr todayInterval : ℤ) : Option NongliDate :=
  let tableAddr := tableAddr - 3
  (code tableAddr).bind fun c =>
  let leapMoon := c >>> 4
  let moon := if leapMoon ≠ 0 then 13 else 12
  (moonDays moon tableAddr).bind fun days =>
  (backward tableAddr leapMoon (todayInterval.toNat + 1) ⟨todayInterval, 12, 0, moon, days⟩).map fun w =>
    ⟨year - 1, w.yue, w.moonDays - w.todayInterval + 1, w.isRun⟩

def chunjieInterval (c : ℕ) : ℤ :=
  let chunjieMonth := (c &&& 0x60) >>> 5
  let chunjieDay : ℤ := (c &&& 0x1f : ℕ)
  chunjieDay - 1 + if chunjieMonth = 2 then 31 else 0

def todayInterval (year month day : ℤ) : Option ℤ :=
  (daysInterval[(month - 1).toNat]?).map fun days =>
    days + day - 1 + if month > 2 ∧ isLeapyear year then 1 else 0

def nongliGetDate (year month day : ℤ) (pNongli : NongliDate) : Option (ℤ × NongliDate) :=
  if year < 1901 ∨ year > 2099 ∨ month < 1 ∨ month > 12 ∨ day < 1 ∨ day > 31 then
    some (-1, pNongli)
  else
    let tableAddr := (year - 1901) * 3
    (code (tableAddr + 2)).bind fun c =>
    (todayInterval year month day).bind fun today =>
    (if today ≥ chunjieInterval c then afterChunjie year tableAddr (today - chunjieInterval c)
      else beforeChunjie year tableAddr (chunjieInterval c - today)).map fun date => (0, date)

end DfewOS.Nongli
