import Mathlib.Algebra.Ring.Nat
import Mathlib.Data.Fintype.Basic
import Mathlib.Data.Int.Notation
import Mathlib.Logic.Function.Basic

/-!
# The I/O system

The descriptor, driver and device tables of iosLib.c and the calls of ioLib.c over
them. A driver's routine is code outside the I/O system: it maps the rest of the machine
`W` to a return value and a new `W`. An access outside a table, through a null device or
of a null routine has no result but a `Fault`.
-/

namespace DfewOS

abbrev iosMaxFileDes : ℕ := 50
abbrev iosMaxDrivers : ℕ := 50
abbrev iosError : ℤ := -1

instance : NeZero iosMaxDrivers := ⟨by decide⟩

/-- The characters of a C string, without its end. -/
abbrev IosName := List Char

inductive Fault
  | fdTable (fd : ℤ)
  | nullDevice
  | nullRoutine
  deriving DecidableEq

/-- `iosDevAdd` lets in neither an empty name nor a driver number outside the table. -/
structure DevHdr where
  ptr : ℕ
  name : IosName
  drvNum : Fin iosMaxDrivers
  name_ne_nil : name ≠ []
  deriving DecidableEq

structure FdEntry where
  drvNum : Fin iosMaxDrivers
  openData : ℤ
  inuse : Bool

/-- A routine that is given `open_data` and the other arguments of the call. -/
abbrev OpenRoutine (W : Type*) := ℤ → W → ℤ × W

structure DrvEntry (W : Type*) where
  deCreate : Option (DevHdr → IosName → ℤ → W → ℤ × W)
  deDelete : Option (DevHdr → IosName → W → ℤ × W)
  deOpen : Option (DevHdr → IosName → ℤ → ℤ → W → ℤ × W)
  deClose : Option (OpenRoutine W)
  deRead : Option (ℕ → ℤ → OpenRoutine W)
  deWrite : Option (ℕ → ℤ → OpenRoutine W)
  deIoctl : Option (ℤ → ℤ → OpenRoutine W)
  deInuse : Bool

/-- One call of a driver's routine, with the arguments it is passed. -/
inductive DrvCall
  | create (drvNum : Fin iosMaxDrivers) (dev : DevHdr) (fileName : IosName) (mode : ℤ)
  | delete (drvNum : Fin iosMaxDrivers) (dev : DevHdr) (fileName : IosName)
  | openFile (drvNum : Fin iosMaxDrivers) (dev : DevHdr) (fileName : IosName) (flags mode : ℤ)
  | close (drvNum : Fin iosMaxDrivers) (openData : ℤ)
  | read (drvNum : Fin iosMaxDrivers) (openData : ℤ) (buffer : ℕ) (maxbytes : ℤ)
  | write (drvNum : Fin iosMaxDrivers) (openData : ℤ) (buffer : ℕ) (nbytes : ℤ)
  | ioctl (drvNum : Fin iosMaxDrivers) (openData : ℤ) (cmd arg : ℤ)
  deriving DecidableEq

def DrvCall.drvNum : DrvCall → Fin iosMaxDrivers
  | create d .. | delete d .. | openFile d .. | close d .. | read d .. | write d .. | ioctl d .. => d

/-- `calls` logs the driver routines called so far. -/
structure Ios (W : Type*) where
  fdTable : Fin iosMaxFileDes → FdEntry
  drvTable : Fin iosMaxDrivers → DrvEntry W
  devList : List DevHdr
  world : W
  calls : List DrvCall

namespace Ios

variable {W : Type*} (s : Ios W)

abbrev Result (W : Type*) := Except Fault (ℤ × Ios W)

def fdSlot (fd : ℤ) : Except Fault (Fin iosMaxFileDes) :=
  if h : 0 ≤ fd ∧ fd < iosMaxFileDes then .ok ⟨fd.toNat, by omega⟩ else .error (.fdTable fd)

def called (c : DrvCall) (f : W → ℤ × W) : Ios W :=
  { s with world := (f s.world).2, calls := s.calls ++ [c] }

def invoke (c : DrvCall) : Option (W → ℤ × W) → Result W
  | none => .error .nullRoutine
  | some f => .ok ((f s.world).1, s.called c f)

def freeSlot : Option (Fin iosMaxFileDes) :=
  (List.finRange iosMaxFileDes).find? fun fd => !(s.fdTable fd).inuse

def iosAllocFd : ℤ × Ios W :=
  match s.freeSlot with
  | none => (-1, s)
  | some fd => (fd, { s with
      fdTable := Function.update s.fdTable fd { s.fdTable fd with inuse := true } })

def iosFreeFd (fd : ℤ) : Ios W :=
  match fdSlot fd with
  | .error _ => s
  | .ok fd => { s with
      fdTable := Function.update s.fdTable fd { s.fdTable fd with inuse := false } }

def iosDrvInstall (e : DrvEntry W) : ℤ × Ios W :=
  match (List.finRange iosMaxDrivers).find? fun d => !(s.drvTable d).deInuse with
  | none => (-1, s)
  | some d => (d, { s with
      drvTable := Function.update s.drvTable d { e with deInuse := true } })

/-- The loop of `iosDevMatch`: the best device so far and the length of its name. -/
def devMatchFrom (name : IosName) : List DevHdr → Option DevHdr → ℕ → Option DevHdr
  | [], best, _ => best
  | dev :: devs, best, maxLen =>
    if dev.name.isPrefixOf name ∧ maxLen < dev.name.length then
      devMatchFrom name devs (some dev) dev.name.length
    else devMatchFrom name devs best maxLen

def iosDevMatch (name : IosName) : Option DevHdr := devMatchFrom name s.devList none 0

/-- `ptr` is the address of the caller's structure; 0 and `none` are null pointers. A structure that
is in the list already becomes its end where it stands, and what was behind it is lost. The copy of
the name is assumed to be allocated. -/
def iosDevAdd (ptr : ℕ) (name : Option IosName) (drvNum : ℤ) : ℤ × Ios W :=
  if ptr = 0 then (iosError, s) else
  match name with
  | none | some [] => (iosError, s)
  | some (c :: cs) =>
    if h : 0 ≤ drvNum ∧ drvNum < iosMaxDrivers then
      if (s.drvTable ⟨drvNum.toNat, by omega⟩).deInuse = false then (iosError, s)
      else if ∃ dev ∈ s.iosDevMatch (c :: cs), dev.name = c :: cs then (iosError, s)
      else (0, { s with devList := s.devList.takeWhile (fun dev => dev.ptr ≠ ptr) ++
        [⟨ptr, c :: cs, ⟨drvNum.toNat, by omega⟩, List.cons_ne_nil c cs⟩] })
    else (iosError, s)

def iosDevFind (name : IosName) : Option (DevHdr × IosName) :=
  (s.iosDevMatch name).map fun dev => (dev, name.drop dev.name.length)

/-- The caller passes `open_data` as well, but the function has no such parameter. -/
def iosSaveDevNum (fd : ℤ) (dev : DevHdr) : Except Fault (Ios W) :=
  (fdSlot fd).map fun fd => { s with
    fdTable := Function.update s.fdTable fd { s.fdTable fd with drvNum := dev.drvNum } }

def iosCreate (dev : DevHdr) (fileName : IosName) (mode : ℤ) : Result W :=
  s.invoke (.create dev.drvNum dev fileName mode)
    ((s.drvTable dev.drvNum).deCreate.map fun f => f dev fileName mode)

def iosDelete (dev : DevHdr) (fileName : IosName) : Result W :=
  s.invoke (.delete dev.drvNum dev fileName)
    ((s.drvTable dev.drvNum).deDelete.map fun f => f dev fileName)

def iosOpen (dev : DevHdr) (fileName : IosName) (flags mode : ℤ) : Result W :=
  s.invoke (.openFile dev.drvNum dev fileName flags mode)
    ((s.drvTable dev.drvNum).deOpen.map fun f => f dev fileName flags mode)

/-- What `iosClose`, `iosRead`, `iosWrite` and `iosIoctl` share. -/
def onOpenData (fd : ℤ) (routine : DrvEntry W → Option (OpenRoutine W))
    (call : Fin iosMaxDrivers → ℤ → DrvCall) : Result W :=
  (fdSlot fd).bind fun slot =>
    let e := s.fdTable slot
    s.invoke (call e.drvNum e.openData)
      ((routine (s.drvTable e.drvNum)).map fun f => f e.openData)

def iosClose (fd : ℤ) : Result W := s.onOpenData fd DrvEntry.deClose .close

def iosRead (fd : ℤ) (buffer : ℕ) (maxbytes : ℤ) : Result W :=
  s.onOpenData fd (fun e => e.deRead.map fun f => f buffer maxbytes)
    fun drv data => .read drv data buffer maxbytes

def iosWrite (fd : ℤ) (buffer : ℕ) (nbytes : ℤ) : Result W :=
  s.onOpenData fd (fun e => e.deWrite.map fun f => f buffer nbytes)
    fun drv data => .write drv data buffer nbytes

def iosIoctl (fd : ℤ) (cmd arg : ℤ) : Result W :=
  s.onOpenData fd (fun e => e.deIoctl.map fun f => f cmd arg)
    fun drv data => .ioctl drv data cmd arg

def iosCreateOrOpen (create : Bool) (dev : DevHdr) (fileName : IosName) (flags mode : ℤ) :
    Result W :=
  if create then s.iosCreate dev fileName flags else s.iosOpen dev fileName flags mode

def ioCreateOrOpen (name : Option IosName) (flags mode : ℤ) (create : Bool) : Result W :=
  match name with
  | none | some [] => .ok (iosError, s)
  | some (c :: cs) =>
    let (fd, s) := s.iosAllocFd
    match s.iosDevFind (c :: cs) with
    | none => .error .nullDevice
    | some (dev, fileName) =>
      (s.iosCreateOrOpen create dev fileName flags mode).bind fun (openData, s) =>
        if openData = iosError then .ok (-1, s.iosFreeFd fd)
        else (s.iosSaveDevNum fd dev).map fun s => (fd, s)

def creat (name : Option IosName) (flag : ℤ) : Result W := s.ioCreateOrOpen name flag 0 true

def openFile (name : Option IosName) (flags mode : ℤ) : Result W :=
  s.ioCreateOrOpen name flags mode false

def remove (name : Option IosName) : Result W :=
  match name with
  | none | some [] => .ok (iosError, s)
  | some (c :: cs) =>
    match s.iosDevFind (c :: cs) with
    | none => .error .nullDevice
    | some (dev, fileName) => s.iosDelete dev fileName

def close (fd : ℤ) : Result W :=
  (s.iosClose fd).map fun (ret, s) => (ret, s.iosFreeFd fd)

def read (fd : ℤ) (buffer : ℕ) (maxbytes : ℤ) : Result W :=
  if maxbytes = 0 then .ok (0, s) else s.iosRead fd buffer maxbytes

def write (fd : ℤ) (buffer : ℕ) (nbytes : ℤ) : Result W := s.iosWrite fd buffer nbytes

def ioctl (fd : ℤ) (function arg : ℤ) : Result W := s.iosIoctl fd function arg

def zeroed (w : W) : Ios W where
  fdTable _ := ⟨0, 0, false⟩
  drvTable _ := ⟨none, none, none, none, none, none, none, false⟩
  devList := []
  world := w
  calls := []

def iosLibInit : Ios W := s.iosAllocFd.2.iosAllocFd.2.iosAllocFd.2

end Ios

end DfewOS
