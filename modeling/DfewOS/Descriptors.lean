import DfewOS.Ios
import DfewOS.Transition

/-!
# Descriptors

What a call on a descriptor does is read off `onOpenData`, and what an open or creat does
off `ioCreateOrOpen_matched`: the slot, the driver of the device that matches, and the
value its routine returns.
-/

namespace DfewOS.Ios

variable {W : Type*} {s : Ios W}

theorem fdSlot_ok {fd : ℤ} {slot : Fin iosMaxFileDes} : fdSlot fd = .ok slot ↔ fd = slot := by
  unfold fdSlot
  split
  · next h =>
    simp only [Except.ok.injEq, Fin.ext_iff]
    omega
  · next h =>
    simp only [reduceCtorEq, false_iff]
    omega

@[simp] theorem fdSlot_coe (slot : Fin iosMaxFileDes) : fdSlot slot = .ok slot :=
  fdSlot_ok.mpr rfl

theorem freeSlot_some {slot : Fin iosMaxFileDes} (h : s.freeSlot = some slot) :
    (s.fdTable slot).inuse = false := by
  have := List.find?_some h
  simpa using this

theorem devMatchFrom_mem {name : IosName} {devs : List DevHdr} {best : Option DevHdr}
    {maxLen : ℕ} {dev : DevHdr} (h : devMatchFrom name devs best maxLen = some dev) :
    best = some dev ∨ dev ∈ devs ∧ dev.name <+: name := by
  induction devs generalizing best maxLen with
  | nil => exact .inl h
  | cons d devs ih =>
    simp only [devMatchFrom] at h
    split at h
    · next hd =>
      obtain hbest | ⟨hmem, hpre⟩ := ih h
      · obtain rfl := Option.some.inj hbest
        exact .inr ⟨List.mem_cons_self, List.isPrefixOf_iff_prefix.mp hd.1⟩
      · exact .inr ⟨List.mem_cons_of_mem d hmem, hpre⟩
    · obtain hbest | ⟨hmem, hpre⟩ := ih h
      · exact .inl hbest
      · exact .inr ⟨List.mem_cons_of_mem d hmem, hpre⟩

theorem iosDevMatch_some {name : IosName} {dev : DevHdr} (h : s.iosDevMatch name = some dev) :
    dev ∈ s.devList ∧ dev.name <+: name := by
  obtain hnone | hmem := devMatchFrom_mem h
  · simp at hnone
  · exact hmem

theorem devMatchFrom_isSome {name : IosName} {devs : List DevHdr} {best : Option DevHdr}
    {maxLen : ℕ} (h : best.isSome) : (devMatchFrom name devs best maxLen).isSome := by
  induction devs generalizing best maxLen with
  | nil => exact h
  | cons d devs ih =>
    simp only [devMatchFrom]
    split
    · exact ih rfl
    · exact ih h

theorem devMatchFrom_none {name : IosName} {devs : List DevHdr}
    (h : devMatchFrom name devs none 0 = none) : ∀ dev ∈ devs, ¬ dev.name <+: name := by
  induction devs with
  | nil => simp
  | cons d devs ih =>
    simp only [devMatchFrom] at h
    split at h
    · have hsome : (devMatchFrom name devs (some d) d.name.length).isSome :=
        devMatchFrom_isSome rfl
      simp [h] at hsome
    · next hd =>
      have hpos := List.length_pos_iff.mpr d.name_ne_nil
      intro dev hdev
      obtain rfl | hdev := List.mem_cons.mp hdev
      · intro hpre
        exact hd ⟨List.isPrefixOf_iff_prefix.mpr hpre, hpos⟩
      · exact ih h dev hdev

def openRoutine (s : Ios W) (create : Bool) (dev : DevHdr) (fileName : IosName)
    (flags mode : ℤ) : Option (W → ℤ × W) :=
  if create then (s.drvTable dev.drvNum).deCreate.map fun f => f dev fileName flags
  else (s.drvTable dev.drvNum).deOpen.map fun f => f dev fileName flags mode

def openCall (create : Bool) (dev : DevHdr) (fileName : IosName) (flags mode : ℤ) : DrvCall :=
  if create then .create dev.drvNum dev fileName flags
  else .openFile dev.drvNum dev fileName flags mode

theorem openCall_drvNum (create : Bool) (dev : DevHdr) (fileName : IosName) (flags mode : ℤ) :
    (openCall create dev fileName flags mode).drvNum = dev.drvNum := by
  cases create <;> rfl

theorem iosCreateOrOpen_eq (s : Ios W) (create : Bool) (dev : DevHdr) (fileName : IosName)
    (flags mode : ℤ) : s.iosCreateOrOpen create dev fileName flags mode =
      s.invoke (openCall create dev fileName flags mode)
        (s.openRoutine create dev fileName flags mode) := by
  cases create <;> rfl

/-- The tables after an open that succeeds with descriptor `slot`. -/
def opened (s : Ios W) (slot : Fin iosMaxFileDes) (dev : DevHdr) (c : DrvCall)
    (f : W → ℤ × W) : Ios W :=
  { s.called c f with
    fdTable := Function.update s.fdTable slot
      (FdEntry.mk dev.drvNum (s.fdTable slot).openData true) }

theorem iosAllocFd_full (h : s.freeSlot = none) : s.iosAllocFd = (-1, s) := by
  rw [iosAllocFd, h]

def allotted (s : Ios W) (slot : Fin iosMaxFileDes) : Ios W :=
  { s with fdTable := Function.update s.fdTable slot { s.fdTable slot with inuse := true } }

theorem iosAllocFd_free {slot : Fin iosMaxFileDes} (h : s.freeSlot = some slot) :
    s.iosAllocFd = (↑slot, s.allotted slot) := by
  rw [iosAllocFd, h]
  rfl

theorem allotted_routine (slot : Fin iosMaxFileDes) (create : Bool) (dev : DevHdr)
    (fileName : IosName) (flags mode : ℤ) :
    (s.allotted slot).openRoutine create dev fileName flags mode =
      s.openRoutine create dev fileName flags mode := rfl

theorem allotted_called_free {slot : Fin iosMaxFileDes} (h : (s.fdTable slot).inuse = false)
    (c : DrvCall) (f : W → ℤ × W) : ((s.allotted slot).called c f).iosFreeFd slot = s.called c f := by
  have hentry : ⟨(s.fdTable slot).drvNum, (s.fdTable slot).openData, false⟩ = s.fdTable slot := by
    rw [← h]
  simp only [iosFreeFd, fdSlot_coe, allotted, called, Function.update_self, Function.update_idem,
    hentry, Function.update_eq_self]

theorem allotted_called_save (slot : Fin iosMaxFileDes) (dev : DevHdr) (c : DrvCall)
    (f : W → ℤ × W) :
    ((s.allotted slot).called c f).iosSaveDevNum slot dev = .ok (s.opened slot dev c f) := by
  simp only [iosSaveDevNum, fdSlot_coe, Except.map, allotted, called, opened,
    Function.update_self, Function.update_idem]

theorem iosAllocFd_find (s : Ios W) (name : IosName) :
    s.iosAllocFd.2.iosDevFind name = s.iosDevFind name := by
  cases h : s.freeSlot with
  | none => rw [iosAllocFd_full h]
  | some slot =>
    rw [iosAllocFd_free h]
    rfl

theorem ioCreateOrOpen_unmatched {name : IosName} (hname : name ≠ [])
    (h : s.iosDevFind name = none) (flags mode : ℤ) (create : Bool) :
    s.ioCreateOrOpen (some name) flags mode create = .error .nullDevice := by
  obtain ⟨c, cs, rfl⟩ := List.exists_cons_of_ne_nil hname
  simp only [ioCreateOrOpen, iosAllocFd_find, h]

theorem ioCreateOrOpen_matched {name fileName : IosName} {dev : DevHdr} (hname : name ≠ [])
    (h : s.iosDevFind name = some (dev, fileName)) (flags mode : ℤ) (create : Bool) :
    s.ioCreateOrOpen (some name) flags mode create =
      let c := openCall create dev fileName flags mode
      match s.openRoutine create dev fileName flags mode with
      | none => .error .nullRoutine
      | some f =>
        if (f s.world).1 = iosError then .ok (-1, s.called c f)
        else match s.freeSlot with
          | none => .error (.fdTable (-1))
          | some slot => .ok (↑slot, s.opened slot dev c f) := by
  obtain ⟨c, cs, rfl⟩ := List.exists_cons_of_ne_nil hname
  simp only [ioCreateOrOpen, iosAllocFd_find, h, iosCreateOrOpen_eq]
  cases hslot : s.freeSlot with
  | none =>
    rw [iosAllocFd_full hslot]
    cases s.openRoutine create dev fileName flags mode with
    | none => rfl
    | some f =>
      simp only [invoke, Except.bind]
      split <;> rfl
  | some slot =>
    rw [iosAllocFd_free hslot, allotted_routine]
    cases s.openRoutine create dev fileName flags mode with
    | none => rfl
    | some f =>
      simp only [invoke, Except.bind]
      have hworld : (s.allotted slot).world = s.world := rfl
      rw [hworld]
      split
      · rw [allotted_called_free (freeSlot_some hslot)]
      · rw [allotted_called_save]
        rfl

/-! ## Calls on a descriptor -/

inductive FdCall
  | close
  | read (buffer : ℕ) (maxbytes : ℤ)
  | write (buffer : ℕ) (nbytes : ℤ)
  | ioctl (cmd arg : ℤ)
  deriving DecidableEq

namespace FdCall

def exec (s : Ios W) (fd : ℤ) : FdCall → Result W
  | close => s.close fd
  | read buffer maxbytes => s.read fd buffer maxbytes
  | write buffer nbytes => s.write fd buffer nbytes
  | ioctl cmd arg => s.ioctl fd cmd arg

/-- All but `read` of no bytes, which returns at once. -/
def Transfers : FdCall → Prop
  | read _ maxbytes => maxbytes ≠ 0
  | _ => True

def routine : FdCall → DrvEntry W → Option (OpenRoutine W)
  | close, e => e.deClose
  | read buffer maxbytes, e => e.deRead.map fun f => f buffer maxbytes
  | write buffer nbytes, e => e.deWrite.map fun f => f buffer nbytes
  | ioctl cmd arg, e => e.deIoctl.map fun f => f cmd arg

def call : FdCall → Fin iosMaxDrivers → ℤ → DrvCall
  | close, drv, data => .close drv data
  | read buffer maxbytes, drv, data => .read drv data buffer maxbytes
  | write buffer nbytes, drv, data => .write drv data buffer nbytes
  | ioctl cmd arg, drv, data => .ioctl drv data cmd arg

def finish (fd : ℤ) : FdCall → Ios W → Ios W
  | close, s => s.iosFreeFd fd
  | _, s => s

theorem call_inj (u : FdCall) {drv : Fin iosMaxDrivers} {data data' : ℤ}
    (h : u.call drv data = u.call drv data') : data = data' := by
  cases u <;> injection h

theorem exec_eq {u : FdCall} (hu : u.Transfers) (s : Ios W) (fd : ℤ) :
    u.exec s fd = (s.onOpenData fd u.routine u.call).map fun r => (r.1, u.finish fd r.2) := by
  have hid : ∀ r : Result W, r.map (fun r => (r.1, r.2)) = r := by
    intro r
    cases r <;> rfl
  cases u with
  | close => rfl
  | read buffer maxbytes =>
    have hne : maxbytes ≠ 0 := hu
    simp only [exec, Ios.read, if_neg hne]
    exact (hid _).symm
  | write buffer nbytes => exact (hid _).symm
  | ioctl cmd arg => exact (hid _).symm

theorem finish_calls (u : FdCall) (fd : ℤ) (s : Ios W) : (u.finish fd s).calls = s.calls := by
  cases u with
  | close =>
    simp only [finish, iosFreeFd]
    split <;> rfl
  | _ => rfl

theorem finish_world (u : FdCall) (fd : ℤ) (s : Ios W) : (u.finish fd s).world = s.world := by
  cases u with
  | close =>
    simp only [finish, iosFreeFd]
    split <;> rfl
  | _ => rfl

/-- A call on a slot of the table goes to the driver the slot names, with the slot's data. -/
theorem exec_slot {u : FdCall} (hu : u.Transfers) (s : Ios W) (slot : Fin iosMaxFileDes) :
    u.exec s slot =
      let e := s.fdTable slot
      match u.routine (s.drvTable e.drvNum) with
      | none => .error .nullRoutine
      | some f => .ok ((f e.openData s.world).1,
          u.finish slot (s.called (u.call e.drvNum e.openData) (f e.openData))) := by
  rw [exec_eq hu, onOpenData, fdSlot_coe]
  simp only [Except.bind]
  cases u.routine (s.drvTable (s.fdTable slot).drvNum) <;> rfl

theorem exec_outside {u : FdCall} (hu : u.Transfers) (s : Ios W) {fd : ℤ} {e : Fault}
    (hfd : fdSlot fd = .error e) : u.exec s fd = .error e := by
  rw [exec_eq hu, onOpenData, hfd]
  rfl

end FdCall

/-! ## Errors -/

def Full (s : Ios W) : Prop := ∀ slot, (s.fdTable slot).inuse = true

/-- The routine of the driver that matches is called and returns the error value. -/
def RoutineFails (s : Ios W) (name : Option IosName) (flags mode : ℤ) (create : Bool) : Prop :=
  ∃ n dev fileName f, name = some n ∧ s.iosDevFind n = some (dev, fileName) ∧
    s.openRoutine create dev fileName flags mode = some f ∧ (f s.world).1 = iosError

/-- The table is full, no registered name is a prefix, or the driver's routine fails. -/
def OpenFails (s : Ios W) (name : Option IosName) (flags mode : ℤ) (create : Bool) : Prop :=
  s.Full ∨ (∀ n, name = some n → ∀ dev ∈ s.devList, ¬ dev.name <+: n) ∨
    s.RoutineFails name flags mode create

/-- A negative value, no access outside a table, the descriptor table as it was, and no
call but to the driver that the name selects. -/
def CleanFailure (s : Ios W) (name : Option IosName) (r : Result W) : Prop :=
  ∃ ret s', r = .ok (ret, s') ∧ ret < 0 ∧ s'.fdTable = s.fdTable ∧
    ∃ new, s'.calls = s.calls ++ new ∧ ∀ c ∈ new, ∃ n dev, name = some n ∧
      s.iosDevMatch n = some dev ∧ dev ∈ s.devList ∧ dev.name <+: n ∧ c.drvNum = dev.drvNum

def Refused (s : Ios W) (r : Result W) : Prop :=
  ∃ ret s', r = .ok (ret, s') ∧ ret < 0 ∧ s'.calls = s.calls

def NotOpen (s : Ios W) (fd : ℤ) : Prop :=
  ∀ slot : Fin iosMaxFileDes, fd = slot → (s.fdTable slot).inuse = false

theorem ioCreateOrOpen_nil {name : Option IosName} (h : name = none ∨ name = some [])
    (flags mode : ℤ) (create : Bool) :
    s.ioCreateOrOpen name flags mode create = .ok (iosError, s) := by
  obtain rfl | rfl := h <;> rfl

theorem iosDevFind_some {name fileName : IosName} {dev : DevHdr}
    (h : s.iosDevFind name = some (dev, fileName)) : s.iosDevMatch name = some dev := by
  obtain ⟨d, hd, hpair⟩ := Option.map_eq_some_iff.mp h
  rwa [← (Prod.mk.inj hpair).1]

theorem iosDevFind_nil : s.iosDevFind [] = none := by
  cases h : s.iosDevFind [] with
  | none => rfl
  | some r =>
    have hpre := (iosDevMatch_some (iosDevFind_some h)).2
    exact absurd (List.prefix_nil.mp hpre) r.1.name_ne_nil

theorem RoutineFails.clean {name : Option IosName} {flags mode : ℤ} {create : Bool}
    (h : s.RoutineFails name flags mode create) :
    CleanFailure s name (s.ioCreateOrOpen name flags mode create) := by
  obtain ⟨n, dev, fileName, f, rfl, hfind, hroutine, herr⟩ := h
  have hn : n ≠ [] := by
    rintro rfl
    simp [iosDevFind_nil] at hfind
  have hmatch := iosDevFind_some hfind
  rw [ioCreateOrOpen_matched hn hfind]
  simp only [hroutine, herr, if_true]
  refine ⟨-1, _, rfl, by decide, rfl, _, rfl, ?_⟩
  intro c hc
  obtain rfl := List.mem_singleton.mp hc
  obtain ⟨hmem, hpre⟩ := iosDevMatch_some hmatch
  exact ⟨n, dev, rfl, hmatch, hmem, hpre, openCall_drvNum ..⟩

theorem CleanFailure.cases {name : Option IosName} {flags mode : ℤ} {create : Bool}
    (h : CleanFailure s name (s.ioCreateOrOpen name flags mode create)) :
    name = none ∨ name = some [] ∨ s.RoutineFails name flags mode create := by
  obtain ⟨ret, s', hr, hneg, -⟩ := h
  obtain _ | n := name
  · exact .inl rfl
  by_cases hn : n = []
  · exact .inr (.inl (congrArg some hn))
  cases hfind : s.iosDevFind n with
  | none =>
    rw [ioCreateOrOpen_unmatched hn hfind] at hr
    cases hr
  | some r =>
    obtain ⟨dev, fileName⟩ := r
    rw [ioCreateOrOpen_matched hn hfind] at hr
    cases hroutine : s.openRoutine create dev fileName flags mode with
    | none => simp [hroutine] at hr
    | some f =>
      by_cases herr : (f s.world).1 = iosError
      · exact .inr (.inr ⟨n, dev, fileName, f, rfl, hfind, hroutine, herr⟩)
      · -- the descriptor of a full table is -1, and of any other not negative
        simp only [hroutine, herr, if_false] at hr
        cases hslot : s.freeSlot with
        | none => simp [hslot] at hr
        | some slot =>
          simp only [hslot, Except.ok.injEq, Prod.mk.injEq] at hr
          omega

theorem FdCall.not_refused (u : FdCall) (s : Ios W) (fd : ℤ) : ¬ Refused s (u.exec s fd) := by
  rintro ⟨ret, s', hr, hneg, hcalls⟩
  by_cases hu : u.Transfers
  · cases hfd : fdSlot fd with
    | error e =>
      rw [exec_outside hu s hfd] at hr
      cases hr
    | ok slot =>
      obtain rfl := fdSlot_ok.mp hfd
      rw [exec_slot hu] at hr
      cases hf : u.routine (s.drvTable (s.fdTable slot).drvNum) with
      | none => simp [hf] at hr
      | some f =>
        simp only [hf, Except.ok.injEq, Prod.mk.injEq] at hr
        obtain ⟨-, rfl⟩ := hr
        simp [finish_calls, called] at hcalls
  · cases u with
    | read buffer maxbytes =>
      have hzero : maxbytes = 0 := not_not.mp hu
      simp only [exec, Ios.read, if_pos hzero, Except.ok.injEq, Prod.mk.injEq] at hr
      omega
    | _ => exact hu trivial

/-- An open or creat that fails does so cleanly exactly if its name is missing or the
driver's routine reports the failure; a call on a descriptor that is not open never does. -/
theorem errors_clean (s : Ios W) (name : Option IosName) (flags mode : ℤ) (create : Bool)
    (fd : ℤ) (u : FdCall) :
    (s.OpenFails name flags mode create →
      (CleanFailure s name (s.ioCreateOrOpen name flags mode create) ↔
        name = none ∨ name = some [] ∨ s.RoutineFails name flags mode create)) ∧
    (s.NotOpen fd → ¬ Refused s (u.exec s fd)) := by
  refine ⟨fun _ => ⟨CleanFailure.cases, ?_⟩, fun _ => u.not_refused s fd⟩
  rintro (h | h | h)
  · rw [ioCreateOrOpen_nil (.inl h)]
    exact ⟨-1, s, rfl, by decide, rfl, [], (List.append_nil _).symm, nofun⟩
  · rw [ioCreateOrOpen_nil (.inr h)]
    exact ⟨-1, s, rfl, by decide, rfl, [], (List.append_nil _).symm, nofun⟩
  · exact h.clean

/-- A driver all of whose routines return the same value and touch nothing. -/
def constDrv (ret : ℤ) : DrvEntry Unit where
  deCreate := some fun _ _ _ w => (ret, w)
  deDelete := some fun _ _ w => (ret, w)
  deOpen := some fun _ _ _ _ w => (ret, w)
  deClose := some fun _ w => (ret, w)
  deRead := some fun _ _ _ w => (ret, w)
  deWrite := some fun _ _ _ w => (ret, w)
  deIoctl := some fun _ _ _ w => (ret, w)
  deInuse := true

def oneDevice (ret : ℤ) (inuse : Bool) : Ios Unit where
  fdTable _ := ⟨0, 0, inuse⟩
  drvTable _ := constDrv ret
  devList := [⟨0, ['/', 'd'], 0, by decide⟩]
  world := ()
  calls := []

theorem errors_clean_driver :
    CleanFailure (oneDevice (-1) true) (some ['/', 'd'])
      ((oneDevice (-1) true).ioCreateOrOpen (some ['/', 'd']) 0 0 false) ∧
    ¬ Refused (oneDevice 0 false) (FdCall.close.exec (oneDevice 0 false) 7) :=
  ⟨((errors_clean (oneDevice (-1) true) (some ['/', 'd']) 0 0 false 7 .close).1
      (.inl fun _ => rfl)).mpr (.inr (.inr ⟨_, _, _, _, rfl, rfl, rfl, rfl⟩)),
    (errors_clean (oneDevice 0 false) none 0 0 false 7 .close).2 fun _ _ => rfl⟩

/-- A name no device matches, a full table when the driver succeeds, and a close of a
descriptor that was never opened. -/
theorem errors_not_clean :
    (oneDevice 0 false).OpenFails (some ['x']) 0 0 false ∧
    ¬ CleanFailure (oneDevice 0 false) (some ['x'])
      ((oneDevice 0 false).ioCreateOrOpen (some ['x']) 0 0 false) ∧
    (oneDevice 7 true).OpenFails (some ['/', 'd']) 0 0 false ∧
    (oneDevice 7 true).ioCreateOrOpen (some ['/', 'd']) 0 0 false = .error (.fdTable (-1)) ∧
    (oneDevice 0 false).NotOpen 7 ∧
    ((oneDevice 0 false).close 7).map (fun r => r.2.calls) = .ok [.close 0 0] := by
  refine ⟨.inr (.inl ?_), ?_, .inl fun _ => rfl, rfl, fun _ _ => rfl, rfl⟩
  · rintro n hn dev hdev
    obtain rfl := Option.some.inj hn
    obtain rfl := List.mem_singleton.mp hdev
    decide
  · rintro ⟨ret, s', hr, -⟩
    cases hr

end DfewOS.Ios
