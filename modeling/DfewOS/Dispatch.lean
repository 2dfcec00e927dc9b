import DfewOS.Descriptors

/-!
# Dispatch over whole runs

The ghost `bound` holds, for each descriptor that is open, the device its name matched,
that device's driver at the time and the value the driver's routine returned. A run goes
on as long as no call ends in a fault.
-/

namespace DfewOS.Ios
open Transition (System Reachable)

variable {W : Type*}

structure Binding (W : Type*) where
  dev : DevHdr
  drv : DrvEntry W
  openData : ℤ

inductive IosCall (W : Type*)
  | drvInstall (e : DrvEntry W)
  | devAdd (ptr : ℕ) (name : Option IosName) (drvNum : ℤ)
  | createOrOpen (name : Option IosName) (flags mode : ℤ) (create : Bool)
  | remove (name : Option IosName)
  | onFd (fd : ℤ) (u : FdCall)

namespace IosCall

def creat (name : Option IosName) (flag : ℤ) : IosCall W := createOrOpen name flag 0 true

def openFile (name : Option IosName) (flags mode : ℤ) : IosCall W :=
  createOrOpen name flags mode false

def exec (s : Ios W) : IosCall W → Result W
  | drvInstall e => .ok (s.iosDrvInstall e)
  | devAdd ptr name drvNum => .ok (s.iosDevAdd ptr name drvNum)
  | createOrOpen name flags mode create => s.ioCreateOrOpen name flags mode create
  | remove name => s.remove name
  | onFd fd u => u.exec s fd

/-- What an open or creat binds its descriptor to: the device that matches, its driver,
and the value that the driver's routine returns. -/
def binding (s : Ios W) : IosCall W → Option (Binding W)
  | createOrOpen (some name) flags mode create =>
    (s.iosDevFind name).bind fun (dev, fileName) =>
      (s.openRoutine create dev fileName flags mode).map fun f =>
        ⟨dev, s.drvTable dev.drvNum, (f s.world).1⟩
  | _ => none

def bind (s : Ios W) (call : IosCall W) (ret : ℤ) (bound : ℤ → Option (Binding W)) :
    ℤ → Option (Binding W) :=
  match call with
  | createOrOpen .. => if 0 ≤ ret then Function.update bound ret (call.binding s) else bound
  | onFd fd .close => Function.update bound fd none
  | _ => bound

end IosCall

structure Files (W : Type*) where
  ios : Ios W
  bound : ℤ → Option (Binding W)

/-- Drivers and devices may be installed at any time. -/
def fileSystem (W : Type*) : System (Files W) (IosCall W) where
  init x := ∃ w, x = ⟨(zeroed w).iosLibInit, fun _ => none⟩
  step x call x' := ∃ ret, call.exec x.ios = .ok (ret, x'.ios) ∧
    x'.bound = call.bind x.ios ret x.bound

/-- The routine that the binding names is called, with the value that it holds. -/
def Dispatched (s : Ios W) (fd : ℤ) (b : Binding W) (u : FdCall) : Prop :=
  ∃ f s', u.routine b.drv = some f ∧ u.exec s fd = .ok ((f b.openData s.world).1, s') ∧
    s'.world = (f b.openData s.world).2 ∧
    s'.calls = s.calls ++ [u.call b.dev.drvNum b.openData]

namespace Files

/-- The slot of an open descriptor is used and names its driver, which is still installed;
but no slot ever holds a value. -/
structure Inv (x : Files W) : Prop where
  openData : ∀ slot, (x.ios.fdTable slot).openData = 0
  devs : ∀ dev ∈ x.ios.devList, (x.ios.drvTable dev.drvNum).deInuse = true
  bound : ∀ fd b, x.bound fd = some b → ∃ slot : Fin iosMaxFileDes, fd = slot ∧
    (x.ios.fdTable slot).inuse = true ∧ (x.ios.fdTable slot).drvNum = b.dev.drvNum ∧
    x.ios.drvTable b.dev.drvNum = b.drv ∧ b.drv.deInuse = true

theorem iosAllocFd_openData {s : Ios W} (h : ∀ slot, (s.fdTable slot).openData = 0)
    (slot : Fin iosMaxFileDes) : (s.iosAllocFd.2.fdTable slot).openData = 0 := by
  cases hslot : s.freeSlot with
  | none =>
    rw [iosAllocFd_full hslot]
    exact h slot
  | some fd =>
    rw [iosAllocFd_free hslot]
    simp only [allotted, Function.update_apply]
    split
    · exact h fd
    · exact h slot

theorem iosAllocFd_devList (s : Ios W) : s.iosAllocFd.2.devList = s.devList := by
  unfold iosAllocFd
  split <;> rfl

theorem Inv.init {x : Files W} (h : (fileSystem W).init x) : x.Inv := by
  obtain ⟨w, rfl⟩ := h
  refine ⟨?_, ?_, nofun⟩
  · exact iosAllocFd_openData (iosAllocFd_openData (iosAllocFd_openData fun _ => rfl))
  · intro dev hdev
    simp only [iosLibInit, iosAllocFd_devList] at hdev
    cases hdev

theorem Inv.tables {x x' : Files W} (h : x.Inv) (hfd : x'.ios.fdTable = x.ios.fdTable)
    (hdrv : x'.ios.drvTable = x.ios.drvTable) (hdev : x'.ios.devList = x.ios.devList)
    (hbound : x'.bound = x.bound) : x'.Inv where
  openData := by simpa only [hfd] using h.openData
  devs := by simpa only [hdrv, hdev] using h.devs
  bound := by simpa only [hfd, hdrv, hbound] using h.bound

theorem Inv.drvInstall {x : Files W} (h : x.Inv) (e : DrvEntry W) :
    Inv ⟨(x.ios.iosDrvInstall e).2, x.bound⟩ := by
  unfold iosDrvInstall
  split
  · exact h.tables rfl rfl rfl rfl
  · next d hd =>
    -- the slot is not used, so it is no driver of a device or of an open descriptor
    have hfree : (x.ios.drvTable d).deInuse = false := by simpa using List.find?_some hd
    have hother : ∀ d', (x.ios.drvTable d').deInuse = true → d' ≠ d := by
      rintro d' hd' rfl
      rw [hfree] at hd'
      cases hd'
    refine ⟨h.openData, ?_, ?_⟩
    · intro dev hdev
      have hinuse := h.devs dev hdev
      simpa only [Function.update_of_ne (hother _ hinuse)] using hinuse
    · intro fd b hb
      obtain ⟨slot, hfd, hinuse, hnum, hdrv, huse⟩ := h.bound fd b hb
      have hne := hother b.dev.drvNum (by rwa [hdrv])
      exact ⟨slot, hfd, hinuse, hnum, (Function.update_of_ne hne _ _).trans hdrv, huse⟩

theorem Inv.devAdd {x : Files W} (h : x.Inv) (ptr : ℕ) (name : Option IosName) (drvNum : ℤ) :
    Inv ⟨(x.ios.iosDevAdd ptr name drvNum).2, x.bound⟩ := by
  unfold iosDevAdd
  split
  · exact h
  · split
    · exact h
    · exact h
    · split
      · split
        · exact h
        · split
          · exact h
          · next hinuse _ =>
            refine ⟨h.openData, ?_, h.bound⟩
            intro dev hdev
            obtain hdev | hdev := List.mem_append.mp hdev
            · exact h.devs dev ((List.takeWhile_prefix _).subset hdev)
            · obtain rfl := List.mem_singleton.mp hdev
              simpa using hinuse
      · exact h

/-- An open or creat that ends without a fault fails and leaves the tables alone, or
opens a free slot. -/
theorem ioCreateOrOpen_ok {s s' : Ios W} {name : Option IosName} {flags mode ret : ℤ}
    {create : Bool} (h : s.ioCreateOrOpen name flags mode create = .ok (ret, s')) :
    (ret = -1 ∧ s'.fdTable = s.fdTable ∧ s'.drvTable = s.drvTable ∧ s'.devList = s.devList) ∨
    ∃ n dev fileName f slot, name = some n ∧ s.iosDevFind n = some (dev, fileName) ∧
      s.openRoutine create dev fileName flags mode = some f ∧ s.freeSlot = some slot ∧
      ret = slot ∧ s' = s.opened slot dev (openCall create dev fileName flags mode) f := by
  by_cases hname : name = none ∨ name = some []
  · rw [ioCreateOrOpen_nil hname] at h
    obtain ⟨rfl, rfl⟩ := Prod.mk.inj (Except.ok.inj h)
    exact .inl ⟨rfl, rfl, rfl, rfl⟩
  · obtain _ | n := name
    · exact absurd (.inl rfl) hname
    have hn : n ≠ [] := fun h => hname (.inr (congrArg some h))
    cases hfind : s.iosDevFind n with
    | none =>
      rw [ioCreateOrOpen_unmatched hn hfind] at h
      cases h
    | some r =>
      obtain ⟨dev, fileName⟩ := r
      rw [ioCreateOrOpen_matched hn hfind] at h
      cases hroutine : s.openRoutine create dev fileName flags mode with
      | none => simp [hroutine] at h
      | some f =>
        simp only [hroutine] at h
        split at h
        · obtain ⟨rfl, rfl⟩ := Prod.mk.inj (Except.ok.inj h)
          exact .inl ⟨rfl, rfl, rfl, rfl⟩
        · cases hslot : s.freeSlot with
          | none => simp [hslot] at h
          | some slot =>
            simp only [hslot] at h
            obtain ⟨rfl, rfl⟩ := Prod.mk.inj (Except.ok.inj h)
            exact .inr ⟨n, dev, fileName, f, slot, rfl, hfind, hroutine, rfl, rfl, rfl⟩

theorem Inv.createOrOpen {x : Files W} (h : x.Inv) {name : Option IosName} {flags mode ret : ℤ}
    {create : Bool} {s' : Ios W}
    (hs : x.ios.ioCreateOrOpen name flags mode create = .ok (ret, s')) :
    Inv ⟨s', (IosCall.createOrOpen name flags mode create).bind x.ios ret x.bound⟩ := by
  obtain ⟨rfl, hfd, hdrv, hdev⟩ | ⟨n, dev, fileName, f, slot, rfl, hfind, hroutine, hslot, rfl,
    rfl⟩ := ioCreateOrOpen_ok hs
  · exact h.tables hfd hdrv hdev rfl
  · have hnew : (IosCall.createOrOpen (some n) flags mode create).binding x.ios =
        some ⟨dev, x.ios.drvTable dev.drvNum, (f x.ios.world).1⟩ := by
      simp [IosCall.binding, hfind, hroutine]
    have hpos : (0 : ℤ) ≤ (slot : ℤ) := by omega
    simp only [IosCall.bind, if_pos hpos, hnew]
    refine ⟨?_, h.devs, ?_⟩
    · intro slot'
      simp only [opened, called, Function.update_apply]
      split
      · exact h.openData slot
      · exact h.openData slot'
    · intro fd b hb
      by_cases hfd : fd = slot
      · subst hfd
        simp only [Function.update_self] at hb
        obtain rfl := Option.some.inj hb
        have hmem := (iosDevMatch_some (iosDevFind_some hfind)).1
        exact ⟨slot, rfl, by simp [opened], by simp [opened], rfl, h.devs dev hmem⟩
      · simp only [Function.update_of_ne hfd] at hb
        obtain ⟨slot', rfl, hrest⟩ := h.bound fd b hb
        have hne : slot' ≠ slot := by
          rintro rfl
          exact hfd rfl
        refine ⟨slot', rfl, ?_⟩
        simpa only [opened, called, Function.update_of_ne hne] using hrest

theorem Inv.finish {x : Files W} (h : x.Inv) (u : FdCall) (fd ret : ℤ) (s : Ios W) :
    Inv ⟨u.finish fd x.ios, (IosCall.onFd fd u).bind s ret x.bound⟩ := by
  cases u with
  | close =>
    simp only [FdCall.finish, iosFreeFd, IosCall.bind]
    cases hfd : fdSlot fd with
    | error e =>
      refine ⟨h.openData, h.devs, ?_⟩
      intro fd' b hb
      by_cases hne : fd' = fd
      · simp [hne] at hb
      · simp only [Function.update_of_ne hne] at hb
        exact h.bound fd' b hb
    | ok slot =>
      obtain rfl := fdSlot_ok.mp hfd
      refine ⟨?_, h.devs, ?_⟩
      · intro slot'
        simp only [Function.update_apply]
        split
        · exact h.openData slot
        · exact h.openData slot'
      · intro fd' b hb
        by_cases hne : fd' = slot
        · simp [hne] at hb
        · simp only [Function.update_of_ne hne] at hb
          obtain ⟨slot', rfl, hrest⟩ := h.bound fd' b hb
          have hslot : slot' ≠ slot := by
            rintro rfl
            exact hne rfl
          refine ⟨slot', rfl, ?_⟩
          simpa only [Function.update_of_ne hslot] using hrest
  | _ => exact h

theorem Inv.onFd {x : Files W} (h : x.Inv) {fd ret : ℤ} {u : FdCall} {s' : Ios W}
    (hs : u.exec x.ios fd = .ok (ret, s')) :
    Inv ⟨s', (IosCall.onFd fd u).bind x.ios ret x.bound⟩ := by
  by_cases hu : u.Transfers
  · cases hfd : fdSlot fd with
    | error e =>
      rw [FdCall.exec_outside hu x.ios hfd] at hs
      cases hs
    | ok slot =>
      obtain rfl := fdSlot_ok.mp hfd
      rw [FdCall.exec_slot hu] at hs
      cases hf : u.routine (x.ios.drvTable (x.ios.fdTable slot).drvNum) with
      | none => simp [hf] at hs
      | some f =>
        simp only [hf] at hs
        obtain ⟨rfl, rfl⟩ := Prod.mk.inj (Except.ok.inj hs)
        have hcalled : Inv ⟨x.ios.called (u.call (x.ios.fdTable slot).drvNum
            (x.ios.fdTable slot).openData) (f (x.ios.fdTable slot).openData), x.bound⟩ :=
          h.tables rfl rfl rfl rfl
        exact hcalled.finish u slot _ _
  · cases u with
    | read buffer maxbytes =>
      have hzero : maxbytes = 0 := not_not.mp hu
      simp only [FdCall.exec, Ios.read, if_pos hzero] at hs
      obtain ⟨rfl, rfl⟩ := Prod.mk.inj (Except.ok.inj hs)
      exact h
    | _ => exact absurd trivial hu

theorem remove_tables {s s' : Ios W} {name : Option IosName} {ret : ℤ}
    (h : s.remove name = .ok (ret, s')) :
    s'.fdTable = s.fdTable ∧ s'.drvTable = s.drvTable ∧ s'.devList = s.devList := by
  unfold remove at h
  split at h
  · obtain ⟨rfl, rfl⟩ := Prod.mk.inj (Except.ok.inj h)
    exact ⟨rfl, rfl, rfl⟩
  · obtain ⟨rfl, rfl⟩ := Prod.mk.inj (Except.ok.inj h)
    exact ⟨rfl, rfl, rfl⟩
  · split at h
    · cases h
    · unfold iosDelete invoke at h
      split at h
      · cases h
      · obtain ⟨rfl, rfl⟩ := Prod.mk.inj (Except.ok.inj h)
        exact ⟨rfl, rfl, rfl⟩

theorem Inv.step {x x' : Files W} {call : IosCall W} (h : x.Inv)
    (hs : (fileSystem W).step x call x') : x'.Inv := by
  obtain ⟨ret, hexec, hbound⟩ := hs
  obtain ⟨s', bound'⟩ := x'
  subst hbound
  cases call with
  | drvInstall e =>
    obtain ⟨rfl, rfl⟩ := Prod.mk.inj (Except.ok.inj hexec)
    exact h.drvInstall e
  | devAdd ptr name drvNum =>
    obtain ⟨rfl, rfl⟩ := Prod.mk.inj (Except.ok.inj hexec)
    exact h.devAdd ptr name drvNum
  | createOrOpen name flags mode create => exact h.createOrOpen hexec
  | remove name =>
    obtain ⟨hfd, hdrv, hdev⟩ := remove_tables hexec
    exact h.tables hfd hdrv hdev rfl
  | onFd fd u => exact h.onFd hexec

theorem reachable_inv {x : Files W} (h : Reachable (fileSystem W) (fun _ _ => True) x) :
    x.Inv :=
  h.invariant (fun _ => Inv.init) fun _ _ _ hi _ hs => hi.step hs

theorem Inv.dispatched {x : Files W} (h : x.Inv) {fd : ℤ} {b : Binding W}
    (hb : x.bound fd = some b) {u : FdCall} (hu : u.Transfers) :
    Dispatched x.ios fd b u ↔ (u.routine b.drv).isSome ∧ b.openData = 0 := by
  obtain ⟨slot, rfl, -, hnum, hdrv, -⟩ := h.bound fd b hb
  have hexec := FdCall.exec_slot hu x.ios slot
  simp only [hnum, hdrv, h.openData slot] at hexec
  unfold Dispatched
  rw [hexec]
  cases hf : u.routine b.drv with
  | none => simp
  | some f =>
    simp only [Option.some.injEq, Except.ok.injEq, Prod.mk.injEq, Option.isSome_some, true_and]
    constructor
    · rintro ⟨f', s', rfl, ⟨-, rfl⟩, -, hcalls⟩
      rw [FdCall.finish_calls] at hcalls
      have hcall := List.append_cancel_left hcalls
      exact (u.call_inj (List.singleton_injective hcall)).symm
    · intro hzero
      refine ⟨f, _, rfl, ⟨by rw [hzero], rfl⟩, ?_, ?_⟩
      · rw [FdCall.finish_world, hzero]
        rfl
      · rw [FdCall.finish_calls, hzero]
        rfl

theorem Inv.fresh {x : Files W} (h : x.Inv) {name : Option IosName} {flags mode fd : ℤ}
    {create : Bool} {s' : Ios W}
    (hs : x.ios.ioCreateOrOpen name flags mode create = .ok (fd, s')) (hfd : 0 ≤ fd) :
    x.bound fd = none := by
  obtain ⟨rfl, -⟩ | ⟨n, dev, fileName, f, slot, -, -, -, hslot, rfl, -⟩ := ioCreateOrOpen_ok hs
  · omega
  · cases hb : x.bound slot with
    | none => rfl
    | some b =>
      obtain ⟨slot', heq, hinuse, -⟩ := h.bound _ b hb
      obtain rfl : slot = slot' := by
        apply Fin.ext
        omega
      rw [freeSlot_some hslot] at hinuse
      cases hinuse

end Files

open Files

/-- In every run without a fault: a descriptor that an open or creat returns is not open
yet, and a call on an open one is dispatched exactly if its driver has the routine and
returned 0 from its open. -/
theorem descriptor_dispatch {x : Files W} (h : Reachable (fileSystem W) (fun _ _ => True) x) :
    (∀ name flags mode create fd s', x.ios.ioCreateOrOpen name flags mode create = .ok (fd, s') →
      0 ≤ fd → x.bound fd = none) ∧
    ∀ fd b, x.bound fd = some b → ∀ u : FdCall, u.Transfers →
      (Dispatched x.ios fd b u ↔ (u.routine b.drv).isSome ∧ b.openData = 0) :=
  ⟨fun _ _ _ _ _ _ hs hfd => (reachable_inv h).fresh hs hfd,
    fun _ _ hb _ hu => (reachable_inv h).dispatched hb hu⟩

/-- The state after a list of calls none of which ends in a fault. -/
def Files.replay (x : Files W) : List (IosCall W) → Option (Files W)
  | [] => some x
  | call :: calls =>
    match call.exec x.ios with
    | .error _ => none
    | .ok (ret, s) => replay ⟨s, call.bind x.ios ret x.bound⟩ calls

theorem replay_reachable {x x' : Files W} {calls : List (IosCall W)}
    (hr : Reachable (fileSystem W) (fun _ _ => True) x) (h : x.replay calls = some x') :
    Reachable (fileSystem W) (fun _ _ => True) x' := by
  induction calls generalizing x with
  | nil =>
    obtain rfl := Option.some.inj h
    exact hr
  | cons call calls ih =>
    rw [Files.replay] at h
    split at h
    · cases h
    · next ret s hexec => exact ih (hr.step trivial ⟨ret, hexec, rfl⟩) h

def openedFile (ret : ℤ) : Option (Files Unit) :=
  Files.replay ⟨(zeroed ()).iosLibInit, fun _ => none⟩
    [.drvInstall (constDrv ret), .devAdd 8 (some ['/', 'd']) 0, .openFile (some ['/', 'd']) 0 0]

theorem openedFile_reachable {ret : ℤ} {x : Files Unit} (h : openedFile ret = some x) :
    Reachable (fileSystem Unit) (fun _ _ => True) x :=
  replay_reachable (.init ⟨(), rfl⟩) h

theorem descriptor_dispatch_zero : ∃ x b, Reachable (fileSystem Unit) (fun _ _ => True) x ∧
    x.bound 3 = some b ∧ Dispatched x.ios 3 b (.read 0 1) := by
  have hrun : (openedFile 0).map (fun x => (x.bound 3).map fun b =>
      (((FdCall.read 0 1).routine b.drv).isSome, b.openData)) = some (some (true, 0)) := rfl
  obtain ⟨x, hx, hbound⟩ := Option.map_eq_some_iff.mp hrun
  obtain ⟨b, hb, hfact⟩ := Option.map_eq_some_iff.mp hbound
  have hr := openedFile_reachable hx
  have hread : (FdCall.read 0 1).Transfers := one_ne_zero
  exact ⟨x, b, hr, hb, ((descriptor_dispatch hr).2 3 b hb _ hread).mpr (Prod.mk.inj hfact)⟩

/-- A driver that returns 7 from its open is called with 0 by the read that follows. -/
theorem opened_data_lost : ∃ x b, Reachable (fileSystem Unit) (fun _ _ => True) x ∧
    x.bound 3 = some b ∧ ¬ Dispatched x.ios 3 b (.read 0 1) := by
  have hrun : (openedFile 7).map (fun x => ((x.bound 3).map (·.openData),
      (x.ios.read 3 0 1).map fun r => r.2.calls.getLast?)) =
      some (some 7, .ok (some (.read 0 0 0 1))) := rfl
  obtain ⟨x, hx, hfact⟩ := Option.map_eq_some_iff.mp hrun
  obtain ⟨hbound, hread⟩ := Prod.mk.inj hfact
  obtain ⟨b, hb, hdata⟩ := Option.map_eq_some_iff.mp hbound
  refine ⟨x, b, openedFile_reachable hx, hb, ?_⟩
  rintro ⟨f, s', -, hexec, -, hcalls⟩
  have hlast : x.ios.read 3 0 1 = .ok ((f b.openData x.ios.world).1, s') := hexec
  simp only [hlast, Except.map, hcalls, FdCall.call, hdata, List.getLast?_append] at hread
  simp at hread

end DfewOS.Ios
