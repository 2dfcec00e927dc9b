import DfewOS.Dispatch
import DfewOS.RunningMax
import Mathlib.Data.List.TakeWhile

/-!
# The device list

`iosDevAdd` looks for a device of the same name by `iosDevMatch`, which finds the longest name
that is a prefix. A name is the longest prefix of itself, so this finds a device of that name
exactly if there is one, and no two devices ever have one name. Two prefixes of a name that are
equally long are the same, so the device that matches is unique.
-/

namespace DfewOS.Ios
open Transition (Reachable)

variable {W : Type*} {s : Ios W} {name : IosName}

theorem devMatchFrom_eq (name : IosName) (devs : List DevHdr) (best : Option DevHdr) (maxLen : ℕ) :
    devMatchFrom name devs best maxLen =
      (RunningMax.scan (fun dev : DevHdr => dev.name.length)
        (devs.filter fun dev => dev.name.isPrefixOf name) ⟨maxLen, best⟩).place := by
  induction devs generalizing best maxLen with
  | nil => rfl
  | cons dev devs ih =>
    rw [devMatchFrom]
    by_cases hmatches : dev.name.isPrefixOf name = true
    · rw [List.filter_cons_of_pos (p := fun d : DevHdr => d.name.isPrefixOf name) hmatches,
        RunningMax.scan_cons]
      rcases Nat.lt_or_ge maxLen dev.name.length with hlt | hge
      · rw [if_pos ⟨hmatches, hlt⟩, RunningMax.take_of_lt hlt]
        exact ih _ _
      · rw [if_neg fun h => Nat.not_lt.mpr hge h.2, RunningMax.take_of_le hge]
        exact ih _ _
    · rw [List.filter_cons_of_neg (p := fun d : DevHdr => d.name.isPrefixOf name) hmatches,
        if_neg fun h => hmatches h.1]
      exact ih _ _

theorem iosDevMatch_none : s.iosDevMatch name = none ↔ ∀ dev ∈ s.devList, ¬ dev.name <+: name := by
  refine ⟨devMatchFrom_none, fun hnone => ?_⟩
  cases hmatch : s.iosDevMatch name with
  | none => rfl
  | some dev =>
    obtain ⟨hmem, hmatches⟩ := iosDevMatch_some hmatch
    exact absurd hmatches (hnone dev hmem)

theorem iosDevMatch_longest {dev : DevHdr} (h : s.iosDevMatch name = some dev) :
    ∀ d ∈ s.devList, d.name <+: name → d.name.length ≤ dev.name.length := by
  obtain ⟨hmem, hmatches⟩ := iosDevMatch_some h
  have hin : ∀ d ∈ s.devList, d.name <+: name →
      d ∈ s.devList.filter fun d => d.name.isPrefixOf name := fun d hd hpre =>
    List.mem_filter.mpr ⟨hd, List.isPrefixOf_iff_prefix.mpr hpre⟩
  have hne := List.ne_nil_of_mem (hin dev hmem hmatches)
  obtain ⟨b, -, hscan, hmax⟩ := RunningMax.scan_best (m := ⟨0, none⟩) hne
    fun d _ => List.length_pos_iff.mpr d.name_ne_nil
  rw [iosDevMatch, devMatchFrom_eq, hscan] at h
  obtain rfl := Option.some.inj h
  exact fun d hd hpre => hmax d (hin d hd hpre)

def Distinct (s : Ios W) : Prop := (s.devList.map DevHdr.name).Nodup

theorem Distinct.unique (h : s.Distinct) {d d' : DevHdr} (hd : d ∈ s.devList) (hd' : d' ∈ s.devList)
    (hname : d.name = d'.name) : d = d' :=
  List.inj_on_of_nodup_map h hd hd' hname

theorem Distinct.match_iff (h : s.Distinct) {dev : DevHdr} : s.iosDevMatch name = some dev ↔
    dev ∈ s.devList ∧ dev.name <+: name ∧
      ∀ d ∈ s.devList, d.name <+: name → d ≠ dev → d.name.length < dev.name.length := by
  constructor
  · intro hmatch
    obtain ⟨hmem, hmatches⟩ := iosDevMatch_some hmatch
    refine ⟨hmem, hmatches, fun d hd hpre hne => ?_⟩
    refine Nat.lt_of_le_of_ne (iosDevMatch_longest hmatch d hd hpre) fun hlen => hne ?_
    exact h.unique hd hmem ((List.prefix_of_prefix_length_le hpre hmatches hlen.le).eq_of_length hlen)
  · rintro ⟨hmem, hmatches, hmax⟩
    cases hmatch : s.iosDevMatch name with
    | none => exact absurd hmatches (iosDevMatch_none.mp hmatch dev hmem)
    | some d =>
      obtain ⟨hd, hpre⟩ := iosDevMatch_some hmatch
      by_contra hne
      have hlt := hmax d hd hpre fun heq => hne (congrArg some heq)
      exact Nat.not_le.mpr hlt (iosDevMatch_longest hmatch dev hmem hmatches)

theorem match_exact : (∃ dev ∈ s.iosDevMatch name, dev.name = name) ↔
    ∃ dev ∈ s.devList, dev.name = name := by
  constructor
  · rintro ⟨dev, hmatch, hname⟩
    exact ⟨dev, (iosDevMatch_some hmatch).1, hname⟩
  · rintro ⟨dev, hmem, hname⟩
    have hself : dev.name <+: name := hname ▸ List.prefix_refl _
    cases hmatch : s.iosDevMatch name with
    | none => exact absurd hself (iosDevMatch_none.mp hmatch dev hmem)
    | some d =>
      have hlong := iosDevMatch_longest hmatch dev hmem hself
      exact ⟨d, rfl, (iosDevMatch_some hmatch).2.eq_of_length_le (hname ▸ hlong)⟩

/-- A structure, a name that is not empty and the number of a driver that is installed. -/
def ValidDev (s : Ios W) (ptr : ℕ) (name : Option IosName) (drvNum : ℤ) : Prop :=
  ptr ≠ 0 ∧ (∃ n, name = some n ∧ n ≠ []) ∧
    ∃ drv : Fin iosMaxDrivers, drvNum = drv ∧ (s.drvTable drv).deInuse = true

def Named (s : Ios W) (name : Option IosName) : Prop := ∃ dev ∈ s.devList, some dev.name = name

/-- The devices in front of the structure that is registered again, or all. -/
def before (s : Ios W) (ptr : ℕ) : List DevHdr := s.devList.takeWhile fun dev => dev.ptr ≠ ptr

theorem before_eq {ptr : ℕ} (h : ptr ∉ s.devList.map DevHdr.ptr) : s.before ptr = s.devList := by
  refine List.takeWhile_eq_self_iff.mpr fun dev hdev => decide_eq_true fun heq => h ?_
  exact List.mem_map.mpr ⟨dev, hdev, heq⟩

theorem before_sublist (s : Ios W) (ptr : ℕ) : (s.before ptr).Sublist s.devList :=
  (List.takeWhile_prefix _).sublist

theorem iosDevAdd_cases (s : Ios W) (ptr : ℕ) (name : Option IosName) (drvNum : ℤ) :
    (s.iosDevAdd ptr name drvNum = (iosError, s) ∧ (¬ s.ValidDev ptr name drvNum ∨ s.Named name)) ∨
    ∃ dev : DevHdr, s.iosDevAdd ptr name drvNum = (0, { s with devList := s.before ptr ++ [dev] }) ∧
      s.ValidDev ptr name drvNum ∧ ¬ s.Named name ∧ dev.ptr = ptr ∧ name = some dev.name ∧
      drvNum = dev.drvNum := by
  rw [iosDevAdd.eq_def]
  by_cases hptr : ptr = 0
  · rw [if_pos hptr]
    exact Or.inl ⟨rfl, Or.inl fun h => h.1 hptr⟩
  rw [if_neg hptr]
  obtain _ | _ | ⟨c, cs⟩ := name
  · exact Or.inl ⟨rfl, Or.inl fun ⟨_, ⟨_, h, _⟩, _⟩ => Option.some_ne_none _ h.symm⟩
  · exact Or.inl ⟨rfl, Or.inl fun ⟨_, ⟨_, h, hne⟩, _⟩ => hne (Option.some.inj h).symm⟩
  · simp only
    split_ifs with hnum hfree hnamed
    · refine Or.inl ⟨rfl, Or.inl ?_⟩
      rintro ⟨_, _, drv, rfl, hinuse⟩
      exact absurd (hinuse.symm.trans hfree) (by decide)
    · obtain ⟨dev, hmem, hname⟩ := match_exact.mp hnamed
      exact Or.inl ⟨rfl, Or.inr ⟨dev, hmem, congrArg some hname⟩⟩
    · rw [Bool.not_eq_false] at hfree
      have hdrv : drvNum = ((⟨drvNum.toNat, by omega⟩ : Fin iosMaxDrivers) : ℕ) :=
        (Int.toNat_of_nonneg hnum.1).symm
      refine Or.inr ⟨_, rfl, ⟨hptr, ⟨_, rfl, List.cons_ne_nil c cs⟩, _, hdrv, hfree⟩, ?_, rfl, rfl, hdrv⟩
      rintro ⟨dev, hmem, hname⟩
      exact hnamed (match_exact.mpr ⟨dev, hmem, Option.some.inj hname⟩)
    · refine Or.inl ⟨rfl, Or.inl ?_⟩
      rintro ⟨_, _, drv, rfl, _⟩
      exact hnum ⟨Int.natCast_nonneg _, by exact_mod_cast drv.isLt⟩

theorem Distinct.devAdd (h : s.Distinct) (ptr : ℕ) (name : Option IosName) (drvNum : ℤ) :
    (s.iosDevAdd ptr name drvNum).2.Distinct := by
  obtain ⟨heq, -⟩ | ⟨dev, heq, -, hnew, -, rfl, -⟩ := s.iosDevAdd_cases ptr name drvNum
  · rw [heq]
    exact h
  · have hsub := s.before_sublist ptr
    rw [heq, Distinct, List.map_append]
    refine List.nodup_append.mpr ⟨h.sublist (hsub.map _), List.nodup_singleton _, ?_⟩
    intro n hn n' hn' heq
    obtain ⟨d, hd, rfl⟩ := List.mem_map.mp hn
    obtain rfl : dev.name = n' := (List.mem_singleton.mp hn').symm
    exact hnew ⟨d, hsub.mem hd, congrArg some heq⟩

theorem FdCall.exec_devList {u : FdCall} {fd ret : ℤ} {s' : Ios W} (h : u.exec s fd = .ok (ret, s')) :
    s'.devList = s.devList := by
  have hfinish : ∀ r : Ios W, (u.finish fd r).devList = r.devList := by
    intro r
    cases u with
    | close =>
      simp only [FdCall.finish, iosFreeFd]
      split <;> rfl
    | _ => rfl
  by_cases hu : u.Transfers
  · rw [FdCall.exec_eq hu, onOpenData] at h
    cases hfd : fdSlot fd with
    | error e => simp [hfd, Except.bind, Except.map] at h
    | ok slot =>
      simp only [hfd, Except.bind, invoke] at h
      cases hf : u.routine (s.drvTable (s.fdTable slot).drvNum) with
      | none => simp [hf, Except.map] at h
      | some f =>
        simp only [hf, Option.map_some, Except.map] at h
        obtain ⟨-, rfl⟩ := Prod.mk.inj (Except.ok.inj h)
        exact hfinish _
  · cases u with
    | read buffer maxbytes =>
      simp only [FdCall.exec, Ios.read, if_pos (not_not.mp hu : maxbytes = 0)] at h
      obtain ⟨-, rfl⟩ := Prod.mk.inj (Except.ok.inj h)
      rfl
    | _ => exact absurd trivial hu

theorem iosDrvInstall_devList (s : Ios W) (e : DrvEntry W) :
    (s.iosDrvInstall e).2.devList = s.devList := by
  unfold iosDrvInstall
  split <;> rfl

theorem ioCreateOrOpen_devList {s' : Ios W} {name : Option IosName} {flags mode ret : ℤ} {create : Bool}
    (h : s.ioCreateOrOpen name flags mode create = .ok (ret, s')) : s'.devList = s.devList := by
  obtain ⟨-, -, -, hdev⟩ | ⟨n, dev, fileName, f, slot, -, -, -, -, -, rfl⟩ := Files.ioCreateOrOpen_ok h
  · exact hdev
  · rfl

theorem Distinct.step {x x' : Files W} {call : IosCall W} (h : x.ios.Distinct)
    (hs : (fileSystem W).step x call x') : x'.ios.Distinct := by
  obtain ⟨ret, hexec, -⟩ := hs
  have hkeep : x'.ios.devList = x.ios.devList → x'.ios.Distinct := by
    intro heq
    rw [Distinct, heq]
    exact h
  cases call with
  | drvInstall e =>
    obtain ⟨-, heq⟩ := Prod.mk.inj (Except.ok.inj hexec)
    exact hkeep (heq ▸ x.ios.iosDrvInstall_devList e)
  | devAdd ptr name drvNum =>
    obtain ⟨-, heq⟩ := Prod.mk.inj (Except.ok.inj hexec)
    exact heq ▸ h.devAdd ptr name drvNum
  | createOrOpen name flags mode create => exact hkeep (ioCreateOrOpen_devList hexec)
  | remove name => exact hkeep (Files.remove_tables hexec).2.2
  | onFd fd u => exact hkeep (FdCall.exec_devList hexec)

theorem reachable_distinct {x : Files W} (h : Reachable (fileSystem W) (fun _ _ => True) x) :
    x.ios.Distinct := by
  refine h.invariant (I := fun x => x.ios.Distinct) (fun x hinit => ?_)
    fun _ _ _ hi _ hs => Distinct.step hi hs
  obtain ⟨w, rfl⟩ := hinit
  simp only [Distinct, iosLibInit, Files.iosAllocFd_devList, zeroed, List.map_nil, List.nodup_nil]

structure Registered (s : Ios W) : Prop where
  nonempty : ∀ dev ∈ s.devList, dev.name ≠ []
  distinct : (s.devList.map DevHdr.name).Nodup
  refused : ∀ ptr name drvNum, (s.iosDevAdd ptr name drvNum).1 = iosError ↔
    ¬ s.ValidDev ptr name drvNum ∨ s.Named name
  kept : ∀ ptr name drvNum, (s.iosDevAdd ptr name drvNum).1 = iosError →
    (s.iosDevAdd ptr name drvNum).2 = s
  added : ∀ ptr name drvNum, (s.iosDevAdd ptr name drvNum).1 ≠ iosError →
    ∃ dev : DevHdr, (s.iosDevAdd ptr name drvNum).2 = { s with devList := s.before ptr ++ [dev] } ∧
      dev.ptr = ptr ∧ some dev.name = name ∧ dev.drvNum = drvNum
  fresh : ∀ ptr, ptr ∉ s.devList.map DevHdr.ptr → s.before ptr = s.devList
  matched : ∀ name dev, s.iosDevMatch name = some dev ↔ dev ∈ s.devList ∧ dev.name <+: name ∧
    ∀ d ∈ s.devList, d.name <+: name → d ≠ dev → d.name.length < dev.name.length
  unmatched : ∀ name, s.iosDevMatch name = none ↔ ∀ dev ∈ s.devList, ¬ dev.name <+: name
  found : ∀ name dev tail, s.iosDevFind name = some (dev, tail) ↔
    s.iosDevMatch name = some dev ∧ name = dev.name ++ tail

theorem iosDevFind_iff {dev : DevHdr} {tail : IosName} : s.iosDevFind name = some (dev, tail) ↔
    s.iosDevMatch name = some dev ∧ name = dev.name ++ tail := by
  have htail : ∀ d, s.iosDevMatch name = some d → d.name ++ name.drop d.name.length = name := by
    intro d hd
    exact List.prefix_iff_eq_append.mp (iosDevMatch_some hd).2
  rw [iosDevFind, Option.map_eq_some_iff]
  constructor
  · rintro ⟨d, hd, heq⟩
    obtain ⟨rfl, rfl⟩ := Prod.mk.inj heq
    exact ⟨hd, (htail d hd).symm⟩
  · rintro ⟨hd, hname⟩
    have hrest := (htail dev hd).trans hname
    exact ⟨dev, hd, congrArg (Prod.mk dev) (List.append_cancel_left hrest)⟩

theorem Distinct.registered (h : s.Distinct) : s.Registered where
  nonempty dev _ := dev.name_ne_nil
  distinct := h
  refused ptr name drvNum := by
    obtain ⟨heq, hwhy⟩ | ⟨dev, heq, hvalid, hnew, -⟩ := s.iosDevAdd_cases ptr name drvNum
    · exact iff_of_true (congrArg Prod.fst heq) hwhy
    · rw [heq]
      refine iff_of_false (show ¬ (0 : ℤ) = iosError by decide) ?_
      rintro (hinvalid | hnamed)
      · exact hinvalid hvalid
      · exact hnew hnamed
  kept ptr name drvNum hret := by
    obtain ⟨heq, -⟩ | ⟨dev, heq, -⟩ := s.iosDevAdd_cases ptr name drvNum
    · exact congrArg Prod.snd heq
    · rw [heq] at hret
      exact absurd hret (show ¬ (0 : ℤ) = iosError by decide)
  added ptr name drvNum hret := by
    obtain ⟨heq, -⟩ | ⟨dev, heq, -, -, hptr, hname, hdrv⟩ := s.iosDevAdd_cases ptr name drvNum
    · exact absurd (congrArg Prod.fst heq) hret
    · exact ⟨dev, congrArg Prod.snd heq, hptr, hname.symm, hdrv.symm⟩
  fresh _ := before_eq
  matched _ _ := h.match_iff
  unmatched _ := iosDevMatch_none
  found _ _ _ := iosDevFind_iff

/-- In every run of the I/O system the names of the devices are distinct, and a name goes to the
device with the longest name that is a prefix of it. -/
theorem devices_registered {x : Files W} (h : Reachable (fileSystem W) (fun _ _ => True) x) :
    x.ios.Registered :=
  (reachable_distinct h).registered

def twoDevices : Option (Files Unit) :=
  Files.replay ⟨(zeroed ()).iosLibInit, fun _ => none⟩
    [.drvInstall (constDrv 0), .devAdd 8 (some ['/', 'a']) 0, .devAdd 64 (some ['/', 'a', 'b']) 0]

theorem devices_registered_two : ∃ x, twoDevices = some x ∧ x.ios.Registered ∧
    x.ios.devList.map DevHdr.name = [['/', 'a'], ['/', 'a', 'b']] := by
  have hrun : twoDevices.map (fun x => x.ios.devList.map DevHdr.name) =
      some [['/', 'a'], ['/', 'a', 'b']] := rfl
  obtain ⟨x, hx, hnames⟩ := Option.map_eq_some_iff.mp hrun
  exact ⟨x, hx, devices_registered (replay_reachable (.init ⟨(), rfl⟩) hx), hnames⟩

end DfewOS.Ios
