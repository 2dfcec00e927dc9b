import DfewOS.Dlist

/-!
# Milliseconds and ticks in the network layer

`sys_arch_sem_wait`, `sys_arch_mbox_fetch` and `sys_arch_msleep` of `lwip/sys_arch.c`. The two
waits are the same up to the message, so that one definition stands for both. The answer of the
kernel and the two readings of the tick counter are arguments. Products are formed in 32 bits
before they are divided.
-/

namespace DfewOS.SysArch
open Dlist (OsStatus)

variable {σ μ : Type*}

def sysClkRate : UInt32 := 100

def waitForever : UInt32 := 0xffffffff

def uint32Max : UInt32 := 0xffffffff

def sysArchTimeout : UInt32 := 0xffffffff

structure Waited (σ : Type*) where
  /-- The call of the kernel: what is waited for, and for how many ticks at most. -/
  call : Option (σ × UInt32)
  result : UInt32

def timeoutTicks (timeoutMs : UInt32) : UInt32 :=
  let timeoutTicks := timeoutMs * sysClkRate / 1000
  if timeoutMs = 0 then waitForever
  else if 1 > timeoutTicks then 1 else timeoutTicks  -- `MAX(1, timeout_ticks)`

def elapsedMs (oldTick newTick : UInt32) : UInt32 :=
  let newTick := if newTick ≥ oldTick then newTick - oldTick else uint32Max - oldTick + newTick
  newTick * 1000 / sysClkRate

def timedWait (handle : Option σ) (timeoutMs oldTick newTick : UInt32) (status : OsStatus) :
    Waited σ :=
  match handle with
  | none => ⟨none, sysArchTimeout⟩
  | some handle =>
    if status = .error then ⟨some (handle, timeoutTicks timeoutMs), sysArchTimeout⟩
    else ⟨some (handle, timeoutTicks timeoutMs), elapsedMs oldTick newTick⟩

/-- `status` is what `semC_take` answers. -/
def sysArchSemWait (psem : Option σ) (timeoutMs oldTick newTick : UInt32) (status : OsStatus) :
    Waited σ :=
  timedWait psem timeoutMs oldTick newTick status

/-- `msgQ_receive` answers `status` and leaves `pvMsg`, which goes to `*msg` if that is given. -/
def sysArchMboxFetch (pmbox : Option σ) (msg : Bool) (timeoutMs oldTick newTick : UInt32)
    (status : OsStatus) (pvMsg : μ) : Waited σ × Option μ :=
  (timedWait pmbox timeoutMs oldTick newTick status,
    if pmbox.isSome ∧ status ≠ .error ∧ msg then some pvMsg else none)

def sysArchMsleep (ms : UInt32) : UInt32 :=
  let ticks := ms * sysClkRate / 1000
  if ticks = 0 then 1 else ticks

def ticksOf (ms : ℕ) : ℕ := max 1 (ms * 100 / 1000)

/-- The ticks between two readings of the counter, which wraps. -/
def elapsed (oldTick newTick : UInt32) : ℕ :=
  (newTick.toNat + 2 ^ 32 - oldTick.toNat) % 2 ^ 32

structure Timed (handle : σ) (timeoutMs oldTick newTick : UInt32) (status : OsStatus)
    (w : Waited σ) : Prop where
  waits : ∃ ticks, w.call = some (handle, ticks) ∧
    ticks.toNat = if timeoutMs = 0 then waitForever.toNat else ticksOf timeoutMs.toNat
  result : status = .ok → elapsed oldTick newTick * 1000 / 100 < 2 ^ 32 →
    w.result.toNat = elapsed oldTick newTick * 1000 / 100

/-- No product leaves the 32 bits, and the counter has not wrapped. -/
structure Narrow (timeoutMs oldTick newTick : UInt32) (status : OsStatus) : Prop where
  timeout : timeoutMs.toNat * 100 < 2 ^ 32
  elapsed : status = .ok → 2 ^ 32 ≤ elapsed oldTick newTick * 10 ∨
    oldTick ≤ newTick ∧ elapsed oldTick newTick * 1000 < 2 ^ 32

variable {ms timeoutMs oldTick newTick : UInt32} {status : OsStatus} {handle : σ}

theorem product_div : (ms * sysClkRate / 1000).toNat = ms.toNat * 100 % 2 ^ 32 / 1000 := by
  rw [UInt32.toNat_div, UInt32.toNat_mul]
  rfl

theorem ticksOf_iff {n : ℕ} :
    max 1 (n * 100 % 2 ^ 32 / 1000) = ticksOf n ↔ n * 100 < 2 ^ 32 := by
  rw [ticksOf]
  constructor
  · intro hsame
    by_contra hwide
    have hlost : n * 100 % 2 ^ 32 + 2 ^ 32 ≤ n * 100 := by omega
    omega
  · intro hnarrow
    rw [Nat.mod_eq_of_lt hnarrow]

theorem timeoutTicks_toNat : (timeoutTicks timeoutMs).toNat =
    if timeoutMs = 0 then waitForever.toNat
    else max 1 (timeoutMs.toNat * 100 % 2 ^ 32 / 1000) := by
  rw [timeoutTicks, ← product_div]
  split_ifs with hzero hless
  · rfl
  · have hnone : (timeoutMs * sysClkRate / 1000).toNat < 1 := UInt32.lt_iff_toNat_lt.mp hless
    rw [UInt32.toNat_one]
    omega
  · have hsome : 1 ≤ (timeoutMs * sysClkRate / 1000).toNat :=
      Nat.le_of_not_lt fun hlt => hless (UInt32.lt_iff_toNat_lt.mpr hlt)
    omega

theorem timeoutTicks_iff : ((timeoutTicks timeoutMs).toNat =
    if timeoutMs = 0 then waitForever.toNat else ticksOf timeoutMs.toNat) ↔
      timeoutMs.toNat * 100 < 2 ^ 32 := by
  rw [timeoutTicks_toNat]
  split_ifs with hzero
  · subst hzero
    decide
  · exact ticksOf_iff

theorem elapsedMs_toNat : (elapsedMs oldTick newTick).toNat =
    (if oldTick ≤ newTick then elapsed oldTick newTick else elapsed oldTick newTick - 1) *
      1000 % 2 ^ 32 / 100 := by
  have hold := oldTick.toNat_lt
  have hnew := newTick.toNat_lt
  rw [elapsedMs, UInt32.toNat_div, UInt32.toNat_mul]
  congr 3
  rw [elapsed]
  split_ifs with hle
  · rw [UInt32.toNat_sub]
    omega
  · rw [ge_iff_le, UInt32.le_iff_toNat_le] at hle
    rw [UInt32.toNat_add, UInt32.toNat_sub, show uint32Max.toNat = 2 ^ 32 - 1 from rfl]
    omega

theorem elapsedMs_iff : (elapsed oldTick newTick * 1000 / 100 < 2 ^ 32 →
    (elapsedMs oldTick newTick).toNat = elapsed oldTick newTick * 1000 / 100) ↔
      2 ^ 32 ≤ elapsed oldTick newTick * 10 ∨
        oldTick ≤ newTick ∧ elapsed oldTick newTick * 1000 < 2 ^ 32 := by
  have hwrapped : ¬ oldTick ≤ newTick → 0 < elapsed oldTick newTick := by
    intro hle
    have hold := oldTick.toNat_lt
    have hnew := newTick.toNat_lt
    rw [UInt32.le_iff_toNat_le] at hle
    rw [elapsed]
    omega
  rw [elapsedMs_toNat]
  split_ifs with hle
  · simp only [hle, true_and]
    omega
  · have hpos := hwrapped hle
    simp only [hle, false_and, or_false]
    omega

theorem timedWait_iff :
    Timed handle timeoutMs oldTick newTick status
      (timedWait (some handle) timeoutMs oldTick newTick status) ↔
    Narrow timeoutMs oldTick newTick status := by
  have hcall : (timedWait (some handle) timeoutMs oldTick newTick status).call =
      some (handle, timeoutTicks timeoutMs) := by
    cases status <;> rfl
  constructor
  · rintro ⟨⟨ticks, hticks, hwaits⟩, hresult⟩
    obtain rfl := (Prod.mk.inj (Option.some.inj (hcall.symm.trans hticks))).2
    refine ⟨timeoutTicks_iff.mp hwaits, fun hok => ?_⟩
    subst hok
    exact elapsedMs_iff.mp (hresult rfl)
  · rintro ⟨htimeout, helapsed⟩
    refine ⟨⟨_, hcall, timeoutTicks_iff.mpr htimeout⟩, fun hok => ?_⟩
    subst hok
    exact elapsedMs_iff.mpr (helapsed rfl)

theorem sysArchMsleep_iff :
    (sysArchMsleep ms).toNat = ticksOf ms.toNat ↔ ms.toNat * 100 < 2 ^ 32 := by
  have hsleep : (sysArchMsleep ms).toNat = max 1 (ms.toNat * 100 % 2 ^ 32 / 1000) := by
    rw [sysArchMsleep, ← product_div]
    split_ifs with hzero
    · rw [hzero]
      rfl
    · rw [← UInt32.toNat_inj, UInt32.toNat_zero] at hzero
      omega
  rw [hsleep]
  exact ticksOf_iff

/-- The conversions are right just as long as the products stay within 32 bits and, on success,
the counter has not wrapped. -/
theorem sysArch_times {τ : Type*} (psem : σ) (pmbox : τ) (pvMsg : μ) :
    (∀ timeoutMs oldTick newTick status,
      Timed psem timeoutMs oldTick newTick status
        (sysArchSemWait (some psem) timeoutMs oldTick newTick status) ↔
      Narrow timeoutMs oldTick newTick status) ∧
    (∀ msg timeoutMs oldTick newTick status,
      Timed pmbox timeoutMs oldTick newTick status
        (sysArchMboxFetch (some pmbox) msg timeoutMs oldTick newTick status pvMsg).1 ↔
      Narrow timeoutMs oldTick newTick status) ∧
    ∀ ms, (sysArchMsleep ms).toNat = ticksOf ms.toNat ↔ ms.toNat * 100 < 2 ^ 32 :=
  ⟨fun _ _ _ _ => timedWait_iff, fun _ _ _ _ _ => timedWait_iff, fun _ => sysArchMsleep_iff⟩

/-- One tick from `0xffffffff` to 0 is reported as no time at all. -/
theorem sysArchSemWait_wrapped : ¬ Timed () 10 0xffffffff 0 .ok
    (sysArchSemWait (some ()) 10 0xffffffff 0 .ok) := by
  intro h
  have hresult := h.result rfl (by decide)
  exact absurd hresult (by decide)

end DfewOS.SysArch
