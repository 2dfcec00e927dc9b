import Mathlib.Data.Nat.Notation
import Mathlib.Logic.Function.Basic

/-!
# Programs that mask interrupts

A lock saves the interrupt mask in a variable and masks the interrupts, an unlock puts the
saved mask back. The variable is local to an activation or shared by all of them. `Exec` are
the executions that return; `flow` follows the locks of a program and is a proof that the
mask comes back.
-/

namespace Masking

universe u w

/-- Whether interrupts are masked, and the masks saved by the running function and in the
shared variables. -/
structure Cpu (V : Type u) where
  masked : Bool
  saved : Bool
  shared : V → Bool

variable {V : Type u} {D : Type w}

/-- `none` is the local variable. -/
def Cpu.load (s : Cpu V) : Option V → Bool
  | none => s.saved
  | some v => s.shared v

def Cpu.lock [DecidableEq V] (s : Cpu V) : Option V → Cpu V
  | none => ⟨true, s.masked, s.shared⟩
  | some v => ⟨true, s.saved, Function.update s.shared v s.masked⟩

theorem Cpu.load_lock [DecidableEq V] (s : Cpu V) (v : Option V) :
    (s.lock v).load v = s.masked := by
  cases v with
  | none => rfl
  | some v => exact Function.update_self ..

theorem Cpu.lock_masked [DecidableEq V] (s : Cpu V) (v : Option V) :
    (s.lock v).masked = true := by
  cases v <;> rfl

/-- Programs over data `D`. Of a choice any branch is taken, a loop runs any number of
rounds; a guard in front says when. -/
inductive Prog (V : Type u) (D : Type w)
  | skip
  | forever
  | lock (v : Option V)
  | unlock (v : Option V)
  | guard (c : D → Prop)
  | act (r : D → D → Prop)
  | switch
  | seq (p q : Prog V D)
  | choice (p q : Prog V D)
  | loop (p : Prog V D)
  | call (p : Prog V D)

/-- One statement after the other. -/
def Prog.block : List (Prog V D) → Prog V D
  | [] => .skip
  | [p] => p
  | p :: q :: ps => .seq p (block (q :: ps))

/-- Other tasks run in a switch, and where an unlock enables the interrupts: the shared
variables and the data are then theirs. -/
inductive Exec [DecidableEq V] : Prog V D → Cpu V → D → Cpu V → D → Prop
  | skip {s : Cpu V} {d : D} : Exec .skip s d s d
  | lock {s : Cpu V} {d : D} (v : Option V) : Exec (.lock v) s d (s.lock v) d
  | unlock {s : Cpu V} {d : D} {v : Option V} : s.load v = true →
      Exec (.unlock v) s d ⟨true, s.saved, s.shared⟩ d
  | enable {s : Cpu V} {d : D} {v : Option V} (t : V → Bool) (d' : D) : s.load v = false →
      Exec (.unlock v) s d ⟨false, s.saved, t⟩ d'
  | guard {s : Cpu V} {d : D} {c : D → Prop} : c d → Exec (.guard c) s d s d
  | act {s : Cpu V} {d d' : D} {r : D → D → Prop} : r d d' → Exec (.act r) s d s d'
  | switch {s : Cpu V} {d : D} (t : V → Bool) (d' : D) :
      Exec .switch s d ⟨s.masked, s.saved, t⟩ d'
  | seq {p q : Prog V D} {s s₁ s' : Cpu V} {d d₁ d' : D} :
      Exec p s d s₁ d₁ → Exec q s₁ d₁ s' d' → Exec (.seq p q) s d s' d'
  | left {p q : Prog V D} {s s' : Cpu V} {d d' : D} :
      Exec p s d s' d' → Exec (.choice p q) s d s' d'
  | right {p q : Prog V D} {s s' : Cpu V} {d d' : D} :
      Exec q s d s' d' → Exec (.choice p q) s d s' d'
  | leave {p : Prog V D} {s : Cpu V} {d : D} : Exec (.loop p) s d s d
  | round {p : Prog V D} {s s₁ s' : Cpu V} {d d₁ d' : D} :
      Exec p s d s₁ d₁ → Exec (.loop p) s₁ d₁ s' d' → Exec (.loop p) s d s' d'
  | call {p : Prog V D} {s s' : Cpu V} {d d' : D} (x : Bool) :
      Exec p ⟨s.masked, x, s.shared⟩ d s' d' →
      Exec (.call p) s d ⟨s'.masked, s.saved, s'.shared⟩ d'

/-! ## Following the locks -/

/-- Where a program stands: outside of its sections, in one whose mask is saved in `v`, or
nowhere, since it does not come there. -/
inductive Point (V : Type u)
  | out
  | held (v : Option V)
  | dead
  deriving DecidableEq

def Point.join [DecidableEq V] : Point V → Point V → Option (Point V)
  | .dead, a => some a
  | a, .dead => some a
  | a, b => if a = b then some a else none

/-- Whether a program may write to the shared variable `v` with the interrupts masked. -/
def touches [DecidableEq V] (v : V) : Prog V D → Bool
  | .lock w => decide (w = some v)
  | .switch => true
  | .seq p q | .choice p q => touches v p || touches v q
  | .loop p | .call p => touches v p
  | _ => false

def flow [DecidableEq V] : Prog V D → Point V → Option (Point V)
  | .skip, a | .guard _, a | .act _, a => some a
  | .forever, _ => some .dead
  | .lock v, .out => some (.held v)
  | .lock _, .held _ => none
  | .lock _, .dead => some .dead
  | .unlock _, .out => none
  | .unlock v, .held w => if v = w then some .out else none
  | .unlock _, .dead => some .dead
  | .switch, .held (some _) => none
  | .switch, a => some a
  | .seq p q, a => (flow p a).bind (flow q)
  | .choice p q, a => (flow p a).bind fun b => (flow q a).bind b.join
  | .loop p, a => if flow p a = some a then some a else none
  | .call p, a =>
      if flow p .out = some .out then
        match a with
        | .held (some v) => if touches v p then none else some a
        | _ => some a
      else none

/-- What holds at a point of a program that was started with the mask `m`. -/
def Point.Holds (m : Bool) (s : Cpu V) : Point V → Prop
  | .out => s.masked = m
  | .held v => s.masked = true ∧ s.load v = m
  | .dead => False

theorem Point.Holds.masked {a : Point V} {s : Cpu V} (h : a.Holds true s) : s.masked = true := by
  cases a with
  | out => exact h
  | held v => exact h.1
  | dead => exact h.elim

section Soundness
variable [DecidableEq V] {p : Prog V D} {s s' : Cpu V} {d d' : D} {a b c : Point V} {m : Bool} {v : V}

theorem join_holds (h : a.join b = some c) (hs : a.Holds m s ∨ b.Holds m s) : c.Holds m s := by
  have hsame : ∀ {a b : Point V}, a.Holds m s ∨ b.Holds m s →
      (if a = b then some a else none) = some c → c.Holds m s := by
    intro a b hs h
    split at h
    · rename_i heq
      cases h
      exact hs.elim id fun hb => heq ▸ hb
    · cases h
  cases a <;> cases b
  case dead.out | dead.held | dead.dead =>
    cases Option.some.inj h
    exact hs.resolve_left id
  case out.dead | held.dead =>
    cases Option.some.inj h
    exact hs.resolve_right id
  all_goals exact hsame hs h

theorem flow_call (h : flow (.call p) a = some b) :
    flow p .out = some .out ∧ a = b ∧ ∀ v, a = .held (some v) → touches v p = false := by
  by_cases hout : flow p .out = some .out
  · refine ⟨hout, ?_⟩
    cases a with
    | out =>
      simp only [flow, hout, if_true, Option.some.injEq] at h
      exact ⟨h, fun v hv => by cases hv⟩
    | dead =>
      simp only [flow, hout, if_true, Option.some.injEq] at h
      exact ⟨h, fun v hv => by cases hv⟩
    | held w =>
      cases w with
      | none =>
        simp only [flow, hout, if_true, Option.some.injEq] at h
        exact ⟨h, fun v hv => by cases hv⟩
      | some w =>
        simp only [flow, hout, if_true] at h
        split at h
        · cases h
        · rename_i htouch
          refine ⟨Option.some.inj h, fun v hv => ?_⟩
          cases hv
          exact Bool.eq_false_iff.mpr htouch
  · cases a <;> simp [flow, hout] at h

theorem flow_holds (h : Exec p s d s' d') (hf : flow p a = some b) (ha : a.Holds m s) :
    b.Holds m s' ∧ (m = true → ∀ v, touches v p = false → s'.shared v = s.shared v) := by
  induction h generalizing a b m with
  | skip | guard _ | act _ =>
    cases hf
    exact ⟨ha, fun _ _ _ => rfl⟩
  | lock v =>
    cases a with
    | out =>
      cases hf
      refine ⟨?_, fun _ w hw => ?_⟩
      · exact ⟨Cpu.lock_masked .., (Cpu.load_lock ..).trans ha⟩
      · cases v with
        | none => rfl
        | some v =>
          have hne : w ≠ v := by
            rintro rfl
            simp [touches] at hw
          exact Function.update_of_ne hne ..
    | held w => cases hf
    | dead => exact ha.elim
  | @unlock s d v hload =>
    cases a with
    | out => cases hf
    | held w =>
      rw [flow] at hf
      split at hf
      · rename_i heq
        cases hf
        rw [← heq] at ha
        exact ⟨hload.symm.trans ha.2, fun _ _ _ => rfl⟩
      · cases hf
    | dead => exact ha.elim
  | @enable s d v t d' hload =>
    cases a with
    | out => cases hf
    | held w =>
      rw [flow] at hf
      split at hf
      · rename_i heq
        cases hf
        rw [← heq] at ha
        have hm : m = false := ha.2.symm.trans hload
        refine ⟨hm.symm, fun htrue => ?_⟩
        rw [hm] at htrue
        cases htrue
      · cases hf
    | dead => exact ha.elim
  | switch t d' =>
    refine ⟨?_, fun _ w hw => by cases hw⟩
    cases a with
    | out =>
      cases hf
      exact ha
    | held w =>
      cases w with
      | none =>
        cases hf
        exact ha
      | some w => cases hf
    | dead => exact ha.elim
  | seq _ _ ih₁ ih₂ =>
    obtain ⟨a₁, hf₁, hf₂⟩ := Option.bind_eq_some_iff.mp hf
    obtain ⟨ha₁, hkeep₁⟩ := ih₁ hf₁ ha
    obtain ⟨ha₂, hkeep₂⟩ := ih₂ hf₂ ha₁
    refine ⟨ha₂, fun hm v hv => ?_⟩
    obtain ⟨hp, hq⟩ := Bool.or_eq_false_iff.mp hv
    exact (hkeep₂ hm v hq).trans (hkeep₁ hm v hp)
  | left _ ih =>
    obtain ⟨a₁, hf₁, hf₂⟩ := Option.bind_eq_some_iff.mp hf
    obtain ⟨a₂, -, hjoin⟩ := Option.bind_eq_some_iff.mp hf₂
    obtain ⟨ha₁, hkeep⟩ := ih hf₁ ha
    exact ⟨join_holds hjoin (Or.inl ha₁), fun hm v hv => hkeep hm v (Bool.or_eq_false_iff.mp hv).1⟩
  | right _ ih =>
    obtain ⟨a₁, -, hf₂⟩ := Option.bind_eq_some_iff.mp hf
    obtain ⟨a₂, hf₂, hjoin⟩ := Option.bind_eq_some_iff.mp hf₂
    obtain ⟨ha₂, hkeep⟩ := ih hf₂ ha
    exact ⟨join_holds hjoin (Or.inr ha₂), fun hm v hv => hkeep hm v (Bool.or_eq_false_iff.mp hv).2⟩
  | leave =>
    rw [flow] at hf
    split at hf
    · cases hf
      exact ⟨ha, fun _ _ _ => rfl⟩
    · cases hf
  | round _ _ ih₁ ih₂ =>
    have hloop := hf
    rw [flow] at hf
    split at hf
    · rename_i hbody
      cases hf
      obtain ⟨ha₁, hkeep₁⟩ := ih₁ hbody ha
      obtain ⟨ha₂, hkeep₂⟩ := ih₂ hloop ha₁
      exact ⟨ha₂, fun hm v hv => (hkeep₂ hm v hv).trans (hkeep₁ hm v hv)⟩
    · cases hf
  | @call p s s' d d' x _ ih =>
    obtain ⟨hout, rfl, htouch⟩ := flow_call hf
    have hmask := (ih (m := s.masked) hout rfl).1
    have hkeep := (ih (m := s.masked) hout rfl).2
    refine ⟨?_, fun hm v hv => ?_⟩
    · cases a with
      | out => exact Eq.trans hmask ha
      | held w =>
        refine ⟨Eq.trans hmask ha.1, ?_⟩
        cases w with
        | none => exact ha.2
        | some w => exact (hkeep ha.1 w (htouch w rfl)).trans ha.2
      | dead => exact ha.elim
    · subst hm
      exact hkeep ha.masked v hv

theorem mask_restored (hf : flow p .out = some .out) (h : Exec p s d s' d') :
    s'.masked = s.masked :=
  (flow_holds (m := s.masked) h hf rfl).1

end Soundness

end Masking
