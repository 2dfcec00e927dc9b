import Mathlib.Data.List.Basic

/-!
# Paired calls

A monitor for a protocol with three kinds of call on each key: one that opens, one
that closes, and one that is only allowed in between.
-/

namespace Pairing

inductive Role
  | opens
  | uses
  | closes
  deriving DecidableEq

namespace Role

def allowed : Role → Bool → Bool
  | opens, isOpen => !isOpen
  | uses, isOpen | closes, isOpen => isOpen

def after : Role → Bool
  | opens | uses => true
  | closes => false

end Role

/-- Openings and closings alternate, and nothing else happens outside such a pair. -/
def Paired : Bool → List Role → Bool
  | _, [] => true
  | isOpen, r :: rs => r.allowed isOpen && Paired r.after rs

def openAfter : Bool → List Role → Bool
  | isOpen, [] => isOpen
  | _, r :: rs => openAfter r.after rs

theorem paired_append (isOpen : Bool) (rs rs' : List Role) :
    Paired isOpen (rs ++ rs') = (Paired isOpen rs && Paired (openAfter isOpen rs) rs') := by
  induction rs generalizing isOpen with
  | nil => rfl
  | cons r rs ih => simp only [List.cons_append, Paired, openAfter, ih, Bool.and_assoc]

variable {κ : Type*} [DecidableEq κ]

/-- The calls on one key. -/
def rolesOf (key : κ) (calls : List (κ × Role)) : List Role :=
  (calls.filter (·.1 = key)).map Prod.snd

@[simp] theorem rolesOf_nil (key : κ) : rolesOf key [] = [] := rfl

@[simp] theorem rolesOf_cons (key k : κ) (r : Role) (calls : List (κ × Role)) :
    rolesOf key ((k, r) :: calls) = if k = key then r :: rolesOf key calls
      else rolesOf key calls := by
  unfold rolesOf
  by_cases h : k = key <;> simp [h]

@[simp] theorem rolesOf_append (key : κ) (calls calls' : List (κ × Role)) :
    rolesOf key (calls ++ calls') = rolesOf key calls ++ rolesOf key calls' := by
  simp [rolesOf]

def PairedFrom (current : Option κ) (calls : List (κ × Role)) : Prop :=
  ∀ key, Paired (decide (current = some key)) (rolesOf key calls) = true

def Leads (current : Option κ) (calls : List (κ × Role)) (next : Option κ) : Prop :=
  ∀ key, openAfter (decide (current = some key)) (rolesOf key calls) = decide (next = some key)

theorem pairedFrom_nil (current : Option κ) : PairedFrom current [] := fun _ => rfl

theorem pairedFrom_append {current next : Option κ} {calls : List (κ × Role)}
    (h : Leads current calls next) (calls' : List (κ × Role)) :
    PairedFrom current (calls ++ calls') ↔ PairedFrom current calls ∧ PairedFrom next calls' := by
  unfold PairedFrom
  simp only [rolesOf_append, paired_append, h _, Bool.and_eq_true]
  exact forall_and

theorem PairedFrom.left {current : Option κ} {calls calls' : List (κ × Role)}
    (h : PairedFrom current (calls ++ calls')) : PairedFrom current calls := by
  intro key
  have hkey := h key
  rw [rolesOf_append, paired_append, Bool.and_eq_true] at hkey
  exact hkey.1

end Pairing
