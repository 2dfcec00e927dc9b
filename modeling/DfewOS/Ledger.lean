import Mathlib.Data.Multiset.AddSub
import Mathlib.Data.Multiset.Replicate

/-!
# Ledgers of opened and closed resources

A resource may only be closed while it is out. `Settles es a b`: the entries
`es` close nothing that is not out, and whoever holds `a` when they begin holds
`b` when they are over, whatever else is out.
-/

namespace DfewOS.Ledger

inductive Entry (α : Type*)
  | opened (x : α)
  | closed (x : α)
  deriving DecidableEq, Repr

variable {α : Type*} [DecidableEq α]

/-- What is out when the entries are over; no result if one closes what is not out. -/
def settle : List (Entry α) → Multiset α → Option (Multiset α)
  | [], out => some out
  | .opened x :: es, out => settle es (x ::ₘ out)
  | .closed x :: es, out => if x ∈ out then settle es (out.erase x) else none

theorem settle_append (es fs : List (Entry α)) (out : Multiset α) :
    settle (es ++ fs) out = (settle es out).bind (settle fs) := by
  induction es generalizing out with
  | nil => rfl
  | cons e es ih =>
    cases e with
    | opened x => exact ih _
    | closed x =>
      rw [List.cons_append, settle, settle]
      split_ifs
      · exact ih _
      · rfl

def Settles (es : List (Entry α)) (a b : Multiset α) : Prop :=
  ∀ rest, settle es (a + rest) = some (b + rest)

namespace Settles
variable {es fs : List (Entry α)} {a b c : Multiset α} {x : α}

theorem nil (a : Multiset α) : Settles [] a a := fun _ => rfl

theorem append (h : Settles es a b) (h' : Settles fs b c) : Settles (es ++ fs) a c := by
  intro rest
  rw [settle_append, h rest]
  exact h' rest

theorem opened (x : α) (a : Multiset α) : Settles [.opened x] a (x ::ₘ a) := by
  intro rest
  rw [settle, settle, Multiset.cons_add]

theorem closed (x : α) (a : Multiset α) : Settles [.closed x] (x ::ₘ a) a := by
  intro rest
  rw [Multiset.cons_add, settle, if_pos (Multiset.mem_cons_self _ _), Multiset.erase_cons_head,
    settle]

theorem frame (h : Settles es a b) (c : Multiset α) : Settles es (a + c) (b + c) := by
  intro rest
  rw [Multiset.add_assoc, h, Multiset.add_assoc]

theorem openClose (x : α) (a : Multiset α) : Settles [.opened x, .closed x] a a :=
  (opened x a).append (closed x a)

theorem handOver (x y : α) (a : Multiset α) :
    Settles [.opened x, .opened y, .closed x] a (y ::ₘ a) := by
  apply (opened x a).append
  apply (opened y _).append
  rw [Multiset.cons_swap]
  exact closed x _

end Settles

end DfewOS.Ledger
