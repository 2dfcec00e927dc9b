import DfewOS.ListHeap
import Mathlib.Data.List.Nodup
import Mathlib.Data.Fintype.Card
import Mathlib.Data.Fintype.List

/-!
# The doubly linked list tool

The operations of `dlist.c` on a heap of link fields. `NULL` is `none`. A list
descriptor is named by an index, a node by its address. Loops take the number
of nodes they may visit as fuel; `dlistEach` answers `none` when it runs out.

Each operation is matched with its effect on the represented sequences.
-/

namespace DfewOS.Dlist
open ListHeap (Heap Node Ends Lists Segment push drop)

variable {ι α σ : Type*} [DecidableEq ι] [DecidableEq α]

inductive OsStatus
  | ok
  | error
  deriving DecidableEq, Repr

def dlistInit (h : Heap ι α) (pList : ι) : Heap ι α :=
  { h with list := Function.update h.list pList ⟨none, none⟩ }

def dlistInsert (h : Heap ι α) (pList : ι) (pPrev : Option α) (pNode : α) : Heap ι α :=
  -- new node is to be first in list, or make prev node point fwd to new
  let (pNext, h) := match pPrev with
    | none => ((h.list pList).head, h.setHead pList (some pNode))
    | some prev => ((h.node prev).next, h.setNext prev (some pNode))
  -- new node is to be last in list, or make next node point back to new
  let h := match pNext with
    | none => h.setTail pList (some pNode)
    | some next => h.setPrevious next (some pNode)
  h.setNode pNode ⟨pNext, pPrev⟩

def dlistAdd (h : Heap ι α) (pList : ι) (pNode : α) : Heap ι α :=
  dlistInsert h pList (h.list pList).tail pNode

def dlistRemove (h : Heap ι α) (pList : ι) (pNode : α) : Heap ι α :=
  let h := match (h.node pNode).previous with
    | none => h.setHead pList (h.node pNode).next
    | some prev => h.setNext prev (h.node pNode).next
  match (h.node pNode).next with
  | none => h.setTail pList (h.node pNode).previous
  | some next => h.setPrevious next (h.node pNode).previous

def dlistGet (h : Heap ι α) (pList : ι) : Heap ι α × Option α :=
  match (h.list pList).head with
  | none => (h, none)
  | some pNode =>
    let h := h.setHead pList (h.node pNode).next
    match (h.node pNode).next with
    | none => (h.setTail pList none, some pNode)
    | some next => (h.setPrevious next none, some pNode)

def checkFrom (h : Heap ι α) (pNode : α) : ℕ → Option α → Bool
  | _, none => false
  | 0, some _ => false
  | n + 1, some p => if p = pNode then true else checkFrom h pNode n (h.node p).next

def dlistCheck (n : ℕ) (h : Heap ι α) (pList : ι) (pNode : α) : Bool :=
  checkFrom h pNode n (h.list pList).head

/-- The walk of `dlist_each` from the node `p`. The routine acts on the whole state `σ`,
and the successor is read in the state the routine leaves behind. -/
def eachFrom (links : σ → α → Node α) (routine : σ → α → σ × OsStatus) :
    ℕ → σ → Option α → Option σ
  | _, s, none => some s
  | 0, _, some _ => none
  | n + 1, s, some p =>
    let (s, status) := routine s p
    if status = .ok then eachFrom links routine n s (links s p).next else some s

/-- The nodes met on the way from the head, at most `n` of them. -/
def nodesFrom (h : Heap ι α) : ℕ → Option α → List α
  | n + 1, some p => p :: nodesFrom h n (h.node p).next
  | _, _ => []

def nodes (n : ℕ) (h : Heap ι α) (pList : ι) : List α := nodesFrom h n (h.list pList).head

section Refinement
variable {h : Heap ι α} {seq : ι → List α} {l : ι} {x : α} {xs ys : List α}

omit [DecidableEq α] in
theorem dlistInit_lists (hl : Lists h seq) (l : ι) :
    Lists (dlistInit h l) (Function.update seq l []) := hl.clear l

omit [DecidableEq ι] [DecidableEq α] in
theorem next_of_last (hl : Lists h seq) (hi : seq l = xs ++ ys) (p : α)
    (hp : xs.getLast? = some p) : (h.node p).next = ys.head? := by
  obtain ⟨zs, rfl⟩ := List.getLast?_eq_some_iff.mp hp
  exact hl.next_of_split (show seq l = zs ++ p :: ys by simpa using hi)

theorem dlistInsert_lists (hl : Lists h seq) (hi : seq l = xs ++ ys) (hx : ∀ j, x ∉ seq j) :
    Lists (dlistInsert h l xs.getLast? x) (Function.update seq l (xs ++ x :: ys)) := by
  have hin := hl.linkIn hi hx
  suffices he : dlistInsert h l xs.getLast? x = h.linkIn l xs.getLast? ys.head? x by
    rwa [he]
  cases hp : xs.getLast? with
  | none =>
    have hnil : xs = [] := List.getLast?_eq_none_iff.mp hp
    have hh : (h.list l).head = ys.head? := by rw [hl.head, hi, hnil, List.nil_append]
    simp only [dlistInsert, hh]
    rfl
  | some p =>
    have hn := next_of_last hl hi p hp
    simp only [dlistInsert, hn]
    rfl

theorem dlistAdd_lists (hl : Lists h seq) (l : ι) (hx : ∀ j, x ∉ seq j) :
    Lists (dlistAdd h l x) (push seq l x) := by
  have hi : seq l = seq l ++ [] := (List.append_nil _).symm
  have hin := dlistInsert_lists hl hi hx
  rwa [← hl.tail] at hin

theorem dlistRemove_split (hl : Lists h seq) (hi : seq l = xs ++ x :: ys) :
    Lists (dlistRemove h l x) (Function.update seq l (xs ++ ys)) := by
  have hout := hl.linkOut hi
  have hn := hl.next_of_split hi
  have hp := hl.previous_of_split hi
  suffices he : dlistRemove h l x = h.linkOut l xs.getLast? ys.head? by rwa [he]
  have hnd := hl.nodup l
  rw [hi, List.nodup_append] at hnd
  have hne : some x ≠ xs.getLast? := by
    intro he
    exact hnd.2.2 x (List.mem_of_getLast? he.symm) x List.mem_cons_self rfl
  have hkeep : ((h.pointForward l xs.getLast? ys.head?).node x) = h.node x := by
    rw [Heap.pointForward_node, ListHeap.relinkNext_of_ne hne]
  have hfirst : dlistRemove h l x = (h.pointForward l xs.getLast? ys.head?).pointBack l
      ((h.pointForward l xs.getLast? ys.head?).node x).next
      ((h.pointForward l xs.getLast? ys.head?).node x).previous := by
    simp only [dlistRemove, hp, hn]
    rfl
  rw [hfirst, hkeep, hn, hp, Heap.linkOut]

theorem dlistRemove_lists (hl : Lists h seq) (hx : x ∈ seq l) :
    Lists (dlistRemove h l x) (drop seq l x) := by
  obtain ⟨xs, ys, hi⟩ := List.append_of_mem hx
  have hnd := hl.nodup l
  rw [hi, List.nodup_append] at hnd
  have hxs : x ∉ xs := fun hm => hnd.2.2 x hm x List.mem_cons_self rfl
  have he : (seq l).erase x = xs ++ ys := by
    rw [hi, List.erase_append_right _ hxs, List.erase_cons_head]
  rw [drop, he]
  exact dlistRemove_split hl hi

theorem dlistGet_nil (hl : Lists h seq) (hi : seq l = []) : dlistGet h l = (h, none) := by
  simp [dlistGet, hl.head, hi]

theorem dlistGet_cons (hl : Lists h seq) (hi : seq l = x :: ys) :
    (dlistGet h l).2 = some x ∧ Lists (dlistGet h l).1 (Function.update seq l ys) := by
  have hsplit : seq l = [] ++ x :: ys := hi
  have hout := hl.linkOut hsplit
  have hn := hl.next_of_split hsplit
  have hh : (h.list l).head = some x := by rw [hl.head, hi, List.head?_cons]
  cases hy : ys.head? with
  | none =>
    simp only [dlistGet, hh, Heap.setHead, hn, hy]
    simpa [Heap.linkOut, Heap.pointForward, Heap.pointBack, hy, Heap.setHead] using hout
  | some y =>
    simp only [dlistGet, hh, Heap.setHead, hn, hy]
    simpa [Heap.linkOut, Heap.pointForward, Heap.pointBack, hy, Heap.setHead] using hout

omit [DecidableEq ι] [DecidableEq α] in
theorem nodesFrom_segment {p : Option α} {n : ℕ} (hs : Segment h.node p xs none)
    (hn : xs.length ≤ n) : nodesFrom h n xs.head? = xs := by
  induction xs generalizing p n with
  | nil => cases n <;> rfl
  | cons x xs ih =>
    obtain ⟨-, hx, hr⟩ := hs
    cases n with
    | zero => simp at hn
    | succ n =>
      simp only [List.head?_cons, nodesFrom, List.cons.injEq, true_and]
      rw [hx, Option.or_none]
      exact ih hr (by simpa using hn)

omit [DecidableEq ι] in
theorem checkFrom_segment {p : Option α} {n : ℕ} (hs : Segment h.node p xs none)
    (hn : xs.length ≤ n) : checkFrom h x n xs.head? = decide (x ∈ xs) := by
  induction xs generalizing p n with
  | nil => cases n <;> rfl
  | cons y xs ih =>
    obtain ⟨-, hy, hr⟩ := hs
    cases n with
    | zero => simp at hn
    | succ n =>
      have hrest := ih hr (by simpa using hn)
      simp only [List.head?_cons, checkFrom, hy, Option.or_none, hrest]
      by_cases he : y = x
      · simp [he]
      · simp [he, Ne.symm he]

variable [Fintype α]

omit [DecidableEq ι] [DecidableEq α] in
theorem nodes_eq (hl : Lists h seq) (l : ι) : nodes (Fintype.card α) h l = seq l := by
  rw [nodes, hl.head]
  exact nodesFrom_segment (hl.segment l) (hl.nodup l).length_le_card

omit [DecidableEq ι] in
theorem dlistCheck_eq (hl : Lists h seq) (l : ι) (x : α) :
    dlistCheck (Fintype.card α) h l x = decide (x ∈ seq l) := by
  rw [dlistCheck, hl.head]
  exact checkFrom_segment (hl.segment l) (hl.nodup l).length_le_card

end Refinement

end DfewOS.Dlist
