import DfewOS.Dlist
import DfewOS.Loops

/-!
# One list of the heap

`Represents h l xs` is about a single list, whatever the other lists of the heap share with each
other. What `Dlist` has for families is read off from the heap that has this list only
(`only`). An operation writes to no node outside of its list (`Keeps`), so that every other
list with nodes of its own represents what it did before.
-/

namespace DfewOS.Dlist
open ListHeap (Heap Node Ends Lists Segment segment_congr)
open Loops (loop loop_of_true loop_of_false)

variable {ι α : Type*}

structure Represents (h : Heap ι α) (l : ι) (xs : List α) : Prop where
  head : (h.list l).head = xs.head?
  tail : (h.list l).tail = xs.getLast?
  segment : Segment h.node none xs none
  nodup : xs.Nodup

/-- From `h` to `h'`, only the list `l` and links of the nodes `xs` may have changed. -/
structure Keeps (h h' : Heap ι α) (l : ι) (xs : List α) : Prop where
  node : ∀ y ∉ xs, h'.node y = h.node y
  list : ∀ j ≠ l, h'.list j = h.list j

def placeBehind [DecidableEq α] (p x : α) : List α → List α
  | [] => []
  | y :: ys => if y = p then y :: x :: ys else y :: placeBehind p x ys

/-- `x` placed behind `p`, or in front of all when `p` is `NULL`. -/
def placeAfter [DecidableEq α] (p : Option α) (x : α) (xs : List α) : List α :=
  match p with
  | none => x :: xs
  | some p => placeBehind p x xs

def dlistCount (fuel : ℕ) (h : Heap ι α) (pList : ι) : Option ℕ :=
  (loop (fun (pNode, _) => pNode.isSome)
    (fun (pNode, count) => (pNode.bind fun p => (h.node p).next, count + 1))
    fuel ((h.list pList).head, 0)).map (·.2)

/-- `dlist_check` with the rounds of its loop: `none` if it does not return. -/
def dlistCheckLoop [DecidableEq α] (fuel : ℕ) (h : Heap ι α) (pList : ι) (pNode : α) : Option Bool :=
  (loop (fun pListNode => pListNode.isSome && pListNode ≠ some pNode)
    (fun pListNode => pListNode.bind fun p => (h.node p).next)
    fuel (h.list pList).head).map (·.isSome)

def only (h : Heap ι α) (l : ι) : Heap Unit α := ⟨h.node, fun _ => h.list l⟩

theorem update_unit {β : Type*} (a b : β) : Function.update (fun _ : Unit => a) () b = fun _ => b :=
  funext fun _ => Function.update_self ..

variable {h h' : Heap ι α} {l : ι} {xs ys : List α} {x : α} {p : Option α} {fuel : ℕ}

theorem represents_iff : Represents h l xs ↔ Lists (only h l) fun _ => xs := by
  constructor
  · intro hr
    exact ⟨fun _ => hr.head, fun _ => hr.tail, fun _ => hr.segment, fun _ => hr.nodup,
      fun _ _ _ _ _ => rfl⟩
  · intro hl
    exact ⟨hl.head (), hl.tail (), hl.segment (), hl.nodup ()⟩

theorem lists_iff {seq : ι → List α} : Lists h seq ↔
    (∀ l, Represents h l (seq l)) ∧ ∀ i j x, x ∈ seq i → x ∈ seq j → i = j := by
  constructor
  · intro hl
    exact ⟨fun l => ⟨hl.head l, hl.tail l, hl.segment l, hl.nodup l⟩, hl.disjoint⟩
  · rintro ⟨hr, hdis⟩
    exact ⟨fun l => (hr l).head, fun l => (hr l).tail, fun l => (hr l).segment,
      fun l => (hr l).nodup, hdis⟩

theorem Represents.keeps {j : ι} (hr : Represents h j ys) (hk : Keeps h h' l xs) (hj : j ≠ l)
    (hdis : ∀ y ∈ ys, y ∉ xs) : Represents h' j ys where
  head := by rw [hk.list j hj, hr.head]
  tail := by rw [hk.list j hj, hr.tail]
  segment := segment_congr (fun y hy => hk.node y (hdis y hy)) hr.segment
  nodup := hr.nodup

theorem next_mem (hs : Segment h.node p xs none) (hx : x ∈ xs) {y : α}
    (hy : (h.node x).next = some y) : y ∈ xs := by
  induction xs generalizing p with
  | nil => exact absurd hx List.not_mem_nil
  | cons z xs ih =>
    obtain ⟨-, hnext, hrest⟩ := hs
    rcases List.mem_cons.mp hx with rfl | hx
    · rw [hnext, Option.or_none] at hy
      exact List.mem_cons_of_mem _ (List.mem_of_head? hy)
    · exact List.mem_cons_of_mem _ (ih hrest hx)

theorem previous_mem (hs : Segment h.node none xs none) (hx : x ∈ xs) {y : α}
    (hy : (h.node x).previous = some y) : y ∈ xs := by
  obtain ⟨us, vs, rfl⟩ := List.append_of_mem hx
  rw [ListHeap.segment_append] at hs
  have hlast : (h.node x).previous = us.getLast?.or none := hs.2.1
  rw [hlast, Option.or_none] at hy
  exact List.mem_append_left _ (List.mem_of_getLast? hy)

section Places
variable [DecidableEq α]

theorem placeBehind_split {q : α} (hq : q ∈ xs) : ∃ us vs, xs = us ++ vs ∧
    us.getLast? = some q ∧ placeBehind q x xs = us ++ x :: vs := by
  induction xs with
  | nil => exact absurd hq List.not_mem_nil
  | cons y ys ih =>
    by_cases hy : y = q
    · subst hy
      exact ⟨[y], ys, rfl, rfl, by rw [placeBehind, if_pos rfl]; rfl⟩
    · obtain ⟨us, vs, rfl, hlast, hplace⟩ := ih ((List.mem_cons.mp hq).resolve_left (Ne.symm hy))
      refine ⟨y :: us, vs, rfl, ?_, ?_⟩
      · rw [List.getLast?_cons, hlast]
        rfl
      · rw [placeBehind, if_neg hy, hplace]
        rfl

theorem placeAfter_split (hp : ∀ q, p = some q → q ∈ xs) : ∃ us vs, xs = us ++ vs ∧
    us.getLast? = p ∧ placeAfter p x xs = us ++ x :: vs := by
  cases p with
  | none => exact ⟨[], xs, rfl, rfl, rfl⟩
  | some q => exact placeBehind_split (hp q rfl)

end Places

section Writes
variable [DecidableEq ι] [DecidableEq α]

def after (h : Heap ι α) (l : ι) (p : Option α) : Option α :=
  match p with
  | none => (h.list l).head
  | some q => (h.node q).next

theorem dlistInsert_eq : dlistInsert h l p x = h.linkIn l p (after h l p) x := by
  cases p <;> rfl

theorem dlistRemove_eq : dlistRemove h l x =
    (h.pointForward l (h.node x).previous (h.node x).next).pointBack l
      ((h.pointForward l (h.node x).previous (h.node x).next).node x).next
      ((h.pointForward l (h.node x).previous (h.node x).next).node x).previous := rfl

theorem dlistGet_some {q : α} (hhead : (h.list l).head = some q) :
    dlistGet h l = ((h.setHead l (h.node q).next).pointBack l (h.node q).next none, some q) := by
  simp only [dlistGet, hhead]
  cases hnext : (h.node q).next <;> simp [hnext, Heap.setHead, Heap.pointBack]

theorem only_pointForward {v : Option α} :
    only (h.pointForward l p v) l = (only h l).pointForward () p v := by
  cases p with
  | none => simp [only, Heap.pointForward, Heap.setHead, update_unit]
  | some q => rfl

theorem only_pointBack {v : Option α} :
    only (h.pointBack l p v) l = (only h l).pointBack () p v := by
  cases p with
  | none => simp [only, Heap.pointBack, Heap.setTail, update_unit]
  | some q => rfl

theorem only_linkIn {n : Option α} : only (h.linkIn l p n x) l = (only h l).linkIn () p n x := by
  rw [Heap.linkIn, Heap.linkIn, ← only_pointForward, ← only_pointBack]
  rfl

theorem only_dlistInsert : only (dlistInsert h l p x) l = dlistInsert (only h l) () p x := by
  have hafter : after (only h l) () p = after h l p := by cases p <;> rfl
  rw [dlistInsert_eq, dlistInsert_eq, only_linkIn, hafter]

theorem only_dlistRemove : only (dlistRemove h l x) l = dlistRemove (only h l) () x := by
  rw [dlistRemove_eq, dlistRemove_eq, only_pointBack, ← only_pointForward]
  rfl

theorem only_dlistGet : (only (dlistGet h l).1 l, (dlistGet h l).2) = dlistGet (only h l) () := by
  cases hhead : (h.list l).head with
  | none => simp [dlistGet, only, hhead]
  | some q =>
    have honly : ((only h l).list ()).head = some q := hhead
    have hset : only (h.setHead l (h.node q).next) l = (only h l).setHead () (h.node q).next :=
      only_pointForward (p := none)
    rw [dlistGet_some hhead, dlistGet_some honly, only_pointBack, hset]
    rfl

theorem dlistInsert_represents (hr : Represents h l xs) (hp : ∀ q, p = some q → q ∈ xs)
    (hx : x ∉ xs) : Represents (dlistInsert h l p x) l (placeAfter p x xs) := by
  obtain ⟨us, vs, rfl, rfl, hplace⟩ := placeAfter_split (x := x) hp
  have hlists := dlistInsert_lists (l := ()) (represents_iff.mp hr) rfl fun _ => hx
  rw [hplace, represents_iff, only_dlistInsert]
  rwa [update_unit] at hlists

theorem dlistAdd_represents (hr : Represents h l xs) (hx : x ∉ xs) :
    Represents (dlistAdd h l x) l (xs ++ [x]) := by
  have hlists := dlistAdd_lists (represents_iff.mp hr) () fun _ => hx
  rw [represents_iff, dlistAdd, only_dlistInsert]
  rwa [ListHeap.push, update_unit] at hlists

theorem dlistRemove_represents (hr : Represents h l xs) (hx : x ∈ xs) :
    Represents (dlistRemove h l x) l (xs.erase x) := by
  have hlists := dlistRemove_lists (l := ()) (represents_iff.mp hr) hx
  rw [represents_iff, only_dlistRemove]
  rwa [ListHeap.drop, update_unit] at hlists

theorem dlistGet_represents (hr : Represents h l xs) :
    (dlistGet h l).2 = xs.head? ∧ Represents (dlistGet h l).1 l xs.tail := by
  have hlists := represents_iff.mp hr
  have honly := only_dlistGet (h := h) (l := l)
  rw [represents_iff]
  cases xs with
  | nil =>
    rw [dlistGet_nil hlists rfl] at honly
    obtain ⟨hheap, hnode⟩ := Prod.ext_iff.mp honly
    exact ⟨hnode, by rw [show only (dlistGet h l).1 l = only h l from hheap]; exact hlists⟩
  | cons y ys =>
    obtain ⟨hnode, hrest⟩ := dlistGet_cons (l := ()) hlists rfl
    rw [update_unit, ← honly] at hrest
    rw [← honly] at hnode
    exact ⟨hnode, hrest⟩

theorem Keeps.pointForward {v : Option α} (hp : ∀ q, p = some q → q ∈ xs) :
    Keeps h (h.pointForward l p v) l xs where
  node y hy := by
    rw [Heap.pointForward_node]
    exact ListHeap.relinkNext_of_ne fun he => hy (hp y he.symm)
  list j hj := Heap.pointForward_list_ne h hj p v

theorem Keeps.pointBack {v : Option α} (hp : ∀ q, p = some q → q ∈ xs) :
    Keeps h (h.pointBack l p v) l xs where
  node y hy := by
    rw [Heap.pointBack_node]
    exact ListHeap.relinkPrevious_of_ne fun he => hy (hp y he.symm)
  list j hj := Heap.pointBack_list_ne h hj p v

omit [DecidableEq ι] [DecidableEq α] in
theorem Keeps.trans {h'' : Heap ι α} (hk : Keeps h h' l xs) (hk' : Keeps h' h'' l xs) :
    Keeps h h'' l xs where
  node y hy := (hk'.node y hy).trans (hk.node y hy)
  list j hj := (hk'.list j hj).trans (hk.list j hj)

theorem dlistInsert_keeps (hr : Represents h l xs) (hp : ∀ q, p = some q → q ∈ xs) :
    Keeps h (dlistInsert h l p x) l (x :: xs) := by
  have hplace : ∀ q, p = some q → q ∈ x :: xs := fun q hq => List.mem_cons_of_mem x (hp q hq)
  have hafter : ∀ q, after h l p = some q → q ∈ x :: xs := by
    intro q hq
    apply List.mem_cons_of_mem
    cases p with
    | none =>
      have hhead : xs.head? = some q := hr.head.symm.trans hq
      exact List.mem_of_head? hhead
    | some r => exact next_mem hr.segment (hp r rfl) hq
  have hforward := Keeps.pointForward (h := h) (l := l) (v := some x) hplace
  have hback := Keeps.pointBack (h := h.pointForward l p (some x)) (l := l) (v := some x) hafter
  rw [dlistInsert_eq, Heap.linkIn]
  refine (hforward.trans hback).trans ⟨fun y hy => ?_, fun j _ => rfl⟩
  exact Function.update_of_ne (List.ne_of_not_mem_cons hy) _ _

theorem dlistAdd_keeps (hr : Represents h l xs) : Keeps h (dlistAdd h l x) l (x :: xs) := by
  refine dlistInsert_keeps hr fun q hq => ?_
  have htail : xs.getLast? = some q := hr.tail.symm.trans hq
  exact List.mem_of_getLast? htail

theorem dlistRemove_keeps (hr : Represents h l xs) (hx : x ∈ xs) :
    Keeps h (dlistRemove h l x) l xs := by
  have hsame : (h.pointForward l (h.node x).previous (h.node x).next).node x = h.node x := by
    rw [Heap.pointForward_node, ListHeap.relinkNext]
    split_ifs <;> rfl
  rw [dlistRemove_eq, hsame]
  exact (Keeps.pointForward fun q hq => previous_mem hr.segment hx hq).trans
    (Keeps.pointBack fun q hq => next_mem hr.segment hx hq)

theorem dlistGet_keeps (hr : Represents h l xs) : Keeps h (dlistGet h l).1 l xs := by
  cases hhead : (h.list l).head with
  | none =>
    rw [show (dlistGet h l).1 = h by simp [dlistGet, hhead]]
    exact ⟨fun _ _ => rfl, fun _ _ => rfl⟩
  | some q =>
    have hq : q ∈ xs := by
      have hfirst : xs.head? = some q := hr.head.symm.trans hhead
      exact List.mem_of_head? hfirst
    rw [dlistGet_some hhead]
    have hset : Keeps h (h.pointForward l none (h.node q).next) l xs :=
      Keeps.pointForward fun r he => absurd he.symm (Option.some_ne_none r)
    exact hset.trans (Keeps.pointBack fun r hnext => next_mem hr.segment hq hnext)

end Writes

theorem countLoop_segment (count : ℕ) (hs : Segment h.node p xs none) (hfuel : xs.length < fuel) :
    loop (fun (pNode, _) => pNode.isSome)
      (fun (pNode, count) => (pNode.bind fun p => (h.node p).next, count + 1))
      fuel (xs.head?, count) = some (none, count + xs.length) := by
  induction xs generalizing p count fuel with
  | nil =>
    obtain ⟨fuel, rfl⟩ : ∃ f, fuel = f + 1 := ⟨fuel - 1, by omega⟩
    exact loop_of_false rfl
  | cons y ys ih =>
    obtain ⟨fuel, rfl⟩ : ∃ f, fuel = f + 1 := ⟨fuel - 1, by omega⟩
    obtain ⟨-, hnext, hrest⟩ := hs
    have hgo := ih (count + 1) hrest (by simpa using hfuel)
    rw [Option.or_none] at hnext
    rw [loop_of_true rfl]
    simp only [List.head?_cons, Option.bind_some, hnext, hgo, List.length_cons]
    rw [Nat.add_assoc, Nat.add_comm 1]

theorem dlistCount_represents (hr : Represents h l xs) (hfuel : xs.length < fuel) :
    dlistCount fuel h l = some xs.length := by
  rw [dlistCount, hr.head, countLoop_segment 0 hr.segment hfuel, Option.map_some, Nat.zero_add]

section Check
variable [DecidableEq α]

theorem checkLoop_segment (hs : Segment h.node p xs none) (hfuel : xs.length < fuel) :
    loop (fun pListNode => pListNode.isSome && pListNode ≠ some x)
      (fun pListNode => pListNode.bind fun p => (h.node p).next) fuel xs.head? =
      some (if x ∈ xs then some x else none) := by
  induction xs generalizing p fuel with
  | nil =>
    obtain ⟨fuel, rfl⟩ : ∃ f, fuel = f + 1 := ⟨fuel - 1, by omega⟩
    exact loop_of_false rfl
  | cons y ys ih =>
    obtain ⟨fuel, rfl⟩ : ∃ f, fuel = f + 1 := ⟨fuel - 1, by omega⟩
    obtain ⟨-, hnext, hrest⟩ := hs
    by_cases hy : y = x
    · subst hy
      rw [loop_of_false (by simp), if_pos List.mem_cons_self]
      rfl
    · have hgo := ih hrest (by simpa using hfuel)
      rw [Option.or_none] at hnext
      rw [loop_of_true (by simp [hy]), List.head?_cons, Option.bind_some, hnext, hgo]
      simp [Ne.symm hy]

theorem dlistCheckLoop_represents (hr : Represents h l xs) (hfuel : xs.length < fuel) :
    dlistCheckLoop fuel h l x = some (decide (x ∈ xs)) := by
  rw [dlistCheckLoop, hr.head, checkLoop_segment hr.segment hfuel]
  by_cases hx : x ∈ xs <;> simp [hx]

theorem dlistCheck_of_loop {b : Bool} (hloop : dlistCheckLoop fuel h l x = some b) :
    dlistCheck fuel h l x = b := by
  obtain ⟨q, hq, rfl⟩ := Option.map_eq_some_iff.mp hloop
  rw [dlistCheck]
  generalize (h.list l).head = p at hq
  clear hloop
  induction fuel generalizing p with
  | zero => exact absurd hq (by simp [loop])
  | succ fuel ih =>
    cases p with
    | none =>
      rw [loop_of_false rfl] at hq
      obtain rfl := Option.some.inj hq
      rfl
    | some y =>
      rw [checkFrom]
      by_cases hy : y = x
      · subst hy
        rw [loop_of_false (by simp)] at hq
        obtain rfl := Option.some.inj hq
        rw [if_pos rfl, Option.isSome_some]
      · rw [loop_of_true (by simp [hy])] at hq
        rw [if_neg hy]
        exact ih _ hq

end Check

theorem dlist_refines [DecidableEq ι] [DecidableEq α] (hr : Represents h l xs) (n : α) :
    (n ∉ xs → ∀ p : Option α, (∀ q, p = some q → q ∈ xs) →
      Represents (dlistInsert h l p n) l (placeAfter p n xs) ∧
        Keeps h (dlistInsert h l p n) l (n :: xs)) ∧
    (n ∉ xs → Represents (dlistAdd h l n) l (xs ++ [n]) ∧ Keeps h (dlistAdd h l n) l (n :: xs)) ∧
    (n ∈ xs → Represents (dlistRemove h l n) l (xs.erase n) ∧ Keeps h (dlistRemove h l n) l xs) ∧
    ((dlistGet h l).2 = xs.head? ∧ Represents (dlistGet h l).1 l xs.tail ∧
      Keeps h (dlistGet h l).1 l xs) ∧
    ∀ fuel, xs.length < fuel → dlistCount fuel h l = some xs.length ∧
      dlistCheckLoop fuel h l n = some (decide (n ∈ xs)) := by
  obtain ⟨hget, hrest⟩ := dlistGet_represents hr
  exact ⟨fun hn p hp => ⟨dlistInsert_represents hr hp hn, dlistInsert_keeps hr hp⟩,
    fun hn => ⟨dlistAdd_represents hr hn, dlistAdd_keeps hr⟩,
    fun hn => ⟨dlistRemove_represents hr hn, dlistRemove_keeps hr hn⟩,
    ⟨hget, hrest, dlistGet_keeps hr⟩,
    fun fuel hfuel => ⟨dlistCount_represents hr hfuel, dlistCheckLoop_represents hr hfuel⟩⟩

def twoLists : Heap Bool ℕ where
  node
    | 1 => ⟨some 2, none⟩
    | 2 => ⟨none, some 1⟩
    | _ => ⟨none, none⟩
  list
    | true => ⟨some 1, some 2⟩
    | false => ⟨some 3, some 3⟩

theorem dlist_refines_twoLists :
    (Represents (dlistInsert twoLists true (some 1) 4) true [1, 4, 2] ∧
      Keeps twoLists (dlistInsert twoLists true (some 1) 4) true [4, 1, 2]) ∧
    dlistCount 3 twoLists true = some 2 := by
  have htwo : Represents twoLists true [1, 2] :=
    ⟨rfl, rfl, ⟨rfl, rfl, rfl, rfl, trivial⟩, by decide⟩
  obtain ⟨hinsert, -, -, -, hwalks⟩ := dlist_refines htwo 4
  have hplace : ∀ q, some 1 = some q → q ∈ [1, 2] := by
    intro q hq
    obtain rfl := Option.some.inj hq
    decide
  exact ⟨hinsert (by decide) (some 1) hplace, (hwalks 3 (by decide)).1⟩

end DfewOS.Dlist
