import Mathlib.Data.List.Nodup
import Mathlib.Logic.Function.Basic

/-!
# Families of intrusive doubly linked lists

Every node carries its own two link fields, so a node can be threaded into at
most one list of the family at a time. `Lists h seq` says that the pointers of
the heap `h` realise the family of sequences `seq`. The two surgeries `linkIn`
and `linkOut` are the only pointer writes a list operation performs; each one
is matched with its effect on the sequences.
-/

namespace DfewOS.ListHeap

variable {ι α : Type*}

structure Node (α : Type*) where
  next : Option α
  previous : Option α
  deriving DecidableEq

structure Ends (α : Type*) where
  head : Option α
  tail : Option α
  deriving DecidableEq

structure Heap (ι α : Type*) where
  node : α → Node α
  list : ι → Ends α

/-- The nodes `xs` are linked in this order between the neighbours `p` and `n`. -/
def Segment (mem : α → Node α) : Option α → List α → Option α → Prop
  | _, [], _ => True
  | p, x :: xs, n =>
      (mem x).previous = p ∧ (mem x).next = xs.head?.or n ∧ Segment mem (some x) xs n

theorem segment_append (mem : α → Node α) (p n : Option α) (xs ys : List α) :
    Segment mem p (xs ++ ys) n ↔
      Segment mem p xs (ys.head?.or n) ∧ Segment mem (xs.getLast?.or p) ys n := by
  induction xs generalizing p with
  | nil => simp [Segment]
  | cons x xs ih =>
    have hlast : (x :: xs).getLast?.or p = xs.getLast?.or (some x) := by
      cases xs <;> simp [List.getLast?_cons]
    have hhead : (xs ++ ys).head?.or n = xs.head?.or (ys.head?.or n) := by
      cases xs <;> simp
    simp only [List.cons_append, Segment, ih, hlast, hhead, and_assoc]

theorem segment_congr {mem mem' : α → Node α} {p n : Option α} {xs : List α}
    (h : ∀ x ∈ xs, mem' x = mem x) (hs : Segment mem p xs n) : Segment mem' p xs n := by
  induction xs generalizing p with
  | nil => trivial
  | cons x xs ih =>
    obtain ⟨hp, hn, hr⟩ := hs
    have hx := h x List.mem_cons_self
    refine ⟨by rw [hx, hp], by rw [hx, hn], ih (fun y hy => h y (List.mem_cons_of_mem _ hy)) hr⟩

def push [DecidableEq ι] (seq : ι → List α) (i : ι) (x : α) : ι → List α :=
  Function.update seq i (seq i ++ [x])

/-- The family with `x` taken out of list `i`. -/
def drop [DecidableEq ι] [DecidableEq α] (seq : ι → List α) (i : ι) (x : α) : ι → List α :=
  Function.update seq i ((seq i).erase x)

section Sequences
variable [DecidableEq ι] (seq : ι → List α) (i : ι) (x : α)

@[simp] theorem push_self : push seq i x i = seq i ++ [x] := Function.update_self ..

@[simp] theorem push_of_ne {j : ι} (h : j ≠ i) : push seq i x j = seq j :=
  Function.update_of_ne h ..

theorem mem_push {j : ι} {y : α} : y ∈ push seq i x j ↔ y ∈ seq j ∨ (j = i ∧ y = x) := by
  by_cases h : j = i
  · subst h; simp
  · simp [h]

variable [DecidableEq α]

@[simp] theorem drop_self : drop seq i x i = (seq i).erase x := Function.update_self ..

@[simp] theorem drop_of_ne {j : ι} (h : j ≠ i) : drop seq i x j = seq j :=
  Function.update_of_ne h ..

end Sequences

section Surgery
variable [DecidableEq ι] [DecidableEq α]

def relinkNext (mem : α → Node α) (p v : Option α) : α → Node α :=
  fun y => if some y = p then { mem y with next := v } else mem y

def relinkPrevious (mem : α → Node α) (n v : Option α) : α → Node α :=
  fun y => if some y = n then { mem y with previous := v } else mem y

theorem relinkNext_of_ne {mem : α → Node α} {p v : Option α} {y : α} (h : some y ≠ p) :
    relinkNext mem p v y = mem y := if_neg h

theorem relinkPrevious_of_ne {mem : α → Node α} {n v : Option α} {y : α} (h : some y ≠ n) :
    relinkPrevious mem n v y = mem y := if_neg h

theorem segment_relinkNext {mem : α → Node α} {p n v : Option α} {xs : List α}
    (hnd : xs.Nodup) (hs : Segment mem p xs n) :
    Segment (relinkNext mem xs.getLast? v) p xs v := by
  induction xs generalizing p with
  | nil => trivial
  | cons x xs ih =>
    obtain ⟨hp, hn, hr⟩ := hs
    rw [List.nodup_cons] at hnd
    cases xs with
    | nil => simp [Segment, relinkNext, hp]
    | cons y ys =>
      have hlast : (x :: y :: ys).getLast? = (y :: ys).getLast? := List.getLast?_cons_cons
      have hne : some x ≠ (y :: ys).getLast? := by
        intro he
        exact hnd.1 (List.mem_of_getLast? he.symm)
      rw [hlast]
      refine ⟨?_, ?_, ih hnd.2 hr⟩
      · rw [relinkNext_of_ne hne, hp]
      · rw [relinkNext_of_ne hne, hn]
        simp

theorem segment_relinkPrevious {mem : α → Node α} {p n v : Option α} {xs : List α}
    (hnd : xs.Nodup) (hs : Segment mem p xs n) :
    Segment (relinkPrevious mem xs.head? v) v xs n := by
  cases xs with
  | nil => trivial
  | cons x xs =>
    obtain ⟨-, hn, hr⟩ := hs
    rw [List.nodup_cons] at hnd
    refine ⟨by simp [relinkPrevious], by simpa [relinkPrevious] using hn, ?_⟩
    refine segment_congr (fun y hy => relinkPrevious_of_ne ?_) hr
    simp only [List.head?_cons, ne_eq, Option.some.injEq]
    rintro rfl
    exact hnd.1 hy

namespace Heap

def setHead (h : Heap ι α) (i : ι) (v : Option α) : Heap ι α :=
  { h with list := Function.update h.list i { h.list i with head := v } }

def setTail (h : Heap ι α) (i : ι) (v : Option α) : Heap ι α :=
  { h with list := Function.update h.list i { h.list i with tail := v } }

def setNext (h : Heap ι α) (x : α) (v : Option α) : Heap ι α :=
  { h with node := Function.update h.node x { h.node x with next := v } }

def setPrevious (h : Heap ι α) (x : α) (v : Option α) : Heap ι α :=
  { h with node := Function.update h.node x { h.node x with previous := v } }

def setNode (h : Heap ι α) (x : α) (v : Node α) : Heap ι α :=
  { h with node := Function.update h.node x v }

/-- Make the forward pointer that leads to the place after `p` point to `v`. -/
def pointForward (h : Heap ι α) (i : ι) (p v : Option α) : Heap ι α :=
  match p with
  | none => h.setHead i v
  | some p => h.setNext p v

/-- Make the backward pointer that leads to the place before `n` point to `v`. -/
def pointBack (h : Heap ι α) (i : ι) (n v : Option α) : Heap ι α :=
  match n with
  | none => h.setTail i v
  | some n => h.setPrevious n v

def linkIn (h : Heap ι α) (i : ι) (p n : Option α) (x : α) : Heap ι α :=
  ((h.pointForward i p (some x)).pointBack i n (some x)).setNode x ⟨n, p⟩

def linkOut (h : Heap ι α) (i : ι) (p n : Option α) : Heap ι α :=
  (h.pointForward i p n).pointBack i n p

theorem pointForward_node (h : Heap ι α) (i : ι) (p v : Option α) :
    (h.pointForward i p v).node = relinkNext h.node p v := by
  funext y
  cases p with
  | none => simp [pointForward, setHead, relinkNext]
  | some p =>
    by_cases hy : y = p
    · subst hy; simp [pointForward, setNext, relinkNext]
    · simp [pointForward, setNext, relinkNext, hy]

theorem pointBack_node (h : Heap ι α) (i : ι) (n v : Option α) :
    (h.pointBack i n v).node = relinkPrevious h.node n v := by
  funext y
  cases n with
  | none => simp [pointBack, setTail, relinkPrevious]
  | some n =>
    by_cases hy : y = n
    · subst hy; simp [pointBack, setPrevious, relinkPrevious]
    · simp [pointBack, setPrevious, relinkPrevious, hy]

theorem pointForward_list_ne (h : Heap ι α) {i j : ι} (hj : j ≠ i) (p v : Option α) :
    (h.pointForward i p v).list j = h.list j := by
  cases p <;> simp [pointForward, setHead, setNext, hj]

theorem pointBack_list_ne (h : Heap ι α) {i j : ι} (hj : j ≠ i) (n v : Option α) :
    (h.pointBack i n v).list j = h.list j := by
  cases n <;> simp [pointBack, setTail, setPrevious, hj]

theorem pointForward_head (h : Heap ι α) (i : ι) (p v : Option α) :
    ((h.pointForward i p v).list i).head = if p = none then v else (h.list i).head := by
  cases p <;> simp [pointForward, setHead, setNext]

theorem pointForward_tail (h : Heap ι α) (i : ι) (p v : Option α) :
    ((h.pointForward i p v).list i).tail = (h.list i).tail := by
  cases p <;> simp [pointForward, setHead, setNext]

theorem pointBack_head (h : Heap ι α) (i : ι) (n v : Option α) :
    ((h.pointBack i n v).list i).head = (h.list i).head := by
  cases n <;> simp [pointBack, setTail, setPrevious]

theorem pointBack_tail (h : Heap ι α) (i : ι) (n v : Option α) :
    ((h.pointBack i n v).list i).tail = if n = none then v else (h.list i).tail := by
  cases n <;> simp [pointBack, setTail, setPrevious]

end Heap

end Surgery

/-- The pointers of `h` realise the sequences `seq`, and no node is shared. -/
structure Lists (h : Heap ι α) (seq : ι → List α) : Prop where
  head : ∀ i, (h.list i).head = (seq i).head?
  tail : ∀ i, (h.list i).tail = (seq i).getLast?
  segment : ∀ i, Segment h.node none (seq i) none
  nodup : ∀ i, (seq i).Nodup
  disjoint : ∀ i j x, x ∈ seq i → x ∈ seq j → i = j

namespace Lists
variable [DecidableEq ι] [DecidableEq α] {h : Heap ι α} {seq : ι → List α}

omit [DecidableEq ι] [DecidableEq α] in
theorem next_of_split (hl : Lists h seq) {i : ι} {xs ys : List α} {x : α}
    (hi : seq i = xs ++ x :: ys) : (h.node x).next = ys.head? := by
  have hs := hl.segment i
  rw [hi, segment_append] at hs
  simpa using hs.2.2.1

omit [DecidableEq ι] [DecidableEq α] in
theorem previous_of_split (hl : Lists h seq) {i : ι} {xs ys : List α} {x : α}
    (hi : seq i = xs ++ x :: ys) : (h.node x).previous = xs.getLast? := by
  have hs := hl.segment i
  rw [hi, segment_append] at hs
  simpa using hs.2.1

omit [DecidableEq α] in
theorem replace {h' : Heap ι α} {i : ι} {zs : List α} (hl : Lists h seq)
    (hlist : ∀ j, j ≠ i → h'.list j = h.list j)
    (hnode : ∀ j, j ≠ i → ∀ y ∈ seq j, h'.node y = h.node y)
    (hhead : (h'.list i).head = zs.head?) (htail : (h'.list i).tail = zs.getLast?)
    (hsegment : Segment h'.node none zs none) (hnodup : zs.Nodup)
    (hother : ∀ y ∈ zs, ∀ j, j ≠ i → y ∉ seq j) : Lists h' (Function.update seq i zs) := by
  refine ⟨fun j => ?_, fun j => ?_, fun j => ?_, fun j => ?_, fun j k y hj hk => ?_⟩
  · by_cases hji : j = i
    · subst hji
      rw [Function.update_self, hhead]
    · rw [Function.update_of_ne hji, hlist j hji, hl.head]
  · by_cases hji : j = i
    · subst hji
      rw [Function.update_self, htail]
    · rw [Function.update_of_ne hji, hlist j hji, hl.tail]
  · by_cases hji : j = i
    · subst hji
      rwa [Function.update_self]
    · rw [Function.update_of_ne hji]
      exact segment_congr (hnode j hji) (hl.segment j)
  · by_cases hji : j = i
    · subst hji
      rwa [Function.update_self]
    · rw [Function.update_of_ne hji]
      exact hl.nodup j
  · by_cases hji : j = i <;> by_cases hki : k = i
    · rw [hji, hki]
    · subst hji
      rw [Function.update_self] at hj
      rw [Function.update_of_ne hki] at hk
      exact absurd hk (hother y hj k hki)
    · subst hki
      rw [Function.update_self] at hk
      rw [Function.update_of_ne hji] at hj
      exact absurd hj (hother y hk j hji)
    · rw [Function.update_of_ne hji] at hj
      rw [Function.update_of_ne hki] at hk
      exact hl.disjoint j k y hj hk

theorem linkIn (hl : Lists h seq) {i : ι} {xs ys : List α} {x : α}
    (hi : seq i = xs ++ ys) (hx : ∀ j, x ∉ seq j) :
    Lists (h.linkIn i xs.getLast? ys.head? x) (Function.update seq i (xs ++ x :: ys)) := by
  have hnd := hl.nodup i
  rw [hi, List.nodup_append] at hnd
  obtain ⟨hxs, hys, hdis⟩ := hnd
  have hxi := hx i
  rw [hi, List.mem_append, not_or] at hxi
  have hseg := hl.segment i
  rw [hi, segment_append] at hseg
  have hnode : (h.linkIn i xs.getLast? ys.head? x).node =
      Function.update (relinkPrevious (relinkNext h.node xs.getLast? (some x)) ys.head? (some x)) x
        ⟨ys.head?, xs.getLast?⟩ := by
    simp [Heap.linkIn, Heap.setNode, Heap.pointBack_node, Heap.pointForward_node]
  have hlast : ∀ y, some y = xs.getLast? → y ∈ xs := fun y hy => List.mem_of_getLast? hy.symm
  have hhead : ∀ y, some y = ys.head? → y ∈ ys := fun y hy => List.mem_of_head? hy.symm
  have hmem : ∀ j, j ≠ i → ∀ y ∈ seq j, y ∉ xs ∧ y ∉ ys := fun j hj y hy =>
    ⟨fun hyx => hj (hl.disjoint j i y hy (by simp [hi, hyx])),
      fun hyy => hj (hl.disjoint j i y hy (by simp [hi, hyy]))⟩
  refine hl.replace (fun j hj => ?_) (fun j hj y hy => ?_) ?_ ?_ ?_ ?_ fun y hy j hj hyj => ?_
  · simp [Heap.linkIn, Heap.setNode, Heap.pointBack_list_ne _ hj, Heap.pointForward_list_ne _ hj]
  · -- a node outside the list under surgery keeps both of its links
    obtain ⟨hyx, hyy⟩ := hmem j hj y hy
    have hne : y ≠ x := by
      rintro rfl
      exact hx j hy
    rw [hnode, Function.update_of_ne hne, relinkPrevious_of_ne (fun he => hyy (hhead y he)),
      relinkNext_of_ne (fun he => hyx (hlast y he))]
  · simp only [Heap.linkIn, Heap.setNode, Heap.pointBack_head, Heap.pointForward_head, hl.head, hi]
    cases xs <;> simp
  · simp only [Heap.linkIn, Heap.setNode, Heap.pointBack_tail, Heap.pointForward_tail, hl.tail, hi]
    cases ys <;> simp [List.getLast?_append, List.getLast?_cons]
  · rw [hnode, segment_append]
    constructor
    · have hfront : Segment (relinkNext h.node xs.getLast? (some x)) none xs (some x) :=
        segment_relinkNext hxs hseg.1
      rw [List.head?_cons, Option.some_or]
      refine segment_congr (fun y hy => ?_) hfront
      rw [Function.update_of_ne (by rintro rfl; exact hxi.1 hy),
        relinkPrevious_of_ne (fun he => hdis y hy y (hhead y he) rfl)]
    · have hback : Segment (relinkPrevious h.node ys.head? (some x)) (some x) ys none :=
        segment_relinkPrevious hys hseg.2
      refine ⟨by simp, by simp, segment_congr (fun y hy => ?_) hback⟩
      rw [Function.update_of_ne (by rintro rfl; exact hxi.2 hy)]
      have hny : some y ≠ xs.getLast? := fun he => hdis y (hlast y he) y hy rfl
      simp only [relinkPrevious, relinkNext_of_ne hny]
  · rw [List.nodup_append]
    refine ⟨hxs, List.nodup_cons.mpr ⟨hxi.2, hys⟩, ?_⟩
    intro a ha b hb
    rcases List.mem_cons.mp hb with rfl | hb
    · rintro rfl
      exact hxi.1 ha
    · exact hdis a ha b hb
  · obtain ⟨hyx, hyy⟩ := hmem j hj y hyj
    rcases List.mem_append.mp hy with hy | hy
    · exact hyx hy
    · rcases List.mem_cons.mp hy with rfl | hy
      · exact hx j hyj
      · exact hyy hy

theorem linkOut (hl : Lists h seq) {i : ι} {xs ys : List α} {x : α}
    (hi : seq i = xs ++ x :: ys) :
    Lists (h.linkOut i xs.getLast? ys.head?) (Function.update seq i (xs ++ ys)) := by
  have hnd := hl.nodup i
  rw [hi, List.nodup_append] at hnd
  obtain ⟨hxs, hxys, hdis⟩ := hnd
  have hys := (List.nodup_cons.mp hxys).2
  have hdis' : ∀ a ∈ xs, ∀ b ∈ ys, a ≠ b := fun a ha b hb => hdis a ha b (List.mem_cons_of_mem _ hb)
  have hseg := hl.segment i
  rw [hi, segment_append] at hseg
  obtain ⟨hsx, -, -, hsy⟩ := hseg
  have hnode : (h.linkOut i xs.getLast? ys.head?).node =
      relinkPrevious (relinkNext h.node xs.getLast? ys.head?) ys.head? xs.getLast? := by
    simp [Heap.linkOut, Heap.pointBack_node, Heap.pointForward_node]
  have hlast : ∀ y, some y = xs.getLast? → y ∈ xs := fun y hy => List.mem_of_getLast? hy.symm
  have hhead : ∀ y, some y = ys.head? → y ∈ ys := fun y hy => List.mem_of_head? hy.symm
  have hmem : ∀ j, j ≠ i → ∀ y ∈ seq j, y ∉ xs ∧ y ∉ ys := fun j hj y hy =>
    ⟨fun hyx => hj (hl.disjoint j i y hy (by simp [hi, hyx])),
      fun hyy => hj (hl.disjoint j i y hy (by simp [hi, hyy]))⟩
  refine hl.replace (fun j hj => ?_) (fun j hj y hy => ?_) ?_ ?_ ?_ ?_ fun y hy j hj hyj => ?_
  · simp [Heap.linkOut, Heap.pointBack_list_ne _ hj, Heap.pointForward_list_ne _ hj]
  · obtain ⟨hyx, hyy⟩ := hmem j hj y hy
    rw [hnode, relinkPrevious_of_ne (fun he => hyy (hhead y he)),
      relinkNext_of_ne (fun he => hyx (hlast y he))]
  · simp only [Heap.linkOut, Heap.pointBack_head, Heap.pointForward_head, hl.head, hi]
    cases xs <;> simp
  · simp only [Heap.linkOut, Heap.pointBack_tail, Heap.pointForward_tail, hl.tail, hi]
    cases ys <;> simp [List.getLast?_append, List.getLast?_cons]
  · rw [hnode, segment_append]
    constructor
    · have hfront : Segment (relinkNext h.node xs.getLast? ys.head?) none xs ys.head? :=
        segment_relinkNext hxs hsx
      rw [Option.or_none]
      refine segment_congr (fun y hy => ?_) hfront
      exact relinkPrevious_of_ne (fun he => hdis' y hy y (hhead y he) rfl)
    · have hback : Segment (relinkPrevious h.node ys.head? xs.getLast?) xs.getLast? ys none :=
        segment_relinkPrevious hys hsy
      rw [Option.or_none]
      refine segment_congr (fun y hy => ?_) hback
      have hny : some y ≠ xs.getLast? := fun he => hdis' y (hlast y he) y hy rfl
      simp only [relinkPrevious, relinkNext_of_ne hny]
  · rw [List.nodup_append]
    exact ⟨hxs, hys, hdis'⟩
  · obtain ⟨hyx, hyy⟩ := hmem j hj y hyj
    rcases List.mem_append.mp hy with hy | hy
    · exact hyx hy
    · exact hyy hy

theorem mem_drop (hl : Lists h seq) {i : ι} {x : α} (hx : x ∈ seq i) {j : ι} {y : α} :
    y ∈ drop seq i x j ↔ y ∈ seq j ∧ y ≠ x := by
  by_cases hj : j = i
  · subst hj
    rw [drop_self, (hl.nodup j).mem_erase_iff]
    exact and_comm
  · rw [drop_of_ne _ _ _ hj]
    constructor
    · intro hy
      refine ⟨hy, ?_⟩
      rintro rfl
      exact hj (hl.disjoint j i y hy hx)
    · exact fun hy => hy.1

omit [DecidableEq α] in
theorem clear (hl : Lists h seq) (i : ι) :
    Lists { h with list := Function.update h.list i ⟨none, none⟩ }
      (Function.update seq i []) := by
  refine hl.replace (fun j hj => Function.update_of_ne hj ..) (fun _ _ _ _ => rfl) ?_ ?_ trivial
    List.nodup_nil fun y hy => absurd hy List.not_mem_nil
  · simp only [Function.update_self, List.head?_nil]
  · simp only [Function.update_self, List.getLast?_nil]

end Lists

end DfewOS.ListHeap
