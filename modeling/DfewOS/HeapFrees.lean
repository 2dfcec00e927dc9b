import DfewOS.HeapRuns

/-!
# Freeing

What `free` does with any pointer, and `memH_free`, which frees the blocks of a task. `free`
finds the block of its pointer by its address alone: a pointer to a block that is free
already is taken for one to a block in use. It never takes the address at which the heap
ends.
-/

namespace DfewOS.MemH
open Blocks (first walk walk_cases)
open Transition (Reachable)

/-- Each round looks for a block of the task from the head of the heap on. -/
def Heap.memHFree (pTcb : Option TcbPtr) : ℕ → Heap → Option Heap
  | 0, _ => none
  | fuel + 1, h =>
    match walk h.head (fun p => decide ((h.head p).info.ownerTcb = pTcb)) h.rounds
        (some h.info.heapStart) with
    | none => none
    | some none => some h
    | some (some p) => (h.free (add32 p headSize)).bind (memHFree pTcb fuel)

section Ignored
variable {h : Heap} {bs xs ys : List Block} {b : Block} {usrP : ℕ}

/-- The pointer is one to the payload of a free block. -/
def PointsToFree (bs : List Block) (usrP : ℕ) : Prop :=
  usrP < heapEnd ∧ ∃ xs b ys, bs = xs ++ [b] ++ ys ∧ b.info.isAlloced = false ∧
    usrP = place xs + headSize

/-- `free` has left the blocks and the counters as they were. -/
def FreeIgnores (h : Heap) (usrP : ℕ) : Prop :=
  ∃ h', h.free usrP = some h' ∧ h'.info = h.info ∧ h'.head = h.head

theorem free_pointsToFree (ht : Tiled h bs) (hp : PointsToFree bs usrP) : ¬ FreeIgnores h usrP := by
  rintro ⟨h', hfree, hinfo, -⟩
  obtain ⟨hlt, xs, b, ys, rfl, -, rfl⟩ := hp
  exact free_counted ht hlt hfree hinfo

end Ignored

/-- `free` ignores a pointer that is not to a block in use, unless it is to a free block. -/
theorem bad_free_ignored {h : Heap} {bs : List Block} (ht : Tiled h bs) {usrP : ℕ}
    (hp : ∀ b, (usrP, b) ∉ holdings configHeapStart bs) :
    FreeIgnores h usrP ↔ ¬ PointsToFree bs usrP := by
  constructor
  · exact fun h hfree => free_pointsToFree ht hfree h
  · intro hnot
    rcases free_cases ht usrP with ⟨hsame, -⟩ | ⟨xs, b, ys, rfl, hplace, -⟩
    · exact ⟨h, hsame, rfl, rfl⟩
    · have hfree : b.info.isAlloced = false := by
        cases hb : b.info.isAlloced with
        | false => rfl
        | true => exact absurd (hplace ▸ mem_holdings_of hb) (hp b)
      have hend : heapEnd ≤ usrP := by
        by_contra hlt
        exact hnot ⟨by omega, xs, b, ys, rfl, hfree, hplace⟩
      exact ⟨h, free_outside ht (Or.inr hend), rfl, rfl⟩

/-- The pointer is to the second word of a block in use, behind which there is a free one. -/
theorem bad_free_ignored_inside : heldHeap.info.allocedNum = 1 ∧ FreeIgnores heldHeap 0x51000018 := by
  refine ⟨heldHeap_tiled.allocedNum, (bad_free_ignored heldHeap_tiled fun b hb => ?_).mpr ?_⟩
  · have heq : (0x51000018, b) = (0x51000014, ⟨16, ⟨true, none⟩⟩) := List.mem_singleton.mp hb
    exact absurd (Prod.mk.inj heq).1 (by decide)
  · rintro ⟨-, xs, b, ys, hbs, -, hplace⟩
    match xs, hbs with
    | [], _ => exact absurd hplace (by decide)
    | [_], hbs =>
      obtain ⟨rfl, -⟩ := List.cons.inj hbs
      exact absurd hplace (by decide)
    | _ :: _ :: xs, hbs =>
      exact absurd (congrArg List.length hbs) (by simp [heldBlocks])

/-- `free` takes the pointer to the one block of a heap in which nothing is in use. -/
theorem bad_free_of_free_block : ∃ bs, Tiled State.start.heap bs ∧
    (∀ b, (0x51000014, b) ∉ holdings configHeapStart bs) ∧ ¬ FreeIgnores State.start.heap 0x51000014 := by
  refine ⟨_, heapInit_sound.toTiled, fun _ => List.not_mem_nil, ?_⟩
  exact free_pointsToFree heapInit_sound.toTiled ⟨by decide, [], _, [], rfl, rfl, rfl⟩

section Owned
variable {h : Heap} {bs : List Block} {b : Block} {t : TcbPtr} {fuel : ℕ}

theorem owned_cases (ht : Tiled h bs) (t : TcbPtr) :
    (walk h.head (fun p => decide ((h.head p).info.ownerTcb = some t)) h.rounds
        (some h.info.heapStart) = some none ∧
      ∀ x ∈ holdings configHeapStart bs, x.2.info.ownerTcb ≠ some t) ∨
    ∃ xs b, (place xs + headSize, b) ∈ holdings configHeapStart bs ∧ b.info.ownerTcb = some t ∧
      walk h.head (fun p => decide ((h.head p).info.ownerTcb = some t)) h.rounds
        (some h.info.heapStart) = some (some (place xs)) := by
  have hfirst : first h.info.heapStart bs none = some h.info.heapStart :=
    Blocks.first_of_ne ht.ne_nil
  have howner : ∀ xs b ys, bs = xs ++ b :: ys →
      (h.head (h.info.heapStart + Blocks.span headSize xs)).info.ownerTcb = b.info.ownerTcb := by
    intro xs b ys hbs
    have ht' : Tiled h (xs ++ [b] ++ ys) := by
      rw [List.append_assoc]
      exact hbs ▸ ht
    have hhead := ht'.head_eq.1
    rw [place] at hhead
    rw [ht.start, hhead]
  rcases walk_cases (fun p => decide ((h.head p).info.ownerTcb = some t)) ht.laid ht.length_lt with
    ⟨hw, hpass⟩ | ⟨xs, b, ys, hbs, hstop, -, hw⟩
  · rw [hfirst] at hw
    refine Or.inl ⟨hw, fun x hx how => ?_⟩
    obtain ⟨us, vs, hsplit, -, -⟩ := mem_holdings hx
    rw [List.append_assoc] at hsplit
    have hno := of_decide_eq_false (hpass us x.2 vs hsplit)
    rw [howner us x.2 vs hsplit] at hno
    exact hno how
  · rw [hfirst, ht.start] at hw
    have how : b.info.ownerTcb = some t := by
      rw [← howner xs b ys hbs]
      exact of_decide_eq_true hstop
    have hbs' : bs = xs ++ [b] ++ ys := by rw [hbs, List.append_assoc]; rfl
    have halloc : b.info.isAlloced = true := by
      cases hb : b.info.isAlloced with
      | true => rfl
      | false =>
        have hnull := ht.unowned b (by rw [hbs]; simp) hb
        rw [hnull] at how
        exact absurd how (by simp)
    refine Or.inr ⟨xs, b, hbs' ▸ mem_holdings_of halloc, how, ?_⟩
    rw [ht.start]
    exact hw

def heldBy (t : TcbPtr) (bs : List Block) : Finset (ℕ × Block) :=
  (holdings configHeapStart bs).toFinset.filter fun x => x.2.info.ownerTcb = some t

theorem mem_heldBy {x : ℕ × Block} : x ∈ heldBy t bs ↔
    x ∈ holdings configHeapStart bs ∧ x.2.info.ownerTcb = some t := by
  rw [heldBy, Finset.mem_filter, List.mem_toFinset]

theorem payload_pointer (ht : Tiled h bs) {xs : List Block}
    (hx : (place xs + headSize, b) ∈ holdings configHeapStart bs) :
    add32 (place xs) headSize = place xs + headSize ∧ place xs + headSize ≤ heapEnd := by
  have hbound := (holdings_bounds hx).2
  rw [ht.span, ht.size] at hbound
  have hend : heapEnd < 2 ^ 32 := by decide
  have hle : place xs + headSize ≤ heapEnd := by
    rw [heapEnd]
    exact le_trans (Nat.le_add_right _ b.size) hbound
  exact ⟨add32_of_lt (by omega), hle⟩

theorem memHFree_frees (ht : Tiled h bs)
    (hend : ∀ b, (heapEnd, b) ∈ holdings configHeapStart bs → b.info.ownerTcb ≠ some t)
    (hfuel : (heldBy t bs).card < fuel) :
    ∃ h' bs', h.memHFree (some t) fuel = some h' ∧ h'.byte = h.byte ∧ Tiled h' bs' ∧
      ∀ x, x ∈ holdings configHeapStart bs' ↔
        x ∈ holdings configHeapStart bs ∧ x.2.info.ownerTcb ≠ some t := by
  induction fuel generalizing h bs with
  | zero => omega
  | succ fuel ih =>
    rcases owned_cases ht t with ⟨hw, hnone⟩ | ⟨xs, b, hx, how, hw⟩
    · refine ⟨h, bs, ?_, rfl, ht, fun x => ⟨fun hx => ⟨hx, hnone x hx⟩, fun hx => hx.1⟩⟩
      rw [Heap.memHFree, hw]
    · obtain ⟨hptr, hle⟩ := payload_pointer ht hx
      have hne : place xs + headSize ≠ heapEnd := fun heq => hend b (heq ▸ hx) how
      obtain ⟨h₁, bs₁, hfree, hbyte, ht₁, -, hiff⟩ := free_holdings ht hx (by omega)
      have hgone : ∀ x ∈ holdings configHeapStart bs, x.2.info.ownerTcb ≠ some t →
          x.1 ≠ place xs + headSize := by
        intro x hmem hother heq
        rcases holdings_apart hmem hx with rfl | hbelow | habove
        · exact hother how
        · have hlow : 0 < headSize := by decide
          simp only at hbelow
          omega
        · have hlow : 0 < headSize := by decide
          simp only at habove
          omega
      -- one block less of the task: the freed one
      have hless : heldBy t bs₁ ⊂ heldBy t bs := by
        refine Finset.ssubset_iff_subset_ne.mpr ⟨fun x hmem => ?_, fun heq => ?_⟩
        · rw [mem_heldBy] at hmem ⊢
          exact ⟨((hiff x).mp hmem.1).1, hmem.2⟩
        · have hstill : (place xs + headSize, b) ∈ heldBy t bs₁ :=
            heq ▸ mem_heldBy.mpr ⟨hx, how⟩
          exact ((hiff _).mp (mem_heldBy.mp hstill).1).2 rfl
      have hcard := Finset.card_lt_card hless
      obtain ⟨h', bs', hrest, hbyte', ht', hiff'⟩ := ih ht₁
        (fun d hd => hend d ((hiff _).mp hd).1) (by omega)
      refine ⟨h', bs', ?_, hbyte'.trans hbyte, ht', fun x => ?_⟩
      · rw [Heap.memHFree, hw]
        simp only [hptr, hfree, Option.bind_some]
        exact hrest
      · rw [hiff', hiff]
        constructor
        · rintro ⟨⟨hmem, -⟩, hother⟩
          exact ⟨hmem, hother⟩
        · rintro ⟨hmem, hother⟩
          exact ⟨⟨hmem, hgone x hmem hother⟩, hother⟩

/-- An empty block at the end of the heap is found in every round, and not freed in any. -/
theorem memHFree_stuck (ht : Tiled h bs) (hend : (heapEnd, b) ∈ holdings configHeapStart bs)
    (hown : b.info.ownerTcb = some t) : h.memHFree (some t) fuel = none := by
  induction fuel generalizing h bs with
  | zero => rfl
  | succ fuel ih =>
    rcases owned_cases ht t with ⟨-, hnone⟩ | ⟨xs, d, hx, how, hw⟩
    · exact absurd hown (hnone _ hend)
    · obtain ⟨hptr, hle⟩ := payload_pointer ht hx
      rw [Heap.memHFree, hw]
      simp only [hptr]
      rcases Nat.lt_or_eq_of_le hle with hlt | heq
      · obtain ⟨h₁, bs₁, hfree, -, ht₁, -, hiff⟩ := free_holdings ht hx hlt
        rw [hfree]
        exact ih ht₁ ((hiff _).mpr ⟨hend, Nat.ne_of_gt hlt⟩)
      · rw [free_outside ht (Or.inr (Nat.le_of_eq heq.symm))]
        exact ih ht hend

/-- `memH_free` returns with the blocks of the task free, and all others as they were. -/
def FreesTask (h : Heap) (bs : List Block) (t : TcbPtr) : Prop :=
  ∃ fuel h' bs', h.memHFree (some t) fuel = some h' ∧ h'.byte = h.byte ∧ Tiled h' bs' ∧
    ∀ x, x ∈ holdings configHeapStart bs' ↔
      x ∈ holdings configHeapStart bs ∧ x.2.info.ownerTcb ≠ some t

end Owned

/-- `memH_free` frees the blocks of its task, unless one of them is empty and lies at the end of
the heap. -/
theorem memH_free_task {h : Heap} {bs : List Block} (ht : Tiled h bs) (t : TcbPtr) :
    FreesTask h bs t ↔
      ∀ b, (heapEnd, b) ∈ holdings configHeapStart bs → b.info.ownerTcb ≠ some t := by
  constructor
  · rintro ⟨fuel, h', bs', hfree, -⟩ b hb hown
    rw [memHFree_stuck ht hb hown] at hfree
    exact absurd hfree (by simp)
  · intro hend
    obtain ⟨h', bs', hfree⟩ := memHFree_frees ht hend (Nat.lt_succ_self _)
    exact ⟨_, h', bs', hfree⟩

/-- In the heaps that the calls of the tasks reach no block is empty at the end. -/
theorem memH_free_task_reached : ∃ s : State, s.heap.info.allocedNum = 3 ∧
    ∃ bs, FreesTask s.heap bs 1 := by
  obtain ⟨s, hs, hcount⟩ := Option.map_eq_some_iff.mp (show
    (State.start.replay
      [⟨some 1, .malloc 10⟩, ⟨some 2, .malloc 20⟩, ⟨some 1, .malloc 0⟩]).map
      (fun s => s.heap.info.allocedNum) = some 3
    by decide)
  have hstart : Reachable heapSystem Permitted State.start := .init ⟨⟨_, rfl⟩, rfl, rfl⟩
  obtain ⟨bs, hi⟩ := reachable_inv (replay_reachable hstart hs)
  refine ⟨s, hcount, bs, (memH_free_task hi.sound.toTiled 1).mpr fun b hb => ?_⟩
  exact absurd (hi.sound.below_end hb) (Nat.lt_irrefl _)

def emptyAtEnd : Heap where
  info := ⟨configHeapStart, configHeapSize, 2, 1, 0, 1, configHeapSize - 40, 0⟩
  head p := if p = heapEnd - 20 then ⟨some configHeapStart, none, 0, ⟨true, some 1⟩⟩
    else ⟨none, some (heapEnd - 20), configHeapSize - 40, ⟨false, none⟩⟩
  byte _ := 0

theorem memH_free_empty_at_end : ∃ bs, Tiled emptyAtEnd bs ∧ ¬ FreesTask emptyAtEnd bs 1 := by
  have ht : Tiled emptyAtEnd
      [⟨configHeapSize - 40, ⟨false, none⟩⟩, ⟨0, ⟨true, some 1⟩⟩] := by
    constructor
    case laid =>
      have hlast : configHeapStart + headSize + (configHeapSize - 40) = heapEnd - 20 := by decide
      have hne : configHeapStart ≠ heapEnd - 20 := by decide
      have hfirst : emptyAtEnd.head configHeapStart =
          ⟨none, some (heapEnd - 20), configHeapSize - 40, ⟨false, none⟩⟩ := by
        simp only [emptyAtEnd, if_neg hne]
      have hsecond : emptyAtEnd.head (heapEnd - 20) =
          ⟨some configHeapStart, none, 0, ⟨true, some 1⟩⟩ := by
        simp only [emptyAtEnd, if_true]
      have hstart : emptyAtEnd.info.heapStart = configHeapStart := rfl
      rw [Blocks.laid_cons, Blocks.laid_cons]
      rw [hstart, hlast]
      exact ⟨hfirst, hsecond, trivial⟩
    case apart => exact List.isChain_cons_cons.mpr ⟨Or.inr rfl, List.IsChain.singleton _⟩
    case aligned => decide
    case unowned => decide
    all_goals rfl
  refine ⟨_, ht, ?_⟩
  rintro ⟨fuel, h', bs', hfree, -⟩
  rw [memHFree_stuck ht (b := ⟨0, ⟨true, some 1⟩⟩) (List.mem_singleton_self _) rfl] at hfree
  exact absurd hfree (by simp)

end DfewOS.MemH
