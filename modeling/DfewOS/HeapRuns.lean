import DfewOS.Holdings
import Mathlib.Data.Finset.Insert

/-!
# The heap under the calls of all tasks

`calloc` and `realloc` go on outside the lock once their `malloc` has returned, so
other tasks' calls may come between. `live` collects the pointers that users have
been given and may free. Every reachable heap is tiled by its blocks, the blocks
in use are those behind the live pointers and the calls in progress, and what
these calls write stays inside their block.
-/

namespace DfewOS.MemH
open Transition (System Run Reachable)

inductive Pending
  | clear (p nbytes : ℕ)
  | move (pBlock p newSize : ℕ)
  deriving DecidableEq

def Pending.target : Pending → ℕ
  | .clear p _ | .move _ p _ => p

def Pending.source : Pending → Option ℕ
  | .clear _ _ => none
  | .move pBlock _ _ => some pBlock

def Pending.length : Pending → ℕ
  | .clear _ n | .move _ _ n => n

inductive Call
  | malloc (nbytes : ℕ)
  | calloc (elemNum elemSize : ℕ)
  | realloc (pBlock newSize : ℕ)
  | free (usrP : ℕ)
  | finish
  deriving DecidableEq

structure State where
  heap : Heap
  live : Finset ℕ
  pending : Option TcbPtr → Option Pending

structure Event where
  task : Option TcbPtr
  call : Call

def State.free (s : State) (usrP : ℕ) : State :=
  match s.heap.free usrP with
  | some heap => { s with heap := heap, live := s.live.erase usrP }
  | none => s

/-- `malloc` for a call that goes on with `rest` at the new block. -/
def State.mallocThen (s : State) (t : Option TcbPtr) (nbytes : ℕ) (rest : ℕ → Option Pending) :
    State :=
  match s.heap.malloc t nbytes with
  | some (heap, p) =>
    match rest p with
    | none => { s with heap := heap, live := insert p s.live }
    | some w => { s with heap := heap, pending := Function.update s.pending t (some w) }
  | none => s

/-- The task that runs is `t`. A `malloc` that finds no block leaves the heap as it is. -/
def State.exec (s : State) (t : Option TcbPtr) : Call → State
  | .malloc nbytes => s.mallocThen t nbytes fun _ => none
  | .calloc elemNum elemSize =>
    s.mallocThen t (elemNum * elemSize % 2 ^ 32) fun p =>
      some (.clear p (elemNum * elemSize % 2 ^ 32))
  | .realloc pBlock newSize =>
    if newSize = 0 then s.free pBlock
    else s.mallocThen t newSize fun p =>
      if pBlock ≠ 0 ∧ p ≠ 0 then some (.move pBlock p newSize) else none
  | .free usrP => s.free usrP
  | .finish =>
    match s.pending t with
    | none => s
    | some (.clear p nbytes) =>
      { s with
        heap := s.heap.memset p 0 nbytes
        live := insert p s.live
        pending := Function.update s.pending t none }
    | some (.move pBlock p newSize) =>
      let s := { s with heap := s.heap.bcopy pBlock p newSize }.free pBlock
      { s with live := insert p s.live, pending := Function.update s.pending t none }

/-- Only `NULL` and live pointers are freed, and a task makes one call at a time. -/
def State.Permits (s : State) (t : Option TcbPtr) : Call → Prop
  | .malloc nbytes => s.pending t = none ∧ nbytes < 2 ^ 32
  | .calloc elemNum elemSize => s.pending t = none ∧ elemNum < 2 ^ 32 ∧ elemSize < 2 ^ 32
  | .realloc pBlock newSize =>
    s.pending t = none ∧ newSize < 2 ^ 32 ∧ (newSize = 0 → pBlock = 0 ∨ pBlock ∈ s.live)
  | .free usrP => s.pending t = none ∧ (usrP = 0 ∨ usrP ∈ s.live)
  | .finish => ∀ w ∈ s.pending t, ∀ p ∈ w.source, p ∈ s.live

instance (s : State) (t : Option TcbPtr) : ∀ c, Decidable (s.Permits t c)
  | .malloc _ | .calloc _ _ | .realloc _ _ | .free _ => inferInstanceAs (Decidable (_ ∧ _))
  | .finish => inferInstanceAs (Decidable (∀ w ∈ s.pending t, ∀ p ∈ w.source, p ∈ s.live))

def heapSystem : System State Event where
  init s := (∃ h, s.heap = heapInit h) ∧ s.live = ∅ ∧ s.pending = fun _ => none
  step s e s' := s' = s.exec e.task e.call

def Permitted (s : State) (e : Event) : Prop := s.Permits e.task e.call

/-- The pointers of the blocks in use from `a` on, each with the size of its block. -/
def grants : ℕ → List Block → List (ℕ × ℕ)
  | _, [] => []
  | a, b :: bs =>
    if b.info.isAlloced then (a + headSize, b.size) :: grants (a + headSize + b.size) bs
    else grants (a + headSize + b.size) bs

/-- The last block is not empty: so each pointer lies below the end of the heap. -/
structure Sound (h : Heap) (bs : List Block) : Prop extends Tiled h bs where
  tail : ∀ b ∈ bs.getLast?, 0 < b.size

section Grants
variable {h h' : Heap} {bs xs ys cs ds : List Block} {b : Block} {a p n : ℕ} {x : ℕ × ℕ}
  {current : Option TcbPtr} {nbytes : ℕ}

theorem grants_eq : grants a bs = (holdings a bs).map fun x => (x.1, x.2.size) := by
  induction bs generalizing a with
  | nil => rfl
  | cons b bs ih =>
    rw [grants, holdings, ih]
    split_ifs <;> rfl

theorem mem_grants_iff : (p, n) ∈ grants a bs ↔ ∃ b, (p, b) ∈ holdings a bs ∧ b.size = n := by
  rw [grants_eq, List.mem_map]
  constructor
  · rintro ⟨⟨q, b⟩, hmem, heq⟩
    obtain ⟨rfl, rfl⟩ := Prod.mk.inj heq
    exact ⟨b, hmem, rfl⟩
  · rintro ⟨b, hmem, rfl⟩
    exact ⟨(p, b), hmem, rfl⟩

theorem mem_grants (h : (p, n) ∈ grants configHeapStart bs) :
    ∃ xs b ys, bs = xs ++ [b] ++ ys ∧ b.info.isAlloced = true ∧ p = place xs + headSize ∧
      n = b.size := by
  obtain ⟨b, hmem, rfl⟩ := mem_grants_iff.mp h
  obtain ⟨xs, ys, hbs, halloc, hp⟩ := mem_holdings hmem
  exact ⟨xs, b, ys, hbs, halloc, hp, rfl⟩

theorem toInt32_le_align (h : nbytes < 2 ^ 32) : toInt32 nbytes ≤ align nbytes := by
  rw [toInt32]
  split_ifs with hlt
  · have hlow : defaultAlignByte = 4 := rfl
    have hsum : add32 nbytes (defaultAlignByte - 1) = nbytes + 3 := by
      rw [hlow]
      apply add32_of_lt
      omega
    rw [align, hsum, hlow]
    omega
  · omega

theorem malloc_sound (hs : Sound h bs) (hm : h.malloc current nbytes = some (h', p)) :
    ∃ bs' n, Sound h' bs' ∧ align nbytes ≤ n ∧ (∀ m, (p, m) ∉ grants configHeapStart bs) ∧
      ∀ x, x ∈ grants configHeapStart bs' ↔ x ∈ grants configHeapStart bs ∨ x = (p, n) := by
  have hfit : ∃ b ∈ bs, b.info.isAlloced = false ∧ align nbytes ≤ b.size := by
    rcases malloc_cases hs.toTiled current nbytes with
      ⟨hnone, -⟩ | ⟨xs, b, ys, rfl, hfree, hle, -⟩
    · exact absurd hm (by rw [hnone]; simp)
    · exact ⟨b, by simp, hfree, hle⟩
  obtain ⟨xs, b, ys, bs', rfl, hfree, hle, -, heq, ht, htail, hiff⟩ :=
    malloc_holdings hs.toTiled current hfit
  obtain ⟨rfl, rfl⟩ := Prod.mk.inj (Option.some.inj (heq.symm.trans hm))
  refine ⟨bs', _, ⟨ht, htail hs.tail⟩, le_granted hle, fun m hmem => ?_, fun x => ?_⟩
  · obtain ⟨d, hmem, -⟩ := mem_grants_iff.mp hmem
    have halloc := free_not_held hs.toTiled hfree d
    exact halloc hmem
  · obtain ⟨q, m⟩ := x
    simp only [mem_grants_iff, hiff, Prod.mk.injEq]
    constructor
    · rintro ⟨d, hmem | ⟨rfl, rfl⟩, rfl⟩
      · exact Or.inl ⟨d, hmem, rfl⟩
      · exact Or.inr ⟨rfl, rfl⟩
    · rintro (⟨d, hmem, rfl⟩ | ⟨rfl, rfl⟩)
      · exact ⟨d, Or.inl hmem, rfl⟩
      · exact ⟨_, Or.inr ⟨rfl, rfl⟩, rfl⟩

theorem Sound.below_end (hs : Sound h bs) (hp : (p, b) ∈ holdings configHeapStart bs) :
    p < heapEnd := by
  obtain ⟨us, vs, rfl, -, hplace⟩ := mem_holdings hp
  obtain rfl : p = place us + headSize := hplace
  have hend : place us + headSize + b.size + Blocks.span headSize vs =
      configHeapStart + configHeapSize := hs.head_eq.2
  rw [heapEnd]
  cases vs with
  | nil =>
    have hpos := hs.tail b (by simp)
    rw [Blocks.span_nil] at hend
    omega
  | cons c vs =>
    have hlow : 0 < headSize := by decide
    rw [Blocks.span_cons] at hend
    omega

theorem free_sound (hs : Sound h bs) (hp : (p, n) ∈ grants configHeapStart bs) :
    ∃ h' bs', h.free p = some h' ∧ Sound h' bs' ∧
      ∀ x, x ∈ grants configHeapStart bs' ↔ x ∈ grants configHeapStart bs ∧ x.1 ≠ p := by
  obtain ⟨b, hb, -⟩ := mem_grants_iff.mp hp
  obtain ⟨h', bs', hfree, -, ht, htail, hiff⟩ := free_holdings hs.toTiled hb (hs.below_end hb)
  refine ⟨h', bs', hfree, ⟨ht, htail hs.tail⟩, fun x => ?_⟩
  obtain ⟨q, m⟩ := x
  simp only [mem_grants_iff, hiff]
  constructor
  · rintro ⟨d, ⟨hmem, hne⟩, rfl⟩
    exact ⟨⟨d, hmem, rfl⟩, hne⟩
  · rintro ⟨⟨d, hmem, rfl⟩, hne⟩
    exact ⟨d, ⟨hmem, hne⟩, rfl⟩

theorem Sound.congr (hs : Sound h bs) (hinfo : h'.info = h.info) (hhead : h'.head = h.head) :
    Sound h' bs :=
  ⟨hs.toTiled.congr hinfo hhead, hs.tail⟩

theorem heapInit_sound : Sound (heapInit h) [⟨configHeapSize - headSize, ⟨false, none⟩⟩] where
  laid := by
    have hself : Function.update h.head configHeapStart
        ⟨none, none, configHeapSize - headSize, ⟨false, none⟩⟩ configHeapStart =
          ⟨none, none, configHeapSize - headSize, ⟨false, none⟩⟩ := Function.update_self ..
    exact ⟨hself, trivial⟩
  span := rfl
  start := rfl
  size := rfl
  apart := List.IsChain.singleton _
  aligned := by decide
  unowned := by simp
  blockNum := rfl
  allocedNum := rfl
  allocedSize := rfl
  freeNum := rfl
  freeSize := rfl
  tail := by decide

theorem free_null (hs : Sound h bs) : h.free 0 = some h := by
  rw [Heap.free, if_pos]
  left
  rw [hs.start]
  decide

end Grants

structure Inv (s : State) (bs : List Block) : Prop where
  sound : Sound s.heap bs
  owned : ∀ p, (∃ n, (p, n) ∈ grants configHeapStart bs) ↔
    p ∈ s.live ∨ ∃ t w, s.pending t = some w ∧ w.target = p
  apart : ∀ t w, s.pending t = some w → w.target ∉ s.live
  distinct : ∀ t t' w w', s.pending t = some w → s.pending t' = some w' →
    w.target = w'.target → t = t'
  room : ∀ t w, s.pending t = some w →
    ∃ n : ℕ, (w.target, n) ∈ grants configHeapStart bs ∧ toInt32 w.length ≤ n

section Steps
variable {s : State} {bs : List Block} {t : Option TcbPtr} {w : Pending} {p nbytes usrP : ℕ} {h : Heap}
  {rest : ℕ → Option Pending}

theorem Inv.free (hi : Inv s bs) (hp : usrP = 0 ∨ usrP ∈ s.live) :
    ∃ bs', Inv (s.free usrP) bs' := by
  by_cases hlive : usrP ∈ s.live
  · obtain ⟨n, hn⟩ := (hi.owned usrP).mpr (Or.inl hlive)
    obtain ⟨h', bs', hfree, hs, hiff⟩ := free_sound hi.sound hn
    have htarget : ∀ t w, s.pending t = some w → w.target ≠ usrP := by
      intro t w hw heq
      exact hi.apart t w hw (heq ▸ hlive)
    have heq : s.free usrP = { s with heap := h', live := s.live.erase usrP } := by
      rw [State.free, hfree]
    rw [heq]
    refine ⟨bs', hs, fun p => ?_, fun t w hw => ?_, hi.distinct, fun t w hw => ?_⟩
    · simp only [hiff, exists_and_right, hi.owned, Finset.mem_erase]
      constructor
      · rintro ⟨hp | hp, hne⟩
        · exact Or.inl ⟨hne, hp⟩
        · exact Or.inr hp
      · rintro (⟨hne, hp⟩ | ⟨t, w, hw, rfl⟩)
        · exact ⟨Or.inl hp, hne⟩
        · exact ⟨Or.inr ⟨t, w, hw, rfl⟩, htarget t w hw⟩
    · exact fun hmem => hi.apart t w hw (Finset.mem_of_mem_erase hmem)
    · obtain ⟨n, hn, hle⟩ := hi.room t w hw
      exact ⟨n, (hiff _).mpr ⟨hn, htarget t w hw⟩, hle⟩
  · obtain rfl := hp.resolve_right hlive
    have heq : s.free 0 = s := by
      rw [State.free, free_null hi.sound, Finset.erase_eq_of_notMem hlive]
    rw [heq]
    exact ⟨bs, hi⟩

theorem mallocThen_cases (s : State) (t : Option TcbPtr) (nbytes : ℕ)
    (rest : ℕ → Option Pending) :
    s.mallocThen t nbytes rest = s ∨
    ∃ h p, s.heap.malloc t nbytes = some (h, p) ∧
      ((rest p = none ∧
          s.mallocThen t nbytes rest = { s with heap := h, live := insert p s.live }) ∨
        ∃ w, rest p = some w ∧ s.mallocThen t nbytes rest =
          { s with heap := h, pending := Function.update s.pending t (some w) }) := by
  rw [State.mallocThen]
  cases hm : s.heap.malloc t nbytes with
  | none => exact Or.inl rfl
  | some r =>
    obtain ⟨h, p⟩ := r
    refine Or.inr ⟨h, p, rfl, ?_⟩
    cases hw : rest p with
    | none => exact Or.inl ⟨rfl, by simp only [hw]⟩
    | some w => exact Or.inr ⟨w, rfl, by simp only [hw]⟩

theorem Inv.mallocThen (hi : Inv s bs) (ht : s.pending t = none) (hn : nbytes < 2 ^ 32)
    (hrest : ∀ p w, rest p = some w → w.target = p ∧ w.length = nbytes) :
    ∃ bs', Inv (s.mallocThen t nbytes rest) bs' := by
  rcases mallocThen_cases s t nbytes rest with heq | ⟨h, p, hm, hcase⟩
  · rw [heq]
    exact ⟨bs, hi⟩
  · obtain ⟨bs', n, hs, hle, hnew, hiff⟩ := malloc_sound hi.sound hm
    have hfresh : ¬ (p ∈ s.live ∨ ∃ t w, s.pending t = some w ∧ w.target = p) := by
      intro hp
      obtain ⟨m, hm⟩ := (hi.owned p).mpr hp
      exact hnew m hm
    have howned : ∀ q, (∃ m, (q, m) ∈ grants configHeapStart bs') ↔
        (q ∈ s.live ∨ ∃ t w, s.pending t = some w ∧ w.target = q) ∨ q = p := by
      intro q
      rw [← hi.owned]
      simp only [hiff, Prod.mk.injEq, exists_or, exists_and_left, exists_eq, and_true]
    have hroom : ∀ t w, s.pending t = some w →
        ∃ m : ℕ, (w.target, m) ∈ grants configHeapStart bs' ∧ toInt32 w.length ≤ m := by
      intro t w hw
      obtain ⟨m, hm, hle⟩ := hi.room t w hw
      exact ⟨m, (hiff _).mpr (Or.inl hm), hle⟩
    refine ⟨bs', ?_⟩
    rcases hcase with ⟨-, heq⟩ | ⟨w, hw, heq⟩
    · rw [heq]
      refine ⟨hs, fun q => ?_, fun t w hw hmem => ?_, hi.distinct, hroom⟩
      · rw [howned, Finset.mem_insert, or_comm, or_assoc]
      · rcases Finset.mem_insert.mp hmem with heq | hmem
        · exact hfresh (Or.inr ⟨t, w, hw, heq⟩)
        · exact hi.apart t w hw hmem
    · obtain ⟨rfl, hlen⟩ := hrest p w hw
      have hpend : ∀ t' w', Function.update s.pending t (some w) t' = some w' ↔
          t' = t ∧ w' = w ∨ s.pending t' = some w' := by
        intro t' w'
        by_cases hne : t' = t
        · subst hne
          rw [Function.update_self, ht, Option.some_inj]
          simp [eq_comm]
        · rw [Function.update_of_ne hne]
          simp [hne]
      rw [heq]
      refine ⟨hs, fun q => ?_, ?_, ?_, ?_⟩
      · rw [howned]
        simp only [hpend]
        constructor
        · rintro ((hq | ⟨t', w', hw', hq⟩) | rfl)
          · exact Or.inl hq
          · exact Or.inr ⟨t', w', Or.inr hw', hq⟩
          · exact Or.inr ⟨t, w, Or.inl ⟨rfl, rfl⟩, rfl⟩
        · rintro (hq | ⟨t', w', ⟨rfl, rfl⟩ | hw', hq⟩)
          · exact Or.inl (Or.inl hq)
          · exact Or.inr hq.symm
          · exact Or.inl (Or.inr ⟨t', w', hw', hq⟩)
      · intro t' w' hw'
        rcases (hpend t' w').mp hw' with ⟨rfl, rfl⟩ | hw'
        · exact fun hmem => hfresh (Or.inl hmem)
        · exact hi.apart t' w' hw'
      · intro t₁ t₂ w₁ w₂ h₁ h₂ htarget
        rcases (hpend t₁ w₁).mp h₁ with ⟨rfl, rfl⟩ | hold₁ <;>
          rcases (hpend t₂ w₂).mp h₂ with ⟨rfl, rfl⟩ | hold₂
        · rfl
        · exact absurd (Or.inr ⟨t₂, w₂, hold₂, htarget.symm⟩) hfresh
        · exact absurd (Or.inr ⟨t₁, w₁, hold₁, htarget⟩) hfresh
        · exact hi.distinct t₁ t₂ w₁ w₂ hold₁ hold₂ htarget
      · intro t' w' hw'
        rcases (hpend t' w').mp hw' with ⟨rfl, rfl⟩ | hw'
        · refine ⟨n, (hiff _).mpr (Or.inr rfl), ?_⟩
          have halign := toInt32_le_align hn
          rw [hlen]
          omega
        · exact hroom t' w' hw'

theorem Inv.done (hi : Inv s bs) (hw : s.pending t = some w) (hinfo : h.info = s.heap.info)
    (hhead : h.head = s.heap.head) :
    Inv { s with
      heap := h
      live := insert w.target s.live
      pending := Function.update s.pending t none } bs := by
  have hpend : ∀ t' w', Function.update s.pending t none t' = some w' ↔
      t' ≠ t ∧ s.pending t' = some w' := by
    intro t' w'
    by_cases hne : t' = t
    · subst hne
      simp
    · rw [Function.update_of_ne hne]
      simp [hne]
  refine ⟨hi.sound.congr hinfo hhead, fun q => ?_, ?_, ?_, ?_⟩
  · rw [hi.owned]
    simp only [hpend, Finset.mem_insert]
    constructor
    · rintro (hq | ⟨t', w', hw', hq⟩)
      · exact Or.inl (Or.inr hq)
      · by_cases hne : t' = t
        · obtain rfl := Option.some.inj ((hne ▸ hw').symm.trans hw)
          exact Or.inl (Or.inl hq.symm)
        · exact Or.inr ⟨t', w', ⟨hne, hw'⟩, hq⟩
    · rintro ((rfl | hq) | ⟨t', w', ⟨-, hw'⟩, hq⟩)
      · exact Or.inr ⟨t, w, hw, rfl⟩
      · exact Or.inl hq
      · exact Or.inr ⟨t', w', hw', hq⟩
  · intro t' w' hw' hmem
    obtain ⟨hne, hw'⟩ := (hpend t' w').mp hw'
    rcases Finset.mem_insert.mp hmem with heq | hmem
    · exact hne (hi.distinct t' t w' w hw' hw heq)
    · exact hi.apart t' w' hw' hmem
  · intro t₁ t₂ w₁ w₂ h₁ h₂
    exact hi.distinct t₁ t₂ w₁ w₂ ((hpend t₁ w₁).mp h₁).2 ((hpend t₂ w₂).mp h₂).2
  · intro t' w' hw'
    exact hi.room t' w' ((hpend t' w').mp hw').2

theorem State.free_pending (s : State) (usrP : ℕ) : (s.free usrP).pending = s.pending := by
  rw [State.free]
  cases s.heap.free usrP <;> rfl

theorem Inv.exec {c : Call} (hi : Inv s bs) (hc : s.Permits t c) : ∃ bs', Inv (s.exec t c) bs' := by
  cases c with
  | malloc nbytes =>
    rw [State.exec]
    exact hi.mallocThen hc.1 hc.2 fun p w hw => nomatch hw
  | calloc elemNum elemSize =>
    rw [State.exec]
    refine hi.mallocThen hc.1 (Nat.mod_lt _ (by decide)) fun p w hw => ?_
    obtain rfl := Option.some.inj hw
    exact ⟨rfl, rfl⟩
  | realloc pBlock newSize =>
    obtain ⟨ht, hn, hp⟩ := hc
    rw [State.exec]
    split_ifs with hzero
    · exact hi.free (hp hzero)
    · refine hi.mallocThen ht hn fun p w hw => ?_
      split_ifs at hw
      obtain rfl := Option.some.inj hw
      exact ⟨rfl, rfl⟩
  | free usrP =>
    rw [State.exec]
    exact hi.free hc.2
  | finish =>
    cases hw : s.pending t with
    | none =>
      simp only [State.exec, hw]
      exact ⟨bs, hi⟩
    | some w =>
      cases w with
      | clear p nbytes =>
        simp only [State.exec, hw]
        exact ⟨bs, hi.done hw rfl rfl⟩
      | move pBlock p newSize =>
        have hcopy : Inv { s with heap := s.heap.bcopy pBlock p newSize } bs :=
          ⟨hi.sound.congr rfl rfl, hi.owned, hi.apart, hi.distinct, hi.room⟩
        obtain ⟨bs', hfree⟩ := hcopy.free (Or.inr (hc _ hw pBlock rfl))
        have hpend := State.free_pending { s with heap := s.heap.bcopy pBlock p newSize } pBlock
        have hdone := hfree.done ((congrFun hpend t).trans hw) rfl rfl
        simp only [State.exec, hw]
        exact ⟨bs', hdone⟩

theorem reachable_inv (hr : Reachable heapSystem Permitted s) : ∃ bs, Inv s bs := by
  apply hr.invariant
  · intro s hs
    obtain ⟨⟨h, hheap⟩, hlive, hpend⟩ := hs
    have hempty : grants configHeapStart [⟨configHeapSize - headSize, ⟨false, none⟩⟩] = [] := rfl
    refine ⟨_, hheap ▸ heapInit_sound, fun p => ?_, ?_, ?_, ?_⟩
    · rw [hempty]
      simp [hlive, hpend]
    all_goals simp [hpend]
  · intro s e s' hi he hs
    obtain ⟨bs, hi⟩ := hi
    exact hs ▸ hi.exec he

end Steps

/-- Every heap that the calls of the tasks can reach is tiled by its blocks. -/
theorem heap_tiling {s : State} (hr : Reachable heapSystem Permitted s) :
    ∃ bs, Tiled s.heap bs := by
  obtain ⟨bs, hi⟩ := reachable_inv hr
  exact ⟨bs, hi.sound.toTiled⟩

/-- What `calloc` and `realloc` write behind the lock are bytes of the payload of their block: no
header is among them. -/
theorem heap_writes_inside {s : State} (hr : Reachable heapSystem Permitted s)
    {t : Option TcbPtr} {w : Pending} (hw : s.pending t = some w) :
    ∃ xs b ys, Tiled s.heap (xs ++ [b] ++ ys) ∧ b.info.isAlloced = true ∧
      w.target = place xs + headSize ∧ toInt32 w.length ≤ b.size := by
  obtain ⟨bs, hi⟩ := reachable_inv hr
  obtain ⟨n, hn, hle⟩ := hi.room t w hw
  obtain ⟨xs, b, ys, rfl, hb, hp, rfl⟩ := mem_grants hn
  exact ⟨xs, b, ys, hi.sound.toTiled, hb, hp, hle⟩

section Replay
variable {s s' : State}

def State.replay (s : State) : List Event → Option State
  | [] => some s
  | e :: es => if s.Permits e.task e.call then (s.exec e.task e.call).replay es else none

theorem replay_reachable {es : List Event} (hr : Reachable heapSystem Permitted s)
    (h : s.replay es = some s') : Reachable heapSystem Permitted s' := by
  induction es generalizing s with
  | nil => exact Option.some.inj h ▸ hr
  | cons e es ih =>
    rw [State.replay] at h
    split_ifs at h with he
    exact ih (hr.step he rfl) h

end Replay

def State.start : State where
  heap := heapInit ⟨⟨0, 0, 0, 0, 0, 0, 0, 0⟩, fun _ => ⟨none, none, 0, ⟨false, none⟩⟩, fun _ => 0⟩
  live := ∅
  pending := fun _ => none

def heldHeap : Heap := State.start.heap.take none 16 configHeapStart

def heldBlocks : List Block :=
  [⟨16, ⟨true, none⟩⟩, ⟨configHeapSize - headSize - (16 + headSize), ⟨false, none⟩⟩]

theorem heldHeap_tiled : Tiled heldHeap heldBlocks := by
  have htiled : Tiled State.start.heap ([] ++ [⟨configHeapSize - headSize, ⟨false, none⟩⟩] ++ []) :=
    heapInit_sound.toTiled
  have hsplit : Tiled (State.start.heap.take none 16 (place [])) ([] ++ [⟨16, ⟨true, none⟩⟩,
      ⟨configHeapSize - headSize - (16 + headSize), ⟨false, none⟩⟩] ++ []) :=
    take_split htiled rfl (by decide) (by decide)
  exact hsplit

theorem heldBlocks_held : (0x51000014, ⟨16, ⟨true, none⟩⟩) ∈ holdings configHeapStart heldBlocks :=
  List.mem_cons_self

/-- Task 2 frees a block while task 1 is inside `realloc`, and then frees the block between its
free neighbours. -/
theorem heap_tiling_merge : ∃ s : State,
    (s.heap.info.blockNum, s.heap.info.allocedNum, s.heap.info.freeNum) = (3, 1, 2) ∧
      ∃ bs, Tiled s.heap bs := by
  obtain ⟨s, hs, hcounts⟩ := Option.map_eq_some_iff.mp (show
    (State.start.replay
      [⟨some 1, .malloc 10⟩, ⟨some 2, .calloc 3 4⟩, ⟨some 2, .finish⟩, ⟨some 2, .malloc 0⟩,
        ⟨some 1, .realloc (configHeapStart + 20) 100⟩, ⟨some 2, .free (configHeapStart + 84)⟩,
        ⟨some 1, .finish⟩, ⟨some 2, .free (configHeapStart + 52)⟩]).map (fun s =>
      (s.heap.info.blockNum, s.heap.info.allocedNum, s.heap.info.freeNum)) = some (3, 1, 2)
    by decide)
  have hstart : Reachable heapSystem Permitted State.start := .init ⟨⟨_, rfl⟩, rfl, rfl⟩
  exact ⟨s, hcounts, heap_tiling (replay_reachable hstart hs)⟩

end DfewOS.MemH
