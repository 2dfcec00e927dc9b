import DfewOS.ByteCopySpec
import DfewOS.HeapRuns

/-!
# Requests for memory

What `malloc`, `calloc` and `realloc` answer. A request is answered well exactly if some
free block has room for it: without one `malloc` spins for ever, and a request that wraps
when it is rounded up or multiplied is given a block that is too small. `realloc` copies as
many bytes as the new block is to have, and so reads beyond a block that grows.
-/

namespace DfewOS.MemH
open CString (Reached bcopy bcopy_moved bcopy_unique)
open Memory (fresh)

/-- Some free block has `n` bytes. -/
def Room (bs : List Block) (n : ℕ) : Prop := ∃ b ∈ bs, b.info.isAlloced = false ∧ n ≤ b.size

/-- `p` is the pointer to the payload of the block `b`, which is apart from the payload of
every other block that is or was in use. -/
structure Granted (bs bs' : List Block) (p : ℕ) (b : Block) : Prop where
  held : (p, b) ∈ holdings configHeapStart bs'
  aligned : defaultAlignByte ∣ p
  inside : configHeapStart ≤ p ∧ p + b.size ≤ heapEnd
  apart : ∀ x ∈ holdings configHeapStart bs ++ holdings configHeapStart bs', x.1 ≠ p →
    x.1 + x.2.size ≤ p ∨ p + b.size ≤ x.1

/-- The call has returned `NULL` and left the heap alone, or a block that is `good`. -/
def Answered (h : Heap) (bs : List Block) (nbytes : ℕ) (good : Heap → ℕ → Block → Prop)
    (r : Option (Heap × ℕ)) : Prop :=
  ∃ h' p, r = some (h', p) ∧
    ((p = 0 ∧ h'.info = h.info ∧ h'.head = h.head) ∨
      ∃ bs' b, Tiled h' bs' ∧ Granted bs bs' p b ∧ nbytes ≤ b.size ∧ good h' p b)

def Zeroed (h : Heap) (p n : ℕ) : Prop := ∀ x, p ≤ x → x < p + n → h.byte x = 0

section Sizes
variable {h : Heap} {bs xs ys : List Block} {b : Block} {n p : ℕ}

theorem align_bounds (hn : n + 3 < 2 ^ 32) : n ≤ align n ∧ align n < n + 4 := by
  have hlow : defaultAlignByte = 4 := rfl
  have hsum : add32 n (defaultAlignByte - 1) = n + 3 := by
    rw [hlow]
    exact add32_of_lt hn
  rw [align, hsum, hlow]
  omega

theorem align_le {size : ℕ} (hn : n ≤ size) (hdvd : defaultAlignByte ∣ size)
    (hsize : size ≤ configHeapSize) : n ≤ align n ∧ align n ≤ size := by
  have hhigh : configHeapSize + 3 < 2 ^ 32 := by decide
  obtain ⟨hle, hlt⟩ := align_bounds (n := n) (by omega)
  obtain ⟨k, hk⟩ := align_dvd n
  obtain ⟨m, rfl⟩ := hdvd
  have hlow : defaultAlignByte = 4 := rfl
  rw [hlow] at hk hn ⊢
  omega

theorem Tiled.size_le (ht : Tiled h bs) (hb : b ∈ bs) : b.size ≤ configHeapSize := by
  have hall := ht.bounds.1
  obtain ⟨xs, ys, rfl⟩ := List.append_of_mem hb
  simp only [payload_append, payload_cons] at hall
  omega

theorem Room.fits (ht : Tiled h bs) (hr : Room bs n) :
    n ≤ align n ∧ ∃ b ∈ bs, b.info.isAlloced = false ∧ align n ≤ b.size := by
  obtain ⟨b, hb, hfree, hle⟩ := hr
  obtain ⟨hge, hfit⟩ := align_le hle (ht.aligned b hb) (ht.size_le hb)
  exact ⟨hge, b, hb, hfree, hfit⟩

theorem place_dvd (ht : Tiled h (xs ++ [b] ++ ys)) : defaultAlignByte ∣ place xs + headSize := by
  have hsizes : defaultAlignByte ∣ payload xs :=
    payload_dvd fun c hc => ht.aligned c (by simp [hc])
  rw [place, span_eq]
  exact Nat.dvd_add (Nat.dvd_add (by decide)
    (Nat.dvd_add (Nat.dvd_mul_right_of_dvd (by decide) _) hsizes)) (by decide)

theorem Granted.of_held {h' : Heap} {bs' : List Block} (ht' : Tiled h' bs')
    (hheld : (p, b) ∈ holdings configHeapStart bs')
    (hold : ∀ x ∈ holdings configHeapStart bs, x.1 ≠ p → x.1 + x.2.size ≤ p ∨ p + b.size ≤ x.1) :
    Granted bs bs' p b := by
  obtain ⟨xs, ys, hbs, -, hp⟩ := mem_holdings hheld
  obtain rfl : p = place xs + headSize := hp
  obtain rfl : bs' = xs ++ [b] ++ ys := hbs
  have hend := ht'.head_eq.2
  refine ⟨hheld, place_dvd ht', ⟨?_, ?_⟩, fun x hx hne => ?_⟩
  · simp only [place]
    omega
  · rw [heapEnd]
    omega
  · rcases List.mem_append.mp hx with hx | hx
    · exact hold x hx hne
    · rcases holdings_apart hx hheld with rfl | hbelow | habove
      · exact absurd rfl hne
      · exact Or.inl (le_trans (Nat.le_add_right _ headSize) hbelow)
      · exact Or.inr (le_trans (Nat.le_add_right _ headSize) habove)

end Sizes

section Malloc
variable {h h' : Heap} {bs : List Block} {n p : ℕ} {current : Option TcbPtr}
  {good : Heap → ℕ → Block → Prop}

theorem malloc_room (ht : Tiled h bs) (hm : h.malloc current n = some (h', p)) :
    p ≠ 0 ∧ (n ≤ configHeapSize → Room bs n) := by
  rcases malloc_cases ht current n with ⟨hnone, -⟩ | ⟨xs, b, ys, rfl, hfree, hle, -, heq, -⟩
  · exact absurd hm (by rw [hnone]; simp)
  · obtain ⟨rfl, rfl⟩ := Prod.mk.inj (Option.some.inj (heq.symm.trans hm))
    refine ⟨?_, fun hn => ⟨b, by simp, hfree, ?_⟩⟩
    · rw [headSize]
      omega
    · have hhigh : configHeapSize + 3 < 2 ^ 32 := by decide
      exact le_trans (align_bounds (by omega)).1 hle

theorem Answered.small {r : Option (Heap × ℕ)} (ha : Answered h bs n good r)
    (hr : ∀ h' p, r = some (h', p) → p ≠ 0) : n ≤ configHeapSize := by
  obtain ⟨h', p, heq, ⟨hnull, -⟩ | ⟨bs', b, -, hg, hsize, -⟩⟩ := ha
  · exact absurd hnull (hr h' p heq)
  · have hin := hg.inside
    rw [heapEnd] at hin
    omega

theorem Answered.room (ht : Tiled h bs) (ha : Answered h bs n good (h.malloc current n)) :
    Room bs n := by
  have hsmall := ha.small fun h' p hm => (malloc_room ht hm).1
  obtain ⟨h', p, hm, -⟩ := ha
  exact (malloc_room ht hm).2 hsmall

theorem malloc_granted (ht : Tiled h bs) (current : Option TcbPtr) (hr : Room bs n) :
    ∃ xs b ys bs', bs = xs ++ [b] ++ ys ∧ b.info.isAlloced = false ∧ align n ≤ b.size ∧
      (∀ c ∈ xs, c.info.isAlloced = true ∨ c.size < align n) ∧
      h.malloc current n = some (h.take current (align n) (place xs), place xs + headSize) ∧
      Tiled (h.take current (align n) (place xs)) bs' ∧
      (∀ x, x ∈ holdings configHeapStart bs' ↔ x ∈ holdings configHeapStart bs ∨
        x = (place xs + headSize, ⟨granted (align n) b.size, ⟨true, current⟩⟩)) ∧
      n ≤ granted (align n) b.size ∧
      Granted bs bs' (place xs + headSize) ⟨granted (align n) b.size, ⟨true, current⟩⟩ := by
  obtain ⟨hge, hfit⟩ := hr.fits ht
  obtain ⟨xs, b, ys, bs', hbs, hfree, hle, hpass, heq, ht', -, hiff⟩ := malloc_holdings ht current hfit
  have hheld := (hiff _).mpr (Or.inr rfl)
  refine ⟨xs, b, ys, bs', hbs, hfree, hle, hpass, heq, ht', hiff, ?_, ?_⟩
  · exact le_trans hge (le_granted hle)
  · refine .of_held ht' hheld fun x hx hne => ?_
    rcases holdings_apart ((hiff x).mpr (Or.inl hx)) hheld with rfl | hbelow | habove
    · exact absurd rfl hne
    · exact Or.inl (le_trans (Nat.le_add_right _ headSize) hbelow)
    · exact Or.inr (le_trans (Nat.le_add_right _ headSize) habove)

theorem malloc_answered (ht : Tiled h bs) (current : Option TcbPtr) :
    Answered h bs n (fun _ _ _ => True) (h.malloc current n) ↔ Room bs n := by
  constructor
  · exact Answered.room ht
  · intro hr
    obtain ⟨xs, b, ys, bs', -, -, -, -, heq, ht', -, hsize, hg⟩ := malloc_granted ht current hr
    exact ⟨_, _, heq, Or.inr ⟨bs', _, ht', hg, hsize, trivial⟩⟩

end Malloc

section Calloc
variable {h h' : Heap} {bs : List Block} {elemNum elemSize p : ℕ} {current : Option TcbPtr}
  {good : Heap → ℕ → Block → Prop}

theorem Heap.take_byte (h : Heap) (current : Option TcbPtr) (nbytes p : ℕ) :
    (h.take current nbytes p).byte = h.byte := rfl

theorem calloc_room (ht : Tiled h bs)
    (ha : Answered h bs (elemNum * elemSize) good (h.calloc current elemNum elemSize)) :
    Room bs (elemNum * elemSize) := by
  have hsmall := ha.small fun h' p hc => by
    obtain ⟨⟨h₁, q⟩, hm, heq⟩ := Option.map_eq_some_iff.mp hc
    obtain ⟨-, rfl⟩ := Prod.mk.inj heq
    exact (malloc_room ht hm).1
  obtain ⟨h', p, hc, -⟩ := ha
  obtain ⟨⟨h₁, q⟩, hm, -⟩ := Option.map_eq_some_iff.mp hc
  have hhigh : configHeapSize < 2 ^ 32 := by decide
  rw [Nat.mod_eq_of_lt (by omega)] at hm
  exact (malloc_room ht hm).2 hsmall

/-- The bytes of the block that `calloc` takes behind those asked for are zero already. -/
def SlackClear (h : Heap) (bs : List Block) (n : ℕ) : Prop :=
  ∀ xs b ys, bs = xs ++ [b] ++ ys → b.info.isAlloced = false → align n ≤ b.size →
    (∀ c ∈ xs, c.info.isAlloced = true ∨ c.size < align n) →
      ∀ x, place xs + headSize + n ≤ x → x < place xs + headSize + granted (align n) b.size →
        h.byte x = 0

theorem not_fit {n : ℕ} {c : Block} (h : c.info.isAlloced = true ∨ c.size < n) :
    ¬ (c.info.isAlloced = false ∧ n ≤ c.size) := by
  rintro ⟨hfree, hle⟩
  rcases h with halloc | hlt
  · exact absurd (hfree.symm.trans halloc) Bool.false_ne_true
  · omega

theorem first_unique (fit : Block → Prop) {xs us ys vs : List Block} {b d : Block}
    (heq : xs ++ [b] ++ ys = us ++ [d] ++ vs) (hb : fit b) (hd : fit d)
    (hxs : ∀ c ∈ xs, ¬ fit c) (hus : ∀ c ∈ us, ¬ fit c) : xs = us ∧ b = d := by
  induction xs generalizing us with
  | nil =>
    cases us with
    | nil => exact ⟨rfl, (List.cons.inj heq).1⟩
    | cons c us =>
      obtain rfl : b = c := (List.cons.inj heq).1
      exact absurd hb (hus b (by simp))
  | cons a xs ih =>
    cases us with
    | nil =>
      obtain rfl : a = d := (List.cons.inj heq).1
      exact absurd hd (hxs a (by simp))
    | cons c us =>
      obtain ⟨rfl, hrest⟩ := List.cons.inj heq
      obtain ⟨rfl, rfl⟩ := ih hrest (fun e he => hxs e (by simp [he])) fun e he => hus e (by simp [he])
      exact ⟨rfl, rfl⟩

theorem calloc_granted (ht : Tiled h bs) (current : Option TcbPtr) (hr : Room bs (elemNum * elemSize)) :
    ∃ xs b ys bs' h', bs = xs ++ [b] ++ ys ∧ b.info.isAlloced = false ∧
      align (elemNum * elemSize) ≤ b.size ∧
      (∀ c ∈ xs, c.info.isAlloced = true ∨ c.size < align (elemNum * elemSize)) ∧
      h.calloc current elemNum elemSize = some (h', place xs + headSize) ∧ Tiled h' bs' ∧
      Granted bs bs' (place xs + headSize)
        ⟨granted (align (elemNum * elemSize)) b.size, ⟨true, current⟩⟩ ∧
      elemNum * elemSize ≤ granted (align (elemNum * elemSize)) b.size ∧
      ∀ x, h'.byte x = if place xs + headSize ≤ x ∧
        x < place xs + headSize + elemNum * elemSize then 0 else h.byte x := by
  obtain ⟨xs, b, ys, bs', hbs, hfree, hle, hpass, heq, ht', -, hsize, hg⟩ :=
    malloc_granted ht current hr
  obtain ⟨d, hd, -, hdsize⟩ := hr
  have hsmall := ht.size_le hd
  have hhigh : configHeapSize < 2 ^ 31 := by decide
  refine ⟨xs, b, ys, bs', (h.take current (align (elemNum * elemSize)) (place xs)).memset
    (place xs + headSize) 0 (elemNum * elemSize), hbs, hfree, hle, hpass, ?_, ht'.congr rfl rfl, hg,
    hsize, fun x => ?_⟩
  · rw [Heap.calloc, Nat.mod_eq_of_lt (by omega), heq]
    rfl
  · have hint : toInt32 (elemNum * elemSize) = (elemNum * elemSize : ℕ) := by
      rw [toInt32, if_pos (by omega)]
    have harea : (place xs + headSize ≤ x ∧ (x : ℤ) < (place xs + headSize : ℕ) +
        (elemNum * elemSize : ℕ)) ↔
        (place xs + headSize ≤ x ∧ x < place xs + headSize + elemNum * elemSize) := by
      omega
    simp only [Heap.memset, hint, harea, Heap.take_byte]

theorem calloc_answered (ht : Tiled h bs) (current : Option TcbPtr) :
    Answered h bs (elemNum * elemSize) (fun h' p _ => Zeroed h' p (elemNum * elemSize))
      (h.calloc current elemNum elemSize) ↔ Room bs (elemNum * elemSize) := by
  constructor
  · exact calloc_room ht
  · intro hr
    obtain ⟨xs, b, ys, bs', h', -, -, -, -, heq, ht', hg, hsize, hbyte⟩ := calloc_granted ht current hr
    refine ⟨h', _, heq, Or.inr ⟨bs', _, ht', hg, hsize, fun x hge hlt => ?_⟩⟩
    rw [hbyte, if_pos ⟨hge, hlt⟩]

theorem calloc_answered_whole (ht : Tiled h bs) (current : Option TcbPtr) :
    Answered h bs (elemNum * elemSize) (fun h' p b => Zeroed h' p b.size)
      (h.calloc current elemNum elemSize) ↔
        Room bs (elemNum * elemSize) ∧ SlackClear h bs (elemNum * elemSize) := by
  constructor
  · intro ha
    have hr := calloc_room ht ha
    refine ⟨hr, fun us d vs hbs' hfree' hle' hpass' x hge hlt => ?_⟩
    obtain ⟨xs, b, ys, bs', h', hbs, hfree, hle, hpass, heq, ht', hg, hsize, hbyte⟩ :=
      calloc_granted ht current hr
    obtain ⟨rfl, rfl⟩ := first_unique
      (fun c => c.info.isAlloced = false ∧ align (elemNum * elemSize) ≤ c.size) (hbs.symm.trans hbs')
      ⟨hfree, hle⟩ ⟨hfree', hle'⟩ (fun c hc => not_fit (hpass c hc))
      fun c hc => not_fit (hpass' c hc)
    obtain ⟨h'', p, hc, hcase⟩ := ha
    obtain ⟨rfl, rfl⟩ := Prod.mk.inj (Option.some.inj (heq.symm.trans hc))
    rcases hcase with ⟨hnull, -⟩ | ⟨bs'', c, ht'', hg', -, hzero⟩
    · rw [headSize] at hnull
      omega
    · obtain rfl := held_unique ht' ht'' hg.held hg'.held
      have hx := hzero x (by omega) hlt
      rwa [hbyte, if_neg (by omega)] at hx
  · rintro ⟨hr, hslack⟩
    obtain ⟨xs, b, ys, bs', h', hbs, hfree, hle, hpass, heq, ht', hg, hsize, hbyte⟩ :=
      calloc_granted ht current hr
    refine ⟨h', _, heq, Or.inr ⟨bs', _, ht', hg, hsize, fun x hge hlt => ?_⟩⟩
    rw [hbyte]
    split_ifs with hin
    · rfl
    · exact hslack xs b ys hbs hfree hle hpass x (by omega) hlt

end Calloc

section Realloc
variable {h h' : Heap} {bs : List Block} {b c : Block} {n p : ℕ} {current : Option TcbPtr}
  {good : Heap → ℕ → Block → Prop}

theorem realloc_held (ht : Tiled h bs) (current : Option TcbPtr) (hr : Room bs n) (hpos : 0 < n)
    (hp : (p, c) ∈ holdings configHeapStart bs) :
    ∃ h₁ q h' bs' b, h.malloc current n = some (h₁, q) ∧ h₁.byte = h.byte ∧
      h.realloc current p n = some (h', q) ∧ h'.byte = (h₁.bcopy p q n).byte ∧ Tiled h' bs' ∧
      Granted bs bs' q b ∧ n ≤ b.size ∧ (∀ x ∈ holdings configHeapStart bs, x.1 ≠ q) ∧
      (p < heapEnd → ∀ x, x ∈ holdings configHeapStart bs' ↔
        (x ∈ holdings configHeapStart bs ∨ x = (q, b)) ∧ x.1 ≠ p) := by
  obtain ⟨xs, b, ys, bs₁, rfl, hfree, -, -, heq, ht₁, hiff, hsize, hg⟩ := malloc_granted ht current hr
  have hnew : ∀ x ∈ holdings configHeapStart (xs ++ [b] ++ ys), x.1 ≠ place xs + headSize := by
    rintro ⟨q, d⟩ hx rfl
    exact free_not_held ht hfree d hx
  have hlow : headSize ≠ 0 := by decide
  have hrealloc : h.realloc current p n = ((Heap.bcopy (h.take current (align n) (place xs)) p
      (place xs + headSize) n).free p).map fun h => (h, place xs + headSize) := by
    have hp0 : p ≠ 0 := by
      have hbound := (holdings_bounds hp).1
      simp only at hbound
      omega
    rw [Heap.realloc, if_neg (by omega), heq]
    simp only [Option.bind_some]
    rw [if_pos ⟨hp0, by omega⟩]
  have ht₂ : Tiled (Heap.bcopy (h.take current (align n) (place xs)) p (place xs + headSize) n) bs₁ :=
    ht₁.congr rfl rfl
  rw [hrealloc]
  by_cases hlt : p < heapEnd
  · obtain ⟨h', bs', hfreed, hbyte, ht', -, hiff'⟩ := free_holdings ht₂ ((hiff _).mpr (Or.inl hp)) hlt
    have hall : ∀ x, x ∈ holdings configHeapStart bs' ↔ (x ∈ holdings configHeapStart
        (xs ++ [b] ++ ys) ∨ x = (place xs + headSize, ⟨granted (align n) b.size, ⟨true, current⟩⟩)) ∧
          x.1 ≠ p := by
      intro x
      rw [hiff', hiff]
    refine ⟨_, _, h', bs', _, heq, rfl, by rw [hfreed]; rfl, hbyte, ht', ?_, hsize, hnew, fun _ => hall⟩
    refine .of_held ht' ((hall _).mpr ⟨Or.inr rfl, fun hsame => hnew _ hp hsame.symm⟩) ?_
    exact fun x hx => hg.apart x (List.mem_append_left _ hx)
  · refine ⟨_, _, _, bs₁, _, heq, rfl, ?_, rfl, ht₂, hg, hsize, hnew, fun h => absurd h hlt⟩
    rw [free_outside ht₂ (Or.inr (by omega))]
    rfl

theorem realloc_room (ht : Tiled h bs) (hn : n ≠ 0)
    (ha : Answered h bs n good (h.realloc current p n)) : Room bs n := by
  have hmalloc : ∀ h' q, h.realloc current p n = some (h', q) →
      ∃ h₁, h.malloc current n = some (h₁, q) := by
    intro h' q hrealloc
    rw [Heap.realloc, if_neg hn] at hrealloc
    obtain ⟨⟨h₁, q₁⟩, hm, hrest⟩ := Option.bind_eq_some_iff.mp hrealloc
    split_ifs at hrest
    · obtain ⟨h₂, -, heq⟩ := Option.map_eq_some_iff.mp hrest
      exact ⟨h₁, (Prod.mk.inj heq).2 ▸ hm⟩
    · exact ⟨h₁, (Prod.mk.inj (Option.some.inj hrest)).2 ▸ hm⟩
  have hsmall := ha.small fun h' q hrealloc => by
    obtain ⟨h₁, hm⟩ := hmalloc h' q hrealloc
    exact (malloc_room ht hm).1
  obtain ⟨h', q, hrealloc, -⟩ := ha
  obtain ⟨h₁, hm⟩ := hmalloc h' q hrealloc
  exact (malloc_room ht hm).2 hsmall

theorem realloc_zero (ht : Tiled h bs) (current : Option TcbPtr)
    (hp : p = 0 ∨ ∃ c, (p, c) ∈ holdings configHeapStart bs) :
    Answered h bs 0 (fun _ _ _ => True) (h.realloc current p 0) ↔ p = 0 ∨ heapEnd ≤ p := by
  rw [Heap.realloc, if_pos rfl]
  constructor
  · rintro ⟨h', q, hmap, hcase⟩
    obtain ⟨h₁, hfreed, heq⟩ := Option.map_eq_some_iff.mp hmap
    obtain ⟨rfl, rfl⟩ := Prod.mk.inj heq
    rcases hcase with ⟨-, hinfo, -⟩ | ⟨bs', b, -, hg, -⟩
    · rcases hp with rfl | ⟨c, hc⟩
      · exact Or.inl rfl
      · obtain ⟨xs, ys, rfl, -, hplace⟩ := mem_holdings hc
        obtain rfl : p = place xs + headSize := hplace
        by_contra hbad
        exact free_counted ht (by omega) hfreed hinfo
    · have hin := hg.inside.1
      have hlow : 0 < configHeapStart := by decide
      omega
  · intro hout
    have hout' : p < configHeapStart ∨ heapEnd ≤ p := by
      have hlow : 0 < configHeapStart := by decide
      omega
    rw [free_outside ht hout']
    exact ⟨h, 0, rfl, Or.inl ⟨rfl, rfl, rfl⟩⟩

theorem realloc_answered (ht : Tiled h bs) (current : Option TcbPtr) (hn : n ≠ 0)
    (hp : p = 0 ∨ ∃ c, (p, c) ∈ holdings configHeapStart bs) :
    Answered h bs n (fun _ _ _ => True) (h.realloc current p n) ↔ Room bs n := by
  constructor
  · exact realloc_room ht hn
  · intro hr
    rcases hp with rfl | ⟨c, hc⟩
    · obtain ⟨xs, b, ys, bs', -, -, -, -, heq, ht', -, hsize, hg⟩ := malloc_granted ht current hr
      refine ⟨_, _, ?_, Or.inr ⟨bs', _, ht', hg, hsize, trivial⟩⟩
      rw [Heap.realloc, if_neg hn, heq]
      rfl
    · obtain ⟨h₁, q, h', bs', b, -, -, heq, -, ht', hg, hsize, -⟩ :=
        realloc_held ht current hr (by omega) hc
      exact ⟨h', q, heq, Or.inr ⟨bs', b, ht', hg, hsize, trivial⟩⟩

end Realloc

/-- A request is answered well exactly if a free block has room for what it asks for, and
`realloc` of no bytes if there is nothing to free. -/
theorem requests_answered {h : Heap} {bs : List Block} (ht : Tiled h bs) (current : Option TcbPtr) :
    (∀ n < 2 ^ 32, Answered h bs n (fun _ _ _ => True) (h.malloc current n) ↔ Room bs n) ∧
    (∀ elemNum < 2 ^ 32, ∀ elemSize < 2 ^ 32,
      (Answered h bs (elemNum * elemSize) (fun h' p _ => Zeroed h' p (elemNum * elemSize))
        (h.calloc current elemNum elemSize) ↔ Room bs (elemNum * elemSize)) ∧
      (Answered h bs (elemNum * elemSize) (fun h' p b => Zeroed h' p b.size)
        (h.calloc current elemNum elemSize) ↔
          Room bs (elemNum * elemSize) ∧ SlackClear h bs (elemNum * elemSize))) ∧
    ∀ p, (p = 0 ∨ ∃ c, (p, c) ∈ holdings configHeapStart bs) → ∀ n < 2 ^ 32,
      Answered h bs n (fun _ _ _ => True) (h.realloc current p n) ↔
        if n = 0 then p = 0 ∨ heapEnd ≤ p else Room bs n := by
  refine ⟨fun n _ => malloc_answered ht current, fun k _ s _ => ⟨calloc_answered ht current,
    calloc_answered_whole ht current⟩, fun p hp n _ => ?_⟩
  split_ifs with hzero
  · subst hzero
    exact realloc_zero ht current hp
  · exact realloc_answered ht current hzero hp

theorem requests_answered_eight : Answered State.start.heap [⟨configHeapSize - headSize, ⟨false, none⟩⟩] 8
    (fun _ _ _ => True) (State.start.heap.malloc none 8) :=
  ((requests_answered heapInit_sound.toTiled none).1 8 (by decide)).mpr
    ⟨_, List.mem_singleton_self _, rfl, by decide⟩

/-- Rounded up, the greatest requests wrap to 0, and the heap that is free as a whole gives
them a block of no bytes. -/
theorem wrapped_request : ∃ bs, Tiled State.start.heap bs ∧
    ¬ Answered State.start.heap bs 0xfffffffd (fun _ _ _ => True)
      (State.start.heap.malloc none 0xfffffffd) := by
  refine ⟨_, heapInit_sound.toTiled, fun ha => ?_⟩
  obtain ⟨b, hb, -, hle⟩ := ha.room heapInit_sound.toTiled
  obtain rfl := List.mem_singleton.mp hb
  exact absurd hle (by decide)

/-- The copy that `realloc` makes between `malloc` and `free`, with its accesses. -/
def Heap.reallocCopy (h : Heap) (current : Option TcbPtr) (pBlock newSize fuel : ℕ) : Option Memory :=
  (h.malloc current newSize).bind fun r =>
    CString.bcopy fuel (fresh r.1.byte) pBlock r.2 (toInt32 newSize)

/-- `realloc` has moved the block `c` at `p`, and has read no other bytes for it. -/
def PreservesContents (h : Heap) (bs : List Block) (current : Option TcbPtr) (p n : ℕ) (c : Block) :
    Prop :=
  ∃ h' q bs' b, h.realloc current p n = some (h', q) ∧ Tiled h' bs' ∧ Granted bs bs' q b ∧
    n ≤ b.size ∧ (∀ i < min c.size n, h'.byte (q + i) = h.byte (p + i)) ∧
    (∀ d, (p, d) ∉ holdings configHeapStart bs') ∧
    (∀ x ∈ holdings configHeapStart bs, x.1 ≠ p → x ∈ holdings configHeapStart bs' ∧
      ∀ i < x.2.size, h'.byte (x.1 + i) = h.byte (x.1 + i)) ∧
    ∃ fuel m, h.reallocCopy current p n fuel = some m ∧ m.byte = h'.byte ∧
      ∀ x ∈ m.reads, p ≤ x ∧ x < p + c.size

section Copy
variable {h : Heap} {bs : List Block} {c : Block} {n p q fuel : ℕ} {m : Memory}
  {current : Option TcbPtr}

theorem Tiled.holdings_inside (ht : Tiled h bs) (hp : (p, c) ∈ holdings configHeapStart bs) :
    configHeapStart + headSize ≤ p ∧ p + c.size ≤ heapEnd := by
  have hbound := holdings_bounds hp
  rw [ht.span, ht.size] at hbound
  exact hbound

theorem reallocCopy_moved {h₁ : Heap} (ht : Tiled h bs) (hr : Room bs n)
    (hp : (p, c) ∈ holdings configHeapStart bs) (hm : h.malloc current n = some (h₁, q))
    (hq : q + n ≤ heapEnd) :
    ∃ m, h.reallocCopy current p n (n + 10) = some m ∧ Memory.Moved (fresh h₁.byte) m p q 0 n := by
  have hin := ht.holdings_inside hp
  obtain ⟨b, hb, -, hle⟩ := hr
  have hsmall := ht.size_le hb
  have hend : heapEnd + configHeapSize < 2 ^ 32 - 4 := by decide
  have hhalf : configHeapSize < 2 ^ 31 := by decide
  have hreach : Reached p q n := by
    rw [Reached]
    split_ifs
    · omega
    · exact Or.inr (Or.inl (by omega))
  have hint : toInt32 n = (n : ℕ) := by
    rw [toInt32, if_pos (by omega)]
  rw [Heap.reallocCopy, hm]
  simp only [Option.bind_some, hint]
  exact bcopy_moved _ (by omega) (by omega) (by omega) (by omega) (by omega) hreach

theorem reallocCopy_unique {more : ℕ} {m' : Memory} (hc : h.reallocCopy current p n fuel = some m)
    (hc' : h.reallocCopy current p n more = some m') : m = m' := by
  rw [Heap.reallocCopy] at hc hc'
  obtain ⟨r, hr, hc⟩ := Option.bind_eq_some_iff.mp hc
  obtain ⟨r', hr', hc'⟩ := Option.bind_eq_some_iff.mp hc'
  obtain rfl := Option.some.inj (hr.symm.trans hr')
  exact bcopy_unique hc hc'

/-- `realloc` has read as many bytes as were asked for, so these were all in the old block. -/
theorem PreservesContents.le (ht : Tiled h bs) (hp : (p, c) ∈ holdings configHeapStart bs)
    (hpos : 0 < n) (hr : Room bs n) (hkept : PreservesContents h bs current p n c) : n ≤ c.size := by
  obtain ⟨h₁, q, h', bs', b, hm, -, -, -, -, hg, hsize, -⟩ := realloc_held ht current hr hpos hp
  have hqin := hg.inside
  obtain ⟨m, hcopy, hmoved⟩ := reallocCopy_moved ht hr hp hm (by omega)
  obtain ⟨-, -, -, -, -, -, -, -, -, -, -, fuel, m', hcopy', -, hreads⟩ := hkept
  obtain rfl := reallocCopy_unique hcopy hcopy'
  have hlast := hreads (p + (n - 1)) ((hmoved.reads _).mpr (Or.inr (by omega)))
  omega

theorem preservesContents_of_le (ht : Tiled h bs) (current : Option TcbPtr)
    (hp : (p, c) ∈ holdings configHeapStart bs) (hpos : 0 < n) (hr : Room bs n) (hle : n ≤ c.size) :
    PreservesContents h bs current p n c := by
  have hin := ht.holdings_inside hp
  obtain ⟨h₁, q, h', bs', b, hm, hbyte₁, hrealloc, hbyte, ht', hg, hsize, hnew, hiff⟩ :=
    realloc_held ht current hr hpos hp
  have hqin := hg.inside
  obtain ⟨m, hcopy, hmoved⟩ := reallocCopy_moved ht hr hp hm (by omega)
  have hlt : p < heapEnd := by omega
  have hint : toInt32 n = (n : ℕ) := by
    have hhalf : heapEnd < 2 ^ 31 := by decide
    rw [toInt32, if_pos (by omega)]
  have hsame : m.byte = h'.byte := by
    funext x
    rw [hbyte, hmoved.byte]
    simp only [Heap.bcopy, hint, fresh, Nat.add_zero]
    exact if_congr (by omega) rfl rfl
  have hbytes : ∀ x, h'.byte x = if q ≤ x ∧ x < q + n then h.byte (p + (x - q)) else h.byte x := by
    intro x
    rw [← hsame, hmoved.byte]
    simp only [fresh, hbyte₁, Nat.add_zero]
  refine ⟨h', q, bs', b, hrealloc, ht', hg, hsize, fun i hi => ?_, fun d hd => ?_,
    fun x hx hne => ⟨?_, fun i hi => ?_⟩, n + 10, m, hcopy, hsame, fun x hx => ?_⟩
  · rw [hbytes, if_pos (by omega), Nat.add_sub_cancel_left]
  · exact ((hiff hlt _).mp hd).2 rfl
  · exact (hiff hlt x).mpr ⟨Or.inl hx, hne⟩
  · have hapart := hg.apart x (List.mem_append_left _ hx) (hnew x hx)
    rw [hbytes, if_neg (by omega)]
  · rcases (hmoved.reads x).mp hx with hold | hread
    · exact absurd hold (by simp [fresh])
    · omega

end Copy

/-- `realloc` preserves the contents of a block exactly if the block does not grow. -/
theorem realloc_preserves {h : Heap} {bs : List Block} (ht : Tiled h bs) (current : Option TcbPtr)
    {p n : ℕ} {c : Block} (hp : (p, c) ∈ holdings configHeapStart bs) (hpos : 0 < n)
    (hr : Room bs n) : PreservesContents h bs current p n c ↔ n ≤ c.size :=
  ⟨PreservesContents.le ht hp hpos hr, preservesContents_of_le ht current hp hpos hr⟩

theorem heldBlocks_room : Room heldBlocks 32 := ⟨_, List.mem_cons_of_mem _ List.mem_cons_self, rfl, by decide⟩

theorem realloc_preserves_shrunk :
    PreservesContents heldHeap heldBlocks none 0x51000014 8 ⟨16, ⟨true, none⟩⟩ :=
  (realloc_preserves heldHeap_tiled none heldBlocks_held (by decide)
    ⟨_, List.mem_cons_of_mem _ List.mem_cons_self, rfl, by decide⟩).mpr (by decide)

/-- Growing a block of 16 bytes to 32 reads the header behind it. -/
theorem realloc_reads_beyond : ∃ h bs p c, Tiled h bs ∧ (p, c) ∈ holdings configHeapStart bs ∧
    Room bs 32 ∧ ¬ PreservesContents h bs none p 32 c := by
  refine ⟨heldHeap, heldBlocks, _, _, heldHeap_tiled, heldBlocks_held, heldBlocks_room, fun hkept => ?_⟩
  exact absurd (hkept.le heldHeap_tiled heldBlocks_held (by decide) heldBlocks_room) (by decide)

end DfewOS.MemH
