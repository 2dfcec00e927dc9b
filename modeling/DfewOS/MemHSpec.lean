import DfewOS.MemH
import DfewOS.Transition
import Mathlib.Algebra.Order.BigOperators.Group.List
import Mathlib.Algebra.Ring.Nat
import Mathlib.Data.List.Chain

/-!
# The blocks of the heap

`Tiled h bs` ties the headers and the counters of the heap to the list of its
blocks. `malloc` replaces the block it finds by one or two, `free` replaces its
block and the free neighbours by one: both are replacements in the middle of the
list, and the counters follow the numbers and payloads of what is replaced.
-/

namespace DfewOS.MemH
open Blocks (Laid span first last walk walk_cases laid_append last_append)
open Transition (System Run Reachable)

abbrev Block := Blocks.Block BlockInfo

def used (bs : List Block) : List Block := bs.filter fun b => b.info.isAlloced
def unused (bs : List Block) : List Block := bs.filter fun b => !b.info.isAlloced
def payload (bs : List Block) : ℕ := (bs.map fun b => b.size).sum

def place (xs : List Block) : ℕ := configHeapStart + Blocks.span headSize xs

theorem place_append (xs ys : List Block) :
    place (xs ++ ys) = place xs + Blocks.span headSize ys := by
  rw [place, place, Blocks.span_append, Nat.add_assoc]

/-- One of two neighbours is allocated. -/
def Apart (b c : Block) : Prop := b.info.isAlloced = true ∨ c.info.isAlloced = true

structure Tiled (h : Heap) (bs : List Block) : Prop where
  laid : Laid headSize h.head none h.info.heapStart bs none
  span : span headSize bs = h.info.heapSize
  start : h.info.heapStart = configHeapStart
  size : h.info.heapSize = configHeapSize
  apart : bs.IsChain Apart
  aligned : ∀ b ∈ bs, defaultAlignByte ∣ b.size
  unowned : ∀ b ∈ bs, b.info.isAlloced = false → b.info = ⟨false, none⟩
  blockNum : h.info.blockNum = bs.length
  allocedNum : h.info.allocedNum = (used bs).length
  allocedSize : h.info.allocedSize = payload (used bs)
  freeNum : h.info.freeNum = (unused bs).length
  freeSize : h.info.freeSize = payload (unused bs)

section Sums
variable {b : Block} {bs xs ys : List Block}

@[simp] theorem used_nil : used [] = [] := rfl
@[simp] theorem unused_nil : unused [] = [] := rfl
@[simp] theorem payload_nil : payload [] = 0 := rfl

theorem used_cons : used (b :: bs) = if b.info.isAlloced then b :: used bs else used bs := by
  simp [used, List.filter_cons]

theorem unused_cons : unused (b :: bs) = if b.info.isAlloced then unused bs else b :: unused bs := by
  cases h : b.info.isAlloced <;> simp [unused, h]

@[simp] theorem used_append : used (xs ++ ys) = used xs ++ used ys := by simp [used]
@[simp] theorem unused_append : unused (xs ++ ys) = unused xs ++ unused ys := by simp [unused]
@[simp] theorem payload_cons : payload (b :: bs) = b.size + payload bs := by simp [payload]
@[simp] theorem payload_append : payload (xs ++ ys) = payload xs + payload ys := by simp [payload]

theorem length_used_add : (used bs).length + (unused bs).length = bs.length := by
  induction bs with
  | nil => rfl
  | cons b bs ih =>
    rw [used_cons, unused_cons]
    split_ifs <;> simp only [List.length_cons] <;> omega

theorem payload_used_add : payload (used bs) + payload (unused bs) = payload bs := by
  induction bs with
  | nil => rfl
  | cons b bs ih =>
    rw [used_cons, unused_cons]
    split_ifs <;> simp only [payload_cons] <;> omega

theorem span_eq : span headSize bs = headSize * bs.length + payload bs := by
  induction bs with
  | nil => rfl
  | cons b bs ih =>
    simp only [Blocks.span_cons, ih, List.length_cons, payload_cons, Nat.mul_succ]
    omega

end Sums

section Words
variable {x y : ℕ}

theorem add32_of_lt (h : x + y < 2 ^ 32) : add32 x y = x + y := Nat.mod_eq_of_lt h

theorem sub32_of_le (h : y ≤ x) (hx : x < 2 ^ 32) : sub32 x y = x - y := by
  rw [sub32, Nat.mod_eq_of_lt (show y < 2 ^ 32 by omega)]
  omega

theorem align_dvd (n : ℕ) : defaultAlignByte ∣ align n :=
  Nat.dvd_sub_mod _

theorem splits_iff {size need : ℕ} (hsize : size < 2 ^ 31) (hneed : need < 2 ^ 31) :
    (defaultAlignByte : ℤ) ≤ toInt32 (sub32 size need) ↔ need + defaultAlignByte ≤ size := by
  rw [toInt32, sub32, defaultAlignByte, Nat.mod_eq_of_lt (show need < 2 ^ 32 by omega)]
  split_ifs <;> omega

end Words

section Replace
variable {h h' : Heap} {xs ys ms ms' : List Block} {b : Block}

theorem setPrev_of_ne {head : ℕ → BlockHead} {z x : ℕ} {prev : Option ℕ} (hne : x ≠ z) :
    setPrev head (first z ys none) prev x = head x := by
  cases ys with
  | nil => rfl
  | cons b ys => exact Function.update_of_ne hne ..

theorem setPrev_self {head : ℕ → BlockHead} {z : ℕ} {prev : Option ℕ} (hne : ys ≠ []) :
    setPrev head (first z ys none) prev z = { head z with prev := prev } := by
  cases ys with
  | nil => exact absurd rfl hne
  | cons b ys => exact Function.update_self ..

theorem setPrev_update {head : ℕ → BlockHead} {z q : ℕ} {v : BlockHead} {prev : Option ℕ}
    (hne : z ≠ q) : setPrev (Function.update head q v) (first z ys none) prev =
      Function.update (setPrev head (first z ys none) prev) q v := by
  cases ys with
  | nil => rfl
  | cons b ys =>
    simp only [setPrev, Blocks.first_cons, Function.update_of_ne hne]
    exact Function.update_comm hne.symm ..

theorem Tiled.replace (ht : Tiled h (xs ++ ms ++ ys))
    (hlaid : Laid headSize h'.head none h.info.heapStart (xs ++ ms' ++ ys) none)
    (hspan : Blocks.span headSize ms' = Blocks.span headSize ms)
    (hstart : h'.info.heapStart = h.info.heapStart) (hsize : h'.info.heapSize = h.info.heapSize)
    (hapart : (xs ++ ms' ++ ys).IsChain Apart)
    (haligned : ∀ b ∈ ms', defaultAlignByte ∣ b.size)
    (hunowned : ∀ b ∈ ms', b.info.isAlloced = false → b.info = ⟨false, none⟩)
    (hblock : h'.info.blockNum + ms.length = h.info.blockNum + ms'.length)
    (hnum : h'.info.allocedNum + (used ms).length = h.info.allocedNum + (used ms').length)
    (hbytes : h'.info.allocedSize + payload (used ms) = h.info.allocedSize + payload (used ms'))
    (hfree : h'.info.freeNum + (unused ms).length = h.info.freeNum + (unused ms').length)
    (hleft : h'.info.freeSize + payload (unused ms) = h.info.freeSize + payload (unused ms')) :
    Tiled h' (xs ++ ms' ++ ys) := by
  have hold : ∀ c ∈ xs ++ ms' ++ ys, c ∈ ms' ∨ c ∈ xs ++ ms ++ ys := by
    intro c hc
    rcases List.mem_append.mp hc with hc | hys
    · rcases List.mem_append.mp hc with hxs | hms
      · exact Or.inr (List.mem_append_left ys (List.mem_append_left ms hxs))
      · exact Or.inl hms
    · exact Or.inr (List.mem_append_right (xs ++ ms) hys)
  constructor
  case laid => rw [hstart]; exact hlaid
  case span =>
    have hs := ht.span
    simp only [Blocks.span_append] at hs ⊢
    omega
  case start => rw [hstart, ht.start]
  case size => rw [hsize, ht.size]
  case apart => exact hapart
  case aligned => exact fun c hc => (hold c hc).elim (haligned c) (ht.aligned c)
  case unowned => exact fun c hc => (hold c hc).elim (hunowned c) (ht.unowned c)
  case blockNum =>
    have hn := ht.blockNum
    simp only [List.length_append] at hn ⊢
    omega
  case allocedNum =>
    have hn := ht.allocedNum
    simp only [used_append, List.length_append] at hn ⊢
    omega
  case allocedSize =>
    have hn := ht.allocedSize
    simp only [used_append, payload_append] at hn ⊢
    omega
  case freeNum =>
    have hn := ht.freeNum
    simp only [unused_append, List.length_append] at hn ⊢
    omega
  case freeSize =>
    have hn := ht.freeSize
    simp only [unused_append, payload_append] at hn ⊢
    omega

end Replace

section Bounds
variable {h : Heap} {bs xs ys : List Block} {b : Block}

theorem Tiled.bounds (ht : Tiled h bs) :
    headSize * bs.length + payload bs = configHeapSize ∧
      h.info.blockNum = h.info.allocedNum + h.info.freeNum ∧
      h.info.allocedSize + h.info.freeSize = payload bs := by
  have hspan := ht.span
  rw [span_eq, ht.size] at hspan
  refine ⟨hspan, ?_, ?_⟩
  · rw [ht.blockNum, ht.allocedNum, ht.freeNum, length_used_add]
  · rw [ht.allocedSize, ht.freeSize, payload_used_add]

theorem Tiled.ne_nil (ht : Tiled h bs) : bs ≠ [] := by
  rintro rfl
  have hspan := ht.span
  rw [ht.size] at hspan
  exact absurd hspan (by decide)

theorem Tiled.length_lt (ht : Tiled h bs) : bs.length < h.rounds := by
  have hb := ht.bounds.1
  rw [Heap.rounds, ht.size]
  simp only [headSize] at hb
  omega

theorem Tiled.head_eq (ht : Tiled h (xs ++ [b] ++ ys)) :
    h.head (place xs) = ⟨last headSize none configHeapStart xs,
        first (place xs + headSize + b.size) ys none, b.size, b.info⟩ ∧
      place xs + headSize + b.size + Blocks.span headSize ys =
        configHeapStart + configHeapSize := by
  have hlaid := ht.laid
  have hspan := ht.span
  rw [ht.start, List.append_assoc, laid_append] at hlaid
  rw [ht.size] at hspan
  simp only [Blocks.span_append, Blocks.span_cons, Blocks.span_nil] at hspan
  refine ⟨hlaid.2.1, ?_⟩
  rw [place]
  omega

end Bounds

section Malloc
variable {h : Heap} {bs xs ys : List Block} {b : Block} {current : Option TcbPtr} {nbytes p : ℕ}

/-- What `malloc` makes of a free block: its first part, and a new free block if there is room
for one. -/
def carve (current : Option TcbPtr) (nbytes : ℕ) (b : Block) : List Block :=
  if nbytes + headSize + defaultAlignByte ≤ b.size then
    [⟨nbytes, ⟨true, current⟩⟩, ⟨b.size - (nbytes + headSize), ⟨false, none⟩⟩]
  else [⟨b.size, ⟨true, current⟩⟩]

theorem carve_span :
    Blocks.span headSize (carve current nbytes b) = Blocks.span headSize [b] := by
  rw [carve]
  split_ifs with hroom
  · simp only [Blocks.span_cons, Blocks.span_nil, headSize, defaultAlignByte] at hroom ⊢
    omega
  · rfl

theorem carve_apart (current : Option TcbPtr) (nbytes : ℕ)
    (h : (xs ++ [b] ++ ys).IsChain Apart) (hfree : b.info.isAlloced = false) :
    (xs ++ carve current nbytes b ++ ys).IsChain Apart := by
  rw [List.append_assoc, List.isChain_append] at h
  obtain ⟨hxs, hys, -⟩ := h
  have hrest : ys.IsChain Apart := (List.isChain_append.mp hys).2.1
  have hnext : ∀ c ∈ ys.head?, c.info.isAlloced = true := fun c hc => by
    have happ := (List.isChain_append.mp hys).2.2 b (by simp) c hc
    exact happ.resolve_left (by rw [hfree]; simp)
  rw [List.append_assoc, List.isChain_append]
  refine ⟨hxs, ?_, fun c _ d hd => ?_⟩
  · rw [List.isChain_append]
    refine ⟨?_, hrest, fun c _ d hd => Or.inr (hnext d hd)⟩
    rw [carve]
    split_ifs
    · exact List.isChain_cons_cons.mpr ⟨Or.inl rfl, List.IsChain.singleton _⟩
    · exact List.IsChain.singleton _
  · rw [carve] at hd
    split_ifs at hd <;>
    · obtain rfl := Option.some.inj hd
      exact Or.inr rfl

theorem take_split (ht : Tiled h (xs ++ [b] ++ ys)) (hfree : b.info.isAlloced = false)
    (hdvd : defaultAlignByte ∣ nbytes) (hroom : nbytes + headSize + defaultAlignByte ≤ b.size) :
    Tiled (h.take current nbytes (place xs))
      (xs ++ [⟨nbytes, ⟨true, current⟩⟩, ⟨b.size - (nbytes + headSize), ⟨false, none⟩⟩] ++ ys) := by
  obtain ⟨hhead, hend⟩ := ht.head_eq
  obtain ⟨hall, hnums, hsizes⟩ := ht.bounds
  have hbdvd : defaultAlignByte ∣ b.size := ht.aligned b (by simp)
  have hfreeSize : b.size ≤ h.info.freeSize := by
    rw [ht.freeSize]
    simp [unused_cons, hfree]
    omega
  have hblock := ht.blockNum
  have hapart := carve_apart current nbytes ht.apart hfree
  rw [carve, if_pos hroom] at hapart
  simp only [List.length_append, payload_append, List.length_cons, payload_cons, headSize,
    configHeapSize, configHeapStart, defaultAlignByte, List.length_nil, payload_nil] at *
  have hneed : add32 nbytes 20 = nbytes + 20 := add32_of_lt (by omega)
  have hnew : add32 (place xs) (nbytes + 20) = place xs + (nbytes + 20) := add32_of_lt (by omega)
  have hrest : sub32 b.size (nbytes + 20) = b.size - (nbytes + 20) := sub32_of_le (by omega) (by omega)
  have hcond : (4 : ℤ) ≤ toInt32 (sub32 b.size (nbytes + 20)) :=
    (splits_iff (by omega) (by omega)).mpr (by simp only [defaultAlignByte]; omega)
  have heq : h.take current nbytes (place xs) =
      { info := { h.info with
          blockNum := h.info.blockNum + 1
          freeSize := h.info.freeSize - (nbytes + 20)
          allocedNum := h.info.allocedNum + 1
          allocedSize := h.info.allocedSize + nbytes }
        head := Function.update (Function.update (setPrev h.head
            (first (place xs + 20 + b.size) ys none) (some (place xs + (nbytes + 20))))
            (place xs + (nbytes + 20)) ⟨some (place xs), first (place xs + 20 + b.size) ys none,
              b.size - (nbytes + 20), ⟨false, none⟩⟩)
          (place xs) ⟨last 20 none 0x51000000 xs, some (place xs + (nbytes + 20)), nbytes,
            ⟨true, current⟩⟩
        byte := h.byte } := by
    have hlast : place xs + 20 + b.size ≠ place xs + (nbytes + 20) := by omega
    have hself : place xs ≠ place xs + 20 + b.size := by omega
    have hother : place xs ≠ place xs + (nbytes + 20) := by omega
    have hblocks : add32 h.info.blockNum 1 = h.info.blockNum + 1 := add32_of_lt (by omega)
    have hfreed : sub32 h.info.freeSize (nbytes + 20) = h.info.freeSize - (nbytes + 20) :=
      sub32_of_le (by omega) (by omega)
    have hnum : add32 h.info.allocedNum 1 = h.info.allocedNum + 1 := add32_of_lt (by omega)
    have hbytes : add32 h.info.allocedSize nbytes = h.info.allocedSize + nbytes :=
      add32_of_lt (by omega)
    simp only [Heap.take, headSize, defaultAlignByte, hneed, hhead, hnew]
    rw [if_pos (by exact_mod_cast hcond)]
    simp only [hrest, setPrev_update hlast, Function.update_self, Function.update_of_ne hother,
      setPrev_of_ne hself, hhead, Function.update_idem, hblocks, hfreed, hnum, hbytes]
  have hspan : Blocks.span headSize [(⟨nbytes, ⟨true, current⟩⟩ : Block),
      ⟨b.size - (nbytes + 20), ⟨false, none⟩⟩] = Blocks.span headSize [b] := by
    simp only [Blocks.span_cons, Blocks.span_nil, headSize]
    omega
  have hplace : h.info.heapStart + Blocks.span headSize xs = place xs := by rw [ht.start]; rfl
  have hblk : Blocks.span headSize [b] = 20 + b.size := rfl
  generalize h.take current nbytes (place xs) = h' at heq ⊢
  have hp : h'.head (place xs) = ⟨last headSize none configHeapStart xs,
      some (place xs + (nbytes + 20)), nbytes, ⟨true, current⟩⟩ := by
    rw [heq]
    exact Function.update_self ..
  have hq : h'.head (place xs + (nbytes + 20)) = ⟨some (place xs),
      first (place xs + 20 + b.size) ys none, b.size - (nbytes + 20), ⟨false, none⟩⟩ := by
    rw [heq]
    exact (Function.update_of_ne (by omega) ..).trans (Function.update_self ..)
  have hx : ∀ x, x ≠ place xs → x ≠ place xs + (nbytes + 20) → h'.head x = setPrev h.head
      (first (place xs + 20 + b.size) ys none) (some (place xs + (nbytes + 20))) x := by
    intro x h₁ h₂
    rw [heq]
    exact (Function.update_of_ne h₁ ..).trans (Function.update_of_ne h₂ ..)
  refine ht.replace ?_ hspan (by rw [heq]) (by rw [heq]) hapart ?_ ?_ ?_ ?_ ?_ ?_ ?_
  · refine ht.laid.replace (by decide) (by simp) (by simp) hspan (fun x hlt => ?_) ?_
      (fun x hlt => ?_) fun hne => ?_
    · rw [hplace] at hlt
      rw [hx x (by omega) (by omega), setPrev_of_ne (by omega)]
    · rw [hplace, ht.start, hblk]
      have hz : place xs + headSize + nbytes = place xs + (nbytes + 20) := by
        simp only [headSize]
        omega
      have hadd : place xs + (20 + b.size) = place xs + 20 + b.size := by omega
      simp only [Blocks.laid_cons, Blocks.first_cons, Blocks.first_nil, Blocks.laid_nil, hz, hp, hq,
        hadd, and_self]
    · rw [hplace, hblk] at hlt
      rw [hx x (by omega) (by omega), setPrev_of_ne (by omega)]
    · rw [hplace, hblk, ← Nat.add_assoc, hx _ (by omega) (by omega), setPrev_self hne]
      simp only [Blocks.last_cons, Blocks.last_nil, headSize]
      congr 2
      omega
  · simp only [List.mem_cons, List.not_mem_nil, or_false, forall_eq_or_imp, forall_eq]
    exact ⟨hdvd, Nat.dvd_sub hbdvd (Nat.dvd_add hdvd (by decide))⟩
  · simp
  · rw [heq]
    simp
  · rw [heq]
    simp [used_cons, hfree]
  · rw [heq]
    simp [used_cons, hfree]
  · rw [heq]
    simp [unused_cons, hfree]
  · rw [heq]
    simp only [unused_cons, hfree]
    simp
    omega

theorem take_whole (ht : Tiled h (xs ++ [b] ++ ys)) (hfree : b.info.isAlloced = false)
    (hle : nbytes ≤ b.size) (hroom : ¬ nbytes + headSize + defaultAlignByte ≤ b.size) :
    Tiled (h.take current nbytes (place xs)) (xs ++ [⟨b.size, ⟨true, current⟩⟩] ++ ys) := by
  obtain ⟨hhead, hend⟩ := ht.head_eq
  obtain ⟨hall, hnums, hsizes⟩ := ht.bounds
  have hfreeSize : b.size ≤ h.info.freeSize := by
    rw [ht.freeSize]
    simp [unused_cons, hfree]
    omega
  have hfreeNum : 1 ≤ h.info.freeNum := by
    rw [ht.freeNum]
    simp [unused_cons, hfree]
    omega
  have hblock := ht.blockNum
  have hapart := carve_apart current nbytes ht.apart hfree
  rw [carve, if_neg hroom] at hapart
  simp only [List.length_append, payload_append, List.length_cons, payload_cons, headSize,
    configHeapSize, configHeapStart, defaultAlignByte, List.length_nil, payload_nil] at *
  have hneed : add32 nbytes 20 = nbytes + 20 := add32_of_lt (by omega)
  have hcond : ¬ (4 : ℤ) ≤ toInt32 (sub32 b.size (nbytes + 20)) := fun hc => by
    have hiff := (splits_iff (by omega) (by omega)).mp hc
    simp only [defaultAlignByte] at hiff
    omega
  have heq : h.take current nbytes (place xs) =
      { info := { h.info with
          freeNum := h.info.freeNum - 1
          freeSize := h.info.freeSize - b.size
          allocedNum := h.info.allocedNum + 1
          allocedSize := h.info.allocedSize + b.size }
        head := Function.update h.head (place xs) ⟨last 20 none 0x51000000 xs,
          first (place xs + 20 + b.size) ys none, b.size, ⟨true, current⟩⟩
        byte := h.byte } := by
    have hnum : sub32 h.info.freeNum 1 = h.info.freeNum - 1 := sub32_of_le hfreeNum (by omega)
    have hfreed : sub32 h.info.freeSize b.size = h.info.freeSize - b.size :=
      sub32_of_le hfreeSize (by omega)
    have hnum' : add32 h.info.allocedNum 1 = h.info.allocedNum + 1 := add32_of_lt (by omega)
    have hbytes : add32 h.info.allocedSize b.size = h.info.allocedSize + b.size :=
      add32_of_lt (by omega)
    simp only [Heap.take, headSize, defaultAlignByte, hneed, hhead]
    rw [if_neg (by exact_mod_cast hcond)]
    rw [hnum, hfreed]
    simp only [hhead]
    rw [hnum', hbytes]
  have hplace : h.info.heapStart + Blocks.span headSize xs = place xs := by rw [ht.start]; rfl
  generalize h.take current nbytes (place xs) = h' at heq ⊢
  refine ht.replace ?_ rfl (by rw [heq]) (by rw [heq]) hapart ?_ ?_ ?_ ?_ ?_ ?_ ?_
  · refine ht.laid.setInfo (by decide) ?_ fun x hne => ?_
    · rw [hplace, heq, hhead]
      exact Function.update_self ..
    · rw [hplace] at hne
      rw [heq]
      exact Function.update_of_ne hne ..
  · simp only [List.mem_singleton, forall_eq]
    exact ht.aligned b (by simp)
  · simp
  · rw [heq]
    simp
  · rw [heq]
    simp [used_cons, hfree]
  · rw [heq]
    simp [used_cons, hfree]
  · rw [heq]
    simp [unused_cons, hfree]
    omega
  · rw [heq]
    simp [unused_cons, hfree]
    omega

theorem malloc_cases (ht : Tiled h bs) (current : Option TcbPtr) (nbytes : ℕ) :
    (h.malloc current nbytes = none ∧
      ∀ b ∈ bs, b.info.isAlloced = true ∨ b.size < align nbytes) ∨
    ∃ xs b ys, bs = xs ++ [b] ++ ys ∧ b.info.isAlloced = false ∧ align nbytes ≤ b.size ∧
      (∀ c ∈ xs, c.info.isAlloced = true ∨ c.size < align nbytes) ∧
      h.malloc current nbytes =
        some (h.take current (align nbytes) (place xs), place xs + headSize) ∧
      Tiled (h.take current (align nbytes) (place xs))
        (xs ++ carve current (align nbytes) b ++ ys) := by
  have hfirst : first h.info.heapStart bs none = some h.info.heapStart :=
    Blocks.first_of_ne ht.ne_nil
  have hfits : ∀ xs b ys, bs = xs ++ b :: ys → (fits h.head (align nbytes)
      (h.info.heapStart + Blocks.span headSize xs) = true ↔
        b.info.isAlloced = false ∧ align nbytes ≤ b.size) := by
    intro xs b ys hbs
    have ht' : Tiled h (xs ++ [b] ++ ys) := by
      rw [List.append_assoc]
      exact hbs ▸ ht
    rw [ht.start]
    have hhead := ht'.head_eq.1
    rw [place] at hhead
    simp [fits, hhead]
  have hnot : ∀ {b : Block} {v : Bool}, (v = true ↔ b.info.isAlloced = false ∧
      align nbytes ≤ b.size) → v = false → b.info.isAlloced = true ∨ b.size < align nbytes := by
    intro b v hv hf
    rw [hf] at hv
    cases ha : b.info.isAlloced with
    | true => exact Or.inl rfl
    | false =>
      rw [ha] at hv
      simpa using hv
  rcases walk_cases (fits h.head (align nbytes)) ht.laid ht.length_lt with
    ⟨hw, hpass⟩ | ⟨xs, b, ys, hbs, hstop, hpass, hw⟩
  · left
    rw [hfirst] at hw
    refine ⟨by rw [Heap.malloc, hw], fun b hb => ?_⟩
    obtain ⟨us, vs, hsplit⟩ := List.append_of_mem hb
    exact hnot (hfits us b vs hsplit) (hpass us b vs hsplit)
  · right
    rw [hfirst] at hw
    obtain ⟨hfree, hle⟩ := (hfits xs b ys hbs).mp hstop
    have hbs' : bs = xs ++ [b] ++ ys := by rw [hbs, List.append_assoc]; rfl
    have ht' : Tiled h (xs ++ [b] ++ ys) := hbs' ▸ ht
    have hplace : h.info.heapStart + Blocks.span headSize xs = place xs := by rw [ht.start]; rfl
    have hptr : add32 (place xs) headSize = place xs + headSize := by
      have hend := ht'.head_eq.2
      apply add32_of_lt
      simp only [headSize, configHeapStart, configHeapSize] at hend ⊢
      omega
    refine ⟨xs, b, ys, hbs', hfree, hle, fun c hc => ?_, ?_, ?_⟩
    · obtain ⟨us, vs, hsplit⟩ := List.append_of_mem hc
      have hsplit' : bs = us ++ c :: (vs ++ b :: ys) := by rw [hbs, hsplit]; simp
      exact hnot (hfits us c _ hsplit') (hpass us c vs hsplit)
    · rw [Heap.malloc, hw, hplace]
      simp only [hptr]
    · rw [carve]
      split_ifs with hroom
      · exact take_split ht' hfree (align_dvd nbytes) hroom
      · exact take_whole ht' hfree hle hroom

end Malloc

section Free
variable {h h' : Heap} {bs xs ys cs ds : List Block} {b : Block}

/-- The block that `b` becomes together with its free neighbours. -/
def merge (ms : List Block) : Block := ⟨Blocks.span headSize ms - headSize, ⟨false, none⟩⟩

theorem merge_size : (merge (cs ++ [b] ++ ds)).size =
    payload cs + b.size + payload ds + headSize * (cs.length + ds.length) := by
  rw [merge, span_eq]
  simp only [List.length_append, List.length_cons, List.length_nil, payload_append, payload_cons,
    payload_nil, headSize]
  omega

theorem merge_span : Blocks.span headSize [merge (cs ++ [b] ++ ds)] =
    Blocks.span headSize (cs ++ [b] ++ ds) := by
  have hpos : headSize ≤ Blocks.span headSize (cs ++ [b] ++ ds) := by
    simp only [Blocks.span_append, Blocks.span_cons]
    omega
  rw [merge, Blocks.span_cons, Blocks.span_nil]
  simp only
  omega

theorem payload_dvd {n : ℕ} (h : ∀ b ∈ bs, n ∣ b.size) : n ∣ payload bs := by
  induction bs with
  | nil => exact Nat.dvd_zero n
  | cons b bs ih =>
    rw [payload_cons]
    exact Nat.dvd_add (h b (by simp)) (ih fun c hc => h c (by simp [hc]))

theorem merge_apart (h : (xs ++ (cs ++ [b] ++ ds) ++ ys).IsChain Apart)
    (hxs : ∀ c ∈ xs.getLast?, c.info.isAlloced = true)
    (hys : ∀ c ∈ ys.head?, c.info.isAlloced = true) (m : Block) :
    (xs ++ [m] ++ ys).IsChain Apart := by
  rw [List.append_assoc, List.isChain_append] at h
  obtain ⟨hfirst, hrest, -⟩ := h
  have hlast : ys.IsChain Apart := (List.isChain_append.mp hrest).2.1
  rw [List.append_assoc, List.isChain_append]
  refine ⟨hfirst, ?_, fun c hc d _ => Or.inl (hxs c hc)⟩
  rw [List.isChain_append]
  exact ⟨List.IsChain.singleton m, hlast, fun c _ d hd => Or.inr (hys d hd)⟩

theorem merge_tiled (ht : Tiled h (xs ++ (cs ++ [b] ++ ds) ++ ys)) (hb : b.info.isAlloced = true)
    (hcs : used cs = []) (hds : used ds = [])
    (hxs : ∀ c ∈ xs.getLast?, c.info.isAlloced = true)
    (hys : ∀ c ∈ ys.head?, c.info.isAlloced = true)
    (hinfo : h'.info = { h.info with
      blockNum := h.info.blockNum - (cs.length + ds.length)
      freeNum := h.info.freeNum + 1 - (cs.length + ds.length)
      freeSize := h.info.freeSize + b.size + headSize * (cs.length + ds.length)
      allocedNum := h.info.allocedNum - 1
      allocedSize := h.info.allocedSize - b.size })
    (hhead : h'.head = setPrev (Function.update h.head (place xs)
        ⟨last headSize none configHeapStart xs,
          first (place xs + Blocks.span headSize (cs ++ [b] ++ ds)) ys none,
          Blocks.span headSize (cs ++ [b] ++ ds) - headSize, ⟨false, none⟩⟩)
      (first (place xs + Blocks.span headSize (cs ++ [b] ++ ds)) ys none) (some (place xs))) :
    Tiled h' (xs ++ [merge (cs ++ [b] ++ ds)] ++ ys) := by
  have hplace : h.info.heapStart + Blocks.span headSize xs = place xs := by rw [ht.start]; rfl
  have hpos : headSize ≤ Blocks.span headSize (cs ++ [b] ++ ds) := by
    simp only [Blocks.span_append, Blocks.span_cons]
    omega
  have hfar : place xs + Blocks.span headSize (cs ++ [b] ++ ds) ≠ place xs := by
    have hlow : 0 < headSize := by decide
    omega
  rw [setPrev_update hfar] at hhead
  have hother : ∀ x, x ≠ place xs → h'.head x = setPrev h.head
      (first (place xs + Blocks.span headSize (cs ++ [b] ++ ds)) ys none) (some (place xs)) x := by
    intro x hne
    rw [hhead, Function.update_of_ne hne]
  have hspan : Blocks.span headSize [merge (cs ++ [b] ++ ds)] =
      Blocks.span headSize (cs ++ [b] ++ ds) := merge_span
  have hcsu : unused cs = cs := List.filter_eq_self.mpr fun c hc => by
    have hno := List.filter_eq_nil_iff.mp hcs c hc
    simpa using hno
  have hdsu : unused ds = ds := List.filter_eq_self.mpr fun c hc => by
    have hno := List.filter_eq_nil_iff.mp hds c hc
    simpa using hno
  have hblock := ht.blockNum
  have hnum := ht.allocedNum
  have hbytes := ht.allocedSize
  have hfree := ht.freeNum
  have hleft := ht.freeSize
  simp only [used_append, unused_append, used_cons, unused_cons, hb, hcs, hds, hcsu, hdsu, ite_true,
    List.length_append, List.length_cons, List.length_nil, payload_append, payload_cons,
    payload_nil, used_nil, unused_nil] at hblock hnum hbytes hfree hleft
  refine ht.replace ?_ hspan (by rw [hinfo]) (by rw [hinfo])
    (merge_apart ht.apart hxs hys _) ?_ ?_ ?_ ?_ ?_ ?_ ?_
  · refine ht.laid.replace (by decide) (by simp) (by simp) hspan (fun x hlt => ?_) ?_
      (fun x hlt => ?_) fun hne => ?_
    · rw [hplace] at hlt
      rw [hother x (by omega), setPrev_of_ne (by omega)]
    · rw [hplace, ht.start]
      have hend : place xs + headSize + (merge (cs ++ [b] ++ ds)).size =
          place xs + Blocks.span headSize (cs ++ [b] ++ ds) := by
        rw [merge]
        simp only
        omega
      rw [Blocks.laid_cons, Blocks.first_nil]
      rw [hhead, Function.update_self]
      exact ⟨rfl, trivial⟩
    · rw [hplace] at hlt
      rw [hother x (by omega), setPrev_of_ne (by omega)]
    · rw [hplace, hother _ hfar, setPrev_self hne]
      rfl
  · simp only [List.mem_singleton, forall_eq, merge_size]
    have hdvd : ∀ c ∈ cs ++ [b] ++ ds, defaultAlignByte ∣ c.size :=
      fun c hc => ht.aligned c (List.mem_append_left ys (List.mem_append_right xs hc))
    have hsizes := payload_dvd hdvd
    simp only [payload_append, payload_cons, payload_nil] at hsizes
    exact Nat.dvd_add hsizes (Nat.dvd_mul_right_of_dvd (by decide) _)
  · simp [merge]
  · rw [hinfo]
    simp only [List.length_append, List.length_cons, List.length_nil]
    omega
  · rw [hinfo]
    simp [used_cons, hb, hcs, hds, merge]
    omega
  · rw [hinfo]
    simp [used_cons, hb, hcs, hds, merge]
    omega
  · rw [hinfo]
    simp [unused_cons, hb, hcsu, hdsu, merge]
    omega
  · have hone : unused [merge (cs ++ [b] ++ ds)] = [merge (cs ++ [b] ++ ds)] := rfl
    rw [hinfo, hone, payload_cons, merge_size]
    simp [unused_cons, hb, hcsu, hdsu]
    omega

theorem canMerge_prev (ht : Tiled h (xs ++ [b] ++ ys)) :
    (canMerge h.head (h.head (place xs)).prev = false ∧
      ∀ c ∈ xs.getLast?, c.info.isAlloced = true) ∨
    ∃ xs' c, xs = xs' ++ [c] ∧ c.info.isAlloced = false ∧
      (h.head (place xs)).prev = some (place xs') ∧
      canMerge h.head (h.head (place xs)).prev = true := by
  rw [ht.head_eq.1]
  rcases List.eq_nil_or_concat' xs with rfl | ⟨xs', c, rfl⟩
  · exact Or.inl ⟨rfl, by simp⟩
  · have htc : Tiled h (xs' ++ [c] ++ ([b] ++ ys)) := by simpa using ht
    have hc := htc.head_eq.1
    have hlast : last headSize none configHeapStart (xs' ++ [c]) = some (place xs') := by
      rw [last_append]
      rfl
    cases ha : c.info.isAlloced with
    | true =>
      left
      simp only [hlast, canMerge, hc, ha]
      simp [ha]
    | false =>
      right
      refine ⟨xs', c, rfl, ha, hlast, ?_⟩
      simp only [hlast, canMerge, hc, ha]
      rfl

theorem canMerge_next (ht : Tiled h (xs ++ [b] ++ ys)) :
    (canMerge h.head (h.head (place xs)).next = false ∧
      ∀ c ∈ ys.head?, c.info.isAlloced = true) ∨
    ∃ c ys', ys = c :: ys' ∧ c.info.isAlloced = false ∧
      (h.head (place xs)).next = some (place (xs ++ [b])) ∧
      canMerge h.head (h.head (place xs)).next = true := by
  rw [ht.head_eq.1]
  cases ys with
  | nil => exact Or.inl ⟨rfl, by simp⟩
  | cons c ys =>
    have htc : Tiled h (xs ++ [b] ++ [c] ++ ys) := by simpa using ht
    have hc := htc.head_eq.1
    have hplace : place xs + headSize + b.size = place (xs ++ [b]) := by
      simp only [place, Blocks.span_append, Blocks.span_cons, Blocks.span_nil]
      omega
    rw [hplace, Blocks.first_cons]
    cases ha : c.info.isAlloced with
    | true =>
      left
      simp only [canMerge, hc, ha]
      simp [ha]
    | false =>
      right
      refine ⟨c, ys, rfl, ha, rfl, ?_⟩
      simp only [canMerge, hc, ha]
      rfl

theorem setPrev_same (ht : Tiled h (xs ++ [b] ++ ys)) :
    setPrev h.head (first (place xs + Blocks.span headSize [b]) ys none) (some (place xs)) =
      h.head := by
  cases ys with
  | nil => rfl
  | cons c ys =>
    have htc : Tiled h (xs ++ [b] ++ [c] ++ ys) := by simpa using ht
    have hc := htc.head_eq.1
    have hplace : place xs + Blocks.span headSize [b] = place (xs ++ [b]) := (place_append ..).symm
    have hlast : last headSize none configHeapStart (xs ++ [b]) = some (place xs) := by
      rw [last_append]
      rfl
    rw [hplace, Blocks.first_cons]
    apply Function.update_eq_self_iff.mpr
    rw [hc, hlast]

theorem Tiled.sums (ht : Tiled h bs) :
    20 * h.info.blockNum + h.info.allocedSize + h.info.freeSize = 83886080 ∧
      h.info.blockNum = h.info.allocedNum + h.info.freeNum := by
  obtain ⟨hall, hnums, hsizes⟩ := ht.bounds
  have hlow : headSize * bs.length = 20 * bs.length := rfl
  have hhigh : configHeapSize = 83886080 := rfl
  have hblock := ht.blockNum
  exact ⟨by omega, hnums⟩

theorem release_counts (ht : Tiled h (xs ++ [b] ++ ys)) (hb : b.info.isAlloced = true) :
    (h.head (place xs)).size = b.size ∧
      sub32 h.info.allocedNum 1 = h.info.allocedNum - 1 ∧
      sub32 h.info.allocedSize b.size = h.info.allocedSize - b.size ∧
      add32 h.info.freeSize b.size = h.info.freeSize + b.size ∧
      h.info.freeSize + b.size ≤ 83886080 := by
  obtain ⟨hall, hnums⟩ := ht.sums
  have hnum := ht.allocedNum
  have hbytes := ht.allocedSize
  simp only [used_append, used_cons, hb, ite_true, used_nil, List.length_append, List.length_cons,
    List.length_nil, payload_append, payload_cons, payload_nil] at hnum hbytes
  refine ⟨by rw [ht.head_eq.1], sub32_of_le ?_ ?_, sub32_of_le ?_ ?_, add32_of_lt ?_, ?_⟩
  all_goals omega

theorem release_alone (ht : Tiled h (xs ++ [b] ++ ys)) (hb : b.info.isAlloced = true)
    (hprev : canMerge h.head (h.head (place xs)).prev = false)
    (hnext : canMerge h.head (h.head (place xs)).next = false)
    (hxs : ∀ c ∈ xs.getLast?, c.info.isAlloced = true)
    (hys : ∀ c ∈ ys.head?, c.info.isAlloced = true) :
    Tiled (h.release (place xs)) (xs ++ [merge ([] ++ [b] ++ [])] ++ ys) := by
  have ht' : Tiled h (xs ++ ([] ++ [b] ++ []) ++ ys) := by simpa using ht
  obtain ⟨hall, hnums⟩ := ht.sums
  obtain ⟨hsize, hnum, hbytes, hfreed, -⟩ := release_counts ht hb
  have hone : add32 h.info.freeNum 1 = h.info.freeNum + 1 := add32_of_lt (by omega)
  refine merge_tiled ht' hb rfl rfl hxs hys ?_ ?_
  · simp only [Heap.release, hprev, hnext, hsize, hnum, hbytes, hfreed, hone]
    rfl
  · have hspan : Blocks.span headSize ([] ++ [b] ++ []) = Blocks.span headSize [b] := rfl
    have hsub : Blocks.span headSize [b] - headSize = b.size :=
      Nat.add_sub_cancel_left headSize b.size
    have hfar : place xs + Blocks.span headSize [b] ≠ place xs := by
      simp only [Blocks.span_cons, headSize]
      omega
    rw [hspan, hsub, setPrev_update hfar, setPrev_same ht]
    simp only [Heap.release, hprev, hnext]
    rw [ht.head_eq.1, Nat.add_assoc]
    rfl

theorem apart_prev {c : Block} (h : (xs ++ c :: ys).IsChain Apart) (hc : c.info.isAlloced = false) :
    ∀ a ∈ xs.getLast?, a.info.isAlloced = true := by
  intro a ha
  have happ := (List.isChain_append.mp h).2.2 a ha c rfl
  exact happ.resolve_right (by rw [hc]; simp)

theorem apart_next {c : Block} (h : (xs ++ c :: ys).IsChain Apart) (hc : c.info.isAlloced = false) :
    ∀ a ∈ ys.head?, a.info.isAlloced = true := by
  intro a ha
  have hrest : (c :: ys).IsChain Apart := (List.isChain_append.mp h).2.1
  have happ := List.isChain_cons.mp hrest |>.1 a ha
  exact happ.resolve_left (by rw [hc]; simp)

theorem last_concat {c : Block} : last headSize none configHeapStart (xs ++ [c]) = some (place xs) := by
  rw [last_append]
  rfl

theorem place_concat {c : Block} : place (xs ++ [c]) = place xs + headSize + c.size := by
  simp only [place, Blocks.span_append, Blocks.span_cons, Blocks.span_nil]
  omega

theorem release_prev {c : Block} (ht : Tiled h (xs ++ ([c] ++ [b] ++ []) ++ ys))
    (hb : b.info.isAlloced = true) (hc : c.info.isAlloced = false)
    (hprev : canMerge h.head (h.head (place (xs ++ [c]))).prev = true)
    (hnext : canMerge h.head (h.head (place (xs ++ [c]))).next = false)
    (hys : ∀ d ∈ ys.head?, d.info.isAlloced = true) :
    Tiled (h.release (place (xs ++ [c]))) (xs ++ [merge ([c] ++ [b] ++ [])] ++ ys) := by
  have htb : Tiled h (xs ++ [c] ++ [b] ++ ys) := by simpa using ht
  have htc : Tiled h (xs ++ [c] ++ ([b] ++ ys)) := by simpa using ht
  obtain ⟨hall, hnums⟩ := ht.sums
  obtain ⟨hsize, hnum, hbytes, hfreed, hsmall⟩ := release_counts htb hb
  have hlen := ht.blockNum
  have hlow : headSize = 20 := rfl
  have hone : sub32 h.info.blockNum 1 = h.info.blockNum - 1 := by
    apply sub32_of_le <;> simp only [List.length_append, List.length_cons] at hlen <;> omega
  have hfree : add32 (h.info.freeSize + b.size) headSize = h.info.freeSize + b.size + headSize :=
    add32_of_lt (by omega)
  have hxs : ∀ a ∈ xs.getLast?, a.info.isAlloced = true := by
    have hchain : (xs ++ c :: (b :: ys)).IsChain Apart := by simpa using ht.apart
    exact apart_prev hchain hc
  refine merge_tiled ht hb (by simp [used_cons, hc]) rfl hxs hys ?_ ?_
  · simp only [Heap.release, hprev, hnext, hsize, hnum, hbytes, hfreed, hone, hfree]
    rfl
  · obtain ⟨hp, -⟩ := htb.head_eq
    obtain ⟨hq, hend⟩ := htc.head_eq
    have hinfo : c.info = ⟨false, none⟩ := ht.unowned c (by simp) hc
    have hspan : Blocks.span headSize ([c] ++ [b] ++ []) =
        headSize + c.size + (headSize + b.size) := rfl
    have hsize : add32 c.size (add32 b.size headSize) =
        headSize + c.size + (headSize + b.size) - headSize := by
      have hhigh : configHeapStart + configHeapSize < 2 ^ 32 := by decide
      have hsum := hend
      simp only [Blocks.span_append, Blocks.span_cons, Blocks.span_nil] at hsum
      have hadd : add32 b.size headSize = b.size + headSize := add32_of_lt (by omega)
      rw [hadd, add32_of_lt (by omega)]
      omega
    have hz : place (xs ++ [c]) + headSize + b.size =
        place xs + (headSize + c.size + (headSize + b.size)) := by
      rw [place_concat]
      omega
    simp only [Heap.release, hprev, hnext]
    simp only [hp, hz, last_concat, Option.getD_some, hq, hinfo, hsize, hspan]

theorem release_next {d : Block} (ht : Tiled h (xs ++ ([] ++ [b] ++ [d]) ++ ys))
    (hb : b.info.isAlloced = true) (hd : d.info.isAlloced = false)
    (hprev : canMerge h.head (h.head (place xs)).prev = false)
    (hnext : canMerge h.head (h.head (place xs)).next = true)
    (hxs : ∀ a ∈ xs.getLast?, a.info.isAlloced = true) :
    Tiled (h.release (place xs)) (xs ++ [merge ([] ++ [b] ++ [d])] ++ ys) := by
  have htb : Tiled h (xs ++ [b] ++ ([d] ++ ys)) := by simpa using ht
  have htd : Tiled h (xs ++ [b] ++ [d] ++ ys) := by simpa using ht
  obtain ⟨hall, hnums⟩ := ht.sums
  obtain ⟨hsize, hnum, hbytes, hfreed, hsmall⟩ := release_counts htb hb
  have hlen := ht.blockNum
  have hlow : headSize = 20 := rfl
  have hone : sub32 h.info.blockNum 1 = h.info.blockNum - 1 := by
    apply sub32_of_le <;> simp only [List.length_append, List.length_cons] at hlen <;> omega
  have hfree : add32 (h.info.freeSize + b.size) headSize = h.info.freeSize + b.size + headSize :=
    add32_of_lt (by omega)
  have hys : ∀ a ∈ ys.head?, a.info.isAlloced = true := by
    have hchain : (xs ++ [b] ++ d :: ys).IsChain Apart := by simpa using ht.apart
    exact apart_next hchain hd
  refine merge_tiled ht hb rfl (by simp [used_cons, hd]) hxs hys ?_ ?_
  · simp only [Heap.release, hprev, hnext, hsize, hnum, hbytes, hfreed, hone, hfree]
    rfl
  · obtain ⟨hp, -⟩ := htb.head_eq
    obtain ⟨hq, hend⟩ := htd.head_eq
    rw [place_concat] at hq hend
    have hspan : Blocks.span headSize ([] ++ [b] ++ [d]) =
        headSize + b.size + (headSize + d.size) := rfl
    have hsize : add32 b.size (add32 d.size headSize) =
        headSize + b.size + (headSize + d.size) - headSize := by
      have hhigh : configHeapStart + configHeapSize < 2 ^ 32 := by decide
      have hadd : add32 d.size headSize = d.size + headSize := add32_of_lt (by omega)
      rw [hadd, add32_of_lt (by omega)]
      omega
    have hz : place xs + headSize + b.size + headSize + d.size =
        place xs + (headSize + b.size + (headSize + d.size)) := by
      omega
    have hlink : first (place xs + headSize + b.size) ([d] ++ ys) none =
        some (place xs + headSize + b.size) := rfl
    simp only [Heap.release, hprev, hnext]
    simp only [hp, hlink, hz, Option.getD_some, hq, hsize, hspan]

theorem release_both {c d : Block} (ht : Tiled h (xs ++ ([c] ++ [b] ++ [d]) ++ ys))
    (hb : b.info.isAlloced = true) (hc : c.info.isAlloced = false) (hd : d.info.isAlloced = false)
    (hprev : canMerge h.head (h.head (place (xs ++ [c]))).prev = true)
    (hnext : canMerge h.head (h.head (place (xs ++ [c]))).next = true) :
    Tiled (h.release (place (xs ++ [c]))) (xs ++ [merge ([c] ++ [b] ++ [d])] ++ ys) := by
  have htc : Tiled h (xs ++ [c] ++ ([b] ++ [d] ++ ys)) := by simpa using ht
  have htb : Tiled h (xs ++ [c] ++ [b] ++ ([d] ++ ys)) := by simpa using ht
  have htd : Tiled h (xs ++ [c] ++ [b] ++ [d] ++ ys) := by simpa using ht
  obtain ⟨hall, hnums⟩ := ht.sums
  obtain ⟨hsize, hnum, hbytes, hfreed, hsmall⟩ := release_counts htb hb
  have hlen := ht.blockNum
  have hfrees := ht.freeNum
  have hlow : headSize = 20 := rfl
  have htwo : sub32 h.info.blockNum 2 = h.info.blockNum - 2 := by
    apply sub32_of_le <;> simp only [List.length_append, List.length_cons] at hlen <;> omega
  have hone : sub32 h.info.freeNum 1 = h.info.freeNum + 1 - 2 := by
    simp only [unused_append, unused_cons, hc, hd, Bool.false_eq_true, ite_false, hb, ite_true,
      List.length_append, List.length_cons] at hfrees
    rw [sub32_of_le (by omega) (by omega)]
    omega
  have hfree : add32 (h.info.freeSize + b.size) (2 * headSize) =
      h.info.freeSize + b.size + headSize * 2 := by
    rw [add32_of_lt (by omega)]
    omega
  have hxs : ∀ a ∈ xs.getLast?, a.info.isAlloced = true := by
    have hchain : (xs ++ c :: (b :: d :: ys)).IsChain Apart := by simpa using ht.apart
    exact apart_prev hchain hc
  have hys : ∀ a ∈ ys.head?, a.info.isAlloced = true := by
    have hchain : (xs ++ [c] ++ [b] ++ d :: ys).IsChain Apart := by simpa using ht.apart
    exact apart_next hchain hd
  refine merge_tiled ht hb (by simp [used_cons, hc]) (by simp [used_cons, hd]) hxs hys ?_ ?_
  · simp only [Heap.release, hprev, hnext, hsize, hnum, hbytes, hfreed, htwo, hone, hfree]
    rfl
  · obtain ⟨hq, -⟩ := htc.head_eq
    obtain ⟨hp, -⟩ := htb.head_eq
    obtain ⟨hn, hend⟩ := htd.head_eq
    rw [place_concat] at hn hend
    have hinfo : c.info = ⟨false, none⟩ := ht.unowned c (by simp) hc
    have hspan : Blocks.span headSize ([c] ++ [b] ++ [d]) =
        headSize + c.size + (headSize + b.size + (headSize + d.size)) := by
      simp only [Blocks.span_append, Blocks.span_cons, Blocks.span_nil]
      omega
    have hsize : add32 c.size (add32 (add32 b.size d.size) (2 * headSize)) =
        headSize + c.size + (headSize + b.size + (headSize + d.size)) - headSize := by
      have hhigh : configHeapStart + configHeapSize < 2 ^ 32 := by decide
      rw [place_concat] at hend
      have hadd : add32 b.size d.size = b.size + d.size := add32_of_lt (by omega)
      have hadd' : add32 (b.size + d.size) (2 * headSize) = b.size + d.size + 2 * headSize :=
        add32_of_lt (by omega)
      rw [hadd, hadd', add32_of_lt (by omega)]
      omega
    have hz : place (xs ++ [c]) + headSize + b.size + headSize + d.size =
        place xs + (headSize + c.size + (headSize + b.size + (headSize + d.size))) := by
      rw [place_concat]
      omega
    have hlink : first (place (xs ++ [c]) + headSize + b.size) ([d] ++ ys) none =
        some (place (xs ++ [c]) + headSize + b.size) := rfl
    simp only [Heap.release, hprev, hnext]
    simp only [hp, hlink, hz, last_concat, Option.getD_some, hq, hn, hinfo, hsize, hspan]

theorem release_tiled (ht : Tiled h (xs ++ [b] ++ ys)) (hb : b.info.isAlloced = true) :
    ∃ xs' cs ds ys', xs = xs' ++ cs ∧ ys = ds ++ ys' ∧ used cs = [] ∧ used ds = [] ∧
      Tiled (h.release (place xs)) (xs' ++ [merge (cs ++ [b] ++ ds)] ++ ys') := by
  rcases canMerge_prev ht with ⟨hprev, hxs⟩ | ⟨xs', c, rfl, hc, hp, hprev⟩
  · rcases canMerge_next ht with ⟨hnext, hys⟩ | ⟨d, ys', rfl, hd, hn, hnext⟩
    · exact ⟨xs, [], [], ys, by simp, rfl, rfl, rfl, release_alone ht hb hprev hnext hxs hys⟩
    · refine ⟨xs, [], [d], ys', by simp, rfl, rfl, by simp [used_cons, hd], ?_⟩
      exact release_next (by simpa using ht) hb hd hprev hnext hxs
  · rcases canMerge_next ht with ⟨hnext, hys⟩ | ⟨d, ys', rfl, hd, hn, hnext⟩
    · refine ⟨xs', [c], [], ys, rfl, rfl, by simp [used_cons, hc], rfl, ?_⟩
      exact release_prev (by simpa using ht) hb hc hprev hnext hys
    · refine ⟨xs', [c], [d], ys', rfl, rfl, by simp [used_cons, hc], by simp [used_cons, hd], ?_⟩
      exact release_both (by simpa using ht) hb hc hd hprev hnext

/-- `free` finds the block of its pointer, unless that is no pointer to a block in the heap. -/
theorem free_cases (ht : Tiled h bs) (usrP : ℕ) :
    (h.free usrP = some h ∧ ∀ xs b ys, bs = xs ++ [b] ++ ys → usrP = place xs + headSize →
      place xs + headSize = configHeapStart + configHeapSize) ∨
    ∃ xs b ys, bs = xs ++ [b] ++ ys ∧ usrP = place xs + headSize ∧
      h.free usrP = some (h.release (place xs)) := by
  have hhigh : configHeapStart + configHeapSize < 2 ^ 32 := by decide
  have hlow : headSize = 20 := rfl
  have hend : add32 h.info.heapStart h.info.heapSize = configHeapStart + configHeapSize := by
    rw [ht.start, ht.size]
    exact add32_of_lt hhigh
  rw [Heap.free, hend]
  split_ifs with hout
  · refine Or.inl ⟨rfl, fun xs b ys hbs hp => ?_⟩
    have hin := (Tiled.head_eq (hbs ▸ ht)).2
    rw [ht.start] at hout
    simp only [place] at hp hin
    simp only [place]
    omega
  · rw [not_or, ht.start] at hout
    have hfirst : first h.info.heapStart bs none = some h.info.heapStart :=
      Blocks.first_of_ne ht.ne_nil
    have hsub : ∀ xs, sub32 usrP headSize = place xs ↔ usrP = place xs + headSize := by
      intro xs
      have hge : headSize ≤ usrP := by
        have hstart : headSize ≤ configHeapStart := by decide
        omega
      rw [sub32_of_le hge (by omega)]
      omega
    rcases walk_cases (fun p => decide (p = sub32 usrP headSize)) ht.laid ht.length_lt with
      ⟨hw, hpass⟩ | ⟨xs, b, ys, hbs, hstop, -, hw⟩
    · rw [hfirst] at hw
      refine Or.inl ⟨by rw [hw], fun xs b ys hbs hp => ?_⟩
      have hno := hpass xs b ys (by simpa using hbs)
      rw [ht.start] at hno
      exact absurd ((hsub xs).mpr hp).symm (of_decide_eq_false hno)
    · rw [hfirst] at hw
      rw [ht.start] at hstop hw
      refine Or.inr ⟨xs, b, ys, by simpa using hbs, ?_, ?_⟩
      · exact (hsub xs).mp (of_decide_eq_true hstop).symm
      · rw [ht.start, hw]
        rfl

end Free

end DfewOS.MemH
