import DfewOS.Blocks
import DfewOS.State

/-!
# The memory heap

`memH.c`. The headers are kept apart from the bytes of the payloads: they are
only reached through `head`, by the address of their block. A link that is `none`
is `NULL`; the pointers of users are addresses, with 0 for `NULL`. `malloc` and
`free` are one section each under `MEM_MANAGE_LOCK`. A call that never returns,
since `malloc` finds no block or a list has no end, is `none`.
-/

namespace DfewOS.MemH
open Blocks (Header walk)

def headSize : ℕ := 20
def defaultAlignByte : ℕ := 4
def configHeapStart : ℕ := 0x51000000
def configHeapSize : ℕ := 80 * (1024 * 1024)

def add32 (x y : ℕ) : ℕ := (x + y) % 2 ^ 32
def sub32 (x y : ℕ) : ℕ := (x + (2 ^ 32 - y % 2 ^ 32)) % 2 ^ 32
def toInt32 (x : ℕ) : ℤ := if x < 2 ^ 31 then x else x - 2 ^ 32

structure BlockInfo where
  isAlloced : Bool
  ownerTcb : Option TcbPtr
  deriving DecidableEq

abbrev BlockHead := Header BlockInfo

structure HeapInfo where
  heapStart : ℕ
  heapSize : ℕ
  blockNum : ℕ
  allocedNum : ℕ
  allocedSize : ℕ
  freeNum : ℕ
  freeSize : ℕ
  maxFreeBlockSize : ℕ

structure Heap where
  info : HeapInfo
  head : ℕ → BlockHead
  byte : ℕ → UInt8

/-- `if (p != NULL) p->prev = prev;` -/
def setPrev (head : ℕ → BlockHead) (p prev : Option ℕ) : ℕ → BlockHead :=
  match p with
  | none => head
  | some p => Function.update head p { head p with prev := prev }

/-- The rounds that the search of a list of blocks takes at most. -/
def Heap.rounds (h : Heap) : ℕ := h.info.heapSize + 1

def heapInit (h : Heap) : Heap where
  info :=
    { heapStart := configHeapStart
      heapSize := configHeapSize
      blockNum := 1
      allocedNum := 0
      allocedSize := 0
      freeNum := 1
      freeSize := configHeapSize - headSize
      maxFreeBlockSize := configHeapSize - headSize }
  head := Function.update h.head configHeapStart
    ⟨none, none, configHeapSize - headSize, ⟨false, none⟩⟩
  byte := h.byte

/-- `nbytes` rounded up, with the wrap of the 32-bit sum. -/
def align (nbytes : ℕ) : ℕ :=
  let sum := add32 nbytes (defaultAlignByte - 1)
  sum - sum % defaultAlignByte

def fits (head : ℕ → BlockHead) (nbytes p : ℕ) : Bool :=
  !(head p).info.isAlloced && decide (nbytes ≤ (head p).size)

/-- What `malloc` does with the free block `p`. -/
def Heap.take (h : Heap) (current : Option TcbPtr) (nbytes p : ℕ) : Heap :=
  let needSize := add32 nbytes headSize
  let old := h.head p
  let (head, info) :=
    if defaultAlignByte ≤ toInt32 (sub32 old.size needSize) then
      let newP := add32 p needSize
      let head := Function.update h.head newP
        ⟨some p, old.next, sub32 old.size needSize, ⟨false, none⟩⟩
      let head := setPrev head old.next (some newP)
      (Function.update head p { head p with next := some newP, size := nbytes },
        { h.info with
          blockNum := add32 h.info.blockNum 1
          freeSize := sub32 h.info.freeSize needSize })
    else
      (h.head, { h.info with
        freeNum := sub32 h.info.freeNum 1
        freeSize := sub32 h.info.freeSize old.size })
  { h with
    info := { info with
      allocedNum := add32 info.allocedNum 1
      allocedSize := add32 info.allocedSize (head p).size }
    head := Function.update head p { head p with info := ⟨true, current⟩ } }

def Heap.malloc (h : Heap) (current : Option TcbPtr) (nbytes : ℕ) : Option (Heap × ℕ) :=
  match walk h.head (fits h.head (align nbytes)) h.rounds (some h.info.heapStart) with
  | some (some p) => some (h.take current (align nbytes) p, add32 p headSize)
  | _ => none

/-- `bfill` takes the length as an `int` and fills nothing when that is negative. -/
def Heap.memset (h : Heap) (m : ℕ) (c : UInt8) (size : ℕ) : Heap :=
  { h with byte := fun x => if m ≤ x ∧ (x : ℤ) < m + toInt32 size then c else h.byte x }

/-- `bcopy` takes the length as an `int` and copies nothing when that is negative. -/
def Heap.bcopy (h : Heap) (source destination nbytes : ℕ) : Heap :=
  { h with byte := fun x =>
      if destination ≤ x ∧ (x : ℤ) < destination + toInt32 nbytes then
        h.byte (source + (x - destination))
      else h.byte x }

def Heap.calloc (h : Heap) (current : Option TcbPtr) (elemNum elemSize : ℕ) :
    Option (Heap × ℕ) :=
  let nbytes := elemNum * elemSize % 2 ^ 32
  (h.malloc current nbytes).map fun r => (r.1.memset r.2 0 nbytes, r.2)

def canMerge (head : ℕ → BlockHead) (p : Option ℕ) : Bool :=
  match p with
  | none => false
  | some p => !(head p).info.isAlloced

def Heap.release (h : Heap) (p : ℕ) : Heap :=
  let b := h.head p
  let info := { h.info with
    allocedSize := sub32 h.info.allocedSize b.size
    allocedNum := sub32 h.info.allocedNum 1
    freeSize := add32 h.info.freeSize b.size }
  let prev := b.prev.getD 0
  let next := b.next.getD 0
  match canMerge h.head b.prev, canMerge h.head b.next with
  | false, false =>
    { h with
      info := { info with freeNum := add32 info.freeNum 1 }
      head := Function.update h.head p { b with info := ⟨false, none⟩ } }
  | true, false =>
    let head := Function.update h.head prev { h.head prev with
      next := b.next
      size := add32 (h.head prev).size (add32 b.size headSize) }
    { h with
      info := { info with
        blockNum := sub32 info.blockNum 1
        freeSize := add32 info.freeSize headSize }
      head := setPrev head b.next b.prev }
  | false, true =>
    let head := Function.update h.head p { b with
      size := add32 b.size (add32 (h.head next).size headSize)
      next := (h.head next).next
      info := ⟨false, none⟩ }
    { h with
      info := { info with
        blockNum := sub32 info.blockNum 1
        freeSize := add32 info.freeSize headSize }
      head := setPrev head (h.head next).next (some p) }
  | true, true =>
    let head := Function.update h.head prev { h.head prev with
      next := (h.head next).next
      size := add32 (h.head prev).size (add32 (add32 b.size (h.head next).size) (2 * headSize)) }
    { h with
      info := { info with
        freeNum := sub32 info.freeNum 1
        blockNum := sub32 info.blockNum 2
        freeSize := add32 info.freeSize (2 * headSize) }
      head := setPrev head (h.head next).next b.prev }

def Heap.free (h : Heap) (usrP : ℕ) : Option Heap :=
  if usrP < h.info.heapStart ∨ add32 h.info.heapStart h.info.heapSize ≤ usrP then some h
  else
    match walk h.head (fun p => decide (p = sub32 usrP headSize)) h.rounds
        (some h.info.heapStart) with
    | some (some p) => some (h.release p)
    | some none => some h
    | none => none

def Heap.realloc (h : Heap) (current : Option TcbPtr) (pBlock newSize : ℕ) :
    Option (Heap × ℕ) :=
  if newSize = 0 then (h.free pBlock).map fun h => (h, 0)
  else
    (h.malloc current newSize).bind fun r =>
      if pBlock ≠ 0 ∧ r.2 ≠ 0 then
        ((r.1.bcopy pBlock r.2 newSize).free pBlock).map fun h => (h, r.2)
      else some r

end DfewOS.MemH
