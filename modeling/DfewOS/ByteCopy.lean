import DfewOS.Loops
import DfewOS.MemH
import DfewOS.Memory

/-!
# Copying memory

`bcopy`, `memcpy` and `memmove` of `string.c`, on pointers of 32 bits. A copy between areas
that overlap so that the head of the destination is covered by the tail of the source goes
backward, every other one forward. Both go by bytes up to a word boundary, by words as long
as another one fits, and by bytes again; short copies and those between pointers that differ
in their alignment go by bytes alone.
-/

namespace DfewOS.CString
open Loops (loop)
open MemH (add32 sub32 toInt32)

def alignment : ℕ := 3

def offset (p : ℕ) (n : ℤ) : ℕ := ((p + n) % 2 ^ 32).toNat

structure Copying where
  memory : Memory
  source : ℕ
  destination : ℕ

def Copying.forward (k : ℕ) (c : Copying) : Copying :=
  ⟨c.memory.move k c.source c.destination, add32 c.source k, add32 c.destination k⟩

def Copying.backward (k : ℕ) (c : Copying) : Copying :=
  ⟨c.memory.move k (sub32 c.source k) (sub32 c.destination k), sub32 c.source k,
    sub32 c.destination k⟩

/-- `(int)destination & ALIGNMENT` -/
def Copying.unaligned (c : Copying) : Bool := c.destination &&& alignment ≠ 0

/-- `nbytes < 10 || (((int)destination ^ (int)source) & ALIGNMENT)` -/
def Copying.bytewise (c : Copying) (nbytes : ℤ) : Bool :=
  nbytes < 10 ∨ (c.destination ^^^ c.source) &&& alignment ≠ 0

def copyForward (fuel : ℕ) (c : Copying) (nbytes : ℤ) : Option Copying :=
  let dstend := offset c.destination nbytes
  let words :=
    if c.bytewise nbytes then some c
    else (loop Copying.unaligned (Copying.forward 1) fuel c).bind fun c =>
      loop (fun c => add32 c.destination 4 ≤ dstend) (Copying.forward 4) fuel (c.forward 4)
  words.bind (loop (fun c => c.destination < dstend) (Copying.forward 1) fuel)

def copyBackward (fuel : ℕ) (c : Copying) (nbytes : ℤ) : Option Copying :=
  let dstend := c.destination
  let c := { c with
    source := offset c.source nbytes
    destination := offset c.destination nbytes }
  let words :=
    if c.bytewise nbytes then some c
    else (loop Copying.unaligned (Copying.backward 1) fuel c).bind fun c =>
      loop (fun c => dstend ≤ sub32 c.destination 4) (Copying.backward 4) fuel (c.backward 4)
  words.bind (loop (fun c => dstend < c.destination) (Copying.backward 1) fuel)

def bcopy (fuel : ℕ) (m : Memory) (source destination : ℕ) (nbytes : ℤ) : Option Memory :=
  let c : Copying := ⟨m, source, destination⟩
  let tmp := toInt32 (sub32 destination source)
  (if tmp ≤ 0 ∨ nbytes ≤ tmp then copyForward fuel c nbytes
    else copyBackward fuel c nbytes).map Copying.memory

def memcpy (fuel : ℕ) (m : Memory) (destination source size : ℕ) : Option (Memory × ℕ) :=
  (bcopy fuel m source destination (toInt32 size)).map fun m => (m, destination)

def memmove (fuel : ℕ) (m : Memory) (destination source size : ℕ) : Option (Memory × ℕ) :=
  (bcopy fuel m source destination (toInt32 size)).map fun m => (m, destination)

end DfewOS.CString
