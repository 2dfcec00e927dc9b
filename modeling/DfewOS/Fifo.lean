import DfewOS.Dlist
import DfewOS.Ring

/-!
# The looped queue

fifo.c: a queue of `max_num` elements of `ele_size` bytes each, in an array behind the
`FIFO` struct. Indices and sizes are `uint32`. A call that would access a byte outside the
block has no result. Interrupts are masked in every call, so calls do not interleave.
-/

namespace DfewOS
open Dlist (OsStatus)

structure FIFO where
  out : ℕ
  in' : ℕ
  maxNum : ℕ
  eleSize : ℕ
  /-- The bytes of the block from `data` on. -/
  data : List UInt8
  deriving DecidableEq

def sizeofFifo : ℕ := 20

/-- `malloc n` is the block of `n` bytes that it hands out, with whatever is in it. -/
def fifoCreate (malloc : ℕ → Option (List UInt8)) (maxNum eleSize : ℕ) : Option FIFO :=
  if maxNum = 0 ∨ eleSize = 0 then none
  else (malloc ((sizeofFifo + (maxNum + 1) * eleSize) % 2 ^ 32)).map fun block =>
    { out := 0, in' := 0, maxNum := maxNum, eleSize := eleSize, data := block.drop sizeofFifo }

namespace FIFO

def next (pFifo : FIFO) (i : ℕ) : ℕ := (i + 1) % 2 ^ 32 % pFifo.eleSize

def offset (pFifo : FIFO) (i : ℕ) : ℕ := i * pFifo.eleSize % 2 ^ 32

def isEmpty (pFifo : FIFO) : Bool := pFifo.in' = pFifo.out

def isFull (pFifo : FIFO) : Bool := pFifo.next pFifo.in' = pFifo.out

def fifoPut (pFifo : FIFO) (pElement : List UInt8) : Option (FIFO × OsStatus) :=
  if pFifo.isFull then some (pFifo, .error)
  else if pFifo.offset pFifo.in' + pFifo.eleSize ≤ pFifo.data.length then
    some ({ pFifo with
      data := Ring.write pFifo.data (pFifo.offset pFifo.in') (pElement.take pFifo.eleSize)
      in' := pFifo.next pFifo.in' }, .ok)
  else none

def fetch (pFifo : FIFO) (pElement : List UInt8) : Option (List UInt8) :=
  if pFifo.offset pFifo.out + pFifo.eleSize ≤ pFifo.data.length then
    some ((pFifo.data.drop (pFifo.offset pFifo.out)).take pFifo.eleSize ++
      pElement.drop pFifo.eleSize)
  else none

def fifoGet (pFifo : FIFO) (pElement : List UInt8) : Option (FIFO × OsStatus × List UInt8) :=
  if pFifo.isEmpty then some (pFifo, .error, pElement)
  else (pFifo.fetch pElement).map fun element =>
    ({ pFifo with out := pFifo.next pFifo.out }, .ok, element)

def fifoHead (pFifo : FIFO) (pElement : List UInt8) : Option (FIFO × OsStatus × List UInt8) :=
  if pFifo.isEmpty then some (pFifo, .error, pElement)
  else (pFifo.fetch pElement).map fun element => (pFifo, .ok, element)

/-- A call of the module, with what the caller has at `pElement`. -/
inductive Call
  | put (pElement : List UInt8)
  | get (pElement : List UInt8)
  | head (pElement : List UInt8)

def Call.pElement : Call → List UInt8
  | .put pElement | .get pElement | .head pElement => pElement

/-- The status that a call returns, and what is at `pElement` then. -/
abbrev Reply := OsStatus × List UInt8

def exec (pFifo : FIFO) : Call → Option (FIFO × Reply)
  | .put pElement => (pFifo.fifoPut pElement).map fun r => (r.1, r.2, pElement)
  | .get pElement => pFifo.fifoGet pElement
  | .head pElement => pFifo.fifoHead pElement

end FIFO

end DfewOS
