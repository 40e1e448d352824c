import Mathlib.Data.Nat.Bitwise
import Mathlib.Logic.Function.Basic
import Mathlib.Tactic.Ring
import Thronix.Lib.Runs
import Thronix.Lib.Tiling
import Thronix.Lib.Words

/-!
# Thronix.KernelHeap — the heap of the kernel (`portable/MemMang/heap_4.c`)

The model.  Addresses and sizes are the numbers their 32-bit words stand for (`Thronix.Lib.Words`).

* `BlockLink`: the eight bytes in front of a block.  `Heap.mem` is the memory seen as such cells, by their address; all
  cells of the heap begin at a multiple of eight.
* `Layout`: where the linker has put `ucHeap` and `xStart`.
* `prvHeapInit`, `prvInsertBlockIntoFreeList`, `pvPortMalloc`, `vPortFree`: the functions of the file.  A call is `none`
  when `configASSERT` fails or a walk over the free list finds no end: `vAssertCalled` and the walk never return.
* `Malloc.failed`: `vApplicationMallocFailedHook`, which loops forever in the calling task.
* `step`: programs that allocate, free what they have allocated, and write into it.
-/

namespace Thronix.KernelHeap

open Thronix.Lib

/-! ## The configuration -/

def portBYTE_ALIGNMENT : ℕ := 8

def portBYTE_ALIGNMENT_MASK : ℕ := 0x0007

def configTOTAL_HEAP_SIZE : ℕ := 0x8000

/-- `sizeof(BlockLink_t)`, a multiple of the alignment. -/
def xHeapStructSize : ℕ := 8

def heapMINIMUM_BLOCK_SIZE : ℕ := xHeapStructSize <<< 1

/-- A failed assertion does not return. -/
def configASSERT {α : Type} (c : Prop) [Decidable c] (a : α) : Option α := if c then some a else none

/-! ## The state -/

/-- `BlockLink_t`. -/
structure BlockLink where
  pxNextFreeBlock : ℕ
  xBlockSize : ℕ
  deriving DecidableEq, Repr

/-- Where `ucHeap` and `xStart` are. -/
structure Layout where
  ucHeap : ℕ
  xStart : ℕ
  ucHeap_pos : 0 < ucHeap
  ucHeap_lt : ucHeap + configTOTAL_HEAP_SIZE < 2 ^ 32
  xStart_pos : 0 < xStart
  xStart_lt : xStart + xHeapStructSize < 2 ^ 32
  apart : xStart + xHeapStructSize ≤ ucHeap ∨ ucHeap + configTOTAL_HEAP_SIZE ≤ xStart

abbrev Memory := ℕ → BlockLink

structure Heap where
  mem : Memory
  pxEnd : ℕ
  xFreeBytesRemaining : ℕ
  xMinimumEverFreeBytesRemaining : ℕ
  xBlockAllocatedBit : ℕ

/-- The variables before the first call. -/
def Heap.start (mem : Memory) : Heap := ⟨mem, 0, 0, 0, 0⟩

def setNext (m : Memory) (a next : ℕ) : Memory := Function.update m a { m a with pxNextFreeBlock := next }

def setSize (m : Memory) (a size : ℕ) : Memory := Function.update m a { m a with xBlockSize := size }

/-! ## The functions -/

section Code

variable (L : Layout)

def pucAlignedHeap : ℕ :=
  if L.ucHeap &&& portBYTE_ALIGNMENT_MASK ≠ 0 then
    add32 L.ucHeap (portBYTE_ALIGNMENT - 1) &&& not32 portBYTE_ALIGNMENT_MASK
  else L.ucHeap

def xTotalHeapSize : ℕ :=
  if L.ucHeap &&& portBYTE_ALIGNMENT_MASK ≠ 0 then
    sub32 configTOTAL_HEAP_SIZE (sub32 (pucAlignedHeap L) L.ucHeap)
  else configTOTAL_HEAP_SIZE

/-- The address `prvHeapInit` gives to `pxEnd`. -/
def endAddress : ℕ :=
  sub32 (add32 (pucAlignedHeap L) (xTotalHeapSize L)) xHeapStructSize &&& not32 portBYTE_ALIGNMENT_MASK

def prvHeapInit (h : Heap) : Heap :=
  let uxAddress := endAddress L
  let pxFirstFreeBlock := pucAlignedHeap L
  let size := sub32 uxAddress pxFirstFreeBlock
  let mem := Function.update h.mem L.xStart ⟨pxFirstFreeBlock, 0⟩
  let mem := Function.update mem uxAddress ⟨0, 0⟩
  let mem := Function.update mem pxFirstFreeBlock ⟨uxAddress, size⟩
  { mem := mem, pxEnd := uxAddress, xFreeBytesRemaining := size, xMinimumEverFreeBytesRemaining := size,
    xBlockAllocatedBit := 1 <<< 31 }

/-- The `for` loop of `prvInsertBlockIntoFreeList`, at most `fuel` turns. -/
def insertPlace (m : Memory) (pxBlockToInsert : ℕ) : ℕ → ℕ → Option ℕ
  | 0, _ => none
  | fuel + 1, pxIterator =>
    if (m pxIterator).pxNextFreeBlock < pxBlockToInsert then
      insertPlace m pxBlockToInsert fuel (m pxIterator).pxNextFreeBlock
    else some pxIterator

/-- The block being inserted and the one before it make one block. -/
def joinBefore (m : Memory) (pxIterator pxBlockToInsert : ℕ) : Memory × ℕ :=
  if add32 pxIterator (m pxIterator).xBlockSize = pxBlockToInsert then
    (setSize m pxIterator (add32 (m pxIterator).xBlockSize (m pxBlockToInsert).xBlockSize), pxIterator)
  else (m, pxBlockToInsert)

/-- The block being inserted and the one behind it make one block. -/
def joinAfter (m : Memory) (pxEnd pxIterator pxBlockToInsert : ℕ) : Memory :=
  let next := (m pxIterator).pxNextFreeBlock
  if add32 pxBlockToInsert (m pxBlockToInsert).xBlockSize = next then
    if next ≠ pxEnd then
      let m' := setSize m pxBlockToInsert (add32 (m pxBlockToInsert).xBlockSize (m next).xBlockSize)
      setNext m' pxBlockToInsert (m' (m' pxIterator).pxNextFreeBlock).pxNextFreeBlock
    else setNext m pxBlockToInsert pxEnd
  else setNext m pxBlockToInsert next

/-- `prvInsertBlockIntoFreeList` behind its loop. -/
def insertAt (m : Memory) (pxEnd pxIterator pxBlockToInsert : ℕ) : Memory :=
  let joined := joinBefore m pxIterator pxBlockToInsert
  let m' := joinAfter joined.1 pxEnd pxIterator joined.2
  if pxIterator ≠ joined.2 then setNext m' pxIterator joined.2 else m'

/-- More turns than a list of cells in `ucHeap` can have. -/
def walk : ℕ := configTOTAL_HEAP_SIZE

def prvInsertBlockIntoFreeList (h : Heap) (pxBlockToInsert : ℕ) : Option Heap :=
  (insertPlace h.mem pxBlockToInsert walk L.xStart).map fun pxIterator =>
    { h with mem := insertAt h.mem h.pxEnd pxIterator pxBlockToInsert }

/-- The wanted size with the header, made a multiple of the alignment. -/
def blockSize (xWantedSize : ℕ) : Option ℕ :=
  if 0 < xWantedSize then
    let size := add32 xWantedSize xHeapStructSize
    if size &&& portBYTE_ALIGNMENT_MASK ≠ 0 then
      let aligned := add32 size (portBYTE_ALIGNMENT - (size &&& portBYTE_ALIGNMENT_MASK))
      configASSERT (aligned &&& portBYTE_ALIGNMENT_MASK = 0) aligned
    else some size
  else some xWantedSize

/-- The `while` loop of `pvPortMalloc`: `pxPreviousBlock` and `pxBlock` behind it. -/
def fit (m : Memory) (xWantedSize : ℕ) : ℕ → ℕ → ℕ → Option (ℕ × ℕ)
  | 0, _, _ => none
  | fuel + 1, pxPreviousBlock, pxBlock =>
    if (m pxBlock).xBlockSize < xWantedSize ∧ (m pxBlock).pxNextFreeBlock ≠ 0 then
      fit m xWantedSize fuel pxBlock (m pxBlock).pxNextFreeBlock
    else some (pxPreviousBlock, pxBlock)

/-- What is left of a block that is larger than required goes back to the free list. -/
def splitBlock (h : Heap) (pxBlock xWantedSize : ℕ) : Option Heap :=
  if sub32 (h.mem pxBlock).xBlockSize xWantedSize > heapMINIMUM_BLOCK_SIZE then
    let pxNewBlockLink := add32 pxBlock xWantedSize
    (configASSERT (pxNewBlockLink &&& portBYTE_ALIGNMENT_MASK = 0) pxNewBlockLink).bind fun pxNewBlockLink =>
      let m := setSize h.mem pxNewBlockLink (sub32 (h.mem pxBlock).xBlockSize xWantedSize)
      prvInsertBlockIntoFreeList L { h with mem := setSize m pxBlock xWantedSize } pxNewBlockLink
  else some h

/-- The counters and the header of a block that is being returned. -/
def handOut (h : Heap) (pxBlock : ℕ) : Heap :=
  let left := sub32 h.xFreeBytesRemaining (h.mem pxBlock).xBlockSize
  { h with
    mem := Function.update h.mem pxBlock ⟨0, (h.mem pxBlock).xBlockSize ||| h.xBlockAllocatedBit⟩
    xFreeBytesRemaining := left
    xMinimumEverFreeBytesRemaining :=
      if left < h.xMinimumEverFreeBytesRemaining then left else h.xMinimumEverFreeBytesRemaining }

/-- How `pvPortMalloc` ends: with a pointer, or in the hook. -/
inductive Malloc
  | returned (pvReturn : ℕ)
  | failed
  deriving DecidableEq, Repr

/-- The search for a block of the size required, and its removal from the free list. -/
def allocate (h : Heap) (xWantedSize : ℕ) : Option (Heap × Malloc) :=
  (fit h.mem xWantedSize walk L.xStart (h.mem L.xStart).pxNextFreeBlock).bind fun found =>
    let pxPreviousBlock := found.1
    let pxBlock := found.2
    if pxBlock ≠ h.pxEnd then
      let pvReturn := add32 (h.mem pxPreviousBlock).pxNextFreeBlock xHeapStructSize
      let m := setNext h.mem pxPreviousBlock (h.mem pxBlock).pxNextFreeBlock
      (splitBlock L { h with mem := m } pxBlock xWantedSize).bind fun h =>
        configASSERT (pvReturn &&& portBYTE_ALIGNMENT_MASK = 0) (handOut h pxBlock, Malloc.returned pvReturn)
    else some (h, Malloc.failed)

def pvPortMalloc (h : Heap) (xWantedSize : ℕ) : Option (Heap × Malloc) :=
  let h := if h.pxEnd = 0 then prvHeapInit L h else h
  if xWantedSize &&& h.xBlockAllocatedBit = 0 then
    (blockSize xWantedSize).bind fun size =>
      if 0 < size ∧ size ≤ h.xFreeBytesRemaining then allocate L h size else some (h, Malloc.failed)
  else some (h, Malloc.failed)

def vPortFree (h : Heap) (pv : ℕ) : Option Heap :=
  if pv ≠ 0 then
    let pxLink := sub32 pv xHeapStructSize
    let allocated := (h.mem pxLink).xBlockSize &&& h.xBlockAllocatedBit ≠ 0
    let unlinked := (h.mem pxLink).pxNextFreeBlock = 0
    (configASSERT allocated ()).bind fun _ => (configASSERT unlinked ()).bind fun _ =>
      if allocated then
        if unlinked then
          let size := (h.mem pxLink).xBlockSize &&& not32 h.xBlockAllocatedBit
          prvInsertBlockIntoFreeList L
            { h with
              mem := setSize h.mem pxLink size
              xFreeBytesRemaining := add32 h.xFreeBytesRemaining size } pxLink
        else some h
      else some h
  else some h

end Code

/-! ## Programs -/

inductive Event
  | malloc (xWantedSize : ℕ)
  | free (pv : ℕ)
  | write (byte : ℕ) (cell : BlockLink)

/-- The heap, and what the program has got from it and not given back: the pointers with the sizes asked for. -/
structure State where
  heap : Heap
  live : List (ℕ × ℕ)

/-- The cell a byte is in. -/
def cellOf (a : ℕ) : ℕ := a - a % 8

/-- A write to the byte `a` may leave anything in the cell of the byte. -/
def poke (h : Heap) (a : ℕ) (c : BlockLink) : Heap := { h with mem := Function.update h.mem (cellOf a) c }

def afterMalloc (s : State) (xWantedSize : ℕ) (r : Heap × Malloc) : State :=
  match r.2 with
  | .returned pv => ⟨r.1, (pv, xWantedSize) :: s.live⟩
  | .failed => ⟨r.1, s.live⟩

/-- A program asks for sizes that are words, frees `NULL` or what it has got, and writes into what it has got. -/
def step (L : Layout) (s : State) : Event → Option State
  | .malloc n => if n < 2 ^ 32 then (pvPortMalloc L s.heap n).map (afterMalloc s n) else none
  | .free pv =>
    if pv = 0 ∨ pv ∈ s.live.map Prod.fst then
      (vPortFree L s.heap pv).map fun h => ⟨h, s.live.filter fun x => x.1 ≠ pv⟩
    else none
  | .write a c => if ∃ x ∈ s.live, x.1 ≤ a ∧ a < x.1 + x.2 then some ⟨poke s.heap a c, s.live⟩ else none

def init (mem : Memory) : State := ⟨Heap.start mem, []⟩

end Thronix.KernelHeap
