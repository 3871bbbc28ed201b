import Painting.Core.Memory
import Painting.Core.Transition

/-!
# The user-level allocator

`user/stdlib.c` is a boundary-tag allocator: every block carries its size and
its allocated bit in a four-byte header before the payload and in a four-byte
footer at its end.  The heap starts with an allocated prologue block and ends
with a header of size zero.

Sizes are 32-bit.  When a freed block's left neighbour is allocated and its
right one is free, `coalesce` writes the footer twice and the header never.
-/

namespace Painting.Malloc

open Painting.Memory Painting.Transition

/-! ## Boundary tags (`user/include/stdlib.h`) -/

def wsize : ℕ := 4
def dsize : ℕ := 8
def chunkSize : ℕ := 4096

/-- `PACK`. -/
def pack (size alloc : ℕ) : ℕ := size ||| alloc

/-- `GET`. -/
def get (mem : Mem) (p : ℕ) : ℕ := load mem p 4

/-- `PUT`. -/
def put (mem : Mem) (p value : ℕ) : Mem := store mem p 4 value

/-- `GET_SIZE`: the word without its three low bits. -/
def getSize (mem : Mem) (p : ℕ) : ℕ := get mem p &&& 0xfffffff8

/-- `GET_ALLOC`. -/
def getAlloc (mem : Mem) (p : ℕ) : ℕ := get mem p &&& 1

/-- `HDRP`. -/
def hdrp (bp : ℕ) : ℕ := bp - wsize

/-- `FTRP`. -/
def ftrp (mem : Mem) (bp : ℕ) : ℕ := bp + getSize mem (hdrp bp) - dsize

/-- `NEXT_BLKP`. -/
def nextBlkp (mem : Mem) (bp : ℕ) : ℕ := bp + getSize mem (bp - wsize)

/-- `PREV_BLKP`. -/
def prevBlkp (mem : Mem) (bp : ℕ) : ℕ := bp - getSize mem (bp - dsize)

/-- Addition and subtraction of `uint32_t`. -/
def add32 (left right : ℕ) : ℕ := (left + right) % 2 ^ 32
def sub32 (left right : ℕ) : ℕ := (left + 2 ^ 32 - right) % 2 ^ 32

/-! ## The code -/

/-- Memory with the two globals `mem_heap_start` and `mem_heap_end`. -/
structure Heap where
  mem : Mem
  heapStart : ℕ
  heapEnd : ℕ

/-- `mem_sbrk`, where `grant` says whether `sbrk` succeeds.  The argument is an
`int`, so a size with its top bit set is refused. -/
def memSbrk (heap : Heap) (incr : ℕ) (grant : Bool) : Option (ℕ × Heap) :=
  if 2 ^ 31 ≤ incr then none
  else if grant then some (heap.heapEnd, { heap with heapEnd := heap.heapEnd + incr })
  else none

/-- `find_fit` from `bp` on.  The outer `none` means the fuel ran out, the
inner one that no block fits. -/
def findFit (mem : Mem) (size : ℕ) : ℕ → ℕ → Option (Option ℕ)
  | 0, _ => none
  | fuel + 1, bp =>
      if 0 < getSize mem (hdrp bp) then
        if getAlloc mem (hdrp bp) = 0 ∧ size ≤ getSize mem (hdrp bp) then some (some bp)
        else findFit mem size fuel (nextBlkp mem bp)
      else some none

/-- `place`. -/
def place (mem : Mem) (bp asize : ℕ) : Mem :=
  let csize := getSize mem (hdrp bp)
  if 2 * dsize ≤ sub32 csize asize then
    let mem := put mem (hdrp bp) (pack asize 1)
    let mem := put mem (ftrp mem bp) (pack asize 1)
    let bp := nextBlkp mem bp
    let mem := put mem (hdrp bp) (pack (sub32 csize asize) 0)
    put mem (ftrp mem bp) (pack (sub32 csize asize) 0)
  else
    let mem := put mem (hdrp bp) (pack csize 1)
    put mem (ftrp mem bp) (pack csize 1)

/-- `coalesce`. -/
def coalesce (mem : Mem) (bp : ℕ) : ℕ × Mem :=
  let prevAlloc := getAlloc mem (ftrp mem (prevBlkp mem bp))
  let nextAlloc := getAlloc mem (hdrp (nextBlkp mem bp))
  let size := getSize mem (hdrp bp)
  if prevAlloc ≠ 0 ∧ nextAlloc ≠ 0 then (bp, mem)
  else if prevAlloc ≠ 0 ∧ nextAlloc = 0 then
    let size := add32 size (getSize mem (hdrp (nextBlkp mem bp)))
    let mem := put mem (ftrp mem bp) (pack size 0)
    let mem := put mem (ftrp mem bp) (pack size 0)
    (bp, mem)
  else if prevAlloc = 0 ∧ nextAlloc ≠ 0 then
    let size := add32 size (getSize mem (hdrp (prevBlkp mem bp)))
    let mem := put mem (ftrp mem bp) (pack size 0)
    let mem := put mem (hdrp (prevBlkp mem bp)) (pack size 0)
    (prevBlkp mem bp, mem)
  else
    let size := add32 size (add32 (getSize mem (hdrp (prevBlkp mem bp)))
      (getSize mem (ftrp mem (nextBlkp mem bp))))
    let mem := put mem (hdrp (prevBlkp mem bp)) (pack size 0)
    let mem := put mem (ftrp mem (nextBlkp mem bp)) (pack size 0)
    (prevBlkp mem bp, mem)

/-- `extend_heap`. -/
def extendHeap (heap : Heap) (words : ℕ) (grant : Bool) : Option (ℕ × Heap) :=
  let size := if words % 2 = 1 then (words + 1) * wsize % 2 ^ 32 else words * wsize % 2 ^ 32
  (memSbrk heap size grant).map fun (bp, heap) =>
    let mem := put heap.mem (hdrp bp) (pack size 0)
    let mem := put mem (ftrp mem bp) (pack size 0)
    let mem := put mem (hdrp (nextBlkp mem bp)) (pack 0 1)
    let (bp, mem) := coalesce mem bp
    (bp, { heap with mem := mem })

/-- `mm_init` for a break at `base`, with both calls of `sbrk` succeeding. -/
def mmInit (mem : Mem) (base : ℕ) : Option Heap :=
  (memSbrk ⟨mem, base, base⟩ (4 * wsize) true).bind fun (_, heap) =>
    let mem := put heap.mem base 0
    let mem := put mem (base + 1 * wsize) (pack dsize 1)
    let mem := put mem (base + 2 * wsize) (pack dsize 1)
    let mem := put mem (base + 3 * wsize) (pack 0 1)
    let heap := { heap with mem := mem, heapStart := base + 2 * wsize }
    (extendHeap heap (chunkSize / wsize) true).map fun (_, heap) => heap

/-- The adjusted block size that `malloc` looks for. -/
def adjustedSize (size : ℕ) : ℕ :=
  if size ≤ dsize then 2 * dsize
  else dsize * ((size + dsize + (dsize - 1)) % 2 ^ 32 / dsize) % 2 ^ 32

/-- `malloc` on an initialised heap; the result `0` is `NULL`. -/
def malloc (heap : Heap) (size : ℕ) (grant : Bool) : Option (ℕ × Heap) :=
  if size = 0 then some (0, heap)
  else
    let asize := adjustedSize size
    (findFit heap.mem asize heap.heapEnd heap.heapStart).map fun fit =>
      match fit with
      | some bp => (bp, { heap with mem := place heap.mem bp asize })
      | none =>
          let extendsize := max asize chunkSize
          match extendHeap heap (extendsize / wsize) grant with
          | some (bp, heap) => (bp, { heap with mem := place heap.mem bp asize })
          | none => (0, heap)

/-- `free`. -/
def free (heap : Heap) (ptr : ℕ) : Heap :=
  if ptr = 0 then heap
  else
    let size := getSize heap.mem (hdrp ptr)
    let mem := put heap.mem (hdrp ptr) (pack size 0)
    let mem := put mem (ftrp mem ptr) (pack size 0)
    { heap with mem := (coalesce mem ptr).2 }

/-! ## Runs -/

/-- The allocator together with the pointers its caller holds. -/
structure State where
  heap : Heap
  live : List ℕ

/-- The bytes a holder of `ptr` may use. -/
def payload (mem : Mem) (ptr : ℕ) : ℕ := getSize mem (hdrp ptr) - dsize

inductive Action
  /-- `malloc(size)`, where `grant` says whether a call of `sbrk` succeeds. -/
  | malloc (size : ℕ) (grant : Bool)
  | free (ptr : ℕ)
  /-- The program stores into a block it holds. -/
  | write (addr : ℕ) (byte : UInt8)

/-- Every byte that `sbrk` grants is backed by a frame of the memory between
`KERNBASE` and `PHYSTOP`. -/
def sbrkLimit : ℕ := 0x88000000 - 0x80200000

inductive Step : State → Action → State → Prop
  | malloc {state : State} {size ptr : ℕ} {grant : Bool} {heap : Heap} (hsize : 0 < size)
      (hwrap : size + 15 < 2 ^ 32)
      (hgrant : grant = true → state.heap.heapEnd + max (adjustedSize size) chunkSize ≤
        state.heap.heapStart + sbrkLimit)
      (hmalloc : malloc state.heap size grant = some (ptr, heap)) :
      Step state (.malloc size grant)
        ⟨heap, if ptr = 0 then state.live else ptr :: state.live⟩
  | free {state : State} {ptr : ℕ} (hlive : ptr ∈ state.live) :
      Step state (.free ptr) ⟨Malloc.free state.heap ptr, state.live.erase ptr⟩
  | write {state : State} {ptr addr : ℕ} {byte : UInt8} (hlive : ptr ∈ state.live)
      (hlo : ptr ≤ addr) (hhi : addr < ptr + payload state.heap.mem ptr) :
      Step state (.write addr byte)
        { state with heap :=
          { state.heap with mem := Function.update state.heap.mem addr byte } }

end Painting.Malloc
