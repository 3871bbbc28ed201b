import Painting.Core.Memory

/-!
# The slab caches

`kalloc` and `kfree` of `kalloc.c` in the modes for objects of one size.  A cache
consists of pages from `buddy_alloc`: eight bytes that link to the page before, two
words of an allocation bitmap, the objects from offset 24 on, and eight bytes that
link to the page after.  A page is known by the address of its first object.

`kalloc` looks at the newest page only.  `kfree` starts there too and follows the link
words until it finds the page of the object.
-/

namespace Painting.Slab

open Painting.Memory

/-! ## The code -/

def pgSize : ℕ := 4096
def align : ℕ := 8

/-- `PAGE_ALLOC_SIZE`. -/
def pageAllocSize : ℕ := pgSize - 4 * align

/-- A mode of `kalloc`: the size of its objects and how many of them a page holds. -/
structure Mode where
  size : ℕ
  blockNum : ℕ

/-- `PROC_MODE`, `RB_MODE` and `FILE_MODE` with the sizes of `struct proc`,
`struct rbNode` and `struct file`. -/
def procMode : Mode := ⟨392, pageAllocSize / 392⟩
def rbMode : Mode := ⟨40, pageAllocSize / 40⟩
def fileMode : Mode := ⟨56, pageAllocSize / 56⟩

/-- `HDRP` and `FTRP`. -/
def hdrp (bp : ℕ) : ℕ := bp - align
def ftrp (bp : ℕ) : ℕ := bp + align

/-- `PACK`. -/
def pack (ptr lev : ℕ) : ℕ := ptr ||| lev

/-- `UNPACK`, which reads memory at its argument. -/
def unpack (mem : Mem) (addr : ℕ) : ℕ := load mem addr 8 >>> 8 <<< 8

/-- `(uint64_t)(-1)`. -/
def ones : ℕ := 2 ^ 64 - 1

/-- `find_lowest_zero_bit` from `pos` on; `none` for -1. -/
def findLowestZeroBit (num pos : ℕ) : ℕ → Option ℕ
  | 0 => none
  | width + 1 =>
      if num &&& 1 <<< pos = 0 then some pos else findLowestZeroBit num (pos + 1) width

/-- `init_bitmap_helper`. -/
def initBitmapHelper (mem : Mem) (ptr blockNum : ℕ) : Mem :=
  let i := min (blockNum >>> 3) 8
  let mask := 1 <<< (blockNum &&& 7) - 1
  let mem := fill mem ptr 0 i
  let mem := store mem (ptr + i) 1 (0xff ^^^ mask)
  fill mem (ptr + i + 1) 0xff (15 - i)

/-- `find_match_space`; without a clear bit in a word that is not all ones it would shift
out of range, which does not occur. -/
def findMatchSpace (mem : Mem) (list size : ℕ) : Option ℕ × Mem :=
  let freeBitmap := load mem (hdrp (hdrp list)) 8
  let freeBitmapExtend := load mem (hdrp list) 8
  if freeBitmap = ones then
    if freeBitmapExtend = ones then (none, mem)
    else
      match findLowestZeroBit freeBitmapExtend 0 64 with
      | none => (none, mem)
      | some off =>
          let mem := store mem (hdrp list) 8 (freeBitmapExtend ||| 1 <<< off)
          let mem := store mem (hdrp (hdrp list)) 8 freeBitmap
          (some (list + (off + 64) * size), mem)
  else
    match findLowestZeroBit freeBitmap 0 64 with
    | none => (none, mem)
    | some off =>
        let mem := store mem (hdrp list) 8 freeBitmapExtend
        let mem := store mem (hdrp (hdrp list)) 8 (freeBitmap ||| 1 <<< off)
        (some (list + off * size), mem)

/-- `heap_list_init` with the page that `buddy_alloc` returns: the list pointer. -/
def heapListInit (mem : Mem) (ptr prev num : ℕ) : ℕ × Mem :=
  let level := (mem ptr).toNat
  let mem := store mem ptr 8 (pack prev level)
  let mem := if prev ≠ 0 then store mem (prev + pageAllocSize) 8 (pack ptr level) else mem
  let ptr := ftrp ptr
  (ftrp (ftrp ptr), initBitmapHelper mem ptr num)

/-- The memory and the list pointer of one mode, such as `proc_heap_list`. -/
structure Cache where
  mem : Mem
  heapList : ℕ

/-- A page that `buddy_alloc` may return, with what it contains. -/
structure Page where
  addr : ℕ
  bytes : ℕ → UInt8

/-- Memory after `buddy_alloc` has set the page aside. -/
def Page.put (page : Page) (mem : Mem) : Mem := blit mem page.addr page.bytes pgSize

/-- `slab_init` for one mode. -/
def slabInit (mode : Mode) (mem : Mem) (page : Page) : Cache :=
  let (list, mem) := heapListInit (page.put mem) page.addr 0 mode.blockNum
  ⟨mem, list⟩

/-- `kalloc` in one mode; `page` is what `buddy_alloc` returns when it is called. -/
def kalloc (mode : Mode) (cache : Cache) (page : Page) : Option ℕ × Cache :=
  match findMatchSpace cache.mem cache.heapList mode.size with
  | (some bp, mem) => (some bp, { cache with mem := mem })
  | (none, mem) =>
      let (ptr, mem) := heapListInit (page.put mem) page.addr cache.heapList mode.blockNum
      let (bp, mem) := findMatchSpace mem ptr mode.size
      (bp, ⟨mem, ptr⟩)

/-- `get_block_index_helper`, up to a number of rounds: the page of `bp` and its index. -/
def getBlockIndexHelper (mem : Mem) (bp blockSize : ℕ) : ℕ → ℕ → Option (ℕ × ℕ)
  | 0, _ => none
  | rounds + 1, list =>
      if list ≤ bp ∧ bp < list + pageAllocSize then
        some (list, (bp - list) % 2 ^ 32 / blockSize)
      else
        getBlockIndexHelper mem bp blockSize rounds (unpack mem (load mem (list + pageAllocSize) 8))

/-- The part of `kfree` after the page is found: the memory, and the page that it gives back
to `buddy_free`. -/
def kfreeAt (mem : Mem) (list off : ℕ) : Mem × Option ℕ :=
  let mem :=
    if 64 ≤ off then
      store mem (hdrp list) 8 (load mem (hdrp list) 8 &&& (ones ^^^ 1 <<< (off - 64)))
    else
      store mem (hdrp (hdrp list)) 8 (load mem (hdrp (hdrp list)) 8 &&& (ones ^^^ 1 <<< off))
  let val1 := load mem (hdrp (hdrp list)) 8
  let val2 := load mem (hdrp list) 8
  let prevVal := load mem (hdrp (hdrp (hdrp list))) 8
  let nextVal := load mem (list + pageAllocSize) 8
  if val1 = ones ∧ val2 = ones then
    let prev := unpack mem prevVal
    let next := unpack mem nextVal
    let mem := store mem (prev + pageAllocSize) 8 nextVal
    let mem := store mem (hdrp (hdrp (hdrp next))) 8 prevVal
    (mem, some (hdrp (hdrp (hdrp list))))
  else (mem, none)

/-- `kfree` in one mode, up to a number of rounds. -/
def kfree (mode : Mode) (rounds : ℕ) (cache : Cache) (addr : ℕ) : Option (Cache × Option ℕ) :=
  if addr = 0 then some (cache, none)
  else
    let mem := fill cache.mem addr 0xc mode.size
    (getBlockIndexHelper mem addr mode.size rounds cache.heapList).map fun (list, off) =>
      let (mem, page) := kfreeAt mem list off
      ({ cache with mem := mem }, page)

end Painting.Slab
