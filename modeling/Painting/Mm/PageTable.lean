import Painting.Core.Memory

/-!
# Page tables

The three-level Sv39 tables of `vm.c` and `uvm.c`, kept in memory as pages of
512 eight-byte entries.  Pages come from `kpmalloc` (`pm.c`), whose free list is
given as the list of its pages; taking and returning a page overwrites its
contents as the source does.

A kernel panic ends the computation with its message.
-/

namespace Painting.PageTable

open Painting.Memory

/-! ## Constants and macros (`memlayout.h`, `riscv.h`, `macro.h`) -/

def pgSize : ℕ := 4096
def maxVa : ℕ := 2 ^ 38
def kernBase : ℕ := 0x80200000
def physTop : ℕ := kernBase + 128 * 1024 * 1024 - 0x200000
def trampoline : ℕ := maxVa - pgSize
def trapFrame : ℕ := trampoline - pgSize
def ustack : ℕ := trapFrame - pgSize

def pteV : ℕ := 1
def pteR : ℕ := 2
def pteW : ℕ := 4
def pteX : ℕ := 8
def pteU : ℕ := 16

/-- `IDX`. -/
def idx (level va : ℕ) : ℕ := (va >>> (12 + level * 9)) &&& 0x1ff

/-- `PA2PTE`. -/
def pa2pte (pa : ℕ) : ℕ := (pa >>> 12) <<< 10 % 2 ^ 64

/-- `PTE2PA`. -/
def pte2pa (pte : ℕ) : ℕ := (pte >>> 10) <<< 12 % 2 ^ 64

/-- `PTE_FLAGS`. -/
def pteFlags (pte : ℕ) : ℕ := pte &&& 0x3ff

/-- `PGROUNDUP` and `PGROUNDDOWN` of 64-bit values. -/
def pgRoundUp (sz : ℕ) : ℕ := (sz + pgSize - 1) % 2 ^ 64 / pgSize * pgSize
def pgRoundDown (a : ℕ) : ℕ := a / pgSize * pgSize

/-! ## Physical pages (`pm.c`) -/

/-- The panics of this part of the kernel. -/
inductive Panic
  | walk
  | vaNotAligned
  | szNotAligned
  | remap
  | unmapNotAligned
  | unmapWalk
  | notMapped
  | notALeaf
  | kpmfree
  deriving DecidableEq, Repr

/-- Memory and the pages on the free list, first one first. -/
structure Pm where
  mem : Mem
  freelist : List ℕ

/-- `kpmalloc`: the page, or `none` for `NULL`. -/
def kpmalloc (pm : Pm) : Option ℕ × Pm :=
  match pm.freelist with
  | [] => (none, pm)
  | page :: rest => (some page, ⟨fill pm.mem page 5 pgSize, rest⟩)

/-- `kpmfree`, where `kernelEnd` is the symbol `end`. -/
def kpmfree (kernelEnd : ℕ) (pm : Pm) (pa : ℕ) : Except Panic Pm :=
  if pa % pgSize ≠ 0 ∨ pa < kernelEnd ∨ physTop ≤ pa then .error .kpmfree
  else
    .ok ⟨store (fill pm.mem pa 1 pgSize) pa 8 (pm.freelist.headD 0), pa :: pm.freelist⟩

/-! ## Tables (`vm.c`) -/

/-- The table entry at address `slot`. -/
def readPte (mem : Mem) (slot : ℕ) : ℕ := load mem slot 8

/-- The loop of `walk` from `level` down; the slot of the last entry, or `none`
for a null pointer. -/
def walkLoop (va : ℕ) (alloc : Bool) : ℕ → Pm → ℕ → Option ℕ × Pm
  | 0, pm, pgtble => (some (pgtble + 8 * idx 0 va), pm)
  | level + 1, pm, pgtble =>
      let slot := pgtble + 8 * idx (level + 1) va
      let pte := readPte pm.mem slot
      if pte &&& pteV ≠ 0 then walkLoop va alloc level pm (pte2pa pte)
      else if alloc then
        match kpmalloc pm with
        | (none, pm) => (none, pm)
        | (some page, pm) =>
            let mem := fill pm.mem page 0 pgSize
            let mem := store mem slot 8 (pa2pte page ||| pteV)
            walkLoop va alloc level ⟨mem, pm.freelist⟩ page
      else (none, pm)

/-- `walk`. -/
def walk (pm : Pm) (pgtble va : ℕ) (alloc : Bool) : Except Panic (Option ℕ × Pm) :=
  if maxVa ≤ va then .error .walk else .ok (walkLoop va alloc 2 pm pgtble)

/-- The loop of `mappages`.  The rounds are counted so that without a break the
address has passed `MAXVA`, where `walk` panics. -/
def mapLoop (pgtble stop mode : ℕ) : ℕ → Pm → ℕ → ℕ → Except Panic (ℤ × Pm)
  | 0, _, _, _ => .error .walk
  | rounds + 1, pm, a, pa =>
      match walk pm pgtble a true with
      | .error panic => .error panic
      | .ok (none, pm) => .ok (-1, pm)
      | .ok (some slot, pm) =>
          if readPte pm.mem slot &&& pteV ≠ 0 then .error .remap
          else
            let pm : Pm := ⟨store pm.mem slot 8 (pa2pte pa ||| mode ||| pteV), pm.freelist⟩
            if a = stop then .ok (0, pm)
            else mapLoop pgtble stop mode rounds pm (a + pgSize) ((pa + pgSize) % 2 ^ 64)

/-- `mappages`. -/
def mappages (pm : Pm) (pgtble va pa sz mode : ℕ) : Except Panic (ℤ × Pm) :=
  if va % pgSize ≠ 0 then .error .vaNotAligned
  else if sz % pgSize ≠ 0 then .error .szNotAligned
  else
    mapLoop pgtble ((va + sz + 2 ^ 64 - pgSize) % 2 ^ 64) mode ((maxVa - va) / pgSize + 1) pm va pa

/-- The loop of `uvmunmap` over the remaining pages. -/
def unmapLoop (kernelEnd pgtble : ℕ) (doFree : Bool) : ℕ → Pm → ℕ → Except Panic Pm
  | 0, pm, _ => .ok pm
  | rounds + 1, pm, a =>
      match walk pm pgtble a false with
      | .error panic => .error panic
      | .ok (none, _) => .error .unmapWalk
      | .ok (some slot, pm) =>
          let pte := readPte pm.mem slot
          if pte &&& pteV = 0 then .error .notMapped
          else if pteFlags pte = pteV then .error .notALeaf
          else
            match if doFree then kpmfree kernelEnd pm (pte2pa pte) else .ok pm with
            | .error panic => .error panic
            | .ok pm =>
                unmapLoop kernelEnd pgtble doFree rounds ⟨store pm.mem slot 8 0, pm.freelist⟩
                  (a + pgSize)

/-- `uvmunmap`. -/
def uvmunmap (kernelEnd : ℕ) (pm : Pm) (pgtble va npages : ℕ) (doFree : Bool) :
    Except Panic Pm :=
  if va % pgSize ≠ 0 then .error .unmapNotAligned
  else
    let stop := (va + npages * pgSize) % 2 ^ 64
    unmapLoop kernelEnd pgtble doFree ((stop - va + (pgSize - 1)) / pgSize) pm va

end Painting.PageTable
