import Painting.Core.Strings
import Painting.Fs.Descriptors
import Painting.Mm.Slab
import Painting.Mm.Uvm

/-!
# Processes

`process_create`, `fork`, `process_exit` and `process_wait` of `proc.c`, each run as
one step.  Process and file structures live in slab pages; their fields are kept apart
from the words in which the slab keeps its bitmaps and links, and slab pages apart from
the other pages.

A step that does not return stops in a panic, at a null pointer or in an endless loop.
-/

namespace Painting.Process

open Painting.Memory Painting.PageTable
open Painting.Strings (strncpy)

/-! ## The state -/

/-- `enum process_state`. -/
inductive Status
  | zimbie
  | initial
  | runnable
  | block
  | running
  | sleeping
  deriving DecidableEq

/-- `struct proc`.  Pointers to other structures are addresses, 0 for `NULL`. -/
structure Proc where
  status : Status
  pid : ℤ
  kstack : ℕ
  trapframe : ℕ
  fileList : List ℕ
  parent : ℕ
  pagetable : ℕ
  cwd : ℕ
  heapStart : ℕ
  heapEnd : ℕ
  exitState : ℕ
  name : ℕ → UInt8

/-- The memory of the kernel: physical pages, the slab caches of processes and files, and the
global tables. -/
structure Kernel where
  pm : Pm
  kernelPagetable : ℕ
  procs : ℕ → Proc
  procCache : Slab.Cache
  files : ℕ → Descriptors.File
  fileCache : Slab.Cache
  pidBitmap : Bitmap.Map
  processList : List ℕ
  fdBitmap : Bitmap.Map
  direntList : List ℕ
  dirents : ℕ → Descriptors.Dirent

/-- The symbols `end` and `trampoline`, and a bound on the rounds of the loop in `kfree`. -/
structure Image where
  kernelEnd : ℕ
  trampolinePa : ℕ
  rounds : ℕ

/-- Why a step does not return.  At `wildLevel` it gives a page to `buddy_free` whose first byte is
that of a link word. -/
inductive Stop
  | panic (cause : Panic)
  | nullPointer
  | endless
  | wildLevel

def panics {α : Type} (result : Except Panic α) : Except Stop α := result.mapError .panic

def Kernel.setProc (k : Kernel) (p : ℕ) (change : Proc → Proc) : Kernel :=
  { k with procs := Function.update k.procs p (change (k.procs p)) }

def Kernel.setPm (k : Kernel) (pm : Pm) : Kernel := { k with pm := pm }

/-! ## The slab caches -/

/-- `kalloc` in a cache.  `buddy_alloc` takes the page from `kpmalloc`, and when there is none
`heap_list_init` reads at 0. -/
def kallocFrom (mode : Slab.Mode) (cache : Slab.Cache) (pm : Pm) :
    Except Stop (Option ℕ × Slab.Cache × Pm) :=
  match Slab.findMatchSpace cache.mem cache.heapList mode.size with
  | (some bp, mem) => .ok (some bp, { cache with mem := mem }, pm)
  | (none, _) =>
      match kpmalloc pm with
      | (none, _) => .error .nullPointer
      | (some page, pm) =>
          let (bp, cache) := Slab.kalloc mode cache ⟨page, fun _ => 5⟩
          .ok (bp, cache, pm)

/-- `kfree` in a cache. -/
def kfreeTo (image : Image) (mode : Slab.Mode) (cache : Slab.Cache) (addr : ℕ) :
    Except Stop Slab.Cache :=
  match Slab.kfree mode image.rounds cache addr with
  | none => .error .endless
  | some (cache, none) => .ok cache
  | some (_, some _) => .error .wildLevel

/-- `kalloc` and `kfree` in `PROC_MODE` and `FILE_MODE`. -/
def Kernel.kallocProc (k : Kernel) : Except Stop (Option ℕ × Kernel) := do
  let (bp, cache, pm) ← kallocFrom Slab.procMode k.procCache k.pm
  .ok (bp, { k with procCache := cache, pm := pm })

def Kernel.kfreeProc (image : Image) (k : Kernel) (p : ℕ) : Except Stop Kernel := do
  let cache ← kfreeTo image Slab.procMode k.procCache p
  .ok { k with procCache := cache }

def Kernel.kallocFile (k : Kernel) : Except Stop (Option ℕ × Kernel) := do
  let (bp, cache, pm) ← kallocFrom Slab.fileMode k.fileCache k.pm
  .ok (bp, { k with fileCache := cache, pm := pm })

def Kernel.kfreeFile (image : Image) (k : Kernel) (f : ℕ) : Except Stop Kernel := do
  let cache ← kfreeTo image Slab.fileMode k.fileCache f
  .ok { k with fileCache := cache }

/-! ## Process numbers -/

def maxPid : ℕ := 32768

/-- `pid_free`. -/
def pidFree (k : Kernel) (pid : ℤ) : Kernel :=
  if 0 ≤ pid ∧ pid < maxPid then { k with pidBitmap := Bitmap.clear k.pidBitmap pid.toNat } else k

/-- `pid_alloc`. -/
def pidAlloc (k : Kernel) : ℤ × Kernel :=
  match Bitmap.firstClear k.pidBitmap 0 maxPid with
  | some pid => (pid, { k with pidBitmap := Bitmap.mark k.pidBitmap pid })
  | none => (-1, k)

/-- `KSTACK`. -/
def kstackVa (pid : ℤ) : ℕ := ((trampoline : ℤ) - (pid + 1) * 2 * pgSize).toNat

/-! ## `process_create` -/

/-- The end of `process_create`, with the kernel stack at `va`.  The result of `process_pagetable`
is not looked at. -/
def createTable (image : Image) (k : Kernel) (cur p trapframe va : ℕ) :
    Except Stop (ℕ × Kernel) := do
  let (pagetable, pm) ←
    panics (processPagetable image.kernelEnd image.trampolinePa k.pm trapframe)
  let k := (k.setPm pm).setProc p fun proc =>
    { proc with
      kstack := va
      pagetable := pagetable
      status := .initial
      cwd := 0
      parent := cur
      fileList := [] }
  .ok (p, { k with processList := k.processList ++ [p] })

/-- `process_create` from `pid_alloc` on, whose result is not looked at. -/
def createStack (image : Image) (k : Kernel) (cur p trapframe kstack : ℕ) :
    Except Stop (ℕ × Kernel) := do
  let (pid, k) := pidAlloc k
  let k := k.setProc p fun proc => { proc with pid := pid }
  let (ret, pm) ←
    panics (mappages k.pm k.kernelPagetable (kstackVa pid) kstack pgSize (pteR ||| pteW))
  if ret ≠ 0 then do
    let pm ← panics (kpmfree image.kernelEnd pm kstack)
    let pm ← panics (kpmfree image.kernelEnd pm p)
    .ok (0, k.setPm pm)
  else createTable image (k.setPm pm) cur p trapframe (kstackVa pid)

/-- `process_create` once the structure `p` is allocated.  It comes from a slab page, but `kpmfree`
is called on it when a later step fails. -/
def createWith (image : Image) (k : Kernel) (cur p : ℕ) : Except Stop (ℕ × Kernel) :=
  match kpmalloc k.pm with
  | (none, pm) => do
      let k := (k.setPm pm).setProc p fun proc => { proc with trapframe := 0 }
      let k ← k.kfreeProc image p
      .ok (0, k)
  | (some trapframe, pm) =>
      let k := (k.setPm pm).setProc p fun proc => { proc with trapframe := trapframe }
      match kpmalloc k.pm with
      | (none, pm) => do
          let pm ← panics (kpmfree image.kernelEnd pm p)
          .ok (0, k.setPm pm)
      | (some kstack, pm) => createStack image (k.setPm pm) cur p trapframe kstack

/-- `process_create` by the process `cur`, 0 when there is none; the result is 0 for `NULL`. -/
def processCreate (image : Image) (k : Kernel) (cur : ℕ) : Except Stop (ℕ × Kernel) := do
  let (bp, k) ← k.kallocProc
  match bp with
  | none => .ok (0, k)
  | some p => createWith image k cur p

/-! ## `fork` -/

/-- The address of the user stack page. -/
def stackVa : ℕ := ustack - pgSize

/-- There is a page below `sz` that `uvmcopy` copies: without free pages it fails. -/
def copies (pm : Pm) (old sz : ℕ) : Bool :=
  match uvmcopy 0 ⟨pm.mem, []⟩ old 0 sz with
  | .ok (ret, _) => ret ≠ 0
  | .error _ => false

/-- `uvmcopy` into a table that may be `NULL`, which is not looked at before a page is mapped. -/
def uvmcopyInto (image : Image) (pm : Pm) (old new sz : ℕ) : Except Stop (ℤ × Pm) :=
  if new = 0 ∧ pm.freelist ≠ [] ∧ copies pm old sz then .error .nullPointer
  else panics (uvmcopy image.kernelEnd pm old new sz)

/-- `mappages` in a table that may be `NULL`. -/
def mappagesInto (pm : Pm) (pagetable va pa sz mode : ℕ) : Except Stop (ℤ × Pm) :=
  if pagetable = 0 then .error .nullPointer else panics (mappages pm pagetable va pa sz mode)

/-- The label `bad` of `fork`, where `stack_mem` is `NULL`. -/
def forkBad (image : Image) (k : Kernel) (np : ℕ) : Except Stop (ℤ × Kernel) := do
  let child := k.procs np
  let pm ←
    if child.kstack ≠ 0 then
      panics (uvmunmap image.kernelEnd k.pm k.kernelPagetable (kstackVa child.pid) 1 true)
    else .ok k.pm
  let pm ←
    if child.pagetable ≠ 0 then panics (freeUserPagetable image.kernelEnd pm child.pagetable)
    else .ok pm
  let pm ←
    if child.trapframe ≠ 0 then panics (kpmfree image.kernelEnd pm child.trapframe) else .ok pm
  let k := { k.setPm pm with processList := k.processList.erase np }
  let k ← (pidFree k child.pid).kfreeProc image np
  .ok (-1, k)

/-- `sizeof(struct trapframe)`, and the offset of its field `a0`. -/
def trapframeSize : ℕ := 288
def trapframeA0 : ℕ := 112

/-- The loop of `fork` that copies open files. -/
def copyFiles (np : ℕ) : List ℕ → Kernel → Except Stop Kernel
  | [], k => .ok k
  | f :: rest, k => do
      let (bp, k) ← k.kallocFile
      match bp with
      | none => .error .nullPointer
      | some nf =>
          let k := { k with files := Function.update k.files nf (k.files f) }
          let k :=
            match (k.files nf).dirent with
            | none => k
            | some dirent =>
                { k with
                  dirents := Function.update k.dirents dirent
                    { k.dirents dirent with
                      linkcnt := ((k.dirents dirent).linkcnt + 1) % 2 ^ 32 } }
          copyFiles np rest (k.setProc np fun proc => { proc with fileList := proc.fileList ++ [nf] })

/-- `MAXLEN`. -/
def maxLen : ℕ := 64

/-- The end of `fork`, after the child has its memory. -/
def forkFinish (k : Kernel) (p np : ℕ) : Except Stop (ℤ × Kernel) := do
  let parent := k.procs p
  let trapframe := (k.procs np).trapframe
  let mem := blit k.pm.mem trapframe (fun i => k.pm.mem (parent.trapframe + i)) trapframeSize
  let mem := store mem (trapframe + trapframeA0) 8 0
  let k := (k.setPm ⟨mem, k.pm.freelist⟩).setProc np fun proc =>
    { proc with
      heapStart := parent.heapStart
      heapEnd := parent.heapEnd
      fileList := [] }
  let k ← copyFiles np parent.fileList k
  let k := k.setProc np fun proc =>
    { proc with
      name := strncpy proc.name parent.name maxLen
      status := .runnable
      parent := p }
  .ok ((k.procs np).pid, k)

/-- `fork` by the process `p`. -/
def fork (image : Image) (k : Kernel) (p : ℕ) : Except Stop (ℤ × Kernel) := do
  let (np, k) ← processCreate image k p
  if np = 0 then .ok (-1, k)
  else if (k.procs p).pagetable = 0 then .error .nullPointer
  else do
    let parent := k.procs p
    let child := k.procs np
    let (ret, pm) ← uvmcopyInto image k.pm parent.pagetable child.pagetable parent.heapEnd
    let k := k.setPm pm
    if ret < 0 then forkBad image k np
    else do
      let (slot, pm) ← panics (walk k.pm parent.pagetable stackVa false)
      let k := k.setPm pm
      match slot with
      | none => forkBad image k np
      | some slot =>
          let spte := readPte k.pm.mem slot
          if spte &&& (pteV ||| pteU) ≠ pteV ||| pteU then forkBad image k np
          else
            match kpmalloc k.pm with
            | (none, pm) => forkBad image (k.setPm pm) np
            | (some stackMem, pm) => do
                let pm : Pm :=
                  ⟨blit pm.mem stackMem (fun i => pm.mem (pte2pa spte + i)) pgSize, pm.freelist⟩
                let (ret, pm) ← mappagesInto pm child.pagetable stackVa stackMem pgSize
                  (pteFlags spte &&& (pteR ||| pteW ||| pteX ||| pteU))
                if ret ≠ 0 then do
                  let pm ← panics (kpmfree image.kernelEnd pm stackMem)
                  forkBad image (k.setPm pm) np
                else forkFinish (k.setPm pm) p np

/-! ## `process_exit` -/

/-- `free_fd` and `file_close`. -/
def Kernel.tables (k : Kernel) : Descriptors.Kernel :=
  ⟨k.fdBitmap, k.direntList, k.dirents, fun _ => none⟩

def Kernel.setTables (k : Kernel) (tables : Descriptors.Kernel) : Kernel :=
  { k with
    fdBitmap := tables.fdBitmap
    direntList := tables.direntList
    dirents := tables.dirents }

def fileClose (k : Kernel) (dirent : Option ℕ) : Kernel :=
  k.setTables (Descriptors.fileClose k.tables dirent)

def freeFd (k : Kernel) (fd : ℕ) : Kernel := k.setTables (Descriptors.freeFd k.tables fd)

/-- The loop of `process_exit` that closes the files of `p`, given as its `file_list`. -/
def closeFiles (image : Image) (p : ℕ) : List ℕ → Kernel → Except Stop Kernel
  | [], k => .ok k
  | f :: rest, k => do
      let k := k.setProc p fun proc => { proc with fileList := rest }
      let k := freeFd k (k.files f).fd
      let k := fileClose k (k.files f).dirent
      let k ← k.kfreeFile image f
      closeFiles image p rest k

/-- `process_exit` by the process `p`, up to the point where it leaves the processor. -/
def processExit (image : Image) (k : Kernel) (p state : ℕ) : Except Stop Kernel := do
  let k ← closeFiles image p (k.procs p).fileList k
  let cwd := (k.procs p).cwd
  let k ←
    if cwd ≠ 0 then do
      let k ← (fileClose k (k.files cwd).dirent).kfreeFile image cwd
      .ok (k.setProc p fun proc => { proc with cwd := 0 })
    else .ok k
  let k ←
    if (k.procs p).pagetable ≠ 0 then do
      let pm ← panics (freeUserPagetable image.kernelEnd k.pm (k.procs p).pagetable)
      .ok ((k.setPm pm).setProc p fun proc => { proc with pagetable := 0 })
    else .ok k
  .ok (k.setProc p fun proc => { proc with exitState := state, status := .zimbie })

/-! ## `process_wait` -/

/-- The child is one that `p` waits for. -/
def Kernel.waitsFor (k : Kernel) (p : ℕ) (pid : ℤ) (child : ℕ) : Bool :=
  (k.procs child).parent = p && (pid = 0 || (k.procs child).pid = pid)

/-- What `process_wait` does with a child that has ended. -/
def reap (image : Image) (k : Kernel) (child : ℕ) : Except Stop (ℤ × Kernel) := do
  let pid := (k.procs child).pid
  let k ←
    if (k.procs child).kstack ≠ 0 then do
      let pm ← panics
        (uvmunmap image.kernelEnd k.pm k.kernelPagetable (k.procs child).kstack 1 true)
      .ok ((k.setPm pm).setProc child fun proc => { proc with kstack := 0 })
    else .ok k
  let k ←
    if (k.procs child).trapframe ≠ 0 then do
      let pm ← panics (kpmfree image.kernelEnd k.pm (k.procs child).trapframe)
      .ok ((k.setPm pm).setProc child fun proc => { proc with trapframe := 0 })
    else .ok k
  let k := { k with processList := k.processList.erase child }
  let k ← (pidFree k pid).kfreeProc image child
  .ok (pid, k)

/-- `process_wait` by the process `p`: the number it returns, or `none` when it sleeps. -/
def processWait (image : Image) (k : Kernel) (p : ℕ) (pid : ℤ) :
    Except Stop (Option ℤ × Kernel) :=
  let children := k.processList.filter (k.waitsFor p pid)
  match children.find? fun child => (k.procs child).status = .zimbie with
  | some child => (reap image k child).map fun (pid, k) => (some pid, k)
  | none => .ok (if children = [] then some (-1) else none, k)

end Painting.Process
