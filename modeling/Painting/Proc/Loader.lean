import Painting.Mm.FlatCopy
import Painting.Mm.TableCount
import Painting.Proc.Kernel

/-!
# The program loader

`loader` maps every loadable segment of an ELF file into a new address space,
reads its bytes from the file and clears the rest, and adds a stack page.  The
file is given by its bytes: `filesys_seek` and `filesys_read` deliver exactly
those from the position on.
-/

namespace Painting.Loader

open Painting.Memory Painting.PageTable
open Painting.Process (Proc)

/-! ## The file -/

/-- The contents of an open file. -/
structure File where
  bytes : ℕ → UInt8
  size : ℕ

/-- `filesys_read` of `n` bytes at `pos`: how many there are. -/
def File.read (file : File) (pos n : ℕ) : ℕ := min n (file.size - pos)

/-- `filesys_read` into memory at `pa`. -/
def File.readTo (file : File) (pos n : ℕ) (pm : Pm) (pa : ℕ) : Pm :=
  ⟨blit pm.mem pa (fun k => file.bytes (pos + k)) (file.read pos n), pm.freelist⟩

/-- The fields of `struct elfhdr` that the loader looks at. -/
structure Elfhdr where
  magic : ℕ
  machine : ℕ
  entry : ℕ
  phoff : ℕ
  phnum : ℕ

/-- `sizeof(struct elfhdr)` and `sizeof(struct proghdr)`. -/
def elfhdrSize : ℕ := 64
def proghdrSize : ℕ := 56

def File.elfhdr (file : File) : Elfhdr where
  magic := load file.bytes 0 4
  machine := load file.bytes 18 2
  entry := load file.bytes 24 8
  phoff := load file.bytes 32 8
  phnum := load file.bytes 56 2

/-- The fields of `struct proghdr` that the loader looks at. -/
structure Proghdr where
  type : ℕ
  flags : ℕ
  off : ℕ
  vaddr : ℕ
  filesz : ℕ
  memsz : ℕ
  deriving DecidableEq

def proghdrAt (bytes : ℕ → UInt8) (i : ℕ) : Proghdr where
  type := load bytes (proghdrSize * i) 4
  flags := load bytes (proghdrSize * i + 4) 4
  off := load bytes (proghdrSize * i + 8) 8
  vaddr := load bytes (proghdrSize * i + 16) 8
  filesz := load bytes (proghdrSize * i + 32) 8
  memsz := load bytes (proghdrSize * i + 40) 8

/-- The array `phdr`. -/
def File.proghdrs (file : File) : List Proghdr :=
  (List.range file.elfhdr.phnum).map (proghdrAt fun k => file.bytes (file.elfhdr.phoff + k))

/-- `ELF_MAGIC`, `EM_RISCV` and `PT_LOAD`. -/
def elfMagic : ℕ := 0x464C457F
def emRiscv : ℕ := 0xf3
def ptLoad : ℕ := 1

/-! ## One segment -/

/-- `_flag2perm`. -/
def flag2perm (flag : ℕ) : ℕ :=
  (if flag &&& 0x1 ≠ 0 then pteX else 0) ||| (if flag &&& 0x2 ≠ 0 then pteW else 0)

/-- The first loop of `loadseg`, which reads the file from `pos` on, one page in
each round.  It is false when `loadseg` returns 0 there. -/
def readLoop (root : ℕ) (file : File) (va filesz : ℕ) : ℕ → ℕ → ℕ → Pm → Bool × Pm
  | 0, _, _, pm => (true, pm)
  | rounds + 1, pos, i, pm =>
      if i < filesz then
        let pa := walkaddr pm root (va + i)
        if pa = 0 then (false, pm)
        else
          let n := min (filesz - i) pgSize
          let pm := file.readTo pos n pm pa
          if file.read pos n ≠ n then (false, pm)
          else readLoop root file va filesz rounds (pos + n) (i + pgSize) pm
      else (true, pm)

/-- The second loop, which clears `left` bytes from `bss` on. -/
def bssLoop (root : ℕ) : ℕ → ℕ → ℕ → Pm → Bool × Pm
  | 0, _, _, pm => (true, pm)
  | rounds + 1, bss, left, pm =>
      if 0 < left then
        let page := pgRoundDown bss
        let pa := walkaddr pm root page
        if pa = 0 then (false, pm)
        else
          let offInPage := bss - page
          let n := min (pgSize - offInPage) left
          bssLoop root rounds (bss + n) (left - n)
            ⟨fill pm.mem (pa + offInPage) 0 n, pm.freelist⟩
      else (true, pm)

/-- `loadseg`.  The loader has made sure that `va + memsz` does not overflow. -/
def loadseg (kernelEnd : ℕ) (pm : Pm) (root : ℕ) (file : File)
    (off va filesz memsz flag oldsz : ℕ) : Except Panic (ℕ × Pm) :=
  match uvmalloc kernelEnd pm root oldsz (va + memsz) flag with
  | .error panic => .error panic
  | .ok (newsz, pm) =>
      if newsz = 0 then .ok (0, pm)
      else
        match readLoop root file va filesz (filesz / pgSize + 1) off 0 pm with
        | (false, pm) => .ok (0, pm)
        | (true, pm) =>
            match bssLoop root (memsz - filesz) (va + filesz) (memsz - filesz) pm with
            | (false, pm) => .ok (0, pm)
            | (true, pm) => .ok (newsz, pm)

/-! ## The loader -/

/-- Why the loader does not return. -/
inductive Stop
  | panic (cause : Panic)
  /-- `panic("assertion fail\n")`. -/
  | assertion

/-- The loop over the program headers: the size of the image, or `none` for
`goto done`. -/
def loadSegments (kernelEnd root : ℕ) (file : File) :
    List Proghdr → ℕ → Pm → Except Panic (Option ℕ × Pm)
  | [], sz, pm => .ok (some sz, pm)
  | phdr :: rest, sz, pm =>
      if phdr.type ≠ ptLoad then loadSegments kernelEnd root file rest sz pm
      else if phdr.memsz < phdr.filesz then .ok (none, pm)
      else if (phdr.vaddr + phdr.memsz) % 2 ^ 64 < phdr.vaddr then .ok (none, pm)
      else if phdr.vaddr % pgSize ≠ 0 then .ok (none, pm)
      else
        match loadseg kernelEnd pm root file phdr.off phdr.vaddr phdr.filesz phdr.memsz
          (flag2perm phdr.flags) sz with
        | .error panic => .error panic
        | .ok (sz, pm) =>
            if sz = 0 then .ok (none, pm) else loadSegments kernelEnd root file rest sz pm

/-- The fields of `struct trapframe` that are written. -/
def trapframeEpc : ℕ := 24
def trapframeSp : ℕ := 48

/-- `loader` after the headers have been checked. -/
def loadImage (kernelEnd : ℕ) (pm : Pm) (p : Proc) (file : File) :
    Except Panic (Bool × Pm × Proc) :=
  match loadSegments kernelEnd p.pagetable file file.proghdrs 0 pm with
  | .error panic => .error panic
  | .ok (none, pm) => .ok (false, pm, p)
  | .ok (some sz, pm) =>
      let p := { p with heapStart := pgRoundUp sz, heapEnd := pgRoundUp sz }
      match setupStack kernelEnd pm p.pagetable with
      | .error panic => .error panic
      | .ok (none, pm) => .ok (false, pm, p)
      | .ok (some sp, pm) =>
          let mem := store pm.mem (p.trapframe + trapframeSp) 8 sp
          let mem := store mem (p.trapframe + trapframeEpc) 8 file.elfhdr.entry
          .ok (true, ⟨mem, pm.freelist⟩, p)

/-- `loader` by the process `p`, with the file that `filesys_open` finds. -/
def loader (kernelEnd : ℕ) (pm : Pm) (p : Proc) (file : Option File) :
    Except Stop (Bool × Pm × Proc) :=
  match file with
  | none => .ok (false, pm, p)
  | some file =>
      if file.read 0 elfhdrSize ≠ elfhdrSize then .error .assertion
      else if file.elfhdr.magic ≠ elfMagic then .error .assertion
      else if file.elfhdr.machine ≠ emRiscv then .error .assertion
      else if file.read file.elfhdr.phoff (proghdrSize * file.elfhdr.phnum) ≠
          proghdrSize * file.elfhdr.phnum then .error .assertion
      else (loadImage kernelEnd pm p file).mapError .panic

end Painting.Loader
