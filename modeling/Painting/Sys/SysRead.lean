import Painting.Fs.Descriptors
import Painting.Fs.FatVolume
import Painting.Mm.UserCopy

/-!
# Reading into user memory

`sys_read` of `sysfile.c` with `filesys_read`, `file_read`, `fileread` and `console_read`
below it and `copyout` at its end.  The byte count passes through `int`, `size_t`,
`off_t` and `uint64_t`: an error of `filesys_read` arrives as a count close to 2^64.

The kernel memory from the start of the 1024-byte buffer on is a function; the file
system is not changed by reading.
-/

namespace Painting.SysRead

open Painting.Memory Painting.PageTable Painting.Descriptors
open Painting.Fat32 (Filesystem Geometry toInt)

def buflen : ℕ := 1024

/-! ## The code -/

/-- The loop of `console_read` into the kernel buffer: the characters that the UART delivers are
given.  `none` when it waits for one more. -/
def consoleLoop (n : ℤ) : List UInt8 → (ℕ → UInt8) → ℕ → Option (ℕ × (ℕ → UInt8) × List UInt8)
  | [], kmem, i => if (i : ℤ) < n - 1 then none else some (i, kmem, [])
  | c :: rest, kmem, i =>
      if (i : ℤ) < n - 1 then
        if c = 0x04 then some (i, kmem, rest)
        else if c = 0x7f ∨ c = 0x08 then consoleLoop n rest kmem (if 0 < i then i - 1 else i)
        else if c = 10 ∨ c = 13 then some (i + 1, Function.update kmem i c, rest)
        else consoleLoop n rest (Function.update kmem i c) (i + 1)
      else some (i, kmem, c :: rest)

def consoleRead (n : ℤ) (input : List UInt8) (kmem : ℕ → UInt8) :
    Option (ℕ × (ℕ → UInt8) × List UInt8) :=
  if n ≤ 0 then some (0, kmem, input) else consoleLoop n input kmem 0

/-- An `int` as a `size_t`. -/
def toSize (r : ℤ) : ℕ := (r % 2 ^ 64).toNat

/-- `file->pos = pos` for the file that `find_file` finds. -/
def setPos : List File → ℕ → ℕ → List File
  | [], _, _ => []
  | file :: rest, fd, pos =>
      if file.fd = fd then { file with pos := pos } :: rest else file :: setPos rest fd pos

/-- What a call of `filesys_read` returns and leaves behind: its result as a 64-bit count, the
number of bytes that it has stored at the start of the buffer, and the changed state. -/
structure ReadCall where
  nread : ℕ
  stored : ℕ
  kmem : ℕ → UInt8
  files : List File
  input : List UInt8

section Code

variable (fs : Filesystem) (disk : Mem) (dirents : ℕ → Dirent)

/-- `file_read`: its result and the bytes it stores. -/
def fileRead (dirent : Option ℕ) (offset sz : ℕ) : ℕ × List UInt8 :=
  match dirent with
  | none => (toSize (-1), [])
  | some d =>
      if sz = 0 then (0, [])
      else if (dirents d).flag = 0 ∨ (dirents d).flag = 2 then
        let (result, bytes) := Fat32.fileread fs disk ⟨(dirents d).firstCluster, (dirents d).size⟩
          (offset % 2 ^ 32) (sz % 2 ^ 32)
        (toSize result, bytes)
      else (toSize (-1), [])

/-- `filesys_read`; `none` when the console waits. -/
def filesysRead (files : List File) (fd : ℕ) (kmem : ℕ → UInt8) (input : List UInt8)
    (size : ℕ) : Option ReadCall :=
  match findFile files (fd % 2 ^ 32) with
  | none => some ⟨toSize (-1), 0, kmem, files, input⟩
  | some file =>
      if file.type = .device then
        (consoleRead (toInt size) input kmem).map fun (i, kmem, input) => ⟨i, i, kmem, files, input⟩
      else
        let (nread, bytes) := fileRead fs disk dirents file.dirent file.pos size
        some ⟨nread, bytes.length, fun k => bytes.getD k (kmem k),
          setPos files (fd % 2 ^ 32) ((file.pos + nread) % 2 ^ 64), input⟩

/-- One `copyout` of `sys_read`: the memory before it, its destination and length, and the number
of bytes that `filesys_read` has just stored in the buffer. -/
structure Copy where
  mem : Mem
  dst : ℕ
  len : ℕ
  stored : ℕ

/-- The end of `sys_read`: its result, or `none` while the console waits, the memory, and the
copies it has made. -/
structure ReadResult where
  result : Option (Except Panic ℕ)
  pm : Pm
  copies : List Copy

/-- The loop of `sys_read`; every round adds at least a byte to `total`. -/
def sysReadLoop (root fd addr size : ℕ) :
    ℕ → Pm → List File → (ℕ → UInt8) → List UInt8 → ℕ → ReadResult
  | 0, pm, _, _, _, total => ⟨some (.ok total), pm, []⟩
  | rounds + 1, pm, files, kmem, input, total =>
      if total < size then
        let n := min (size - total) buflen
        match filesysRead fs disk dirents files fd kmem input n with
        | none => ⟨none, pm, []⟩
        | some call =>
            if call.nread = 0 then ⟨some (.ok total), pm, []⟩
            else
              let dst := (addr + total) % 2 ^ 64
              let copy : Copy := ⟨pm.mem, dst, call.nread, call.stored⟩
              match copyout pm root dst call.kmem call.nread with
              | (.error panic, pm) => ⟨some (.error panic), pm, [copy]⟩
              | (.ok result, pm) =>
                  if result < 0 then ⟨some (.ok (2 ^ 64 - 1)), pm, [copy]⟩
                  else if call.nread < n then
                    ⟨some (.ok ((total + call.nread) % 2 ^ 64)), pm, [copy]⟩
                  else
                    let rest := sysReadLoop root fd addr size rounds pm call.files call.kmem
                      call.input ((total + call.nread) % 2 ^ 64)
                    { rest with copies := copy :: rest.copies }
      else ⟨some (.ok total), pm, []⟩

/-- `sys_read` of a process with the given page table and files; `buf` is the kernel memory from
the buffer on, `none` when `kalloc` fails. -/
def sysRead (pm : Pm) (root : ℕ) (files : List File) (buf : Option (ℕ → UInt8))
    (input : List UInt8) (fd addr size : ℕ) : ReadResult :=
  match validUserArg pm (some root) addr with
  | .error panic => ⟨some (.error panic), pm, []⟩
  | .ok false => ⟨some (.ok (2 ^ 64 - 1)), pm, []⟩
  | .ok true =>
      match buf with
      | none => ⟨some (.ok (2 ^ 64 - 1)), pm, []⟩
      | some kmem => sysReadLoop fs disk dirents root fd addr size size pm files kmem input 0

end Code

/-! ## What it should do -/

/-- Byte `k` is copied out: it and all before it go where the user may write. -/
def Copied (root : ℕ) (copy : Copy) (k : ℕ) : Prop :=
  k < copy.len ∧ ∀ j ≤ k, Writable copy.mem root (copy.dst + j)

/-- Only user memory in `[addr, addr + size)` is changed, every byte copied out was stored in the
buffer by the `filesys_read` just before, and the result is -1 or at most `size` (or the call
waits for the console). -/
structure ReadOk (pm : Pm) (root addr size : ℕ) (result : ReadResult) : Prop where
  memory : ∀ x, result.pm.mem x ≠ pm.mem x → ∃ va flags, addr ≤ va ∧ va < addr + size ∧
    va < maxVa ∧ translate pm.mem root va = some (x, flags) ∧ flags &&& pteU ≠ 0
  copies : ∀ copy ∈ result.copies, copy.stored ≤ buflen ∧
    ∀ k, Copied root copy k → k < copy.stored
  result : result.result = none ∨
    ∃ count, result.result = some (.ok count) ∧ (count = 2 ^ 64 - 1 ∨ count ≤ size)

/-- What `filesys_read` of `n` bytes returns when `total` bytes were read before; the console never
returns more than `n`. -/
def readAt (fs : Filesystem) (disk : Mem) (dirents : ℕ → Dirent) (files : List File)
    (fd total n : ℕ) : ℕ :=
  match findFile files (fd % 2 ^ 32) with
  | none => toSize (-1)
  | some file =>
      if file.type = .device then n
      else (fileRead fs disk dirents file.dirent (file.pos + total) n).1

/-- Round `i` gets an error from `filesys_read`, after full reads only, while the user may write
all memory up to and including the next byte. -/
structure FailsAt (fs : Filesystem) (disk : Mem) (dirents : ℕ → Dirent) (files : List File)
    (pm : Pm) (root fd addr size i : ℕ) : Prop where
  more : buflen * i < size
  writable : ∀ k ≤ buflen * i, Writable pm.mem root (addr + k)
  full : ∀ j < i, readAt fs disk dirents files fd (buflen * j) buflen = buflen
  fails : min (size - buflen * i) buflen <
    readAt fs disk dirents files fd (buflen * i) (min (size - buflen * i) buflen)

end Painting.SysRead
