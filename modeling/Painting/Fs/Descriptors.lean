import Painting.Core.Bitmap
import Painting.Core.Transition

/-!
# File descriptors

Descriptor numbers come from one bitmap of the whole system (`fs/file.c`), but
the open files are listed per process (`fs/vfs.c`) and a fork copies the whole
list with its numbers (`proc.c`).  Directory entries in memory come from a pool
and are counted by `linkcnt`; descriptor numbers are not counted.

What a path leads to on disk is given with each open.  Allocations from the slab
of file structures succeed.
-/

namespace Painting.Descriptors

open Painting.Bitmap Painting.Transition

def maxDirent : ℕ := 1024

/-! ## Strings (`string.c`) -/

/-- The loop of `strncmp` from `idx` on, with `count = len - idx` rounds left.
The result is the index where it stops, or the difference it returns. -/
def strncmpLoop (s1 s2 : ℕ → UInt8) (idx : ℕ) : ℕ → ℕ ⊕ ℤ
  | 0 => .inl idx
  | count + 1 =>
      if s1 idx ≠ 0 ∧ s2 idx ≠ 0 then
        if s1 idx ≠ s2 idx then .inr ((s1 idx).toNat - (s2 idx).toNat)
        else strncmpLoop s1 s2 (idx + 1) count
      else .inl idx

/-- `strncmp`.  After the loop it looks at `s1[len]`, past the end of a short
string. -/
def strncmp (s1 s2 : ℕ → UInt8) (len : ℕ) : ℤ :=
  match strncmpLoop s1 s2 0 len with
  | .inr difference => difference
  | .inl idx =>
      if len ≤ idx then 0
      else if s1 len ≠ 0 then (s1 idx).toNat
      else (s2 idx).toNat

/-- The C string of an ASCII text. -/
def cstring (text : List Char) (i : ℕ) : UInt8 :=
  match text[i]? with
  | some c => UInt8.ofNat c.toNat
  | none => 0

/-! ## Files and directory entries -/

inductive FileType
  | none
  | file
  | device
  deriving DecidableEq

/-- What the directory on disk says about a file. -/
structure Entry where
  firstCluster : ℕ
  size : ℕ
  fileAttribute : ℕ

/-- `struct dirent`, with the fields the operations on descriptors use. -/
structure Dirent where
  firstCluster : ℕ
  size : ℕ
  mode : ℕ
  flag : ℕ
  linkcnt : ℕ

/-- `struct file`; `origin` numbers the open that made it and is copied with it. -/
structure File where
  fd : ℕ
  dirent : Option ℕ
  pos : ℕ
  denyWrite : Bool
  flag : ℕ
  type : FileType
  origin : ℕ

/-- The global tables, and the file list of every process. -/
structure Kernel where
  fdBitmap : Map
  direntList : List ℕ
  dirents : ℕ → Dirent
  files : ℕ → Option (List File)

/-! ## Numbers -/

/-- `free_fd` of an `int`; the 32-bit pattern of a negative one is out of range. -/
def freeFd (kernel : Kernel) (fd : ℕ) : Kernel :=
  if fd < maxDirent then { kernel with fdBitmap := clear kernel.fdBitmap fd } else kernel

/-- `alloc_fd`, with `-1` as its 32-bit pattern. -/
def allocFd (kernel : Kernel) : ℕ × Kernel :=
  match firstClear kernel.fdBitmap 0 maxDirent with
  | some fd => (fd, { kernel with fdBitmap := mark kernel.fdBitmap fd })
  | none => (2 ^ 32 - 1, kernel)

/-- `find_file`. -/
def findFile (list : List File) (fd : ℕ) : Option File :=
  list.find? fun file => file.fd = fd

/-! ## Directory entries -/

/-- `get_file` when the walk from the root ends in the entry `found`.  It takes
two entries from the pool and gives the working copy back; without a second
entry the walk dereferences `NULL`. -/
def getFile (kernel : Kernel) (found : Option Entry) : Option (Option ℕ × Kernel) :=
  match kernel.direntList with
  | dirent :: cfile :: rest =>
      match found with
      | some entry =>
          some (some dirent, { kernel with
            direntList := rest ++ [cfile]
            dirents := Function.update kernel.dirents dirent
              ⟨entry.firstCluster, entry.size, entry.fileAttribute, 0, 1⟩ })
      | none => some (none, { kernel with direntList := rest ++ [cfile] })
  | _ => none

/-- `file_open`. -/
def fileOpen (kernel : Kernel) (found : Option Entry) (flags : ℕ) :
    Option (Option ℕ × Kernel) :=
  (getFile kernel found).map fun (result, kernel) =>
    match result with
    | none => (none, kernel)
    | some dirent =>
        if (2 ^ 32 - 1 - (kernel.dirents dirent).mode) &&& flags ≠ 0 then (none, kernel)
        else
          (some dirent, { kernel with
            dirents := Function.update kernel.dirents dirent
              { kernel.dirents dirent with flag := flags } })

/-- `file_close`, which ignores `NULL`. -/
def fileClose (kernel : Kernel) : Option ℕ → Kernel
  | none => kernel
  | some dirent =>
      let linkcnt := ((kernel.dirents dirent).linkcnt + 2 ^ 32 - 1) % 2 ^ 32
      let kernel := { kernel with
        dirents := Function.update kernel.dirents dirent
          { kernel.dirents dirent with linkcnt := linkcnt } }
      if linkcnt = 0 then { kernel with direntList := kernel.direntList ++ [dirent] } else kernel

/-! ## Operations of a process -/

def Kernel.setFiles (kernel : Kernel) (pid : ℕ) (list : Option (List File)) : Kernel :=
  { kernel with files := Function.update kernel.files pid list }

/-- The tail of `filesys_open`: a new `struct file` at the end of the list. -/
def installFile (kernel : Kernel) (pid : ℕ) (list : List File) (dirent : Option ℕ)
    (flags : ℕ) (type : FileType) (origin : ℕ) : ℕ × Kernel :=
  let (fd, kernel) := allocFd kernel
  (fd, kernel.setFiles pid (some (list ++ [⟨fd, dirent, 0, false, flags, type, origin⟩])))

/-- `filesys_open` of a process with file list `list`: the descriptor, if a file
was installed, and the tables.  The outer `none` is a fault. -/
def filesysOpen (kernel : Kernel) (pid : ℕ) (list : List File) (path : ℕ → UInt8) (flags : ℕ)
    (found : Option Entry) (origin : ℕ) : Option (Option ℕ × Kernel) :=
  if strncmp path (cstring "console".toList) 7 = 0 then
    let (fd, kernel) := installFile kernel pid list none flags .device origin
    some (some fd, kernel)
  else
    (fileOpen kernel found flags).map fun (result, kernel) =>
      match result with
      | none => (none, kernel)
      | some dirent =>
          let (fd, kernel) := installFile kernel pid list (some dirent) flags .file origin
          (some fd, kernel)

/-- `filesys_close` of a process with file list `list`. -/
def filesysClose (kernel : Kernel) (pid : ℕ) (list : List File) (fd : ℕ) : Kernel :=
  match findFile list fd with
  | none => kernel
  | some file =>
      let kernel := freeFd kernel file.fd
      let kernel := kernel.setFiles pid (some (list.eraseP fun other => other.fd = fd))
      fileClose kernel file.dirent

/-- The loop of `fork` that counts the copied files. -/
def linkAll : List File → Kernel → Kernel
  | [], kernel => kernel
  | file :: list, kernel =>
      match file.dirent with
      | none => linkAll list kernel
      | some dirent =>
          linkAll list { kernel with
            dirents := Function.update kernel.dirents dirent
              { kernel.dirents dirent with
                linkcnt := ((kernel.dirents dirent).linkcnt + 1) % 2 ^ 32 } }

/-- The part of `fork` that concerns files. -/
def forkFiles (kernel : Kernel) (child : ℕ) (list : List File) : Kernel :=
  (linkAll list kernel).setFiles child (some list)

/-- The loop of `process_exit` that closes all files. -/
def closeAll : List File → Kernel → Kernel
  | [], kernel => kernel
  | file :: list, kernel => closeAll list (fileClose (freeFd kernel file.fd) file.dirent)

/-- The part of `process_exit` that concerns files. -/
def exitFiles (kernel : Kernel) (pid : ℕ) (list : List File) : Kernel :=
  (closeAll list kernel).setFiles pid none

/-! ## Runs -/

inductive Action
  /-- `filesys_open` of a path that leads to `found`. -/
  | openFile (pid : ℕ) (path : ℕ → UInt8) (flags : ℕ) (found : Option Entry)
  | close (pid fd : ℕ)
  | fork (pid child : ℕ)
  | exit (pid : ℕ)

/-- Which open each descriptor of each process stands for: what the calls
promise to their callers. -/
abbrev Table := ℕ → ℕ → Option ℕ

structure State where
  kernel : Kernel
  opens : ℕ
  table : Table

def next (state : State) : Action → Option State
  | .openFile pid path flags found =>
      (state.kernel.files pid).bind fun list =>
        (filesysOpen state.kernel pid list path flags found state.opens).map fun (fd, kernel) =>
          ⟨kernel, state.opens + 1,
            match fd with
            | none => state.table
            | some fd => Function.update state.table pid
                (Function.update (state.table pid) fd (some state.opens))⟩
  | .close pid fd =>
      (state.kernel.files pid).map fun list =>
        ⟨filesysClose state.kernel pid list fd, state.opens,
          Function.update state.table pid (Function.update (state.table pid) fd none)⟩
  | .fork pid child =>
      if (state.kernel.files child).isNone then
        (state.kernel.files pid).map fun list =>
          ⟨forkFiles state.kernel child list, state.opens,
            Function.update state.table child (state.table pid)⟩
      else none
  | .exit pid =>
      (state.kernel.files pid).map fun list =>
        ⟨exitFiles state.kernel pid list, state.opens,
          Function.update state.table pid fun _ => none⟩

def Step (before : State) (action : Action) (after : State) : Prop :=
  next before action = some after

/-- After `filesys_init`, which takes one entry for the root, with the first
process and no file open. -/
def boot : State where
  kernel :=
    { fdBitmap := fun _ => 0
      direntList := (List.range maxDirent).tail
      dirents := fun _ => ⟨0, 0, 0, 0, 0⟩
      files := fun pid => if pid = 0 then some [] else none }
  opens := 0
  table := fun _ _ => none

end Painting.Descriptors
