import Painting.Core.Strings
import Painting.Fs.Descriptors
import Painting.Fs.Fat32

/-!
# Looking up a name in a directory

`find_dirent_entry` of `fs.c` and what it calls, down to the name functions of `string.c`.  A slot
of a directory is a function from offsets to bytes; a directory entry in memory is an address in a
table of entries, so that the entry that is filled may be the directory itself.

`match_dirent_entry` compares a buffer on its stack that it has not initialised.  What the buffer
holds is a parameter, one buffer for each slot.  A write past the end of `tname` stops the model.
-/

namespace Painting.Directory

open Painting.Memory (Mem load)
open Painting.Strings
open Painting.Descriptors (strncmp cstring)
open Painting.Fat32 (Filesystem)

/-! ## Slots -/

/-- The 32 bytes of a `struct FAT32Directory` or a `struct FAT32LongDirectory`. -/
abbrev Slot := Buffer

def directorySize : ℕ := 32

def shortNameLen : ℕ := 11

def maxFileNameLen : ℕ := 32

/-- `FATDIR_DLT`. -/
def fatdirDlt : UInt8 := 0x20

def attrDirectory : ℕ := 0x10

def fileAttribute (entry : Slot) : ℕ := (entry 11).toNat

/-- `cal_cluster_pos` of the two halves of the cluster number. -/
def calClusterPos (entry : Slot) : ℕ := load entry 20 2 * 2 ^ 16 + load entry 26 2

def dirFileSize (entry : Slot) : ℕ := load entry 28 4

/-- `is_long_file_name`: read-only, hidden, system and volume label. -/
def IsLongFileName (entry : Slot) : Prop := fileAttribute entry &&& 0x0f = 0x0f

instance (entry : Slot) : Decidable (IsLongFileName entry) :=
  inferInstanceAs (Decidable (_ = _))

/-- `is_invalid_entry`: 0 for a slot to skip, -1 for the end of the directory. -/
def isInvalidEntry (entry : Slot) : ℤ :=
  if entry 0 = fatdirDlt ∨ strncmp entry (cstring ".          ".toList) shortNameLen = 0 ∨
      strncmp entry (cstring "..         ".toList) shortNameLen = 0 then 0
  else if entry 0 = 0 then -1
  else 1

/-! ## Names -/

/-- `wstr2str` of `n` characters from offset `src` to offset `dst`. -/
def wstr2str (rawName : Buffer) (dst : ℕ) (entry : Slot) (src n : ℕ) : Buffer := fun i =>
  if dst ≤ i ∧ i < dst + n then entry (src + 2 * (i - dst)) else rawName i

/-- The variables of `parse_directory_entries` that live from slot to slot. -/
structure Scan where
  tname : Buffer
  idx : ℕ
  longEntSeq : Bool

/-- `handle_long_file_name`; `none` when it writes past the end of `tname`. -/
def handleLongFileName (entry : Slot) (scan : Scan) : Option Scan :=
  if maxFileNameLen < scan.idx + 13 ∨ scan.longEntSeq ∧ maxFileNameLen ≤ scan.idx + 13 then none
  else
    let rawName :=
      if scan.longEntSeq then Function.update scan.tname (scan.idx + 13) 0 else scan.tname
    let rawName := wstr2str rawName scan.idx entry 1 5
    let rawName := wstr2str rawName (5 + scan.idx) entry 14 6
    let rawName := wstr2str rawName (11 + scan.idx) entry 28 2
    some ⟨rawName, scan.idx + 13, (entry 0).toNat &&& 0x3f ≠ 0⟩

/-- A loop of `read_fat32_short_name`: copies up to `count` characters, until a space. -/
def copyUntilSpace (dst : Buffer) (j : ℕ) (src : Slot) (i : ℕ) : ℕ → ℕ × Buffer
  | 0 => (j, dst)
  | count + 1 =>
      if src i = fatdirDlt then (j, dst)
      else copyUntilSpace (Function.update dst j (src i)) (j + 1) src (i + 1) count

/-- `read_fat32_short_name`. -/
def readFat32ShortName (dst : Buffer) (src : Slot) : Buffer :=
  let (j, dst) := copyUntilSpace dst 0 src 0 8
  let (j, dst) :=
    if src 8 = fatdirDlt then (j, dst)
    else copyUntilSpace (Function.update dst j (UInt8.ofNat '.'.toNat)) (j + 1) src 8 3
  Function.update dst j 0

/-- The loop of `fill_fat32_long_name`, which compares the index with the byte there. -/
def fillLongLoop (dst : Buffer) (j : ℕ) (src : Slot) (i : ℕ) : ℕ → ℕ × Buffer
  | 0 => (j, dst)
  | rounds + 1 =>
      if i < (src i).toNat then
        if src i = 0xff then fillLongLoop dst j src (i + 1) rounds
        else fillLongLoop (Function.update dst j (src i)) (j + 1) src (i + 1) rounds
      else (j, dst)

/-- `fill_fat32_long_name`.  A byte is at most 255, so 256 rounds are enough. -/
def fillFat32LongName (dst : Buffer) (src : Slot) : Buffer :=
  let (j, dst) := fillLongLoop dst 0 src 0 256
  Function.update dst j 0

/-- `fill_file_name`. -/
def fillFileName (name : Buffer) (entry : Slot) : Buffer :=
  if IsLongFileName entry then fillFat32LongName name entry else readFat32ShortName name entry

/-! ## Entries in memory -/

inductive DirentType
  | dir
  | file
  | link
  deriving DecidableEq

/-- `struct dirent`, with the fields of a lookup. -/
structure Dirent where
  name : Buffer
  size : ℕ
  firstCluster : ℕ
  offset : ℕ
  type : DirentType
  filesystem : Option Filesystem
  linkcnt : ℕ
  parent : Option ℕ
  mode : ℕ

abbrev Dirents := ℕ → Dirent

def Dirents.set (dirents : Dirents) (addr : ℕ) (change : Dirent → Dirent) : Dirents :=
  Function.update dirents addr (change (dirents addr))

/-- The end of `match_dirent_entry`: fills the entry `newDir`, which may be `parent`. -/
def fillDirent (dirents : Dirents) (name : List UInt8) (parent newDir : ℕ) (entry : Slot)
    (offset : ℕ) : Dirents :=
  let dirents := dirents.set newDir fun d =>
    { d with
      filesystem := (dirents parent).filesystem
      firstCluster := calClusterPos entry
      size := dirFileSize entry
      mode := fileAttribute entry
      parent := some parent
      linkcnt := 1 }
  let dirents := dirents.set parent fun d => { d with offset := offset }
  dirents.set newDir fun d =>
    { d with
      type := if d.mode &&& attrDirectory ≠ 0 then .dir else .file
      name := fun i => if i < name.length then name.getD i 0 else d.name i }

/-- The buffer `_name` of `match_dirent_entry` after the name is copied to it. -/
def nameBuffer (stale : Buffer) (entry : Slot) (tname : Buffer) : Buffer :=
  if tname 0 ≠ 0 then strncpy stale tname (strlen tname maxFileNameLen)
  else fillFileName stale entry

/-- `match_dirent_entry`: the entries in memory after a match. -/
def matchDirentEntry (dirents : Dirents) (name : List UInt8) (parent lastDir : ℕ) (entry : Slot)
    (offset : ℕ) (tname stale : Buffer) : Option Dirents :=
  if strncmp (nameBuffer stale entry tname) (ofList name) name.length ≠ 0 then none
  else some (fillDirent dirents name parent lastDir entry offset)

/-! ## Directories -/

/-- A slot and its offset in the cluster. -/
structure Located where
  offset : ℕ
  entry : Slot

/-- The result of `parse_directory_entries` and the entries in memory, or a write past the end of
`tname`. -/
inductive Parsed
  | done (ret : ℤ) (dirents : Dirents)
  | overrun

/-- The state of a scan after `memset`. -/
def freshScan (longEntSeq : Bool) : Scan := ⟨fun _ => 0, 0, longEntSeq⟩

/-- The loop of `parse_directory_entries` over the slots that are left. -/
def parseLoop (dirents : Dirents) (name : List UInt8) (parent lastDir : ℕ) (stale : ℕ → Buffer) :
    List Located → Scan → Parsed
  | [], _ => .done (-2) dirents
  | slot :: rest, scan =>
      if isInvalidEntry slot.entry = 0 then
        parseLoop dirents name parent lastDir stale rest (freshScan false)
      else if isInvalidEntry slot.entry = -1 then .done (-1) dirents
      else if IsLongFileName slot.entry then
        match handleLongFileName slot.entry scan with
        | none => .overrun
        | some scan => parseLoop dirents name parent lastDir stale rest scan
      else
        match matchDirentEntry dirents name parent lastDir slot.entry slot.offset scan.tname
            (stale slot.offset) with
        | some dirents => .done 0 dirents
        | none =>
            parseLoop dirents name parent lastDir stale rest (freshScan scan.longEntSeq)

def parseDirectoryEntries (dirents : Dirents) (name : List UInt8) (parent lastDir : ℕ)
    (stale : ℕ → Buffer) (slots : List Located) : Parsed :=
  parseLoop dirents name parent lastDir stale slots (freshScan false)

/-- The slots of a buffer of `clusSize` bytes. -/
def slotsOf (buf : Buffer) (clusSize : ℕ) : List Located :=
  (List.range (clusSize / directorySize)).map fun i =>
    ⟨directorySize * i, fun k => buf (directorySize * i + k)⟩

/-- `read_multiple_cluster`: the bytes of a cluster, read block by block. -/
def readMultipleCluster (fs : Filesystem) (disk : Mem) (clusNo size : ℕ) : List UInt8 :=
  (List.range (size / Fat32.bsize)).flatMap fun i =>
    Fat32.clusread fs disk clusNo (Fat32.bsize * i) Fat32.bsize

/-- The loop of `find_dirent_entry`.  Cluster number `k` of the directory is parsed with the stack
`stale k`; a walk that takes more rounds never ends. -/
def findLoop (fs : Filesystem) (disk : Mem) (dirents : Dirents) (name : List UInt8)
    (dir entry : ℕ) (stale : ℕ → ℕ → Buffer) (clusNo k : ℕ) : ℕ → Option Parsed
  | 0 => none
  | rounds + 1 =>
      let buf := readMultipleCluster fs disk clusNo fs.sbinfo.bytesPerClus
      match parseDirectoryEntries dirents name dir entry (stale k)
          (slotsOf (fun i => buf.getD i 0) fs.sbinfo.bytesPerClus) with
      | .overrun => some .overrun
      | .done ret dirents =>
          if ret = -1 ∨ ret = 0 then some (.done ret dirents)
          else
            let clusNo := Fat32.fatread fs disk clusNo
            if Fat32.IsEof clusNo then some (.done ret dirents)
            else findLoop fs disk dirents name dir entry stale clusNo (k + 1) rounds

/-- `find_dirent_entry`; `none` when it does not return: the directory has no file system, its
chain has no end, or `tname` is overrun. -/
def findDirentEntry (disk : Mem) (stale : ℕ → ℕ → Buffer) (dirents : Dirents) (dir : ℕ)
    (name : List UInt8) (entry : ℕ) : Option Dirents :=
  match (dirents dir).filesystem with
  | none => none
  | some fs =>
      match findLoop fs disk dirents name dir entry stale (dirents dir).firstCluster 0
          Fat32.walkRounds with
      | some (.done _ dirents) => some dirents
      | _ => none

end Painting.Directory
