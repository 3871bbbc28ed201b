import Painting.Core.Memory

/-!
# The FAT32 volume

The cluster and FAT operations of `fs/fat32.c` over a disk of 512-byte blocks.  The
disk is one byte array; a block is read and written as a whole, as through the
buffer cache with the buffer held.

Sector and cluster numbers are 32-bit.  A failed `ASSERT_INFO` only logs, so it
has no effect here.
-/

namespace Painting.Fat32

open Painting.Memory

/-! ## Blocks -/

def bsize : ℕ := 512

/-- The data of the buffer that `bread` returns. -/
def bread (disk : Mem) (blockno : ℕ) : Mem := fun i => disk (bsize * blockno + i)

/-- `bwrite` of a buffer for `blockno` that holds `data`. -/
def bwrite (disk : Mem) (blockno : ℕ) (data : Mem) : Mem :=
  blit disk (bsize * blockno) data bsize

/-! ## The volume -/

/-- `struct superblock`. -/
structure Superblock where
  bytesPerSector : ℕ
  sectorsPerCluster : ℕ
  reservedSectors : ℕ
  clusterRootDirectory : ℕ
  fatSize : ℕ

/-- `struct SubSuperBlockInfo`. -/
structure SbInfo where
  firstDataSector : ℕ
  dataSectorCnt : ℕ
  clusterCnt : ℕ
  bytesPerClus : ℕ

/-- `struct filesystem`, with the fields that the operations use. -/
structure Filesystem where
  superblock : Superblock
  sbinfo : SbInfo

/-- `FAT32_isEOF`. -/
def IsEof (x : ℕ) : Prop := 0x0ffffff8 ≤ x ∧ x ≤ 0x0fffffff

instance (x : ℕ) : Decidable (IsEof x) := inferInstanceAs (Decidable (_ ∧ _))

def eof : ℕ := 0x0fffffff

variable (fs : Filesystem)

/-- `SectorNum`: the sector of FAT number `fatno` that holds the entry. -/
def sectorNum (clusterNo fatno : ℕ) : ℕ :=
  (fs.superblock.reservedSectors +
    clusterNo * 4 % 2 ^ 32 / fs.superblock.bytesPerSector +
    fatno * fs.superblock.fatSize) % 2 ^ 32

/-- `FATEntOffset`. -/
def fatEntOffset (clusterNo : ℕ) : ℕ :=
  clusterNo * 4 % 2 ^ 32 % fs.superblock.bytesPerSector

/-- `first_sector_clus`, with a 32-bit difference. -/
def firstSectorClus (cluster : ℕ) : ℕ :=
  (fs.sbinfo.firstDataSector +
    (cluster + 2 ^ 32 - fs.superblock.clusterRootDirectory) % 2 ^ 32 *
      fs.superblock.sectorsPerCluster) % 2 ^ 32

/-- The range check of `fatread` and `fatwrite`. -/
def OutOfRange (clusterNo : ℕ) : Prop :=
  clusterNo < fs.superblock.clusterRootDirectory ∨
    (fs.sbinfo.dataSectorCnt + 1) % 2 ^ 32 < clusterNo

instance (clusterNo : ℕ) : Decidable (OutOfRange fs clusterNo) :=
  inferInstanceAs (Decidable (_ ∨ _))

def fatread (disk : Mem) (clusterNo : ℕ) : ℕ :=
  if OutOfRange fs clusterNo then 0
  else load (bread disk (sectorNum fs clusterNo 0)) (fatEntOffset fs clusterNo / 4 * 4) 4

/-- `fatwrite`.  The second buffer is written back as it was read: the entry is
stored in the first buffer twice. -/
def fatwrite (disk : Mem) (clusterNo nextNo : ℕ) : Mem :=
  if OutOfRange fs clusterNo then disk
  else
    let first := store (bread disk (sectorNum fs clusterNo 0))
      (fatEntOffset fs clusterNo / 4 * 4) 4 nextNo
    let disk := bwrite disk (sectorNum fs clusterNo 0) first
    let second := bread disk (sectorNum fs clusterNo 1)
    bwrite disk (sectorNum fs clusterNo 1) second

/-- The loop of `cluszero` over `count` sectors from `idx`. -/
def cluszeroLoop (disk : Mem) (idx : ℕ) : ℕ → Mem
  | 0 => disk
  | count + 1 =>
      cluszeroLoop
        (bwrite disk idx (fill (bread disk idx) 0 0 fs.superblock.bytesPerSector))
        ((idx + 1) % 2 ^ 32) count

def cluszero (disk : Mem) (clusNo : ℕ) : Mem :=
  cluszeroLoop fs disk (firstSectorClus fs clusNo) fs.superblock.sectorsPerCluster

/-- The scan of `clusalloc` over `count` clusters from `nextNo`. -/
def findFree (disk : Mem) (nextNo : ℕ) : ℕ → Option ℕ
  | 0 => none
  | count + 1 =>
      if fatread fs disk nextNo = 0 then some nextNo else findFree disk (nextNo + 1) count

/-- `clusalloc`: the cluster, or 0 when none is free. -/
def clusalloc (disk : Mem) (prevNo : ℕ) : ℕ × Mem :=
  match findFree fs disk 2 ((fs.sbinfo.clusterCnt + 2) % 2 ^ 32 - 2) with
  | none => (0, disk)
  | some nextNo =>
      let disk := if prevNo ≠ 0 then fatwrite fs disk prevNo nextNo else disk
      (nextNo, cluszero fs (fatwrite fs disk nextNo eof) nextNo)

def clusfree (disk : Mem) (clusNo prevNo : ℕ) : Mem :=
  let disk := if prevNo ≠ 0 then fatwrite fs disk prevNo eof else disk
  fatwrite fs disk clusNo 0

/-! ## Bytes of a cluster -/

/-- The loop of `clusread` over whole sectors; every round reads at least a byte, so
`n` rounds are enough. -/
def clusreadLoop (disk : Mem) (secNo readLen n : ℕ) : ℕ → List UInt8
  | 0 => []
  | rounds + 1 =>
      if readLen < n then
        let len := min fs.superblock.bytesPerSector (n - readLen)
        (List.range len).map (bread disk secNo) ++
          clusreadLoop disk ((secNo + 1) % 2 ^ 32) (readLen + len) n rounds
      else []

/-- `clusread`: the bytes it copies to its destination. -/
def clusread (disk : Mem) (clusNo offset n : ℕ) : List UInt8 :=
  let secNo := (firstSectorClus fs clusNo + offset / fs.superblock.bytesPerSector) % 2 ^ 32
  let secOff := offset % fs.superblock.bytesPerSector
  let len := min (fs.superblock.bytesPerSector - secOff) n
  let head := (List.range len).map fun k => bread disk secNo (secOff + k)
  if len = n then head
  else head ++ clusreadLoop fs disk ((secNo + 1) % 2 ^ 32) len n n

/-- The loop of `cluswrite` over whole sectors. -/
def cluswriteLoop (src : ℕ → UInt8) (disk : Mem) (secNo writeLen n : ℕ) : ℕ → Mem
  | 0 => disk
  | rounds + 1 =>
      if writeLen < n then
        let len := min fs.superblock.bytesPerSector (n - writeLen)
        cluswriteLoop src
          (bwrite disk secNo (blit (bread disk secNo) 0 (fun k => src (writeLen + k)) len))
          ((secNo + 1) % 2 ^ 32) (writeLen + len) n rounds
      else disk

/-- `cluswrite` of the bytes `src 0 .. src (n - 1)`. -/
def cluswrite (disk : Mem) (clusNo offset : ℕ) (src : ℕ → UInt8) (n : ℕ) : Mem :=
  let secNo := (firstSectorClus fs clusNo + offset / fs.superblock.bytesPerSector) % 2 ^ 32
  let secOff := offset % fs.superblock.bytesPerSector
  let len := min (fs.superblock.bytesPerSector - secOff) n
  let disk := bwrite disk secNo (blit (bread disk secNo) secOff src len)
  if len = n then disk
  else cluswriteLoop fs src disk ((secNo + 1) % 2 ^ 32) len n n

/-! ## Bytes of a file (`fs.c`) -/

/-- `struct dirent`, with the fields that reading and writing use. -/
structure Dirent where
  firstCluster : ℕ
  size : ℕ

/-- The value of an `int` from its 32-bit pattern. -/
def toInt (x : ℕ) : ℤ :=
  if x % 2 ^ 32 < 2 ^ 31 then (x % 2 ^ 32 : ℕ) else (x % 2 ^ 32 : ℕ) - 2 ^ 32

/-- The loop of `file_get_clusNo`. -/
def fileGetClusNoLoop (disk : Mem) (clus : ℕ) : ℕ → ℕ
  | 0 => clus
  | count + 1 =>
      let next := fatread fs disk clus
      if IsEof next then next else fileGetClusNoLoop disk next count

def fileGetClusNo (disk : Mem) (file : Dirent) (index : ℕ) : ℕ :=
  fileGetClusNoLoop fs disk file.firstCluster index

/-- The loop of `fileread` over the clusters after the first. -/
def filereadLoop (disk : Mem) (clus len n : ℕ) : ℕ → ℕ × List UInt8
  | 0 => (len, [])
  | count + 1 =>
      let piece := min ((n + 2 ^ 32 - len) % 2 ^ 32) fs.sbinfo.bytesPerClus
      let rest := filereadLoop disk (fatread fs disk clus) ((len + piece) % 2 ^ 32) n count
      (rest.1, clusread fs disk clus 0 piece ++ rest.2)

/-- `fileread`: its result and the bytes it copies to its destination. -/
def fileread (disk : Mem) (file : Dirent) (off n : ℕ) : ℤ × List UInt8 :=
  if file.size < off then (-3, [])
  else
    let n := if file.size < (off + n) % 2 ^ 32 then (file.size - off) % 2 ^ 32 else n
    if n = 0 then (0, [])
    else
      let last := (off + n - 1) % 2 ^ 32
      let offset := off % fs.sbinfo.bytesPerClus
      let clus := fileGetClusNo fs disk file (off / fs.sbinfo.bytesPerClus)
      if IsEof clus then (-1, [])
      else
        let piece := min n (fs.sbinfo.bytesPerClus - offset)
        let clusNum := (last + 2 ^ 64 - off) % 2 ^ 64 / fs.sbinfo.bytesPerClus % 2 ^ 32
        let rest := filereadLoop fs disk (fatread fs disk clus) piece n clusNum
        (toInt rest.1, clusread fs disk clus offset piece ++ rest.2)

/-- The bound on the rounds of a walk along a chain: a walk that takes more comes
back to a cluster it has seen, and never ends. -/
def walkRounds : ℕ := 2 ^ 32 + 1

/-- The walk of `fileExtend` to the last cluster. -/
def lastClusLoop (disk : Mem) (clus lastClus : ℕ) : ℕ → Option ℕ
  | 0 => none
  | rounds + 1 =>
      if IsEof clus then some lastClus else lastClusLoop disk (fatread fs disk clus) clus rounds

/-- The allocations of `fileExtend`. -/
def extendLoop (disk : Mem) (lastClus : ℕ) : ℕ → Mem
  | 0 => disk
  | count + 1 =>
      let (nextNo, disk) := clusalloc fs disk lastClus
      extendLoop disk nextNo count

/-- `fileExtend`; `none` when its walk does not end. -/
def fileExtend (disk : Mem) (file : Dirent) (newSize : ℕ) : Option (Mem × Dirent) :=
  if newSize < file.size then some (disk, file)
  else
    let extra := newSize - file.size
    let extendClus := (extra / fs.sbinfo.bytesPerClus +
      if extra % fs.sbinfo.bytesPerClus = 0 then 0 else 1) % 2 ^ 32
    (lastClusLoop fs disk file.firstCluster 0 walkRounds).map fun lastClus =>
      (extendLoop fs disk lastClus extendClus, { file with size := newSize })

/-- `ROUNDUP` of a 64-bit value to a 32-bit unit: the mask has 32 bits. -/
def roundUp (a x : ℕ) : ℕ := (a + x - 1) % 2 ^ 64 &&& (2 ^ 32 - x)

/-- The loop of `filewrite`.  It writes every piece from the start of the source, at the
offset of the first piece. -/
def filewriteLoop (src : ℕ → UInt8) (disk : Mem) (clus offset len n : ℕ) : ℕ → ℕ × Mem
  | 0 => (len, disk)
  | count + 1 =>
      let piece := min ((n + 2 ^ 32 - len) % 2 ^ 32) fs.sbinfo.bytesPerClus
      let disk := cluswrite fs disk clus offset src piece
      filewriteLoop src disk (fatread fs disk clus) offset ((len + piece) % 2 ^ 32) n count

/-- `filewrite` of `n` bytes from `src`: its result, the disk and the entry after it.
The cluster size is that of the first volume, on which the file is. -/
def filewrite (disk : Mem) (file : Dirent) (src : ℕ → UInt8) (off n : ℕ) :
    Option (ℤ × Mem × Dirent) :=
  if n = 0 then some (0, disk, file)
  else if file.size < off then some (-3, disk, file)
  else
    (if file.size < (off + n) % 2 ^ 32 then fileExtend fs disk file ((off + n) % 2 ^ 32)
      else some (disk, file)).map fun (disk, file) =>
      let last := (off + n - 1) % 2 ^ 32
      let clusNum := roundUp ((last + 2 ^ 64 - off) % 2 ^ 64) fs.sbinfo.bytesPerClus /
        fs.sbinfo.bytesPerClus % 2 ^ 32
      let offset := off % fs.sbinfo.bytesPerClus
      let clus := fileGetClusNo fs disk file (off / fs.sbinfo.bytesPerClus)
      if IsEof clus then (-1, disk, file)
      else
        let piece := min n (fs.sbinfo.bytesPerClus - offset)
        let disk := cluswrite fs disk clus offset src piece
        let (len, disk) :=
          filewriteLoop fs src disk (fatread fs disk clus) offset piece n (clusNum - 1)
        (toInt len, disk, file)

end Painting.Fat32
