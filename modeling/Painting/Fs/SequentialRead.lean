import Painting.Fs.RangeArithmetic
import Painting.Sys.SysReadSafety

/-!
# Reading a file from start to end

One call of `fileread` may stop short at the end of a cluster: it looks at as many clusters after
the first as the request fills, not at as many as it touches.  The position in `struct file` moves
by what was delivered, so a sequence of calls still delivers every byte once and in order.
-/

namespace Painting.SysRead

open Painting.Memory Painting.Descriptors
open Painting.Fat32 (Filesystem Geometry InRange clusAddr fatread readSpan)

/-! ## The bytes of a file -/

/-- The clusters of the chain are linked and have room for the size.  An empty file has no
cluster. -/
structure Covers (fs : Filesystem) (disk : Mem) (file : Fat32.Dirent) (chain : List ℕ) : Prop where
  inRange : ∀ c ∈ chain, InRange fs c
  next : chain.IsChain fun a b => fatread fs disk a = b
  head : ∀ c ∈ chain.head?, c = file.firstCluster
  room : file.size ≤ chain.length * fs.sbinfo.bytesPerClus

/-- Byte `i` of the clusters of the chain. -/
def byteAt (fs : Filesystem) (disk : Mem) (chain : List ℕ) (i : ℕ) : UInt8 :=
  disk (clusAddr fs (chain.getD (i / fs.sbinfo.bytesPerClus) 0) + i % fs.sbinfo.bytesPerClus)

section File

variable {fs : Filesystem} {disk : Mem} {file : Fat32.Dirent} {chain : List ℕ}

theorem Covers.lt_length (hcovers : Covers fs disk file chain) (hpos : 0 < fs.sbinfo.bytesPerClus)
    {i : ℕ} (hi : i < file.size) : i / fs.sbinfo.bytesPerClus < chain.length :=
  (Nat.div_lt_iff_lt_mul hpos).mpr (hi.trans_le hcovers.room)

/-- The content of the file, byte by byte. -/
theorem content_eq (hgeo : Geometry fs) (hcovers : Covers fs disk file chain) :
    Fat32.content fs disk chain file.size =
      (List.range file.size).map (byteAt fs disk chain) := by
  have hpos := Fat32.bytesPerClus_pos hgeo
  apply List.ext_getElem?
  intro i
  rw [Fat32.getElem?_content hpos, List.getElem?_map, Fat32.fileByte]
  by_cases hi : i < file.size
  · have hlt := hcovers.lt_length hpos hi
    rw [if_pos hi, List.getElem?_range hi, List.getElem?_eq_getElem hlt, Option.map_some,
      Option.map_some, byteAt, List.getD_eq_getElem _ _ hlt]
  · rw [if_neg hi, List.getElem?_eq_none (by rw [List.length_range]; omega)]
    rfl

/-- The clusters of a chain from number `k` on. -/
theorem next_getElem {k : ℕ} (hnext : chain.IsChain fun a b => fatread fs disk a = b)
    (hk : k + 1 < chain.length) : fatread fs disk (chain.getD k 0) = chain.getD (k + 1) 0 := by
  rw [List.getD_eq_getElem _ _ (by omega), List.getD_eq_getElem _ _ hk]
  exact List.isChain_iff_getElem.mp hnext k hk

theorem getClusNo_getD (hgeo : Geometry fs) (hcovers : Covers fs disk file chain) {index : ℕ}
    (hindex : index < chain.length) :
    Fat32.fileGetClusNo fs disk file index = chain.getD index 0 := by
  suffices hloop : ∀ (count k : ℕ), k + count < chain.length →
      Fat32.fileGetClusNoLoop fs disk (chain.getD k 0) count = chain.getD (k + count) 0 by
    have hfirst : file.firstCluster = chain.getD 0 0 := by
      have hzero : 0 < chain.length := by omega
      rw [List.getD_eq_getElem _ _ hzero]
      exact (hcovers.head _ (by rw [List.head?_eq_getElem?, List.getElem?_eq_getElem hzero]; rfl)).symm
    rw [Fat32.fileGetClusNo, hfirst, hloop index 0 (by omega), Nat.zero_add]
  intro count
  induction count with
  | zero => intro k _; rfl
  | succ count ih =>
      intro k hk
      have hin : InRange fs (chain.getD (k + 1) 0) := by
        rw [List.getD_eq_getElem _ _ (by omega)]
        exact hcovers.inRange _ (List.getElem_mem _)
      rw [Fat32.fileGetClusNoLoop, next_getElem hcovers.next (by omega),
        if_neg (Fat32.not_isEof hgeo hin), ih (k + 1) (by omega), Nat.add_assoc, Nat.add_comm 1 count]

/-- A piece of one cluster. -/
theorem clusread_byteAt (hgeo : Geometry fs) (hcovers : Covers fs disk file chain) {off n : ℕ}
    (hoff : off / fs.sbinfo.bytesPerClus < chain.length)
    (hfit : off % fs.sbinfo.bytesPerClus + n ≤ fs.sbinfo.bytesPerClus) :
    Fat32.clusread fs disk (chain.getD (off / fs.sbinfo.bytesPerClus) 0)
        (off % fs.sbinfo.bytesPerClus) n =
      (List.range n).map fun k => byteAt fs disk chain (off + k) := by
  have hpos := Fat32.bytesPerClus_pos hgeo
  have hin : InRange fs (chain.getD (off / fs.sbinfo.bytesPerClus) 0) := by
    rw [List.getD_eq_getElem _ _ hoff]
    exact hcovers.inRange _ (List.getElem_mem _)
  rw [Fat32.clusread_eq hgeo hin disk hfit]
  apply List.map_congr_left
  intro k hk
  have hk := List.mem_range.mp hk
  obtain ⟨hdiv, hmod⟩ : (off + k) / fs.sbinfo.bytesPerClus = off / fs.sbinfo.bytesPerClus ∧
      (off + k) % fs.sbinfo.bytesPerClus = off % fs.sbinfo.bytesPerClus + k := by
    have hsplit := Nat.div_add_mod off fs.sbinfo.bytesPerClus
    exact (Nat.div_mod_unique hpos).mpr ⟨by omega, by omega⟩
  rw [byteAt, hdiv, hmod, Nat.add_assoc]

/-- The clusters after the first: `k` is the number of the next one. -/
theorem filereadLoop_byteAt (hgeo : Geometry fs) (hcovers : Covers fs disk file chain)
    {k count len n : ℕ} (hlen : len ≤ n) (hn : n < 2 ^ 32) (hcount : k + count ≤ chain.length) :
    Fat32.filereadLoop fs disk (chain.getD k 0) len n count =
      (len + min (n - len) (count * fs.sbinfo.bytesPerClus),
        (List.range (min (n - len) (count * fs.sbinfo.bytesPerClus))).map fun i =>
          byteAt fs disk chain (k * fs.sbinfo.bytesPerClus + i)) := by
  induction count generalizing k len with
  | zero => simp [Fat32.filereadLoop]
  | succ count ih =>
      have hpos := Fat32.bytesPerClus_pos hgeo
      have hpiece : (n + 2 ^ 32 - len) % 2 ^ 32 = n - len := by omega
      have hdiv : k * fs.sbinfo.bytesPerClus / fs.sbinfo.bytesPerClus = k :=
        Nat.mul_div_cancel _ hpos
      have hmod : k * fs.sbinfo.bytesPerClus % fs.sbinfo.bytesPerClus = 0 := Nat.mul_mod_left _ _
      have hread := @clusread_byteAt fs disk file chain hgeo hcovers (k * fs.sbinfo.bytesPerClus)
        (min (n - len) fs.sbinfo.bytesPerClus) (by rw [hdiv]; omega) (by rw [hmod]; omega)
      rw [hdiv, hmod] at hread
      have hnext : Fat32.filereadLoop fs disk (fatread fs disk (chain.getD k 0))
          (len + min (n - len) fs.sbinfo.bytesPerClus) n count =
          Fat32.filereadLoop fs disk (chain.getD (k + 1) 0)
            (len + min (n - len) fs.sbinfo.bytesPerClus) n count := by
        cases count with
        | zero => rfl
        | succ count => rw [next_getElem hcovers.next (by omega)]
      rw [Fat32.filereadLoop, hpiece,
        Nat.mod_eq_of_lt (show len + min (n - len) fs.sbinfo.bytesPerClus < 2 ^ 32 by omega), hnext, ih (by omega) (by omega), hread]
      have hsum : min (n - len) fs.sbinfo.bytesPerClus +
          min (n - (len + min (n - len) fs.sbinfo.bytesPerClus)) (count * fs.sbinfo.bytesPerClus) =
          min (n - len) ((count + 1) * fs.sbinfo.bytesPerClus) := by
        rw [Nat.succ_mul]
        omega
      rw [Nat.add_assoc, hsum, ← hsum, List.range_add, List.map_append, List.map_map]
      congr 2
      apply List.map_congr_left
      intro i hi
      have hi := List.mem_range.mp hi
      rw [Function.comp_apply]
      congr 1
      rw [Nat.succ_mul]
      omega

/-- What one call of `fileread` delivers: `m` bytes if the clusters it looks at hold so many. -/
theorem fileread_eq (hgeo : Geometry fs) (hcovers : Covers fs disk file chain) {off n m : ℕ}
    (hoff : off ≤ file.size) (hsum : off + n < 2 ^ 32) (hm : min n (file.size - off) = m) :
    Fat32.fileread fs disk file off n = (Fat32.toInt (min m (readSpan fs off m)),
      (List.range (min m (readSpan fs off m))).map fun k => byteAt fs disk chain (off + k)) := by
  have hlen := Fat32.readLength_eq hoff hsum
  rw [Fat32.readLength, hm] at hlen
  obtain rfl | hmpos := Nat.eq_zero_or_pos m
  · rw [Fat32.fileread, if_neg (by omega), hlen]
    simp [Fat32.toInt]
  have hpos := Fat32.bytesPerClus_pos hgeo
  have hbound := Fat32.bytesPerClus_lt hgeo
  have hindex := hcovers.lt_length hpos (show off < file.size by omega)
  have hin : InRange fs (chain.getD (off / fs.sbinfo.bytesPerClus) 0) := by
    rw [List.getD_eq_getElem _ _ hindex]
    exact hcovers.inRange _ (List.getElem_mem _)
  have hclus := getClusNo_getD hgeo hcovers hindex
  have hlast : ((off + m - 1) % 2 ^ 32 + 2 ^ 64 - off) % 2 ^ 64 = m - 1 := by omega
  have hcount : (m - 1) / fs.sbinfo.bytesPerClus % 2 ^ 32 = (m - 1) / fs.sbinfo.bytesPerClus :=
    Nat.mod_eq_of_lt ((Nat.div_le_self _ _).trans_lt (by omega))
  have hmod := Nat.mod_lt off hpos
  generalize hpiece : min m (fs.sbinfo.bytesPerClus - off % fs.sbinfo.bytesPerClus) = piece
  have hfirst := @clusread_byteAt fs disk file chain hgeo hcovers off piece hindex (by omega)
  have hrest : Fat32.filereadLoop fs disk
      (fatread fs disk (chain.getD (off / fs.sbinfo.bytesPerClus) 0)) piece m
      ((m - 1) / fs.sbinfo.bytesPerClus) =
      (piece + min (m - piece) ((m - 1) / fs.sbinfo.bytesPerClus * fs.sbinfo.bytesPerClus),
        (List.range (min (m - piece)
          ((m - 1) / fs.sbinfo.bytesPerClus * fs.sbinfo.bytesPerClus))).map fun i =>
            byteAt fs disk chain (off + (piece + i))) := by
    obtain hzero | hmore := Nat.eq_zero_or_pos ((m - 1) / fs.sbinfo.bytesPerClus)
    · simp [hzero, Fat32.filereadLoop]
    · have hsplit := Nat.div_add_mod off fs.sbinfo.bytesPerClus
      have hwhole := Nat.mul_div_le (m - 1) fs.sbinfo.bytesPerClus
      have hlong : fs.sbinfo.bytesPerClus ≤ m - 1 :=
        (Nat.one_le_div_iff hpos).mp hmore
      have hlast : off / fs.sbinfo.bytesPerClus + (m - 1) / fs.sbinfo.bytesPerClus <
          chain.length := by
        refine (Nat.mul_lt_mul_left hpos).mp (lt_of_lt_of_le ?_ (hcovers.room.trans_eq
          (Nat.mul_comm _ _)))
        rw [Nat.mul_add]
        omega
      rw [next_getElem hcovers.next (by omega), filereadLoop_byteAt hgeo hcovers (by omega)
        (by omega) (by omega)]
      congr 2
      funext i
      congr 1
      rw [Nat.succ_mul, Nat.mul_comm]
      omega
  have hspan : min m (readSpan fs off m) =
      piece + min (m - piece) ((m - 1) / fs.sbinfo.bytesPerClus * fs.sbinfo.bytesPerClus) := by
    rw [readSpan]
    omega
  simp only [Fat32.fileread, hlen, hclus, hpiece, hlast, hcount, hrest, hfirst, hspan]
  rw [if_neg (by omega), if_neg (by omega), if_neg (Fat32.not_isEof hgeo hin), List.range_add,
    List.map_append, List.map_map]
  rfl

/-- One call delivers the next bytes of the file, at least one before its end. -/
theorem fileread_byteAt (hgeo : Geometry fs) (hcovers : Covers fs disk file chain) {off n : ℕ}
    (hoff : off ≤ file.size) (hn : 0 < n) (hsum : file.size + n < 2 ^ 32) :
    ∃ m : ℕ, Fat32.fileread fs disk file off n =
        ((m : ℤ), (List.range m).map fun k => byteAt fs disk chain (off + k)) ∧
      off + m ≤ file.size ∧ (m = 0 ↔ off = file.size) := by
  have hmod := Nat.mod_lt off (Fat32.bytesPerClus_pos hgeo)
  generalize hm : min n (file.size - off) = m
  have hread := fileread_eq hgeo hcovers hoff (by omega) hm
  rw [Fat32.toInt_of_lt (by omega)] at hread
  refine ⟨_, hread, by omega, ?_⟩
  rw [readSpan]
  omega

end File

/-! ## Runs -/

/-- A process that reads: its files, what is left of the console input, and the buffers it has
filled. -/
structure Reader where
  files : List File
  input : List UInt8
  buffers : List (List UInt8)

section Run

variable (fs : Filesystem) (disk : Mem) (dirents : ℕ → Dirent) (fd : ℕ)

/-- A call of `filesys_read` for `size` bytes into the buffer `kmem`; `none` when it waits for the
console. -/
def readCall (kmem : ℕ → UInt8) (size : ℕ) (reader : Reader) : Option Reader :=
  (filesysRead fs disk dirents reader.files fd kmem reader.input size).map fun call =>
    ⟨call.files, call.input, reader.buffers ++ [(List.range call.nread).map call.kmem]⟩

/-- The process after `calls` calls. -/
def readAfter (kmem : ℕ → ℕ → UInt8) (request : ℕ → ℕ) (start : Reader) : ℕ → Option Reader
  | 0 => some start
  | calls + 1 =>
      (readAfter kmem request start calls).bind
        (readCall fs disk dirents fd (kmem calls) (request calls))

end Run

/-- The process has read the start of the file, and the position of the descriptor is the number of
bytes that it has got. -/
structure Delivered (fs : Filesystem) (disk : Mem) (chain : List ℕ) (size fd : ℕ) (file : File)
    (reader : Reader) : Prop where
  bytes : reader.buffers.flatten =
    (Fat32.content fs disk chain size).take reader.buffers.flatten.length
  within : reader.buffers.flatten.length ≤ size
  position : findFile reader.files (fd % 2 ^ 32) =
    some { file with pos := reader.buffers.flatten.length }

section Whole

variable {fs : Filesystem} {disk : Mem} {dirents : ℕ → Dirent} {chain : List ℕ} {fd d : ℕ}
  {file : File}

/-- The start of the file, as bytes. -/
theorem take_content (hgeo : Geometry fs) {entry : Fat32.Dirent}
    (hcovers : Covers fs disk entry chain) {count : ℕ} (hcount : count ≤ entry.size) :
    (Fat32.content fs disk chain entry.size).take count =
      (List.range count).map (byteAt fs disk chain) := by
  rw [content_eq hgeo hcovers, ← List.map_take, List.take_range, Nat.min_eq_left hcount]

/-- One call of the process. -/
theorem readCall_delivered (hgeo : Geometry fs)
    (hcovers : Covers fs disk ⟨(dirents d).firstCluster, (dirents d).size⟩ chain)
    (htype : file.type = .file) (hdirent : file.dirent = some d) (hflag : (dirents d).flag = 0)
    {reader : Reader} (hreader : Delivered fs disk chain (dirents d).size fd file reader)
    (kmem : ℕ → UInt8) {n : ℕ} (hn : 0 < n) (hsum : (dirents d).size + n < 2 ^ 32) :
    ∃ next buffer, readCall fs disk dirents fd kmem n reader = some next ∧
      next.buffers = reader.buffers ++ [buffer] ∧
      Delivered fs disk chain (dirents d).size fd file next ∧
      (buffer = [] ↔ reader.buffers.flatten.length = (dirents d).size) := by
  obtain ⟨hbytes, hwithin, hposition⟩ := hreader
  generalize hpos : reader.buffers.flatten.length = pos at *
  obtain ⟨m, hread, hend, hzero⟩ := fileread_byteAt hgeo hcovers hwithin hn hsum
  have hend : pos + m ≤ (dirents d).size := hend
  have hcall : fileRead fs disk dirents (some d) pos n =
      (m, (List.range m).map fun k => byteAt fs disk chain (pos + k)) := by
    rw [fileRead, if_neg hn.ne', if_pos (.inl hflag), Nat.mod_eq_of_lt (show pos < 2 ^ 32 by omega),
      Nat.mod_eq_of_lt (show n < 2 ^ 32 by omega), hread]
    dsimp only
    rw [toSize_of_nat (by omega)]
  have hbuffer : (List.range m).map (fun k => ((List.range m).map fun k =>
      byteAt fs disk chain (pos + k)).getD k (kmem k)) =
      (List.range m).map fun k => byteAt fs disk chain (pos + k) := by
    apply List.map_congr_left
    intro k hk
    have hk := List.mem_range.mp hk
    rw [List.getD_eq_getElem _ _ (by simpa using hk), List.getElem_map, List.getElem_range]
  have hstep : readCall fs disk dirents fd kmem n reader = some
      ⟨setPos reader.files (fd % 2 ^ 32) (pos + m), reader.input,
        reader.buffers ++ [(List.range m).map fun k => byteAt fs disk chain (pos + k)]⟩ := by
    rw [readCall, filesysRead, hposition]
    dsimp only
    rw [if_neg (by rw [htype]; decide), hdirent, hcall]
    dsimp only
    rw [Option.map_some, hbuffer, Nat.mod_eq_of_lt (show pos + m < 2 ^ 64 by omega)]
  have hflat : (reader.buffers ++ [(List.range m).map fun k =>
      byteAt fs disk chain (pos + k)]).flatten =
      (List.range (pos + m)).map (byteAt fs disk chain) := by
    rw [List.flatten_concat, hbytes, take_content hgeo hcovers hwithin, List.range_add,
      List.map_append, List.map_map]
    rfl
  refine ⟨_, _, hstep, rfl, ⟨?_, ?_, ?_⟩, ?_⟩
  · rw [hflat, List.length_map, List.length_range]
    exact (take_content hgeo hcovers hend).symm
  · rw [hflat, List.length_map, List.length_range]
    exact hend
  · rw [hflat, List.length_map, List.length_range]
    exact (findFile_setPos hposition :)
  · rw [List.map_eq_nil_iff, List.range_eq_nil]
    exact hzero

end Whole

/-- The descriptor 3 of a file of 100 bytes in cluster 2. -/
def smallOpen : File := ⟨3, some 0, 0, false, 0, .file, 0⟩

end Painting.SysRead
