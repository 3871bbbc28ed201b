import Painting.Fs.FatChains

/-!
# Writing a file

What `filewrite` does to the content of a file.  The code writes every piece after
the first from the start of the source and at the offset of the first piece, and it
counts the clusters from the length alone, so that a write is right when it stays
inside one cluster and only then.
-/

namespace Painting.Fat32

open Painting.Memory

variable {fs : Filesystem}

/-! ## Content -/

def clusterBytes (fs : Filesystem) (disk : Mem) (cluster : ℕ) : List UInt8 :=
  (List.range fs.sbinfo.bytesPerClus).map fun k => disk (clusAddr fs cluster + k)

/-- The clusters of the chain one after the other, truncated to the size. -/
def content (fs : Filesystem) (disk : Mem) (chain : List ℕ) (size : ℕ) : List UInt8 :=
  (chain.flatMap (clusterBytes fs disk)).take size

/-- Put `n` bytes of the source at `off`. -/
def splice (old : List UInt8) (off : ℕ) (src : ℕ → UInt8) (n : ℕ) : List UInt8 :=
  old.take off ++ (List.range n).map src ++ old.drop (off + n)

/-- Byte `i` of the clusters of the chain. -/
def fileByte (fs : Filesystem) (disk : Mem) (chain : List ℕ) (i : ℕ) : Option UInt8 :=
  chain[i / fs.sbinfo.bytesPerClus]?.map fun c =>
    disk (clusAddr fs c + i % fs.sbinfo.bytesPerClus)

theorem bytesPerClus_pos (hgeo : Geometry fs) : 0 < fs.sbinfo.bytesPerClus := by
  rw [hgeo.bytes]
  exact Nat.mul_pos (by decide) hgeo.cluster

theorem bytesPerClus_lt (hgeo : Geometry fs) : fs.sbinfo.bytesPerClus < 2 ^ 31 := by
  have hbyte := hgeo.byte
  rw [hgeo.bytes]
  simp only [bsize]
  omega

theorem getElem?_clusters (hpos : 0 < fs.sbinfo.bytesPerClus) (disk : Mem) (chain : List ℕ)
    (i : ℕ) : (chain.flatMap (clusterBytes fs disk))[i]? = fileByte fs disk chain i := by
  induction chain generalizing i with
  | nil => simp [fileByte]
  | cons c rest ih =>
      have hlength : (clusterBytes fs disk c).length = fs.sbinfo.bytesPerClus := by
        simp [clusterBytes]
      rw [List.flatMap_cons]
      by_cases hfirst : i < fs.sbinfo.bytesPerClus
      · rw [List.getElem?_append_left (by omega), fileByte, Nat.div_eq_of_lt hfirst,
          Nat.mod_eq_of_lt hfirst]
        simp [clusterBytes, hfirst]
      · obtain ⟨j, rfl⟩ : ∃ j, i = j + fs.sbinfo.bytesPerClus :=
          ⟨i - fs.sbinfo.bytesPerClus, by omega⟩
        rw [List.getElem?_append_right (by omega), hlength, Nat.add_sub_cancel, ih, fileByte,
          fileByte, Nat.add_div_right j hpos, Nat.add_mod_right, List.getElem?_cons_succ]

theorem getElem?_content (hpos : 0 < fs.sbinfo.bytesPerClus) (disk : Mem) (chain : List ℕ)
    (size i : ℕ) :
    (content fs disk chain size)[i]? =
      if i < size then fileByte fs disk chain i else none := by
  rw [content, List.getElem?_take, getElem?_clusters hpos]

theorem length_content (disk : Mem) {chain : List ℕ} {size : ℕ}
    (hcovers : size ≤ chain.length * fs.sbinfo.bytesPerClus) :
    (content fs disk chain size).length = size := by
  rw [content, List.length_take, List.length_flatMap]
  simp only [clusterBytes, List.length_map, List.length_range, List.map_const', List.sum_replicate,
    smul_eq_mul]
  exact Nat.min_eq_left hcovers

theorem getElem?_splice {old : List UInt8} {off : ℕ} (hoff : off ≤ old.length) (src : ℕ → UInt8)
    (n i : ℕ) :
    (splice old off src n)[i]? =
      if off ≤ i ∧ i < off + n then some (src (i - off)) else old[i]? := by
  have hhead : (old.take off).length = off := by simpa using hoff
  rw [splice, List.append_assoc]
  by_cases hlow : i < off
  · rw [List.getElem?_append_left (by omega), List.getElem?_take_of_lt hlow, if_neg (by omega)]
  · rw [List.getElem?_append_right (by omega), hhead]
    by_cases hmid : i < off + n
    · have hrange : i - off < (List.range n).length := by
        rw [List.length_range]
        omega
      rw [List.getElem?_append_left (by simpa using hrange), if_pos (by omega), List.getElem?_map,
        List.getElem?_eq_getElem hrange, List.getElem_range]
      rfl
    · have hrange : ((List.range n).map src).length = n := by simp
      rw [List.getElem?_append_right (by omega), if_neg (by omega), List.getElem?_drop, hrange,
        show off + n + (i - off - n) = i by omega]

/-! ## Files -/

/-- The file has this chain, which has room for its size. -/
structure FileOn (fs : Filesystem) (disk : Mem) (file : Dirent) (chain : List ℕ) : Prop where
  linked : Linked fs disk chain
  nodup : chain.Nodup
  head : chain.head? = some file.firstCluster
  covers : file.size ≤ chain.length * fs.sbinfo.bytesPerClus

/-- The number of free clusters. -/
def freeClusters (fs : Filesystem) (disk : Mem) : ℕ :=
  (List.range fs.sbinfo.clusterCnt).countP fun i => fatread fs disk (i + 2) = 0

/-- Every other file has kept its chain and its content. -/
def OthersKept (fs : Filesystem) (disk disk' : Mem) (chain chain' : List ℕ) : Prop :=
  ∀ other, Linked fs disk other → other.Disjoint chain →
    Linked fs disk' other ∧ other.Disjoint chain' ∧
      ∀ size, content fs disk' other size = content fs disk other size

/-- The write has succeeded: it returns `n`, the content is the old one with the bytes
of the source in it, every other file is as it was, and reading gives the bytes back. -/
def Written (fs : Filesystem) (disk : Mem) (file : Dirent) (chain : List ℕ) (src : ℕ → UInt8)
    (off n : ℕ) : Prop :=
  ∃ disk' file' chain',
    filewrite fs disk file src off n = some ((n : ℤ), disk', file') ∧
    FileOn fs disk' file' chain' ∧
    content fs disk' chain' file'.size = splice (content fs disk chain file.size) off src n ∧
    OthersKept fs disk disk' chain chain' ∧
    fileread fs disk' file' off n = ((n : ℤ), (List.range n).map src)

theorem getClusNoLoop_eq (hgeo : Geometry fs) {disk : Mem} {chain : List ℕ} {first : ℕ}
    (hlinked : Linked fs disk chain) (hhead : chain.head? = some first) {index c : ℕ}
    (hc : chain[index]? = some c) : fileGetClusNoLoop fs disk first index = c := by
  induction index generalizing chain first with
  | zero =>
      rw [List.head?_eq_getElem?, hc, Option.some.injEq] at hhead
      exact hhead.symm
  | succ index ih =>
      obtain ⟨rest, rfl⟩ : ∃ rest, chain = first :: rest := List.head?_eq_some_iff.mp hhead
      rw [List.getElem?_cons_succ] at hc
      cases rest with
      | nil => simp at hc
      | cons second rest =>
          obtain ⟨hnext, htail⟩ := hlinked.tail
          have hin := htail.inRange second (by simp)
          simp only [fileGetClusNoLoop, hnext]
          rw [if_neg (not_isEof hgeo hin)]
          exact ih htail rfl hc

theorem lastClusLoop_eq (hgeo : Geometry fs) {disk : Mem} {chain : List ℕ} {first last before : ℕ}
    (hlinked : Linked fs disk chain) (hhead : chain.head? = some first)
    (hlast : chain.getLast? = some last) {rounds : ℕ} (hrounds : chain.length < rounds) :
    lastClusLoop fs disk first before rounds = some last := by
  induction rounds generalizing chain first before with
  | zero => omega
  | succ rounds ih =>
      obtain ⟨rest, rfl⟩ : ∃ rest, chain = first :: rest := List.head?_eq_some_iff.mp hhead
      have hin := hlinked.inRange first (by simp)
      rw [lastClusLoop, if_neg (not_isEof hgeo hin)]
      cases rest with
      | nil =>
          obtain rfl : first = last := by simpa using hlast
          obtain ⟨rounds, rfl⟩ : ∃ r, rounds = r + 1 :=
            ⟨rounds - 1, by simp at hrounds; omega⟩
          rw [lastClusLoop, if_pos (hlinked.last first rfl)]
      | cons second rest =>
          obtain ⟨hnext, htail⟩ := hlinked.tail
          rw [List.getLast?_cons_cons] at hlast
          rw [hnext]
          exact ih htail rfl hlast (by simpa using hrounds)

theorem nodup_length_le {l : List ℕ} (hin : ∀ c ∈ l, InRange fs c) (hnodup : l.Nodup) :
    l.length ≤ fs.sbinfo.clusterCnt := by
  have hsub : l.toFinset ⊆ Finset.Ico 2 (fs.sbinfo.clusterCnt + 2) := by
    intro c hc
    exact Finset.mem_Ico.mpr (hin c (List.mem_toFinset.mp hc))
  have hcard := Finset.card_le_card hsub
  rw [List.toFinset_card_of_nodup hnodup, Nat.card_Ico] at hcard
  omega

theorem chain_length_le {disk : Mem} {chain : List ℕ} (hlinked : Linked fs disk chain)
    (hnodup : chain.Nodup) : chain.length ≤ fs.sbinfo.clusterCnt :=
  nodup_length_le hlinked.inRange hnodup

/-! ## What one piece does -/

/-- A change inside cluster `c` leaves the other clusters and the FAT alone. -/
theorem blit_other {c d offset n : ℕ} (hc : InRange fs c)
    (hd : InRange fs d) (hne : d ≠ c) (hfit : offset + n ≤ fs.sbinfo.bytesPerClus) (disk : Mem)
    (src : ℕ → UInt8) {k : ℕ} (hk : k < fs.sbinfo.bytesPerClus) :
    blit disk (clusAddr fs c + offset) src n (clusAddr fs d + k) = disk (clusAddr fs d + k) := by
  rw [blit, if_neg]
  obtain hlt | hlt := Nat.lt_or_gt_of_ne hne
  · have hapart : clusAddr fs d + fs.sbinfo.bytesPerClus ≤ clusAddr fs c :=
      clusAddr_apart hd.1 hlt
    omega
  · have hapart : clusAddr fs c + fs.sbinfo.bytesPerClus ≤ clusAddr fs d :=
      clusAddr_apart hc.1 hlt
    omega

theorem fatread_blit (hgeo : Geometry fs) {c d : ℕ} (hd : InRange fs d) (disk : Mem)
    (src : ℕ → UInt8) (offset n : ℕ) :
    fatread fs (blit disk (clusAddr fs c + offset) src n) d = fatread fs disk d := by
  apply fatread_of_data hgeo hd
  intro x _ hx
  have hdata := data_le_clusAddr fs c
  rw [blit, if_neg (by omega)]

theorem Linked.blit (hgeo : Geometry fs) {disk : Mem} {chain : List ℕ}
    (hlinked : Linked fs disk chain) (c : ℕ) (src : ℕ → UInt8) (offset n : ℕ) :
    Linked fs (blit disk (clusAddr fs c + offset) src n) chain :=
  hlinked.frame fun d hd => fatread_blit hgeo (hlinked.inRange d hd) disk src offset n

/-- The bytes of a chain after a piece was written to its cluster number `off / size`. -/
theorem fileByte_blit (hgeo : Geometry fs) {disk : Mem} {chain : List ℕ}
    (hin : ∀ c ∈ chain, InRange fs c) (hnodup : chain.Nodup) {off n c : ℕ}
    (hc : chain[off / fs.sbinfo.bytesPerClus]? = some c)
    (hfit : off % fs.sbinfo.bytesPerClus + n ≤ fs.sbinfo.bytesPerClus) (src : ℕ → UInt8)
    (i : ℕ) :
    fileByte fs (blit disk (clusAddr fs c + off % fs.sbinfo.bytesPerClus) src n) chain i =
      if off ≤ i ∧ i < off + n then some (src (i - off)) else fileByte fs disk chain i := by
  have hpos := bytesPerClus_pos hgeo
  have hoff := Nat.div_add_mod off fs.sbinfo.bytesPerClus
  have hi := Nat.div_add_mod i fs.sbinfo.bytesPerClus
  have hmod := Nat.mod_lt i hpos
  by_cases hsame : i / fs.sbinfo.bytesPerClus = off / fs.sbinfo.bytesPerClus
  · rw [fileByte, fileByte, hsame, hc, Option.map_some, Option.map_some, blit]
    rw [hsame] at hi
    by_cases hpiece : off ≤ i ∧ i < off + n
    · rw [if_pos hpiece, if_pos (by omega)]
      congr 2
      omega
    · rw [if_neg hpiece, if_neg (by omega)]
  · have hout : ¬ (off ≤ i ∧ i < off + n) := by
      rintro ⟨hlo, hhi⟩
      apply hsame
      apply Nat.div_eq_of_lt_le
      · rw [Nat.mul_comm]
        omega
      · rw [Nat.mul_comm, Nat.mul_succ]
        omega
    rw [if_neg hout, fileByte, fileByte]
    cases hd : chain[i / fs.sbinfo.bytesPerClus]? with
    | none => rfl
    | some d =>
        have hne : d ≠ c := by
          rintro rfl
          have hlt := (List.getElem?_eq_some_iff.mp hd).1
          exact hsame ((List.getElem?_inj hlt hnodup).mp (hd.trans hc.symm))
        rw [Option.map_some, Option.map_some,
          blit_other (hin c (List.mem_of_getElem? hc)) (hin d (List.mem_of_getElem? hd)) hne
            hfit disk src hmod]

theorem content_congr (hgeo : Geometry fs) {disk disk' : Mem} {chain : List ℕ}
    (hsame : ∀ c ∈ chain, ∀ k, k < fs.sbinfo.bytesPerClus →
      disk' (clusAddr fs c + k) = disk (clusAddr fs c + k)) (size : ℕ) :
    content fs disk' chain size = content fs disk chain size := by
  have hpos := bytesPerClus_pos hgeo
  apply List.ext_getElem?
  intro i
  rw [getElem?_content hpos, getElem?_content hpos, fileByte, fileByte]
  cases hd : chain[i / fs.sbinfo.bytesPerClus]? with
  | none => rfl
  | some d =>
      rw [Option.map_some, Option.map_some,
        hsame d (List.mem_of_getElem? hd) _ (Nat.mod_lt i hpos)]

theorem othersKept_blit (hgeo : Geometry fs) {disk : Mem} {chain : List ℕ} {c offset n : ℕ}
    (hin : InRange fs c) (hc : c ∈ chain) (hfit : offset + n ≤ fs.sbinfo.bytesPerClus)
    (src : ℕ → UInt8) :
    OthersKept fs disk (blit disk (clusAddr fs c + offset) src n) chain chain := by
  intro other hlinked hapart
  refine ⟨hlinked.blit hgeo c src offset n, hapart, ?_⟩
  apply content_congr hgeo
  intro d hd k hk
  have hne : d ≠ c := by
    rintro rfl
    exact hapart hd hc
  exact blit_other hin (hlinked.inRange d hd) hne hfit disk src hk

theorem OthersKept.trans {first second third : Mem} {chain chain' chain'' : List ℕ}
    (hleft : OthersKept fs first second chain chain')
    (hright : OthersKept fs second third chain' chain'') :
    OthersKept fs first third chain chain'' := by
  intro other hlinked hapart
  obtain ⟨hlinked', hapart', hsame⟩ := hleft other hlinked hapart
  obtain ⟨hlinked'', hapart'', hsame'⟩ := hright other hlinked' hapart'
  exact ⟨hlinked'', hapart'', fun size => (hsame' size).trans (hsame size)⟩

/-- The first piece that `filewrite` writes. -/
def filewriteFirst (fs : Filesystem) (src : ℕ → UInt8) (off n : ℕ) (disk : Mem) (clus : ℕ) : Mem :=
  cluswrite fs disk clus (off % fs.sbinfo.bytesPerClus) src
    (min n (fs.sbinfo.bytesPerClus - off % fs.sbinfo.bytesPerClus))

/-- The number of pieces after it. -/
def filewriteMore (fs : Filesystem) (off n : ℕ) : ℕ :=
  roundUp (((off + n - 1) % 2 ^ 32 + 2 ^ 64 - off) % 2 ^ 64) fs.sbinfo.bytesPerClus /
    fs.sbinfo.bytesPerClus % 2 ^ 32 - 1

/-- What `filewrite` does once the file is long enough. -/
def filewriteRest (fs : Filesystem) (src : ℕ → UInt8) (off n : ℕ) (disk : Mem)
    (file : Dirent) (clus : ℕ) : ℤ × Mem × Dirent :=
  if IsEof clus then (-1, disk, file)
  else
    match filewriteLoop fs src (filewriteFirst fs src off n disk clus)
      (fatread fs (filewriteFirst fs src off n disk clus) clus) (off % fs.sbinfo.bytesPerClus)
      (min n (fs.sbinfo.bytesPerClus - off % fs.sbinfo.bytesPerClus)) n
      (filewriteMore fs off n) with
    | (len, disk) => (toInt len, disk, file)

/-- Up to a cluster of bytes is at most one piece. -/
theorem filewriteMore_eq_zero {off n : ℕ} (hn : 0 < n) (hfit : n ≤ fs.sbinfo.bytesPerClus)
    (hsum : off + n < 2 ^ 32) : filewriteMore fs off n = 0 := by
  have hlast : ((off + n - 1) % 2 ^ 32 + 2 ^ 64 - off) % 2 ^ 64 = n - 1 := by omega
  have hround : roundUp (n - 1) fs.sbinfo.bytesPerClus ≤ n - 1 + fs.sbinfo.bytesPerClus - 1 :=
    Nat.and_le_left.trans (Nat.mod_le _ _)
  have hdiv : roundUp (n - 1) fs.sbinfo.bytesPerClus / fs.sbinfo.bytesPerClus < 2 := by
    apply Nat.div_lt_of_lt_mul
    omega
  have hmod := Nat.mod_le (roundUp (n - 1) fs.sbinfo.bytesPerClus / fs.sbinfo.bytesPerClus) (2 ^ 32)
  rw [filewriteMore, hlast]
  omega

theorem filewrite_eq {disk disk' : Mem} {file file' : Dirent} {off n : ℕ}
    (hoff : off ≤ file.size) (hn : 0 < n)
    (hextend : (if file.size < (off + n) % 2 ^ 32 then fileExtend fs disk file ((off + n) % 2 ^ 32)
      else some (disk, file)) = some (disk', file')) (src : ℕ → UInt8) :
    filewrite fs disk file src off n = some (filewriteRest fs src off n disk' file'
      (fileGetClusNo fs disk' file' (off / fs.sbinfo.bytesPerClus))) := by
  rw [filewrite, if_neg (by omega), if_neg (by omega), hextend, filewriteRest, filewriteMore,
    filewriteFirst]
  rfl

/-- `filewrite` inside one cluster, once the file is long enough. -/
theorem filewrite_inside (hgeo : Geometry fs) {disk disk' : Mem} {file file' : Dirent}
    {chain : List ℕ} {off n c : ℕ} (hoff : off ≤ file.size) (hn : 0 < n)
    (hsum : off + n < 2 ^ 32)
    (hfit : off % fs.sbinfo.bytesPerClus + n ≤ fs.sbinfo.bytesPerClus)
    (hextend : (if file.size < (off + n) % 2 ^ 32 then fileExtend fs disk file ((off + n) % 2 ^ 32)
      else some (disk, file)) = some (disk', file'))
    (hfile : FileOn fs disk' file' chain)
    (hc : chain[off / fs.sbinfo.bytesPerClus]? = some c) (src : ℕ → UInt8) :
    filewrite fs disk file src off n = some ((n : ℤ),
      blit disk' (clusAddr fs c + off % fs.sbinfo.bytesPerClus) src n, file') := by
  have hin := hfile.linked.inRange c (List.mem_of_getElem? hc)
  have hclus := getClusNoLoop_eq hgeo hfile.linked hfile.head hc
  have hpiece : min n (fs.sbinfo.bytesPerClus - off % fs.sbinfo.bytesPerClus) = n :=
    Nat.min_eq_left (by omega)
  have hsmall := bytesPerClus_lt hgeo
  rw [filewrite_eq hoff hn hextend]
  rw [filewriteRest, fileGetClusNo, hclus, if_neg (not_isEof hgeo hin),
    filewriteMore_eq_zero hn (by omega) hsum, filewriteLoop, filewriteFirst, hpiece,
    cluswrite_eq hgeo hin disk' src hfit]
  dsimp only
  rw [toInt_of_lt (by omega)]

/-- Reading back inside one cluster. -/
theorem fileread_inside (hgeo : Geometry fs) {disk : Mem} {file : Dirent} {chain : List ℕ}
    {off n c : ℕ} (hn : 0 < n) (hsum : off + n < 2 ^ 32) (hsize : off + n ≤ file.size)
    (hfit : off % fs.sbinfo.bytesPerClus + n ≤ fs.sbinfo.bytesPerClus)
    (hfile : FileOn fs disk file chain)
    (hc : chain[off / fs.sbinfo.bytesPerClus]? = some c) :
    fileread fs disk file off n = ((n : ℤ), (List.range n).map fun k =>
      disk (clusAddr fs c + off % fs.sbinfo.bytesPerClus + k)) := by
  have hin := hfile.linked.inRange c (List.mem_of_getElem? hc)
  have hclus := getClusNoLoop_eq hgeo hfile.linked hfile.head hc
  have hpiece : min n (fs.sbinfo.bytesPerClus - off % fs.sbinfo.bytesPerClus) = n :=
    Nat.min_eq_left (by omega)
  have hsmall := bytesPerClus_lt hgeo
  have hlast : ((off + n - 1) % 2 ^ 32 + 2 ^ 64 - off) % 2 ^ 64 = n - 1 := by omega
  have hrounds : (n - 1) / fs.sbinfo.bytesPerClus % 2 ^ 32 = 0 := by
    rw [Nat.div_eq_of_lt (by omega), Nat.zero_mod]
  have hlen : (if file.size < (off + n) % 2 ^ 32 then (file.size - off) % 2 ^ 32 else n) = n :=
    if_neg (by omega)
  simp only [fileread, fileGetClusNo, hlen, hclus, hpiece, hlast, hrounds]
  rw [if_neg (by omega), if_neg (by omega), if_neg (not_isEof hgeo hin), filereadLoop,
    toInt_of_lt (by omega), clusread_eq hgeo hin disk hfit, List.append_nil]

/-! ## Extension by at most a cluster -/

theorem freeClusters_eq_zero {disk : Mem}
    (hfull : ∀ c, InRange fs c → fatread fs disk c ≠ 0) : freeClusters fs disk = 0 := by
  rw [freeClusters, List.countP_eq_zero]
  intro i hi
  have hlt : i < fs.sbinfo.clusterCnt := List.mem_range.mp hi
  simpa using hfull (i + 2) ⟨by omega, by omega⟩

/-- The file after `fileExtend`: it has the new size and room for it, and its old bytes. -/
structure Extended (fs : Filesystem) (disk disk' : Mem) (file file' : Dirent)
    (chain chain' : List ℕ) (newSize : ℕ) : Prop where
  onChain : FileOn fs disk' file' chain'
  size : file'.size = newSize
  same : ∀ i, i < file.size → fileByte fs disk' chain' i = fileByte fs disk chain i
  others : OthersKept fs disk disk' chain chain'

theorem extended_refl {disk : Mem} {file : Dirent} {chain : List ℕ}
    (hfile : FileOn fs disk file chain) :
    Extended fs disk disk file file chain chain file.size :=
  ⟨hfile, rfl, fun _ _ => rfl, fun _ hlinked hapart => ⟨hlinked, hapart, fun _ => rfl⟩⟩

theorem Allocated.extended (hgeo : Geometry fs) {disk disk' : Mem} {file : Dirent}
    {chain : List ℕ} {last n newSize : ℕ} (hfile : FileOn fs disk file chain)
    (hlast : chain.getLast? = some last) (hspec : Allocated fs disk disk' last n)
    (hcovers : newSize ≤ (chain.length + 1) * fs.sbinfo.bytesPerClus) :
    Extended fs disk disk' file { file with size := newSize } chain (chain ++ [n]) newSize := by
  obtain ⟨hlinked, hnodup, hhead, hold⟩ := hfile
  have hmem := List.mem_of_getLast? hlast
  have hfresh : ∀ other, Linked fs disk other → n ∉ other := fun other hother hn =>
    hother.ne_zero n hn hspec.wasFree
  have hdata : ∀ other, Linked fs disk other → ∀ c ∈ other, ∀ k, k < fs.sbinfo.bytesPerClus →
      disk' (clusAddr fs c + k) = disk (clusAddr fs c + k) := by
    intro other hother c hc
    refine hspec.data c (hother.inRange c hc) ?_
    rintro rfl
    exact hfresh other hother hc
  have hlastIn := hlinked.inRange last hmem
  have hlastNe : last ≠ n := by
    rintro rfl
    exact hfresh chain hlinked hmem
  have hgrown : Linked fs disk' (chain ++ [n]) := by
    apply hlinked.snoc hnodup hlast hspec.inRange
    · rw [hspec.entries last hlastIn, if_neg hlastNe, if_pos rfl]
    · rw [hspec.entries n hspec.inRange, if_pos rfl]
      decide
    · intro c hc hne
      have hcn : c ≠ n := by
        rintro rfl
        exact hfresh chain hlinked hc
      rw [hspec.entries c (hlinked.inRange c hc), if_neg hcn, if_neg hne]
  refine ⟨⟨hgrown, ?_, ?_, ?_⟩, rfl, ?_, ?_⟩
  · rw [List.nodup_append]
    refine ⟨hnodup, List.nodup_singleton n, ?_⟩
    intro c hc d hd
    obtain rfl := List.mem_singleton.mp hd
    rintro rfl
    exact hfresh chain hlinked hc
  · rw [List.head?_append, hhead]
    rfl
  · rw [List.length_append, List.length_singleton]
    exact hcovers
  · intro i hi
    have hpos := bytesPerClus_pos hgeo
    have hindex : i / fs.sbinfo.bytesPerClus < chain.length := by
      rw [Nat.div_lt_iff_lt_mul hpos]
      omega
    rw [fileByte, fileByte, List.getElem?_append_left hindex, List.getElem?_eq_getElem hindex,
      Option.map_some, Option.map_some,
      hdata chain hlinked _ (List.getElem_mem hindex) _ (Nat.mod_lt i hpos)]
  · intro other hother hapart
    have hne : ∀ c ∈ other, c ≠ n ∧ c ≠ last := by
      intro c hc
      refine ⟨?_, ?_⟩
      · rintro rfl
        exact hfresh other hother hc
      · rintro rfl
        exact hapart hc hmem
    refine ⟨hother.frame ?_, ?_, content_congr hgeo (hdata other hother)⟩
    · intro c hc
      rw [hspec.entries c (hother.inRange c hc), if_neg (hne c hc).1, if_neg (hne c hc).2]
    · intro c hc hc'
      obtain hc' | hc' := List.mem_append.mp hc'
      · exact hapart hc hc'
      · exact (hne c hc).1 (List.mem_singleton.mp hc')

theorem fileExtend_one (hgeo : Geometry fs) {disk : Mem} {file : Dirent} {chain : List ℕ}
    {newSize last : ℕ} (hfile : FileOn fs disk file chain) (hgrows : file.size < newSize)
    (hlittle : newSize ≤ file.size + fs.sbinfo.bytesPerClus)
    (hlast : chain.getLast? = some last) :
    fileExtend fs disk file newSize =
      some ((clusalloc fs disk last).2, { file with size := newSize }) := by
  have hpos := bytesPerClus_pos hgeo
  have hcount : (newSize - file.size) / fs.sbinfo.bytesPerClus +
      (if (newSize - file.size) % fs.sbinfo.bytesPerClus = 0 then 0 else 1) = 1 := by
    by_cases hwhole : newSize - file.size = fs.sbinfo.bytesPerClus
    · rw [hwhole, Nat.mod_self, if_pos rfl, Nat.div_self hpos]
    · have hpart : newSize - file.size < fs.sbinfo.bytesPerClus := by omega
      rw [Nat.div_eq_of_lt hpart, Nat.mod_eq_of_lt hpart, if_neg (by omega)]
  have hmarks := hgeo.marks
  have hlength := chain_length_le hfile.linked hfile.nodup
  have hwalk : lastClusLoop fs disk file.firstCluster 0 walkRounds = some last :=
    lastClusLoop_eq hgeo hfile.linked hfile.head hlast (by rw [walkRounds]; omega)
  rw [fileExtend, if_neg (by omega)]
  simp only [hcount, hwalk, Option.map_some]
  rw [Nat.mod_eq_of_lt (by decide)]
  simp only [extendLoop]

theorem mul_of_ceil_le {m count size : ℕ} (hpos : 0 < size)
    (hceil : (m + size - 1) / size ≤ count) : m ≤ count * size := by
  have hlt := (Nat.div_lt_iff_lt_mul hpos).mp (Nat.lt_succ_of_le hceil)
  rw [Nat.succ_mul] at hlt
  omega

/-- Inside one cluster `filewrite` has the file extended as far as it needs. -/
theorem extended_inside (hgeo : Geometry fs) {disk : Mem} {file : Dirent} {chain : List ℕ}
    {off n : ℕ} (hfile : FileOn fs disk file chain) (hoff : off ≤ file.size)
    (hsum : off + n < 2 ^ 32)
    (henough : (off + n + fs.sbinfo.bytesPerClus - 1) / fs.sbinfo.bytesPerClus ≤
      chain.length + freeClusters fs disk)
    (hfit : off % fs.sbinfo.bytesPerClus + n ≤ fs.sbinfo.bytesPerClus) :
    ∃ disk' file' chain',
      (if file.size < (off + n) % 2 ^ 32 then fileExtend fs disk file ((off + n) % 2 ^ 32)
        else some (disk, file)) = some (disk', file') ∧
      Extended fs disk disk' file file' chain chain' (max file.size (off + n)) := by
  rw [Nat.mod_eq_of_lt hsum]
  by_cases hgrows : file.size < off + n
  · obtain ⟨last, hlast⟩ := Option.ne_none_iff_exists'.mp
      (mt List.getLast?_eq_none_iff.mp hfile.linked.nonempty)
    have hlastIn := hfile.linked.inRange last (List.mem_of_getLast? hlast)
    rw [if_pos hgrows, fileExtend_one hgeo hfile hgrows (by omega) hlast,
      Nat.max_eq_right hgrows.le]
    by_cases hfull : ∀ c, InRange fs c → fatread fs disk c ≠ 0
    · rw [clusalloc_full hgeo hfull]
      refine ⟨disk, _, chain, rfl, ⟨hfile.linked, hfile.nodup, hfile.head, ?_⟩, rfl,
        fun _ _ => rfl, (extended_refl hfile).others⟩
      rw [freeClusters_eq_zero hfull, Nat.add_zero] at henough
      exact mul_of_ceil_le (bytesPerClus_pos hgeo) henough
    · push Not at hfull
      obtain ⟨c, hc, hfree⟩ := hfull
      obtain ⟨m, disk', halloc, hspec⟩ := clusalloc_spec hgeo (.inr hlastIn) hc hfree
      rw [halloc]
      refine ⟨disk', _, chain ++ [m], rfl, hspec.extended hgeo hfile hlast ?_⟩
      have hindex : off / fs.sbinfo.bytesPerClus ≤ chain.length := by
        apply Nat.div_le_of_le_mul
        rw [Nat.mul_comm]
        exact hoff.trans hfile.covers
      have hmul := Nat.mul_le_mul_left fs.sbinfo.bytesPerClus hindex
      have hdiv := Nat.div_add_mod off fs.sbinfo.bytesPerClus
      rw [Nat.succ_mul, Nat.mul_comm chain.length]
      omega
  · rw [if_neg hgrows, Nat.max_eq_left (by omega)]
    exact ⟨disk, file, chain, rfl, extended_refl hfile⟩

theorem written_inside (hgeo : Geometry fs) {disk : Mem} {file : Dirent} {chain : List ℕ}
    {off n : ℕ} (hfile : FileOn fs disk file chain) (hoff : off ≤ file.size) (hn : 0 < n)
    (hsum : off + n < 2 ^ 32)
    (henough : (off + n + fs.sbinfo.bytesPerClus - 1) / fs.sbinfo.bytesPerClus ≤
      chain.length + freeClusters fs disk)
    (hfit : off % fs.sbinfo.bytesPerClus + n ≤ fs.sbinfo.bytesPerClus) (src : ℕ → UInt8) :
    Written fs disk file chain src off n := by
  have hpos := bytesPerClus_pos hgeo
  obtain ⟨disk', file', chain', hextend, hext⟩ :=
    extended_inside hgeo hfile hoff hsum henough hfit
  have hsize := hext.size
  have hcovers := hext.onChain.covers
  have hindex : off / fs.sbinfo.bytesPerClus < chain'.length := by
    rw [Nat.div_lt_iff_lt_mul hpos]
    omega
  obtain ⟨c, hc⟩ : ∃ c, chain'[off / fs.sbinfo.bytesPerClus]? = some c :=
    ⟨_, List.getElem?_eq_getElem hindex⟩
  have hlinked := hext.onChain.linked
  have hmem := List.mem_of_getElem? hc
  have hfile' : FileOn fs (blit disk' (clusAddr fs c + off % fs.sbinfo.bytesPerClus) src n) file'
      chain' :=
    ⟨hlinked.blit hgeo c src _ n, hext.onChain.nodup, hext.onChain.head, hcovers⟩
  refine ⟨_, file', chain', filewrite_inside hgeo hoff hn hsum hfit hextend hext.onChain hc src,
    hfile', ?_, ?_, ?_⟩
  · apply List.ext_getElem?
    intro i
    rw [getElem?_content hpos, getElem?_splice (by rw [length_content disk hfile.covers]; exact hoff),
      getElem?_content hpos, fileByte_blit hgeo hlinked.inRange hext.onChain.nodup hc hfit, hsize]
    by_cases hpiece : off ≤ i ∧ i < off + n
    · rw [if_pos hpiece, if_pos hpiece, if_pos (by omega)]
    · rw [if_neg hpiece, if_neg hpiece]
      by_cases hold : i < file.size
      · rw [if_pos hold, if_pos (by omega), hext.same i hold]
      · rw [if_neg hold, if_neg (by omega)]
  · exact hext.others.trans (othersKept_blit hgeo (hlinked.inRange c hmem) hmem hfit src)
  · rw [fileread_inside hgeo hn hsum (by omega) hfit hfile' hc]
    congr 1
    apply List.map_congr_left
    intro k hk
    have hlt := List.mem_range.mp hk
    rw [blit, if_pos (by omega), Nat.add_sub_cancel_left]

/-! ## Writes across a cluster boundary -/

/-- A write of more than a cluster never reads past the first cluster of the source. -/
theorem cluswriteLoop_congr {src src' : ℕ → UInt8} {n : ℕ} (hsame : ∀ k, k < n → src k = src' k)
    (disk : Mem) (secNo writeLen rounds : ℕ) :
    cluswriteLoop fs src disk secNo writeLen n rounds =
      cluswriteLoop fs src' disk secNo writeLen n rounds := by
  induction rounds generalizing disk secNo writeLen with
  | zero => rfl
  | succ rounds ih =>
      rw [cluswriteLoop, cluswriteLoop]
      by_cases hmore : writeLen < n
      · rw [if_pos hmore, if_pos hmore]
        have hblit : ∀ buf : Mem,
            blit buf 0 (fun k => src (writeLen + k))
                (min fs.superblock.bytesPerSector (n - writeLen)) =
              blit buf 0 (fun k => src' (writeLen + k))
                (min fs.superblock.bytesPerSector (n - writeLen)) := by
          intro buf
          funext x
          simp only [blit]
          split
          · exact hsame _ (by omega)
          · rfl
        simp only [hblit, ih]
      · rw [if_neg hmore, if_neg hmore]

theorem cluswrite_congr {src src' : ℕ → UInt8} {n : ℕ} (hsame : ∀ k, k < n → src k = src' k)
    (disk : Mem) (clusNo offset : ℕ) :
    cluswrite fs disk clusNo offset src n = cluswrite fs disk clusNo offset src' n := by
  have hblit : ∀ (buf : Mem) (at_ len : ℕ), len ≤ n →
      blit buf at_ src len = blit buf at_ src' len := by
    intro buf at_ len hlen
    funext x
    simp only [blit]
    split
    · exact hsame _ (by omega)
    · rfl
  simp only [cluswrite, hblit _ _ _ (Nat.min_le_right _ n), cluswriteLoop_congr hsame]

theorem filewriteLoop_congr {src src' : ℕ → UInt8}
    (hsame : ∀ k, k < fs.sbinfo.bytesPerClus → src k = src' k) (disk : Mem)
    (clus offset len n count : ℕ) :
    filewriteLoop fs src disk clus offset len n count =
      filewriteLoop fs src' disk clus offset len n count := by
  induction count generalizing disk clus len with
  | zero => rfl
  | succ count ih =>
      have hpiece : ∀ k, k < min ((n + 2 ^ 32 - len) % 2 ^ 32) fs.sbinfo.bytesPerClus →
          src k = src' k := fun k hk => hsame k (hk.trans_le (Nat.min_le_right _ _))
      simp only [filewriteLoop, cluswrite_congr hpiece, ih]

theorem filewriteRest_congr {src src' : ℕ → UInt8}
    (hsame : ∀ k, k < fs.sbinfo.bytesPerClus → src k = src' k) (off n : ℕ) (disk : Mem)
    (file : Dirent) (clus : ℕ) :
    filewriteRest fs src off n disk file clus = filewriteRest fs src' off n disk file clus := by
  have hpiece : ∀ k, k < min n (fs.sbinfo.bytesPerClus - off % fs.sbinfo.bytesPerClus) →
      src k = src' k := fun k hk => hsame k (by omega)
  have hfirst : filewriteFirst fs src off n disk clus = filewriteFirst fs src' off n disk clus :=
    cluswrite_congr hpiece disk clus _
  rw [filewriteRest, filewriteRest, hfirst, filewriteLoop_congr hsame]

theorem filewrite_none {disk : Mem} {file : Dirent} {off n : ℕ} (hoff : off ≤ file.size)
    (hn : 0 < n)
    (hextend : (if file.size < (off + n) % 2 ^ 32 then fileExtend fs disk file ((off + n) % 2 ^ 32)
      else some (disk, file)) = none) (src : ℕ → UInt8) :
    filewrite fs disk file src off n = none := by
  rw [filewrite, if_neg (by omega), if_neg (by omega), hextend, Option.map_none]

/-- What `filewrite` does depends on the first cluster of the source alone. -/
theorem filewrite_congr {src src' : ℕ → UInt8} {disk : Mem} {file : Dirent} {off n : ℕ}
    (hoff : off ≤ file.size) (hn : 0 < n)
    (hsame : ∀ k, k < fs.sbinfo.bytesPerClus → src k = src' k) :
    filewrite fs disk file src off n = filewrite fs disk file src' off n := by
  cases hextend : (if file.size < (off + n) % 2 ^ 32
      then fileExtend fs disk file ((off + n) % 2 ^ 32) else some (disk, file)) with
  | none => rw [filewrite_none hoff hn hextend, filewrite_none hoff hn hextend]
  | some extended =>
      rw [filewrite_eq hoff hn hextend, filewrite_eq hoff hn hextend, filewriteRest_congr hsame]

/-- A write of at most a cluster that crosses into the next one stops at the boundary. -/
theorem filewrite_short (hgeo : Geometry fs) {disk disk' : Mem} {file file' : Dirent} {off n : ℕ}
    {src : ℕ → UInt8} (hoff : off ≤ file.size) (hn : 0 < n) (hsum : off + n < 2 ^ 32)
    (hsmall : n ≤ fs.sbinfo.bytesPerClus)
    (hacross : fs.sbinfo.bytesPerClus < off % fs.sbinfo.bytesPerClus + n) :
    filewrite fs disk file src off n ≠ some ((n : ℤ), disk', file') := by
  intro hwrite
  have hbound := bytesPerClus_lt hgeo
  have hmod := Nat.mod_lt off (bytesPerClus_pos hgeo)
  have hpiece : min n (fs.sbinfo.bytesPerClus - off % fs.sbinfo.bytesPerClus) =
      fs.sbinfo.bytesPerClus - off % fs.sbinfo.bytesPerClus := Nat.min_eq_right (by omega)
  cases hextend : (if file.size < (off + n) % 2 ^ 32
      then fileExtend fs disk file ((off + n) % 2 ^ 32) else some (disk, file)) with
  | none =>
      rw [filewrite_none hoff hn hextend] at hwrite
      cases hwrite
  | some extended =>
      rw [filewrite_eq hoff hn hextend, filewriteRest] at hwrite
      split at hwrite
      · simp only [Option.some.injEq, Prod.mk.injEq] at hwrite
        omega
      · rw [filewriteMore_eq_zero hn hsmall hsum, filewriteLoop, hpiece] at hwrite
        simp only [Option.some.injEq, Prod.mk.injEq] at hwrite
        rw [toInt_of_lt (by omega)] at hwrite
        omega

theorem not_written_across (hgeo : Geometry fs) {disk : Mem} {file : Dirent} {chain : List ℕ}
    {off n : ℕ} (hoff : off ≤ file.size) (hn : 0 < n) (hsum : off + n < 2 ^ 32)
    (hacross : fs.sbinfo.bytesPerClus < off % fs.sbinfo.bytesPerClus + n) :
    ¬ ∀ src, Written fs disk file chain src off n := by
  intro hall
  by_cases hsmall : n ≤ fs.sbinfo.bytesPerClus
  · obtain ⟨disk', file', _, hwrite, _⟩ := hall fun _ => 0
    exact filewrite_short hgeo hoff hn hsum hsmall hacross hwrite
  · let marked : ℕ → UInt8 := fun k => if k = fs.sbinfo.bytesPerClus then 1 else 0
    have hsame : ∀ k, k < fs.sbinfo.bytesPerClus → (0 : UInt8) = marked k := by
      intro k hk
      exact (if_neg (by omega)).symm
    obtain ⟨disk₀, file₀, _, hwrite₀, _, _, _, hread₀⟩ := hall fun _ => 0
    obtain ⟨disk₁, file₁, _, hwrite₁, _, _, _, hread₁⟩ := hall marked
    rw [filewrite_congr hoff hn hsame, hwrite₁] at hwrite₀
    simp only [Option.some.injEq, Prod.mk.injEq, true_and] at hwrite₀
    obtain ⟨rfl, rfl⟩ := hwrite₀
    rw [hread₀, Prod.mk.injEq] at hread₁
    have hbyte := List.map_inj_left.mp hread₁.2 fs.sbinfo.bytesPerClus
      (List.mem_range.mpr (by omega))
    simp [marked] at hbyte

/-- A file of 100 bytes in cluster 2 of the small volume. -/
def smallFile : Dirent := ⟨2, 100⟩

theorem smallFile_fileOn : FileOn smallVolume smallDisk smallFile [2] := by
  refine ⟨smallDisk_consistent.linked [2] (by simp), by decide, rfl, by decide⟩

end Painting.Fat32
