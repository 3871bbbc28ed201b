import Painting.Fs.ChainWalks
import Painting.Fs.RangeArithmetic

/-!
# Extending a file

`fileExtend` asks for as many clusters as the new bytes alone would fill.  The room left in the
last cluster is not taken into account, so that a file may get a cluster that it does not need.
The size is set before any cluster is allocated and is never set back.
-/

namespace Painting.Fat32

open Painting.Memory Painting.Transition

variable {fs : Filesystem} {disk disk' : Mem} {before after : List (List ℕ)} {chain : List ℕ}
  {file file' : Dirent}

/-- The number of clusters that `size` bytes fill. -/
def clusFor (fs : Filesystem) (size : ℕ) : ℕ :=
  (size + fs.sbinfo.bytesPerClus - 1) / fs.sbinfo.bytesPerClus

/-- The extension has succeeded: the file has the new size, its chain is the old one with
exactly the clusters that it needs, and the other chains are as they were. -/
def ExtendExact (fs : Filesystem) (disk : Mem) (before : List (List ℕ)) (chain : List ℕ)
    (after : List (List ℕ)) (file : Dirent) (newSize : ℕ) : Prop :=
  ∃ disk' chain', fileExtend fs disk file newSize = some (disk', { file with size := newSize }) ∧
    chain <+: chain' ∧ chain'.length = clusFor fs newSize ∧
    Consistent fs disk' (before ++ chain' :: after)

/-- The new bytes alone fill as many clusters as the file needs, or there are no more. -/
def NeedsAll (fs : Filesystem) (disk : Mem) (size newSize : ℕ) : Prop :=
  size % fs.sbinfo.bytesPerClus = 0 ∨ (newSize - size) % fs.sbinfo.bytesPerClus = 0 ∨
    fs.sbinfo.bytesPerClus <
      size % fs.sbinfo.bytesPerClus + (newSize - size) % fs.sbinfo.bytesPerClus ∨
    freeClusters fs disk = clusFor fs newSize - clusFor fs size

/-! ## Chains -/

/-- The chain from a cluster on is unique. -/
theorem Linked.eq_of_head (hgeo : Geometry fs) {left right : List ℕ}
    (hleft : Linked fs disk left) (hright : Linked fs disk right)
    (hhead : left.head? = right.head?) : left = right := by
  induction left generalizing right with
  | nil => exact absurd rfl hleft.nonempty
  | cons a rest ih =>
      obtain ⟨rest', rfl⟩ : ∃ rest', right = a :: rest' :=
        List.head?_eq_some_iff.mp hhead.symm
      cases rest with
      | nil =>
          cases rest' with
          | nil => rfl
          | cons b rest' =>
              obtain ⟨hnext, htail⟩ := hright.tail
              have heof := hleft.last a rfl
              rw [hnext] at heof
              exact absurd heof (not_isEof hgeo (htail.inRange b (by simp)))
      | cons b rest =>
          obtain ⟨hnext, htail⟩ := hleft.tail
          cases rest' with
          | nil =>
              have heof := hright.last a rfl
              rw [hnext] at heof
              exact absurd heof (not_isEof hgeo (htail.inRange b (by simp)))
          | cons c rest' =>
              obtain ⟨hnext', htail'⟩ := hright.tail
              obtain rfl : b = c := hnext.symm.trans hnext'
              rw [ih htail htail' rfl]

theorem Consistent.frame {chains : List (List ℕ)} (hcons : Consistent fs disk chains)
    (hsame : ∀ c, InRange fs c → fatread fs disk' c = fatread fs disk c) :
    Consistent fs disk' chains := by
  refine ⟨?_, hcons.apart, ?_⟩
  · intro chain hchain
    have hlinked := hcons.linked chain hchain
    exact hlinked.frame fun c hc => hsame c (hlinked.inRange c hc)
  · intro c hc hnot
    rw [hsame c hc]
    exact hcons.free c hc hnot

theorem countP_eq_succ {l : List ℕ} (hnodup : l.Nodup) {a : ℕ} (ha : a ∈ l) {p q : ℕ → Bool}
    (hp : p a = true) (hq : q a = false) (hsame : ∀ b, b ≠ a → b ∈ l → p b = q b) :
    l.countP p = l.countP q + 1 := by
  have hrest : (l.erase a).countP p = (l.erase a).countP q := by
    apply List.countP_congr
    intro b hb
    rw [hnodup.mem_erase_iff] at hb
    rw [hsame b hb.1 hb.2]
  have hperm := List.perm_cons_erase ha
  rw [hperm.countP_eq p, hperm.countP_eq q, List.countP_cons_of_pos hp,
    List.countP_cons_of_neg (by simp [hq]), hrest]

/-- An allocation takes one free cluster. -/
theorem Allocated.freeClusters {prevNo n : ℕ} (halloc : Allocated fs disk disk' prevNo n)
    (hprev : fatread fs disk prevNo ≠ 0) :
    freeClusters fs disk = freeClusters fs disk' + 1 := by
  obtain ⟨hlo, hhi⟩ := halloc.inRange
  obtain ⟨i, rfl⟩ : ∃ i, n = i + 2 := ⟨n - 2, by omega⟩
  apply countP_eq_succ List.nodup_range (List.mem_range.mpr (show i < _ by omega))
  · exact decide_eq_true halloc.wasFree
  · rw [halloc.entries _ halloc.inRange, if_pos rfl]
    exact decide_eq_false (by decide)
  · intro j hj hmem
    have hlt := List.mem_range.mp hmem
    rw [halloc.entries (j + 2) ⟨by omega, by omega⟩, if_neg (by omega)]
    by_cases heq : j + 2 = prevNo
    · rw [if_pos heq, heq, decide_eq_false hprev, decide_eq_false (by omega)]
    · rw [if_neg heq]

theorem exists_free {count : ℕ} (hfree : freeClusters fs disk = count + 1) :
    ∃ c, InRange fs c ∧ fatread fs disk c = 0 := by
  obtain ⟨i, hi, hzero⟩ := List.countP_pos_iff.mp (show 0 < freeClusters fs disk by omega)
  have hlt := List.mem_range.mp hi
  exact ⟨i + 2, ⟨by omega, by omega⟩, by simpa using hzero⟩

theorem full_of_freeClusters (hfree : freeClusters fs disk = 0) :
    ∀ c, InRange fs c → fatread fs disk c ≠ 0 := by
  rintro c ⟨hlo, hhi⟩
  obtain ⟨i, rfl⟩ : ∃ i, c = i + 2 := ⟨c - 2, by omega⟩
  rw [freeClusters, List.countP_eq_zero] at hfree
  simpa using hfree i (List.mem_range.mpr (by omega))

/-! ## The allocations -/

/-- Without a free cluster nothing more happens. -/
theorem extendLoop_full (hgeo : Geometry fs) (hfull : ∀ c, InRange fs c → fatread fs disk c ≠ 0)
    (last count : ℕ) : extendLoop fs disk last count = disk := by
  induction count generalizing last with
  | zero => rfl
  | succ count ih =>
      rw [extendLoop, clusalloc_full hgeo hfull]
      exact ih 0

/-- The chain grows by a cluster a round while there are free ones. -/
theorem extendLoop_spec (hgeo : Geometry fs)
    (hcons : Consistent fs disk (before ++ chain :: after)) {last : ℕ}
    (hlast : chain.getLast? = some last) (count : ℕ) :
    ∃ added, Consistent fs (extendLoop fs disk last count) (before ++ (chain ++ added) :: after) ∧
      added.length = min count (freeClusters fs disk) := by
  induction count generalizing disk chain last with
  | zero => exact ⟨[], by simpa [extendLoop] using hcons, by simp⟩
  | succ count ih =>
      have hmem : chain ∈ before ++ chain :: after := by simp
      have hlinked := hcons.linked chain hmem
      have hlastMem := List.mem_of_getLast? hlast
      have hlastIn := hlinked.inRange last hlastMem
      cases hfree : freeClusters fs disk with
      | zero =>
          rw [extendLoop_full hgeo (full_of_freeClusters hfree)]
          exact ⟨[], by simpa using hcons, by simp⟩
      | succ free =>
          obtain ⟨c, hc, hzero⟩ := exists_free hfree
          obtain ⟨n, disk', halloc, hspec⟩ := clusalloc_spec hgeo (.inr hlastIn) hc hzero
          have hprev : LastOrZero (before ++ chain :: after) last := .inr ⟨chain, hmem, hlast⟩
          have hcons' := hspec.consistent hcons hprev
          rw [extendChains_eq hcons.apart rfl (by have := hlastIn.1; omega) hlast] at hcons'
          obtain ⟨added, hadded, hlength⟩ := ih hcons' (List.getLast?_concat (a := n))
          have hcount := hspec.freeClusters (hlinked.ne_zero last hlastMem)
          rw [extendLoop, halloc]
          refine ⟨n :: added, ?_, ?_⟩
          · rw [List.append_assoc, List.singleton_append] at hadded
            exact hadded
          · rw [List.length_cons, hlength]
            omega

/-! ## The number of clusters -/

theorem ceil_eq {m size : ℕ} (hpos : 0 < size) :
    m / size + (if m % size = 0 then 0 else 1) = (m + size - 1) / size := by
  have hm := Nat.div_add_mod m size
  have hlt := Nat.mod_lt m hpos
  symm
  split
  · apply Nat.div_eq_of_lt_le
    · rw [Nat.add_zero, Nat.mul_comm]
      omega
    · rw [Nat.add_zero, Nat.mul_comm, Nat.mul_succ]
      omega
  · apply Nat.div_eq_of_lt_le
    · rw [Nat.mul_comm, Nat.mul_succ]
      omega
    · rw [Nat.mul_comm, Nat.mul_succ, Nat.mul_succ]
      omega

/-- The clusters of the new bytes alone are those that the file needs, or one more. -/
theorem ceil_add {size a b : ℕ} (hpos : 0 < size) :
    (a + size - 1) / size + (b + size - 1) / size =
      (a + b + size - 1) / size +
        if a % size = 0 ∨ b % size = 0 ∨ size < a % size + b % size then 0 else 1 := by
  have ha := Nat.mod_lt a hpos
  have hb := Nat.mod_lt b hpos
  have hdiv : (a + b) / size =
      a / size + b / size + if size ≤ a % size + b % size then 1 else 0 :=
    Nat.add_div hpos
  have hmod : (a + b) % size =
      if size ≤ a % size + b % size then a % size + b % size - size
      else a % size + b % size := by
    split
    · rename_i hover
      have hshift : a % size + b % size = size + (a % size + b % size - size) := by omega
      rw [Nat.add_mod, hshift, Nat.add_mod_left, Nat.mod_eq_of_lt (by omega)]
      omega
    · rw [Nat.add_mod, Nat.mod_eq_of_lt (by omega)]
  rw [← ceil_eq hpos, ← ceil_eq hpos, ← ceil_eq hpos, hdiv, hmod]
  split_ifs <;> omega

theorem clusFor_mono {size newSize : ℕ} (hle : size ≤ newSize) :
    clusFor fs size ≤ clusFor fs newSize :=
  Nat.div_le_div_right (by omega)

theorem clusFor_le (hgeo : Geometry fs) (size : ℕ) : clusFor fs size ≤ size := by
  have hpos := bytesPerClus_pos hgeo
  have hscale := Nat.mul_le_mul_left size hpos
  apply Nat.le_of_lt_succ
  rw [clusFor, Nat.div_lt_iff_lt_mul hpos, Nat.succ_mul]
  omega

theorem le_clusFor_mul (hgeo : Geometry fs) (size : ℕ) :
    size ≤ clusFor fs size * fs.sbinfo.bytesPerClus :=
  mul_of_ceil_le (bytesPerClus_pos hgeo) le_rfl

/-! ## One extension -/

/-- What `fileExtend` does to a file that grows. -/
theorem fileExtend_spec (hgeo : Geometry fs)
    (hcons : Consistent fs disk (before ++ chain :: after))
    (hhead : chain.head? = some file.firstCluster) {newSize : ℕ} (hle : file.size ≤ newSize)
    (hlt : newSize < 2 ^ 32) :
    ∃ disk' added, fileExtend fs disk file newSize = some (disk', { file with size := newSize }) ∧
      Consistent fs disk' (before ++ (chain ++ added) :: after) ∧
      added.length = min (clusFor fs (newSize - file.size)) (freeClusters fs disk) := by
  have hmem : chain ∈ before ++ chain :: after := by simp
  have hlinked := hcons.linked chain hmem
  have hnodup := (List.nodup_flatten.mp hcons.apart).1 chain hmem
  have hmarks := hgeo.marks
  have hlength := chain_length_le hlinked hnodup
  obtain ⟨last, hlast⟩ := Option.ne_none_iff_exists'.mp
    (mt List.getLast?_eq_none_iff.mp hlinked.nonempty)
  have hwalk : lastClusLoop fs disk file.firstCluster 0 walkRounds = some last :=
    lastClusLoop_eq hgeo hlinked hhead hlast (by rw [walkRounds]; omega)
  have hcount := clusFor_le hgeo (newSize - file.size)
  obtain ⟨added, hcons', hadded⟩ :=
    extendLoop_spec hgeo hcons hlast (clusFor fs (newSize - file.size))
  refine ⟨_, added, ?_, hcons', hadded⟩
  rw [fileExtend, if_neg (by omega)]
  simp only [hwalk, Option.map_some, ceil_eq (bytesPerClus_pos hgeo)]
  rw [← clusFor, Nat.mod_eq_of_lt (by omega)]

/-- When enough clusters are free, `fileExtend` gives the file those that it needs exactly when
the new bytes alone fill as many, or there are no more. -/
theorem extendExact_iff (hgeo : Geometry fs)
    (hcons : Consistent fs disk (before ++ chain :: after))
    (hhead : chain.head? = some file.firstCluster)
    (hexact : chain.length = clusFor fs file.size) {newSize : ℕ} (hle : file.size ≤ newSize)
    (hlt : newSize < 2 ^ 32)
    (henough : clusFor fs newSize ≤ chain.length + freeClusters fs disk) :
    ExtendExact fs disk before chain after file newSize ↔
      NeedsAll fs disk file.size newSize := by
  obtain ⟨disk', added, hextend, hcons', hadded⟩ := fileExtend_spec hgeo hcons hhead hle hlt
  have hlinked' := hcons'.linked (chain ++ added) (by simp)
  have hunits := @ceil_add fs.sbinfo.bytesPerClus file.size (newSize - file.size)
    (bytesPerClus_pos hgeo)
  rw [Nat.add_sub_cancel' hle, ← clusFor, ← clusFor, ← clusFor] at hunits
  have hgrown : (chain ++ added).length = clusFor fs newSize ↔
      NeedsAll fs disk file.size newSize := by
    rw [List.length_append, hadded, hexact, NeedsAll]
    rw [hexact] at henough
    have hmono : clusFor fs file.size ≤ clusFor fs newSize := clusFor_mono hle
    split_ifs at hunits <;> omega
  rw [← hgrown]
  constructor
  · rintro ⟨disk'', chain', hextend', ⟨more, rfl⟩, hlength, hcons''⟩
    rw [hextend] at hextend'
    simp only [Option.some.injEq, Prod.mk.injEq, and_true] at hextend'
    subst hextend'
    have hprefix : (chain ++ more).head? = (chain ++ added).head? := by
      rw [List.head?_append, List.head?_append, hhead]
      rfl
    rw [← (hcons''.linked (chain ++ more) (by simp)).eq_of_head hgeo hlinked' hprefix]
    exact hlength
  · intro hlength
    exact ⟨disk', chain ++ added, hextend, List.prefix_append chain added, hlength, hcons'⟩

/-! ## Writes -/

/-- The sectors up to a cluster past the last one have 32-bit numbers. -/
def NoWrap (fs : Filesystem) : Prop :=
  fs.sbinfo.firstDataSector + fs.sbinfo.dataSectorCnt + fs.superblock.sectorsPerCluster ≤ 2 ^ 32

/-- A piece that begins inside a cluster is put there, and after it. -/
theorem cluswrite_piece (hgeo : Geometry fs) (hwrap : NoWrap fs) {c : ℕ} (hc : InRange fs c)
    (src : ℕ → UInt8) {offset n : ℕ} (hoffset : offset ≤ fs.sbinfo.bytesPerClus)
    (hn : n ≤ fs.sbinfo.bytesPerClus) :
    cluswrite fs disk c offset src n = blit disk (clusAddr fs c + offset) src n := by
  have hmul := clusterCnt_mul_le hgeo
  have hindex : (c - 2 + 1) * fs.superblock.sectorsPerCluster ≤
      fs.sbinfo.clusterCnt * fs.superblock.sectorsPerCluster :=
    Nat.mul_le_mul_right _ (by obtain ⟨hlo, hhi⟩ := hc; omega)
  rw [Nat.succ_mul] at hindex
  apply cluswrite_blit hgeo hc disk src hoffset
  have hbytes := hgeo.bytes
  rw [clusAddr_eq hgeo hc, firstSectorClus_eq hgeo hc]
  rw [NoWrap] at hwrap
  simp only [bsize] at hbytes ⊢
  omega

theorem Linked.getElem?_succ (hlinked : Linked fs disk chain) {k a : ℕ}
    (ha : chain[k]? = some a) (hk : k + 1 < chain.length) :
    chain[k + 1]? = some (fatread fs disk a) := by
  obtain ⟨_, rfl⟩ := List.getElem?_eq_some_iff.mp ha
  rw [List.getElem?_eq_getElem hk, List.isChain_iff_getElem.mp hlinked.next k hk]

/-- The rounds of `filewrite` leave the FAT alone as long as the chain goes on. -/
theorem filewriteLoop_fat (hgeo : Geometry fs) (hwrap : NoWrap fs) (src : ℕ → UInt8)
    {clus offset len n k count : ℕ} (hlinked : Linked fs disk chain)
    (hoffset : offset ≤ fs.sbinfo.bytesPerClus) (hclus : 0 < count → chain[k]? = some clus)
    (hk : k + count ≤ chain.length) :
    ∀ c, InRange fs c →
      fatread fs (filewriteLoop fs src disk clus offset len n count).2 c = fatread fs disk c := by
  induction count generalizing disk clus len k with
  | zero =>
      intro c _
      rfl
  | succ count ih =>
      intro c hc
      have hat := hclus (by omega)
      have hin := hlinked.inRange clus (List.mem_of_getElem? hat)
      simp only [filewriteLoop]
      rw [cluswrite_piece hgeo hwrap hin src hoffset (Nat.min_le_right _ _)]
      have hlinked' := hlinked.blit hgeo clus src offset
        (min ((n + 2 ^ 32 - len) % 2 ^ 32) fs.sbinfo.bytesPerClus)
      rw [ih hlinked' (fun hcount => hlinked'.getElem?_succ hat (by omega)) (by omega) c hc,
        fatread_blit hgeo hc]

/-- The pieces of a write are no more than the clusters that it touches. -/
theorem pieces_le (hgeo : Geometry fs) {off n count : ℕ} (hn : 0 < n)
    (hsum : off + n < 2 ^ 32) (hroom : off + n ≤ count * fs.sbinfo.bytesPerClus) :
    off / fs.sbinfo.bytesPerClus + 1 + filewriteMore fs off n ≤ count := by
  have hmore := filewriteMore_le hn hsum.le (bytesPerClus_pos hgeo)
  have hstart := Nat.div_mul_le_self off fs.sbinfo.bytesPerClus
  have hpieces := Nat.div_mul_le_self (n - 1) fs.sbinfo.bytesPerClus
  have htouch : off / fs.sbinfo.bytesPerClus + (n - 1) / fs.sbinfo.bytesPerClus < count := by
    apply Nat.lt_of_mul_lt_mul_right (a := fs.sbinfo.bytesPerClus)
    rw [Nat.add_mul]
    omega
  omega

/-- What `filewrite` does in a file that is long enough leaves the FAT alone. -/
theorem filewriteRest_fat (hgeo : Geometry fs) (hwrap : NoWrap fs) (src : ℕ → UInt8)
    {off n c : ℕ} (hlinked : Linked fs disk chain) (hn : 0 < n) (hsum : off + n < 2 ^ 32)
    (hroom : off + n ≤ chain.length * fs.sbinfo.bytesPerClus)
    (hc : chain[off / fs.sbinfo.bytesPerClus]? = some c) :
    ∃ ret disk', filewriteRest fs src off n disk file c = (ret, disk', file) ∧
      ∀ d, InRange fs d → fatread fs disk' d = fatread fs disk d := by
  have hin := hlinked.inRange c (List.mem_of_getElem? hc)
  have hoffset := (Nat.mod_lt off (bytesPerClus_pos hgeo)).le
  have hmore := pieces_le hgeo hn hsum hroom
  rw [filewriteRest, if_neg (not_isEof hgeo hin), filewriteFirst,
    cluswrite_piece hgeo hwrap hin src hoffset (by omega)]
  have hlinked' := hlinked.blit hgeo c src (off % fs.sbinfo.bytesPerClus)
    (min n (fs.sbinfo.bytesPerClus - off % fs.sbinfo.bytesPerClus))
  have hkeep := @filewriteLoop_fat fs _ chain hgeo hwrap src (fatread fs _ c)
    (off % fs.sbinfo.bytesPerClus)
    (min n (fs.sbinfo.bytesPerClus - off % fs.sbinfo.bytesPerClus)) n
    (off / fs.sbinfo.bytesPerClus + 1) (filewriteMore fs off n) hlinked' hoffset
    (fun hcount => hlinked'.getElem?_succ hc (by omega)) hmore
  generalize filewriteLoop fs src _ _ _ _ _ _ = result at hkeep ⊢
  obtain ⟨len, disk'⟩ := result
  refine ⟨toInt len, disk', rfl, ?_⟩
  intro d hd
  exact (hkeep d hd).trans (fatread_blit hgeo hd disk src _ _)

/-- A write that makes the file longer, when its extension is exact. -/
theorem filewrite_extends (hgeo : Geometry fs) (hwrap : NoWrap fs) (src : ℕ → UInt8) {off n : ℕ}
    (hcons : Consistent fs disk (before ++ chain :: after))
    (hhead : chain.head? = some file.firstCluster)
    (hexact : chain.length = clusFor fs file.size) (hoff : off ≤ file.size)
    (hgrows : file.size < off + n) (hsum : off + n < 2 ^ 32)
    (henough : clusFor fs (off + n) ≤ chain.length + freeClusters fs disk)
    (hneeds : NeedsAll fs disk file.size (off + n)) :
    ∃ ret disk' chain',
      filewrite fs disk file src off n = some (ret, disk', { file with size := off + n }) ∧
        chain'.head? = some file.firstCluster ∧ chain'.length = clusFor fs (off + n) ∧
        Consistent fs disk' (before ++ chain' :: after) := by
  obtain ⟨disk₁, _, hextend, ⟨added, rfl⟩, hlength, hcons₁⟩ :=
    (extendExact_iff hgeo hcons hhead hexact hgrows.le hsum henough).mpr hneeds
  have hlinked := hcons₁.linked (chain ++ added) (by simp)
  have hhead₁ : (chain ++ added).head? = some file.firstCluster := by
    rw [List.head?_append, hhead]
    rfl
  have hroom : off + n ≤ (chain ++ added).length * fs.sbinfo.bytesPerClus := by
    rw [hlength]
    exact le_clusFor_mul hgeo (off + n)
  have hindex : off / fs.sbinfo.bytesPerClus < (chain ++ added).length := by
    rw [Nat.div_lt_iff_lt_mul (bytesPerClus_pos hgeo)]
    omega
  have hc := List.getElem?_eq_getElem hindex
  obtain ⟨ret, disk', hrest, hfat⟩ :=
    @filewriteRest_fat fs disk₁ _ { file with size := off + n } hgeo hwrap src off n _ hlinked
      (by omega) hsum hroom hc
  refine ⟨ret, disk', chain ++ added, ?_, hhead₁, hlength, hcons₁.frame hfat⟩
  have hgrown : (if file.size < (off + n) % 2 ^ 32
      then fileExtend fs disk file ((off + n) % 2 ^ 32) else some (disk, file)) =
        some (disk₁, { file with size := off + n }) := by
    rw [Nat.mod_eq_of_lt hsum, if_pos hgrows, hextend]
  rw [filewrite_eq hoff (by omega) hgrown, fileGetClusNo,
    getClusNoLoop_eq hgeo hlinked hhead₁ hc, hrest]

/-! ## Sequences of writes -/

/-- A volume with the entries of its files and their chains; the rest are chains of
directories. -/
structure Files where
  disk : Mem
  files : List (Dirent × List ℕ)
  rest : List (List ℕ)

/-- A call of `filewrite`. -/
structure Extending where
  file : Dirent
  chain : List ℕ
  src : ℕ → UInt8
  off : ℕ
  n : ℕ

/-- One write that makes its file longer. -/
def ExtendStep (fs : Filesystem) (state : Files) (write : Extending) (state' : Files) : Prop :=
  ∃ before after ret disk' file' chain',
    state.files = before ++ (write.file, write.chain) :: after ∧
    write.off ≤ write.file.size ∧ write.file.size < write.off + write.n ∧
    write.off + write.n < 2 ^ 32 ∧
    filewrite fs state.disk write.file write.src write.off write.n =
      some (ret, disk', file') ∧
    Linked fs disk' chain' ∧ chain'.head? = some file'.firstCluster ∧
    state' = ⟨disk', before ++ (file', chain') :: after, state.rest⟩

/-- Enough clusters are free, and the extension is exact. -/
def ExtendsExactly (fs : Filesystem) (state : Files) (write : Extending) : Prop :=
  clusFor fs (write.off + write.n) ≤ write.chain.length + freeClusters fs state.disk ∧
    NeedsAll fs state.disk write.file.size (write.off + write.n)

/-- The volume is consistent, and no file has a cluster beyond its size. -/
structure ExactFiles (fs : Filesystem) (state : Files) : Prop where
  consistent : Consistent fs state.disk (state.files.map Prod.snd ++ state.rest)
  head : ∀ f ∈ state.files, f.2.head? = some f.1.firstCluster
  length : ∀ f ∈ state.files, f.2.length = clusFor fs f.1.size

theorem ExactFiles.step (hgeo : Geometry fs) (hwrap : NoWrap fs) {state state' : Files}
    {write : Extending} (hexact : ExactFiles fs state) (hguard : ExtendsExactly fs state write)
    (hstep : ExtendStep fs state write state') : ExactFiles fs state' := by
  obtain ⟨before, after, ret, disk', file', chain', hfiles, hoff, hgrows, hsum, hwrite, hlinked',
    hhead', rfl⟩ := hstep
  obtain ⟨hcons, hhead, hlength⟩ := hexact
  rw [hfiles] at hcons hhead hlength
  rw [List.map_append, List.map_cons, List.append_assoc, List.cons_append] at hcons
  have hmem : (write.file, write.chain) ∈ before ++ (write.file, write.chain) :: after := by simp
  obtain ⟨ret', disk'', grown, hwrite', hgrown, hcount, hcons'⟩ :=
    filewrite_extends hgeo hwrap write.src hcons (hhead _ hmem) (hlength _ hmem) hoff hgrows hsum
      hguard.1 hguard.2
  rw [hwrite'] at hwrite
  simp only [Option.some.injEq, Prod.mk.injEq] at hwrite
  obtain ⟨-, rfl, rfl⟩ := hwrite
  obtain rfl : chain' = grown :=
    hlinked'.eq_of_head hgeo (hcons'.linked grown (by simp)) (hhead'.trans hgrown.symm)
  have hothers : ∀ f ∈ before ++ ({ write.file with size := write.off + write.n }, chain') :: after,
      f = ({ write.file with size := write.off + write.n }, chain') ∨
        f ∈ before ++ (write.file, write.chain) :: after := by
    intro f hf
    simp only [List.mem_append, List.mem_cons] at hf ⊢
    tauto
  refine ⟨?_, ?_, ?_⟩
  · rw [List.map_append, List.map_cons, List.append_assoc, List.cons_append]
    exact hcons'
  · intro f hf
    obtain rfl | hf := hothers f hf
    · exact hgrown
    · exact hhead f hf
  · intro f hf
    obtain rfl | hf := hothers f hf
    · exact hcount
    · exact hlength f hf

/-- The volume with the small file alone. -/
def smallFiles : Files := ⟨smallDisk, [(smallFile, [2])], []⟩

theorem smallFiles_exact : ExactFiles smallVolume smallFiles := by
  refine ⟨smallDisk_consistent, ?_, ?_⟩
  · intro f hf
    obtain rfl := List.mem_singleton.mp hf
    rfl
  · intro f hf
    obtain rfl := List.mem_singleton.mp hf
    decide

/-- Only the clusters of the chain and their entries have changed. -/
def OwnOnly (fs : Filesystem) (disk disk' : Mem) (chain : List ℕ) : Prop :=
  ∀ x, disk' x ≠ disk x → ∃ c ∈ chain,
    (entryAddr fs c ≤ x ∧ x < entryAddr fs c + 4) ∨
      (clusAddr fs c ≤ x ∧ x < clusAddr fs c + fs.sbinfo.bytesPerClus)

/-- The write has failed as it should: it reports so, the file has room for its size, nothing
outside the file was written, and the other files are as they were. -/
def FailsClean (fs : Filesystem) (disk : Mem) (chains : List (List ℕ)) (chain : List ℕ)
    (file : Dirent) (src : ℕ → UInt8) (off n : ℕ) : Prop :=
  ∃ ret disk' file' chain', filewrite fs disk file src off n = some (ret, disk', file') ∧
    ret < n ∧ FileOn fs disk' file' chain' ∧ OwnOnly fs disk disk' chain' ∧
    ∀ other ∈ chains, other ≠ chain → Linked fs disk' other ∧ other.Disjoint chain' ∧
      ∀ size, content fs disk' other size = content fs disk other size

/-- Every cluster is in a chain or free. -/
theorem clusterCnt_le_chains {chains : List (List ℕ)} (hcons : Consistent fs disk chains) :
    fs.sbinfo.clusterCnt ≤ chains.flatten.length + freeClusters fs disk := by
  have hsplit := List.length_eq_countP_add_countP
    (fun i => decide (fatread fs disk (i + 2) = 0)) (l := List.range fs.sbinfo.clusterCnt)
  rw [List.length_range] at hsplit
  have hused : (List.range fs.sbinfo.clusterCnt).countP
      (fun i => decide ¬(decide (fatread fs disk (i + 2) = 0) = true)) ≤
        chains.flatten.length := by
    rw [List.countP_eq_length_filter, ← List.length_map (fun i => i + 2)]
    apply List.Subperm.length_le
    apply List.Nodup.subperm
    · apply List.Nodup.map (fun a b h => by simpa using h)
      exact List.nodup_range.filter _
    · intro c hc
      obtain ⟨i, hi, rfl⟩ := List.mem_map.mp hc
      obtain ⟨hrange, hentry⟩ := List.mem_filter.mp hi
      have hlt := List.mem_range.mp hrange
      by_contra hout
      have hfree := hcons.free (i + 2) ⟨by omega, by omega⟩ hout
      simp [hfree] at hentry
  rw [freeClusters]
  omega

/-- The other chains leave no more clusters to a file than its own and the free ones. -/
theorem length_le_free {chains : List (List ℕ)} (hcons : Consistent fs disk chains)
    (hchain : ChainOf chains file chain) {chain' : List ℕ} (hin : ∀ c ∈ chain', InRange fs c)
    (hnodup : chain'.Nodup)
    (hapart : ∀ other ∈ chains, other ≠ chain → other.Disjoint chain') :
    chain'.length ≤ chain.length + freeClusters fs disk := by
  have htotal := clusterCnt_le_chains hcons
  have hperm : chains.flatten.length = chain.length + (chains.erase chain).flatten.length := by
    obtain ⟨hmem, -⟩ | ⟨rfl, -⟩ := hchain
    · rw [(List.perm_cons_erase hmem).flatten.length_eq, List.flatten_cons, List.length_append]
    · have hnil : [] ∉ chains := fun hmem => (hcons.linked [] hmem).nonempty rfl
      rw [List.erase_of_not_mem hnil, List.length_nil, Nat.zero_add]
  have hsub := (List.erase_sublist (a := chain) (l := chains)).flatten
  have hboth : (chain' ++ (chains.erase chain).flatten).Nodup := by
    rw [List.nodup_append]
    refine ⟨hnodup, hsub.nodup hcons.apart, ?_⟩
    rintro c hc d hd rfl
    obtain ⟨other, hother, hc'⟩ := List.mem_flatten.mp hd
    have hne : other ≠ chain := by
      rintro rfl
      obtain ⟨hmem, -⟩ | ⟨rfl, -⟩ := hchain
      · have happend := (List.perm_cons_erase hmem).flatten.nodup_iff.mp hcons.apart
        rw [List.flatten_cons, List.nodup_append] at happend
        exact happend.2.2 c hc' c hd rfl
      · exact absurd hc' List.not_mem_nil
    exact hapart other (List.mem_of_mem_erase hother) hne hc' hc
  have hrange : ∀ c ∈ chain' ++ (chains.erase chain).flatten, InRange fs c := by
    intro c hc
    obtain hc | hc := List.mem_append.mp hc
    · exact hin c hc
    · obtain ⟨other, hother, hmem⟩ := List.mem_flatten.mp hc
      exact (hcons.linked other (List.mem_of_mem_erase hother)).inRange c hmem
  have hroom := nodup_length_le hrange hboth
  rw [List.length_append] at hroom
  omega

/-- When the clusters do not suffice, no chain has room for the size that the write leaves. -/
theorem not_fileOn_short (hgeo : Geometry fs) {chains : List (List ℕ)}
    (hcons : Consistent fs disk chains) (hchain : ChainOf chains file chain) {off n : ℕ}
    (hoff : off ≤ file.size) (hgrows : file.size < off + n) (hsum : off + n < 2 ^ 32)
    (hfew : chain.length + freeClusters fs disk < clusFor fs (off + n)) {src : ℕ → UInt8}
    {ret : ℤ} {chain' : List ℕ}
    (hwrite : filewrite fs disk file src off n = some (ret, disk', file'))
    (hapart : ∀ other ∈ chains, other ≠ chain → other.Disjoint chain') :
    ¬ FileOn fs disk' file' chain' := by
  intro hfile
  have hpos := bytesPerClus_pos hgeo
  have hsize := filewrite_size hoff (by omega) hwrite
  rw [Nat.mod_eq_of_lt hsum, Nat.max_eq_right hgrows.le] at hsize
  have hcount := length_le_free hcons hchain hfile.linked.inRange hfile.nodup hapart
  have hcovers := hfile.covers
  have hneed : clusFor fs (off + n) ≤ chain'.length := by
    apply Nat.le_of_lt_succ
    rw [clusFor, Nat.div_lt_iff_lt_mul hpos, Nat.succ_mul]
    omega
  omega

/-- A write for which the clusters do not suffice never fails as it should: the size is that of
the whole write, and the file has no room for it. -/
theorem filewrite_not_failsClean (hgeo : Geometry fs) {chains : List (List ℕ)}
    (hcons : Consistent fs disk chains) (hchain : ChainOf chains file chain) {off n : ℕ}
    (hoff : off ≤ file.size) (hgrows : file.size < off + n) (hsum : off + n < 2 ^ 32)
    (hfew : chain.length + freeClusters fs disk < clusFor fs (off + n)) (src : ℕ → UInt8) :
    ¬ FailsClean fs disk chains chain file src off n := by
  rintro ⟨ret, disk', file', chain', hwrite, -, hfile, -, hothers⟩
  exact not_fileOn_short hgeo hcons hchain hoff hgrows hsum hfew hwrite
    (fun other hother hne => (hothers other hother hne).2.1) hfile

theorem smallFile_chainOf : ChainOf [[2]] smallFile [2] := .inl ⟨by simp, rfl⟩

theorem filewrite_smallNoRoom :
    ¬ FailsClean smallVolume smallDisk [[2]] [2] smallFile (fun _ => 7) 100 4000 :=
  filewrite_not_failsClean smallVolume_geometry smallDisk_consistent smallFile_chainOf
    (by decide) (by decide) (by decide) (by decide +kernel) fun _ => 7

/-- A write of 2048 bytes to the small file: four clusters are needed, and three are free. -/
theorem not_failsClean_small :
    ChainOf [[2]] smallFile [2] ∧ freeClusters smallVolume smallDisk = 3 ∧
      clusFor smallVolume (100 + 2048) = [2].length + 4 ∧
      ¬ FailsClean smallVolume smallDisk [[2]] [2] smallFile (fun _ => 7) 100 2048 := by
  have hfew : [2].length + freeClusters smallVolume smallDisk <
      clusFor smallVolume (100 + 2048) := by
    decide +kernel
  refine ⟨smallFile_chainOf, by decide +kernel, by decide, ?_⟩
  rintro ⟨ret, disk', file', chain', hwrite, -, hfile, -, hothers⟩
  exact not_fileOn_short smallVolume_geometry smallDisk_consistent smallFile_chainOf (by decide)
    (by decide) (by decide) hfew hwrite
    (fun other hother hne => (hothers other hother hne).2.1) hfile

end Painting.Fat32
