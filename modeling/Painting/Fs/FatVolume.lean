import Painting.Fs.Fat32

/-!
# Clusters and chains of a FAT32 volume

On a volume of valid geometry the FAT entry of a cluster and the data of a cluster
have fixed places on the disk, which do not overlap.  The operations on clusters
are then plain reads and writes at these places.
-/

namespace Painting.Fat32

open Painting.Memory

/-! ## Blocks -/

theorem bwrite_bread (disk : Mem) (blockno : ℕ) :
    bwrite disk blockno (bread disk blockno) = disk := by
  funext x
  simp only [bwrite, bread, blit]
  split
  · congr 1
    omega
  · rfl

theorem bwrite_blit (disk : Mem) {blockno offset count : ℕ} {src : ℕ → UInt8}
    (hfit : offset + count ≤ bsize) :
    bwrite disk blockno (blit (bread disk blockno) offset src count) =
      blit disk (bsize * blockno + offset) src count := by
  funext x
  simp only [bwrite, bread, blit]
  by_cases hin : bsize * blockno + offset ≤ x ∧ x < bsize * blockno + offset + count
  · rw [if_pos (by omega), if_pos (by omega), if_pos hin]
    congr 1
    omega
  · rw [if_neg hin]
    split
    · rw [if_neg (by omega)]
      congr 1
      omega
    · rfl

theorem bwrite_fill (disk : Mem) (blockno : ℕ) :
    bwrite disk blockno (fill (bread disk blockno) 0 0 bsize) =
      fill disk (bsize * blockno) 0 bsize := by
  funext x
  simp only [bwrite, blit, fill]
  split
  · rw [if_pos (by omega)]
  · rfl

theorem bwrite_store (disk : Mem) {blockno offset width value : ℕ}
    (hfit : offset + width ≤ bsize) :
    bwrite disk blockno (store (bread disk blockno) offset width value) =
      store disk (bsize * blockno + offset) width value := by
  funext x
  simp only [bwrite, bread, blit, store]
  by_cases hin : bsize * blockno + offset ≤ x ∧ x < bsize * blockno + offset + width
  · rw [if_pos (by omega), if_pos (by omega), if_pos hin]
    congr 3
    omega
  · rw [if_neg hin]
    split
    · rw [if_neg (by omega)]
      congr 1
      omega
    · rfl

theorem load_bread (disk : Mem) (blockno offset width : ℕ) :
    load (bread disk blockno) offset width = load disk (bsize * blockno + offset) width := by
  induction width generalizing offset with
  | zero => rfl
  | succ width ih => rw [load, load, ih, bread, Nat.add_assoc]

/-- A small count is itself as an `int`. -/
theorem toInt_of_lt {x : ℕ} (hx : x < 2 ^ 31) : toInt x = x := by
  rw [toInt, Nat.mod_eq_of_lt (by omega), if_pos hx]

/-! ## Geometry -/

/-- The geometry that `clusinit` computes from a valid boot sector with the root
directory in cluster 2: at least one FAT, large enough for every cluster, lies
between the reserved sectors and the data. -/
structure Geometry (fs : Filesystem) : Prop where
  sector : fs.superblock.bytesPerSector = bsize
  cluster : 0 < fs.superblock.sectorsPerCluster
  byte : fs.superblock.sectorsPerCluster < 2 ^ 8
  root : fs.superblock.clusterRootDirectory = 2
  fatPos : 0 < fs.superblock.fatSize
  fat : fs.superblock.reservedSectors + fs.superblock.fatSize ≤ fs.sbinfo.firstDataSector
  room : (fs.sbinfo.clusterCnt + 2) * 4 ≤ fs.superblock.fatSize * bsize
  total : fs.sbinfo.firstDataSector + fs.sbinfo.dataSectorCnt < 2 ^ 32
  count : fs.sbinfo.clusterCnt = fs.sbinfo.dataSectorCnt / fs.superblock.sectorsPerCluster
  bytes : fs.sbinfo.bytesPerClus = bsize * fs.superblock.sectorsPerCluster
  marks : fs.sbinfo.clusterCnt + 2 ≤ 0x0ffffff8

/-- The numbers of data clusters. -/
def InRange (fs : Filesystem) (cluster : ℕ) : Prop :=
  2 ≤ cluster ∧ cluster < fs.sbinfo.clusterCnt + 2

/-- Where the FAT entry of a cluster is on the disk. -/
def entryAddr (fs : Filesystem) (cluster : ℕ) : ℕ :=
  bsize * fs.superblock.reservedSectors + 4 * cluster

/-- Where the data of a cluster is on the disk. -/
def clusAddr (fs : Filesystem) (cluster : ℕ) : ℕ :=
  bsize * fs.sbinfo.firstDataSector + fs.sbinfo.bytesPerClus * (cluster - 2)

variable {fs : Filesystem}

theorem clusterCnt_mul_le (hgeo : Geometry fs) :
    fs.sbinfo.clusterCnt * fs.superblock.sectorsPerCluster ≤ fs.sbinfo.dataSectorCnt := by
  rw [hgeo.count]
  exact Nat.div_mul_le_self _ _

theorem clusterCnt_le (hgeo : Geometry fs) : fs.sbinfo.clusterCnt ≤ fs.sbinfo.dataSectorCnt := by
  rw [hgeo.count]
  exact Nat.div_le_self _ _

theorem not_outOfRange (hgeo : Geometry fs) {cluster : ℕ} (hin : InRange fs cluster) :
    ¬ OutOfRange fs cluster := by
  have hle := clusterCnt_le hgeo
  have htotal := hgeo.total
  have hdata : 0 < fs.sbinfo.firstDataSector := by
    have hfat := hgeo.fat
    have hpos := hgeo.fatPos
    omega
  obtain ⟨hlo, hhi⟩ := hin
  rw [OutOfRange, hgeo.root, Nat.mod_eq_of_lt (by omega)]
  omega

/-- A cluster number is not an end mark. -/
theorem not_isEof (hgeo : Geometry fs) {cluster : ℕ} (hin : InRange fs cluster) :
    ¬ IsEof cluster := by
  have hmarks := hgeo.marks
  obtain ⟨_, hhi⟩ := hin
  rintro ⟨hlo, _⟩
  omega

theorem entry_place (hgeo : Geometry fs) {cluster : ℕ} (hin : InRange fs cluster) :
    bsize * sectorNum fs cluster 0 + fatEntOffset fs cluster / 4 * 4 = entryAddr fs cluster ∧
      fatEntOffset fs cluster / 4 * 4 + 4 ≤ bsize := by
  have hroom := hgeo.room
  have hfat := hgeo.fat
  have htotal := hgeo.total
  have hmarks := hgeo.marks
  obtain ⟨_, hhi⟩ := hin
  simp only [sectorNum, fatEntOffset, entryAddr, hgeo.sector, Nat.zero_mul, Nat.add_zero]
  simp only [bsize] at *
  rw [Nat.mod_eq_of_lt (show cluster * 4 < 2 ^ 32 by omega),
    Nat.mod_eq_of_lt (show fs.superblock.reservedSectors + cluster * 4 / 512 < 2 ^ 32 by omega)]
  omega

theorem fatread_eq (hgeo : Geometry fs) {cluster : ℕ} (hin : InRange fs cluster) (disk : Mem) :
    fatread fs disk cluster = load disk (entryAddr fs cluster) 4 := by
  rw [fatread, if_neg (not_outOfRange hgeo hin), load_bread, (entry_place hgeo hin).1]

theorem fatwrite_eq (hgeo : Geometry fs) {cluster : ℕ} (hin : InRange fs cluster) (disk : Mem)
    (nextNo : ℕ) :
    fatwrite fs disk cluster nextNo = store disk (entryAddr fs cluster) 4 nextNo := by
  rw [fatwrite, if_neg (not_outOfRange hgeo hin)]
  simp only [bwrite_bread, bwrite_store disk (entry_place hgeo hin).2, (entry_place hgeo hin).1]

/-- The sectors of a cluster are on the volume. -/
theorem cluster_sectors (hgeo : Geometry fs) {cluster : ℕ} (hin : InRange fs cluster) :
    fs.sbinfo.firstDataSector + (cluster - 2) * fs.superblock.sectorsPerCluster +
      fs.superblock.sectorsPerCluster < 2 ^ 32 := by
  obtain ⟨hlo, hhi⟩ := hin
  have hmul := clusterCnt_mul_le hgeo
  have htotal := hgeo.total
  have hstep : (cluster - 2 + 1) * fs.superblock.sectorsPerCluster ≤
      fs.sbinfo.clusterCnt * fs.superblock.sectorsPerCluster :=
    Nat.mul_le_mul_right _ (by omega)
  rw [Nat.add_mul, Nat.one_mul] at hstep
  omega

theorem firstSectorClus_eq (hgeo : Geometry fs) {cluster : ℕ} (hin : InRange fs cluster) :
    firstSectorClus fs cluster =
      fs.sbinfo.firstDataSector + (cluster - 2) * fs.superblock.sectorsPerCluster := by
  have hsectors := cluster_sectors hgeo hin
  have hmarks := hgeo.marks
  obtain ⟨hlo, hhi⟩ := hin
  have hdiff : (cluster + 2 ^ 32 - 2) % 2 ^ 32 = cluster - 2 := by omega
  rw [firstSectorClus, hgeo.root, hdiff, Nat.mod_eq_of_lt (by omega)]

theorem clusAddr_eq (hgeo : Geometry fs) {cluster : ℕ} (hin : InRange fs cluster) :
    clusAddr fs cluster = bsize * firstSectorClus fs cluster := by
  rw [clusAddr, firstSectorClus_eq hgeo hin, hgeo.bytes]
  ring

theorem clusAddr_le (hgeo : Geometry fs) {cluster : ℕ} (hin : InRange fs cluster) :
    clusAddr fs cluster + fs.sbinfo.bytesPerClus ≤ bsize * 2 ^ 32 := by
  have hsectors := cluster_sectors hgeo hin
  rw [← firstSectorClus_eq hgeo hin] at hsectors
  rw [clusAddr_eq hgeo hin, hgeo.bytes, ← Nat.mul_add]
  exact Nat.mul_le_mul_left _ hsectors.le

/-! ## The data of a cluster -/

/-- Two pieces side by side are one piece. -/
theorem blit_blit (disk : Mem) {addr first rest : ℕ} {src : ℕ → UInt8} :
    blit (blit disk addr src first) (addr + first) (fun k => src (first + k)) rest =
      blit disk addr src (first + rest) := by
  funext x
  simp only [blit]
  by_cases hrest : addr + first ≤ x ∧ x < addr + first + rest
  · rw [if_pos hrest, if_pos (by omega)]
    congr 1
    omega
  · rw [if_neg hrest]
    by_cases hfirst : addr ≤ x ∧ x < addr + first
    · rw [if_pos hfirst, if_pos (by omega)]
    · rw [if_neg hfirst, if_neg (by omega)]

theorem fill_fill (disk : Mem) {addr first rest : ℕ} {value : UInt8} :
    fill (fill disk addr value first) (addr + first) value rest =
      fill disk addr value (first + rest) := by
  funext x
  simp only [fill]
  by_cases hrest : addr + first ≤ x ∧ x < addr + first + rest
  · rw [if_pos hrest, if_pos (by omega)]
  · rw [if_neg hrest]
    by_cases hfirst : addr ≤ x ∧ x < addr + first
    · rw [if_pos hfirst, if_pos (by omega)]
    · rw [if_neg hfirst, if_neg (by omega)]

theorem cluszeroLoop_eq (hgeo : Geometry fs) (disk : Mem) {idx count : ℕ}
    (hfit : idx + count < 2 ^ 32) :
    cluszeroLoop fs disk idx count = fill disk (bsize * idx) 0 (bsize * count) := by
  induction count generalizing disk idx with
  | zero =>
      funext x
      rw [cluszeroLoop, fill, if_neg (by omega)]
  | succ count ih =>
      rw [cluszeroLoop, hgeo.sector, bwrite_fill, Nat.mod_eq_of_lt (by omega),
        ih _ (by omega), Nat.mul_succ, fill_fill, Nat.add_comm, Nat.mul_succ]

theorem cluszero_eq (hgeo : Geometry fs) {cluster : ℕ} (hin : InRange fs cluster) (disk : Mem) :
    cluszero fs disk cluster = fill disk (clusAddr fs cluster) 0 fs.sbinfo.bytesPerClus := by
  have hsectors := cluster_sectors hgeo hin
  rw [cluszero, cluszeroLoop_eq hgeo disk, clusAddr_eq hgeo hin, hgeo.bytes]
  rw [firstSectorClus_eq hgeo hin]
  exact hsectors

theorem blit_zero (disk : Mem) (addr : ℕ) (src : ℕ → UInt8) : blit disk addr src 0 = disk := by
  funext x
  rw [blit, if_neg (by omega)]

theorem cluswriteLoop_eq (hgeo : Geometry fs) (src : ℕ → UInt8) (disk : Mem)
    {secNo writeLen n rounds : ℕ} (hrounds : n - writeLen ≤ rounds)
    (hfit : bsize * secNo + (n - writeLen) ≤ bsize * 2 ^ 32) :
    cluswriteLoop fs src disk secNo writeLen n rounds =
      blit disk (bsize * secNo) (fun k => src (writeLen + k)) (n - writeLen) := by
  induction rounds generalizing disk secNo writeLen with
  | zero =>
      rw [cluswriteLoop, show n - writeLen = 0 by omega, blit_zero]
  | succ rounds ih =>
      rw [cluswriteLoop]
      by_cases hmore : writeLen < n
      · simp only [if_pos hmore, hgeo.sector]
        rw [bwrite_blit disk (by omega), Nat.add_zero]
        by_cases hlast : n - writeLen ≤ bsize
        · have hdone : writeLen + (n - writeLen) = n := by omega
          rw [Nat.min_eq_right hlast, ih _ (by omega), hdone, Nat.sub_self, blit_zero]
          have hwrap : (secNo + 1) % 2 ^ 32 < 2 ^ 32 := Nat.mod_lt _ (by decide)
          rw [hdone, Nat.sub_self]
          simp only [bsize]
          omega
        · have hlen : min bsize (n - writeLen) = bsize := Nat.min_eq_left (by omega)
          have hrest : n - writeLen = bsize + (n - (writeLen + bsize)) := by omega
          have hnext : (secNo + 1) % 2 ^ 32 = secNo + 1 := by
            apply Nat.mod_eq_of_lt
            simp only [bsize] at *
            omega
          have haddr : bsize * (secNo + 1) = bsize * secNo + bsize := Nat.mul_succ _ _
          have hfit' : bsize * (secNo + 1) + (n - (writeLen + bsize)) ≤ bsize * 2 ^ 32 := by
            omega
          rw [hlen, hnext, ih _ (by simp only [bsize] at *; omega) hfit', haddr, hrest]
          simp only [Nat.add_assoc writeLen]
          exact blit_blit disk
      · rw [if_neg hmore, show n - writeLen = 0 by omega, blit_zero]

/-- The place of a byte of a cluster, from its sector and the offset in it. -/
theorem cluster_place (hgeo : Geometry fs) {cluster offset : ℕ} (hin : InRange fs cluster)
    (hfit : offset ≤ fs.sbinfo.bytesPerClus) :
    (firstSectorClus fs cluster + offset / bsize) % 2 ^ 32 =
        firstSectorClus fs cluster + offset / bsize ∧
      bsize * (firstSectorClus fs cluster + offset / bsize) + offset % bsize =
        clusAddr fs cluster + offset ∧
      firstSectorClus fs cluster + fs.superblock.sectorsPerCluster < 2 ^ 32 ∧
      offset / bsize ≤ fs.superblock.sectorsPerCluster := by
  have hsectors := cluster_sectors hgeo hin
  rw [← firstSectorClus_eq hgeo hin] at hsectors
  have hdiv : offset / bsize ≤ fs.superblock.sectorsPerCluster := by
    apply Nat.div_le_of_le_mul
    rw [← hgeo.bytes]
    exact hfit
  refine ⟨?_, ?_, hsectors, hdiv⟩
  · rw [Nat.mod_eq_of_lt (by omega)]
  · rw [clusAddr_eq hgeo hin, Nat.mul_add, Nat.add_assoc, Nat.div_add_mod]

/-- A write from inside a cluster on, as long as the sectors have 32-bit numbers. -/
theorem cluswrite_blit (hgeo : Geometry fs) {cluster : ℕ} (hin : InRange fs cluster) (disk : Mem)
    {offset n : ℕ} (src : ℕ → UInt8) (hoffset : offset ≤ fs.sbinfo.bytesPerClus)
    (hend : clusAddr fs cluster + offset + n ≤ bsize * 2 ^ 32) :
    cluswrite fs disk cluster offset src n =
      blit disk (clusAddr fs cluster + offset) src n := by
  obtain ⟨hsector, hplace, hsectors, _⟩ := cluster_place hgeo hin hoffset
  have hoff : offset % bsize < bsize := Nat.mod_lt _ (by decide)
  simp only [cluswrite, hgeo.sector, hsector]
  rw [bwrite_blit disk (by omega), hplace]
  by_cases hone : min (bsize - offset % bsize) n = n
  · rw [if_pos hone, hone]
  · rw [if_neg hone]
    have hlen : min (bsize - offset % bsize) n = bsize - offset % bsize := by omega
    have haddr : bsize * (firstSectorClus fs cluster + offset / bsize + 1) =
        clusAddr fs cluster + offset + (bsize - offset % bsize) := by
      rw [← hplace, Nat.mul_succ]
      omega
    have hnext : (firstSectorClus fs cluster + offset / bsize + 1) % 2 ^ 32 =
        firstSectorClus fs cluster + offset / bsize + 1 := by
      apply Nat.mod_eq_of_lt
      apply Nat.lt_of_mul_lt_mul_left (a := bsize)
      omega
    have hsum : bsize - offset % bsize + (n - (bsize - offset % bsize)) = n := by omega
    rw [hlen, hnext, cluswriteLoop_eq hgeo src _ (by omega) (by omega), haddr, blit_blit disk,
      hsum]

theorem cluswrite_eq (hgeo : Geometry fs) {cluster : ℕ} (hin : InRange fs cluster) (disk : Mem)
    {offset n : ℕ} (src : ℕ → UInt8) (hfit : offset + n ≤ fs.sbinfo.bytesPerClus) :
    cluswrite fs disk cluster offset src n =
      blit disk (clusAddr fs cluster + offset) src n := by
  have hend := clusAddr_le hgeo hin
  exact cluswrite_blit hgeo hin disk src (by omega) (by omega)

theorem clusreadLoop_eq (hgeo : Geometry fs) (disk : Mem) {secNo readLen n rounds : ℕ}
    (hrounds : n - readLen ≤ rounds) (hfit : bsize * secNo + (n - readLen) ≤ bsize * 2 ^ 32) :
    clusreadLoop fs disk secNo readLen n rounds =
      (List.range (n - readLen)).map fun k => disk (bsize * secNo + k) := by
  induction rounds generalizing secNo readLen with
  | zero => rw [clusreadLoop, show n - readLen = 0 by omega, List.range_zero, List.map_nil]
  | succ rounds ih =>
      rw [clusreadLoop]
      by_cases hmore : readLen < n
      · simp only [if_pos hmore, hgeo.sector]
        by_cases hlast : n - readLen ≤ bsize
        · have hdone : readLen + (n - readLen) = n := by omega
          have hwrap : (secNo + 1) % 2 ^ 32 < 2 ^ 32 := Nat.mod_lt _ (by decide)
          have hfit' : bsize * ((secNo + 1) % 2 ^ 32) + (n - n) ≤ bsize * 2 ^ 32 := by
            rw [Nat.sub_self, Nat.add_zero]
            exact Nat.mul_le_mul_left _ hwrap.le
          have hrest := ih (show n - n ≤ rounds by omega) hfit'
          rw [Nat.sub_self, List.range_zero, List.map_nil] at hrest
          simp only [Nat.min_eq_right hlast, hdone, hrest, List.append_nil]
          apply List.map_congr_left
          intro k _
          rw [bread]
        · have hlen : min bsize (n - readLen) = bsize := Nat.min_eq_left (by omega)
          have hrest : n - readLen = bsize + (n - (readLen + bsize)) := by omega
          have hnext : (secNo + 1) % 2 ^ 32 = secNo + 1 := by
            apply Nat.mod_eq_of_lt
            simp only [bsize] at *
            omega
          have haddr : bsize * (secNo + 1) = bsize * secNo + bsize := Nat.mul_succ _ _
          have hfit' : bsize * (secNo + 1) + (n - (readLen + bsize)) ≤ bsize * 2 ^ 32 := by
            omega
          rw [hlen, hnext, ih (by simp only [bsize] at *; omega) hfit', hrest, List.range_add,
            List.map_append, List.map_map]
          refine congrArg₂ _ (List.map_congr_left fun k _ => ?_) (List.map_congr_left fun k _ => ?_)
          · rw [bread]
          · simp only [Function.comp_apply, haddr, Nat.add_assoc]
      · rw [if_neg hmore, show n - readLen = 0 by omega, List.range_zero, List.map_nil]

theorem clusread_eq (hgeo : Geometry fs) {cluster : ℕ} (hin : InRange fs cluster) (disk : Mem)
    {offset n : ℕ} (hfit : offset + n ≤ fs.sbinfo.bytesPerClus) :
    clusread fs disk cluster offset n =
      (List.range n).map fun k => disk (clusAddr fs cluster + offset + k) := by
  obtain ⟨hsector, hplace, hsectors, _⟩ :=
    cluster_place hgeo hin (show offset ≤ fs.sbinfo.bytesPerClus by omega)
  have hoff : offset % bsize < bsize := Nat.mod_lt _ (by decide)
  have hbyte : ∀ k, bread disk (firstSectorClus fs cluster + offset / bsize) (offset % bsize + k) =
      disk (clusAddr fs cluster + offset + k) := by
    intro k
    rw [bread, ← hplace, Nat.add_assoc]
  simp only [clusread, hgeo.sector, hsector, hbyte]
  by_cases hone : min (bsize - offset % bsize) n = n
  · rw [if_pos hone, hone]
  · rw [if_neg hone]
    have hlen : min (bsize - offset % bsize) n = bsize - offset % bsize := by omega
    have hbound : (offset + n) / bsize ≤ fs.superblock.sectorsPerCluster := by
      apply Nat.div_le_of_le_mul
      rw [← hgeo.bytes]
      exact hfit
    have hnext : (firstSectorClus fs cluster + offset / bsize + 1) % 2 ^ 32 =
        firstSectorClus fs cluster + offset / bsize + 1 := by
      apply Nat.mod_eq_of_lt
      simp only [bsize] at *
      omega
    have haddr : bsize * (firstSectorClus fs cluster + offset / bsize + 1) =
        clusAddr fs cluster + offset + (bsize - offset % bsize) := by
      rw [← hplace, Nat.mul_succ]
      omega
    have hsum : n = bsize - offset % bsize + (n - (bsize - offset % bsize)) := by omega
    have hend := clusAddr_le hgeo hin
    rw [hlen, hnext, clusreadLoop_eq hgeo disk (by omega) (by omega), haddr]
    conv_rhs => rw [hsum, List.range_add, List.map_append, List.map_map]
    congr 1
    apply List.map_congr_left
    intro k _
    simp only [Function.comp_apply, Nat.add_assoc]

end Painting.Fat32
