import Painting.Fs.ClusterBytes

/-!
# The geometry of a volume

What `clusinit` computes from the boot sector.  The data of a cluster is found from the number of the
root directory, which the format does not do: its first cluster is number 2.  The last cluster that
`fatread` and `fatwrite` accept is found from the number of data sectors instead of data clusters.
-/

namespace Painting.Fat32

open Painting.Memory

/-- `struct fat32hder`, with the fields that `clusinit` reads. -/
structure Header where
  bytesPerSector : ℕ
  sectorsPerCluster : ℕ
  reservedSectors : ℕ
  numberFats : ℕ
  largeSectorCount : ℕ
  fatSize : ℕ
  clusterRootDirectory : ℕ

def errCode : ℤ := -1

/-- `clusinit`: its result and the volume. -/
def clusinit (header : Header) : ℤ × Filesystem :=
  let firstDataSector :=
    (header.reservedSectors + header.numberFats * header.fatSize) % 2 ^ 32
  let dataSectorCnt := (header.largeSectorCount + 2 ^ 32 - firstDataSector) % 2 ^ 32
  let fs : Filesystem :=
    { superblock :=
        { bytesPerSector := header.bytesPerSector
          sectorsPerCluster := header.sectorsPerCluster
          reservedSectors := header.reservedSectors
          clusterRootDirectory := header.clusterRootDirectory
          fatSize := header.fatSize }
      sbinfo :=
        { firstDataSector := firstDataSector
          dataSectorCnt := dataSectorCnt
          clusterCnt := dataSectorCnt / header.sectorsPerCluster
          bytesPerClus := header.bytesPerSector * header.sectorsPerCluster } }
  (if bsize ≠ header.bytesPerSector then errCode else 0, fs)

namespace Header

variable (header : Header)

/-- The sectors before the data. -/
def firstData : ℕ := header.reservedSectors + header.numberFats * header.fatSize

/-- The number of data clusters. -/
def clusters : ℕ := (header.largeSectorCount - header.firstData) / header.sectorsPerCluster

/-- The boot sector of a FAT32 volume with sectors of 512 bytes: the FATs have an entry for every
cluster and lie before the data, which ends with the volume, and the root directory starts in a data
cluster. -/
structure Valid : Prop where
  sector : header.bytesPerSector = bsize
  cluster : 0 < header.sectorsPerCluster
  byte : header.sectorsPerCluster < 2 ^ 8
  fats : 0 < header.numberFats
  data : header.firstData ≤ header.largeSectorCount
  large : header.largeSectorCount < 2 ^ 32
  room : (header.clusters + 2) * 4 ≤ header.fatSize * bsize
  marks : header.clusters + 2 ≤ 0x0ffffff8
  root : 2 ≤ header.clusterRootDirectory ∧ header.clusterRootDirectory < header.clusters + 2

end Header

/-! ## What it should compute -/

/-- `fatread` answers for this cluster number. -/
def FatreadAccepts (fs : Filesystem) (cluster : ℕ) : Prop :=
  ∃ disk, fatread fs disk cluster ≠ 0

/-- `fatwrite` writes for this cluster number. -/
def FatwriteAccepts (fs : Filesystem) (cluster : ℕ) : Prop :=
  ∃ disk value, fatwrite fs disk cluster value ≠ disk

/-- Every data cluster has its own sectors among those of the data, in order, and the FAT is read
and written for the data clusters alone. -/
structure Mapped (header : Header) (fs : Filesystem) : Prop where
  place : ∀ c, 2 ≤ c → c < header.clusters + 2 →
    firstSectorClus fs c = header.firstData + (c - 2) * header.sectorsPerCluster
  apart : ∀ c d, 2 ≤ c → c < d → d < header.clusters + 2 →
    firstSectorClus fs c + header.sectorsPerCluster ≤ firstSectorClus fs d
  inside : ∀ c, 2 ≤ c → c < header.clusters + 2 → header.firstData ≤ firstSectorClus fs c ∧
    firstSectorClus fs c + header.sectorsPerCluster ≤ header.largeSectorCount
  reads : ∀ c < 2 ^ 32, FatreadAccepts fs c ↔ 2 ≤ c ∧ c < header.clusters + 2
  writes : ∀ c < 2 ^ 32, FatwriteAccepts fs c ↔ 2 ≤ c ∧ c < header.clusters + 2

/-! ## The range checks -/

section Checks

variable {fs : Filesystem} {cluster : ℕ}

theorem entry_in_sector (fs : Filesystem) (hsector : fs.superblock.bytesPerSector = bsize)
    (cluster : ℕ) : fatEntOffset fs cluster / 4 * 4 + 4 ≤ bsize := by
  rw [fatEntOffset, hsector]
  simp only [bsize]
  omega

theorem fatread_accepts_iff : FatreadAccepts fs cluster ↔ ¬ OutOfRange fs cluster := by
  constructor
  · rintro ⟨disk, hread⟩ hout
    exact hread (if_pos hout)
  · intro hin
    refine ⟨fun _ => 255, ?_⟩
    rw [fatread, if_neg hin]
    simp [load, bread]

theorem fatwrite_accepts_iff (hsector : fs.superblock.bytesPerSector = bsize) :
    FatwriteAccepts fs cluster ↔ ¬ OutOfRange fs cluster := by
  constructor
  · rintro ⟨disk, value, hwrite⟩ hout
    exact hwrite (if_pos hout)
  · intro hin
    refine ⟨fun _ => 0, 1, fun hsame => ?_⟩
    have hfit := entry_in_sector fs hsector cluster
    rw [fatwrite, if_neg hin] at hsame
    dsimp only at hsame
    rw [bwrite_bread, bwrite_store _ hfit] at hsame
    have hbyte := congrFun hsame
      (bsize * sectorNum fs cluster 0 + fatEntOffset fs cluster / 4 * 4)
    rw [store, if_pos (by omega), Nat.sub_self] at hbyte
    exact absurd hbyte (by decide)

end Checks

/-! ## The volume of a valid boot sector -/

namespace Header.Valid

variable {header : Header}

theorem fatSize_pos (hvalid : header.Valid) : 0 < header.fatSize := by
  have hroom := hvalid.room
  by_contra hzero
  rw [Nat.eq_zero_of_not_pos hzero] at hroom
  omega

theorem fat_le (hvalid : header.Valid) :
    header.reservedSectors + header.fatSize ≤ header.firstData := by
  have hone := Nat.mul_le_mul_right header.fatSize hvalid.fats
  rw [Header.firstData]
  omega

theorem firstDataSector_eq (hvalid : header.Valid) :
    (clusinit header).2.sbinfo.firstDataSector = header.firstData := by
  have hdata := hvalid.data
  have hlarge := hvalid.large
  exact Nat.mod_eq_of_lt (show header.firstData < 2 ^ 32 by omega)

theorem dataSectorCnt_eq (hvalid : header.Valid) :
    (clusinit header).2.sbinfo.dataSectorCnt = header.largeSectorCount - header.firstData := by
  have hdata := hvalid.data
  have hlarge := hvalid.large
  show (header.largeSectorCount + 2 ^ 32 - (clusinit header).2.sbinfo.firstDataSector) % 2 ^ 32 = _
  rw [hvalid.firstDataSector_eq]
  omega

theorem clusterCnt_eq (hvalid : header.Valid) :
    (clusinit header).2.sbinfo.clusterCnt = header.clusters := by
  show (clusinit header).2.sbinfo.dataSectorCnt / header.sectorsPerCluster = _
  rw [hvalid.dataSectorCnt_eq, Header.clusters]

theorem bytesPerClus_eq (hvalid : header.Valid) :
    (clusinit header).2.sbinfo.bytesPerClus = bsize * header.sectorsPerCluster := by
  show header.bytesPerSector * header.sectorsPerCluster = _
  rw [hvalid.sector]

theorem clusters_mul_le (hvalid : header.Valid) :
    header.firstData + header.clusters * header.sectorsPerCluster ≤ header.largeSectorCount := by
  have hdata := hvalid.data
  have hmul := Nat.div_mul_le_self (header.largeSectorCount - header.firstData)
    header.sectorsPerCluster
  rw [← Header.clusters] at hmul
  omega

/-- The clusters of the volume are arrays of bytes, wherever the root directory is. -/
theorem sectored (hvalid : header.Valid) : Sectored (clusinit header).2 := by
  have hmul := hvalid.clusters_mul_le
  have hlarge := hvalid.large
  have hroot := hvalid.root
  have hmarks := hvalid.marks
  refine ⟨hvalid.sector, hvalid.bytesPerClus_eq, ?_, ?_⟩
  · show header.clusterRootDirectory < 2 ^ 32
    omega
  · rw [hvalid.clusterCnt_eq]
    show header.clusters * header.sectorsPerCluster ≤ 2 ^ 32
    omega

/-- With the root directory in cluster 2 the geometry is valid. -/
theorem geometry (hvalid : header.Valid) (hroot : header.clusterRootDirectory = 2) :
    Geometry (clusinit header).2 := by
  have hdata := hvalid.data
  have hlarge := hvalid.large
  refine ⟨hvalid.sector, hvalid.cluster, hvalid.byte, hroot, hvalid.fatSize_pos, ?_, ?_, ?_, rfl,
    hvalid.bytesPerClus_eq, ?_⟩
  · rw [hvalid.firstDataSector_eq]
    exact hvalid.fat_le
  · rw [hvalid.clusterCnt_eq]
    exact hvalid.room
  · rw [hvalid.firstDataSector_eq, hvalid.dataSectorCnt_eq]
    omega
  · rw [hvalid.clusterCnt_eq]
    exact hvalid.marks

/-- What the range check of `fatread` and `fatwrite` lets through. -/
theorem not_outOfRange_iff (hvalid : header.Valid) (cluster : ℕ) :
    ¬ OutOfRange (clusinit header).2 cluster ↔ header.clusterRootDirectory ≤ cluster ∧
      cluster ≤ header.largeSectorCount - header.firstData + 1 := by
  have hlarge := hvalid.large
  have hfat := hvalid.fat_le
  have hpos := hvalid.fatSize_pos
  have hroot : (clusinit header).2.superblock.clusterRootDirectory =
      header.clusterRootDirectory := rfl
  rw [OutOfRange, hvalid.dataSectorCnt_eq, hroot, Nat.mod_eq_of_lt (by omega), not_or, not_lt,
    not_lt]

end Header.Valid

/-- `clusinit` computes the right geometry exactly when the root directory is in cluster 2 and a
cluster is a sector. -/
theorem clusinit_mapped_iff {header : Header} (hvalid : header.Valid) :
    Mapped header (clusinit header).2 ↔
      header.clusterRootDirectory = 2 ∧ header.sectorsPerCluster = 1 := by
  have hroot := hvalid.root
  have hcluster := hvalid.cluster
  constructor
  · intro hmapped
    have hlow := (hmapped.reads 2 (by decide)).mpr ⟨le_rfl, by omega⟩
    rw [fatread_accepts_iff, hvalid.not_outOfRange_iff] at hlow
    have hdata : header.clusters + 1 < 2 ^ 32 := by
      have hmarks := hvalid.marks
      omega
    have hlarge := hvalid.large
    have hhigh : ¬ FatreadAccepts (clusinit header).2 (header.clusters + 2) := by
      rw [hmapped.reads _ (by have := hvalid.marks; omega)]
      omega
    rw [fatread_accepts_iff, hvalid.not_outOfRange_iff] at hhigh
    refine ⟨by omega, ?_⟩
    have hmul := hvalid.clusters_mul_le
    by_contra hmore
    have htwo : header.clusters * 2 ≤ header.clusters * header.sectorsPerCluster :=
      Nat.mul_le_mul_left _ (by omega)
    omega
  · rintro ⟨hroot, hone⟩
    have hgeo := hvalid.geometry hroot
    have hcount := hvalid.clusterCnt_eq
    have hmul := hvalid.clusters_mul_le
    have hclusters : header.clusters = header.largeSectorCount - header.firstData := by
      rw [Header.clusters, hone, Nat.div_one]
    have hplace : ∀ c, 2 ≤ c → c < header.clusters + 2 →
        firstSectorClus (clusinit header).2 c =
          header.firstData + (c - 2) * header.sectorsPerCluster := by
      intro c hlo hhi
      rw [firstSectorClus_eq hgeo ⟨hlo, by rwa [hcount]⟩, hvalid.firstDataSector_eq]
      rfl
    have haccepts : ∀ c, ¬ OutOfRange (clusinit header).2 c ↔ 2 ≤ c ∧ c < header.clusters + 2 := by
      intro c
      rw [hvalid.not_outOfRange_iff]
      omega
    refine ⟨hplace, ?_, ?_, ?_, ?_⟩
    · intro c d hlo hlt hhi
      rw [hplace c hlo (by omega), hplace d (by omega) hhi, hone]
      omega
    · intro c hlo hhi
      rw [hplace c hlo hhi, hone]
      rw [hone] at hmul
      omega
    · intro c _
      rw [fatread_accepts_iff, haccepts]
    · intro c _
      rw [fatwrite_accepts_iff hvalid.sector, haccepts]

/-- A volume of six sectors, one of them reserved and one with the FAT. -/
def smallHeader : Header := ⟨512, 1, 1, 1, 6, 1, 2⟩

theorem smallHeader_mapped : Mapped smallHeader (clusinit smallHeader).2 :=
  (clusinit_mapped_iff
    ⟨rfl, by decide, by decide, by decide, by decide, by decide, by decide, by decide, by decide⟩).mpr
    ⟨rfl, rfl⟩

/-- With two sectors a cluster there are two data clusters, 2 and 3, but `fatread` answers for
cluster 4 too. -/
theorem not_mapped_pairs :
    Header.Valid ⟨512, 2, 1, 1, 6, 1, 2⟩ ∧
      ¬ Mapped ⟨512, 2, 1, 1, 6, 1, 2⟩ (clusinit ⟨512, 2, 1, 1, 6, 1, 2⟩).2 := by
  refine ⟨⟨rfl, by decide, by decide, by decide, by decide, by decide, by decide, by decide,
    by decide⟩, fun hmapped => ?_⟩
  have hfour := (hmapped.reads 4 (by decide)).mp (fatread_accepts_iff.mpr (by decide))
  exact absurd hfour.2 (by decide)

end Painting.Fat32
