import Painting.Fs.FatChains

/-!
# The second FAT

`fatwrite` reads the second FAT's sector, but stores the entry in the buffer of the
first one again, so the second FAT never changes.  The two FATs stay equal exactly
as long as the entries written are those already there.
-/

namespace Painting.Fat32

open Painting.Memory Painting.Transition

variable {fs : Filesystem}

/-- Where the two FATs start on the disk. -/
def firstFat (fs : Filesystem) : ℕ := bsize * fs.superblock.reservedSectors

def secondFat (fs : Filesystem) : ℕ :=
  bsize * (fs.superblock.reservedSectors + fs.superblock.fatSize)

/-- The FATs are equal, byte for byte. -/
def Mirror (fs : Filesystem) (disk : Mem) : Prop :=
  ∀ x, x < bsize * fs.superblock.fatSize → disk (secondFat fs + x) = disk (firstFat fs + x)

/-- Calls that write the FAT. -/
inductive FatCall
  | fatwrite (clusterNo nextNo : ℕ)
  | clusalloc (prevNo : ℕ)
  | clusfree (clusNo prevNo : ℕ)

/-- The arguments are in range; a `prevNo` of 0 stands for no cluster. -/
def FatCall.InRange (fs : Filesystem) : FatCall → Prop
  | .fatwrite clusterNo nextNo => Fat32.InRange fs clusterNo ∧ nextNo < 2 ^ 32
  | .clusalloc prevNo => prevNo = 0 ∨ Fat32.InRange fs prevNo
  | .clusfree clusNo prevNo =>
      Fat32.InRange fs clusNo ∧ (prevNo = 0 ∨ Fat32.InRange fs prevNo)

def FatCall.run (fs : Filesystem) (disk : Mem) : FatCall → Mem
  | .fatwrite clusterNo nextNo => Fat32.fatwrite fs disk clusterNo nextNo
  | .clusalloc prevNo => (Fat32.clusalloc fs disk prevNo).2
  | .clusfree clusNo prevNo => Fat32.clusfree fs disk clusNo prevNo

def FatStep (fs : Filesystem) (disk : Mem) (call : FatCall) (after : Mem) : Prop :=
  call.InRange fs ∧ after = call.run fs disk

/-- The call leaves the first FAT as it is: the entry written is the one there, no
cluster is free to allocate, the cluster freed is free already. -/
def KeepsEntries (fs : Filesystem) (disk : Mem) : FatCall → Prop
  | .fatwrite clusterNo nextNo => fatread fs disk clusterNo = nextNo
  | .clusalloc _ => ∀ c, Fat32.InRange fs c → fatread fs disk c ≠ 0
  | .clusfree clusNo prevNo =>
      fatread fs disk clusNo = 0 ∧
        (prevNo = 0 ∨ prevNo = clusNo ∨ fatread fs disk prevNo = eof)

/-- Two FATs lie before the data. -/
def TwoFats (fs : Filesystem) : Prop :=
  fs.superblock.reservedSectors + 2 * fs.superblock.fatSize ≤ fs.sbinfo.firstDataSector

/-! ## The second FAT never changes -/

/-- Nothing between the first FAT and the data has changed. -/
def SecondSame (fs : Filesystem) (disk disk' : Mem) : Prop :=
  AgreeOn disk disk' (secondFat fs) (bsize * fs.sbinfo.firstDataSector)

theorem fatwrite_second (hgeo : Geometry fs) {cluster : ℕ} (hin : InRange fs cluster)
    (disk : Mem) (value : ℕ) : SecondSame fs disk (fatwrite fs disk cluster value) := by
  have hentry := entryAddr_le hgeo hin
  rw [SecondSame, fatwrite_eq hgeo hin]
  exact store_agreeOn disk (.inr hentry)

theorem cluszero_second (hgeo : Geometry fs) {cluster : ℕ} (hin : InRange fs cluster)
    (disk : Mem) : SecondSame fs disk (cluszero fs disk cluster) :=
  (cluszero_fat hgeo hin disk).mono (Nat.zero_le _) le_rfl

theorem prev_second (hgeo : Geometry fs) {prevNo : ℕ} (hprev : prevNo = 0 ∨ InRange fs prevNo)
    (disk : Mem) (value : ℕ) :
    SecondSame fs disk (if prevNo ≠ 0 then fatwrite fs disk prevNo value else disk) := by
  split
  · rename_i hne
    exact fatwrite_second hgeo (hprev.resolve_left hne) disk value
  · exact AgreeOn.refl disk _ _

theorem run_second (hgeo : Geometry fs) {call : FatCall} (hin : call.InRange fs) (disk : Mem) :
    SecondSame fs disk (call.run fs disk) := by
  cases call with
  | fatwrite clusterNo nextNo => exact fatwrite_second hgeo hin.1 disk nextNo
  | clusalloc prevNo =>
      simp only [FatCall.run, Fat32.clusalloc, scan_count hgeo]
      cases hfound : findFree fs disk 2 fs.sbinfo.clusterCnt with
      | none => exact AgreeOn.refl disk _ _
      | some n =>
          obtain ⟨hlo, hhi, _⟩ := findFree_some hfound
          have hn : InRange fs n := ⟨hlo, by omega⟩
          exact ((prev_second hgeo hin disk n).trans (fatwrite_second hgeo hn _ eof)).trans
            (cluszero_second hgeo hn _)
  | clusfree clusNo prevNo =>
      exact (prev_second hgeo hin.2 disk eof).trans (fatwrite_second hgeo hin.1 _ 0)

/-! ## The first FAT changes with its entries -/

/-- The first FAT is unchanged. -/
def FirstSame (fs : Filesystem) (disk disk' : Mem) : Prop :=
  AgreeOn disk disk' (firstFat fs) (secondFat fs)

/-- As the second FAT stays, the FATs stay equal exactly when the first one stays. -/
theorem mirror_iff (htwo : TwoFats fs) {disk disk' : Mem} (hmirror : Mirror fs disk)
    (hsecond : SecondSame fs disk disk') : Mirror fs disk' ↔ FirstSame fs disk disk' := by
  have hsize : secondFat fs = firstFat fs + bsize * fs.superblock.fatSize := Nat.mul_add _ _ _
  have hend : secondFat fs + bsize * fs.superblock.fatSize ≤ bsize * fs.sbinfo.firstDataSector := by
    rw [secondFat, ← Nat.mul_add]
    apply Nat.mul_le_mul_left
    have htwo := htwo
    rw [TwoFats] at htwo
    omega
  constructor
  · intro hmirror' x hlo hhi
    have hx : x - firstFat fs < bsize * fs.superblock.fatSize := by omega
    have hplace : firstFat fs + (x - firstFat fs) = x := by omega
    have hafter := hmirror' _ hx
    have hbefore := hmirror _ hx
    rw [hplace] at hafter hbefore
    rw [← hafter, ← hbefore]
    exact hsecond _ (by omega) (by omega)
  · intro hfirst x hx
    calc disk' (secondFat fs + x)
        = disk (secondFat fs + x) := hsecond _ (by omega) (by omega)
      _ = disk (firstFat fs + x) := hmirror x hx
      _ = disk' (firstFat fs + x) := (hfirst _ (by omega) (by omega)).symm

theorem fatread_of_firstSame (hgeo : Geometry fs) {disk disk' : Mem}
    (hfirst : FirstSame fs disk disk') {cluster : ℕ} (hin : InRange fs cluster) :
    fatread fs disk' cluster = fatread fs disk cluster := by
  have hentry := entryAddr_le hgeo hin
  rw [fatread_eq hgeo hin, fatread_eq hgeo hin]
  exact (hfirst.mono (Nat.le_add_right _ _) hentry).load_eq

/-- Writing the entry that is there changes nothing. -/
theorem fatwrite_same (hgeo : Geometry fs) {cluster value : ℕ} (hin : InRange fs cluster)
    {disk : Mem} (hentry : fatread fs disk cluster = value) :
    fatwrite fs disk cluster value = disk := by
  rw [fatwrite_eq hgeo hin, ← hentry, fatread_eq hgeo hin, store_load]

theorem clusalloc_first (hgeo : Geometry fs) (prevNo : ℕ) (disk : Mem) :
    FirstSame fs disk (clusalloc fs disk prevNo).2 ↔
      ∀ c, InRange fs c → fatread fs disk c ≠ 0 := by
  simp only [clusalloc, scan_count hgeo]
  cases hfound : findFree fs disk 2 fs.sbinfo.clusterCnt with
  | none =>
      refine ⟨fun _ c hc => ?_, fun _ => AgreeOn.refl disk _ _⟩
      have hhi := hc.2
      exact findFree_none hfound hc.1 (by omega)
  | some n =>
      obtain ⟨hlo, hhi, hfree⟩ := findFree_some hfound
      have hn : InRange fs n := ⟨hlo, by omega⟩
      refine ⟨fun hfirst => ?_, fun hnone => (hnone n hn hfree).elim⟩
      have hentry := fatread_of_firstSame hgeo hfirst hn
      rw [fatread_of_data hgeo hn (cluszero_fat hgeo hn _),
        fatread_fatwrite hgeo hn hn (by decide), if_pos rfl, hfree] at hentry
      exact absurd hentry (by decide)

theorem clusfree_first (hgeo : Geometry fs) {clusNo prevNo : ℕ} (hclus : InRange fs clusNo)
    (hprev : prevNo = 0 ∨ InRange fs prevNo) (disk : Mem) :
    FirstSame fs disk (clusfree fs disk clusNo prevNo) ↔
      fatread fs disk clusNo = 0 ∧
        (prevNo = 0 ∨ prevNo = clusNo ∨ fatread fs disk prevNo = eof) := by
  constructor
  · intro hfirst
    have hfreed := fatread_of_firstSame hgeo hfirst hclus
    rw [clusfree, fatread_fatwrite hgeo hclus hclus (by decide), if_pos rfl] at hfreed
    refine ⟨hfreed.symm, ?_⟩
    by_cases hzero : prevNo = 0
    · exact .inl hzero
    by_cases hsame : prevNo = clusNo
    · exact .inr (.inl hsame)
    have hin := hprev.resolve_left hzero
    have hended := fatread_of_firstSame hgeo hfirst hin
    rw [clusfree, fatread_fatwrite hgeo hclus hin (by decide), if_neg hsame, if_pos hzero,
      fatread_fatwrite hgeo hin hin (by decide), if_pos rfl] at hended
    exact .inr (.inr hended.symm)
  · rintro ⟨hfreed, hcases⟩
    suffices hunchanged : clusfree fs disk clusNo prevNo = disk by
      rw [hunchanged]
      exact AgreeOn.refl disk _ _
    rw [clusfree]
    by_cases hzero : prevNo = 0
    · rw [if_neg (by simpa using hzero), fatwrite_same hgeo hclus hfreed]
    rw [if_pos hzero]
    obtain hsame | hended := hcases.resolve_left hzero
    · rw [hsame, fatwrite_eq hgeo hclus, fatwrite_eq hgeo hclus, store_store,
        ← fatwrite_eq hgeo hclus, fatwrite_same hgeo hclus hfreed]
    · rw [fatwrite_same hgeo (hprev.resolve_left hzero) hended,
        fatwrite_same hgeo hclus hfreed]

theorem fatwrite_first (hgeo : Geometry fs) {clusterNo nextNo : ℕ}
    (hclus : InRange fs clusterNo) (hnext : nextNo < 2 ^ 32) (disk : Mem) :
    FirstSame fs disk (fatwrite fs disk clusterNo nextNo) ↔
      fatread fs disk clusterNo = nextNo := by
  constructor
  · intro hfirst
    have hentry := fatread_of_firstSame hgeo hfirst hclus
    rw [fatread_fatwrite hgeo hclus hclus hnext, if_pos rfl] at hentry
    exact hentry.symm
  · intro hentry
    rw [fatwrite_same hgeo hclus hentry]
    exact AgreeOn.refl disk _ _

theorem firstSame_iff (hgeo : Geometry fs) {call : FatCall} (hin : call.InRange fs)
    (disk : Mem) : FirstSame fs disk (call.run fs disk) ↔ KeepsEntries fs disk call := by
  cases call with
  | fatwrite clusterNo nextNo => exact fatwrite_first hgeo hin.1 hin.2 disk
  | clusalloc prevNo => exact clusalloc_first hgeo prevNo disk
  | clusfree clusNo prevNo => exact clusfree_first hgeo hin.1 hin.2 disk

/-! ## Runs -/

/-- From equal FATs, one call keeps them equal exactly when it leaves the entries. -/
theorem run_mirror_iff (hgeo : Geometry fs) (htwo : TwoFats fs) {disk : Mem}
    (hmirror : Mirror fs disk) {call : FatCall} (hin : call.InRange fs) :
    Mirror fs (call.run fs disk) ↔ KeepsEntries fs disk call :=
  (mirror_iff htwo hmirror (run_second hgeo hin disk)).trans (firstSame_iff hgeo hin disk)

/-- Along every run of calls that leave the entries as they are the two FATs are equal,
and the next call breaks this exactly when it changes an entry. -/
theorem mirror_of_reach (hgeo : Geometry fs) (htwo : TwoFats fs) {disk disk' : Mem}
    (hmirror : Mirror fs disk)
    (hreach : Reach (FatStep fs) (KeepsEntries fs) disk disk') :
    Mirror fs disk' ∧
      ∀ call after, FatStep fs disk' call after →
        (Mirror fs after ↔ KeepsEntries fs disk' call) := by
  have hafter : Mirror fs disk' := by
    apply hreach.invariant hmirror
    rintro before call after hbefore hkeeps ⟨hin, rfl⟩
    exact (run_mirror_iff hgeo htwo hbefore hin).mpr hkeeps
  refine ⟨hafter, ?_⟩
  rintro call after ⟨hin, rfl⟩
  exact run_mirror_iff hgeo htwo hafter hin

/-- A volume with two FATs of one sector and one-sector clusters. -/
def twoFatVolume : Filesystem :=
  ⟨⟨512, 1, 1, 2, 1⟩, ⟨3, 4, 4, 512⟩⟩

theorem twoFatVolume_geometry : Geometry twoFatVolume := by
  constructor <;> decide

theorem twoFatVolume_twoFats : TwoFats twoFatVolume := by
  rw [TwoFats]
  decide

theorem threeInRange : InRange twoFatVolume 3 := ⟨by decide, by decide⟩

/-- Writing the free entry 3 as free leaves the FATs equal. -/
theorem mirror_freeRewritten :
    Mirror twoFatVolume (fatwrite twoFatVolume (fun _ => 0) 3 0) := by
  have hentry : fatread twoFatVolume (fun _ => 0) 3 = 0 := by decide +kernel
  have hsame : Mirror twoFatVolume fun _ => 0 := fun _ _ => rfl
  have hreach : Reach (FatStep twoFatVolume) (KeepsEntries twoFatVolume) (fun _ => 0)
      (fatwrite twoFatVolume (fun _ => 0) 3 0) :=
    .tail .refl (show KeepsEntries twoFatVolume _ (.fatwrite 3 0) from hentry)
      ⟨⟨threeInRange, by decide⟩, rfl⟩
  exact (mirror_of_reach twoFatVolume_geometry twoFatVolume_twoFats hsame hreach).1

/-- Marking cluster 3 as a last one on an empty volume makes the FATs differ. -/
theorem mirror_broken :
    Mirror twoFatVolume (fun _ => 0) ∧
      FatStep twoFatVolume (fun _ => 0) (.fatwrite 3 eof)
        (fatwrite twoFatVolume (fun _ => 0) 3 eof) ∧
      ¬ Mirror twoFatVolume (fatwrite twoFatVolume (fun _ => 0) 3 eof) := by
  refine ⟨fun _ _ => rfl, ⟨⟨threeInRange, by decide⟩, rfl⟩, ?_⟩
  intro hmirror
  have hbyte := hmirror 12 (by decide)
  revert hbyte
  decide +kernel

end Painting.Fat32
