import Painting.Fs.FatVolume

/-!
# Clusters as byte arrays

`clusread` and `cluswrite` split a range into the rest of its first sector, whole sectors, and a part
of its last one.  Together the pieces act on the cluster as on one array of bytes, wherever the
sectors of the cluster are.
-/

namespace Painting.Fat32

open Painting.Memory

/-! ## Results -/

section Code

variable (fs : Filesystem)

/-- The loop of `clusread` with the count that it ends with. -/
def clusreadCallLoop (disk : Mem) (secNo readLen n : ℕ) : ℕ → ℕ × List UInt8
  | 0 => (readLen, [])
  | rounds + 1 =>
      if readLen < n then
        let len := min fs.superblock.bytesPerSector (n - readLen)
        let rest := clusreadCallLoop disk ((secNo + 1) % 2 ^ 32) (readLen + len) n rounds
        (rest.1, (List.range len).map (bread disk secNo) ++ rest.2)
      else (readLen, [])

/-- `clusread`: its result and the bytes it copies to its destination. -/
def clusreadCall (disk : Mem) (clusNo offset n : ℕ) : ℕ × List UInt8 :=
  let secNo := (firstSectorClus fs clusNo + offset / fs.superblock.bytesPerSector) % 2 ^ 32
  let secOff := offset % fs.superblock.bytesPerSector
  let len := min (fs.superblock.bytesPerSector - secOff) n
  let head := (List.range len).map fun k => bread disk secNo (secOff + k)
  if len = n then (len, head)
  else
    let rest := clusreadCallLoop fs disk ((secNo + 1) % 2 ^ 32) len n n
    (rest.1, head ++ rest.2)

/-- The loop of `cluswrite` with the count that it ends with. -/
def cluswriteCallLoop (src : ℕ → UInt8) (disk : Mem) (secNo writeLen n : ℕ) : ℕ → ℕ × Mem
  | 0 => (writeLen, disk)
  | rounds + 1 =>
      if writeLen < n then
        let len := min fs.superblock.bytesPerSector (n - writeLen)
        cluswriteCallLoop src
          (bwrite disk secNo (blit (bread disk secNo) 0 (fun k => src (writeLen + k)) len))
          ((secNo + 1) % 2 ^ 32) (writeLen + len) n rounds
      else (writeLen, disk)

/-- `cluswrite`: its result and the disk after it. -/
def cluswriteCall (disk : Mem) (clusNo offset : ℕ) (src : ℕ → UInt8) (n : ℕ) : ℕ × Mem :=
  let secNo := (firstSectorClus fs clusNo + offset / fs.superblock.bytesPerSector) % 2 ^ 32
  let secOff := offset % fs.superblock.bytesPerSector
  let len := min (fs.superblock.bytesPerSector - secOff) n
  let disk := bwrite disk secNo (blit (bread disk secNo) secOff src len)
  if len = n then (len, disk)
  else cluswriteCallLoop fs src disk ((secNo + 1) % 2 ^ 32) len n n

end Code

variable {fs : Filesystem}

theorem clusreadCallLoop_snd (disk : Mem) (secNo readLen n rounds : ℕ) :
    (clusreadCallLoop fs disk secNo readLen n rounds).2 =
      clusreadLoop fs disk secNo readLen n rounds := by
  induction rounds generalizing secNo readLen with
  | zero => rfl
  | succ rounds ih =>
      rw [clusreadCallLoop, clusreadLoop]
      split
      · dsimp only
        rw [ih]
      · rfl

theorem clusreadCall_snd (disk : Mem) (clusNo offset n : ℕ) :
    (clusreadCall fs disk clusNo offset n).2 = clusread fs disk clusNo offset n := by
  rw [clusreadCall, clusread]
  dsimp only
  split
  · rfl
  · rw [clusreadCallLoop_snd]

theorem cluswriteCallLoop_snd (src : ℕ → UInt8) (disk : Mem) (secNo writeLen n rounds : ℕ) :
    (cluswriteCallLoop fs src disk secNo writeLen n rounds).2 =
      cluswriteLoop fs src disk secNo writeLen n rounds := by
  induction rounds generalizing disk secNo writeLen with
  | zero => rfl
  | succ rounds ih =>
      rw [cluswriteCallLoop, cluswriteLoop]
      split
      · exact ih _ _ _
      · rfl

theorem cluswriteCall_snd (disk : Mem) (clusNo offset : ℕ) (src : ℕ → UInt8) (n : ℕ) :
    (cluswriteCall fs disk clusNo offset src n).2 = cluswrite fs disk clusNo offset src n := by
  simp only [cluswriteCall, cluswrite]
  split
  · rfl
  · exact cluswriteCallLoop_snd src _ _ _ n n

theorem clusreadCallLoop_fst (hsector : 0 < fs.superblock.bytesPerSector) (disk : Mem)
    (secNo : ℕ) {readLen n rounds : ℕ} (hlen : readLen ≤ n) (hrounds : n - readLen ≤ rounds) :
    (clusreadCallLoop fs disk secNo readLen n rounds).1 = n := by
  induction rounds generalizing secNo readLen with
  | zero =>
      show readLen = n
      omega
  | succ rounds ih =>
      rw [clusreadCallLoop]
      split
      · exact ih _ (by omega) (by omega)
      · show readLen = n
        omega

theorem clusreadCall_fst (hsector : 0 < fs.superblock.bytesPerSector) (disk : Mem)
    (clusNo offset n : ℕ) : (clusreadCall fs disk clusNo offset n).1 = n := by
  rw [clusreadCall]
  dsimp only
  split
  · assumption
  · exact clusreadCallLoop_fst hsector disk _ (Nat.min_le_right _ _) (Nat.sub_le _ _)

theorem cluswriteCallLoop_fst (hsector : 0 < fs.superblock.bytesPerSector) (src : ℕ → UInt8)
    (disk : Mem) (secNo : ℕ) {writeLen n rounds : ℕ} (hlen : writeLen ≤ n)
    (hrounds : n - writeLen ≤ rounds) :
    (cluswriteCallLoop fs src disk secNo writeLen n rounds).1 = n := by
  induction rounds generalizing disk secNo writeLen with
  | zero =>
      show writeLen = n
      omega
  | succ rounds ih =>
      rw [cluswriteCallLoop]
      split
      · exact ih _ _ (by omega) (by omega)
      · show writeLen = n
        omega

theorem cluswriteCall_fst (hsector : 0 < fs.superblock.bytesPerSector) (disk : Mem)
    (clusNo offset : ℕ) (src : ℕ → UInt8) (n : ℕ) :
    (cluswriteCall fs disk clusNo offset src n).1 = n := by
  simp only [cluswriteCall]
  split
  · assumption
  · exact cluswriteCallLoop_fst hsector src _ _ (Nat.min_le_right _ _) (Nat.sub_le _ _)

/-! ## Places -/

/-- What `clusinit` computes for sectors of 512 bytes, wherever the root directory is. -/
structure Sectored (fs : Filesystem) : Prop where
  sector : fs.superblock.bytesPerSector = bsize
  bytes : fs.sbinfo.bytesPerClus = bsize * fs.superblock.sectorsPerCluster
  root : fs.superblock.clusterRootDirectory < 2 ^ 32
  count : fs.sbinfo.clusterCnt * fs.superblock.sectorsPerCluster ≤ 2 ^ 32

/-- The place of a byte in the sectors from `secNo` on, whose numbers have 32 bits. -/
def sectorPlace (secNo i : ℕ) : ℕ := bsize * ((secNo + i / bsize) % 2 ^ 32) + i % bsize

/-- The place of byte `i` of a cluster on the disk. -/
def bytePlace (fs : Filesystem) (cluster i : ℕ) : ℕ := sectorPlace (firstSectorClus fs cluster) i

theorem sectorPlace_inj {secNo i j : ℕ} (hi : i < bsize * 2 ^ 32) (hj : j < bsize * 2 ^ 32)
    (heq : sectorPlace secNo i = sectorPlace secNo j) : i = j := by
  simp only [sectorPlace, bsize] at *
  omega

/-- The disk has got the bytes of the source at the places, and nothing else has changed. -/
structure Put (disk disk' : Mem) (place : ℕ → ℕ) (src : ℕ → UInt8) (n : ℕ) : Prop where
  inside : ∀ k < n, disk' (place k) = src k
  outside : ∀ x, (∀ k < n, x ≠ place k) → disk' x = disk x

theorem put_nothing (disk : Mem) (place : ℕ → ℕ) (src : ℕ → UInt8) : Put disk disk place src 0 :=
  ⟨fun _ hk => absurd hk (Nat.not_lt_zero _), fun _ _ => rfl⟩

theorem put_blit (disk : Mem) {addr n : ℕ} {src : ℕ → UInt8} {place : ℕ → ℕ}
    (hplace : ∀ k < n, place k = addr + k) : Put disk (blit disk addr src n) place src n := by
  constructor
  · intro k hk
    rw [hplace k hk, blit, if_pos (by omega), Nat.add_sub_cancel_left]
  · intro x hx
    rw [blit, if_neg]
    rintro ⟨hlo, hhi⟩
    exact hx (x - addr) (by omega) (by rw [hplace _ (by omega)]; omega)

/-- Two pieces one after the other. -/
theorem Put.append {first second third : Mem} {place : ℕ → ℕ} {src : ℕ → UInt8} {m n : ℕ}
    (hleft : Put first second place src m)
    (hright : Put second third (fun k => place (m + k)) (fun k => src (m + k)) n)
    (hinj : ∀ i < m + n, ∀ j < m + n, place i = place j → i = j) :
    Put first third place src (m + n) := by
  constructor
  · intro k hk
    by_cases hkm : k < m
    · rw [hright.outside, hleft.inside k hkm]
      intro j hj heq
      have hij := hinj k hk (m + j) (by omega) heq
      omega
    · have hbyte := hright.inside (k - m) (by omega)
      rwa [Nat.add_sub_cancel' (by omega)] at hbyte
  · intro x hx
    rw [hright.outside x fun k hk => hx (m + k) (by omega),
      hleft.outside x fun k hk => hx k (by omega)]

theorem Put.congr {disk disk' : Mem} {place place' : ℕ → ℕ} {src src' : ℕ → UInt8} {n : ℕ}
    (hput : Put disk disk' place src n) (hplace : ∀ k < n, place k = place' k)
    (hsrc : ∀ k < n, src k = src' k) : Put disk disk' place' src' n := by
  constructor
  · intro k hk
    rw [← hplace k hk, ← hsrc k hk]
    exact hput.inside k hk
  · intro x hx
    exact hput.outside x fun k hk => (hplace k hk).symm ▸ hx k hk

/-! ## Pieces -/

theorem cluswriteLoop_put (hfs : Sectored fs) (src : ℕ → UInt8) (disk : Mem)
    {secNo writeLen n rounds : ℕ} (hsec : secNo < 2 ^ 32) (hrounds : n - writeLen ≤ rounds)
    (hfit : n - writeLen ≤ bsize * 2 ^ 32) :
    Put disk (cluswriteLoop fs src disk secNo writeLen n rounds) (sectorPlace secNo)
      (fun k => src (writeLen + k)) (n - writeLen) := by
  induction rounds generalizing disk secNo writeLen with
  | zero =>
      rw [cluswriteLoop, show n - writeLen = 0 by omega]
      exact put_nothing disk _ _
  | succ rounds ih =>
      rw [cluswriteLoop]
      by_cases hmore : writeLen < n
      · simp only [if_pos hmore, hfs.sector]
        have hlen : min bsize (n - writeLen) ≤ bsize := Nat.min_le_left _ _
        have hsum : n - writeLen =
            min bsize (n - writeLen) + (n - (writeLen + min bsize (n - writeLen))) := by omega
        have hfirst : Put disk
            (bwrite disk secNo (blit (bread disk secNo) 0 (fun k => src (writeLen + k))
              (min bsize (n - writeLen))))
            (sectorPlace secNo) (fun k => src (writeLen + k)) (min bsize (n - writeLen)) := by
          rw [bwrite_blit disk (by omega), Nat.add_zero]
          apply put_blit
          intro k hk
          simp only [sectorPlace, bsize] at *
          omega
        have hrest := @ih (bwrite disk secNo (blit (bread disk secNo) 0
            (fun k => src (writeLen + k)) (min bsize (n - writeLen)))) ((secNo + 1) % 2 ^ 32)
          (writeLen + min bsize (n - writeLen)) (Nat.mod_lt _ (by decide))
          (by simp only [bsize] at *; omega) (by simp only [bsize] at *; omega)
        have happend := hfirst.append (hrest.congr ?_ ?_) ?_
        · rwa [← hsum] at happend
        · intro k hk
          simp only [sectorPlace, bsize] at *
          omega
        · intro k _
          rw [Nat.add_assoc]
        · intro i hi j hj heq
          exact sectorPlace_inj (by omega) (by omega) heq
      · rw [if_neg hmore, show n - writeLen = 0 by omega]
        exact put_nothing disk _ _

/-- `cluswrite` stores the source in the bytes of the cluster from `offset` on. -/
theorem cluswrite_put (hfs : Sectored fs) (disk : Mem) (cluster : ℕ) {offset n : ℕ}
    (src : ℕ → UInt8) (hfit : offset + n ≤ bsize * 2 ^ 32) :
    Put disk (cluswrite fs disk cluster offset src n) (fun k => bytePlace fs cluster (offset + k))
      src n := by
  have hmod : offset % bsize < bsize := Nat.mod_lt _ (by decide)
  have hfirst : Put disk
      (blit disk (bsize * ((firstSectorClus fs cluster + offset / bsize) % 2 ^ 32) + offset % bsize)
        src (min (bsize - offset % bsize) n))
      (fun k => bytePlace fs cluster (offset + k)) src (min (bsize - offset % bsize) n) := by
    apply put_blit
    intro k hk
    simp only [bytePlace, sectorPlace, bsize] at *
    omega
  simp only [cluswrite, hfs.sector]
  rw [bwrite_blit disk (by omega)]
  by_cases hone : min (bsize - offset % bsize) n = n
  · rw [if_pos hone]
    rwa [hone] at hfirst ⊢
  · rw [if_neg hone]
    have hlen : min (bsize - offset % bsize) n = bsize - offset % bsize := by omega
    have hsum : bsize - offset % bsize + (n - (bsize - offset % bsize)) = n := by omega
    rw [hlen] at hfirst ⊢
    have hrest := @cluswriteLoop_put fs hfs src
      (blit disk (bsize * ((firstSectorClus fs cluster + offset / bsize) % 2 ^ 32) + offset % bsize)
        src (bsize - offset % bsize))
      (((firstSectorClus fs cluster + offset / bsize) % 2 ^ 32 + 1) % 2 ^ 32)
      (bsize - offset % bsize) n n (Nat.mod_lt _ (by decide)) (by omega) (by omega)
    have happend := hfirst.append (hrest.congr ?_ fun _ _ => rfl) ?_
    · rwa [hsum] at happend
    · intro k hk
      simp only [bytePlace, sectorPlace, bsize] at *
      omega
    · intro i hi j hj heq
      have hij := sectorPlace_inj (by omega) (by omega) heq
      omega

theorem clusreadLoop_place (hfs : Sectored fs) (disk : Mem) {secNo readLen n rounds : ℕ}
    (hsec : secNo < 2 ^ 32) (hrounds : n - readLen ≤ rounds) :
    clusreadLoop fs disk secNo readLen n rounds =
      (List.range (n - readLen)).map fun k => disk (sectorPlace secNo k) := by
  induction rounds generalizing secNo readLen with
  | zero => rw [clusreadLoop, show n - readLen = 0 by omega, List.range_zero, List.map_nil]
  | succ rounds ih =>
      rw [clusreadLoop]
      by_cases hmore : readLen < n
      · simp only [if_pos hmore, hfs.sector]
        have hsum : n - readLen =
            min bsize (n - readLen) + (n - (readLen + min bsize (n - readLen))) := by omega
        rw [ih (Nat.mod_lt _ (by decide)) (by simp only [bsize] at *; omega)]
        conv_rhs => rw [hsum, List.range_add, List.map_append, List.map_map]
        refine congrArg₂ _ (List.map_congr_left fun k hk => ?_) (List.map_congr_left fun k hk => ?_)
        · have hk := List.mem_range.mp hk
          rw [bread]
          congr 1
          simp only [sectorPlace, bsize] at *
          omega
        · have hk := List.mem_range.mp hk
          rw [Function.comp_apply]
          congr 1
          simp only [sectorPlace, bsize] at *
          omega
      · rw [if_neg hmore, show n - readLen = 0 by omega, List.range_zero, List.map_nil]

/-- `clusread` delivers the bytes of the cluster from `offset` on. -/
theorem clusread_place (hfs : Sectored fs) (disk : Mem) (cluster offset n : ℕ) :
    clusread fs disk cluster offset n =
      (List.range n).map fun k => disk (bytePlace fs cluster (offset + k)) := by
  have hmod : offset % bsize < bsize := Nat.mod_lt _ (by decide)
  have hhead : ((List.range (min (bsize - offset % bsize) n)).map fun k =>
        bread disk ((firstSectorClus fs cluster + offset / bsize) % 2 ^ 32) (offset % bsize + k)) =
      (List.range (min (bsize - offset % bsize) n)).map fun k =>
        disk (bytePlace fs cluster (offset + k)) := by
    apply List.map_congr_left
    intro k hk
    have hk := List.mem_range.mp hk
    rw [bread]
    congr 1
    simp only [bytePlace, sectorPlace, bsize] at *
    omega
  simp only [clusread, hfs.sector, hhead]
  by_cases hone : min (bsize - offset % bsize) n = n
  · rw [if_pos hone, hone]
  · rw [if_neg hone]
    have hlen : min (bsize - offset % bsize) n = bsize - offset % bsize := by omega
    have hsum : n = bsize - offset % bsize + (n - (bsize - offset % bsize)) := by omega
    rw [hlen, clusreadLoop_place hfs disk (Nat.mod_lt _ (by decide)) (by omega)]
    conv_rhs => rw [hsum, List.range_add, List.map_append, List.map_map]
    congr 1
    apply List.map_congr_left
    intro k hk
    have hk := List.mem_range.mp hk
    rw [Function.comp_apply]
    congr 1
    simp only [bytePlace, sectorPlace, bsize] at *
    omega

/-! ## Clusters apart -/

theorem bytesPerClus_le (hfs : Sectored fs) {cluster : ℕ} (hin : InRange fs cluster) :
    fs.sbinfo.bytesPerClus ≤ bsize * 2 ^ 32 := by
  have hone : 1 * fs.superblock.sectorsPerCluster ≤
      fs.sbinfo.clusterCnt * fs.superblock.sectorsPerCluster :=
    Nat.mul_le_mul_right _ (by have := hin.1; have := hin.2; omega)
  rw [hfs.bytes]
  exact Nat.mul_le_mul_left _ (by have := hfs.count; omega)

/-- The sector of a cluster, up to multiples of `2 ^ 32`. -/
theorem firstSectorClus_modEq (hfs : Sectored fs) (cluster : ℕ) :
    firstSectorClus fs cluster +
        fs.superblock.clusterRootDirectory * fs.superblock.sectorsPerCluster ≡
      fs.sbinfo.firstDataSector + cluster * fs.superblock.sectorsPerCluster [MOD 2 ^ 32] := by
  have hroot := hfs.root
  have hdiff : (cluster + 2 ^ 32 - fs.superblock.clusterRootDirectory) % 2 ^ 32 +
      fs.superblock.clusterRootDirectory ≡ cluster [MOD 2 ^ 32] := by
    rw [Nat.ModEq]
    omega
  calc firstSectorClus fs cluster +
          fs.superblock.clusterRootDirectory * fs.superblock.sectorsPerCluster
      ≡ fs.sbinfo.firstDataSector +
          (cluster + 2 ^ 32 - fs.superblock.clusterRootDirectory) % 2 ^ 32 *
            fs.superblock.sectorsPerCluster +
          fs.superblock.clusterRootDirectory * fs.superblock.sectorsPerCluster [MOD 2 ^ 32] :=
        (Nat.mod_modEq _ _).add_right _
    _ ≡ fs.sbinfo.firstDataSector + cluster * fs.superblock.sectorsPerCluster [MOD 2 ^ 32] := by
        rw [Nat.add_assoc, ← Nat.add_mul]
        exact (hdiff.mul_right _).add_left _

/-- Two clusters have no byte in common. -/
theorem bytePlace_inj (hfs : Sectored fs) {c d i j : ℕ} (hc : InRange fs c) (hd : InRange fs d)
    (hi : i < fs.sbinfo.bytesPerClus) (hj : j < fs.sbinfo.bytesPerClus)
    (heq : bytePlace fs c i = bytePlace fs d j) : c = d ∧ i = j := by
  have hcount := hfs.count
  rw [hfs.bytes] at hi hj
  have hu : i / bsize < fs.superblock.sectorsPerCluster := Nat.div_lt_of_lt_mul hi
  have hv : j / bsize < fs.superblock.sectorsPerCluster := Nat.div_lt_of_lt_mul hj
  obtain ⟨hsector, hoffset⟩ :
      firstSectorClus fs c + i / bsize ≡ firstSectorClus fs d + j / bsize [MOD 2 ^ 32] ∧
        i % bsize = j % bsize := by
    rw [Nat.ModEq]
    simp only [bytePlace, sectorPlace, bsize] at heq ⊢
    omega
  obtain ⟨c, rfl⟩ : ∃ k, c = k + 2 := ⟨c - 2, by have := hc.1; omega⟩
  obtain ⟨d, rfl⟩ : ∃ k, d = k + 2 := ⟨d - 2, by have := hd.1; omega⟩
  have hplace : ∀ k x : ℕ, fs.sbinfo.firstDataSector +
      2 * fs.superblock.sectorsPerCluster + (k * fs.superblock.sectorsPerCluster + x) ≡
      firstSectorClus fs (k + 2) + x +
        fs.superblock.clusterRootDirectory * fs.superblock.sectorsPerCluster [MOD 2 ^ 32] := by
    intro k x
    have hmod := ((firstSectorClus_modEq hfs (k + 2)).add_right x).symm
    rw [Nat.add_mul] at hmod
    convert hmod using 1 <;> omega
  have hsame : c * fs.superblock.sectorsPerCluster + i / bsize ≡
      d * fs.superblock.sectorsPerCluster + j / bsize [MOD 2 ^ 32] :=
    (((hplace c (i / bsize)).trans (hsector.add_right _)).trans
      (hplace d (j / bsize)).symm).add_left_cancel'
  have hbound : ∀ {k x : ℕ}, k < fs.sbinfo.clusterCnt → x < fs.superblock.sectorsPerCluster →
      k * fs.superblock.sectorsPerCluster + x < 2 ^ 32 := by
    intro k x hk hx
    have hstep : (k + 1) * fs.superblock.sectorsPerCluster ≤
        fs.sbinfo.clusterCnt * fs.superblock.sectorsPerCluster := Nat.mul_le_mul_right _ hk
    rw [Nat.succ_mul] at hstep
    omega
  have hexact := hsame.eq_of_lt_of_lt (hbound (by have := hc.2; omega) hu)
    (hbound (by have := hd.2; omega) hv)
  have hcluster : c = d := by
    have hdiv := congrArg (· / fs.superblock.sectorsPerCluster) hexact
    have hpos := Nat.zero_lt_of_lt hu
    rwa [Nat.mul_comm c, Nat.mul_comm d, Nat.mul_add_div hpos, Nat.mul_add_div hpos,
      Nat.div_eq_of_lt hu, Nat.div_eq_of_lt hv] at hdiv
  subst hcluster
  refine ⟨rfl, ?_⟩
  simp only [bsize] at *
  omega

/-! ## Sequences of writes -/

/-- A call of `cluswrite`. -/
structure ClusWrite where
  cluster : ℕ
  offset : ℕ
  src : ℕ → UInt8
  n : ℕ

def ClusWrite.Fits (fs : Filesystem) (write : ClusWrite) : Prop :=
  InRange fs write.cluster ∧ write.offset + write.n ≤ fs.sbinfo.bytesPerClus

/-- The call writes byte `i` of the cluster. -/
def ClusWrite.Hits (write : ClusWrite) (cluster i : ℕ) : Prop :=
  write.cluster = cluster ∧ write.offset ≤ i ∧ i < write.offset + write.n

instance (write : ClusWrite) (cluster i : ℕ) : Decidable (write.Hits cluster i) :=
  inferInstanceAs (Decidable (_ ∧ _ ∧ _))

/-- The disk after the calls. -/
def applyWrites (fs : Filesystem) (disk : Mem) (writes : List ClusWrite) : Mem :=
  writes.foldl (fun disk write =>
    (cluswriteCall fs disk write.cluster write.offset write.src write.n).2) disk

/-- The byte that the last call for it has written, or the old one. -/
def lastByte (fs : Filesystem) (disk : Mem) (writes : List ClusWrite) (cluster i : ℕ) : UInt8 :=
  match writes.reverse.find? fun write => write.Hits cluster i with
  | some write => write.src (i - write.offset)
  | none => disk (bytePlace fs cluster i)

theorem applyWrites_apply (hfs : Sectored fs) (disk : Mem) {writes : List ClusWrite}
    (hwrites : ∀ write ∈ writes, write.Fits fs) {cluster i : ℕ} (hin : InRange fs cluster)
    (hi : i < fs.sbinfo.bytesPerClus) :
    applyWrites fs disk writes (bytePlace fs cluster i) = lastByte fs disk writes cluster i := by
  induction writes using List.reverseRecOn with
  | nil => rfl
  | append_singleton writes write ih =>
      have hfits : write.Fits fs := hwrites write (by simp)
      have hput := cluswrite_put hfs (applyWrites fs disk writes) write.cluster write.src
        (hfits.2.trans (bytesPerClus_le hfs hin))
      rw [applyWrites, List.foldl_append, List.foldl_cons, List.foldl_nil, ← applyWrites,
        cluswriteCall_snd, lastByte, List.reverse_append, List.reverse_singleton,
        List.singleton_append, List.find?_cons]
      by_cases hhit : write.Hits cluster i
      · rw [decide_eq_true hhit]
        obtain ⟨rfl, hlo, hhi⟩ := hhit
        have hbyte := hput.inside (i - write.offset) (by omega)
        rwa [Nat.add_sub_cancel' hlo] at hbyte
      · rw [decide_eq_false hhit]
        have hrest := ih fun write hwrite => hwrites write (List.mem_append_left _ hwrite)
        rw [lastByte] at hrest
        rw [← hrest]
        apply hput.outside
        intro k hk heq
        have hlt : write.offset + k < fs.sbinfo.bytesPerClus := by
          have := hfits.2
          omega
        obtain ⟨hcluster, hplace⟩ := bytePlace_inj hfs hin hfits.1 hi hlt heq
        exact hhit ⟨hcluster.symm, by omega, by omega⟩

/-- A cluster is an array of bytes: writes and reads of a range of it return its length and touch
its bytes alone, and a read after any calls of `cluswrite` gives what was written last. -/
theorem cluster_array (hfs : Sectored fs) {cluster offset n : ℕ} (hin : InRange fs cluster)
    (hfit : offset + n ≤ fs.sbinfo.bytesPerClus) (disk : Mem) (src : ℕ → UInt8) :
    (cluswriteCall fs disk cluster offset src n).1 = n ∧
      Put disk (cluswriteCall fs disk cluster offset src n).2
        (fun k => bytePlace fs cluster (offset + k)) src n ∧
      clusreadCall fs disk cluster offset n =
        (n, (List.range n).map fun k => disk (bytePlace fs cluster (offset + k))) ∧
      ∀ writes, (∀ write ∈ writes, ClusWrite.Fits fs write) →
        clusreadCall fs (applyWrites fs disk writes) cluster offset n =
          (n, (List.range n).map fun k => lastByte fs disk writes cluster (offset + k)) := by
  have hsector : 0 < fs.superblock.bytesPerSector := by
    rw [hfs.sector]
    decide
  have hread : ∀ disk : Mem, clusreadCall fs disk cluster offset n =
      (n, (List.range n).map fun k => disk (bytePlace fs cluster (offset + k))) := by
    intro disk
    apply Prod.ext
    · exact clusreadCall_fst hsector disk cluster offset n
    · exact (clusreadCall_snd disk cluster offset n).trans (clusread_place hfs disk cluster offset n)
  refine ⟨cluswriteCall_fst hsector disk cluster offset src n, ?_, hread disk, ?_⟩
  · rw [cluswriteCall_snd]
    exact cluswrite_put hfs disk cluster src (hfit.trans (bytesPerClus_le hfs hin))
  · intro writes hwrites
    rw [hread]
    congr 1
    apply List.map_congr_left
    intro k hk
    have hk := List.mem_range.mp hk
    exact applyWrites_apply hfs disk hwrites hin (by omega)

/-- A volume of three clusters of two sectors, with the root directory in cluster 3. -/
def shiftedVolume : Filesystem where
  superblock := ⟨512, 2, 1, 3, 1⟩
  sbinfo := ⟨2, 6, 3, 1024⟩

theorem cluster_array_shifted :
    clusreadCall shiftedVolume (applyWrites shiftedVolume (fun _ => 0)
        [⟨3, 500, fun _ => 7, 30⟩, ⟨4, 0, fun _ => 8, 1024⟩, ⟨3, 510, fun _ => 9, 2⟩]) 3 508 6 =
      (6, [7, 7, 9, 9, 7, 7]) := by
  have hfs : Sectored shiftedVolume := ⟨rfl, rfl, by decide, by decide⟩
  have harray := cluster_array hfs (show InRange shiftedVolume 3 from ⟨by decide, by decide⟩)
    (show 508 + 6 ≤ shiftedVolume.sbinfo.bytesPerClus by decide) (fun _ => 0) fun _ => 0
  refine (harray.2.2.2 _ ?_).trans (by decide)
  intro write hwrite
  simp only [List.mem_cons, List.not_mem_nil, or_false] at hwrite
  obtain rfl | rfl | rfl := hwrite
  · exact ⟨⟨by decide, by decide⟩, by decide⟩
  · exact ⟨⟨by decide, by decide⟩, by decide⟩
  · exact ⟨⟨by decide, by decide⟩, by decide⟩

end Painting.Fat32
