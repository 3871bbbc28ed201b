import Painting.Fs.FileWrite

/-!
# The range of a read or a write

`fileread` and `filewrite` add the offset and the length in 32 bits.  The sum is right below 4 GiB.
At 4 GiB it is 0, which is never beyond the size, so that a read is not cut off and a write does not
extend the file; the end of the range is still right.  Beyond 4 GiB the end comes before the start.
-/

namespace Painting.Fat32

open Painting.Memory

variable {fs : Filesystem} {disk : Mem} {file : Dirent} {src : ℕ → UInt8} {off n : ℕ}

/-! ## Ranges -/

/-- The `start` and `end` of `fileread`, if it comes so far. -/
def filereadRange (file : Dirent) (off n : ℕ) : Option (ℕ × ℕ) :=
  if file.size < off then none
  else
    let n := if file.size < (off + n) % 2 ^ 32 then (file.size - off) % 2 ^ 32 else n
    if n = 0 then none else some (off, (off + n - 1) % 2 ^ 32)

/-- The `start` and `end` of `filewrite`, if it comes so far. -/
def filewriteRange (file : Dirent) (off n : ℕ) : Option (ℕ × ℕ) :=
  if n = 0 ∨ file.size < off then none else some (off, (off + n - 1) % 2 ^ 32)

/-- A read delivers no more than there is, a write that reports all its bytes has left a file that
is long enough, and no range ends before its start. -/
structure RangesOk (fs : Filesystem) (disk : Mem) (file : Dirent) (src : ℕ → UInt8)
    (off n : ℕ) : Prop where
  read : (fileread fs disk file off n).1 < 0 ∨
    (fileread fs disk file off n).1 ≤ (min n (file.size - off) : ℕ)
  write : off ≤ file.size → ∀ disk' file',
    filewrite fs disk file src off n = some ((n : ℤ), disk', file') → off + n ≤ file'.size
  readRange : ∀ range ∈ filereadRange file off n, range.1 ≤ range.2
  writeRange : ∀ range ∈ filewriteRange file off n, range.1 ≤ range.2

/-- The chain from `first` on ends before cluster number `index`. -/
def EndsBefore (fs : Filesystem) (disk : Mem) (first index : ℕ) : Prop :=
  ∃ k ≤ index, (k = 0 → index = 0) ∧ IsEof ((fatread fs disk)^[k] first)

theorem isEof_getClusNoLoop_iff {clus count : ℕ} :
    IsEof (fileGetClusNoLoop fs disk clus count) ↔ EndsBefore fs disk clus count := by
  induction count generalizing clus with
  | zero =>
      constructor
      · intro heof
        exact ⟨0, le_rfl, fun _ => rfl, heof⟩
      · rintro ⟨k, hk, -, heof⟩
        obtain rfl := Nat.le_zero.mp hk
        exact heof
  | succ count ih =>
      rw [fileGetClusNoLoop]
      by_cases hnext : IsEof (fatread fs disk clus)
      · rw [if_pos hnext]
        exact ⟨fun _ => ⟨1, by omega, by omega, hnext⟩, fun _ => hnext⟩
      · rw [if_neg hnext, ih]
        constructor
        · rintro ⟨k, hk, -, heof⟩
          exact ⟨k + 1, by omega, by omega, heof⟩
        · rintro ⟨k, hk, hzero, heof⟩
          obtain ⟨k, rfl⟩ : ∃ j, k = j + 1 := ⟨k - 1, by omega⟩
          refine ⟨k, by omega, ?_, heof⟩
          rintro rfl
          exact absurd heof hnext

instance (fs : Filesystem) (disk : Mem) (first index : ℕ) :
    Decidable (EndsBefore fs disk first index) :=
  decidable_of_iff _ isEof_getClusNoLoop_iff

/-! ## Counts -/

/-- From `off` to the end of the clusters that a call of `fileread` for `m` bytes looks at. -/
def readSpan (fs : Filesystem) (off m : ℕ) : ℕ :=
  fs.sbinfo.bytesPerClus - off % fs.sbinfo.bytesPerClus +
    (m - 1) / fs.sbinfo.bytesPerClus * fs.sbinfo.bytesPerClus

theorem filereadLoop_count {clus len count : ℕ} (hlen : len ≤ n) (hn : n < 2 ^ 32) :
    (filereadLoop fs disk clus len n count).1 =
      len + min (n - len) (count * fs.sbinfo.bytesPerClus) := by
  induction count generalizing clus len with
  | zero => simp [filereadLoop]
  | succ count ih =>
      have hpiece : (n + 2 ^ 32 - len) % 2 ^ 32 = n - len := by omega
      simp only [filereadLoop, hpiece]
      rw [Nat.mod_eq_of_lt (by omega), ih (by omega), Nat.succ_mul]
      omega

theorem filewriteLoop_count {clus offset len count : ℕ} (hlen : len ≤ n) (hn : n < 2 ^ 32) :
    (filewriteLoop fs src disk clus offset len n count).1 =
      len + min (n - len) (count * fs.sbinfo.bytesPerClus) := by
  induction count generalizing disk clus len with
  | zero => simp [filewriteLoop]
  | succ count ih =>
      have hpiece : (n + 2 ^ 32 - len) % 2 ^ 32 = n - len := by omega
      simp only [filewriteLoop, hpiece]
      rw [Nat.mod_eq_of_lt (by omega), ih (by omega), Nat.succ_mul]
      omega

theorem min_add_min (n a b : ℕ) : min n a + min (n - min n a) b = min n (a + b) := by
  omega

theorem toInt_le (x : ℕ) : toInt x ≤ x := by
  have hmod := Nat.mod_le x (2 ^ 32)
  rw [toInt]
  split <;> omega

theorem toInt_eq_iff {x m : ℕ} (hx : x < 2 ^ 32) : toInt x = (m : ℤ) ↔ x = m ∧ m < 2 ^ 31 := by
  rw [toInt, Nat.mod_eq_of_lt hx]
  split <;> omega

theorem toInt_neg_iff {x : ℕ} (hx : x < 2 ^ 32) : toInt x < 0 ↔ 2 ^ 31 ≤ x := by
  rw [toInt, Nat.mod_eq_of_lt hx]
  split <;> omega

/-- The number of bytes that `fileread` reads after its check against the size. -/
def readLength (size off n : ℕ) : ℕ :=
  if size < (off + n) % 2 ^ 32 then (size - off) % 2 ^ 32 else n

theorem readLength_eq {size : ℕ} (hoff : off ≤ size) (hsum : off + n < 2 ^ 32) :
    readLength size off n = min n (size - off) := by
  rw [readLength, Nat.mod_eq_of_lt hsum]
  split
  · rw [Nat.mod_eq_of_lt (by omega)]
    omega
  · omega

theorem readLength_lt (size off : ℕ) (hn : n < 2 ^ 32) : readLength size off n < 2 ^ 32 := by
  rw [readLength]
  split
  · exact Nat.mod_lt _ (by decide)
  · exact hn

/-- `clus_num` of `fileread`. -/
def clusNum (fs : Filesystem) (off m : ℕ) : ℕ :=
  ((off + m - 1) % 2 ^ 32 + 2 ^ 64 - off) % 2 ^ 64 / fs.sbinfo.bytesPerClus % 2 ^ 32

theorem clusNum_eq {m : ℕ} (hpos : 0 < m) (hsum : off + m ≤ 2 ^ 32) :
    clusNum fs off m = (m - 1) / fs.sbinfo.bytesPerClus := by
  have hlast : ((off + m - 1) % 2 ^ 32 + 2 ^ 64 - off) % 2 ^ 64 = m - 1 := by omega
  rw [clusNum, hlast]
  exact Nat.mod_eq_of_lt ((Nat.div_le_self _ _).trans_lt (by omega))

/-- The result of `fileread`, which depends on the disk by the length of the chain alone. -/
theorem fileread_result (hoff : off ≤ file.size) (hpos : 0 < readLength file.size off n)
    (hn : n < 2 ^ 32) : (fileread fs disk file off n).1 =
      if EndsBefore fs disk file.firstCluster (off / fs.sbinfo.bytesPerClus) then -1
      else toInt (min (readLength file.size off n)
        (fs.sbinfo.bytesPerClus - off % fs.sbinfo.bytesPerClus +
          clusNum fs off (readLength file.size off n) * fs.sbinfo.bytesPerClus)) := by
  have hlt := readLength_lt file.size off hn
  have hdef : readLength file.size off n =
      if file.size < (off + n) % 2 ^ 32 then (file.size - off) % 2 ^ 32 else n := rfl
  generalize readLength file.size off n = m at hlt hdef hpos
  rw [fileread, if_neg (by omega), ← hdef, if_neg hpos.ne']
  simp only [fileGetClusNo, isEof_getClusNoLoop_iff]
  split
  · rfl
  · dsimp only
    rw [filereadLoop_count (Nat.min_le_left _ _) hlt, min_add_min, clusNum]

theorem fileread_nothing (hoff : off ≤ file.size) (hzero : readLength file.size off n = 0) :
    fileread fs disk file off n = (0, []) := by
  have hdef : readLength file.size off n =
      if file.size < (off + n) % 2 ^ 32 then (file.size - off) % 2 ^ 32 else n := rfl
  rw [hzero] at hdef
  rw [fileread, if_neg (by omega), ← hdef, if_pos rfl]

theorem filewriteMore_le (hpos : 0 < n) (hsum : off + n ≤ 2 ^ 32)
    (hsize : 0 < fs.sbinfo.bytesPerClus) :
    filewriteMore fs off n ≤ (n - 1) / fs.sbinfo.bytesPerClus := by
  have hlast : ((off + n - 1) % 2 ^ 32 + 2 ^ 64 - off) % 2 ^ 64 = n - 1 := by omega
  have hround : roundUp (n - 1) fs.sbinfo.bytesPerClus ≤ n - 1 + fs.sbinfo.bytesPerClus - 1 :=
    Nat.and_le_left.trans (Nat.mod_le _ _)
  have hstep : n - 1 + fs.sbinfo.bytesPerClus - 1 ≤ n - 1 + fs.sbinfo.bytesPerClus := Nat.sub_le _ _
  calc filewriteMore fs off n
      ≤ roundUp (n - 1) fs.sbinfo.bytesPerClus / fs.sbinfo.bytesPerClus - 1 := by
        rw [filewriteMore, hlast]
        exact Nat.sub_le_sub_right (Nat.mod_le _ _) 1
    _ ≤ (n - 1 + fs.sbinfo.bytesPerClus) / fs.sbinfo.bytesPerClus - 1 :=
        Nat.sub_le_sub_right (Nat.div_le_div_right (hround.trans hstep)) 1
    _ = (n - 1) / fs.sbinfo.bytesPerClus := by
        rw [Nat.add_div_right _ hsize, Nat.succ_sub_one]

theorem filewriteRest_result {result : ℤ} {disk' : Mem} {file' : Dirent} (hn : n < 2 ^ 32)
    (hrest : filewriteRest fs src off n disk file
      (fileGetClusNo fs disk file (off / fs.sbinfo.bytesPerClus)) = (result, disk', file')) :
    result = if EndsBefore fs disk file.firstCluster (off / fs.sbinfo.bytesPerClus) then -1
      else toInt (min n (fs.sbinfo.bytesPerClus - off % fs.sbinfo.bytesPerClus +
        filewriteMore fs off n * fs.sbinfo.bytesPerClus)) := by
  rw [fileGetClusNo, filewriteRest] at hrest
  split at hrest
  · rename_i heof
    rw [if_pos (isEof_getClusNoLoop_iff.mp heof)]
    exact (congrArg Prod.fst hrest).symm
  · rename_i heof
    rw [isEof_getClusNoLoop_iff] at heof
    split at hrest
    rename_i count written hloop
    have hcount := congrArg Prod.fst hloop
    rw [filewriteLoop_count (Nat.min_le_left _ _) hn, min_add_min] at hcount
    rw [if_neg heof, hcount]
    exact (congrArg Prod.fst hrest).symm

/-- A write reports at most what a read of the same range would. -/
theorem filewrite_count {disk' : Mem} {file' : Dirent} (hpos : 0 < n) (hsum : off + n ≤ 2 ^ 32)
    (hlt : n < 2 ^ 32) (hsize : 0 < fs.sbinfo.bytesPerClus)
    (hwrite : filewriteRest fs src off n disk file
      (fileGetClusNo fs disk file (off / fs.sbinfo.bytesPerClus)) = ((n : ℤ), disk', file')) :
    ¬ EndsBefore fs disk file.firstCluster (off / fs.sbinfo.bytesPerClus) ∧ n < 2 ^ 31 ∧
      n ≤ readSpan fs off n := by
  have hresult := filewriteRest_result hlt hwrite
  split at hresult
  · omega
  · rename_i hnot
    have hmul := Nat.mul_le_mul_right fs.sbinfo.bytesPerClus (filewriteMore_le hpos hsum hsize)
    generalize filewriteMore fs off n * fs.sbinfo.bytesPerClus = more at hresult hmul
    obtain ⟨hall, hshort⟩ := (toInt_eq_iff ((Nat.min_le_left _ _).trans_lt hlt)).mp hresult.symm
    refine ⟨hnot, hshort, ?_⟩
    rw [readSpan]
    omega

/-- The size that `filewrite` leaves. -/
theorem filewrite_size {disk' : Mem} {file' : Dirent} {result : ℤ} (hoff : off ≤ file.size)
    (hpos : 0 < n) (hwrite : filewrite fs disk file src off n = some (result, disk', file')) :
    file'.size = max file.size ((off + n) % 2 ^ 32) := by
  cases hextend : (if file.size < (off + n) % 2 ^ 32
      then fileExtend fs disk file ((off + n) % 2 ^ 32) else some (disk, file)) with
  | none =>
      rw [filewrite_none hoff hpos hextend] at hwrite
      cases hwrite
  | some extended =>
      have hrest : file' = extended.2 := by
        rw [filewrite_eq hoff hpos hextend, filewriteRest] at hwrite
        split at hwrite
        · simp only [Option.some.injEq, Prod.mk.injEq] at hwrite
          exact hwrite.2.2.symm
        · split at hwrite
          simp only [Option.some.injEq, Prod.mk.injEq] at hwrite
          exact hwrite.2.2.symm
      rw [hrest]
      split at hextend
      · rw [fileExtend, if_neg (by omega), Option.map_eq_some_iff] at hextend
        obtain ⟨last, -, rfl⟩ := hextend
        dsimp only
        omega
      · obtain rfl := Option.some.inj hextend
        dsimp only
        omega

/-! ## Exactness -/

theorem rangesOk_beyond (hoff : file.size < off) : RangesOk fs disk file src off n := by
  constructor
  · rw [fileread, if_pos hoff]
    exact .inl (by decide)
  · intro hle
    omega
  · rw [filereadRange, if_pos hoff]
    exact fun range hrange => by cases hrange
  · rw [filewriteRange, if_pos (.inr hoff)]
    exact fun range hrange => by cases hrange

theorem rangesOk_below (hoff : off ≤ file.size) (hsum : off + n < 2 ^ 32) :
    RangesOk fs disk file src off n := by
  have hlength := readLength_eq hoff hsum
  constructor
  · right
    obtain hzero | hpos := Nat.eq_zero_or_pos (min n (file.size - off))
    · rw [fileread_nothing hoff (hlength.trans hzero), hzero]
      exact le_rfl
    · rw [fileread_result hoff (hlength.symm ▸ hpos) (by omega), hlength]
      split
      · omega
      · exact (toInt_le _).trans (Nat.cast_le.mpr (Nat.min_le_left _ _))
  · intro _ disk' file' hwrite
    obtain rfl | hpos := Nat.eq_zero_or_pos n
    · rw [filewrite, if_pos rfl, Option.some.injEq, Prod.mk.injEq, Prod.mk.injEq] at hwrite
      rw [← hwrite.2.2]
      exact hoff
    · rw [filewrite_size hoff hpos hwrite, Nat.mod_eq_of_lt hsum]
      exact le_max_right _ _
  · intro range hrange
    rw [filereadRange, if_neg (by omega), ← readLength, hlength] at hrange
    dsimp only at hrange
    split at hrange
    · cases hrange
    · obtain rfl := Option.some.inj hrange
      dsimp only
      rw [Nat.mod_eq_of_lt (by omega)]
      omega
  · intro range hrange
    rw [filewriteRange] at hrange
    split at hrange
    · cases hrange
    · obtain rfl := Option.some.inj hrange
      dsimp only
      rw [Nat.mod_eq_of_lt (by omega)]
      omega

/-- What the read does at 4 GiB: it is not cut off. -/
theorem fileread_at_limit (hoff : off ≤ file.size) (hn : n < 2 ^ 32) (hpos : 0 < n)
    (hsum : off + n = 2 ^ 32) : (fileread fs disk file off n).1 =
      if EndsBefore fs disk file.firstCluster (off / fs.sbinfo.bytesPerClus) then -1
      else toInt (min n (readSpan fs off n)) := by
  have hlength : readLength file.size off n = n := by
    rw [readLength, hsum, Nat.mod_self, if_neg (Nat.not_lt_zero _)]
  rw [fileread_result hoff (hlength.symm ▸ hpos) hn, hlength, clusNum_eq hpos hsum.le, readSpan]

theorem rangesOk_at_limit (hcluster : 0 < fs.sbinfo.bytesPerClus) (hoff : off ≤ file.size)
    (hsize : file.size < 2 ^ 32) (hn : n < 2 ^ 32) (hsum : off + n = 2 ^ 32)
    (hrange : EndsBefore fs disk file.firstCluster (off / fs.sbinfo.bytesPerClus) ∨
      2 ^ 31 ≤ min n (readSpan fs off n) ∨ min n (readSpan fs off n) ≤ file.size - off) :
    RangesOk fs disk file src off n := by
  have hpos : 0 < n := by omega
  have hread := @fileread_at_limit fs disk file off n hoff hn hpos hsum
  have hlast : (off + n - 1) % 2 ^ 32 = 2 ^ 32 - 1 := by omega
  constructor
  · rw [hread]
    obtain hends | hlong | hfit := hrange
    · rw [if_pos hends]
      exact .inl (by decide)
    · left
      split
      · decide
      · exact (toInt_neg_iff (by omega)).mpr hlong
    · right
      split
      · omega
      · have hle := toInt_le (min n (readSpan fs off n))
        omega
  · intro _ disk' file' hwrite
    have hextend : (if file.size < (off + n) % 2 ^ 32
        then fileExtend fs disk file ((off + n) % 2 ^ 32) else some (disk, file)) =
        some (disk, file) := by
      rw [hsum, Nat.mod_self, if_neg (Nat.not_lt_zero _)]
    rw [filewrite_eq hoff hpos hextend, Option.some.injEq] at hwrite
    obtain ⟨hends, hlt, hspan⟩ := filewrite_count hpos hsum.le hn hcluster hwrite
    obtain hends' | hlong | hfit := hrange
    · exact absurd hends' hends
    · omega
    · omega
  · intro range hrange
    rw [filereadRange, if_neg (by omega), hsum, Nat.mod_self, if_neg (Nat.not_lt_zero _)] at hrange
    dsimp only at hrange
    rw [if_neg hpos.ne', hlast] at hrange
    obtain rfl := Option.some.inj hrange
    dsimp only
    omega
  · intro range hrange
    rw [filewriteRange, if_neg (by omega), hlast] at hrange
    obtain rfl := Option.some.inj hrange
    dsimp only
    omega

/-- The arithmetic of the ranges is right exactly when the range ends below 4 GiB, or ends there
while the chain is too short to read from or what is read fits all the same. -/
theorem rangesOk_iff (hcluster : 0 < fs.sbinfo.bytesPerClus) (hsize : file.size < 2 ^ 32)
    (hoff : off < 2 ^ 32) (hn : n < 2 ^ 32) :
    RangesOk fs disk file src off n ↔
      file.size < off ∨ off + n < 2 ^ 32 ∨ (off + n = 2 ^ 32 ∧
        (EndsBefore fs disk file.firstCluster (off / fs.sbinfo.bytesPerClus) ∨
          2 ^ 31 ≤ min n (readSpan fs off n) ∨
          min n (readSpan fs off n) ≤ file.size - off)) := by
  constructor
  · intro hok
    by_contra hwraps
    push Not at hwraps
    obtain ⟨hle, hge, hlimit⟩ := hwraps
    have hpos : 0 < n := by omega
    obtain hsum | hmore := Nat.eq_or_lt_of_le hge
    · obtain ⟨hends, hshort, hmany⟩ := hlimit hsum.symm
      obtain hneg | hcount := hok.read
      · rw [fileread_at_limit hle hn hpos hsum.symm, if_neg hends, toInt_neg_iff (by omega)] at hneg
        omega
      · rw [fileread_at_limit hle hn hpos hsum.symm, if_neg hends, toInt_of_lt hshort] at hcount
        omega
    · have hrange := hok.writeRange (off, (off + n - 1) % 2 ^ 32) (if_neg (by omega))
      dsimp only at hrange
      omega
  · rintro (hbeyond | hbelow | ⟨hsum, hrange⟩)
    · exact rangesOk_beyond hbeyond
    · by_cases hle : off ≤ file.size
      · exact rangesOk_below hle hbelow
      · exact rangesOk_beyond (by omega)
    · by_cases hle : off ≤ file.size
      · exact rangesOk_at_limit hcluster hle hsize hn hsum hrange
      · exact rangesOk_beyond (by omega)

theorem rangesOk_smallFile : RangesOk smallVolume smallDisk smallFile (fun _ => 0) 50 80 := by
  have hiff := @rangesOk_iff smallVolume smallDisk smallFile (fun _ => 0) 50 80 (by decide)
    (by decide) (by decide) (by decide)
  exact hiff.mpr (.inr (.inl (by decide)))

/-- The range of `2 ^ 32 - 1` bytes from 100 on ends at 98. -/
theorem not_rangesOk_smallFile :
    ¬ RangesOk smallVolume smallDisk smallFile (fun _ => 0) 100 4294967295 := by
  intro hok
  have hrange := hok.writeRange (100, 98) (by simp [filewriteRange, smallFile])
  exact absurd hrange (by decide)

end Painting.Fat32
