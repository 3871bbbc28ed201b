import Painting.Fs.SequentialRead

/-!
# The position of an open file

`filesys_read` and `filesys_write` add what `file_read` and `file_write` return to the position of
the file, without a look at its sign.  An error code is added like a count: it moves the position
back.
-/

namespace Painting.SysRead

open Painting.Memory Painting.Descriptors
open Painting.Fat32 (Filesystem toInt EndsBefore clusNum readLength)

/-! ## Writing -/

/-- What a call of `filesys_write` returns and leaves behind. -/
structure WriteCall where
  nwritten : ℕ
  disk : Mem
  dirents : ℕ → Dirent
  files : List File

/-- The entry on which `fileread` and `filewrite` work. -/
def onDisk (dirent : Dirent) : Fat32.Dirent := ⟨dirent.firstCluster, dirent.size⟩

section Code

variable (fs : Filesystem) (disk : Mem) (dirents : ℕ → Dirent)

/-- `file_write`: its result, the disk and the entries after it; `none` when it does not return. -/
def fileWrite (dirent : Option ℕ) (src : ℕ → UInt8) (offset sz : ℕ) :
    Option (ℕ × Mem × (ℕ → Dirent)) :=
  match dirent with
  | none => some (toSize (-1), disk, dirents)
  | some d =>
      if sz = 0 then some (0, disk, dirents)
      else if (dirents d).flag = 1 ∨ (dirents d).flag = 2 then
        (Fat32.filewrite fs disk (onDisk (dirents d)) src (offset % 2 ^ 32) (sz % 2 ^ 32)).map
          fun (result, disk, file) =>
            (toSize result, disk, Function.update dirents d { dirents d with size := file.size })
      else some (toSize (-1), disk, dirents)

/-- `filesys_write`, from `console_write` for a device; `none` when it does not return. -/
def filesysWrite (files : List File) (fd : ℕ) (src : ℕ → UInt8) (size : ℕ) : Option WriteCall :=
  match findFile files (fd % 2 ^ 32) with
  | none => some ⟨toSize (-1), disk, dirents, files⟩
  | some file =>
      if file.type = .device then some ⟨toSize (max 0 (toInt size)), disk, dirents, files⟩
      else
        (fileWrite fs disk dirents file.dirent src file.pos size).map
          fun (nwritten, disk, dirents) =>
            ⟨nwritten, disk, dirents,
              setPos files (fd % 2 ^ 32) ((file.pos + nwritten) % 2 ^ 64)⟩

end Code

/-! ## What it should do -/

/-- A call whose underlying one fails is negative and leaves the position, any other one moves it by
what it returns. -/
structure PositionOk (file file' : File) (result returned : ℕ) : Prop where
  fails : 2 ^ 63 ≤ result → 2 ^ 63 ≤ returned ∧ file'.pos = file.pos
  counts : result < 2 ^ 63 → file'.pos = (file.pos + returned) % 2 ^ 64

/-- The position after a call of `filesys_read` is right. -/
def ReadMoves (fs : Filesystem) (disk : Mem) (dirents : ℕ → Dirent) (files : List File) (fd : ℕ)
    (file : File) (kmem : ℕ → UInt8) (input : List UInt8) (size : ℕ) : Prop :=
  ∃ call file', filesysRead fs disk dirents files fd kmem input size = some call ∧
    findFile call.files (fd % 2 ^ 32) = some file' ∧
    PositionOk file file' (fileRead fs disk dirents file.dirent file.pos size).1 call.nread

/-- The position after a call of `filesys_write` that returns is right. -/
def WriteMoves (fs : Filesystem) (disk : Mem) (dirents : ℕ → Dirent) (files : List File) (fd : ℕ)
    (file : File) (src : ℕ → UInt8) (size : ℕ) : Prop :=
  ∀ result ∈ fileWrite fs disk dirents file.dirent src file.pos size, ∃ call file',
    filesysWrite fs disk dirents files fd src size = some call ∧
    findFile call.files (fd % 2 ^ 32) = some file' ∧
    PositionOk file file' result.1 call.nwritten

/-! ## When a call fails -/

/-- `fileread` fails: the offset is past the end, the chain is too short, or the count is not an
`int`. -/
def FilereadFails (fs : Filesystem) (disk : Mem) (file : Fat32.Dirent) (off n : ℕ) : Prop :=
  file.size < off ∨ (0 < readLength file.size off n ∧
    (EndsBefore fs disk file.firstCluster (off / fs.sbinfo.bytesPerClus) ∨
      2 ^ 31 ≤ min (readLength file.size off n)
        (fs.sbinfo.bytesPerClus - off % fs.sbinfo.bytesPerClus +
          clusNum fs off (readLength file.size off n) * fs.sbinfo.bytesPerClus)))

/-- The disk and the entry after the extension of `filewrite`; `none` when it does not end. -/
def extendFor (fs : Filesystem) (disk : Mem) (file : Fat32.Dirent) (off n : ℕ) :
    Option (Mem × Fat32.Dirent) :=
  if file.size < (off + n) % 2 ^ 32 then Fat32.fileExtend fs disk file ((off + n) % 2 ^ 32)
  else some (disk, file)

/-- `filewrite` fails: the offset is past the end, the extended chain is too short, or the count is
not an `int`. -/
def FilewriteFails (fs : Filesystem) (disk : Mem) (file : Fat32.Dirent) (off n : ℕ) : Prop :=
  0 < n ∧ (file.size < off ∨ ∃ extended, extendFor fs disk file off n = some extended ∧
    (EndsBefore fs extended.1 extended.2.firstCluster (off / fs.sbinfo.bytesPerClus) ∨
      2 ^ 31 ≤ min n (fs.sbinfo.bytesPerClus - off % fs.sbinfo.bytesPerClus +
        Fat32.filewriteMore fs off n * fs.sbinfo.bytesPerClus)))

/-- `file_read` fails. -/
def ReadFails (fs : Filesystem) (disk : Mem) (dirents : ℕ → Dirent) (dirent : Option ℕ)
    (offset sz : ℕ) : Prop :=
  match dirent with
  | none => True
  | some d => 0 < sz ∧ (¬ ((dirents d).flag = 0 ∨ (dirents d).flag = 2) ∨
      FilereadFails fs disk (onDisk (dirents d)) (offset % 2 ^ 32) (sz % 2 ^ 32))

/-- `file_write` fails. -/
def WriteFails (fs : Filesystem) (disk : Mem) (dirents : ℕ → Dirent) (dirent : Option ℕ)
    (offset sz : ℕ) : Prop :=
  match dirent with
  | none => True
  | some d => 0 < sz ∧ (¬ ((dirents d).flag = 1 ∨ (dirents d).flag = 2) ∨
      FilewriteFails fs disk (onDisk (dirents d)) (offset % 2 ^ 32) (sz % 2 ^ 32))

section Failures

variable {fs : Filesystem} {disk : Mem} {dirents : ℕ → Dirent} {file : Fat32.Dirent}
  {src : ℕ → UInt8} {off n : ℕ}

theorem toSize_neg_iff {r : ℤ} (hlo : -2 ^ 63 ≤ r) (hhi : r < 2 ^ 63) :
    2 ^ 63 ≤ toSize r ↔ r < 0 := by
  rw [toSize]
  omega

theorem toSize_lt (r : ℤ) : toSize r < 2 ^ 64 := by
  rw [toSize]
  omega

theorem toInt_bounds (x : ℕ) : -2 ^ 63 ≤ toInt x ∧ toInt x < 2 ^ 63 := by
  rw [toInt]
  split <;> omega

theorem fileread_fails_iff (hn : n < 2 ^ 32) :
    2 ^ 63 ≤ toSize (Fat32.fileread fs disk file off n).1 ↔ FilereadFails fs disk file off n := by
  rw [FilereadFails]
  by_cases hoff : file.size < off
  · rw [Fat32.fileread, if_pos hoff]
    exact iff_of_true (by decide) (.inl hoff)
  obtain hzero | hpos := Nat.eq_zero_or_pos (readLength file.size off n)
  · rw [Fat32.fileread_nothing (by omega) hzero]
    exact iff_of_false (by decide) (by omega)
  have hlt := Fat32.readLength_lt file.size off hn
  rw [Fat32.fileread_result (by omega) hpos hn]
  split
  · rename_i hends
    exact iff_of_true (by decide) (.inr ⟨hpos, .inl hends⟩)
  · rename_i hends
    rw [toSize_neg_iff (toInt_bounds _).1 (toInt_bounds _).2,
      Fat32.toInt_neg_iff ((Nat.min_le_left _ _).trans_lt hlt)]
    constructor
    · exact fun hlong => .inr ⟨hpos, .inr hlong⟩
    · rintro (hbeyond | ⟨-, hshort | hlong⟩)
      · exact absurd hbeyond hoff
      · exact absurd hshort hends
      · exact hlong

theorem filewrite_fails_iff (hn : n < 2 ^ 32) {result : ℤ × Mem × Fat32.Dirent}
    (hwrite : Fat32.filewrite fs disk file src off n = some result) :
    2 ^ 63 ≤ toSize result.1 ↔ FilewriteFails fs disk file off n := by
  rw [FilewriteFails]
  obtain rfl | hpos := Nat.eq_zero_or_pos n
  · rw [Fat32.filewrite, if_pos rfl] at hwrite
    obtain rfl := Option.some.inj hwrite
    exact iff_of_false (show ¬ 2 ^ 63 ≤ toSize 0 by decide) (by omega)
  by_cases hoff : file.size < off
  · rw [Fat32.filewrite, if_neg hpos.ne', if_pos hoff] at hwrite
    obtain rfl := Option.some.inj hwrite
    exact iff_of_true (show 2 ^ 63 ≤ toSize (-3) by decide) ⟨hpos, .inl hoff⟩
  cases hextend : extendFor fs disk file off n with
  | none =>
      rw [Fat32.filewrite_none (by omega) hpos hextend] at hwrite
      cases hwrite
  | some extended =>
      obtain ⟨disk', file'⟩ := extended
      rw [Fat32.filewrite_eq (by omega) hpos hextend, Option.some.injEq] at hwrite
      obtain ⟨count, written, entry⟩ := result
      have hcount := Fat32.filewriteRest_result hn hwrite
      rw [hcount]
      split
      · rename_i hends
        exact iff_of_true (show 2 ^ 63 ≤ toSize (-1) by decide) ⟨hpos, .inr ⟨_, rfl, .inl hends⟩⟩
      · rename_i hends
        rw [toSize_neg_iff (toInt_bounds _).1 (toInt_bounds _).2,
          Fat32.toInt_neg_iff ((Nat.min_le_left _ _).trans_lt hn)]
        constructor
        · exact fun hlong => ⟨hpos, .inr ⟨_, rfl, .inr hlong⟩⟩
        · rintro ⟨-, hbeyond | ⟨extended, heq, hshort | hlong⟩⟩
          · exact absurd hbeyond hoff
          · obtain rfl := Option.some.inj heq
            exact absurd hshort hends
          · exact hlong

/-- A write that does not return has not failed. -/
theorem not_filewriteFails (hwrite : Fat32.filewrite fs disk file src off n = none) :
    ¬ FilewriteFails fs disk file off n := by
  rintro ⟨hpos, hbeyond | ⟨extended, hextend, -⟩⟩
  · rw [Fat32.filewrite, if_neg hpos.ne', if_pos hbeyond] at hwrite
    cases hwrite
  · by_cases hoff : file.size < off
    · rw [Fat32.filewrite, if_neg hpos.ne', if_pos hoff] at hwrite
      cases hwrite
    · rw [Fat32.filewrite_eq (by omega) hpos hextend] at hwrite
      cases hwrite

theorem readFails_iff (dirent : Option ℕ) (offset sz : ℕ) :
    2 ^ 63 ≤ (fileRead fs disk dirents dirent offset sz).1 ↔
      ReadFails fs disk dirents dirent offset sz := by
  cases dirent with
  | none => exact iff_of_true (show 2 ^ 63 ≤ toSize (-1) by decide) trivial
  | some d =>
      rw [fileRead, ReadFails]
      dsimp only
      split
      · exact iff_of_false (show ¬ 2 ^ 63 ≤ 0 by decide) (by omega)
      · rename_i hsz
        split
        · rename_i hflag
          have hfails := @fileread_fails_iff fs disk (onDisk (dirents d)) (offset % 2 ^ 32)
            (sz % 2 ^ 32) (Nat.mod_lt _ (by decide))
          constructor
          · exact fun hneg => ⟨Nat.pos_of_ne_zero hsz, .inr (hfails.mp hneg)⟩
          · rintro ⟨-, hmode | hread⟩
            · exact absurd hflag hmode
            · exact hfails.mpr hread
        · rename_i hflag
          exact iff_of_true (show 2 ^ 63 ≤ toSize (-1) by decide)
            ⟨Nat.pos_of_ne_zero hsz, .inl hflag⟩

theorem writeFails_iff {dirent : Option ℕ} {offset sz : ℕ} {result : ℕ × Mem × (ℕ → Dirent)}
    (hwrite : fileWrite fs disk dirents dirent src offset sz = some result) :
    2 ^ 63 ≤ result.1 ↔ WriteFails fs disk dirents dirent offset sz := by
  cases dirent with
  | none =>
      obtain rfl := Option.some.inj hwrite
      exact iff_of_true (show 2 ^ 63 ≤ toSize (-1) by decide) trivial
  | some d =>
      rw [fileWrite] at hwrite
      rw [WriteFails]
      dsimp only at hwrite ⊢
      split at hwrite
      · obtain rfl := Option.some.inj hwrite
        exact iff_of_false (show ¬ 2 ^ 63 ≤ 0 by decide) (by omega)
      · rename_i hsz
        split at hwrite
        · rename_i hflag
          obtain ⟨call, hcall, rfl⟩ := Option.map_eq_some_iff.mp hwrite
          have hfails := filewrite_fails_iff (Nat.mod_lt sz (show 0 < 2 ^ 32 by decide)) hcall
          constructor
          · exact fun hneg => ⟨Nat.pos_of_ne_zero hsz, .inr (hfails.mp hneg)⟩
          · rintro ⟨-, hmode | hfail⟩
            · exact absurd hflag hmode
            · exact hfails.mpr hfail
        · rename_i hflag
          obtain rfl := Option.some.inj hwrite
          exact iff_of_true (show 2 ^ 63 ≤ toSize (-1) by decide)
            ⟨Nat.pos_of_ne_zero hsz, .inl hflag⟩

theorem not_writeFails {dirent : Option ℕ} {offset sz : ℕ}
    (hwrite : fileWrite fs disk dirents dirent src offset sz = none) :
    ¬ WriteFails fs disk dirents dirent offset sz := by
  cases dirent with
  | none => cases hwrite
  | some d =>
      rw [fileWrite] at hwrite
      dsimp only at hwrite
      split at hwrite
      · cases hwrite
      · split at hwrite
        · rename_i hflag
          rintro ⟨-, hmode | hfail⟩
          · exact hmode hflag
          · exact not_filewriteFails (Option.map_eq_none_iff.mp hwrite) hfail
        · cases hwrite

end Failures

/-! ## Exactness -/

theorem fileRead_lt {fs : Filesystem} {disk : Mem} {dirents : ℕ → Dirent} (dirent : Option ℕ)
    (offset sz : ℕ) : (fileRead fs disk dirents dirent offset sz).1 < 2 ^ 64 := by
  cases dirent with
  | none => exact toSize_lt (-1)
  | some d =>
      rw [fileRead]
      dsimp only
      split
      · exact (by decide : 0 < 2 ^ 64)
      · split
        · exact toSize_lt _
        · exact toSize_lt (-1)

theorem fileWrite_lt {fs : Filesystem} {disk : Mem} {dirents : ℕ → Dirent} {src : ℕ → UInt8}
    {dirent : Option ℕ} {offset sz : ℕ} {result : ℕ × Mem × (ℕ → Dirent)}
    (hwrite : fileWrite fs disk dirents dirent src offset sz = some result) :
    result.1 < 2 ^ 64 := by
  cases dirent with
  | none =>
      obtain rfl := Option.some.inj hwrite
      exact toSize_lt (-1)
  | some d =>
      rw [fileWrite] at hwrite
      dsimp only at hwrite
      split at hwrite
      · obtain rfl := Option.some.inj hwrite
        exact (by decide : 0 < 2 ^ 64)
      · split at hwrite
        · obtain ⟨call, -, rfl⟩ := Option.map_eq_some_iff.mp hwrite
          exact toSize_lt _
        · obtain rfl := Option.some.inj hwrite
          exact toSize_lt (-1)

/-- Adding the result to the position is right exactly when it is no error. -/
theorem positionOk_iff (file : File) {result : ℕ} (hresult : result < 2 ^ 64) :
    PositionOk file { file with pos := (file.pos + result) % 2 ^ 64 } result result ↔
      result < 2 ^ 63 := by
  constructor
  · rintro ⟨hfails, -⟩
    by_contra hneg
    have hsame := (hfails (by omega)).2
    dsimp only at hsame
    omega
  · intro hlt
    exact ⟨fun hneg => absurd hlt (by omega), fun _ => rfl⟩

section Moves

variable {fs : Filesystem} {disk : Mem} {dirents : ℕ → Dirent} {files : List File} {fd : ℕ}
  {file : File}

theorem filesysRead_eq (hfind : findFile files (fd % 2 ^ 32) = some file)
    (htype : file.type ≠ .device) (kmem : ℕ → UInt8) (input : List UInt8) (size : ℕ) :
    ∃ call, filesysRead fs disk dirents files fd kmem input size = some call ∧
      call.nread = (fileRead fs disk dirents file.dirent file.pos size).1 ∧
      findFile call.files (fd % 2 ^ 32) =
        some { file with pos := (file.pos + call.nread) % 2 ^ 64 } := by
  rw [filesysRead, hfind]
  dsimp only
  rw [if_neg htype]
  exact ⟨_, rfl, rfl, findFile_setPos hfind⟩

theorem filesysWrite_eq (hfind : findFile files (fd % 2 ^ 32) = some file)
    (htype : file.type ≠ .device) {src : ℕ → UInt8} {size : ℕ} {result : ℕ × Mem × (ℕ → Dirent)}
    (hwrite : fileWrite fs disk dirents file.dirent src file.pos size = some result) :
    ∃ call, filesysWrite fs disk dirents files fd src size = some call ∧
      call.nwritten = result.1 ∧
      findFile call.files (fd % 2 ^ 32) =
        some { file with pos := (file.pos + call.nwritten) % 2 ^ 64 } := by
  rw [filesysWrite, hfind]
  dsimp only
  rw [if_neg htype, hwrite, Option.map_some]
  exact ⟨_, rfl, rfl, findFile_setPos hfind⟩

theorem readMoves_iff (hfind : findFile files (fd % 2 ^ 32) = some file)
    (htype : file.type ≠ .device) (kmem : ℕ → UInt8) (input : List UInt8) (size : ℕ) :
    ReadMoves fs disk dirents files fd file kmem input size ↔
      ¬ ReadFails fs disk dirents file.dirent file.pos size := by
  obtain ⟨call, hcall, hread, hfile⟩ := filesysRead_eq hfind htype kmem input size
  have hok := positionOk_iff file (@fileRead_lt fs disk dirents file.dirent file.pos size)
  rw [← readFails_iff, not_le, ← hok, ReadMoves]
  rw [hread] at hfile
  constructor
  · rintro ⟨call', file', hcall', hfile', hposition⟩
    obtain rfl := Option.some.inj (hcall.symm.trans hcall')
    obtain rfl := Option.some.inj (hfile.symm.trans hfile')
    rw [hread] at hposition
    exact hposition
  · intro hposition
    exact ⟨call, _, hcall, hfile, by rwa [hread]⟩

theorem writeMoves_iff (hfind : findFile files (fd % 2 ^ 32) = some file)
    (htype : file.type ≠ .device) (src : ℕ → UInt8) (size : ℕ) :
    WriteMoves fs disk dirents files fd file src size ↔
      ¬ WriteFails fs disk dirents file.dirent file.pos size := by
  cases hwrite : fileWrite fs disk dirents file.dirent src file.pos size with
  | none =>
      rw [WriteMoves, hwrite]
      exact iff_of_true (fun result hresult => by cases hresult) (not_writeFails hwrite)
  | some result =>
      obtain ⟨call, hcall, hresult, hfile⟩ := filesysWrite_eq hfind htype hwrite
      have hok := positionOk_iff file (fileWrite_lt hwrite)
      rw [← writeFails_iff hwrite, not_le, ← hok, WriteMoves, hwrite]
      rw [hresult] at hfile
      constructor
      · intro hmoves
        obtain ⟨call', file', hcall', hfile', hposition⟩ := hmoves result rfl
        obtain rfl := Option.some.inj (hcall.symm.trans hcall')
        obtain rfl := Option.some.inj (hfile.symm.trans hfile')
        rw [hresult] at hposition
        exact hposition
      · intro hposition result' hresult'
        obtain rfl := Option.some.inj hresult'
        exact ⟨call, _, hcall, hfile, by rwa [hresult]⟩

/-- The position of a regular file is right after a call exactly when the call below did not fail:
it had a mode for it, started in the file, and found its clusters. -/
theorem moves_iff (hfind : findFile files (fd % 2 ^ 32) = some file) (htype : file.type ≠ .device)
    (kmem src : ℕ → UInt8) (input : List UInt8) (size : ℕ) :
    (ReadMoves fs disk dirents files fd file kmem input size ↔
        ¬ ReadFails fs disk dirents file.dirent file.pos size) ∧
      (WriteMoves fs disk dirents files fd file src size ↔
        ¬ WriteFails fs disk dirents file.dirent file.pos size) :=
  ⟨readMoves_iff hfind htype kmem input size, writeMoves_iff hfind htype src size⟩

end Moves

/-- Writing nothing to the file of 100 bytes, opened for reading. -/
theorem moves_smallOpen :
    WriteMoves Fat32.smallVolume Fat32.smallDisk (fun _ => ⟨2, 100, 0, 0, 1⟩) [smallOpen] 3
      smallOpen (fun _ => 7) 0 :=
  (moves_iff rfl (show smallOpen.type ≠ .device by decide) (fun _ => 0) (fun _ => 7) [] 0).2.mpr
    fun hfails => absurd hfails.1 (by decide)

/-- Writing 60 bytes to it fails, and moves the position from 0 to -1. -/
theorem not_moves_smallOpen :
    ¬ WriteMoves Fat32.smallVolume Fat32.smallDisk (fun _ => ⟨2, 100, 0, 0, 1⟩) [smallOpen] 3
      smallOpen (fun _ => 7) 60 := by
  rw [writeMoves_iff rfl (show smallOpen.type ≠ .device by decide)]
  intro hnot
  exact hnot ⟨by decide, .inl (by decide)⟩

end Painting.SysRead
