import Painting.Fs.FatChains
import Painting.Mm.Mapping
import Painting.Sys.SysRead

/-!
# What `sys_read` copies out

A count that `filesys_read` returns is the number of bytes it has stored, unless it is
an error.  From this, round by round, what `sys_read` copies was stored in the same
round, exactly as long as no error meets memory that the user may write.
-/

namespace Painting.SysRead

open Painting.Memory Painting.PageTable Painting.Descriptors
open Painting.Fat32 (Filesystem Geometry toInt)

variable {fs : Filesystem} {disk : Mem} {dirents : ℕ → Dirent}

/-! ## Counts -/

theorem length_clusreadLoop (hsector : 0 < fs.superblock.bytesPerSector) (disk : Mem)
    {secNo readLen n rounds : ℕ} (hrounds : n - readLen ≤ rounds) :
    (Fat32.clusreadLoop fs disk secNo readLen n rounds).length = n - readLen := by
  induction rounds generalizing secNo readLen with
  | zero =>
      rw [Fat32.clusreadLoop, List.length_nil]
      omega
  | succ rounds ih =>
      rw [Fat32.clusreadLoop]
      split
      · rw [List.length_append, List.length_map, List.length_range, ih (by omega)]
        omega
      · rw [List.length_nil]
        omega

/-- `clusread` copies as many bytes as it is asked for. -/
theorem length_clusread (hsector : 0 < fs.superblock.bytesPerSector) (disk : Mem)
    (clusNo offset n : ℕ) : (Fat32.clusread fs disk clusNo offset n).length = n := by
  have hmod := Nat.mod_lt offset hsector
  simp only [Fat32.clusread]
  split
  · rename_i hone
    rw [List.length_map, List.length_range, hone]
  · rw [List.length_append, List.length_map, List.length_range,
      length_clusreadLoop hsector disk (Nat.sub_le _ _)]
    omega

theorem filereadLoop_count (hsector : 0 < fs.superblock.bytesPerSector) (disk : Mem)
    {clus len n count : ℕ} (hlen : len ≤ n) (hn : n < 2 ^ 32) :
    (Fat32.filereadLoop fs disk clus len n count).1 =
        len + (Fat32.filereadLoop fs disk clus len n count).2.length ∧
      (Fat32.filereadLoop fs disk clus len n count).1 ≤ n := by
  induction count generalizing clus len with
  | zero => exact ⟨rfl, hlen⟩
  | succ count ih =>
      have hleft : (n + 2 ^ 32 - len) % 2 ^ 32 = if len = 0 then n else n - len := by
        split <;> omega
      have hpiece : min ((n + 2 ^ 32 - len) % 2 ^ 32) fs.sbinfo.bytesPerClus ≤ n - len := by
        omega
      generalize hdef : min ((n + 2 ^ 32 - len) % 2 ^ 32) fs.sbinfo.bytesPerClus = piece at hpiece
      have hwrap : (len + piece) % 2 ^ 32 = len + piece := Nat.mod_eq_of_lt (by omega)
      obtain ⟨hcount, hbound⟩ := @ih (Fat32.fatread fs disk clus) (len + piece) (by omega)
      simp only [Fat32.filereadLoop, hdef, hwrap, List.length_append,
        length_clusread hsector disk]
      refine ⟨?_, hbound⟩
      omega

/-- `fileread` of at most a buffer: the bytes it stores, or an error without any. -/
theorem fileread_count (hsector : 0 < fs.superblock.bytesPerSector) (disk : Mem)
    (file : Fat32.Dirent) (off : ℕ) {n : ℕ} (hn : n ≤ buflen) :
    ((Fat32.fileread fs disk file off n).1 = (Fat32.fileread fs disk file off n).2.length ∧
        (Fat32.fileread fs disk file off n).2.length ≤ n) ∨
      (((Fat32.fileread fs disk file off n).1 = -1 ∨ (Fat32.fileread fs disk file off n).1 = -3) ∧
        (Fat32.fileread fs disk file off n).2 = []) := by
  simp only [buflen] at hn
  rw [Fat32.fileread]
  split
  · exact .inr ⟨.inr rfl, rfl⟩
  · rename_i hoff
    have hsmall : (if file.size < (off + n) % 2 ^ 32 then (file.size - off) % 2 ^ 32 else n) ≤ n := by
      split <;> omega
    generalize (if file.size < (off + n) % 2 ^ 32 then (file.size - off) % 2 ^ 32 else n) = m at hsmall
    dsimp only
    split
    · exact .inl ⟨rfl, Nat.zero_le _⟩
    · split
      · exact .inr ⟨.inl rfl, rfl⟩
      · generalize Fat32.fileGetClusNo fs disk file (off / fs.sbinfo.bytesPerClus) = clus
        generalize ((off + m - 1) % 2 ^ 32 + 2 ^ 64 - off) % 2 ^ 64 / fs.sbinfo.bytesPerClus %
          2 ^ 32 = count
        have hpiece := Nat.min_le_left m (fs.sbinfo.bytesPerClus - off % fs.sbinfo.bytesPerClus)
        generalize min m (fs.sbinfo.bytesPerClus - off % fs.sbinfo.bytesPerClus) = piece at hpiece ⊢
        obtain ⟨hcount, hbound⟩ := @filereadLoop_count fs hsector disk (Fat32.fatread fs disk clus)
          piece m count hpiece (by omega)
        generalize Fat32.filereadLoop fs disk (Fat32.fatread fs disk clus) piece m count = rest
          at hcount hbound ⊢
        rw [List.length_append, length_clusread hsector disk, ← hcount,
          Fat32.toInt_of_lt (by omega)]
        exact .inl ⟨rfl, hbound.trans hsmall⟩

theorem consoleLoop_count {n : ℤ} {input rest : List UInt8} {kmem kmem' : ℕ → UInt8} {i i' : ℕ}
    (hi : (i : ℤ) ≤ n - 1) (hread : consoleLoop n input kmem i = some (i', kmem', rest)) :
    (i' : ℤ) ≤ n - 1 := by
  induction input generalizing kmem i with
  | nil =>
      rw [consoleLoop] at hread
      split at hread
      · cases hread
      · obtain ⟨rfl, _⟩ := Prod.mk.injEq .. ▸ Option.some.inj hread
        exact hi
  | cons c input ih =>
      rw [consoleLoop] at hread
      split at hread
      · split at hread
        · obtain ⟨rfl, _⟩ := Prod.mk.injEq .. ▸ Option.some.inj hread
          exact hi
        · split at hread
          · refine ih ?_ hread
            split <;> omega
          · split at hread
            · obtain ⟨rfl, _⟩ := Prod.mk.injEq .. ▸ Option.some.inj hread
              omega
            · exact ih (by omega) hread
      · obtain ⟨rfl, _⟩ := Prod.mk.injEq .. ▸ Option.some.inj hread
        exact hi

/-- An honest count: as many bytes as were stored.  An error: no byte was stored. -/
def Counted (n nread stored : ℕ) : Prop :=
  (nread ≤ n ∧ stored = nread) ∨ (n < nread ∧ nread < 2 ^ 64 ∧ stored = 0)

theorem toSize_of_nat {count : ℕ} (hcount : count < 2 ^ 64) : toSize count = count := by
  simp only [toSize]
  omega

theorem fileRead_counted (hsector : 0 < fs.superblock.bytesPerSector) (dirent : Option ℕ)
    (offset : ℕ) {n : ℕ} (hn : n ≤ buflen) :
    Counted n (fileRead fs disk dirents dirent offset n).1
      (fileRead fs disk dirents dirent offset n).2.length := by
  simp only [buflen] at hn
  have herror : toSize (-1) = 2 ^ 64 - 1 := by decide
  cases dirent with
  | none =>
      rw [fileRead, herror]
      exact .inr ⟨by omega, by omega, rfl⟩
  | some d =>
      rw [fileRead]
      split
      · exact .inl ⟨Nat.zero_le _, rfl⟩
      · split
        · have hcount := fileread_count hsector disk
            ⟨(dirents d).firstCluster, (dirents d).size⟩ (offset % 2 ^ 32)
            (show n % 2 ^ 32 ≤ buflen by simp only [buflen]; omega)
          generalize Fat32.fileread fs disk ⟨(dirents d).firstCluster, (dirents d).size⟩
            (offset % 2 ^ 32) (n % 2 ^ 32) = read at hcount
          dsimp only
          obtain ⟨hresult, hbound⟩ | ⟨hresult | hresult, hbytes⟩ := hcount
          · rw [hresult, toSize_of_nat (by omega)]
            exact .inl ⟨by omega, rfl⟩
          · rw [hresult, hbytes, herror]
            exact .inr ⟨by omega, by omega, rfl⟩
          · rw [hresult, hbytes, show toSize (-3) = 2 ^ 64 - 3 by decide]
            exact .inr ⟨by omega, by omega, rfl⟩
        · rw [herror]
          exact .inr ⟨by omega, by omega, rfl⟩

/-! ## One read -/

/-- The file of the descriptor is as at the start, but `total` bytes further on. -/
def Advanced (files files' : List File) (fd total : ℕ) : Prop :=
  match findFile files fd, findFile files' fd with
  | none, none => True
  | some file, some file' => file'.type = file.type ∧ file'.dirent = file.dirent ∧
      (file.type ≠ .device → file'.pos % 2 ^ 32 = (file.pos + total) % 2 ^ 32)
  | _, _ => False

theorem advanced_refl (files : List File) (fd : ℕ) : Advanced files files fd 0 := by
  rw [Advanced]
  cases findFile files fd with
  | none => trivial
  | some file => exact ⟨rfl, rfl, fun _ => rfl⟩

theorem findFile_setPos {files : List File} {fd pos : ℕ} {file : File}
    (hfind : findFile files fd = some file) :
    findFile (setPos files fd pos) fd = some { file with pos := pos } := by
  induction files with
  | nil => cases hfind
  | cons first rest ih =>
      rw [findFile, List.find?_cons] at hfind
      rw [setPos]
      by_cases hfd : first.fd = fd
      · rw [decide_eq_true hfd] at hfind
        obtain rfl := Option.some.inj hfind
        rw [if_pos hfd, findFile, List.find?_cons]
        simp [hfd]
      · rw [decide_eq_false hfd] at hfind
        rw [if_neg hfd, findFile, List.find?_cons, decide_eq_false hfd]
        exact ih hfind

theorem fileRead_offset (dirent : Option ℕ) {offset offset' : ℕ}
    (hsame : offset % 2 ^ 32 = offset' % 2 ^ 32) (n : ℕ) :
    fileRead fs disk dirents dirent offset n = fileRead fs disk dirents dirent offset' n := by
  cases dirent with
  | none => rfl
  | some d => rw [fileRead, fileRead, hsame]

theorem toInt_of_buflen {n : ℕ} (hn : n ≤ buflen) : toInt n = n := by
  simp only [buflen] at hn
  exact Fat32.toInt_of_lt (by omega)

/-- The console returns fewer bytes than asked for, and has stored as many. -/
theorem filesysRead_device {files files' : List File} {fd total n : ℕ} {file : File}
    {kmem : ℕ → UInt8} {input : List UInt8} (hpos : 0 < n) (hn : n ≤ buflen)
    (hfiles : Advanced files files' (fd % 2 ^ 32) total)
    (hfind : findFile files (fd % 2 ^ 32) = some file) (hdevice : file.type = .device)
    {call : ReadCall} (hread : filesysRead fs disk dirents files' fd kmem input n = some call) :
    call.nread < n ∧ call.stored = call.nread := by
  rw [Advanced, hfind] at hfiles
  rw [filesysRead] at hread
  cases hfind' : findFile files' (fd % 2 ^ 32) with
  | none =>
      rw [hfind'] at hfiles
      exact hfiles.elim
  | some file' =>
      rw [hfind'] at hfiles hread
      have hint := toInt_of_buflen hn
      dsimp only at hread
      rw [if_pos (hfiles.1.trans hdevice), consoleRead, if_neg (by omega)] at hread
      obtain ⟨⟨i, kmem', rest⟩, hloop, rfl⟩ := Option.map_eq_some_iff.mp hread
      have hcount := consoleLoop_count (by omega) hloop
      exact ⟨by dsimp only; omega, rfl⟩

/-- Any other read returns what it returns from the start. -/
theorem filesysRead_file (hsector : 0 < fs.superblock.bytesPerSector) {files files' : List File}
    {fd total n : ℕ} (kmem : ℕ → UInt8) (input : List UInt8) (hn : n ≤ buflen)
    (hfiles : Advanced files files' (fd % 2 ^ 32) total)
    (hfile : ∀ file, findFile files (fd % 2 ^ 32) = some file → file.type ≠ .device) :
    ∃ call, filesysRead fs disk dirents files' fd kmem input n = some call ∧
      call.nread = readAt fs disk dirents files fd total n ∧ Counted n call.nread call.stored ∧
      Advanced files call.files (fd % 2 ^ 32) (total + call.nread) := by
  have hfiles' := hfiles
  rw [Advanced] at hfiles
  rw [readAt, filesysRead]
  cases hfind : findFile files (fd % 2 ^ 32) with
  | none =>
      rw [hfind] at hfiles
      cases hfind' : findFile files' (fd % 2 ^ 32) with
      | none =>
          have herror : toSize (-1) = 2 ^ 64 - 1 := by decide
          refine ⟨_, rfl, rfl, ?_, ?_⟩
          · simp only [buflen] at hn
            rw [herror]
            exact .inr ⟨by dsimp only; omega, by dsimp only; omega, rfl⟩
          · rw [Advanced, hfind, hfind']
            trivial
      | some file' =>
          rw [hfind'] at hfiles
          exact hfiles.elim
  | some file =>
      rw [hfind] at hfiles
      cases hfind' : findFile files' (fd % 2 ^ 32) with
      | none =>
          rw [hfind'] at hfiles
          exact hfiles.elim
      | some file' =>
          rw [hfind'] at hfiles
          obtain ⟨htype, hdirent, hpos⟩ := hfiles
          have hfileType := hfile file hfind
          have hread := @fileRead_offset fs disk dirents file.dirent _ _ (hpos hfileType) n
          dsimp only
          rw [if_neg hfileType, if_neg (by rwa [htype]), hdirent, hread]
          have hcounted := @fileRead_counted fs disk dirents hsector file.dirent (file.pos + total)
            n hn
          refine ⟨_, rfl, rfl, hcounted, ?_⟩
          rw [Advanced, hfind, findFile_setPos hfind']
          refine ⟨htype, hdirent, fun hdevice => ?_⟩
          have hold := hpos hdevice
          dsimp only
          omega

/-! ## Rounds -/

section Rounds

variable {files₀ : List File} {pm₀ : Pm} {root fd addr size : ℕ} {tables : ℕ → Set ℕ}

/-- The state at the head of the loop, `total` bytes after the start. -/
structure LoopState (files₀ : List File) (pm₀ : Pm) (root : ℕ) (tables : ℕ → Set ℕ)
    (fd addr : ℕ) (pm : Pm) (files : List File) (total : ℕ) : Prop where
  tree : WellFormed pm.mem root tables
  frames : FramesApart pm.mem root tables
  same : ∀ va, translate pm.mem root va = translate pm₀.mem root va
  writable : ∀ k < total, Writable pm₀.mem root (addr + k)
  below : addr + total < maxVa
  files : Advanced files₀ files (fd % 2 ^ 32) total

theorem writable_congr {mem mem' : Mem}
    (hsame : ∀ va, translate mem' root va = translate mem root va) (va : ℕ) :
    Writable mem' root va ↔ Writable mem root va := by
  simp only [Writable, Accessible, hsame]

/-- Below the trampoline there is always a next address. -/
theorem succ_lt_of_writable {mem : Mem} (htramp : ¬ Accessible mem root true trampoline) {va : ℕ}
    (hva : Writable mem root va) : va + 1 < maxVa := by
  obtain ⟨hlt, haccess⟩ := hva
  have hpage : va / pgSize ≠ trampoline / pgSize := fun heq =>
    htramp ((accessible_page heq).mp haccess)
  simp only [maxVa, trampoline, pgSize] at *
  omega

variable {pm : Pm} {files : List File} {total : ℕ}

/-- What the `copyout` of a round does. -/
theorem LoopState.copyout (hstate : LoopState files₀ pm₀ root tables fd addr pm files total)
    (htramp : ¬ Accessible pm₀.mem root true trampoline) (src : ℕ → UInt8) (len : ℕ) :
    (addr + total) % 2 ^ 64 = addr + total ∧
      CopiedOut pm.mem (PageTable.copyout pm root (addr + total) src len).2.mem root tables
        (addr + total) len (PageTable.copyout pm root (addr + total) src len).1 := by
  have htramp' : ¬ Accessible pm.mem root true trampoline := by
    simpa only [Accessible, hstate.same] using htramp
  refine ⟨Nat.mod_eq_of_lt (hstate.below.trans (by decide)), ?_⟩
  exact copyoutLoop_spec hstate.tree hstate.frames htramp' hstate.below le_rfl

/-- After a round that has copied all its bytes. -/
theorem LoopState.next (hstate : LoopState files₀ pm₀ root tables fd addr pm files total)
    (htramp : ¬ Accessible pm₀.mem root true trampoline) {mid : Pm}
    {files' : List File} {len : ℕ} (hlen : 0 < len)
    (hcopied : CopiedOut pm.mem mid.mem root tables (addr + total) len (.ok 0))
    (hfiles : Advanced files₀ files' (fd % 2 ^ 32) (total + len)) :
    LoopState files₀ pm₀ root tables fd addr mid files' (total + len) := by
  have htranslate := hstate.tree.translate_frame hcopied.tables
  have hall : ∀ j < len, Writable pm₀.mem root (addr + total + j) := by
    obtain ⟨_, hall⟩ | ⟨habsurd, _⟩ := hcopied.result
    · exact fun j hj => (writable_congr hstate.same _).mp (hall j hj)
    · cases habsurd
  refine ⟨hstate.tree.frame hcopied.tables, hstate.frames.frame htranslate, ?_, ?_, ?_, hfiles⟩
  · exact fun va => (htranslate va).trans (hstate.same va)
  · intro k hk
    by_cases hold : k < total
    · exact hstate.writable k hold
    · have hnew := hall (k - total) (by omega)
      rwa [show addr + total + (k - total) = addr + k by omega] at hnew
  · have hlast := succ_lt_of_writable htramp (hall (len - 1) (by omega))
    omega

theorem sysReadLoop_done (rounds : ℕ) (kmem : ℕ → UInt8) (input : List UInt8)
    (hdone : size ≤ total) :
    sysReadLoop fs disk dirents root fd addr size rounds pm files kmem input total =
      ⟨some (.ok total), pm, []⟩ := by
  cases rounds with
  | zero => rfl
  | succ rounds => rw [sysReadLoop, if_neg (by omega)]

theorem readOk_stop {result : Option (Except Panic ℕ)}
    (hresult : result = none ∨
      ∃ count, result = some (.ok count) ∧ (count = 2 ^ 64 - 1 ∨ count ≤ size)) :
    ReadOk pm root addr size ⟨result, pm, []⟩ :=
  ⟨fun _ hx => absurd rfl hx, by simp, hresult⟩

/-- A round that keeps to the buffer and to the user's memory, and then the rest. -/
theorem ReadOk.cons {mid : Pm} {copy : Copy} {rest : ReadResult}
    (hsame : ∀ va, translate mid.mem root va = translate pm.mem root va)
    (hmemory : ∀ x, mid.mem x ≠ pm.mem x → ∃ va flags, addr ≤ va ∧ va < addr + size ∧
      va < maxVa ∧ translate pm.mem root va = some (x, flags) ∧ flags &&& pteU ≠ 0)
    (hcopy : copy.stored ≤ buflen ∧ ∀ k, Copied root copy k → k < copy.stored)
    (hrest : ReadOk mid root addr size rest) :
    ReadOk pm root addr size { rest with copies := copy :: rest.copies } := by
  refine ⟨fun x hx => ?_, ?_, hrest.result⟩
  · by_cases hmid : mid.mem x = pm.mem x
    · rw [← hmid] at hx
      obtain ⟨va, flags, hva⟩ := hrest.memory x hx
      rw [hsame] at hva
      exact ⟨va, flags, hva⟩
    · exact hmemory x hmid
  · intro other hother
    obtain rfl | hother := List.mem_cons.mp hother
    · exact hcopy
    · exact hrest.copies other hother

/-- A copy keeps to the rules when it copies only what was stored, or nothing at all. -/
theorem copy_ok {mem' : Mem} {result : Except Panic ℤ}
    {nread stored : ℕ} (hcopied : CopiedOut pm.mem mem' root tables (addr + total) nread result)
    (hcount : Counted (min (size - total) buflen) nread stored)
    (herror : min (size - total) buflen < nread → ¬ Writable pm.mem root (addr + total))
    (hmore : total < size) :
    (∀ x, mem' x ≠ pm.mem x → ∃ va flags, addr ≤ va ∧ va < addr + size ∧ va < maxVa ∧
        translate pm.mem root va = some (x, flags) ∧ flags &&& pteU ≠ 0) ∧
      stored ≤ buflen ∧ ∀ k, Copied root ⟨pm.mem, addr + total, nread, stored⟩ k → k < stored := by
  obtain ⟨hhonest, rfl⟩ | ⟨hbad, _, rfl⟩ := hcount
  · refine ⟨fun x hx => ?_, by omega, fun k hk => hk.1⟩
    obtain ⟨k, hk, hwritable, flags, hpa, huser⟩ := hcopied.changed x hx
    have hlt := (hwritable k le_rfl).1
    exact ⟨addr + total + k, flags, by omega, by omega, hlt, hpa, huser⟩
  · have hnot := herror hbad
    refine ⟨fun x hx => ?_, Nat.zero_le _, fun k hk => ?_⟩
    · obtain ⟨k, _, hwritable, _⟩ := hcopied.changed x hx
      exact absurd (hwritable 0 (Nat.zero_le k)) hnot
    · exact absurd (hk.2 0 (Nat.zero_le k)) hnot

/-- As long as no error meets writable memory, every round keeps to the rules. -/
theorem sysReadLoop_ok (hsector : 0 < fs.superblock.bytesPerSector)
    (htramp : ¬ Accessible pm₀.mem root true trampoline) (hsize : size < 2 ^ 64)
    (hfine : ∀ i, ¬ FailsAt fs disk dirents files₀ pm₀ root fd addr size i) {rounds i : ℕ}
    {kmem : ℕ → UInt8} {input : List UInt8} (hrounds : size - total ≤ rounds)
    (hround : total = buflen * i)
    (hfull : ∀ j < i, readAt fs disk dirents files₀ fd (buflen * j) buflen = buflen)
    (hstate : LoopState files₀ pm₀ root tables fd addr pm files total) (hle : total ≤ size) :
    ReadOk pm root addr size
      (sysReadLoop fs disk dirents root fd addr size rounds pm files kmem input total) := by
  induction rounds generalizing pm files kmem input total i with
  | zero =>
      rw [sysReadLoop_done 0 kmem input (by omega)]
      exact readOk_stop (.inr ⟨total, rfl, .inr hle⟩)
  | succ rounds ih =>
      by_cases hmore : total < size
      swap
      · rw [sysReadLoop_done _ kmem input (by omega)]
        exact readOk_stop (.inr ⟨total, rfl, .inr hle⟩)
      rw [sysReadLoop, if_pos hmore]
      dsimp only
      have hn : min (size - total) buflen ≤ buflen := Nat.min_le_right _ _
      have hn0 : 0 < min (size - total) buflen := by
        simp only [buflen]
        omega
      cases hread : filesysRead fs disk dirents files fd kmem input (min (size - total) buflen) with
      | none => exact readOk_stop (.inl rfl)
      | some call =>
          dsimp only
          split
          · exact readOk_stop (.inr ⟨total, rfl, .inr hle⟩)
          rename_i hnread
          obtain ⟨hcount, hafter⟩ : Counted (min (size - total) buflen) call.nread call.stored ∧
              (min (size - total) buflen ≤ call.nread →
                call.nread = readAt fs disk dirents files₀ fd total (min (size - total) buflen) ∧
                  Advanced files₀ call.files (fd % 2 ^ 32) (total + call.nread)) := by
            by_cases hdevice : ∃ file, findFile files₀ (fd % 2 ^ 32) = some file ∧
                file.type = .device
            · obtain ⟨file, hfind, hdevice⟩ := hdevice
              obtain ⟨hlt, hstored⟩ := filesysRead_device hn0 hn hstate.files hfind hdevice hread
              exact ⟨.inl ⟨hlt.le, hstored⟩, fun hge => by omega⟩
            · push Not at hdevice
              obtain ⟨call', hread', hresult, hcount, hfiles⟩ :=
                filesysRead_file hsector kmem input hn hstate.files hdevice
              obtain rfl := Option.some.inj (hread'.symm.trans hread)
              exact ⟨hcount, fun _ => ⟨hresult, hfiles⟩⟩
          have herror : min (size - total) buflen < call.nread →
              ¬ Writable pm.mem root (addr + total) := by
            intro hbad hwritable
            refine hfine i ⟨by omega, ?_, hfull, ?_⟩
            · intro k hk
              by_cases hlast : k = total
              · rw [hlast]
                exact (writable_congr hstate.same _).mp hwritable
              · exact hstate.writable k (by omega)
            · rw [← hround, ← (hafter hbad.le).1]
              exact hbad
          obtain ⟨hdst, hcopied⟩ := hstate.copyout htramp call.kmem call.nread
          rw [hdst]
          obtain ⟨hmemory, hcopy⟩ := copy_ok hcopied hcount herror hmore
          rcases hout : PageTable.copyout pm root (addr + total) call.kmem call.nread with
            ⟨result, mid⟩
          rw [hout] at hcopied hmemory
          dsimp only at hcopied hmemory
          have hsame := hstate.tree.translate_frame hcopied.tables
          obtain ⟨hresult, hall⟩ | ⟨hresult, _⟩ := hcopied.result
          · obtain rfl : result = .ok 0 := hresult
            have hfew : call.nread ≤ min (size - total) buflen := by
              by_contra hbad
              exact herror (by omega) (by simpa using hall 0 (by omega))
            have hwrap : (total + call.nread) % 2 ^ 64 = total + call.nread :=
              Nat.mod_eq_of_lt (by omega)
            dsimp only
            rw [if_neg (by decide), hwrap]
            split
            · exact ReadOk.cons hsame hmemory hcopy
                (readOk_stop (.inr ⟨_, rfl, .inr (by omega)⟩))
            · rename_i hwhole
              obtain ⟨hresult, hfiles⟩ := hafter (by omega)
              refine ReadOk.cons hsame hmemory hcopy ?_
              have hnext := hstate.next htramp (by omega) hcopied hfiles
              by_cases hlast : min (size - total) buflen = buflen
              · refine ih (i := i + 1) ?_ ?_ ?_ hnext ?_
                · omega
                · rw [Nat.mul_succ]
                  omega
                · intro j hj
                  by_cases hnew : j = i
                  · rw [hlast] at hresult
                    rw [hnew, ← hround, ← hresult]
                    omega
                  · exact hfull j (by omega)
                · omega
              · rw [sysReadLoop_done rounds _ _ (by omega)]
                exact readOk_stop (.inr ⟨_, rfl, .inr (by omega)⟩)
          · obtain rfl : result = .ok (-1) := hresult
            dsimp only
            rw [if_pos (by decide)]
            exact ReadOk.cons hsame hmemory hcopy (readOk_stop (.inr ⟨_, rfl, .inl rfl⟩))

/-- An error that meets writable memory is copied out as data. -/
theorem sysReadLoop_leaks (hsector : 0 < fs.superblock.bytesPerSector)
    (htramp : ¬ Accessible pm₀.mem root true trampoline) (hsize : size < 2 ^ 64) {i : ℕ}
    (hfails : FailsAt fs disk dirents files₀ pm₀ root fd addr size i) {rounds j left : ℕ}
    {kmem : ℕ → UInt8} {input : List UInt8} (hrounds : size - total ≤ rounds)
    (hround : total = buflen * j) (hleft : j + left = i)
    (hstate : LoopState files₀ pm₀ root tables fd addr pm files total) :
    ∃ copy ∈ (sysReadLoop fs disk dirents root fd addr size rounds pm files kmem input total).copies,
      Copied root copy 0 ∧ copy.stored = 0 := by
  have hdevice : ∀ file, findFile files₀ (fd % 2 ^ 32) = some file → file.type ≠ .device := by
    intro file hfind hdevice
    have hbad := hfails.fails
    rw [readAt, hfind] at hbad
    dsimp only at hbad
    rw [if_pos hdevice] at hbad
    exact absurd hbad (lt_irrefl _)
  have hlast := hfails.more
  have hbefore : total ≤ buflen * i := by
    rw [hround]
    exact Nat.mul_le_mul_left _ (by omega)
  induction left generalizing pm files kmem input total j rounds with
  | zero =>
      obtain rfl : j = i := by omega
      obtain ⟨rounds, rfl⟩ : ∃ r, rounds = r + 1 := ⟨rounds - 1, by omega⟩
      obtain ⟨call, hread, hresult, hcount, _⟩ := filesysRead_file hsector kmem input
        (Nat.min_le_right (size - total) buflen) hstate.files hdevice
      have hbad : min (size - total) buflen < call.nread := by
        rw [hresult, hround]
        exact hfails.fails
      have hstored : call.stored = 0 := by
        obtain ⟨hhonest, _⟩ | ⟨_, _, hstored⟩ := hcount
        · omega
        · exact hstored
      have hdst := (hstate.copyout htramp call.kmem call.nread).1
      have hwritable : Writable pm.mem root (addr + total) :=
        (writable_congr hstate.same _).mpr (hround ▸ hfails.writable _ le_rfl)
      rw [sysReadLoop, if_pos (by omega)]
      dsimp only
      rw [hread]
      dsimp only
      rw [if_neg (by omega), hdst]
      refine ⟨⟨pm.mem, addr + total, call.nread, call.stored⟩, ?_, ⟨by dsimp only; omega, ?_⟩,
        hstored⟩
      · split
        · exact List.mem_singleton.mpr rfl
        · split
          · exact List.mem_singleton.mpr rfl
          · split
            · exact List.mem_singleton.mpr rfl
            · exact List.mem_cons_self
      · intro k hk
        obtain rfl : k = 0 := by omega
        exact hwritable
  | succ left ih =>
      obtain ⟨rounds, rfl⟩ : ∃ r, rounds = r + 1 := ⟨rounds - 1, by omega⟩
      have hnext : buflen * (j + 1) ≤ buflen * i := Nat.mul_le_mul_left _ (by omega)
      rw [Nat.mul_succ] at hnext
      have hwhole : min (size - total) buflen = buflen := Nat.min_eq_right (by omega)
      obtain ⟨call, hread, hresult, hcount, hfiles⟩ := filesysRead_file hsector kmem input
        (Nat.min_le_right (size - total) buflen) hstate.files hdevice
      have hnread : call.nread = buflen := by
        rw [hresult, hwhole, hround]
        exact hfails.full j (by omega)
      obtain ⟨hdst, hcopied⟩ := hstate.copyout htramp call.kmem call.nread
      rcases hout : PageTable.copyout pm root (addr + total) call.kmem call.nread with
        ⟨result, mid⟩
      rw [hout] at hcopied
      dsimp only at hcopied
      have hall : ∀ k < call.nread, Writable pm.mem root (addr + total + k) := by
        intro k hk
        rw [writable_congr hstate.same, Nat.add_assoc]
        exact hfails.writable (total + k) (by omega)
      obtain ⟨rfl, _⟩ | ⟨_, hnot⟩ := hcopied.result
      swap
      · exact absurd hall hnot
      have hpos : 0 < call.nread := by
        rw [hnread]
        decide
      have hwrap : (total + call.nread) % 2 ^ 64 = total + call.nread :=
        Nat.mod_eq_of_lt (by omega)
      rw [sysReadLoop, if_pos (by omega)]
      dsimp only
      rw [hread]
      dsimp only
      rw [if_neg (by omega), hdst, hout]
      dsimp only
      rw [if_neg (by decide), if_neg (by omega), hwrap]
      have hrounds' : size - (total + call.nread) ≤ rounds := by omega
      have hround' : total + call.nread = buflen * (j + 1) := by
        rw [Nat.mul_succ]
        omega
      obtain ⟨copy, hcopy, hbad⟩ := ih hrounds' hround' (by omega)
        (hstate.next htramp hpos hcopied hfiles) (by omega)
      exact ⟨copy, List.mem_cons_of_mem _ hcopy, hbad⟩

/-! ## The call -/

theorem validUserArg_ok {pm : Pm} {root addr : ℕ} (hroot : root ≠ 0)
    (hvalid : validUserArg pm (some root) addr = .ok true) : addr < maxVa := by
  by_contra htop
  rw [(validUserArg_panics_iff hroot).mpr (not_lt.mp htop)] at hvalid
  cases hvalid

theorem loopState_start {pm : Pm} (hwf : WellFormed pm.mem root tables)
    (hframes : FramesApart pm.mem root tables) (haddr : addr < maxVa) (files : List File) :
    LoopState files pm root tables fd addr pm files 0 :=
  ⟨hwf, hframes, fun _ => rfl, fun _ hk => absurd hk (Nat.not_lt_zero _), haddr,
    advanced_refl files _⟩

/-- An error of `filesys_read` that meets writable memory breaks the rules. -/
theorem sysRead_not_ok (hsector : 0 < fs.superblock.bytesPerSector) {pm : Pm}
    (hwf : WellFormed pm.mem root tables) (hframes : FramesApart pm.mem root tables)
    (htramp : ¬ Accessible pm.mem root true trampoline) (hsize : size < 2 ^ 64)
    (haddr : addr < maxVa) (hvalid : validUserArg pm (some root) addr = .ok true)
    {files : List File} {i : ℕ} (hfails : FailsAt fs disk dirents files pm root fd addr size i)
    (kmem : ℕ → UInt8) (input : List UInt8) :
    ¬ ReadOk pm root addr size
      (sysRead fs disk dirents pm root files (some kmem) input fd addr size) := by
  intro hok
  have hleft : size - 0 ≤ size := Nat.sub_le _ _
  rw [sysRead, hvalid] at hok
  obtain ⟨copy, hcopy, hcopied, hstored⟩ : ∃ copy ∈ (sysReadLoop fs disk dirents root fd addr size
      size pm files kmem input 0).copies, Copied root copy 0 ∧ copy.stored = 0 :=
    sysReadLoop_leaks hsector htramp hsize hfails hleft (Nat.mul_zero _).symm (Nat.zero_add i)
      (loopState_start hwf hframes haddr files)
  have hlt := (hok.copies copy hcopy).2 0 hcopied
  rw [hstored] at hlt
  exact absurd hlt (lt_irrefl _)

/-- `sys_read` keeps to the user's range and to its buffer exactly as long as no error of
`filesys_read` meets memory that the user may write. -/
theorem sysRead_ok_iff (hsector : 0 < fs.superblock.bytesPerSector) {pm : Pm} (hroot : root ≠ 0)
    (hwf : WellFormed pm.mem root tables) (hframes : FramesApart pm.mem root tables)
    (htramp : ¬ Accessible pm.mem root true trampoline) (hsize : size < 2 ^ 64)
    (hvalid : validUserArg pm (some root) addr = .ok true) (files : List File)
    (buf : Option (ℕ → UInt8)) (input : List UInt8) :
    ReadOk pm root addr size (sysRead fs disk dirents pm root files buf input fd addr size) ↔
      buf = none ∨ ∀ i, ¬ FailsAt fs disk dirents files pm root fd addr size i := by
  have haddr := validUserArg_ok hroot hvalid
  cases buf with
  | none =>
      rw [sysRead, hvalid]
      exact ⟨fun _ => .inl rfl, fun _ => readOk_stop (.inr ⟨_, rfl, .inl rfl⟩)⟩
  | some kmem =>
      constructor
      · intro hok
        refine .inr fun i hfails => ?_
        exact sysRead_not_ok hsector hwf hframes htramp hsize haddr hvalid hfails kmem input hok
      · rintro (habsurd | hfine)
        · cases habsurd
        · rw [sysRead, hvalid]
          exact sysReadLoop_ok hsector htramp hsize hfine (Nat.sub_le _ _) (Nat.mul_zero _).symm
            (fun j hj => absurd hj (Nat.not_lt_zero j))
            (loopState_start hwf hframes haddr files) (Nat.zero_le _)

end Rounds

/-! ## A process with one page -/

def onePageRoot : ℕ := 0x80300000

/-- The page at address 0 is mapped for the user. -/
def onePage : Pm :=
  match mappages twoPages onePageRoot 0 0x80303000 4096 (pteR ||| pteW ||| pteU) with
  | .ok (_, pm) => pm
  | .error _ => twoPages

theorem onePage_spec :
    ∃ tables, WellFormed onePage.mem onePageRoot tables ∧
      FramesApart onePage.mem onePageRoot tables ∧
      ¬ Accessible onePage.mem onePageRoot true trampoline ∧
      Writable onePage.mem onePageRoot 0 := by
  have hzero : ∀ i < 512, entry twoPages.mem onePageRoot i = 0 := fun _ _ => rfl
  have hwf := wellFormed_rootOnly (show onePageRoot % pgSize = 0 from rfl) hzero
  have hfresh : Fresh twoPages.freelist (rootOnly onePageRoot) := by
    refine ⟨by simp [twoPages], by simp [twoPages, pgSize], by simp [twoPages], ?_⟩
    intro page hpage level _ htable
    simp only [rootOnly] at htable
    split at htable
    · rw [Set.mem_singleton_iff.mp htable] at hpage
      simp [twoPages, onePageRoot] at hpage
    · exact htable
  obtain ⟨ret, pm', tables, upto, hmap, hgrown, -, -, hret, htranslate⟩ :=
    mappages_spec hwf hfresh (show 0 % pgSize = 0 from rfl) (show 0x80303000 % pgSize = 0 from rfl)
      (by decide) (show 4096 % pgSize = 0 from rfl) (by decide) (by decide)
      (show pteR ||| pteW ||| pteU < 1024 by decide) (fun k _ => translate_rootOnly hzero _)
  have hpm : onePage = pm' := by rw [onePage, hmap]
  obtain rfl : ret = 0 := by
    have hcode : (mappages twoPages onePageRoot 0 0x80303000 4096
        (pteR ||| pteW ||| pteU)).toOption.map Prod.fst = some 0 := by decide +kernel
    rw [hmap] at hcode
    exact Option.some.inj hcode
  obtain rfl : upto = 4096 := by
    obtain ⟨-, hupto⟩ | ⟨habsurd, -⟩ := hret
    · exact hupto
    · cases habsurd
  have hinside : ∀ va < maxVa, translate pm'.mem onePageRoot va =
      if va < 4096 then some (0x80303000 + va, pteR ||| pteW ||| pteU ||| pteV) else none := by
    intro va hva
    rw [htranslate va hva, translate_rootOnly hzero]
    simp only [Nat.zero_le, true_and, Nat.sub_zero]
  rw [hpm]
  refine ⟨tables, hgrown.wf, ?_, ?_, by decide, _, _, hinside 0 (by decide), by decide,
    fun _ => by decide⟩
  · intro va pa flags hva hpa _ level _ htable
    rw [hinside va hva] at hpa
    split at hpa
    · rename_i hlow
      obtain ⟨rfl, -⟩ := Prod.mk.injEq .. ▸ Option.some.inj hpa
      have hframe : pgRoundDown (0x80303000 + va) = 0x80303000 := by
        simp only [pgRoundDown, pgSize]
        omega
      rw [hframe] at htable
      obtain hold | hnew := hgrown.source level _ htable
      · simp [rootOnly, onePageRoot] at hold
      · simp [twoPages] at hnew
    · cases hpa
  · rintro ⟨pa, flags, hpa, -⟩
    rw [hinside trampoline (by decide), if_neg (by decide)] at hpa
    cases hpa

/-- The console delivers one character, which is all that is asked for. -/
theorem sysRead_console :
    ReadOk onePage onePageRoot 0 2
      (sysRead Fat32.smallVolume Fat32.smallDisk (fun _ => ⟨0, 0, 0, 0, 0⟩) onePage onePageRoot
        [⟨0, none, 0, false, 0, .device, 0⟩] (some fun _ => 0) [97] 0 0 2) := by
  obtain ⟨tables, hwf, hframes, htramp, -⟩ := onePage_spec
  refine (sysRead_ok_iff (by decide) (by decide) hwf hframes htramp (by decide)
    (by decide +kernel) _ _ _).mpr (.inr fun i hfails => ?_)
  exact absurd hfails.fails (lt_irrefl _)

/-- A descriptor that was never opened: the -1 is taken for a count. -/
theorem sysRead_leak :
    validUserArg onePage (some onePageRoot) 0 = .ok true ∧
      ¬ ReadOk onePage onePageRoot 0 1
        (sysRead Fat32.smallVolume Fat32.smallDisk (fun _ => ⟨0, 0, 0, 0, 0⟩) onePage onePageRoot
          [] (some fun _ => 0) [] 3 0 1) := by
  obtain ⟨tables, hwf, hframes, htramp, hwritable⟩ := onePage_spec
  have hvalid : validUserArg onePage (some onePageRoot) 0 = .ok true := by decide +kernel
  refine ⟨hvalid, ?_⟩
  have hfails : FailsAt Fat32.smallVolume Fat32.smallDisk (fun _ => ⟨0, 0, 0, 0, 0⟩) [] onePage
      onePageRoot 3 0 1 0 := by
    refine ⟨by decide, fun k hk => ?_, fun j hj => absurd hj (Nat.not_lt_zero j), by decide⟩
    obtain rfl : k = 0 := Nat.le_zero.mp hk
    exact hwritable
  exact sysRead_not_ok (by decide) hwf hframes htramp (by decide) (by decide) hvalid hfails _ _

end Painting.SysRead
