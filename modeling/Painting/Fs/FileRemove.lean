import Painting.Fs.ChainWalks
import Painting.Fs.FreeingWalk
import Painting.Fs.PathWalk

/-!
# Removing an open file

`filesys_remove` takes the first open file whose name starts with the given one, and `file_remove`
looks the name up again.  It starts from the entry of the file, not of its directory, so that the
bytes of the file are read as a directory: what they call by that name is freed.
-/

namespace Painting.Directory

open Painting.Memory
open Painting.Bitmap (Map)
open Painting.Descriptors (File FileType maxDirent strncmp)
open Painting.Strings (Buffer Holds ofList)
open Painting.Fat32 (Filesystem Geometry Consistent InRange IsEof ChainOf SameEntry fatread
  removeLoop walked)

/-! ## The code -/

/-- What a process removes files with: the entries in memory, the disk, the descriptor numbers in
use and the open files of the process. -/
structure System where
  heap : Heap
  disk : Mem
  fdBitmap : Map
  fileList : List File

/-- `contian_of`; a console has no entry, and `none` is the use of `NULL`. -/
def contianOf (heap : Heap) (name : Path) (file : File) : Option Bool :=
  file.dirent.map fun dirent => strncmp (heap.dirents dirent).name (ofList name) name.length = 0

/-- `list_find` with `contian_of`: the file, and the list without it. -/
def listFind (heap : Heap) (name : Path) : List File → Option (Option (File × List File))
  | [] => some none
  | file :: rest =>
      (contianOf heap name file).bind fun found =>
        if found then some (some (file, rest))
        else (listFind heap name rest).map (Option.map fun (other, others) => (other, file :: others))

/-- `free_fd`. -/
def freeFd (fdBitmap : Map) (fd : ℕ) : Map :=
  if fd < maxDirent then Bitmap.clear fdBitmap fd else fdBitmap

/-- `file_close`. -/
def fileClose (heap : Heap) (dirent : ℕ) : Heap :=
  let linkcnt := ((heap.dirents dirent).linkcnt + 2 ^ 32 - 1) % 2 ^ 32
  let heap := { heap with dirents := heap.dirents.set dirent fun d => { d with linkcnt := linkcnt } }
  if linkcnt = 0 then direntFree heap dirent else heap

/-- `clus_num` of `file_remove`. -/
def clusNum (fs : Filesystem) (size : ℕ) : ℕ :=
  (size / fs.sbinfo.bytesPerClus + if size % fs.sbinfo.bytesPerClus = 0 then 0 else 1) % 2 ^ 32

/-- The first half of `file_remove`: the entry that the name leads to from `base`. -/
def removeTarget (disk : Mem) (stale : ℕ → ℕ → Buffer) (root : ℕ) (heap : Heap) (base : ℕ)
    (filename : Path) : Option (Dirent × Heap) :=
  (getFile (findDirentEntry disk stale) root heap (some base) filename).bind fun (dirent, heap) =>
    dirent.map fun dirent => (heap.dirents dirent, heap)

/-- `file_remove`; `none` is the use of `NULL`. -/
def fileRemove (disk : Mem) (stale : ℕ → ℕ → Buffer) (root : ℕ) (heap : Heap) (base : ℕ)
    (filename : Path) : Option (Bool × Mem × Heap) :=
  (removeTarget disk stale root heap base filename).bind fun (dirent, heap) =>
    dirent.filesystem.map fun fs =>
      let (ret, disk) := removeLoop fs disk dirent.firstCluster (clusNum fs dirent.size)
      (ret, disk, heap)

/-- `filesys_remove`. -/
def filesysRemove (stale : ℕ → ℕ → Buffer) (root : ℕ) (sys : System) (filename : Path) :
    Option (Bool × System) :=
  (listFind sys.heap filename sys.fileList).bind fun found =>
    match found with
    | none => some (false, sys)
    | some (file, others) =>
        file.dirent.bind fun dirent =>
          (fileRemove sys.disk stale root sys.heap dirent filename).map fun (ret, disk, heap) =>
            (ret, ⟨fileClose heap dirent, disk, freeFd sys.fdBitmap file.fd, others⟩)

/-! ## What `filesys_remove` should do -/

/-- All entries in memory are of one volume. -/
def OneVolume (fs : Filesystem) (dirents : Dirents) : Prop :=
  ∀ addr other, (dirents addr).filesystem = some other → other = fs

/-- A regular file of the root directory, with its chain, is open under the name. -/
structure OpenUnder (fs : Filesystem) (root : ℕ) (sys : System) (filename : Path)
    (chains : List (List ℕ)) (dirent : ℕ) (chain : List ℕ) : Prop where
  listed : ∃ file ∈ sys.fileList, file.type = .file ∧ file.dirent = some dirent
  name : Holds (sys.heap.dirents dirent).name filename
  regular : (sys.heap.dirents dirent).type = .file
  parent : (sys.heap.dirents dirent).parent = some root
  chainOf : ChainOf chains ⟨(sys.heap.dirents dirent).firstCluster, (sys.heap.dirents dirent).size⟩
    chain
  clusters : chain.length = clusNum fs (sys.heap.dirents dirent).size

/-- Exactly the clusters of the chain have become free, and no other chain has changed. -/
structure RemovedOnly (fs : Filesystem) (disk disk' : Mem) (chains : List (List ℕ))
    (chain : List ℕ) : Prop where
  freed : ∀ c, InRange fs c → (fatread fs disk c ≠ 0 ∧ fatread fs disk' c = 0 ↔ c ∈ chain)
  others : ∀ other ∈ chains, other ≠ chain → ∀ c ∈ other, fatread fs disk' c = fatread fs disk c

/-- When `filesys_remove` returns true, it has removed the file. -/
def RemoveOk (fs : Filesystem) (stale : ℕ → ℕ → Buffer) (root : ℕ) (sys : System) (filename : Path)
    (chains : List (List ℕ)) (chain : List ℕ) : Prop :=
  ∀ after, filesysRemove stale root sys filename = some (true, after) →
    RemovedOnly fs sys.disk after.disk chains chain

/-- The entry that the name leads to in the bytes of the first open file whose name starts with
it. -/
def entryInFile (stale : ℕ → ℕ → Buffer) (root : ℕ) (sys : System) (filename : Path) :
    Option Dirent :=
  (listFind sys.heap filename sys.fileList).bind fun found =>
    found.bind fun (file, _) => file.dirent.bind fun dirent =>
      (removeTarget sys.disk stale root sys.heap dirent filename).map Prod.fst

/-- The walk of as many clusters as the entry has is cut short by an end mark, or the clusters in
use that it meets are those of the chain. -/
def LeadsTo (fs : Filesystem) (disk : Mem) (entry : Dirent) (chain : List ℕ) : Prop :=
  (∃ c ∈ walked fs disk entry.firstCluster (clusNum fs entry.size), IsEof c) ∨
    ∀ c, InRange fs c → fatread fs disk c ≠ 0 →
      ((∃ x ∈ walked fs disk entry.firstCluster (clusNum fs entry.size), SameEntry fs x c) ↔
        c ∈ chain)

/-! ## One volume -/

section OneVolume

variable {fs : Filesystem} {disk : Mem} {stale : ℕ → ℕ → Buffer} {dirents dirents' : Dirents}

theorem OneVolume.set (hone : OneVolume fs dirents) {addr : ℕ} {change : Dirent → Dirent}
    (hchange : ∀ other, (change (dirents addr)).filesystem = some other → other = fs) :
    OneVolume fs (dirents.set addr change) := by
  intro other volume hvolume
  by_cases heq : other = addr
  · subst heq
    rw [Dirents.set, Function.update_self] at hvolume
    exact hchange volume hvolume
  · rw [Dirents.set, Function.update_of_ne heq] at hvolume
    exact hone other volume hvolume

theorem OneVolume.fill (hone : OneVolume fs dirents) (name : List UInt8) (parent newDir : ℕ)
    (entry : Slot) (offset : ℕ) : OneVolume fs (fillDirent dirents name parent newDir entry offset) := by
  have hfirst : OneVolume fs (dirents.set newDir fun d =>
      { d with
        filesystem := (dirents parent).filesystem
        firstCluster := calClusterPos entry
        size := dirFileSize entry
        mode := fileAttribute entry
        parent := some parent
        linkcnt := 1 }) := hone.set (hone parent)
  have hsecond := @OneVolume.set fs _ hfirst parent (fun d => { d with offset := offset })
    (hfirst parent)
  exact hsecond.set (hsecond newDir)

theorem OneVolume.parse (hone : OneVolume fs dirents) {name : List UInt8} {parent lastDir : ℕ}
    {slotStale : ℕ → Buffer} {slots : List Located} {scan : Scan} {ret : ℤ}
    (hparse : parseLoop dirents name parent lastDir slotStale slots scan = .done ret dirents') :
    OneVolume fs dirents' := by
  induction slots generalizing scan with
  | nil =>
      cases hparse
      exact hone
  | cons slot rest ih =>
      rw [parseLoop] at hparse
      split at hparse
      · exact ih hparse
      split at hparse
      · cases hparse
        exact hone
      split at hparse
      · split at hparse
        · cases hparse
        · exact ih hparse
      · split at hparse
        · rename_i filled hmatch
          cases hparse
          rw [matchDirentEntry] at hmatch
          split at hmatch
          · cases hmatch
          · cases hmatch
            exact hone.fill _ _ _ _ _
        · exact ih hparse

theorem OneVolume.find (hone : OneVolume fs dirents) {dir entry : ℕ} {name : List UInt8}
    (hfind : findDirentEntry disk stale dirents dir name entry = some dirents') :
    OneVolume fs dirents' := by
  have hloop : ∀ (volume : Filesystem) (rounds clusNo k : ℕ) (before : Dirents) (ret : ℤ),
      OneVolume fs before →
      findLoop volume disk before name dir entry stale clusNo k rounds = some (.done ret dirents') →
      OneVolume fs dirents' := by
    intro volume rounds
    induction rounds with
    | zero => exact fun clusNo k before ret hbefore hdone => by cases hdone
    | succ rounds ih =>
        intro clusNo k before ret hbefore hdone
        rw [findLoop] at hdone
        dsimp only at hdone
        split at hdone
        · cases hdone
        · rename_i ret' parsed hparse
          have hparsed := hbefore.parse hparse
          split at hdone
          · cases hdone
            exact hparsed
          · split at hdone
            · cases hdone
              exact hparsed
            · exact ih _ _ _ _ hparsed hdone
  rw [findDirentEntry] at hfind
  split at hfind
  · cases hfind
  · rename_i volume hvolume
    split at hfind
    · rename_i ret parsed hdone
      cases hfind
      exact hloop volume _ _ _ _ _ hone hdone
    · cases hfind

theorem OneVolume.walk (hone : OneVolume fs dirents) {cfile file cdir : ℕ}
    {names : List (List UInt8)} {ret : ℤ}
    (hwalk : walkLoop (findDirentEntry disk stale) cfile file names dirents cdir =
      some (ret, dirents')) : OneVolume fs dirents' := by
  induction names generalizing dirents cdir with
  | nil =>
      cases hwalk
      exact hone
  | cons name rest ih =>
      rw [walkLoop] at hwalk
      obtain ⟨found, hfind, hwalk⟩ := Option.bind_eq_some_iff.mp hwalk
      have hfound := hone.find hfind
      split at hwalk
      · exact ih hfound hwalk
      · split at hwalk
        · cases hwalk
          exact hfound.set (hfound cfile)
        · cases hwalk
          exact hfound
      · exact ih hfound hwalk

theorem OneVolume.alloc {heap : Heap} (hone : OneVolume fs heap.dirents) :
    OneVolume fs (direntAlloc heap).2.dirents := by
  rw [direntAlloc]
  split
  · exact hone
  · rename_i addr free hfree
    have hzero : ∀ other, zeroDirent.filesystem = some other → other = fs := fun other hother => by
      cases hother
    exact @OneVolume.set fs _ hone addr (fun _ => zeroDirent) hzero

theorem OneVolume.target {heap heap' : Heap} (hone : OneVolume fs heap.dirents) {root base : ℕ}
    {filename : Path} {entry : Dirent}
    (htarget : removeTarget disk stale root heap base filename = some (entry, heap'))
    {volume : Filesystem} (hvolume : entry.filesystem = some volume) : volume = fs := by
  rw [removeTarget] at htarget
  obtain ⟨⟨result, after⟩, hget, hentry⟩ := Option.bind_eq_some_iff.mp htarget
  obtain ⟨addr, rfl, hpair⟩ := Option.map_eq_some_iff.mp hentry
  obtain ⟨rfl, rfl⟩ := Prod.mk.inj hpair
  have hafter : OneVolume fs after.dirents := by
    rw [getFile] at hget
    obtain ⟨dirent, hdirent, hget⟩ := Option.bind_eq_some_iff.mp hget
    obtain ⟨⟨ret, walkedHeap⟩, hwalk, hresult⟩ := Option.map_eq_some_iff.mp hget
    have hwalked : OneVolume fs walkedHeap.dirents := by
      rw [walkDir] at hwalk
      obtain ⟨cfile, hcfile, hwalk⟩ := Option.bind_eq_some_iff.mp hwalk
      obtain ⟨⟨ret', dirents'⟩, hloop, hpair⟩ := Option.map_eq_some_iff.mp hwalk
      obtain ⟨-, rfl⟩ := Prod.mk.inj hpair
      exact hone.alloc.alloc.walk hloop
    dsimp only at hresult
    split at hresult
    · cases hresult
    · obtain ⟨-, rfl⟩ := Prod.mk.inj hresult
      exact hwalked
  exact hafter addr volume hvolume

end OneVolume

/-! ## The condition -/

section Removing

variable {fs : Filesystem} {disk disk' : Mem} {stale : ℕ → ℕ → Buffer} {root : ℕ} {sys : System}
  {filename : Path} {chains : List (List ℕ)} {chain : List ℕ} {dirent : ℕ}

theorem mem_chainOf (hcons : Consistent fs disk chains) {file : Fat32.Dirent}
    (hchain : ChainOf chains file chain) {c : ℕ} (hc : c ∈ chain) :
    chain ∈ chains ∧ InRange fs c ∧ fatread fs disk c ≠ 0 := by
  obtain ⟨hmem, -⟩ | ⟨rfl, -⟩ := hchain
  · have hlinked := hcons.linked chain hmem
    exact ⟨hmem, hlinked.inRange c hc, hlinked.ne_zero c hc⟩
  · exact absurd hc List.not_mem_nil

/-- Once entries have been cleared, the file is removed exactly when they are those of its chain. -/
theorem removedOnly_iff (hcons : Consistent fs disk chains) {file : Fat32.Dirent}
    (hchain : ChainOf chains file chain) {cleared : Set ℕ}
    (hcleared : Fat32.Cleared fs disk disk' cleared) :
    RemovedOnly fs disk disk' chains chain ↔ ∀ c, InRange fs c → fatread fs disk c ≠ 0 →
      ((∃ x ∈ cleared, SameEntry fs x c) ↔ c ∈ chain) := by
  have hread : ∀ c, fatread fs disk c ≠ 0 →
      (fatread fs disk' c = 0 ↔ ∃ x ∈ cleared, SameEntry fs x c) := by
    intro c hused
    obtain ⟨hzero, hkept⟩ := hcleared c
    refine ⟨fun hfree => ?_, hzero⟩
    by_contra hnone
    rw [hkept fun x hx hsame => hnone ⟨x, hx, hsame⟩] at hfree
    exact hused hfree
  constructor
  · intro honly c hc hused
    rw [← hread c hused, ← honly.freed c hc, and_iff_right hused]
  · intro hsame
    refine ⟨fun c hc => ⟨fun hboth => ?_, fun hmem => ?_⟩, fun other hother hne c hmem => ?_⟩
    · exact (hsame c hc hboth.1).mp ((hread c hboth.1).mp hboth.2)
    · obtain ⟨-, -, hused⟩ := mem_chainOf hcons hchain hmem
      exact ⟨hused, (hread c hused).mpr ((hsame c hc hused).mpr hmem)⟩
    · apply (hcleared c).2
      intro x hx hentry
      have hlinked := hcons.linked other hother
      have hin : c ∈ chain :=
        (hsame c (hlinked.inRange c hmem) (hlinked.ne_zero c hmem)).mp ⟨x, hx, hentry⟩
      obtain ⟨hmine, -⟩ := mem_chainOf hcons hchain hin
      exact hne (Fat32.eq_of_mem_flatten hcons.apart hother hmine hmem hin)

/-- An entry with the first cluster of the file and as many clusters leads to its chain. -/
theorem leadsTo_of_same (hgeo : Geometry fs) (hcons : Consistent fs disk chains)
    (hmem : chain ∈ chains) {entry : Dirent} (hhead : chain.head? = some entry.firstCluster)
    (hcount : clusNum fs entry.size = chain.length) : LeadsTo fs disk entry chain := by
  have hlinked := hcons.linked chain hmem
  refine .inr fun c hc _ => ?_
  rw [hcount, Fat32.walked_chain hlinked hhead]
  constructor
  · rintro ⟨x, hx, hsame⟩
    obtain rfl := (Fat32.sameEntry_iff hgeo (hlinked.inRange x hx) hc).mp hsame
    exact hx
  · exact fun hc' => ⟨c, hc', (Fat32.sameEntry_iff hgeo hc hc).mpr rfl⟩

/-- A call that returns true has walked from the entry found in the bytes of the file. -/
theorem filesysRemove_true (hone : OneVolume fs sys.heap.dirents) {after : System}
    (hremove : filesysRemove stale root sys filename = some (true, after)) :
    ∃ entry, entryInFile stale root sys filename = some entry ∧ entry.filesystem = some fs ∧
      removeLoop fs sys.disk entry.firstCluster (clusNum fs entry.size) = (true, after.disk) := by
  rw [filesysRemove] at hremove
  obtain ⟨found, hfound, hremove⟩ := Option.bind_eq_some_iff.mp hremove
  cases found with
  | none => cases hremove
  | some pair =>
      obtain ⟨file, others⟩ := pair
      obtain ⟨base, hbase, hremove⟩ := Option.bind_eq_some_iff.mp hremove
      obtain ⟨⟨ret, disk', heap'⟩, hfile, hafter⟩ := Option.map_eq_some_iff.mp hremove
      obtain ⟨rfl, rfl⟩ := Prod.mk.inj hafter
      rw [fileRemove] at hfile
      obtain ⟨⟨entry, heap⟩, htarget, hfile⟩ := Option.bind_eq_some_iff.mp hfile
      obtain ⟨volume, hvolume, hloop⟩ := Option.map_eq_some_iff.mp hfile
      obtain rfl := hone.target htarget hvolume
      refine ⟨entry, ?_, hvolume, ?_⟩
      · rw [entryInFile, hfound, Option.bind_some, Option.bind_some]
        dsimp only
        rw [hbase, Option.bind_some, htarget, Option.map_some]
      · dsimp only at hloop ⊢
        obtain ⟨hret, hrest⟩ := Prod.mk.inj hloop
        obtain ⟨hdisk, -⟩ := Prod.mk.inj hrest
        exact Prod.ext hret hdisk

/-- The call returns true when the walk from the entry meets no end mark too early. -/
theorem exists_filesysRemove {entry : Dirent}
    (hentry : entryInFile stale root sys filename = some entry) (hvolume : entry.filesystem = some fs)
    (hloop : (removeLoop fs sys.disk entry.firstCluster (clusNum fs entry.size)).1 = true) :
    ∃ after, filesysRemove stale root sys filename = some (true, after) ∧
      after.disk = (removeLoop fs sys.disk entry.firstCluster (clusNum fs entry.size)).2 := by
  rw [entryInFile] at hentry
  obtain ⟨found, hfound, hnonempty⟩ := Option.bind_eq_some_iff.mp hentry
  obtain ⟨⟨file, others⟩, rfl, hnonnull⟩ := Option.bind_eq_some_iff.mp hnonempty
  obtain ⟨base, hbase, hfetch⟩ := Option.bind_eq_some_iff.mp hnonnull
  obtain ⟨⟨target, heap⟩, htarget, rfl⟩ := Option.map_eq_some_iff.mp hfetch
  have hfile : fileRemove sys.disk stale root sys.heap base filename = some (true,
      (removeLoop fs sys.disk target.firstCluster (clusNum fs target.size)).2, heap) := by
    rw [fileRemove, htarget, Option.bind_some]
    dsimp only at hvolume hloop ⊢
    rw [hvolume, Option.map_some, hloop]
  rw [filesysRemove, hfound, Option.bind_some]
  dsimp only at hbase ⊢
  rw [hbase, Option.bind_some, hfile, Option.map_some]
  exact ⟨_, rfl, rfl⟩

end Removing

/-! ## A file that names itself -/

section SelfNamed

/-- The name `a`. -/
def letterA : Path := [UInt8.ofNat 'a'.toNat]

/-- A slot at an address of the disk: a file of one cluster named `a`. -/
def putSlot (disk : Mem) (addr clus : ℕ) : Mem :=
  let disk := fill (Function.update disk addr (UInt8.ofNat 'a'.toNat)) (addr + 1) fatdirDlt 10
  store (store (store disk (addr + 11) 1 0x20) (addr + 26) 2 clus) (addr + 28) 4 512

/-- Four clusters of one sector: the root directory, the file `a`, another file, and a free one.
The bytes of `a` are a slot named `a` with the cluster `clus`. -/
def slotDisk (clus : ℕ) : Mem :=
  let disk := store (store (store (fun _ => 0) 520 4 Fat32.eof) 524 4 Fat32.eof) 528 4 Fat32.eof
  putSlot (putSlot disk 1024 3) 1536 clus

def rootDirent : Dirent :=
  ⟨ofList [slash], 512, 2, 0, .dir, some Fat32.smallVolume, 1, none, attrDirectory⟩

def fileDirent : Dirent :=
  ⟨ofList letterA, 512, 3, 0, .file, some Fat32.smallVolume, 1, some 0, 0x20⟩

/-- The file `a` is open with entry 1; two entries are free. -/
def slotSystem (clus : ℕ) : System where
  heap := ⟨Function.update (Function.update (fun _ => zeroDirent) 0 rootDirent) 1 fileDirent, [2, 3]⟩
  disk := slotDisk clus
  fdBitmap := Bitmap.mark (fun _ => 0) 0
  fileList := [⟨0, some 1, 0, false, 0, .file, 0⟩]

theorem slotDisk_consistent {clus : ℕ}
    (hentries : [2, 3, 4, 5].map (fatread Fat32.smallVolume (slotDisk clus)) =
      [Fat32.eof, Fat32.eof, Fat32.eof, 0]) :
    Consistent Fat32.smallVolume (slotDisk clus) [[2], [3], [4]] := by
  simp only [List.map_cons, List.map_nil, List.cons.injEq, and_true] at hentries
  obtain ⟨htwo, hthree, hfour, hfive⟩ := hentries
  have heof : IsEof Fat32.eof := by decide
  refine ⟨fun chain hchain => ?_, by decide, fun c hc hnot => ?_⟩
  · simp only [List.mem_cons, List.not_mem_nil, or_false] at hchain
    obtain rfl | rfl | rfl := hchain
    · exact Fat32.linked_singleton ⟨by decide, by decide⟩ (htwo ▸ heof)
    · exact Fat32.linked_singleton ⟨by decide, by decide⟩ (hthree ▸ heof)
    · exact Fat32.linked_singleton ⟨by decide, by decide⟩ (hfour ▸ heof)
  · obtain ⟨hlo, hhi⟩ := hc
    have hhi : c < 6 := hhi
    have hlast : c ≠ 2 ∧ c ≠ 3 ∧ c ≠ 4 := by simpa using hnot
    obtain rfl : c = 5 := by omega
    exact hfive

theorem slotSystem_oneVolume (clus : ℕ) :
    OneVolume Fat32.smallVolume (slotSystem clus).heap.dirents := by
  intro addr other hother
  simp only [slotSystem] at hother
  by_cases hone : addr = 1
  · rw [hone, Function.update_self] at hother
    exact (Option.some.inj hother).symm
  rw [Function.update_of_ne hone] at hother
  by_cases hzero : addr = 0
  · rw [hzero, Function.update_self] at hother
    exact (Option.some.inj hother).symm
  · rw [Function.update_of_ne hzero] at hother
    cases hother

theorem slotSystem_open (clus : ℕ) : OpenUnder Fat32.smallVolume 0 (slotSystem clus) letterA
    [[2], [3], [4]] 1 [3] := by
  have hone : clusNum Fat32.smallVolume 512 = 1 := by decide
  exact ⟨⟨_, List.mem_singleton_self _, rfl, rfl⟩, Strings.holds_ofList (by decide), rfl, rfl,
    .inl ⟨by decide, rfl⟩, hone.symm⟩

end SelfNamed

end Painting.Directory
