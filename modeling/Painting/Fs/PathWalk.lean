import Painting.Fs.FatChains
import Painting.Fs.NameMatch

/-!
# From a path to a file

`get_file` and `walkDir` of `fs.c`, over any lookup in one directory.  A single entry in memory is
both the result of each lookup and the next directory, and whether a lookup has succeeded can only
be seen in what that entry holds.

With an exact lookup, a missing component is passed over.  When it is the first one, the next lookup
goes through an entry that nothing has filled.
-/

namespace Painting.Directory

open Painting.Fat32 (Filesystem)

/-! ## Paths -/

def slash : UInt8 := UInt8.ofNat '/'.toNat

/-- The characters of a path without the terminator. -/
abbrev Path := List UInt8

/-- `skip_slash`. -/
def skipSlash (path : Path) : Path := path.dropWhile (· = slash)

/-- The loop of `parse_path` with room for `room` more tokens. -/
def parsePathLoop (path : Path) : ℕ → List (List UInt8)
  | 0 => []
  | room + 1 =>
      if path = [] then []
      else
        (path.takeWhile (· ≠ slash)).take (maxFileNameLen - 1) ::
          parsePathLoop (skipSlash (path.dropWhile (· ≠ slash))) room

/-- `parse_path`. -/
def parsePath (path : Path) : List (List UInt8) :=
  parsePathLoop (skipSlash path) maxFileNameLen

/-! ## Directory entries in memory -/

/-- The entries in memory and the pool of those that are free. -/
structure Heap where
  dirents : Dirents
  free : List ℕ

/-- An entry after `memset`; `DIR_DIR` is 0. -/
def zeroDirent : Dirent := ⟨fun _ => 0, 0, 0, 0, .dir, none, 0, none, 0⟩

/-- `dirent_alloc`, `none` for `NULL`. -/
def direntAlloc (heap : Heap) : Option ℕ × Heap :=
  match heap.free with
  | [] => (none, heap)
  | addr :: free => (some addr, ⟨Function.update heap.dirents addr zeroDirent, free⟩)

/-- `dirent_free`. -/
def direntFree (heap : Heap) (addr : ℕ) : Heap := { heap with free := heap.free ++ [addr] }

/-- A lookup in one directory: directory, name and the entry that it fills; `none` when it does not
return. -/
abbrev Lookup := Dirents → ℕ → List UInt8 → ℕ → Option Dirents

def eNotFound : ℤ := 2

/-- The loop of `walkDir` over the tokens that are left, up to the value it returns. -/
def walkLoop (find : Lookup) (cfile file : ℕ) :
    List (List UInt8) → Dirents → ℕ → Option (ℤ × Dirents)
  | [], dirents, _ => some (-eNotFound, dirents)
  | token :: rest, dirents, cdir =>
      (find dirents cdir token cfile).bind fun dirents =>
        match (dirents cfile).type with
        | .dir => walkLoop find cfile file rest dirents cfile
        | .file =>
            if rest = [] then some (0, dirents.set file fun _ => dirents cfile)
            else some (-eNotFound, dirents)
        | .link => walkLoop find cfile file rest dirents cdir

/-- `walkDir` without `lastElem`, which `get_file` leaves out.  Without an entry for `cfile` it uses
`NULL`. -/
def walkDir (find : Lookup) (root : ℕ) (heap : Heap) (path : Path) (baseDir : Option ℕ) (file : ℕ) :
    Option (ℤ × Heap) :=
  let (cfile, heap) := direntAlloc heap
  cfile.bind fun cfile =>
    (walkLoop find cfile file (parsePath path) heap.dirents (baseDir.getD root)).map
      fun (ret, dirents) => (ret, direntFree { heap with dirents := dirents } cfile)

/-- `get_file`: the entry it returns, or `NULL`.  When it gets no entry, neither does `walkDir`. -/
def getFile (find : Lookup) (root : ℕ) (heap : Heap) (baseDir : Option ℕ) (path : Path) :
    Option (Option ℕ × Heap) :=
  let (dirent, heap) := direntAlloc heap
  dirent.bind fun dirent =>
    (walkDir find root heap path baseDir dirent).map fun (ret, heap) =>
      if ret < 0 then (none, heap) else (some dirent, heap)

/-! ## Directory trees -/

/-- For the first cluster of a directory and a name, the slot with that name. -/
abbrev Tree := ℕ → List UInt8 → Option Located

/-- The lookup that finds exactly what is in the tree.  It reads the geometry of the volume through
the directory. -/
def Tree.find (tree : Tree) : Lookup := fun dirents dir name entry =>
  (dirents dir).filesystem.bind fun _ =>
    match tree (dirents dir).firstCluster name with
    | some slot => some (fillDirent dirents name dir entry slot.entry slot.offset)
    | none => some dirents

def IsDirectory (slot : Located) : Prop := fileAttribute slot.entry &&& attrDirectory ≠ 0

instance (slot : Located) : Decidable (IsDirectory slot) := inferInstanceAs (Decidable (_ ≠ _))

/-- The components of a path that are not empty. -/
def components (path : Path) : List (List UInt8) := (path.splitOn slash).filter (· ≠ [])

/-- The regular file that the components lead to from a directory. -/
def Tree.resolve (tree : Tree) : ℕ → List (List UInt8) → Option Located
  | _, [] => none
  | dir, name :: rest =>
      (tree dir name).bind fun slot =>
        if rest = [] then if IsDirectory slot then none else some slot
        else if IsDirectory slot then tree.resolve (calClusterPos slot.entry) rest
        else none

/-- The components without those that are missing in the directory reached before them, up to the
first regular file. -/
def Tree.withoutMissing (tree : Tree) : ℕ → List (List UInt8) → List (List UInt8)
  | _, [] => []
  | dir, name :: rest =>
      match tree dir name with
      | none => tree.withoutMissing dir rest
      | some slot =>
          if IsDirectory slot then name :: tree.withoutMissing (calClusterPos slot.entry) rest
          else name :: rest

/-! ## What `get_file` should do -/

/-- The volume is mounted: the root entry is in use, and the pool lists each free entry once. -/
structure Mounted (fs : Filesystem) (root : ℕ) (heap : Heap) : Prop where
  filesystem : (heap.dirents root).filesystem = some fs
  inUse : root ∉ heap.free
  nodup : heap.free.Nodup

/-- `get_file` returns, after lookups through filled entries only, and its result is the file that
the path names. -/
def GetsFile (tree : Tree) (root : ℕ) (heap : Heap) (path : Path) : Prop :=
  ∃ result after, getFile tree.find root heap none path = some (result, after) ∧
    match tree.resolve (heap.dirents root).firstCluster (components path) with
    | none => result = none
    | some slot => ∃ addr, result = some addr ∧
        (after.dirents addr).firstCluster = calClusterPos slot.entry ∧
        (after.dirents addr).size = dirFileSize slot.entry

/-- Two entries are free, the first of several components exists, and the path does not become that
of a regular file when its missing components are left out. -/
structure Walkable (tree : Tree) (dir : ℕ) (names : List (List UInt8)) (free : List ℕ) : Prop where
  pool : 2 ≤ free.length
  first : 2 ≤ names.length → ∀ name ∈ names.head?, tree dir name ≠ none
  missing : tree.withoutMissing dir names = names ∨
    tree.resolve dir (tree.withoutMissing dir names) = none

/-! ## Tokens -/

section Paths

variable {path : Path}

theorem components_slash (path : Path) : components (slash :: path) = components path := by
  rw [components, List.splitOn_eq_splitOnP, List.splitOnP_cons_eq_if_modifyHead, if_pos (by simp),
    List.filter_cons_of_neg (by simp), components, List.splitOn_eq_splitOnP]

theorem components_skipSlash (path : Path) : components (skipSlash path) = components path := by
  induction path with
  | nil => rfl
  | cons c path ih =>
      by_cases hc : c = slash
      · subst hc
        rw [components_slash, skipSlash, List.dropWhile_cons_of_pos (by simp)]
        exact ih
      · rw [skipSlash, List.dropWhile_cons_of_neg (by simpa using hc)]

theorem head_skipSlash (path : Path) : slash ∉ (skipSlash path).head? := by
  intro hhead
  have hnot := List.head?_dropWhile_not (fun c => decide (c = slash)) path
  rw [show (path.dropWhile fun c => decide (c = slash)).head? = some slash from hhead] at hnot
  exact absurd hnot (by simp)

/-- A path that does not start with a slash starts with its first component. -/
theorem components_eq (hpath : path ≠ []) (hhead : slash ∉ path.head?) :
    components path = path.takeWhile (· ≠ slash) ::
      components (skipSlash (path.dropWhile (· ≠ slash))) := by
  have hfirst : path.takeWhile (· ≠ slash) ≠ [] := by
    obtain ⟨c, rest, rfl⟩ := List.exists_cons_of_ne_nil hpath
    have hc : c ≠ slash := fun heq => hhead (by rw [heq]; rfl)
    rw [List.takeWhile_cons_of_pos (by simpa using hc)]
    exact List.cons_ne_nil _ _
  have hnone : ∀ c ∈ path.takeWhile (· ≠ slash), (c == slash) = false := by
    intro c hc
    simpa using List.mem_takeWhile_imp hc
  rw [components_skipSlash]
  conv_lhs => rw [← List.takeWhile_append_dropWhile (p := fun c => c ≠ slash) (l := path)]
  rw [components, components, List.splitOn_eq_splitOnP, List.splitOn_eq_splitOnP]
  cases hrest : path.dropWhile (· ≠ slash) with
  | nil =>
      rw [List.append_nil, List.splitOnP_eq_singleton hnone, List.splitOnP_nil,
        List.filter_cons_of_pos (by simpa using hfirst), List.filter_nil,
        List.filter_cons_of_neg (by simp), List.filter_nil]
  | cons c rest =>
      have hc : c = slash := by
        have hnot := List.head?_dropWhile_not (fun c => decide (c ≠ slash)) path
        rw [hrest, List.head?_cons] at hnot
        simpa using hnot
      subst hc
      rw [List.splitOnP_append_cons_of_forall_mem hnone _ (by simp), List.filter_cons_of_pos (by simpa using hfirst),
        List.splitOnP_cons_eq_if_modifyHead, if_pos (by simp), List.filter_cons_of_neg (by simp)]

theorem parsePathLoop_eq {room : ℕ} (hhead : slash ∉ path.head?)
    (hroom : (components path).length ≤ room)
    (hshort : ∀ name ∈ components path, name.length ≤ maxFileNameLen - 1) :
    parsePathLoop path room = components path := by
  induction room generalizing path with
  | zero => rw [parsePathLoop, List.length_eq_zero_iff.mp (Nat.le_zero.mp hroom)]
  | succ room ih =>
      rw [parsePathLoop]
      split
      · rename_i hpath
        rw [hpath]
        rfl
      · rename_i hpath
        rw [components_eq hpath hhead] at hroom hshort ⊢
        rw [List.take_of_length_le (hshort _ List.mem_cons_self),
          ih (head_skipSlash _) (by simpa using hroom)
            fun name hname => hshort name (List.mem_cons_of_mem _ hname)]

/-- `parse_path` splits the path into its components. -/
theorem parsePath_eq (hcount : (components path).length ≤ maxFileNameLen)
    (hshort : ∀ name ∈ components path, name.length ≤ maxFileNameLen - 1) :
    parsePath path = components path := by
  rw [← components_skipSlash] at hcount hshort
  rw [parsePath, parsePathLoop_eq (head_skipSlash path) hcount hshort, components_skipSlash]

end Paths

/-! ## Resolution -/

section Resolve

variable {tree : Tree} {dir : ℕ} {name : List UInt8} {slot : Located} {rest names : List (List UInt8)}

theorem resolve_directory (hslot : tree dir name = some slot) (hdir : IsDirectory slot) :
    tree.resolve dir (name :: rest) = tree.resolve (calClusterPos slot.entry) rest := by
  rw [Tree.resolve, hslot, Option.bind_some, if_pos hdir, if_pos hdir]
  split
  · rename_i hrest
    rw [hrest, Tree.resolve]
  · rfl

theorem resolve_file (hslot : tree dir name = some slot) (hfile : ¬ IsDirectory slot) :
    tree.resolve dir (name :: rest) = if rest = [] then some slot else none := by
  rw [Tree.resolve, hslot, Option.bind_some, if_neg hfile, if_neg hfile]

/-- A path to a file has no missing component. -/
theorem withoutMissing_of_resolve {file : Located} (hfile : tree.resolve dir names = some file) :
    tree.withoutMissing dir names = names := by
  induction names generalizing dir with
  | nil => rfl
  | cons name rest ih =>
      cases hslot : tree dir name with
      | none =>
          rw [Tree.resolve, hslot] at hfile
          cases hfile
      | some slot =>
          rw [Tree.withoutMissing, hslot]
          dsimp only
          split
          · rename_i hdir
            rw [resolve_directory hslot hdir] at hfile
            rw [ih hfile]
          · rfl

end Resolve

/-! ## The walk -/

section Walk

variable {tree : Tree} {dirents : Dirents} {cfile file cdir : ℕ} {name : List UInt8} {slot : Located}
  {rest names : List (List UInt8)}

theorem fillDirent_type (dirents : Dirents) (name : List UInt8) (parent lastDir : ℕ) (slot : Located) :
    (fillDirent dirents name parent lastDir slot.entry slot.offset lastDir).type =
      if IsDirectory slot then .dir else .file := by
  by_cases heq : parent = lastDir
  · subst heq
    simp only [fillDirent, Dirents.set, Function.update_self, IsDirectory]
    rfl
  · simp only [fillDirent, Dirents.set, Function.update_self,
      Function.update_of_ne (Ne.symm heq), IsDirectory]
    rfl

theorem fillDirent_filesystem (dirents : Dirents) (name : List UInt8) (parent lastDir : ℕ)
    (slot : Located) :
    (fillDirent dirents name parent lastDir slot.entry slot.offset lastDir).filesystem =
      (dirents parent).filesystem := by
  by_cases heq : parent = lastDir
  · subst heq
    simp [fillDirent, Dirents.set]
  · simp [fillDirent, Dirents.set, Function.update_of_ne (Ne.symm heq)]

/-- A lookup that finds its component. -/
theorem walkLoop_found (hfs : (dirents cdir).filesystem ≠ none)
    (hslot : tree (dirents cdir).firstCluster name = some slot) :
    walkLoop tree.find cfile file (name :: rest) dirents cdir =
      let dirents := fillDirent dirents name cdir cfile slot.entry slot.offset
      if IsDirectory slot then walkLoop tree.find cfile file rest dirents cfile
      else if rest = [] then some (0, dirents.set file fun _ => dirents cfile)
      else some (-eNotFound, dirents) := by
  obtain ⟨fs, hfs⟩ := Option.ne_none_iff_exists'.mp hfs
  have hfind : tree.find dirents cdir name cfile =
      some (fillDirent dirents name cdir cfile slot.entry slot.offset) := by
    rw [Tree.find, hfs, Option.bind_some, hslot]
  rw [walkLoop, hfind, Option.bind_some, fillDirent_type]
  dsimp only
  by_cases hdir : IsDirectory slot
  · rw [if_pos hdir, if_pos hdir]
  · rw [if_neg hdir, if_neg hdir]

/-- A lookup that does not. -/
theorem walkLoop_missing (hfs : (dirents cdir).filesystem ≠ none)
    (hslot : tree (dirents cdir).firstCluster name = none) (htype : (dirents cfile).type = .dir) :
    walkLoop tree.find cfile file (name :: rest) dirents cdir =
      walkLoop tree.find cfile file rest dirents cfile := by
  obtain ⟨fs, hfs⟩ := Option.ne_none_iff_exists'.mp hfs
  have hfind : tree.find dirents cdir name cfile = some dirents := by
    rw [Tree.find, hfs, Option.bind_some, hslot]
  rw [walkLoop, hfind, Option.bind_some, htype]

/-- The walk returns, with the file that `found` says. -/
def Walks (found : Option Located) (file : ℕ) (result : Option (ℤ × Dirents)) : Prop :=
  match found with
  | none => ∃ dirents, result = some (-eNotFound, dirents)
  | some slot => ∃ dirents, result = some (0, dirents) ∧
      (dirents file).firstCluster = calClusterPos slot.entry ∧
      (dirents file).size = dirFileSize slot.entry

/-- One component that is found, when the walk goes on from a filled entry as it should. -/
theorem walks_found (hfs : (dirents cdir).filesystem ≠ none)
    (hslot : tree (dirents cdir).firstCluster name = some slot)
    (hrest : ∀ dirents : Dirents, (dirents cfile).filesystem ≠ none → (dirents cfile).type = .dir →
      Walks (tree.resolve (dirents cfile).firstCluster
        (tree.withoutMissing (dirents cfile).firstCluster rest)) file
        (walkLoop tree.find cfile file rest dirents cfile)) :
    Walks (tree.resolve (dirents cdir).firstCluster
      (tree.withoutMissing (dirents cdir).firstCluster (name :: rest))) file
      (walkLoop tree.find cfile file (name :: rest) dirents cdir) := by
  have hfilled := fillDirent_filled dirents name cdir cfile slot
  have hfilesystem := fillDirent_filesystem dirents name cdir cfile slot
  have htype := fillDirent_type dirents name cdir cfile slot
  rw [walkLoop_found hfs hslot, Tree.withoutMissing, hslot]
  generalize fillDirent dirents name cdir cfile slot.entry slot.offset = filled at *
  dsimp only
  by_cases hdir : IsDirectory slot
  · rw [if_pos hdir] at htype
    rw [if_pos hdir, if_pos hdir, resolve_directory hslot hdir, ← hfilled.firstCluster]
    exact hrest filled (hfilesystem ▸ hfs) htype
  · rw [if_neg hdir, if_neg hdir, resolve_file hslot hdir]
    split
    · refine ⟨_, rfl, ?_⟩
      rw [Dirents.set, Function.update_self]
      exact ⟨hfilled.firstCluster, hfilled.size⟩
    · exact ⟨_, rfl⟩

/-- From an entry that has been filled. -/
theorem walkLoop_filled (names : List (List UInt8)) (dirents : Dirents)
    (hfs : (dirents cfile).filesystem ≠ none) (htype : (dirents cfile).type = .dir) :
    Walks (tree.resolve (dirents cfile).firstCluster
      (tree.withoutMissing (dirents cfile).firstCluster names)) file
      (walkLoop tree.find cfile file names dirents cfile) := by
  induction names generalizing dirents with
  | nil => exact ⟨dirents, rfl⟩
  | cons name rest ih =>
      cases hslot : tree (dirents cfile).firstCluster name with
      | some slot => exact walks_found hfs hslot ih
      | none =>
          rw [walkLoop_missing hfs hslot htype, Tree.withoutMissing, hslot]
          exact ih dirents hfs htype

/-- From the root, with an entry that has not. -/
theorem walkLoop_root (names : List (List UInt8)) (hfs : (dirents cdir).filesystem ≠ none)
    (hzero : dirents cfile = zeroDirent)
    (hfirst : 2 ≤ names.length → ∀ name ∈ names.head?, tree (dirents cdir).firstCluster name ≠ none) :
    Walks (tree.resolve (dirents cdir).firstCluster
      (tree.withoutMissing (dirents cdir).firstCluster names)) file
      (walkLoop tree.find cfile file names dirents cdir) := by
  cases names with
  | nil => exact ⟨dirents, rfl⟩
  | cons name rest =>
      cases hslot : tree (dirents cdir).firstCluster name with
      | some slot => exact walks_found hfs hslot fun dirents => walkLoop_filled rest dirents
      | none =>
          obtain rfl : rest = [] := by
            by_contra hrest
            have hlength := List.length_pos_iff.mpr hrest
            exact hfirst (by rw [List.length_cons]; omega) name rfl hslot
          rw [walkLoop_missing hfs hslot (by rw [hzero]; rfl), Tree.withoutMissing, hslot]
          exact ⟨dirents, rfl⟩

/-- When the first of several components is missing, the walk looks into an entry that nothing has
filled. -/
theorem walkLoop_unfilled (hfs : (dirents cdir).filesystem ≠ none) (hzero : dirents cfile = zeroDirent)
    (hlength : 2 ≤ names.length)
    (hfirst : ∃ name ∈ names.head?, tree (dirents cdir).firstCluster name = none) :
    walkLoop tree.find cfile file names dirents cdir = none := by
  obtain ⟨name, hname, hmissing⟩ := hfirst
  obtain ⟨rest, rfl⟩ := List.head?_eq_some_iff.mp hname
  rw [walkLoop_missing hfs hmissing (by rw [hzero]; rfl)]
  obtain ⟨second, tail, rfl⟩ := List.exists_cons_of_ne_nil
    (show rest ≠ [] by rintro rfl; exact absurd hlength (by simp))
  rw [walkLoop, Tree.find, hzero]
  rfl

end Walk

/-! ## Exactness -/

section Exact

variable {tree : Tree} {fs : Filesystem} {root : ℕ} {heap : Heap} {path : Path}

/-- Without two free entries it does not return. -/
theorem getFile_of_short {find : Lookup} (hshort : heap.free.length < 2) :
    getFile find root heap none path = none := by
  rcases heap with ⟨dirents, free⟩
  rcases free with _ | ⟨a, _ | ⟨b, free⟩⟩
  · rfl
  · rfl
  · exact absurd hshort (by simp)

/-- `get_file` with two free entries, as the walk from the root. -/
theorem getFile_eq {find : Lookup} {a b : ℕ} {free : List ℕ} {dirents : Dirents} :
    getFile find root ⟨dirents, a :: b :: free⟩ none path =
      (walkLoop find b a (parsePath path)
        (Function.update (Function.update dirents a zeroDirent) b zeroDirent) root).map
        fun (ret, dirents) => (if ret < 0 then none else some a, ⟨dirents, free ++ [b]⟩) := by
  simp only [getFile, direntAlloc, walkDir, direntFree, Option.bind_some, Option.map_map,
    Option.getD_none]
  congr 1
  funext result
  dsimp only [Function.comp]
  split <;> rfl

/-- `get_file` when the path names no file. -/
theorem getsFile_iff_of_none {a b : ℕ} {free : List ℕ} {dirents : Dirents} {found : Option Located}
    (hnone : tree.resolve (dirents root).firstCluster (components path) = none)
    (hwalks : Walks found a (walkLoop tree.find b a (parsePath path)
      (Function.update (Function.update dirents a zeroDirent) b zeroDirent) root)) :
    GetsFile tree root ⟨dirents, a :: b :: free⟩ path ↔ found = none := by
  rw [GetsFile, getFile_eq, hnone]
  cases found with
  | none =>
      obtain ⟨after, hresult⟩ := hwalks
      rw [hresult]
      exact iff_of_true ⟨none, ⟨after, free ++ [b]⟩, rfl, rfl⟩ rfl
  | some slot =>
      obtain ⟨after, hresult, -⟩ := hwalks
      rw [hresult]
      refine iff_of_false ?_ (by simp)
      rintro ⟨result, heap, hsome, hnot⟩
      rw [hnot] at hsome
      cases hsome

/-- `get_file` when the walk finds the file that the path names. -/
theorem getsFile_of_some {a b : ℕ} {free : List ℕ} {dirents : Dirents} {slot : Located}
    (hsome : tree.resolve (dirents root).firstCluster (components path) = some slot)
    (hwalks : Walks (some slot) a (walkLoop tree.find b a (parsePath path)
      (Function.update (Function.update dirents a zeroDirent) b zeroDirent) root)) :
    GetsFile tree root ⟨dirents, a :: b :: free⟩ path := by
  obtain ⟨after, hresult, hfile⟩ := hwalks
  rw [GetsFile, getFile_eq, hsome, hresult]
  exact ⟨some a, ⟨after, free ++ [b]⟩, rfl, a, rfl, hfile⟩

/-- `get_file` returns exactly the file that the path names if and only if two entries are free, the
first of several components exists, and passing over missing components leads to no file. -/
theorem getsFile_iff (hmounted : Mounted fs root heap)
    (hcount : (components path).length ≤ maxFileNameLen)
    (hshort : ∀ name ∈ components path, name.length ≤ maxFileNameLen - 1) :
    GetsFile tree root heap path ↔
      Walkable tree (heap.dirents root).firstCluster (components path) heap.free := by
  by_cases hpool : heap.free.length < 2
  · refine iff_of_false ?_ fun hwalkable => absurd hwalkable.pool (not_le.mpr hpool)
    rintro ⟨result, after, hsome, -⟩
    rw [getFile_of_short hpool] at hsome
    cases hsome
  · obtain ⟨dirents, free⟩ := heap
    obtain ⟨a, b, free, rfl⟩ : ∃ a b rest, free = a :: b :: rest := by
      rcases free with _ | ⟨a, _ | ⟨b, rest⟩⟩
      · exact absurd (show 0 < 2 by decide) hpool
      · exact absurd (show 1 < 2 by decide) hpool
      · exact ⟨a, b, rest, rfl⟩
    have hroot : (Function.update (Function.update dirents a zeroDirent) b zeroDirent) root =
        dirents root := by
      have hne := hmounted.inUse
      simp only [List.mem_cons, not_or] at hne
      rw [Function.update_of_ne hne.2.1, Function.update_of_ne hne.1]
    have hfs : ((Function.update (Function.update dirents a zeroDirent) b zeroDirent)
        root).filesystem ≠ none := by
      rw [hroot, hmounted.filesystem]
      exact Option.some_ne_none fs
    have hzero : (Function.update (Function.update dirents a zeroDirent) b zeroDirent) b =
        zeroDirent := Function.update_self ..
    have hparse := parsePath_eq hcount hshort
    by_cases hfirst : 2 ≤ (components path).length →
        ∀ name ∈ (components path).head?, tree (dirents root).firstCluster name ≠ none
    · have hwalks := @walkLoop_root tree _ b a root (components path) hfs hzero
        (by rw [hroot]; exact hfirst)
      rw [hroot, ← hparse] at hwalks
      cases hnamed : tree.resolve (dirents root).firstCluster (components path) with
      | some slot =>
          have hkept := withoutMissing_of_resolve hnamed
          rw [hparse, hkept, hnamed, ← hparse] at hwalks
          exact iff_of_true (getsFile_of_some hnamed hwalks)
            ⟨not_lt.mp hpool, hfirst, .inl hkept⟩
      | none =>
          rw [getsFile_iff_of_none hnamed hwalks, hparse]
          constructor
          · exact fun hnone => ⟨not_lt.mp hpool, hfirst, .inr hnone⟩
          · rintro ⟨-, -, hkept | hnone⟩
            · rw [hkept, hnamed]
            · exact hnone
    · refine iff_of_false ?_ fun hwalkable => hfirst hwalkable.first
      push Not at hfirst
      rintro ⟨result, after, hsome, -⟩
      have hnone := @walkLoop_unfilled tree _ b a root (components path) hfs hzero hfirst.1
        (by rw [hroot]; exact hfirst.2)
      rw [getFile_eq, hparse, hnone] at hsome
      cases hsome

end Exact

/-- The directory `docs` with the file `foobar.txt` in it. -/
def docsTree : Tree := fun dir name =>
  if dir = 2 ∧ name = bytesOf "docs" then
    some ⟨0, fun i => if i = 11 then 0x10 else if i = 26 then 3 else 0⟩
  else if dir = 3 ∧ name = bytesOf "foobar.txt" then some foobar.short
  else none

/-- The entry 0 is the root of the volume, and two entries are free. -/
def bootHeap : Heap :=
  ⟨fun _ => { zeroDirent with filesystem := some Fat32.smallVolume, firstCluster := 2 }, [1, 2]⟩

theorem bootHeap_mounted : Mounted Fat32.smallVolume 0 bootHeap := ⟨rfl, by decide, by decide⟩

theorem getsFile_docs : GetsFile docsTree 0 bootHeap (bytesOf "/docs//foobar.txt") :=
  (getsFile_iff bootHeap_mounted (by decide +kernel) (by decide +kernel)).mpr
    ⟨by decide, fun _ name hname => by
      obtain rfl : name = bytesOf "docs" := by
        have hhead : (components (bytesOf "/docs//foobar.txt")).head? = some (bytesOf "docs") := by
          decide +kernel
        exact (Option.some.inj (hhead.symm.trans hname)).symm
      exact (Option.isSome_iff_ne_none).mp (by decide +kernel), .inl (by decide +kernel)⟩

/-- The path `docs/x/foobar.txt` has a missing component and leads to the file. -/
theorem exists_not_getsFile : ¬ ∀ (tree : Tree) (fs : Filesystem) (root : ℕ) (heap : Heap)
    (path : Path), Mounted fs root heap → (components path).length ≤ maxFileNameLen →
      (∀ name ∈ components path, name.length ≤ maxFileNameLen - 1) →
        GetsFile tree root heap path := by
  intro hall
  obtain ⟨result, after, hget, hresult⟩ := hall docsTree Fat32.smallVolume 0 bootHeap
    (bytesOf "docs/x/foobar.txt") bootHeap_mounted (by decide +kernel) (by decide +kernel)
  have hnone : docsTree.resolve 2 (components (bytesOf "docs/x/foobar.txt")) = none :=
    Option.isNone_iff_eq_none.mp (by decide +kernel)
  have hfound : (getFile docsTree.find 0 bootHeap none (bytesOf "docs/x/foobar.txt")).map
      Prod.fst = some (some 1) := by
    decide +kernel
  rw [hget] at hfound
  rw [show (bootHeap.dirents 0).firstCluster = 2 from rfl, hnone] at hresult
  rw [Option.map_some, hresult] at hfound
  cases hfound

end Painting.Directory
