import Painting.Fs.DeletedSlots

/-!
# Directories across cluster ends

`find_dirent_entry` parses each cluster on its own, and the long name that
`parse_directory_entries` puts together does not outlive the call.  A name whose slots end in one
cluster is lost for the entry at the start of the next.

One pass over all clusters reads the same slots, at their offsets in the whole.
-/

namespace Painting.Directory

open Painting.Memory (Mem load AgreeOn)
open Painting.Strings
open Painting.Descriptors (strncmp strncmpLoop cstring)
open Painting.Fat32 (Filesystem Geometry Linked)

/-! ## The bytes of a slot -/

/-- The 32 bytes of a slot alone; a slot of a buffer goes on with what comes after it. -/
def clip (slot : Located) : Located :=
  ⟨slot.offset, fun i => if i < directorySize then slot.entry i else 0⟩

section Clip

variable {slot : Located}

theorem clip_entry {i : ℕ} (hi : i < 32) : (clip slot).entry i = slot.entry i := if_pos hi

theorem strncmp_congr {left right other : Buffer} {len : ℕ} (hlen : len < 32)
    (hsame : ∀ i < 32, left i = right i) : strncmp left other len = strncmp right other len := by
  have hloop : ∀ count idx, idx + count ≤ len →
      strncmpLoop left other idx count = strncmpLoop right other idx count ∧
        ∀ stop, strncmpLoop right other idx count = .inl stop → stop ≤ len := by
    intro count
    induction count with
    | zero =>
        intro idx hidx
        refine ⟨rfl, fun stop hstop => ?_⟩
        have heq : idx = stop := Sum.inl.inj hstop
        omega
    | succ count ih =>
        intro idx hidx
        obtain ⟨hsucc, hstop⟩ := ih (idx + 1) (by omega)
        rw [strncmpLoop, strncmpLoop, hsame idx (by omega), hsucc]
        refine ⟨rfl, fun stop hend => ?_⟩
        split at hend
        · split at hend
          · cases hend
          · exact hstop stop hend
        · have heq : idx = stop := Sum.inl.inj hend
          omega
  obtain ⟨hsame', hstop⟩ := hloop len 0 (by omega)
  rw [strncmp, strncmp, hsame']
  cases hend : strncmpLoop right other 0 len with
  | inr difference => rfl
  | inl stop =>
      have hle := hstop stop hend
      dsimp only
      rw [hsame len hlen, hsame stop (by omega)]

theorem isInvalidEntry_clip (slot : Located) :
    isInvalidEntry (clip slot).entry = isInvalidEntry slot.entry := by
  have hsame : ∀ i < 32, (clip slot).entry i = slot.entry i := fun i hi => clip_entry hi
  rw [isInvalidEntry, isInvalidEntry, strncmp_congr (by decide) hsame,
    strncmp_congr (by decide) hsame, clip_entry (by decide)]

theorem isLongFileName_clip (slot : Located) :
    IsLongFileName (clip slot).entry ↔ IsLongFileName slot.entry := Iff.rfl

theorem wstr2str_clip (rawName : Buffer) (dst : ℕ) {src n : ℕ} (hfit : src + 2 * n ≤ 32) :
    wstr2str rawName dst (clip slot).entry src n = wstr2str rawName dst slot.entry src n := by
  funext i
  rw [wstr2str, wstr2str]
  split
  · exact clip_entry (by omega)
  · rfl

theorem handleLongFileName_clip (slot : Located) (scan : Scan) :
    handleLongFileName (clip slot).entry scan = handleLongFileName slot.entry scan := by
  have hfirst := fun rawName dst => @wstr2str_clip slot rawName dst 1 5 (by decide)
  have hsecond := fun rawName dst => @wstr2str_clip slot rawName dst 14 6 (by decide)
  have hthird := fun rawName dst => @wstr2str_clip slot rawName dst 28 2 (by decide)
  simp only [handleLongFileName, hfirst, hsecond, hthird, clip_entry (show 0 < 32 by decide)]

theorem untilSpace_clip {i count : ℕ} (hfit : i + count ≤ 32) :
    untilSpace (clip slot).entry i count = untilSpace slot.entry i count := by
  induction count generalizing i with
  | zero => rfl
  | succ count ih =>
      rw [untilSpace, untilSpace, clip_entry (by omega), ih (by omega)]

theorem shortBytes_clip (slot : Located) :
    shortBytes (clip slot).entry = shortBytes slot.entry := by
  rw [shortBytes, shortBytes, untilSpace_clip (by decide), untilSpace_clip (by decide),
    clip_entry (by decide)]

theorem load_clip {addr width : ℕ} (hfit : addr + width ≤ 32) :
    load (clip slot).entry addr width = load slot.entry addr width := by
  have hagree : AgreeOn slot.entry (clip slot).entry addr (addr + width) :=
    fun x _ hx => clip_entry (by omega)
  exact hagree.load_eq

theorem fillDirent_clip (dirents : Dirents) (name : List UInt8) (parent newDir : ℕ)
    (slot : Located) (offset : ℕ) :
    fillDirent dirents name parent newDir (clip slot).entry offset =
      fillDirent dirents name parent newDir slot.entry offset := by
  have hcluster : calClusterPos (clip slot).entry = calClusterPos slot.entry := by
    rw [calClusterPos, calClusterPos, load_clip (by decide), load_clip (by decide)]
  have hsize : dirFileSize (clip slot).entry = dirFileSize slot.entry := load_clip (by decide)
  rw [fillDirent, fillDirent, hcluster, hsize]
  rfl

theorem matchDirentEntry_clip (hshort : ¬ IsLongFileName slot.entry) (dirents : Dirents)
    (name : List UInt8) (parent lastDir offset : ℕ) (tname stale : Buffer) :
    matchDirentEntry dirents name parent lastDir (clip slot).entry offset tname stale =
      matchDirentEntry dirents name parent lastDir slot.entry offset tname stale := by
  have hname : nameBuffer stale (clip slot).entry tname = nameBuffer stale slot.entry tname := by
    rw [nameBuffer, nameBuffer, fillFileName, fillFileName,
      if_neg (mt (isLongFileName_clip slot).mp hshort), if_neg hshort, readFat32ShortName_eq,
      readFat32ShortName_eq, shortBytes_clip]
  rw [matchDirentEntry, matchDirentEntry, hname, fillDirent_clip]

/-- A scan looks at the bytes of the slots alone. -/
theorem parseLoop_clip (dirents : Dirents) (name : List UInt8) (parent lastDir : ℕ)
    (stale : ℕ → Buffer) (slots : List Located) (scan : Scan) :
    parseLoop dirents name parent lastDir stale (slots.map clip) scan =
      parseLoop dirents name parent lastDir stale slots scan := by
  induction slots generalizing scan with
  | nil => rfl
  | cons slot rest ih =>
      rw [List.map_cons, parseLoop, parseLoop, isInvalidEntry_clip, ih]
      by_cases hlong : IsLongFileName slot.entry
      · rw [if_pos ((isLongFileName_clip slot).mpr hlong), if_pos hlong, handleLongFileName_clip]
        simp only [ih]
      · rw [if_neg (mt (isLongFileName_clip slot).mp hlong), if_neg hlong,
          matchDirentEntry_clip hlong]
        simp only [ih]
        rfl

theorem parseDirectoryEntries_clip (dirents : Dirents) (name : List UInt8) (parent lastDir : ℕ)
    (stale : ℕ → Buffer) (slots : List Located) :
    parseDirectoryEntries dirents name parent lastDir stale (slots.map clip) =
      parseDirectoryEntries dirents name parent lastDir stale slots :=
  parseLoop_clip dirents name parent lastDir stale slots _

theorem findIn_clip (dirents : Dirents) (name : List UInt8) (parent lastDir : ℕ)
    (stale : ℕ → ℕ → Buffer) (clusters : List (List Located)) (k : ℕ) :
    findIn dirents name parent lastDir stale (clusters.map (List.map clip)) k =
      findIn dirents name parent lastDir stale clusters k := by
  induction clusters generalizing dirents k with
  | nil => rfl
  | cons cluster rest ih =>
      rw [List.map_cons, findIn, findIn, parseDirectoryEntries_clip]
      simp only [ih]

end Clip

/-! ## One pass -/

/-- The slots of all clusters in one buffer. -/
def wholeSlots (fs : Filesystem) (disk : Mem) (chain : List ℕ) : List Located :=
  slotsOf (fun i => (chain.flatMap (Fat32.clusterBytes fs disk)).getD i 0)
    (fs.sbinfo.bytesPerClus * chain.length)

/-- `parse_directory_entries` of all clusters at once, with the same stack below each slot. -/
def onePass (fs : Filesystem) (disk : Mem) (chain : List ℕ) (stale : ℕ → ℕ → Buffer)
    (dirents : Dirents) (dir : ℕ) (name : List UInt8) (entry : ℕ) : Option Dirents :=
  (parseDirectoryEntries dirents name dir entry
    (fun offset => stale (offset / fs.sbinfo.bytesPerClus) (offset % fs.sbinfo.bytesPerClus))
    (wholeSlots fs disk chain)).dirents

/-- The offset that a lookup leaves in the directory, counted from the start of its cluster. -/
def inCluster (size dir : ℕ) (dirents : Dirents) : Dirents :=
  dirents.set dir fun d => { d with offset := d.offset % size }

/-- Every lookup finds the entry, or none, that one pass over the clusters finds. -/
def BoundaryFree (fs : Filesystem) (disk : Mem) (chain : List ℕ) : Prop :=
  ∀ (name : List UInt8) (stale : ℕ → ℕ → Buffer) (dirents : Dirents) (dir entry : ℕ), 0 ∉ name →
    (dirents dir).filesystem = some fs → chain.head? = some (dirents dir).firstCluster →
      (findDirentEntry disk stale dirents dir name entry).map (inCluster fs.sbinfo.bytesPerClus dir) =
        (onePass fs disk chain stale dirents dir name entry).map
          (inCluster fs.sbinfo.bytesPerClus dir)

/-- A slot of a cluster at its offset in the whole. -/
def shift (size : ℕ) (located : ℕ × Located) : Located :=
  ⟨size * located.1 + located.2.offset, located.2.entry⟩

def shifted (size : ℕ) (clusters : List (List Located)) : List Located :=
  (numbered clusters 0).map (shift size)

/-- The cluster of a slot of the whole, and its offset there. -/
def place (size : ℕ) (slot : Located) : ℕ × Located :=
  (slot.offset / size, ⟨slot.offset % size, slot.entry⟩)

theorem place_shift {size : ℕ} {located : ℕ × Located} (hoffset : located.2.offset < size) :
    place size (shift size located) = located := by
  rw [place, shift]
  dsimp only
  rw [Nat.mul_add_div (by omega), Nat.div_eq_of_lt hoffset, Nat.mul_add_mod,
    Nat.mod_eq_of_lt hoffset, Nat.add_zero]

theorem numbered_eq (clusters : List (List Located)) (k : ℕ) :
    numbered clusters k =
      (List.range clusters.length).flatMap fun i => (clusters.getD i []).map (k + i, ·) := by
  induction clusters generalizing k with
  | nil => rfl
  | cons cluster rest ih =>
      rw [numbered, ih, List.length_cons, List.range_succ_eq_map, List.flatMap_cons,
        List.flatMap_map]
      simp only [List.getD_cons_zero, List.getD_cons_succ, Nat.add_zero, Nat.add_assoc,
        Nat.add_comm 1]

section Disk

variable {fs : Filesystem} {disk : Mem} {chain : List ℕ}

theorem getD_whole (hgeo : Geometry fs) {k c i : ℕ} (hc : chain[k]? = some c)
    (hi : i < fs.sbinfo.bytesPerClus) :
    (chain.flatMap (Fat32.clusterBytes fs disk)).getD (fs.sbinfo.bytesPerClus * k + i) 0 =
      (Fat32.clusterBytes fs disk c).getD i 0 := by
  have hpos := Fat32.bytesPerClus_pos hgeo
  rw [List.getD_eq_getElem?_getD, Fat32.getElem?_clusters hpos, Fat32.fileByte,
    Nat.mul_add_div hpos, Nat.div_eq_of_lt hi, Nat.add_zero, hc, Nat.mul_add_mod,
    Nat.mod_eq_of_lt hi, Fat32.clusterBytes, List.getD_eq_getElem _ _ (by simpa using hi)]
  simp

/-- The slots of the whole are those of the clusters. -/
theorem wholeSlots_clip (hgeo : Geometry fs) (disk : Mem) (chain : List ℕ) :
    (wholeSlots fs disk chain).map clip =
      shifted fs.sbinfo.bytesPerClus ((chain.map (clusterSlots fs disk)).map (List.map clip)) := by
  obtain ⟨m, hm⟩ : ∃ m, fs.sbinfo.bytesPerClus = directorySize * m :=
    ⟨16 * fs.superblock.sectorsPerCluster, by
      rw [hgeo.bytes, ← Nat.mul_assoc]
      rfl⟩
  have hcount : fs.sbinfo.bytesPerClus * chain.length / directorySize = m * chain.length := by
    rw [hm, Nat.mul_assoc]
    exact Nat.mul_div_cancel_left _ (by decide)
  have heach : fs.sbinfo.bytesPerClus / directorySize = m := by
    rw [hm]
    exact Nat.mul_div_cancel_left _ (by decide)
  rw [wholeSlots, slotsOf, hcount, ← flatMap_blocks, shifted, numbered_eq, List.map_flatMap,
    List.map_flatMap, List.length_map, List.length_map]
  apply List.flatMap_congr
  intro k hk
  have hk := List.mem_range.mp hk
  have hc := List.getElem?_eq_getElem hk
  rw [List.getD_eq_getElem _ _ (by simpa using hk), List.getElem_map, List.getElem_map,
    clusterSlots, slotsOf, heach, List.map_map, List.map_map, List.map_map, List.map_map]
  apply List.map_congr_left
  intro j hj
  have hj := List.mem_range.mp hj
  have hmul := Nat.mul_le_mul_left directorySize (Nat.succ_le_of_lt hj)
  rw [Nat.mul_succ, ← hm] at hmul
  have hoffset : directorySize * (m * k + j) = fs.sbinfo.bytesPerClus * k + directorySize * j := by
    rw [Nat.mul_add, hm, Nat.mul_assoc]
  simp only [Function.comp, clip, shift, hoffset, Nat.zero_add, Located.mk.injEq, true_and]
  funext x
  split
  · rename_i hx
    rw [Nat.add_assoc]
    exact getD_whole hgeo hc (by omega)
  · rfl

end Disk

/-! ## Names across cluster ends -/

/-- The names that one pass compares. -/
def namesAcross (size : ℕ) (clusters : List (List Located)) : List Entry :=
  (listing (shifted size clusters) (freshScan false)).1.map fun named =>
    ((place size named.slot).1, (place size named.slot).2, named.name)

/-- An entry has the same name when slots of long names at the end of the clusters before count, and
three of them in a row are met or not met all the same. -/
structure NamesJoin (size : ℕ) (clusters : List (List Located)) : Prop where
  names : namesAcross size clusters = names clusters
  overrun : (listing (shifted size clusters) (freshScan false)).2 = .overrun ↔
    (dirListing clusters 0).2 = .overrun

section Names

variable {size : ℕ} {clusters : List (List Located)}

theorem mem_numbered {clusters : List (List Located)} {k : ℕ} {located : ℕ × Located}
    (hmem : located ∈ numbered clusters k) : ∃ cluster ∈ clusters, located.2 ∈ cluster := by
  induction clusters generalizing k with
  | nil => exact absurd hmem List.not_mem_nil
  | cons cluster rest ih =>
      obtain hmem | hmem := List.mem_append.mp hmem
      · obtain ⟨slot, hslot, rfl⟩ := List.mem_map.mp hmem
        exact ⟨cluster, List.mem_cons_self, hslot⟩
      · obtain ⟨other, hother, hslot⟩ := ih hmem
        exact ⟨other, List.mem_cons_of_mem _ hother, hslot⟩

/-- The places of the slots of the whole. -/
theorem place_shifted (hoffset : ∀ cluster ∈ clusters, ∀ slot ∈ cluster, slot.offset < size) :
    (shifted size clusters).map (place size) = numbered clusters 0 := by
  rw [shifted, List.map_map]
  conv_rhs => rw [← List.map_id (numbered clusters 0)]
  apply List.map_congr_left
  intro located hlocated
  obtain ⟨cluster, hcluster, hslot⟩ := mem_numbered hlocated
  exact place_shift (hoffset cluster hcluster _ hslot)

/-- One pass takes the first of the names that the comparison accepts. -/
theorem parseDirectoryEntries_shifted {name : List UInt8} (hname : 0 ∉ name)
    (hwell : ∀ cluster ∈ clusters, ∀ slot ∈ cluster, WellNamed slot) (dirents : Dirents)
    (parent lastDir : ℕ) (stale : ℕ → ℕ → Buffer) :
    parseDirectoryEntries dirents name parent lastDir
        (fun offset => stale (offset / size) (offset % size)) (shifted size clusters) =
      lookupIn (namesAcross size clusters) (listing (shifted size clusters) (freshScan false)).2
        (fun entry => size * entry.1 + entry.2.1.offset) dirents name parent lastDir stale := by
  have hfind : (namesAcross size clusters).find? (fun entry => TakenAs name stale entry) =
      ((listing (shifted size clusters) (freshScan false)).1.find? fun named =>
        named.Taken name fun offset => stale (offset / size) (offset % size)).map fun named =>
          ((place size named.slot).1, (place size named.slot).2, named.name) := by
    rw [namesAcross, List.find?_map]
    congr 1
    apply List.find?_congr
    intro named hnamed
    obtain ⟨hok, hshort, hhead, hslot⟩ := mem_listing hnamed
    obtain ⟨located, hlocated, hshift⟩ := List.mem_map.mp hslot
    obtain ⟨cluster, hcluster, hmem⟩ := mem_numbered hlocated
    have hnamedWell : WellNamed named.slot := by
      rw [← hshift]
      exact hwell cluster hcluster located.2 hmem
    have hiff := @taken_iff_takenAs
      ((place size named.slot).1, ⟨(place size named.slot).2, named.tname⟩) hok hshort hhead
      hnamedWell name stale
    exact decide_eq_decide.mpr hiff.symm
  rw [parseDirectoryEntries_eq hname, lookupIn, hfind]
  cases (listing (shifted size clusters) (freshScan false)).1.find? fun named =>
      named.Taken name fun offset => stale (offset / size) (offset % size) with
  | none => rfl
  | some named =>
      dsimp only [Option.map_some, place]
      rw [Nat.div_add_mod]

theorem namesAcross_ok (hoffset : ∀ cluster ∈ clusters, ∀ slot ∈ cluster, slot.offset < size) :
    NamesOf (numbered clusters 0) (namesAcross size clusters) := by
  constructor
  · rw [namesAcross, List.map_map, ← place_shifted hoffset]
    have hslots := (listing_sublist (shifted size clusters) (freshScan false)).map (place size)
    rw [List.map_map] at hslots
    exact hslots
  · intro entry hentry
    obtain ⟨named, hnamed, rfl⟩ := List.mem_map.mp hentry
    obtain ⟨hok, hshort, -, -⟩ := mem_listing hnamed
    exact ⟨length_entryName hok, (@nameBuffer_holds _ _ (fun _ => 0) hok hshort).1.nonzero⟩

end Names

/-! ## Names that are not cut -/

/-- The last slot of the cluster is no slot of a long name. -/
def Closed (cluster : List Located) : Prop :=
  ∀ slot ∈ cluster.getLast?, isInvalidEntry slot.entry ≠ 1 ∨ ¬ IsLongFileName slot.entry

theorem isInvalidEntry_cases (entry : Slot) :
    isInvalidEntry entry = 0 ∨ isInvalidEntry entry = -1 ∨ isInvalidEntry entry = 1 := by
  rw [isInvalidEntry]
  split
  · exact .inl rfl
  · split
    · exact .inr (.inl rfl)
    · exact .inr (.inr rfl)

theorem listing_overrun {slot : Located} (hvalid : isInvalidEntry slot.entry = 1)
    (hlong : IsLongFileName slot.entry) (rest : List Located) {scan : Scan}
    (hhandle : handleLongFileName slot.entry scan = none) :
    listing (slot :: rest) scan = ([], .overrun) := by
  rw [listing, hvalid, if_neg (by decide), if_neg (by decide), if_pos hlong, hhandle]

theorem listing_long {slot : Located} (hvalid : isInvalidEntry slot.entry = 1)
    (hlong : IsLongFileName slot.entry) (rest : List Located) {scan scan' : Scan}
    (hhandle : handleLongFileName slot.entry scan = some scan') :
    listing (slot :: rest) scan = listing rest scan' := by
  rw [listing, hvalid, if_neg (by decide), if_neg (by decide), if_pos hlong, hhandle]

theorem listing_short {slot : Located} (hvalid : isInvalidEntry slot.entry = 1)
    (hshort : ¬ IsLongFileName slot.entry) (rest : List Located) (scan : Scan) :
    listing (slot :: rest) scan =
      (⟨slot, scan.tname⟩ :: (listing rest (freshScan scan.longEntSeq)).1,
        (listing rest (freshScan scan.longEntSeq)).2) := by
  rw [listing, hvalid, if_neg (by decide), if_neg (by decide), if_neg hshort]

/-- A scan comes to the end of a closed cluster without a part of a long name. -/
theorem listing_append {cluster : List Located} (hclosed : Closed cluster) (hne : cluster ≠ [])
    (rest : List Located) {scan : Scan} (hok : ScanOk scan) :
    listing (cluster ++ rest) scan =
      if (listing cluster scan).2 = .cluster then
        ((listing cluster scan).1 ++ (listing rest (freshScan false)).1,
          (listing rest (freshScan false)).2)
      else listing cluster scan := by
  induction cluster generalizing scan with
  | nil => exact absurd rfl hne
  | cons slot tail ih =>
      have hend : tail = [] → ¬ (isInvalidEntry slot.entry = 1 ∧ IsLongFileName slot.entry) := by
        rintro rfl ⟨hvalid, hlong⟩
        obtain hinvalid | hshort := hclosed slot rfl
        · exact hinvalid hvalid
        · exact hshort hlong
      -- After a slot that resets the variables, the rest of the cluster is scanned afresh.
      have hfresh : ∀ longEntSeq, listing (tail ++ rest) (freshScan longEntSeq) =
          if (listing tail (freshScan longEntSeq)).2 = .cluster then
            ((listing tail (freshScan longEntSeq)).1 ++ (listing rest (freshScan false)).1,
              (listing rest (freshScan false)).2)
          else listing tail (freshScan longEntSeq) := by
        intro longEntSeq
        cases tail with
        | nil => simp [listing, listing_fresh rest longEntSeq]
        | cons next tail =>
            exact ih (by simpa [Closed] using hclosed) (by simp) (scanOk_fresh longEntSeq)
      rw [List.cons_append]
      obtain hskip | hmark | hvalid := isInvalidEntry_cases slot.entry
      · rw [listing, listing, if_pos hskip, if_pos hskip]
        exact hfresh false
      · simp [listing, hmark]
      · by_cases hlong : IsLongFileName slot.entry
        · cases hhandle : handleLongFileName slot.entry scan with
          | none =>
              rw [listing_overrun hvalid hlong _ hhandle, listing_overrun hvalid hlong _ hhandle,
                if_neg (by decide)]
          | some scan' =>
              rw [listing_long hvalid hlong _ hhandle, listing_long hvalid hlong _ hhandle]
              have hmore : tail ≠ [] := fun hnil => hend hnil ⟨hvalid, hlong⟩
              obtain ⟨next, tail, rfl⟩ := List.exists_cons_of_ne_nil hmore
              exact ih (by simpa [Closed] using hclosed) hmore (hok.handle hhandle)
        · simp only [listing_short hvalid hlong, hfresh]
          split <;> rfl

/-- The listing looks at the entries alone. -/
theorem listing_map {place : Located → Located} (hplace : ∀ slot, (place slot).entry = slot.entry)
    (slots : List Located) (scan : Scan) :
    listing (slots.map place) scan =
      ((listing slots scan).1.map fun named => ⟨place named.slot, named.tname⟩,
        (listing slots scan).2) := by
  induction slots generalizing scan with
  | nil => rfl
  | cons slot rest ih =>
      rw [List.map_cons, listing, listing, hplace]
      split
      · exact ih _
      · split
        · rfl
        · split
          · cases handleLongFileName slot.entry scan with
            | none => rfl
            | some scan' => exact ih scan'
          · rw [ih]
            rfl

theorem Closed.map {place : Located → Located} (hplace : ∀ slot, (place slot).entry = slot.entry)
    {cluster : List Located} (hclosed : Closed cluster) : Closed (cluster.map place) := by
  intro slot hslot
  rw [List.getLast?_map, Option.mem_map] at hslot
  obtain ⟨last, hlast, rfl⟩ := hslot
  rw [hplace]
  exact hclosed last hlast

/-- One pass over closed clusters meets what a scan of each meets. -/
theorem listing_closed {size : ℕ} {clusters : List (List Located)}
    (hclosed : ∀ cluster ∈ clusters.dropLast, Closed cluster ∧ cluster ≠ []) (k : ℕ) :
    listing ((numbered clusters k).map (shift size)) (freshScan false) =
      ((dirListing clusters k).1.map fun entry =>
          ⟨shift size (entry.1, entry.2.slot), entry.2.tname⟩, (dirListing clusters k).2) := by
  induction clusters generalizing k with
  | nil => rfl
  | cons cluster rest ih =>
      have hentry : ∀ slot : Located, (shift size (k, slot)).entry = slot.entry := fun _ => rfl
      have hfirst := listing_map hentry cluster (freshScan false)
      have hmap : (numbered (cluster :: rest) k).map (shift size) =
          cluster.map (fun slot => shift size (k, slot)) ++
            (numbered rest (k + 1)).map (shift size) := by
        rw [numbered, List.map_append, List.map_map]
        rfl
      rw [hmap, dirListing]
      cases rest with
      | nil =>
          rw [numbered, List.map_nil, List.append_nil, hfirst]
          rcases listing cluster (freshScan false) with ⟨entries, ending⟩
          by_cases hend : ending = .cluster
          · simp [hend, dirListing]
          · simp [hend]
      | cons next rest =>
          obtain ⟨hlast, hne⟩ := hclosed cluster (by simp)
          have hrest := ih (fun other hother => hclosed other (by
            rw [List.dropLast_cons_cons]
            exact List.mem_cons_of_mem _ hother)) (k + 1)
          rw [listing_append (hlast.map hentry) (by simpa using hne) _ (scanOk_fresh false), hfirst,
            hrest]
          rcases listing cluster (freshScan false) with ⟨entries, ending⟩
          by_cases hend : ending = .cluster
          · simp [hend]
          · simp [hend]

/-- No name is cut when every cluster but the last is closed. -/
theorem namesJoin_of_closed {size : ℕ} {clusters : List (List Located)}
    (hclosed : ∀ cluster ∈ clusters.dropLast, Closed cluster ∧ cluster ≠ [])
    (hoffset : ∀ cluster ∈ clusters, ∀ slot ∈ cluster, slot.offset < size) :
    NamesJoin size clusters := by
  have hlisting := @listing_closed size clusters hclosed 0
  constructor
  · rw [namesAcross, shifted, hlisting, names, List.map_map]
    apply List.map_congr_left
    intro entry hentry
    obtain ⟨-, -, -, cluster, hcluster, hslot⟩ := mem_dirListing hentry
    have hplace := @place_shift size (entry.1, entry.2.slot) (hoffset cluster hcluster _ hslot)
    simp only [Function.comp, hplace]
    rfl
  · rw [shifted, hlisting]

/-! ## Lookups across cluster ends -/

section Lookup

variable {fs : Filesystem} {disk : Mem} {chain : List ℕ}

/-- The clusters of the directory, with the bytes of each slot alone. -/
def clippedClusters (fs : Filesystem) (disk : Mem) (chain : List ℕ) : List (List Located) :=
  (chain.map (clusterSlots fs disk)).map (List.map clip)

theorem inCluster_fillDirent {size offset offset' : ℕ} (hsame : offset % size = offset' % size)
    (dirents : Dirents) (name : List UInt8) (dir newDir : ℕ) (entry : Slot) :
    inCluster size dir (fillDirent dirents name dir newDir entry offset) =
      inCluster size dir (fillDirent dirents name dir newDir entry offset') := by
  funext a
  by_cases heq : dir = newDir
  · subst heq
    by_cases ha : a = dir
    · subst ha
      simp [inCluster, fillDirent, Dirents.set, hsame]
    · simp [inCluster, fillDirent, Dirents.set, Function.update_of_ne ha]
  · by_cases ha : a = dir
    · subst ha
      simp [inCluster, fillDirent, Dirents.set, Function.update_of_ne heq, hsame]
    · by_cases ha' : a = newDir
      · subst ha'
        simp [inCluster, fillDirent, Dirents.set, Function.update_of_ne ha]
      · simp [inCluster, fillDirent, Dirents.set, Function.update_of_ne ha,
          Function.update_of_ne ha']

theorem inCluster_lookupIn {size : ℕ} {entries : List Entry} {left right : Ending}
    {offset offset' : Entry → ℕ} (hover : left = .overrun ↔ right = .overrun)
    (hsame : ∀ entry ∈ entries, offset entry % size = offset' entry % size) (dirents : Dirents)
    (name : List UInt8) (dir newDir : ℕ) (stale : ℕ → ℕ → Buffer) :
    (lookupIn entries left offset dirents name dir newDir stale).dirents.map (inCluster size dir) =
      (lookupIn entries right offset' dirents name dir newDir stale).dirents.map
        (inCluster size dir) := by
  rw [lookupIn_dirents_congr hover, lookupIn, lookupIn]
  cases hfind : entries.find? fun entry => TakenAs name stale entry with
  | none => rfl
  | some entry =>
      have hentry := hsame entry (List.mem_of_find?_eq_some hfind)
      exact congrArg some (inCluster_fillDirent hentry dirents name dir newDir entry.2.1.entry)

theorem linkcnt_inCluster (size dir : ℕ) (result : Option Dirents) :
    ((result.map (inCluster size dir)).elim 0 fun dirents => (dirents 1).linkcnt) =
      result.elim 0 fun dirents => (dirents 1).linkcnt := by
  cases result with
  | none => rfl
  | some dirents =>
      by_cases hdir : 1 = dir
      · subst hdir
        simp [inCluster, Dirents.set]
      · simp [inCluster, Dirents.set, Function.update_of_ne hdir]

/-- The slots of the clusters are well named, each alone. -/
theorem clipped_wellNamed
    (hwell : ∀ cluster ∈ chain.map (clusterSlots fs disk), ∀ slot ∈ cluster, WellNamed slot) :
    ∀ cluster ∈ clippedClusters fs disk chain, ∀ slot ∈ cluster, WellNamed slot := by
  intro cluster hcluster clipped hclipped
  obtain ⟨whole, hwhole, rfl⟩ := List.mem_map.mp hcluster
  obtain ⟨slot, hslot, rfl⟩ := List.mem_map.mp hclipped
  intro hhead hshort i hi
  have hi' : i < 32 := lt_trans hi (by decide)
  rw [clip_entry (by decide)] at hhead
  rw [clip_entry hi']
  exact hwell whole hwhole slot hslot hhead hshort i hi

theorem clipped_offset (fs : Filesystem) (disk : Mem) (chain : List ℕ) :
    ∀ cluster ∈ clippedClusters fs disk chain, ∀ slot ∈ cluster,
      slot.offset < fs.sbinfo.bytesPerClus := by
  intro cluster hcluster clipped hclipped
  obtain ⟨whole, hwhole, rfl⟩ := List.mem_map.mp hcluster
  obtain ⟨c, -, rfl⟩ := List.mem_map.mp hwhole
  obtain ⟨slot, hslot, rfl⟩ := List.mem_map.mp hclipped
  obtain ⟨i, hi, rfl⟩ := List.mem_map.mp hslot
  have hi := List.mem_range.mp hi
  show directorySize * i < fs.sbinfo.bytesPerClus
  rw [directorySize] at hi ⊢
  omega

theorem findDirentEntry_clip (hgeo : Geometry fs) (hlinked : Linked fs disk chain)
    (hnodup : chain.Nodup)
    (hwell : ∀ cluster ∈ chain.map (clusterSlots fs disk), ∀ slot ∈ cluster, WellNamed slot)
    {name : List UInt8} (hname : 0 ∉ name) (stale : ℕ → ℕ → Buffer) {dirents : Dirents} {dir : ℕ}
    (entry : ℕ) (hfs : (dirents dir).filesystem = some fs)
    (hhead : chain.head? = some (dirents dir).firstCluster) :
    findDirentEntry disk stale dirents dir name entry =
      (lookupIn (names (clippedClusters fs disk chain))
        (dirListing (clippedClusters fs disk chain) 0).2 (fun entry => entry.2.1.offset) dirents name
        dir entry stale).dirents := by
  rw [findDirentEntry_eq hgeo hlinked hnodup hname stale entry hfs hhead, ← findIn_clip]
  exact congrArg Parsed.dirents (findIn_names hname (clipped_wellNamed hwell) _ _ _ _)

theorem onePass_clip (hgeo : Geometry fs)
    (hwell : ∀ cluster ∈ chain.map (clusterSlots fs disk), ∀ slot ∈ cluster, WellNamed slot)
    {name : List UInt8} (hname : 0 ∉ name) (stale : ℕ → ℕ → Buffer) (dirents : Dirents)
    (dir entry : ℕ) :
    onePass fs disk chain stale dirents dir name entry =
      (lookupIn (namesAcross fs.sbinfo.bytesPerClus (clippedClusters fs disk chain))
        (listing (shifted fs.sbinfo.bytesPerClus (clippedClusters fs disk chain)) (freshScan false)).2
        (fun entry => fs.sbinfo.bytesPerClus * entry.1 + entry.2.1.offset) dirents name dir entry
        stale).dirents := by
  rw [onePass, ← parseDirectoryEntries_clip, wholeSlots_clip hgeo]
  exact congrArg Parsed.dirents
    (parseDirectoryEntries_shifted hname (clipped_wellNamed hwell) _ _ _ _)

theorem namesJoin_of_boundaryFree (hgeo : Geometry fs) (hlinked : Linked fs disk chain)
    (hnodup : chain.Nodup)
    (hwell : ∀ cluster ∈ chain.map (clusterSlots fs disk), ∀ slot ∈ cluster, WellNamed slot)
    (hfree : BoundaryFree fs disk chain) :
    NamesJoin fs.sbinfo.bytesPerClus (clippedClusters fs disk chain) := by
  have hoffset := clipped_offset fs disk chain
  obtain ⟨first, hhead⟩ : ∃ first, chain.head? = some first :=
    Option.isSome_iff_exists.mp (List.isSome_head?.mpr hlinked.nonempty)
  have hprobe := fun (name : List UInt8) (hname : 0 ∉ name) stale =>
    hfree name stale (probeDirents fs first) 0 1 hname rfl hhead
  constructor
  · apply names_unique _ (namesAcross_ok hoffset) (names_ok _)
    · intro name hname stale
      have hsame := hprobe name hname stale
      rw [findDirentEntry_clip hgeo hlinked hnodup hwell hname stale 1 rfl hhead,
        onePass_clip hgeo hwell hname] at hsame
      rw [← linkcnt_lookupIn _ _ _ name stale first, ← linkcnt_inCluster _ 0, ← hsame,
        linkcnt_inCluster, linkcnt_lookupIn]
    · apply numbered_nodup
      intro cluster hcluster
      obtain ⟨whole, hwhole, rfl⟩ := List.mem_map.mp hcluster
      obtain ⟨c, -, rfl⟩ := List.mem_map.mp hwhole
      rw [List.map_map]
      exact clusterSlots_nodup fs disk c
  · have hsame := hprobe (probeName [] 1) (by decide) (fun _ _ _ => 0)
    rw [findDirentEntry_clip hgeo hlinked hnodup hwell (by decide) _ 1 rfl hhead,
      onePass_clip hgeo hwell (by decide)] at hsame
    have hleft := overrun_lookupIn
      (fun entry hentry => ((namesAcross_ok hoffset).short entry hentry).1)
      (listing (shifted fs.sbinfo.bytesPerClus (clippedClusters fs disk chain)) (freshScan false)).2
      (fun entry => fs.sbinfo.bytesPerClus * entry.1 + entry.2.1.offset) (probeDirents fs first)
    have hright := overrun_lookupIn
      (fun entry hentry => ((names_ok (clippedClusters fs disk chain)).short entry hentry).1)
      (dirListing (clippedClusters fs disk chain) 0).2 (fun entry => entry.2.1.offset)
      (probeDirents fs first)
    rw [hleft, hright, ← Option.map_eq_none_iff, ← hsame, Option.map_eq_none_iff]

theorem boundaryFree_of_namesJoin (hgeo : Geometry fs) (hlinked : Linked fs disk chain)
    (hnodup : chain.Nodup)
    (hwell : ∀ cluster ∈ chain.map (clusterSlots fs disk), ∀ slot ∈ cluster, WellNamed slot)
    (hjoin : NamesJoin fs.sbinfo.bytesPerClus (clippedClusters fs disk chain)) :
    BoundaryFree fs disk chain := by
  intro name stale dirents dir entry hname hfs hhead
  rw [findDirentEntry_clip hgeo hlinked hnodup hwell hname stale entry hfs hhead,
    onePass_clip hgeo hwell hname, hjoin.names]
  apply inCluster_lookupIn hjoin.overrun.symm
  intro entry _
  rw [Nat.mul_add_mod]

/-- A lookup cluster by cluster finds what one pass over all clusters finds, for every name, if and
only if no name of an entry is cut at the end of a cluster. -/
theorem boundaryFree_iff (hgeo : Geometry fs) (hlinked : Linked fs disk chain)
    (hnodup : chain.Nodup)
    (hwell : ∀ cluster ∈ chain.map (clusterSlots fs disk), ∀ slot ∈ cluster, WellNamed slot) :
    BoundaryFree fs disk chain ↔
      NamesJoin fs.sbinfo.bytesPerClus (clippedClusters fs disk chain) :=
  ⟨namesJoin_of_boundaryFree hgeo hlinked hnodup hwell,
    boundaryFree_of_namesJoin hgeo hlinked hnodup hwell⟩

end Lookup

instance (cluster : List Located) : Decidable (Closed cluster) :=
  inferInstanceAs (Decidable (∀ slot ∈ cluster.getLast?, _))

/-- A directory of two clusters: `last` ends the first one, before it are skipped slots, and
`first` starts the second one. -/
def twoClusters (last first : Slot) : Mem :=
  let disk := Painting.Memory.store (Painting.Memory.store (fun _ => 0) 520 4 3) 524 4 Fat32.eof
  let disk := Painting.Memory.fill disk 1024 fatdirDlt 480
  Painting.Memory.blit (Painting.Memory.blit disk 1504 last directorySize) 1536 first directorySize

theorem twoClusters_linked (last first : Slot) :
    Linked Fat32.smallVolume (twoClusters last first) [2, 3] := by
  have hfat : ∀ c, Fat32.InRange Fat32.smallVolume c →
      Fat32.fatread Fat32.smallVolume (twoClusters last first) c = Fat32.fatread Fat32.smallVolume
        (Painting.Memory.store (Painting.Memory.store (fun _ => 0) 520 4 3) 524 4 Fat32.eof) c := by
    intro c hc
    apply Fat32.fatread_of_data Fat32.smallVolume_geometry hc
    intro x _ hx
    have hx : x < 1024 := hx
    simp only [twoClusters, Painting.Memory.blit, Painting.Memory.fill]
    rw [if_neg (by omega), if_neg (by omega), if_neg (by omega)]
  have htwo : Fat32.InRange Fat32.smallVolume 2 := ⟨by decide, by decide⟩
  have hthree : Fat32.InRange Fat32.smallVolume 3 := ⟨by decide, by decide⟩
  refine ⟨by simp, by simp [htwo, hthree], ?_, ?_⟩
  · rw [List.isChain_pair, hfat 2 htwo]
    decide +kernel
  · intro c hc
    obtain rfl : c = 3 := by simpa using hc.symm
    rw [hfat 3 hthree]
    decide +kernel

theorem boundaryFree_twoShort :
    BoundaryFree Fat32.smallVolume (twoClusters (plainSlot "ONE     TXT") (plainSlot "TWO     TXT"))
      [2, 3] :=
  (boundaryFree_iff Fat32.smallVolume_geometry (twoClusters_linked _ _) (by decide)
    (by decide +kernel)).mpr
    (namesJoin_of_closed (by decide +kernel) (clipped_offset _ _ _))

/-- The name `foobar.txt` in the last slot of a cluster, with its entry in the next cluster. -/
theorem not_boundaryFree_split :
    (∀ cluster ∈ ([2, 3] : List ℕ).map (clusterSlots Fat32.smallVolume
        (twoClusters (encodeSlot (bytesOf "foobar.txt") 0 0) (plainSlot "FOOBAR  TXT"))),
      ∀ slot ∈ cluster, WellNamed slot) ∧
      ¬ BoundaryFree Fat32.smallVolume
        (twoClusters (encodeSlot (bytesOf "foobar.txt") 0 0) (plainSlot "FOOBAR  TXT")) [2, 3] := by
  have hwell : ∀ cluster ∈ ([2, 3] : List ℕ).map (clusterSlots Fat32.smallVolume
      (twoClusters (encodeSlot (bytesOf "foobar.txt") 0 0) (plainSlot "FOOBAR  TXT"))),
      ∀ slot ∈ cluster, WellNamed slot := by
    decide +kernel
  refine ⟨hwell, fun hfree => ?_⟩
  have hnames := (namesJoin_of_boundaryFree Fat32.smallVolume_geometry (twoClusters_linked _ _)
    (by decide) hwell hfree).names
  exact absurd (congrArg (List.map fun entry => entry.2.2) hnames) (by decide +kernel)

end Painting.Directory
