import Painting.Fs.BootSector
import Painting.Fs.DirectoryListing

/-!
# The buffers of a lookup

`find_dirent_entry` reads a cluster into one page, however many bytes the cluster has.
`parse_directory_entries` and `match_dirent_entry` have a buffer of 32 bytes each for a name; a slot
of a long name adds 13 bytes to the first one, and nothing counts the slots.
-/

namespace Painting.Directory

open Painting.Memory (Mem)
open Painting.Strings
open Painting.Fat32 (Filesystem Header clusinit bsize)

/-! ## Stores -/

def pageSize : ℕ := 4096

/-- A byte that a lookup stores: in the page with the cluster, in `tname` or in `_name`. -/
inductive Store
  | page (i : ℕ)
  | tname (i : ℕ)
  | name (i : ℕ)

/-- The byte lies in the buffer. -/
def Store.Inside : Store → Prop
  | .page i => i < pageSize
  | .tname i => i < maxFileNameLen
  | .name i => i < maxFileNameLen

/-- The stores of `read_multiple_cluster`, a block in each round. -/
def readStores (size : ℕ) : List Store :=
  (List.range ((size + bsize - 1) / bsize)).flatMap fun k =>
    (List.range bsize).map fun i => .page (bsize * k + i)

/-- The stores of the `memset` of `tname`. -/
def clearStores : List Store := (List.range maxFileNameLen).map .tname

/-- The stores of `handle_long_file_name`. -/
def handleStores (scan : Scan) : List Store :=
  (if scan.longEntSeq then [.tname (scan.idx + 13)] else []) ++
    ((List.range 5).map fun i => .tname (scan.idx + i)) ++
    ((List.range 6).map fun i => .tname (5 + scan.idx + i)) ++
    (List.range 2).map fun i => .tname (11 + scan.idx + i)

/-- Where `read_fat32_short_name` stores the terminator. -/
def shortNameEnd (dst : Buffer) (src : Slot) : ℕ :=
  let (j, dst) := copyUntilSpace dst 0 src 0 8
  if src 8 = fatdirDlt then j
  else (copyUntilSpace (Function.update dst j (UInt8.ofNat '.'.toNat)) (j + 1) src 8 3).1

/-- Where `match_dirent_entry` stores the terminator of the name that it copies to `_name`. -/
def nameEnd (stale : Buffer) (entry : Slot) (tname : Buffer) : ℕ :=
  if tname 0 ≠ 0 then (strncpyLoop tname (strlen tname maxFileNameLen) 0 stale).1
  else if IsLongFileName entry then (fillLongLoop stale 0 entry 0 256).1
  else shortNameEnd stale entry

/-- The stores of `match_dirent_entry` in `_name`: one byte after the other from the first on. -/
def nameStores (stale : Buffer) (entry : Slot) (tname : Buffer) : List Store :=
  (List.range (nameEnd stale entry tname + 1)).map .name

section Code

variable (name : List UInt8) (parent lastDir : ℕ)

/-- The stores of the loop of `parse_directory_entries`, up to a slot that does not fit. -/
def parseStores (dirents : Dirents) (stale : ℕ → Buffer) : List Located → Scan → List Store
  | [], _ => []
  | slot :: rest, scan =>
      if isInvalidEntry slot.entry = 0 then
        clearStores ++ parseStores dirents stale rest (freshScan false)
      else if isInvalidEntry slot.entry = -1 then []
      else if IsLongFileName slot.entry then
        handleStores scan ++
          match handleLongFileName slot.entry scan with
          | none => []
          | some scan => parseStores dirents stale rest scan
      else
        nameStores (stale slot.offset) slot.entry scan.tname ++
          match matchDirentEntry dirents name parent lastDir slot.entry slot.offset scan.tname
            (stale slot.offset) with
          | some _ => []
          | none => clearStores ++ parseStores dirents stale rest (freshScan scan.longEntSeq)

/-- The slots of the cluster in the buffer of `find_dirent_entry`. -/
def readSlots (fs : Filesystem) (disk : Mem) (clusNo : ℕ) : List Located :=
  slotsOf (fun i => (readMultipleCluster fs disk clusNo fs.sbinfo.bytesPerClus).getD i 0)
    fs.sbinfo.bytesPerClus

/-- The stores of `find_dirent_entry` in its first `rounds` clusters. -/
def lookupStores (fs : Filesystem) (disk : Mem) (dirents : Dirents) (stale : ℕ → ℕ → Buffer)
    (clusNo k : ℕ) : ℕ → List Store
  | 0 => []
  | rounds + 1 =>
      readStores fs.sbinfo.bytesPerClus ++ clearStores ++
        parseStores name parent lastDir dirents (stale k) (readSlots fs disk clusNo)
          (freshScan false) ++
        match parseDirectoryEntries dirents name parent lastDir (stale k)
          (readSlots fs disk clusNo) with
        | .overrun => []
        | .done ret dirents =>
            if ret = -1 ∨ ret = 0 then []
            else
              let clusNo := Fat32.fatread fs disk clusNo
              if Fat32.IsEof clusNo then []
              else lookupStores fs disk dirents stale clusNo (k + 1) rounds

end Code

/-- No lookup in the directory that starts in the cluster stores a byte outside its buffers. -/
def LookupsInside (fs : Filesystem) (disk : Mem) (clusNo : ℕ) : Prop :=
  ∀ (name : List UInt8) (parent lastDir : ℕ) (dirents : Dirents) (stale : ℕ → ℕ → Buffer)
    (rounds : ℕ), 0 ∉ name →
      ∀ store ∈ lookupStores name parent lastDir fs disk dirents stale clusNo 0 rounds, store.Inside

/-! ## The condition -/

/-- After `n` slots of a long name come so many that there are three in a row, before the end
mark. -/
def LongRun : ℕ → List Located → Prop
  | _, [] => False
  | n, slot :: rest =>
      if isInvalidEntry slot.entry = 0 then LongRun 0 rest
      else if isInvalidEntry slot.entry = -1 then False
      else if IsLongFileName slot.entry then n = 2 ∨ LongRun (n + 1) rest
      else LongRun 0 rest

/-- The first `rounds` clusters of the directory, up to one with an end mark. -/
def dirClusters (fs : Filesystem) (disk : Mem) (clusNo : ℕ) : ℕ → List (List Located)
  | 0 => []
  | rounds + 1 =>
      readSlots fs disk clusNo ::
        if (∃ slot ∈ readSlots fs disk clusNo, isInvalidEntry slot.entry = -1) ∨
          Fat32.IsEof (Fat32.fatread fs disk clusNo) then []
        else dirClusters fs disk (Fat32.fatread fs disk clusNo) rounds

/-! ## One slot -/

theorem mem_readStores {size : ℕ} {store : Store} :
    store ∈ readStores size ↔ ∃ i < bsize * ((size + bsize - 1) / bsize), store = .page i := by
  simp only [readStores, List.mem_flatMap, List.mem_map, List.mem_range]
  constructor
  · rintro ⟨k, hk, i, hi, rfl⟩
    refine ⟨_, ?_, rfl⟩
    have hmul := Nat.mul_le_mul_left bsize (Nat.succ_le_of_lt hk)
    rw [Nat.mul_succ] at hmul
    omega
  · rintro ⟨i, hi, rfl⟩
    refine ⟨i / bsize, Nat.div_lt_of_lt_mul hi, i % bsize, Nat.mod_lt _ (by decide), ?_⟩
    rw [Nat.div_add_mod]

theorem readStores_inside_iff (count : ℕ) :
    (∀ store ∈ readStores (bsize * count), store.Inside) ↔ bsize * count ≤ pageSize := by
  have hblocks : bsize * ((bsize * count + bsize - 1) / bsize) = bsize * count := by
    simp only [bsize]
    omega
  constructor
  · intro hinside
    by_contra hbig
    exact lt_irrefl pageSize (hinside (.page pageSize) (mem_readStores.mpr
      ⟨pageSize, by rw [hblocks]; omega, rfl⟩))
  · intro hfits store hstore
    obtain ⟨i, hi, rfl⟩ := mem_readStores.mp hstore
    rw [hblocks] at hi
    exact hi.trans_le hfits

theorem clearStores_inside : ∀ store ∈ clearStores, store.Inside := by
  intro store hstore
  obtain ⟨i, hi, rfl⟩ := List.mem_map.mp hstore
  exact List.mem_range.mp hi

/-- The first two slots of a long name fit, and the third does not. -/
theorem handleStores_inside_iff {scan : Scan} (hok : ScanOk scan) :
    (∀ store ∈ handleStores scan, store.Inside) ↔ scan.idx ≠ 26 := by
  have hidx := hok.idx
  constructor
  · intro hinside hfull
    have hlast := hinside (.tname (11 + scan.idx + 1)) (by simp [handleStores])
    have hlast : 11 + scan.idx + 1 < 32 := hlast
    omega
  · intro hfree store hstore
    have hbound : ∀ i < 14, (Store.tname (scan.idx + i)).Inside := by
      intro i hi
      show scan.idx + i < 32
      omega
    simp only [handleStores, List.mem_append, List.mem_map, List.mem_range] at hstore
    obtain ((hstore | ⟨i, hi, rfl⟩) | ⟨i, hi, rfl⟩) | ⟨i, hi, rfl⟩ := hstore
    · split at hstore
      · obtain rfl := List.mem_singleton.mp hstore
        exact hbound 13 (by decide)
      · exact absurd hstore List.not_mem_nil
    · exact hbound i (by omega)
    · rw [Nat.add_comm 5, Nat.add_assoc]
      exact hbound (5 + i) (by omega)
    · rw [Nat.add_comm 11, Nat.add_assoc]
      exact hbound (11 + i) (by omega)

theorem strncpyLoop_end_le (src : Buffer) (n idx : ℕ) (dst : Buffer) :
    (strncpyLoop src n idx dst).1 ≤ idx + n := by
  induction n generalizing idx dst with
  | zero => exact le_rfl
  | succ n ih =>
      rw [strncpyLoop]
      split
      · exact (ih (idx + 1) _).trans (by omega)
      · exact Nat.le_add_right idx _

theorem shortNameEnd_le (dst : Buffer) (src : Slot) : shortNameEnd dst src ≤ 12 := by
  have hbase := length_untilSpace src 0 8
  have hext := length_untilSpace src 8 3
  rw [shortNameEnd, copyUntilSpace_eq]
  dsimp only
  split
  · omega
  · rw [copyUntilSpace_eq]
    dsimp only
    omega

/-- A name that is compared fits into `_name`. -/
theorem nameStores_inside {entry : Slot} {tname : Buffer} (hok : TnameOk tname)
    (hshort : ¬ IsLongFileName entry) (stale : Buffer) :
    ∀ store ∈ nameStores stale entry tname, store.Inside := by
  have hend : nameEnd stale entry tname ≤ 26 := by
    rw [nameEnd]
    split
    · have hlength := hok.length_le
      rw [hok.holds.strlen (hlength.trans (by decide))]
      exact (strncpyLoop_end_le _ _ _ _).trans (by omega)
    · exact (shortNameEnd_le stale entry).trans (by decide)
  intro store hstore
  obtain ⟨i, hi, rfl⟩ := List.mem_map.mp hstore
  have hi := List.mem_range.mp hi
  show i < 32
  omega

/-! ## One cluster -/

section Parse

variable {name : List UInt8} {parent lastDir : ℕ} {dirents : Dirents} {stale : ℕ → Buffer}
  {slots : List Located} {scan : Scan}

/-- Without too many slots of a long name in a row every store is inside. -/
theorem parseStores_inside {n : ℕ} (hok : ScanOk scan) (hidx : scan.idx = 13 * n)
    (hfew : ¬ LongRun n slots) :
    ∀ store ∈ parseStores name parent lastDir dirents stale slots scan, store.Inside := by
  induction slots generalizing scan n with
  | nil => simp [parseStores]
  | cons slot rest ih =>
      rw [LongRun] at hfew
      rw [parseStores]
      split
      · rename_i hskip
        rw [if_pos hskip] at hfew
        rw [List.forall_mem_append]
        exact ⟨clearStores_inside, ih (scanOk_fresh false) rfl hfew⟩
      · rename_i hvalid
        rw [if_neg hvalid] at hfew
        split
        · simp
        · rename_i hmore
          rw [if_neg hmore] at hfew
          split
          · rename_i hlong
            rw [if_pos hlong, not_or] at hfew
            have hfree : scan.idx ≠ 26 := by omega
            rw [List.forall_mem_append]
            refine ⟨(handleStores_inside_iff hok).mpr hfree, ?_⟩
            cases hhandle : handleLongFileName slot.entry scan with
            | none => simp
            | some scan' =>
                have hnext := hhandle
                rw [handleLongFileName_eq hok, if_neg hfree] at hnext
                obtain rfl := Option.some.inj hnext
                exact ih (hok.handle hhandle) (by dsimp only; omega) hfew.2
          · rename_i hshort
            rw [if_neg hshort] at hfew
            rw [List.forall_mem_append]
            refine ⟨nameStores_inside hok.tname hshort _, ?_⟩
            split
            · simp
            · rw [List.forall_mem_append]
              exact ⟨clearStores_inside, ih (scanOk_fresh _) rfl hfew⟩

/-- A scan that takes no entry comes to the third slot of a long name, and stores outside. -/
theorem exists_parseStores_outside {n : ℕ} (hok : ScanOk scan) (hidx : scan.idx = 13 * n)
    (hnone : ∀ slot ∈ slots, ∀ tname, TnameOk tname → ¬ IsLongFileName slot.entry →
      matchDirentEntry dirents name parent lastDir slot.entry slot.offset tname
        (stale slot.offset) = none)
    (hlong : LongRun n slots) :
    ∃ store ∈ parseStores name parent lastDir dirents stale slots scan, ¬ store.Inside := by
  induction slots generalizing scan n with
  | nil => exact absurd hlong id
  | cons slot rest ih =>
      have hrest := fun other hother => hnone other (List.mem_cons_of_mem slot hother)
      have hlater : ∀ {before after : List Store}, (∃ store ∈ after, ¬ store.Inside) →
          ∃ store ∈ before ++ after, ¬ store.Inside := by
        rintro before after ⟨store, hstore, hout⟩
        exact ⟨store, List.mem_append_right before hstore, hout⟩
      rw [LongRun] at hlong
      rw [parseStores]
      split at hlong
      · rename_i hskip
        rw [if_pos hskip]
        exact hlater (ih (scanOk_fresh false) rfl hrest hlong)
      · rename_i hvalid
        rw [if_neg hvalid]
        split at hlong
        · exact absurd hlong id
        · rename_i hmore
          rw [if_neg hmore]
          split at hlong
          · rename_i hname
            rw [if_pos hname]
            by_cases hfull : scan.idx = 26
            · have hout := mt (handleStores_inside_iff hok).mp (not_not.mpr hfull)
              push Not at hout
              obtain ⟨store, hstore, hout⟩ := hout
              exact ⟨store, List.mem_append_left _ hstore, hout⟩
            · have hhandle := handleLongFileName_eq hok slot.entry
              rw [if_neg hfull] at hhandle
              rw [hhandle]
              apply hlater
              refine ih (hok.handle hhandle) (show scan.idx + 13 = 13 * (n + 1) by omega) hrest ?_
              exact hlong.resolve_left (by omega)
          · rename_i hshort
            rw [if_neg hshort, hnone slot List.mem_cons_self scan.tname hok.tname hshort]
            exact hlater (hlater (ih (scanOk_fresh _) rfl hrest hlong))

/-- How a scan ends that takes no entry. -/
theorem listing_ending {n : ℕ} (hok : ScanOk scan) (hidx : scan.idx = 13 * n)
    (hfew : ¬ LongRun n slots) :
    (listing slots scan).2 =
      if ∃ slot ∈ slots, isInvalidEntry slot.entry = -1 then .mark else .cluster := by
  induction slots generalizing scan n with
  | nil => simp [listing]
  | cons slot rest ih =>
      rw [LongRun] at hfew
      rw [listing]
      by_cases hskip : isInvalidEntry slot.entry = 0
      · rw [if_pos hskip] at hfew
        rw [if_pos hskip, ih (scanOk_fresh false) rfl hfew]
        simp [hskip]
      · rw [if_neg hskip] at hfew
        rw [if_neg hskip]
        by_cases hmark : isInvalidEntry slot.entry = -1
        · rw [if_pos hmark, if_pos ⟨slot, List.mem_cons_self, hmark⟩]
        · have hsame : (∃ other ∈ slot :: rest, isInvalidEntry other.entry = -1) ↔
              ∃ other ∈ rest, isInvalidEntry other.entry = -1 := by
            simp [hmark]
          rw [if_neg hmark] at hfew
          rw [if_neg hmark, if_congr hsame rfl rfl]
          by_cases hlong : IsLongFileName slot.entry
          · rw [if_pos hlong, not_or] at hfew
            have hhandle := handleLongFileName_eq hok slot.entry
            rw [if_neg (by omega)] at hhandle
            rw [if_pos hlong, hhandle]
            exact ih (hok.handle hhandle) (show scan.idx + 13 = 13 * (n + 1) by omega) hfew.2
          · rw [if_neg hlong] at hfew
            rw [if_neg hlong]
            exact ih (scanOk_fresh _) rfl hfew

end Parse

/-! ## All clusters -/

section Lookup

variable {fs : Filesystem} {disk : Mem} {name : List UInt8} {parent lastDir : ℕ}

theorem lookupStores_inside (hname : 0 ∉ name) (stale : ℕ → ℕ → Buffer)
    (hpage : ∀ store ∈ readStores fs.sbinfo.bytesPerClus, store.Inside) {clusNo : ℕ}
    (hfew : ∀ rounds, ∀ slots ∈ dirClusters fs disk clusNo rounds, ¬ LongRun 0 slots)
    (dirents : Dirents) (k rounds : ℕ) :
    ∀ store ∈ lookupStores name parent lastDir fs disk dirents stale clusNo k rounds,
      store.Inside := by
  induction rounds generalizing clusNo dirents k with
  | zero => simp [lookupStores]
  | succ rounds ih =>
      have hfirst := hfew 1 (readSlots fs disk clusNo) (by simp [dirClusters])
      have hending := @listing_ending _ (freshScan false) 0 (scanOk_fresh false) rfl hfirst
      rw [lookupStores, List.forall_mem_append, List.forall_mem_append, List.forall_mem_append]
      refine ⟨⟨⟨hpage, clearStores_inside⟩, parseStores_inside (scanOk_fresh false) rfl hfirst⟩, ?_⟩
      rw [parseDirectoryEntries_eq hname, hending]
      cases ((listing (readSlots fs disk clusNo) (freshScan false)).1.find? fun named =>
          named.Taken name (stale k)) with
      | some named => simp
      | none =>
          by_cases hmark : ∃ slot ∈ readSlots fs disk clusNo, isInvalidEntry slot.entry = -1
          · simp [if_pos hmark, Ending.parsed]
          · simp only [if_neg hmark, Ending.parsed]
            rw [if_neg (by decide)]
            split
            · simp
            · rename_i heof
              apply ih
              intro rounds slots hslots
              apply hfew (rounds + 1) slots
              rw [dirClusters, if_neg (not_or.mpr ⟨hmark, heof⟩)]
              exact List.mem_cons_of_mem _ hslots

/-- A name that no entry has. -/
def absentName : List UInt8 := List.replicate 31 1

theorem not_taken_absent {entry : Slot} {tname : Buffer} (hok : TnameOk tname)
    (hshort : ¬ IsLongFileName entry) : ¬ Taken absentName entry tname fun _ => 0 := by
  have hlength : absentName.length = 31 := List.length_replicate
  rintro (hstart | ⟨-, hstack⟩)
  · have hle := hstart.length_le
    have hbound := @length_entryName entry tname hok
    omega
  · exact hstack ((nameBuffer_holds hok hshort).2 _ (by omega))

theorem matchDirentEntry_absent {entry : Slot} {tname : Buffer} (hok : TnameOk tname)
    (hshort : ¬ IsLongFileName entry) (dirents : Dirents) (offset : ℕ) :
    matchDirentEntry dirents absentName parent lastDir entry offset tname (fun _ => 0) = none := by
  rw [matchDirentEntry_eq hok hshort (by decide), if_neg (not_taken_absent hok hshort)]

/-- A lookup of an absent name comes to every cluster of the directory. -/
theorem exists_lookupStores_outside {clusNo rounds : ℕ} {slots : List Located}
    (hslots : slots ∈ dirClusters fs disk clusNo rounds) (hlong : LongRun 0 slots)
    (dirents : Dirents) (k : ℕ) :
    ∃ store ∈ lookupStores absentName parent lastDir fs disk dirents (fun _ _ _ => 0) clusNo k
      rounds, ¬ store.Inside := by
  induction rounds generalizing clusNo k with
  | zero => exact absurd hslots List.not_mem_nil
  | succ rounds ih =>
      have habsent : ∀ slot ∈ readSlots fs disk clusNo, ∀ tname, TnameOk tname →
          ¬ IsLongFileName slot.entry → matchDirentEntry dirents absentName parent lastDir
            slot.entry slot.offset tname (fun _ => 0) = none :=
        fun slot _ tname hok hshort => matchDirentEntry_absent hok hshort dirents slot.offset
      by_cases hfirst : LongRun 0 (readSlots fs disk clusNo)
      · obtain ⟨store, hstore, hout⟩ := @exists_parseStores_outside absentName parent lastDir
          dirents (fun _ _ => 0) _ _ 0 (scanOk_fresh false) rfl habsent hfirst
        refine ⟨store, ?_, hout⟩
        rw [lookupStores]
        exact List.mem_append_left _ (List.mem_append_right _ hstore)
      · have hending := @listing_ending _ (freshScan false) 0 (scanOk_fresh false) rfl hfirst
        rw [dirClusters, List.mem_cons] at hslots
        obtain rfl | hslots := hslots
        · exact absurd hlong hfirst
        · split at hslots
          · exact absurd hslots List.not_mem_nil
          · rename_i hmore
            obtain ⟨hmark, heof⟩ := not_or.mp hmore
            obtain ⟨store, hstore, hout⟩ := ih hslots (k + 1)
            refine ⟨store, ?_, hout⟩
            have hnone : (listing (readSlots fs disk clusNo) (freshScan false)).1.find?
                (fun named => named.Taken absentName fun _ => fun _ => 0) = none := by
              rw [List.find?_eq_none]
              intro named hnamed
              obtain ⟨hok, hshort, -⟩ := listing_ok (scanOk_fresh false) named hnamed
              rw [decide_eq_true_iff]
              exact not_taken_absent hok hshort
            rw [lookupStores, parseDirectoryEntries_eq (by decide), hending, hnone, if_neg hmark]
            apply List.mem_append_right
            simp only [Ending.parsed]
            rw [if_neg (by decide), if_neg heof]
            exact hstore

theorem readStores_of_inside {clusNo : ℕ} (hinside : LookupsInside fs disk clusNo) :
    ∀ store ∈ readStores fs.sbinfo.bytesPerClus, store.Inside := by
  intro store hstore
  apply hinside absentName 0 0 (fun _ => ⟨fun _ => 0, 0, 0, 0, .dir, none, 0, none, 0⟩)
    (fun _ _ _ => 0) 1 (by decide) store
  rw [lookupStores, List.append_assoc, List.append_assoc]
  exact List.mem_append_left _ hstore

theorem bytesPerClus_of_accept {header : Header} (haccept : (clusinit header).1 = 0) :
    (clusinit header).2.sbinfo.bytesPerClus = bsize * header.sectorsPerCluster := by
  have hsector : bsize = header.bytesPerSector := by
    by_contra hne
    rw [clusinit, if_pos hne] at haccept
    exact absurd haccept (show Fat32.errCode ≠ 0 by decide)
  rw [hsector]
  rfl

/-- A lookup stores inside its buffers, whatever it searches for, exactly when a cluster fits into
the page and no cluster of the directory has three slots of long names in a row. -/
theorem lookupsInside_iff {header : Header} (haccept : (clusinit header).1 = 0) (disk : Mem)
    (clusNo : ℕ) :
    LookupsInside (clusinit header).2 disk clusNo ↔
      (clusinit header).2.sbinfo.bytesPerClus ≤ pageSize ∧
        ∀ rounds, ∀ slots ∈ dirClusters (clusinit header).2 disk clusNo rounds,
          ¬ LongRun 0 slots := by
  have hpage := readStores_inside_iff header.sectorsPerCluster
  rw [← bytesPerClus_of_accept haccept] at hpage
  constructor
  · intro hinside
    refine ⟨hpage.mp (readStores_of_inside hinside), ?_⟩
    intro rounds slots hslots hlong
    obtain ⟨store, hstore, hout⟩ := @exists_lookupStores_outside _ disk 0 0 _ _ _ hslots hlong
      (fun _ => ⟨fun _ => 0, 0, 0, 0, .dir, none, 0, none, 0⟩) 0
    exact hout (hinside absentName 0 0 _ _ rounds (by decide) store hstore)
  · rintro ⟨hfits, hfew⟩ name parent lastDir dirents stale rounds hname
    exact lookupStores_inside hname stale (hpage.mpr hfits) hfew dirents 0 rounds

end Lookup

instance decidableLongRun : (n : ℕ) → (slots : List Located) → Decidable (LongRun n slots)
  | _, [] => inferInstanceAs (Decidable False)
  | n, slot :: rest =>
      have := decidableLongRun 0 rest
      have := decidableLongRun (n + 1) rest
      inferInstanceAs (Decidable (if isInvalidEntry slot.entry = 0 then LongRun 0 rest
        else if isInvalidEntry slot.entry = -1 then False
        else if IsLongFileName slot.entry then n = 2 ∨ LongRun (n + 1) rest
        else LongRun 0 rest))

/-- An empty root directory in a cluster of one sector. -/
theorem lookupsInside_empty : LookupsInside (clusinit Fat32.smallHeader).2 (fun _ => 0) 2 := by
  refine (lookupsInside_iff rfl (fun _ => 0) 2).mpr ⟨by decide, fun rounds slots hslots => ?_⟩
  have hmark : ∃ slot ∈ readSlots (clusinit Fat32.smallHeader).2 (fun _ => 0) 2,
      isInvalidEntry slot.entry = -1 := by
    decide +kernel
  cases rounds with
  | zero => exact absurd hslots List.not_mem_nil
  | succ rounds =>
      rw [dirClusters, if_pos (.inl hmark), List.mem_singleton] at hslots
      subst hslots
      decide +kernel

/-- A volume with 16 sectors a cluster: its clusters are two pages. -/
theorem not_lookupsInside_twoPages :
    (clusinit ⟨512, 16, 1, 1, 100, 1, 2⟩).1 = 0 ∧
      ¬ LookupsInside (clusinit ⟨512, 16, 1, 1, 100, 1, 2⟩).2 (fun _ => 0) 2 := by
  refine ⟨rfl, fun hinside => ?_⟩
  have hpage := readStores_of_inside hinside
  rw [bytesPerClus_of_accept rfl, readStores_inside_iff] at hpage
  exact absurd hpage (by decide)

end Painting.Directory
