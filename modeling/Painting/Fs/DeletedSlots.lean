import Painting.Fs.FileWrite
import Painting.Fs.NameMatch

/-!
# Deleted slots

FAT deletes a file by a mark in the first byte of its slots.  The scan skips slots that start with
a space, not with that mark.  So a deleted entry is found by its name, and a deleted slot of a long
name becomes part of the name of the next entry.

The directory without its deleted slots has its other slots where they were.
-/

namespace Painting.Directory

open Painting.Memory (Mem)
open Painting.Strings
open Painting.Fat32 (Filesystem Geometry Linked)

/-! ## Directories of several clusters -/

def Deleted (slot : Located) : Prop := slot.entry 0 = deletedMark

instance (slot : Located) : Decidable (Deleted slot) := inferInstanceAs (Decidable (_ = _))

/-- The slots of the clusters without the deleted ones. -/
def withoutDeleted (clusters : List (List Located)) : List (List Located) :=
  clusters.map fun cluster => cluster.filter fun slot => ¬ Deleted slot

/-- The lookup in the clusters of a directory from cluster number `k` on. -/
def findIn (dirents : Dirents) (name : List UInt8) (parent lastDir : ℕ)
    (stale : ℕ → ℕ → Buffer) : List (List Located) → ℕ → Parsed
  | [], _ => .done (-2) dirents
  | cluster :: rest, k =>
      match parseDirectoryEntries dirents name parent lastDir (stale k) cluster with
      | .overrun => .overrun
      | .done ret dirents =>
          if ret = -1 ∨ ret = 0 then .done ret dirents
          else findIn dirents name parent lastDir stale rest (k + 1)

/-- The entries in memory after a lookup that returns. -/
def Parsed.dirents : Parsed → Option Dirents
  | .done _ dirents => some dirents
  | .overrun => none

/-- The slots of a cluster on disk. -/
def clusterSlots (fs : Filesystem) (disk : Mem) (cluster : ℕ) : List Located :=
  slotsOf (fun i => (Fat32.clusterBytes fs disk cluster).getD i 0) fs.sbinfo.bytesPerClus

/-- The entries that a lookup compares, with the number of their cluster. -/
def dirListing : List (List Located) → ℕ → List (ℕ × Named) × Ending
  | [], _ => ([], .cluster)
  | cluster :: rest, k =>
      let (entries, ending) := listing cluster (freshScan false)
      if ending = .cluster then
        (entries.map (k, ·) ++ (dirListing rest (k + 1)).1, (dirListing rest (k + 1)).2)
      else (entries.map (k, ·), ending)

section Find

variable {name : List UInt8}

/-- A lookup takes the first entry of the listing that the comparison accepts. -/
theorem findIn_eq (hname : 0 ∉ name) (dirents : Dirents) (parent lastDir : ℕ)
    (stale : ℕ → ℕ → Buffer) (clusters : List (List Located)) (k : ℕ) :
    findIn dirents name parent lastDir stale clusters k =
      match (dirListing clusters k).1.find? fun entry => entry.2.Taken name (stale entry.1) with
      | some entry =>
          .done 0 (fillDirent dirents name parent lastDir entry.2.slot.entry entry.2.slot.offset)
      | none => (dirListing clusters k).2.parsed dirents := by
  induction clusters generalizing k with
  | nil => rfl
  | cons cluster rest ih =>
      rw [findIn, parseDirectoryEntries_eq hname, dirListing]
      rcases listing cluster (freshScan false) with ⟨entries, ending⟩
      have hmap : (entries.map ((k, ·) : Named → ℕ × Named)).find?
          (fun entry => entry.2.Taken name (stale entry.1)) =
          (entries.find? fun named => named.Taken name (stale k)).map (k, ·) := by
        rw [List.find?_map]
        rfl
      dsimp only
      cases hfind : entries.find? fun named => named.Taken name (stale k) with
      | some named =>
          rw [hfind, Option.map_some] at hmap
          dsimp only
          rw [if_pos (.inr rfl)]
          by_cases hend : ending = .cluster
          · rw [if_pos hend, List.find?_append, hmap]
            rfl
          · rw [if_neg hend, hmap]
      | none =>
          rw [hfind, Option.map_none] at hmap
          cases ending with
          | overrun =>
              rw [if_neg (by decide), hmap]
              rfl
          | mark =>
              rw [if_neg (by decide), hmap]
              rfl
          | cluster =>
              rw [if_pos rfl, List.find?_append, hmap, Option.none_or]
              exact ih (k + 1)

end Find

/-! ## Clusters on disk -/

section Disk

variable {fs : Filesystem} {disk : Mem}

theorem flatMap_blocks {α : Type*} (byte : ℕ → α) (size count : ℕ) :
    ((List.range count).flatMap fun i => (List.range size).map fun k => byte (size * i + k)) =
      (List.range (size * count)).map byte := by
  induction count with
  | zero => rfl
  | succ count ih =>
      rw [List.range_succ, List.flatMap_append, ih, List.flatMap_singleton, Nat.mul_succ,
        List.range_add, List.map_append, List.map_map]
      rfl

theorem readMultipleCluster_eq (hgeo : Geometry fs) {cluster : ℕ} (hin : Fat32.InRange fs cluster) :
    readMultipleCluster fs disk cluster fs.sbinfo.bytesPerClus =
      Fat32.clusterBytes fs disk cluster := by
  have hbytes := hgeo.bytes
  have hcount : fs.sbinfo.bytesPerClus / Fat32.bsize = fs.superblock.sectorsPerCluster := by
    rw [hbytes]
    exact Nat.mul_div_cancel_left _ (by decide)
  rw [readMultipleCluster, Fat32.clusterBytes, hcount]
  conv_rhs => rw [hbytes, ← flatMap_blocks]
  apply List.flatMap_congr
  intro i hi
  have hi := List.mem_range.mp hi
  rw [Fat32.clusread_eq hgeo hin disk]
  · simp only [Nat.add_assoc]
  · rw [hbytes, ← Nat.mul_succ]
    exact Nat.mul_le_mul_left _ hi

/-- What `parse_directory_entries` returns when it has not found the name. -/
theorem parseDirectoryEntries_ret {dirents dirents' : Dirents} {name : List UInt8} (hname : 0 ∉ name)
    {parent lastDir : ℕ} {stale : ℕ → Buffer} {slots : List Located} {ret : ℤ}
    (hparse : parseDirectoryEntries dirents name parent lastDir stale slots = .done ret dirents')
    (hret : ¬ (ret = -1 ∨ ret = 0)) : ret = -2 ∧ dirents' = dirents := by
  rw [parseDirectoryEntries_eq hname] at hparse
  split at hparse
  · exact absurd (.inr (Parsed.done.inj hparse).1.symm) hret
  · cases hend : (listing slots (freshScan false)).2 with
    | mark =>
        rw [hend] at hparse
        exact absurd (.inl (Parsed.done.inj hparse).1.symm) hret
    | cluster =>
        rw [hend] at hparse
        obtain ⟨hret', hdirents⟩ := Parsed.done.inj hparse
        exact ⟨hret'.symm, hdirents.symm⟩
    | overrun =>
        rw [hend] at hparse
        cases hparse

/-- A lookup in a directory on disk is one in the slots of its clusters. -/
theorem findLoop_eq (hgeo : Geometry fs) {name : List UInt8} (hname : 0 ∉ name) (dir entry : ℕ)
    (stale : ℕ → ℕ → Buffer) {chain : List ℕ} (hlinked : Linked fs disk chain) {first : ℕ}
    (hhead : chain.head? = some first) (dirents : Dirents) {k rounds : ℕ}
    (hrounds : chain.length ≤ rounds) :
    findLoop fs disk dirents name dir entry stale first k rounds =
      some (findIn dirents name dir entry stale (chain.map (clusterSlots fs disk)) k) := by
  induction rounds generalizing chain first dirents k with
  | zero => exact absurd (List.length_eq_zero_iff.mp (Nat.le_zero.mp hrounds)) hlinked.nonempty
  | succ rounds ih =>
      obtain ⟨rest, rfl⟩ : ∃ rest, chain = first :: rest := List.head?_eq_some_iff.mp hhead
      have hin := hlinked.inRange first List.mem_cons_self
      rw [findLoop, readMultipleCluster_eq hgeo hin, List.map_cons, findIn, clusterSlots]
      cases hparse : parseDirectoryEntries dirents name dir entry (stale k)
          (slotsOf (fun i => (Fat32.clusterBytes fs disk first).getD i 0)
            fs.sbinfo.bytesPerClus) with
      | overrun => rfl
      | done ret dirents' =>
          dsimp only
          by_cases hret : ret = -1 ∨ ret = 0
          · rw [if_pos hret, if_pos hret]
          · obtain ⟨rfl, rfl⟩ := parseDirectoryEntries_ret hname hparse hret
            rw [if_neg hret, if_neg hret]
            cases rest with
            | nil =>
                rw [if_pos (hlinked.last first rfl)]
                rfl
            | cons next rest =>
                obtain ⟨hnext, htail⟩ := hlinked.tail
                rw [hnext, if_neg (Fat32.not_isEof hgeo (htail.inRange next List.mem_cons_self))]
                exact ih htail rfl dirents' (by simpa using hrounds)

end Disk

/-! ## What distinguishes two directories -/

/-- The number of the cluster, the slot and the name of an entry. -/
abbrev Entry := ℕ × Located × List UInt8

/-- The names that a lookup compares. -/
def names (clusters : List (List Located)) : List Entry :=
  (dirListing clusters 0).1.map fun entry => (entry.1, entry.2.slot, entry.2.name)

/-- The scan meets the same names without the deleted slots: none of these is an entry, and those of
long names change neither the name of an entry nor whether a name is too long. -/
structure Undisturbed (clusters : List (List Located)) : Prop where
  names : names (withoutDeleted clusters) = names clusters
  overrun : (dirListing (withoutDeleted clusters) 0).2 = .overrun ↔
    (dirListing clusters 0).2 = .overrun

/-- The columns of an 8.3 name hold no 0, except in a slot that ends the directory. -/
def WellNamed (slot : Located) : Prop :=
  slot.entry 0 ≠ 0 → ¬ IsLongFileName slot.entry → ∀ i < shortNameLen, slot.entry i ≠ 0

/-- The comparison accepts an entry with this slot and name. -/
def TakenAs (name : List UInt8) (stale : ℕ → ℕ → Buffer) (entry : Entry) : Prop :=
  name <+: entry.2.2 ∨ (entry.2.2 <+: name ∧ entry.2.2.length < name.length) ∧
    stale entry.1 entry.2.1.offset name.length ≠ 0

instance (name : List UInt8) (stale : ℕ → ℕ → Buffer) (entry : Entry) :
    Decidable (TakenAs name stale entry) := inferInstanceAs (Decidable (_ ∨ _))

/-- A lookup takes the first of the names that the comparison accepts; `offset` is what it leaves in
the parent. -/
def lookupIn (entries : List Entry) (ending : Ending) (offset : Entry → ℕ) (dirents : Dirents)
    (name : List UInt8) (parent lastDir : ℕ) (stale : ℕ → ℕ → Buffer) : Parsed :=
  match entries.find? fun entry => TakenAs name stale entry with
  | some entry => .done 0 (fillDirent dirents name parent lastDir entry.2.1.entry (offset entry))
  | none => ending.parsed dirents

/-- The slots with the numbers of their clusters. -/
def numbered : List (List Located) → ℕ → List (ℕ × Located)
  | [], _ => []
  | cluster :: rest, k => cluster.map (k, ·) ++ numbered rest (k + 1)

section Names

variable {clusters : List (List Located)}

theorem dirListing_sublist (clusters : List (List Located)) (k : ℕ) :
    List.Sublist ((dirListing clusters k).1.map fun entry => (entry.1, entry.2.slot))
      (numbered clusters k) := by
  induction clusters generalizing k with
  | nil => exact List.Sublist.refl _
  | cons cluster rest ih =>
      have hfirst : List.Sublist
          (((listing cluster (freshScan false)).1.map (k, ·)).map fun entry =>
            (entry.1, entry.2.slot)) (cluster.map (k, ·)) := by
        have hslots := (listing_sublist cluster (freshScan false)).map
          ((k, ·) : Located → ℕ × Located)
        rw [List.map_map] at hslots ⊢
        exact hslots
      rw [dirListing, numbered]
      dsimp only
      split
      · rw [List.map_append]
        exact hfirst.append (ih (k + 1))
      · exact hfirst.trans (List.sublist_append_left _ _)

theorem numbered_withoutDeleted (clusters : List (List Located)) (k : ℕ) :
    List.Sublist (numbered (withoutDeleted clusters) k) (numbered clusters k) := by
  induction clusters generalizing k with
  | nil => exact List.Sublist.refl _
  | cons cluster rest ih =>
      exact (List.filter_sublist.map _).append (ih (k + 1))

theorem le_of_mem_numbered {k : ℕ} {located : ℕ × Located} (hmem : located ∈ numbered clusters k) :
    k ≤ located.1 := by
  induction clusters generalizing k with
  | nil => exact absurd hmem List.not_mem_nil
  | cons cluster rest ih =>
      obtain hmem | hmem := List.mem_append.mp hmem
      · obtain ⟨slot, -, rfl⟩ := List.mem_map.mp hmem
        exact le_rfl
      · exact (Nat.le_succ k).trans (ih hmem)

/-- A place in the directory is that of one slot. -/
theorem numbered_nodup (hoffsets : ∀ cluster ∈ clusters, (cluster.map Located.offset).Nodup)
    (k : ℕ) : ((numbered clusters k).map fun located => (located.1, located.2.offset)).Nodup := by
  induction clusters generalizing k with
  | nil => exact List.nodup_nil
  | cons cluster rest ih =>
      rw [numbered, List.map_append, List.map_map, List.nodup_append]
      refine ⟨?_, ih (fun other hother => hoffsets other (List.mem_cons_of_mem _ hother)) (k + 1),
        ?_⟩
      · have hfirst := (hoffsets cluster List.mem_cons_self).map (Prod.mk_right_injective k)
        rwa [List.map_map] at hfirst
      · rintro _ hleft _ hright rfl
        obtain ⟨slot, -, rfl⟩ := List.mem_map.mp hleft
        obtain ⟨located, hlocated, heq⟩ := List.mem_map.mp hright
        have hle := le_of_mem_numbered hlocated
        have hk : located.1 = k := congrArg Prod.fst heq
        omega

/-- Lists with the same members, in the order of one list. -/
theorem eq_of_sublist {α β : Type*} {key : α → β} {left right : List α} {whole : List β}
    (hnodup : whole.Nodup) (hleft : List.Sublist (left.map key) whole)
    (hright : List.Sublist (right.map key) whole) (hmem : ∀ a, a ∈ left ↔ a ∈ right) :
    left = right := by
  induction whole generalizing left right with
  | nil =>
      rw [List.map_eq_nil_iff.mp (List.sublist_nil.mp hleft),
        List.map_eq_nil_iff.mp (List.sublist_nil.mp hright)]
  | cons w whole ih =>
      obtain ⟨hw, hnodup⟩ := List.nodup_cons.mp hnodup
      have habsent : ∀ {items : List α} {a : α}, List.Sublist (items.map key) whole →
          a ∈ items → key a ≠ w := fun hsub ha heq =>
        hw (heq ▸ hsub.subset (List.mem_map_of_mem ha))
      obtain hleft | ⟨restL, hmapL, hsubL⟩ := List.sublist_cons_iff.mp hleft
      · obtain hright | ⟨restR, hmapR, -⟩ := List.sublist_cons_iff.mp hright
        · exact ih hnodup hleft hright hmem
        · obtain ⟨b, tailR, rfl, hb, -⟩ := List.map_eq_cons_iff.mp hmapR
          exact absurd hb (habsent hleft ((hmem b).mpr List.mem_cons_self))
      · obtain ⟨a, tailL, rfl, ha, rfl⟩ := List.map_eq_cons_iff.mp hmapL
        obtain hright | ⟨restR, hmapR, hsubR⟩ := List.sublist_cons_iff.mp hright
        · exact absurd ha (habsent hright ((hmem a).mp List.mem_cons_self))
        · obtain ⟨b, tailR, rfl, hb, rfl⟩ := List.map_eq_cons_iff.mp hmapR
          have hhead : a = b := by
            obtain hab | htail := List.mem_cons.mp ((hmem a).mp List.mem_cons_self)
            · exact hab
            · exact absurd ha (habsent hsubR htail)
          subst hhead
          congr 1
          apply ih hnodup hsubL hsubR
          intro x
          constructor
          · intro hx
            obtain rfl | htail := List.mem_cons.mp ((hmem x).mp (List.mem_cons_of_mem _ hx))
            · exact absurd ha (habsent hsubL hx)
            · exact htail
          · intro hx
            obtain rfl | htail := List.mem_cons.mp ((hmem x).mpr (List.mem_cons_of_mem _ hx))
            · exact absurd ha (habsent hsubR hx)
            · exact htail

theorem mem_listing {slots : List Located} {named : Named}
    (hnamed : named ∈ (listing slots (freshScan false)).1) :
    TnameOk named.tname ∧ ¬ IsLongFileName named.slot.entry ∧ named.slot.entry 0 ≠ 0 ∧
      named.slot ∈ slots := by
  obtain ⟨hok, hshort, hvalid, hmore⟩ := listing_ok (scanOk_fresh false) named hnamed
  refine ⟨hok, hshort, fun hzero => ?_,
    (listing_sublist slots _).subset (List.mem_map_of_mem hnamed)⟩
  rw [isInvalidEntry] at hvalid hmore
  split at hvalid
  · exact hvalid rfl
  · rename_i hskip
    exact hmore (by rw [if_neg hskip, if_pos hzero])

/-- The entries of a listing are slots of the directory that end nothing. -/
theorem mem_dirListing {k : ℕ} {entry : ℕ × Named} (hentry : entry ∈ (dirListing clusters k).1) :
    TnameOk entry.2.tname ∧ ¬ IsLongFileName entry.2.slot.entry ∧ entry.2.slot.entry 0 ≠ 0 ∧
      ∃ cluster ∈ clusters, entry.2.slot ∈ cluster := by
  induction clusters generalizing k with
  | nil => exact absurd hentry List.not_mem_nil
  | cons cluster rest ih =>
      have hfirst : entry ∈ (listing cluster (freshScan false)).1.map (k, ·) →
          TnameOk entry.2.tname ∧ ¬ IsLongFileName entry.2.slot.entry ∧
            entry.2.slot.entry 0 ≠ 0 ∧ ∃ c ∈ cluster :: rest, entry.2.slot ∈ c := by
        intro hmem
        obtain ⟨named, hnamed, rfl⟩ := List.mem_map.mp hmem
        obtain ⟨hok, hshort, hhead, hslot⟩ := mem_listing hnamed
        exact ⟨hok, hshort, hhead, cluster, List.mem_cons_self, hslot⟩
      rw [dirListing] at hentry
      dsimp only at hentry
      split at hentry
      · obtain hmem | hmem := List.mem_append.mp hentry
        · exact hfirst hmem
        · obtain ⟨hok, hshort, hhead, other, hother, hslot⟩ := ih hmem
          exact ⟨hok, hshort, hhead, other, List.mem_cons_of_mem _ hother, hslot⟩
      · exact hfirst hentry

/-- Whether an entry is taken depends on its place and its name only. -/
theorem taken_iff_takenAs {entry : ℕ × Named} (hok : TnameOk entry.2.tname)
    (hshort : ¬ IsLongFileName entry.2.slot.entry) (hhead : entry.2.slot.entry 0 ≠ 0)
    (hwell : WellNamed entry.2.slot) (name : List UInt8) (stale : ℕ → ℕ → Buffer) :
    entry.2.Taken name (stale entry.1) ↔
      TakenAs name stale (entry.1, entry.2.slot, entry.2.name) := by
  rw [Named.Taken, Taken, TakenAs, Named.name]
  refine or_congr Iff.rfl (and_congr_right fun hlonger => ?_)
  rw [nameBuffer_of_lt hok hshort (zero_notMem_shortBytes (hwell hhead hshort)) hlonger.2]

/-- A lookup in the clusters is one in their names. -/
theorem findIn_names {name : List UInt8} (hname : 0 ∉ name)
    (hwell : ∀ cluster ∈ clusters, ∀ slot ∈ cluster, WellNamed slot) (dirents : Dirents)
    (parent lastDir : ℕ) (stale : ℕ → ℕ → Buffer) :
    findIn dirents name parent lastDir stale clusters 0 =
      lookupIn (names clusters) (dirListing clusters 0).2 (fun entry => entry.2.1.offset) dirents
        name parent lastDir stale := by
  have hfind : (names clusters).find? (fun entry => TakenAs name stale entry) =
      ((dirListing clusters 0).1.find? fun entry => entry.2.Taken name (stale entry.1)).map
        fun entry => (entry.1, entry.2.slot, entry.2.name) := by
    rw [names, List.find?_map]
    congr 1
    apply List.find?_congr
    intro entry hentry
    obtain ⟨hok, hshort, hhead, cluster, hcluster, hslot⟩ := mem_dirListing hentry
    have hiff := taken_iff_takenAs hok hshort hhead (hwell cluster hcluster _ hslot) name stale
    exact decide_eq_decide.mpr hiff.symm
  rw [findIn_eq hname, lookupIn, hfind]
  cases (dirListing clusters 0).1.find? fun entry => entry.2.Taken name (stale entry.1) with
  | none => rfl
  | some entry => rfl

/-- Names of slots of a directory in the order of the slots. -/
structure NamesOf (whole : List (ℕ × Located)) (entries : List Entry) : Prop where
  order : List.Sublist (entries.map fun entry => (entry.1, entry.2.1)) whole
  short : ∀ entry ∈ entries, entry.2.2.length ≤ 26 ∧ 0 ∉ entry.2.2

theorem names_ok (clusters : List (List Located)) :
    NamesOf (numbered clusters 0) (names clusters) := by
  constructor
  · rw [names, List.map_map]
    exact dirListing_sublist clusters 0
  · intro entry hentry
    obtain ⟨listed, hlisted, rfl⟩ := List.mem_map.mp hentry
    obtain ⟨hok, hshort, -, -⟩ := mem_dirListing hlisted
    exact ⟨length_entryName hok, (@nameBuffer_holds _ _ (fun _ => 0) hok hshort).1.nonzero⟩

theorem names_withoutDeleted_ok (clusters : List (List Located)) :
    NamesOf (numbered clusters 0) (names (withoutDeleted clusters)) :=
  ⟨(names_ok _).order.trans (numbered_withoutDeleted clusters 0), (names_ok _).short⟩

end Names

/-! ## Probes -/

/-- A name that is too long for every entry and starts with `text`. -/
def probeName (text : List UInt8) (c : UInt8) : List UInt8 :=
  text ++ List.replicate (31 - text.length) c

/-- A stack that is zero except below the comparison of one slot. -/
def probeStack (k offset : ℕ) : ℕ → ℕ → Buffer := fun k' offset' =>
  if k' = k ∧ offset' = offset then fun _ => 1 else fun _ => 0

section Probe

variable {whole : List (ℕ × Located)} {left right : List Entry}

theorem zero_notMem_probeName {text : List UInt8} {c : UInt8} (htext : 0 ∉ text) (hc : c ≠ 0) :
    0 ∉ probeName text c := by
  rw [probeName, List.mem_append, not_or]
  exact ⟨htext, fun hmem => hc (List.eq_of_mem_replicate hmem).symm⟩

theorem length_probeName {text : List UInt8} {c : UInt8} (htext : text.length ≤ 26) :
    (probeName text c).length = 31 := by
  rw [probeName, List.length_append, List.length_replicate]
  omega

/-- The probe takes only the entry at its place, when the name of that one starts the probe. -/
theorem takenAs_probe_iff {text : List UInt8} {c : UInt8} (htext : text.length ≤ 26) {k offset : ℕ}
    {entry : Entry} (hentry : entry.2.2.length ≤ 26) :
    TakenAs (probeName text c) (probeStack k offset) entry ↔
      entry.2.2 <+: probeName text c ∧ entry.1 = k ∧ entry.2.1.offset = offset := by
  have hlength := @length_probeName text c htext
  rw [TakenAs, probeStack]
  constructor
  · rintro (hstart | ⟨⟨hstart, -⟩, hstack⟩)
    · have hle := hstart.length_le
      omega
    · refine ⟨hstart, ?_⟩
      by_contra hother
      rw [if_neg hother] at hstack
      exact hstack rfl
  · rintro ⟨hstart, hplace⟩
    refine .inr ⟨⟨hstart, by omega⟩, ?_⟩
    rw [if_pos hplace]
    exact show (1 : UInt8) ≠ 0 by decide

/-- What starts two probes with different characters at the end starts their text. -/
theorem prefix_of_probes {text start : List UInt8} (hone : start <+: probeName text 1)
    (htwo : start <+: probeName text 2) : start <+: text := by
  obtain hle | hlt := le_or_gt start.length text.length
  · exact List.prefix_of_prefix_length_le hone (List.prefix_append _ _) hle
  · have hchar : ∀ c : UInt8, start <+: probeName text c →
        start[text.length]? = some c := by
      intro c hstart
      have hle := hstart.length_le
      rw [probeName, List.length_append, List.length_replicate] at hle
      rw [List.getElem?_eq_getElem hlt, ← List.prefix_iff_getElem?.mp hstart text.length hlt, probeName, List.getElem?_append_right le_rfl, Nat.sub_self,
        List.getElem?_replicate, if_pos (by omega)]
    exact absurd ((hchar 1 hone).symm.trans (hchar 2 htwo)) (by decide)

theorem exists_prefix_name (hnodup : (whole.map fun located =>
      (located.1, located.2.offset)).Nodup) (hleft : NamesOf whole left)
    (hright : NamesOf whole right)
    (hfound : ∀ name, 0 ∉ name → ∀ stale, (∃ entry ∈ left, TakenAs name stale entry) →
      ∃ entry ∈ right, TakenAs name stale entry) {entry : Entry} (hentry : entry ∈ left) :
    ∃ other ∈ right, (other.1, other.2.1) = (entry.1, entry.2.1) ∧ other.2.2 <+: entry.2.2 := by
  obtain ⟨hlength, hzero⟩ := hleft.short entry hentry
  have hprobe : ∀ c : UInt8, c ≠ 0 → ∃ other ∈ right,
      (other.1, other.2.1) = (entry.1, entry.2.1) ∧ other.2.2 <+: probeName entry.2.2 c := by
    intro c hc
    obtain ⟨other, hother, htaken⟩ := hfound (probeName entry.2.2 c)
      (zero_notMem_probeName hzero hc) (probeStack entry.1 entry.2.1.offset)
      ⟨entry, hentry, (takenAs_probe_iff hlength hlength).mpr
        ⟨List.prefix_append _ _, rfl, rfl⟩⟩
    obtain ⟨hstart, hk, hoffset⟩ :=
      (takenAs_probe_iff hlength (hright.short other hother).1).mp htaken
    refine ⟨other, hother, ?_, hstart⟩
    apply List.inj_on_of_nodup_map hnodup
    · exact hright.order.subset (List.mem_map_of_mem hother)
    · exact hleft.order.subset (List.mem_map_of_mem hentry)
    · exact Prod.ext hk hoffset
  obtain ⟨one, hone, hplace, hstart⟩ := hprobe 1 (by decide)
  obtain ⟨two, htwo, hplace', hstart'⟩ := hprobe 2 (by decide)
  obtain rfl : one = two := List.inj_on_of_nodup_map
    ((hnodup.of_map).sublist hright.order) hone htwo (hplace.trans hplace'.symm)
  exact ⟨one, hone, hplace, prefix_of_probes hstart hstart'⟩

/-- Directories in which every lookup finds something at the same time have the same names. -/
theorem names_unique (hnodup : (whole.map fun located => (located.1, located.2.offset)).Nodup)
    (hleft : NamesOf whole left) (hright : NamesOf whole right)
    (hfound : ∀ name, 0 ∉ name → ∀ stale, (∃ entry ∈ left, TakenAs name stale entry) ↔
      ∃ entry ∈ right, TakenAs name stale entry) : left = right := by
  have hsubset : ∀ {left right : List Entry}, NamesOf whole left → NamesOf whole right →
      (∀ name, 0 ∉ name → ∀ stale, (∃ entry ∈ left, TakenAs name stale entry) ↔
        ∃ entry ∈ right, TakenAs name stale entry) → ∀ entry ∈ left, entry ∈ right := by
    intro left right hleft hright hfound entry hentry
    obtain ⟨other, hother, hplace, hstart⟩ := exists_prefix_name hnodup hleft hright
      (fun name hname stale => (hfound name hname stale).mp) hentry
    obtain ⟨back, hback, hplace', hstart'⟩ := exists_prefix_name hnodup hright hleft
      (fun name hname stale => (hfound name hname stale).mpr) hother
    obtain rfl : back = entry := List.inj_on_of_nodup_map ((hnodup.of_map).sublist hleft.order)
      hback hentry (hplace'.trans hplace)
    have hname : other.2.2 = back.2.2 :=
      hstart.eq_of_length (le_antisymm hstart.length_le hstart'.length_le)
    have hsame : other = back := by
      obtain ⟨hk, hslot⟩ := Prod.ext_iff.mp hplace
      exact Prod.ext hk (Prod.ext hslot hname)
    exact hsame ▸ hother
  apply eq_of_sublist hnodup.of_map hleft.order hright.order
  intro entry
  exact ⟨hsubset hleft hright hfound entry,
    hsubset hright hleft (fun name hname stale => (hfound name hname stale).symm) entry⟩

end Probe

/-! ## Lookups in a directory with deleted slots -/

instance (slot : Located) : Decidable (WellNamed slot) := inferInstanceAs (Decidable (_ → _ → _))

/-- Every lookup in the directory has the result that it has without the deleted slots. -/
def LookupsAgree (fs : Filesystem) (disk : Mem) (chain : List ℕ) : Prop :=
  ∀ (name : List UInt8) (stale : ℕ → ℕ → Buffer) (dirents : Dirents) (dir entry : ℕ), 0 ∉ name →
    (dirents dir).filesystem = some fs → chain.head? = some (dirents dir).firstCluster →
      findDirentEntry disk stale dirents dir name entry =
        (findIn dirents name dir entry stale
          (withoutDeleted (chain.map (clusterSlots fs disk))) 0).dirents

section Agree

variable {fs : Filesystem} {disk : Mem} {chain : List ℕ}

theorem withoutDeleted_wellNamed {clusters : List (List Located)}
    (hwell : ∀ cluster ∈ clusters, ∀ slot ∈ cluster, WellNamed slot) :
    ∀ cluster ∈ withoutDeleted clusters, ∀ slot ∈ cluster, WellNamed slot := by
  intro cluster hcluster slot hslot
  obtain ⟨whole, hwhole, rfl⟩ := List.mem_map.mp hcluster
  exact hwell whole hwhole slot (List.mem_filter.mp hslot).1

theorem clusterSlots_nodup (fs : Filesystem) (disk : Mem) (cluster : ℕ) :
    ((clusterSlots fs disk cluster).map Located.offset).Nodup := by
  rw [clusterSlots, slotsOf, List.map_map]
  apply List.Nodup.map _ List.nodup_range
  exact fun i j heq => Nat.eq_of_mul_eq_mul_left (show 0 < directorySize by decide) heq

theorem findDirentEntry_eq (hgeo : Geometry fs) (hlinked : Linked fs disk chain)
    (hnodup : chain.Nodup) {name : List UInt8} (hname : 0 ∉ name) (stale : ℕ → ℕ → Buffer)
    {dirents : Dirents} {dir : ℕ} (entry : ℕ) (hfs : (dirents dir).filesystem = some fs)
    (hhead : chain.head? = some (dirents dir).firstCluster) :
    findDirentEntry disk stale dirents dir name entry =
      (findIn dirents name dir entry stale (chain.map (clusterSlots fs disk)) 0).dirents := by
  have hlength := Fat32.chain_length_le hlinked hnodup
  have hmarks := hgeo.marks
  have hloop := findLoop_eq hgeo hname dir entry stale hlinked hhead dirents
    (show chain.length ≤ Fat32.walkRounds by rw [Fat32.walkRounds]; omega) (k := 0)
  rw [findDirentEntry, hfs]
  dsimp only
  rw [hloop]
  cases findIn dirents name dir entry stale (chain.map (clusterSlots fs disk)) 0 <;> rfl

/-- What a lookup leaves depends on the ending only by whether it returns. -/
theorem lookupIn_dirents_congr {left right : Ending}
    (hover : left = .overrun ↔ right = .overrun) (entries : List Entry) (offset : Entry → ℕ)
    (dirents : Dirents) (name : List UInt8) (parent lastDir : ℕ) (stale : ℕ → ℕ → Buffer) :
    (lookupIn entries left offset dirents name parent lastDir stale).dirents =
      (lookupIn entries right offset dirents name parent lastDir stale).dirents := by
  rw [lookupIn, lookupIn]
  split
  · rfl
  · cases left <;> cases right <;> simp_all [Ending.parsed, Parsed.dirents]

theorem lookupsAgree_of_undisturbed (hgeo : Geometry fs) (hlinked : Linked fs disk chain)
    (hnodup : chain.Nodup)
    (hwell : ∀ cluster ∈ chain.map (clusterSlots fs disk), ∀ slot ∈ cluster, WellNamed slot)
    (hsame : Undisturbed (chain.map (clusterSlots fs disk))) : LookupsAgree fs disk chain := by
  intro name stale dirents dir entry hname hfs hhead
  rw [findDirentEntry_eq hgeo hlinked hnodup hname stale entry hfs hhead,
    findIn_names hname hwell, findIn_names hname (withoutDeleted_wellNamed hwell), hsame.names]
  exact lookupIn_dirents_congr hsame.overrun.symm _ _ _ _ _ _ _

/-- The directory alone in memory, and an entry that no lookup has filled. -/
def probeDirents (fs : Filesystem) (first : ℕ) : Dirents := fun _ =>
  ⟨fun _ => 0, 0, first, 0, .dir, some fs, 0, none, 0⟩

theorem fillDirent_linkcnt (dirents : Dirents) (name : List UInt8) (parent lastDir : ℕ)
    (entry : Slot) (offset : ℕ) :
    (fillDirent dirents name parent lastDir entry offset lastDir).linkcnt = 1 := by
  by_cases heq : parent = lastDir
  · subst heq
    simp [fillDirent, Dirents.set]
  · simp [fillDirent, Dirents.set, Function.update_of_ne (Ne.symm heq)]

/-- The link count tells whether a lookup has found an entry. -/
theorem linkcnt_lookupIn (entries : List Entry) (ending : Ending) (offset : Entry → ℕ)
    (name : List UInt8) (stale : ℕ → ℕ → Buffer) (first : ℕ) :
    ((lookupIn entries ending offset (probeDirents fs first) name 0 1 stale).dirents.elim 0
      fun dirents => (dirents 1).linkcnt) = 1 ↔ ∃ entry ∈ entries, TakenAs name stale entry := by
  rw [lookupIn]
  cases hfind : entries.find? fun entry => TakenAs name stale entry with
  | some entry =>
      refine iff_of_true (fillDirent_linkcnt _ _ _ _ _ _) ⟨entry, List.mem_of_find?_eq_some hfind, ?_⟩
      simpa using List.find?_some hfind
  | none =>
      refine iff_of_false ?_ ?_
      · cases ending <;> exact Nat.zero_ne_one
      · rintro ⟨entry, hentry, htaken⟩
        simpa [htaken] using List.find?_eq_none.mp hfind entry hentry

/-- A lookup of a name that no entry has overruns exactly when the listing does. -/
theorem overrun_lookupIn {entries : List Entry} (hshort : ∀ entry ∈ entries, entry.2.2.length ≤ 26)
    (ending : Ending) (offset : Entry → ℕ) (dirents : Dirents) :
    ending = .overrun ↔
      (lookupIn entries ending offset dirents (probeName [] 1) 0 1 (fun _ _ _ => 0)).dirents =
        none := by
  have hnone : entries.find? (fun entry =>
      TakenAs (probeName [] 1) (fun _ _ _ => 0) entry) = none := by
    rw [List.find?_eq_none]
    intro entry hentry
    have hentry := hshort entry hentry
    have hlength := @length_probeName [] 1 (Nat.zero_le _)
    rw [decide_eq_true_iff]
    rintro (hstart | ⟨-, hstack⟩)
    · have hle := hstart.length_le
      omega
    · exact hstack rfl
  rw [lookupIn, hnone]
  dsimp only
  cases ending <;> simp [Ending.parsed, Parsed.dirents]

theorem undisturbed_of_lookupsAgree (hgeo : Geometry fs) (hlinked : Linked fs disk chain)
    (hnodup : chain.Nodup)
    (hwell : ∀ cluster ∈ chain.map (clusterSlots fs disk), ∀ slot ∈ cluster, WellNamed slot)
    (hagree : LookupsAgree fs disk chain) : Undisturbed (chain.map (clusterSlots fs disk)) := by
  obtain ⟨first, hhead⟩ : ∃ first, chain.head? = some first :=
    Option.isSome_iff_exists.mp (List.isSome_head?.mpr hlinked.nonempty)
  have hwell' := withoutDeleted_wellNamed hwell
  have hsame : ∀ name, 0 ∉ name → ∀ stale,
      (findIn (probeDirents fs first) name 0 1 stale
        (chain.map (clusterSlots fs disk)) 0).dirents =
      (findIn (probeDirents fs first) name 0 1 stale
        (withoutDeleted (chain.map (clusterSlots fs disk))) 0).dirents := by
    intro name hname stale
    have hprobe := hagree name stale (probeDirents fs first) 0 1 hname rfl hhead
    rwa [findDirentEntry_eq hgeo hlinked hnodup hname stale 1 rfl hhead] at hprobe
  constructor
  · apply names_unique _ (names_withoutDeleted_ok _) (names_ok _)
    · intro name hname stale
      have hprobe := hsame name hname stale
      rw [findIn_names hname hwell, findIn_names hname hwell'] at hprobe
      rw [← linkcnt_lookupIn _ _ _ name stale first, ← hprobe, linkcnt_lookupIn]
    · apply numbered_nodup
      intro cluster hcluster
      obtain ⟨clusNo, -, rfl⟩ := List.mem_map.mp hcluster
      exact clusterSlots_nodup fs disk clusNo
  · have hprobe := hsame (probeName [] 1) (by decide) (fun _ _ _ => 0)
    rw [findIn_names (by decide) hwell, findIn_names (by decide) hwell'] at hprobe
    rw [overrun_lookupIn (fun entry hentry => ((names_ok _).short entry hentry).1) _ _ _, ← hprobe,
      ← overrun_lookupIn fun entry hentry => ((names_ok _).short entry hentry).1]

/-- Lookups behave as if the deleted slots were absent if and only if these do not disturb the names
that the scan meets. -/
theorem lookupsAgree_iff (hgeo : Geometry fs) (hlinked : Linked fs disk chain)
    (hnodup : chain.Nodup)
    (hwell : ∀ cluster ∈ chain.map (clusterSlots fs disk), ∀ slot ∈ cluster, WellNamed slot) :
    LookupsAgree fs disk chain ↔ Undisturbed (chain.map (clusterSlots fs disk)) :=
  ⟨undisturbed_of_lookupsAgree hgeo hlinked hnodup hwell,
    lookupsAgree_of_undisturbed hgeo hlinked hnodup hwell⟩

end Agree

/-- The root directory with the slot `entry` of a deleted file. -/
def deletedDisk (entry : Slot) : Mem := Painting.Memory.blit Fat32.smallDisk 1024 entry directorySize

/-- The short slot of `FOOBAR.TXT` after its deletion. -/
def deletedShort : Slot := Function.update (plainSlot "FOOBAR  TXT") 0 deletedMark

/-- A slot of a long name after its deletion. -/
def deletedLong : Slot := Function.update (encodeSlot (bytesOf "foobar.txt") 0 0) 0 deletedMark

theorem deletedDisk_linked (entry : Slot) :
    Linked Fat32.smallVolume (deletedDisk entry) [2] := by
  have hfat : Fat32.fatread Fat32.smallVolume (deletedDisk entry) 2 =
      Fat32.fatread Fat32.smallVolume Fat32.smallDisk 2 := by
    apply Fat32.fatread_of_data Fat32.smallVolume_geometry ⟨by decide, by decide⟩
    intro x _ hx
    have hx : x < 1024 := hx
    exact if_neg (by omega)
  apply Fat32.linked_singleton ⟨by decide, by decide⟩
  rw [hfat]
  decide +kernel

theorem lookupsAgree_deletedLong :
    LookupsAgree Fat32.smallVolume (deletedDisk deletedLong) [2] :=
  (lookupsAgree_iff Fat32.smallVolume_geometry (deletedDisk_linked deletedLong) (by decide)
    (by decide +kernel)).mpr
    ⟨by rw [List.eq_nil_of_length_eq_zero (show (names (([2] : List ℕ).map (clusterSlots
          Fat32.smallVolume (deletedDisk deletedLong)))).length = 0 by decide +kernel)]
        exact List.eq_nil_of_length_eq_zero (by decide +kernel),
      by decide +kernel⟩

/-- A deleted file is found. -/
theorem exists_deleted_found : ¬ ∀ (fs : Filesystem) (disk : Mem) (chain : List ℕ), Geometry fs →
    Linked fs disk chain → chain.Nodup →
    (∀ cluster ∈ chain.map (clusterSlots fs disk), ∀ slot ∈ cluster, WellNamed slot) →
      LookupsAgree fs disk chain := by
  intro hall
  have hagree := hall _ _ _ Fat32.smallVolume_geometry (deletedDisk_linked deletedShort) (by decide)
    (by decide +kernel)
  have hnames := (undisturbed_of_lookupsAgree Fat32.smallVolume_geometry
    (deletedDisk_linked deletedShort) (by decide) (by decide +kernel) hagree).names
  exact absurd (congrArg List.length hnames) (by decide +kernel)

end Painting.Directory
