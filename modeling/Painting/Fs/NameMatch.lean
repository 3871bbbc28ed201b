import Painting.Fs.LongNames

/-!
# Exact names in one cluster of a directory

A lookup should take the first live entry whose whole name is the name searched for.  The
comparison stops at the end of the latter, so an entry whose name goes on is taken as well.  When
the name of the entry is the shorter one, the result depends on a byte that was never written.
-/

namespace Painting.Directory

open Painting.Strings

/-! ## Contents -/

/-- A live entry of a directory with at most one slot of its long name. -/
structure Item where
  long : Option Located
  short : Located

def Item.slots (item : Item) : List Located := item.long.toList ++ [item.short]

/-- The first byte of a deleted slot. -/
def deletedMark : UInt8 := 0xe5

structure Item.Live (item : Item) : Prop where
  long : ∀ slot ∈ item.long, isInvalidEntry slot.entry = 1 ∧ IsLongFileName slot.entry ∧
    slot.entry 0 ≠ deletedMark
  short : isInvalidEntry item.short.entry = 1 ∧ ¬ IsLongFileName item.short.entry ∧
    item.short.entry 0 ≠ deletedMark

/-- The name in a single slot. -/
def longName (entry : Slot) : List UInt8 := (longBytes entry).takeWhile (· ≠ 0)

/-- The long name if there is one, else the 8.3 name. -/
def Item.name (item : Item) : List UInt8 :=
  match item.long with
  | some slot => if longName slot.entry ≠ [] then longName slot.entry else shortName item.short.entry
  | none => shortName item.short.entry

/-! ## What a lookup should do -/

/-- The entry in memory is filled from the slot. -/
structure Filled (dirents : Dirents) (parent lastDir : ℕ) (slot : Located) : Prop where
  offset : (dirents parent).offset = slot.offset
  firstCluster : (dirents lastDir).firstCluster = calClusterPos slot.entry
  size : (dirents lastDir).size = dirFileSize slot.entry
  mode : (dirents lastDir).mode = fileAttribute slot.entry

/-- The lookup returns 0 exactly when an entry has the name, and fills the entry in memory from the
first such one. -/
def FindsExactly (dirents : Dirents) (name : List UInt8) (parent lastDir : ℕ)
    (stale : ℕ → Buffer) (slots : List Located) (items : List Item) : Prop :=
  match items.find? fun item => item.name = name with
  | some item => ∃ dirents',
      parseDirectoryEntries dirents name parent lastDir stale slots = .done 0 dirents' ∧
        Filled dirents' parent lastDir item.short
  | none => ∃ ret ≠ 0, parseDirectoryEntries dirents name parent lastDir stale slots =
      .done ret dirents

/-! ## When it does -/

/-- The long name that is put together for an item. -/
def Item.tname (item : Item) : Buffer :=
  match item.long with
  | some slot => overlay (fun _ => 0) 0 (longBytes slot.entry)
  | none => fun _ => 0

def Item.named (item : Item) : Named := ⟨item.short, item.tname⟩

/-- An item with another name for which the comparison is no protection: its name goes on after the
name searched for, or it ends early and the byte of the buffer at the end of the latter is not
0. -/
def Item.Mistaken (item : Item) (name : List UInt8) (stale : ℕ → Buffer) : Prop :=
  (name <+: item.name ∧ name ≠ item.name) ∨
    (item.name <+: name ∧ item.name ≠ name) ∧
      nameBuffer (stale item.short.offset) item.short.entry item.tname name.length ≠ 0

/-- No entry before the first with the name is mistaken for it.  If there is none, then none is
mistaken at all, and none is taken behind an end mark that the scan has missed. -/
structure Unmistaken (name : List UInt8) (stale : ℕ → Buffer) (items : List Item)
    (rest : List Located) : Prop where
  before : ∀ item ∈ items.takeWhile fun item => item.name ≠ name, ¬ item.Mistaken name stale
  behind : (∀ item ∈ items, item.name ≠ name) →
    (∀ named ∈ (listing rest (freshScan false)).1, ¬ named.Taken name stale) ∧
      (listing rest (freshScan false)).2 ≠ .overrun

/-! ## The listing of the contents -/

theorem fillDirent_filled (dirents : Dirents) (name : List UInt8) (parent lastDir : ℕ)
    (slot : Located) :
    Filled (fillDirent dirents name parent lastDir slot.entry slot.offset) parent lastDir slot := by
  by_cases heq : parent = lastDir
  · subst heq
    constructor <;> simp [fillDirent, Dirents.set]
  · constructor <;>
      simp [fillDirent, Dirents.set, Function.update_of_ne heq, Function.update_of_ne (Ne.symm heq)]

/-- The names do not depend on the variable `longEntSeq`. -/
theorem listing_congr {slots : List Located} {tname : Buffer} {idx : ℕ} {left right : Bool}
    (hok : ScanOk ⟨tname, idx, left⟩) :
    listing slots ⟨tname, idx, left⟩ = listing slots ⟨tname, idx, right⟩ := by
  induction slots generalizing tname idx left right with
  | nil => rfl
  | cons slot rest ih =>
      have hok' : ScanOk ⟨tname, idx, right⟩ := ⟨hok.idx, hok.zeros⟩
      rw [listing, listing, handleLongFileName_eq hok, handleLongFileName_eq hok']
      simp only [@ih (fun _ => 0) 0 left right (scanOk_fresh left), freshScan]

theorem listing_fresh (slots : List Located) (longEntSeq : Bool) :
    listing slots (freshScan longEntSeq) = listing slots (freshScan false) :=
  listing_congr (scanOk_fresh longEntSeq)

theorem Item.tname_ok (item : Item) : TnameOk item.tname := by
  intro i hi
  rw [Item.tname]
  cases item.long with
  | none => rfl
  | some slot =>
      dsimp only
      rw [overlay, length_longBytes, if_neg (by omega)]

theorem holds_overlay (bytes : List UInt8) :
    Holds (overlay (fun _ => 0) 0 bytes) (bytes.takeWhile (· ≠ 0)) := by
  refine ⟨fun hmem => ?_, fun i hi => ?_⟩
  · simpa using List.mem_takeWhile_imp hmem
  · rw [← getD_takeWhile hi, overlay]
    split
    · rw [Nat.sub_zero]
    · rw [List.getD_eq_default _ _ (by omega)]

theorem Item.named_name (item : Item) : item.named.name = item.name := by
  rw [Named.name, Item.named, Item.name, entryName]
  cases hlong : item.long with
  | none => simp [Item.tname, hlong]
  | some slot =>
      have hholds := holds_overlay (longBytes slot.entry)
      have htname : item.tname = overlay (fun _ => 0) 0 (longBytes slot.entry) := by
        rw [Item.tname, hlong]
      have htext : toList item.tname maxFileNameLen = longName slot.entry :=
        item.tname_ok.holds.unique (htname ▸ hholds)
      have hempty : longName slot.entry = [] ↔ item.tname 0 = 0 := by
        rw [htname]
        exact hholds.eq_nil_iff
      dsimp only
      rw [htext]
      exact if_congr (not_congr hempty.symm) rfl rfl

/-- The listing of live items and what comes after them. -/
theorem listing_items {items : List Item} (hlive : ∀ item ∈ items, item.Live)
    (rest : List Located) :
    listing (items.flatMap Item.slots ++ rest) (freshScan false) =
      (items.map Item.named ++ (listing rest (freshScan false)).1,
        (listing rest (freshScan false)).2) := by
  induction items with
  | nil => rfl
  | cons item items ih =>
      obtain ⟨hlong, hvalid, hshort, -⟩ := hlive item List.mem_cons_self
      have hrest := ih fun other hother => hlive other (List.mem_cons_of_mem _ hother)
      have hentry : ∀ scan : Scan,
          listing (item.short :: (items.flatMap Item.slots ++ rest)) scan =
            (⟨item.short, scan.tname⟩ :: (items.map Item.named ++
              (listing rest (freshScan false)).1), (listing rest (freshScan false)).2) := by
        intro scan
        rw [listing, hvalid, if_neg (by decide), if_neg (by decide), if_neg hshort,
          listing_fresh, hrest]
      rw [List.flatMap_cons, Item.slots, List.append_assoc, List.append_assoc, List.map_cons,
        Item.named, Item.tname]
      cases hcase : item.long with
      | none => exact hentry _
      | some slot =>
          obtain ⟨hslot, hname, -⟩ := hlong slot (by rw [hcase]; rfl)
          have hhandle := handleLongFileName_eq (scanOk_fresh false) slot.entry
          rw [if_neg (show (freshScan false).idx ≠ 26 by decide)] at hhandle
          have hstep : ∀ tail : List Located, listing (slot :: tail) (freshScan false) =
              listing tail ⟨overlay (freshScan false).tname (freshScan false).idx
                (longBytes slot.entry), (freshScan false).idx + 13,
                (slot.entry 0).toNat &&& 0x3f ≠ 0⟩ := by
            intro tail
            rw [listing, hslot, if_neg (by decide), if_neg (by decide), if_pos hname, hhandle]
          exact (hstep _).trans (hentry _)

/-! ## Exactness -/

section Exact

variable {items : List Item} {name : List UInt8} {stale : ℕ → Buffer}

/-- Another entry is taken if and only if it is mistaken. -/
theorem taken_iff_mistaken {item : Item} (hne : item.name ≠ name) :
    item.named.Taken name stale ↔ item.Mistaken name stale := by
  have hname := item.named_name
  rw [Named.name] at hname
  rw [Named.Taken, Taken, hname, Item.Mistaken]
  refine or_congr ⟨fun h => ⟨h, hne.symm⟩, fun h => h.1⟩ (and_congr_left fun _ => ?_)
  constructor
  · exact fun h => ⟨h.1, hne⟩
  · exact fun h => ⟨h.1, lt_of_le_of_ne h.1.length_le fun hlength =>
      hne (h.1.eq_of_length hlength)⟩

theorem taken_of_eq {item : Item} (heq : item.name = name) : item.named.Taken name stale := by
  have hname := item.named_name
  rw [Named.name] at hname
  rw [Named.Taken, Taken, hname, heq]
  exact .inl List.prefix_rfl

/-- The offsets of the entries are different when those of the slots are. -/
theorem short_mem_slots {item : Item} (hitem : item ∈ items) (rest : List Located) :
    item.short ∈ items.flatMap Item.slots ++ rest :=
  List.mem_append_left _ (List.mem_flatMap.mpr ⟨item, hitem, by simp [Item.slots]⟩)

theorem short_offset_ne {before after : List Item} {left right : Item} {rest : List Located}
    (hnodup : (((before ++ right :: after).flatMap Item.slots ++ rest).map Located.offset).Nodup)
    (hleft : left ∈ before) : left.short.offset ≠ right.short.offset := by
  rw [List.flatMap_append, List.append_assoc, List.map_append, List.nodup_append] at hnodup
  refine hnodup.2.2 _ ?_ _ ?_
  · refine List.mem_map_of_mem (List.mem_flatMap.mpr ⟨left, hleft, by simp [Item.slots]⟩)
  · refine List.mem_map_of_mem (List.mem_append_left _ ?_)
    simp [Item.slots]

/-- A lookup in a cluster finds exactly the name if and only if no entry is mistaken for it.  `rest`
is what follows the live entries: nothing, or an end mark with any slots behind it. -/
theorem findsExactly_iff (hname : 0 ∉ name) {slots rest : List Located}
    (hnodup : (slots.map Located.offset).Nodup) (hslots : slots = items.flatMap Item.slots ++ rest)
    (hlive : ∀ item ∈ items, item.Live) (dirents : Dirents) (parent lastDir : ℕ)
    (stale : ℕ → Buffer) :
    FindsExactly dirents name parent lastDir stale slots items ↔
      Unmistaken name stale items rest := by
  subst hslots
  have hparse := parseDirectoryEntries_eq hname dirents parent lastDir stale
    (items.flatMap Item.slots ++ rest)
  rw [listing_items hlive] at hparse
  dsimp only at hparse
  rw [FindsExactly]
  cases hfind : items.find? fun item => item.name = name with
  | some item =>
      obtain ⟨heq, before, after, rfl, hother⟩ := List.find?_eq_some_iff_append.mp hfind
      have heq : item.name = name := of_decide_eq_true heq
      have hother : ∀ other ∈ before, other.name ≠ name := fun other hmem => by
        simpa using hother other hmem
      have htake : (before ++ item :: after).takeWhile (fun item => item.name ≠ name) = before := by
        rw [List.takeWhile_append_of_pos (by simpa using hother),
          List.takeWhile_cons_of_neg (by simpa using heq), List.append_nil]
      have htaken := @taken_of_eq name stale item heq
      rw [List.map_append, List.map_cons, List.append_assoc, List.find?_append, List.cons_append,
        List.find?_cons_of_pos (by simpa using htaken)] at hparse
      dsimp only
      constructor
      · rintro ⟨dirents', hdone, hfilled⟩
        refine ⟨?_, fun hnone => absurd heq (hnone item (by simp))⟩
        rw [htake]
        intro other hmem hmistaken
        have hsome := (taken_iff_mistaken (hother other hmem)).mpr hmistaken
        have hsome : ((before.map Item.named).find? fun named => named.Taken name stale).isSome :=
          List.find?_isSome.mpr ⟨other.named, List.mem_map_of_mem hmem, decide_eq_true hsome⟩
        obtain ⟨first, hfirst⟩ := Option.isSome_iff_exists.mp hsome
        obtain ⟨taken, htakenMem, rfl⟩ := List.mem_map.mp (List.mem_of_find?_eq_some hfirst)
        rw [hfirst, Option.some_or, hdone] at hparse
        obtain rfl := (Parsed.done.inj hparse).2
        have hoffset := (fillDirent_filled dirents name parent lastDir taken.short).offset
        exact short_offset_ne hnodup htakenMem (hoffset.symm.trans hfilled.offset)
      · rintro ⟨hbefore, -⟩
        rw [htake] at hbefore
        have hnone : (before.map Item.named).find? (fun named => named.Taken name stale) = none := by
          rw [List.find?_eq_none]
          intro named hnamed
          obtain ⟨other, hmem, rfl⟩ := List.mem_map.mp hnamed
          have hnot := mt (taken_iff_mistaken (hother other hmem)).mp (hbefore other hmem)
          simpa using hnot
        rw [hnone, Option.none_or] at hparse
        exact ⟨_, hparse, fillDirent_filled dirents name parent lastDir item.short⟩
  | none =>
      have hother : ∀ item ∈ items, item.name ≠ name := by simpa using hfind
      have htake : items.takeWhile (fun item => item.name ≠ name) = items := by
        rw [List.takeWhile_eq_self_iff]
        simpa using hother
      dsimp only
      constructor
      · rintro ⟨ret, hret, hdone⟩
        rw [hdone] at hparse
        split at hparse
        · exact absurd (Parsed.done.inj hparse).1 hret
        · rename_i hnone
          have hnone : ∀ named ∈ items.map Item.named ++ (listing rest (freshScan false)).1,
              ¬ named.Taken name stale := by
            intro named hnamed htaken
            exact List.find?_eq_none.mp hnone named hnamed (decide_eq_true htaken)
          refine ⟨?_, fun _ => ⟨fun named hnamed => hnone named (List.mem_append_right _ hnamed), ?_⟩⟩
          · rw [htake]
            intro item hitem hmistaken
            exact hnone item.named (List.mem_append_left _ (List.mem_map_of_mem hitem))
              ((taken_iff_mistaken (hother item hitem)).mpr hmistaken)
          · intro hover
            rw [hover] at hparse
            cases hparse
      · rintro ⟨hbefore, hbehind⟩
        obtain ⟨htail, hending⟩ := hbehind hother
        rw [htake] at hbefore
        have hnone : (items.map Item.named ++ (listing rest (freshScan false)).1).find?
            (fun named => named.Taken name stale) = none := by
          rw [List.find?_eq_none]
          intro named hnamed
          obtain hnamed | hnamed := List.mem_append.mp hnamed
          · obtain ⟨item, hitem, rfl⟩ := List.mem_map.mp hnamed
            have hnot := mt (taken_iff_mistaken (hother item hitem)).mp (hbefore item hitem)
            simpa using hnot
          · simpa using htail named hnamed
        rw [hnone] at hparse
        cases hend : (listing rest (freshScan false)).2 with
        | mark => exact ⟨-1, by decide, hparse.trans (by rw [hend]; rfl)⟩
        | cluster => exact ⟨-2, by decide, hparse.trans (by rw [hend]; rfl)⟩
        | overrun => exact absurd hend hending

end Exact

/-- The bytes of a text. -/
def bytesOf (text : String) : List UInt8 := text.toList.map fun c => UInt8.ofNat c.toNat

/-- A slot with the 8.3 name in its fixed columns, of an ordinary file. -/
def plainSlot (columns : String) : Slot := ofList (bytesOf columns ++ [0x20])

def foobar : Item := ⟨none, ⟨0, plainSlot "FOOBAR  TXT"⟩⟩

theorem foobar_live : foobar.Live :=
  ⟨fun _ hslot => absurd hslot (by simp [foobar]), by decide +kernel, by decide +kernel,
    by decide +kernel⟩

def noDirents : Dirents := fun _ => ⟨fun _ => 0, 0, 0, 0, .dir, none, 0, none, 0⟩

theorem findsExactly_foobar :
    FindsExactly noDirents (bytesOf "FOOBAR.TXT") 0 1 (fun _ _ => 0) foobar.slots [foobar] :=
  (findsExactly_iff (by decide +kernel) (by decide)
    (show foobar.slots = [foobar].flatMap Item.slots ++ [] by simp)
    (by simpa using foobar_live) noDirents 0 1 fun _ _ => 0).mpr
    ⟨by rw [List.takeWhile_cons_of_neg (by decide +kernel)]; simp,
      fun hnone => absurd (hnone foobar (by simp)) (by decide +kernel)⟩

/-- A lookup of `FOO` takes `FOOBAR.TXT`. -/
theorem exists_mistaken : ¬ ∀ (name : List UInt8) (items : List Item) (rest : List Located)
    (dirents : Dirents) (parent lastDir : ℕ) (stale : ℕ → Buffer), name ≠ [] → 0 ∉ name →
      ((items.flatMap Item.slots ++ rest).map Located.offset).Nodup → (∀ item ∈ items, item.Live) →
      (∀ slot ∈ rest.head?, slot.entry 0 = 0) →
      FindsExactly dirents name parent lastDir stale (items.flatMap Item.slots ++ rest) items := by
  intro hall
  have hexact := hall (bytesOf "FOO") [foobar] [] noDirents 0 1 (fun _ _ => 0) (by decide +kernel)
    (by decide +kernel) (by decide) (by simpa using foobar_live) (by simp)
  have hparse : parseDirectoryEntries noDirents (bytesOf "FOO") 0 1 (fun _ _ => 0)
      [foobar.short] = .done 0 (fillDirent noDirents (bytesOf "FOO") 0 1 foobar.short.entry 0) := by
    rw [parseDirectoryEntries, parseLoop, if_neg (by decide +kernel), if_neg (by decide +kernel),
      if_neg (by decide +kernel), matchDirentEntry, if_neg (by decide +kernel)]
    rfl
  have hfind : [foobar].find? (fun item => item.name = bytesOf "FOO") = none := by
    rw [List.find?_cons_of_neg (by decide +kernel), List.find?_nil]
  rw [FindsExactly, hfind] at hexact
  obtain ⟨ret, hret, hdone⟩ := hexact
  exact hret (Parsed.done.inj (hdone.symm.trans hparse)).1

end Painting.Directory
