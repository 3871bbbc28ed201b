import Painting.Fs.Directory

/-!
# The entries that a scan of a directory meets

`parse_directory_entries` puts together the name of an entry without looking at the name it
searches for.  So a directory has a listing, the entries in order with their names, and a lookup
takes the first entry of the listing that the comparison accepts.
-/

namespace Painting.Directory

open Painting.Strings
open Painting.Descriptors (strncmp strncmpLoop cstring)

/-! ## The comparison -/

section Compare

variable {s : Buffer} {text name : List UInt8}

/-- The loop of `strncmp` after the common start `pre`. -/
theorem strncmpLoop_cases (pre : List UInt8) (hholds : Holds s (pre ++ text))
    (hname : 0 ∉ name) :
    name <+: text ∧ strncmpLoop s (ofList (pre ++ name)) pre.length name.length =
        .inl (pre.length + name.length) ∨
      (text <+: name ∧ text.length < name.length) ∧
        strncmpLoop s (ofList (pre ++ name)) pre.length name.length =
          .inl (pre.length + text.length) ∨
      (¬ name <+: text ∧ ¬ text <+: name) ∧ ∃ difference ≠ 0,
        strncmpLoop s (ofList (pre ++ name)) pre.length name.length = .inr difference := by
  induction name generalizing pre text with
  | nil => exact .inl ⟨List.nil_prefix, rfl⟩
  | cons c name ih =>
      obtain ⟨hc, hrest⟩ := not_or.mp (List.mem_cons.not.mp hname)
      have hat : ofList (pre ++ c :: name) pre.length = c := by
        simp [ofList]
      cases text with
      | nil =>
          have hend : s pre.length = 0 := by
            simpa using hholds.terminator
          refine .inr (.inl ⟨⟨List.nil_prefix, by simp⟩, ?_⟩)
          rw [List.length_cons, strncmpLoop, if_neg (by simp [hend])]
          simp
      | cons b text =>
          have hb : s pre.length = b := by
            rw [hholds.char (by simp)]
            simp
          have hbne : b ≠ 0 := by
            rintro rfl
            exact hholds.nonzero (by simp)
          by_cases heq : b = c
          · subst heq
            have hnext := ih (pre ++ [b]) (by simpa using hholds) hrest
            rw [List.append_assoc, List.singleton_append, List.length_append,
              List.length_singleton] at hnext
            have hloop : strncmpLoop s (ofList (pre ++ b :: name)) pre.length
                (b :: name).length =
                strncmpLoop s (ofList (pre ++ b :: name)) (pre.length + 1) name.length := by
              rw [List.length_cons, strncmpLoop, hat, hb, if_pos ⟨hbne, hbne⟩,
                if_neg (not_not.mpr rfl)]
            rw [hloop]
            simp only [List.cons_prefix_cons, true_and, List.length_cons]
            simpa only [Nat.add_assoc, Nat.add_comm 1, Nat.add_lt_add_iff_right] using hnext
          · refine .inr (.inr ⟨⟨?_, ?_⟩, (b.toNat : ℤ) - c.toNat, ?_, ?_⟩)
            · exact fun hstart => heq (List.cons_prefix_cons.mp hstart).1.symm
            · exact fun hstart => heq (List.cons_prefix_cons.mp hstart).1
            · rw [sub_ne_zero]
              exact fun hsame => heq (UInt8.toNat.inj (Int.ofNat.inj hsame))
            · rw [List.length_cons, strncmpLoop, hat, hb, if_pos ⟨hbne, fun h => hc h.symm⟩,
                if_pos heq]

/-- When `strncmp` takes the string in a buffer for the name: the string starts with the name, or
ends early and the byte at the length of the name is not 0. -/
theorem strncmp_eq_zero_iff (hholds : Holds s text) (hname : 0 ∉ name) :
    strncmp s (ofList name) name.length = 0 ↔
      name <+: text ∨ (text <+: name ∧ text.length < name.length) ∧ s name.length ≠ 0 := by
  obtain ⟨hstart, hloop⟩ | ⟨hshort, hloop⟩ | ⟨⟨hleft, hright⟩, difference, hne, hloop⟩ :=
    strncmpLoop_cases [] hholds hname
  · rw [List.nil_append, List.length_nil, Nat.zero_add] at hloop
    rw [strncmp, hloop]
    exact iff_of_true (if_pos le_rfl) (.inl hstart)
  · rw [List.nil_append, List.length_nil, Nat.zero_add] at hloop
    have hnot : ¬ name <+: text := fun hstart => absurd hstart.length_le (by omega)
    have hlast : ofList name text.length ≠ 0 :=
      (holds_ofList hname).ne_zero hshort.2
    rw [strncmp, hloop]
    dsimp only
    rw [if_neg (by omega), hholds.terminator]
    by_cases hstale : s name.length ≠ 0
    · rw [if_pos hstale]
      exact iff_of_true rfl (.inr ⟨hshort, hstale⟩)
    · rw [if_neg hstale]
      refine iff_of_false (fun hzero => hlast ?_) ?_
      · exact UInt8.toNat.inj (Int.ofNat.inj hzero)
      · rintro (hstart | ⟨-, hne⟩)
        · exact hnot hstart
        · exact hstale hne
  · rw [List.nil_append, List.length_nil] at hloop
    rw [strncmp, hloop]
    refine iff_of_false hne ?_
    rintro (hstart | ⟨⟨hstart, -⟩, -⟩)
    · exact hleft hstart
    · exact hright hstart

/-- Strings with different first characters differ. -/
theorem strncmp_head_ne {left right : Buffer} {len : ℕ} (hlen : 0 < len) (hleft : left 0 ≠ 0)
    (hright : right 0 ≠ 0) (hne : left 0 ≠ right 0) : strncmp left right len ≠ 0 := by
  obtain ⟨len, rfl⟩ := Nat.exists_eq_succ_of_ne_zero hlen.ne'
  rw [strncmp, strncmpLoop, if_pos ⟨hleft, hright⟩, if_pos hne]
  dsimp only
  rw [sub_ne_zero]
  exact fun hsame => hne (UInt8.toNat.inj (Int.ofNat.inj hsame))

end Compare

/-! ## Short names -/

/-- The bytes from `i` on that come before a space, at most `count`. -/
def untilSpace (src : Slot) (i : ℕ) : ℕ → List UInt8
  | 0 => []
  | count + 1 => if src i = fatdirDlt then [] else src i :: untilSpace src (i + 1) count

/-- The base name, and the extension after a dot if there is one. -/
def shortBytes (src : Slot) : List UInt8 :=
  untilSpace src 0 8 ++
    if src 8 = fatdirDlt then [] else UInt8.ofNat '.'.toNat :: untilSpace src 8 3

/-- The 8.3 name of an entry. -/
def shortName (src : Slot) : List UInt8 := (shortBytes src).takeWhile (· ≠ 0)

/-- The bytes of a list put at `j`. -/
def overlay (dst : Buffer) (j : ℕ) (bytes : List UInt8) : Buffer := fun i =>
  if j ≤ i ∧ i < j + bytes.length then bytes.getD (i - j) 0 else dst i

section Short

variable {dst : Buffer} {src : Slot}

theorem length_untilSpace (src : Slot) (i count : ℕ) : (untilSpace src i count).length ≤ count := by
  induction count generalizing i with
  | zero => exact le_rfl
  | succ count ih =>
      rw [untilSpace]
      split
      · exact Nat.zero_le _
      · simpa using ih (i + 1)

theorem length_shortBytes (src : Slot) : (shortBytes src).length ≤ 12 := by
  have hbase := length_untilSpace src 0 8
  have hext := length_untilSpace src 8 3
  rw [shortBytes, List.length_append]
  split
  · rw [List.length_nil]
    omega
  · rw [List.length_cons]
    omega

theorem overlay_nil (dst : Buffer) (j : ℕ) : overlay dst j [] = dst := by
  funext i
  exact if_neg (by simp)

theorem overlay_update (dst : Buffer) (j : ℕ) (b : UInt8) (bytes : List UInt8) :
    overlay (Function.update dst j b) (j + 1) bytes = overlay dst j (b :: bytes) := by
  funext i
  simp only [overlay, List.length_cons]
  by_cases hi : i = j
  · subst hi
    rw [if_neg (by omega), if_pos (by omega), Function.update_self, Nat.sub_self]
    rfl
  · rw [Function.update_of_ne hi]
    by_cases hin : j + 1 ≤ i ∧ i < j + 1 + bytes.length
    · rw [if_pos hin, if_pos (by omega), show i - j = i - (j + 1) + 1 by omega,
        List.getD_cons_succ]
    · rw [if_neg hin, if_neg (by omega)]

theorem overlay_append (dst : Buffer) (j : ℕ) (left right : List UInt8) :
    overlay (overlay dst j left) (j + left.length) right = overlay dst j (left ++ right) := by
  induction left generalizing dst j with
  | nil => rw [overlay_nil, List.length_nil, Nat.add_zero, List.nil_append]
  | cons b left ih =>
      rw [← overlay_update, List.length_cons, ← Nat.add_assoc, Nat.add_right_comm, ih,
        overlay_update, List.cons_append]

theorem copyUntilSpace_eq (dst : Buffer) (j : ℕ) (src : Slot) (i count : ℕ) :
    copyUntilSpace dst j src i count =
      (j + (untilSpace src i count).length, overlay dst j (untilSpace src i count)) := by
  induction count generalizing dst j i with
  | zero => rw [copyUntilSpace, untilSpace, List.length_nil, Nat.add_zero, overlay_nil]
  | succ count ih =>
      rw [copyUntilSpace, untilSpace]
      split
      · rw [List.length_nil, Nat.add_zero, overlay_nil]
      · rw [ih, overlay_update, List.length_cons, Nat.add_assoc, Nat.add_comm 1]

/-- `read_fat32_short_name` writes the name and a 0 after it. -/
theorem readFat32ShortName_eq (dst : Buffer) (src : Slot) :
    readFat32ShortName dst src =
      Function.update (overlay dst 0 (shortBytes src)) (shortBytes src).length 0 := by
  rw [readFat32ShortName, copyUntilSpace_eq, shortBytes, Nat.zero_add]
  dsimp only
  split
  · rw [List.append_nil]
  · rw [copyUntilSpace_eq, overlay_update, List.length_append, List.length_cons]
    dsimp only
    rw [← overlay_append dst 0, Nat.zero_add, Nat.add_assoc, Nat.add_comm 1]

theorem readFat32ShortName_of_lt {i : ℕ} (hi : 12 < i) : readFat32ShortName dst src i = dst i := by
  have hlength := length_shortBytes src
  rw [readFat32ShortName_eq, Function.update_of_ne (by omega), overlay, if_neg (by omega)]

theorem getD_takeWhile {bytes : List UInt8} {i : ℕ}
    (hi : i ≤ (bytes.takeWhile (· ≠ 0)).length) :
    bytes.getD i 0 = (bytes.takeWhile (· ≠ 0)).getD i 0 := by
  induction bytes generalizing i with
  | nil => rfl
  | cons b bytes ih =>
      by_cases hb : b = 0
      · subst hb
        rw [List.takeWhile_cons_of_neg (by decide)] at hi ⊢
        obtain rfl : i = 0 := Nat.le_zero.mp hi
        rfl
      · rw [List.takeWhile_cons_of_pos (by simpa using hb)] at hi ⊢
        cases i with
        | zero => rfl
        | succ i => exact ih (by simpa using hi)

theorem readFat32ShortName_holds (dst : Buffer) (src : Slot) :
    Holds (readFat32ShortName dst src) (shortName src) := by
  rw [readFat32ShortName_eq, shortName]
  generalize shortBytes src = bytes
  refine ⟨fun hmem => ?_, fun i hi => ?_⟩
  · simpa using List.mem_takeWhile_imp hmem
  · have hle : i ≤ bytes.length := hi.trans (List.takeWhile_prefix _).length_le
    rw [← getD_takeWhile hi]
    obtain rfl | hlt := Nat.eq_or_lt_of_le hle
    · rw [Function.update_self, List.getD_eq_default _ _ le_rfl]
    · rw [Function.update_of_ne (by omega), overlay, if_pos (by omega), Nat.sub_zero]

end Short

/-! ## Names -/

/-- The name of an entry: the long name put together before it, or else its 8.3 name. -/
def entryName (entry : Slot) (tname : Buffer) : List UInt8 :=
  if tname 0 ≠ 0 then toList tname maxFileNameLen else shortName entry

/-- A name of at most two long slots, with zeros after it. -/
def TnameOk (tname : Buffer) : Prop := ∀ i, 26 ≤ i → tname i = 0

section Names

variable {entry : Slot} {tname stale : Buffer}

theorem TnameOk.holds (hok : TnameOk tname) : Holds tname (toList tname maxFileNameLen) :=
  holds_toList (show 26 < maxFileNameLen by decide) (hok 26 le_rfl)

theorem TnameOk.length_le (hok : TnameOk tname) : (toList tname maxFileNameLen).length ≤ 26 := by
  by_contra hlong
  exact hok.holds.ne_zero (not_le.mp hlong) (hok 26 le_rfl)

theorem length_entryName (hok : TnameOk tname) : (entryName entry tname).length ≤ 26 := by
  rw [entryName]
  split
  · exact hok.length_le
  · exact ((List.takeWhile_prefix _).length_le.trans (length_shortBytes entry)).trans (by decide)

theorem mem_untilSpace {src : Slot} {i count : ℕ} {b : UInt8} (hb : b ∈ untilSpace src i count) :
    ∃ j, j < i + count ∧ src j = b := by
  induction count generalizing i with
  | zero => exact absurd hb List.not_mem_nil
  | succ count ih =>
      rw [untilSpace] at hb
      split at hb
      · exact absurd hb List.not_mem_nil
      · obtain rfl | hb := List.mem_cons.mp hb
        · exact ⟨i, by omega, rfl⟩
        · obtain ⟨j, hj, heq⟩ := ih hb
          exact ⟨j, by omega, heq⟩

/-- A short name without a 0 byte in its columns. -/
theorem zero_notMem_shortBytes {src : Slot} (hsrc : ∀ i < 11, src i ≠ 0) : 0 ∉ shortBytes src := by
  have hpart : ∀ i count, i + count ≤ 11 → 0 ∉ untilSpace src i count := by
    intro i count hle hmem
    obtain ⟨j, hj, hzero⟩ := mem_untilSpace hmem
    exact hsrc j (by omega) hzero
  rw [shortBytes, List.mem_append, not_or]
  refine ⟨hpart 0 8 (by decide), ?_⟩
  split
  · exact List.not_mem_nil
  · rw [List.mem_cons, not_or]
    exact ⟨by decide, hpart 8 3 (by decide)⟩

/-- Then the buffer is as it was after the name. -/
theorem nameBuffer_of_lt (hok : TnameOk tname) (hshort : ¬ IsLongFileName entry)
    (hbytes : 0 ∉ shortBytes entry) {i : ℕ} (hi : (entryName entry tname).length < i) :
    nameBuffer stale entry tname i = stale i := by
  rw [entryName] at hi
  rw [nameBuffer]
  split at hi
  · rename_i hhead
    have hne : toList tname maxFileNameLen ≠ [] := fun hnil =>
      hhead (hok.holds.eq_nil_iff.mp hnil)
    have hlength := hok.length_le
    rw [if_pos hhead, hok.holds.strlen (hlength.trans (by decide))]
    exact (hok.holds.strncpy hne stale).2 i hi
  · rename_i hhead
    have hname : shortName entry = shortBytes entry := by
      rw [shortName, List.takeWhile_eq_self_iff]
      intro b hb
      simpa using fun heq : b = 0 => hbytes (heq ▸ hb)
    rw [hname] at hi
    rw [if_neg hhead, fillFileName, if_neg hshort, readFat32ShortName_eq,
      Function.update_of_ne (by omega), overlay, if_neg (by omega)]

/-- What `match_dirent_entry` compares is the name of the entry, and after byte 26 what was on the
stack. -/
theorem nameBuffer_holds (hok : TnameOk tname) (hshort : ¬ IsLongFileName entry) :
    Holds (nameBuffer stale entry tname) (entryName entry tname) ∧
      ∀ i, 26 < i → nameBuffer stale entry tname i = stale i := by
  rw [nameBuffer, entryName]
  split
  · rename_i hhead
    have hne : toList tname maxFileNameLen ≠ [] := fun hnil =>
      hhead (hok.holds.eq_nil_iff.mp hnil)
    have hlength := hok.length_le
    rw [hok.holds.strlen (hlength.trans (by decide))]
    obtain ⟨hholds, hrest⟩ := hok.holds.strncpy hne stale
    exact ⟨hholds, fun i hi => hrest i (by omega)⟩
  · rw [fillFileName, if_neg hshort]
    exact ⟨readFat32ShortName_holds _ _, fun i hi => readFat32ShortName_of_lt (by omega)⟩

/-- The comparison accepts the entry: its name starts with the name searched for, or is shorter and
the byte of the buffer at the length of the latter is not 0. -/
def Taken (name : List UInt8) (entry : Slot) (tname stale : Buffer) : Prop :=
  name <+: entryName entry tname ∨
    (entryName entry tname <+: name ∧ (entryName entry tname).length < name.length) ∧
      nameBuffer stale entry tname name.length ≠ 0

instance (name : List UInt8) (entry : Slot) (tname stale : Buffer) :
    Decidable (Taken name entry tname stale) := inferInstanceAs (Decidable (_ ∨ _))

theorem matchDirentEntry_eq (hok : TnameOk tname) (hshort : ¬ IsLongFileName entry)
    {name : List UInt8} (hname : 0 ∉ name) (dirents : Dirents) (parent lastDir offset : ℕ) :
    matchDirentEntry dirents name parent lastDir entry offset tname stale =
      if Taken name entry tname stale then
        some (fillDirent dirents name parent lastDir entry offset)
      else none := by
  have hiff := strncmp_eq_zero_iff (@nameBuffer_holds entry tname stale hok hshort).1 hname
  rw [matchDirentEntry]
  by_cases htaken : Taken name entry tname stale
  · rw [if_pos htaken, if_neg (not_not.mpr (hiff.mpr htaken))]
  · rw [if_neg htaken, if_pos (fun hzero => htaken (hiff.mp hzero))]

end Names

/-! ## Scans -/

/-- Up to two long slots have been read. -/
structure ScanOk (scan : Scan) : Prop where
  idx : scan.idx = 0 ∨ scan.idx = 13 ∨ scan.idx = 26
  zeros : ∀ i, scan.idx ≤ i → scan.tname i = 0

theorem scanOk_fresh (longEntSeq : Bool) : ScanOk (freshScan longEntSeq) :=
  ⟨.inl rfl, fun _ _ => rfl⟩

theorem ScanOk.tname {scan : Scan} (hok : ScanOk scan) : TnameOk scan.tname := fun i hi =>
  hok.zeros i (by have hidx := hok.idx; omega)

/-- The 13 characters of a long slot. -/
def longBytes (entry : Slot) : List UInt8 :=
  (List.range 13).map fun i =>
    entry (if i < 5 then 1 + 2 * i else if i < 11 then 14 + 2 * (i - 5) else 28 + 2 * (i - 11))

theorem length_longBytes (entry : Slot) : (longBytes entry).length = 13 := by
  rw [longBytes, List.length_map, List.length_range]

theorem wstr2str_long (rawName : Buffer) (idx : ℕ) (entry : Slot) :
    wstr2str (wstr2str (wstr2str rawName idx entry 1 5) (5 + idx) entry 14 6) (11 + idx) entry 28 2 =
      overlay rawName idx (longBytes entry) := by
  funext i
  rw [overlay, length_longBytes]
  by_cases hin : idx ≤ i ∧ i < idx + 13
  · rw [if_pos hin, List.getD_eq_getElem _ _ (by rw [length_longBytes]; omega)]
    simp only [longBytes, List.getElem_map, List.getElem_range, wstr2str]
    by_cases hfirst : i - idx < 5
    · rw [if_neg (by omega), if_neg (by omega), if_pos (by omega), if_pos hfirst]
    · by_cases hsecond : i - idx < 11
      · rw [if_neg (by omega), if_pos (by omega), if_neg hfirst, if_pos hsecond]
        congr 1
        omega
      · rw [if_pos (by omega), if_neg hfirst, if_neg hsecond]
        congr 1
        omega
  · simp only [wstr2str]
    rw [if_neg hin, if_neg (by omega), if_neg (by omega), if_neg (by omega)]

/-- A third long slot is too much, and the characters of the others are added at the end. -/
theorem handleLongFileName_eq {scan : Scan} (hok : ScanOk scan) (entry : Slot) :
    handleLongFileName entry scan =
      if scan.idx = 26 then none
      else some ⟨overlay scan.tname scan.idx (longBytes entry), scan.idx + 13,
        (entry 0).toNat &&& 0x3f ≠ 0⟩ := by
  have hidx := hok.idx
  rw [handleLongFileName]
  by_cases hfull : scan.idx = 26
  · rw [if_pos hfull, if_pos (.inl (by rw [hfull]; decide))]
  · have hset : (if scan.longEntSeq = true then Function.update scan.tname (scan.idx + 13) 0
        else scan.tname) = scan.tname := by
      split
      · rw [Function.update_eq_self_iff]
        exact (hok.zeros _ (by omega)).symm
      · rfl
    rw [if_neg hfull, if_neg (by simp only [maxFileNameLen]; omega)]
    dsimp only
    rw [hset, wstr2str_long]

theorem ScanOk.handle {scan scan' : Scan} (hok : ScanOk scan) {entry : Slot}
    (hhandle : handleLongFileName entry scan = some scan') : ScanOk scan' := by
  rw [handleLongFileName_eq hok] at hhandle
  split at hhandle
  · cases hhandle
  · rename_i hfull
    obtain rfl := Option.some.inj hhandle
    have hidx := hok.idx
    refine ⟨by dsimp only; omega, fun i hi => ?_⟩
    dsimp only at hi ⊢
    rw [overlay, length_longBytes, if_neg (by omega)]
    exact hok.zeros i (by omega)

/-! ## Listings -/

/-- Where a scan ends when it takes no entry. -/
inductive Ending
  | mark
  | cluster
  | overrun
  deriving DecidableEq

/-- An entry that a scan compares, and the long name put together for it. -/
structure Named where
  slot : Located
  tname : Buffer

def Named.name (named : Named) : List UInt8 := entryName named.slot.entry named.tname

/-- The entries that a scan compares, up to its end. -/
def listing : List Located → Scan → List Named × Ending
  | [], _ => ([], .cluster)
  | slot :: rest, scan =>
      if isInvalidEntry slot.entry = 0 then listing rest (freshScan false)
      else if isInvalidEntry slot.entry = -1 then ([], .mark)
      else if IsLongFileName slot.entry then
        match handleLongFileName slot.entry scan with
        | none => ([], .overrun)
        | some scan => listing rest scan
      else
        let (entries, ending) := listing rest (freshScan scan.longEntSeq)
        (⟨slot, scan.tname⟩ :: entries, ending)

/-- The comparison accepts an entry of a listing. -/
def Named.Taken (named : Named) (name : List UInt8) (stale : ℕ → Buffer) : Prop :=
  Directory.Taken name named.slot.entry named.tname (stale named.slot.offset)

instance (named : Named) (name : List UInt8) (stale : ℕ → Buffer) :
    Decidable (named.Taken name stale) :=
  inferInstanceAs (Decidable (Directory.Taken _ _ _ _))

/-- What a scan returns that takes no entry. -/
def Ending.parsed (dirents : Dirents) : Ending → Parsed
  | .mark => .done (-1) dirents
  | .cluster => .done (-2) dirents
  | .overrun => .overrun

/-- The names of a listing are short, and its entries are not slots of long names. -/
theorem listing_ok {slots : List Located} {scan : Scan} (hok : ScanOk scan) :
    ∀ named ∈ (listing slots scan).1,
      TnameOk named.tname ∧ ¬ IsLongFileName named.slot.entry ∧
        isInvalidEntry named.slot.entry ≠ 0 ∧ isInvalidEntry named.slot.entry ≠ -1 := by
  induction slots generalizing scan with
  | nil => simp [listing]
  | cons slot rest ih =>
      rw [listing]
      split
      · exact ih (scanOk_fresh false)
      · rename_i hvalid
        split
        · simp
        · rename_i hmore
          split
          · cases hhandle : handleLongFileName slot.entry scan with
            | none => simp
            | some scan' => exact ih (hok.handle hhandle)
          · rename_i hshort
            intro named hnamed
            obtain rfl | hnamed := List.mem_cons.mp hnamed
            · exact ⟨hok.tname, hshort, hvalid, hmore⟩
            · exact ih (scanOk_fresh _) named hnamed

/-- The listing keeps the order of the slots. -/
theorem listing_sublist (slots : List Located) (scan : Scan) :
    List.Sublist ((listing slots scan).1.map Named.slot) slots := by
  induction slots generalizing scan with
  | nil => exact List.Sublist.refl _
  | cons slot rest ih =>
      rw [listing]
      split
      · exact (ih _).cons slot
      · split
        · exact List.nil_sublist _
        · split
          · cases handleLongFileName slot.entry scan with
            | none => exact List.nil_sublist _
            | some scan' => exact (ih scan').cons slot
          · exact (ih _).cons_cons slot

/-- A scan takes the first entry of the listing that the comparison accepts. -/
theorem parseLoop_eq {name : List UInt8} (hname : 0 ∉ name) (dirents : Dirents)
    (parent lastDir : ℕ) (stale : ℕ → Buffer) {slots : List Located} {scan : Scan}
    (hok : ScanOk scan) :
    parseLoop dirents name parent lastDir stale slots scan =
      match (listing slots scan).1.find? fun named => named.Taken name stale with
      | some named =>
          .done 0 (fillDirent dirents name parent lastDir named.slot.entry named.slot.offset)
      | none => (listing slots scan).2.parsed dirents := by
  induction slots generalizing scan with
  | nil => rfl
  | cons slot rest ih =>
      rw [parseLoop, listing]
      split
      · exact ih (scanOk_fresh false)
      · split
        · rfl
        · split
          · cases hhandle : handleLongFileName slot.entry scan with
            | none => rfl
            | some scan' => exact ih (hok.handle hhandle)
          · rename_i hshort
            rw [matchDirentEntry_eq hok.tname hshort hname]
            by_cases htaken : (⟨slot, scan.tname⟩ : Named).Taken name stale
            · rw [if_pos (by exact htaken)]
              dsimp only
              simp only [List.find?_cons, htaken, decide_true]
            · rw [if_neg (by exact htaken)]
              dsimp only
              simp only [List.find?_cons, htaken, decide_false]
              exact ih (scanOk_fresh _)

theorem parseDirectoryEntries_eq {name : List UInt8} (hname : 0 ∉ name) (dirents : Dirents)
    (parent lastDir : ℕ) (stale : ℕ → Buffer) (slots : List Located) :
    parseDirectoryEntries dirents name parent lastDir stale slots =
      match (listing slots (freshScan false)).1.find? fun named => named.Taken name stale with
      | some named =>
          .done 0 (fillDirent dirents name parent lastDir named.slot.entry named.slot.offset)
      | none => (listing slots (freshScan false)).2.parsed dirents :=
  parseLoop_eq hname dirents parent lastDir stale (scanOk_fresh false)

end Painting.Directory
