import Painting.Fs.DirectoryListing

/-!
# Long names on disk and in `tname`

A long name is stored in pieces of 13 characters, the last piece first.  `handle_long_file_name`
puts the pieces one after the other in the order of the slots, so it gets back a name of one piece,
or of two equal pieces.
-/

namespace Painting.Directory

open Painting.Strings
open Painting.Descriptors (strncmp cstring)

/-! ## The format -/

/-- The number of slots of a long name. -/
def pieces (name : List UInt8) : ℕ := (name.length + 12) / 13

/-- The low and high byte of character `k`: after the last one a terminator and padding. -/
def storedChar (name : List UInt8) (k : ℕ) : UInt8 × UInt8 :=
  if k < name.length then (name.getD k 0, 0) else if k = name.length then (0, 0) else (0xff, 0xff)

/-- A byte of the character at position `k`, at an even or odd distance from its field. -/
def storedByte (name : List UInt8) (k distance : ℕ) : UInt8 :=
  if distance % 2 = 0 then (storedChar name k).1 else (storedChar name k).2

/-- Long-name slot number `part`, counted from 0, as FAT stores it. -/
def encodeSlot (name : List UInt8) (checksum : UInt8) (part : ℕ) : Slot := fun i =>
  if i = 0 then UInt8.ofNat (part + 1 + if part + 1 = pieces name then 0x40 else 0)
  else if i < 11 then storedByte name (13 * part + (i - 1) / 2) (i - 1)
  else if i = 11 then 0x0f
  else if i = 12 then 0
  else if i = 13 then checksum
  else if i < 26 then storedByte name (13 * part + (5 + (i - 14) / 2)) (i - 14)
  else if i < 28 then 0
  else storedByte name (13 * part + (11 + (i - 28) / 2)) (i - 28)

/-- The long-name slots of a name in their order on disk. -/
def encodeLongName (name : List UInt8) (checksum : UInt8) : List Slot :=
  (List.range (pieces name)).reverse.map (encodeSlot name checksum)

/-! ## Reading it -/

/-- The variables of `parse_directory_entries` after a run of slots of which it takes none; `none`
when it does not get to their end. -/
def scanSlots : List Slot → Scan → Option Scan
  | [], scan => some scan
  | entry :: rest, scan =>
      if isInvalidEntry entry = 0 then scanSlots rest (freshScan false)
      else if isInvalidEntry entry = -1 then none
      else if IsLongFileName entry then (handleLongFileName entry scan).bind (scanSlots rest)
      else scanSlots rest (freshScan scan.longEntSeq)

theorem scanSlots_long {entry : Slot} (hvalid : isInvalidEntry entry = 1)
    (hlong : IsLongFileName entry) (rest : List Slot) (scan : Scan) :
    scanSlots (entry :: rest) scan = (handleLongFileName entry scan).bind (scanSlots rest) := by
  rw [scanSlots, hvalid, if_neg (by decide), if_neg (by decide), if_pos hlong]

/-- A scan that has read slots of long names goes on with these variables. -/
theorem parseLoop_append {slots : List Located}
    (hslots : ∀ slot ∈ slots, isInvalidEntry slot.entry = 1 ∧ IsLongFileName slot.entry)
    (dirents : Dirents) (name : List UInt8) (parent lastDir : ℕ) (stale : ℕ → Buffer)
    (rest : List Located) (scan : Scan) :
    parseLoop dirents name parent lastDir stale (slots ++ rest) scan =
      match scanSlots (slots.map Located.entry) scan with
      | none => .overrun
      | some scan => parseLoop dirents name parent lastDir stale rest scan := by
  induction slots generalizing scan with
  | nil => rfl
  | cons slot slots ih =>
      obtain ⟨hvalid, hlong⟩ := hslots slot List.mem_cons_self
      rw [List.map_cons, scanSlots_long hvalid hlong, List.cons_append, parseLoop, hvalid,
        if_neg (by decide), if_neg (by decide), if_pos hlong]
      cases handleLongFileName slot.entry scan with
      | none => rfl
      | some scan' => exact ih (fun other hother => hslots other (List.mem_cons_of_mem _ hother)) scan'

section Encode

variable {name : List UInt8} {checksum : UInt8} {part : ℕ}

theorem isLongFileName_encodeSlot : IsLongFileName (encodeSlot name checksum part) :=
  show (0x0f : UInt8).toNat &&& 0x0f = 0x0f by decide

/-- A slot whose first byte is neither 0 nor a space nor a dot counts. -/
theorem isInvalidEntry_of_head {entry : Slot} (hzero : entry 0 ≠ 0) (hspace : entry 0 ≠ fatdirDlt)
    (hdot : entry 0 ≠ UInt8.ofNat '.'.toNat) : isInvalidEntry entry = 1 := by
  have hone : strncmp entry (cstring ".          ".toList) shortNameLen ≠ 0 :=
    strncmp_head_ne (by decide) hzero (by decide) hdot
  have htwo : strncmp entry (cstring "..         ".toList) shortNameLen ≠ 0 :=
    strncmp_head_ne (by decide) hzero (by decide) hdot
  rw [isInvalidEntry, if_neg (by simp only [hspace, hone, htwo, or_self, not_false_iff]),
    if_neg hzero]

theorem isInvalidEntry_encodeSlot (hshort : name.length ≤ 31) (hpart : part < pieces name) :
    isInvalidEntry (encodeSlot name checksum part) = 1 := by
  have hfew : pieces name ≤ 3 := by
    rw [pieces]
    omega
  have hhead : encodeSlot name checksum part 0 =
      UInt8.ofNat (part + 1 + if part + 1 = pieces name then 0x40 else 0) := rfl
  have hvalue : (encodeSlot name checksum part 0).toNat =
      part + 1 + if part + 1 = pieces name then 0x40 else 0 := by
    rw [hhead, UInt8.toNat_ofNat']
    apply Nat.mod_eq_of_lt
    split <;> omega
  have hne : ∀ b : UInt8, b.toNat = 0 ∨ b.toNat = 0x20 ∨ b.toNat = 0x2e →
      encodeSlot name checksum part 0 ≠ b := by
    rintro b hb rfl
    rw [hvalue] at hb
    split at hb <;> omega
  exact isInvalidEntry_of_head (hne 0 (.inl rfl)) (hne fatdirDlt (.inr (.inl rfl)))
    (hne _ (.inr (.inr rfl)))

/-- The characters of a slot. -/
theorem longBytes_encodeSlot :
    longBytes (encodeSlot name checksum part) =
      (List.range 13).map fun p => (storedChar name (13 * part + p)).1 := by
  apply List.map_congr_left
  intro p hp
  have hp := List.mem_range.mp hp
  have heven : ∀ k distance, distance % 2 = 0 →
      storedByte name k distance = (storedChar name k).1 := fun k distance h => if_pos h
  by_cases hfirst : p < 5
  · rw [if_pos hfirst, encodeSlot, if_neg (by omega), if_pos (by omega), heven _ _ (by omega),
      show (1 + 2 * p - 1) / 2 = p by omega]
  · by_cases hsecond : p < 11
    · rw [if_neg hfirst, if_pos hsecond, encodeSlot, if_neg (by omega), if_neg (by omega),
        if_neg (by omega), if_neg (by omega), if_neg (by omega), if_pos (by omega),
        heven _ _ (by omega), show 5 + (14 + 2 * (p - 5) - 14) / 2 = p by omega]
    · rw [if_neg hfirst, if_neg hsecond, encodeSlot, if_neg (by omega), if_neg (by omega),
        if_neg (by omega), if_neg (by omega), if_neg (by omega), if_neg (by omega),
        if_neg (by omega), heven _ _ (by omega),
        show 11 + (28 + 2 * (p - 11) - 28) / 2 = p by omega]

/-- Character `p` of a slot. -/
theorem getD_longBytes {p : ℕ} (hp : p < 13) :
    (longBytes (encodeSlot name checksum part)).getD p 0 =
      (storedChar name (13 * part + p)).1 := by
  rw [longBytes_encodeSlot, List.getD_eq_getElem _ _ (by simpa using hp), List.getElem_map,
    List.getElem_range]

theorem storedChar_of_le {k : ℕ} (hk : k ≤ name.length) : (storedChar name k).1 = name.getD k 0 := by
  rw [storedChar]
  obtain rfl | hlt := Nat.eq_or_lt_of_le hk
  · rw [if_neg (lt_irrefl _), if_pos rfl, List.getD_eq_default _ _ le_rfl]
  · rw [if_pos hlt]

/-- A long slot of a name, read after `idx` characters. -/
theorem scanSlots_encodeSlot (hshort : name.length ≤ 31) (hpart : part < pieces name)
    {scan : Scan} (hok : ScanOk scan) (rest : List Slot) :
    ∃ longEntSeq, scanSlots (encodeSlot name checksum part :: rest) scan =
      if scan.idx = 26 then none
      else scanSlots rest
        ⟨overlay scan.tname scan.idx (longBytes (encodeSlot name checksum part)), scan.idx + 13,
          longEntSeq⟩ := by
  refine ⟨(encodeSlot name checksum part 0).toNat &&& 0x3f ≠ 0, ?_⟩
  rw [scanSlots_long (isInvalidEntry_encodeSlot hshort hpart) isLongFileName_encodeSlot,
    handleLongFileName_eq hok]
  split
  · rfl
  · rfl

/-- The buffer after one piece. -/
theorem onePiece_holds (hname : 0 ∉ name) (hone : name.length ≤ 13) :
    Holds (overlay (fun _ => 0) 0 (longBytes (encodeSlot name checksum 0))) name := by
  refine ⟨hname, fun i hi => ?_⟩
  rw [overlay, length_longBytes]
  by_cases hin : i < 13
  · rw [if_pos (by omega), Nat.sub_zero, getD_longBytes hin, Nat.mul_zero, Nat.zero_add,
      storedChar_of_le hi]
  · rw [if_neg (by omega), List.getD_eq_default _ _ (by omega)]

/-- The buffer after two pieces: the second piece, and the first if the second is full. -/
theorem twoPieces_holds (hname : 0 ∉ name) (hlo : 13 < name.length) (hhi : name.length ≤ 26) :
    Holds (overlay (overlay (fun _ => 0) 0 (longBytes (encodeSlot name checksum 1))) 13
        (longBytes (encodeSlot name checksum 0)))
      (name.drop 13 ++ if name.length = 26 then name.take 13 else []) := by
  have hfirst : ∀ i < 13, overlay (overlay (fun _ => 0) 0
      (longBytes (encodeSlot name checksum 1))) 13
      (longBytes (encodeSlot name checksum 0)) i = (storedChar name (13 + i)).1 := by
    intro i hi
    rw [overlay, length_longBytes, if_neg (by omega), overlay, length_longBytes,
      if_pos (by omega), Nat.sub_zero, getD_longBytes hi, Nat.mul_one]
  refine ⟨?_, fun i hi => ?_⟩
  · rw [List.mem_append]
    rintro (hmem | hmem)
    · exact hname (List.mem_of_mem_drop hmem)
    · split at hmem
      · exact hname (List.mem_of_mem_take hmem)
      · exact List.not_mem_nil hmem
  · by_cases hfull : name.length = 26
    · rw [if_pos hfull] at hi ⊢
      have hlength : (name.drop 13).length = 13 := by
        rw [List.length_drop]
        omega
      by_cases hin : i < 13
      · rw [hfirst i hin, storedChar_of_le (by omega), List.getD_append _ _ _ _ (by omega),
          List.getD_eq_getElem _ _ (by omega), List.getD_eq_getElem _ _ (by omega),
          List.getElem_drop]
      · rw [List.getD_append_right _ _ _ _ (by omega), hlength]
        rw [List.length_append, hlength, List.length_take, hfull] at hi
        rw [overlay, length_longBytes]
        by_cases hlast : i = 26
        · subst hlast
          rw [if_neg (by omega), List.getD_eq_default _ _ (by rw [List.length_take]; omega)]
          rfl
        · rw [if_pos (by omega), getD_longBytes (by omega), Nat.mul_zero, Nat.zero_add,
            storedChar_of_le (by omega), List.getD_eq_getElem _ _ (by omega),
            List.getD_eq_getElem _ _ (by rw [List.length_take]; omega), List.getElem_take]
    · rw [if_neg hfull, List.append_nil] at hi ⊢
      rw [List.length_drop] at hi
      rw [hfirst i (by omega), storedChar_of_le (by omega)]
      by_cases hlast : i = name.length - 13
      · subst hlast
        rw [List.getD_eq_default _ _ (by omega),
          List.getD_eq_default _ _ (by rw [List.length_drop])]
      · rw [List.getD_eq_getElem _ _ (by omega),
          List.getD_eq_getElem _ _ (by rw [List.length_drop]; omega), List.getElem_drop]

/-- What the scan has read after the slots of a name of one, two or three pieces. -/
theorem scanSlots_onePiece (hname : name.length ≤ 31) (hpieces : pieces name = 1)
    (longEntSeq : Bool) :
    ∃ seq, scanSlots (encodeLongName name checksum) (freshScan longEntSeq) =
      some ⟨overlay (fun _ => 0) 0 (longBytes (encodeSlot name checksum 0)), 13, seq⟩ := by
  obtain ⟨seq, hscan⟩ := @scanSlots_encodeSlot name checksum 0 hname (by omega)
    (freshScan longEntSeq) (scanOk_fresh longEntSeq) []
  refine ⟨seq, ?_⟩
  rw [encodeLongName, hpieces]
  exact hscan

theorem scanOk_onePiece (seq : Bool) : ScanOk
    ⟨overlay (fun _ => 0) 0 (longBytes (encodeSlot name checksum part)), 13, seq⟩ := by
  refine ⟨.inr (.inl rfl), fun i hi => ?_⟩
  dsimp only at hi ⊢
  rw [overlay, length_longBytes, if_neg (by omega)]

theorem scanSlots_twoPieces (hname : name.length ≤ 31) (hpieces : pieces name = 2)
    (longEntSeq : Bool) :
    ∃ seq, scanSlots (encodeLongName name checksum) (freshScan longEntSeq) =
      some ⟨overlay (overlay (fun _ => 0) 0 (longBytes (encodeSlot name checksum 1))) 13
        (longBytes (encodeSlot name checksum 0)), 26, seq⟩ := by
  obtain ⟨seq, hscan⟩ := @scanSlots_encodeSlot name checksum 1 hname (by omega)
    (freshScan longEntSeq) (scanOk_fresh longEntSeq) [encodeSlot name checksum 0]
  obtain ⟨seq', hscan'⟩ := @scanSlots_encodeSlot name checksum 0 hname (by omega) _
    (scanOk_onePiece seq) []
  refine ⟨seq', ?_⟩
  rw [encodeLongName, hpieces]
  exact hscan.trans hscan'

theorem scanSlots_threePieces (hname : name.length ≤ 31) (hpieces : pieces name = 3)
    (longEntSeq : Bool) :
    scanSlots (encodeLongName name checksum) (freshScan longEntSeq) = none := by
  obtain ⟨seq, hscan⟩ := @scanSlots_encodeSlot name checksum 2 hname (by omega)
    (freshScan longEntSeq) (scanOk_fresh longEntSeq)
    [encodeSlot name checksum 1, encodeSlot name checksum 0]
  obtain ⟨seq', hscan'⟩ := @scanSlots_encodeSlot name checksum 1 hname (by omega) _
    (scanOk_onePiece seq) [encodeSlot name checksum 0]
  rw [encodeLongName, hpieces]
  refine hscan.trans (hscan'.trans ?_)
  have hok : ScanOk ⟨overlay (overlay (fun _ => 0) 0 (longBytes (encodeSlot name checksum 2))) 13
      (longBytes (encodeSlot name checksum 1)), 26, seq'⟩ := by
    refine ⟨.inr (.inr rfl), fun i hi => ?_⟩
    dsimp only at hi ⊢
    rw [overlay, length_longBytes, if_neg (by omega)]
    exact (scanOk_onePiece seq).zeros i (by dsimp only; omega)
  obtain ⟨_, hscan''⟩ := @scanSlots_encodeSlot name checksum 0 hname (by omega) _ hok []
  exact hscan''

end Encode

/-- The buffer holds the name when the scan has read its slots. -/
def DecodesBack (name : List UInt8) (checksum : UInt8) (longEntSeq : Bool) : Prop :=
  ∃ scan, scanSlots (encodeLongName name checksum) (freshScan longEntSeq) = some scan ∧
    Holds scan.tname name

/-- A name comes back from disk if and only if it is one piece long, or two equal pieces. -/
theorem decodesBack_iff {name : List UInt8} (hlo : 1 ≤ name.length) (hhi : name.length ≤ 31)
    (hascii : ∀ c ∈ name, 1 ≤ c.toNat ∧ c.toNat < 128) (checksum : UInt8) (longEntSeq : Bool) :
    DecodesBack name checksum longEntSeq ↔
      name.length ≤ 13 ∨ name.length = 26 ∧ name.take 13 = name.drop 13 := by
  have hname : 0 ∉ name := fun hmem => absurd (hascii 0 hmem).1 (by decide)
  have hcount : pieces name = (name.length + 12) / 13 := rfl
  by_cases hone : name.length ≤ 13
  · obtain ⟨seq, hscan⟩ := @scanSlots_onePiece name checksum hhi (by omega) longEntSeq
    exact iff_of_true ⟨_, hscan, onePiece_holds hname hone⟩ (.inl hone)
  · by_cases htwo : name.length ≤ 26
    · obtain ⟨seq, hscan⟩ := @scanSlots_twoPieces name checksum hhi (by omega) longEntSeq
      have hholds := @twoPieces_holds name checksum hname (by omega) htwo
      constructor
      · rintro ⟨scan, hscan', hback⟩
        obtain rfl := Option.some.inj (hscan.symm.trans hscan')
        have heq := hholds.unique hback
        by_cases hfull : name.length = 26
        · rw [if_pos hfull] at heq
          refine .inr ⟨hfull, ?_⟩
          have hdrop := congrArg (List.take 13) heq
          rw [List.take_left' (by rw [List.length_drop]; omega)] at hdrop
          exact hdrop.symm
        · rw [if_neg hfull, List.append_nil] at heq
          have hlength := congrArg List.length heq
          rw [List.length_drop] at hlength
          omega
      · rintro (hshort | ⟨hfull, hequal⟩)
        · exact absurd hshort hone
        · refine ⟨_, hscan, ?_⟩
          rw [if_pos hfull, ← hequal, hequal, ← hequal] at hholds
          have hwhole : name.take 13 ++ name.take 13 = name := by
            conv_rhs => rw [← List.take_append_drop 13 name, ← hequal]
          rwa [hwhole] at hholds
    · have hnone := @scanSlots_threePieces name checksum hhi (by omega) longEntSeq
      refine iff_of_false ?_ ?_
      · rintro ⟨scan, hscan, -⟩
        rw [hnone] at hscan
        cases hscan
      · rintro (hshort | ⟨hfull, -⟩)
        · exact hone hshort
        · omega

/-- A name of nine characters comes back. -/
theorem decodesBack_notesTxt :
    DecodesBack ("notes.txt".toList.map fun c => UInt8.ofNat c.toNat) 0 false :=
  (decodesBack_iff (by decide) (by decide) (by decide +kernel) 0 false).mpr (.inl (by decide))

/-- A name of 14 characters does not. -/
theorem not_decodesBack_allNames : ¬ ∀ (name : List UInt8) (checksum : UInt8) (longEntSeq : Bool),
    1 ≤ name.length → name.length ≤ 31 → (∀ c ∈ name, 1 ≤ c.toNat ∧ c.toNat < 128) →
      DecodesBack name checksum longEntSeq := by
  intro hall
  obtain ⟨scan, hscan, hholds⟩ := hall (List.replicate 13 97 ++ [98]) 0 false (by decide)
    (by decide) (by decide +kernel)
  obtain ⟨seq, htwo⟩ := @scanSlots_twoPieces (List.replicate 13 97 ++ [98]) 0 (by decide)
    (by decide) false
  obtain rfl := Option.some.inj (htwo.symm.trans hscan)
  have hpiece := @twoPieces_holds (List.replicate 13 97 ++ [98]) 0 (by decide) (by decide)
    (by decide)
  exact absurd (hpiece.unique hholds) (by decide)

end Painting.Directory
