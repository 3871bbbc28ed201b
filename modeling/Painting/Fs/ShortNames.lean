import Painting.Fs.DirectoryListing

/-!
# Writing a short name

`write_fat32_short_name` spreads a C string over the eleven bytes of a directory entry and
`read_fat32_short_name` puts it together again.  The writer looks for the end of the extension from
the byte behind the dot on; in a name without a dot that is the byte behind the terminator.
-/

namespace Painting.Directory

open Painting.Strings

/-! ## The code -/

/-- The dot between a name and its extension. -/
def dot : UInt8 := 0x2e

/-- A loop `for (; !stop(src[i]); i++)` over a string with `rounds` bytes of memory left; `none`
when it leaves the memory. -/
def scanUntil (stop : UInt8 → Bool) (src : Buffer) (i : ℕ) : ℕ → Option ℕ
  | 0 => none
  | rounds + 1 => if stop (src i) then some i else scanUntil stop src (i + 1) rounds

/-- A loop that fills `count` bytes of the entry from `first + i` on: the `len` characters from
`start` on, and spaces after them. -/
def fillField (src : Buffer) (first start len : ℕ) (dst : Buffer) (i : ℕ) : ℕ → Buffer
  | 0 => dst
  | count + 1 =>
      fillField src first start len
        (Function.update dst (first + i) (if i < len then src (start + i) else fatdirDlt)) (i + 1)
        count

/-- `write_fat32_short_name` of a string with `size` bytes of memory from its start on. -/
def writeFat32ShortName (size : ℕ) (dst : Slot) (src : Buffer) : Option Slot := do
  let name ← scanUntil (fun c => c = dot ∨ c = 0) src 0 size
  let attr ← scanUntil (fun c => c = 0) src (name + 1) (size - (name + 1))
  let attr := attr - name - 1
  some (fillField src 8 (name + 1) attr (fillField src 0 0 name dst 0 8) 0 3)

/-! ## Names of one to eight characters with an extension of up to three -/

structure ShortName where
  base : List UInt8
  ext : List UInt8
  base_pos : 1 ≤ base.length
  base_le : base.length ≤ 8
  ext_le : ext.length ≤ 3
  plain : ∀ c ∈ base ++ ext, c ≠ 0 ∧ c ≠ dot ∧ c ≠ fatdirDlt

/-- The name as it is typed. -/
def ShortName.text (name : ShortName) : List UInt8 :=
  name.base ++ if name.ext = [] then [] else dot :: name.ext

/-- Characters followed by spaces, `width` bytes in all. -/
def padded (chars : List UInt8) (width : ℕ) : List UInt8 :=
  chars ++ List.replicate (width - chars.length) fatdirDlt

/-- The eleven bytes that stand for a name. -/
def ShortName.columns (name : ShortName) : List UInt8 := padded name.base 8 ++ padded name.ext 3

/-- The name is written as its eleven bytes and is read back from them. -/
def RoundTrips (name : ShortName) (size : ℕ) (src : Buffer) (entry read : Buffer) : Prop :=
  ∃ written, writeFat32ShortName size entry src = some written ∧
    (∀ i < shortNameLen, written i = name.columns.getD i 0) ∧
    Holds (readFat32ShortName read written) name.text

/-- Behind the terminator only spaces come before the next 0, at least where the writer copies
them. -/
def BlankBehind (src : Buffer) (size last : ℕ) : Prop :=
  ∃ stop < size, last < stop ∧ src stop = 0 ∧ (∀ i < stop, last < i → src i ≠ 0) ∧
    ∀ i < stop, last < i → i ≤ last + 3 → src i = fatdirDlt

/-! ## The loops -/

theorem scanUntil_eq_some_iff {stop : UInt8 → Bool} {src : Buffer} {i n rounds : ℕ} :
    scanUntil stop src i rounds = some n ↔
      i ≤ n ∧ n < i + rounds ∧ stop (src n) ∧ ∀ k < n, i ≤ k → ¬ stop (src k) := by
  induction rounds generalizing i with
  | zero =>
      rw [scanUntil]
      exact iff_of_false (Option.some_ne_none n).symm fun hscan => by omega
  | succ rounds ih =>
      rw [scanUntil]
      by_cases hstop : stop (src i)
      · rw [if_pos hstop, Option.some_inj]
        constructor
        · rintro rfl
          exact ⟨le_rfl, by omega, hstop, fun k hk hi => absurd hi (by omega)⟩
        · intro hscan
          by_contra hne
          exact hscan.2.2.2 i (lt_of_le_of_ne hscan.1 hne) le_rfl hstop
      · rw [if_neg hstop, ih]
        constructor
        · intro hscan
          refine ⟨by omega, by omega, hscan.2.2.1, fun k hk hi => ?_⟩
          obtain rfl | hlt := Nat.eq_or_lt_of_le hi
          · exact hstop
          · exact hscan.2.2.2 k hk hlt
        · intro hscan
          have hne : i ≠ n := by
            rintro rfl
            exact hstop hscan.2.2.1
          exact ⟨by omega, by omega, hscan.2.2.1, fun k hk hi => hscan.2.2.2 k hk (by omega)⟩

theorem fillField_apply (src : Buffer) (first start len : ℕ) (dst : Buffer) (i count k : ℕ) :
    fillField src first start len dst i count k =
      if first + i ≤ k ∧ k < first + i + count then
        if k - first < len then src (start + (k - first)) else fatdirDlt
      else dst k := by
  induction count generalizing i dst with
  | zero =>
      rw [fillField, if_neg (by omega)]
  | succ count ih =>
      rw [fillField, ih]
      by_cases hk : k = first + i
      · subst hk
        have hin : first + i ≤ first + i ∧ first + i < first + i + (count + 1) :=
          ⟨le_rfl, by omega⟩
        rw [if_neg (by omega), Function.update_self, if_pos hin, Nat.add_sub_cancel_left]
      · rw [Function.update_of_ne hk]
        exact if_congr (by omega) rfl rfl

/-! ## Reading the columns -/

section Columns

variable {chars : List UInt8} {width : ℕ}

theorem length_padded (hle : chars.length ≤ width) : (padded chars width).length = width := by
  rw [padded, List.length_append, List.length_replicate]
  omega

theorem padded_getD {i : ℕ} (hi : i < width) :
    (padded chars width).getD i 0 = if i < chars.length then chars.getD i 0 else fatdirDlt := by
  rw [padded]
  split_ifs with hin
  · rw [List.getD_append _ _ _ _ hin]
  · rw [List.getD_append_right _ _ _ _ (not_lt.mp hin), List.getD_eq_getElem?_getD,
      List.getElem?_replicate_of_lt (by omega)]
    rfl

/-- Up to the first space the columns of a field hold its characters. -/
theorem untilSpace_padded {src : Slot} {i : ℕ} (hle : chars.length ≤ width)
    (hplain : fatdirDlt ∉ chars)
    (hsrc : ∀ j < width, src (i + j) = (padded chars width).getD j 0) :
    untilSpace src i width = chars := by
  induction width generalizing chars i with
  | zero =>
      rw [untilSpace, List.length_eq_zero_iff.mp (Nat.le_zero.mp hle)]
  | succ width ih =>
      have hfirst := hsrc 0 (Nat.succ_pos width)
      rw [padded_getD (Nat.succ_pos width), Nat.add_zero] at hfirst
      rw [untilSpace]
      cases chars with
      | nil => exact if_pos hfirst
      | cons c chars =>
          obtain ⟨hc, hrest⟩ := not_or.mp (List.mem_cons.not.mp hplain)
          rw [if_pos (by simp), List.getD_cons_zero] at hfirst
          rw [hfirst, if_neg (Ne.symm hc), ih (Nat.le_of_succ_le_succ hle) hrest]
          intro j hj
          rw [Nat.add_assoc, Nat.add_comm 1, hsrc (j + 1) (Nat.succ_lt_succ hj),
            padded_getD (Nat.succ_lt_succ hj), padded_getD hj, List.length_cons,
            List.getD_cons_succ]
          exact if_congr (Nat.succ_lt_succ_iff) rfl rfl

end Columns

section Name

variable {name : ShortName}

theorem ShortName.base_plain (name : ShortName) {c : UInt8} (hc : c ∈ name.base) :
    c ≠ 0 ∧ c ≠ dot ∧ c ≠ fatdirDlt :=
  name.plain c (List.mem_append_left _ hc)

theorem ShortName.ext_plain (name : ShortName) {c : UInt8} (hc : c ∈ name.ext) :
    c ≠ 0 ∧ c ≠ dot ∧ c ≠ fatdirDlt :=
  name.plain c (List.mem_append_right _ hc)

theorem ShortName.columns_base (name : ShortName) {i : ℕ} (hi : i < 8) :
    name.columns.getD i 0 = (padded name.base 8).getD i 0 :=
  List.getD_append _ _ _ _ (by rwa [length_padded name.base_le])

theorem ShortName.columns_ext (name : ShortName) (i : ℕ) :
    name.columns.getD (8 + i) 0 = (padded name.ext 3).getD i 0 := by
  rw [ShortName.columns, List.getD_append_right _ _ _ _ (by
    rw [length_padded name.base_le]
    exact Nat.le_add_right 8 i), length_padded name.base_le, Nat.add_sub_cancel_left]

theorem ShortName.zero_notMem_text (name : ShortName) : 0 ∉ name.text := by
  rw [ShortName.text, List.mem_append]
  rintro (hbase | hext)
  · exact (name.base_plain hbase).1 rfl
  · split at hext
    · exact List.not_mem_nil hext
    · obtain hdot | hext := List.mem_cons.mp hext
      · exact absurd hdot (by decide)
      · exact (name.ext_plain hext).1 rfl

/-- The columns of a name are read as the name. -/
theorem ShortName.shortName_columns (name : ShortName) {entry : Slot}
    (hentry : ∀ i < shortNameLen, entry i = name.columns.getD i 0) :
    shortName entry = name.text := by
  have hbase : untilSpace entry 0 8 = name.base := by
    refine untilSpace_padded name.base_le (fun hmem => (name.base_plain hmem).2.2 rfl) ?_
    intro j hj
    rw [Nat.zero_add, hentry j (hj.trans (by decide)), name.columns_base hj]
  have hcolumn : ∀ j < 3, entry (8 + j) = (padded name.ext 3).getD j 0 := by
    intro j hj
    rw [hentry (8 + j) (by simp [shortNameLen]; omega), name.columns_ext]
  have hext : untilSpace entry 8 3 = name.ext :=
    untilSpace_padded name.ext_le (fun hmem => (name.ext_plain hmem).2.2 rfl) hcolumn
  have hfirst : entry 8 = fatdirDlt ↔ name.ext = [] := by
    have height := hcolumn 0 (by decide)
    rw [padded_getD (by decide), Nat.add_zero] at height
    rw [height]
    by_cases hnil : name.ext = []
    · simp [hnil]
    · have hpos : 0 < name.ext.length := List.length_pos_of_ne_nil hnil
      refine iff_of_false ?_ hnil
      rw [if_pos hpos, List.getD_eq_getElem _ _ hpos]
      exact (name.ext_plain (List.getElem_mem hpos)).2.2
  have hbytes : shortBytes entry = name.text := by
    rw [shortBytes, ShortName.text, hbase, hext]
    exact congrArg _ (if_congr hfirst rfl rfl)
  rw [shortName, hbytes, List.takeWhile_eq_self_iff]
  intro c hc
  have hne : c ≠ 0 := fun hzero => name.zero_notMem_text (hzero ▸ hc)
  simpa using hne

theorem ShortName.base_le_text (name : ShortName) : name.base.length ≤ name.text.length := by
  rw [ShortName.text, List.length_append]
  exact Nat.le_add_right _ _

theorem ShortName.text_of_nil (hext : name.ext = []) : name.text = name.base := by
  rw [ShortName.text, if_pos hext, List.append_nil]

theorem ShortName.length_text (hext : name.ext ≠ []) :
    name.text.length = name.base.length + 1 + name.ext.length := by
  rw [ShortName.text, if_neg hext, List.length_append, List.length_cons]
  omega

variable {src entry : Buffer} {size : ℕ}

theorem ShortName.src_base (hholds : Holds src name.text) {i : ℕ} (hi : i < name.base.length) :
    src i = name.base.getD i 0 := by
  rw [hholds.bytes i (hi.le.trans name.base_le_text), ShortName.text, List.getD_append _ _ _ _ hi]

theorem ShortName.src_ext (hholds : Holds src name.text) (hext : name.ext ≠ []) {j : ℕ}
    (hj : j < name.ext.length) : src (name.base.length + 1 + j) = name.ext.getD j 0 := by
  rw [hholds.bytes _ (by rw [name.length_text hext]; omega), ShortName.text, if_neg hext,
    List.getD_append_right _ _ _ _ (by omega),
    show name.base.length + 1 + j - name.base.length = j + 1 by omega, List.getD_cons_succ]

/-- The first loop stops behind the base name. -/
theorem ShortName.scan_base (hholds : Holds src name.text) (hsize : name.text.length < size) :
    scanUntil (fun c => c = dot ∨ c = 0) src 0 size = some name.base.length := by
  have hle := name.base_le_text
  refine scanUntil_eq_some_iff.mpr ⟨Nat.zero_le _, by omega, ?_, fun k hk _ => ?_⟩
  · rw [decide_eq_true_iff]
    by_cases hext : name.ext = []
    · have hend := hholds.terminator
      rw [name.text_of_nil hext] at hend
      exact Or.inr hend
    · left
      rw [hholds.bytes _ hle, ShortName.text, if_neg hext,
        List.getD_append_right _ _ _ _ le_rfl, Nat.sub_self, List.getD_cons_zero]
  · rw [name.src_base hholds hk, List.getD_eq_getElem _ _ hk, decide_eq_true_iff, not_or]
    have hplain := name.base_plain (List.getElem_mem hk)
    exact ⟨hplain.2.1, hplain.1⟩

/-- The entry that is written when the second loop stops at `stop`. -/
def ShortName.written (name : ShortName) (src entry : Buffer) (stop : ℕ) : Slot :=
  fillField src 8 (name.base.length + 1) (stop - name.base.length - 1)
    (fillField src 0 0 name.base.length entry 0 8) 0 3

theorem ShortName.write_eq (hholds : Holds src name.text) (hsize : name.text.length < size) :
    writeFat32ShortName size entry src =
      (scanUntil (fun c => c = 0) src (name.base.length + 1)
        (size - (name.base.length + 1))).map (name.written src entry) := by
  rw [writeFat32ShortName, name.scan_base hholds hsize, Option.bind_eq_bind, Option.bind_some]
  cases scanUntil (fun c => c = 0) src (name.base.length + 1) (size - (name.base.length + 1)) with
  | none => rfl
  | some stop => rfl

/-- The base name is always written in its columns, so the extension decides. -/
theorem ShortName.written_columns (hholds : Holds src name.text) (entry : Buffer) (stop : ℕ) :
    (∀ i < shortNameLen, name.written src entry stop i = name.columns.getD i 0) ↔
      ∀ j < 3, (if j < stop - name.base.length - 1 then src (name.base.length + 1 + j)
        else fatdirDlt) = (padded name.ext 3).getD j 0 := by
  have hbase : ∀ i < 8, name.written src entry stop i = name.columns.getD i 0 := by
    intro i hi
    rw [ShortName.written, fillField_apply, if_neg (by omega), fillField_apply,
      if_pos (show 0 + 0 ≤ i ∧ i < 0 + 0 + 8 by omega), name.columns_base hi, padded_getD hi,
      Nat.sub_zero, Nat.zero_add]
    split_ifs with hin
    · exact name.src_base hholds hin
    · rfl
  have hext : ∀ j < 3, name.written src entry stop (8 + j) =
      if j < stop - name.base.length - 1 then src (name.base.length + 1 + j)
      else fatdirDlt := by
    intro j hj
    rw [ShortName.written, fillField_apply, if_pos (by omega), Nat.add_sub_cancel_left]
  constructor
  · intro hall j hj
    rw [← hext j hj, hall _ (by simp [shortNameLen]; omega), name.columns_ext]
  · intro hall i hi
    obtain hlt | ⟨j, rfl⟩ : i < 8 ∨ ∃ j, i = 8 + j := by
      by_cases hlt : i < 8
      · exact Or.inl hlt
      · exact Or.inr ⟨i - 8, by omega⟩
    · exact hbase i hlt
    · have hj : j < 3 := by
        simp only [shortNameLen] at hi
        omega
      rw [hext j hj, hall j hj, name.columns_ext]

theorem ShortName.roundTrips_iff (hholds : Holds src name.text) (hsize : name.text.length < size)
    (read : Buffer) :
    RoundTrips name size src entry read ↔
      ∃ stop, scanUntil (fun c => c = 0) src (name.base.length + 1)
          (size - (name.base.length + 1)) = some stop ∧
        ∀ j < 3, (if j < stop - name.base.length - 1 then src (name.base.length + 1 + j)
          else fatdirDlt) = (padded name.ext 3).getD j 0 := by
  rw [RoundTrips, name.write_eq hholds hsize]
  constructor
  · intro htrip
    obtain ⟨written, hwrite, hcolumns, -⟩ := htrip
    obtain ⟨stop, hstop, rfl⟩ := Option.map_eq_some_iff.mp hwrite
    exact ⟨stop, hstop, (name.written_columns hholds entry stop).mp hcolumns⟩
  · intro hscan
    obtain ⟨stop, hstop, hall⟩ := hscan
    have hcolumns := (name.written_columns hholds entry stop).mpr hall
    refine ⟨_, Option.map_eq_some_iff.mpr ⟨stop, hstop, rfl⟩, hcolumns, ?_⟩
    have hread := readFat32ShortName_holds read (name.written src entry stop)
    rwa [name.shortName_columns hcolumns] at hread

/-- A short name survives writing and reading just when it has an extension, or when there are only
spaces behind it in memory. -/
theorem shortName_roundTrips_iff (name : ShortName) (hholds : Holds src name.text)
    (hsize : name.text.length < size) (entry read : Buffer) :
    RoundTrips name size src entry read ↔
      name.ext ≠ [] ∨ BlankBehind src size name.text.length := by
  rw [name.roundTrips_iff hholds hsize]
  by_cases hext : name.ext = []
  · rw [name.text_of_nil hext] at hsize ⊢
    have hpadded : ∀ j < 3, (padded name.ext 3).getD j 0 = fatdirDlt := by
      intro j hj
      rw [padded_getD hj, hext]
      exact if_neg (Nat.not_lt_zero j)
    constructor
    · intro hscan
      obtain ⟨stop, hstop, hall⟩ := hscan
      obtain ⟨hlo, hhi, hzero, hbefore⟩ := scanUntil_eq_some_iff.mp hstop
      refine Or.inr ⟨stop, by omega, by omega, by simpa using hzero, fun i hi hlast => ?_,
        fun i hi hlast hnear => ?_⟩
      · simpa using hbefore i hi hlast
      · obtain ⟨j, rfl⟩ : ∃ j, i = name.base.length + 1 + j :=
          ⟨i - (name.base.length + 1), by omega⟩
        have hj : j < 3 := by omega
        have hcolumn := hall j hj
        rwa [if_pos (by omega), hpadded j hj] at hcolumn
    · intro hblank
      obtain hne | ⟨stop, hhi, hlo, hzero, hbefore, hspaces⟩ := hblank
      · exact absurd hext hne
      · refine ⟨stop, scanUntil_eq_some_iff.mpr ⟨hlo, by omega, by simpa using hzero,
          fun k hk hi => by simpa using hbefore k hk hi⟩, fun j hj => ?_⟩
        rw [hpadded j hj]
        split_ifs with hin
        · exact hspaces _ (by omega) (by omega) (by omega)
        · rfl
  · refine iff_of_true ⟨name.text.length, ?_, fun j hj => ?_⟩ (Or.inl hext)
    · have hlength := name.length_text hext
      refine scanUntil_eq_some_iff.mpr ⟨by omega, by omega, ?_, fun k hk _ => ?_⟩
      · simpa using hholds.terminator
      · simpa using hholds.ne_zero hk
    · have hlength : name.text.length - name.base.length - 1 = name.ext.length := by
        rw [name.length_text hext]
        omega
      rw [padded_getD hj, hlength]
      split_ifs with hin
      · exact name.src_ext hholds hext hin
      · rfl

end Name

/-! ## Two names -/

/-- `A.C` -/
def dotted : ShortName := ⟨[65], [67], by decide, by decide, by decide, by simp [dot, fatdirDlt]⟩

/-- `A` -/
def undotted : ShortName := ⟨[65], [], by decide, by decide, by decide, by simp [dot, fatdirDlt]⟩

theorem dotted_roundTrips : RoundTrips dotted 4 (ofList [65, 46, 67]) (ofList []) (ofList []) :=
  (shortName_roundTrips_iff dotted (holds_ofList (by decide)) (by decide) _ _).mpr
    (Or.inl (by decide))

theorem undotted_holds : Holds (ofList [65, 0, 66]) undotted.text := by
  refine ⟨by decide, fun i hi => ?_⟩
  have hle : i ≤ 1 := hi
  interval_cases i <;> rfl

/-- The byte behind the terminator becomes the extension, and `A` is read back as `A.B`. -/
theorem undotted_not_roundTrips :
    ¬ RoundTrips undotted 4 (ofList [65, 0, 66]) (ofList []) (ofList []) := by
  have hbytes : ∀ written, writeFat32ShortName 4 (ofList []) (ofList [65, 0, 66]) =
      some written → written 8 = 66 := by
    intro written hwrite
    rw [undotted.write_eq undotted_holds (by decide)] at hwrite
    obtain ⟨stop, hstop, rfl⟩ := Option.map_eq_some_iff.mp hwrite
    obtain rfl : 3 = stop := Option.some_inj.mp hstop
    rfl
  rintro ⟨written, hwrite, hcolumns, -⟩
  have height := hcolumns 8 (by decide)
  rw [hbytes written hwrite] at height
  exact absurd height (by decide)

end Painting.Directory
