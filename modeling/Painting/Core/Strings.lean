import Mathlib

/-!
# C strings

A buffer is a function from offsets to bytes, and a C string the list of its bytes before
the first 0.  `strlen` and `strncpy` are those of `string.c`.
-/

namespace Painting.Strings

abbrev Buffer := ℕ → UInt8

/-- A buffer with the bytes of the list and zeros after them. -/
def ofList (text : List UInt8) : Buffer := fun i => text.getD i 0

/-- The buffer starts with the C string `text`. -/
structure Holds (buffer : Buffer) (text : List UInt8) : Prop where
  nonzero : 0 ∉ text
  bytes : ∀ i ≤ text.length, buffer i = text.getD i 0

/-- The loop of `strlen` from `idx` on, in a buffer with `rounds` bytes left. -/
def strlenLoop (s : Buffer) (idx : ℕ) : ℕ → ℕ
  | 0 => idx
  | rounds + 1 => if s idx ≠ 0 then strlenLoop s (idx + 1) rounds else idx

/-- `strlen` of a string in a buffer of `size` bytes. -/
def strlen (s : Buffer) (size : ℕ) : ℕ := strlenLoop s 0 size

/-- The loop of `strncpy` with `n` bytes left: the index where it stops, and the copy. -/
def strncpyLoop (src : ℕ → UInt8) : ℕ → ℕ → (ℕ → UInt8) → ℕ × (ℕ → UInt8)
  | 0, idx, dst => (idx, dst)
  | n + 1, idx, dst =>
      let dst := Function.update dst idx (src idx)
      if src idx ≠ 0 then strncpyLoop src n (idx + 1) dst else (idx, dst)

/-- `strncpy`. -/
def strncpy (dst src : ℕ → UInt8) (n : ℕ) : ℕ → UInt8 :=
  if n = 0 then dst
  else
    let (idx, dst) := strncpyLoop src n 0 dst
    Function.update dst idx 0

variable {buffer : Buffer} {text other : List UInt8}

theorem holds_ofList (hnonzero : 0 ∉ text) : Holds (ofList text) text :=
  ⟨hnonzero, fun _ _ => rfl⟩

theorem Holds.char (hholds : Holds buffer text) {i : ℕ} (hi : i < text.length) :
    buffer i = text[i] := by
  rw [hholds.bytes i hi.le, List.getD_eq_getElem _ _ hi]

theorem Holds.ne_zero (hholds : Holds buffer text) {i : ℕ} (hi : i < text.length) :
    buffer i ≠ 0 := by
  rw [hholds.char hi]
  exact fun hzero => hholds.nonzero (hzero ▸ List.getElem_mem hi)

theorem Holds.terminator (hholds : Holds buffer text) : buffer text.length = 0 := by
  rw [hholds.bytes _ le_rfl, List.getD_eq_default _ _ le_rfl]

/-- A buffer starts with one C string only. -/
theorem Holds.unique (hleft : Holds buffer text) (hright : Holds buffer other) : text = other := by
  have hlength : text.length = other.length := by
    by_contra hne
    obtain hlt | hlt := Nat.lt_or_gt_of_ne hne
    · exact hright.ne_zero hlt hleft.terminator
    · exact hleft.ne_zero hlt hright.terminator
  apply List.ext_getElem hlength
  intro i hi hi'
  rw [← hleft.char hi, hright.char hi']

theorem Holds.eq_nil_iff (hholds : Holds buffer text) : text = [] ↔ buffer 0 = 0 := by
  constructor
  · rintro rfl
    exact hholds.terminator
  · intro hzero
    by_contra hne
    exact hholds.ne_zero (List.length_pos_of_ne_nil hne) hzero

theorem Holds.congr {buffer' : Buffer} (hholds : Holds buffer text)
    (hsame : ∀ i ≤ text.length, buffer' i = buffer i) : Holds buffer' text :=
  ⟨hholds.nonzero, fun i hi => (hsame i hi).trans (hholds.bytes i hi)⟩

/-- The string that a buffer starts with, when one of its first `size` bytes is 0. -/
def toList (buffer : Buffer) : ℕ → List UInt8
  | 0 => []
  | size + 1 =>
      if buffer 0 ≠ 0 then buffer 0 :: toList (fun i => buffer (i + 1)) size else []

theorem holds_toList {size i : ℕ} (hi : i < size) (hzero : buffer i = 0) :
    Holds buffer (toList buffer size) := by
  induction size generalizing buffer i with
  | zero => omega
  | succ size ih =>
      rw [toList]
      split
      · rename_i hhead
        obtain ⟨i, rfl⟩ : ∃ j, i = j + 1 := by
          refine Nat.exists_eq_succ_of_ne_zero ?_
          rintro rfl
          exact hhead hzero
        obtain ⟨hnonzero, hbytes⟩ := @ih (fun i => buffer (i + 1)) i (by omega) hzero
        refine ⟨?_, fun j hj => ?_⟩
        · rw [List.mem_cons, not_or]
          exact ⟨fun heq => hhead heq.symm, hnonzero⟩
        · cases j with
          | zero => rfl
          | succ j => exact hbytes j (by simpa using hj)
      · rename_i hhead
        refine ⟨List.not_mem_nil, fun j hj => ?_⟩
        obtain rfl : j = 0 := Nat.le_zero.mp hj
        exact not_not.mp hhead

theorem Holds.strlen (hholds : Holds buffer text) {size : ℕ} (hsize : text.length ≤ size) :
    strlen buffer size = text.length := by
  suffices hloop : ∀ rounds idx, idx ≤ text.length → text.length ≤ idx + rounds →
      strlenLoop buffer idx rounds = text.length from hloop size 0 (Nat.zero_le _) (by omega)
  intro rounds
  induction rounds with
  | zero =>
      intro idx hlo hhi
      rw [strlenLoop]
      omega
  | succ rounds ih =>
      intro idx hlo hhi
      obtain rfl | hlt := Nat.eq_or_lt_of_le hlo
      · rw [strlenLoop, if_neg (not_not.mpr hholds.terminator)]
      · rw [strlenLoop, if_pos (hholds.ne_zero hlt)]
        exact ih _ hlt (by omega)

theorem strncpyLoop_eq {src : Buffer} {n : ℕ} (hsrc : ∀ k < n, src k ≠ 0) {rounds idx : ℕ}
    (hidx : idx + rounds = n) (dst : Buffer) :
    strncpyLoop src rounds idx dst = (n, fun i => if idx ≤ i ∧ i < n then src i else dst i) := by
  induction rounds generalizing idx dst with
  | zero =>
      obtain rfl : idx = n := hidx
      rw [strncpyLoop]
      congr 1
      funext i
      rw [if_neg (by omega)]
  | succ rounds ih =>
      rw [strncpyLoop, if_pos (hsrc idx (by omega)), ih (by omega)]
      congr 1
      funext i
      by_cases hi : i = idx
      · subst hi
        rw [if_neg (by omega), if_pos (by omega), Function.update_self]
      · rw [Function.update_of_ne hi]
        exact if_congr (by omega) rfl rfl

/-- A copy of `n` bytes that are not 0 is followed by a 0. -/
theorem strncpy_apply {src : Buffer} {n : ℕ} (hn : n ≠ 0) (hsrc : ∀ k < n, src k ≠ 0)
    (dst : Buffer) (i : ℕ) :
    strncpy dst src n i = if i < n then src i else if i = n then 0 else dst i := by
  rw [strncpy, if_neg hn, strncpyLoop_eq hsrc (Nat.zero_add n)]
  dsimp only
  by_cases hi : i = n
  · rw [hi, Function.update_self, if_neg (lt_irrefl n), if_pos rfl]
  · rw [Function.update_of_ne hi, if_neg hi]
    exact if_congr (by omega) rfl rfl

/-- A copy of a string as long as the string holds it. -/
theorem Holds.strncpy (hholds : Holds buffer text) (hne : text ≠ []) (dst : Buffer) :
    Holds (strncpy dst buffer text.length) text ∧
      ∀ i, text.length < i → Strings.strncpy dst buffer text.length i = dst i := by
  have hlength : text.length ≠ 0 := by simpa using hne
  have happly := strncpy_apply hlength (fun k hk => hholds.ne_zero hk) dst
  refine ⟨⟨hholds.nonzero, fun i hi => ?_⟩, fun i hi => ?_⟩
  · rw [happly]
    obtain rfl | hlt := Nat.eq_or_lt_of_le hi
    · rw [if_neg (lt_irrefl _), if_pos rfl, List.getD_eq_default _ _ le_rfl]
    · rw [if_pos hlt, hholds.bytes i hi]
  · rw [happly, if_neg (by omega), if_neg (by omega)]

end Painting.Strings
