import Painting.Core.Strings
import Painting.Fs.Descriptors

/-!
# What `strncmp` reads

`kernel/string.c` and `user/string.c` hold the same text of `strncmp`.  Its loop looks at both
characters before it compares the index with `len`, and the code behind the loop tells a string
that has ended from one that has not by the byte at `len`, not by the byte where the loop stopped.
Here the comparison is followed together with the bytes that it reads.
-/

namespace Painting.StringCompare

open Painting.Strings

/-! ## The code -/

/-- A result of `strncmp`, with the indices at which the two strings have been read. -/
structure Compared where
  value : ℤ
  reads1 : List ℕ
  reads2 : List ℕ

/-- The same result, with reads that came before. -/
def Compared.after (reads1 reads2 : List ℕ) (compared : Compared) : Compared :=
  ⟨compared.value, reads1 ++ compared.reads1, reads2 ++ compared.reads2⟩

/-- What follows the loop, which has stopped at `idx`. -/
def strncmpTail (s1 s2 : Buffer) (len idx : ℕ) : Compared :=
  if len ≤ idx then ⟨0, [], []⟩
  else if s1 len ≠ 0 then ⟨(s1 idx).toNat, [len, idx], []⟩
  else ⟨(s2 idx).toNat, [len], [idx]⟩

/-- The function from the loop test at `idx` on, with `count = len - idx` rounds left.  The second
string is not read when the first has ended, and both are read before the index is tested. -/
def strncmpLoop (s1 s2 : Buffer) (len idx : ℕ) : ℕ → Compared
  | 0 =>
      if s1 idx ≠ 0 then (strncmpTail s1 s2 len idx).after [idx] [idx]
      else (strncmpTail s1 s2 len idx).after [idx] []
  | count + 1 =>
      if s1 idx ≠ 0 then
        if s2 idx ≠ 0 then
          if s1 idx ≠ s2 idx then
            ⟨(s1 idx).toNat - (s2 idx).toNat, [idx, idx, idx], [idx, idx, idx]⟩
          else (strncmpLoop s1 s2 len (idx + 1) count).after [idx, idx] [idx, idx]
        else (strncmpTail s1 s2 len idx).after [idx] [idx]
      else (strncmpTail s1 s2 len idx).after [idx] []

/-- `strncmp` of `kernel/string.c`. -/
def Kernel.strncmp (s1 s2 : Buffer) (len : ℕ) : Compared := strncmpLoop s1 s2 len 0 len

/-- `strncmp` of `user/string.c`. -/
def User.strncmp (s1 s2 : Buffer) (len : ℕ) : Compared := strncmpLoop s1 s2 len 0 len

/-- What a comparison of the first `len` characters is to give and may read. -/
structure Compared.Exact (compared : Compared) (text1 text2 : List UInt8) (len : ℕ) : Prop where
  zero_iff : compared.value = 0 ↔ text1.take len = text2.take len
  sign : ∀ k < len, text1.take k = text2.take k → text1.getD k 0 ≠ text2.getD k 0 →
    (0 < compared.value ↔ text2.getD k 0 < text1.getD k 0) ∧
      (compared.value < 0 ↔ text1.getD k 0 < text2.getD k 0)
  reads1 : ∀ i ∈ compared.reads1, i ≤ text1.length ∧ i < len
  reads2 : ∀ i ∈ compared.reads2, i ≤ text2.length ∧ i < len

/-- Two strings differ within their first `len` characters before either has ended. -/
def DifferInside (text1 text2 : List UInt8) (len : ℕ) : Prop :=
  ∃ k < len, k < text1.length ∧ k < text2.length ∧ text1.take k = text2.take k ∧
    text1.getD k 0 ≠ text2.getD k 0

/-! ## The value -/

section Value

variable {s1 s2 : Buffer} {len : ℕ}

theorem strncmpTail_value (idx : ℕ) : (strncmpTail s1 s2 len idx).value =
    if len ≤ idx then 0 else if s1 len ≠ 0 then ((s1 idx).toNat : ℤ) else (s2 idx).toNat := by
  rw [strncmpTail]
  split_ifs <;> rfl

theorem strncmpLoop_value {idx count : ℕ} (hlen : idx + count = len) :
    (strncmpLoop s1 s2 len idx count).value =
      (Descriptors.strncmpLoop s1 s2 idx count).elim
        (fun idx => (strncmpTail s1 s2 len idx).value) id := by
  induction count generalizing idx with
  | zero =>
      rw [strncmpLoop, Descriptors.strncmpLoop]
      split_ifs <;> rfl
  | succ count ih =>
      rw [strncmpLoop, Descriptors.strncmpLoop]
      by_cases hboth : s1 idx ≠ 0 ∧ s2 idx ≠ 0
      · rw [if_pos hboth.1, if_pos hboth.2, if_pos hboth]
        by_cases hne : s1 idx ≠ s2 idx
        · rw [if_pos hne, if_pos hne]
          rfl
        · rw [if_neg hne, if_neg hne]
          exact ih (by omega)
      · rw [if_neg hboth]
        by_cases hend : s1 idx ≠ 0
        · rw [if_pos hend, if_neg fun hother => hboth ⟨hend, hother⟩]
          rfl
        · rw [if_neg hend]
          rfl

/-- The comparison used by the file system and the boot code is the value of this one. -/
theorem strncmp_value (s1 s2 : Buffer) (len : ℕ) :
    (Kernel.strncmp s1 s2 len).value = Descriptors.strncmp s1 s2 len := by
  rw [Kernel.strncmp, strncmpLoop_value (Nat.zero_add len), Descriptors.strncmp]
  cases Descriptors.strncmpLoop s1 s2 0 len with
  | inl idx => exact strncmpTail_value idx
  | inr difference => rfl

end Value

/-! ## The claimed comparison -/

section Exact

variable {s1 s2 : Buffer} {text1 text2 : List UInt8} {len idx : ℕ}

theorem getD_eq_of_take_eq {i : ℕ} (htake : text1.take idx = text2.take idx) (hi : i < idx) :
    text1.getD i 0 = text2.getD i 0 := by
  have hat : ∀ text : List UInt8, text.getD i 0 = (text.take idx).getD i 0 := by
    intro text
    rw [List.getD_eq_getElem?_getD, List.getD_eq_getElem?_getD, List.getElem?_take_of_lt hi]
  rw [hat text1, hat text2, htake]

/-- Strings differ for the first time at one place only. -/
theorem first_difference_unique {k : ℕ} (hk : text1.take k = text2.take k)
    (hkne : text1.getD k 0 ≠ text2.getD k 0) (hidx : text1.take idx = text2.take idx)
    (hidxne : text1.getD idx 0 ≠ text2.getD idx 0) : k = idx := by
  obtain hlt | heq | hlt := Nat.lt_trichotomy k idx
  · exact absurd (getD_eq_of_take_eq hidx hlt) hkne
  · exact heq
  · exact absurd (getD_eq_of_take_eq hk hlt) hidxne

/-- No difference before `idx`: one inside both strings is at `idx` or after it. -/
theorem DifferInside.from_idx (hdiffer : DifferInside text1 text2 len)
    (htake : text1.take idx = text2.take idx) :
    idx < len ∧ idx < text1.length ∧ idx < text2.length := by
  obtain ⟨k, hlen, hk1, hk2, -, hne⟩ := hdiffer
  have hidx : idx ≤ k := by
    by_contra hlt
    exact hne (getD_eq_of_take_eq htake (by omega))
  exact ⟨hidx.trans_lt hlen, hidx.trans_lt hk1, hidx.trans_lt hk2⟩

theorem after_exact_iff {compared : Compared} {reads1 reads2 : List ℕ}
    (h1 : ∀ i ∈ reads1, i ≤ text1.length ∧ i < len)
    (h2 : ∀ i ∈ reads2, i ≤ text2.length ∧ i < len) :
    (compared.after reads1 reads2).Exact text1 text2 len ↔ compared.Exact text1 text2 len := by
  constructor
  · intro hexact
    exact ⟨hexact.zero_iff, hexact.sign,
      fun i hi => hexact.reads1 i (List.mem_append_right _ hi),
      fun i hi => hexact.reads2 i (List.mem_append_right _ hi)⟩
  · intro hexact
    refine ⟨hexact.zero_iff, hexact.sign, fun i hi => ?_, fun i hi => ?_⟩
    · exact (List.mem_append.mp hi).elim (h1 i) (hexact.reads1 i)
    · exact (List.mem_append.mp hi).elim (h2 i) (hexact.reads2 i)

/-- Behind the loop the first string is read at `len`. -/
theorem strncmpTail_not_exact (reads1 reads2 : List ℕ) (hidx : idx < len) :
    ¬ ((strncmpTail s1 s2 len idx).after reads1 reads2).Exact text1 text2 len := by
  have hread : len ∈ (strncmpTail s1 s2 len idx).reads1 := by
    rw [strncmpTail, if_neg (not_le.mpr hidx)]
    split_ifs <;> exact List.mem_cons_self
  intro hexact
  exact (hexact.reads1 len (List.mem_append_right _ hread)).2.ne rfl

/-- At the first difference inside both strings the loop returns it. -/
theorem difference_exact (hidx : idx < len) (hidx1 : idx < text1.length)
    (hidx2 : idx < text2.length) (htake : text1.take idx = text2.take idx)
    (hne : text1.getD idx 0 ≠ text2.getD idx 0) :
    Compared.Exact ⟨((text1.getD idx 0).toNat : ℤ) - (text2.getD idx 0).toNat, [idx, idx, idx],
      [idx, idx, idx]⟩ text1 text2 len := by
  have hreads : ∀ i ∈ [idx, idx, idx], i = idx := by
    simp
  refine ⟨iff_of_false ?_ ?_, fun k _ hk hkne => ?_, fun i hi => ?_, fun i hi => ?_⟩
  · dsimp only
    rw [sub_eq_zero]
    exact fun hsame => hne (UInt8.toNat.inj (Int.ofNat.inj hsame))
  · exact fun hsame => hne (getD_eq_of_take_eq hsame hidx)
  · rw [first_difference_unique hk hkne htake hne, UInt8.lt_iff_toNat_lt, UInt8.lt_iff_toNat_lt]
    dsimp only
    omega
  · rw [hreads i hi]
    exact ⟨hidx1.le, hidx⟩
  · rw [hreads i hi]
    exact ⟨hidx2.le, hidx⟩

/-- The invariant of the loop is that there is no difference before `idx`. -/
theorem strncmpLoop_exact_iff (h1 : Holds s1 text1) (h2 : Holds s2 text2) {count : ℕ}
    (hidx1 : idx ≤ text1.length) (hidx2 : idx ≤ text2.length)
    (htake : text1.take idx = text2.take idx) (hlen : idx + count = len) :
    (strncmpLoop s1 s2 len idx count).Exact text1 text2 len ↔ DifferInside text1 text2 len := by
  have hread1 : s1 idx = text1.getD idx 0 := h1.bytes idx hidx1
  have hread2 : s2 idx = text2.getD idx 0 := h2.bytes idx hidx2
  induction count generalizing idx with
  | zero =>
      refine iff_of_false (fun hexact => ?_) fun hdiffer => ?_
      · have hlast : idx ∈ (strncmpLoop s1 s2 len idx 0).reads1 := by
          rw [strncmpLoop]
          split_ifs <;> exact List.mem_cons_self
        exact absurd (hexact.reads1 idx hlast).2 (by omega)
      · exact absurd (hdiffer.from_idx htake).1 (by omega)
  | succ count ih =>
      rw [strncmpLoop]
      by_cases hend1 : s1 idx ≠ 0
      · have hlt1 : idx < text1.length := by
          refine lt_of_le_of_ne hidx1 fun heq => hend1 ?_
          rw [heq, h1.terminator]
        rw [if_pos hend1]
        by_cases hend2 : s2 idx ≠ 0
        · have hlt2 : idx < text2.length := by
            refine lt_of_le_of_ne hidx2 fun heq => hend2 ?_
            rw [heq, h2.terminator]
          rw [if_pos hend2]
          by_cases hne : s1 idx ≠ s2 idx
          · rw [if_pos hne]
            rw [hread1, hread2] at hne ⊢
            exact iff_of_true (difference_exact (by omega) hlt1 hlt2 htake hne)
              ⟨idx, by omega, hlt1, hlt2, htake, hne⟩
          · rw [if_neg hne]
            have hnext : text1.take (idx + 1) = text2.take (idx + 1) := by
              rw [not_not, hread1, hread2, List.getD_eq_getElem _ _ hlt1,
                List.getD_eq_getElem _ _ hlt2] at hne
              rw [List.take_succ_eq_append_getElem hlt1, List.take_succ_eq_append_getElem hlt2,
                htake, hne]
            refine (after_exact_iff ?_ ?_).trans (ih hlt1 hlt2 hnext (by omega)
              (h1.bytes _ hlt1) (h2.bytes _ hlt2))
            · simpa using ⟨hidx1, by omega⟩
            · simpa using ⟨hidx2, by omega⟩
        · rw [if_neg hend2]
          refine iff_of_false (strncmpTail_not_exact _ _ (by omega)) fun hdiffer => ?_
          exact hend2 (h2.ne_zero (hdiffer.from_idx htake).2.2)
      · rw [if_neg hend1]
        refine iff_of_false (strncmpTail_not_exact _ _ (by omega)) fun hdiffer => ?_
        exact hend1 (h1.ne_zero (hdiffer.from_idx htake).2.1)

/-- The comparison of the kernel and that of the user library are exact, in what they give and in
what they read, just when the strings differ inside both of them and before `len`. -/
theorem strncmp_exact_iff (h1 : Holds s1 text1) (h2 : Holds s2 text2) :
    ((Kernel.strncmp s1 s2 len).Exact text1 text2 len ↔ DifferInside text1 text2 len) ∧
      ((User.strncmp s1 s2 len).Exact text1 text2 len ↔ DifferInside text1 text2 len) :=
  ⟨strncmpLoop_exact_iff h1 h2 (Nat.zero_le _) (Nat.zero_le _) rfl (Nat.zero_add len),
    strncmpLoop_exact_iff h1 h2 (Nat.zero_le _) (Nat.zero_le _) rfl (Nat.zero_add len)⟩

end Exact

/-! ## Two comparisons -/

theorem strncmp_exact_binCon :
    (Kernel.strncmp (ofList [98, 105, 110]) (ofList [99, 111, 110]) 3).Exact
      [98, 105, 110] [99, 111, 110] 3 :=
  (strncmp_exact_iff (holds_ofList (by decide)) (holds_ofList (by decide))).1.mpr
    ⟨0, by decide, by decide, by decide, rfl, by decide⟩

/-- `a` comes before `ab`, but the result is positive. -/
theorem strncmp_not_exact_prefix :
    ¬ (Kernel.strncmp (ofList [97]) (ofList [97, 98]) 2).Exact [97] [97, 98] 2 ∧
      ¬ (User.strncmp (ofList [97]) (ofList [97, 98]) 2).Exact [97] [97, 98] 2 := by
  have hwrong : ∀ compared : Compared, compared.value = 98 →
      ¬ compared.Exact [97] [97, 98] 2 := by
    intro compared hvalue hexact
    have hsign := (hexact.sign 1 (by decide) rfl (by decide)).1
    rw [hvalue] at hsign
    exact absurd (hsign.mp (by decide)) (by decide)
  exact ⟨hwrong _ (by decide), hwrong _ (by decide)⟩

end Painting.StringCompare
