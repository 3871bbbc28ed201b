import Painting.Sys.SysExec

/-!
# Strings from user memory

`transstr`, of which `sysfile.c` and `sysproc.c` hold a copy each, copies a string byte by byte.
When no 0 has come within `maxlen` bytes it puts one into the last byte of the buffer and reports
success, so a long string is cut off.
-/

namespace Painting.UserStrings

open Painting.Memory Painting.PageTable
open Painting.SysExec (ReadsBytes)

/-- The buffer holds the user's string at `uaddr` and its terminator. -/
def IsUserString (pm : Pm) (root uaddr : ℕ) (buf : List UInt8) : Prop :=
  ∃ text, 0 ∉ text ∧ buf = text ++ [0] ∧ ReadsBytes pm.mem root uaddr buf

/-- The buffer holds the first `maxlen - 1` characters of a longer string, and a terminator. -/
def IsCutString (pm : Pm) (root uaddr maxlen : ℕ) (buf : List UInt8) : Prop :=
  ∃ text byte, 0 ∉ text ∧ byte ≠ 0 ∧ buf = text ++ [0] ∧ text.length + 1 = maxlen ∧
    ReadsBytes pm.mem root uaddr (text ++ [byte])

/-- One of the first `maxlen` bytes, and of those up to the first 0, may not be read. -/
def RunsIntoFault (pm : Pm) (root uaddr maxlen : ℕ) : Prop :=
  ∃ text, 0 ∉ text ∧ text.length < maxlen ∧ ReadsBytes pm.mem root uaddr text ∧
    uaddr + text.length < maxVa ∧ ∀ byte, ¬ ReadsByte pm.mem root (uaddr + text.length) byte

/-! ## Runs of bytes -/

section Bytes

variable {mem : Mem} {root va : ℕ} {byte : UInt8} {bytes left right : List UInt8}

theorem readsBytes_nil (mem : Mem) (root va : ℕ) : ReadsBytes mem root va [] := by
  intro k byte hk
  simp at hk

theorem readsBytes_cons :
    ReadsBytes mem root va (byte :: bytes) ↔
      ReadsByte mem root va byte ∧ ReadsBytes mem root (va + 1) bytes := by
  constructor
  · intro hreads
    refine ⟨hreads 0 byte rfl, fun k b hk => ?_⟩
    have hnext := hreads (k + 1) b hk
    rwa [Nat.add_comm k 1, ← Nat.add_assoc] at hnext
  · intro hreads k b hk
    cases k with
    | zero =>
        obtain rfl := Option.some_inj.mp hk
        exact hreads.1
    | succ k =>
        rw [Nat.add_comm k 1, ← Nat.add_assoc]
        exact hreads.2 k b hk

theorem readsBytes_append :
    ReadsBytes mem root va (left ++ right) ↔
      ReadsBytes mem root va left ∧ ReadsBytes mem root (va + left.length) right := by
  induction left generalizing va with
  | nil => simp [readsBytes_nil]
  | cons b left ih =>
      rw [List.cons_append, readsBytes_cons, ih, readsBytes_cons, and_assoc, List.length_cons,
        Nat.add_assoc, Nat.add_comm 1]

theorem readsBytes_singleton : ReadsBytes mem root va [byte] ↔ ReadsByte mem root va byte := by
  rw [readsBytes_cons]
  exact and_iff_left (readsBytes_nil _ _ _)

theorem readsBytes_le_maxVa (hreads : ReadsBytes mem root va bytes) (hva : va < maxVa) :
    va + bytes.length ≤ maxVa := by
  induction bytes generalizing va with
  | nil => exact hva.le
  | cons b bytes ih =>
      obtain ⟨hbyte, hrest⟩ := readsBytes_cons.mp hreads
      rw [List.length_cons]
      obtain rfl | hne := eq_or_ne bytes []
      · exact hbyte.1
      · obtain ⟨c, rest, rfl⟩ := List.exists_cons_of_ne_nil hne
        have hlow := (readsBytes_cons.mp hrest).1.1
        have hle := ih hrest hlow
        omega

/-- The readable characters from `va` on: as many as asked for, or up to a 0 or a fault. -/
theorem exists_text (mem : Mem) (root va limit : ℕ) :
    ∃ text, 0 ∉ text ∧ text.length ≤ limit ∧ ReadsBytes mem root va text ∧
      (text.length = limit ∨ ReadsByte mem root (va + text.length) 0 ∨
        ∀ byte, ¬ ReadsByte mem root (va + text.length) byte) := by
  induction limit with
  | zero => exact ⟨[], List.not_mem_nil, le_rfl, readsBytes_nil _ _ _, Or.inl rfl⟩
  | succ limit ih =>
      obtain ⟨text, hnonzero, hle, hreads, hstop⟩ := ih
      by_cases hend : ReadsByte mem root (va + text.length) 0 ∨
          ∀ byte, ¬ ReadsByte mem root (va + text.length) byte
      · exact ⟨text, hnonzero, by omega, hreads, Or.inr hend⟩
      · obtain ⟨hzero, hsome⟩ := not_or.mp hend
        have hlength : text.length = limit := hstop.resolve_right hend
        push Not at hsome
        obtain ⟨byte, hbyte⟩ := hsome
        have hne : byte ≠ 0 := by
          rintro rfl
          exact hzero hbyte
        refine ⟨text ++ [byte], ?_, ?_, readsBytes_append.mpr ⟨hreads,
          readsBytes_singleton.mpr hbyte⟩, Or.inl ?_⟩
        · simpa using ⟨hnonzero, hne.symm⟩
        · simp [hlength]
        · simp [hlength]

end Bytes

/-! ## The loop -/

section Loop

variable {pm : Pm} {root uaddr i left maxlen : ℕ} {text : List UInt8}

theorem wrap_of_lt (hlow : uaddr + i < maxVa) : (uaddr + i) % 2 ^ 64 = uaddr + i :=
  Nat.mod_eq_of_lt (hlow.trans (by decide))

theorem pgRoundDown_lt (hlow : uaddr + i < maxVa) : pgRoundDown (uaddr + i) ≠ maxVa :=
  ((pgRoundDown_le _).trans_lt hlow).ne

theorem transstrLoop_byte {byte : UInt8} (hbyte : ReadsByte pm.mem root (uaddr + i) byte) :
    transstrLoop pm root uaddr i (left + 1) =
      if byte = 0 then .ok (0, [0])
      else (transstrLoop pm root uaddr (i + 1) left).map fun value =>
        (value.1, [byte] ++ value.2) := by
  rw [transstrLoop, wrap_of_lt hbyte.1]
  obtain ⟨htop, -⟩ | ⟨-, ⟨byte', hbyte', hcopy⟩ | ⟨hnone, -⟩⟩ := copyin_one pm root (uaddr + i)
  · exact absurd htop (pgRoundDown_lt hbyte.1)
  · obtain rfl := hbyte.unique hbyte'
    rw [hcopy]
    dsimp only
    rw [if_neg (by decide)]
    exact if_congr (by simp) rfl rfl
  · exact absurd hbyte (hnone byte)

theorem transstrLoop_fault (hlow : uaddr + i < maxVa)
    (hnone : ∀ byte, ¬ ReadsByte pm.mem root (uaddr + i) byte) :
    transstrLoop pm root uaddr i (left + 1) = .ok (-1, []) := by
  rw [transstrLoop, wrap_of_lt hlow]
  obtain ⟨htop, -⟩ | ⟨-, ⟨byte, hbyte, -⟩ | ⟨-, hcopy⟩⟩ := copyin_one pm root (uaddr + i)
  · exact absurd htop (pgRoundDown_lt hlow)
  · exact absurd hbyte (hnone byte)
  · rw [hcopy]
    rfl

theorem transstrLoop_top (htop : uaddr + i = maxVa) :
    transstrLoop pm root uaddr i (left + 1) = .error .walk := by
  rw [transstrLoop, htop]
  obtain ⟨-, hcopy⟩ | ⟨hne, -⟩ := copyin_one pm root (maxVa % 2 ^ 64)
  · rw [hcopy]
  · exact absurd (by decide) hne

/-- The characters of the string are copied one after the other. -/
theorem transstrLoop_text (hnonzero : 0 ∉ text)
    (hreads : ReadsBytes pm.mem root (uaddr + i) text) :
    transstrLoop pm root uaddr i (text.length + left) =
      (transstrLoop pm root uaddr (i + text.length) left).map fun value =>
        (value.1, text ++ value.2) := by
  induction text generalizing i with
  | nil =>
      rw [List.length_nil, Nat.zero_add, Nat.add_zero]
      cases transstrLoop pm root uaddr i left <;> rfl
  | cons byte text ih =>
      obtain ⟨hbyte, hrest⟩ := readsBytes_cons.mp hreads
      obtain ⟨hne, hnonzero⟩ := not_or.mp (List.mem_cons.not.mp hnonzero)
      rw [List.length_cons, Nat.add_right_comm, transstrLoop_byte hbyte, if_neg (Ne.symm hne),
        ih hnonzero (by rwa [← Nat.add_assoc]), Nat.add_assoc i 1, Nat.add_comm 1]
      cases transstrLoop pm root uaddr (i + (text.length + 1)) left <;> rfl

theorem loop_start (hnonzero : 0 ∉ text) (hreads : ReadsBytes pm.mem root uaddr text)
    (hmaxlen : maxlen = text.length + left) :
    transstrLoop pm root uaddr 0 maxlen =
      (transstrLoop pm root uaddr text.length left).map fun value =>
        (value.1, text ++ value.2) := by
  rw [hmaxlen, transstrLoop_text hnonzero (by rwa [Nat.add_zero]), Nat.zero_add]

end Loop

/-! ## The four ends -/

section Ends

variable {pm : Pm} {root uaddr maxlen : ℕ} {text buf : List UInt8}

theorem transstr_string (hbuf : IsUserString pm root uaddr buf) (hle : buf.length ≤ maxlen) :
    transstr pm root uaddr maxlen = .ok (0, buf) := by
  obtain ⟨text, hnonzero, rfl, hreads⟩ := hbuf
  obtain ⟨htext, hzero⟩ := readsBytes_append.mp hreads
  rw [readsBytes_singleton] at hzero
  obtain ⟨left, hleft⟩ : ∃ left, maxlen = text.length + (left + 1) := by
    rw [List.length_append, List.length_singleton] at hle
    exact ⟨maxlen - text.length - 1, by omega⟩
  rw [transstr, loop_start hnonzero htext hleft, transstrLoop_byte hzero, if_pos rfl]
  simp only [Except.map, Except.ok.injEq, Prod.mk.injEq, true_and]
  split
  · rename_i hfull
    rw [← hfull, List.length_append, List.length_singleton, Nat.add_sub_cancel,
      List.set_append_right _ _ le_rfl, Nat.sub_self]
    rfl
  · rfl

theorem transstr_cut (hbuf : IsCutString pm root uaddr maxlen buf) :
    transstr pm root uaddr maxlen = .ok (0, buf) := by
  obtain ⟨text, byte, hnonzero, hbyte, rfl, hlength, hreads⟩ := hbuf
  have hall : 0 ∉ text ++ [byte] := by
    simpa using ⟨hnonzero, hbyte.symm⟩
  have hmaxlen : maxlen = (text ++ [byte]).length + 0 := by
    simpa using hlength.symm
  rw [transstr, loop_start hall hreads hmaxlen, transstrLoop]
  simp only [Except.map, Except.ok.injEq, Prod.mk.injEq, true_and, List.append_nil]
  rw [if_pos (by simpa using hlength), ← hlength, Nat.add_sub_cancel,
    List.set_append_right _ _ le_rfl, Nat.sub_self]
  rfl

theorem transstr_fault (hfault : RunsIntoFault pm root uaddr maxlen) :
    ∃ buf, transstr pm root uaddr maxlen = .ok (-1, buf) := by
  obtain ⟨text, hnonzero, hlt, hreads, hlow, hnone⟩ := hfault
  obtain ⟨left, hleft⟩ : ∃ left, maxlen = text.length + (left + 1) :=
    ⟨maxlen - text.length - 1, by omega⟩
  rw [transstr, loop_start hnonzero hreads hleft, transstrLoop_fault hlow hnone]
  exact ⟨_, rfl⟩

theorem transstr_top (hnonzero : 0 ∉ text) (hreads : ReadsBytes pm.mem root uaddr text)
    (hlt : text.length < maxlen) (htop : uaddr + text.length = maxVa) :
    transstr pm root uaddr maxlen = .error .walk := by
  obtain ⟨left, hleft⟩ : ∃ left, maxlen = text.length + (left + 1) :=
    ⟨maxlen - text.length - 1, by omega⟩
  rw [transstr, loop_start hnonzero hreads hleft, transstrLoop_top htop]
  rfl

/-- When `transstr` succeeds the buffer holds the user's string, or its first `maxlen - 1`
characters if it is longer than that; every string that fits is copied, and one that cannot be read
that far is an error. -/
theorem transstr_spec (hmaxlen : 1 ≤ maxlen) (huaddr : uaddr < maxVa) :
    (∀ buf, transstr pm root uaddr maxlen = .ok (0, buf) → buf.length ≤ maxlen ∧
        (IsUserString pm root uaddr buf ∨ IsCutString pm root uaddr maxlen buf)) ∧
      (∀ buf, IsUserString pm root uaddr buf → buf.length ≤ maxlen →
        transstr pm root uaddr maxlen = .ok (0, buf)) ∧
      (RunsIntoFault pm root uaddr maxlen →
        ∃ buf, transstr pm root uaddr maxlen = .ok (-1, buf)) := by
  refine ⟨fun buf hok => ?_, fun buf hbuf hle => transstr_string hbuf hle, transstr_fault⟩
  obtain ⟨text, hnonzero, hle, hreads, hstop⟩ := exists_text pm.mem root uaddr maxlen
  by_cases hfull : text.length = maxlen
  · have hne : text ≠ [] := List.ne_nil_of_length_pos (by omega)
    obtain ⟨init, byte, rfl⟩ : ∃ init byte, text = init ++ [byte] :=
      ⟨_, _, (List.dropLast_append_getLast hne).symm⟩
    rw [List.length_append, List.length_singleton] at hfull
    have hcut : IsCutString pm root uaddr maxlen (init ++ [0]) := by
      refine ⟨init, byte, fun hmem => hnonzero (List.mem_append_left _ hmem), ?_, rfl, hfull,
        hreads⟩
      rintro rfl
      exact hnonzero (List.mem_append_right _ List.mem_cons_self)
    obtain rfl := (Prod.mk.inj (Except.ok.inj (hok.symm.trans (transstr_cut hcut)))).2
    exact ⟨by simp [hfull], Or.inr hcut⟩
  · have hlt : text.length < maxlen := by omega
    obtain hzero | hnone := hstop.resolve_left hfull
    · have hstring : IsUserString pm root uaddr (text ++ [0]) :=
        ⟨text, hnonzero, rfl, readsBytes_append.mpr ⟨hreads, readsBytes_singleton.mpr hzero⟩⟩
      have hfits : (text ++ [0]).length ≤ maxlen := by simpa using hlt
      have hcopy := transstr_string hstring hfits
      obtain rfl := (Prod.mk.inj (Except.ok.inj (hok.symm.trans hcopy))).2
      exact ⟨hfits, Or.inl hstring⟩
    · obtain hlow | htop := Nat.lt_or_eq_of_le (readsBytes_le_maxVa hreads huaddr)
      · obtain ⟨buf', hfail⟩ := transstr_fault ⟨text, hnonzero, hlt, hreads, hlow, hnone⟩
        have hresult := (Prod.mk.inj (Except.ok.inj (hok.symm.trans hfail))).1
        exact absurd hresult (by decide)
      · rw [transstr_top hnonzero hreads hlt htop] at hok
        cases hok

end Ends

/-! ## Strings in the first page of a process -/

/-- A process whose memory starts with the given bytes. -/
theorem exists_userBytes (bytes : ℕ → UInt8) {count : ℕ} (hcount : count ≤ 4096) :
    ∃ pm : Pm, ReadsBytes pm.mem 0x80301000 0 ((List.range count).map bytes) := by
  obtain ⟨pm, tables, hown, hmapped⟩ := exists_twoPages
  have hwritable : ∀ k < count, Accessible pm.mem 0x80301000 true (0 + k) := by
    intro k hk
    obtain ⟨page, -, -, htranslate, -⟩ := hmapped (0 + k) (by omega) (by omega)
    exact ⟨_, _, htranslate, by decide, fun _ => by decide⟩
  have hrange : 0 + count ≤ maxVa := by
    have hmax : 4096 ≤ maxVa := by decide
    omega
  obtain ⟨⟨result, mem', -, -, hresult, ⟨m, -, hall, hwritten⟩, -⟩, -⟩ :=
    copyout_copyin_flat hown.tree hown.framesApart hown.mappedOnce hrange bytes
  obtain rfl := hall (hresult.mpr hwritable)
  refine ⟨⟨mem', pm.freelist⟩, fun k byte hbyte => ?_⟩
  obtain ⟨hk, hbyte⟩ := List.getElem?_eq_some_iff.mp hbyte
  rw [List.length_map, List.length_range] at hk
  have hreads := Exec.readsByte_written hwritten hwritable hrange hk
  rw [List.getElem_map, List.getElem_range] at hbyte
  rwa [hbyte] at hreads

/-- The name `sh` is copied. -/
theorem transstr_name : ∃ pm : Pm, transstr pm 0x80301000 0 32 = .ok (0, [115, 104, 0]) := by
  obtain ⟨pm, hreads⟩ := exists_userBytes (fun k => [115, 104, 0].getD k 0) (show 3 ≤ 4096 by decide)
  exact ⟨pm, (transstr_spec (by decide) (by decide)).2.1 _ ⟨[115, 104], by decide, rfl, hreads⟩
    (by decide)⟩

/-- Of 32 times `a`, a file name of 31 characters is left. -/
theorem transstr_cuts : ¬ ∀ (pm : Pm) (root uaddr maxlen : ℕ) (buf : List UInt8), 1 ≤ maxlen →
    uaddr < maxVa → transstr pm root uaddr maxlen = .ok (0, buf) →
    IsUserString pm root uaddr buf := by
  intro hall
  obtain ⟨pm, hreads⟩ := exists_userBytes (fun _ => 97) (show 32 ≤ 4096 by decide)
  have hcut : IsCutString pm 0x80301000 0 32 (List.replicate 31 97 ++ [0]) :=
    ⟨List.replicate 31 97, 97, by decide, by decide, rfl, rfl, hreads⟩
  obtain ⟨text, -, -, hstring⟩ := hall pm 0x80301000 0 32 _ (by decide) (by decide)
    (transstr_cut hcut)
  have hzero : ReadsByte pm.mem 0x80301000 (0 + 31) 0 := hstring 31 0 rfl
  exact absurd ((hreads 31 97 rfl).unique hzero) (by decide)

end Painting.UserStrings
