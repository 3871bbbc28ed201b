import Painting.Dev.Printf
import Painting.Fs.DirectoryListing
import Painting.Sys.FilePosition
import Painting.Sys.UserStrings

/-!
# Writing from user memory

`sys_write` of `sysfile.c` copies the user's bytes in pieces of at most 1023 into a kernel buffer.
For the standard output and the standard error it puts a 0 behind the piece and prints the buffer
as a string.
-/

namespace Painting.SysWrite

open Painting.Memory Painting.PageTable Painting.Strings Painting.KernelPrintf
open Painting.Descriptors (Dirent File findFile)
open Painting.Fat32 (Filesystem)
open Painting.SysExec (ReadsBytes)
open Painting.SysRead (buflen filesysWrite)
open Painting.UserStrings

def stdout : ℕ := 1
def stderr : ℕ := 2

/-! ## The code -/

/-- What a write to a file changes. -/
structure Files where
  disk : Mem
  dirents : ℕ → Dirent
  files : List File

/-- The result, `none` when the call does not return, what has gone to the console, the files, and
the indices at which the kernel buffer has been used. -/
structure WriteResult where
  result : Option (Except Panic ℕ)
  console : List UInt8
  files : Files
  indexed : List ℕ

/-- The same result, with what an earlier piece has sent and used. -/
def WriteResult.after (sent : List UInt8) (used : List ℕ) (rest : WriteResult) : WriteResult :=
  ⟨rest.result, sent ++ rest.console, rest.files, used ++ rest.indexed⟩

/-- What `console_write` sends when the descriptor is a device. -/
def deviceOutput (files : Files) (fd : ℕ) (kmem : Buffer) (n : ℕ) : List UInt8 :=
  if (findFile files.files (fd % 2 ^ 32)).any (fun file => file.type = .device) then
    (List.range n).map kmem
  else []

section Code

variable (fs : Filesystem) (pm : Pm) (root fd addr size : ℕ)

/-- The loop of `sys_write`; every round adds at least a byte to `total`. -/
def sysWriteLoop : ℕ → Buffer → Files → ℕ → WriteResult
  | 0, _, files, total => ⟨some (.ok total), [], files, []⟩
  | rounds + 1, kmem, files, total =>
      if total < size then
        let n := if buflen - 1 < size - total then buflen - 1 else size - total
        match copyin pm root ((addr + total) % 2 ^ 64) n with
        | .error panic => ⟨some (.error panic), [], files, List.range n⟩
        | .ok (result, bytes) =>
            if result < 0 then ⟨some (.ok (2 ^ 64 - 1)), [], files, List.range n⟩
            else
              let kmem : Buffer := fun k => bytes.getD k (kmem k)
              if fd = stdout ∨ fd = stderr then
                let kmem := Function.update kmem n 0
                match printf percentS [.str kmem buflen] with
                | none => ⟨none, [], files, List.range (n + 1)⟩
                | some sent =>
                    (sysWriteLoop rounds kmem files (total + n)).after sent
                      (List.range (n + 1) ++ List.range (sent.length + 1))
              else
                match filesysWrite fs files.disk files.dirents files.files fd kmem n with
                | none => ⟨none, [], files, List.range n⟩
                | some call =>
                    let sent := deviceOutput files fd kmem n
                    let files : Files := ⟨call.disk, call.dirents, call.files⟩
                    if call.nwritten ≠ n then ⟨some (.ok (2 ^ 64 - 1)), sent, files, List.range n⟩
                    else (sysWriteLoop rounds kmem files (total + n)).after sent (List.range n)
      else ⟨some (.ok total), [], files, []⟩

/-- `sys_write` of a process with the given page table and files; `buf` is the kernel memory from
the buffer on, `none` when `kalloc` fails. -/
def sysWrite (buf : Option Buffer) (files : Files) : WriteResult :=
  match validUserArg pm (some root) addr with
  | .error panic => ⟨some (.error panic), [], files, []⟩
  | .ok false => ⟨some (.ok (2 ^ 64 - 1)), [], files, []⟩
  | .ok true =>
      match buf with
      | none => ⟨some (.ok (2 ^ 64 - 1)), [], files, []⟩
      | some kmem => sysWriteLoop fs pm root fd addr size size kmem files 0

end Code

/-! ## What it should do -/

/-- A write that returns `size` has sent the user's bytes, and the buffer is used inside its 1024
bytes only. -/
structure SendsAll (pm : Pm) (root addr size : ℕ) (written : WriteResult) : Prop where
  indexed : ∀ i ∈ written.indexed, i < buflen
  sent : written.result = some (.ok size) → ∃ bytes, bytes.length = size ∧
    ReadsBytes pm.mem root addr bytes ∧ written.console = bytes

/-- The call gets all bytes of the user, and one of them is 0. -/
def HasZero (pm : Pm) (root addr size : ℕ) (buf : Option Buffer) : Prop :=
  root ≠ 0 ∧ buf.isSome ∧
    ∃ bytes, bytes.length = size ∧ ReadsBytes pm.mem root addr bytes ∧ 0 ∈ bytes

/-- The call gets to the page at `MAXVA`, as a write of more bytes than there are addresses does
when no byte before that page stops it. -/
def GetsToTop (pm : Pm) (root addr : ℕ) (buf : Option Buffer) : Prop :=
  root ≠ 0 ∧ (maxVa ≤ addr ∨
    buf.isSome ∧ ∀ va, addr ≤ va → va < maxVa → Accessible pm.mem root false va)

/-! ## One piece -/

section Piece

variable {pm : Pm} {root src n : ℕ}

theorem copyinLoop_error {rounds len : ℕ} {panic : Panic}
    (hcopy : copyinLoop pm root rounds src len = .error panic) : panic = .walk := by
  induction rounds generalizing src len with
  | zero => cases hcopy
  | succ rounds ih =>
      rw [copyinLoop] at hcopy
      dsimp only at hcopy
      split at hcopy
      · cases hcopy
      split at hcopy
      · cases hcopy
      obtain hlow | htop := Nat.lt_or_ge (pgRoundDown src) maxVa
      · rw [walk_lookup hlow] at hcopy
        cases hlookup : lookup pm.mem (pgRoundDown src) 2 root with
        | none =>
            rw [hlookup] at hcopy
            cases hcopy
        | some leaf =>
            rw [hlookup] at hcopy
            dsimp only [Option.map_some] at hcopy
            split at hcopy
            · cases hcopy
            · exact ih (map_eq_error_iff.mp hcopy)
      · rw [walk_of_max htop] at hcopy
        exact (Except.error.inj hcopy).symm

/-- A copy of a piece: all of it, a failure at a byte that may not be read, or the panic. -/
theorem copyin_cases (hn : 0 < n) (hsrc : src ≤ maxVa) :
    (∃ result bytes, copyin pm root src n = .ok (result, bytes) ∧ ¬ result < 0 ∧
        bytes.length = n ∧ ReadsBytes pm.mem root src bytes ∧ src + n ≤ maxVa) ∨
      (∃ result bytes, copyin pm root src n = .ok (result, bytes) ∧ result < 0 ∧
        ∃ va, src ≤ va ∧ va < src + n ∧ va < maxVa ∧ ¬ Accessible pm.mem root false va) ∨
      ∃ panic, copyin pm root src n = .error panic ∧ maxVa < src + n ∧
        ∀ va, src ≤ va → va < maxVa → Accessible pm.mem root false va := by
  have hpage : ∀ va, Accessible pm.mem root false va ↔
      Accessible pm.mem root false (pgRoundDown va) := fun va =>
    accessible_page (pgRoundDown_div va).symm
  cases hcopy : copyin pm root src n with
  | error panic =>
      obtain rfl := copyinLoop_error hcopy
      obtain ⟨-, -, hbeyond, hpages⟩ := (copyinLoop_panics_iff le_rfl).mp hcopy
      refine Or.inr (Or.inr ⟨_, rfl, hbeyond, fun va hlo hhi => (hpage va).mpr ?_⟩)
      exact hpages _ (pgRoundDown_aligned va) (Nat.mul_le_mul_right _ (Nat.div_le_div_right hlo))
        ((pgRoundDown_le va).trans_lt hhi)
  | ok value =>
      obtain ⟨result, bytes⟩ := value
      by_cases hresult : result < 0
      · refine Or.inr (Or.inl ⟨result, bytes, rfl, hresult, ?_⟩)
        by_cases hrange : src + n ≤ maxVa
        · obtain ⟨result', bytes', hloop, hflat⟩ := @copyinLoop_flat root pm n src n hrange le_rfl
          obtain ⟨rfl, rfl⟩ := Prod.mk.inj (Except.ok.inj (hcopy.symm.trans hloop))
          obtain ⟨rfl, -⟩ | ⟨-, hlt, hnot⟩ := hflat.stop
          · exact absurd hresult (lt_irrefl 0)
          · exact ⟨_, Nat.le_add_right _ _, by omega, by omega, hnot⟩
        · have hnot : ¬ ReachesTop pm.mem root false src n := by
            intro htop
            cases hcopy.symm.trans ((copyinLoop_panics_iff le_rfl).mpr htop)
          by_contra hall
          push Not at hall
          refine hnot ⟨hn, (pgRoundDown_le src).trans hsrc, not_le.mp hrange, ?_⟩
          intro page haligned hlo hhi
          by_cases hfirst : src ≤ page
          · exact hall page hfirst (by omega) hhi
          · have hsame : pgRoundDown src = page := by
              simp only [pgRoundDown, pgSize] at *
              omega
            have hlow : src < maxVa := by
              simp only [pgRoundDown, pgSize, maxVa] at *
              omega
            rw [← hsame, ← hpage]
            exact hall src le_rfl (by omega) hlow
      · obtain ⟨hlength, hreads⟩ := SysExec.copyin_ok hn hcopy hresult
        exact Or.inl ⟨result, bytes, rfl, hresult, hlength, hreads,
          SysExec.copyinLoop_below hn le_rfl hcopy hresult⟩

end Piece

/-- The piece and the 0 behind it are printed up to the first 0. -/
theorem printf_piece {piece : List UInt8} (hlength : piece.length < buflen) (kmem : Buffer) :
    printf percentS [.str (Function.update (fun k => piece.getD k (kmem k)) piece.length 0)
      buflen] = some (piece.takeWhile (· ≠ 0)) := by
  have hshorter : (piece.takeWhile (· ≠ 0)).length ≤ piece.length :=
    (List.takeWhile_prefix _).length_le
  have hholds : Holds (Function.update (fun k => piece.getD k (kmem k)) piece.length 0)
      (piece.takeWhile (· ≠ 0)) := by
    refine ⟨fun hmem => ?_, fun i hi => ?_⟩
    · simpa using List.mem_takeWhile_imp hmem
    · rw [← Directory.getD_takeWhile hi]
      obtain rfl | hlt := Nat.eq_or_lt_of_le (hi.trans hshorter)
      · rw [Function.update_self, List.getD_eq_default _ _ le_rfl]
      · rw [Function.update_of_ne hlt.ne, List.getD_eq_getElem _ _ hlt,
          List.getD_eq_getElem _ _ hlt]
  rw [printf_percentS]
  exact printstr_holds hholds (hshorter.trans_lt hlength)

theorem takeWhile_of_notMem {piece : List UInt8} (hzero : 0 ∉ piece) :
    piece.takeWhile (· ≠ 0) = piece := by
  rw [List.takeWhile_eq_self_iff]
  intro byte hbyte
  have hne : byte ≠ 0 := fun heq => hzero (heq ▸ hbyte)
  simpa using hne

theorem length_takeWhile_lt {piece : List UInt8} (hzero : 0 ∈ piece) :
    (piece.takeWhile (· ≠ 0)).length < piece.length := by
  have hshorter := List.takeWhile_prefix (l := piece) (fun byte => decide (byte ≠ 0))
  refine lt_of_le_of_ne hshorter.length_le fun heq => ?_
  have hall := hshorter.eq_of_length heq
  rw [List.takeWhile_eq_self_iff] at hall
  simpa using hall 0 hzero

/-! ## The loop -/

section Loop

variable {fs : Filesystem} {pm : Pm} {root fd addr size : ℕ}

theorem indexed_append {used rest : List ℕ} (hused : ∀ i ∈ used, i < buflen)
    (hrest : ∀ i ∈ rest, i < buflen) : ∀ i ∈ used ++ rest, i < buflen := fun i hi =>
  (List.mem_append.mp hi).elim (hused i) (hrest i)

theorem range_lt {n : ℕ} (hn : n ≤ buflen) : ∀ i ∈ List.range n, i < buflen := fun _ hi =>
  (List.mem_range.mp hi).trans_le hn

/-- Neither the copies nor the print routine leave the 1024 bytes of the buffer. -/
theorem sysWriteLoop_indexed (rounds : ℕ) (kmem : Buffer) (files : Files) (total : ℕ) :
    ∀ i ∈ (sysWriteLoop fs pm root fd addr size rounds kmem files total).indexed, i < buflen := by
  induction rounds generalizing kmem files total with
  | zero => exact fun i hi => absurd hi List.not_mem_nil
  | succ rounds ih =>
      rw [sysWriteLoop]
      split
      · dsimp only
        generalize hn : (if buflen - 1 < size - total then buflen - 1 else size - total) = n
        have hle : n + 1 ≤ buflen := by
          have hpos : buflen = 1023 + 1 := rfl
          split at hn <;> omega
        have hpiece : ∀ i ∈ List.range n, i < buflen := range_lt (Nat.le_of_succ_le hle)
        have hmore : ∀ i ∈ List.range (n + 1), i < buflen := range_lt hle
        split
        · exact hpiece
        · split
          · exact hpiece
          · split
            · split
              · exact hmore
              · rename_i sent hsent
                rw [printf_percentS] at hsent
                exact indexed_append (indexed_append hmore (range_lt (printstr_length hsent)))
                  (ih _ _ _)
            · split
              · exact hpiece
              · split
                · exact hpiece
                · exact indexed_append hpiece (ih _ _ _)
      · exact fun i hi => absurd hi List.not_mem_nil

/-- How the loop ends when `total` bytes are done: all others are readable and printed, except
what follows a 0 in its piece; one of them stops the copy; or the copy panics at `MAXVA`. -/
def LoopEnds (pm : Pm) (root addr size total : ℕ) (written : WriteResult) : Prop :=
  (∃ bytes, bytes.length = size - total ∧ ReadsBytes pm.mem root (addr + total) bytes ∧
      addr + size ≤ maxVa ∧ written.result = some (.ok size) ∧
      (0 ∉ bytes → written.console = bytes) ∧
      (0 ∈ bytes → written.console.length < bytes.length)) ∨
    (written.result = some (.ok (2 ^ 64 - 1)) ∧ ∃ va, addr + total ≤ va ∧ va < addr + size ∧
      va < maxVa ∧ ¬ Accessible pm.mem root false va) ∨
    ∃ panic, written.result = some (.error panic) ∧ maxVa < addr + size ∧
      ∀ va, addr + total ≤ va → va < maxVa → Accessible pm.mem root false va

theorem LoopEnds.after {total : ℕ} {piece : List UInt8} {written : WriteResult}
    (hends : LoopEnds pm root addr size (total + piece.length) written)
    (hle : total + piece.length ≤ size)
    (hpiece : ReadsBytes pm.mem root (addr + total) piece) (used : List ℕ) :
    LoopEnds pm root addr size total
      (written.after (piece.takeWhile (· ≠ 0)) used) := by
  rw [LoopEnds, ← Nat.add_assoc] at hends
  obtain ⟨rest, hlength, hrest, hrange, hresult, hsame, hless⟩ | ⟨hresult, va, hlo, hva⟩ |
    ⟨panic, hresult, htop, hall⟩ := hends
  · refine Or.inl ⟨piece ++ rest, ?_, readsBytes_append.mpr ⟨hpiece, hrest⟩, hrange, hresult,
      fun hzero => ?_, fun hzero => ?_⟩
    · rw [List.length_append, hlength]
      omega
    · obtain ⟨hleft, hright⟩ := not_or.mp (List.mem_append.not.mp hzero)
      rw [WriteResult.after, takeWhile_of_notMem hleft, hsame hright]
    · have hshorter : (piece.takeWhile (· ≠ 0)).length ≤ piece.length :=
        (List.takeWhile_prefix _).length_le
      have hothers : written.console.length ≤ rest.length := by
        by_cases hright : 0 ∈ rest
        · exact (hless hright).le
        · rw [hsame hright]
      rw [WriteResult.after, List.length_append, List.length_append]
      obtain hleft | hright := List.mem_append.mp hzero
      · have hcut := length_takeWhile_lt hleft
        omega
      · have hcut := hless hright
        omega
  · exact Or.inr (Or.inl ⟨hresult, va, by omega, hva⟩)
  · refine Or.inr (Or.inr ⟨panic, hresult, htop, fun va hlo hhi => ?_⟩)
    by_cases hin : va < addr + total + piece.length
    · have hat : (va - (addr + total)) < piece.length := by omega
      have hbyte := hpiece _ _ (List.getElem?_eq_getElem hat)
      rw [show addr + total + (va - (addr + total)) = va by omega] at hbyte
      exact hbyte.accessible
    · exact hall va (by omega) hhi

theorem loopEnds_done (files : Files) (hlow : addr + size ≤ maxVa) :
    LoopEnds pm root addr size size ⟨some (.ok size), [], files, []⟩ :=
  Or.inl ⟨[], by simp, readsBytes_nil _ _ _, hlow, rfl, fun _ => rfl,
    fun hzero => absurd hzero List.not_mem_nil⟩

/-- The induction is on the bytes still to come. -/
theorem sysWriteLoop_ends (hfd : fd = stdout ∨ fd = stderr) {rounds total : ℕ} (kmem : Buffer)
    (files : Files) (htotal : total ≤ size) (hrounds : size - total ≤ rounds)
    (hlow : addr + total ≤ maxVa) :
    LoopEnds pm root addr size total
      (sysWriteLoop fs pm root fd addr size rounds kmem files total) := by
  induction rounds generalizing kmem files total with
  | zero =>
      obtain rfl : total = size := by omega
      exact loopEnds_done files hlow
  | succ rounds ih =>
      rw [sysWriteLoop]
      by_cases hmore : total < size
      · rw [if_pos hmore]
        dsimp only
        generalize hn : (if buflen - 1 < size - total then buflen - 1 else size - total) = n
        have hle : 0 < n ∧ n < buflen ∧ total + n ≤ size := by
          have hpos : buflen = 1023 + 1 := rfl
          split at hn <;> omega
        have hwrap : (addr + total) % 2 ^ 64 = addr + total :=
          Nat.mod_eq_of_lt (hlow.trans_lt (by decide))
        rw [hwrap]
        obtain ⟨result, piece, hcopy, hresult, rfl, hreads, hrange⟩ |
          ⟨result, piece, hcopy, hresult, va, hlo, hhi, hva⟩ | ⟨panic, hcopy, htop, hall⟩ :=
          @copyin_cases pm root (addr + total) n hle.1 hlow
        · rw [hcopy]
          dsimp only
          rw [if_neg hresult, if_pos hfd, printf_piece hle.2.1]
          exact LoopEnds.after (ih _ _ hle.2.2 (by omega) (by omega)) hle.2.2 hreads _
        · rw [hcopy]
          dsimp only
          rw [if_pos hresult]
          exact Or.inr (Or.inl ⟨rfl, va, hlo, by omega, hva⟩)
        · rw [hcopy]
          exact Or.inr (Or.inr ⟨panic, rfl, by omega, hall⟩)
      · obtain rfl : total = size := by omega
        rw [if_neg hmore]
        exact loopEnds_done files hlow

/-! ## The whole call -/

theorem not_readsBytes_all {bytes : List UInt8} (hlength : bytes.length = 2 ^ 64 - 1) :
    ¬ ReadsBytes pm.mem root addr bytes := by
  intro hreads
  have htop : maxVa < bytes.length := by
    rw [hlength]
    decide
  have hlow := (hreads maxVa _ (List.getElem?_eq_getElem htop)).1
  omega

/-- A call that returns -1 has not sent what it was asked for only if that is the result. -/
theorem sendsAll_of_fault {written : WriteResult}
    (hresult : written.result = some (.ok (2 ^ 64 - 1)))
    (hindexed : ∀ i ∈ written.indexed, i < buflen) :
    SendsAll pm root addr size written ↔ size ≠ 2 ^ 64 - 1 := by
  constructor
  · rintro hsends rfl
    obtain ⟨bytes, hlength, hreads, -⟩ := hsends.sent hresult
    exact not_readsBytes_all hlength hreads
  · refine fun hne => ⟨hindexed, fun hsize => absurd ?_ hne⟩
    rw [hresult] at hsize
    exact (Except.ok.inj (Option.some_inj.mp hsize)).symm

theorem sendsAll_of_panic {written : WriteResult} {panic : Panic}
    (hresult : written.result = some (.error panic))
    (hindexed : ∀ i ∈ written.indexed, i < buflen) : SendsAll pm root addr size written := by
  refine ⟨hindexed, fun hsize => ?_⟩
  rw [hresult] at hsize
  cases Option.some_inj.mp hsize

theorem validUserArg_cases (pm : Pm) (hroot : root ≠ 0) (hlow : addr < maxVa) :
    validUserArg pm (some root) addr = .ok true ∨
      validUserArg pm (some root) addr = .ok false ∧ ¬ Accessible pm.mem root false addr := by
  rw [validUserArg, if_neg hroot, walk_lookup hlow]
  cases hlookup : lookup pm.mem addr 2 root with
  | none => exact Or.inr ⟨rfl, not_accessible_of_lookup_none hlookup⟩
  | some leaf => exact Or.inl rfl

theorem not_hasZero_of_not_accessible {buf : Option Buffer} {va : ℕ} (hlo : addr ≤ va)
    (hhi : va < addr + size) (hva : ¬ Accessible pm.mem root false va) :
    ¬ HasZero pm root addr size buf := by
  rintro ⟨-, -, bytes, hlength, hreads, -⟩
  have hat : va - addr < bytes.length := by omega
  have hbyte := hreads _ _ (List.getElem?_eq_getElem hat)
  rw [Nat.add_sub_cancel' hlo] at hbyte
  exact hva hbyte.accessible

theorem not_hasZero_of_beyond {buf : Option Buffer} (hbeyond : maxVa < addr + size) :
    ¬ HasZero pm root addr size buf := by
  rintro ⟨-, -, bytes, hlength, hreads, hzero⟩
  have hpos : 0 < bytes.length := List.length_pos_of_mem hzero
  have hlow : addr < maxVa := (hreads 0 _ (List.getElem?_eq_getElem hpos)).1
  have hend := readsBytes_le_maxVa hreads hlow
  omega

/-- The condition of a call that returns -1. -/
theorem sendsAll_fault_iff {buf : Option Buffer} {written : WriteResult}
    (hresult : written.result = some (.ok (2 ^ 64 - 1)))
    (hindexed : ∀ i ∈ written.indexed, i < buflen) (hzero : ¬ HasZero pm root addr size buf)
    (htop : ¬ GetsToTop pm root addr buf) :
    SendsAll pm root addr size written ↔
      ¬ HasZero pm root addr size buf ∧ (size = 2 ^ 64 - 1 → GetsToTop pm root addr buf) := by
  rw [sendsAll_of_fault hresult hindexed]
  exact ⟨fun hne => ⟨hzero, fun hsize => absurd hsize hne⟩, fun hcond hsize => htop (hcond.2 hsize)⟩

/-- The loop prints every byte just when none of them is 0. -/
theorem sendsAll_loop_iff (hroot : root ≠ 0) (hlow : addr < maxVa) {kmem : Buffer}
    {written : WriteResult} (hends : LoopEnds pm root addr size 0 written)
    (hindexed : ∀ i ∈ written.indexed, i < buflen) :
    SendsAll pm root addr size written ↔
      ¬ HasZero pm root addr size (some kmem) ∧
        (size = 2 ^ 64 - 1 → GetsToTop pm root addr (some kmem)) := by
  rw [LoopEnds, Nat.add_zero, Nat.sub_zero] at hends
  obtain ⟨bytes, hlength, hreads, hrange, hresult, hsame, hless⟩ | ⟨hresult, va, hlo, hhi, hmax, hva⟩ |
    ⟨panic, hresult, htop, hall⟩ := hends
  · have hsize : size ≠ 2 ^ 64 - 1 := by
      have hmax : maxVa < 2 ^ 64 - 1 := by decide
      omega
    constructor
    · refine fun hsends => ⟨?_, fun heq => absurd heq hsize⟩
      rintro ⟨-, -, bytes', hlength', hreads', hzero⟩
      obtain rfl := hreads.unique (hlength.trans hlength'.symm) hreads'
      obtain ⟨sent, hlength'', hreads'', hconsole⟩ := hsends.sent hresult
      have hcut := hless hzero
      rw [hconsole] at hcut
      omega
    · rintro ⟨hzero, -⟩
      refine ⟨hindexed, fun _ => ⟨bytes, hlength, hreads, hsame fun hmem => hzero ?_⟩⟩
      exact ⟨hroot, rfl, bytes, hlength, hreads, hmem⟩
  · refine sendsAll_fault_iff hresult hindexed (not_hasZero_of_not_accessible hlo hhi hva) ?_
    rintro ⟨-, htop | ⟨-, hall⟩⟩
    · omega
    · exact hva (hall va hlo hmax)
  · exact iff_of_true (sendsAll_of_panic hresult hindexed)
      ⟨not_hasZero_of_beyond htop, fun _ => ⟨hroot, Or.inr ⟨rfl, hall⟩⟩⟩

/-- A write to the standard output or error that returns its size has sent exactly the user's bytes
to the console just when none of them is 0, whatever the pieces.  The largest size is also the code
of an error, which is not returned only if the call gets to the top of the address space. -/
theorem sysWrite_sendsAll_iff (hfd : fd = stdout ∨ fd = stderr) (buf : Option Buffer)
    (files : Files) :
    SendsAll pm root addr size (sysWrite fs pm root fd addr size buf files) ↔
      ¬ HasZero pm root addr size buf ∧ (size = 2 ^ 64 - 1 → GetsToTop pm root addr buf) := by
  have hnone : ∀ i ∈ ([] : List ℕ), i < buflen := fun i hi => absurd hi List.not_mem_nil
  rw [sysWrite.eq_def]
  by_cases hroot : root = 0
  · subst hroot
    exact sendsAll_fault_iff rfl hnone (fun hzero => hzero.1 rfl) fun htop => htop.1 rfl
  · by_cases hlow : addr < maxVa
    · obtain hvalid | ⟨hvalid, hnot⟩ := validUserArg_cases pm hroot hlow
      · rw [hvalid]
        cases buf with
        | none =>
            refine sendsAll_fault_iff rfl hnone (fun hzero => ?_) ?_
            · cases hzero.2.1
            · rintro ⟨-, htop | ⟨hbuf, -⟩⟩
              · omega
              · cases hbuf
        | some kmem =>
            exact sendsAll_loop_iff hroot hlow
              (sysWriteLoop_ends hfd kmem files (Nat.zero_le _) le_rfl hlow.le)
              (sysWriteLoop_indexed size kmem files 0)
      · rw [hvalid]
        refine sendsAll_fault_iff rfl hnone ?_ ?_
        · rintro ⟨-, -, bytes, -, hreads, hzero⟩
          have hpos : 0 < bytes.length := List.length_pos_of_mem hzero
          exact hnot (hreads 0 _ (List.getElem?_eq_getElem hpos)).accessible
        · rintro ⟨-, htop | ⟨-, hall⟩⟩
          · omega
          · exact hnot (hall addr le_rfl hlow)
    · rw [(validUserArg_panics_iff hroot).mpr (not_lt.mp hlow)]
      refine iff_of_true (sendsAll_of_panic rfl hnone)
        ⟨?_, fun _ => ⟨hroot, Or.inl (not_lt.mp hlow)⟩⟩
      rintro ⟨-, -, bytes, -, hreads, hzero⟩
      have hpos : 0 < bytes.length := List.length_pos_of_mem hzero
      exact hlow (hreads 0 _ (List.getElem?_eq_getElem hpos)).1

end Loop

/-! ## Two lines -/

/-- No file is open. -/
def noFiles : Files := ⟨fun _ => 0, fun _ => ⟨0, 0, 0, 0, 0⟩, []⟩

theorem sendsAll_hi : ∃ pm : Pm, SendsAll pm 0x80301000 0 3
    (sysWrite Fat32.smallVolume pm 0x80301000 stdout 0 3 (some fun _ => 0) noFiles) := by
  obtain ⟨pm, hreads⟩ := exists_userBytes (fun k => [104, 105, 10].getD k 0)
    (show 3 ≤ 4096 by decide)
  refine ⟨pm, (sysWrite_sendsAll_iff (Or.inl rfl) _ _).mpr ⟨?_, fun hsize => ?_⟩⟩
  · rintro ⟨-, -, bytes, hlength, hreads', hzero⟩
    obtain rfl := hreads'.unique hlength hreads
    exact absurd hzero (by decide)
  · exact absurd hsize (by decide)

/-- Of `a`, 0, `b` only the `a` is sent, but the call returns 3. -/
theorem not_sendsAll_zero : ∃ pm : Pm, ¬ SendsAll pm 0x80301000 0 3
    (sysWrite Fat32.smallVolume pm 0x80301000 stdout 0 3 (some fun _ => 0) noFiles) := by
  obtain ⟨pm, hreads⟩ := exists_userBytes (fun k => [97, 0, 98].getD k 0)
    (show 3 ≤ 4096 by decide)
  have hzero : HasZero pm 0x80301000 0 3 (some fun _ => 0) :=
    ⟨by decide, rfl, _, rfl, hreads, by decide⟩
  have hvalid : validUserArg pm (some 0x80301000) 0 = .ok true := by
    obtain hvalid | ⟨-, hnot⟩ := validUserArg_cases pm (show 0x80301000 ≠ 0 by decide)
      (show 0 < maxVa by decide)
    · exact hvalid
    · exact absurd (hreads 0 97 rfl).accessible hnot
  refine ⟨pm, fun hsends => ?_⟩
  rw [sysWrite.eq_def, hvalid] at hsends
  exact ((sendsAll_loop_iff (by decide) (by decide)
    (sysWriteLoop_ends (Or.inl rfl) _ _ (Nat.zero_le _) le_rfl (Nat.zero_le _))
    (sysWriteLoop_indexed 3 _ _ 0)).mp hsends).1 hzero

end Painting.SysWrite
