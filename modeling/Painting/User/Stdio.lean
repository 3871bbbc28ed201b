import Painting.Core.Memory

/-!
# The user's `printf`

`stdio.c` of the user library.  One buffer serves all file descriptors: a character goes into it
with no note of its descriptor, and the descriptor of the call that fills the buffer or ends a line
gets all that is in it.

`vprintf` runs over any `putc`, so that the characters that a call formats are what it puts into a
list.
-/

namespace Painting.Printf

/-! ## The buffer -/

def maxLen : ℕ := 64

/-- `fflush`, which is the newline. -/
def fflush : UInt8 := 0xa

def stdout : ℤ := 1

/-- `buf` and `idx`, and the `write` calls so far.  `owner` is not in the source: it says for which
descriptor a byte of `buf` has been formatted. -/
structure Stdio where
  buf : ℕ → UInt8
  owner : ℕ → ℤ
  idx : ℕ
  writes : List (ℤ × List UInt8)

/-- `putc`. -/
def putc (fd : ℤ) (st : Stdio) (c : UInt8) : Stdio :=
  let buf := Function.update st.buf st.idx c
  let owner := Function.update st.owner st.idx fd
  let idx := st.idx + 1
  if idx = maxLen ∨ c = fflush then
    ⟨buf, owner, 0, st.writes ++ [(fd, (List.range idx).map buf)]⟩
  else ⟨buf, owner, idx, st.writes⟩

/-! ## Formats -/

def ascii (c : Char) : UInt8 := UInt8.ofNat c.toNat

/-- An entry of `digits`. -/
def digit (k : UInt32) : UInt8 := ("0123456789ABCDEF".toList.map ascii).getD k.toNat 0

section Format

variable {σ : Type*}

/-- The first loop of `printint`, which fills `buf` from the last digit on.  A number has at most
`rounds` digits. -/
def digitsLoop (x base : UInt32) : ℕ → List UInt8
  | 0 => []
  | rounds + 1 => digit (x % base) :: if x / base ≠ 0 then digitsLoop (x / base) base rounds else []

/-- `printint`; a number of 32 bits is below 0 when its highest bit is set. -/
def printint (putc : σ → UInt8 → σ) (st : σ) (xx base : UInt32) (sgn : Bool) : σ :=
  let neg := sgn && decide (2 ^ 31 ≤ xx.toNat)
  let x := if neg then -xx else xx
  let buf := digitsLoop x base 32 ++ if neg then [ascii '-'] else []
  buf.reverse.foldl putc st

/-- The loop of `printptr`. -/
def printptrLoop (putc : σ → UInt8 → σ) (st : σ) (x : UInt64) : ℕ → σ
  | 0 => st
  | count + 1 => printptrLoop putc (putc st (digit (x >>> 60).toUInt32)) (x <<< 4) count

/-- `printptr`. -/
def printptr (putc : σ → UInt8 → σ) (st : σ) (x : UInt64) : σ :=
  printptrLoop putc (putc (putc st (ascii '0')) (ascii 'x')) x 16

/-- The conversions that call `printint`: how many more characters they take, the base and the
sign. -/
def conversion (c0 c1 c2 : UInt8) : Option (ℕ × UInt32 × Bool) :=
  if c0 = ascii 'd' then some (0, 10, true)
  else if c0 = ascii 'l' ∧ c1 = ascii 'd' then some (1, 10, true)
  else if c0 = ascii 'l' ∧ c1 = ascii 'l' ∧ c2 = ascii 'd' then some (2, 10, true)
  else if c0 = ascii 'u' then some (0, 10, false)
  else if c0 = ascii 'l' ∧ c1 = ascii 'u' then some (1, 10, false)
  else if c0 = ascii 'l' ∧ c1 = ascii 'l' ∧ c2 = ascii 'u' then some (2, 10, false)
  else if c0 = ascii 'x' then some (0, 16, false)
  else if c0 = ascii 'l' ∧ c1 = ascii 'x' then some (1, 16, false)
  else if c0 = ascii 'l' ∧ c1 = ascii 'l' ∧ c2 = ascii 'x' then some (2, 16, false)
  else none

/-- What a call passes besides the descriptor: the format, the machine words of its arguments, and
the string in memory at an address. -/
structure Request where
  fmt : List UInt8
  ap : ℕ → UInt64
  text : UInt64 → List UInt8

/-- The loop of `vprintf` over the rest of the format, of which it passes over `skip` characters;
`arg` is the next argument. -/
def vprintfLoop (putc : σ → UInt8 → σ) (request : Request) :
    List UInt8 → ℕ → Bool → ℕ → σ → σ
  | [], _, _, _, st => st
  | _ :: rest, skip + 1, state, arg, st => vprintfLoop putc request rest skip state arg st
  | c0 :: rest, 0, false, arg, st =>
      if c0 = ascii '%' then vprintfLoop putc request rest 0 true arg st
      else vprintfLoop putc request rest 0 false arg (putc st c0)
  | c0 :: rest, 0, true, arg, st =>
      let c1 := rest.getD 0 0
      let c2 := if c1 ≠ 0 then rest.getD 1 0 else 0
      match conversion c0 c1 c2 with
      | some (skip, base, sgn) =>
          vprintfLoop putc request rest skip false (arg + 1)
            (printint putc st (request.ap arg).toUInt32 base sgn)
      | none =>
          if c0 = ascii 'p' then
            vprintfLoop putc request rest 0 false (arg + 1) (printptr putc st (request.ap arg))
          else if c0 = ascii 's' then
            let s := if request.ap arg = 0 then "(null)".toList.map ascii
              else request.text (request.ap arg)
            vprintfLoop putc request rest 0 false (arg + 1) (s.foldl putc st)
          else if c0 = ascii '%' then
            vprintfLoop putc request rest 0 false arg (putc st (ascii '%'))
          else vprintfLoop putc request rest 0 false arg (putc (putc st (ascii '%')) c0)

/-- `vprintf`. -/
def vprintf (putc : σ → UInt8 → σ) (request : Request) (st : σ) : σ :=
  vprintfLoop putc request request.fmt 0 false 0 st

end Format

/-! ## Calls -/

inductive Call
  | fprintf (fd : ℤ) (request : Request)
  | printf (request : Request)

/-- The descriptor that a call hands to `vprintf`. -/
def Call.fd : Call → ℤ
  | .fprintf fd _ => fd
  | .printf _ => stdout

def Call.request : Call → Request
  | .fprintf _ request => request
  | .printf request => request

/-- `fprintf` and `printf`. -/
def Call.exec (call : Call) (st : Stdio) : Stdio := vprintf (putc call.fd) call.request st

/-- The state after some calls of a fresh process. -/
def run (calls : List Call) : Stdio :=
  calls.foldl (fun st call => call.exec st) ⟨fun _ => 0, fun _ => 0, 0, []⟩

/-! ## Streams -/

/-- The characters that a call formats. -/
def Call.chars (call : Call) : List UInt8 :=
  vprintf (fun out c => out ++ [c]) call.request []

/-- The characters that some calls format for a descriptor. -/
def formatted (calls : List Call) (fd : ℤ) : List UInt8 :=
  (calls.filter fun call => call.fd = fd).flatMap Call.chars

/-- The bytes that `write` has been given for a descriptor. -/
def Stdio.written (st : Stdio) (fd : ℤ) : List UInt8 :=
  (st.writes.filter fun call => call.1 = fd).flatMap Prod.snd

/-- The bytes in the buffer that are for a descriptor. -/
def Stdio.buffered (st : Stdio) (fd : ℤ) : List UInt8 :=
  ((List.range st.idx).filter fun i => st.owner i = fd).map st.buf

/-- The streams are kept apart, and the index stays in the buffer. -/
structure Apart (st : Stdio) (calls : List Call) : Prop where
  stream : ∀ fd, st.written fd ++ st.buffered fd = formatted calls fd
  bound : st.idx ≤ maxLen

/-- A call that ends a line or fills the buffer finds only bytes of its own descriptor in it. -/
def Call.Undisturbing (call : Call) (st : Stdio) : Prop :=
  (∀ i < st.idx, st.owner i = call.fd) ∨
    fflush ∉ call.chars ∧ st.idx + call.chars.length < maxLen

/-! ## Any `putc` -/

section Fold

variable {σ : Type*}

/-- What has been put into a list. -/
abbrev snoc (out : List UInt8) (c : UInt8) : List UInt8 := out ++ [c]

theorem foldl_snoc (out chars : List UInt8) : chars.foldl snoc out = out ++ chars := by
  induction chars generalizing out with
  | nil => rw [List.foldl_nil, List.append_nil]
  | cons c chars ih => rw [List.foldl_cons, ih, List.append_assoc, List.singleton_append]

theorem putc_foldl (putc : σ → UInt8 → σ) (out : List UInt8) (st : σ) (c : UInt8) :
    putc (out.foldl putc st) c = (out ++ [c]).foldl putc st := by
  rw [List.foldl_append]
  rfl

theorem foldl_foldl (putc : σ → UInt8 → σ) (out chars : List UInt8) (st : σ) :
    chars.foldl putc (out.foldl putc st) = (chars.foldl snoc out).foldl putc st := by
  rw [foldl_snoc, List.foldl_append]

theorem printptrLoop_foldl (putc : σ → UInt8 → σ) (out : List UInt8) (st : σ) (x : UInt64)
    (count : ℕ) :
    printptrLoop putc (out.foldl putc st) x count = (printptrLoop snoc out x count).foldl putc st := by
  induction count generalizing out x with
  | zero => rfl
  | succ count ih =>
      rw [printptrLoop, printptrLoop, putc_foldl putc]
      exact ih _ _

theorem vprintfLoop_foldl (putc : σ → UInt8 → σ) (request : Request) (fmt : List UInt8) (skip : ℕ)
    (state : Bool) (arg : ℕ) (out : List UInt8) (st : σ) :
    vprintfLoop putc request fmt skip state arg (out.foldl putc st) =
      (vprintfLoop snoc request fmt skip state arg out).foldl putc st := by
  induction fmt generalizing skip state arg out with
  | nil => rfl
  | cons c0 rest ih =>
      cases skip with
      | succ skip => exact ih _ _ _ _
      | zero =>
          cases state with
          | false =>
              rw [vprintfLoop, vprintfLoop]
              split
              · exact ih _ _ _ _
              · rw [putc_foldl putc]
                exact ih _ _ _ _
          | true =>
              rw [vprintfLoop, vprintfLoop]
              dsimp only
              split
              · rw [printint, foldl_foldl]
                exact ih _ _ _ _
              · split
                · rw [printptr, putc_foldl putc, putc_foldl putc, printptrLoop_foldl]
                  exact ih _ _ _ _
                · split
                  · rw [foldl_foldl]
                    exact ih _ _ _ _
                  · split
                    · rw [putc_foldl putc]
                      exact ih _ _ _ _
                    · rw [putc_foldl putc, putc_foldl putc]
                      exact ih _ _ _ _

/-- A call puts out the characters that it formats, one by one. -/
theorem Call.exec_eq (call : Call) (st : Stdio) :
    call.exec st = call.chars.foldl (putc call.fd) st :=
  vprintfLoop_foldl (putc call.fd) call.request call.request.fmt 0 false 0 [] st

end Fold

/-! ## One character -/

section Putc

variable {st : Stdio} {fd other : ℤ} {c : UInt8} {chars : List UInt8}

theorem putc_flush (hflush : st.idx + 1 = maxLen ∨ c = fflush) :
    putc fd st c = ⟨Function.update st.buf st.idx c, Function.update st.owner st.idx fd, 0,
      st.writes ++ [(fd, (List.range (st.idx + 1)).map (Function.update st.buf st.idx c))]⟩ :=
  if_pos hflush

theorem putc_keep (hkeep : ¬ (st.idx + 1 = maxLen ∨ c = fflush)) :
    putc fd st c = ⟨Function.update st.buf st.idx c, Function.update st.owner st.idx fd,
      st.idx + 1, st.writes⟩ :=
  if_neg hkeep

theorem map_update_range {α : Type*} (f : ℕ → α) (n : ℕ) (a : α) :
    (List.range n).map (Function.update f n a) = (List.range n).map f := by
  apply List.map_congr_left
  intro i hi
  exact Function.update_of_ne (List.mem_range.mp hi).ne a f

/-- A character that stays in the buffer. -/
theorem buffered_keep (hkeep : ¬ (st.idx + 1 = maxLen ∨ c = fflush)) (other : ℤ) :
    (putc fd st c).buffered other = st.buffered other ++ if fd = other then [c] else [] := by
  have hold : ((List.range st.idx).filter fun i => Function.update st.owner st.idx fd i = other) =
      (List.range st.idx).filter fun i => st.owner i = other := by
    apply List.filter_congr
    intro i hi
    rw [Function.update_of_ne (List.mem_range.mp hi).ne]
  have hmap : ((List.range st.idx).filter fun i => st.owner i = other).map
      (Function.update st.buf st.idx c) = st.buffered other := by
    apply List.map_congr_left
    intro i hi
    exact Function.update_of_ne (List.mem_range.mp (List.mem_filter.mp hi).1).ne c st.buf
  rw [putc_keep hkeep, Stdio.buffered]
  dsimp only
  rw [List.range_succ, List.filter_append, List.map_append, hold, hmap]
  congr 1
  split
  · rename_i heq
    rw [List.filter_cons_of_pos (by simpa using heq), List.filter_nil, List.map_singleton,
      Function.update_self]
  · rename_i hne
    rw [List.filter_cons_of_neg (by simpa using hne), List.filter_nil, List.map_nil]

/-- A character that empties a buffer of its own descriptor. -/
theorem written_flush (hflush : st.idx + 1 = maxLen ∨ c = fflush)
    (hown : ∀ i < st.idx, st.owner i = fd) :
    (putc fd st c).written fd = st.written fd ++ st.buffered fd ++ [c] := by
  have hall : ((List.range st.idx).filter fun i => st.owner i = fd) = List.range st.idx := by
    rw [List.filter_eq_self]
    exact fun i hi => decide_eq_true (hown i (List.mem_range.mp hi))
  rw [putc_flush hflush, Stdio.written, Stdio.written, Stdio.buffered, hall]
  dsimp only
  rw [List.filter_append, List.flatMap_append, List.append_assoc,
    List.filter_cons_of_pos (by simp), List.filter_nil, List.flatMap_singleton,
    List.range_succ, List.map_append, map_update_range, List.map_singleton, Function.update_self]

/-- What other descriptors have been given. -/
theorem written_other (hne : fd ≠ other) : (putc fd st c).written other = st.written other := by
  by_cases hflush : st.idx + 1 = maxLen ∨ c = fflush
  · rw [putc_flush hflush, Stdio.written]
    dsimp only
    rw [List.filter_append, List.flatMap_append, List.filter_cons_of_neg (by simpa using hne),
      List.filter_nil, List.flatMap_nil, List.append_nil]
    rfl
  · rw [putc_keep hflush]
    rfl

theorem written_keep (hkeep : ¬ (st.idx + 1 = maxLen ∨ c = fflush)) :
    (putc fd st c).written other = st.written other := by
  rw [putc_keep hkeep]
  rfl

theorem buffered_eq_nil (hown : ∀ i < st.idx, st.owner i = fd) (hne : fd ≠ other) :
    st.buffered other = [] := by
  rw [Stdio.buffered, List.map_eq_nil_iff, List.filter_eq_nil_iff]
  intro i hi hsame
  exact hne ((hown i (List.mem_range.mp hi)).symm.trans (of_decide_eq_true hsame))

theorem putc_idx (hidx : st.idx < maxLen) : (putc fd st c).idx < maxLen := by
  by_cases hflush : st.idx + 1 = maxLen ∨ c = fflush
  · rw [putc_flush hflush]
    exact (Nat.zero_le _).trans_lt hidx
  · rw [putc_keep hflush]
    obtain ⟨hfull, -⟩ := not_or.mp hflush
    exact lt_of_le_of_ne hidx hfull

theorem putc_own (hown : ∀ i < st.idx, st.owner i = fd) :
    ∀ i < (putc fd st c).idx, (putc fd st c).owner i = fd := by
  by_cases hflush : st.idx + 1 = maxLen ∨ c = fflush
  · rw [putc_flush hflush]
    exact fun i hi => absurd hi (Nat.not_lt_zero i)
  · rw [putc_keep hflush]
    intro i hi
    dsimp only
    obtain rfl | hlt := Nat.eq_or_lt_of_le (Nat.le_of_lt_succ hi)
    · exact Function.update_self ..
    · rw [Function.update_of_ne hlt.ne]
      exact hown i hlt

/-- What a descriptor has been given and what waits for it. -/
def Stdio.total (st : Stdio) (fd : ℤ) : List UInt8 := st.written fd ++ st.buffered fd

theorem total_keep (hkeep : ¬ (st.idx + 1 = maxLen ∨ c = fflush)) (other : ℤ) :
    (putc fd st c).total other = st.total other ++ if fd = other then [c] else [] := by
  rw [Stdio.total, Stdio.total, written_keep hkeep, buffered_keep hkeep, List.append_assoc]

theorem total_own (hown : ∀ i < st.idx, st.owner i = fd) (other : ℤ) :
    (putc fd st c).total other = st.total other ++ if fd = other then [c] else [] := by
  by_cases hflush : st.idx + 1 = maxLen ∨ c = fflush
  · by_cases heq : fd = other
    · subst heq
      have hempty : (putc fd st c).buffered fd = [] := by
        rw [putc_flush hflush]
        rfl
      rw [if_pos rfl, Stdio.total, hempty, List.append_nil, written_flush hflush hown, Stdio.total]
    · rw [if_neg heq, List.append_nil, Stdio.total, Stdio.total, written_other heq,
        buffered_eq_nil (putc_own hown) heq, buffered_eq_nil hown heq]
  · exact total_keep hflush other

end Putc

/-! ## One call -/

section Calls

variable {st : Stdio} {fd other : ℤ} {chars : List UInt8}

theorem foldl_idx (hidx : st.idx < maxLen) : (chars.foldl (putc fd) st).idx < maxLen := by
  induction chars generalizing st with
  | nil => exact hidx
  | cons c chars ih => exact ih (putc_idx hidx)

theorem total_foldl_own (hown : ∀ i < st.idx, st.owner i = fd) (other : ℤ) :
    (chars.foldl (putc fd) st).total other = st.total other ++ if fd = other then chars else [] := by
  induction chars generalizing st with
  | nil => simp
  | cons c chars ih =>
      rw [List.foldl_cons, ih (putc_own hown), total_own hown, List.append_assoc]
      split <;> rfl

theorem total_foldl_keep (hline : fflush ∉ chars) (hroom : st.idx + chars.length < maxLen)
    (other : ℤ) :
    (chars.foldl (putc fd) st).total other = st.total other ++ if fd = other then chars else [] := by
  induction chars generalizing st with
  | nil => simp
  | cons c chars ih =>
      obtain ⟨hc, hline⟩ := not_or.mp (List.mem_cons.not.mp hline)
      rw [List.length_cons] at hroom
      have hkeep : ¬ (st.idx + 1 = maxLen ∨ c = fflush) := by
        rintro (hfull | rfl)
        · omega
        · exact hc rfl
      have hidx : (putc fd st c).idx = st.idx + 1 := by rw [putc_keep hkeep]
      rw [List.foldl_cons, ih hline (by omega), total_keep hkeep, List.append_assoc]
      split <;> rfl

theorem written_foldl_other (hne : fd ≠ other) :
    (chars.foldl (putc fd) st).written other = st.written other := by
  induction chars generalizing st with
  | nil => rfl
  | cons c chars ih => rw [List.foldl_cons, ih, written_other hne]

theorem foldl_own (hown : ∀ i < st.idx, st.owner i = fd) :
    ∀ i < (chars.foldl (putc fd) st).idx, (chars.foldl (putc fd) st).owner i = fd := by
  induction chars generalizing st with
  | nil => exact hown
  | cons c chars ih => exact ih (putc_own hown)

/-- After a call that has emptied the buffer, all that is in it is the call's own. -/
theorem foldl_flush (hidx : st.idx < maxLen)
    (hflush : fflush ∈ chars ∨ maxLen ≤ st.idx + chars.length) :
    ∀ i < (chars.foldl (putc fd) st).idx, (chars.foldl (putc fd) st).owner i = fd := by
  induction chars generalizing st with
  | nil =>
      obtain hmem | hfull := hflush
      · exact absurd hmem List.not_mem_nil
      · exact absurd hfull (not_le.mpr hidx)
  | cons c chars ih =>
      rw [List.foldl_cons]
      by_cases hnow : st.idx + 1 = maxLen ∨ c = fflush
      · apply foldl_own
        rw [putc_flush hnow]
        exact fun i hi => absurd hi (Nat.not_lt_zero i)
      · apply ih (putc_idx hidx)
        have hkept : (putc fd st c).idx = st.idx + 1 := by rw [putc_keep hnow]
        obtain hmem | hfull := hflush
        · obtain rfl | hmem := List.mem_cons.mp hmem
          · exact absurd (.inr rfl) hnow
          · exact .inl hmem
        · rw [List.length_cons] at hfull
          exact .inr (by omega)

end Calls

/-! ## Sequences of calls -/

theorem run_snoc (calls : List Call) (call : Call) :
    run (calls ++ [call]) = call.exec (run calls) := by
  rw [run, List.foldl_append]
  rfl

theorem formatted_snoc (calls : List Call) (call : Call) (fd : ℤ) :
    formatted (calls ++ [call]) fd = formatted calls fd ++ if call.fd = fd then call.chars else [] := by
  rw [formatted, List.filter_append, List.flatMap_append]
  split
  · rename_i heq
    rw [List.filter_cons_of_pos (by simpa using heq), List.filter_nil, List.flatMap_singleton]
    rfl
  · rename_i hne
    rw [List.filter_cons_of_neg (by simpa using hne), List.filter_nil, List.flatMap_nil]
    rfl

theorem run_idx (calls : List Call) : (run calls).idx < maxLen := by
  induction calls using List.reverseRecOn with
  | nil => decide
  | append_singleton calls call ih =>
      rw [run_snoc, Call.exec_eq]
      exact foldl_idx ih

/-- A call keeps the streams apart if and only if it disturbs no other stream. -/
theorem apart_snoc_iff {calls : List Call} (hapart : Apart (run calls) calls) (call : Call) :
    Apart (run (calls ++ [call])) (calls ++ [call]) ↔ call.Undisturbing (run calls) := by
  have hbefore : ∀ fd, (run calls).total fd = formatted calls fd := hapart.stream
  rw [run_snoc, Call.exec_eq]
  constructor
  · intro hafter
    by_contra hdisturbing
    rw [Call.Undisturbing, not_or, not_and_or, not_not, not_lt] at hdisturbing
    obtain ⟨hforeign, hflush⟩ := hdisturbing
    push Not at hforeign
    obtain ⟨i, hi, hforeign⟩ := hforeign
    have hempty := buffered_eq_nil (@foldl_flush _ call.fd _ (run_idx calls) hflush) hforeign.symm
    have hlost := hafter.stream ((run calls).owner i)
    rw [written_foldl_other hforeign.symm, hempty, List.append_nil, formatted_snoc,
      if_neg hforeign.symm, List.append_nil, ← hbefore, Stdio.total,
      List.self_eq_append_right, Stdio.buffered, List.map_eq_nil_iff, List.filter_eq_nil_iff] at hlost
    exact hlost i (List.mem_range.mpr hi) (by simp)
  · intro hundisturbing
    refine ⟨fun fd => ?_, (foldl_idx (run_idx calls)).le⟩
    rw [formatted_snoc, ← hbefore]
    obtain hown | ⟨hline, hroom⟩ := hundisturbing
    · exact total_foldl_own hown fd
    · exact total_foldl_keep hline hroom fd

/-- The streams are apart after every call if and only if each call that ends a line or fills the
buffer finds only bytes of its own descriptor in it. -/
theorem apart_iff (calls : List Call) :
    (∀ n, Apart (run (calls.take n)) (calls.take n)) ↔
      ∀ (n : ℕ) (call : Call), calls[n]? = some call → call.Undisturbing (run (calls.take n)) := by
  have htake : ∀ {n : ℕ} {call : Call}, calls[n]? = some call →
      calls.take (n + 1) = calls.take n ++ [call] := by
    intro n call hcall
    rw [List.take_add_one, hcall]
    rfl
  constructor
  · intro hapart n call hcall
    have hafter := hapart (n + 1)
    rw [htake hcall] at hafter
    exact (apart_snoc_iff (hapart n) call).mp hafter
  · intro hundisturbing n
    induction n with
    | zero => exact ⟨fun _ => rfl, Nat.zero_le _⟩
    | succ n ih =>
        cases hcall : calls[n]? with
        | none => rwa [List.take_add_one, hcall, Option.toList_none, List.append_nil]
        | some call =>
            rw [htake hcall]
            exact (apart_snoc_iff ih call).mpr (hundisturbing n call hcall)

/-- A call with a format that has no conversions. -/
def plain (text : String) : Request := ⟨text.toList.map ascii, fun _ => 0, fun _ => []⟩

/-- The text of `fprintf(2, "abc")` goes to the standard output with the next line. -/
theorem exists_misdirected :
    ¬ ∀ calls : List Call, Apart (run calls) calls := by
  intro hall
  have hstream := (hall [.fprintf 2 (plain "abc"), .printf (plain "x\n")]).stream 2
  exact absurd hstream (by decide +kernel)

end Painting.Printf
