import Painting.Sys.SysRead

/-!
# Reading a line from the console

`console_read` polls the UART and edits a line in the caller's buffer: DEL and BS take back one
character, a newline or a carriage return ends the line, and Ctrl-D ends it or, on an empty line,
the input.  Its only caller, `filesys_read`, passes a buffer of the kernel.
-/

namespace Painting.Console

open Painting.Memory

/-! ## The code -/

def ctrlD : UInt8 := 0x04
def backspace : UInt8 := 0x08
def newline : UInt8 := 0x0a
def carriageReturn : UInt8 := 0x0d
def delete : UInt8 := 0x7f

/-- `console_putc(BACKSPACE)`. -/
def putBackspace : List UInt8 := [backspace, 0x20, backspace]

/-- The buffer, the number of characters in it and what has been echoed. -/
structure Line where
  mem : Mem
  i : ℕ
  echo : List UInt8

/-- `dst[i++] = ch`, with the echo of the character. -/
def Line.put (line : Line) (dst : ℕ) (ch echoed : UInt8) : Line where
  mem := Function.update line.mem (dst + line.i) ch
  i := line.i + 1
  echo := line.echo ++ [echoed]

/-- One character less, if there is one. -/
def Line.erase (line : Line) : Line :=
  if 0 < line.i then ⟨line.mem, line.i - 1, line.echo ++ putBackspace⟩ else line

/-- What the call leaves: the line, and the characters typed that it has not taken. -/
structure Outcome where
  line : Line
  rest : List UInt8

/-- The loop of `console_read` on the characters typed; `none` while it polls for the next one. -/
def consoleReadLoop (n : ℤ) (dst : ℕ) (line : Line) : List UInt8 → Option Outcome
  | [] => if (line.i : ℤ) < n - 1 then none else some ⟨line, []⟩
  | c :: rest =>
      if (line.i : ℤ) < n - 1 then
        if c = ctrlD then some ⟨line, rest⟩
        else if c = delete ∨ c = backspace then consoleReadLoop n dst line.erase rest
        else if c = newline ∨ c = carriageReturn then
          some ⟨line.put dst c (if c = carriageReturn then newline else c), rest⟩
        else consoleReadLoop n dst (line.put dst c c) rest
      else some ⟨line, c :: rest⟩

/-- `console_read(0, dst, n)`; the result is the number of characters in the line. -/
def consoleRead (n : ℤ) (dst : ℕ) (mem : Mem) (typed : List UInt8) : Option Outcome :=
  if n ≤ 0 then some ⟨⟨mem, 0, []⟩, typed⟩ else consoleReadLoop n dst ⟨mem, 0, []⟩ typed

/-! ## The console of `sys_read` -/

theorem put_apply (line : Line) (dst : ℕ) (ch echoed : UInt8) :
    (fun k => (line.put dst ch echoed).mem (dst + k)) =
      Function.update (fun k => line.mem (dst + k)) line.i ch := by
  funext k
  rw [Line.put]
  by_cases hk : k = line.i
  · rw [hk, Function.update_self]
    exact Function.update_self _ _ _
  · rw [Function.update_of_ne hk]
    exact Function.update_of_ne (by omega) _ _

theorem erase_i (line : Line) : line.erase.i = if 0 < line.i then line.i - 1 else line.i := by
  rw [Line.erase]
  split_ifs <;> rfl

theorem erase_mem (line : Line) : line.erase.mem = line.mem := by
  rw [Line.erase]
  split_ifs <;> rfl

/-- What `sys_read` sees of a call: the count, the buffer and the characters left. -/
def Outcome.seen (dst : ℕ) (outcome : Outcome) : ℕ × (ℕ → UInt8) × List UInt8 :=
  (outcome.line.i, fun k => outcome.line.mem (dst + k), outcome.rest)

theorem consoleLoop_eq (n : ℤ) (dst : ℕ) (line : Line) (typed : List UInt8) :
    SysRead.consoleLoop n typed (fun k => line.mem (dst + k)) line.i =
      (consoleReadLoop n dst line typed).map (Outcome.seen dst) := by
  induction typed generalizing line with
  | nil =>
      rw [SysRead.consoleLoop, consoleReadLoop]
      split_ifs <;> rfl
  | cons c rest ih =>
      have herase := ih line.erase
      have hput := fun echoed => ih (line.put dst c echoed)
      rw [erase_i, erase_mem] at herase
      simp only [put_apply] at hput
      rw [SysRead.consoleLoop, consoleReadLoop]
      by_cases hroom : (line.i : ℤ) < n - 1
      · rw [if_pos hroom, if_pos hroom]
        by_cases heof : c = ctrlD
        · rw [if_pos heof, if_pos (show c = 0x04 from heof)]
          rfl
        · rw [if_neg heof, if_neg (show ¬ c = 0x04 from heof)]
          by_cases hback : c = delete ∨ c = backspace
          · rw [if_pos hback, if_pos (show c = 0x7f ∨ c = 0x08 from hback), herase]
          · rw [if_neg hback, if_neg (show ¬ (c = 0x7f ∨ c = 0x08) from hback)]
            by_cases hend : c = newline ∨ c = carriageReturn
            · rw [if_pos hend, if_pos (show c = 10 ∨ c = 13 from hend), ← put_apply line dst c]
              rfl
            · rw [if_neg hend, if_neg (show ¬ (c = 10 ∨ c = 13) from hend)]
              exact hput c
      · rw [if_neg hroom, if_neg hroom]
        rfl

/-- The console of `sys_read` is `console_read` into its kernel buffer. -/
theorem consoleRead_eq (n : ℤ) (dst : ℕ) (mem : Mem) (typed : List UInt8) :
    SysRead.consoleRead n typed (fun k => mem (dst + k)) =
      (consoleRead n dst mem typed).map (Outcome.seen dst) := by
  rw [SysRead.consoleRead, consoleRead]
  by_cases hn : n ≤ 0
  · rw [if_pos hn, if_pos hn]
    rfl
  · rw [if_neg hn, if_neg hn]
    exact consoleLoop_eq n dst ⟨mem, 0, []⟩ typed

/-! ## The line that is meant -/

/-- DEL and BS cancel the last character that is left; Ctrl-D is none. -/
def edit (chars : List UInt8) (c : UInt8) : List UInt8 :=
  if c = delete ∨ c = backspace then chars.dropLast else if c = ctrlD then chars else chars ++ [c]

/-- The characters typed, less those that have been cancelled. -/
def uncancelled (typed : List UInt8) : List UInt8 := typed.foldl edit []

/-- The last character ends the line. -/
def Closed (typed : List UInt8) : Prop :=
  ∃ before c, typed = before ++ [c] ∧ (c = newline ∨ c = carriageReturn ∨ c = ctrlD)

/-- A read of `n` characters has what it waits for. -/
def Finished (n : ℤ) (typed : List UInt8) : Prop :=
  Closed typed ∨ n - 1 ≤ (uncancelled typed).length

/-- What a read of `n` characters is to leave when it has taken the characters `taken`. -/
structure ReadsLine (n : ℤ) (dst : ℕ) (mem : Mem) (taken : List UInt8) (line : Line) : Prop where
  finished : Finished n taken
  first : ∀ typed, typed <+: taken → typed ≠ taken → ¬ Finished n typed
  length : line.i = (uncancelled taken).length
  le : (line.i : ℤ) ≤ n
  bytes : ∀ k < line.i, line.mem (dst + k) = (uncancelled taken).getD k 0
  frame : ∀ x, x < dst ∨ dst + n ≤ x → line.mem x = mem x
  zero : line.i = 0 → ∃ before, taken = before ++ [ctrlD] ∧ uncancelled before = []

/-- The call waits as long as the line has not ended, and then it leaves the line. -/
def ReadsLines (n : ℤ) (dst : ℕ) (mem : Mem) (typed : List UInt8) : Prop :=
  (consoleRead n dst mem typed = none ∧ ∀ taken, taken <+: typed → ¬ Finished n taken) ∨
    ∃ outcome taken, consoleRead n dst mem typed = some outcome ∧
      typed = taken ++ outcome.rest ∧ ReadsLine n dst mem taken outcome.line

/-! ## The loop -/

theorem uncancelled_append (typed : List UInt8) (c : UInt8) :
    uncancelled (typed ++ [c]) = edit (uncancelled typed) c := by
  rw [uncancelled, List.foldl_append]
  rfl

/-- The line in the buffer, before the loop test. -/
structure Holding (n : ℤ) (dst : ℕ) (mem : Mem) (chars : List UInt8) (line : Line) : Prop where
  length : line.i = chars.length
  lt : (line.i : ℤ) < n
  bytes : ∀ k < line.i, line.mem (dst + k) = chars.getD k 0
  frame : ∀ x, x < dst ∨ dst + n ≤ x → line.mem x = mem x

section Loop

variable {n : ℤ} {dst : ℕ} {mem : Mem} {chars : List UInt8} {line : Line}

theorem Holding.erase (hhold : Holding n dst mem chars line) :
    Holding n dst mem chars.dropLast line.erase := by
  rw [Line.erase]
  have hlength := hhold.length
  split
  · refine ⟨?_, ?_, fun k hk => ?_, hhold.frame⟩
    · rw [List.length_dropLast, ← hlength]
    · have hlt := hhold.lt
      dsimp only
      omega
    · dsimp only at hk ⊢
      rw [hhold.bytes k (by omega), List.getD_eq_getElem?_getD, List.getD_eq_getElem?_getD,
        List.getElem?_dropLast, if_pos (by omega)]
  · have hnil : chars = [] := by
      rw [← List.length_eq_zero_iff]
      omega
    rw [hnil]
    rwa [hnil] at hhold

/-- A character is stored behind the line, at index `n - 2` at most. -/
theorem Holding.put (hhold : Holding n dst mem chars line) (hroom : (line.i : ℤ) < n - 1)
    (ch echoed : UInt8) : Holding n dst mem (chars ++ [ch]) (line.put dst ch echoed) := by
  have hlength := hhold.length
  refine ⟨?_, ?_, fun k hk => ?_, fun x hx => ?_⟩
  · rw [Line.put, List.length_append, List.length_singleton, hlength]
  · rw [Line.put]
    push_cast
    omega
  · rw [Line.put] at hk ⊢
    dsimp only at hk ⊢
    obtain rfl | hlt := Nat.eq_or_lt_of_le (Nat.lt_succ_iff.mp hk)
    · rw [Function.update_self, hlength, List.getD_append_right _ _ _ _ le_rfl, Nat.sub_self]
      rfl
    · rw [Function.update_of_ne (by omega), hhold.bytes k hlt,
        List.getD_append _ _ _ _ (by omega)]
  · rw [Line.put]
    dsimp only
    rw [Function.update_of_ne (by omega), hhold.frame x hx]

theorem Holding.readsLine {taken : List UInt8}
    (hhold : Holding n dst mem (uncancelled taken) line) (hfinished : Finished n taken)
    (hfirst : ∀ typed, typed <+: taken → typed ≠ taken → ¬ Finished n typed)
    (hzero : line.i = 0 → ∃ before, taken = before ++ [ctrlD] ∧ uncancelled before = []) :
    ReadsLine n dst mem taken line :=
  ⟨hfinished, hfirst, hhold.length, hhold.lt.le, hhold.bytes, hhold.frame, hzero⟩

theorem closed_append (typed : List UInt8) (c : UInt8) :
    Closed (typed ++ [c]) ↔ c = newline ∨ c = carriageReturn ∨ c = ctrlD := by
  constructor
  · intro hclosed
    obtain ⟨before, last, heq, hlast⟩ := hclosed
    obtain ⟨-, hc⟩ := List.append_inj' heq rfl
    rwa [List.singleton_inj.mp hc]
  · exact fun hc => ⟨typed, c, rfl, hc⟩

theorem edit_of_erase {c : UInt8} (hc : c = delete ∨ c = backspace) :
    edit chars c = chars.dropLast :=
  if_pos hc

theorem edit_ctrlD (chars : List UInt8) : edit chars ctrlD = chars := by
  rw [edit, if_neg (by decide), if_pos rfl]

theorem edit_of_char {c : UInt8} (herase : ¬ (c = delete ∨ c = backspace)) (heof : c ≠ ctrlD) :
    edit chars c = chars ++ [c] := by
  rw [edit, if_neg herase, if_neg heof]

/-- Where the loop is after the characters `taken`: they are in the line, and the line goes on. -/
structure Editing (n : ℤ) (dst : ℕ) (mem : Mem) (taken : List UInt8) (line : Line) : Prop where
  holding : Holding n dst mem (uncancelled taken) line
  opened : ¬ Closed taken
  before : ∀ typed, typed <+: taken → typed ≠ taken → ¬ Finished n typed

variable {taken : List UInt8}

theorem Editing.not_finished (hedit : Editing n dst mem taken line)
    (hroom : (line.i : ℤ) < n - 1) {typed : List UInt8} (htyped : typed <+: taken) :
    ¬ Finished n typed := by
  by_cases heq : typed = taken
  · rw [heq, Finished, ← hedit.holding.length]
    exact not_or.mpr ⟨hedit.opened, not_le.mpr hroom⟩
  · exact hedit.before typed htyped heq

/-- One more character has been taken from a line that is not full. -/
theorem Editing.before_append (hedit : Editing n dst mem taken line)
    (hroom : (line.i : ℤ) < n - 1) (c : UInt8) :
    ∀ typed, typed <+: taken ++ [c] → typed ≠ taken ++ [c] → ¬ Finished n typed := by
  intro typed htyped hne
  obtain heq | htyped := List.prefix_concat_iff.mp htyped
  · exact absurd heq hne
  · exact hedit.not_finished hroom htyped

/-- One more character that does not end the line. -/
theorem Editing.append (hedit : Editing n dst mem taken line) (hroom : (line.i : ℤ) < n - 1)
    {c : UInt8} (hc : ¬ (c = newline ∨ c = carriageReturn ∨ c = ctrlD)) {next : Line}
    (hhold : Holding n dst mem (edit (uncancelled taken) c) next) :
    Editing n dst mem (taken ++ [c]) next := by
  refine ⟨?_, ?_, hedit.before_append hroom c⟩
  · rwa [uncancelled_append]
  · rwa [closed_append]

/-- The loop test stops a line that has reached the limit. -/
theorem Editing.full (hedit : Editing n dst mem taken line) (hn : 2 ≤ n)
    (hroom : ¬ (line.i : ℤ) < n - 1) : ReadsLine n dst mem taken line := by
  have hlength := hedit.holding.length
  refine hedit.holding.readsLine (Or.inr ?_) hedit.before fun hzero => ?_
  · omega
  · rw [hzero] at hroom
    omega

/-- The induction is on the characters still to come; the invariant is `Editing`. -/
theorem consoleReadLoop_spec (hn : 2 ≤ n) (typed : List UInt8)
    (hedit : Editing n dst mem taken line) :
    (consoleReadLoop n dst line typed = none ∧
        ∀ upto, upto <+: taken ++ typed → ¬ Finished n upto) ∨
      ∃ outcome upto, consoleReadLoop n dst line typed = some outcome ∧
        taken ++ typed = upto ++ outcome.rest ∧ ReadsLine n dst mem upto outcome.line := by
  induction typed generalizing taken line with
  | nil =>
      rw [consoleReadLoop, List.append_nil]
      by_cases hroom : (line.i : ℤ) < n - 1
      · rw [if_pos hroom]
        exact Or.inl ⟨rfl, fun upto hupto => hedit.not_finished hroom hupto⟩
      · rw [if_neg hroom]
        exact Or.inr ⟨_, taken, rfl, (List.append_nil taken).symm, hedit.full hn hroom⟩
  | cons c rest ih =>
      rw [consoleReadLoop]
      by_cases hroom : (line.i : ℤ) < n - 1
      · rw [if_pos hroom]
        have hsplit : taken ++ c :: rest = taken ++ [c] ++ rest := by
          rw [List.append_assoc, List.singleton_append]
        rw [hsplit]
        by_cases heof : c = ctrlD
        · subst heof
          rw [if_pos rfl]
          refine Or.inr ⟨_, taken ++ [ctrlD], rfl, rfl, ?_⟩
          refine Holding.readsLine ?_ (Or.inl ?_) (hedit.before_append hroom _) fun hzero => ?_
          · rw [uncancelled_append, edit_ctrlD]
            exact hedit.holding
          · exact (closed_append _ _).mpr (Or.inr (Or.inr rfl))
          · exact ⟨taken, rfl,
              List.length_eq_zero_iff.mp (hedit.holding.length.symm.trans hzero)⟩
        · rw [if_neg heof]
          by_cases herase : c = delete ∨ c = backspace
          · rw [if_pos herase]
            have hnext : Editing n dst mem (taken ++ [c]) line.erase := by
              refine hedit.append hroom ?_ ?_
              · rcases herase with rfl | rfl <;> decide
              · rw [edit_of_erase herase]
                exact hedit.holding.erase
            exact ih hnext
          · rw [if_neg herase]
            have hput : ∀ echoed, Holding n dst mem (edit (uncancelled taken) c)
                (line.put dst c echoed) := by
              intro echoed
              rw [edit_of_char herase heof]
              exact hedit.holding.put hroom c echoed
            by_cases hend : c = newline ∨ c = carriageReturn
            · rw [if_pos hend]
              refine Or.inr ⟨_, taken ++ [c], rfl, rfl, ?_⟩
              refine Holding.readsLine ?_ (Or.inl ?_) (hedit.before_append hroom _) fun hzero => ?_
              · rw [uncancelled_append]
                exact hput _
              · exact (closed_append _ _).mpr (hend.imp_right Or.inl)
              · exact absurd hzero (Nat.succ_ne_zero line.i)
            · rw [if_neg hend]
              have hnext : Editing n dst mem (taken ++ [c]) (line.put dst c c) := by
                refine hedit.append hroom ?_ (hput c)
                rw [← or_assoc, not_or]
                exact ⟨hend, heof⟩
              exact ih hnext
      · rw [if_neg hroom]
        exact Or.inr ⟨_, taken, rfl, rfl, hedit.full hn hroom⟩

end Loop

/-! ## The whole call -/

theorem not_closed_nil : ¬ Closed [] := by
  intro hclosed
  obtain ⟨before, c, heq, -⟩ := hclosed
  exact absurd heq.symm (List.concat_ne_nil c before)

theorem editing_nil {n : ℤ} (hn : 1 ≤ n) (dst : ℕ) (mem : Mem) :
    Editing n dst mem [] ⟨mem, 0, []⟩ := by
  refine ⟨⟨rfl, ?_, fun k hk => absurd hk (Nat.not_lt_zero k), fun x _ => rfl⟩, not_closed_nil,
    fun typed htyped hne => absurd (List.prefix_nil.mp htyped) hne⟩
  push_cast
  omega

/-- With room for one character only, the call returns before anything has been typed. -/
theorem not_readsLines_one (dst : ℕ) (mem : Mem) (typed : List UInt8) :
    ¬ ReadsLines 1 dst mem typed := by
  have hread : consoleRead 1 dst mem typed = some ⟨⟨mem, 0, []⟩, typed⟩ := by
    cases typed <;> rfl
  rintro (⟨hnone, -⟩ | ⟨outcome, taken, hsome, htaken, hline⟩)
  · rw [hread] at hnone
    exact Option.some_ne_none _ hnone
  · rw [hread] at hsome
    obtain rfl := Option.some_inj.mp hsome
    obtain rfl : taken = [] := List.self_eq_append_left.mp htaken
    obtain ⟨before, heq, -⟩ := hline.zero rfl
    exact absurd heq.symm (List.concat_ne_nil ctrlD before)

/-- `console_read` reads the lines that are typed, edited and cut off at the limit, if it is asked
for more than one character. -/
theorem readsLines_iff {n : ℤ} (hn : 1 ≤ n) (dst : ℕ) (mem : Mem) (typed : List UInt8) :
    ReadsLines n dst mem typed ↔ n ≠ 1 := by
  constructor
  · rintro hreads rfl
    exact not_readsLines_one dst mem typed hreads
  · intro hne
    rw [ReadsLines, consoleRead, if_neg (by omega)]
    exact consoleReadLoop_spec (by omega) typed (editing_nil hn dst mem)

/-- `a`, `b`, BS, `c` and a newline, into a buffer of 16 bytes. -/
theorem readsLines_edited : ReadsLines 16 0 (fun _ => 0) [97, 98, 8, 99, 10] :=
  (readsLines_iff (by decide) 0 _ _).mpr (by decide)

theorem not_readsLines_byte : ¬ ReadsLines 1 0 (fun _ => 0) [97, 10] :=
  not_readsLines_one 0 _ _

end Painting.Console
