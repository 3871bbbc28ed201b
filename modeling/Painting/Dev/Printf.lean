import Painting.Core.Strings

/-!
# Formatted output

`printf` of `kernel/printf.c` hands its text to the console byte by byte.  A `%s` sends a string up
to its first 0, an unknown conversion panics.
-/

namespace Painting.KernelPrintf

open Painting.Strings

/-- A variadic argument; a string comes with the number of bytes of memory from its start on. -/
inductive Arg
  | int (value : ℤ)
  | str (value : Buffer) (size : ℕ)
  | ptr (value : ℕ)

/-- The digits in `digital`. -/
def digital (digit : ℕ) : UInt8 := UInt8.ofNat (if digit < 10 then 48 + digit else 87 + digit)

/-- `printstr` from `i` on, with `rounds` bytes of memory left; `none` when it leaves them. -/
def printstr (str : Buffer) (i : ℕ) : ℕ → Option (List UInt8)
  | 0 => none
  | rounds + 1 =>
      if str i ≠ 0 then (printstr str (i + 1) rounds).map fun rest => str i :: rest else some []

/-- The digits of `num`, from the last to the first. -/
def digits (base : ℕ) : ℕ → ℕ → List UInt8
  | 0, _ => []
  | rounds + 1, num =>
      digital (num % base) :: if num / base ≠ 0 then digits base rounds (num / base) else []

/-- `printint`. -/
def printint (xx : ℤ) (base : ℕ) (sign : Bool) (width : ℕ) : List UInt8 :=
  let neg := sign && xx < 0
  let num := ((if neg then -xx else xx) % 2 ^ 32).toNat
  let buf := digits base 32 num
  let buf := if 0 < width then buf ++ List.replicate (width - 1 - buf.length) 48 else buf
  let buf := if neg then buf ++ [45] else if 0 < width then buf ++ [48] else buf
  buf.reverse

/-- `printptr`. -/
def printptr (x : ℕ) : List UInt8 :=
  [48, 120] ++ (List.range 16).map fun i => digital (x / 16 ^ (15 - i) % 16)

/-- One conversion: what it sends, and the arguments that are left; `none` for a panic or for an
argument that the call does not have. -/
def conversion (c : UInt8) (width : ℕ) : List Arg → Option (List UInt8 × List Arg)
  | .int value :: args =>
      if c = 99 then some ([UInt8.ofNat (value % 256).toNat], args)
      else if c = 100 then some (printint value 10 true width, args)
      else if c = 120 then some (printint value 16 false width, args)
      else none
  | .str value size :: args =>
      if c = 115 then (printstr value 0 size).map fun sent => (sent, args) else none
  | .ptr value :: args => if c = 112 then some (printptr value, args) else none
  | [] => none

/-- `vsprintf` at `fmt[i]`; behind a `%`, `width` is the sum of the digits read so far. -/
def vsprintf (fmt : Buffer) : ℕ → ℕ → Option ℕ → List Arg → Option (List UInt8)
  | 0, _, _, _ => none
  | rounds + 1, i, none, args =>
      if fmt i = 0 then some []
      else if fmt i ≠ 37 then (vsprintf fmt rounds (i + 1) none args).map fun rest => fmt i :: rest
      else vsprintf fmt rounds (i + 1) (some 0) args
  | rounds + 1, i, some width, args =>
      if 48 ≤ fmt i ∧ fmt i ≤ 57 then
        vsprintf fmt rounds (i + 1) (some (width + ((fmt i).toNat - 48))) args
      else
        (conversion (fmt i) width args).bind fun (sent, args) =>
          (vsprintf fmt rounds (i + 1) none args).map fun rest => sent ++ rest

/-- `printf` with a format that is a string constant. -/
def printf (fmt : List UInt8) (args : List Arg) : Option (List UInt8) :=
  vsprintf (ofList fmt) (fmt.length + 1) 0 none args

/-- The format `%s`. -/
def percentS : List UInt8 := [37, 115]

theorem printf_percentS (value : Buffer) (size : ℕ) :
    printf percentS [.str value size] = printstr value 0 size := by
  have hconversion : conversion 115 0 [.str value size] =
      (printstr value 0 size).map fun sent => (sent, []) := rfl
  have hrun : printf percentS [.str value size] =
      (conversion 115 0 [.str value size]).bind fun result =>
        some (result.1 ++ []) := rfl
  rw [hrun, hconversion]
  cases printstr value 0 size with
  | none => rfl
  | some sent => exact congrArg some (List.append_nil sent)

/-- `printstr` sends the string that its memory starts with. -/
theorem printstr_eq {str : Buffer} {i stop rounds : ℕ} (hstop : str (i + stop) = 0)
    (hbefore : ∀ k < stop, str (i + k) ≠ 0) (hrounds : stop < rounds) :
    printstr str i rounds = some ((List.range stop).map fun k => str (i + k)) := by
  induction stop generalizing i rounds with
  | zero =>
      obtain ⟨rounds, rfl⟩ := Nat.exists_eq_succ_of_ne_zero hrounds.ne'
      exact if_neg (not_not.mpr hstop)
  | succ stop ih =>
      obtain ⟨rounds, rfl⟩ := Nat.exists_eq_succ_of_ne_zero (Nat.ne_zero_of_lt hrounds)
      have hnext : ∀ k, i + 1 + k = i + (k + 1) := fun k => by omega
      have hhead : str i ≠ 0 := hbefore 0 (Nat.succ_pos stop)
      rw [printstr, if_pos hhead,
        ih (by rwa [hnext]) (fun k hk => by rw [hnext]; exact hbefore _ (Nat.succ_lt_succ hk))
          (Nat.lt_of_succ_lt_succ hrounds), List.range_succ_eq_map, List.map_cons, List.map_map]
      simp only [Option.map_some, Nat.add_zero, Function.comp_def, hnext]

/-- What is sent and the 0 behind it are in the memory of the string. -/
theorem printstr_length {str : Buffer} {i rounds : ℕ} {sent : List UInt8}
    (hprint : printstr str i rounds = some sent) : sent.length < rounds := by
  induction rounds generalizing i sent with
  | zero => cases hprint
  | succ rounds ih =>
      rw [printstr] at hprint
      split at hprint
      · obtain ⟨rest, hrest, rfl⟩ := Option.map_eq_some_iff.mp hprint
        exact Nat.succ_lt_succ (ih hrest)
      · obtain rfl := Option.some_inj.mp hprint
        exact Nat.succ_pos rounds

theorem printstr_holds {str : Buffer} {text : List UInt8} (hholds : Holds str text) {rounds : ℕ}
    (hrounds : text.length < rounds) : printstr str 0 rounds = some text := by
  rw [printstr_eq (by rw [Nat.zero_add]; exact hholds.terminator)
    (fun k hk => by rw [Nat.zero_add]; exact hholds.ne_zero hk) hrounds, Option.some_inj]
  refine List.ext_getElem (by simp) fun k hk hk' => ?_
  rw [List.getElem_map, List.getElem_range, Nat.zero_add, hholds.char hk']

end Painting.KernelPrintf
