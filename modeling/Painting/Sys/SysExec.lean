import Painting.Proc.ExecStack

/-!
# Passing arguments to a program

`sys_exec` copies the strings of the user's array into an array of `MAXARG` pointers and
stops at a null pointer, or after `MAXARG` strings; `process_execute` reads the array up to
its null pointer.  With `MAXARG` strings there is none, and what stands behind the array on
the kernel stack is taken for an argument.
-/

namespace Painting.SysExec

open Painting.Memory Painting.PageTable Painting.Loader Painting.Exec
open Painting.Process (Proc maxLen)
open Painting.Strings (ofList)

/-! ## The code -/

/-- The C string in a buffer. -/
def cString (buf : List UInt8) : List UInt8 := buf.takeWhile fun byte => byte ≠ 0

/-- The loop over the user's array from element `i` on: the strings that it copies before the
null pointer, or `none` when a copy fails. -/
def argvLoop (pm : Pm) (root uargv : ℕ) : ℕ → ℕ → Except Panic (Option (List (List UInt8)))
  | 0, _ => .ok (some [])
  | rounds + 1, i =>
      match copyin pm root ((uargv + 8 * i) % 2 ^ 64) 8 with
      | .error panic => .error panic
      | .ok (result, bytes) =>
          if result < 0 then .ok none
          else
            let uaddr := load (ofList bytes) 0 8
            if uaddr = 0 then .ok (some [])
            else
              match transstr pm root uaddr maxLen with
              | .error panic => .error panic
              | .ok (result, buf) =>
                  if result < 0 then .ok none
                  else (argvLoop pm root uargv rounds (i + 1)).map fun rest =>
                    rest.map fun rest => cString buf :: rest

/-- The array `argv`, zeroed before the loop, with the kernel stack behind it. -/
def argvArray (args : List (List UInt8)) (behind : ℕ → Option (List UInt8)) (i : ℕ) :
    Option (List UInt8) :=
  if i < maxArg then args[i]? else behind i

/-- A call of `sys_exec`: the array that it passes to `process_execute`, with that call, if it
gets there; and its result. -/
structure Call where
  passed : Option ((ℕ → Option (List UInt8)) × Executed)
  result : Except Stop ℕ

/-- `return -1`. -/
def fails : Call := ⟨none, .ok (2 ^ 64 - 1)⟩

/-- `sys_exec` by the process `p`.  `argbuf` is the memory after `kalloc` has found a block, and
`find` the file of a path. -/
def sysExec (kernelEnd trampolinePa : ℕ) (p : Proc) (argbuf : Option Pm) (ufile uargv : ℕ)
    (find : List UInt8 → Option File) (behind : ℕ → Option (List UInt8)) : Call :=
  match argbuf with
  | none => fails
  | some pm =>
      match transstr pm p.pagetable ufile maxLen with
      | .error panic => ⟨none, .error (.panic panic)⟩
      | .ok (result, path) =>
          if result < 0 then fails
          else
            match argvLoop pm p.pagetable uargv maxArg 0 with
            | .error panic => ⟨none, .error (.panic panic)⟩
            | .ok none => fails
            | .ok (some args) =>
                let argv := argvArray args behind
                let executed := processExecute kernelEnd trampolinePa pm p (ofList path)
                  (find (cString path)) argv
                ⟨some (argv, executed), executed.outcome.map fun (ok, pm, p) =>
                  if ok then load pm.mem (p.trapframe + trapframeA0) 8 else 2 ^ 64 - 1⟩

/-- What the two functions must agree on: the array has a null pointer, and neither it nor
`ustack` is left. -/
def Safe (call : Call) : Prop :=
  ∀ argv executed, call.passed = some (argv, executed) →
    (∃ i < maxArg, argv i = none) ∧ executed.reads ≤ maxArg ∧ executed.stored ≤ maxArg

/-! ## What a user can be read -/

variable {pm : Pm} {root : ℕ}

/-- The user may read these bytes from `va` on. -/
def ReadsBytes (mem : Mem) (root va : ℕ) (bytes : List UInt8) : Prop :=
  ∀ k byte, bytes[k]? = some byte → ReadsByte mem root (va + k) byte

/-- Of the string at `uaddr` the user may read every byte up to its 0, or `maxlen` bytes. -/
def ReadableString (mem : Mem) (root uaddr maxlen : ℕ) : Prop :=
  ∀ k < maxlen, (∀ j < k, ∃ byte, ReadsByte mem root ((uaddr + j) % 2 ^ 64) byte ∧ byte ≠ 0) →
    ∃ byte, ReadsByte mem root ((uaddr + k) % 2 ^ 64) byte

/-- The user's array has a string at element `i`. -/
def HasArg (mem : Mem) (root uargv i : ℕ) : Prop :=
  ∃ bytes, bytes.length = 8 ∧ ReadsBytes mem root ((uargv + 8 * i) % 2 ^ 64) bytes ∧
    load (ofList bytes) 0 8 ≠ 0 ∧ ReadableString mem root (load (ofList bytes) 0 8) maxLen

/-- A copy that succeeds stays below `MAXVA`. -/
theorem copyinLoop_below {rounds src len : ℕ} {result : ℤ} {bytes : List UInt8} (hlen : 0 < len)
    (hrounds : len ≤ rounds) (hcopy : copyinLoop pm root rounds src len = .ok (result, bytes))
    (hresult : ¬ result < 0) : src + len ≤ maxVa := by
  induction rounds generalizing src len result bytes with
  | zero => omega
  | succ rounds ih =>
      have hle := pgRoundDown_le src
      have hlt := lt_pgRoundDown_add src
      have haligned := pgRoundDown_aligned src
      have hfail : ¬ (.ok (-1, []) : Except Panic (ℤ × List UInt8)) = .ok (result, bytes) := by
        intro heq
        obtain rfl := (Prod.mk.inj (Except.ok.inj heq)).1
        exact hresult (by decide)
      rw [copyinLoop, if_neg (by omega)] at hcopy
      dsimp only at hcopy
      split at hcopy
      · exact absurd hcopy hfail
      by_cases hlow : pgRoundDown src < maxVa
      · have hend : pgRoundDown src + pgSize ≤ maxVa := by
          simp only [pgSize, maxVa] at *
          omega
        have hwrap : (pgRoundDown src + pgSize) % 2 ^ 64 = pgRoundDown src + pgSize := by
          apply Nat.mod_eq_of_lt
          simp only [pgSize, maxVa] at *
          omega
        rw [walk_lookup hlow] at hcopy
        cases hlookup : lookup pm.mem (pgRoundDown src) 2 root with
        | none =>
            rw [hlookup] at hcopy
            exact absurd hcopy hfail
        | some leaf =>
            rw [hlookup] at hcopy
            dsimp only [Option.map_some] at hcopy
            split at hcopy
            · exact absurd hcopy hfail
            by_cases hmore : pgSize - (src - pgRoundDown src) < len
            · rw [min_eq_left hmore.le, hwrap] at hcopy
              cases hrest : copyinLoop pm root rounds (pgRoundDown src + pgSize)
                  (len - (pgSize - (src - pgRoundDown src))) with
              | error panic =>
                  rw [hrest] at hcopy
                  cases hcopy
              | ok value =>
                  rw [hrest] at hcopy
                  obtain rfl := (Prod.mk.inj (Except.ok.inj hcopy)).1
                  have hbelow := ih (by omega) (by omega) hrest hresult
                  omega
            · omega
      · rw [walk_of_max (not_lt.mp hlow)] at hcopy
        cases hcopy

theorem copyin_ok {src len : ℕ} {result : ℤ} {bytes : List UInt8} (hlen : 0 < len)
    (hcopy : copyin pm root src len = .ok (result, bytes)) (hresult : ¬ result < 0) :
    bytes.length = len ∧ ReadsBytes pm.mem root src bytes := by
  have hbelow := copyinLoop_below hlen le_rfl hcopy hresult
  obtain ⟨result', bytes', hloop, hflat⟩ := @copyinLoop_flat root pm len src len hbelow le_rfl
  obtain ⟨rfl, rfl⟩ := Prod.mk.inj (Except.ok.inj (hcopy.symm.trans hloop))
  obtain ⟨-, hlength⟩ | ⟨rfl, -⟩ := hflat.stop
  · exact ⟨hlength, hflat.reads⟩
  · exact absurd (by decide) hresult

theorem ReadsBytes.unique {mem : Mem} {va : ℕ} {bytes bytes' : List UInt8}
    (hlength : bytes.length = bytes'.length) (hreads : ReadsBytes mem root va bytes)
    (hreads' : ReadsBytes mem root va bytes') : bytes = bytes' := by
  refine List.ext_getElem hlength fun k hk hk' => ?_
  exact (hreads k _ (List.getElem?_eq_getElem hk)).unique
    (hreads' k _ (List.getElem?_eq_getElem hk'))

theorem copyin_of_reads {src : ℕ} {bytes : List UInt8} (hlen : 0 < bytes.length)
    (hreads : ReadsBytes pm.mem root src bytes) :
    copyin pm root src bytes.length = .ok (0, bytes) := by
  have hlast := hreads _ _ (List.getElem?_eq_getElem (show bytes.length - 1 < bytes.length by omega))
  have hbelow : src + bytes.length ≤ maxVa := by
    have hva := hlast.1
    omega
  obtain ⟨result, bytes', hloop, hflat⟩ :=
    @copyinLoop_flat root pm bytes.length src bytes.length hbelow le_rfl
  have hzero : result = 0 := hflat.result_iff.mpr fun k hk =>
    (hreads k _ (List.getElem?_eq_getElem hk)).accessible
  obtain ⟨-, hlength⟩ | ⟨hfail, -⟩ := hflat.stop
  · rw [copyin, hloop, hzero, ReadsBytes.unique hlength hflat.reads hreads]
  · rw [hzero] at hfail
    cases hfail

/-! ## The copy of a string -/

theorem transstrLoop_ok_iff {uaddr i left : ℕ} :
    (∃ result buf, transstrLoop pm root uaddr i left = .ok (result, buf) ∧ ¬ result < 0) ↔
      ∀ k, i ≤ k → k < i + left → (∀ j, i ≤ j → j < k →
        ∃ byte, ReadsByte pm.mem root ((uaddr + j) % 2 ^ 64) byte ∧ byte ≠ 0) →
          ∃ byte, ReadsByte pm.mem root ((uaddr + k) % 2 ^ 64) byte := by
  induction left generalizing i with
  | zero =>
      refine ⟨fun _ k hlo hhi => by omega, fun _ => ⟨0, [], rfl, by decide⟩⟩
  | succ left ih =>
      have hfirst : (∀ k, i ≤ k → k < i + (left + 1) → (∀ j, i ≤ j → j < k →
          ∃ byte, ReadsByte pm.mem root ((uaddr + j) % 2 ^ 64) byte ∧ byte ≠ 0) →
            ∃ byte, ReadsByte pm.mem root ((uaddr + k) % 2 ^ 64) byte) →
          ∃ byte, ReadsByte pm.mem root ((uaddr + i) % 2 ^ 64) byte := fun hall =>
        hall i le_rfl (by omega) fun j hlo hhi => by omega
      rw [transstrLoop]
      obtain ⟨htop, hcopy⟩ | ⟨-, ⟨byte, hbyte, hcopy⟩ | ⟨hnone, hcopy⟩⟩ :=
        copyin_one pm root ((uaddr + i) % 2 ^ 64)
      · rw [hcopy]
        refine ⟨?_, fun hall => ?_⟩
        · rintro ⟨_, _, hok, -⟩
          cases hok
        · obtain ⟨byte, hlow, -⟩ := hfirst hall
          have hle := pgRoundDown_le ((uaddr + i) % 2 ^ 64)
          omega
      · rw [hcopy]
        dsimp only
        rw [if_neg (by decide)]
        by_cases hzero : byte = 0
        · rw [if_pos (by rw [hzero])]
          refine ⟨fun _ k hlo hhi hall => ?_, fun _ => ⟨0, _, rfl, by decide⟩⟩
          by_cases hk : k = i
          · exact hk ▸ ⟨byte, hbyte⟩
          · obtain ⟨byte', hbyte', hne⟩ := hall i le_rfl (by omega)
            exact absurd ((hbyte.unique hbyte').symm.trans hzero) hne
        · rw [if_neg (by simpa using hzero)]
          have hrest : (∃ result buf, ((transstrLoop pm root uaddr (i + 1) left).map
              fun value => (value.1, [byte] ++ value.2)) = .ok (result, buf) ∧ ¬ result < 0) ↔
              ∃ result buf, transstrLoop pm root uaddr (i + 1) left = .ok (result, buf) ∧
                ¬ result < 0 := by
            cases transstrLoop pm root uaddr (i + 1) left with
            | error panic =>
                refine ⟨?_, ?_⟩
                all_goals
                  rintro ⟨_, _, hok, -⟩
                  cases hok
            | ok value =>
                refine ⟨?_, ?_⟩
                · rintro ⟨_, _, hok, hresult⟩
                  obtain ⟨rfl, rfl⟩ := Prod.mk.inj (Except.ok.inj hok)
                  exact ⟨value.1, value.2, rfl, hresult⟩
                · rintro ⟨result, buf, hok, hresult⟩
                  obtain rfl := Except.ok.inj hok
                  exact ⟨result, _, rfl, hresult⟩
          rw [hrest, ih]
          constructor
          · intro hall k hlo hhi hbefore
            by_cases hk : k = i
            · exact hk ▸ ⟨byte, hbyte⟩
            · exact hall k (by omega) (by omega) fun j hlo' hhi' => hbefore j (by omega) hhi'
          · intro hall k hlo hhi hbefore
            refine hall k (by omega) (by omega) fun j hlo' hhi' => ?_
            by_cases hj : j = i
            · exact hj ▸ ⟨byte, hbyte, hzero⟩
            · exact hbefore j (by omega) hhi'
      · rw [hcopy]
        dsimp only
        rw [if_pos (by decide)]
        refine ⟨?_, fun hall => ?_⟩
        · rintro ⟨_, _, hok, hresult⟩
          obtain rfl := (Prod.mk.inj (Except.ok.inj hok)).1
          exact absurd (by decide) hresult
        · obtain ⟨byte, hbyte⟩ := hfirst hall
          exact absurd hbyte (hnone byte)

theorem transstr_ok_iff {uaddr maxlen : ℕ} :
    (∃ result buf, transstr pm root uaddr maxlen = .ok (result, buf) ∧ ¬ result < 0) ↔
      ReadableString pm.mem root uaddr maxlen := by
  have hloop := @transstrLoop_ok_iff pm root uaddr 0 maxlen
  simp only [Nat.zero_le, true_implies, Nat.zero_add] at hloop
  rw [ReadableString, ← hloop, transstr]
  cases transstrLoop pm root uaddr 0 maxlen with
  | error panic =>
      refine ⟨?_, ?_⟩
      all_goals
        rintro ⟨_, _, hok, -⟩
        cases hok
  | ok value =>
      refine ⟨?_, ?_⟩
      · rintro ⟨_, _, hok, hresult⟩
        obtain ⟨rfl, -⟩ := Prod.mk.inj (Except.ok.inj hok)
        exact ⟨value.1, value.2, rfl, hresult⟩
      · rintro ⟨result, buf, hok, hresult⟩
        obtain rfl := Except.ok.inj hok
        exact ⟨result, _, rfl, hresult⟩

/-! ## The loop over the array -/

theorem HasArg.copyin {uargv i : ℕ} (harg : HasArg pm.mem root uargv i) :
    ∃ bytes, PageTable.copyin pm root ((uargv + 8 * i) % 2 ^ 64) 8 = .ok (0, bytes) ∧
      load (ofList bytes) 0 8 ≠ 0 ∧
      ∃ result buf, transstr pm root (load (ofList bytes) 0 8) maxLen = .ok (result, buf) ∧
        ¬ result < 0 := by
  obtain ⟨bytes, hlength, hreads, hne, hstring⟩ := harg
  have hcopy := copyin_of_reads (hlength ▸ (by decide)) hreads
  rw [hlength] at hcopy
  exact ⟨bytes, hcopy, hne, transstr_ok_iff.mpr hstring⟩

/-- One round: it copies a string, or it is the last one. -/
theorem argvLoop_round (rounds uargv i : ℕ) :
    (HasArg pm.mem root uargv i ∧ ∃ arg, argvLoop pm root uargv (rounds + 1) i =
      (argvLoop pm root uargv rounds (i + 1)).map fun rest => rest.map fun rest => arg :: rest) ∨
    ¬ HasArg pm.mem root uargv i ∧
      ∀ args, argvLoop pm root uargv (rounds + 1) i = .ok (some args) → args = [] := by
  by_cases harg : HasArg pm.mem root uargv i
  · obtain ⟨bytes, hcopy, hne, result, buf, hstring, hresult⟩ := harg.copyin
    refine .inl ⟨harg, cString buf, ?_⟩
    rw [argvLoop, hcopy]
    dsimp only
    rw [if_neg (by decide), if_neg hne, hstring]
    dsimp only
    rw [if_neg hresult]
  · refine .inr ⟨harg, fun args hloop => ?_⟩
    rw [argvLoop] at hloop
    split at hloop
    · cases hloop
    rename_i result bytes hcopy
    split at hloop
    · cases hloop
    rename_i hresult
    dsimp only at hloop
    obtain ⟨hlength, hreads⟩ := copyin_ok (by decide) hcopy hresult
    split at hloop
    · cases hloop
      rfl
    rename_i hne
    split at hloop
    · cases hloop
    rename_i result' buf hstring
    split at hloop
    · cases hloop
    rename_i hresult'
    exact absurd ⟨bytes, hlength, hreads, hne,
      transstr_ok_iff.mp ⟨result', buf, hstring, hresult'⟩⟩ harg

theorem argvLoop_length {rounds uargv i : ℕ} {args : List (List UInt8)}
    (hloop : argvLoop pm root uargv rounds i = .ok (some args)) : args.length ≤ rounds := by
  induction rounds generalizing i args with
  | zero =>
      obtain rfl := Option.some.inj (Except.ok.inj hloop)
      exact le_rfl
  | succ rounds ih =>
      obtain ⟨-, arg, hround⟩ | ⟨-, hlast⟩ := @argvLoop_round pm root rounds uargv i
      · rw [hround] at hloop
        cases hrest : argvLoop pm root uargv rounds (i + 1) with
        | error panic =>
            rw [hrest] at hloop
            cases hloop
        | ok rest =>
            rw [hrest] at hloop
            obtain ⟨rest', rfl, rfl⟩ := Option.map_eq_some_iff.mp (Except.ok.inj hloop)
            exact Nat.succ_le_succ (ih hrest)
      · rw [hlast args hloop]
        exact Nat.zero_le _

/-- Every round copies a string exactly when the user's array has as many. -/
theorem argvLoop_full_iff {rounds uargv i : ℕ} :
    (∃ args, argvLoop pm root uargv rounds i = .ok (some args) ∧ args.length = rounds) ↔
      ∀ k, i ≤ k → k < i + rounds → HasArg pm.mem root uargv k := by
  induction rounds generalizing i with
  | zero => exact ⟨fun _ k hlo hhi => by omega, fun _ => ⟨[], rfl, rfl⟩⟩
  | succ rounds ih =>
      obtain ⟨harg, arg, hround⟩ | ⟨hnot, hlast⟩ := @argvLoop_round pm root rounds uargv i
      · have hsplit : (∀ k, i ≤ k → k < i + (rounds + 1) → HasArg pm.mem root uargv k) ↔
            ∀ k, i + 1 ≤ k → k < i + 1 + rounds → HasArg pm.mem root uargv k := by
          constructor
          · exact fun hall k hlo hhi => hall k (by omega) (by omega)
          · intro hall k hlo hhi
            by_cases hk : k = i
            · exact hk ▸ harg
            · exact hall k (by omega) (by omega)
        rw [hsplit, ← ih, hround]
        cases argvLoop pm root uargv rounds (i + 1) with
        | error panic =>
            refine ⟨?_, ?_⟩
            all_goals
              rintro ⟨_, hok, -⟩
              cases hok
        | ok rest =>
            constructor
            · rintro ⟨args, hok, hlength⟩
              obtain ⟨rest', rfl, rfl⟩ := Option.map_eq_some_iff.mp (Except.ok.inj hok)
              exact ⟨rest', rfl, Nat.succ.inj hlength⟩
            · rintro ⟨rest', hok, hlength⟩
              obtain rfl := Except.ok.inj hok
              exact ⟨arg :: rest', rfl, congrArg Nat.succ hlength⟩
      · constructor
        · rintro ⟨args, hok, hlength⟩
          rw [hlast args hok] at hlength
          cases hlength
        · exact fun hall => absurd (hall i le_rfl (by omega)) hnot

/-! ## What `process_execute` reads -/

/-- A round that is not the last has found a string. -/
theorem pushArg_reads {base sp : ℕ} {argv : ℕ → Option (List UInt8)} {ptrs : List ℕ} :
    (∃ pushed, pushArg root base argv pm sp ptrs = .inl pushed ∧
      pushed.reads = ptrs.length + 1 ∧ pushed.ustack = ptrs) ∨
    ∃ next, pushArg root base argv pm sp ptrs = .inr next ∧ argv ptrs.length ≠ none := by
  rw [pushArg]
  dsimp only
  cases hargv : argv ptrs.length with
  | none => exact .inl ⟨_, rfl, rfl, rfl⟩
  | some arg =>
      dsimp only
      split
      · exact .inl ⟨_, rfl, rfl, rfl⟩
      split
      · exact .inl ⟨_, rfl, rfl, rfl⟩
      split
      · exact .inl ⟨_, rfl, rfl, rfl⟩
      split
      · exact .inl ⟨_, rfl, rfl, rfl⟩
      · exact .inr ⟨_, rfl, Option.some_ne_none _⟩

/-- The loop over the arguments does not go beyond a null pointer. -/
theorem argLoop_reads {base n : ℕ} {argv : ℕ → Option (List UInt8)} (hend : argv n = none)
    (rounds : ℕ) {pm : Pm} {sp : ℕ} {ptrs : List ℕ} (hptrs : ptrs.length ≤ n) :
    (argLoop root base argv rounds pm sp ptrs).reads ≤ n + 1 ∧
      (argLoop root base argv rounds pm sp ptrs).ustack.length ≤ n := by
  induction rounds generalizing pm sp ptrs with
  | zero => exact ⟨hptrs.trans (Nat.le_succ n), hptrs⟩
  | succ rounds ih =>
      rw [argLoop]
      obtain ⟨pushed, hround, hreads, hustack⟩ | ⟨next, hround, hsome⟩ :=
        @pushArg_reads pm root base sp argv ptrs
      · rw [hround]
        dsimp only
        rw [hreads, hustack]
        exact ⟨Nat.succ_le_succ hptrs, hptrs⟩
      · rw [hround]
        have hne : ptrs.length ≠ n := fun heq => hsome (heq ▸ hend)
        exact ih (by rw [List.length_append, List.length_singleton]; omega)

theorem pushArgs_reads {sp n : ℕ} {argv : ℕ → Option (List UInt8)} (hend : argv n = none) :
    (pushArgs pm root sp argv).reads ≤ n + 1 ∧
      (pushArgs pm root sp argv).ustack.length ≤ n + 1 := by
  have hloop := @argLoop_reads root ((sp + 2 ^ 64 - pgSize) % 2 ^ 64) n argv hend (maxArg + 1) pm sp
    [] (Nat.zero_le n)
  rw [pushArgs]
  dsimp only
  generalize argLoop root ((sp + 2 ^ 64 - pgSize) % 2 ^ 64) argv (maxArg + 1) pm sp [] = looped
    at hloop ⊢
  obtain ⟨result, pm₁, ptrs, reads⟩ := looped
  obtain ⟨hreads, hustack⟩ := hloop
  have hlonger : (ptrs ++ [0]).length ≤ n + 1 := by
    rw [List.length_append, List.length_singleton]
    exact Nat.succ_le_succ hustack
  obtain panic | _ | sp := result
  · exact ⟨hreads, hustack.trans (Nat.le_succ n)⟩
  · exact ⟨hreads, hustack.trans (Nat.le_succ n)⟩
  dsimp only
  split
  · exact ⟨hreads, hlonger⟩
  split
  · exact ⟨hreads, hlonger⟩
  split
  · exact ⟨hreads, hlonger⟩
  · exact ⟨hreads, hlonger⟩

theorem processExecute_reads {kernelEnd trampolinePa n : ℕ} {p : Proc} {path : ℕ → UInt8}
    {found : Option File} {argv : ℕ → Option (List UInt8)} (hend : argv n = none) :
    (processExecute kernelEnd trampolinePa pm p path found argv).reads ≤ n + 1 ∧
      (processExecute kernelEnd trampolinePa pm p path found argv).stored ≤ n + 1 := by
  rw [processExecute]
  dsimp only
  split
  · exact ⟨Nat.zero_le _, Nat.zero_le _⟩
  split
  · exact ⟨Nat.zero_le _, Nat.zero_le _⟩
  split
  · exact ⟨Nat.zero_le _, Nat.zero_le _⟩
  · exact ⟨Nat.zero_le _, Nat.zero_le _⟩
  · exact pushArgs_reads hend

/-! ## Both -/

theorem readableString_empty {mem : Mem} {va maxlen : ℕ} (hva : va < 2 ^ 64)
    (hzero : ReadsByte mem root va 0) : ReadableString mem root va maxlen := by
  intro k _ hbefore
  have hstart : (va + 0) % 2 ^ 64 = va := Nat.mod_eq_of_lt hva
  obtain rfl | hk := Nat.eq_zero_or_pos k
  · exact ⟨0, hstart.symm ▸ hzero⟩
  · obtain ⟨byte, hbyte, hne⟩ := hbefore 0 hk
    rw [hstart] at hbyte
    exact absurd (hbyte.unique hzero) hne

/-- The bytes of a pointer to address 4096. -/
def pointerBytes : List UInt8 := [0, 16, 0, 0, 0, 0, 0, 0]

end Painting.SysExec
