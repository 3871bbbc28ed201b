import Painting.Proc.Loader

/-!
# Executing a program

`process_execute` gives the calling process a new address space, loads the program
into it and pushes the arguments on its stack.  `argv` is the array as it stands in
kernel memory, with the C string behind each pointer; where it ends is not part of it.
-/

namespace Painting.Exec

open Painting.Memory Painting.PageTable Painting.Loader
open Painting.Process (Proc maxLen)
open Painting.Strings (strncpy ofList)

/-- `MAXARG`. -/
def maxArg : ℕ := 32

/-- The fields of `struct trapframe` that hold the arguments, and its size. -/
def trapframeA0 : ℕ := 112
def trapframeA1 : ℕ := 120
def trapframeSize : ℕ := 288

/-- The bytes of an array of 64-bit words. -/
def wordBytes (words : List ℕ) (k : ℕ) : UInt8 :=
  UInt8.ofNat (words.getD (k / 8) 0 / 256 ^ (k % 8))

/-- How the pushing of the arguments ends: with the stack pointer, or at `goto bad`.
`ustack` has the elements written so far, and `reads` counts those read of `argv`. -/
structure Pushed where
  result : Except Panic (Option ℕ)
  pm : Pm
  ustack : List ℕ
  reads : ℕ

/-- One round of the loop over the arguments: the end of the loop, or memory and the stack
pointer for the next round. -/
def pushArg (root stackbase : ℕ) (argv : ℕ → Option (List UInt8)) (pm : Pm) (sp : ℕ)
    (ustack : List ℕ) : Pushed ⊕ Pm × ℕ :=
  let argc := ustack.length
  match argv argc with
  | none => .inl ⟨.ok (some sp), pm, ustack, argc + 1⟩
  | some arg =>
      if maxArg ≤ argc then .inl ⟨.ok none, pm, ustack, argc + 1⟩
      else
        let len := arg.length + 1
        let sp := (sp + 2 ^ 64 - len) % 2 ^ 64
        if sp < stackbase then .inl ⟨.ok none, pm, ustack, argc + 1⟩
        else
          match copyout pm root sp (ofList arg) len with
          | (.error panic, pm) => .inl ⟨.error panic, pm, ustack, argc + 1⟩
          | (.ok result, pm) =>
              if result < 0 then .inl ⟨.ok none, pm, ustack, argc + 1⟩ else .inr (pm, sp)

/-- The loop.  The rounds are counted so that without an end of `argv` the test of
`MAXARG` stops it. -/
def argLoop (root stackbase : ℕ) (argv : ℕ → Option (List UInt8)) :
    ℕ → Pm → ℕ → List ℕ → Pushed
  | 0, pm, _, ustack => ⟨.ok none, pm, ustack, ustack.length⟩
  | rounds + 1, pm, sp, ustack =>
      match pushArg root stackbase argv pm sp ustack with
      | .inl pushed => pushed
      | .inr (pm, sp) => argLoop root stackbase argv rounds pm sp (ustack ++ [sp])

/-- The pushing of the arguments in `process_execute`, from the stack pointer `sp` on. -/
def pushArgs (pm : Pm) (root sp : ℕ) (argv : ℕ → Option (List UInt8)) : Pushed :=
  let stackbase := (sp + 2 ^ 64 - pgSize) % 2 ^ 64
  match argLoop root stackbase argv (maxArg + 1) pm sp [] with
  | ⟨.ok (some sp), pm, ustack, reads⟩ =>
      let ustack := ustack ++ [0]
      let argc := ustack.length
      let alignLen := (sp &&& 0x0f) + (0x10 - (argc * 8 &&& 0xf))
      let sp := (sp + 2 ^ 64 - alignLen) % 2 ^ 64
      let sp := (sp + 2 ^ 64 - argc * 8) % 2 ^ 64
      if sp < stackbase then ⟨.ok none, pm, ustack, reads⟩
      else
        match copyout pm root sp (wordBytes ustack) (argc * 8) with
        | (.error panic, pm) => ⟨.error panic, pm, ustack, reads⟩
        | (.ok result, pm) =>
            if result < 0 then ⟨.ok none, pm, ustack, reads⟩
            else ⟨.ok (some sp), pm, ustack, reads⟩
  | bad => bad

/-- A call of `process_execute`, with the elements that it has read of `argv` and written
of `ustack`. -/
structure Executed where
  outcome : Except Stop (Bool × Pm × Proc)
  reads : ℕ
  stored : ℕ

/-- From `bad` on, where `old` is the process and `saved` its trapframe before the call. -/
def execBad (kernelEnd : ℕ) (pm : Pm) (old : Proc) (saved : ℕ → UInt8) (p : Proc) :
    Except Stop (Bool × Pm × Proc) :=
  match freeUserPagetable kernelEnd pm p.pagetable with
  | .error panic => .error (.panic panic)
  | .ok pm =>
      .ok (false, ⟨blit pm.mem p.trapframe saved trapframeSize, pm.freelist⟩,
        { p with
          pagetable := old.pagetable
          heapStart := old.heapStart
          heapEnd := old.heapEnd })

/-- The end of a successful call. -/
def execDone (kernelEnd : ℕ) (pm : Pm) (old p : Proc) (path : ℕ → UInt8) (sp argc : ℕ) :
    Except Stop (Bool × Pm × Proc) :=
  let mem := store pm.mem (p.trapframe + trapframeA1) 8 sp
  let mem := store mem (p.trapframe + trapframeA0) 8 (argc - 1)
  let mem := store mem (p.trapframe + trapframeSp) 8 sp
  let p := { p with name := Function.update (strncpy p.name path (maxLen - 1)) (maxLen - 1) 0 }
  match freeUserPagetable kernelEnd ⟨mem, pm.freelist⟩ old.pagetable with
  | .error panic => .error (.panic panic)
  | .ok pm => .ok (true, pm, p)

/-- `process_execute` by the process `p`, with the file that `loader` finds. -/
def processExecute (kernelEnd trampolinePa : ℕ) (pm : Pm) (p : Proc) (path : ℕ → UInt8)
    (found : Option File) (argv : ℕ → Option (List UInt8)) : Executed :=
  let saved := fun k => pm.mem (p.trapframe + k)
  match processPagetable kernelEnd trampolinePa pm p.trapframe with
  | .error panic => ⟨.error (.panic panic), 0, 0⟩
  | .ok (newPagetable, pm) =>
      if newPagetable = 0 then ⟨.ok (false, pm, p), 0, 0⟩
      else
        match loader kernelEnd pm { p with pagetable := newPagetable } found with
        | .error stop => ⟨.error stop, 0, 0⟩
        | .ok (false, pm, q) => ⟨execBad kernelEnd pm p saved q, 0, 0⟩
        | .ok (true, pm, q) =>
            let sp := load pm.mem (q.trapframe + trapframeSp) 8
            let pushed := pushArgs pm q.pagetable sp argv
            ⟨match pushed.result with
              | .error panic => .error (.panic panic)
              | .ok none => execBad kernelEnd pushed.pm p saved q
              | .ok (some sp) => execDone kernelEnd pushed.pm p q path sp pushed.ustack.length,
              pushed.reads, pushed.ustack.length⟩

end Painting.Exec
