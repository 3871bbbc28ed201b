import Painting.Core.Transition

/-!
# Spinlocks under interrupts

The spinlocks of `spinlock.c`, the switches of `sched` and `schedule` and the traps of `trap.c` on
any number of harts, one access to memory or to `sstatus` at a step.  The kernel code around them
is free: it may take and release any lock, turn interrupts on and off, read `cur_proc()`, give up
its hart and return from its trap, at any time.  A hart that has interrupts on may be interrupted
before each of its steps.

Which process `schedule` takes from the run queue is left to the run, as long as the registers of
the process are saved in its context; the queue and the states of processes are those of
`Sched.Threads`.
-/

namespace Painting.Interrupts

open Painting.Transition

/-! ## The code -/

/-- `p->lock`, `rq_lock` and the other spinlocks of the kernel. -/
inductive Lock
  | proc (p : ℕ)
  | rq
  | other (n : ℕ)
  deriving DecidableEq

/-- Whose kernel stack a hart is on. -/
inductive Stack
  | scheduler (h : ℕ)
  | process (p : ℕ)
  deriving DecidableEq

/-- Code that calls the functions of `spinlock.c`. -/
inductive Code
  | kernel
  | user
  /-- `intr_on` before the loop of `schedule`. -/
  | start
  | top
  /-- The search of the run queue. -/
  | search
  | found (next : Option ℕ)
  | released (next : Option ℕ)
  /-- `intr_on` and `wfi`. -/
  | idle
  /-- `c->proc = next`. -/
  | enter (next : ℕ)
  | launch (next : ℕ)
  /-- `c->proc = 0`. -/
  | back (next : ℕ)
  | leave (next : ℕ)
  deriving DecidableEq

inductive Panic
  | acquire (lk : Lock)
  | release (lk : Lock)
  | popOffInterruptible
  | popOff
  | schedLock (p : ℕ)
  | schedLocks (p : ℕ)
  | schedInterruptible
  deriving DecidableEq

/-- What a stack executes next; `k` is the code that `acquire` or `release` returns to. -/
inductive Pc
  | code (k : Code)
  /-- `int old = intr_get()` in `push_off`. -/
  | pushGet (lk : Lock) (k : Code)
  | pushIntrOff (lk : Lock) (old : Bool) (k : Code)
  /-- `if(cur_cpu()->noff == 0) cur_cpu()->intena = old`. -/
  | pushSave (lk : Lock) (old : Bool) (k : Code)
  | pushNest (lk : Lock) (k : Code)
  /-- `lk->cpu == cur_cpu()` and `lk->locked` in the `holding` of `acquire`. -/
  | acquireOwner (lk : Lock) (k : Code)
  | acquireLocked (lk : Lock) (k : Code)
  /-- `__sync_lock_test_and_set`. -/
  | acquireSwap (lk : Lock) (k : Code)
  | acquireSet (lk : Lock) (k : Code)
  | releaseOwner (lk : Lock) (k : Code)
  | releaseLocked (lk : Lock) (k : Code)
  /-- `lk->cpu = NULL`. -/
  | releaseClear (lk : Lock) (k : Code)
  /-- `__sync_lock_release`. -/
  | releaseUnlock (lk : Lock) (k : Code)
  /-- The two checks of `pop_off`. -/
  | popTest (k : Code)
  | popCheck (k : Code)
  | popDec (k : Code)
  /-- `if(c->noff == 0 && c->intena) intr_on()`. -/
  | popOn (k : Code)
  /-- The checks of `sched`. -/
  | schedOwner (p : ℕ)
  | schedLocked (p : ℕ)
  | schedNoff (p : ℕ)
  | schedIntr (p : ℕ)
  /-- `intena = cur_cpu()->intena` and `swtch`. -/
  | schedSwtch (p : ℕ)
  /-- `cur_cpu()->intena = intena`. -/
  | schedBack (intena : Bool)
  /-- `cur_proc()` after it has read `tp`. -/
  | curRead (hart : ℕ)
  | panicked (reason : Panic)
  deriving DecidableEq

/-- The registers: the stack, what runs on it and what that has interrupted, innermost first. -/
structure Regs where
  stack : Stack
  pc : Pc
  below : List Pc

/-- `SSTATUS_SIE`, and the two fields of `struct cpu` that `push_off` keeps. -/
structure Mask where
  sie : Bool
  noff : ℤ
  intena : Bool

structure Cpu where
  mask : Mask
  proc : Option ℕ
  regs : Regs

/-- `context` holds the saved registers of each scheduler and each process. -/
structure State where
  locked : Lock → Bool
  owner : Lock → Option ℕ
  cpu : ℕ → Cpu
  context : Stack → Option Regs

def State.setCpu (s : State) (h : ℕ) (cpu : Cpu) : State :=
  { s with cpu := Function.update s.cpu h cpu }

def State.goto (s : State) (h : ℕ) (pc : Pc) : State :=
  s.setCpu h { s.cpu h with regs := { (s.cpu h).regs with pc := pc } }

def State.setMask (s : State) (h : ℕ) (mask : Mask) : State :=
  s.setCpu h { s.cpu h with mask := mask }

def State.setProc (s : State) (h : ℕ) (proc : Option ℕ) : State :=
  s.setCpu h { s.cpu h with proc := proc }

/-- `swtch`, with the point at which the old registers are to go on. -/
def swtch (s : State) (h : ℕ) (old : Stack) (back : Pc) (new : Stack) : Option State :=
  (s.context new).map fun regs =>
    { s.setCpu h { s.cpu h with regs := regs } with
      context := Function.update (Function.update s.context new none) old
        (some { (s.cpu h).regs with pc := back }) }

/-- The next step of hart `h` when its code leaves no choice. -/
def execute (s : State) (h : ℕ) : Option State :=
  let mask := (s.cpu h).mask
  match (s.cpu h).regs.pc with
  | .code .kernel => none
  | .code .user => none
  | .code .start => some ((s.setMask h { mask with sie := true }).goto h (.code .top))
  | .code .top => some (s.goto h (.pushGet .rq .search))
  | .code .search => none
  | .code (.found next) => some (s.goto h (.releaseOwner .rq (.released next)))
  | .code (.released none) => some (s.goto h (.code .idle))
  | .code (.released (some next)) => some (s.goto h (.pushGet (.proc next) (.enter next)))
  | .code .idle => some ((s.setMask h { mask with sie := true }).goto h (.code .top))
  | .code (.enter next) => some ((s.setProc h (some next)).goto h (.code (.launch next)))
  | .code (.launch next) => swtch s h (.scheduler h) (.code (.back next)) (.process next)
  | .code (.back next) => some ((s.setProc h none).goto h (.code (.leave next)))
  | .code (.leave next) => some (s.goto h (.releaseOwner (.proc next) .top))
  | .pushGet lk k => some (s.goto h (.pushIntrOff lk mask.sie k))
  | .pushIntrOff lk old k =>
      some ((s.setMask h { mask with sie := false }).goto h (.pushSave lk old k))
  | .pushSave lk old k =>
      some ((if mask.noff = 0 then s.setMask h { mask with intena := old } else s).goto h
        (.pushNest lk k))
  | .pushNest lk k =>
      some ((s.setMask h { mask with noff := mask.noff + 1 }).goto h (.acquireOwner lk k))
  | .acquireOwner lk k =>
      some (s.goto h (if s.owner lk = some h then .acquireLocked lk k else .acquireSwap lk k))
  | .acquireLocked lk k =>
      some (s.goto h (if s.locked lk then .panicked (.acquire lk) else .acquireSwap lk k))
  | .acquireSwap lk k =>
      some (if s.locked lk then s
        else { s with locked := Function.update s.locked lk true }.goto h (.acquireSet lk k))
  | .acquireSet lk k =>
      some ({ s with owner := Function.update s.owner lk (some h) }.goto h (.code k))
  | .releaseOwner lk k =>
      some (s.goto h (if s.owner lk = some h then .releaseLocked lk k
        else .panicked (.release lk)))
  | .releaseLocked lk k =>
      some (s.goto h (if s.locked lk then .releaseClear lk k else .panicked (.release lk)))
  | .releaseClear lk k =>
      some ({ s with owner := Function.update s.owner lk none }.goto h (.releaseUnlock lk k))
  | .releaseUnlock lk k =>
      some ({ s with locked := Function.update s.locked lk false }.goto h (.popTest k))
  | .popTest k => some (s.goto h (if mask.sie then .panicked .popOffInterruptible else .popCheck k))
  | .popCheck k => some (s.goto h (if mask.noff < 1 then .panicked .popOff else .popDec k))
  | .popDec k => some ((s.setMask h { mask with noff := mask.noff - 1 }).goto h (.popOn k))
  | .popOn k =>
      some ((if mask.noff = 0 ∧ mask.intena then s.setMask h { mask with sie := true } else s).goto h
        (.code k))
  | .schedOwner p =>
      some (s.goto h (if s.owner (.proc p) = some h then .schedLocked p
        else .panicked (.schedLock p)))
  | .schedLocked p =>
      some (s.goto h (if s.locked (.proc p) then .schedNoff p else .panicked (.schedLock p)))
  | .schedNoff p =>
      some (s.goto h (if mask.noff ≠ 1 then .panicked (.schedLocks p) else .schedIntr p))
  | .schedIntr p =>
      some (s.goto h (if mask.sie then .panicked .schedInterruptible else .schedSwtch p))
  | .schedSwtch p => swtch s h (.process p) (.schedBack mask.intena) (.scheduler h)
  | .schedBack intena =>
      some ((s.setMask h { mask with intena := intena }).goto h (.code .kernel))
  | .curRead _ => some (s.goto h (.code .kernel))
  | .panicked _ => none

/-! ## Steps -/

/-- What kernel code does next. -/
inductive Call
  | acquire (lk : Lock)
  | release (lk : Lock)
  | intrOn
  | intrOff
  | curProc
  | sched
  | sret

/-- `sret` at the end of `kerneltrap` goes on with what was interrupted, and at the end of
`usertrapret` in user mode; both leave interrupts on. -/
def sret (s : State) (h : ℕ) : State :=
  let cpu := s.cpu h
  let mask := { cpu.mask with sie := true }
  match cpu.regs.below with
  | [] => s.setCpu h { cpu with mask := mask, regs := { cpu.regs with pc := .code .user } }
  | pc :: below =>
      s.setCpu h { cpu with mask := mask, regs := { cpu.regs with pc := pc, below := below } }

def call (s : State) (h : ℕ) : Call → Option State
  | .acquire lk => some (s.goto h (.pushGet lk .kernel))
  | .release lk => some (s.goto h (.releaseOwner lk .kernel))
  | .intrOn => some (s.setMask h { (s.cpu h).mask with sie := true })
  | .intrOff => some (s.setMask h { (s.cpu h).mask with sie := false })
  | .curProc => some (s.goto h (.curRead h))
  | .sched => (s.cpu h).proc.map fun p => s.goto h (.schedOwner p)
  | .sret => some (sret s h)

/-- A trap goes to `usertrap` on the same stack, or to `kerneltrap` on top of what it interrupts. -/
def trap (s : State) (h : ℕ) : Option State :=
  let cpu := s.cpu h
  let mask := { cpu.mask with sie := false }
  if cpu.regs.pc = .code .user then
    some (s.setCpu h { cpu with mask := mask, regs := { cpu.regs with pc := .code .kernel } })
  else if cpu.mask.sie then
    some (s.setCpu h { cpu with
      mask := mask
      regs := { cpu.regs with pc := .code .kernel, below := cpu.regs.pc :: cpu.regs.below } })
  else none

inductive Action
  | execute (h : ℕ)
  | call (h : ℕ) (c : Call)
  | choose (h : ℕ) (next : Option ℕ)
  | trap (h : ℕ)

def next (s : State) : Action → Option State
  | .execute h => execute s h
  | .call h c => if (s.cpu h).regs.pc = .code .kernel then call s h c else none
  | .choose h next =>
      if (s.cpu h).regs.pc = .code .search then some (s.goto h (.code (.found next))) else none
  | .trap h => trap s h

def Step (s : State) (action : Action) (s' : State) : Prop := next s action = some s'

/-- Kernel code turns interrupts on, and returns from a trap, only when it has released every lock
it took, and does not turn them on in a handler of `kerneltrap`. -/
def Lawful (s : State) : Action → Prop
  | .call h .intrOn => (s.cpu h).mask.noff = 0 ∧ (s.cpu h).regs.below = []
  | .call h .sret => (s.cpu h).mask.noff = 0
  | _ => True

/-- Every hart is about to enter the loop of `schedule`, and every process to run `forkret`. -/
def boot : State where
  locked := fun _ => false
  owner := fun _ => none
  cpu := fun h => ⟨⟨false, 0, false⟩, none, ⟨.scheduler h, .code .start, []⟩⟩
  context := fun
    | .scheduler _ => none
    | .process p => some ⟨.process p, .releaseOwner (.proc p) .kernel, []⟩

end Painting.Interrupts
