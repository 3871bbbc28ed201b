import Painting.Core.Transition

/-!
# Kernel threads, spinlocks and the scheduler

Several CPUs run `schedule` (`schedule.c`) and, in it, the kernel threads of
processes.  A thread executes a program of its own over `sleep` and `wakeup`
(`proc.c`), which are expanded here to their lock operations: each acquisition,
each release and each update under a lock is one step of one CPU.

A process is named by its pid, and a channel by a number.  `process_lock` and the
inner lock of a sleeplock are both the lock `user` of the program in question.
Timer interrupts are off while a spinlock is held and are left out.
-/

namespace Painting.Threads

open Painting.Transition

/-- `enum process_state`. -/
inductive Status
  | zimbie
  | initial
  | runnable
  | block
  | running
  | sleeping
  deriving DecidableEq

inductive Lock
  | proc (p : ℕ)
  | rq
  | user
  deriving DecidableEq

/-- What a step does to the locks. -/
inductive LockOp
  | acquire (lock : Lock)
  | release (lock : Lock)
  | none
  deriving DecidableEq

/-- The data under the locks: the fields of every process, the two lists, and the
data of the program.  `stale` holds the `next` pointer that an element removed
from `process_list` keeps. -/
structure Shared (Data : Type) where
  status : ℕ → Status
  chan : ℕ → Option ℕ
  vruntime : ℕ → ℕ
  minVruntime : ℕ
  processList : List ℕ
  stale : ℕ → Option ℕ
  runQueue : List ℕ
  data : Data

/-- One instruction of a thread's program, with the point it leads to. -/
inductive Instr (Point Data : Type)
  | acquire (lock : Lock) (k : Point)
  | release (lock : Lock) (k : Point)
  | sleep (chan : ℕ) (k : Point)
  | wakeup (chan : ℕ) (k : Point)
  | update (f : Shared Data → ℕ → Option (Shared Data × Point))
  | sched

/-- Where the kernel thread of a process is.  Inside `sleep` and `wakeup` the
constructor names the next operation. -/
inductive Thread (Point : Type)
  | forkret (k : Point)
  | exec (k : Point)
  | sleepRelease (chan : ℕ) (k : Point)
  | sleepMark (chan : ℕ) (k : Point)
  | sleepWoke (k : Point)
  | sleepAcquire (k : Point)
  | sleepUnlock (k : Point)
  | wakeHead (chan : ℕ) (e : Option ℕ) (k : Point)
  | wakeTest (chan q : ℕ) (k : Point)
  | wakePush (chan q : ℕ) (k : Point)
  | wakeInsert (chan q : ℕ) (k : Point)
  | wakeRqRelease (chan q : ℕ) (k : Point)
  | wakeRelease (chan q : ℕ) (k : Point)
  | wakeNext (chan q : ℕ) (k : Point)
  | zombieExit
  deriving DecidableEq

/-- Where a CPU is in `schedule`. -/
inductive Cpu
  | top
  | scan
  | found (next : Option ℕ)
  | pick (p : ℕ)
  | enter (p : ℕ)
  | run (p : ℕ)
  | back (p : ℕ)
  deriving DecidableEq

/-- `thread p` is the position of process `p`: in the registers of the CPU that
runs it, in `p->context` otherwise. -/
structure State (Point Data : Type) where
  holder : Lock → Option ℕ
  cpu : ℕ → Cpu
  thread : ℕ → Thread Point
  shared : Shared Data

variable {Point Data : Type}

/-! ## The lists -/

/-- The element after `e` in a list. -/
def nextIn (e : ℕ) : List ℕ → Option ℕ
  | [] => none
  | x :: xs => if x = e then xs.head? else nextIn e xs

/-- `list_next` on `process_list`; `none` is the list's end. -/
def listNext (shared : Shared Data) (e : ℕ) : Option ℕ :=
  if e ∈ shared.processList then nextIn e shared.processList else shared.stale e

/-- `list_remove` from `process_list`. -/
def listRemove (shared : Shared Data) (e : ℕ) : Shared Data :=
  { shared with
    processList := shared.processList.erase e
    stale := Function.update shared.stale e (listNext shared e) }

/-- `cfs_less`. -/
def cfsLess (vruntime : ℕ → ℕ) (a b : ℕ) : Prop :=
  if vruntime a ≠ vruntime b then vruntime a < vruntime b else a < b

instance (vruntime : ℕ → ℕ) (a b : ℕ) : Decidable (cfsLess vruntime a b) :=
  inferInstanceAs (Decidable
    (if vruntime a ≠ vruntime b then vruntime a < vruntime b else a < b))

/-- `list_insert_ordered` with `cfs_less`. -/
def listInsertOrdered (vruntime : ℕ → ℕ) (p : ℕ) : List ℕ → List ℕ
  | [] => [p]
  | e :: es =>
      if cfsLess vruntime p e then p :: e :: es
      else e :: listInsertOrdered vruntime p es

/-- `refresh_min_vruntime_locked`. -/
def refreshMinVruntime (shared : Shared Data) : Shared Data :=
  match shared.runQueue with
  | [] => shared
  | leftmost :: _ =>
      if shared.minVruntime < shared.vruntime leftmost then
        { shared with minVruntime := shared.vruntime leftmost }
      else shared

/-- The part of `rb_push_back` under `rq_lock`. -/
def rbPushBack (shared : Shared Data) (p : ℕ) : Shared Data :=
  if p ∈ shared.runQueue then shared
  else
    let vruntime := Function.update shared.vruntime p
      (max (shared.vruntime p) shared.minVruntime)
    refreshMinVruntime { shared with
      vruntime := vruntime
      runQueue := listInsertOrdered vruntime p shared.runQueue }

/-- The search of `schedule`: elements that are not runnable leave the queue. -/
def pickNext (status : ℕ → Status) : List ℕ → Option ℕ × List ℕ
  | [] => (none, [])
  | p :: rest => if status p = .runnable then (some p, rest) else pickNext status rest

/-! ## Steps -/

/-- What the thread `t` of process `p` does to the locks next. -/
def threadOp (program : ℕ → Point → Instr Point Data) (p : ℕ) : Thread Point → LockOp
  | .forkret _ => .release (.proc p)
  | .exec k =>
      match program p k with
      | .acquire lock _ => .acquire lock
      | .release lock _ => .release lock
      | .sleep _ _ => .acquire (.proc p)
      | .wakeup _ _ => .none
      | .update _ => .none
      | .sched => .none
  | .sleepRelease _ _ => .release .user
  | .sleepMark _ _ => .none
  | .sleepWoke _ => .none
  | .sleepAcquire _ => .acquire .user
  | .sleepUnlock _ => .release (.proc p)
  | .wakeHead _ none _ => .none
  | .wakeHead _ (some q) _ => if q = p then .none else .acquire (.proc q)
  | .wakeTest _ _ _ => .none
  | .wakePush _ _ _ => .acquire .rq
  | .wakeInsert _ _ _ => .none
  | .wakeRqRelease _ _ _ => .release .rq
  | .wakeRelease _ q _ => .release (.proc q)
  | .wakeNext _ _ _ => .none
  | .zombieExit => .none

/-- Where the thread of process `p` goes, with what it changes on the way.  The
flag says that it gives up the CPU (`swtch` in `sched`).  A process that comes
back after its exit panics, so it has no step. -/
def threadStep (program : ℕ → Point → Instr Point Data) (p : ℕ) (shared : Shared Data)
    (choice : ℕ) : Thread Point → Option (Shared Data × Thread Point × Bool)
  | .forkret k => some (shared, .exec k, false)
  | .exec k =>
      match program p k with
      | .acquire _ k' => some (shared, .exec k', false)
      | .release _ k' => some (shared, .exec k', false)
      | .sleep chan k' => some (shared, .sleepRelease chan k', false)
      | .wakeup chan k' => some (shared, .wakeHead chan shared.processList.head? k', false)
      | .update f => (f shared choice).map fun (shared', k') => (shared', .exec k', false)
      | .sched => some (shared, .zombieExit, true)
  | .sleepRelease chan k => some (shared, .sleepMark chan k, false)
  | .sleepMark chan k =>
      some ({ shared with
          chan := Function.update shared.chan p (some chan)
          status := Function.update shared.status p .sleeping },
        .sleepWoke k, true)
  | .sleepWoke k =>
      some ({ shared with chan := Function.update shared.chan p none }, .sleepAcquire k, false)
  | .sleepAcquire k => some (shared, .sleepUnlock k, false)
  | .sleepUnlock k => some (shared, .exec k, false)
  | .wakeHead _ none k => some (shared, .exec k, false)
  | .wakeHead chan (some q) k =>
      if q = p then some (shared, .wakeNext chan q k, false)
      else some (shared, .wakeTest chan q k, false)
  | .wakeTest chan q k =>
      if shared.status q = .sleeping ∧ shared.chan q = some chan then
        some ({ shared with status := Function.update shared.status q .runnable },
          .wakePush chan q k, false)
      else some (shared, .wakeRelease chan q k, false)
  | .wakePush chan q k => some (shared, .wakeInsert chan q k, false)
  | .wakeInsert chan q k => some (rbPushBack shared q, .wakeRqRelease chan q k, false)
  | .wakeRqRelease chan q k => some (shared, .wakeRelease chan q k, false)
  | .wakeRelease chan q k => some (shared, .wakeNext chan q k, false)
  | .wakeNext chan q k => some (shared, .wakeHead chan (listNext shared q) k, false)
  | .zombieExit => none

/-- What CPU `i` does to the locks next. -/
def lockOp (program : ℕ → Point → Instr Point Data) (s : State Point Data) (i : ℕ) : LockOp :=
  match s.cpu i with
  | .top => .acquire .rq
  | .scan => .none
  | .found _ => .release .rq
  | .pick p => .acquire (.proc p)
  | .enter _ => .none
  | .run p => threadOp program p (s.thread p)
  | .back p => .release (.proc p)

/-- The rest of the step of CPU `i`. -/
def advance (program : ℕ → Point → Instr Point Data) (s : State Point Data) (i choice : ℕ) :
    Option (State Point Data) :=
  match s.cpu i with
  | .top => some { s with cpu := Function.update s.cpu i .scan }
  | .scan =>
      let (next, queue) := pickNext s.shared.status s.shared.runQueue
      some { s with
        cpu := Function.update s.cpu i (.found next)
        shared := refreshMinVruntime { s.shared with runQueue := queue } }
  | .found none => some { s with cpu := Function.update s.cpu i .top }
  | .found (some p) => some { s with cpu := Function.update s.cpu i (.pick p) }
  | .pick p => some { s with cpu := Function.update s.cpu i (.enter p) }
  | .enter p =>
      some { s with
        cpu := Function.update s.cpu i (.run p)
        shared := { s.shared with status := Function.update s.shared.status p .running } }
  | .run p =>
      (threadStep program p s.shared choice (s.thread p)).map fun (shared, t, leaves) =>
        { s with
          cpu := if leaves then Function.update s.cpu i (.back p) else s.cpu
          thread := Function.update s.thread p t
          shared := shared }
  | .back _ => some { s with cpu := Function.update s.cpu i .top }

/-- `acquire` waits until the lock is free; `release` panics when the CPU does not
hold the lock. -/
def lockStep (holder : Lock → Option ℕ) (i : ℕ) : LockOp → Option (Lock → Option ℕ)
  | .acquire lock =>
      if holder lock = none then some (Function.update holder lock (some i)) else none
  | .release lock =>
      if holder lock = some i then some (Function.update holder lock none) else none
  | .none => some holder

/-- One step of CPU `i`; `choice` is what the program makes of its freedom. -/
def step (program : ℕ → Point → Instr Point Data) (s : State Point Data) (i choice : ℕ) :
    Option (State Point Data) :=
  (lockStep s.holder i (lockOp program s i)).bind fun holder =>
    (advance program s i choice).map fun after => { after with holder := holder }

/-- A move of one of the `ncpu` CPUs. -/
def next (program : ℕ → Point → Instr Point Data) (ncpu : ℕ) (s : State Point Data)
    (move : ℕ × ℕ) : Option (State Point Data) :=
  if move.1 < ncpu then step program s move.1 move.2 else none

def Step (program : ℕ → Point → Instr Point Data) (ncpu : ℕ) (s : State Point Data)
    (move : ℕ × ℕ) (s' : State Point Data) : Prop :=
  next program ncpu s move = some s'

theorem step_of_next {program : ℕ → Point → Instr Point Data} {ncpu : ℕ}
    {s s' : State Point Data} {move : ℕ × ℕ} (hstep : Step program ncpu s move s') :
    step program s move.1 move.2 = some s' := by
  unfold Step next at hstep
  split at hstep
  · exact hstep
  · cases hstep

/-- The processes of `procs` have been created; those of `ready` are to run. -/
def created (procs ready : List ℕ) (vruntime : ℕ → ℕ) (data : Data) : Shared Data where
  status := fun p => if p ∈ ready then .runnable else .initial
  chan := fun _ => none
  vruntime := vruntime
  minVruntime := 0
  processList := procs
  stale := fun _ => none
  runQueue := []
  data := data

/-- The processes of `ready` have been pushed and every CPU enters `schedule`. -/
def boot (procs ready : List ℕ) (vruntime : ℕ → ℕ) (k : Point) (data : Data) :
    State Point Data where
  holder := fun _ => none
  cpu := fun _ => .top
  thread := fun _ => .forkret k
  shared := ready.foldl rbPushBack (created procs ready vruntime data)

/-- CPU `i` spins on a lock that CPU `j` holds. -/
def WaitFor (program : ℕ → Point → Instr Point Data) (s : State Point Data) (i j : ℕ) : Prop :=
  ∃ lock, lockOp program s i = .acquire lock ∧ s.holder lock = some j

end Painting.Threads
