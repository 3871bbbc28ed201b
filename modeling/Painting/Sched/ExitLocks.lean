import Painting.Sched.SleepLock

/-!
# Two processes that exit

`process_exit` (`proc.c`) calls `wakeup` on the parent with the lock of the process held, and
`wakeup` takes the lock of every other process on `process_list`.  Two processes that are in
their walks at once, each still before the other, block each other for good.

What `process_exit` does before it takes the lock, and the exit state, are left out.
-/

namespace Painting.ExitLocks

open Painting.Threads Painting.Transition
open Painting.SleepLock (after nextIn_eq after_of_after)

/-- The points of `process_exit`; at `user` a process runs other code. -/
inductive Point
  | user
  | exitAcquire
  | exitMark
  | exitWake
  | exitSched
  deriving DecidableEq

/-- `process_exit` of process `p`. -/
def program (parent : ℕ → Option ℕ) (p : ℕ) : Point → Instr Point Unit
  | .user => .update fun shared _ => some (shared, .exitAcquire)
  | .exitAcquire => .acquire (.proc p) .exitMark
  | .exitMark => .update fun shared _ =>
      some ({ shared with status := Function.update shared.status p .zimbie }, .exitWake)
  | .exitWake =>
      match parent p with
      | some parent => .wakeup parent .exitSched
      | none => .update fun shared _ => some (shared, .exitSched)
  | .exitSched => .sched

/-- The processes of `procs` are on `process_list`, and those of `ready` are to run. -/
def start (procs ready : List ℕ) (vruntime : ℕ → ℕ) : State Point Unit :=
  boot procs ready vruntime .user ()

/-- Two processes hold their own locks, and each of them spins on the lock of the other. -/
def BlockedPair (parent : ℕ → Option ℕ) (s : State Point Unit) (p q : ℕ) : Prop :=
  p ≠ q ∧ ∃ i j, (s.cpu i = .run p ∧ s.holder (.proc p) = some i ∧
      lockOp (program parent) s i = .acquire (.proc q)) ∧
    s.cpu j = .run q ∧ s.holder (.proc q) = some j ∧
      lockOp (program parent) s j = .acquire (.proc p)

/-- The processes that an exiting process has yet to visit, from the time on when it holds its own
lock. -/
def ahead (procs : List ℕ) (parent : Option ℕ) : Thread Point → List ℕ
  | .exec .exitMark => if parent.isSome then procs else []
  | .exec .exitWake => if parent.isSome then procs else []
  | .wakeHead _ (some e) _ => e :: after e procs
  | .wakeTest _ e _ => after e procs
  | .wakePush _ e _ => after e procs
  | .wakeInsert _ e _ => after e procs
  | .wakeRqRelease _ e _ => after e procs
  | .wakeRelease _ e _ => after e procs
  | .wakeNext _ e _ => after e procs
  | _ => []

/-- A process with a parent takes its own lock in `process_exit` only when no other exiting process
has yet to visit it. -/
def Alone (procs : List ℕ) (parent : ℕ → Option ℕ) (s : State Point Unit) (move : ℕ × ℕ) : Prop :=
  ∀ p, s.cpu move.1 = .run p → s.thread p = .exec .exitAcquire → (parent p).isSome →
    ∀ q, p ∉ ahead procs (parent q) (s.thread q)

section Steps

variable {procs : List ℕ} {parent : ℕ → Option ℕ} {s s' : State Point Unit}

/-- `wakeup` returns to the last point of `process_exit`. -/
def ReturnOk : Thread Point → Prop
  | .exec _ => True
  | .forkret k => k = .user
  | .zombieExit => True
  | .wakeHead _ _ k => k = .exitSched
  | .wakeTest _ _ k => k = .exitSched
  | .wakePush _ _ k => k = .exitSched
  | .wakeInsert _ _ k => k = .exitSched
  | .wakeRqRelease _ _ k => k = .exitSched
  | .wakeRelease _ _ k => k = .exitSched
  | .wakeNext _ _ k => k = .exitSched
  | _ => False

section Thread

variable {p choice : ℕ} {shared shared' : Shared Unit} {t t' : Thread Point} {leaves : Bool}

theorem threadStep_list
    (hthread : threadStep (program parent) p shared choice t = some (shared', t', leaves)) :
    shared'.processList = shared.processList ∧ shared'.stale = shared.stale := by
  unfold threadStep at hthread
  split at hthread
  case h_2 k => cases k <;> grind [program]
  all_goals grind [rbPushBack_eq]

theorem threadStep_returnOk (hreturn : ReturnOk t)
    (hthread : threadStep (program parent) p shared choice t = some (shared', t', leaves)) :
    ReturnOk t' := by
  unfold threadStep at hthread
  split at hthread
  case h_2 k => cases k <;> grind [program, ReturnOk]
  all_goals grind [ReturnOk]

/-- The walk goes on with the processes after the one it is at. -/
theorem ahead_wakeNext (hnodup : shared.processList.Nodup) (hstale : shared.stale = fun _ => none)
    (chan e : ℕ) (k : Point) (parent : Option ℕ) :
    ahead shared.processList parent (.wakeHead chan (listNext shared e) k) ⊆
      after e shared.processList := by
  cases hnext : listNext shared e with
  | none => exact List.nil_subset _
  | some next =>
      have hhead : (after e shared.processList).head? = some next := by
        unfold listNext at hnext
        split at hnext
        · rw [← nextIn_eq, hnext]
        · rw [hstale] at hnext
          cases hnext
      obtain ⟨rest, hrest⟩ := List.head?_eq_some_iff.mp hhead
      rw [ahead, hrest, after_of_after hnodup hrest]
      exact List.Subset.refl _

/-- Only the acquisition of its own lock gives a process others to visit. -/
theorem ahead_subset (hnodup : shared.processList.Nodup) (hstale : shared.stale = fun _ => none)
    (hreturn : ReturnOk t) (hacquire : t ≠ .exec .exitAcquire)
    (hthread : threadStep (program parent) p shared choice t = some (shared', t', leaves)) :
    ahead shared.processList (parent p) t' ⊆ ahead shared.processList (parent p) t := by
  cases t with
  | exec k =>
      cases k with
      | exitAcquire => exact absurd rfl hacquire
      | exitWake =>
          cases hparent : parent p with
          | none =>
              simp only [threadStep, program, hparent, Option.map_some, Option.some.injEq,
                Prod.mk.injEq] at hthread
              obtain ⟨-, rfl, -⟩ := hthread
              exact List.nil_subset _
          | some boss =>
              simp only [threadStep, program, hparent, Option.some.injEq, Prod.mk.injEq] at hthread
              obtain ⟨-, rfl, -⟩ := hthread
              cases hlist : shared.processList with
              | nil => exact List.nil_subset _
              | cons e es => simp [ahead, after]
      | _ =>
          simp only [threadStep, program, Option.map_some, Option.some.injEq,
            Prod.mk.injEq] at hthread
          obtain ⟨-, rfl, -⟩ := hthread
          first
            | exact List.nil_subset _
            | exact List.Subset.refl _
  | wakeHead chan e k =>
      cases e with
      | none =>
          simp only [threadStep, Option.some.injEq, Prod.mk.injEq] at hthread
          obtain ⟨-, rfl, -⟩ := hthread
          rw [show k = .exitSched from hreturn]
          exact List.nil_subset _
      | some q =>
          simp only [threadStep] at hthread
          split at hthread
          all_goals
            simp only [Option.some.injEq, Prod.mk.injEq] at hthread
            obtain ⟨-, rfl, -⟩ := hthread
            exact List.subset_cons_self q _
  | wakeTest chan q k =>
      simp only [threadStep] at hthread
      split at hthread
      all_goals
        simp only [Option.some.injEq, Prod.mk.injEq] at hthread
        obtain ⟨-, rfl, -⟩ := hthread
        exact List.Subset.refl _
  | wakeNext chan q k =>
      simp only [threadStep, Option.some.injEq, Prod.mk.injEq] at hthread
      obtain ⟨-, rfl, -⟩ := hthread
      exact ahead_wakeNext hnodup hstale chan q k (parent p)
  | forkret k =>
      simp only [threadStep, Option.some.injEq, Prod.mk.injEq] at hthread
      obtain ⟨-, rfl, -⟩ := hthread
      rw [show k = .user from hreturn]
      exact List.nil_subset _
  | zombieExit => simp [threadStep] at hthread
  | sleepRelease | sleepMark | sleepWoke | sleepAcquire | sleepUnlock => exact hreturn.elim
  | _ =>
      simp only [threadStep, Option.some.injEq, Prod.mk.injEq] at hthread
      obtain ⟨-, rfl, -⟩ := hthread
      exact List.Subset.refl _

end Thread

/-- Of two processes at most one has the other ahead. -/
structure Safe (procs : List ℕ) (parent : ℕ → Option ℕ) (s : State Point Unit) : Prop where
  list : s.shared.processList = procs
  stale : s.shared.stale = fun _ => none
  returns : ∀ p, ReturnOk (s.thread p)
  apart : ∀ p q, p ≠ q → q ∈ ahead procs (parent p) (s.thread p) →
    p ∉ ahead procs (parent q) (s.thread q)

theorem start_safe (procs ready : List ℕ) (vruntime : ℕ → ℕ) (parent : ℕ → Option ℕ) :
    Safe procs parent (start procs ready vruntime) := by
  obtain ⟨_, _, _, hlist, hstale⟩ := boot_shared procs ready vruntime Point.user ()
  exact ⟨hlist, hstale, fun _ => rfl, fun _ _ _ => nofun⟩

/-- A step of the thread of `p` keeps the invariant. -/
theorem run_safe (hnodup : procs.Nodup) (hsafe : Safe procs parent s) {i p choice : ℕ}
    {leaves : Bool} {holder : Lock → Option ℕ} {cpu : ℕ → Cpu} {shared : Shared Unit}
    {t : Thread Point} (hcpu : s.cpu i = .run p) (halone : Alone procs parent s (i, choice))
    (hthread : threadStep (program parent) p s.shared choice (s.thread p) =
      some (shared, t, leaves)) :
    Safe procs parent ⟨holder, cpu, Function.update s.thread p t, shared⟩ := by
  obtain ⟨hlist, hstale⟩ := threadStep_list hthread
  have happart : ∀ q, q ≠ p → q ∈ ahead procs (parent p) t →
      p ∉ ahead procs (parent q) (s.thread q) := by
    intro q hq hmem
    by_cases hacquire : s.thread p = .exec .exitAcquire
    · have hparent : (parent p).isSome := by
        rw [hacquire] at hthread
        simp only [threadStep, program, Option.some.injEq, Prod.mk.injEq] at hthread
        obtain ⟨-, rfl, -⟩ := hthread
        by_contra hnone
        rw [ahead, if_neg hnone] at hmem
        cases hmem
      exact halone p hcpu hacquire hparent q
    · have hsubset := ahead_subset (hsafe.list ▸ hnodup) hsafe.stale (hsafe.returns p) hacquire
        hthread
      rw [hsafe.list] at hsubset
      exact hsafe.apart p q (Ne.symm hq) (hsubset hmem)
  refine ⟨hlist.trans hsafe.list, hstale.trans hsafe.stale, fun q => ?_, fun q r hne hmem => ?_⟩
  · dsimp only
    by_cases hq : q = p
    · rw [hq, Function.update_self]
      exact threadStep_returnOk (hsafe.returns p) hthread
    · rw [Function.update_of_ne hq]
      exact hsafe.returns q
  · dsimp only at hmem ⊢
    by_cases hq : q = p
    · subst hq
      rw [Function.update_self] at hmem
      rw [Function.update_of_ne (Ne.symm hne)]
      exact happart r (Ne.symm hne) hmem
    · rw [Function.update_of_ne hq] at hmem
      by_cases hr : r = p
      · subst hr
        rw [Function.update_self]
        exact fun hback => happart q hq hback hmem
      · rw [Function.update_of_ne hr]
        exact hsafe.apart q r hne hmem

theorem step_safe (hnodup : procs.Nodup) (hsafe : Safe procs parent s) {i choice : ℕ}
    (halone : Alone procs parent s (i, choice))
    (hstep : step (program parent) s i choice = some s') : Safe procs parent s' := by
  obtain ⟨holder, -, hmove | hscan | henter | hrun⟩ := step_cases hstep
  · obtain ⟨before, next, -, -, rfl⟩ := hmove
    exact ⟨hsafe.list, hsafe.stale, hsafe.returns, hsafe.apart⟩
  · obtain ⟨-, rfl⟩ := hscan
    have hrefresh := refreshMinVruntime_eq { s.shared with
      runQueue := (pickNext s.shared.status s.shared.runQueue).2 }
    exact ⟨hrefresh.2.2.2.1.trans hsafe.list, hrefresh.2.2.2.2.1.trans hsafe.stale,
      hsafe.returns, hsafe.apart⟩
  · obtain ⟨p, -, rfl⟩ := henter
    exact ⟨hsafe.list, hsafe.stale, hsafe.returns, hsafe.apart⟩
  · obtain ⟨p, shared, t, leaves, hcpu, hthread, rfl⟩ := hrun
    exact run_safe hnodup hsafe hcpu halone hthread

/-- A process spins on the lock of another one only in its walk. -/
theorem mem_ahead_of_spins {i p q : ℕ} (hreturn : ReturnOk (s.thread p)) (hcpu : s.cpu i = .run p)
    (hne : p ≠ q) (hspin : lockOp (program parent) s i = .acquire (.proc q)) :
    q ∈ ahead procs (parent p) (s.thread p) := by
  simp only [lockOp, hcpu] at hspin
  cases hthread : s.thread p with
  | exec k =>
      rw [hthread] at hspin
      cases k with
      | exitAcquire =>
          simp only [threadOp, program, LockOp.acquire.injEq, Lock.proc.injEq] at hspin
          exact absurd hspin hne
      | exitWake =>
          cases hparent : parent p <;> simp [threadOp, program, hparent] at hspin
      | _ => simp [threadOp, program] at hspin
  | wakeHead chan e k =>
      rw [hthread] at hspin
      cases e with
      | none => simp [threadOp] at hspin
      | some e =>
          simp only [threadOp] at hspin
          split at hspin
          · cases hspin
          · obtain rfl := Lock.proc.inj (LockOp.acquire.inj hspin)
            exact List.mem_cons_self
  | sleepAcquire k =>
      rw [hthread] at hreturn
      exact hreturn.elim
  | _ => simp [hthread, threadOp] at hspin

end Steps

/-- In every run in which no process with a parent takes its own lock while another exiting
process has yet to visit it, no two processes that hold their own locks spin on each other's. -/
theorem notBlockedPair_of_reach {procs : List ℕ} (hnodup : procs.Nodup) (ready : List ℕ)
    (vruntime : ℕ → ℕ) (parent : ℕ → Option ℕ) (ncpu : ℕ) {s : State Point Unit}
    (hreach : Reach (Step (program parent) ncpu) (Alone procs parent)
      (start procs ready vruntime) s) (p q : ℕ) : ¬ BlockedPair parent s p q := by
  have hsafe : Safe procs parent s := by
    apply hreach.invariant (start_safe procs ready vruntime parent)
    intro before move after hsafe halone hstep
    exact step_safe hnodup hsafe halone (step_of_next hstep)
  rintro ⟨hne, i, j, ⟨hi, -, hspins⟩, hj, -, hspinsBack⟩
  have hahead : q ∈ ahead procs (parent p) (s.thread p) :=
    mem_ahead_of_spins (hsafe.returns p) hi hne hspins
  have hback : p ∈ ahead procs (parent q) (s.thread q) :=
    mem_ahead_of_spins (hsafe.returns q) hj (Ne.symm hne) hspinsBack
  exact hsafe.apart p q hne hahead hback

/-- Processes 1 and 2 are children of process 0. -/
def siblings (p : ℕ) : Option ℕ :=
  if p = 1 ∨ p = 2 then some 0 else none

/-- A step that is not the acquisition of a process with a parent. -/
def nextAlone (s : State Point Unit) (move : ℕ × ℕ) : Option (State Point Unit) :=
  match s.cpu move.1 with
  | .run p =>
      if s.thread p = .exec .exitAcquire ∧ (siblings p).isSome then none
      else next (program siblings) 2 s move
  | _ => next (program siblings) 2 s move

theorem nextAlone_spec {procs : List ℕ} (s : State Point Unit) (move : ℕ × ℕ)
    (s' : State Point Unit) (hnext : nextAlone s move = some s') :
    Alone procs siblings s move ∧ Step (program siblings) 2 s move s' := by
  unfold nextAlone at hnext
  split at hnext
  · rename_i p hcpu
    split at hnext
    · cases hnext
    · rename_i hother
      refine ⟨fun q hq hacquire hparent => ?_, hnext⟩
      obtain rfl := Cpu.run.inj (hcpu.symm.trans hq)
      exact absurd ⟨hacquire, hparent⟩ hother
  · rename_i hcpu
    exact ⟨fun q hq => absurd hq (hcpu q), hnext⟩

/-- Process 0, which has no parent, exits on CPU 0; process 1 is about to take its own lock on
CPU 1. -/
def rootMoves : List (ℕ × ℕ) :=
  List.replicate 11 (0, 0) ++ List.replicate 7 (1, 0)

def rootExited : State Point Unit :=
  (follow nextAlone rootMoves (start [0, 1, 2] [0, 1] fun _ => 0)).get (by decide +kernel)

theorem notBlockedPair_rootExited : ¬ BlockedPair siblings rootExited 0 1 := by
  have hreach : Reach (Step (program siblings) 2) (Alone [0, 1, 2] siblings)
      (start [0, 1, 2] [0, 1] fun _ => 0) rootExited :=
    reach_of_guarded nextAlone_spec (Option.some_get (by decide +kernel)).symm
  exact notBlockedPair_of_reach (by decide) [0, 1] (fun _ => 0) siblings 2 hreach 0 1

/-- Processes 1 and 2 both take their own locks, on two CPUs, before either walks the list. -/
def blockedMoves : List (ℕ × ℕ) :=
  List.replicate 8 (0, 0) ++ List.replicate 8 (1, 0) ++ List.replicate 8 (0, 0) ++
    List.replicate 6 (1, 0)

def blocked : State Point Unit :=
  (follow (next (program siblings) 2) blockedMoves (start [0, 1, 2] [1, 2] fun _ => 0)).get
    (by decide +kernel)

/-- CPU 0 then spins on the lock of process 2 and CPU 1 on the lock of process 1. -/
theorem exists_blockedPair :
    ¬ ∀ s, Reach (Step (program siblings) 2) Unguarded (start [0, 1, 2] [1, 2] fun _ => 0) s →
      ∀ p q, ¬ BlockedPair siblings s p q := by
  intro hnone
  have hreach : Reach (Step (program siblings) 2) Unguarded
      (start [0, 1, 2] [1, 2] fun _ => 0) blocked :=
    reach_of_follow (fun _ _ _ hnext => hnext) (Option.some_get (by decide +kernel)).symm
  have hfirst : blocked.cpu 0 = .run 1 ∧ blocked.holder (.proc 1) = some 0 ∧
      lockOp (program siblings) blocked 0 = .acquire (.proc 2) := by
    decide +kernel
  have hsecond : blocked.cpu 1 = .run 2 ∧ blocked.holder (.proc 2) = some 1 ∧
      lockOp (program siblings) blocked 1 = .acquire (.proc 1) := by
    decide +kernel
  exact hnone blocked hreach 1 2 ⟨by decide, 0, 1, hfirst, hsecond⟩

end Painting.ExitLocks
