import Painting.Sched.ThreadsInvariant

/-!
# Waiting for a child to exit

One process calls `process_wait` (`proc.c`) over and over, with any pid; every other
process may call `process_exit` once.  `process_wait` walks `process_list` under
`process_lock` and looks at each child under the child's lock, then sleeps on its own
address.  `process_exit` marks the process a zombie and calls `wakeup` on its parent
under its own lock alone, without `process_lock`.

What reaping frees besides the list element, and the exit state, are left out.
-/

namespace Painting.WaitExit

open Painting.Threads Painting.Transition

/-- The processes of the system: `process_list` at the start, the `parent` fields and
the process that waits. -/
structure Family where
  procs : List ℕ
  nodup : procs.Nodup
  parent : ℕ → Option ℕ
  waiter : ℕ
  mem : waiter ∈ procs
  notOwn : parent waiter ≠ some waiter

/-- The points of `process_wait` and `process_exit`; at `user` a process runs user
code.  The arguments are the local variables, and `seen` lists the children that
`process_wait` has found alive in this pass, for the proof alone. -/
inductive Point
  | user
  | waitAcquire (pid : ℕ)
  | waitPass (pid : ℕ) (seen : List ℕ)
  | waitLook (pid : ℕ) (e : Option ℕ) (haveKids : Bool) (seen : List ℕ)
  | waitLock (pid child : ℕ) (haveKids : Bool) (seen : List ℕ)
  | waitTest (pid child : ℕ) (haveKids : Bool) (seen : List ℕ)
  | waitUnlock (pid child : ℕ) (seen : List ℕ)
  | waitNext (pid child : ℕ) (seen : List ℕ)
  | waitSleep (pid : ℕ) (seen : List ℕ)
  | waitReap (child : ℕ)
  | waitReapUnlock (child : ℕ)
  | waitReturn
  | exitAcquire
  | exitMark
  | exitWake
  | exitSched
  deriving DecidableEq

variable (family : Family)

/-- `process_wait(pid)` looks for this child. -/
def Awaited (pid child : ℕ) : Prop :=
  family.parent child = some family.waiter ∧ (pid = 0 ∨ child = pid)

instance (pid child : ℕ) : Decidable (Awaited family pid child) :=
  inferInstanceAs (Decidable (_ ∧ _))

/-- `process_wait` for the waiting process, `process_exit` for the others. -/
def program (p : ℕ) : Point → Instr Point Unit
  | .user => .update fun shared choice =>
      some (shared, if p = family.waiter then .waitAcquire choice else .exitAcquire)
  | .waitAcquire pid => .acquire .user (.waitPass pid [])
  | .waitPass pid _ => .update fun shared _ =>
      some (shared, .waitLook pid shared.processList.head? false [])
  | .waitLook pid none haveKids seen => .update fun shared _ =>
      some (shared, if haveKids then .waitSleep pid seen else .waitReturn)
  | .waitLook pid (some child) haveKids seen => .update fun shared _ =>
      if Awaited family pid child then some (shared, .waitLock pid child haveKids seen)
      else some (shared, .waitLook pid (listNext shared child) haveKids seen)
  | .waitLock pid child haveKids seen =>
      .acquire (.proc child) (.waitTest pid child haveKids seen)
  | .waitTest pid child _ seen => .update fun shared _ =>
      if shared.status child = .zimbie then some (shared, .waitReap child)
      else some (shared, .waitUnlock pid child (child :: seen))
  | .waitUnlock pid child seen => .release (.proc child) (.waitNext pid child seen)
  | .waitNext pid child seen => .update fun shared _ =>
      some (shared, .waitLook pid (listNext shared child) true seen)
  | .waitSleep pid seen => .sleep family.waiter (.waitPass pid seen)
  | .waitReap child => .update fun shared _ =>
      some (listRemove shared child, .waitReapUnlock child)
  | .waitReapUnlock child => .release (.proc child) .waitReturn
  | .waitReturn => .release .user .user
  | .exitAcquire => .acquire (.proc p) .exitMark
  | .exitMark => .update fun shared _ =>
      some ({ shared with status := Function.update shared.status p .zimbie }, .exitWake)
  | .exitWake =>
      match family.parent p with
      | some parent => .wakeup parent .exitSched
      | none => .update fun shared _ => some (shared, .exitSched)
  | .exitSched => .sched

/-- All processes are ready to run. -/
def start (vruntime : ℕ → ℕ) : State Point Unit :=
  boot family.procs family.procs vruntime .user ()

/-- The process has called `wakeup` on its parent and has yet to give up the CPU, or
has given it up. -/
def Finished (t : Thread Point) : Prop :=
  t = .exec .exitSched ∨ t = .zombieExit

/-- The waiting process sleeps on its own channel in `process_wait(pid)`, and a child
it waits for is a zombie that has finished its wakeup. -/
def LostWakeup (s : State Point Unit) : Prop :=
  s.shared.status family.waiter = .sleeping ∧
    s.shared.chan family.waiter = some family.waiter ∧
    ∃ pid seen, s.thread family.waiter = .sleepWoke (.waitPass pid seen) ∧
      ∃ child, child ∈ s.shared.processList ∧ Awaited family pid child ∧
        s.shared.status child = .zimbie ∧ Finished (s.thread child)

/-- The children found alive in a pass that has not yet ended in sleep. -/
def passOf : Thread Point → Option (List ℕ)
  | .exec (.waitLook _ _ _ seen) => some seen
  | .exec (.waitLock _ _ _ seen) => some seen
  | .exec (.waitTest _ _ _ seen) => some seen
  | .exec (.waitUnlock _ _ seen) => some seen
  | .exec (.waitNext _ _ seen) => some seen
  | .exec (.waitSleep _ seen) => some seen
  | .sleepRelease _ (.waitPass _ seen) => some seen
  | .sleepMark _ (.waitPass _ seen) => some seen
  | _ => none

/-- No child looks at its parent's status in `wakeup` while the parent is between
finding that child alive and being marked asleep. -/
def NoRace (s : State Point Unit) (move : ℕ × ℕ) : Prop :=
  ∀ child chan k seen, s.cpu move.1 = .run child →
    s.thread child = .wakeTest chan family.waiter k →
    passOf (s.thread family.waiter) = some seen → child ∉ seen

/-! ## Locks -/

/-- The locks held at each point. -/
def held (p : ℕ) (k : Point) (lock : Lock) : Prop :=
  match k with
  | .user => False
  | .waitAcquire _ => False
  | .exitAcquire => False
  | .waitTest _ child _ _ => lock = .user ∨ lock = .proc child
  | .waitUnlock _ child _ => lock = .user ∨ lock = .proc child
  | .waitReap child => lock = .user ∨ lock = .proc child
  | .waitReapUnlock child => lock = .user ∨ lock = .proc child
  | .exitMark => lock = .proc p
  | .exitWake => lock = .proc p
  | .exitSched => lock = .proc p
  | _ => lock = .user

theorem lawful : Lawful (program family) held where
  acquire := by
    intro p k lock k' hinstr l
    cases k with
    | waitAcquire pid =>
        simp only [program, Instr.acquire.injEq] at hinstr
        obtain ⟨rfl, rfl⟩ := hinstr
        simp [held]
    | waitLock pid child haveKids seen =>
        simp only [program, Instr.acquire.injEq] at hinstr
        obtain ⟨rfl, rfl⟩ := hinstr
        simp [held, or_comm]
    | exitAcquire =>
        simp only [program, Instr.acquire.injEq] at hinstr
        obtain ⟨rfl, rfl⟩ := hinstr
        simp [held]
    | waitLook pid e haveKids seen => cases e <;> simp [program] at hinstr
    | exitWake => cases hparent : family.parent p <;> simp [program, hparent] at hinstr
    | _ => simp [program] at hinstr
  release := by
    intro p k lock k' hinstr l
    cases k with
    | waitUnlock pid child seen =>
        simp only [program, Instr.release.injEq] at hinstr
        obtain ⟨rfl, rfl⟩ := hinstr
        cases l <;> simp [held]
    | waitReapUnlock child =>
        simp only [program, Instr.release.injEq] at hinstr
        obtain ⟨rfl, rfl⟩ := hinstr
        cases l <;> simp [held]
    | waitReturn =>
        simp only [program, Instr.release.injEq] at hinstr
        obtain ⟨rfl, rfl⟩ := hinstr
        simp [held]
    | waitLook pid e haveKids seen => cases e <;> simp [program] at hinstr
    | exitWake => cases hparent : family.parent p <;> simp [program, hparent] at hinstr
    | _ => simp [program] at hinstr
  sleep := by
    intro p k chan k' hinstr l
    cases k with
    | waitSleep pid seen =>
        simp only [program, Instr.sleep.injEq] at hinstr
        obtain ⟨rfl, rfl⟩ := hinstr
        simp [held]
    | waitLook pid e haveKids seen => cases e <;> simp [program] at hinstr
    | exitWake => cases hparent : family.parent p <;> simp [program, hparent] at hinstr
    | _ => simp [program] at hinstr
  wakeup := by
    intro p k chan k' hinstr
    cases k with
    | exitWake =>
        cases hparent : family.parent p with
        | none => simp [program, hparent] at hinstr
        | some parent =>
            simp only [program, hparent, Instr.wakeup.injEq] at hinstr
            obtain ⟨rfl, rfl⟩ := hinstr
            simp [held]
    | waitLook pid e haveKids seen => cases e <;> simp [program] at hinstr
    | _ => simp [program] at hinstr
  update := by
    intro p k f shared choice shared' k' hinstr hf
    cases k with
    | user =>
        simp only [program, Instr.update.injEq] at hinstr
        subst hinstr
        simp only [Option.some.injEq, Prod.mk.injEq] at hf
        obtain ⟨rfl, rfl⟩ := hf
        split <;> simp [held]
    | waitLook pid e haveKids seen =>
        cases e with
        | none =>
            simp only [program, Instr.update.injEq] at hinstr
            subst hinstr
            simp only [Option.some.injEq, Prod.mk.injEq] at hf
            obtain ⟨rfl, rfl⟩ := hf
            split <;> simp [held]
        | some child =>
            simp only [program, Instr.update.injEq] at hinstr
            subst hinstr
            dsimp only at hf
            split at hf
            all_goals
              simp only [Option.some.injEq, Prod.mk.injEq] at hf
              obtain ⟨rfl, rfl⟩ := hf
              simp [held]
    | waitTest pid child haveKids seen =>
        simp only [program, Instr.update.injEq] at hinstr
        subst hinstr
        dsimp only at hf
        split at hf
        all_goals
          simp only [Option.some.injEq, Prod.mk.injEq] at hf
          obtain ⟨rfl, rfl⟩ := hf
          simp [held]
    | exitMark =>
        simp only [program, Instr.update.injEq] at hinstr
        subst hinstr
        simp only [Option.some.injEq, Prod.mk.injEq] at hf
        obtain ⟨rfl, rfl⟩ := hf
        refine ⟨fun _ => Iff.rfl, rfl, fun q hq => Function.update_of_ne hq _ _, ?_⟩
        simp
    | exitWake =>
        cases hparent : family.parent p with
        | some parent => simp [program, hparent] at hinstr
        | none =>
            simp only [program, hparent, Instr.update.injEq] at hinstr
            subst hinstr
            simp only [Option.some.injEq, Prod.mk.injEq] at hf
            obtain ⟨rfl, rfl⟩ := hf
            simp [held]
    | waitReap child =>
        simp only [program, Instr.update.injEq] at hinstr
        subst hinstr
        simp only [Option.some.injEq, Prod.mk.injEq] at hf
        obtain ⟨rfl, rfl⟩ := hf
        simp [held, listRemove]
    | waitPass pid seen =>
        simp only [program, Instr.update.injEq] at hinstr
        subst hinstr
        simp only [Option.some.injEq, Prod.mk.injEq] at hf
        obtain ⟨rfl, rfl⟩ := hf
        simp [held]
    | waitNext pid child seen =>
        simp only [program, Instr.update.injEq] at hinstr
        subst hinstr
        simp only [Option.some.injEq, Prod.mk.injEq] at hf
        obtain ⟨rfl, rfl⟩ := hf
        simp [held]
    | _ => simp [program] at hinstr
  sched := by
    intro p k hinstr
    cases k with
    | exitSched => exact fun _ => Iff.rfl
    | waitLook pid e haveKids seen => cases e <;> simp [program] at hinstr
    | exitWake => cases hparent : family.parent p <;> simp [program, hparent] at hinstr
    | _ => simp [program] at hinstr

/-! ## The process list -/

/-- The processes before the waiting one. -/
def Family.front (family : Family) : List ℕ :=
  family.procs.takeWhile (· ≠ family.waiter)

theorem waiter_notMem_front : family.waiter ∉ family.front := by
  intro hmem
  have hne := List.mem_takeWhile_imp hmem
  simp at hne

/-- The list keeps the order of the start: what precedes the waiting process preceded
it there, and an element removed from before it still leads to it. -/
structure ListOk (shared : Shared Unit) : Prop where
  nodup : shared.processList.Nodup
  split : ∃ before behind, shared.processList = before ++ family.waiter :: behind ∧
    (∀ q ∈ before, q ∈ family.front) ∧ ∀ q ∈ behind, q ∉ family.front
  stale : ∀ q, q ∈ family.front → q ∉ shared.processList →
    ∃ next, shared.stale q = some next ∧ (next ∈ family.front ∨ next = family.waiter)

theorem nextIn_append {e : ℕ} {before behind : List ℕ} (he : e ∉ before) :
    nextIn e (before ++ e :: behind) = behind.head? := by
  induction before with
  | nil => simp [nextIn]
  | cons x xs ih =>
      simp only [List.mem_cons, not_or] at he
      rw [List.cons_append, nextIn, if_neg (Ne.symm he.1)]
      exact ih he.2

theorem listNext_append {shared : Shared Unit} {e : ℕ} {before behind : List ℕ}
    (hlist : shared.processList = before ++ e :: behind)
    (hnodup : shared.processList.Nodup) : listNext shared e = behind.head? := by
  have hmem : e ∈ shared.processList := by simp [hlist]
  rw [listNext, if_pos hmem, hlist]
  apply nextIn_append
  rw [hlist, List.nodup_append] at hnodup
  intro he
  exact hnodup.2.2 e he e (by simp) rfl

/-- The walk of `wakeup` over the front reaches the waiting process. -/
theorem ListOk.next_front {shared : Shared Unit} (hlist : ListOk family shared) {q : ℕ}
    (hq : q ∈ family.front) :
    ∃ next, listNext shared q = some next ∧ (next ∈ family.front ∨ next = family.waiter) := by
  by_cases hmem : q ∈ shared.processList
  · obtain ⟨before, behind, heq, hbefore, hbehind⟩ := hlist.split
    have hq' : q ∈ before := by
      rw [heq, List.mem_append, List.mem_cons] at hmem
      obtain hmem | rfl | hmem := hmem
      · exact hmem
      · exact absurd hq (waiter_notMem_front family)
      · exact absurd hq (hbehind q hmem)
    obtain ⟨l₁, l₂, rfl⟩ := List.append_of_mem hq'
    rw [List.append_assoc, List.cons_append] at heq
    rw [listNext_append heq hlist.nodup]
    cases l₂ with
    | nil => exact ⟨family.waiter, rfl, .inr rfl⟩
    | cons next l₂ => exact ⟨next, rfl, .inl (hbefore next (by simp))⟩
  · obtain ⟨next, hnext, hfront⟩ := hlist.stale q hq hmem
    exact ⟨next, by rw [listNext, if_neg hmem, hnext], hfront⟩

theorem ListOk.head {shared : Shared Unit} (hlist : ListOk family shared) :
    ∃ first, shared.processList.head? = some first ∧
      (first ∈ family.front ∨ first = family.waiter) := by
  obtain ⟨before, behind, heq, hbefore, _⟩ := hlist.split
  rw [heq]
  cases before with
  | nil => exact ⟨family.waiter, rfl, .inr rfl⟩
  | cons first before => exact ⟨first, rfl, .inl (hbefore first (by simp))⟩

theorem listRemove_ok {shared : Shared Unit} (hlist : ListOk family shared) {child : ℕ}
    (hne : child ≠ family.waiter) : ListOk family (listRemove shared child) := by
  obtain ⟨before, behind, heq, hbefore, hbehind⟩ := hlist.split
  constructor
  · exact hlist.nodup.erase child
  · refine ⟨before.filter (· != child), behind.filter (· != child), ?_, ?_, ?_⟩
    · have hwaiter : (family.waiter != child) = true := by simpa using Ne.symm hne
      simp only [listRemove]
      rw [hlist.nodup.erase_eq_filter, heq, List.filter_append, List.filter_cons, if_pos hwaiter]
    · intro q hq
      exact hbefore q (List.mem_of_mem_filter hq)
    · intro q hq
      exact hbehind q (List.mem_of_mem_filter hq)
  · intro q hq hnot
    by_cases hchild : q = child
    · subst hchild
      simpa [listRemove] using hlist.next_front family hq
    · have hnot' : q ∉ shared.processList := by
        intro hmem
        exact hnot ((List.mem_erase_of_ne hchild).mpr hmem)
      simpa [listRemove, hchild] using hlist.stale q hq hnot'

theorem start_listOk (vruntime : ℕ → ℕ) : ListOk family (start family vruntime).shared := by
  obtain ⟨_, _, _, hlist, hstale⟩ := boot_shared family.procs family.procs vruntime Point.user ()
  obtain ⟨before, behind, heq⟩ := List.append_of_mem family.mem
  have hnodup := family.nodup
  rw [heq, List.nodup_append, List.nodup_cons] at hnodup
  obtain ⟨_, ⟨hbehind, _⟩, hdisjoint⟩ := hnodup
  have hne : ∀ q ∈ before, q ≠ family.waiter := by
    intro q hq
    exact hdisjoint q hq family.waiter (by simp)
  have hfront : family.front = before := by
    rw [Family.front, heq, List.takeWhile_append_of_pos (by simpa using hne)]
    simp
  constructor
  · rw [start, hlist]
    exact family.nodup
  · refine ⟨before, behind, hlist.trans heq, ?_, ?_⟩
    · intro q hq
      exact hfront ▸ hq
    · intro q hq hmem
      rw [hfront] at hmem
      exact hdisjoint q hmem q (by simp [hq]) rfl
  · intro q hq hnot
    rw [start, hlist, heq] at hnot
    rw [hfront] at hq
    exact absurd (List.mem_append_left _ hq) hnot

/-! ## The exiting processes -/

/-- The process has marked itself a zombie. -/
def Marked : Thread Point → Prop
  | .exec .exitWake => True
  | .exec .exitSched => True
  | .wakeHead _ _ _ => True
  | .wakeTest _ _ _ => True
  | .wakePush _ _ _ => True
  | .wakeInsert _ _ _ => True
  | .wakeRqRelease _ _ _ => True
  | .wakeRelease _ _ _ => True
  | .wakeNext _ _ _ => True
  | .zombieExit => True
  | _ => False

/-- The `wakeup` of the process has looked at the waiting process. -/
def Notified : Thread Point → Prop
  | .exec .exitSched => True
  | .wakeHead _ e _ => ∀ q, e = some q → q ∉ family.front ∧ q ≠ family.waiter
  | .wakeTest _ q _ => q ∉ family.front ∧ q ≠ family.waiter
  | .wakePush _ q _ => q ∉ family.front
  | .wakeInsert _ q _ => q ∉ family.front
  | .wakeRqRelease _ q _ => q ∉ family.front
  | .wakeRelease _ q _ => q ∉ family.front
  | .wakeNext _ q _ => q ∉ family.front
  | .zombieExit => True
  | _ => False

theorem marked_of_notified {t : Thread Point} (hnotified : Notified family t) : Marked t := by
  cases t with
  | exec k => cases k <;> simp_all [Notified, Marked]
  | _ => simp_all [Notified, Marked]

/-- Where the thread of an exiting process can be. -/
def ExiterOk (p : ℕ) : Thread Point → Prop
  | .forkret k => k = .user
  | .exec k => k = .user ∨ k = .exitAcquire ∨ k = .exitMark ∨ k = .exitWake ∨ k = .exitSched
  | .wakeHead chan _ k => family.parent p = some chan ∧ k = .exitSched
  | .wakeTest chan _ k => family.parent p = some chan ∧ k = .exitSched
  | .wakePush chan _ k => family.parent p = some chan ∧ k = .exitSched
  | .wakeInsert chan _ k => family.parent p = some chan ∧ k = .exitSched
  | .wakeRqRelease chan _ k => family.parent p = some chan ∧ k = .exitSched
  | .wakeRelease chan _ k => family.parent p = some chan ∧ k = .exitSched
  | .wakeNext chan _ k => family.parent p = some chan ∧ k = .exitSched
  | .zombieExit => True
  | _ => False

/-- One step of an exiting process: the lists and channels stay, a process that is
marked is a zombie, and no status becomes `SLEEPING`. -/
theorem exiterStep {p choice : ℕ} (hp : p ≠ family.waiter) {shared shared' : Shared Unit}
    {t t' : Thread Point} {leaves : Bool} (hok : ExiterOk family p t)
    (hstep : threadStep (program family) p shared choice t = some (shared', t', leaves)) :
    ExiterOk family p t' ∧ shared'.processList = shared.processList ∧
      shared'.stale = shared.stale ∧ shared'.chan = shared.chan ∧
      (Marked t' → Marked t ∨ shared'.status p = .zimbie) ∧
      (∀ q, shared.status q = .zimbie → shared'.status q = .zimbie) ∧
      ∀ q, shared'.status q = .sleeping → shared.status q = .sleeping := by
  cases t with
  | exec k =>
      obtain rfl | rfl | rfl | rfl | rfl := hok
      · simp only [threadStep, program, Option.map_some, Option.some.injEq, Prod.mk.injEq,
          if_neg hp] at hstep
        obtain ⟨rfl, rfl, _⟩ := hstep
        simp [ExiterOk, Marked]
      · simp only [threadStep, program, Option.some.injEq, Prod.mk.injEq] at hstep
        obtain ⟨rfl, rfl, _⟩ := hstep
        simp [ExiterOk, Marked]
      · simp only [threadStep, program, Option.map_some, Option.some.injEq,
          Prod.mk.injEq] at hstep
        obtain ⟨rfl, rfl, _⟩ := hstep
        refine ⟨by simp [ExiterOk], rfl, rfl, rfl, fun _ => .inr (by simp), ?_, ?_⟩
        all_goals
          intro q hq
          by_cases hqp : q = p <;> simp_all
      · cases hparent : family.parent p with
        | none =>
            simp only [threadStep, program, hparent, Option.map_some, Option.some.injEq,
              Prod.mk.injEq] at hstep
            obtain ⟨rfl, rfl, _⟩ := hstep
            simp [ExiterOk, Marked]
        | some chan =>
            simp only [threadStep, program, hparent, Option.some.injEq, Prod.mk.injEq] at hstep
            obtain ⟨rfl, rfl, _⟩ := hstep
            simp [ExiterOk, Marked, hparent]
      · simp only [threadStep, program, Option.some.injEq, Prod.mk.injEq] at hstep
        obtain ⟨rfl, rfl, _⟩ := hstep
        simp [ExiterOk, Marked]
  | wakeHead chan e k =>
      cases e with
      | none =>
          simp only [threadStep, Option.some.injEq, Prod.mk.injEq] at hstep
          obtain ⟨rfl, rfl, _⟩ := hstep
          obtain ⟨_, rfl⟩ := hok
          simp [ExiterOk, Marked]
      | some q =>
          simp only [threadStep] at hstep
          split at hstep
          all_goals
            simp only [Option.some.injEq, Prod.mk.injEq] at hstep
            obtain ⟨rfl, rfl, _⟩ := hstep
            exact ⟨hok, rfl, rfl, rfl, fun _ => .inl trivial, fun _ h => h, fun _ h => h⟩
  | wakeTest chan q k =>
      simp only [threadStep] at hstep
      split at hstep
      · rename_i hasleep
        simp only [Option.some.injEq, Prod.mk.injEq] at hstep
        obtain ⟨rfl, rfl, _⟩ := hstep
        refine ⟨hok, rfl, rfl, rfl, fun _ => .inl trivial, ?_, ?_⟩
        all_goals
          intro r hr
          by_cases hrq : r = q <;> simp_all
      · simp only [Option.some.injEq, Prod.mk.injEq] at hstep
        obtain ⟨rfl, rfl, _⟩ := hstep
        exact ⟨hok, rfl, rfl, rfl, fun _ => .inl trivial, fun _ h => h, fun _ h => h⟩
  | wakeInsert chan q k =>
      simp only [threadStep, Option.some.injEq, Prod.mk.injEq] at hstep
      obtain ⟨rfl, rfl, _⟩ := hstep
      obtain ⟨hstatus, hchan, hprocs, hstale, _⟩ := rbPushBack_eq shared q
      rw [hstatus]
      exact ⟨hok, hprocs, hstale, hchan, fun _ => .inl trivial, fun _ h => h, fun _ h => h⟩
  | forkret k =>
      simp only [threadStep, Option.some.injEq, Prod.mk.injEq] at hstep
      obtain ⟨rfl, rfl, _⟩ := hstep
      obtain rfl : k = .user := hok
      simp [ExiterOk, Marked]
  | zombieExit => simp [threadStep] at hstep
  | sleepRelease chan k => exact hok.elim
  | sleepMark chan k => exact hok.elim
  | sleepWoke k => exact hok.elim
  | sleepAcquire k => exact hok.elim
  | sleepUnlock k => exact hok.elim
  | _ =>
      simp only [threadStep, Option.some.injEq, Prod.mk.injEq] at hstep
      obtain ⟨rfl, rfl, _⟩ := hstep
      exact ⟨hok, rfl, rfl, rfl, fun _ => .inl trivial, fun _ h => h, fun _ h => h⟩

/-- An exiting child passes its parent only by looking at it, which wakes the parent
when it sleeps on its own channel. -/
theorem exiterStep_notified {p choice : ℕ} (hp : p ≠ family.waiter)
    (hparent : family.parent p = some family.waiter) {shared shared' : Shared Unit}
    {t t' : Thread Point} {leaves : Bool} (hlist : ListOk family shared)
    (hok : ExiterOk family p t)
    (hstep : threadStep (program family) p shared choice t = some (shared', t', leaves))
    (hafter : Notified family t') :
    Notified family t ∨ ∃ k, t = .wakeTest family.waiter family.waiter k ∧
      (shared.chan family.waiter = some family.waiter →
        shared'.status family.waiter ≠ .sleeping) := by
  cases t with
  | exec k =>
      obtain rfl | rfl | rfl | rfl | rfl := hok
      · simp only [threadStep, program, Option.map_some, Option.some.injEq, Prod.mk.injEq,
          if_neg hp] at hstep
        obtain ⟨_, rfl, _⟩ := hstep
        exact hafter.elim
      · simp only [threadStep, program, Option.some.injEq, Prod.mk.injEq] at hstep
        obtain ⟨_, rfl, _⟩ := hstep
        exact hafter.elim
      · simp only [threadStep, program, Option.map_some, Option.some.injEq,
          Prod.mk.injEq] at hstep
        obtain ⟨_, rfl, _⟩ := hstep
        exact hafter.elim
      · simp only [threadStep, program, hparent, Option.some.injEq, Prod.mk.injEq] at hstep
        obtain ⟨_, rfl, _⟩ := hstep
        obtain ⟨first, hfirst, hfront⟩ := hlist.head
        have hnot := hafter first hfirst
        tauto
      · exact .inl trivial
  | wakeHead chan e k =>
      cases e with
      | none => exact .inl (by simp [Notified])
      | some q =>
          left
          simp only [Notified, Option.some.injEq, forall_eq']
          simp only [threadStep] at hstep
          split at hstep
          · rename_i hq
            simp only [Option.some.injEq, Prod.mk.injEq] at hstep
            obtain ⟨_, rfl, _⟩ := hstep
            exact ⟨hafter, hq ▸ hp⟩
          · simp only [Option.some.injEq, Prod.mk.injEq] at hstep
            obtain ⟨_, rfl, _⟩ := hstep
            exact hafter
  | wakeTest chan q k =>
      obtain rfl : family.waiter = chan := Option.some.inj (hparent.symm.trans hok.1)
      by_cases hq : q = family.waiter
      · subst hq
        right
        refine ⟨k, rfl, ?_⟩
        intro hchan
        simp only [threadStep] at hstep
        split at hstep
        · simp only [Option.some.injEq, Prod.mk.injEq] at hstep
          obtain ⟨rfl, _, _⟩ := hstep
          simp
        · rename_i hasleep
          simp only [Option.some.injEq, Prod.mk.injEq] at hstep
          obtain ⟨rfl, _, _⟩ := hstep
          exact fun hsleeping => hasleep ⟨hsleeping, hchan⟩
      · left
        simp only [threadStep] at hstep
        split at hstep
        all_goals
          simp only [Option.some.injEq, Prod.mk.injEq] at hstep
          obtain ⟨_, rfl, _⟩ := hstep
          exact ⟨hafter, hq⟩
  | wakeNext chan q k =>
      left
      simp only [threadStep, Option.some.injEq, Prod.mk.injEq] at hstep
      obtain ⟨_, rfl, _⟩ := hstep
      intro hq
      obtain ⟨next, hnext, hfront⟩ := hlist.next_front family hq
      have hnot := hafter next hnext
      tauto
  | forkret k =>
      simp only [threadStep, Option.some.injEq, Prod.mk.injEq] at hstep
      obtain ⟨_, rfl, _⟩ := hstep
      obtain rfl : k = .user := hok
      exact hafter.elim
  | zombieExit => exact .inl trivial
  | sleepRelease chan k => exact hok.elim
  | sleepMark chan k => exact hok.elim
  | sleepWoke k => exact hok.elim
  | sleepAcquire k => exact hok.elim
  | sleepUnlock k => exact hok.elim
  | _ =>
      simp only [threadStep, Option.some.injEq, Prod.mk.injEq] at hstep
      obtain ⟨_, rfl, _⟩ := hstep
      exact .inl hafter

/-! ## The waiting process -/

/-- The children among `procs` that `process_wait(pid)` looks for have been seen. -/
def AllSeen (pid : ℕ) (procs seen : List ℕ) : Prop :=
  ∀ q ∈ procs, Awaited family pid q → q ∈ seen

/-- What `process_wait` knows at each point: the part of the list behind its position
has been seen. -/
def PointOk (shared : Shared Unit) : Point → Prop
  | .user => True
  | .waitAcquire _ => True
  | .waitPass _ _ => True
  | .waitLook pid e _ seen =>
      ∃ before behind, shared.processList = before ++ behind ∧ e = behind.head? ∧
        AllSeen family pid before seen
  | .waitLock pid child _ seen =>
      Awaited family pid child ∧ ∃ before behind,
        shared.processList = before ++ child :: behind ∧ AllSeen family pid before seen
  | .waitTest pid child _ seen =>
      Awaited family pid child ∧ ∃ before behind,
        shared.processList = before ++ child :: behind ∧ AllSeen family pid before seen
  | .waitUnlock pid child seen =>
      ∃ before behind, shared.processList = before ++ child :: behind ∧
        AllSeen family pid (before ++ [child]) seen
  | .waitNext pid child seen =>
      ∃ before behind, shared.processList = before ++ child :: behind ∧
        AllSeen family pid (before ++ [child]) seen
  | .waitSleep pid seen => AllSeen family pid shared.processList seen
  | .waitReap child => child ≠ family.waiter
  | .waitReapUnlock _ => True
  | .waitReturn => True
  | .exitAcquire => False
  | .exitMark => False
  | .exitWake => False
  | .exitSched => False

/-- Where the thread of the waiting process can be. -/
def WaiterOk (shared : Shared Unit) : Thread Point → Prop
  | .forkret k => k = .user
  | .exec k => PointOk family shared k
  | .sleepRelease chan k => chan = family.waiter ∧
      ∃ pid seen, k = .waitPass pid seen ∧ AllSeen family pid shared.processList seen
  | .sleepMark chan k => chan = family.waiter ∧
      ∃ pid seen, k = .waitPass pid seen ∧ AllSeen family pid shared.processList seen
  | .sleepWoke k =>
      ∃ pid seen, k = .waitPass pid seen ∧ AllSeen family pid shared.processList seen
  | .sleepAcquire k => ∃ pid seen, k = .waitPass pid seen
  | .sleepUnlock k => ∃ pid seen, k = .waitPass pid seen
  | _ => False

theorem waiterOk_congr {shared shared' : Shared Unit} {t : Thread Point}
    (hlist : shared'.processList = shared.processList) (hok : WaiterOk family shared t) :
    WaiterOk family shared' t := by
  revert hok
  cases t with
  | exec k => cases k <;> simp only [WaiterOk, PointOk, hlist, imp_self]
  | _ => simp only [WaiterOk, hlist, imp_self]

/-- The position moves past `child`. -/
theorem lookOk_next {shared : Shared Unit} (hlist : ListOk family shared) {pid child : ℕ}
    (haveKids : Bool) {before behind seen : List ℕ}
    (heq : shared.processList = before ++ child :: behind)
    (hseen : AllSeen family pid (before ++ [child]) seen) :
    PointOk family shared (.waitLook pid (listNext shared child) haveKids seen) :=
  ⟨before ++ [child], behind, by simp [heq], listNext_append heq hlist.nodup, hseen⟩

/-- One step of the waiting process keeps what it knows and the list. -/
theorem waiterStep {choice : ℕ} {shared shared' : Shared Unit} {t t' : Thread Point}
    {leaves : Bool} (hlist : ListOk family shared) (hok : WaiterOk family shared t)
    (hstep : threadStep (program family) family.waiter shared choice t =
      some (shared', t', leaves)) :
    WaiterOk family shared' t' ∧ ListOk family shared' ∧
      ∀ q, q ≠ family.waiter → shared'.status q = shared.status q := by
  cases t with
  | exec k =>
      cases k with
      | user =>
          simp only [threadStep, program, if_true, Option.map_some, Option.some.injEq,
            Prod.mk.injEq] at hstep
          obtain ⟨rfl, rfl, _⟩ := hstep
          exact ⟨trivial, hlist, fun _ _ => rfl⟩
      | waitPass pid seen =>
          simp only [threadStep, program, Option.map_some, Option.some.injEq,
            Prod.mk.injEq] at hstep
          obtain ⟨rfl, rfl, _⟩ := hstep
          exact ⟨⟨[], shared.processList, rfl, rfl, by simp [AllSeen]⟩, hlist, fun _ _ => rfl⟩
      | waitLook pid e haveKids seen =>
          obtain ⟨before, behind, heq, rfl, hseen⟩ := hok
          cases behind with
          | nil =>
              simp only [List.head?_nil, threadStep, program, Option.map_some,
                Option.some.injEq, Prod.mk.injEq] at hstep
              obtain ⟨rfl, rfl, _⟩ := hstep
              refine ⟨?_, hlist, fun _ _ => rfl⟩
              rw [List.append_nil] at heq
              cases haveKids
              · trivial
              · simpa [WaiterOk, PointOk, heq] using hseen
          | cons child behind =>
              simp only [List.head?_cons, threadStep, program] at hstep
              split at hstep
              · rename_i hawaited
                simp only [Option.map_some, Option.some.injEq, Prod.mk.injEq] at hstep
                obtain ⟨rfl, rfl, _⟩ := hstep
                exact ⟨⟨hawaited, before, behind, heq, hseen⟩, hlist, fun _ _ => rfl⟩
              · rename_i hawaited
                simp only [Option.map_some, Option.some.injEq, Prod.mk.injEq] at hstep
                obtain ⟨rfl, rfl, _⟩ := hstep
                refine ⟨lookOk_next family hlist haveKids heq ?_, hlist, fun _ _ => rfl⟩
                intro q hq hq'
                obtain hq | hq := List.mem_append.mp hq
                · exact hseen q hq hq'
                · obtain rfl := List.mem_singleton.mp hq
                  exact absurd hq' hawaited
      | waitTest pid child haveKids seen =>
          obtain ⟨hawaited, before, behind, heq, hseen⟩ := hok
          simp only [threadStep, program] at hstep
          split at hstep
          · simp only [Option.map_some, Option.some.injEq, Prod.mk.injEq] at hstep
            obtain ⟨rfl, rfl, _⟩ := hstep
            refine ⟨?_, hlist, fun _ _ => rfl⟩
            rintro rfl
            exact family.notOwn hawaited.1
          · simp only [Option.map_some, Option.some.injEq, Prod.mk.injEq] at hstep
            obtain ⟨rfl, rfl, _⟩ := hstep
            refine ⟨⟨before, behind, heq, ?_⟩, hlist, fun _ _ => rfl⟩
            intro q hq hq'
            obtain hq | hq := List.mem_append.mp hq
            · exact List.mem_cons_of_mem child (hseen q hq hq')
            · simp_all
      | waitNext pid child seen =>
          obtain ⟨before, behind, heq, hseen⟩ := hok
          simp only [threadStep, program, Option.map_some, Option.some.injEq,
            Prod.mk.injEq] at hstep
          obtain ⟨rfl, rfl, _⟩ := hstep
          exact ⟨lookOk_next family hlist true heq hseen, hlist, fun _ _ => rfl⟩
      | waitSleep pid seen =>
          simp only [threadStep, program, Option.some.injEq, Prod.mk.injEq] at hstep
          obtain ⟨rfl, rfl, _⟩ := hstep
          exact ⟨⟨rfl, pid, seen, rfl, hok⟩, hlist, fun _ _ => rfl⟩
      | waitReap child =>
          simp only [threadStep, program, Option.map_some, Option.some.injEq,
            Prod.mk.injEq] at hstep
          obtain ⟨rfl, rfl, _⟩ := hstep
          exact ⟨trivial, listRemove_ok family hlist hok, fun _ _ => rfl⟩
      | exitAcquire => exact hok.elim
      | exitMark => exact hok.elim
      | exitWake => exact hok.elim
      | exitSched => exact hok.elim
      | _ =>
          simp only [threadStep, program, Option.some.injEq, Prod.mk.injEq] at hstep
          obtain ⟨rfl, rfl, _⟩ := hstep
          exact ⟨hok, hlist, fun _ _ => rfl⟩
  | forkret k =>
      obtain rfl : k = .user := hok
      simp only [threadStep, Option.some.injEq, Prod.mk.injEq] at hstep
      obtain ⟨rfl, rfl, _⟩ := hstep
      exact ⟨trivial, hlist, fun _ _ => rfl⟩
  | sleepMark chan k =>
      simp only [threadStep, Option.some.injEq, Prod.mk.injEq] at hstep
      obtain ⟨rfl, rfl, _⟩ := hstep
      exact ⟨hok.2, ⟨hlist.nodup, hlist.split, hlist.stale⟩,
        fun q hq => Function.update_of_ne hq _ _⟩
  | sleepWoke k =>
      obtain ⟨pid, seen, rfl, _⟩ := hok
      simp only [threadStep, Option.some.injEq, Prod.mk.injEq] at hstep
      obtain ⟨rfl, rfl, _⟩ := hstep
      exact ⟨⟨pid, seen, rfl⟩, ⟨hlist.nodup, hlist.split, hlist.stale⟩, fun _ _ => rfl⟩
  | sleepUnlock k =>
      obtain ⟨pid, seen, rfl⟩ := hok
      simp only [threadStep, Option.some.injEq, Prod.mk.injEq] at hstep
      obtain ⟨rfl, rfl, _⟩ := hstep
      exact ⟨trivial, hlist, fun _ _ => rfl⟩
  | sleepRelease chan k =>
      simp only [threadStep, Option.some.injEq, Prod.mk.injEq] at hstep
      obtain ⟨rfl, rfl, _⟩ := hstep
      exact ⟨hok, hlist, fun _ _ => rfl⟩
  | sleepAcquire k =>
      simp only [threadStep, Option.some.injEq, Prod.mk.injEq] at hstep
      obtain ⟨rfl, rfl, _⟩ := hstep
      exact ⟨hok, hlist, fun _ _ => rfl⟩
  | _ => exact hok.elim

/-- One step of the waiting process adds to the pass only a child that is alive, and
puts the process to sleep only at the end of a pass. -/
theorem waiterStep_pass {choice : ℕ} {shared shared' : Shared Unit} {t t' : Thread Point}
    {leaves : Bool} (hok : WaiterOk family shared t)
    (hstep : threadStep (program family) family.waiter shared choice t =
      some (shared', t', leaves)) :
    (∀ seen, passOf t' = some seen → ∀ q ∈ seen,
        (family.parent q = some family.waiter ∧ shared.status q ≠ .zimbie) ∨
          ∃ seen', passOf t = some seen' ∧ q ∈ seen') ∧
      (shared'.status family.waiter = .sleeping → shared.status family.waiter = .sleeping ∨
        shared'.chan family.waiter = some family.waiter ∧ ∃ pid seen,
          t' = .sleepWoke (.waitPass pid seen) ∧ passOf t = some seen) := by
  have hold : ∀ {seen}, passOf t' = some seen → passOf t = passOf t' → ∀ q ∈ seen,
      (family.parent q = some family.waiter ∧ shared.status q ≠ .zimbie) ∨
        ∃ seen', passOf t = some seen' ∧ q ∈ seen' := by
    intro seen hseen hsame q hq
    exact .inr ⟨seen, hsame.trans hseen, hq⟩
  cases t with
  | exec k =>
      cases k with
      | user =>
          simp only [threadStep, program, if_true, Option.map_some, Option.some.injEq,
            Prod.mk.injEq] at hstep
          obtain ⟨rfl, rfl, _⟩ := hstep
          exact ⟨fun _ hseen => (by cases hseen), .inl⟩
      | waitPass pid seen =>
          simp only [threadStep, program, Option.map_some, Option.some.injEq,
            Prod.mk.injEq] at hstep
          obtain ⟨rfl, rfl, _⟩ := hstep
          simp [passOf]
      | waitLook pid e haveKids seen =>
          cases e with
          | none =>
              simp only [threadStep, program, Option.map_some, Option.some.injEq,
                Prod.mk.injEq] at hstep
              obtain ⟨rfl, rfl, _⟩ := hstep
              refine ⟨fun _ hseen => ?_, .inl⟩
              cases haveKids
              · cases hseen
              · exact hold hseen rfl
          | some child =>
              simp only [threadStep, program] at hstep
              split at hstep
              all_goals
                simp only [Option.map_some, Option.some.injEq, Prod.mk.injEq] at hstep
                obtain ⟨rfl, rfl, _⟩ := hstep
                exact ⟨fun _ hseen => hold hseen rfl, .inl⟩
      | waitTest pid child haveKids seen =>
          obtain ⟨hawaited, _⟩ := hok
          simp only [threadStep, program] at hstep
          split at hstep
          · simp only [Option.map_some, Option.some.injEq, Prod.mk.injEq] at hstep
            obtain ⟨rfl, rfl, _⟩ := hstep
            exact ⟨fun _ hseen => (by cases hseen), .inl⟩
          · rename_i halive
            simp only [Option.map_some, Option.some.injEq, Prod.mk.injEq] at hstep
            obtain ⟨rfl, rfl, _⟩ := hstep
            refine ⟨?_, .inl⟩
            intro seen' hseen q hq
            obtain rfl := Option.some.inj hseen
            obtain rfl | hq := List.mem_cons.mp hq
            · exact .inl ⟨hawaited.1, halive⟩
            · exact .inr ⟨seen, rfl, hq⟩
      | waitReap child =>
          simp only [threadStep, program, Option.map_some, Option.some.injEq,
            Prod.mk.injEq] at hstep
          obtain ⟨rfl, rfl, _⟩ := hstep
          exact ⟨fun _ hseen => (by cases hseen), .inl⟩
      | waitNext pid child seen =>
          simp only [threadStep, program, Option.map_some, Option.some.injEq,
            Prod.mk.injEq] at hstep
          obtain ⟨rfl, rfl, _⟩ := hstep
          exact ⟨fun _ hseen => hold hseen rfl, .inl⟩
      | exitAcquire => exact hok.elim
      | exitMark => exact hok.elim
      | exitWake => exact hok.elim
      | exitSched => exact hok.elim
      | _ =>
          simp only [threadStep, program, Option.some.injEq, Prod.mk.injEq] at hstep
          obtain ⟨rfl, rfl, _⟩ := hstep
          exact ⟨fun _ hseen => hold hseen rfl, .inl⟩
  | sleepMark chan k =>
      obtain ⟨rfl, pid, seen, rfl, _⟩ := hok
      simp only [threadStep, Option.some.injEq, Prod.mk.injEq] at hstep
      obtain ⟨rfl, rfl, _⟩ := hstep
      exact ⟨fun _ hseen => (by cases hseen),
        fun _ => .inr ⟨by simp, pid, seen, rfl, rfl⟩⟩
  | sleepRelease chan k =>
      obtain ⟨rfl, pid, seen, rfl, _⟩ := hok
      simp only [threadStep, Option.some.injEq, Prod.mk.injEq] at hstep
      obtain ⟨rfl, rfl, _⟩ := hstep
      exact ⟨fun _ hseen => hold hseen rfl, .inl⟩
  | forkret k =>
      obtain rfl : k = .user := hok
      simp only [threadStep, Option.some.injEq, Prod.mk.injEq] at hstep
      obtain ⟨rfl, rfl, _⟩ := hstep
      exact ⟨fun _ hseen => (by cases hseen), .inl⟩
  | sleepUnlock k =>
      obtain ⟨pid, seen, rfl⟩ := hok
      simp only [threadStep, Option.some.injEq, Prod.mk.injEq] at hstep
      obtain ⟨rfl, rfl, _⟩ := hstep
      exact ⟨fun _ hseen => (by cases hseen), .inl⟩
  | sleepWoke k =>
      simp only [threadStep, Option.some.injEq, Prod.mk.injEq] at hstep
      obtain ⟨rfl, rfl, _⟩ := hstep
      exact ⟨fun _ hseen => (by cases hseen), .inl⟩
  | sleepAcquire k =>
      simp only [threadStep, Option.some.injEq, Prod.mk.injEq] at hstep
      obtain ⟨rfl, rfl, _⟩ := hstep
      exact ⟨fun _ hseen => (by cases hseen), .inl⟩
  | _ => exact hok.elim

/-! ## No wakeup is lost -/

/-- The invariant: a child that the waiting process has found alive, in the pass under
way or in the one before it fell asleep, has not yet looked at it. -/
structure Safe (s : State Point Unit) : Prop where
  sound : Sound held s
  list : ListOk family s.shared
  waiter : WaiterOk family s.shared (s.thread family.waiter)
  exiters : ∀ p, p ≠ family.waiter → ExiterOk family p (s.thread p)
  marked : ∀ p, p ≠ family.waiter → Marked (s.thread p) → s.shared.status p = .zimbie
  pass : ∀ seen, passOf (s.thread family.waiter) = some seen →
    ∀ q ∈ seen, family.parent q = some family.waiter ∧ ¬ Notified family (s.thread q)
  asleep : s.shared.status family.waiter = .sleeping →
    s.shared.chan family.waiter = some family.waiter ∧ ∃ pid seen,
      s.thread family.waiter = .sleepWoke (.waitPass pid seen) ∧
      ∀ q ∈ seen, family.parent q = some family.waiter ∧ ¬ Notified family (s.thread q)

theorem child_ne_waiter {q : ℕ} (hparent : family.parent q = some family.waiter) :
    q ≠ family.waiter := by
  rintro rfl
  exact family.notOwn hparent

theorem not_lostWakeup_of_safe {s : State Point Unit} (hsafe : Safe family s) :
    ¬ LostWakeup family s := by
  rintro ⟨hasleep, _, pid, seen, hthread, child, hmem, hawaited, _, hfinished⟩
  obtain ⟨_, pid', seen', hthread', hseen⟩ := hsafe.asleep hasleep
  rw [hthread] at hthread'
  cases hthread'
  have hok := hsafe.waiter
  rw [hthread] at hok
  obtain ⟨pid', seen', heq, hall⟩ := hok
  cases heq
  apply (hseen child (hall child hmem hawaited)).2
  obtain hfinished | hfinished := hfinished
  all_goals
    rw [hfinished]
    trivial

theorem start_safe (vruntime : ℕ → ℕ) : Safe family (start family vruntime) := by
  obtain ⟨_, _, hstatus, _, _⟩ := boot_shared family.procs family.procs vruntime Point.user ()
  constructor
  · apply boot_sound
    simp [held]
  · exact start_listOk family vruntime
  · rfl
  · intro p _
    rfl
  · intro p _ hmarked
    exact hmarked.elim
  · intro seen hseen
    cases hseen
  · intro hasleep
    rw [start, hstatus, if_pos family.mem] at hasleep
    cases hasleep

/-- A step of the waiting process. -/
theorem waiter_safe {s : State Point Unit} (hsafe : Safe family s) {i choice : ℕ}
    {leaves : Bool} {holder : Lock → Option ℕ} {shared : Shared Unit} {t : Thread Point}
    (hcpu : s.cpu i = .run family.waiter)
    (hlock : lockStep s.holder i (lockOp (program family) s i) = some holder)
    (hthread : threadStep (program family) family.waiter s.shared choice
      (s.thread family.waiter) = some (shared, t, leaves)) :
    Safe family ⟨holder,
      if leaves then Function.update s.cpu i (.back family.waiter) else s.cpu,
      Function.update s.thread family.waiter t, shared⟩ := by
  obtain ⟨hwaiter, hlist, hstatus⟩ := waiterStep family hsafe.list hsafe.waiter hthread
  obtain ⟨hpass, hasleep⟩ := waiterStep_pass family hsafe.waiter hthread
  constructor
  · exact run_sound (lawful family) hsafe.sound hcpu hlock hthread
  · exact hlist
  · simpa using hwaiter
  · intro p hp
    simpa [hp] using hsafe.exiters p hp
  · intro p hp hmarked
    simp only [Function.update_of_ne hp] at hmarked
    exact (hstatus p hp).trans (hsafe.marked p hp hmarked)
  · intro seen hseen q hq
    simp only [Function.update_self] at hseen
    obtain ⟨hparent, halive⟩ | ⟨seen', hseen', hq'⟩ := hpass seen hseen q hq
    · have hne := child_ne_waiter family hparent
      refine ⟨hparent, ?_⟩
      simp only [Function.update_of_ne hne]
      intro hnotified
      exact halive (hsafe.marked q hne (marked_of_notified family hnotified))
    · obtain ⟨hparent, hnot⟩ := hsafe.pass seen' hseen' q hq'
      simp only [Function.update_of_ne (child_ne_waiter family hparent)]
      exact ⟨hparent, hnot⟩
  · intro hafter
    obtain hbefore | ⟨hchan, pid, seen, ht, hseen⟩ := hasleep hafter
    · have hback := hsafe.sound.asleep family.waiter i hbefore (by rw [hcpu]; rfl)
      rw [hcpu] at hback
      cases hback
    · refine ⟨hchan, pid, seen, by simpa using ht, ?_⟩
      intro q hq
      obtain ⟨hparent, hnot⟩ := hsafe.pass seen hseen q hq
      simp only [Function.update_of_ne (child_ne_waiter family hparent)]
      exact ⟨hparent, hnot⟩

/-- A step of an exiting process. -/
theorem exiter_safe {s : State Point Unit} (hsafe : Safe family s) {i p choice : ℕ}
    {leaves : Bool} {holder : Lock → Option ℕ} {shared : Shared Unit} {t : Thread Point}
    (hp : p ≠ family.waiter) (hcpu : s.cpu i = .run p)
    (hrace : NoRace family s (i, choice))
    (hlock : lockStep s.holder i (lockOp (program family) s i) = some holder)
    (hthread : threadStep (program family) p s.shared choice (s.thread p) =
      some (shared, t, leaves)) :
    Safe family ⟨holder, if leaves then Function.update s.cpu i (.back p) else s.cpu,
      Function.update s.thread p t, shared⟩ := by
  obtain ⟨hok, hprocs, hstale, hchan, hmarked, hzimbie, hsleeping⟩ :=
    exiterStep family hp (hsafe.exiters p hp) hthread
  have hnotified : ∀ q, family.parent q = some family.waiter →
      Notified family (Function.update s.thread p t q) → ¬ Notified family (s.thread q) →
      q = p ∧ ∃ k, s.thread q = .wakeTest family.waiter family.waiter k ∧
        (s.shared.chan family.waiter = some family.waiter →
          shared.status family.waiter ≠ .sleeping) := by
    intro q hparent hafter hbefore
    by_cases hq : q = p
    · subst hq
      simp only [Function.update_self] at hafter
      obtain hnot | hlook := exiterStep_notified family hp hparent hsafe.list
        (hsafe.exiters q hp) hthread hafter
      · exact absurd hnot hbefore
      · exact ⟨rfl, hlook⟩
    · simp only [Function.update_of_ne hq] at hafter
      exact absurd hafter hbefore
  constructor
  · exact run_sound (lawful family) hsafe.sound hcpu hlock hthread
  · obtain ⟨hnodup, hsplit, hstale'⟩ := hsafe.list
    refine ⟨?_, ?_, ?_⟩
    · simpa only [hprocs] using hnodup
    · simpa only [hprocs] using hsplit
    · simpa only [hprocs, hstale] using hstale'
  · simp only [Function.update_of_ne (Ne.symm hp)]
    exact waiterOk_congr family hprocs hsafe.waiter
  · intro q hq
    by_cases hqp : q = p
    · subst hqp
      simpa using hok
    · simpa [hqp] using hsafe.exiters q hq
  · intro q hq hq'
    by_cases hqp : q = p
    · subst hqp
      simp only [Function.update_self] at hq'
      obtain hbefore | hafter := hmarked hq'
      · exact hzimbie q (hsafe.marked q hq hbefore)
      · exact hafter
    · simp only [Function.update_of_ne hqp] at hq'
      exact hzimbie q (hsafe.marked q hq hq')
  · intro seen hseen q hq
    simp only [Function.update_of_ne (Ne.symm hp)] at hseen
    obtain ⟨hparent, hnot⟩ := hsafe.pass seen hseen q hq
    refine ⟨hparent, ?_⟩
    intro hafter
    obtain ⟨rfl, k, hlook, _⟩ := hnotified q hparent hafter hnot
    exact hrace q family.waiter k seen hcpu hlook hseen hq
  · intro hafter
    obtain ⟨hchan', pid, seen, hwoke, hseen⟩ := hsafe.asleep (hsleeping _ hafter)
    refine ⟨by simpa only [hchan] using hchan', pid, seen, ?_, ?_⟩
    · simpa only [Function.update_of_ne (Ne.symm hp)] using hwoke
    · intro q hq
      obtain ⟨hparent, hnot⟩ := hseen q hq
      refine ⟨hparent, ?_⟩
      intro hafter'
      obtain ⟨rfl, k, _, hwakes⟩ := hnotified q hparent hafter' hnot
      exact hwakes hchan' hafter

/-- A move of the scheduler, which changes no thread and no list. -/
theorem sched_safe {s s' : State Point Unit} (hsafe : Safe family s) (hsound : Sound held s')
    (hthread : s'.thread = s.thread) (hchan : s'.shared.chan = s.shared.chan)
    (hprocs : s'.shared.processList = s.shared.processList)
    (hstale : s'.shared.stale = s.shared.stale)
    (hzimbie : ∀ q, s.shared.status q = .zimbie → s'.shared.status q = .zimbie)
    (hsleeping : ∀ q, s'.shared.status q = .sleeping → s.shared.status q = .sleeping) :
    Safe family s' := by
  obtain ⟨hnodup, hsplit, hstale'⟩ := hsafe.list
  constructor
  · exact hsound
  · refine ⟨?_, ?_, ?_⟩
    · rwa [hprocs]
    · rwa [hprocs]
    · rwa [hprocs, hstale]
  · rw [hthread]
    exact waiterOk_congr family hprocs hsafe.waiter
  · rw [hthread]
    exact hsafe.exiters
  · intro p hp hmarked
    rw [hthread] at hmarked
    exact hzimbie p (hsafe.marked p hp hmarked)
  · rw [hthread]
    exact hsafe.pass
  · intro hasleep
    rw [hthread, hchan]
    exact hsafe.asleep (hsleeping _ hasleep)

/-- A step that meets the condition keeps the invariant. -/
theorem step_safe {s s' : State Point Unit} (hsafe : Safe family s) {i choice : ℕ}
    (hrace : NoRace family s (i, choice))
    (hstep : step (program family) s i choice = some s') : Safe family s' := by
  have hsound := step_sound (lawful family) hsafe.sound hstep
  obtain ⟨holder, hlock, hmove | hscan | henter | hrun⟩ := step_cases hstep
  · obtain ⟨before, next, _, _, rfl⟩ := hmove
    exact sched_safe family hsafe hsound rfl rfl rfl rfl (fun _ h => h) (fun _ h => h)
  · obtain ⟨_, rfl⟩ := hscan
    obtain ⟨_, hchan, _, hprocs, hstale, _⟩ := refreshMinVruntime_eq { s.shared with
      runQueue := (pickNext s.shared.status s.shared.runQueue).2 }
    apply sched_safe family hsafe hsound rfl hchan hprocs hstale
    · simp
    · simp
  · obtain ⟨p, hcpu, rfl⟩ := henter
    have hrunnable : s.shared.status p = .runnable := by
      apply hsafe.sound.chosen i p
      all_goals simp [hcpu, serves]
    apply sched_safe family hsafe hsound rfl rfl rfl rfl
    all_goals
      intro q hq
      by_cases hqp : q = p <;> simp_all
  · obtain ⟨p, shared, t, leaves, hcpu, hthread, rfl⟩ := hrun
    by_cases hp : p = family.waiter
    · subst hp
      exact waiter_safe family hsafe hcpu hlock hthread
    · exact exiter_safe family hsafe hp hcpu hrace hlock hthread

/-- Process 1 waits for its one child, process 2. -/
def oneChild : Family where
  procs := [1, 2]
  nodup := by decide
  parent := fun p => if p = 2 then some 1 else none
  waiter := 1
  mem := by decide
  notOwn := by decide

/-- On CPU 0 the parent finds its child alive; on CPU 1 the child exits and looks at the
parent; then the parent goes to sleep. -/
def raceMoves : List (ℕ × ℕ) :=
  List.replicate 16 (0, 0) ++ List.replicate 19 (1, 0) ++ List.replicate 3 (0, 0)

def raced : State Point Unit :=
  (follow (next (program oneChild) 2) raceMoves (start oneChild fun _ => 0)).get (by decide +kernel)

end Painting.WaitExit
