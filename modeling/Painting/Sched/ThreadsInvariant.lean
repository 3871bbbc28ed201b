import Painting.Sched.Threads

/-!
# Who holds which lock, and who runs where

The programs considered here say at every point which locks they hold there.
From this the holder of every lock is determined by the positions of the CPUs,
no process is run by two CPUs, and a process in the run queue, or on its way
there, is run by none.
-/

namespace Painting.Threads

variable {Point Data : Type}

/-! ## Locks and positions -/

/-- The locks held after an operation, from those held before. -/
def HeldAfter (held : Lock → Prop) (lock : Lock) : LockOp → Prop
  | .acquire l => lock = l ∨ held lock
  | .release l => lock ≠ l ∧ held lock
  | .none => held lock

/-- The holder map follows the positions when the mover's locks change by its
operation and nobody else's change. -/
theorem lockStep_holds {holder holder' : Lock → Option ℕ} {i : ℕ} {op : LockOp}
    {held held' : ℕ → Lock → Prop}
    (hholds : ∀ lock j, holder lock = some j ↔ held j lock)
    (hlock : lockStep holder i op = some holder')
    (hmover : ∀ lock, held' i lock ↔ HeldAfter (held i) lock op)
    (hother : ∀ j, j ≠ i → ∀ lock, held' j lock ↔ held j lock) :
    ∀ lock j, holder' lock = some j ↔ held' j lock := by
  intro lock j
  have hcases : held' j lock ↔ if j = i then HeldAfter (held i) lock op else held j lock := by
    split
    · rename_i hj
      rw [hj]
      exact hmover lock
    · rename_i hj
      exact hother j hj lock
  rw [hcases]
  cases op with
  | acquire l =>
      simp only [lockStep] at hlock
      split at hlock
      · rename_i hfree
        obtain rfl := Option.some.inj hlock
        by_cases hl : lock = l
        · have hnone : ∀ j, ¬ held j l := by
            intro j hheld
            rw [← hholds, hfree] at hheld
            exact absurd hheld (by simp)
          subst hl
          by_cases hj : j = i
          · simp [hj, HeldAfter]
          · simp [hj, hnone, Ne.symm hj]
        · rw [Function.update_of_ne hl, hholds]
          by_cases hj : j = i <;> simp [hj, HeldAfter, hl]
      · exact absurd hlock (by simp)
  | release l =>
      simp only [lockStep] at hlock
      split at hlock
      · rename_i hmine
        obtain rfl := Option.some.inj hlock
        by_cases hl : lock = l
        · subst hl
          by_cases hj : j = i
          · simp [hj, HeldAfter]
          · have hnot : ¬ held j lock := by
              rw [← hholds, hmine]
              simpa using Ne.symm hj
            simp [hj, hnot]
        · rw [Function.update_of_ne hl, hholds]
          by_cases hj : j = i <;> simp [hj, HeldAfter, hl]
      · exact absurd hlock (by simp)
  | none =>
      obtain rfl := Option.some.inj hlock
      rw [hholds]
      by_cases hj : j = i <;> simp [hj, HeldAfter]

/-- The process a CPU has taken from the queue and not given back. -/
def serves : Cpu → Option ℕ
  | .top => none
  | .scan => none
  | .found next => next
  | .pick p => some p
  | .enter p => some p
  | .run p => some p
  | .back p => some p

/-- The process that a thread has made runnable and has yet to push. -/
def wakes : Thread Point → Option ℕ
  | .wakePush _ q _ => some q
  | .wakeInsert _ q _ => some q
  | _ => none

/-- The points at which a thread takes up a CPU. -/
def Resumable : Thread Point → Prop
  | .forkret _ => True
  | .sleepWoke _ => True
  | .zombieExit => True
  | _ => False

/-- The locks that the thread of `p` holds while it runs, when its program holds
`held p k` at the point `k`. -/
def ThreadHolds (held : ℕ → Point → Lock → Prop) (p : ℕ) (lock : Lock) :
    Thread Point → Prop
  | .forkret _ => lock = .proc p
  | .exec k => held p k lock
  | .sleepRelease _ _ => lock = .proc p ∨ lock = .user
  | .sleepMark _ _ => lock = .proc p
  | .sleepWoke _ => lock = .proc p
  | .sleepAcquire _ => lock = .proc p
  | .sleepUnlock _ => lock = .user ∨ lock = .proc p
  | .wakeHead _ _ k => held p k lock
  | .wakeTest _ q k => lock = .proc q ∨ held p k lock
  | .wakePush _ q k => lock = .proc q ∨ held p k lock
  | .wakeInsert _ q k => lock = .rq ∨ lock = .proc q ∨ held p k lock
  | .wakeRqRelease _ q k => lock = .rq ∨ lock = .proc q ∨ held p k lock
  | .wakeRelease _ q k => lock = .proc q ∨ held p k lock
  | .wakeNext _ _ k => held p k lock
  | .zombieExit => lock = .proc p

/-- The locks that a CPU holds. -/
def Holds (held : ℕ → Point → Lock → Prop) (s : State Point Data) (i : ℕ) (lock : Lock) :
    Prop :=
  match s.cpu i with
  | .top => False
  | .scan => lock = .rq
  | .found _ => lock = .rq
  | .pick _ => False
  | .enter p => lock = .proc p
  | .run p => ThreadHolds held p lock (s.thread p)
  | .back p => lock = .proc p

/-- A program that holds the locks it says it holds: it sleeps with `user` alone,
calls `wakeup` with no lock of another process, and its updates change no status
but its own and never to `SLEEPING`. -/
structure Lawful (program : ℕ → Point → Instr Point Data)
    (held : ℕ → Point → Lock → Prop) : Prop where
  acquire {p k lock k'} : program p k = .acquire lock k' →
    ∀ l, held p k' l ↔ l = lock ∨ held p k l
  release {p k lock k'} : program p k = .release lock k' →
    ∀ l, held p k' l ↔ l ≠ lock ∧ held p k l
  sleep {p k chan k'} : program p k = .sleep chan k' →
    ∀ l, (held p k l ↔ l = .user) ∧ (held p k' l ↔ l = .user)
  wakeup {p k chan k'} : program p k = .wakeup chan k' →
    ¬ held p k .rq ∧ (∀ q, held p k (.proc q) → q = p) ∧ ∀ l, held p k' l ↔ held p k l
  update {p k f shared choice shared' k'} : program p k = .update f →
    f shared choice = some (shared', k') →
    (∀ l, held p k' l ↔ held p k l) ∧ shared'.runQueue = shared.runQueue ∧
      (∀ q, q ≠ p → shared'.status q = shared.status q) ∧
      (shared'.status p = .sleeping → shared.status p = .sleeping)
  sched {p k} : program p k = .sched → ∀ l, held p k l ↔ l = .proc p

/-- What a thread inside `sleep` or `wakeup` knows of the point it returns to. -/
def ThreadOk (held : ℕ → Point → Lock → Prop) (p : ℕ) : Thread Point → Prop
  | .forkret k => ∀ l, ¬ held p k l
  | .exec _ => True
  | .sleepRelease _ k => ∀ l, held p k l ↔ l = .user
  | .sleepMark _ k => ∀ l, held p k l ↔ l = .user
  | .sleepWoke k => ∀ l, held p k l ↔ l = .user
  | .sleepAcquire k => ∀ l, held p k l ↔ l = .user
  | .sleepUnlock k => ∀ l, held p k l ↔ l = .user
  | .wakeHead _ _ k => ¬ held p k .rq ∧ ∀ q, held p k (.proc q) → q = p
  | .wakeTest _ q k => q ≠ p ∧ ¬ held p k .rq ∧ ∀ q, held p k (.proc q) → q = p
  | .wakePush _ q k => q ≠ p ∧ ¬ held p k .rq ∧ ∀ q, held p k (.proc q) → q = p
  | .wakeInsert _ q k => q ≠ p ∧ ¬ held p k .rq ∧ ∀ q, held p k (.proc q) → q = p
  | .wakeRqRelease _ q k => q ≠ p ∧ ¬ held p k .rq ∧ ∀ q, held p k (.proc q) → q = p
  | .wakeRelease _ q k => q ≠ p ∧ ¬ held p k .rq ∧ ∀ q, held p k (.proc q) → q = p
  | .wakeNext _ _ k => ¬ held p k .rq ∧ ∀ q, held p k (.proc q) → q = p
  | .zombieExit => True

/-- The invariant of the machine. -/
structure Sound (held : ℕ → Point → Lock → Prop) (s : State Point Data) : Prop where
  holds : ∀ lock i, s.holder lock = some i ↔ Holds held s i lock
  threads : ∀ p, ThreadOk held p (s.thread p)
  resume : ∀ p, (∀ i, s.cpu i ≠ .run p) → Resumable (s.thread p)
  unique : ∀ i j p, serves (s.cpu i) = some p → serves (s.cpu j) = some p → i = j
  queued : ∀ p, p ∈ s.shared.runQueue →
    s.shared.status p = .runnable ∧ ∀ i, serves (s.cpu i) ≠ some p
  nodup : s.shared.runQueue.Nodup
  chosen : ∀ i p, serves (s.cpu i) = some p → s.cpu i ≠ .run p → s.cpu i ≠ .back p →
    s.shared.status p = .runnable
  waking : ∀ i p q, s.cpu i = .run p → wakes (s.thread p) = some q →
    s.shared.status q = .runnable ∧ q ∉ s.shared.runQueue ∧ ∀ j, serves (s.cpu j) ≠ some q
  asleep : ∀ p i, s.shared.status p = .sleeping → serves (s.cpu i) = some p →
    s.cpu i = .back p

/-! ## The run queue -/

@[simp]
theorem refreshMinVruntime_eq (shared : Shared Data) :
    (refreshMinVruntime shared).status = shared.status ∧
      (refreshMinVruntime shared).chan = shared.chan ∧
      (refreshMinVruntime shared).runQueue = shared.runQueue ∧
      (refreshMinVruntime shared).processList = shared.processList ∧
      (refreshMinVruntime shared).stale = shared.stale ∧
      (refreshMinVruntime shared).data = shared.data := by
  unfold refreshMinVruntime
  split
  · simp
  · split <;> simp

theorem mem_listInsertOrdered {vruntime : ℕ → ℕ} {p q : ℕ} {queue : List ℕ} :
    q ∈ listInsertOrdered vruntime p queue ↔ q = p ∨ q ∈ queue := by
  induction queue with
  | nil => simp [listInsertOrdered]
  | cons e es ih =>
      simp only [listInsertOrdered]
      split
      · simp
      · simp only [List.mem_cons, ih]
        tauto

theorem nodup_listInsertOrdered {vruntime : ℕ → ℕ} {p : ℕ} {queue : List ℕ}
    (hnodup : queue.Nodup) (hp : p ∉ queue) : (listInsertOrdered vruntime p queue).Nodup := by
  induction queue with
  | nil => simp [listInsertOrdered]
  | cons e es ih =>
      simp only [List.nodup_cons, List.mem_cons, not_or] at hnodup hp
      simp only [listInsertOrdered]
      split
      · simp [hnodup, hp]
      · simp only [List.nodup_cons, mem_listInsertOrdered, not_or]
        exact ⟨⟨Ne.symm hp.1, hnodup.1⟩, ih hnodup.2 hp.2⟩

theorem rbPushBack_eq (shared : Shared Data) (p : ℕ) :
    (rbPushBack shared p).status = shared.status ∧
      (rbPushBack shared p).chan = shared.chan ∧
      (rbPushBack shared p).processList = shared.processList ∧
      (rbPushBack shared p).stale = shared.stale ∧
      (rbPushBack shared p).data = shared.data := by
  unfold rbPushBack
  split <;> simp

theorem mem_rbPushBack {shared : Shared Data} {p q : ℕ} :
    q ∈ (rbPushBack shared p).runQueue ↔ q = p ∨ q ∈ shared.runQueue := by
  unfold rbPushBack
  split
  · rename_i hp
    constructor
    · exact Or.inr
    · rintro (rfl | hq)
      · exact hp
      · exact hq
  · simp [mem_listInsertOrdered]

theorem nodup_rbPushBack {shared : Shared Data} {p : ℕ} (hnodup : shared.runQueue.Nodup) :
    (rbPushBack shared p).runQueue.Nodup := by
  unfold rbPushBack
  split
  · exact hnodup
  · rename_i hp
    simp [nodup_listInsertOrdered hnodup hp]

theorem pickNext_spec (status : ℕ → Status) (queue : List ℕ) :
    (pickNext status queue).2 <:+ queue ∧
      ∀ p, (pickNext status queue).1 = some p →
        status p = .runnable ∧ p :: (pickNext status queue).2 <:+ queue := by
  induction queue with
  | nil => simp [pickNext]
  | cons e es ih =>
      simp only [pickNext]
      split
      · rename_i hrunnable
        refine ⟨List.suffix_cons e es, ?_⟩
        rintro p hp
        obtain rfl := Option.some.inj hp
        exact ⟨hrunnable, List.suffix_rfl⟩
      · refine ⟨ih.1.trans (List.suffix_cons e es), ?_⟩
        intro p hp
        obtain ⟨hrunnable, hsuffix⟩ := ih.2 p hp
        exact ⟨hrunnable, hsuffix.trans (List.suffix_cons e es)⟩

/-! ## Steps of the machine -/

/-- What one step can be: a move of the scheduler, or one of the thread that the
CPU runs. -/
theorem step_cases {program : ℕ → Point → Instr Point Data} {s s' : State Point Data}
    {i choice : ℕ} (hstep : step program s i choice = some s') :
    ∃ holder, lockStep s.holder i (lockOp program s i) = some holder ∧
      ((∃ before after, s.cpu i = before ∧
          ((before = .top ∧ after = .scan) ∨ (before = .found none ∧ after = .top) ∨
            (∃ p, before = .found (some p) ∧ after = .pick p) ∨
            (∃ p, before = .pick p ∧ after = .enter p) ∨
            (∃ p, before = .back p ∧ after = .top)) ∧
          s' = ⟨holder, Function.update s.cpu i after, s.thread, s.shared⟩) ∨
        (s.cpu i = .scan ∧
          s' = ⟨holder, Function.update s.cpu i
              (.found (pickNext s.shared.status s.shared.runQueue).1), s.thread,
            refreshMinVruntime { s.shared with
              runQueue := (pickNext s.shared.status s.shared.runQueue).2 }⟩) ∨
        (∃ p, s.cpu i = .enter p ∧
          s' = ⟨holder, Function.update s.cpu i (.run p), s.thread,
            { s.shared with status := Function.update s.shared.status p .running }⟩) ∨
        (∃ p shared t leaves, s.cpu i = .run p ∧
          threadStep program p s.shared choice (s.thread p) = some (shared, t, leaves) ∧
          s' = ⟨holder, if leaves then Function.update s.cpu i (.back p) else s.cpu,
            Function.update s.thread p t, shared⟩)) := by
  rw [step, Option.bind_eq_some_iff] at hstep
  obtain ⟨holder, hholder, hstep⟩ := hstep
  rw [Option.map_eq_some_iff] at hstep
  obtain ⟨after, hafter, rfl⟩ := hstep
  refine ⟨holder, hholder, ?_⟩
  unfold advance at hafter
  split at hafter
  · rename_i hcpu
    obtain rfl := Option.some.inj hafter
    exact .inl ⟨_, _, hcpu, .inl ⟨rfl, rfl⟩, rfl⟩
  · rename_i hcpu
    obtain rfl := Option.some.inj hafter
    exact .inr (.inl ⟨hcpu, rfl⟩)
  · rename_i hcpu
    obtain rfl := Option.some.inj hafter
    exact .inl ⟨_, _, hcpu, .inr (.inl ⟨rfl, rfl⟩), rfl⟩
  · rename_i p hcpu
    obtain rfl := Option.some.inj hafter
    exact .inl ⟨_, _, hcpu, .inr (.inr (.inl ⟨p, rfl, rfl⟩)), rfl⟩
  · rename_i p hcpu
    obtain rfl := Option.some.inj hafter
    exact .inl ⟨_, _, hcpu, .inr (.inr (.inr (.inl ⟨p, rfl, rfl⟩))), rfl⟩
  · rename_i p hcpu
    obtain rfl := Option.some.inj hafter
    exact .inr (.inr (.inl ⟨p, hcpu, rfl⟩))
  · rename_i p hcpu
    rw [Option.map_eq_some_iff] at hafter
    obtain ⟨⟨shared, t, leaves⟩, hthread, rfl⟩ := hafter
    exact .inr (.inr (.inr ⟨p, shared, t, leaves, hcpu, hthread, rfl⟩))
  · rename_i p hcpu
    obtain rfl := Option.some.inj hafter
    exact .inl ⟨_, _, hcpu, .inr (.inr (.inr (.inr ⟨p, rfl, rfl⟩))), rfl⟩

/-- A thread step changes the locks of its CPU by its operation; a thread that
leaves the CPU holds its own lock alone. -/
theorem threadStep_holds {program : ℕ → Point → Instr Point Data}
    {held : ℕ → Point → Lock → Prop} (hlawful : Lawful program held) {p choice : ℕ}
    {shared shared' : Shared Data} {t t' : Thread Point} {leaves : Bool}
    (hok : ThreadOk held p t)
    (hstep : threadStep program p shared choice t = some (shared', t', leaves)) (lock : Lock) :
    (if leaves then lock = .proc p else ThreadHolds held p lock t') ↔
      HeldAfter (fun l => ThreadHolds held p l t) lock (threadOp program p t) := by
  cases t with
  | forkret k =>
      obtain ⟨rfl, rfl, rfl⟩ : shared = shared' ∧ .exec k = t' ∧ false = leaves := by
        simpa [threadStep] using hstep
      simp [threadOp, HeldAfter, ThreadHolds, hok lock]
  | exec k =>
      cases hinstr : program p k with
      | acquire l k' =>
          obtain ⟨rfl, rfl, rfl⟩ : shared = shared' ∧ .exec k' = t' ∧ false = leaves := by
            simpa [threadStep, hinstr] using hstep
          simp [threadOp, hinstr, HeldAfter, ThreadHolds, hlawful.acquire hinstr lock]
      | release l k' =>
          obtain ⟨rfl, rfl, rfl⟩ : shared = shared' ∧ .exec k' = t' ∧ false = leaves := by
            simpa [threadStep, hinstr] using hstep
          simp [threadOp, hinstr, HeldAfter, ThreadHolds, hlawful.release hinstr lock]
      | sleep chan k' =>
          obtain ⟨rfl, rfl, rfl⟩ : shared = shared' ∧ .sleepRelease chan k' = t' ∧
              false = leaves := by
            simpa [threadStep, hinstr] using hstep
          simp [threadOp, hinstr, HeldAfter, ThreadHolds, (hlawful.sleep hinstr lock).1]
      | wakeup chan k' =>
          obtain ⟨rfl, rfl, rfl⟩ : shared = shared' ∧
              .wakeHead chan shared.processList.head? k' = t' ∧ false = leaves := by
            simpa [threadStep, hinstr] using hstep
          simp [threadOp, hinstr, HeldAfter, ThreadHolds, (hlawful.wakeup hinstr).2.2 lock]
      | update f =>
          simp only [threadStep, hinstr, Option.map_eq_some_iff, Prod.mk.injEq] at hstep
          obtain ⟨⟨after, k'⟩, hf, rfl, rfl, rfl⟩ := hstep
          simp [threadOp, hinstr, HeldAfter, ThreadHolds, (hlawful.update hinstr hf).1 lock]
      | sched =>
          obtain ⟨rfl, rfl, rfl⟩ : shared = shared' ∧ .zombieExit = t' ∧ true = leaves := by
            simpa [threadStep, hinstr] using hstep
          simp [threadOp, hinstr, HeldAfter, ThreadHolds, hlawful.sched hinstr lock]
  | sleepRelease chan k =>
      obtain ⟨rfl, rfl, rfl⟩ : shared = shared' ∧ .sleepMark chan k = t' ∧ false = leaves := by
        simpa [threadStep] using hstep
      cases lock <;> simp [threadOp, HeldAfter, ThreadHolds]
  | sleepMark chan k =>
      simp only [threadStep, Option.some.injEq, Prod.mk.injEq] at hstep
      obtain ⟨rfl, rfl, rfl⟩ := hstep
      simp [threadOp, HeldAfter, ThreadHolds]
  | sleepWoke k =>
      simp only [threadStep, Option.some.injEq, Prod.mk.injEq] at hstep
      obtain ⟨rfl, rfl, rfl⟩ := hstep
      simp [threadOp, HeldAfter, ThreadHolds]
  | sleepAcquire k =>
      simp only [threadStep, Option.some.injEq, Prod.mk.injEq] at hstep
      obtain ⟨rfl, rfl, rfl⟩ := hstep
      simp [threadOp, HeldAfter, ThreadHolds]
  | sleepUnlock k =>
      simp only [threadStep, Option.some.injEq, Prod.mk.injEq] at hstep
      obtain ⟨rfl, rfl, rfl⟩ := hstep
      have hheld := hok lock
      cases lock <;> simp_all [threadOp, HeldAfter, ThreadHolds]
  | wakeHead chan e k =>
      cases e with
      | none =>
          simp only [threadStep, Option.some.injEq, Prod.mk.injEq] at hstep
          obtain ⟨rfl, rfl, rfl⟩ := hstep
          simp [threadOp, HeldAfter, ThreadHolds]
      | some q =>
          by_cases hq : q = p
          · simp only [threadStep, if_pos hq, Option.some.injEq, Prod.mk.injEq] at hstep
            obtain ⟨rfl, rfl, rfl⟩ := hstep
            simp [threadOp, hq, HeldAfter, ThreadHolds]
          · simp only [threadStep, if_neg hq, Option.some.injEq, Prod.mk.injEq] at hstep
            obtain ⟨rfl, rfl, rfl⟩ := hstep
            simp [threadOp, hq, HeldAfter, ThreadHolds]
  | wakeTest chan q k =>
      simp only [threadStep] at hstep
      split at hstep
      all_goals
        simp only [Option.some.injEq, Prod.mk.injEq] at hstep
        obtain ⟨rfl, rfl, rfl⟩ := hstep
        simp [threadOp, HeldAfter, ThreadHolds]
  | wakePush chan q k =>
      simp only [threadStep, Option.some.injEq, Prod.mk.injEq] at hstep
      obtain ⟨rfl, rfl, rfl⟩ := hstep
      simp [threadOp, HeldAfter, ThreadHolds]
  | wakeInsert chan q k =>
      simp only [threadStep, Option.some.injEq, Prod.mk.injEq] at hstep
      obtain ⟨rfl, rfl, rfl⟩ := hstep
      simp [threadOp, HeldAfter, ThreadHolds]
  | wakeRqRelease chan q k =>
      simp only [threadStep, Option.some.injEq, Prod.mk.injEq] at hstep
      obtain ⟨rfl, rfl, rfl⟩ := hstep
      have hrq := hok.2.1
      cases lock <;> simp_all [threadOp, HeldAfter, ThreadHolds]
  | wakeRelease chan q k =>
      simp only [threadStep, Option.some.injEq, Prod.mk.injEq] at hstep
      obtain ⟨rfl, rfl, rfl⟩ := hstep
      have hnot : ¬ held p k (.proc q) := fun hheld => hok.1 (hok.2.2 q hheld)
      by_cases hl : lock = .proc q
      · simp [threadOp, HeldAfter, ThreadHolds, hl, hnot]
      · simp [threadOp, HeldAfter, ThreadHolds, hl]
  | wakeNext chan q k =>
      simp only [threadStep, Option.some.injEq, Prod.mk.injEq] at hstep
      obtain ⟨rfl, rfl, rfl⟩ := hstep
      simp [threadOp, HeldAfter, ThreadHolds]
  | zombieExit => simp [threadStep] at hstep

theorem threadStep_ok {program : ℕ → Point → Instr Point Data}
    {held : ℕ → Point → Lock → Prop} (hlawful : Lawful program held) {p choice : ℕ}
    {shared shared' : Shared Data} {t t' : Thread Point} {leaves : Bool}
    (hok : ThreadOk held p t)
    (hstep : threadStep program p shared choice t = some (shared', t', leaves)) :
    ThreadOk held p t' := by
  cases t with
  | exec k =>
      cases hinstr : program p k with
      | sleep chan k' =>
          simp only [threadStep, hinstr, Option.some.injEq, Prod.mk.injEq] at hstep
          obtain ⟨rfl, rfl, rfl⟩ := hstep
          exact fun l => (hlawful.sleep hinstr l).2
      | wakeup chan k' =>
          simp only [threadStep, hinstr, Option.some.injEq, Prod.mk.injEq] at hstep
          obtain ⟨rfl, rfl, rfl⟩ := hstep
          obtain ⟨hrq, hproc, hsame⟩ := hlawful.wakeup hinstr
          exact ⟨fun h => hrq ((hsame _).mp h), fun q h => hproc q ((hsame _).mp h)⟩
      | update f =>
          simp only [threadStep, hinstr, Option.map_eq_some_iff, Prod.mk.injEq] at hstep
          obtain ⟨_, _, _, rfl, _⟩ := hstep
          trivial
      | _ =>
          simp only [threadStep, hinstr, Option.some.injEq, Prod.mk.injEq] at hstep
          obtain ⟨_, rfl, _⟩ := hstep
          trivial
  | wakeHead chan e k =>
      cases e with
      | none =>
          simp only [threadStep, Option.some.injEq, Prod.mk.injEq] at hstep
          obtain ⟨_, rfl, _⟩ := hstep
          trivial
      | some q =>
          by_cases hq : q = p
          · simp only [threadStep, if_pos hq, Option.some.injEq, Prod.mk.injEq] at hstep
            obtain ⟨_, rfl, _⟩ := hstep
            exact hok
          · simp only [threadStep, if_neg hq, Option.some.injEq, Prod.mk.injEq] at hstep
            obtain ⟨_, rfl, _⟩ := hstep
            exact ⟨hq, hok⟩
  | wakeTest chan q k =>
      simp only [threadStep] at hstep
      split at hstep
      all_goals
        simp only [Option.some.injEq, Prod.mk.injEq] at hstep
        obtain ⟨_, rfl, _⟩ := hstep
        exact hok
  | wakeRelease chan q k =>
      simp only [threadStep, Option.some.injEq, Prod.mk.injEq] at hstep
      obtain ⟨_, rfl, _⟩ := hstep
      exact hok.2
  | zombieExit => simp [threadStep] at hstep
  | _ =>
      simp only [threadStep, Option.some.injEq, Prod.mk.injEq] at hstep
      obtain ⟨_, rfl, _⟩ := hstep
      first
        | exact hok
        | trivial

theorem threadStep_resumable {program : ℕ → Point → Instr Point Data} {p choice : ℕ}
    {shared shared' : Shared Data} {t t' : Thread Point}
    (hstep : threadStep program p shared choice t = some (shared', t', true)) :
    Resumable t' := by
  unfold threadStep at hstep
  split at hstep
  all_goals try split at hstep
  all_goals
    simp only [Option.map_eq_some_iff, Option.some.injEq, Prod.mk.injEq, reduceCtorEq,
      and_false, exists_false] at hstep
  all_goals
    obtain ⟨_, rfl, _⟩ := hstep
    trivial

theorem threadHolds_of_resumable {held : ℕ → Point → Lock → Prop} {p : ℕ} {t : Thread Point}
    (hresumable : Resumable t) (lock : Lock) : ThreadHolds held p lock t ↔ lock = .proc p := by
  cases t with
  | forkret k => rfl
  | sleepWoke k => rfl
  | zombieExit => rfl
  | _ => exact hresumable.elim

/-- The point to which a thread inside `sleep`, `wakeup` or `forkret` returns. -/
def returnPoint : Thread Point → Option Point
  | .forkret k => some k
  | .exec _ => none
  | .sleepRelease _ k => some k
  | .sleepMark _ k => some k
  | .sleepWoke k => some k
  | .sleepAcquire k => some k
  | .sleepUnlock k => some k
  | .wakeHead _ _ k => some k
  | .wakeTest _ _ k => some k
  | .wakePush _ _ k => some k
  | .wakeInsert _ _ k => some k
  | .wakeRqRelease _ _ k => some k
  | .wakeRelease _ _ k => some k
  | .wakeNext _ _ k => some k
  | .zombieExit => none

/-- A step inside `sleep` or `wakeup` keeps the point of return or goes there; a step
of the program enters one of them at a call. -/
theorem threadStep_return {program : ℕ → Point → Instr Point Data} {p choice : ℕ}
    {shared shared' : Shared Data} {t t' : Thread Point} {leaves : Bool}
    (hstep : threadStep program p shared choice t = some (shared', t', leaves)) :
    (∃ k, t = .exec k) ∨ returnPoint t' = returnPoint t ∨
      ∃ k, returnPoint t = some k ∧ t' = .exec k := by
  unfold threadStep at hstep
  split at hstep
  all_goals try split at hstep
  all_goals
    simp only [Option.map_eq_some_iff, Option.some.injEq, Prod.mk.injEq, reduceCtorEq] at hstep
  all_goals first
    | exact .inl ⟨_, rfl⟩
    | obtain ⟨_, rfl, _⟩ := hstep
      first
        | exact .inr (.inl rfl)
        | exact .inr (.inr ⟨_, rfl, rfl⟩)

/-- What a thread step does to the statuses and the run queue: nothing beyond the
process's own status, or the update of a sleeper in `wakeup`, or its insertion. -/
theorem threadStep_shared {program : ℕ → Point → Instr Point Data}
    {held : ℕ → Point → Lock → Prop} (hlawful : Lawful program held) {p choice : ℕ}
    {shared shared' : Shared Data} {t t' : Thread Point} {leaves : Bool}
    (hstep : threadStep program p shared choice t = some (shared', t', leaves)) :
    (shared'.runQueue = shared.runQueue ∧
        (∀ q, q ≠ p → shared'.status q = shared.status q) ∧
        (shared'.status p = .sleeping → shared.status p = .sleeping ∨ leaves = true) ∧
        (wakes t' = wakes t ∨ wakes t' = none)) ∨
      (∃ chan q k, t = .wakeTest chan q k ∧ t' = .wakePush chan q k ∧ leaves = false ∧
        shared.status q = .sleeping ∧ shared.chan q = some chan ∧
        shared' = { shared with status := Function.update shared.status q .runnable }) ∨
      (∃ chan q k, t = .wakeInsert chan q k ∧ t' = .wakeRqRelease chan q k ∧
        leaves = false ∧ shared' = rbPushBack shared q) := by
  cases t with
  | exec k =>
      left
      cases hinstr : program p k with
      | update f =>
          simp only [threadStep, hinstr, Option.map_eq_some_iff, Prod.mk.injEq] at hstep
          obtain ⟨⟨after, k'⟩, hf, rfl, rfl, rfl⟩ := hstep
          obtain ⟨_, hqueue, hstatus, hown⟩ := hlawful.update hinstr hf
          exact ⟨hqueue, hstatus, fun h => .inl (hown h), .inr rfl⟩
      | _ =>
          simp only [threadStep, hinstr, Option.some.injEq, Prod.mk.injEq] at hstep
          obtain ⟨rfl, rfl, _⟩ := hstep
          exact ⟨rfl, fun _ _ => rfl, fun h => .inl h, .inr rfl⟩
  | sleepMark chan k =>
      left
      simp only [threadStep, Option.some.injEq, Prod.mk.injEq] at hstep
      obtain ⟨rfl, rfl, rfl⟩ := hstep
      exact ⟨rfl, fun q hq => Function.update_of_ne hq _ _, fun _ => .inr rfl, .inr rfl⟩
  | wakeHead chan e k =>
      left
      cases e with
      | none =>
          simp only [threadStep, Option.some.injEq, Prod.mk.injEq] at hstep
          obtain ⟨rfl, rfl, _⟩ := hstep
          exact ⟨rfl, fun _ _ => rfl, fun h => .inl h, .inr rfl⟩
      | some q =>
          simp only [threadStep] at hstep
          split at hstep
          all_goals
            simp only [Option.some.injEq, Prod.mk.injEq] at hstep
            obtain ⟨rfl, rfl, _⟩ := hstep
            exact ⟨rfl, fun _ _ => rfl, fun h => .inl h, .inr rfl⟩
  | wakeTest chan q k =>
      simp only [threadStep] at hstep
      split at hstep
      · rename_i hasleep
        simp only [Option.some.injEq, Prod.mk.injEq] at hstep
        obtain ⟨rfl, rfl, rfl⟩ := hstep
        exact .inr (.inl ⟨chan, q, k, rfl, rfl, rfl, hasleep.1, hasleep.2, rfl⟩)
      · left
        simp only [Option.some.injEq, Prod.mk.injEq] at hstep
        obtain ⟨rfl, rfl, _⟩ := hstep
        exact ⟨rfl, fun _ _ => rfl, fun h => .inl h, .inr rfl⟩
  | wakeInsert chan q k =>
      simp only [threadStep, Option.some.injEq, Prod.mk.injEq] at hstep
      obtain ⟨rfl, rfl, rfl⟩ := hstep
      exact .inr (.inr ⟨chan, q, k, rfl, rfl, rfl, rfl⟩)
  | zombieExit => simp [threadStep] at hstep
  | _ =>
      left
      simp only [threadStep, Option.some.injEq, Prod.mk.injEq] at hstep
      obtain ⟨rfl, rfl, _⟩ := hstep
      exact ⟨rfl, fun _ _ => rfl, fun h => .inl h, .inl rfl⟩

/-! ## The invariant is kept -/

theorem serves_eq_of_run {s : State Point Data} {i j p : ℕ} (hcpu : s.cpu i = .run p)
    (leaves : Bool) :
    serves ((if leaves then Function.update s.cpu i (.back p) else s.cpu) j) =
      serves (s.cpu j) := by
  cases leaves with
  | false => simp
  | true =>
      by_cases hj : j = i
      · simp [hj, hcpu, serves]
      · simp [hj]

theorem cpu_eq_of_run {s : State Point Data} {i j p : ℕ} (hj : j ≠ i) (leaves : Bool) :
    (if leaves then Function.update s.cpu i (.back p) else s.cpu) j = s.cpu j := by
  cases leaves <;> simp [hj]

/-- A process that is seen asleep under its lock is run by no CPU. -/
theorem Sound.notServed_of_asleep {held : ℕ → Point → Lock → Prop} {s : State Point Data}
    (hsound : Sound held s) {i p q chan : ℕ} {k : Point} (hcpu : s.cpu i = .run p)
    (hthread : s.thread p = .wakeTest chan q k) (hasleep : s.shared.status q = .sleeping)
    (j : ℕ) : serves (s.cpu j) ≠ some q := by
  intro hserves
  have hback := hsound.asleep q j hasleep hserves
  have hj : s.holder (.proc q) = some j := by
    rw [hsound.holds]
    simp [Holds, hback]
  have hi : s.holder (.proc q) = some i := by
    rw [hsound.holds]
    simp [Holds, hcpu, hthread, ThreadHolds]
  obtain rfl : i = j := Option.some.inj (hi.symm.trans hj)
  rw [hcpu] at hback
  cases hback

theorem holds_of_wakes {held : ℕ → Point → Lock → Prop} {s : State Point Data} {i p q : ℕ}
    (hcpu : s.cpu i = .run p) (hwakes : wakes (s.thread p) = some q) :
    Holds held s i (.proc q) := by
  unfold Holds
  rw [hcpu]
  cases hthread : s.thread p with
  | wakePush chan w k =>
      rw [hthread] at hwakes
      obtain rfl := Option.some.inj hwakes
      simp [hthread, ThreadHolds]
  | wakeInsert chan w k =>
      rw [hthread] at hwakes
      obtain rfl := Option.some.inj hwakes
      simp [hthread, ThreadHolds]
  | _ =>
      rw [hthread] at hwakes
      cases hwakes

theorem run_sound {program : ℕ → Point → Instr Point Data}
    {held : ℕ → Point → Lock → Prop} (hlawful : Lawful program held)
    {s : State Point Data} (hsound : Sound held s) {i p choice : ℕ} {leaves : Bool}
    {holder : Lock → Option ℕ} {shared : Shared Data} {t : Thread Point}
    (hcpu : s.cpu i = .run p)
    (hlock : lockStep s.holder i (lockOp program s i) = some holder)
    (hthread : threadStep program p s.shared choice (s.thread p) = some (shared, t, leaves)) :
    Sound held ⟨holder, if leaves then Function.update s.cpu i (.back p) else s.cpu,
      Function.update s.thread p t, shared⟩ := by
  have hserved : serves (s.cpu i) = some p := by rw [hcpu]; rfl
  have hother : ∀ j q, j ≠ i → serves (s.cpu j) = some q → q ≠ p := by
    rintro j q hj hq rfl
    exact hj (hsound.unique j i q hq hserved)
  have hnotAsleep : s.shared.status p ≠ .sleeping := by
    intro hasleep
    have hback := hsound.asleep p i hasleep hserved
    rw [hcpu] at hback
    cases hback
  have hcpuI : (if leaves then Function.update s.cpu i (.back p) else s.cpu) i =
      if leaves then .back p else .run p := by
    cases leaves <;> simp [hcpu]
  have hshared := threadStep_shared hlawful hthread
  constructor
  · have hop : lockOp program s i = threadOp program p (s.thread p) := by
      rw [lockOp, hcpu]
    rw [hop] at hlock
    apply lockStep_holds hsound.holds hlock
    · intro lock
      have hstep := threadStep_holds hlawful (hsound.threads p) hthread lock
      have hbefore : Holds held s i = fun l => ThreadHolds held p l (s.thread p) := by
        funext l
        rw [Holds, hcpu]
      rw [hbefore, ← hstep]
      unfold Holds
      simp only [hcpuI]
      cases leaves <;> simp
    · intro j hj lock
      unfold Holds
      simp only [cpu_eq_of_run hj]
      split <;> try rfl
      rename_i q hq
      have hne : q ≠ p := hother j q hj (by rw [hq]; rfl)
      simp only [Function.update_of_ne hne]
  · intro q
    by_cases hq : q = p
    · subst hq
      simpa using threadStep_ok hlawful (hsound.threads q) hthread
    · simpa [hq] using hsound.threads q
  · intro q hnotRun
    by_cases hq : q = p
    · subst hq
      cases leaves with
      | false => exact absurd hcpu (hnotRun i)
      | true => simpa using threadStep_resumable hthread
    · simp only [Function.update_of_ne hq]
      apply hsound.resume
      intro j hj
      have hji : j ≠ i := by
        rintro rfl
        rw [hcpu] at hj
        exact hq (Cpu.run.inj hj).symm
      exact hnotRun j ((cpu_eq_of_run hji leaves).trans hj)
  · intro j k q hj hk
    simp only [serves_eq_of_run hcpu] at hj hk
    exact hsound.unique j k q hj hk
  · intro q hq
    simp only [serves_eq_of_run hcpu] at *
    obtain ⟨hqueue, hstatus, _, _⟩ | ⟨chan, w, k, _, _, _, _, _, rfl⟩ |
      ⟨chan, w, k, hw, _, _, rfl⟩ := hshared
    · rw [hqueue] at hq
      obtain ⟨hrunnable, hnot⟩ := hsound.queued q hq
      have hne : q ≠ p := by
        rintro rfl
        exact hnot i hserved
      exact ⟨(hstatus q hne).trans hrunnable, hnot⟩
    · obtain ⟨hrunnable, hnot⟩ := hsound.queued q hq
      refine ⟨?_, hnot⟩
      by_cases hqw : q = w
      · simp [hqw]
      · simpa [hqw] using hrunnable
    · rw [(rbPushBack_eq s.shared w).1]
      obtain rfl | hq := mem_rbPushBack.mp hq
      · obtain ⟨hrunnable, _, hnot⟩ := hsound.waking i p q hcpu (by rw [hw]; rfl)
        exact ⟨hrunnable, hnot⟩
      · exact hsound.queued q hq
  · obtain ⟨hqueue, _, _, _⟩ | ⟨chan, w, k, _, _, _, _, _, rfl⟩ |
      ⟨chan, w, k, hw, _, _, rfl⟩ := hshared
    · rw [hqueue]
      exact hsound.nodup
    · exact hsound.nodup
    · exact nodup_rbPushBack hsound.nodup
  · intro j q hj hrun hback
    have hji : j ≠ i := by
      rintro rfl
      simp only [serves_eq_of_run hcpu, hserved, Option.some.injEq] at hj
      subst hj
      simp only [hcpuI] at hrun hback
      cases leaves with
      | false => exact hrun rfl
      | true => exact hback rfl
    simp only [cpu_eq_of_run hji] at hj hrun hback
    have hrunnable := hsound.chosen j q hj hrun hback
    have hne := hother j q hji hj
    obtain ⟨_, hstatus, _, _⟩ | ⟨chan, w, k, _, _, _, _, _, rfl⟩ |
      ⟨chan, w, k, hw, _, _, rfl⟩ := hshared
    · exact (hstatus q hne).trans hrunnable
    · by_cases hqw : q = w
      · simp [hqw]
      · simpa [hqw] using hrunnable
    · rw [(rbPushBack_eq s.shared w).1]
      exact hrunnable
  · intro j r q hj hwakes
    simp only [serves_eq_of_run hcpu]
    by_cases hji : j = i
    · subst hji
      simp only [hcpuI] at hj
      cases leaves with
      | true => cases hj
      | false =>
          obtain rfl : p = r := by simpa using hj
          simp only [Function.update_self] at hwakes
          obtain ⟨hqueue, hstatus, _, hsame | hnone⟩ |
            ⟨chan, w, k, hw, rfl, _, hasleep, _, rfl⟩ | ⟨chan, w, k, hw, rfl, _, rfl⟩ := hshared
          · obtain ⟨hrunnable, hnot, hserves⟩ :=
              hsound.waking j p q hcpu (hsame.symm.trans hwakes)
            have hne : q ≠ p := by
              rintro rfl
              exact hserves j hserved
            exact ⟨(hstatus q hne).trans hrunnable, hqueue ▸ hnot, hserves⟩
          · rw [hnone] at hwakes
            cases hwakes
          · obtain rfl : w = q := by simpa [wakes] using hwakes
            refine ⟨by simp, ?_, hsound.notServed_of_asleep hcpu hw hasleep⟩
            intro hmem
            rw [(hsound.queued w hmem).1] at hasleep
            cases hasleep
          · cases hwakes
    · simp only [cpu_eq_of_run hji] at hj
      have hserves : serves (s.cpu j) = some r := by rw [hj]; rfl
      have hne : r ≠ p := hother j r hji hserves
      simp only [Function.update_of_ne hne] at hwakes
      obtain ⟨hrunnable, hnot, hserves⟩ := hsound.waking j r q hj hwakes
      have hqp : q ≠ p := by
        rintro rfl
        exact hserves i hserved
      obtain ⟨hqueue, hstatus, _, _⟩ | ⟨chan, w, k, _, _, _, _, _, rfl⟩ |
        ⟨chan, w, k, hw, _, _, rfl⟩ := hshared
      · exact ⟨(hstatus q hqp).trans hrunnable, hqueue ▸ hnot, hserves⟩
      · refine ⟨?_, hnot, hserves⟩
        by_cases hqw : q = w
        · simp [hqw]
        · simpa [hqw] using hrunnable
      · refine ⟨(rbPushBack_eq s.shared w).1 ▸ hrunnable, ?_, hserves⟩
        intro hmem
        obtain rfl | hmem := mem_rbPushBack.mp hmem
        · have hi : s.holder (.proc q) = some i := by
            rw [hsound.holds]
            simp [Holds, hcpu, hw, ThreadHolds]
          have hj' : s.holder (.proc q) = some j := by
            rw [hsound.holds]
            exact holds_of_wakes hj hwakes
          exact hji (Option.some.inj (hj'.symm.trans hi))
        · exact hnot hmem
  · intro q j hasleep hj
    simp only [serves_eq_of_run hcpu] at hj
    by_cases hji : j = i
    · subst hji
      obtain rfl : p = q := Option.some.inj (hserved.symm.trans hj)
      simp only [hcpuI]
      obtain ⟨_, _, hown, _⟩ | ⟨chan, w, k, hw, _, _, _, _, rfl⟩ |
        ⟨chan, w, k, _, _, _, rfl⟩ := hshared
      · obtain hbefore | hleaves := hown hasleep
        · exact absurd hbefore hnotAsleep
        · simp [hleaves]
      · have hok := hsound.threads p
        rw [hw] at hok
        simp only [Function.update_of_ne (Ne.symm hok.1)] at hasleep
        exact absurd hasleep hnotAsleep
      · simp only [(rbPushBack_eq s.shared w).1] at hasleep
        exact absurd hasleep hnotAsleep
    · simp only [cpu_eq_of_run hji]
      have hne := hother j q hji hj
      apply hsound.asleep q j _ hj
      obtain ⟨_, hstatus, _, _⟩ | ⟨chan, w, k, _, _, _, _, _, rfl⟩ |
        ⟨chan, w, k, _, _, _, rfl⟩ := hshared
      · exact (hstatus q hne).symm.trans hasleep
      · by_cases hqw : q = w
        · simp [hqw] at hasleep
        · simpa [hqw] using hasleep
      · simpa only [(rbPushBack_eq s.shared w).1] using hasleep

/-- The moves of the scheduler that change the CPU's position alone. -/
theorem move_sound {program : ℕ → Point → Instr Point Data}
    {held : ℕ → Point → Lock → Prop} {s : State Point Data} (hsound : Sound held s) {i : ℕ}
    {holder : Lock → Option ℕ} {after : Cpu}
    (hlock : lockStep s.holder i (lockOp program s i) = some holder)
    (hmove : (s.cpu i = .top ∧ after = .scan) ∨ (s.cpu i = .found none ∧ after = .top) ∨
      (∃ p, s.cpu i = .found (some p) ∧ after = .pick p) ∨
      (∃ p, s.cpu i = .pick p ∧ after = .enter p) ∨
      (∃ p, s.cpu i = .back p ∧ after = .top)) :
    Sound held ⟨holder, Function.update s.cpu i after, s.thread, s.shared⟩ := by
  have hserves : ∀ j p, serves (Function.update s.cpu i after j) = some p →
      serves (s.cpu j) = some p := by
    intro j p hj
    by_cases hji : j = i
    · subst hji
      obtain ⟨hb, rfl⟩ | ⟨hb, rfl⟩ | ⟨q, hb, rfl⟩ | ⟨q, hb, rfl⟩ | ⟨q, hb, rfl⟩ := hmove
      all_goals simp_all [serves]
    · simpa [hji] using hj
  have hnotRun : ∀ p, after ≠ .run p ∧ after ≠ .back p := by
    obtain ⟨_, rfl⟩ | ⟨_, rfl⟩ | ⟨q, _, rfl⟩ | ⟨q, _, rfl⟩ | ⟨q, _, rfl⟩ := hmove
    all_goals simp
  have hbefore : ∀ p, serves after = some p → s.cpu i ≠ .run p ∧ s.cpu i ≠ .back p := by
    intro p hp
    obtain ⟨_, rfl⟩ | ⟨_, rfl⟩ | ⟨q, hb, rfl⟩ | ⟨q, hb, rfl⟩ | ⟨q, _, rfl⟩ := hmove
    all_goals simp_all [serves]
  constructor
  · apply lockStep_holds hsound.holds hlock
    · intro lock
      unfold Holds lockOp
      simp only [Function.update_self]
      obtain ⟨hb, rfl⟩ | ⟨hb, rfl⟩ | ⟨q, hb, rfl⟩ | ⟨q, hb, rfl⟩ | ⟨q, hb, rfl⟩ := hmove
      all_goals simp [hb, HeldAfter]
    · intro j hj lock
      simp [Holds, hj]
  · exact hsound.threads
  · intro p hp
    apply hsound.resume
    intro j hj
    apply hp j
    have hji : j ≠ i := by
      rintro rfl
      obtain ⟨hb, _⟩ | ⟨hb, _⟩ | ⟨q, hb, _⟩ | ⟨q, hb, _⟩ | ⟨q, hb, _⟩ := hmove
      all_goals exact absurd (hb.symm.trans hj) (by simp)
    simpa [hji] using hj
  · intro j k p hj hk
    exact hsound.unique j k p (hserves j p hj) (hserves k p hk)
  · intro p hp
    obtain ⟨hrunnable, hnot⟩ := hsound.queued p hp
    exact ⟨hrunnable, fun j hj => hnot j (hserves j p hj)⟩
  · exact hsound.nodup
  · intro j p hj hrun hback
    by_cases hji : j = i
    · subst hji
      have hafter : serves after = some p := by simpa using hj
      exact hsound.chosen j p (hserves j p hj) (hbefore p hafter).1 (hbefore p hafter).2
    · simp only [Function.update_of_ne hji] at hj hrun hback
      exact hsound.chosen j p hj hrun hback
  · intro j p q hj hwakes
    have hji : j ≠ i := by
      rintro rfl
      simp only [Function.update_self] at hj
      exact (hnotRun p).1 hj
    simp only [Function.update_of_ne hji] at hj
    obtain ⟨hrunnable, hnot, hserved⟩ := hsound.waking j p q hj hwakes
    exact ⟨hrunnable, hnot, fun k hk => hserved k (hserves k q hk)⟩
  · intro p j hasleep hj
    have hback := hsound.asleep p j hasleep (hserves j p hj)
    by_cases hji : j = i
    · subst hji
      have hafter : serves after = some p := by simpa using hj
      exact absurd hback (hbefore p hafter).2
    · simpa [hji] using hback

theorem scan_sound {program : ℕ → Point → Instr Point Data}
    {held : ℕ → Point → Lock → Prop} {s : State Point Data} (hsound : Sound held s) {i : ℕ}
    {holder : Lock → Option ℕ} (hcpu : s.cpu i = .scan)
    (hlock : lockStep s.holder i (lockOp program s i) = some holder) :
    Sound held ⟨holder, Function.update s.cpu i
        (.found (pickNext s.shared.status s.shared.runQueue).1), s.thread,
      refreshMinVruntime { s.shared with
        runQueue := (pickNext s.shared.status s.shared.runQueue).2 }⟩ := by
  obtain ⟨hsuffix, hpicked⟩ := pickNext_spec s.shared.status s.shared.runQueue
  generalize (pickNext s.shared.status s.shared.runQueue).1 = next at hpicked ⊢
  generalize (pickNext s.shared.status s.shared.runQueue).2 = queue at hsuffix hpicked ⊢
  have hserves : ∀ j p, serves (Function.update s.cpu i (.found next) j) = some p →
      (j = i ∧ next = some p) ∨ (j ≠ i ∧ serves (s.cpu j) = some p) := by
    intro j p hj
    by_cases hji : j = i
    · subst hji
      exact .inl ⟨rfl, by simpa [serves] using hj⟩
    · exact .inr ⟨hji, by simpa [hji] using hj⟩
  have hmem : ∀ p, next = some p → p ∈ s.shared.runQueue ∧ p ∉ queue := by
    intro p hp
    have hcons := (hpicked p hp).2
    exact ⟨hcons.subset (by simp), (List.nodup_cons.mp (hsound.nodup.sublist hcons.sublist)).1⟩
  constructor
  · apply lockStep_holds hsound.holds hlock
    · intro lock
      simp [Holds, lockOp, hcpu, HeldAfter]
    · intro j hj lock
      simp [Holds, hj]
  · exact hsound.threads
  · intro p hp
    apply hsound.resume
    intro j hj
    have hji : j ≠ i := by
      rintro rfl
      rw [hcpu] at hj
      cases hj
    exact hp j (by simpa [hji] using hj)
  · intro j k p hj hk
    obtain ⟨rfl, hp⟩ | ⟨hji, hj'⟩ := hserves j p hj <;>
      obtain ⟨rfl, hp'⟩ | ⟨hki, hk'⟩ := hserves k p hk
    · rfl
    · exact absurd hk' ((hsound.queued p (hmem p hp).1).2 k)
    · exact absurd hj' ((hsound.queued p (hmem p hp').1).2 j)
    · exact hsound.unique j k p hj' hk'
  · intro p hp
    simp only [refreshMinVruntime_eq] at hp ⊢
    obtain ⟨hrunnable, hnot⟩ := hsound.queued p (hsuffix.subset hp)
    refine ⟨hrunnable, ?_⟩
    intro j hj
    obtain ⟨_, hnext⟩ | ⟨_, hj⟩ := hserves j p hj
    · exact (hmem p hnext).2 hp
    · exact hnot j hj
  · simp only [refreshMinVruntime_eq]
    exact hsound.nodup.sublist hsuffix.sublist
  · intro j p hj hrun hback
    simp only [refreshMinVruntime_eq]
    obtain ⟨rfl, hnext⟩ | ⟨hji, hj⟩ := hserves j p hj
    · exact (hpicked p hnext).1
    · simp only [Function.update_of_ne hji] at hrun hback
      exact hsound.chosen j p hj hrun hback
  · intro j p q hj hwakes
    simp only [refreshMinVruntime_eq]
    have hji : j ≠ i := by
      rintro rfl
      simp at hj
    simp only [Function.update_of_ne hji] at hj
    obtain ⟨hrunnable, hnot, hserved⟩ := hsound.waking j p q hj hwakes
    refine ⟨hrunnable, fun hq => hnot (hsuffix.subset hq), ?_⟩
    intro k hk
    obtain ⟨_, hnext⟩ | ⟨_, hk⟩ := hserves k q hk
    · exact hnot (hmem q hnext).1
    · exact hserved k hk
  · intro p j hasleep hj
    simp only [refreshMinVruntime_eq] at hasleep
    obtain ⟨_, hnext⟩ | ⟨hji, hj⟩ := hserves j p hj
    · rw [(hpicked p hnext).1] at hasleep
      cases hasleep
    · simpa [hji] using hsound.asleep p j hasleep hj

/-- A process whose lock the scheduler has just taken is at a point of return. -/
theorem Sound.resumable_of_enter {held : ℕ → Point → Lock → Prop} {s : State Point Data}
    (hsound : Sound held s) {i p : ℕ} (hcpu : s.cpu i = .enter p) : Resumable (s.thread p) := by
  apply hsound.resume
  intro j hj
  obtain rfl : i = j := hsound.unique i j p (by rw [hcpu]; rfl) (by rw [hj]; rfl)
  rw [hcpu] at hj
  cases hj

theorem enter_sound {program : ℕ → Point → Instr Point Data}
    {held : ℕ → Point → Lock → Prop} {s : State Point Data} (hsound : Sound held s) {i p : ℕ}
    {holder : Lock → Option ℕ} (hcpu : s.cpu i = .enter p)
    (hlock : lockStep s.holder i (lockOp program s i) = some holder) :
    Sound held ⟨holder, Function.update s.cpu i (.run p), s.thread,
      { s.shared with status := Function.update s.shared.status p .running }⟩ := by
  have hserved : serves (s.cpu i) = some p := by rw [hcpu]; rfl
  have hserves : ∀ j, serves (Function.update s.cpu i (.run p) j) = serves (s.cpu j) := by
    intro j
    by_cases hji : j = i
    · simp [hji, hcpu, serves]
    · simp [hji]
  have hstatus : ∀ q, q ≠ p →
      Function.update s.shared.status p .running q = s.shared.status q := by
    intro q hq
    exact Function.update_of_ne hq _ _
  have hresume := hsound.resumable_of_enter hcpu
  constructor
  · apply lockStep_holds hsound.holds hlock
    · intro lock
      simp [Holds, lockOp, hcpu, HeldAfter, threadHolds_of_resumable hresume]
    · intro j hj lock
      simp [Holds, hj]
  · exact hsound.threads
  · intro q hq
    apply hsound.resume
    intro j hj
    have hji : j ≠ i := by
      rintro rfl
      rw [hcpu] at hj
      cases hj
    exact hq j (by simpa [hji] using hj)
  · intro j k q hj hk
    simp only [hserves] at hj hk
    exact hsound.unique j k q hj hk
  · intro q hq
    obtain ⟨hrunnable, hnot⟩ := hsound.queued q hq
    have hne : q ≠ p := by
      rintro rfl
      exact hnot i hserved
    refine ⟨(hstatus q hne).trans hrunnable, ?_⟩
    simpa only [hserves] using hnot
  · exact hsound.nodup
  · intro j q hj hrun hback
    have hji : j ≠ i := by
      rintro rfl
      simp only [hserves, hserved, Option.some.injEq] at hj
      subst hj
      simp at hrun
    simp only [Function.update_of_ne hji] at hj hrun hback
    have hne : q ≠ p := by
      rintro rfl
      exact hji (hsound.unique j i q hj hserved)
    exact (hstatus q hne).trans (hsound.chosen j q hj hrun hback)
  · intro j r q hj hwakes
    simp only [hserves]
    have hji : j ≠ i := by
      rintro rfl
      obtain rfl : p = r := by simpa using hj
      cases hthread : s.thread p <;> simp_all [Resumable, wakes]
    simp only [Function.update_of_ne hji] at hj
    obtain ⟨hrunnable, hnot, hserved'⟩ := hsound.waking j r q hj hwakes
    have hne : q ≠ p := by
      rintro rfl
      exact hserved' i hserved
    exact ⟨(hstatus q hne).trans hrunnable, hnot, hserved'⟩
  · intro q j hasleep hj
    simp only [hserves] at hj
    have hne : q ≠ p := by
      rintro rfl
      simp at hasleep
    have hback := hsound.asleep q j ((hstatus q hne).symm.trans hasleep) hj
    have hji : j ≠ i := by
      rintro rfl
      rw [hcpu] at hback
      cases hback
    simpa [hji] using hback

/-- Every step keeps the invariant. -/
theorem step_sound {program : ℕ → Point → Instr Point Data}
    {held : ℕ → Point → Lock → Prop} (hlawful : Lawful program held)
    {s s' : State Point Data} (hsound : Sound held s) {i choice : ℕ}
    (hstep : step program s i choice = some s') : Sound held s' := by
  obtain ⟨holder, hlock, hmove | hscan | henter | hrun⟩ := step_cases hstep
  · obtain ⟨before, after, rfl, hmove, rfl⟩ := hmove
    exact move_sound hsound hlock hmove
  · obtain ⟨hcpu, rfl⟩ := hscan
    exact scan_sound hsound hcpu hlock
  · obtain ⟨p, hcpu, rfl⟩ := henter
    exact enter_sound hsound hcpu hlock
  · obtain ⟨p, shared, t, leaves, hcpu, hthread, rfl⟩ := hrun
    exact run_sound hlawful hsound hcpu hlock hthread

theorem foldl_rbPushBack {ready : List ℕ} {shared : Shared Data}
    (hnodup : shared.runQueue.Nodup) :
    (ready.foldl rbPushBack shared).runQueue.Nodup ∧
      (∀ p, p ∈ (ready.foldl rbPushBack shared).runQueue ↔
        p ∈ shared.runQueue ∨ p ∈ ready) ∧
      (ready.foldl rbPushBack shared).status = shared.status ∧
      (ready.foldl rbPushBack shared).processList = shared.processList ∧
      (ready.foldl rbPushBack shared).stale = shared.stale := by
  induction ready generalizing shared with
  | nil => simp [hnodup]
  | cons p ready ih =>
      obtain ⟨hstatus, _, hlist, hstale, _⟩ := rbPushBack_eq shared p
      obtain ⟨hnodup', hmem, hstatus', hlist', hstale'⟩ :=
        ih (nodup_rbPushBack (p := p) hnodup)
      refine ⟨hnodup', ?_, hstatus'.trans hstatus, hlist'.trans hlist, hstale'.trans hstale⟩
      intro q
      rw [List.foldl_cons, hmem, mem_rbPushBack, List.mem_cons]
      tauto

theorem boot_shared (procs ready : List ℕ) (vruntime : ℕ → ℕ) (k : Point) (data : Data) :
    (boot procs ready vruntime k data).shared.runQueue.Nodup ∧
      (∀ p, p ∈ (boot procs ready vruntime k data).shared.runQueue ↔ p ∈ ready) ∧
      (∀ p, (boot procs ready vruntime k data).shared.status p =
        if p ∈ ready then .runnable else .initial) ∧
      (boot procs ready vruntime k data).shared.processList = procs ∧
      (boot procs ready vruntime k data).shared.stale = fun _ => none := by
  have hcreated : (created procs ready vruntime data).runQueue.Nodup := List.nodup_nil
  obtain ⟨hnodup, hmem, hstatus, hlist, hstale⟩ := @foldl_rbPushBack _ ready _ hcreated
  refine ⟨hnodup, ?_, ?_, hlist, hstale⟩
  · intro p
    exact (hmem p).trans (by simp [created])
  · intro p
    exact congrFun hstatus p

theorem boot_sound {held : ℕ → Point → Lock → Prop} {procs ready : List ℕ}
    {vruntime : ℕ → ℕ} {k : Point} {data : Data} (hheld : ∀ p l, ¬ held p k l) :
    Sound held (boot procs ready vruntime k data) := by
  obtain ⟨hnodup, hmem, hstatus, _, _⟩ := boot_shared procs ready vruntime k data
  constructor
  · intro lock i
    simp [boot, Holds]
  · intro p l
    exact hheld p l
  · intro p _
    trivial
  · intro i j p hi
    cases hi
  · intro p hp
    rw [hmem] at hp
    refine ⟨by rw [hstatus, if_pos hp], ?_⟩
    intro i hi
    cases hi
  · exact hnodup
  · intro i p hi
    cases hi
  · intro i p q hi
    cases hi
  · intro p i _ hi
    cases hi

end Painting.Threads
