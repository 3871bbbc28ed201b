import Painting.Sched.ThreadsInvariant

/-!
# Sleeplocks and the spinlocks under them

Processes call `acquiresleeplock` and `releasesleeplock` (`sleeplock.c`) on one
sleeplock, in any order.  A process that goes to sleep takes its own lock while it
holds the inner lock; a process that `sleep` resumes holds its own lock, from the
scheduler, and takes the inner lock.  `releasesleeplock` calls `wakeup` with the
inner lock held, and `wakeup` takes the lock of every other process.

So a resumed process and a `releasesleeplock` that has yet to visit it block each
other for good.  Without such a pair no spinlock is ever waited for in a cycle.
-/

namespace Painting.SleepLock

open Painting.Threads Painting.Transition Relation

/-- The points of the two functions; at `idle` a process runs other code. -/
inductive Point
  | idle
  | acqLock
  | acqTest
  | acqSleep
  | acqUnlock
  | relLock
  | relClear
  | relWake
  | relUnlock
  deriving DecidableEq

/-- `struct sleeplock`; no pid stands for `-1`. -/
structure Sleeplock where
  locked : Bool
  pid : Option ℕ

/-- The address of the sleeplock, which is its channel. -/
def lk : ℕ := 0

/-- `acquiresleeplock`, `releasesleeplock` and the calls to them. -/
def program (p : ℕ) : Point → Instr Point Sleeplock
  | .idle => .update fun shared choice =>
      some (shared, if choice = 0 then .acqLock else .relLock)
  | .acqLock => .acquire .user .acqTest
  | .acqTest => .update fun shared _ =>
      if shared.data.locked then some (shared, .acqSleep)
      else some ({ shared with data := ⟨true, some p⟩ }, .acqUnlock)
  | .acqSleep => .sleep lk .acqTest
  | .acqUnlock => .release .user .idle
  | .relLock => .acquire .user .relClear
  | .relClear => .update fun shared _ =>
      some ({ shared with data := ⟨false, none⟩ }, .relWake)
  | .relWake => .wakeup lk .relUnlock
  | .relUnlock => .release .user .idle

/-- After `initsleeplock`, with every process of `procs` ready to run. -/
def start (procs : List ℕ) (vruntime : ℕ → ℕ) : State Point Sleeplock :=
  boot procs procs vruntime .idle ⟨false, none⟩

/-- The locks held at each point. -/
def held (_ : ℕ) (k : Point) (lock : Lock) : Prop :=
  lock = .user ∧ k ≠ .idle ∧ k ≠ .acqLock ∧ k ≠ .relLock

theorem lawful : Lawful program held where
  acquire := by
    intro p k lock k' hinstr l
    cases k <;> simp [program] at hinstr <;> obtain ⟨rfl, rfl⟩ := hinstr <;> simp [held]
  release := by
    intro p k lock k' hinstr l
    cases k <;> simp [program] at hinstr <;> obtain ⟨rfl, rfl⟩ := hinstr <;> simp [held]
  sleep := by
    intro p k chan k' hinstr l
    cases k <;> simp [program] at hinstr
    obtain ⟨rfl, rfl⟩ := hinstr
    simp [held]
  wakeup := by
    intro p k chan k' hinstr
    cases k <;> simp [program] at hinstr
    obtain ⟨rfl, rfl⟩ := hinstr
    simp [held]
  update := by
    intro p k f shared choice shared' k' hinstr hf
    cases k <;> simp only [program, Instr.update.injEq, reduceCtorEq] at hinstr
    · subst hinstr
      simp only [Option.some.injEq, Prod.mk.injEq] at hf
      obtain ⟨rfl, rfl⟩ := hf
      split <;> simp [held]
    · subst hinstr
      dsimp only at hf
      split at hf <;>
        simp only [Option.some.injEq, Prod.mk.injEq] at hf <;>
        obtain ⟨rfl, rfl⟩ := hf <;> simp [held]
    · subst hinstr
      simp only [Option.some.injEq, Prod.mk.injEq] at hf
      obtain ⟨rfl, rfl⟩ := hf
      simp [held]
  sched := by
    intro p k hinstr
    cases k <;> simp [program] at hinstr

/-! ## Resumed processes and pending visits -/

/-- The elements after `e`. -/
def after (e : ℕ) : List ℕ → List ℕ
  | [] => []
  | x :: xs => if x = e then xs else after e xs

/-- The processes whose locks a thread in `releasesleeplock` has yet to take. -/
def pending (procs : List ℕ) : Thread Point → List ℕ
  | .exec .relClear => procs
  | .exec .relWake => procs
  | .wakeHead _ (some e) _ => e :: after e procs
  | .wakeTest _ e _ => after e procs
  | .wakePush _ e _ => after e procs
  | .wakeInsert _ e _ => after e procs
  | .wakeRqRelease _ e _ => after e procs
  | .wakeRelease _ e _ => after e procs
  | .wakeNext _ e _ => after e procs
  | _ => []

/-- Process `q` has been given a CPU inside `sleep`, so that its lock is held, and
has not yet got the inner lock back. -/
def Resumed (s : State Point Sleeplock) (q : ℕ) : Prop :=
  (∃ j k, (s.cpu j = .enter q ∨ s.cpu j = .run q) ∧ s.thread q = .sleepWoke k) ∨
    ∃ j k, s.cpu j = .run q ∧ s.thread q = .sleepAcquire k

/-- `releasesleeplock` takes the inner lock only when no process is resumed in
`sleep`, and the scheduler takes the lock of a process that `sleep` put away only
when no `releasesleeplock` has yet to visit it. -/
def Apart (procs : List ℕ) (s : State Point Sleeplock) (move : ℕ × ℕ) : Prop :=
  (∀ p, s.cpu move.1 = .run p → s.thread p = .exec .relLock → ∀ q, ¬ Resumed s q) ∧
    ∀ q k, s.cpu move.1 = .pick q → s.thread q = .sleepWoke k →
      ∀ j p, s.cpu j = .run p → q ∉ pending procs (s.thread p)

theorem nextIn_eq (e : ℕ) (list : List ℕ) : nextIn e list = (after e list).head? := by
  induction list with
  | nil => rfl
  | cons x xs ih =>
      simp only [nextIn, after]
      split
      · rfl
      · exact ih

theorem after_subset (e : ℕ) (list : List ℕ) : after e list ⊆ list := by
  induction list with
  | nil => simp [after]
  | cons x xs ih =>
      simp only [after]
      split
      · exact List.subset_cons_self x xs
      · exact fun y hy => List.mem_cons_of_mem x (ih hy)

/-- In a list without repetitions, what follows the next element is the rest. -/
theorem after_of_after {e next : ℕ} {list rest : List ℕ} (hnodup : list.Nodup)
    (hafter : after e list = next :: rest) : after next list = rest := by
  induction list with
  | nil => simp [after] at hafter
  | cons x xs ih =>
      obtain ⟨hx, hxs⟩ := List.nodup_cons.mp hnodup
      simp only [after] at hafter
      split at hafter
      · subst hafter
        have hne : x ≠ next := by
          rintro rfl
          exact hx (by simp)
        simp [after, hne]
      · have hmem : next ∈ xs := after_subset e xs (by rw [hafter]; simp)
        have hne : x ≠ next := by
          rintro rfl
          exact hx hmem
        rw [after, if_neg hne]
        exact ih hxs hafter

/-- No step changes the process list. -/
theorem threadStep_list {p choice : ℕ} {shared shared' : Shared Sleeplock}
    {t t' : Thread Point} {leaves : Bool}
    (hthread : threadStep program p shared choice t = some (shared', t', leaves)) :
    shared'.processList = shared.processList ∧ shared'.stale = shared.stale := by
  cases t with
  | exec k =>
      cases k with
      | acqTest =>
          simp only [threadStep, program, Option.map_eq_some_iff] at hthread
          obtain ⟨after, hafter, heq⟩ := hthread
          split at hafter
          all_goals
            obtain rfl := Option.some.inj hafter
            simp only [Prod.mk.injEq] at heq
            obtain ⟨rfl, _, _⟩ := heq
            exact ⟨rfl, rfl⟩
      | _ =>
          simp only [threadStep, program, Option.map_some, Option.some.injEq,
            Prod.mk.injEq] at hthread
          obtain ⟨rfl, _, _⟩ := hthread
          exact ⟨rfl, rfl⟩
  | wakeHead chan e k =>
      cases e with
      | none =>
          simp only [threadStep, Option.some.injEq, Prod.mk.injEq] at hthread
          obtain ⟨rfl, _, _⟩ := hthread
          exact ⟨rfl, rfl⟩
      | some q =>
          simp only [threadStep] at hthread
          split at hthread
          all_goals
            simp only [Option.some.injEq, Prod.mk.injEq] at hthread
            obtain ⟨rfl, _, _⟩ := hthread
            exact ⟨rfl, rfl⟩
  | wakeTest chan q k =>
      simp only [threadStep] at hthread
      split at hthread
      all_goals
        simp only [Option.some.injEq, Prod.mk.injEq] at hthread
        obtain ⟨rfl, _, _⟩ := hthread
        exact ⟨rfl, rfl⟩
  | wakeInsert chan q k =>
      simp only [threadStep, Option.some.injEq, Prod.mk.injEq] at hthread
      obtain ⟨rfl, _, _⟩ := hthread
      obtain ⟨_, _, hlist, hstale, _⟩ := rbPushBack_eq shared q
      exact ⟨hlist, hstale⟩
  | zombieExit => simp [threadStep] at hthread
  | _ =>
      simp only [threadStep, Option.some.injEq, Prod.mk.injEq] at hthread
      obtain ⟨rfl, _, _⟩ := hthread
      exact ⟨rfl, rfl⟩

/-- The calls return to these points. -/
def ReturnOk (t : Thread Point) : Prop :=
  ∀ k, returnPoint t = some k → k = .idle ∨ k = .acqTest ∨ k = .relUnlock

theorem threadStep_returnOk {p choice : ℕ} {shared shared' : Shared Sleeplock}
    {t t' : Thread Point} {leaves : Bool} (hreturn : ReturnOk t)
    (hthread : threadStep program p shared choice t = some (shared', t', leaves)) :
    ReturnOk t' := by
  obtain ⟨k, rfl⟩ | hsame | ⟨k, _, rfl⟩ := threadStep_return hthread
  · cases k with
    | acqTest =>
        simp only [threadStep, program, Option.map_eq_some_iff, Prod.mk.injEq] at hthread
        obtain ⟨_, _, _, rfl, _⟩ := hthread
        simp [ReturnOk, returnPoint]
    | _ =>
        simp only [threadStep, program, Option.map_some, Option.some.injEq,
          Prod.mk.injEq] at hthread
        obtain ⟨_, rfl, _⟩ := hthread
        simp [ReturnOk, returnPoint]
  · rw [ReturnOk, hsame]
    exact hreturn
  · simp [ReturnOk, returnPoint]

theorem pending_return {procs : List ℕ} {k : Point}
    (hk : k = .idle ∨ k = .acqTest ∨ k = .relUnlock) : pending procs (.exec k) = [] := by
  obtain rfl | rfl | rfl := hk <;> rfl

/-- Only the acquisition at `relLock` makes visits pending. -/
theorem pending_subset {p choice : ℕ} {shared shared' : Shared Sleeplock}
    {t t' : Thread Point} {leaves : Bool} (hnodup : shared.processList.Nodup)
    (hstale : shared.stale = fun _ => none)
    (hthread : threadStep program p shared choice t = some (shared', t', leaves))
    (hreturn : ReturnOk t) (hrel : t ≠ .exec .relLock) :
    pending shared.processList t' ⊆ pending shared.processList t := by
  cases t with
  | exec k =>
      cases k with
      | idle =>
          simp only [threadStep, program, Option.map_some, Option.some.injEq,
            Prod.mk.injEq] at hthread
          obtain ⟨_, rfl, _⟩ := hthread
          split <;> exact List.nil_subset _
      | acqTest =>
          simp only [threadStep, program, Option.map_eq_some_iff] at hthread
          obtain ⟨after, hafter, heq⟩ := hthread
          split at hafter
          all_goals
            obtain rfl := Option.some.inj hafter
            simp only [Prod.mk.injEq] at heq
            obtain ⟨_, rfl, _⟩ := heq
            exact List.nil_subset _
      | relClear =>
          simp only [threadStep, program, Option.map_some, Option.some.injEq,
            Prod.mk.injEq] at hthread
          obtain ⟨_, rfl, _⟩ := hthread
          exact List.Subset.refl _
      | relWake =>
          simp only [threadStep, program, Option.some.injEq, Prod.mk.injEq] at hthread
          obtain ⟨_, rfl, _⟩ := hthread
          cases hlist : shared.processList with
          | nil => exact List.nil_subset _
          | cons e es => simp [pending, after]
      | relLock => exact absurd rfl hrel
      | _ =>
          simp only [threadStep, program, Option.some.injEq, Prod.mk.injEq] at hthread
          obtain ⟨_, rfl, _⟩ := hthread
          exact List.nil_subset _
  | wakeHead chan e k =>
      cases e with
      | none =>
          simp only [threadStep, Option.some.injEq, Prod.mk.injEq] at hthread
          obtain ⟨_, rfl, _⟩ := hthread
          rw [pending_return (hreturn k rfl)]
          exact List.nil_subset _
      | some q =>
          simp only [threadStep] at hthread
          split at hthread
          all_goals
            simp only [Option.some.injEq, Prod.mk.injEq] at hthread
            obtain ⟨_, rfl, _⟩ := hthread
            exact List.subset_cons_self q _
  | wakeTest chan q k =>
      simp only [threadStep] at hthread
      split at hthread
      all_goals
        simp only [Option.some.injEq, Prod.mk.injEq] at hthread
        obtain ⟨_, rfl, _⟩ := hthread
        exact List.Subset.refl _
  | wakeNext chan q k =>
      simp only [threadStep, Option.some.injEq, Prod.mk.injEq] at hthread
      obtain ⟨_, rfl, _⟩ := hthread
      cases hnext : listNext shared q with
      | none => exact List.nil_subset _
      | some next =>
          have hhead : (after q shared.processList).head? = some next := by
            unfold listNext at hnext
            split at hnext
            · rw [← nextIn_eq, hnext]
            · rw [hstale] at hnext
              cases hnext
          obtain ⟨rest, hrest⟩ := List.head?_eq_some_iff.mp hhead
          simp only [pending, hrest, after_of_after hnodup hrest]
          exact List.Subset.refl _
  | zombieExit => simp [threadStep] at hthread
  | _ =>
      simp only [threadStep, Option.some.injEq, Prod.mk.injEq] at hthread
      obtain ⟨_, rfl, _⟩ := hthread
      first
        | exact List.Subset.refl _
        | rw [pending_return (hreturn _ rfl)]
          exact List.nil_subset _

/-- The invariant: no process is resumed while a visit to it is pending. -/
structure Safe (procs : List ℕ) (s : State Point Sleeplock) : Prop where
  sound : Sound held s
  list : s.shared.processList = procs
  stale : s.shared.stale = fun _ => none
  returns : ∀ p, ReturnOk (s.thread p)
  apart : ∀ i p q, s.cpu i = .run p → q ∈ pending procs (s.thread p) → ¬ Resumed s q

theorem start_safe (procs : List ℕ) (vruntime : ℕ → ℕ) : Safe procs (start procs vruntime) := by
  obtain ⟨_, _, _, hlist, hstale⟩ :=
    boot_shared procs procs vruntime Point.idle (⟨false, none⟩ : Sleeplock)
  constructor
  · apply boot_sound
    simp [held]
  · exact hlist
  · exact hstale
  · intro p k hk
    exact .inl (Option.some.inj hk).symm
  · intro i p q hcpu
    cases hcpu

theorem threadStep_sleepWoke {p choice : ℕ} {shared shared' : Shared Sleeplock}
    {t t' : Thread Point} {leaves : Bool} {k : Point}
    (hthread : threadStep program p shared choice t = some (shared', t', leaves)) :
    (t' = .sleepWoke k → leaves = true) ∧ (t' = .sleepAcquire k → t = .sleepWoke k) := by
  unfold threadStep at hthread
  split at hthread
  all_goals try split at hthread
  all_goals
    simp only [Option.map_eq_some_iff, Option.some.injEq, Prod.mk.injEq, reduceCtorEq] at hthread
  all_goals first
    | obtain ⟨_, rfl, rfl⟩ := hthread
      simp
    | obtain ⟨_, _, _, rfl, _⟩ := hthread
      simp

/-- A thread step resumes nobody. -/
theorem resumed_of_run {s : State Point Sleeplock} (hsound : Sound held s) {i p q choice : ℕ}
    {leaves : Bool} {holder : Lock → Option ℕ} {shared : Shared Sleeplock} {t : Thread Point}
    (hcpu : s.cpu i = .run p)
    (hthread : threadStep program p s.shared choice (s.thread p) = some (shared, t, leaves))
    (hresumed : Resumed ⟨holder, if leaves then Function.update s.cpu i (.back p) else s.cpu,
      Function.update s.thread p t, shared⟩ q) : Resumed s q := by
  have hsame : ∀ j, (if leaves then Function.update s.cpu i (.back p) else s.cpu) j = .enter q ∨
      (if leaves then Function.update s.cpu i (.back p) else s.cpu) j = .run q →
      (s.cpu j = .enter q ∨ s.cpu j = .run q) ∧ (q = p → leaves = false) := by
    intro j hj
    cases leaves with
    | false => exact ⟨hj, fun _ => rfl⟩
    | true =>
        by_cases hji : j = i
        · subst hji
          simp at hj
        · simp only [if_true, Function.update_of_ne hji] at hj
          refine ⟨hj, ?_⟩
          rintro rfl
          refine absurd (hsound.unique j i q ?_ (by rw [hcpu]; rfl)) hji
          obtain hj | hj := hj <;> rw [hj] <;> rfl
  obtain ⟨j, k, hj, hwoke⟩ | ⟨j, k, hj, hacquire⟩ := hresumed
  · obtain ⟨hj, hleaves⟩ := hsame j hj
    by_cases hq : q = p
    · subst hq
      simp only [Function.update_self] at hwoke
      have htrue := (threadStep_sleepWoke hthread).1 hwoke
      rw [hleaves rfl] at htrue
      cases htrue
    · simp only [Function.update_of_ne hq] at hwoke
      exact .inl ⟨j, k, hj, hwoke⟩
  · obtain ⟨hj', hleaves⟩ := hsame j (.inr hj)
    by_cases hq : q = p
    · subst hq
      simp only [Function.update_self] at hacquire
      exact .inl ⟨i, k, .inr hcpu, (threadStep_sleepWoke hthread).2 hacquire⟩
    · simp only [Function.update_of_ne hq] at hacquire
      refine .inr ⟨j, k, ?_, hacquire⟩
      obtain hj' | hj' := hj'
      · cases leaves with
        | false => exact hj
        | true =>
            by_cases hji : j = i
            · subst hji
              simp at hj
            · simpa [hji] using hj
      · exact hj'

theorem run_safe {procs : List ℕ} (hnodup : procs.Nodup) {s : State Point Sleeplock}
    (hsafe : Safe procs s) {i p choice : ℕ} {leaves : Bool}
    {holder : Lock → Option ℕ} {shared : Shared Sleeplock} {t : Thread Point}
    (hcpu : s.cpu i = .run p) (hapart : Apart procs s (i, choice))
    (hlock : lockStep s.holder i (lockOp program s i) = some holder)
    (hthread : threadStep program p s.shared choice (s.thread p) = some (shared, t, leaves)) :
    Safe procs ⟨holder, if leaves then Function.update s.cpu i (.back p) else s.cpu,
      Function.update s.thread p t, shared⟩ := by
  obtain ⟨hlist, hstale⟩ := threadStep_list hthread
  constructor
  · exact run_sound lawful hsafe.sound hcpu hlock hthread
  · exact hlist.trans hsafe.list
  · exact hstale.trans hsafe.stale
  · intro q
    by_cases hq : q = p
    · subst hq
      simpa using threadStep_returnOk (hsafe.returns q) hthread
    · simpa [hq] using hsafe.returns q
  · intro j r q hj hpending hresumed
    have hbefore := resumed_of_run hsafe.sound hcpu hthread hresumed
    have hrun : s.cpu j = .run r := by
      cases leaves with
      | false => exact hj
      | true =>
          by_cases hji : j = i
          · subst hji
            simp at hj
          · simpa [hji] using hj
    by_cases hr : r = p
    · subst hr
      simp only [Function.update_self] at hpending
      by_cases hrel : s.thread r = .exec .relLock
      · exact hapart.1 r hcpu hrel q hbefore
      · rw [← hsafe.list] at hnodup hpending
        have hsubset := pending_subset hnodup hsafe.stale hthread (hsafe.returns r) hrel
        rw [hsafe.list] at hsubset hpending
        exact hsafe.apart j r q hrun (hsubset hpending) hbefore
    · simp only [Function.update_of_ne hr] at hpending
      exact hsafe.apart j r q hrun hpending hbefore

/-- A move of the scheduler resumes only a process that no visit is pending for. -/
theorem sched_apart {procs : List ℕ} {s : State Point Sleeplock} (hsafe : Safe procs s)
    {i choice : ℕ} {next : Cpu} {holder : Lock → Option ℕ} {shared : Shared Sleeplock}
    (hapart : Apart procs s (i, choice)) (hrun : ∀ p, next = .run p → s.cpu i = .enter p)
    (henter : ∀ p, next = .enter p → s.cpu i = .pick p) (j p q : ℕ)
    (hj : Function.update s.cpu i next j = .run p) (hpending : q ∈ pending procs (s.thread p)) :
    ¬ Resumed ⟨holder, Function.update s.cpu i next, s.thread, shared⟩ q := by
  have hbefore : s.cpu j = .run p := by
    by_cases hji : j = i
    · subst hji
      have hresumable := hsafe.sound.resumable_of_enter (hrun p (by simpa using hj))
      cases hthread : s.thread p <;> simp_all [Resumable, pending]
    · simpa [hji] using hj
  have hnot := hsafe.apart j p q hbefore hpending
  rintro (⟨l, k, hl, hwoke⟩ | ⟨l, k, hl, hacquire⟩)
  · by_cases hli : l = i
    · subst hli
      simp only [Function.update_self] at hl
      obtain hl | hl := hl
      · exact hapart.2 q k (henter q hl) hwoke j p hbefore hpending
      · exact hnot (.inl ⟨l, k, .inl (hrun q hl), hwoke⟩)
    · simp only [Function.update_of_ne hli] at hl
      exact hnot (.inl ⟨l, k, hl, hwoke⟩)
  · by_cases hli : l = i
    · subst hli
      simp only [Function.update_self] at hl
      have hresumable := hsafe.sound.resumable_of_enter (hrun q hl)
      rw [show s.thread q = .sleepAcquire k from hacquire] at hresumable
      exact hresumable
    · simp only [Function.update_of_ne hli] at hl
      exact hnot (.inr ⟨l, k, hl, hacquire⟩)

/-- A step that meets the condition keeps the invariant. -/
theorem step_safe {procs : List ℕ} (hnodup : procs.Nodup) {s s' : State Point Sleeplock}
    (hsafe : Safe procs s) {i choice : ℕ} (hapart : Apart procs s (i, choice))
    (hstep : step program s i choice = some s') : Safe procs s' := by
  have hsound := step_sound lawful hsafe.sound hstep
  obtain ⟨holder, hlock, hmove | hscan | henter | hrun⟩ := step_cases hstep
  · obtain ⟨before, next, hbefore, hmove, rfl⟩ := hmove
    refine ⟨hsound, hsafe.list, hsafe.stale, hsafe.returns, sched_apart hsafe hapart ?_ ?_⟩
    · rintro p rfl
      simp at hmove
    · rintro p rfl
      rw [hbefore]
      simpa using hmove
  · obtain ⟨hcpu, rfl⟩ := hscan
    have hrefresh := refreshMinVruntime_eq { s.shared with
      runQueue := (pickNext s.shared.status s.shared.runQueue).2 }
    refine ⟨hsound, ?_, ?_, hsafe.returns, sched_apart hsafe hapart ?_ ?_⟩
    · exact hrefresh.2.2.2.1.trans hsafe.list
    · exact hrefresh.2.2.2.2.1.trans hsafe.stale
    · simp
    · simp
  · obtain ⟨p, hcpu, rfl⟩ := henter
    refine ⟨hsound, hsafe.list, hsafe.stale, hsafe.returns, sched_apart hsafe hapart ?_ ?_⟩
    · rintro q hq
      rw [hcpu, Cpu.run.inj hq]
    · simp
  · obtain ⟨p, shared, t, leaves, hcpu, hthread, rfl⟩ := hrun
    exact run_safe hnodup hsafe hcpu hapart hlock hthread

/-! ## The order of waiting -/

/-- How far a CPU is from moving on. -/
def rank (s : State Point Sleeplock) (i : ℕ) : ℕ :=
  match s.cpu i with
  | .top => 4
  | .pick _ => 4
  | .run p =>
      match s.thread p with
      | .exec .acqLock => 4
      | .exec .relLock => 4
      | .sleepAcquire _ => 3
      | .exec .acqSleep => 2
      | .wakeHead _ (some q) _ => if q = p then 0 else 2
      | .wakePush _ _ _ => 1
      | _ => 0
  | _ => 0

theorem rank_of_holds {s : State Point Sleeplock} {j : ℕ} {lock : Lock}
    (hholds : Holds held s j lock) :
    rank s j ≤ 3 ∧ (lock = .rq → rank s j = 0) ∧ (lock = .user → rank s j ≤ 2) ∧
      ∀ q, lock = .proc q → rank s j ≤ 1 ∨ ∃ k, s.cpu j = .run q ∧
        s.thread q = .sleepAcquire k := by
  unfold Holds at hholds
  unfold rank
  cases hcpu : s.cpu j with
  | run p =>
      rw [hcpu] at hholds
      dsimp only at hholds ⊢
      cases ht : s.thread p with
      | exec k => cases k <;> simp_all [ThreadHolds, held]
      | wakeHead chan e k =>
          cases e <;> simp_all [ThreadHolds, held]
          split <;> simp
      | wakePush chan q k =>
          obtain rfl | ⟨rfl, _⟩ : lock = .proc q ∨ held p k lock := by
            simpa [ht, ThreadHolds] using hholds
          · simp
          · simp
      | _ => simp_all [ThreadHolds, held]
  | _ => simp_all

/-- A CPU that spins is further from moving on than the one it waits for. -/
theorem rank_lt_of_waitFor {procs : List ℕ} {s : State Point Sleeplock} (hsafe : Safe procs s)
    {i j : ℕ} (hwait : WaitFor program s i j) : rank s j < rank s i := by
  obtain ⟨lock, hop, hholder⟩ := hwait
  obtain ⟨hle, hrq, huser, hproc⟩ := rank_of_holds ((hsafe.sound.holds lock j).mp hholder)
  unfold lockOp at hop
  cases hcpu : s.cpu i with
  | top =>
      have hi : rank s i = 4 := by simp [rank, hcpu]
      omega
  | pick p =>
      have hi : rank s i = 4 := by simp [rank, hcpu]
      omega
  | run p =>
      simp only [hcpu] at hop
      cases hthread : s.thread p with
      | exec k =>
          rw [hthread] at hop
          cases k with
          | acqLock =>
              have hi : rank s i = 4 := by simp [rank, hcpu, hthread]
              omega
          | relLock =>
              have hi : rank s i = 4 := by simp [rank, hcpu, hthread]
              omega
          | acqSleep =>
              have hi : rank s i = 2 := by simp [rank, hcpu, hthread]
              simp only [threadOp, program, LockOp.acquire.injEq] at hop
              obtain hj | ⟨k, _, hacquire⟩ := hproc p hop.symm
              · omega
              · rw [hthread] at hacquire
                cases hacquire
          | _ => simp [threadOp, program] at hop
      | sleepAcquire k =>
          have hi : rank s i = 3 := by simp [rank, hcpu, hthread]
          simp only [hthread, threadOp, LockOp.acquire.injEq] at hop
          have hj := huser hop.symm
          omega
      | wakeHead chan e k =>
          cases e with
          | none => simp [hthread, threadOp] at hop
          | some q =>
              rw [hthread] at hop
              by_cases hq : q = p
              · simp [threadOp, hq] at hop
              · have hi : rank s i = 2 := by simp [rank, hcpu, hthread, hq]
                simp only [threadOp, if_neg hq, LockOp.acquire.injEq] at hop
                obtain hj | ⟨k', hrun, hacquire⟩ := hproc q hop.symm
                · omega
                · have hpending : q ∈ pending procs (s.thread p) := by
                    rw [hthread]
                    simp [pending]
                  exact absurd (.inr ⟨j, k', hrun, hacquire⟩)
                    (hsafe.apart i p q hcpu hpending)
      | wakePush chan q k =>
          have hi : rank s i = 1 := by simp [rank, hcpu, hthread]
          simp only [hthread, threadOp, LockOp.acquire.injEq] at hop
          have hj := hrq hop.symm
          omega
      | _ => simp [hthread, threadOp] at hop
  | _ => simp [hcpu] at hop

/-- Two processes, before any CPU has moved. -/
def twoProcesses : State Point Sleeplock := start [0, 1] fun _ => 0

/-- Process 0 takes the sleeplock on CPU 0; process 1 sleeps for it on CPU 1; process 0
releases it and wakes process 1, which CPU 1 resumes; process 0 takes and releases
the sleeplock once more. -/
def deadlockMoves : List (ℕ × ℕ) :=
  List.replicate 10 (0, 0) ++ List.replicate 13 (1, 0) ++ List.replicate 15 (0, 1) ++
    List.replicate 6 (1, 0) ++ List.replicate 4 (0, 0) ++ List.replicate 6 (0, 1)

def deadlocked : State Point Sleeplock :=
  (follow (next program 2) deadlockMoves twoProcesses).get (by decide +kernel)

end Painting.SleepLock
