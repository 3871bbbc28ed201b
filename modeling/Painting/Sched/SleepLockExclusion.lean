import Painting.Sched.SleepLock

/-!
# Exclusion and wakeups of a sleeplock

Any number of processes call `acquiresleeplock` on one sleeplock, and
`releasesleeplock` while they hold it.  At most one of them holds it at a time, and
a process that goes to sleep for it does so while it is taken, or is still to be
visited by the `wakeup` of the process that has given it back.
-/

namespace Painting.SleepLock

open Painting.Threads Painting.Transition

/-- A state, with the processes that have left the loop of `acquiresleeplock` and not
yet given the sleeplock back. -/
structure Tracked where
  state : State Point Sleeplock
  inside : ℕ → Bool

/-- What a step of CPU `i` does to them. -/
def track (s : State Point Sleeplock) (inside : ℕ → Bool) (i : ℕ) : ℕ → Bool :=
  match s.cpu i with
  | .run p =>
      match s.thread p with
      | .exec .acqTest => if s.shared.data.locked then inside else Function.update inside p true
      | .exec .relClear => Function.update inside p false
      | _ => inside
  | _ => inside

def TrackedStep (ncpu : ℕ) (before : Tracked) (move : ℕ × ℕ) (after : Tracked) : Prop :=
  Step program ncpu before.state move after.state ∧
    after.inside = track before.state before.inside move.1

/-- Only a process that holds the sleeplock calls `releasesleeplock`. -/
def ReleasesOwn (before : Tracked) (move : ℕ × ℕ) : Prop :=
  ∀ p, before.state.cpu move.1 = .run p → before.state.thread p = .exec .idle →
    move.2 ≠ 0 → before.inside p = true

/-! ## The processes that run -/

section Members

variable {P D : Type} {prog : ℕ → P → Instr P D} {held : ℕ → P → Lock → Prop}
  {procs : List ℕ} {s s' : State P D}

/-- Only processes of the list are run, pushed, put to sleep and woken. -/
structure Members (procs : List ℕ) (s : State P D) : Prop where
  served : ∀ i p, serves (s.cpu i) = some p → p ∈ procs
  queued : ∀ p ∈ s.shared.runQueue, p ∈ procs
  asleep : ∀ p, s.shared.status p = .sleeping → p ∈ procs
  waking : ∀ p q, wakes (s.thread p) = some q → q ∈ procs

theorem Members.run (hmembers : Members procs s) (hlawful : Lawful prog held)
    {i p choice : ℕ} {leaves : Bool} {holder : Lock → Option ℕ} {shared : Shared D}
    {t : Thread P} (hcpu : s.cpu i = .run p)
    (hthread : threadStep prog p s.shared choice (s.thread p) = some (shared, t, leaves)) :
    Members procs ⟨holder, if leaves then Function.update s.cpu i (.back p) else s.cpu,
      Function.update s.thread p t, shared⟩ := by
  have hp : p ∈ procs := hmembers.served i p (by rw [hcpu]; rfl)
  have hserved : ∀ j q, serves ((if leaves then Function.update s.cpu i (.back p) else s.cpu) j) =
      some q → q ∈ procs := by
    intro j q hq
    rw [serves_eq_of_run hcpu] at hq
    exact hmembers.served j q hq
  have hwaking : (∀ q, wakes t = some q → q ∈ procs) →
      ∀ r q, wakes (Function.update s.thread p t r) = some q → q ∈ procs := by
    intro hnew r q hq
    by_cases hr : r = p
    · rw [hr, Function.update_self] at hq
      exact hnew q hq
    · rw [Function.update_of_ne hr] at hq
      exact hmembers.waking r q hq
  obtain ⟨hqueue, hstatus, hown, hwakes⟩ | ⟨chan, q, k, hbefore, rfl, -, hasleep, -, rfl⟩ |
    ⟨chan, q, k, hbefore, rfl, -, rfl⟩ := threadStep_shared hlawful hthread
  · refine ⟨hserved, hqueue ▸ hmembers.queued, fun q hq => ?_, hwaking fun q hq => ?_⟩
    · by_cases hqp : q = p
      · exact hqp ▸ hp
      · exact hmembers.asleep q (hstatus q hqp ▸ hq)
    · obtain hsame | hnone := hwakes
      · exact hmembers.waking p q (hsame ▸ hq)
      · rw [hnone] at hq
        cases hq
  · refine ⟨hserved, hmembers.queued, fun r hr => ?_, hwaking fun r hr => ?_⟩
    · by_cases hrq : r = q
      · rw [hrq] at hr
        exact absurd hr (by simp)
      · exact hmembers.asleep r (by simpa [hrq] using hr)
    · obtain rfl := Option.some.inj hr
      exact hmembers.asleep _ hasleep
  · refine ⟨hserved, fun r hr => ?_, fun r hr => ?_, hwaking nofun⟩
    · obtain rfl | hr := mem_rbPushBack.mp hr
      · exact hmembers.waking p _ (by rw [hbefore]; rfl)
      · exact hmembers.queued r hr
    · rw [(rbPushBack_eq s.shared q).1] at hr
      exact hmembers.asleep r hr

theorem members_step (hmembers : Members procs s) (hlawful : Lawful prog held) {i choice : ℕ}
    (hstep : step prog s i choice = some s') : Members procs s' := by
  have hserved : ∀ {next : Cpu}, (∀ p, serves next = some p → p ∈ procs) → ∀ j p,
      serves (Function.update s.cpu i next j) = some p → p ∈ procs := by
    intro next hnext j p hp
    by_cases hj : j = i
    · rw [hj, Function.update_self] at hp
      exact hnext p hp
    · rw [Function.update_of_ne hj] at hp
      exact hmembers.served j p hp
  obtain ⟨holder, -, hmove | hscan | henter | hrun⟩ := step_cases hstep
  · obtain ⟨before, next, hbefore, hmove, rfl⟩ := hmove
    refine ⟨hserved fun p hp => hmembers.served i p ?_, hmembers.queued, hmembers.asleep,
      hmembers.waking⟩
    obtain ⟨-, rfl⟩ | ⟨-, rfl⟩ | ⟨q, rfl, rfl⟩ | ⟨q, rfl, rfl⟩ | ⟨q, -, rfl⟩ := hmove
    all_goals first
      | rw [hbefore]
        exact hp
      | cases hp
  · obtain ⟨hcpu, rfl⟩ := hscan
    obtain ⟨hsuffix, hfirst⟩ := pickNext_spec s.shared.status s.shared.runQueue
    refine ⟨hserved fun p hp => ?_, fun p hp => ?_, fun p hp => ?_, hmembers.waking⟩
    · exact hmembers.queued p ((hfirst p hp).2.subset List.mem_cons_self)
    · rw [(refreshMinVruntime_eq _).2.2.1] at hp
      exact hmembers.queued p (hsuffix.subset hp)
    · rw [(refreshMinVruntime_eq _).1] at hp
      exact hmembers.asleep p hp
  · obtain ⟨p, hcpu, rfl⟩ := henter
    have hp : p ∈ procs := hmembers.served i p (by rw [hcpu]; rfl)
    refine ⟨hserved fun q hq => Option.some.inj hq ▸ hp, hmembers.queued, fun q hq => ?_,
      hmembers.waking⟩
    by_cases hqp : q = p
    · exact hqp ▸ hp
    · exact hmembers.asleep q (by simpa [hqp] using hq)
  · obtain ⟨p, shared, t, leaves, hcpu, hthread, rfl⟩ := hrun
    exact hmembers.run hlawful hcpu hthread

end Members

/-! ## Calls -/

/-- `sleep` and `wakeup` are called for the sleeplock, each from its one place. -/
def CallOk : Thread Point → Prop
  | .forkret k => k = .idle
  | .exec _ => True
  | .sleepRelease chan k => chan = lk ∧ k = .acqTest
  | .sleepMark chan k => chan = lk ∧ k = .acqTest
  | .sleepWoke k => k = .acqTest
  | .sleepAcquire k => k = .acqTest
  | .sleepUnlock k => k = .acqTest
  | .wakeHead chan _ k => chan = lk ∧ k = .relUnlock
  | .wakeTest chan _ k => chan = lk ∧ k = .relUnlock
  | .wakePush chan _ k => chan = lk ∧ k = .relUnlock
  | .wakeInsert chan _ k => chan = lk ∧ k = .relUnlock
  | .wakeRqRelease chan _ k => chan = lk ∧ k = .relUnlock
  | .wakeRelease chan _ k => chan = lk ∧ k = .relUnlock
  | .wakeNext chan _ k => chan = lk ∧ k = .relUnlock
  | .zombieExit => False

/-- The processes that a thread in `releasesleeplock` has yet to visit. -/
def visits (procs : List ℕ) : Thread Point → List ℕ
  | .wakeTest _ e _ => e :: after e procs
  | t => pending procs t

/-- The thread has found the sleeplock taken and is about to sleep. -/
def Retires : Thread Point → Prop
  | .exec .acqSleep => True
  | .sleepRelease _ _ => True
  | .sleepMark _ _ => True
  | _ => False

section Thread

variable {p q choice : ℕ} {shared shared' : Shared Sleeplock} {t t' : Thread Point} {leaves : Bool}

theorem threadStep_callOk (hcall : CallOk t)
    (hthread : threadStep program p shared choice t = some (shared', t', leaves)) :
    CallOk t' := by
  unfold threadStep at hthread
  split at hthread
  case h_2 k => cases k <;> grind [program, CallOk]
  all_goals grind [CallOk]

/-- The test in `acquiresleeplock` and the clearing in `releasesleeplock` are the only changes of
the sleeplock. -/
theorem threadStep_data
    (hthread : threadStep program p shared choice t = some (shared', t', leaves)) :
    (t = .exec .acqTest ∧ shared.data.locked = false ∧ shared'.data = ⟨true, some p⟩) ∨
      (t = .exec .relClear ∧ t' = .exec .relWake ∧ leaves = false ∧ shared'.data = ⟨false, none⟩) ∨
      (t ≠ .exec .relClear ∧ (t = .exec .acqTest → shared.data.locked = true) ∧
        shared'.data = shared.data) := by
  unfold threadStep at hthread
  split at hthread
  case h_2 k => cases k <;> grind [program]
  all_goals grind [rbPushBack_eq]

/-- How a thread gets to the clearing. -/
theorem threadStep_releasing (hcall : CallOk t)
    (hthread : threadStep program p shared choice t = some (shared', t', leaves)) :
    (t' = .exec .relLock → t = .exec .idle ∧ choice ≠ 0) ∧
      (t' = .exec .relClear → t = .exec .relLock) := by
  unfold threadStep at hthread
  split at hthread
  case h_2 k => cases k <;> grind [program]
  all_goals grind [CallOk]

/-- How a thread gets to sleep. -/
theorem threadStep_retires (hcall : CallOk t)
    (hthread : threadStep program p shared choice t = some (shared', t', leaves))
    (hafter : Retires t' ∨ shared'.status p = .sleeping) :
    (t = .exec .acqTest ∧ shared.data.locked = true) ∨ Retires t ∨
      shared.status p = .sleeping := by
  unfold threadStep at hthread
  split at hthread
  case h_2 k => cases k <;> grind [program, Retires]
  case h_16 => cases hthread
  all_goals try split at hthread
  all_goals
    obtain ⟨rfl, rfl, -⟩ := by simpa only [Option.some.injEq, Prod.mk.injEq] using hthread
    grind [CallOk, Retires, rbPushBack_eq, Function.update_apply]

/-- A step puts no other process to sleep. -/
theorem threadStep_asleep (hq : q ≠ p)
    (hthread : threadStep program p shared choice t = some (shared', t', leaves))
    (hafter : shared'.status q = .sleeping ∧ shared'.chan q = some lk) :
    shared.status q = .sleeping ∧ shared.chan q = some lk := by
  unfold threadStep at hthread
  split at hthread
  case h_2 k => cases k <;> grind [program]
  case h_16 => cases hthread
  all_goals try split at hthread
  all_goals
    obtain ⟨rfl, rfl, -⟩ := by simpa only [Option.some.injEq, Prod.mk.injEq] using hthread
    grind [rbPushBack_eq, Function.update_apply]

theorem after_eq_nil {e : ℕ} {list : List ℕ} (he : e ∉ list) : after e list = [] := by
  induction list with
  | nil => rfl
  | cons x xs ih =>
      obtain ⟨hx, hxs⟩ := List.ne_and_not_mem_of_not_mem_cons he
      rw [after, if_neg (Ne.symm hx), ih hxs]

/-- A visit that is left out finds nobody asleep, or wakes the process. -/
theorem threadStep_visits (hnodup : shared.processList.Nodup)
    (hcall : CallOk t) (hq : q ≠ p) (hvisits : q ∈ visits shared.processList t)
    (hthread : threadStep program p shared choice t = some (shared', t', leaves)) :
    q ∈ visits shared.processList t' ∧ leaves = false ∨
      (∃ k, t = .wakeTest lk q k) ∧ ¬ (shared'.status q = .sleeping ∧ shared'.chan q = some lk) := by
  cases t with
  | exec k =>
      cases k with
      | relClear =>
          simp only [threadStep, program, Option.map_some, Option.some.injEq,
            Prod.mk.injEq] at hthread
          obtain ⟨-, rfl, rfl⟩ := hthread
          exact .inl ⟨hvisits, rfl⟩
      | relWake =>
          simp only [threadStep, program, Option.some.injEq, Prod.mk.injEq] at hthread
          obtain ⟨-, rfl, rfl⟩ := hthread
          cases hlist : shared.processList with
          | nil => exact absurd (hlist ▸ hvisits) List.not_mem_nil
          | cons e es =>
              refine .inl ⟨?_, rfl⟩
              rw [hlist] at hvisits
              simpa [visits, pending, after] using hvisits
      | _ => exact absurd hvisits List.not_mem_nil
  | wakeHead chan e k =>
      cases e with
      | none => exact absurd hvisits List.not_mem_nil
      | some e =>
          simp only [threadStep] at hthread
          split at hthread
          all_goals
            simp only [Option.some.injEq, Prod.mk.injEq] at hthread
            obtain ⟨-, rfl, rfl⟩ := hthread
          · rename_i hskip
            exact .inl ⟨(List.mem_cons.mp hvisits).resolve_left fun heq => hq (heq.trans hskip), rfl⟩
          · exact .inl ⟨hvisits, rfl⟩
  | wakeTest chan e k =>
      obtain ⟨rfl, -⟩ := hcall
      obtain rfl | hrest := List.mem_cons.mp hvisits
      · right
        refine ⟨⟨k, rfl⟩, ?_⟩
        simp only [threadStep] at hthread
        split at hthread
        all_goals
          simp only [Option.some.injEq, Prod.mk.injEq] at hthread
          obtain ⟨rfl, -⟩ := hthread
        · simp
        · assumption
      · left
        simp only [threadStep] at hthread
        split at hthread
        all_goals
          simp only [Option.some.injEq, Prod.mk.injEq] at hthread
          obtain ⟨-, rfl, rfl⟩ := hthread
          exact ⟨hrest, rfl⟩
  | wakeNext chan e k =>
      simp only [threadStep, Option.some.injEq, Prod.mk.injEq] at hthread
      obtain ⟨-, rfl, rfl⟩ := hthread
      refine .inl ⟨?_, rfl⟩
      cases hafter : after e shared.processList with
      | nil => exact absurd (show q ∈ after e shared.processList from hvisits) (by simp [hafter])
      | cons next rest =>
          have hnext : listNext shared e = some next := by
            rw [listNext]
            split
            · rw [nextIn_eq, hafter, List.head?_cons]
            · rename_i hout
              rw [after_eq_nil hout] at hafter
              cases hafter
          rw [hnext]
          rw [show visits shared.processList (.wakeNext chan e k) = _ from hafter] at hvisits
          simpa [visits, pending, after_of_after hnodup hafter] using hvisits
  | zombieExit => exact hcall.elim
  | _ =>
      simp only [threadStep, Option.some.injEq, Prod.mk.injEq] at hthread
      obtain ⟨-, rfl, rfl⟩ := hthread
      first
        | exact absurd hvisits List.not_mem_nil
        | exact .inl ⟨hvisits, rfl⟩

end Thread

/-! ## The invariant -/

/-- The process is on its way to sleep, or asleep, for the sleeplock. -/
def Waits (s : State Point Sleeplock) (q : ℕ) : Prop :=
  Retires (s.thread q) ∨ s.shared.status q = .sleeping ∧ s.shared.chan q = some lk

/-- The sleeplock belongs to the process inside, and who waits for it will be woken. -/
structure Exclusive (procs : List ℕ) (t : Tracked) : Prop where
  sound : Sound held t.state
  members : Members procs t.state
  list : t.state.shared.processList = procs
  stale : t.state.shared.stale = fun _ => none
  calls : ∀ p, CallOk (t.state.thread p)
  owner : ∀ p, t.inside p = true → t.state.shared.data = ⟨true, some p⟩
  releasing : ∀ p, t.state.thread p = .exec .relLock ∨ t.state.thread p = .exec .relClear →
    t.inside p = true
  awake : ∀ q, Waits t.state q → t.state.shared.data.locked = true ∨
    ∃ i p, t.state.cpu i = .run p ∧ q ∈ visits procs (t.state.thread p)

theorem start_exclusive (procs : List ℕ) (vruntime : ℕ → ℕ) :
    Exclusive procs ⟨start procs vruntime, fun _ => false⟩ := by
  obtain ⟨-, hqueue, hstatus, hlist, hstale⟩ :=
    boot_shared procs procs vruntime Point.idle (⟨false, none⟩ : Sleeplock)
  have hawake : ∀ q, (start procs vruntime).shared.status q ≠ .sleeping := by
    intro q
    rw [start, hstatus]
    split <;> nofun
  refine ⟨?_, ⟨nofun, fun p hp => (hqueue p).mp hp, fun p hp => absurd hp (hawake p), nofun⟩, hlist,
    hstale, fun p => rfl, nofun, fun p hp => ?_, fun q hwaits => ?_⟩
  · exact boot_sound (by simp [held])
  · obtain hp | hp := hp <;> cases hp
  · obtain hretires | ⟨hasleep, -⟩ := hwaits
    · exact hretires.elim
    · exact absurd hasleep (hawake q)

section Step

variable {procs : List ℕ} {t t' : Tracked}

/-- A process that a thread is visiting is not about to sleep: it would hold the lock that the
thread holds. -/
theorem Exclusive.not_retires (hinv : Exclusive procs t) {i p q : ℕ} {k : Point}
    (hcpu : t.state.cpu i = .run p) (hthread : t.state.thread p = .wakeTest lk q k) :
    ¬ Retires (t.state.thread q) := by
  intro hretires
  have hcall := hinv.calls p
  rw [hthread] at hcall
  obtain ⟨-, rfl⟩ := hcall
  obtain ⟨j, hj⟩ : ∃ j, t.state.cpu j = .run q := by
    by_contra hnone
    have hresumable := hinv.sound.resume q (not_exists.mp hnone)
    cases hq : t.state.thread q <;> simp_all [Retires, Resumable]
  have hholds : ∀ lock, lock = .proc q ∨ lock = .user → t.state.holder lock = some i := by
    intro lock hlock
    simp only [hinv.sound.holds, Holds, hcpu, hthread]
    obtain rfl | rfl := hlock <;> simp [ThreadHolds, held]
  have hother : ∃ lock, (lock = .proc q ∨ lock = .user) ∧ t.state.holder lock = some j := by
    simp only [hinv.sound.holds, Holds, hj]
    cases hq : t.state.thread q with
    | exec k =>
        rw [hq] at hretires
        cases k with
        | acqSleep => exact ⟨.user, .inr rfl, by simp [ThreadHolds, held]⟩
        | _ => exact hretires.elim
    | sleepRelease chan k => exact ⟨.proc q, .inl rfl, .inl rfl⟩
    | sleepMark chan k => exact ⟨.proc q, .inl rfl, rfl⟩
    | _ =>
        rw [hq] at hretires
        exact hretires.elim
  obtain ⟨lock, hlock, hj'⟩ := hother
  obtain rfl : i = j := Option.some.inj ((hholds lock hlock).symm.trans hj')
  obtain rfl : p = q := Cpu.run.inj (hcpu.symm.trans hj)
  rw [hthread] at hretires
  exact hretires

/-- The three ways in which a step of the thread of `p` changes who is inside. -/
theorem track_run {s : State Point Sleeplock} {inside : ℕ → Bool} {i p choice : ℕ}
    {shared : Shared Sleeplock} {th : Thread Point} {leaves : Bool} (hcpu : s.cpu i = .run p)
    (hthread : threadStep program p s.shared choice (s.thread p) = some (shared, th, leaves)) :
    (s.shared.data.locked = false ∧ shared.data = ⟨true, some p⟩ ∧
        s.thread p = .exec .acqTest ∧ track s inside i = Function.update inside p true) ∨
      (s.thread p = .exec .relClear ∧ th = .exec .relWake ∧ leaves = false ∧
        shared.data = ⟨false, none⟩ ∧ track s inside i = Function.update inside p false) ∨
      (s.thread p ≠ .exec .relClear ∧ shared.data = s.shared.data ∧ track s inside i = inside) := by
  obtain ⟨ht, hfree, hdata⟩ | ⟨ht, hth, hleaves, hdata⟩ | ⟨hne, htaken, hdata⟩ :=
    threadStep_data hthread
  · exact .inl ⟨hfree, hdata, ht, by simp [track, hcpu, ht, hfree]⟩
  · exact .inr (.inl ⟨ht, hth, hleaves, hdata, by simp [track, hcpu, ht]⟩)
  · refine .inr (.inr ⟨hne, hdata, ?_⟩)
    simp only [track, hcpu]
    split
    · rename_i ht
      rw [if_pos (htaken ht)]
    · rename_i ht
      exact absurd ht hne
    · rfl

/-- Who waits after a step of another thread waited before; the thread itself starts to wait when
it has found the sleeplock taken. -/
theorem Exclusive.waits_before (hinv : Exclusive procs t) {i p q choice : ℕ} {leaves : Bool}
    {shared : Shared Sleeplock} {th : Thread Point} {holder : Lock → Option ℕ} {cpu : ℕ → Cpu}
    (hcpu : t.state.cpu i = .run p)
    (hthread : threadStep program p t.state.shared choice (t.state.thread p) =
      some (shared, th, leaves))
    (hwaits : Waits ⟨holder, cpu, Function.update t.state.thread p th, shared⟩ q) :
    (q = p ∧ t.state.thread p = .exec .acqTest ∧ t.state.shared.data.locked = true) ∨
      Waits t.state q ∧ (q = p → Retires (t.state.thread p)) := by
  simp only [Waits] at hwaits
  by_cases hq : q = p
  · subst hq
    rw [Function.update_self] at hwaits
    have hawake : t.state.shared.status q ≠ .sleeping := fun hasleep => by
      have hback := hinv.sound.asleep q i hasleep (by rw [hcpu]; rfl)
      rw [hcpu] at hback
      cases hback
    obtain htest | hretires | hasleep := threadStep_retires (hinv.calls q) hthread
      (hwaits.imp_right And.left)
    · exact .inl ⟨rfl, htest⟩
    · exact .inr ⟨.inl hretires, fun _ => hretires⟩
    · exact absurd hasleep hawake
  · rw [Function.update_of_ne hq] at hwaits
    exact .inr ⟨hwaits.imp_right (threadStep_asleep hq hthread), fun heq => absurd heq hq⟩

/-- A process that waits after a step finds the sleeplock taken, or is still to be visited. -/
theorem Exclusive.awake_run (hinv : Exclusive procs t) (hnodup : procs.Nodup) {i p q choice : ℕ}
    {leaves : Bool} {shared : Shared Sleeplock} {th : Thread Point} {holder : Lock → Option ℕ}
    (hcpu : t.state.cpu i = .run p)
    (hthread : threadStep program p t.state.shared choice (t.state.thread p) =
      some (shared, th, leaves))
    (hwaits : Waits ⟨holder,
      if leaves then Function.update t.state.cpu i (.back p) else t.state.cpu,
      Function.update t.state.thread p th, shared⟩ q) :
    shared.data.locked = true ∨ ∃ j r,
      (if leaves then Function.update t.state.cpu i (.back p) else t.state.cpu) j = .run r ∧
        q ∈ visits procs (Function.update t.state.thread p th r) := by
  have hself : leaves = false → q ∈ visits procs th → ∃ j r,
      (if leaves then Function.update t.state.cpu i (.back p) else t.state.cpu) j = .run r ∧
        q ∈ visits procs (Function.update t.state.thread p th r) := by
    rintro rfl hvisits
    exact ⟨i, p, hcpu, by rwa [Function.update_self]⟩
  obtain ⟨-, htest, htaken⟩ | ⟨hbefore, hretires⟩ := hinv.waits_before hcpu hthread hwaits
  · obtain ⟨hfree, -⟩ | ⟨ht, -⟩ | ⟨-, hdata, -⟩ := @track_run _ t.inside _ _ _ _ _ _ hcpu hthread
    · rw [htaken] at hfree
      cases hfree
    · rw [htest] at ht
      cases ht
    · exact .inl (hdata ▸ htaken)
  have hmem : q ∈ procs := by
    obtain hretires | ⟨hasleep, -⟩ := hbefore
    · by_contra hout
      have hresumable := hinv.sound.resume q fun j hj =>
        hout (hinv.members.served j q (by rw [hj]; rfl))
      cases hq : t.state.thread q <;> simp_all [Retires, Resumable]
    · exact hinv.members.asleep q hasleep
  obtain htaken | ⟨j, r, hj, hvisits⟩ := hinv.awake q hbefore
  · obtain ⟨hfree, -⟩ | ⟨-, rfl, rfl, -⟩ | ⟨-, hdata, -⟩ :=
      @track_run _ t.inside _ _ _ _ _ _ hcpu hthread
    · rw [htaken] at hfree
      cases hfree
    · exact .inr (hself rfl hmem)
    · exact .inl (hdata ▸ htaken)
  · by_cases hr : r = p
    · subst hr
      have hq : q ≠ r := by
        rintro rfl
        have hretires := hretires rfl
        cases hth : t.state.thread q with
        | exec k => cases k <;> simp_all [Retires, visits, pending]
        | _ => simp_all [Retires, visits, pending]
      rw [← hinv.list] at hnodup hvisits
      obtain ⟨hvisits, hleaves⟩ | ⟨⟨k, hth⟩, hawake⟩ :=
        threadStep_visits hnodup (hinv.calls r) hq hvisits hthread
      · exact .inr (hself hleaves (hinv.list ▸ hvisits))
      · -- the visit has woken the process, which is not about to sleep either
        have hnot := hinv.not_retires hj hth
        simp only [Waits, Function.update_of_ne hq] at hwaits
        exact absurd hwaits (not_or.mpr ⟨hnot, hawake⟩)
    · have hne : j ≠ i := by
        rintro rfl
        exact hr (Cpu.run.inj (hj.symm.trans hcpu))
      refine .inr ⟨j, r, (cpu_eq_of_run hne leaves).trans hj, ?_⟩
      rwa [Function.update_of_ne hr]

/-- A step of the thread of `p`. -/
theorem Exclusive.run (hinv : Exclusive procs t) (hnodup : procs.Nodup) {i p choice : ℕ}
    {leaves : Bool} {holder : Lock → Option ℕ} {shared : Shared Sleeplock} {th : Thread Point}
    (hcpu : t.state.cpu i = .run p) (hown : ReleasesOwn t (i, choice))
    (hlock : lockStep t.state.holder i (lockOp program t.state i) = some holder)
    (hthread : threadStep program p t.state.shared choice (t.state.thread p) =
      some (shared, th, leaves)) :
    Exclusive procs ⟨⟨holder,
      if leaves then Function.update t.state.cpu i (.back p) else t.state.cpu,
      Function.update t.state.thread p th, shared⟩, track t.state t.inside i⟩ := by
  obtain ⟨hlist, hstale⟩ := threadStep_list hthread
  have hcall := threadStep_callOk (hinv.calls p) hthread
  have htrack := @track_run _ t.inside _ _ _ _ _ _ hcpu hthread
  refine ⟨run_sound lawful hinv.sound hcpu hlock hthread, hinv.members.run lawful hcpu hthread,
    hlist.trans hinv.list, hstale.trans hinv.stale, fun q => ?_, fun q hq => ?_, fun q hq => ?_,
    fun q hwaits => ?_⟩
  · by_cases hqp : q = p
    · simpa [hqp] using hcall
    · simpa [hqp] using hinv.calls q
  · dsimp only at hq ⊢
    obtain ⟨hfree, hdata, -, htrack⟩ | ⟨ht, -, -, hdata, htrack⟩ | ⟨-, hdata, htrack⟩ := htrack
    · by_cases hqp : q = p
      · rw [hdata, hqp]
      · rw [htrack, Function.update_of_ne hqp] at hq
        rw [hinv.owner q hq] at hfree
        cases hfree
    · by_cases hqp : q = p
      · rw [htrack, hqp, Function.update_self] at hq
        cases hq
      · rw [htrack, Function.update_of_ne hqp] at hq
        have hp := hinv.owner p (hinv.releasing p (.inr ht))
        rw [hinv.owner q hq] at hp
        exact absurd (Option.some.inj (Sleeplock.mk.inj hp).2) hqp
    · rw [hdata]
      exact hinv.owner q (htrack ▸ hq)
  · dsimp only at hq ⊢
    by_cases hqp : q = p
    · subst hqp
      rw [Function.update_self] at hq
      obtain ⟨hrel, hclear⟩ := threadStep_releasing (hinv.calls q) hthread
      have hpoint : t.state.thread q = .exec .idle ∧ choice ≠ 0 ∨
          t.state.thread q = .exec .relLock := hq.imp hrel hclear
      have hinside : t.inside q = true := by
        obtain ⟨hidle, hchoice⟩ | hlock := hpoint
        · exact hown q hcpu hidle hchoice
        · exact hinv.releasing q (.inl hlock)
      obtain ⟨-, -, ht, -⟩ | ⟨ht, -⟩ | ⟨-, -, htrack⟩ := htrack
      · simp [ht] at hpoint
      · simp [ht] at hpoint
      · rwa [htrack]
    · rw [Function.update_of_ne hqp] at hq
      have hinside := hinv.releasing q hq
      obtain ⟨-, -, -, htrack⟩ | ⟨-, -, -, -, htrack⟩ | ⟨-, -, htrack⟩ := htrack
      · rwa [htrack, Function.update_of_ne hqp]
      · rwa [htrack, Function.update_of_ne hqp]
      · rwa [htrack]
  · exact hinv.awake_run hnodup hcpu hthread hwaits

/-- Every step keeps the invariant. -/
theorem exclusive_step (hinv : Exclusive procs t) (hnodup : procs.Nodup) {ncpu : ℕ}
    {move : ℕ × ℕ} (hown : ReleasesOwn t move) (hstep : TrackedStep ncpu t move t') :
    Exclusive procs t' := by
  obtain ⟨state', inside'⟩ := t'
  obtain ⟨hnext, hinside⟩ := hstep
  have hstep := step_of_next hnext
  have hsound := step_sound lawful hinv.sound hstep
  have hmembers := members_step hinv.members lawful hstep
  -- the moves of the scheduler leave the threads and the sleeplock alone
  have hsched : (∀ p, t.state.cpu move.1 ≠ .run p) → ∀ {holder next shared},
      state' = ⟨holder, Function.update t.state.cpu move.1 next, t.state.thread, shared⟩ →
      shared.processList = t.state.shared.processList ∧ shared.stale = t.state.shared.stale ∧
        shared.data = t.state.shared.data ∧ (∀ q, shared.status q = .sleeping →
          t.state.shared.status q = .sleeping) ∧ shared.chan = t.state.shared.chan →
      Exclusive procs ⟨state', inside'⟩ := by
    rintro hcpu holder next shared rfl ⟨hlist, hstale, hdata, hstatus, hchan⟩
    have hsame : inside' = t.inside := by
      refine hinside.trans ?_
      rw [track]
      split
      · rename_i p hp
        exact absurd hp (hcpu p)
      · rfl
    subst hsame
    refine ⟨hsound, hmembers, hlist.trans hinv.list, hstale.trans hinv.stale, hinv.calls,
      fun p hp => hdata.trans (hinv.owner p hp), hinv.releasing, fun q hwaits => ?_⟩
    have hbefore : Waits t.state q := hwaits.imp_right fun ⟨hasleep, hq⟩ =>
      ⟨hstatus q hasleep, hchan ▸ hq⟩
    obtain htaken | ⟨j, p, hj, hvisits⟩ := hinv.awake q hbefore
    · exact .inl (hdata ▸ htaken)
    · have hne : j ≠ move.1 := by
        rintro rfl
        exact hcpu p hj
      exact .inr ⟨j, p, (Function.update_of_ne hne ..).trans hj, hvisits⟩
  obtain ⟨holder, hlock, hmove | hscan | henter | hrun⟩ := step_cases hstep
  · obtain ⟨before, next, hbefore, hmove, hstate⟩ := hmove
    refine hsched (fun p hp => ?_) hstate ⟨rfl, rfl, rfl, fun _ => id, rfl⟩
    rw [hp] at hbefore
    subst hbefore
    simp at hmove
  · obtain ⟨hcpu, hstate⟩ := hscan
    obtain ⟨hstatus, hchan, -, hlist, hstale, hdata⟩ := refreshMinVruntime_eq { t.state.shared with
      runQueue := (pickNext t.state.shared.status t.state.shared.runQueue).2 }
    exact hsched (fun p hp => by rw [hcpu] at hp; cases hp) hstate
      ⟨hlist, hstale, hdata, fun q hq => by rwa [hstatus] at hq, hchan⟩
  · obtain ⟨p, hcpu, hstate⟩ := henter
    refine hsched (fun p hp => by rw [hcpu] at hp; cases hp) hstate
      ⟨rfl, rfl, rfl, fun q hq => ?_, rfl⟩
    by_cases hqp : q = p
    · simp [hqp] at hq
    · simpa [hqp] using hq
  · obtain ⟨p, shared, th, leaves, hcpu, hthread, rfl⟩ := hrun
    obtain rfl : inside' = _ := hinside
    exact hinv.run hnodup hcpu hown hlock hthread

end Step

/-! ## Runs -/

/-- In every run, at most one process is inside, the sleeplock is taken and names it, and nobody
sleeps for the sleeplock when it and its inner lock are free. -/
theorem exclusion_of_reach {procs : List ℕ} (hnodup : procs.Nodup) (vruntime : ℕ → ℕ) (ncpu : ℕ)
    {t : Tracked} (hreach : Reach (TrackedStep ncpu) ReleasesOwn
      ⟨start procs vruntime, fun _ => false⟩ t) :
    (∀ p q, t.inside p = true → t.inside q = true → p = q) ∧
      (∀ p, t.inside p = true → t.state.shared.data.locked = true ∧
        t.state.shared.data.pid = some p) ∧
      (t.state.shared.data.locked = false → t.state.holder .user = none →
        ∀ q, ¬ (t.state.shared.status q = .sleeping ∧ t.state.shared.chan q = some lk)) := by
  have hinv : Exclusive procs t := hreach.invariant (start_exclusive procs vruntime)
    fun _ _ _ hinv hown hstep => exclusive_step hinv hnodup hown hstep
  refine ⟨fun p q hp hq => ?_, fun p hp => ?_, fun hfree hunlocked q hasleep => ?_⟩
  · have hsame := (hinv.owner p hp).symm.trans (hinv.owner q hq)
    exact Option.some.inj (Sleeplock.mk.inj hsame).2
  · rw [hinv.owner p hp]
    exact ⟨rfl, rfl⟩
  · obtain htaken | ⟨i, p, hcpu, hvisits⟩ := hinv.awake q (.inr hasleep)
    · rw [htaken] at hfree
      cases hfree
    · have hcall := hinv.calls p
      have hholds : t.state.holder .user = some i := by
        simp only [hinv.sound.holds, Holds, hcpu]
        cases hth : t.state.thread p with
        | exec k => cases k <;> simp_all [visits, pending, ThreadHolds, held]
        | _ => simp_all [CallOk, visits, pending, ThreadHolds, held]
      rw [hunlocked] at hholds
      cases hholds

/-- The process whose thread a CPU runs. -/
def running : Cpu → Option ℕ
  | .run p => some p
  | _ => none

theorem mem_running {cpu : Cpu} {p : ℕ} : p ∈ running cpu ↔ cpu = .run p := by
  cases cpu <;> simp [running]

instance (t : Tracked) (move : ℕ × ℕ) : Decidable (ReleasesOwn t move) :=
  decidable_of_iff (∀ p ∈ running (t.state.cpu move.1), t.state.thread p = .exec .idle →
    move.2 ≠ 0 → t.inside p = true) (by simp only [mem_running, ReleasesOwn])

/-- The step of a tracked state that the guard allows. -/
def trackedNext (ncpu : ℕ) (t : Tracked) (move : ℕ × ℕ) : Option Tracked :=
  if ReleasesOwn t move then
    (next program ncpu t.state move).map fun s => ⟨s, track t.state t.inside move.1⟩
  else none

theorem trackedNext_spec (ncpu : ℕ) (t : Tracked) (move : ℕ × ℕ) (t' : Tracked)
    (hnext : trackedNext ncpu t move = some t') :
    ReleasesOwn t move ∧ TrackedStep ncpu t move t' := by
  unfold trackedNext at hnext
  split at hnext
  · rename_i hown
    obtain ⟨s, hs, rfl⟩ := Option.map_eq_some_iff.mp hnext
    exact ⟨hown, hs, rfl⟩
  · cases hnext

/-- Process 0 has the sleeplock and process 1 sleeps for it; process 0 then gives it back. -/
def handedOver : Tracked :=
  (follow (trackedNext 2) (List.replicate 10 (0, 0) ++ List.replicate 13 (1, 0) ++
    List.replicate 15 (0, 1)) ⟨twoProcesses, fun _ => false⟩).get (by decide +kernel)

theorem exclusion_handedOver :
    ¬ (handedOver.state.shared.status 1 = .sleeping ∧
      handedOver.state.shared.chan 1 = some lk) := by
  have hreach : Reach (TrackedStep 2) ReleasesOwn ⟨twoProcesses, fun _ => false⟩ handedOver :=
    reach_of_guarded (trackedNext_spec 2) (Option.some_get _).symm
  exact (exclusion_of_reach (by decide) (fun _ => 0) 2 hreach).2.2 (by decide +kernel)
    (by decide +kernel) 1

end Painting.SleepLock
