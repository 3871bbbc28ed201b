import Painting.Sched.ThreadsInvariant

/-!
# Fairness of the run queue

The run queue (`schedule.c`) is ordered by virtual runtime and pid.  A process that runs
is not in it and has at most the least virtual runtime; a timer tick adds 100 right
before the process goes back, so the virtual runtimes in the queue differ by 100 at most.

A step is one critical section: `schedule` takes a process from the queue in one step and
starts it in another, under the lock of the process, and each process that `wakeup` visits
is a step of its own.
-/

namespace Painting.RunQueue

open Painting.Threads (Status cfsLess listInsertOrdered mem_listInsertOrdered)
open Painting.Transition

/-! ## The scheduler -/

/-- Where a CPU is: in `schedule`, on the way to the process it has taken from the queue, in
the process, or on the way back with the lock of the process held. -/
inductive Cpu
  | idle
  | chosen (p : ℕ)
  | running (p : ℕ)
  | leaving (p : ℕ)
  deriving DecidableEq

/-- The fields of the processes, by pid, and the queue; `locked p` says that a CPU that leaves
`p` holds `p->lock`. -/
structure State where
  status : ℕ → Status
  chan : ℕ → Option ℕ
  vruntime : ℕ → ℕ
  inRunQueue : ℕ → Bool
  locked : ℕ → Bool
  processList : List ℕ
  runQueue : List ℕ
  minVruntime : ℕ
  cpu : ℕ → Cpu

/-- `refresh_min_vruntime_locked`. -/
def refreshMinVruntimeLocked (s : State) : State :=
  match s.runQueue with
  | [] => s
  | leftmost :: _ =>
      if s.minVruntime < s.vruntime leftmost then
        { s with minVruntime := s.vruntime leftmost }
      else s

/-- `rb_push_back`. -/
def rbPushBack (s : State) (p : ℕ) : State :=
  if s.inRunQueue p then s
  else
    let vruntime :=
      if s.vruntime p < s.minVruntime then Function.update s.vruntime p s.minVruntime
      else s.vruntime
    refreshMinVruntimeLocked { s with
      vruntime := vruntime
      runQueue := listInsertOrdered vruntime p s.runQueue
      inRunQueue := Function.update s.inRunQueue p true }

/-- The loop of `schedule`: the process it takes, the queue and the flags. -/
def pickLoop (status : ℕ → Status) (inRunQueue : ℕ → Bool) :
    List ℕ → Option ℕ × List ℕ × (ℕ → Bool)
  | [] => (none, [], inRunQueue)
  | p :: rest =>
      let inRunQueue := Function.update inRunQueue p false
      if status p = .runnable then (some p, rest, inRunQueue)
      else pickLoop status inRunQueue rest

/-- The process becomes runnable and is pushed. -/
def ready (s : State) (p : ℕ) : State :=
  rbPushBack { s with status := Function.update s.status p .runnable } p

/-- `sched`, to the scheduler of CPU `i`. -/
def giveUp (s : State) (i p : ℕ) : State :=
  { s with cpu := Function.update s.cpu i (.leaving p), locked := Function.update s.locked p true }

inductive Action
  /-- `process_create`. -/
  | create (p : ℕ)
  /-- The end of `fork`, and of `init_first_proc`. -/
  | push (p : ℕ)
  | pick (i : ℕ)
  | start (i : ℕ)
  /-- A timer interrupt and the `yield` it ends in. -/
  | tick (i : ℕ)
  | yield (i : ℕ)
  | sleep (i chan : ℕ)
  | leave (i : ℕ)
  /-- The visit of `q` by a `wakeup` on CPU `i`. -/
  | wakeup (i q chan : ℕ)

def next (s : State) : Action → Option State
  | .create p =>
      if p ∈ s.processList then none
      else some { s with
        status := Function.update s.status p .initial
        vruntime := Function.update s.vruntime p 0
        inRunQueue := Function.update s.inRunQueue p false
        locked := Function.update s.locked p false
        processList := s.processList ++ [p] }
  | .push p =>
      if p ∈ s.processList ∧ s.status p = .initial then some (ready s p) else none
  | .pick i =>
      match s.cpu i with
      | .idle =>
          let (next, runQueue, inRunQueue) := pickLoop s.status s.inRunQueue s.runQueue
          some (refreshMinVruntimeLocked { s with
            runQueue := runQueue
            inRunQueue := inRunQueue
            cpu := Function.update s.cpu i (next.elim .idle .chosen) })
      | _ => none
  | .start i =>
      match s.cpu i with
      | .chosen p =>
          if s.locked p then none
          else some { s with
            status := Function.update s.status p .running
            cpu := Function.update s.cpu i (.running p) }
      | _ => none
  | .tick i =>
      match s.cpu i with
      | .running p =>
          let s := { s with
            vruntime := Function.update s.vruntime p ((s.vruntime p + 100) % 2 ^ 64) }
          some (giveUp (ready s p) i p)
      | _ => none
  | .yield i =>
      match s.cpu i with
      | .running p => some (giveUp (ready s p) i p)
      | _ => none
  | .sleep i chan =>
      match s.cpu i with
      | .running p =>
          let s := { s with
            chan := Function.update s.chan p (some chan)
            status := Function.update s.status p .sleeping }
          some (giveUp s i p)
      | _ => none
  | .leave i =>
      match s.cpu i with
      | .leaving p => some { s with
          cpu := Function.update s.cpu i .idle
          locked := Function.update s.locked p false }
      | _ => none
  | .wakeup i q chan =>
      if q ∈ s.processList ∧ s.cpu i ≠ .running q ∧ s.locked q = false then
        if s.status q = .sleeping ∧ s.chan q = some chan then some (ready s q) else some s
      else none

def Step (before : State) (action : Action) (after : State) : Prop :=
  next before action = some after

/-- After `rb_init`, before the first process. -/
def boot : State where
  status := fun _ => .initial
  chan := fun _ => none
  vruntime := fun _ => 0
  inRunQueue := fun _ => false
  locked := fun _ => false
  processList := []
  runQueue := []
  minVruntime := 0
  cpu := fun _ => .idle

/-! ## The order -/

section Order

variable {vruntime : ℕ → ℕ} {a b c p : ℕ} {queue : List ℕ}

theorem cfsLess_iff :
    cfsLess vruntime a b ↔ vruntime a < vruntime b ∨ vruntime a = vruntime b ∧ a < b := by
  rw [cfsLess]
  split <;> omega

theorem cfsLess_trans (hab : cfsLess vruntime a b) (hbc : cfsLess vruntime b c) :
    cfsLess vruntime a c := by
  rw [cfsLess_iff] at *
  omega

theorem cfsLess_of_not (hne : a ≠ b) (hnot : ¬ cfsLess vruntime a b) : cfsLess vruntime b a := by
  rw [cfsLess_iff] at *
  omega

/-- A process that is not in the queue gets its place in the order. -/
theorem sorted_listInsertOrdered (hsorted : queue.Pairwise (cfsLess vruntime)) (hp : p ∉ queue) :
    (listInsertOrdered vruntime p queue).Pairwise (cfsLess vruntime) := by
  induction queue with
  | nil => exact List.pairwise_singleton _ p
  | cons e es ih =>
      obtain ⟨hless, hsorted'⟩ := List.pairwise_cons.mp hsorted
      obtain ⟨hne, hes⟩ := List.ne_and_not_mem_of_not_mem_cons hp
      rw [listInsertOrdered]
      split
      · rename_i hbefore
        refine List.pairwise_cons.mpr ⟨fun q hq => ?_, hsorted⟩
        obtain rfl | hq := List.mem_cons.mp hq
        · exact hbefore
        · exact cfsLess_trans hbefore (hless q hq)
      · rename_i hafter
        refine List.pairwise_cons.mpr ⟨fun q hq => ?_, ih hsorted' hes⟩
        obtain rfl | hq := mem_listInsertOrdered.mp hq
        · exact cfsLess_of_not hne hafter
        · exact hless q hq

/-- The order of the queue depends on the virtual runtimes of its processes alone. -/
theorem sorted_congr {vruntime' : ℕ → ℕ} (hsame : ∀ q ∈ queue, vruntime' q = vruntime q)
    (hsorted : queue.Pairwise (cfsLess vruntime)) : queue.Pairwise (cfsLess vruntime') :=
  hsorted.imp_of_mem fun ha hb hless => by
    rw [cfsLess_iff] at hless ⊢
    rwa [hsame _ ha, hsame _ hb]

end Order

/-! ## The queue -/

/-- The queue is in order and flagged, and its virtual runtimes lie between the minimum, which is
that of its front, and the minimum and 100. -/
structure QueueOk (s : State) : Prop where
  sorted : s.runQueue.Pairwise (cfsLess s.vruntime)
  flagged : ∀ p, p ∈ s.runQueue ↔ s.inRunQueue p = true
  bounded : ∀ p ∈ s.runQueue, s.minVruntime ≤ s.vruntime p ∧
    s.vruntime p ≤ s.minVruntime + 100
  front : ∀ p rest, s.runQueue = p :: rest → s.vruntime p = s.minVruntime

/-- What a change of the queue leaves alone. -/
structure SameProcesses (s s' : State) : Prop where
  status : s'.status = s.status
  locked : s'.locked = s.locked
  processList : s'.processList = s.processList
  cpu : s'.cpu = s.cpu

section Queue

variable {s s' : State} {p : ℕ}

theorem refresh_same (s : State) : SameProcesses s (refreshMinVruntimeLocked s) ∧
    (refreshMinVruntimeLocked s).runQueue = s.runQueue ∧
    (refreshMinVruntimeLocked s).vruntime = s.vruntime := by
  unfold refreshMinVruntimeLocked
  split
  · exact ⟨⟨rfl, rfl, rfl, rfl⟩, rfl, rfl⟩
  · split <;> exact ⟨⟨rfl, rfl, rfl, rfl⟩, rfl, rfl⟩

/-- The refresh moves the minimum up to the front of the queue. -/
theorem refresh_ok (hsorted : s.runQueue.Pairwise (cfsLess s.vruntime))
    (hflagged : ∀ p, p ∈ s.runQueue ↔ s.inRunQueue p = true)
    (hbounded : ∀ p ∈ s.runQueue, s.minVruntime ≤ s.vruntime p ∧
      s.vruntime p ≤ s.minVruntime + 100) :
    QueueOk (refreshMinVruntimeLocked s) ∧
      s.minVruntime ≤ (refreshMinVruntimeLocked s).minVruntime := by
  unfold refreshMinVruntimeLocked
  split
  · rename_i hempty
    exact ⟨⟨hsorted, hflagged, hbounded, fun p rest hqueue => by simp [hempty] at hqueue⟩, le_rfl⟩
  · rename_i leftmost rest hqueue
    have hleftmost := hbounded leftmost (hqueue ▸ List.mem_cons_self)
    have hleast : ∀ p ∈ s.runQueue, s.vruntime leftmost ≤ s.vruntime p := by
      intro p hp
      rw [hqueue] at hp hsorted
      obtain rfl | hp := List.mem_cons.mp hp
      · exact le_rfl
      · have hless := (List.pairwise_cons.mp hsorted).1 p hp
        rw [cfsLess_iff] at hless
        omega
    have hfront : ∀ p others, s.runQueue = p :: others → p = leftmost := by
      intro p others hothers
      exact (List.cons.inj (hothers.symm.trans hqueue)).1
    split
    · refine ⟨⟨hsorted, hflagged, fun p hp => ?_, fun p others hothers => ?_⟩, hleftmost.1⟩
      · exact ⟨hleast p hp, (hbounded p hp).2.trans (Nat.add_le_add_right hleftmost.1 100)⟩
      · rw [hfront p others hothers]
    · refine ⟨⟨hsorted, hflagged, hbounded, fun p others hothers => ?_⟩, le_rfl⟩
      rw [hfront p others hothers]
      omega

/-- What `rb_push_back` does with a process that is not queued. -/
theorem QueueOk.push (hok : QueueOk s) (hp : p ∉ s.runQueue)
    (hle : s.vruntime p ≤ s.minVruntime + 100) :
    QueueOk (rbPushBack s p) ∧ s.minVruntime ≤ (rbPushBack s p).minVruntime ∧
      SameProcesses s (rbPushBack s p) ∧
      (∀ q, q ∈ (rbPushBack s p).runQueue ↔ q = p ∨ q ∈ s.runQueue) ∧
      ∀ q, q ≠ p → (rbPushBack s p).vruntime q = s.vruntime q := by
  have hflag : ¬ s.inRunQueue p = true := (hok.flagged p).not.mp hp
  let vruntime :=
    if s.vruntime p < s.minVruntime then Function.update s.vruntime p s.minVruntime
    else s.vruntime
  have hother : ∀ q, q ≠ p → vruntime q = s.vruntime q := by
    intro q hq
    simp only [vruntime]
    split
    · exact Function.update_of_ne hq ..
    · rfl
  have hself : s.minVruntime ≤ vruntime p ∧ vruntime p ≤ s.minVruntime + 100 := by
    simp only [vruntime]
    split
    · rw [Function.update_self]
      omega
    · omega
  have hqueued : ∀ q ∈ s.runQueue, vruntime q = s.vruntime q := fun q hq =>
    hother q fun heq => hp (heq ▸ hq)
  obtain ⟨hend, hmin⟩ := @refresh_ok { s with
    vruntime := vruntime
    runQueue := listInsertOrdered vruntime p s.runQueue
    inRunQueue := Function.update s.inRunQueue p true }
    (sorted_listInsertOrdered (sorted_congr hqueued hok.sorted) hp)
    (fun q => by
      dsimp only
      rw [mem_listInsertOrdered, Function.update_apply]
      split
      · rename_i heq
        exact iff_of_true (.inl heq) rfl
      · rename_i hne
        rw [or_iff_right hne, hok.flagged])
    (fun q hq => by
      obtain rfl | hq := mem_listInsertOrdered.mp hq
      · exact hself
      · dsimp only
        rw [hqueued q hq]
        exact hok.bounded q hq)
  have hpush : rbPushBack s p = refreshMinVruntimeLocked { s with
      vruntime := vruntime
      runQueue := listInsertOrdered vruntime p s.runQueue
      inRunQueue := Function.update s.inRunQueue p true } := by
    rw [rbPushBack, if_neg hflag]
  obtain ⟨hsame, hqueue, hvruntime⟩ := refresh_same { s with
    vruntime := vruntime
    runQueue := listInsertOrdered vruntime p s.runQueue
    inRunQueue := Function.update s.inRunQueue p true }
  rw [hpush]
  refine ⟨hend, hmin, ⟨hsame.status, hsame.locked, hsame.processList, hsame.cpu⟩, fun q => ?_,
    fun q hq => ?_⟩
  · rw [hqueue]
    exact mem_listInsertOrdered
  · rw [hvruntime]
    exact hother q hq

/-- In a queue of runnable processes the loop takes the front. -/
theorem pickLoop_runnable {status : ℕ → Status} {inRunQueue : ℕ → Bool} {rest : List ℕ}
    (hrunnable : status p = .runnable) :
    pickLoop status inRunQueue (p :: rest) =
      (some p, rest, Function.update inRunQueue p false) := by
  rw [pickLoop]
  exact if_pos hrunnable

end Queue

/-! ## The invariant -/

/-- The process that a CPU has taken from the queue and not given up. -/
def serves : Cpu → Option ℕ
  | .chosen p => some p
  | .running p => some p
  | _ => none

theorem serves_chosen {cpu : Cpu} {p : ℕ} (hcpu : cpu = .chosen p) : serves cpu = some p := by
  rw [hcpu]
  rfl

theorem serves_running {cpu : Cpu} {p : ℕ} (hcpu : cpu = .running p) : serves cpu = some p := by
  rw [hcpu]
  rfl

/-- The queue is in order, and no process out of it has more than the least virtual runtime. -/
structure Fair (s : State) : Prop where
  queue : QueueOk s
  runnable : ∀ p ∈ s.runQueue, s.status p = .runnable
  listed : ∀ p ∈ s.runQueue, p ∈ s.processList
  least : ∀ p, p ∉ s.runQueue → s.vruntime p ≤ s.minVruntime
  served : ∀ i p, serves (s.cpu i) = some p → p ∉ s.runQueue ∧ p ∈ s.processList
  chosen : ∀ i p, s.cpu i = .chosen p → s.status p = .runnable
  running : ∀ i p, s.cpu i = .running p → s.status p = .running
  unique : ∀ i j p, serves (s.cpu i) = some p → serves (s.cpu j) = some p → i = j

theorem fair_boot : Fair boot where
  queue := ⟨List.Pairwise.nil, fun _ => iff_of_false List.not_mem_nil nofun, nofun, nofun⟩
  runnable := nofun
  listed := nofun
  least := fun _ _ => le_rfl
  served := nofun
  chosen := nofun
  running := nofun
  unique := nofun

section Steps

variable {s s' : State}

/-- A process that no CPU serves any more goes to the queue. -/
theorem Fair.push (hfair : Fair s) {p : ℕ} (hp : p ∉ s.runQueue) (hlisted : p ∈ s.processList)
    {vruntime : ℕ → ℕ} (hvruntime : ∀ q, q ≠ p → vruntime q = s.vruntime q)
    (hle : vruntime p ≤ s.minVruntime + 100) {cpu : ℕ → Cpu} {locked : ℕ → Bool}
    (hcpu : ∀ i q, serves (cpu i) = some q → q ≠ p ∧ cpu i = s.cpu i) :
    Fair { ready { s with vruntime := vruntime } p with cpu := cpu, locked := locked } ∧
      s.minVruntime ≤ (ready { s with vruntime := vruntime } p).minVruntime := by
  let before : State := { s with
    vruntime := vruntime
    status := Function.update s.status p .runnable }
  have hqueued : ∀ q ∈ s.runQueue, vruntime q = s.vruntime q := fun q hq =>
    hvruntime q fun heq => hp (heq ▸ hq)
  have hbefore : QueueOk before := by
    refine ⟨sorted_congr hqueued hfair.queue.sorted, hfair.queue.flagged, fun q hq => ?_,
      fun q rest hrest => ?_⟩
    · simp only [before, hqueued q hq]
      exact hfair.queue.bounded q hq
    · have hq : q ∈ s.runQueue := by
        rw [show s.runQueue = q :: rest from hrest]
        exact List.mem_cons_self
      simp only [before, hqueued q hq]
      exact hfair.queue.front q rest hrest
  obtain ⟨hqueue, hmin, hsame, hmem, hother⟩ := hbefore.push (p := p) hp hle
  change QueueOk (ready { s with vruntime := vruntime } p) at hqueue
  change SameProcesses before (ready { s with vruntime := vruntime } p) at hsame
  have hstatus : ∀ q, q ≠ p → (ready { s with vruntime := vruntime } p).status q = s.status q := by
    intro q hq
    rw [hsame.status]
    exact Function.update_of_ne hq ..
  refine ⟨⟨⟨hqueue.sorted, hqueue.flagged, hqueue.bounded, hqueue.front⟩, fun q hq => ?_,
    fun q hq => ?_, fun q hq => ?_, fun i q hi => ?_, fun i q hi => ?_, fun i q hi => ?_,
    fun i j q hi hj => ?_⟩, hmin⟩
  · by_cases heq : q = p
    · rw [heq]
      exact (congrFun hsame.status p).trans (Function.update_self ..)
    · exact (hstatus q heq).trans (hfair.runnable q (((hmem q).mp hq).resolve_left heq))
  · rw [show _ = s.processList from hsame.processList]
    obtain rfl | hq := (hmem q).mp hq
    · exact hlisted
    · exact hfair.listed q hq
  · obtain ⟨hne, hout⟩ := not_or.mp ((hmem q).not.mp hq)
    calc (ready { s with vruntime := vruntime } p).vruntime q
        = vruntime q := hother q hne
      _ = s.vruntime q := hvruntime q hne
      _ ≤ s.minVruntime := hfair.least q hout
      _ ≤ _ := hmin
  · obtain ⟨hne, hsame'⟩ := hcpu i q hi
    obtain ⟨hout, hin⟩ := hfair.served i q (hsame' ▸ hi)
    refine ⟨fun hq => ((hmem q).mp hq).elim hne hout, ?_⟩
    rwa [show _ = s.processList from hsame.processList]
  · obtain ⟨hne, hsame'⟩ := hcpu i q (serves_chosen hi)
    exact (hstatus q hne).trans (hfair.chosen i q (hsame' ▸ hi))
  · obtain ⟨hne, hsame'⟩ := hcpu i q (serves_running hi)
    exact (hstatus q hne).trans (hfair.running i q (hsame' ▸ hi))
  · exact hfair.unique i j q ((hcpu i q hi).2 ▸ hi) ((hcpu j q hj).2 ▸ hj)

/-- A change of processes that are not queued. -/
theorem Fair.keep (hfair : Fair s) (hqueue : s'.runQueue = s.runQueue)
    (hmin : s'.minVruntime = s.minVruntime) (hlist : s.processList ⊆ s'.processList)
    (hvruntime : ∀ q, s'.vruntime q = s.vruntime q ∨ q ∉ s.runQueue ∧ s'.vruntime q = 0)
    (hflag : ∀ q, s'.inRunQueue q = s.inRunQueue q ∨ q ∉ s.runQueue ∧ s'.inRunQueue q = false)
    (hstatus : ∀ q ∈ s.runQueue, s'.status q = s.status q)
    (hcpu : ∀ i q, serves (s'.cpu i) = some q → serves (s.cpu i) = some q)
    (hchosen : ∀ i q, s'.cpu i = .chosen q → s'.status q = .runnable)
    (hrunning : ∀ i q, s'.cpu i = .running q → s'.status q = .running) : Fair s' := by
  have hqueued : ∀ q ∈ s.runQueue, s'.vruntime q = s.vruntime q := fun q hq =>
    (hvruntime q).resolve_right fun hout => hout.1 hq
  refine ⟨⟨?_, fun q => ?_, fun q hq => ?_, fun q rest hrest => ?_⟩, fun q hq => ?_, fun q hq => ?_,
    fun q hq => ?_, fun i q hi => ?_, hchosen, hrunning, fun i j q hi hj => ?_⟩
  · rw [hqueue]
    exact sorted_congr hqueued hfair.queue.sorted
  · rw [hqueue]
    obtain hsame | ⟨hout, hfalse⟩ := hflag q
    · rw [hsame]
      exact hfair.queue.flagged q
    · rw [hfalse]
      exact iff_of_false hout nofun
  · rw [hqueue] at hq
    rw [hmin, hqueued q hq]
    exact hfair.queue.bounded q hq
  · rw [hqueue] at hrest
    rw [hmin, hqueued q (hrest ▸ List.mem_cons_self)]
    exact hfair.queue.front q rest hrest
  · rw [hqueue] at hq
    rw [hstatus q hq]
    exact hfair.runnable q hq
  · rw [hqueue] at hq
    exact hlist (hfair.listed q hq)
  · rw [hqueue] at hq
    rw [hmin]
    obtain hsame | ⟨-, hzero⟩ := hvruntime q
    · exact hsame ▸ hfair.least q hq
    · omega
  · obtain ⟨hout, hin⟩ := hfair.served i q (hcpu i q hi)
    exact ⟨hqueue ▸ hout, hlist hin⟩
  · exact hfair.unique i j q (hcpu i q hi) (hcpu j q hj)

theorem QueueOk.nodup (hok : QueueOk s) : s.runQueue.Nodup :=
  hok.sorted.imp fun hless heq => by
    rw [cfsLess_iff, heq] at hless
    omega

/-- The front of the queue goes to an idle CPU. -/
theorem Fair.take (hfair : Fair s) {i p : ℕ} {rest : List ℕ} (hcpu : s.cpu i = .idle)
    (hqueue : s.runQueue = p :: rest) :
    let taken := { s with
      runQueue := rest
      inRunQueue := Function.update s.inRunQueue p false
      cpu := Function.update s.cpu i (.chosen p) }
    Fair (refreshMinVruntimeLocked taken) ∧
      s.minVruntime ≤ (refreshMinVruntimeLocked taken).minVruntime := by
  intro taken
  have hsorted := hqueue ▸ hfair.queue.sorted
  obtain ⟨hout, hnodup⟩ := List.nodup_cons.mp (hqueue ▸ hfair.queue.nodup)
  have hrest : ∀ q ∈ rest, q ∈ s.runQueue := fun q hq => hqueue ▸ List.mem_cons_of_mem p hq
  have hp : p ∈ s.runQueue := hqueue ▸ List.mem_cons_self
  obtain ⟨hok, hmin⟩ := @refresh_ok taken (List.pairwise_cons.mp hsorted).2
    (fun q => by
      simp only [taken, Function.update_apply]
      split
      · rename_i heq
        exact iff_of_false (heq ▸ hout) nofun
      · rename_i hne
        rw [← hfair.queue.flagged, hqueue, List.mem_cons, or_iff_right hne])
    (fun q hq => hfair.queue.bounded q (hrest q hq))
  obtain ⟨hsame, hqueue', hvruntime⟩ := refresh_same taken
  replace hqueue' : (refreshMinVruntimeLocked taken).runQueue = rest := hqueue'
  have hself : (refreshMinVruntimeLocked taken).cpu i = .chosen p := by
    rw [hsame.cpu]
    exact Function.update_self ..
  have hother : ∀ j, j ≠ i → (refreshMinVruntimeLocked taken).cpu j = s.cpu j := by
    intro j hj
    rw [hsame.cpu]
    exact Function.update_of_ne hj ..
  have hserves : ∀ j q, serves ((refreshMinVruntimeLocked taken).cpu j) = some q →
      (j = i ∧ q = p) ∨ (j ≠ i ∧ serves (s.cpu j) = some q) := by
    intro j q hj
    by_cases hji : j = i
    · rw [hji, hself] at hj
      exact .inl ⟨hji, (Option.some.inj hj).symm⟩
    · rw [hother j hji] at hj
      exact .inr ⟨hji, hj⟩
  refine ⟨⟨hok, fun q hq => ?_, fun q hq => ?_, fun q hq => ?_, fun j q hj => ?_, fun j q hj => ?_,
    fun j q hj => ?_, fun j k q hj hk => ?_⟩, hmin⟩
  · rw [hqueue'] at hq
    rw [hsame.status]
    exact hfair.runnable q (hrest q hq)
  · rw [hqueue'] at hq
    rw [hsame.processList]
    exact hfair.listed q (hrest q hq)
  · rw [hqueue'] at hq
    rw [hvruntime]
    refine le_trans ?_ hmin
    by_cases heq : q = p
    · exact heq ▸ (hfair.queue.front p rest hqueue).le
    · refine hfair.least q fun hmem => ?_
      exact (List.mem_cons.mp (hqueue ▸ hmem)).elim heq hq
  · rw [hqueue', hsame.processList]
    obtain ⟨-, rfl⟩ | ⟨-, hj⟩ := hserves j q hj
    · exact ⟨hout, hfair.listed q hp⟩
    · obtain ⟨hmem, hlisted⟩ := hfair.served j q hj
      exact ⟨fun hq => hmem (hrest q hq), hlisted⟩
  · rw [hsame.status]
    obtain ⟨-, rfl⟩ | ⟨hne, -⟩ := hserves j q (by rw [hj]; rfl)
    · exact hfair.runnable q hp
    · exact hfair.chosen j q (hother j hne ▸ hj)
  · rw [hsame.status]
    by_cases hji : j = i
    · rw [hji, hself] at hj
      cases hj
    · exact hfair.running j q (hother j hji ▸ hj)
  · obtain ⟨rfl, rfl⟩ | ⟨-, hj'⟩ := hserves j q hj
    · obtain ⟨rfl, -⟩ | ⟨-, hk'⟩ := hserves k q hk
      · rfl
      · exact absurd hp (hfair.served k q hk').1
    · obtain ⟨-, rfl⟩ | ⟨-, hk'⟩ := hserves k q hk
      · exact absurd hp (hfair.served j q hj').1
      · exact hfair.unique j k q hj' hk'

/-- What a CPU takes from the queue: its front, if it has one. -/
theorem pick_spec (hfair : Fair s) {i : ℕ} (hstep : Step s (.pick i) s') :
    (Fair s' ∧ s.minVruntime ≤ s'.minVruntime) ∧
      ((s.runQueue = [] ∧ s'.cpu i = .idle) ∨ ∃ p, s'.cpu i = .chosen p ∧ p ∈ s.runQueue ∧
        ∀ q ∈ s.runQueue, q ≠ p → cfsLess s.vruntime p q) := by
  simp only [Step, next] at hstep
  split at hstep
  · rename_i hidle
    cases hqueue : s.runQueue with
    | nil =>
        have hsame : s' = s := by
          rw [hqueue] at hstep
          obtain rfl := Option.some.inj hstep
          change { s with runQueue := [], cpu := Function.update s.cpu i .idle } = s
          rw [← hqueue, ← hidle, Function.update_eq_self]
        rw [hsame]
        exact ⟨⟨hfair, le_rfl⟩, .inl ⟨rfl, hidle⟩⟩
    | cons p rest =>
        have hp : p ∈ s.runQueue := hqueue ▸ List.mem_cons_self
        rw [hqueue, pickLoop_runnable (hfair.runnable p hp)] at hstep
        obtain rfl := Option.some.inj hstep
        refine ⟨hfair.take hidle hqueue, .inr ⟨p, ?_, List.mem_cons_self, fun q hq hne => ?_⟩⟩
        · rw [(refresh_same _).1.cpu]
          exact Function.update_self ..
        · have hsorted := hqueue ▸ hfair.queue.sorted
          exact (List.pairwise_cons.mp hsorted).1 q ((List.mem_cons.mp hq).resolve_left hne)
  · cases hstep

theorem Fair.not_queued (hfair : Fair s) {p : ℕ} (hstatus : s.status p ≠ .runnable) :
    p ∉ s.runQueue := fun hp => hstatus (hfair.runnable p hp)

theorem Fair.not_served (hfair : Fair s) {p : ℕ} (hrunnable : s.status p ≠ .runnable)
    (hrunning : s.status p ≠ .running) (i : ℕ) : serves (s.cpu i) ≠ some p := by
  intro hi
  cases hcpu : s.cpu i with
  | chosen q =>
      rw [hcpu] at hi
      obtain rfl := Option.some.inj hi
      exact hrunnable (hfair.chosen i q hcpu)
  | running q =>
      rw [hcpu] at hi
      obtain rfl := Option.some.inj hi
      exact hrunning (hfair.running i q hcpu)
  | _ => rw [hcpu] at hi; cases hi

theorem ready_cpu (s : State) (p : ℕ) :
    (ready s p).cpu = s.cpu ∧ (ready s p).locked = s.locked := by
  unfold ready rbPushBack
  split
  · exact ⟨rfl, rfl⟩
  · exact ⟨(refresh_same _).1.cpu, (refresh_same _).1.locked⟩

/-- A process that no CPU serves becomes runnable. -/
theorem Fair.wake (hfair : Fair s) {p : ℕ} (hlisted : p ∈ s.processList)
    (hrunnable : s.status p ≠ .runnable) (hrunning : s.status p ≠ .running) :
    Fair (ready s p) ∧ s.minVruntime ≤ (ready s p).minVruntime := by
  have hp := hfair.not_queued hrunnable
  have hle := hfair.least p hp
  have hcpu : ∀ i q, serves (s.cpu i) = some q → q ≠ p ∧ s.cpu i = s.cpu i := fun i q hi =>
    ⟨fun heq => hfair.not_served hrunnable hrunning i (heq ▸ hi), rfl⟩
  have hpush := @Fair.push s hfair p hp hlisted s.vruntime (fun _ _ => rfl) (by omega) s.cpu
    s.locked hcpu
  have hsame : { ready s p with cpu := s.cpu, locked := s.locked } = ready s p := by
    rw [← (ready_cpu s p).1, ← (ready_cpu s p).2]
  rwa [show { s with vruntime := s.vruntime } = s from rfl, hsame] at hpush

/-- A process that runs gives up its CPU for the queue. -/
theorem Fair.yield (hfair : Fair s) {i p : ℕ} (hcpu : s.cpu i = .running p) {vruntime : ℕ → ℕ}
    (hvruntime : ∀ q, q ≠ p → vruntime q = s.vruntime q)
    (hle : vruntime p ≤ s.vruntime p + 100) :
    Fair (giveUp (ready { s with vruntime := vruntime } p) i p) ∧
      s.minVruntime ≤ (giveUp (ready { s with vruntime := vruntime } p) i p).minVruntime := by
  have hserves := serves_running hcpu
  obtain ⟨hp, hlisted⟩ := hfair.served i p hserves
  have hleast := hfair.least p hp
  rw [giveUp, (ready_cpu _ p).1, (ready_cpu _ p).2]
  refine hfair.push hp hlisted hvruntime (by omega) fun j q hj => ?_
  by_cases hji : j = i
  · rw [hji, Function.update_self] at hj
    cases hj
  · rw [Function.update_of_ne hji] at hj ⊢
    exact ⟨fun heq => hji (hfair.unique j i p (heq ▸ hj) hserves), rfl⟩

/-- A CPU that is not on its way to a process or in it afterwards. -/
theorem serves_update {i j q : ℕ} {cpu : Cpu} (hcpu : serves cpu = none)
    (hj : serves (Function.update s.cpu i cpu j) = some q) :
    j ≠ i ∧ serves (s.cpu j) = some q := by
  by_cases hji : j = i
  · rw [hji, Function.update_self, hcpu] at hj
    cases hj
  · rw [Function.update_of_ne hji] at hj
    exact ⟨hji, hj⟩

/-- Every step keeps the invariant, and the minimum does not decrease. -/
theorem fair_step (hfair : Fair s) {action : Action} (hstep : Step s action s') :
    Fair s' ∧ s.minVruntime ≤ s'.minVruntime := by
  cases action with
  | create p =>
      simp only [Step, next] at hstep
      split at hstep
      · cases hstep
      · rename_i hnew
        obtain rfl := Option.some.inj hstep
        have hout : p ∉ s.runQueue := fun hp => hnew (hfair.listed p hp)
        have hnot : ∀ i, serves (s.cpu i) ≠ some p := fun i hi => hnew (hfair.served i p hi).2
        refine ⟨hfair.keep rfl rfl (List.subset_append_left ..) (fun q => ?_) (fun q => ?_)
          (fun q hq => ?_) (fun _ _ => id) (fun i q hi => ?_) (fun i q hi => ?_), le_rfl⟩
        · by_cases heq : q = p
          · exact .inr ⟨heq ▸ hout, heq ▸ Function.update_self ..⟩
          · exact .inl (Function.update_of_ne heq ..)
        · by_cases heq : q = p
          · exact .inr ⟨heq ▸ hout, heq ▸ Function.update_self ..⟩
          · exact .inl (Function.update_of_ne heq ..)
        · exact Function.update_of_ne (fun heq : q = p => hout (heq ▸ hq)) ..
        · have hne : q ≠ p := fun heq => hnot i (heq ▸ serves_chosen hi)
          exact (Function.update_of_ne hne ..).trans (hfair.chosen i q hi)
        · have hne : q ≠ p := fun heq => hnot i (heq ▸ serves_running hi)
          exact (Function.update_of_ne hne ..).trans (hfair.running i q hi)
  | push p =>
      simp only [Step, next] at hstep
      split at hstep
      · rename_i hinitial
        obtain rfl := Option.some.inj hstep
        exact hfair.wake hinitial.1 (hinitial.2 ▸ nofun) (hinitial.2 ▸ nofun)
      · cases hstep
  | pick i => exact (pick_spec hfair hstep).1
  | start i =>
      simp only [Step, next] at hstep
      split at hstep
      · rename_i p hcpu
        split at hstep
        · cases hstep
        · obtain rfl := Option.some.inj hstep
          have hserves := serves_chosen hcpu
          have hsame : ∀ j q, serves (Function.update s.cpu i (.running p) j) = some q →
              serves (s.cpu j) = some q := by
            intro j q hj
            by_cases hji : j = i
            · rw [hji, Function.update_self] at hj
              exact hji ▸ hserves.trans hj
            · rwa [Function.update_of_ne hji] at hj
          refine ⟨hfair.keep rfl rfl (List.Subset.refl _) (fun _ => .inl rfl) (fun _ => .inl rfl)
            (fun q hq => ?_) hsame (fun j q hj => ?_) (fun j q hj => ?_), le_rfl⟩
          · exact Function.update_of_ne (fun heq : q = p => (hfair.served i p hserves).1 (heq ▸ hq)) ..
          · dsimp only at hj ⊢
            by_cases hji : j = i
            · rw [hji, Function.update_self] at hj
              cases hj
            · rw [Function.update_of_ne hji] at hj
              have hne : q ≠ p := fun heq =>
                hji (hfair.unique j i p (by rw [hj, heq]; rfl) hserves)
              rw [Function.update_of_ne hne]
              exact hfair.chosen j q hj
          · dsimp only at hj ⊢
            by_cases heq : q = p
            · rw [heq, Function.update_self]
            · rw [Function.update_of_ne heq]
              have hji : j ≠ i := by
                rintro rfl
                rw [Function.update_self] at hj
                exact heq (Cpu.running.inj hj).symm
              rw [Function.update_of_ne hji] at hj
              exact hfair.running j q hj
      · cases hstep
  | tick i =>
      simp only [Step, next] at hstep
      split at hstep
      · rename_i p hcpu
        obtain rfl := Option.some.inj hstep
        refine hfair.yield hcpu (fun q hq => Function.update_of_ne hq ..) ?_
        rw [Function.update_self]
        exact Nat.mod_le ..
      · cases hstep
  | yield i =>
      simp only [Step, next] at hstep
      split at hstep
      · rename_i p hcpu
        obtain rfl := Option.some.inj hstep
        exact hfair.yield hcpu (fun _ _ => rfl) (Nat.le_add_right ..)
      · cases hstep
  | sleep i chan =>
      simp only [Step, next] at hstep
      split at hstep
      · rename_i p hcpu
        obtain rfl := Option.some.inj hstep
        have hserves := serves_running hcpu
        have hother : ∀ j q, serves (Function.update s.cpu i (.leaving p) j) = some q →
            q ≠ p ∧ Function.update s.cpu i (.leaving p) j = s.cpu j ∧
              serves (s.cpu j) = some q := by
          intro j q hj
          obtain ⟨hji, hj⟩ := serves_update rfl hj
          exact ⟨fun heq => hji (hfair.unique j i p (heq ▸ hj) hserves),
            Function.update_of_ne hji .., hj⟩
        refine ⟨hfair.keep rfl rfl (List.Subset.refl _) (fun _ => .inl rfl) (fun _ => .inl rfl)
          (fun q hq => ?_) (fun j q hj => (hother j q hj).2.2) (fun j q hj => ?_)
          (fun j q hj => ?_), le_rfl⟩
        · exact Function.update_of_ne (fun heq : q = p => (hfair.served i p hserves).1 (heq ▸ hq)) ..
        · obtain ⟨hne, hsame, -⟩ := hother j q (serves_chosen hj)
          exact (Function.update_of_ne hne ..).trans (hfair.chosen j q (hsame ▸ hj))
        · obtain ⟨hne, hsame, -⟩ := hother j q (serves_running hj)
          exact (Function.update_of_ne hne ..).trans (hfair.running j q (hsame ▸ hj))
      · cases hstep
  | leave i =>
      simp only [Step, next] at hstep
      split at hstep
      · obtain rfl := Option.some.inj hstep
        have hother : ∀ j q, serves (Function.update s.cpu i .idle j) = some q →
            Function.update s.cpu i .idle j = s.cpu j ∧ serves (s.cpu j) = some q := fun j q hj =>
          ⟨Function.update_of_ne (serves_update rfl hj).1 .., (serves_update rfl hj).2⟩
        refine ⟨hfair.keep rfl rfl (List.Subset.refl _) (fun _ => .inl rfl) (fun _ => .inl rfl)
          (fun _ _ => rfl) (fun j q hj => (hother j q hj).2) (fun j q hj => ?_)
          (fun j q hj => ?_), le_rfl⟩
        · have hsame := (hother j q (serves_chosen hj)).1
          exact hfair.chosen j q (hsame ▸ hj)
        · have hsame := (hother j q (serves_running hj)).1
          exact hfair.running j q (hsame ▸ hj)
      · cases hstep
  | wakeup i q chan =>
      simp only [Step, next] at hstep
      split at hstep
      · rename_i hvisit
        split at hstep
        · rename_i hasleep
          obtain rfl := Option.some.inj hstep
          exact hfair.wake hvisit.1 (hasleep.1 ▸ nofun) (hasleep.1 ▸ nofun)
        · exact Option.some.inj hstep ▸ ⟨hfair, le_rfl⟩
      · cases hstep

end Steps

/-! ## Runs -/

/-- In every state of every run the queue is in strict order, holds the flagged processes once
each, all of them runnable and with virtual runtimes between the minimum and 100 above it; no
step lowers the minimum, and `schedule` takes the least process. -/
theorem fair_of_reach {s : State} (hreach : Reach Step Unguarded boot s) :
    s.runQueue.Pairwise (cfsLess s.vruntime) ∧ s.runQueue.Nodup ∧
      (∀ p, p ∈ s.runQueue ↔ s.inRunQueue p = true) ∧
      (∀ p ∈ s.runQueue, s.status p = .runnable ∧ s.minVruntime ≤ s.vruntime p ∧
        s.vruntime p ≤ s.minVruntime + 100) ∧
      (∀ action s', Step s action s' → s.minVruntime ≤ s'.minVruntime) ∧
      ∀ i s', Step s (.pick i) s' → (s.runQueue = [] ∧ s'.cpu i = .idle) ∨
        ∃ p, s'.cpu i = .chosen p ∧ p ∈ s.runQueue ∧
          ∀ q ∈ s.runQueue, q ≠ p → cfsLess s.vruntime p q := by
  have hfair : Fair s :=
    hreach.invariant fair_boot fun _ _ _ hfair _ hstep => (fair_step hfair hstep).1
  refine ⟨hfair.queue.sorted, hfair.queue.nodup, hfair.queue.flagged, fun p hp => ?_,
    fun action s' hstep => (fair_step hfair hstep).2, fun i s' hstep => (pick_spec hfair hstep).2⟩
  exact ⟨hfair.runnable p hp, hfair.queue.bounded p hp⟩

/-- Two processes are created and pushed; the one with the lesser pid runs until a tick, and then the
other one runs. -/
def ticked : State :=
  (follow next [.create 7, .push 7, .create 3, .push 3, .pick 0, .start 0, .tick 0, .leave 0,
    .pick 1, .start 1] boot).get (by decide +kernel)

theorem fair_ticked : ticked.runQueue = [3] ∧ ticked.vruntime 3 ≤ ticked.minVruntime + 100 := by
  have hreach : Reach Step Unguarded boot ticked :=
    reach_of_follow (fun _ _ _ hnext => hnext) (Option.some_get _).symm
  obtain ⟨-, -, -, hqueued, -⟩ := fair_of_reach hreach
  have hqueue : ticked.runQueue = [3] := by decide +kernel
  exact ⟨hqueue, (hqueued 3 (hqueue ▸ List.mem_singleton_self 3)).2.2⟩

end Painting.RunQueue
