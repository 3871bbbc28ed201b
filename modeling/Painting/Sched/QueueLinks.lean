import Painting.Lib.ListRuns
import Painting.Sched.RunQueue

/-!
# The run queue as a linked list

The run queue of `schedule.c` in memory: the `sched_elem`s of the processes between two end nodes.
Every run of the scheduler over sequences is one over linked lists, in which no assertion of
`list.c` fails and no link leads to `NULL`.
-/

namespace Painting.QueueLinks

open Painting.LinkedList Painting.KernelList
open Painting.Threads (Status)
open Painting.RunQueue (Cpu State Action Fair)

/-! ## The scheduler -/

/-- The elements that can be in `run_queue`. -/
inductive Elem
  | head
  | tail
  | schedElem (p : ℕ)
  deriving DecidableEq

def runQueue : Ends Elem := ⟨.head, .tail⟩

/-- The process of which an element is the `sched_elem`. -/
def listEntry : Option Elem → Except Stop ℕ
  | some (.schedElem p) => .ok p
  | _ => .error .nullPointer

/-- `cfs_less`. -/
def cfsLess (vruntime : ℕ → ℕ) : Elem → Elem → Bool
  | .schedElem a, .schedElem b =>
      if vruntime a ≠ vruntime b then decide (vruntime a < vruntime b) else decide (a < b)
  | _, _ => false

/-- The state of the scheduler, with the links of the elements instead of a sequence. -/
structure Linked where
  status : ℕ → Status
  chan : ℕ → Option ℕ
  vruntime : ℕ → ℕ
  inRunQueue : ℕ → Bool
  locked : ℕ → Bool
  processList : List ℕ
  links : Links Elem
  minVruntime : ℕ
  cpu : ℕ → Cpu

/-- `refresh_min_vruntime_locked`. -/
def refreshMinVruntimeLocked (l : Linked) : Except Stop Linked :=
  if listEmpty l.links runQueue then .ok l
  else do
    let front ← listFront l.links runQueue
    let leftmost ← listEntry front
    if l.minVruntime < l.vruntime leftmost then
      .ok { l with minVruntime := l.vruntime leftmost }
    else .ok l

/-- `rb_push_back`. -/
def rbPushBack (rounds : ℕ) (l : Linked) (p : ℕ) : Except Stop Linked :=
  if l.inRunQueue p then .ok l
  else do
    let vruntime :=
      if l.vruntime p < l.minVruntime then Function.update l.vruntime p l.minVruntime
      else l.vruntime
    let links ←
      listInsertOrdered (cfsLess vruntime) rounds l.links runQueue (some (.schedElem p))
    refreshMinVruntimeLocked { l with
      vruntime := vruntime
      links := links
      inRunQueue := Function.update l.inRunQueue p true }

/-- The loop of `schedule` from an element on: the process it takes, the links and the flags. -/
def pickLoop (status : ℕ → Status) : ℕ → Links Elem → (ℕ → Bool) → Option Elem →
    Except Stop (Option ℕ × Links Elem × (ℕ → Bool))
  | 0, _, _, _ => .error .rounds
  | rounds + 1, links, inRunQueue, e =>
      if e = listEnd runQueue then .ok (none, links, inRunQueue)
      else do
        let n ← listNext links e
        let p ← listEntry e
        let (_, links) ← listRemove links e
        let inRunQueue := Function.update inRunQueue p false
        if status p = .runnable then .ok (some p, links, inRunQueue)
        else pickLoop status rounds links inRunQueue n

/-- The process becomes runnable and is pushed. -/
def ready (rounds : ℕ) (l : Linked) (p : ℕ) : Except Stop Linked :=
  rbPushBack rounds { l with status := Function.update l.status p .runnable } p

/-- `sched`, to the scheduler of CPU `i`. -/
def giveUp (l : Linked) (i p : ℕ) : Linked :=
  { l with cpu := Function.update l.cpu i (.leaving p), locked := Function.update l.locked p true }

/-- The step of an action, or `none` where the action is not possible. -/
def next (rounds : ℕ) (l : Linked) : Action → Option (Except Stop Linked)
  | .create p =>
      if p ∈ l.processList then none
      else some (.ok { l with
        status := Function.update l.status p .initial
        vruntime := Function.update l.vruntime p 0
        inRunQueue := Function.update l.inRunQueue p false
        locked := Function.update l.locked p false
        processList := l.processList ++ [p] })
  | .push p =>
      if p ∈ l.processList ∧ l.status p = .initial then some (ready rounds l p) else none
  | .pick i =>
      match l.cpu i with
      | .idle => some (do
          let (next, links, inRunQueue) ←
            pickLoop l.status rounds l.links l.inRunQueue (listBegin l.links runQueue)
          refreshMinVruntimeLocked { l with
            links := links
            inRunQueue := inRunQueue
            cpu := Function.update l.cpu i (next.elim .idle .chosen) })
      | _ => none
  | .start i =>
      match l.cpu i with
      | .chosen p =>
          if l.locked p then none
          else some (.ok { l with
            status := Function.update l.status p .running
            cpu := Function.update l.cpu i (.running p) })
      | _ => none
  | .tick i =>
      match l.cpu i with
      | .running p => some (do
          let l ← ready rounds { l with
            vruntime := Function.update l.vruntime p ((l.vruntime p + 100) % 2 ^ 64) } p
          .ok (giveUp l i p))
      | _ => none
  | .yield i =>
      match l.cpu i with
      | .running p => some (do
          let l ← ready rounds l p
          .ok (giveUp l i p))
      | _ => none
  | .sleep i chan =>
      match l.cpu i with
      | .running p => some (.ok (giveUp { l with
          chan := Function.update l.chan p (some chan)
          status := Function.update l.status p .sleeping } i p))
      | _ => none
  | .leave i =>
      match l.cpu i with
      | .leaving p => some (.ok { l with
          cpu := Function.update l.cpu i .idle
          locked := Function.update l.locked p false })
      | _ => none
  | .wakeup i q chan =>
      if q ∈ l.processList ∧ l.cpu i ≠ .running q ∧ l.locked q = false then
        if l.status q = .sleeping ∧ l.chan q = some chan then some (ready rounds l q)
        else some (.ok l)
      else none

/-- After `rb_init`, before the first process. -/
def boot (links : Links Elem) : Linked where
  status := fun _ => .initial
  chan := fun _ => none
  vruntime := fun _ => 0
  inRunQueue := fun _ => false
  locked := fun _ => false
  processList := []
  links := listInit links runQueue
  minVruntime := 0
  cpu := fun _ => .idle

/-- A run of the scheduler, which ends early where an action is not possible. -/
def run (rounds : ℕ) : List Action → Linked → Option (Except Stop Linked)
  | [], l => some (.ok l)
  | action :: actions, l =>
      match next rounds l action with
      | some (.ok l) => run rounds actions l
      | result => result

/-! ## Operations on the queue -/

/-- The state with a sequence instead of the links. -/
def Linked.view (l : Linked) (queue : List ℕ) : State where
  status := l.status
  chan := l.chan
  vruntime := l.vruntime
  inRunQueue := l.inRunQueue
  locked := l.locked
  processList := l.processList
  runQueue := queue
  minVruntime := l.minVruntime
  cpu := l.cpu

/-- The linked list holds the processes of the queue. -/
def Refines (l : Linked) (s : State) : Prop :=
  ∃ queue, s = l.view queue ∧ Holds l.links runQueue (queue.map .schedElem)

section Operations

variable {l : Linked} {s s' : State} {queue : List ℕ} {links : Links Elem} {rounds p : ℕ}

theorem cfsLess_eq (vruntime : ℕ → ℕ) (a b : ℕ) :
    cfsLess vruntime (.schedElem a) (.schedElem b) = decide (Threads.cfsLess vruntime a b) := by
  rw [cfsLess]
  simp only [Threads.cfsLess]
  split <;> rfl

theorem insertOrdered_map (vruntime : ℕ → ℕ) (p : ℕ) (queue : List ℕ) :
    insertOrdered (cfsLess vruntime) (.schedElem p) (queue.map .schedElem) =
      (Threads.listInsertOrdered vruntime p queue).map .schedElem := by
  induction queue with
  | nil => rfl
  | cons q queue ih =>
      rw [List.map_cons, insertOrdered, List.orderedInsert_cons, cfsLess_eq,
        Threads.listInsertOrdered]
      by_cases hless : Threads.cfsLess vruntime p q
      · rw [if_pos hless, if_pos (decide_eq_true hless)]
        rfl
      · rw [if_neg hless, if_neg (by simpa using hless)]
        exact congrArg (_ :: ·) ih

theorem refresh_refines (hholds : Holds l.links runQueue (queue.map .schedElem)) :
    ∃ l', refreshMinVruntimeLocked l = .ok l' ∧
      Refines l' (RunQueue.refreshMinVruntimeLocked (l.view queue)) := by
  rw [refreshMinVruntimeLocked, RunQueue.refreshMinVruntimeLocked, listEmpty_eq hholds]
  cases queue with
  | nil => exact ⟨l, rfl, [], rfl, hholds⟩
  | cons leftmost rest =>
      rw [listFront, listEmpty_eq hholds, hholds.next_head]
      by_cases hmin : l.minVruntime < l.vruntime leftmost
      · refine ⟨{ l with minVruntime := l.vruntime leftmost }, if_pos hmin, leftmost :: rest, ?_,
          hholds⟩
        exact if_pos hmin
      · exact ⟨l, if_neg hmin, leftmost :: rest, if_neg hmin, hholds⟩

theorem rbPushBack_refines (hholds : Holds l.links runQueue (queue.map .schedElem))
    (hflagged : l.inRunQueue p = false → p ∉ queue) (hrounds : queue.length < rounds) :
    ∃ l', rbPushBack rounds l p = .ok l' ∧ Refines l' (RunQueue.rbPushBack (l.view queue) p) := by
  rw [rbPushBack, RunQueue.rbPushBack]
  cases hflag : l.inRunQueue p with
  | true => exact ⟨l, if_pos rfl, queue, if_pos hflag, hholds⟩
  | false =>
      have hout : Elem.schedElem p ∉ runQueue.nodes (queue.map .schedElem) := by
        simpa [Ends.mem_nodes, runQueue] using hflagged hflag
      have hview : ¬(l.view queue).inRunQueue p = true := by
        rw [show (l.view queue).inRunQueue p = false from hflag]
        exact Bool.false_ne_true
      rw [if_neg Bool.false_ne_true, if_neg hview]
      let raised :=
        if l.vruntime p < l.minVruntime then Function.update l.vruntime p l.minVruntime
        else l.vruntime
      change ∃ l', (do
          let links ←
            listInsertOrdered (cfsLess raised) rounds l.links runQueue (some (.schedElem p))
          refreshMinVruntimeLocked { l with
            vruntime := raised
            links := links
            inRunQueue := Function.update l.inRunQueue p true }) = .ok l' ∧
        Refines l' (RunQueue.refreshMinVruntimeLocked { l.view queue with
          vruntime := raised
          runQueue := Threads.listInsertOrdered raised p queue
          inRunQueue := Function.update l.inRunQueue p true })
      generalize raised = vruntime
      obtain ⟨links', hinsert, hholds', -⟩ := @listInsertOrdered_spec _ (cfsLess vruntime) _ _ _ _ _
        rounds hholds hout (by simpa using hrounds)
      rw [insertOrdered_map] at hholds'
      rw [hinsert, ok_bind]
      exact @refresh_refines { l with
        vruntime := vruntime
        links := links'
        inRunQueue := Function.update l.inRunQueue p true } _ hholds'

theorem pickLoop_refines (status : ℕ → Status) (inRunQueue : ℕ → Bool)
    (hholds : Holds links runQueue (queue.map .schedElem)) (hrounds : queue.length < rounds) :
    ∃ links', pickLoop status rounds links inRunQueue
        (some (runQueue.first (queue.map .schedElem))) =
          .ok ((RunQueue.pickLoop status inRunQueue queue).1, links',
            (RunQueue.pickLoop status inRunQueue queue).2.2) ∧
      Holds links' runQueue ((RunQueue.pickLoop status inRunQueue queue).2.1.map .schedElem) := by
  induction queue generalizing links inRunQueue rounds with
  | nil =>
      obtain ⟨rounds, rfl⟩ := Nat.exists_eq_succ_of_ne_zero (Nat.ne_of_gt hrounds)
      exact ⟨links, if_pos rfl, hholds⟩
  | cons p rest ih =>
      obtain ⟨rounds, rfl⟩ := Nat.exists_eq_succ_of_ne_zero (Nat.ne_of_gt (Nat.zero_lt_of_lt hrounds))
      have hend : some (runQueue.first ((p :: rest).map .schedElem)) ≠ listEnd runQueue := by
        simp [listEnd, runQueue]
      obtain ⟨hremove, hholds'⟩ := @listRemove_spec _ _ links runQueue [] (rest.map .schedElem)
        (.schedElem p) hholds
      have hnext := @listNext_eq _ links runQueue [] (rest.map .schedElem) (.schedElem p) hholds
      rw [pickLoop, if_neg hend, List.map_cons, Ends.first_cons, hnext, ok_bind, RunQueue.pickLoop]
      change ∃ links', ((do
        let (_, links) ← listRemove links (some (Elem.schedElem p))
        _ : Except Stop _)) = _ ∧ _
      rw [hremove, ok_bind]
      by_cases hrunnable : status p = .runnable
      · rw [if_pos hrunnable, if_pos hrunnable]
        exact ⟨_, rfl, hholds'⟩
      · rw [if_neg hrunnable, if_neg hrunnable]
        exact ih _ hholds' (by simpa using hrounds)

theorem ready_refines (hholds : Holds l.links runQueue (queue.map .schedElem))
    (hflagged : l.inRunQueue p = false → p ∉ queue) (hrounds : queue.length < rounds) :
    ∃ l', ready rounds l p = .ok l' ∧ Refines l' (RunQueue.ready (l.view queue) p) :=
  @rbPushBack_refines { l with status := Function.update l.status p .runnable } queue rounds p hholds
    hflagged hrounds

end Operations

/-! ## Steps -/

/-- The linked scheduler does what the scheduler over sequences does. -/
def Matches (result : Option (Except Stop Linked)) (expected : Option State) : Prop :=
  expected.elim (result = none) fun s => ∃ l, result = some (.ok l) ∧ Refines l s

section Steps

variable {l : Linked} {s s' : State} {queue : List ℕ} {rounds p : ℕ}

theorem Refines.giveUp (hrefines : Refines l s) (i p : ℕ) :
    Refines (giveUp l i p) (RunQueue.giveUp s i p) := by
  obtain ⟨queue, rfl, hholds⟩ := hrefines
  exact ⟨queue, rfl, hholds⟩

theorem Matches.ite {c : Prop} [Decidable c] {result result' : Option (Except Stop Linked)}
    {expected expected' : Option State} (hthen : c → Matches result expected)
    (helse : ¬c → Matches result' expected') :
    Matches (if c then result else result') (if c then expected else expected') := by
  by_cases hc : c
  · rw [if_pos hc, if_pos hc]
    exact hthen hc
  · rw [if_neg hc, if_neg hc]
    exact helse hc

/-- A step that ends in an operation on the queue. -/
theorem Matches.of_ok {computed : Except Stop Linked} (hcomputed : ∃ l', computed = .ok l' ∧
    Refines l' s) : Matches (some computed) (some s) := by
  obtain ⟨l', rfl, hrefines⟩ := hcomputed
  exact ⟨l', rfl, hrefines⟩

/-- `yield` after an operation on the queue. -/
theorem giveUp_refines {computed : Except Stop Linked} (i : ℕ) (hcomputed : ∃ l', computed = .ok l' ∧
    Refines l' s) : ∃ l', (computed >>= fun l => .ok (giveUp l i p)) = .ok l' ∧
      Refines l' (RunQueue.giveUp s i p) := by
  obtain ⟨l', rfl, hrefines⟩ := hcomputed
  exact ⟨giveUp l' i p, rfl, hrefines.giveUp i p⟩

theorem next_matches (hrefines : Refines l s)
    (hflagged : ∀ p, p ∈ s.runQueue ↔ s.inRunQueue p = true)
    (hrounds : s.runQueue.length < rounds) (action : Action) :
    Matches (next rounds l action) (RunQueue.next s action) := by
  obtain ⟨queue, rfl, hholds⟩ := hrefines
  have hout : ∀ p, l.inRunQueue p = false → p ∉ queue := fun p hflag hp => by
    have htrue : l.inRunQueue p = true := (hflagged p).mp hp
    rw [hflag] at htrue
    cases htrue
  cases action with
  | create p =>
      exact .ite (fun _ => rfl) fun _ => ⟨_, rfl, queue, rfl, hholds⟩
  | push p =>
      exact .ite (fun _ => .of_ok (ready_refines hholds (hout p) hrounds)) fun _ => rfl
  | pick i =>
      rw [next, RunQueue.next, show (l.view queue).cpu i = l.cpu i from rfl]
      cases l.cpu i with
      | idle =>
          obtain ⟨links', hpick, hholds'⟩ := pickLoop_refines l.status l.inRunQueue hholds hrounds
          rw [listBegin_eq hholds, hpick]
          exact .of_ok (@refresh_refines { l with
            links := links'
            inRunQueue := (RunQueue.pickLoop l.status l.inRunQueue queue).2.2
            cpu := Function.update l.cpu i
              ((RunQueue.pickLoop l.status l.inRunQueue queue).1.elim .idle .chosen) } _ hholds')
      | chosen p => rfl
      | running p => rfl
      | leaving p => rfl
  | start i =>
      rw [next, RunQueue.next, show (l.view queue).cpu i = l.cpu i from rfl]
      cases l.cpu i with
      | chosen p => exact .ite (fun _ => rfl) fun _ => ⟨_, rfl, queue, rfl, hholds⟩
      | idle => rfl
      | running p => rfl
      | leaving p => rfl
  | tick i =>
      rw [next, RunQueue.next, show (l.view queue).cpu i = l.cpu i from rfl]
      cases l.cpu i with
      | running p =>
          refine .of_ok (giveUp_refines i ?_)
          exact @ready_refines { l with
            vruntime := Function.update l.vruntime p ((l.vruntime p + 100) % 2 ^ 64) } _ _ _ hholds
            (hout p) hrounds
      | idle => rfl
      | chosen p => rfl
      | leaving p => rfl
  | yield i =>
      rw [next, RunQueue.next, show (l.view queue).cpu i = l.cpu i from rfl]
      cases l.cpu i with
      | running p => exact .of_ok (giveUp_refines i (ready_refines hholds (hout p) hrounds))
      | idle => rfl
      | chosen p => rfl
      | leaving p => rfl
  | sleep i chan =>
      rw [next, RunQueue.next, show (l.view queue).cpu i = l.cpu i from rfl]
      cases l.cpu i with
      | running p => exact ⟨_, rfl, queue, rfl, hholds⟩
      | idle => rfl
      | chosen p => rfl
      | leaving p => rfl
  | leave i =>
      rw [next, RunQueue.next, show (l.view queue).cpu i = l.cpu i from rfl]
      cases l.cpu i with
      | leaving p => exact ⟨_, rfl, queue, rfl, hholds⟩
      | idle => rfl
      | chosen p => rfl
      | running p => rfl
  | wakeup i q chan =>
      refine .ite (fun _ => .ite (fun _ => ?_) fun _ => ?_) fun _ => rfl
      · exact .of_ok (ready_refines hholds (hout q) hrounds)
      · exact ⟨l, rfl, queue, rfl, hholds⟩

/-! ## Runs -/

theorem listInsertOrdered_length (vruntime : ℕ → ℕ) (p : ℕ) (queue : List ℕ) :
    (Threads.listInsertOrdered vruntime p queue).length = queue.length + 1 := by
  induction queue with
  | nil => rfl
  | cons q queue ih =>
      rw [Threads.listInsertOrdered]
      split
      · rfl
      · rw [List.length_cons, ih, List.length_cons]

theorem rbPushBack_length (s : State) (p : ℕ) :
    (RunQueue.rbPushBack s p).runQueue.length ≤ s.runQueue.length + 1 := by
  rw [RunQueue.rbPushBack]
  split
  · exact Nat.le_succ _
  · rw [(RunQueue.refresh_same _).2.1, listInsertOrdered_length]

theorem pickLoop_length (status : ℕ → Status) (inRunQueue : ℕ → Bool) (queue : List ℕ) :
    (RunQueue.pickLoop status inRunQueue queue).2.1.length ≤ queue.length := by
  induction queue generalizing inRunQueue with
  | nil => exact le_rfl
  | cons p rest ih =>
      rw [RunQueue.pickLoop]
      by_cases hrunnable : status p = .runnable
      · rw [if_pos hrunnable]
        exact Nat.le_succ _
      · rw [if_neg hrunnable]
        exact (ih _).trans (Nat.le_succ _)

/-- A step puts one process into the queue at most. -/
theorem next_length {action : Action} (hnext : RunQueue.next s action = some s') :
    s'.runQueue.length ≤ s.runQueue.length + 1 := by
  cases action with
  | pick i =>
      rw [RunQueue.next] at hnext
      split at hnext
      · obtain rfl := Option.some.inj hnext
        rw [(RunQueue.refresh_same _).2.1]
        exact (pickLoop_length _ _ _).trans (Nat.le_succ _)
      · cases hnext
  | _ =>
      simp only [RunQueue.next] at hnext
      repeat' split at hnext
      all_goals cases hnext
      all_goals first
        | exact Nat.le_succ _
        | exact rbPushBack_length _ _

theorem run_matches {actions : List Action} (hrefines : Refines l s) (hfair : Fair s)
    (hrounds : s.runQueue.length + actions.length < rounds) :
    Matches (run rounds actions l) (Transition.follow RunQueue.next actions s) := by
  induction actions generalizing l s with
  | nil => exact ⟨l, rfl, hrefines⟩
  | cons action actions ih =>
      rw [List.length_cons] at hrounds
      have hmatches := next_matches hrefines hfair.queue.flagged (by omega : _ < rounds) action
      rw [run, Transition.follow]
      cases hnext : RunQueue.next s action with
      | none =>
          rw [hnext] at hmatches
          rw [show next rounds l action = none from hmatches]
          rfl
      | some s' =>
          rw [hnext] at hmatches
          obtain ⟨l', hl, hrefines'⟩ := hmatches
          have hlength := next_length hnext
          rw [hl]
          exact ih hrefines' (RunQueue.fair_step hfair hnext).1 (by omega)

/-- A run over linked lists from `rb_init` on stops at no assertion and at no `NULL`, and goes as far
as the run over sequences.  The list then holds the processes whose flag is set, once each and in
the order of `cfs_less`. -/
theorem run_boot (links : Links Elem) (actions : List Action)
    (hrounds : actions.length < rounds) :
    run rounds actions (boot links) = none ∧
        Transition.follow RunQueue.next actions RunQueue.boot = none ∨
      ∃ l queue, run rounds actions (boot links) = some (.ok l) ∧
        Transition.follow RunQueue.next actions RunQueue.boot = some (l.view queue) ∧
        Holds l.links runQueue (queue.map .schedElem) ∧
        queue.Pairwise (Threads.cfsLess l.vruntime) ∧
        ∀ p, p ∈ queue ↔ l.inRunQueue p = true := by
  have hstart : Refines (boot links) RunQueue.boot :=
    ⟨[], rfl, listInit_holds links (by simp [runQueue])⟩
  have hmatches := @run_matches (boot links) RunQueue.boot rounds actions hstart RunQueue.fair_boot
    (by simpa [RunQueue.boot] using hrounds)
  cases hfollow : Transition.follow RunQueue.next actions RunQueue.boot with
  | none =>
      rw [hfollow] at hmatches
      exact .inl ⟨hmatches, rfl⟩
  | some s =>
      rw [hfollow] at hmatches
      obtain ⟨l, hl, queue, rfl, hholds⟩ := hmatches
      have hreach : Transition.Reach RunQueue.Step Transition.Unguarded RunQueue.boot
          (l.view queue) := Transition.reach_of_follow (fun _ _ _ hnext => hnext) hfollow
      have hfair : Fair (l.view queue) := hreach.invariant RunQueue.fair_boot
        fun _ _ _ hfair _ hstep => (RunQueue.fair_step hfair hstep).1
      exact .inr ⟨l, queue, hl, rfl, hholds, hfair.queue.sorted, hfair.queue.flagged⟩

/-- Two processes are pushed, and the list holds the one with the lesser pid first. -/
theorem run_boot_two : ∃ l, run 5 [.create 7, .push 7, .create 3, .push 3]
      (boot ⟨fun _ => none, fun _ => none⟩) = some (.ok l) ∧
    Holds l.links runQueue [.schedElem 3, .schedElem 7] := by
  have hqueue : (Transition.follow RunQueue.next [.create 7, .push 7, .create 3, .push 3]
      RunQueue.boot).map (·.runQueue) = some [3, 7] := by decide +kernel
  obtain ⟨-, hnone⟩ | ⟨l, queue, hrun, hfollow, hholds, -⟩ := @run_boot 5
    ⟨fun _ => none, fun _ => none⟩ [.create 7, .push 7, .create 3, .push 3] (by decide)
  · rw [hnone] at hqueue
    cases hqueue
  · rw [hfollow] at hqueue
    obtain rfl : queue = [3, 7] := Option.some.inj hqueue
    exact ⟨l, hrun, hholds⟩

end Steps

end Painting.QueueLinks
