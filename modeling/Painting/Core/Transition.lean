import Mathlib

/-!
# Guarded runs of a labelled transition system

A run is a sequence of labelled steps from a start state.  The guard restricts
which labels may be taken in which state, so one notion covers both all runs
of a machine and the runs that avoid a given branch.
-/

namespace Painting.Transition

variable {State Action : Type*}

/-- States reached from `start` by steps that the guard allows. -/
inductive Reach (step : State → Action → State → Prop)
    (guard : State → Action → Prop) (start : State) : State → Prop
  | refl : Reach step guard start start
  | tail {before after : State} {action : Action} :
      Reach step guard start before → guard before action →
      step before action after → Reach step guard start after

/-- The guard that allows every step. -/
def Unguarded : State → Action → Prop := fun _ _ => True

/-- A property that holds at the start and that every allowed step keeps holds
along every run. -/
theorem Reach.invariant {step : State → Action → State → Prop}
    {guard : State → Action → Prop} {start state : State} {Inv : State → Prop}
    (hreach : Reach step guard start state) (hstart : Inv start)
    (hstep : ∀ before action after, Inv before → guard before action →
      step before action after → Inv after) : Inv state := by
  induction hreach with
  | refl => exact hstart
  | tail _ hguard hnext ih => exact hstep _ _ _ ih hguard hnext

/-- Follow a list of actions through a deterministic step function. -/
def follow (next : State → Action → Option State) : List Action → State → Option State
  | [], state => some state
  | action :: actions, state => (next state action).bind (follow next actions)

/-- A followed list of actions is a run of the machine, and within the guard when the step
function is. -/
theorem reach_of_guarded {step : State → Action → State → Prop} {guard : State → Action → Prop}
    {next : State → Action → Option State}
    (hnext : ∀ before action after, next before action = some after →
      guard before action ∧ step before action after)
    {actions : List Action} {start state : State}
    (hfollow : follow next actions start = some state) : Reach step guard start state := by
  suffices hgeneral : ∀ middle, Reach step guard start middle →
      follow next actions middle = some state → Reach step guard start state from
    hgeneral start .refl hfollow
  clear hfollow
  induction actions with
  | nil =>
      intro middle hreach hfollow
      simp only [follow, Option.some.injEq] at hfollow
      exact hfollow ▸ hreach
  | cons action actions ih =>
      intro middle hreach hfollow
      rw [follow, Option.bind_eq_some_iff] at hfollow
      obtain ⟨after, hafter, hrest⟩ := hfollow
      obtain ⟨hguard, hstep⟩ := hnext _ _ _ hafter
      exact ih after (hreach.tail hguard hstep) hrest

theorem reach_of_follow {step : State → Action → State → Prop}
    {next : State → Action → Option State}
    (hnext : ∀ before action after, next before action = some after →
      step before action after)
    {actions : List Action} {start state : State}
    (hfollow : follow next actions start = some state) :
    Reach step Unguarded start state :=
  @reach_of_guarded _ _ step Unguarded next
    (fun before action after hafter => ⟨trivial, hnext before action after hafter⟩) _ _ _ hfollow

end Painting.Transition
