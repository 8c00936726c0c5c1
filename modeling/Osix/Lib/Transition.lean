/-!
# Transition systems

A transition system is a partial step function on states and actions. `Reach step ok`
collects the states of all runs every step of which satisfies the condition `ok`; with
the condition that always holds these are the reachable states.

`Reach.invariant` is the induction that all safety theorems use. `run` performs a given
list of actions, so that a concrete run can be computed.
-/

namespace Transition

universe u v

variable {State : Type u} {Act : Type v}

/-- The condition that every step meets. -/
def Always (_ : State) (_ : Act) : Prop := True

/-- The states of the runs from `start` in which every step satisfies `ok`. -/
inductive Reach (step : State → Act → Option State) (ok : State → Act → Prop) (start : State) :
    State → Prop where
  | start : Reach step ok start start
  | next {state state' : State} {act : Act} : Reach step ok start state → ok state act →
      step state act = some state' → Reach step ok start state'

variable {step : State → Act → Option State} {ok : State → Act → Prop} {start state : State}

theorem Reach.invariant {inv : State → Prop} (reach : Reach step ok start state)
    (init : inv start)
    (preserved : ∀ {state state' act}, inv state → ok state act →
      step state act = some state' → inv state') : inv state := by
  induction reach with
  | start => exact init
  | next _ allowed stepped ih => exact preserved ih allowed stepped

theorem Reach.mono {ok' : State → Act → Prop} (reach : Reach step ok start state)
    (weaker : ∀ state act, ok state act → ok' state act) : Reach step ok' start state := by
  induction reach with
  | start => exact .start
  | next _ allowed stepped ih => exact ih.next (weaker _ _ allowed) stepped

/-- Performs a list of actions. -/
def run (step : State → Act → Option State) : State → List Act → Option State
  | state, [] => some state
  | state, act :: acts => (step state act).bind (run step · acts)

theorem reach_of_run {acts : List Act} {state' : State} (reach : Reach step Always start state)
    (done : run step state acts = some state') : Reach step Always start state' := by
  induction acts generalizing state with
  | nil =>
      cases done
      exact reach
  | cons act acts ih =>
      rw [run, Option.bind_eq_some_iff] at done
      rcases done with ⟨middle, stepped, rest⟩
      exact ih (reach.next trivial stepped) rest

/-- What can be observed at the end of a computed run is true of a reachable state. -/
theorem reach_of_observed {acts : List Act} {check : State → Bool}
    (observed : (run step start acts).any check = true) :
    ∃ state, Reach step Always start state ∧ check state = true := by
  rw [Option.any_eq_true] at observed
  rcases observed with ⟨state, done, checked⟩
  exact ⟨state, reach_of_run .start done, checked⟩

/-- A decidable form of the condition along a computed run. -/
def runChecked (step : State → Act → Option State) (check : State → Act → Bool) :
    State → List Act → Option State
  | state, [] => some state
  | state, act :: acts =>
      if check state act then (step state act).bind (runChecked step check · acts) else none

theorem reach_of_runChecked {check : State → Act → Bool} {acts : List Act} {state' : State}
    (sound : ∀ state act, check state act = true → ok state act)
    (reach : Reach step ok start state)
    (done : runChecked step check state acts = some state') : Reach step ok start state' := by
  induction acts generalizing state with
  | nil =>
      cases done
      exact reach
  | cons act acts ih =>
      rw [runChecked] at done
      split at done
      · rename_i checked
        rw [Option.bind_eq_some_iff] at done
        rcases done with ⟨middle, stepped, rest⟩
        exact ih (reach.next (sound _ _ checked) stepped) rest
      · cases done

theorem reach_of_observedChecked {allowed : State → Act → Bool} {acts : List Act}
    {check : State → Bool} (sound : ∀ state act, allowed state act = true → ok state act)
    (observed : (runChecked step allowed start acts).any check = true) :
    ∃ state, Reach step ok start state ∧ check state = true := by
  rw [Option.any_eq_true] at observed
  rcases observed with ⟨state, done, checked⟩
  exact ⟨state, reach_of_runChecked sound .start done, checked⟩

end Transition
