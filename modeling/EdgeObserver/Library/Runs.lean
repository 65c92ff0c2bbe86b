import Mathlib

/-!
# Runs

A machine that takes one event at a time, answers it, and goes on from the
state it reached. Threads that share a lock are one such machine: the events
are the critical sections in the order the lock was taken.
-/

set_option autoImplicit false

namespace EdgeObserver.Library

variable {State Event Answer : Type}

def run (step : State → Event → Answer × State) (state : State) : List Event → List Answer × State
  | [] => ([], state)
  | event :: events =>
    ((step state event).1 :: (run step (step state event).2 events).1, (run step (step state event).2 events).2)

variable {step : State → Event → Answer × State}

@[simp] theorem run_nil (state : State) : run step state [] = ([], state) := rfl

@[simp] theorem run_cons (state : State) (event : Event) (events : List Event) :
    run step state (event :: events) =
      ((step state event).1 :: (run step (step state event).2 events).1,
        (run step (step state event).2 events).2) := rfl

variable {state : State} {allowed : State → Event → Prop}

theorem run_answers (step : State → Event → Answer × State) (Inv : State → Prop) {Tells : Answer → Prop}
    (keeps : ∀ state event, Inv state → Inv (step state event).2)
    (tells : ∀ state event, Inv state → Tells (step state event).1) (holds : Inv state) (events : List Event) :
    ∀ answer ∈ (run step state events).1, Tells answer := by
  induction events generalizing state with
  | nil => intro answer member; cases member
  | cons event events ih =>
    intro answer member
    rcases List.mem_cons.mp member with first | later
    · exact first ▸ tells state event holds
    · exact ih (keeps state event holds) answer later

def Along (step : State → Event → Answer × State) (allowed : State → Event → Prop) (state : State) : List Event → Prop
  | [] => True
  | event :: events => allowed state event ∧ Along step allowed (step state event).2 events

instance decidableAlong (allowed : State → Event → Prop) [∀ state event, Decidable (allowed state event)]
    (state : State) (events : List Event) : Decidable (Along step allowed state events) :=
  match events with
  | [] => inferInstanceAs (Decidable True)
  | event :: events =>
    have : Decidable (Along step allowed (step state event).2 events) :=
      decidableAlong allowed (step state event).2 events
    inferInstanceAs (Decidable (_ ∧ _))

theorem along_of_always (always : ∀ state event, allowed state event) (state : State) (events : List Event) :
    Along step allowed state events := by
  induction events generalizing state with
  | nil => trivial
  | cons event events ih => exact ⟨always state event, ih _⟩

theorem along_keeps (step : State → Event → Answer × State) (Inv : State → Prop)
    (keeps : ∀ state event, Inv state → allowed state event → Inv (step state event).2) (holds : Inv state)
    {events : List Event} (along : Along step allowed state events) : Inv (run step state events).2 := by
  induction events generalizing state with
  | nil => exact holds
  | cons event events ih => exact ih (keeps state event holds along.1) along.2

theorem run_keeps (step : State → Event → Answer × State) (Inv : State → Prop)
    (keeps : ∀ state event, Inv state → Inv (step state event).2) (holds : Inv state) (events : List Event) :
    Inv (run step state events).2 :=
  along_keeps step Inv (fun state event holds _ => keeps state event holds) holds
    (along_of_always (fun _ _ => trivial) state events)

end EdgeObserver.Library
