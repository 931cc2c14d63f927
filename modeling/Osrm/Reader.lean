import Mathlib.Tactic

/-!
Machines that read one input after the other until they have a result, and what they make of pieces of the input that
arrive one by one.
-/
namespace Osrm.Reader
open List
variable {State Input Result : Type} [DecidableEq Result] (step : State → Input → Result × State) (pending : Result)

def run (state : State) : List Input → Result × State
  | [] => (pending,state)
  | input :: inputs => if (step state input).1 = pending then run (step state input).2 inputs else step state input
def feed (state : State) : List (List Input) → Result × State
  | [] => (pending,state)
  | piece :: pieces =>
    if (run step pending state piece).1 = pending then feed (run step pending state piece).2 pieces else run step pending state piece

def Reads (state : State) (inputs : List Input) (next : State) : Prop := run step pending state inputs = (pending,next)

variable {step : State → Input → Result × State} {pending : Result} {state next last : State} {input : Input}
  {inputs before after : List Input}

private theorem run_append : run step pending state (before ++ after) =
    if (run step pending state before).1 = pending then run step pending (run step pending state before).2 after
    else run step pending state before := by
  induction before generalizing state with
  | nil => exact (if_pos rfl).symm
  | cons input before ih =>
    rw [cons_append,run,run]
    by_cases open_result : (step state input).1 = pending
    · rw [if_pos open_result,if_pos open_result,ih]
    · rw [if_neg open_result,if_neg open_result,if_neg open_result]

theorem feed_eq_run (pieces : List (List Input)) : feed step pending state pieces = run step pending state pieces.flatten := by
  induction pieces generalizing state with
  | nil => rfl
  | cons piece pieces ih => rw [feed,flatten_cons,run_append,ih]

namespace Reads

private theorem nil : Reads step pending state [] state := rfl

theorem cons (here : step state input = (pending,next)) (rest : Reads step pending next inputs last) :
    Reads step pending state (input :: inputs) last := by
  rw [Reads,run,here,if_pos rfl]
  exact rest

theorem single (here : step state input = (pending,next)) : Reads step pending state [input] next := cons here nil

theorem run_append (first : Reads step pending state before next) :
    run step pending state (before ++ after) = run step pending next after := by
  rw [Reader.run_append,first,if_pos rfl]

theorem append (first : Reads step pending state before next) (rest : Reads step pending next after last) :
    Reads step pending state (before ++ after) last := by
  rw [Reads,first.run_append]
  exact rest

theorem collect (state_of : List Input → State) (keep : Input → Bool) (collected inputs : List Input)
    (each : ∀ collected, ∀ input ∈ inputs,
      step (state_of collected) input = (pending,state_of (collected ++ if keep input then [input] else []))) :
    Reads step pending (state_of collected) inputs (state_of (collected ++ inputs.filter keep)) := by
  induction inputs generalizing collected with
  | nil =>
    rw [filter_nil,append_nil]
    exact nil
  | cons input inputs ih =>
    refine cons (each collected input mem_cons_self) ?_
    rw [filter_cons]
    split_ifs with kept
    · rw [append_cons collected input (inputs.filter keep)]
      exact ih _ fun collected other later => each collected other (mem_cons_of_mem _ later)
    · rw [append_nil]
      exact ih _ fun collected other later => each collected other (mem_cons_of_mem _ later)

theorem skip (each : ∀ input ∈ inputs, step state input = (pending,state)) : Reads step pending state inputs state := by
  induction inputs with
  | nil => exact nil
  | cons input inputs ih =>
    exact cons (each input mem_cons_self) (ih fun other later => each other (mem_cons_of_mem _ later))

end Reads

end Osrm.Reader
