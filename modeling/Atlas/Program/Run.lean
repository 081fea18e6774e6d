import Mathlib.Data.List.Basic

/-! Programs over a state that may stop with a message. What a program wrote before it
stopped stays written, so the outcome carries a state in both cases. -/
namespace Atlas.Program
open List

def Run (State Value : Type) : Type := State → Except String Value × State

namespace Run

variable {State : Type}

instance : Monad (Run State) where
  pure value := fun state => (.ok value, state)
  bind run next := fun state =>
    match run state with
    | (.ok value, reached) => next value reached
    | (.error message, reached) => (.error message, reached)

def get : Run State State := fun state => (.ok state, state)
def modify (change : State → State) : Run State Unit := fun state => (.ok (), change state)
def ofExcept {Value : Type} (outcome : Except String Value) : Run State Value :=
  fun state => (outcome, state)
def attempt {Value : Type} (run : Run State Value) :
    Run State (Except String Value) := fun state => (.ok (run state).1, (run state).2)

def withContext {Value : Type} (context : String) (run : Run State Value) : Run State Value :=
  fun state =>
    match run state with
    | (.ok value, reached) => (.ok value, reached)
    | (.error message, reached) => (.error (context ++ ": " ++ message), reached)

def whenNot (skipped : Bool) (run : Run State Unit) : Run State Unit :=
  if skipped then pure () else run

def forEach {Item : Type} (body : Item → Run State Unit) : List Item → Run State Unit
  | [] => pure ()
  | item :: rest => do
      body item
      forEach body rest

section
variable {Value Next Item : Type} {run : Run State Value} {next : Value → Run State Next}
  {body : Item → Run State Unit} {item : Item} {rest : List Item} {state reached : State}

theorem bind_ok {value : Value} (ran : run state = (.ok value, reached)) :
    (run >>= next) state = next value reached := by
  change (match run state with
    | (.ok value, reached) => next value reached
    | (.error message, reached) => (.error message, reached)) = _
  rw [ran]

variable {message : String} {value : Next}

theorem bind_error (ran : run state = (.error message, reached)) :
    (run >>= next) state = (.error message, reached) := by
  change (match run state with
    | (.ok value, reached) => next value reached
    | (.error message, reached) => (.error message, reached)) = _
  rw [ran]

theorem bind_eq_ok (ran : (run >>= next) state = (.ok value, reached)) :
    ∃ first middle, run state = (.ok first, middle) ∧ next first middle = (.ok value, reached) := by
  cases part : run state with
  | mk outcome middle =>
    cases outcome with
    | ok first => exact ⟨first, middle, rfl, (bind_ok part).symm.trans ran⟩
    | error message =>
      have failed := (bind_error part).symm.trans ran
      cases failed

theorem get_bind {next : State → Run State Next} : (get >>= next) state = next state state := rfl

theorem ofExcept_bind_eq_ok {outcome : Except String Value}
    (ran : (ofExcept outcome >>= next) state = (.ok value, reached)) :
    ∃ first, outcome = .ok first ∧ next first state = (.ok value, reached) := by
  cases outcome with
  | ok first => exact ⟨first, rfl, ran⟩
  | error message => cases ran

theorem forEach_cons_ok (ran : body item state = (.ok (), reached)) :
    forEach body (item :: rest) state = forEach body rest reached := bind_ok ran
theorem forEach_cons_error (ran : body item state = (.error message, reached)) :
    forEach body (item :: rest) state = (.error message, reached) := bind_error ran

end

/-- The run from a state ends with a value and a state that satisfy `After`, or fails in
a state that satisfies `Failed`. -/
def Meets {Value : Type} (run : Run State Value)
    (state : State) (After : Value → State → Prop) (Failed : State → Prop) : Prop :=
  match run state with
  | (.ok value, reached) => After value reached
  | (.error _, reached) => Failed reached

section
variable {Value Next : Type} {state : State} {After : Value → State → Prop} {Failed : State → Prop}
  {run : Run State Value} {value : Value} {Then : Value → State → Prop}

theorem Meets.of_ok {reached : State} (meets : run.Meets state After Failed)
    (ran : run state = (.ok value, reached)) : After value reached := by
  unfold Meets at meets
  rw [ran] at meets
  exact meets

theorem Meets.pure (holds : After value state) :
    (Pure.pure value : Run State Value).Meets state After Failed := holds

theorem Meets.bind {next : Value → Run State Next}
    {Finally : Next → State → Prop}
    (meets : run.Meets state (fun value reached => (next value).Meets reached Finally Failed) Failed) :
    (run >>= next).Meets state Finally Failed := by
  unfold Meets at meets ⊢
  change (match (match run state with
    | (.ok value, reached) => next value reached
    | (.error message, reached) => (.error message, reached)) with
    | (.ok value, reached) => Finally value reached
    | (.error _, reached) => Failed reached)
  cases ran : run state with
  | mk outcome reached =>
    rw [ran] at meets
    cases outcome with
    | ok value | error message => exact meets

theorem Meets.get {After : State → State → Prop} (holds : After state state) :
    (Run.get : Run State State).Meets state After Failed := holds
theorem Meets.modify {change : State → State} {After : Unit → State → Prop}
    (holds : After () (change state)) : (Run.modify change).Meets state After Failed := holds

theorem Meets.ofExcept {outcome : Except String Value} (holds : ∀ value, outcome = .ok value →
    After value state) (failed : ∀ message, outcome = .error message → Failed state) :
    (Run.ofExcept outcome).Meets state After Failed := by
  cases outcome with
  | ok value => exact holds value rfl
  | error message => exact failed message rfl

theorem Meets.attempt {After : Except String Value → State → Prop} (meets : run.Meets state
    (fun value => After (.ok value)) (fun reached => ∀ message, After (.error message) reached)) :
    run.attempt.Meets state After Failed := by
  unfold Meets Run.attempt at *
  cases ran : run state with
  | mk outcome reached =>
    rw [ran] at meets
    cases outcome with
    | ok value => exact meets
    | error message => exact meets message

theorem Meets.withContext {context : String} (meets : run.Meets state After Failed) :
    (run.withContext context).Meets state After Failed := by
  unfold Meets Run.withContext at *
  cases ran : run state with
  | mk outcome reached =>
    rw [ran] at meets
    cases outcome with
    | ok value | error message => exact meets

theorem Meets.imp {Else : State → Prop} (meets : run.Meets state After Failed)
    (after : ∀ value reached, After value reached → Then value reached)
    (failed : ∀ reached, Failed reached → Else reached) : run.Meets state Then Else := by
  unfold Meets at *
  cases ran : run state with
  | mk outcome reached =>
    rw [ran] at meets
    cases outcome with
    | ok value => exact after value reached meets
    | error message => exact failed reached meets

theorem Meets.mono (meets : run.Meets state After Failed)
    (after : ∀ value reached, After value reached → Then value reached) :
    run.Meets state Then Failed := meets.imp after fun _ failed => failed

theorem Meets.and {Also : Value → State → Prop} {AlsoFailed : State → Prop}
    (left : run.Meets state After Failed) (right : run.Meets state Also AlsoFailed) :
    run.Meets state (fun value reached => After value reached ∧ Also value reached)
      (fun reached => Failed reached ∧ AlsoFailed reached) := by
  unfold Meets at *
  cases ran : run state with
  | mk outcome reached =>
    rw [ran] at left right
    cases outcome with
    | ok value | error message => exact ⟨left, right⟩

theorem Meets.reached {Holds : State → Prop} (meets : run.Meets state (fun _ => Holds) Holds) :
    Holds (run state).2 := by
  unfold Meets at meets
  cases ran : run state with
  | mk outcome reached =>
    rw [ran] at meets
    cases outcome with
    | ok value | error message => exact meets

theorem Meets.forEach {Item : Type} {body : Item → Run State Unit}
    (Invariant : List Item → State → Prop) (items done : List Item) (holds : Invariant done state)
    (step : ∀ before item after reached, done ++ items = before ++ item :: after → Invariant before
      reached → (body item).Meets reached (fun _ => Invariant (before ++ [item])) Failed) :
    (Run.forEach body items).Meets state (fun _ => Invariant (done ++ items)) Failed := by
  induction items generalizing done state with
  | nil =>
    rw [append_nil]
    exact holds
  | cons item rest ih =>
    refine Meets.bind ((step done item rest state rfl holds).mono ?_)
    intro _ reached next
    have later := ih (done ++ [item]) next (by
      intro before other after between split
      exact step before other after between (by rw [← split, append_assoc, singleton_append]))
    rwa [append_assoc, singleton_append] at later

end
end Run

end Atlas.Program
