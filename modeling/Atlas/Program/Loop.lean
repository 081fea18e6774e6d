import Mathlib.Data.List.Basic

/-! A loop goes on while its state exceeds a limit and a unit can still be dropped. The
number of droppable units bounds its rounds. -/
namespace Atlas.Program

section
variable {State : Type} {exceeds : State → Bool} {drop : State → Option State} {fuel : Nat}
  {state : State}

def dropWhileOver (exceeds : State → Bool) (drop : State → Option State) : Nat → State → State
  | 0, state => state
  | fuel + 1, state =>
    if exceeds state then
      match drop state with
      | none => state
      | some next => dropWhileOver exceeds drop fuel next
    else state

theorem dropWhileOver_invariant {holds : State → Prop}
    (keeps : ∀ state next, holds state → drop state = some next → holds next)
    (start : holds state) : holds (dropWhileOver exceeds drop fuel state) := by
  induction fuel generalizing state with
  | zero => exact start
  | succ fuel ih =>
    unfold dropWhileOver
    split
    · cases dropped : drop state with
      | none => exact start
      | some next => exact ih (keeps state next start dropped)
    · exact start

theorem dropWhileOver_done {units : State → Nat} (decreases : ∀ state next, drop state = some next →
    units next < units state) (enough : units state ≤ fuel) :
    exceeds (dropWhileOver exceeds drop fuel state) = false ∨ drop (dropWhileOver exceeds drop fuel state) = none := by
  induction fuel generalizing state with
  | zero =>
    cases dropped : drop state with
    | none => exact .inr dropped
    | some next =>
      have less := decreases state next dropped
      omega
  | succ fuel ih =>
    unfold dropWhileOver
    split
    · cases dropped : drop state with
      | none => exact .inr dropped
      | some next =>
        have less := decreases state next dropped
        have left : units next ≤ fuel := by omega
        exact ih left
    · rename_i within
      exact .inl (Bool.not_eq_true _ ▸ within)

end
end Atlas.Program
