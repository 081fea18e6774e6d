import Mathlib.Data.Finset.Card

/-! Strongly connected components by depth-first search with low links. What a finished
component adds to the result is a parameter. -/
namespace Atlas.Program.Tarjan

/-- The stack has its top first; the maps and the set are functions. -/
structure State (Node : Type) where
  index : Nat := 0
  stack : List Node := []
  onStack : Node → Bool := fun _ => false
  indices : Node → Option Nat := fun _ => none
  lowlink : Node → Option Nat := fun _ => none
  components : List (List Node) := []

section
variable {Node : Type} [DecidableEq Node]

def enter (node : Node) (state : State Node) : State Node where
  index := state.index + 1
  stack := node :: state.stack
  onStack := Function.update state.onStack node true
  indices := Function.update state.indices node (some state.index)
  lowlink := Function.update state.lowlink node (some state.index)
  components := state.components

def lower (node : Node) (bound : Nat) (state : State Node) : Option (State Node) := do
  let low ← state.lowlink node
  some { state with lowlink := Function.update state.lowlink node (some (min low bound)) }

def visit (connect : Node → State Node → Option (State Node))
    (node : Node) (state : State Node) (neighbor : Node) : Option (State Node) :=
  match state.indices neighbor with
  | none => do
      let returned ← connect neighbor state
      let low ← returned.lowlink neighbor
      lower node low returned
  | some index => if state.onStack neighbor then lower node index state else some state

def popThrough (node : Node) : List Node → List Node × List Node
  | [] => ([], [])
  | item :: rest =>
    if item = node then ([item], rest)
    else (item :: (popThrough node rest).1, (popThrough node rest).2)

variable (emit : Node → List Node → List (List Node))

def leave (node : Node) (state : State Node) : Option (State Node) := do
  let low ← state.lowlink node
  let index ← state.indices node
  if low = index then
    let popped := popThrough node state.stack
    some { state with
      stack := popped.2
      onStack := fun other => state.onStack other && decide (other ∉ popped.1)
      components := state.components ++ emit node popped.1 }
  else some state

variable (next : Node → List Node)

/-- No result stands for a missing map entry, or for a recursion deeper than the fuel. -/
def strongConnect : Nat → Node → State Node → Option (State Node)
  | 0, _, _ => none
  | fuel + 1, node, state => do
      let scanned ← (next node).foldlM (visit (strongConnect fuel) node) (enter node state)
      leave emit node scanned

def connectAll (fuel : Nat) (nodes : List Node) (state : State Node) : Option (State Node) :=
  nodes.foldlM (fun current node =>
    match current.indices node with
    | none => strongConnect emit next fuel node current
    | some _ => some current) state

end

section
variable {Node : Type} (next : Node → List Node)

def Reaches : Node → Node → Prop := Relation.ReflTransGen fun node neighbor => neighbor ∈ next node
def IsComponent (root : Node) (members : List Node) : Prop :=
  ∀ node, node ∈ members ↔ Reaches next root node ∧ Reaches next node root

theorem Reaches.closed {next : Node → List Node} {inside : Node → Prop}
    (stays : ∀ node, inside node → ∀ neighbor ∈ next node, inside neighbor) {source target : Node}
    (reaches : Reaches next source target) (starts : inside source) : inside target := by
  induction reaches with
  | refl => exact starts
  | tail _ edge ih => exact stays _ ih _ edge

end

section
variable {Node : Type}
  (emit : Node → List Node → List (List Node)) (next : Node → List Node) (nodes : Finset Node)

def Visited (state : State Node) (node : Node) : Prop := (state.indices node).isSome = true
def rank (state : State Node) (node : Node) : Nat := (state.indices node).getD 0

structure Collected (state : State Node) (pops : List (Node × List Node)) : Prop where
  components : state.components = pops.flatMap fun pop => emit pop.1 pop.2
  complete : ∀ pop ∈ pops, IsComponent next pop.1 pop.2
  rooted : ∀ pop ∈ pops, pop.1 ∈ pop.2
  distinct : (pops.flatMap Prod.snd).Nodup
  members : ∀ node, node ∈ pops.flatMap Prod.snd ↔ Visited state node ∧ node ∉ state.stack

/-- The state while the calls of some nodes are open. No edge of a closed node leads to a
new one, no edge of a popped node back to the stack; up the stack nodes reach each other, and
every node of it reaches an open one below. -/
structure Valid (openNodes : List Node) (state : State Node) : Prop where
  numbered : ∀ node, Visited state node → rank state node < state.index ∧ node ∈ nodes
  stacked : ∀ node ∈ state.stack, Visited state node
  descending : state.stack.Pairwise fun upper lower => rank state lower < rank state upper
  marked : ∀ node, state.onStack node = true ↔ node ∈ state.stack
  pending : ∀ node ∈ openNodes, node ∈ state.stack
  seen : ∀ node, Visited state node → node ∉ openNodes → ∀ neighbor ∈ next node, Visited state neighbor
  settled : ∀ node, Visited state node → node ∉ state.stack → ∀ neighbor ∈ next node, neighbor ∉ state.stack
  upward : state.stack.Pairwise fun upper lower => Reaches next lower upper
  downward : ∀ node ∈ state.stack, ∃ opened ∈ openNodes, rank state opened ≤ rank state node ∧ Reaches next node opened
  collected : ∃ pops, Collected emit next state pops

def Extends (before after : State Node) : Prop := ∀ node, Visited before node →
    after.indices node = before.indices node ∧ after.lowlink node = before.lowlink node

structure Connected (openNodes : List Node) (node : Node) (before after : State Node) : Prop where
  valid : Valid emit next nodes openNodes after
  kept : Extends before after
  visited : Visited after node
  result : ∃ fresh low, after.stack = fresh ++ before.stack ∧
    after.lowlink node = some low ∧ (before.index ≤ low ∨ ∃ target ∈ after.stack,
    rank after target = low ∧ Reaches next node target) ∧
    ∀ source ∈ fresh, ∀ target ∈ next source, target ∈ before.stack → low ≤ rank after target

structure Scanning (openNodes : List Node)
    (node : Node) (before : State Node) (done : List Node) (after : State Node) : Prop where
  valid : Valid emit next nodes (node :: openNodes) after
  kept : Extends before after
  entered : ¬ Visited before node
  own : after.indices node = some before.index
  result : ∃ fresh low, after.stack = fresh ++ node :: before.stack ∧ after.lowlink node = some low ∧
    low ≤ before.index ∧ (∃ target ∈ after.stack, rank after target = low ∧ Reaches next node target) ∧
    (∀ source ∈ fresh, ∀ target ∈ next source, target ∈ before.stack → low ≤ rank after target) ∧
    ∀ target ∈ done, Visited after target ∧ (target ∈ before.stack → low ≤ rank after target)

end
end Atlas.Program.Tarjan
