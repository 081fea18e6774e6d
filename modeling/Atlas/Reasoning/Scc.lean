import Atlas.Program.ComponentLists
import Atlas.Program.SortedMap
import Mathlib.Data.String.Basic

/-! Strongly connected components of a string adjacency map, shared by the cycle analyses. -/
namespace Atlas.Reasoning
open List Program

abbrev Adjacency := SortedMap String (List String)

def neighbors (adjacency : Adjacency) (node : String) : List String := (adjacency.get? node).getD []
def nodesOf (adjacency : Adjacency) : List String :=
  adjacency.keys ++ adjacency.entries.flatMap Prod.snd
def sorted (component : List String) : List String := component.insertionSort (· ≤ ·)

def firstLe (left right : List String) : Prop :=
  match left.head?, right.head? with
  | none, _ => True
  | some _, none => False
  | some first, some other => first ≤ other

instance : DecidableRel firstLe := by
  intro left right
  unfold firstLe
  split <;> infer_instance

def stronglyConnectedComponents (adjacency : Adjacency) : Option (List (List String)) :=
  (Tarjan.connectAll (fun _ component => [sorted component]) (neighbors adjacency)
    (nodesOf adjacency).length adjacency.keys {}).map fun state => state.components.insertionSort firstLe

example :
    stronglyConnectedComponents ⟨[("a", ["b", "d"]), ("b", ["a"]), ("c", ["c", "a"])], by decide⟩ =
      some [["a", "b"], ["c"], ["d"]] := by
  decide +kernel

/-- The strongly connected components: they part the nodes, two nodes share one exactly when
each reaches the other, and all is in ascending order. -/
structure Components (adjacency : Adjacency) (components : List (List String)) : Prop where
  nodup : components.flatten.Nodup
  nodes : ∀ node, node ∈ components.flatten ↔ node ∈ nodesOf adjacency
  connected : ∀ left ∈ nodesOf adjacency, ∀ right, (∃ component ∈ components, left ∈ component ∧ right ∈ component) ↔
      Tarjan.Reaches (neighbors adjacency) left right ∧ Tarjan.Reaches (neighbors adjacency) right left
  nonempty : ∀ component ∈ components, component ≠ []
  membersAscending : ∀ component ∈ components, component.Pairwise (· < ·)
  ascending : components.Pairwise fun left right => ∃ first ∈ left.head?, ∃ other ∈ right.head?, first < other

section
variable {adjacency : Adjacency} {node neighbor : String}

theorem mem_nodesOf_iff : node ∈ nodesOf adjacency ↔
    node ∈ adjacency.keys ∨ ∃ source ∈ adjacency.keys, node ∈ neighbors adjacency source := by
  unfold nodesOf
  rw [mem_append, mem_flatMap]
  refine or_congr_right ?_
  constructor
  · rintro ⟨⟨source, targets⟩, mem, isTarget⟩
    have found : adjacency.get? source = some targets := SortedMap.get?_eq_some_iff.mpr mem
    refine ⟨source, SortedMap.mem_keys_iff.mpr ⟨targets, found⟩, ?_⟩
    rw [neighbors, found]
    exact isTarget
  · rintro ⟨source, isKey, isTarget⟩
    obtain ⟨targets, found⟩ := SortedMap.mem_keys_iff.mp isKey
    rw [neighbors, found] at isTarget
    exact ⟨(source, targets), SortedMap.get?_eq_some_iff.mp found, isTarget⟩

theorem key_of_neighbor (edge : neighbor ∈ neighbors adjacency node) : node ∈ adjacency.keys := by
  unfold neighbors at edge
  cases found : adjacency.get? node with
  | none =>
    rw [found] at edge
    cases edge
  | some targets => exact SortedMap.mem_keys_iff.mpr ⟨targets, found⟩

theorem neighbors_closed :
    ∀ node ∈ (nodesOf adjacency).toFinset, ∀ neighbor ∈ neighbors adjacency node,
      neighbor ∈ (nodesOf adjacency).toFinset := by
  intro node _ neighbor edge
  rw [mem_toFinset, mem_nodesOf_iff]
  exact .inr ⟨node, key_of_neighbor edge, edge⟩

instance : IsTrans (List String) firstLe where
  trans left middle right := by
    unfold firstLe
    cases left.head? with
    | none => simp
    | some first =>
      cases middle.head? with
      | none => simp
      | some second =>
        cases right.head? with
        | none => simp
        | some third => exact le_trans

instance : Std.Total firstLe where
  total left right := by
    unfold firstLe
    cases left.head? with
    | none => simp
    | some first =>
      cases right.head? with
      | none => simp
      | some second => exact le_total first second

theorem stronglyConnectedComponents_lists (adjacency : Adjacency) :
    ∃ components, stronglyConnectedComponents adjacency = some components ∧
      Tarjan.Lists (neighbors adjacency) (nodesOf adjacency).toFinset (fun _ => true) components ∧
      components.Pairwise firstLe := by
  obtain ⟨after, ran, lists⟩ :=
    @Tarjan.connectAll_lists String _ (fun _ component => [sorted component]) (neighbors adjacency)
      (nodesOf adjacency).toFinset (fun _ => true) neighbors_closed
    (nodesOf adjacency).length (toFinset_card_le _) adjacency.keys
    (fun root isKey => mem_toFinset.mpr (mem_nodesOf_iff.mpr (.inl isKey)))
    (fun node inside => mem_nodesOf_iff.mp (mem_toFinset.mp inside))
    (fun _ _ _ _ => rfl)
  have perm := perm_insertionSort firstLe after.components
  refine ⟨after.components.insertionSort firstLe, ?_, ⟨?_, ?_, lists.covers⟩, pairwise_insertionSort firstLe _⟩
  · unfold stronglyConnectedComponents
    rw [ran]
    rfl
  · intro component
    rw [perm.mem_iff]
    exact lists.mem_iff component
  · exact perm.nodup_iff.mpr lists.distinct

theorem mem_nodes_of_reaches {left right : String} (inside : left ∈ nodesOf adjacency)
    (reaches : Tarjan.Reaches (neighbors adjacency) left right) : right ∈ nodesOf adjacency :=
  mem_toFinset.mp (reaches.closed neighbors_closed (mem_toFinset.mpr inside))

theorem first_lt {left right : List String} (before : firstLe left right)
    (leftNonempty : left ≠ []) (rightNonempty : right ≠ []) (disjoint : left.Disjoint right) :
    ∃ first ∈ left.head?, ∃ other ∈ right.head?, first < other := by
  cases left with
  | nil => exact absurd rfl leftNonempty
  | cons first rest =>
    cases right with
    | nil => exact absurd rfl rightNonempty
    | cons other others =>
      refine ⟨first, rfl, other, rfl, lt_of_le_of_ne before ?_⟩
      rintro rfl
      exact disjoint (.head _) (.head _)

theorem components_of_lists {components : List (List String)} (lists :
    Tarjan.Lists (neighbors adjacency) (nodesOf adjacency).toFinset (fun _ => true) components)
    (ordered : components.Pairwise firstLe) : Components adjacency components := by
  have listed : ∀ component, component ∈ components ↔
    Tarjan.IsSortedComponent (neighbors adjacency) (nodesOf adjacency).toFinset component := by
    intro component
    rw [lists.mem_iff]
    simp
  have covers : ∀ node ∈ nodesOf adjacency, ∃ component ∈ components, node ∈ component ∧
    Tarjan.IsComponent (neighbors adjacency) node component := by
    intro node inside
    obtain ⟨component, mem, isComponent⟩ := lists.covers node (mem_toFinset.mpr inside)
    obtain ⟨_, _, _, _, complete⟩ := id isComponent
    exact ⟨component, (listed component).mpr isComponent, mem, complete.of_mem mem⟩
  have nonempty : ∀ component ∈ components, component ≠ [] := by
    rintro component mem rfl
    obtain ⟨_, _, _, rooted, _⟩ := (listed []).mp mem
    cases rooted
  constructor
  · rw [nodup_flatten]
    exact ⟨fun component mem => (((listed component).mp mem).1.imp fun less => less.ne), lists.disjoint⟩
  · intro node
    rw [mem_flatten]
    constructor
    · rintro ⟨component, mem, inComponent⟩
      obtain ⟨_, root, inNodes, _, complete⟩ := (listed component).mp mem
      exact mem_nodes_of_reaches (mem_toFinset.mp inNodes) ((complete node).mp inComponent).1
    · intro inside
      obtain ⟨component, mem, inComponent, _⟩ := covers node inside
      exact ⟨component, mem, inComponent⟩
  · intro left inside right
    constructor
    · rintro ⟨component, mem, inLeft, inRight⟩
      obtain ⟨_, _, _, _, complete⟩ := (listed component).mp mem
      exact (complete.of_mem inLeft right).mp inRight
    · intro joined
      obtain ⟨component, mem, inComponent, complete⟩ := covers left inside
      exact ⟨component, mem, inComponent, (complete right).mpr joined⟩
  · exact nonempty
  · exact fun component mem => ((listed component).mp mem).1
  · refine (ordered.and lists.disjoint).imp_of_mem fun inLeft inRight both => ?_
    exact first_lt both.1 (nonempty _ inLeft) (nonempty _ inRight) both.2

end
end Atlas.Reasoning
