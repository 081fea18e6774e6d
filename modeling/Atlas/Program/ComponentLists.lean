import Atlas.Program.TarjanProperties
import Mathlib.Data.List.Sort

/-! The components that a search lists, each sorted: which lists they are does not depend on
the order of the search. -/
namespace Atlas.Program.Tarjan
open List

theorem IsComponent.of_mem {Node : Type} {next : Node → List Node} {root node : Node}
    {component : List Node} (complete : IsComponent next root component) (mem : node ∈ component) :
    IsComponent next node component := by
  have ⟨reached, back⟩ := (complete node).mp mem
  intro other
  rw [complete]
  constructor
  · intro ⟨fromRoot, toRoot⟩
    exact ⟨back.trans fromRoot, toRoot.trans reached⟩
  · intro ⟨fromNode, toNode⟩
    exact ⟨reached.trans fromNode, toNode.trans back⟩

variable {Node : Type} [LinearOrder Node] {emit : Node → List Node → List (List Node)}
  {next : Node → List Node} {nodes : Finset Node} {keeps : List Node → Bool}

def IsSortedComponent (next : Node → List Node)
    (nodes : Finset Node) (component : List Node) : Prop :=
  component.Pairwise (· < ·) ∧ ∃ root ∈ nodes, root ∈ component ∧ IsComponent next root component

structure Lists (next : Node → List Node)
    (nodes : Finset Node) (keeps : List Node → Bool) (components : List (List Node)) : Prop where
  mem_iff : ∀ component, component ∈ components ↔ keeps component = true ∧ IsSortedComponent next nodes component
  distinct : components.Nodup
  covers : ∀ node ∈ nodes, ∃ component, node ∈ component ∧ IsSortedComponent next nodes component

theorem IsSortedComponent.eq_of_mem {node : Node} {left right : List Node}
    (isLeft : IsSortedComponent next nodes left) (isRight : IsSortedComponent next nodes right)
    (inLeft : node ∈ left) (inRight : node ∈ right) : left = right := by
  obtain ⟨leftSorted, _, _, _, leftComplete⟩ := isLeft
  obtain ⟨rightSorted, _, _, _, rightComplete⟩ := isRight
  refine leftSorted.eq_of_mem_iff rightSorted fun other => ?_
  rw [leftComplete.of_mem inLeft, rightComplete.of_mem inRight]

theorem pairwise_sorted {members : List Node} (distinct : members.Nodup) :
    (members.insertionSort (· ≤ ·)).Pairwise (· < ·) := by
  have ordered := pairwise_insertionSort (· ≤ ·) members
  have nodup := (perm_insertionSort (· ≤ ·) members).nodup_iff.mpr distinct
  exact (ordered.and nodup).imp fun both => lt_of_le_of_ne both.1 both.2

theorem connectAll_lists (closed : ∀ node ∈ nodes, ∀ neighbor ∈ next node, neighbor ∈ nodes)
    {fuel : Nat} (enough : nodes.card ≤ fuel) {roots : List Node} (inside : ∀ root ∈ roots, root ∈ nodes)
    (leads : ∀ node ∈ nodes, node ∈ roots ∨ ∃ root ∈ roots, node ∈ next root)
    (emits : ∀ root members, root ∈ members → members.Nodup → emit root members = [members.insertionSort (· ≤ ·)].filter keeps) :
    ∃ after, connectAll emit next fuel roots {} = some after ∧ Lists next nodes keeps after.components := by
  obtain ⟨after, pops, ran, pushed, complete, distinct, members⟩ :=
    @connectAll_components Node emit next nodes _ closed fuel enough roots inside leads
  obtain ⟨nodups, apart⟩ := nodup_flatMap.mp distinct
  have shape : after.components = (pops.map fun pop => pop.2.insertionSort (· ≤ ·)).filter keeps := by
    have single : ∀ pop ∈ pops, emit pop.1 pop.2 = [pop.2.insertionSort (· ≤ ·)].filter keeps :=
      fun pop mem => emits pop.1 pop.2 (complete pop mem).1 (nodups pop mem)
    rw [pushed, flatMap_congr single]
    clear single pushed complete distinct members nodups apart
    induction pops with
    | nil => rfl
    | cons pop rest ih =>
      rw [flatMap_cons, ih, map_cons, ← filter_append]
      rfl
  have isSorted : ∀ pop ∈ pops, IsSortedComponent next nodes (pop.2.insertionSort (· ≤ ·)) := by
    intro pop mem
    obtain ⟨rooted, whole⟩ := complete pop mem
    refine ⟨pairwise_sorted (nodups pop mem), pop.1, ?_, (mem_insertionSort _).mpr rooted, ?_⟩
    · exact (members pop.1).mp (mem_flatMap.mpr ⟨pop, mem, rooted⟩)
    · intro node
      rw [mem_insertionSort, whole]
  have covers : ∀ node ∈ nodes, ∃ pop ∈ pops, node ∈ pop.2.insertionSort (· ≤ ·) := by
    intro node inside
    obtain ⟨pop, mem, inPop⟩ := mem_flatMap.mp ((members node).mpr inside)
    exact ⟨pop, mem, (mem_insertionSort _).mpr inPop⟩
  refine ⟨after, ran, ?_, ?_, ?_⟩
  · intro component
    rw [shape, mem_filter, and_comm, mem_map]
    refine and_congr_right fun _ => ?_
    constructor
    · rintro ⟨pop, mem, rfl⟩
      exact isSorted pop mem
    · intro isComponent
      obtain ⟨_, root, inNodes, rooted, _⟩ := id isComponent
      obtain ⟨pop, mem, inPop⟩ := covers root inNodes
      exact ⟨pop, mem, (isSorted pop mem).eq_of_mem isComponent inPop rooted⟩
  · rw [shape]
    refine List.Nodup.filter _ (pairwise_map.mpr (apart.imp_of_mem ?_))
    intro left right inLeft inRight disjoint same
    have rooted := (complete left inLeft).1
    have shared : left.1 ∈ right.2.insertionSort (· ≤ ·) := by
      rw [← same]
      exact (mem_insertionSort _).mpr rooted
    exact disjoint rooted ((mem_insertionSort _).mp shared)
  · intro node inside
    obtain ⟨pop, mem, inPop⟩ := covers node inside
    exact ⟨_, inPop, isSorted pop mem⟩

theorem Lists.disjoint {components : List (List Node)} (lists : Lists next nodes keeps components) :
    components.Pairwise List.Disjoint := by
  refine lists.distinct.imp_of_mem ?_
  intro left right inLeft inRight differ node isLeft isRight
  exact differ (((lists.mem_iff left).mp inLeft).2.eq_of_mem ((lists.mem_iff right).mp inRight).2 isLeft isRight)

end Atlas.Program.Tarjan
