import Atlas.Reasoning.Scc

/-! The history's own search for cycles: components of more than one member, and self-loops
on request. -/
namespace Atlas.History
open List Program

abbrev Graph := SortedMap String (SortedSet String)

def targetsOf (graph : Graph) (node : String) : List String :=
  ((graph.get? node).map SortedSet.items).getD []
def withTargets (graph : Graph) : Graph := (graph.entries.flatMap fun entry => entry.2.items).foldl
    (fun adjacency target => adjacency.orInsert target ∅) graph

def emitCycle (graph : Graph) (includeSelfLoops : Bool) (node : String) (component : List String) :
    List (List String) :=
  let sorted := component.insertionSort (· ≤ ·)
  if sorted.length > 1 ∨ (includeSelfLoops = true ∧ node ∈ targetsOf graph node) then [sorted] else []

def stronglyConnectedComponents (graph : Graph) (includeSelfLoops : Bool) :
    Option (List (List String)) :=
  let adjacency := withTargets graph
  (Tarjan.connectAll (emitCycle adjacency includeSelfLoops) (targetsOf adjacency)
    adjacency.keys.length adjacency.keys {}).map fun state => state.components.insertionSort (· ≤ ·)

example : stronglyConnectedComponents
    ⟨[("a", ⟨["b", "d"], by decide⟩), ("b", ⟨["a"], by decide⟩), ("c", ⟨["c"], by decide⟩)],
      by decide⟩ true = some [["a", "b"], ["c"]] := by
  decide +kernel

def asAdjacency (graph : Graph) : Reasoning.Adjacency := graph.mapValues SortedSet.items

/-- More than one member, or, if wanted, a member with an edge to itself. -/
def isCycle (graph : Graph) (includeSelfLoops : Bool) (component : List String) : Bool :=
  decide (component.length > 1) ||
    (includeSelfLoops && component.any fun node => decide (node ∈ targetsOf graph node))

section
variable {graph : Graph} {node : String} {includeSelfLoops : Bool}

theorem neighbors_asAdjacency (graph : Graph) :
    Reasoning.neighbors (asAdjacency graph) = targetsOf graph := by
  funext node
  unfold Reasoning.neighbors asAdjacency targetsOf
  rw [SortedMap.get?_mapValues]

theorem targetsOf_orInsert (target : String) :
    targetsOf (graph.orInsert target ∅) node = targetsOf graph node := by
  unfold targetsOf
  rw [SortedMap.get?_orInsert]
  by_cases same : node = target
  · subst same
    rw [if_pos rfl]
    cases graph.get? node with
    | none => rfl
    | some targets => rfl
  · rw [if_neg same]

theorem mem_keys_orInsert {target : String} :
    node ∈ (graph.orInsert target ∅).keys ↔ node = target ∨ node ∈ graph.keys := by
  rw [SortedMap.mem_keys_iff, SortedMap.mem_keys_iff]
  simp only [SortedMap.get?_orInsert]
  by_cases same : node = target
  all_goals simp [same]

theorem targetsOf_withTargets (graph : Graph) :
    targetsOf (withTargets graph) = targetsOf graph := by
  funext node
  unfold withTargets
  generalize graph.entries.flatMap (fun entry => entry.2.items) = targets
  induction targets generalizing graph with
  | nil => rfl
  | cons target rest ih => rw [foldl_cons, ih, targetsOf_orInsert]

theorem mem_keys_withTargets :
    node ∈ (withTargets graph).keys ↔ node ∈ Reasoning.nodesOf (asAdjacency graph) := by
  have members : ∀ (targets : List String) (current : Graph), node ∈
    (targets.foldl (fun adjacency target => adjacency.orInsert target ∅) current).keys ↔
    node ∈ current.keys ∨ node ∈ targets := by
    intro targets
    induction targets with
    | nil => simp
    | cons target rest ih =>
      intro current
      rw [foldl_cons, ih, mem_keys_orInsert, mem_cons]
      exact or_assoc.trans or_left_comm
  unfold withTargets
  rw [members]
  unfold Reasoning.nodesOf asAdjacency SortedMap.mapValues SortedMap.keys
  rw [mem_append, map_map, flatMap_map]
  exact Iff.rfl

theorem emitCycle_eq {root : String} {members : List String} (rooted : root ∈ members) :
    emitCycle graph includeSelfLoops root members = [members.insertionSort (· ≤ ·)].filter (isCycle graph includeSelfLoops) := by
  have same : (members.insertionSort (· ≤ ·)).length > 1 ∨
    (includeSelfLoops = true ∧ root ∈ targetsOf graph root) ↔
    isCycle graph includeSelfLoops (members.insertionSort (· ≤ ·)) = true := by
    unfold isCycle
    simp only [Bool.or_eq_true, decide_eq_true_eq, Bool.and_eq_true, any_eq_true, mem_insertionSort]
    by_cases many : (members.insertionSort (· ≤ ·)).length > 1
    · simp only [many, true_or]
    · rw [length_insertionSort] at many
      have single : members = [root] := by
        cases members with
        | nil => cases rooted
        | cons first rest =>
          cases rest with
          | nil => rw [mem_singleton.mp rooted]
          | cons second rest => exact absurd (Nat.lt_of_sub_eq_succ rfl) many
      simp [single]
  unfold emitCycle
  by_cases kept : isCycle graph includeSelfLoops (members.insertionSort (· ≤ ·)) = true
  · rw [if_pos (same.mpr kept), filter_cons_of_pos kept, filter_nil]
  · rw [if_neg (fun cycle => kept (same.mp cycle)), filter_cons_of_neg kept, filter_nil]

theorem stronglyConnectedComponents_lists (graph : Graph) (includeSelfLoops : Bool) :
    ∃ components, stronglyConnectedComponents graph includeSelfLoops = some components ∧
      Tarjan.Lists (targetsOf graph) (Reasoning.nodesOf (asAdjacency graph)).toFinset
        (isCycle graph includeSelfLoops) components ∧
      components.Pairwise (· < ·) := by
  have same : targetsOf (withTargets graph) = targetsOf graph := targetsOf_withTargets graph
  have closed := @Reasoning.neighbors_closed (asAdjacency graph)
  rw [neighbors_asAdjacency] at closed
  have enough : (Reasoning.nodesOf (asAdjacency graph)).toFinset.card ≤ (withTargets graph).keys.length := by
    refine le_trans (Finset.card_le_card fun node mem => ?_) (toFinset_card_le _)
    rw [mem_toFinset] at mem ⊢
    exact mem_keys_withTargets.mpr mem
  obtain ⟨after, ran, lists⟩ := @Tarjan.connectAll_lists String _
    (emitCycle (withTargets graph) includeSelfLoops) (targetsOf graph)
    (Reasoning.nodesOf (asAdjacency graph)).toFinset (isCycle graph includeSelfLoops) closed
    (withTargets graph).keys.length enough (withTargets graph).keys
    (fun root isKey => mem_toFinset.mpr (mem_keys_withTargets.mp isKey))
    (fun node inside => .inl (mem_keys_withTargets.mpr (mem_toFinset.mp inside))) (by
      intro root members rooted _
      rw [emitCycle_eq rooted]
      unfold isCycle
      rw [same])
  have perm := perm_insertionSort (· ≤ ·) after.components
  have distinct := perm.nodup_iff.mpr lists.distinct
  refine ⟨after.components.insertionSort (· ≤ ·), ?_, ⟨?_, distinct, lists.covers⟩, ?_⟩
  · unfold stronglyConnectedComponents
    simp only [same, ran]
    rfl
  · intro component
    rw [perm.mem_iff]
    exact lists.mem_iff component
  · exact ((pairwise_insertionSort (· ≤ ·) after.components).and distinct).imp fun both => lt_of_le_of_ne both.1 both.2

end

theorem lt_of_first_lt {left right : List String}
    (before : ∃ first ∈ left.head?, ∃ other ∈ right.head?, first < other) : left < right := by
  obtain ⟨first, isFirst, other, isOther, less⟩ := before
  cases left with
  | nil => cases isFirst
  | cons head rest =>
    cases right with
    | nil => cases isOther
    | cons next others =>
      cases isFirst
      cases isOther
      exact cons_lt_cons_iff.mpr (.inl less)

/-- Both searches end on every graph. The one of the analyses returns the strongly connected
components in order; the history's returns, in order, those of them that are cycles. -/
theorem stronglyConnectedComponents_exact : (∀ adjacency : Reasoning.Adjacency, ∃ components,
      Reasoning.stronglyConnectedComponents adjacency = some components ∧ Reasoning.Components adjacency components) ∧
    ∀ (graph : Graph) (includeSelfLoops : Bool), ∃ components,
      Reasoning.stronglyConnectedComponents (asAdjacency graph) = some components ∧
        stronglyConnectedComponents graph includeSelfLoops = some (components.filter (isCycle graph includeSelfLoops)) ∧
        (components.filter (isCycle graph includeSelfLoops)).Pairwise (· < ·) := by
  constructor
  · intro adjacency
    obtain ⟨components, ran, lists, ordered⟩ := Reasoning.stronglyConnectedComponents_lists adjacency
    exact ⟨components, ran, Reasoning.components_of_lists lists ordered⟩
  · intro graph includeSelfLoops
    obtain ⟨components, ran, lists, ordered⟩ := Reasoning.stronglyConnectedComponents_lists (asAdjacency graph)
    obtain ⟨cycles, ranHistory, listsHistory, ascending⟩ := stronglyConnectedComponents_lists graph includeSelfLoops
    have inOrder : (components.filter (isCycle graph includeSelfLoops)).Pairwise (· < ·) :=
      ((Reasoning.components_of_lists lists ordered).ascending.imp lt_of_first_lt).filter _
    rw [neighbors_asAdjacency] at lists
    have same : cycles = components.filter (isCycle graph includeSelfLoops) := by
      refine ascending.eq_of_mem_iff inOrder fun component => ?_
      rw [listsHistory.mem_iff, mem_filter, lists.mem_iff]
      simp [and_comm]
    refine ⟨components, ran, ?_, inOrder⟩
    rw [ranHistory, same]

end Atlas.History
