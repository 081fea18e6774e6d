import Atlas.Store.ImpactRadius

/-! The limit cuts the names that the query meets, in the order in which it meets them, and
names without a row count. The report counts the rows that were found for the names that
are left, so that names without a row can hide that others were cut. -/
namespace Atlas.Store
open List Core Program Sql
open Engine (BudgetManager BudgetReport)

def qnameRows (db : Db) (seedQnames : List String) : List NodeRow :=
  db.nodes.filter fun row => decide (row.qualifiedName ∈ seedQnames)
def narrowerScope (maxEdges : Nat) : String :=
  "reduce traversal scope or depth so edge count stays within " ++ toString maxEdges

def traverseFromQnames (db : Db) (seedQnames : List String) (maxDepth maxNodes maxEdges : Nat) :
    Option ImpactResult :=
  let policy : GraphTraversalBudgetPolicy := {}
  let limits := resolveTraversal policy maxDepth maxNodes maxEdges
  let clamped := decide (maxDepth ≠ limits.depth ∨ maxNodes ≠ limits.nodes ∨ maxEdges ≠ limits.edges)
  if seedQnames = [] then
    some
      { changedNodes := []
        impactedNodes := []
        impactedFiles := []
        relevantEdges := []
        traversalBudget := some
          { requestedDepth := maxDepth, acceptedDepth := limits.depth
            requestedNodeBudget := maxNodes, acceptedNodeBudget := limits.nodes
            requestedEdgeBudget := maxEdges, acceptedEdgeBudget := limits.edges
            emittedNodeCount := 0, emittedEdgeCount := 0, omittedEdgeCount := 0
            budgetHit := false, suggestedNarrowerQuery := none }
        budget := limits.budgets.summary "graph_traversal.max_nodes" limits.nodes 0 }
  else do
    let changedNodes := (qnameRows db seedQnames).map rowToNode
    let rows ← traversalRows db (qnameRows db seedQnames) limits.depth
    let allQns := impactNames rows limits.nodes
    let impactedQns := allQns.filter fun qn => decide (qn ∉ seedQnames)
    let impactedNodes :=
      (db.nodes.filter fun row => decide (row.qualifiedName ∈ impactedQns)).map rowToNode
    let edges := (db.edges.filter fun row =>
      decide (row.sourceQualified ∈ allQns ∧ row.targetQualified ∈ allQns)).filterMap rowToEdge
    let observedNodes := changedNodes.length + impactedNodes.length
    let counted := limits.budgets.recordUsage policy.nodes "graph_traversal.max_nodes" limits.nodes
      observedNodes (decide (observedNodes ≥ limits.nodes))
    let cut := decide (edges.length > limits.edges)
    let budgets :=
      if cut then counted.recordUsage policy.edges "graph_traversal.max_edges" limits.edges edges.length true
      else counted
    some
      { changedNodes := changedNodes
        impactedNodes := impactedNodes
        impactedFiles := (impactedNodes.map Node.filePath |>.insertionSort (· ≤ ·)).dedup
        relevantEdges := edges.take limits.edges
        traversalBudget := some
          { requestedDepth := maxDepth, acceptedDepth := limits.depth
            requestedNodeBudget := maxNodes, acceptedNodeBudget := limits.nodes
            requestedEdgeBudget := maxEdges, acceptedEdgeBudget := limits.edges
            emittedNodeCount := observedNodes
            emittedEdgeCount := min edges.length limits.edges
            omittedEdgeCount := edges.length - limits.edges
            budgetHit := clamped || cut
            suggestedNarrowerQuery := if cut then some (narrowerScope limits.edges) else none }
        budget := budgets.summary "graph_traversal.max_nodes" limits.nodes observedNodes }

section
variable (db : Db) (seeds : List NodeRow) (limits : TraversalLimits)

def metNames : List String :=
  ((traversalRows db seeds limits.depth).map fun rows => firsts id [] (rows.map Prod.fst)).getD []
def keptNames : List String := (metNames db seeds limits).take limits.nodes
def impactedRows : List NodeRow := db.nodes.filter fun row => decide (row.qualifiedName ∈
    keptNames db seeds limits ∧ row.qualifiedName ∉ seeds.map NodeRow.qualifiedName)
def rowsFound : Nat := seeds.length + (impactedRows db seeds limits).length
def keptEdges : List Edge := (db.edges.filter fun row => decide (row.sourceQualified ∈ keptNames db
    seeds limits ∧ row.targetQualified ∈ keptNames db seeds limits)).filterMap rowToEdge

end

def Clamped (maxDepth maxNodes maxEdges : Nat) : Prop :=
  maxDepth ≠ (resolveTraversal {} maxDepth maxNodes maxEdges).depth ∨
    maxNodes ≠ (resolveTraversal {} maxDepth maxNodes maxEdges).nodes ∨
    maxEdges ≠ (resolveTraversal {} maxDepth maxNodes maxEdges).edges

structure Spared (db : Db)
    (seeds : List NodeRow) (sources : String → Prop) (limits : TraversalLimits) : Prop where
  behind : ∀ row ∈ db.nodes, row.qualifiedName ∉ (metNames db seeds limits).drop limits.nodes
  own : ∀ row ∈ db.nodes, row.qualifiedName ∈ seeds.map NodeRow.qualifiedName → row ∈ seeds
  met : ∀ row ∈ db.nodes, Within (Joined db) sources limits.depth row.qualifiedName → row.qualifiedName ∈ metNames db seeds limits
  readable : ∀ edge ∈ db.edges, (∃ row ∈ db.nodes, row.qualifiedName = edge.sourceQualified) →
    (∃ row ∈ db.nodes, row.qualifiedName = edge.targetQualified) →
    edge.sourceQualified ∈ metNames db seeds limits → edge.targetQualified ∈ metNames db seeds limits →
    edge.filePath ≠ none

def ImpactResult.nodes (result : ImpactResult) : List Node :=
  result.changedNodes ++ result.impactedNodes
def ImpactResult.Told (result : ImpactResult) : Prop :=
  result.budget.budgetHit = true ∨ result.budget.isPartial = true

/-- A missing node is told of by the report. Without a word there nor in the traversal metadata,
the nodes are those around the sources and every edge between them is listed. -/
def NeverSilent (db : Db) (sources : String → Prop) (depth : Nat) (result : ImpactResult) : Prop :=
  ((∃ row ∈ db.nodes, Within (Joined db) sources depth row.qualifiedName ∧ rowToNode row ∉ result.nodes) → result.Told) ∧
    (¬ result.Told → result.traversalBudget.any TraversalBudgetMeta.budgetHit = false →
      (∀ node, node ∈ result.nodes ↔ ∃ row ∈ db.nodes,
        Within (Joined db) sources depth row.qualifiedName ∧ rowToNode row = node) ∧
      ∀ edge ∈ db.edges, (∃ node ∈ result.nodes, node.qualifiedName = edge.sourceQualified) →
        (∃ node ∈ result.nodes, node.qualifiedName = edge.targetQualified) →
        ∃ listed ∈ result.relevantEdges, rowToEdge edge = some listed)

/-- What a traversal returns: the rows met, cut at the limits, and whether it says so. -/
structure Outcome (db : Db) (seeds : List NodeRow)
    (limits : TraversalLimits) (clamped : Prop) (result : ImpactResult) : Prop where
  changed : result.changedNodes.Perm (seeds.map rowToNode)
  impacted : result.impactedNodes.Perm ((impactedRows db seeds limits).map rowToNode)
  edges : result.relevantEdges.Perm ((keptEdges db seeds limits).take limits.edges)
  told : result.Told ↔ clamped ∨ limits.nodes ≤ rowsFound db seeds limits ∨ limits.edges < (keptEdges db seeds limits).length
  metadata : result.traversalBudget.any TraversalBudgetMeta.budgetHit = true → result.Told

theorem resolveTraversal_silent_iff {maxDepth maxNodes maxEdges : Nat} :
    (resolveTraversal {} maxDepth maxNodes maxEdges).budgets.reports = [] ↔
      ¬ Clamped maxDepth maxNodes maxEdges := by
  unfold Clamped resolveTraversal
  dsimp only
  rw [BudgetManager.resolveLimit_silent_iff, BudgetManager.resolveLimit_silent_iff, BudgetManager.resolveLimit_silent_iff]
  simp only [Option.getD_some, true_and, not_or, not_not]
  constructor
  · rintro ⟨⟨depth, nodes⟩, edges⟩
    exact ⟨depth.symm, nodes.symm, edges.symm⟩
  · rintro ⟨depth, nodes, edges⟩
    exact ⟨⟨depth.symm, nodes.symm⟩, edges.symm⟩

theorem resolveTraversal_hitting (maxDepth maxNodes maxEdges : Nat) :
    (resolveTraversal {} maxDepth maxNodes maxEdges).budgets.Hitting := by
  have fresh : BudgetManager.Hitting {} := nofun
  exact ((fresh.resolveLimit _ _ _).resolveLimit _ _ _).resolveLimit _ _ _

def traversalReport (limits : TraversalLimits) (observedNodes observedEdges : Nat) : BudgetReport :=
  let counted := limits.budgets.recordUsage ({} : GraphTraversalBudgetPolicy).nodes
    "graph_traversal.max_nodes" limits.nodes observedNodes (decide (observedNodes ≥ limits.nodes))
  let budgets :=
    if decide (observedEdges > limits.edges) then
      counted.recordUsage ({} : GraphTraversalBudgetPolicy).edges "graph_traversal.max_edges" limits.edges observedEdges true
    else counted
  budgets.summary "graph_traversal.max_nodes" limits.nodes observedNodes

theorem traversalReport_told_iff {limits : TraversalLimits}
    (hitting : limits.budgets.Hitting) (observedNodes observedEdges : Nat) :
    ((traversalReport limits observedNodes observedEdges).budgetHit = true ∨
      (traversalReport limits observedNodes observedEdges).isPartial = true) ↔
      limits.budgets.reports ≠ [] ∨ limits.nodes ≤ observedNodes ∨ limits.edges < observedEdges := by
  unfold traversalReport
  dsimp only
  have counted := hitting.recordUsage ({} : GraphTraversalBudgetPolicy).nodes
    "graph_traversal.max_nodes" limits.nodes observedNodes (decide (observedNodes ≥ limits.nodes))
  have nodes : ∀ {reports : Prop}, (¬ (reports ∧ observedNodes ≤ limits.nodes ∧
    decide (observedNodes ≥ limits.nodes) = false)) ↔ ¬ reports ∨ limits.nodes ≤ observedNodes := by
    intro reports
    rw [decide_eq_false_iff_not, not_and_or, not_and_or]
    constructor
    · rintro (recorded | full | full)
      · exact .inl recorded
      all_goals exact .inr (by omega)
    · rintro (recorded | full)
      · exact .inl recorded
      · exact .inr (.inr (by omega))
  by_cases cut : observedEdges > limits.edges
  · rw [if_pos (decide_eq_true cut), (counted.recordUsage _ _ _ _ _).summary_hit_iff, ne_eq, BudgetManager.recordUsage_silent_iff]
    simp [cut]
  · rw [if_neg (by simpa using cut), counted.summary_hit_iff, ne_eq, BudgetManager.recordUsage_silent_iff,
      nodes]
    simp [cut]

section
variable {db : Db} {maxDepth maxNodes maxEdges : Nat}
  {seeds : List NodeRow} {limits : TraversalLimits}

theorem impactNames_eq {rows : List (String × Nat)}
    (ran : traversalRows db seeds limits.depth = some rows) :
    impactNames rows limits.nodes = keptNames db seeds limits := by
  unfold keptNames metNames impactNames
  rw [ran]
  rfl

theorem impactedRows_eq {names : List String} (same : ∀ row ∈ db.nodes, row.qualifiedName ∈ names ↔
    row.qualifiedName ∈ seeds.map NodeRow.qualifiedName) :
    (db.nodes.filter fun row => decide (row.qualifiedName ∈ (keptNames db seeds limits).filter
      fun qn => decide (qn ∉ names))) = impactedRows db seeds limits := by
  refine filter_congr fun row mem => ?_
  simp only [mem_filter, decide_eq_true_eq, same row mem]

theorem impactRadius_outcome (changedPaths : List String) (some' : changedPaths ≠ []) :
    ∃ result, impactRadius db changedPaths maxDepth maxNodes maxEdges = some result ∧
      Outcome db (seedRows db changedPaths) (resolveTraversal {} maxDepth maxNodes maxEdges)
        (Clamped maxDepth maxNodes maxEdges) result := by
  have hitting := resolveTraversal_hitting maxDepth maxNodes maxEdges
  have silent := @resolveTraversal_silent_iff maxDepth maxNodes maxEdges
  unfold impactRadius Clamped at *
  dsimp only
  generalize resolveTraversal {} maxDepth maxNodes maxEdges = limits at *
  obtain ⟨rows, ran, _⟩ := @traversalRows_exact db (seedRows db changedPaths) (fun _ mem => (mem_filter.mp mem).1) limits.depth
  have queried : impactRows db changedPaths limits.depth = some rows := ran
  rw [if_neg some', queried]
  have seedQns : ((seedRows db changedPaths).map rowToNode).map Node.qualifiedName =
    (seedRows db changedPaths).map NodeRow.qualifiedName := by
    rw [map_map]
    rfl
  dsimp only [bind, Option.bind]
  rw [seedQns, impactNames_eq ran, impactedRows_eq fun _ _ => Iff.rfl, length_map, length_map]
  have told := traversalReport_told_iff hitting (rowsFound db (seedRows db changedPaths) limits)
    (keptEdges db (seedRows db changedPaths) limits).length
  rw [ne_eq, silent, not_not] at told
  refine ⟨_, rfl, perm_insertionSort _ _, perm_insertionSort _ _, perm_insertionSort _ _, told, fun hit => told.mpr ?_⟩
  rcases Bool.or_eq_true_iff.mp hit with clamped | cut
  · exact .inl (of_decide_eq_true clamped)
  · exact .inr (.inr (of_decide_eq_true cut))

theorem traverseFromQnames_outcome (seedQnames : List String) (some' : seedQnames ≠ []) :
    ∃ result, traverseFromQnames db seedQnames maxDepth maxNodes maxEdges = some result ∧
      Outcome db (qnameRows db seedQnames) (resolveTraversal {} maxDepth maxNodes maxEdges)
        (Clamped maxDepth maxNodes maxEdges) result := by
  have hitting := resolveTraversal_hitting maxDepth maxNodes maxEdges
  have silent := @resolveTraversal_silent_iff maxDepth maxNodes maxEdges
  unfold traverseFromQnames Clamped at *
  dsimp only
  generalize resolveTraversal {} maxDepth maxNodes maxEdges = limits at *
  obtain ⟨rows, ran, _⟩ := @traversalRows_exact db (qnameRows db seedQnames) (fun _ mem => (mem_filter.mp mem).1) limits.depth
  rw [if_neg some', ran]
  have named : ∀ row ∈ db.nodes, row.qualifiedName ∈ seedQnames ↔
    row.qualifiedName ∈ (qnameRows db seedQnames).map NodeRow.qualifiedName := by
    intro row mem
    constructor
    · intro given
      exact mem_map_of_mem (mem_filter.mpr ⟨mem, decide_eq_true given⟩)
    · intro bears
      obtain ⟨seed, isSeed, same⟩ := mem_map.mp bears
      rw [← same]
      exact of_decide_eq_true (mem_filter.mp isSeed).2
  dsimp only [bind, Option.bind]
  rw [impactNames_eq ran, impactedRows_eq named, length_map, length_map]
  have told := traversalReport_told_iff hitting (rowsFound db (qnameRows db seedQnames) limits)
    (keptEdges db (qnameRows db seedQnames) limits).length
  rw [ne_eq, silent, not_not] at told
  refine ⟨_, rfl, .refl _, .refl _, .refl _, told, fun hit => told.mpr ?_⟩
  rcases Bool.or_eq_true_iff.mp hit with clamped | cut
  · exact .inl (of_decide_eq_true clamped)
  · exact .inr (.inr (of_decide_eq_true cut))

end

section
variable {db : Db} {seeds : List NodeRow} {limits : TraversalLimits} {sources : String → Prop}
  {name : String} {result : ImpactResult}

theorem mem_metNames_iff (stored : seeds ⊆ db.nodes) : name ∈ metNames db seeds limits ↔
    Within (Joined db) (· ∈ seeds.map NodeRow.qualifiedName) limits.depth name := by
  obtain ⟨rows, ran, members⟩ := traversalRows_exact stored limits.depth
  unfold metNames
  rw [ran, Option.map_some, Option.getD_some, mem_firsts_id, ← members]
  simp

theorem nodup_metNames : (metNames db seeds limits).Nodup := by
  unfold metNames
  cases traversalRows db seeds limits.depth with
  | none => exact nodup_nil
  | some rows => exact nodup_firsts_id _ _

theorem mem_keptNames_of_seed (stored : seeds ⊆ db.nodes) (few : seeds.length ≤ limits.nodes)
    (isSeed : name ∈ seeds.map NodeRow.qualifiedName) : name ∈ keptNames db seeds limits := by
  obtain ⟨rows, ran, _⟩ := traversalRows_exact stored limits.depth
  obtain ⟨others, whole⟩ := recursiveUnion_prefix ran
  have names : ((firsts id [] (seeds.map fun row => (row.qualifiedName, 0))).map Prod.fst) ++
    others.map Prod.fst = rows.map Prod.fst := by rw [← map_append, whole]
  have first :=
    firsts_id_prefix [] ((firsts id [] (seeds.map fun row => (row.qualifiedName, 0))).map Prod.fst)
      (others.map Prod.fst)
  rw [names] at first
  have met : metNames db seeds limits = firsts id [] (rows.map Prod.fst) := by
    unfold metNames
    rw [ran]
    rfl
  have short : (firsts id [] ((firsts id [] (seeds.map fun row => (row.qualifiedName, 0))).map
    Prod.fst)).length ≤ limits.nodes := by
    refine ((firsts_sublist [] _).length_le.trans ?_).trans few
    rw [length_map]
    exact (firsts_sublist [] _).length_le.trans (Nat.le_of_eq (length_map _))
  have front := prefix_take_iff.mpr ⟨first, short⟩
  unfold keptNames
  rw [met]
  refine front.subset (mem_firsts_id.mpr ⟨?_, not_mem_nil⟩)
  obtain ⟨seed, mem, rfl⟩ := mem_map.mp isSeed
  refine mem_map.mpr ⟨(seed.qualifiedName, 0), mem_firsts_id.mpr ⟨?_, not_mem_nil⟩, rfl⟩
  exact mem_map.mpr ⟨seed, mem, rfl⟩

theorem mem_metNames_cases : name ∈ metNames db seeds limits ↔
    name ∈ keptNames db seeds limits ∨ name ∈ (metNames db seeds limits).drop limits.nodes := by
  unfold keptNames
  rw [← mem_append, take_append_drop]

theorem not_mem_drop_of_kept (kept : name ∈ keptNames db seeds limits) :
    name ∉ (metNames db seeds limits).drop limits.nodes := by
  intro behind
  have apart := @nodup_metNames db seeds limits
  rw [← take_append_drop limits.nodes (metNames db seeds limits), nodup_append] at apart
  exact apart.2.2 name kept name behind rfl

theorem Outcome.mem_nodes {clamped : Prop}
    (outcome : Outcome db seeds limits clamped result) (stored : seeds ⊆ db.nodes) {node : Node} :
    node ∈ result.nodes ↔ ∃ row ∈ db.nodes, rowToNode row =
      node ∧ (row ∈ seeds ∨ row.qualifiedName ∈ keptNames db seeds limits ∧ row.qualifiedName ∉
      seeds.map NodeRow.qualifiedName) := by
  unfold ImpactResult.nodes
  rw [mem_append, outcome.changed.mem_iff, outcome.impacted.mem_iff, mem_map, mem_map]
  unfold impactedRows
  constructor
  · rintro (⟨row, mem, same⟩ | ⟨row, mem, same⟩)
    · exact ⟨row, stored mem, same, .inl mem⟩
    · obtain ⟨inNodes, kept⟩ := mem_filter.mp mem
      exact ⟨row, inNodes, same, .inr (of_decide_eq_true kept)⟩
  · rintro ⟨row, inNodes, same, isSeed | kept⟩
    · exact .inl ⟨row, isSeed, same⟩
    · exact .inr ⟨row, mem_filter.mpr ⟨inNodes, decide_eq_true kept⟩, same⟩

/-- A traversal is never silent exactly when the policy clamps it, when it finds as many rows as it
may, when it finds more edges than it may, or when nothing that counts is cut. -/
theorem Outcome.neverSilent_iff {clamped : Prop} {result : ImpactResult}
    (outcome : Outcome db seeds limits clamped result) (chosen : Node → Bool)
    (picks : seeds = db.nodes.filter fun row => chosen (rowToNode row))
    (sourced : ∀ name ∈ seeds.map NodeRow.qualifiedName, sources name) :
    NeverSilent db sources limits.depth result ↔
      clamped ∨ limits.nodes ≤ rowsFound db seeds limits ∨
      limits.edges < (keptEdges db seeds limits).length ∨ Spared db seeds sources limits := by
  have stored : seeds ⊆ db.nodes := by
    rw [picks]
    exact fun _ mem => (mem_filter.mp mem).1
  have around : ∀ {name}, name ∈ metNames db seeds limits → Within (Joined db) sources limits.depth name := by
    intro name met
    obtain ⟨source, length, isSource, bounded, walk⟩ := (mem_metNames_iff stored).mp met
    exact ⟨source, length, sourced source isSource, bounded, walk⟩
  have own : ∀ {name}, name ∈ seeds.map NodeRow.qualifiedName → name ∈ metNames db seeds limits :=
    fun isSeed => (mem_metNames_iff stored).mpr ⟨_, 0, isSeed, Nat.zero_le _, .nil _⟩
  -- a row and a seed with the same node are picked together
  have selected : ∀ row ∈ db.nodes, rowToNode row ∈ result.nodes ↔
    (row ∈ seeds ∨ row.qualifiedName ∈ keptNames db seeds limits ∧ row.qualifiedName ∉
    seeds.map NodeRow.qualifiedName) := by
    intro row mem
    rw [outcome.mem_nodes stored]
    constructor
    · rintro ⟨other, inNodes, same, isSeed | kept⟩
      · left
        rw [picks, mem_filter] at isSeed ⊢
        exact ⟨mem, same ▸ isSeed.2⟩
      · have name : other.qualifiedName = row.qualifiedName := congrArg Node.qualifiedName same
        exact .inr (name ▸ kept)
    · exact fun picked => ⟨row, mem, rfl, picked⟩
  by_cases told : result.Told
  · have signals := outcome.told.mp told
    refine iff_of_true ⟨fun _ => told, fun silent => absurd told silent⟩ ?_
    rcases signals with clamped | full | cut
    · exact .inl clamped
    · exact .inr (.inl full)
    · exact .inr (.inr (.inl cut))
  have quiet := mt outcome.told.mpr told
  rw [not_or, not_or, Nat.not_le, Nat.not_lt] at quiet
  obtain ⟨free, notFull, whole⟩ := quiet
  have hidden : result.traversalBudget.any TraversalBudgetMeta.budgetHit = false := by
    cases hit : result.traversalBudget.any TraversalBudgetMeta.budgetHit with
    | false => rfl
    | true => exact absurd (outcome.metadata hit) told
  have few : seeds.length ≤ limits.nodes := by
    have found : rowsFound db seeds limits = seeds.length + (impactedRows db seeds limits).length := rfl
    omega
  constructor
  · rintro ⟨_, complete⟩
    obtain ⟨nodes, edges⟩ := complete told hidden
    have present : ∀ row ∈ db.nodes, Within (Joined db) sources limits.depth row.qualifiedName →
        row ∈ seeds ∨ row.qualifiedName ∈ keptNames db seeds limits ∧
          row.qualifiedName ∉ seeds.map NodeRow.qualifiedName := fun row mem near =>
      (selected row mem).mp ((nodes _).mpr ⟨row, mem, near, rfl⟩)
    have kept : ∀ row ∈ db.nodes, Within (Joined db) sources limits.depth row.qualifiedName →
      row.qualifiedName ∈ keptNames db seeds limits := by
      intro row mem near
      rcases present row mem near with isSeed | ⟨isKept, _⟩
      · exact mem_keptNames_of_seed stored few (mem_map_of_mem isSeed)
      · exact isKept
    refine .inr (.inr (.inr ⟨?_, ?_, ?_, ?_⟩))
    · intro row mem behind
      exact not_mem_drop_of_kept (kept row mem (around (mem_metNames_cases.mpr (.inr behind)))) behind
    · intro row mem isSeed
      rcases present row mem (around (own isSeed)) with picked | ⟨_, other⟩
      · exact picked
      · exact absurd isSeed other
    · exact fun row mem near => mem_metNames_cases.mpr (.inl (kept row mem near))
    · rintro edge mem ⟨source, isSource, sourceName⟩ ⟨target, isTarget, targetName⟩ metSource metTarget
      have endpoint : ∀ row ∈ db.nodes, row.qualifiedName ∈ metNames db seeds limits →
        rowToNode row ∈ result.nodes := fun row mem met =>
        (nodes _).mpr ⟨row, mem, around met, rfl⟩
      obtain ⟨listed, _, read⟩ :=
        edges edge mem ⟨_, endpoint source isSource (sourceName ▸ metSource), sourceName⟩ ⟨_,
          endpoint target isTarget (targetName ▸ metTarget), targetName⟩
      obtain ⟨filePath, present, _⟩ := Option.map_eq_some_iff.mp read
      rw [present]
      exact Option.some_ne_none _
  · rintro (clamps | full | cut | spared)
    · exact absurd clamps free
    · omega
    · omega
    have kept : ∀ row ∈ db.nodes, row.qualifiedName ∈ metNames db seeds limits →
      row.qualifiedName ∈ keptNames db seeds limits := by
      intro row mem met
      rcases mem_metNames_cases.mp met with isKept | behind
      · exact isKept
      · exact absurd behind (spared.behind row mem)
    have present : ∀ row ∈ db.nodes, Within (Joined db) sources limits.depth row.qualifiedName →
      rowToNode row ∈ result.nodes := by
      intro row mem near
      rw [selected row mem]
      by_cases isSeed : row.qualifiedName ∈ seeds.map NodeRow.qualifiedName
      · exact .inl (spared.own row mem isSeed)
      · exact .inr ⟨kept row mem (spared.met row mem near), isSeed⟩
    have met : ∀ {node}, node ∈ result.nodes →
      ∃ row ∈ db.nodes, rowToNode row = node ∧ row.qualifiedName ∈ metNames db seeds limits := by
      intro node mem
      obtain ⟨row, inNodes, same, isSeed | ⟨isKept, _⟩⟩ := (outcome.mem_nodes stored).mp mem
      · exact ⟨row, inNodes, same, own (mem_map_of_mem isSeed)⟩
      · exact ⟨row, inNodes, same, mem_metNames_cases.mpr (.inl isKept)⟩
    refine ⟨?_, fun _ _ => ⟨fun node => ⟨?_, ?_⟩, ?_⟩⟩
    · rintro ⟨row, mem, near, missing⟩
      exact absurd (present row mem near) missing
    · intro mem
      obtain ⟨row, inNodes, same, isMet⟩ := met mem
      exact ⟨row, inNodes, around isMet, same⟩
    · rintro ⟨row, mem, near, rfl⟩
      exact present row mem near
    · rintro edge mem ⟨source, isSource, sourceName⟩ ⟨target, isTarget, targetName⟩
      obtain ⟨sourceRow, inNodes, rfl, sourceMet⟩ := met isSource
      obtain ⟨targetRow, inNodes', rfl, targetMet⟩ := met isTarget
      change sourceRow.qualifiedName = edge.sourceQualified at sourceName
      change targetRow.qualifiedName = edge.targetQualified at targetName
      have readable := spared.readable edge mem ⟨sourceRow, inNodes, sourceName⟩ ⟨targetRow,
        inNodes', targetName⟩ (sourceName ▸ sourceMet) (targetName ▸ targetMet)
      obtain ⟨filePath, present⟩ := Option.ne_none_iff_exists'.mp readable
      have read : rowToEdge edge = some _ := Option.map_eq_some_iff.mpr ⟨filePath, present, rfl⟩
      refine ⟨_, outcome.edges.mem_iff.mpr ?_, read⟩
      rw [take_of_length_le whole]
      refine mem_filterMap.mpr ⟨edge, mem_filter.mpr ⟨mem, decide_eq_true ⟨?_, ?_⟩⟩, read⟩
      · exact sourceName ▸ kept sourceRow inNodes sourceMet
      · exact targetName ▸ kept targetRow inNodes' targetMet

theorem neverSilent_nothing {depth : Nat}
    (empty : result.nodes = []) (nowhere : ∀ name, ¬ Within (Joined db) sources depth name) :
    NeverSilent db sources depth result := by
  unfold NeverSilent
  rw [empty]
  refine ⟨?_, fun _ _ => ⟨fun node => ⟨?_, ?_⟩, ?_⟩⟩
  · rintro ⟨row, _, near, _⟩
    exact absurd near (nowhere _)
  · exact fun mem => absurd mem not_mem_nil
  · rintro ⟨row, _, near, _⟩
    exact absurd near (nowhere _)
  · rintro _ _ ⟨_, mem, _⟩
    exact absurd mem not_mem_nil

theorem spared_nothing (nowhere : ∀ name, ¬ Within (Joined db) sources limits.depth name) :
    Spared db [] sources limits := by
  have none' : ∀ name, name ∉ metNames db [] limits := by
    intro name met
    obtain ⟨source, _, isSource, _⟩ := (mem_metNames_iff (nil_subset _)).mp met
    exact absurd isSource not_mem_nil
  constructor
  · exact fun row _ behind => none' _ (mem_of_mem_drop behind)
  · exact fun row _ isSeed => absurd isSeed not_mem_nil
  · exact fun row _ near => absurd near (nowhere _)
  · exact fun edge _ _ _ met _ => absurd met (none' _)

end

def SpeaksUp (db : Db)
    (seeds : List NodeRow) (sources : String → Prop) (maxDepth maxNodes maxEdges : Nat) : Prop :=
  let limits := resolveTraversal {} maxDepth maxNodes maxEdges
  Clamped maxDepth maxNodes maxEdges ∨ limits.nodes ≤ rowsFound db seeds limits ∨
    limits.edges < (keptEdges db seeds limits).length ∨ Spared db seeds sources limits

theorem impactRadius_speaks_iff (db : Db)
    (changedPaths : List String) (maxDepth maxNodes maxEdges : Nat) :
    (∃ result, impactRadius db changedPaths maxDepth maxNodes maxEdges = some result ∧
        NeverSilent db (· ∈ seedNames db changedPaths) (resolveTraversal {} maxDepth maxNodes maxEdges).depth result) ↔
      SpeaksUp db (seedRows db changedPaths) (· ∈ seedNames db changedPaths) maxDepth maxNodes maxEdges := by
  by_cases empty : changedPaths = []
  · have nowhere : ∀ name, ¬ Within (Joined db) (· ∈ seedNames db changedPaths)
      (resolveTraversal {} maxDepth maxNodes maxEdges).depth name := by
      rintro name ⟨source, _, isSource, _⟩
      simp [seedNames, seedRows, empty] at isSource
    have noSeeds : seedRows db changedPaths = [] := by simp [seedRows, empty]
    refine iff_of_true ?_ (.inr (.inr (.inr (noSeeds ▸ spared_nothing nowhere))))
    unfold impactRadius
    dsimp only
    rw [if_pos empty]
    exact ⟨_, rfl, neverSilent_nothing rfl nowhere⟩
  · obtain ⟨result, ran, outcome⟩ := @impactRadius_outcome db maxDepth maxNodes maxEdges changedPaths empty
    have judged := @Outcome.neverSilent_iff db _ _ (· ∈ seedNames db changedPaths) _ result outcome
      (fun node => decide (node.filePath ∈ changedPaths)) rfl fun name isSeed => isSeed
    unfold SpeaksUp
    dsimp only
    rw [← judged, ran]
    simp

theorem traverseFromQnames_speaks_iff (db : Db)
    (seedQnames : List String) (maxDepth maxNodes maxEdges : Nat) :
    (∃ result,
      traverseFromQnames db seedQnames maxDepth maxNodes maxEdges = some result ∧ NeverSilent db
      (· ∈ seedQnames) (resolveTraversal {} maxDepth maxNodes maxEdges).depth result) ↔
      SpeaksUp db (qnameRows db seedQnames) (· ∈ seedQnames) maxDepth maxNodes maxEdges := by
  by_cases empty : seedQnames = []
  · have nowhere : ∀ name, ¬ Within (Joined db) (· ∈ seedQnames) (resolveTraversal {} maxDepth maxNodes maxEdges).depth name := by
      rintro name ⟨source, _, isSource, _⟩
      simp [empty] at isSource
    have noSeeds : qnameRows db seedQnames = [] := by simp [qnameRows, empty]
    refine iff_of_true ?_ (.inr (.inr (.inr (noSeeds ▸ spared_nothing nowhere))))
    unfold traverseFromQnames
    dsimp only
    rw [if_pos empty]
    exact ⟨_, rfl, neverSilent_nothing rfl nowhere⟩
  · obtain ⟨result, ran, outcome⟩ := @traverseFromQnames_outcome db maxDepth maxNodes maxEdges seedQnames empty
    have given : ∀ name ∈ (qnameRows db seedQnames).map NodeRow.qualifiedName, name ∈ seedQnames := by
      intro name isSeed
      obtain ⟨seed, mem, rfl⟩ := mem_map.mp isSeed
      exact of_decide_eq_true (mem_filter.mp mem).2
    have judged := @Outcome.neverSilent_iff db _ _ (· ∈ seedQnames) _ result outcome
      (fun node => decide (node.qualifiedName ∈ seedQnames)) rfl given
    unfold SpeaksUp
    dsimp only
    rw [← judged, ran]
    simp

/-- Both traversals: when a cut is told of, and when nothing is cut. -/
theorem traversals_neverSilent_iff (db : Db) (maxDepth maxNodes maxEdges : Nat) : (∀ changedPaths,
    (∃ result, impactRadius db changedPaths maxDepth maxNodes maxEdges = some result ∧
        NeverSilent db (· ∈ seedNames db changedPaths) (resolveTraversal {} maxDepth maxNodes maxEdges).depth result) ↔
      SpeaksUp db (seedRows db changedPaths) (· ∈ seedNames db changedPaths) maxDepth maxNodes maxEdges) ∧
    ∀ seedQnames, (∃ result, traverseFromQnames db seedQnames maxDepth maxNodes maxEdges = some result ∧
        NeverSilent db (· ∈ seedQnames) (resolveTraversal {} maxDepth maxNodes maxEdges).depth result) ↔
      SpeaksUp db (qnameRows db seedQnames) (· ∈ seedQnames) maxDepth maxNodes maxEdges :=
  ⟨fun changedPaths => impactRadius_speaks_iff db changedPaths maxDepth maxNodes maxEdges,
    fun seedQnames => traverseFromQnames_speaks_iff db seedQnames maxDepth maxNodes maxEdges⟩

def functionRow (id : Nat) (filePath name : String) : NodeRow where
  id := id
  kind := "function"
  name := name
  qualifiedName := filePath ++ "::fn::" ++ name
  filePath := filePath
  lineStart := 1
  lineEnd := 2
  language := some "rust"
  parentName := none
  params := none
  returnType := none
  modifiers := none
  isTest := false
  fileHash := some "h"
  extraJson := .null
  sourceRepoId := "repo"

def callRow (id : Nat) (filePath source target : String) : EdgeRow where
  id := id
  kind := "calls"
  sourceQualified := source
  targetQualified := target
  filePath := some filePath
  line := some 1
  confidence := 0x3f800000
  confidenceTier := none
  extraJson := .null
  sourceRepoId := "repo"

def outsideCall : Db where
  nodes := [functionRow 1 "a.rs" "f", functionRow 2 "b.rs" "g"]
  edges := [callRow 1 "a.rs" "a.rs::fn::f" "print", callRow 2 "a.rs" "a.rs::fn::f" "b.rs::fn::g"]

/-- The called name without a row takes the place of the second function, and one row was found
where two were allowed. -/
theorem outsideCall_silent : (¬ ∀ db changedPaths maxDepth maxNodes maxEdges, ∃ result,
    impactRadius db changedPaths maxDepth maxNodes maxEdges = some result ∧
        NeverSilent db (· ∈ seedNames db changedPaths) (resolveTraversal {} maxDepth maxNodes maxEdges).depth result) ∧
    ¬ ∀ db seedQnames maxDepth maxNodes maxEdges, ∃ result, traverseFromQnames db seedQnames
      maxDepth maxNodes maxEdges = some result ∧ NeverSilent db (· ∈ seedQnames)
          (resolveTraversal {} maxDepth maxNodes maxEdges).depth result := by
  have free : ¬ Clamped 3 2 500 := by
    unfold Clamped
    decide
  have silent : ∀ sources, ¬ SpeaksUp outsideCall [functionRow 1 "a.rs" "f"] sources 3 2 500 := by
    rintro sources (clamped | full | cut | spared)
    · exact free clamped
    · exact absurd full (by decide)
    · exact absurd cut (by decide)
    · exact absurd (by decide) (spared.behind (functionRow 2 "b.rs" "g") (by decide))
  have changed : seedRows outsideCall ["a.rs"] = [functionRow 1 "a.rs" "f"] := by decide
  have named : qnameRows outsideCall ["a.rs::fn::f"] = [functionRow 1 "a.rs" "f"] := by decide
  constructor
  · intro always
    have speaks := (impactRadius_speaks_iff _ _ _ _ _).mp (always outsideCall ["a.rs"] 3 2 500)
    rw [changed] at speaks
    exact silent _ speaks
  · intro always
    have speaks := (traverseFromQnames_speaks_iff _ _ _ _ _).mp (always outsideCall ["a.rs::fn::f"] 3 2 500)
    rw [named] at speaks
    exact silent _ speaks

end Atlas.Store
