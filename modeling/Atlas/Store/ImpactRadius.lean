import Atlas.Engine.Budget
import Atlas.Program.BreadthFirst
import Atlas.Sql.Recursive
import Atlas.Store.Runs
import Mathlib.Data.Finset.Prod
import Mathlib.Order.WithBot

/-! The nodes and edges around changed files, by a recursive query over qualified names. The
query sees the rows of every repository in the store. -/
namespace Atlas.Store
open List Core Program Sql
open Engine (BudgetManager BudgetReport)
open Engine.BudgetManager (BudgetLimitRule)

structure GraphTraversalBudgetPolicy where
  depth : BudgetLimitRule := ⟨3, 10, .clamp, true⟩
  nodes : BudgetLimitRule := ⟨200, 1000, .clamp, true⟩
  edges : BudgetLimitRule := ⟨500, 2000, .clamp, true⟩

structure TraversalBudgetMeta where
  (requestedDepth acceptedDepth requestedNodeBudget acceptedNodeBudget requestedEdgeBudget : Nat)
  (acceptedEdgeBudget emittedNodeCount emittedEdgeCount omittedEdgeCount : Nat)
  budgetHit : Bool
  suggestedNarrowerQuery : Option String

structure ImpactResult where
  (changedNodes impactedNodes : List Node)
  impactedFiles : List String
  relevantEdges : List Edge
  traversalBudget : Option TraversalBudgetMeta
  budget : BudgetReport

structure TraversalLimits where
  (depth nodes edges : Nat)
  budgets : BudgetManager

def resolveTraversal (policy : GraphTraversalBudgetPolicy) (maxDepth maxNodes maxEdges : Nat) :
    TraversalLimits :=
  let (budgets, depth) := BudgetManager.resolveLimit {} policy.depth "graph_traversal.max_depth"
    (some maxDepth)
  let (budgets, nodes) := budgets.resolveLimit policy.nodes "graph_traversal.max_nodes" (some maxNodes)
  let (budgets, edges) := budgets.resolveLimit policy.edges "graph_traversal.max_edges" (some maxEdges)
  ⟨depth, nodes, edges, budgets⟩

def seedRows (db : Db) (changedPaths : List String) : List NodeRow :=
  db.nodes.filter fun row => decide (row.filePath ∈ changedPaths)

def impactStep (edges : List EdgeRow) (maxDepth : Nat) (row : String × Nat) : List (String × Nat) :=
  if row.2 < maxDepth then
    ((edges.filter fun edge => decide (edge.targetQualified = row.1)).map fun edge =>
        (edge.sourceQualified, row.2 + 1)) ++
      (edges.filter fun edge => decide (edge.sourceQualified = row.1)).map fun edge =>
        (edge.targetQualified, row.2 + 1)
  else []

def graphNames (db : Db) : List String := db.nodes.map NodeRow.qualifiedName ++
    db.edges.flatMap fun edge => [edge.sourceQualified, edge.targetQualified]

def impactRows (db : Db) (changedPaths : List String) (maxDepth : Nat) :
    Option (List (String × Nat)) :=
  recursiveUnion (impactStep db.edges maxDepth) ((graphNames db).length * (maxDepth + 1))
    ((seedRows db changedPaths).map fun row => (row.qualifiedName, 0))

def impactNames (rows : List (String × Nat)) (maxNodes : Nat) : List String :=
  (firsts id [] (rows.map Prod.fst)).take maxNodes

def edgeKey (edge : Edge) : String ×ₗ String ×ₗ String ×ₗ String ×ₗ WithBot Nat :=
  toLex (edge.sourceQn, toLex (edge.targetQn, toLex (edge.kind.asStr, toLex (edge.filePath, (edge.line : WithBot Nat)))))

def edgeLe (left right : Edge) : Prop := edgeKey left ≤ edgeKey right

instance : DecidableRel edgeLe := fun left right =>
  LinearOrder.toDecidableLE (edgeKey left) (edgeKey right)

def sortImpactResult (result : ImpactResult) : ImpactResult :=
  { result with
    changedNodes := result.changedNodes.insertionSort fun left right => left.qualifiedName ≤ right.qualifiedName
    impactedNodes := result.impactedNodes.insertionSort fun left right => left.qualifiedName ≤ right.qualifiedName
    impactedFiles := (result.impactedFiles.insertionSort (· ≤ ·)).dedup
    relevantEdges := result.relevantEdges.insertionSort edgeLe }

def narrowerQuery (maxEdges : Nat) : String :=
  "reduce changed-file seed set or traversal depth so edge count stays within " ++ toString maxEdges

def impactRadius (db : Db) (changedPaths : List String) (maxDepth maxNodes maxEdges : Nat) :
    Option ImpactResult :=
  let policy : GraphTraversalBudgetPolicy := {}
  let limits := resolveTraversal policy maxDepth maxNodes maxEdges
  let clamped := decide (maxDepth ≠ limits.depth ∨ maxNodes ≠ limits.nodes ∨ maxEdges ≠ limits.edges)
  if changedPaths = [] then
    some (sortImpactResult
      { changedNodes := []
        impactedNodes := []
        impactedFiles := []
        relevantEdges := []
        traversalBudget := some
          { requestedDepth := maxDepth, acceptedDepth := limits.depth
            requestedNodeBudget := maxNodes, acceptedNodeBudget := limits.nodes
            requestedEdgeBudget := maxEdges, acceptedEdgeBudget := limits.edges
            emittedNodeCount := 0, emittedEdgeCount := 0, omittedEdgeCount := 0
            budgetHit := false, suggestedNarrowerQuery := none }
        budget := limits.budgets.summary "graph_traversal.max_nodes" limits.nodes 0 })
  else do
    let changedNodes := (seedRows db changedPaths).map rowToNode
    let rows ← impactRows db changedPaths limits.depth
    let allQns := impactNames rows limits.nodes
    let seedQns := changedNodes.map Node.qualifiedName
    let impactedQns := allQns.filter fun qn => decide (qn ∉ seedQns)
    let impactedNodes :=
      (db.nodes.filter fun row => decide (row.qualifiedName ∈ impactedQns)).map rowToNode
    let edges := (db.edges.filter fun row =>
      decide (row.sourceQualified ∈ allQns ∧ row.targetQualified ∈ allQns)).filterMap rowToEdge
    let observedNodes := changedNodes.length + impactedNodes.length
    let counted := limits.budgets.recordUsage policy.nodes "graph_traversal.max_nodes" limits.nodes
      observedNodes (decide (observedNodes ≥ limits.nodes))
    let cut := decide (edges.length > limits.edges)
    let budgets :=
      if cut then counted.recordUsage policy.edges "graph_traversal.max_edges" limits.edges edges.length true
      else counted
    some (sortImpactResult
      { changedNodes := changedNodes
        impactedNodes := impactedNodes
        impactedFiles := (impactedNodes.map Node.filePath |>.insertionSort (· ≤ ·)).dedup
        relevantEdges := edges.take limits.edges
        traversalBudget := some
          { requestedDepth := maxDepth, acceptedDepth := limits.depth
            requestedNodeBudget := maxNodes, acceptedNodeBudget := limits.nodes
            requestedEdgeBudget := maxEdges, acceptedEdgeBudget := limits.edges
            emittedNodeCount := observedNodes
            emittedEdgeCount := min edges.length limits.edges
            omittedEdgeCount := edges.length - limits.edges
            budgetHit := clamped || cut
            suggestedNarrowerQuery := if cut then some (narrowerQuery limits.edges) else none }
        budget := budgets.summary "graph_traversal.max_nodes" limits.nodes observedNodes })

def Joined (db : Db) (left right : String) : Prop :=
  ∃ edge ∈ db.edges, (edge.sourceQualified = left ∧ edge.targetQualified = right) ∨
    (edge.targetQualified = left ∧ edge.sourceQualified = right)
def seedNames (db : Db) (changedPaths : List String) : List String :=
  (seedRows db changedPaths).map NodeRow.qualifiedName
def InBall (db : Db) (changedPaths : List String) (radius : Nat) (name : String) : Prop :=
  Within (Joined db) (· ∈ seedNames db changedPaths) radius name

open Classical in
noncomputable def ball (db : Db) (changedPaths : List String) (radius : Nat) : Finset String :=
  (graphNames db).toFinset.filter (InBall db changedPaths radius)

section
variable {db : Db} {changedPaths : List String} {radius depth : Nat} {name other : String}

theorem mem_graphNames_of_seed (isSeed : name ∈ seedNames db changedPaths) :
    name ∈ graphNames db := by
  obtain ⟨row, mem, rfl⟩ := mem_map.mp isSeed
  exact mem_append_left _ (mem_map_of_mem (mem_filter.mp mem).1)

theorem mem_graphNames_of_joined (joined : Joined db other name) : name ∈ graphNames db := by
  obtain ⟨edge, mem, ends⟩ := joined
  refine mem_append_right _ (mem_flatMap.mpr ⟨edge, mem, ?_⟩)
  rcases ends with ⟨_, rfl⟩ | ⟨_, rfl⟩
  · exact .tail _ (.head _)
  · exact .head _

theorem mem_ball_iff : name ∈ ball db changedPaths radius ↔ InBall db changedPaths radius name := by
  classical
  unfold ball
  rw [Finset.mem_filter, mem_toFinset, and_iff_right_iff_imp]
  rintro ⟨source, length, isSeed, _, walk⟩
  cases walk with
  | nil => exact mem_graphNames_of_seed isSeed
  | snoc _ edge => exact mem_graphNames_of_joined edge

theorem ball_eq_empty (unchanged : changedPaths = []) : ball db changedPaths radius = ∅ := by
  rw [Finset.eq_empty_iff_forall_notMem]
  intro name mem
  obtain ⟨source, _, isSeed, _⟩ := mem_ball_iff.mp mem
  simp [seedNames, seedRows, unchanged] at isSeed

theorem mem_impactStep_iff {next : String × Nat} :
    next ∈ impactStep db.edges radius (name, depth) ↔ depth < radius ∧ next.2 = depth + 1 ∧ Joined db name next.1 := by
  obtain ⟨reached, nextDepth⟩ := next
  unfold impactStep Joined
  by_cases deeper : depth < radius
  · rw [if_pos deeper]
    simp only [mem_append, mem_map, mem_filter, decide_eq_true_eq, Prod.mk.injEq, deeper, true_and]
    constructor
    · rintro (⟨edge, ⟨mem, target⟩, source, rfl⟩ | ⟨edge, ⟨mem, source⟩, target, rfl⟩)
      · exact ⟨rfl, edge, mem, .inr ⟨target, source⟩⟩
      · exact ⟨rfl, edge, mem, .inl ⟨source, target⟩⟩
    · rintro ⟨rfl, edge, mem, ⟨source, target⟩ | ⟨target, source⟩⟩
      · exact .inr ⟨edge, ⟨mem, source⟩, target, rfl⟩
      · exact .inl ⟨edge, ⟨mem, target⟩, source, rfl⟩
  · rw [if_neg deeper]
    simp [deeper]

theorem derived_iff {seeds : List NodeRow} {row : String × Nat} :
    Derived (impactStep db.edges radius) (seeds.map fun row => (row.qualifiedName, 0)) row ↔
      row.2 ≤ radius ∧
        ∃ source ∈ seeds.map NodeRow.qualifiedName, Walk (Joined db) row.2 source row.1 := by
  constructor
  · rintro ⟨start, isStart, path⟩
    obtain ⟨seed, isSeed, rfl⟩ := mem_map.mp isStart
    have source : seed.qualifiedName ∈ seeds.map NodeRow.qualifiedName := mem_map_of_mem isSeed
    induction path with
    | refl => exact ⟨Nat.zero_le _, _, source, .nil _⟩
    | @tail before after _ made ih =>
      obtain ⟨_, start, isSource, walk⟩ := ih
      obtain ⟨deeper, next, joined⟩ := mem_impactStep_iff.mp made
      rw [next]
      exact ⟨deeper, start, isSource, walk.snoc joined⟩
  · obtain ⟨reached, length⟩ := row
    rintro ⟨bounded, source, isSource, walk⟩
    obtain ⟨seed, isSeed, rfl⟩ := mem_map.mp isSource
    refine ⟨(seed.qualifiedName, 0), mem_map.mpr ⟨seed, isSeed, rfl⟩, ?_⟩
    change length ≤ radius at bounded
    change Walk (Joined db) length seed.qualifiedName reached at walk
    generalize seed.qualifiedName = start at walk
    induction walk with
    | nil => exact .refl
    | snoc walk edge ih => exact (ih (Nat.le_of_succ_le bounded)).tail (mem_impactStep_iff.mpr ⟨bounded, rfl, edge⟩)

def traversalRows (db : Db) (seeds : List NodeRow) (maxDepth : Nat) :
    Option (List (String × Nat)) :=
  recursiveUnion (impactStep db.edges maxDepth) ((graphNames db).length * (maxDepth + 1))
    (seeds.map fun row => (row.qualifiedName, 0))

theorem traversalRows_exact {seeds : List NodeRow} (stored : seeds ⊆ db.nodes) (radius : Nat) :
    ∃ rows, traversalRows db seeds radius = some rows ∧ ∀ name, name ∈ rows.map Prod.fst ↔
      Within (Joined db) (· ∈ seeds.map NodeRow.qualifiedName) radius name := by
  have stays : ∀ row ∈ (graphNames db).toFinset ×ˢ Finset.range (radius + 1), ∀ next ∈ impactStep db.edges radius row,
        next ∈ (graphNames db).toFinset ×ˢ Finset.range (radius + 1) := by
    intro row _ next made
    obtain ⟨deeper, following, joined⟩ := mem_impactStep_iff.mp made
    rw [Finset.mem_product, mem_toFinset, Finset.mem_range, following]
    exact ⟨mem_graphNames_of_joined joined, by omega⟩
  have inside : ∀ row ∈ seeds.map (fun row => (row.qualifiedName, 0)), row ∈
    (graphNames db).toFinset ×ˢ Finset.range (radius + 1) := by
    intro row mem
    obtain ⟨seed, isSeed, rfl⟩ := mem_map.mp mem
    rw [Finset.mem_product, mem_toFinset, Finset.mem_range]
    exact ⟨mem_append_left _ (mem_map_of_mem (stored isSeed)), Nat.succ_pos _⟩
  have enough : ((graphNames db).toFinset ×ˢ Finset.range (radius + 1)).card ≤ (graphNames db).length * (radius + 1) := by
    rw [Finset.card_product, Finset.card_range]
    exact Nat.mul_le_mul_right _ (toFinset_card_le _)
  obtain ⟨rows, ran, _, members⟩ := recursiveUnion_exact stays inside enough
  refine ⟨rows, ran, fun name => ?_⟩
  rw [mem_map]
  constructor
  · rintro ⟨row, mem, rfl⟩
    obtain ⟨bounded, source, isSource, walk⟩ := derived_iff.mp ((members row).mp mem)
    exact ⟨source, row.2, isSource, bounded, walk⟩
  · rintro ⟨source, length, isSource, bounded, walk⟩
    exact ⟨(name, length), (members _).mpr (derived_iff.mpr ⟨bounded, source, isSource, walk⟩), rfl⟩

theorem impactRows_exact (db : Db) (changedPaths : List String) (radius : Nat) :
    ∃ rows, impactRows db changedPaths radius = some rows ∧
      ∀ name, name ∈ rows.map Prod.fst ↔ InBall db changedPaths radius name :=
  traversalRows_exact (fun _ mem => (mem_filter.mp mem).1) radius

theorem mem_impactNames_iff {rows : List (String × Nat)}
    {limit : Nat} (exact : ∀ name, name ∈ rows.map Prod.fst ↔ InBall db changedPaths radius name)
    (fits : (ball db changedPaths radius).card ≤ limit) :
    name ∈ impactNames rows limit ↔ name ∈ ball db changedPaths radius := by
  have names : (firsts id [] (rows.map Prod.fst)).toFinset = ball db changedPaths radius := by
    ext other
    rw [mem_toFinset, mem_firsts_id, exact, mem_ball_iff]
    simp
  have whole : (firsts id [] (rows.map Prod.fst)).length ≤ limit := by
    rw [← toFinset_card_of_nodup (nodup_firsts_id _ _), names]
    exact fits
  unfold impactNames
  rw [take_of_length_le whole, ← mem_toFinset, names]

end

noncomputable def ballEdges (db : Db) (changedPaths : List String) (radius : Nat) : List EdgeRow :=
  db.edges.filter fun edge => decide (edge.sourceQualified ∈ ball db changedPaths radius ∧
    edge.targetQualified ∈ ball db changedPaths radius)

noncomputable def ballNodes (db : Db) (changedPaths : List String) (radius : Nat) : List NodeRow :=
  db.nodes.filter fun row => decide (row.qualifiedName ∈ ball db changedPaths radius ∧
    row.qualifiedName ∉ seedNames db changedPaths)

/-- With caps that do not bind once the policy has clamped them, the impacted nodes are the
ball without the names of the changed nodes, and the edges are those inside the ball. -/
theorem impactRadius_ball (db : Db) (changedPaths : List String) (maxDepth maxNodes maxEdges : Nat)
    (nodesFit : (ball db changedPaths (resolveTraversal {} maxDepth maxNodes maxEdges).depth).card ≤
      (resolveTraversal {} maxDepth maxNodes maxEdges).nodes)
    (edgesFit : (ballEdges db changedPaths (resolveTraversal {} maxDepth maxNodes
      maxEdges).depth).length ≤ (resolveTraversal {} maxDepth maxNodes maxEdges).edges) :
    ∃ result, impactRadius db changedPaths maxDepth maxNodes maxEdges = some result ∧
      result.impactedNodes.Perm ((ballNodes db changedPaths
        (resolveTraversal {} maxDepth maxNodes maxEdges).depth).map rowToNode) ∧
      result.relevantEdges.Perm ((ballEdges db changedPaths
        (resolveTraversal {} maxDepth maxNodes maxEdges).depth).filterMap rowToEdge) := by
  unfold impactRadius
  dsimp only
  generalize resolveTraversal {} maxDepth maxNodes maxEdges = limits at nodesFit edgesFit
  by_cases unchanged : changedPaths = []
  · rw [if_pos unchanged]
    have empty : ball db changedPaths limits.depth = ∅ := ball_eq_empty unchanged
    refine ⟨_, rfl, ?_, ?_⟩
    · simp [sortImpactResult, ballNodes, empty]
    · simp [sortImpactResult, ballEdges, empty]
  · rw [if_neg unchanged]
    obtain ⟨rows, ran, exact⟩ := impactRows_exact db changedPaths limits.depth
    have members : ∀ name, name ∈ impactNames rows limits.nodes ↔
      name ∈ ball db changedPaths limits.depth := fun name => mem_impactNames_iff exact nodesFit
    have seeds : ((seedRows db changedPaths).map rowToNode).map Node.qualifiedName = seedNames db changedPaths := by
      rw [map_map]
      rfl
    have inBall : (db.edges.filter fun row => decide (row.sourceQualified ∈
      impactNames rows limits.nodes ∧ row.targetQualified ∈ impactNames rows limits.nodes)) =
        ballEdges db changedPaths limits.depth := by
      simp only [members]
      rfl
    have whole : ((ballEdges db changedPaths limits.depth).filterMap rowToEdge).take limits.edges =
      (ballEdges db changedPaths limits.depth).filterMap rowToEdge :=
      take_of_length_le ((length_filterMap_le _ _).trans edgesFit)
    rw [ran]
    refine ⟨_, rfl, (perm_insertionSort _ _).trans (List.Perm.of_eq ?_), (perm_insertionSort _ _).trans (List.Perm.of_eq ?_)⟩
    · dsimp only
      rw [seeds]
      refine congrArg _ (filter_congr fun row _ => ?_)
      simp [members]
    · dsimp only
      rw [inBall, whole]

/-- A function that calls another, and in a second repository a moved file that keeps the
name of its function. -/
def movedTwin : Db := run id [writeFunction "a.rs",
    .replaceFileGraph "repo" "c.rs" "h" none none [functionNode "c.rs" "g"]
      [{ kind := .calls, sourceQn := "c.rs::fn::g", targetQn := "a.rs::fn::f", filePath := "c.rs" }],
    .replaceFileGraph "twin" "a.rs" "h" none none [functionNode "a.rs" "f"] [],
    .renameFileGraph "twin" "a.rs" "b.rs"] Db.empty

theorem movedTwin_ball : ∃ result, impactRadius movedTwin ["a.rs"] 3 200 500 = some result ∧
    result.impactedNodes.Perm ((ballNodes movedTwin ["a.rs"] 3).map rowToNode) ∧
      result.relevantEdges.Perm ((ballEdges movedTwin ["a.rs"] 3).filterMap rowToEdge) := by
  refine impactRadius_ball movedTwin ["a.rs"] 3 200 500 ?_ ?_
  · classical
    have few : (graphNames movedTwin).length ≤ 200 := by decide +kernel
    exact (Finset.card_filter_le _ _).trans ((toFinset_card_le _).trans few)
  · have few : movedTwin.edges.length ≤ 500 := by decide +kernel
    exact (length_filter_le _ _).trans few

/-- The twin lies outside the changed file and bears the name of a node in it, and is left out. -/
theorem movedTwin_left_out : ∃ result, impactRadius movedTwin ["a.rs"] 3 200 500 = some result ∧
      ∃ row ∈ movedTwin.nodes, row.filePath ∉ ["a.rs"] ∧
        InBall movedTwin ["a.rs"] 3 row.qualifiedName ∧ rowToNode row ∉ result.impactedNodes := by
  have twins : ∃ row ∈ movedTwin.nodes, row.filePath = "b.rs" ∧
    row.qualifiedName ∈ seedNames movedTwin ["a.rs"] := by decide +kernel
  obtain ⟨row, mem, moved, isSeed⟩ := twins
  have ran : (impactRadius movedTwin ["a.rs"] 3 200 500).map
    (fun result => result.impactedNodes.map Node.filePath) = some ["c.rs"] := by decide +kernel
  cases called : impactRadius movedTwin ["a.rs"] 3 200 500 with
  | none => simp [called] at ran
  | some result =>
    rw [called, Option.map_some, Option.some.injEq] at ran
    refine ⟨result, rfl, row, mem, ?_, ⟨_, 0, isSeed, Nat.zero_le _, .nil _⟩, ?_⟩
    · rw [moved]
      decide
    · intro impacted
      have listed := mem_map_of_mem (f := Node.filePath) impacted
      rw [ran] at listed
      change row.filePath ∈ ["c.rs"] at listed
      rw [moved] at listed
      exact absurd listed (by decide)

end Atlas.Store
