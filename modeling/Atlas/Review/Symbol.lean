import Atlas.Review.Context
import Atlas.Store.Schema

/-! Neighbours of a seed are collected hop by hop, under one set of names seen, and then
ranked and trimmed. Only the caller and callee loops look at the repository of a
neighbour. -/
namespace Atlas.Review
open List Core
open Store

def nodeRepoId (node : Node) : Option String :=
  match node.extraJson.fieldsOrDefault.find? fun field => field.1 = "repo_id" with
  | some (_, .str repo) => some repo
  | _ => none

def keepRepoLocalNeighbor (seedRepoId : Option String) (candidate : Node)
    (allowCrossRepoEdges : Bool) : Bool := allowCrossRepoEdges || nodeRepoId candidate = seedRepoId
def bucketCallers : Nat := 15
def bucketCallees : Nat := 15
def bucketImports : Nat := 10
def bucketSiblings : Nat := 10
def bucketTests : Nat := 10

section
variable {Score : Type}

structure Walk (Score : Type) where
  nodes : List (SelectedNode Score)
  edges : List (SelectedEdge Score) := []
  seenQnames : List String
  nextFrontier : List String := []

variable (scoring : Scoring Score)

def selectNode (node : Node) (selectionReason : SelectionReason) (distance : Nat) :
    SelectedNode Score where
  node
  selectionReason
  distance
  relevanceScore := scoring.ofInt 0

def selectEdge (edge : Edge) (selectionReason : SelectionReason) (hop : Nat) :
    SelectedEdge Score where
  edge
  selectionReason
  depth := some hop
  relevanceScore := scoring.ofInt 0

/-- A neighbour whose name was not seen yet becomes part of the context. -/
def Walk.accept (selectionReason : SelectionReason)
    (hop : Nat) (walk : Walk Score) (node : Node) (edge : Option Edge) : Walk Score :=
  if node.qualifiedName ∈ walk.seenQnames then walk
  else
    { walk with
      seenQnames := node.qualifiedName :: walk.seenQnames
      edges := walk.edges ++ (edge.map fun edge => selectEdge scoring edge selectionReason hop).toList
      nodes := walk.nodes ++ [selectNode scoring node selectionReason hop] }

def Walk.expand (request : ContextRequest) (seedRepoId : Option String)
    (selectionReason : SelectionReason) (hop : Nat) (walk : Walk Score) (found : Node × Edge) :
    Walk Score :=
  if !keepRepoLocalNeighbor seedRepoId found.1 request.allowCrossRepoEdges then walk
  else if found.1.qualifiedName ∈ walk.seenQnames then walk
  else
    let accepted := walk.accept scoring selectionReason hop found.1 (some found.2)
    { accepted with nextFrontier := accepted.nextFrontier ++ [found.1.qualifiedName] }

variable (db : Db) (request : ContextRequest) (seedRepoId : Option String)

def collectCallers (hop : Nat) (fqname : String) (walk : Walk Score) : Walk Score :=
  if request.includeCallers then
    (directCallers db fqname bucketCallers).foldl (Walk.expand scoring request seedRepoId .caller hop) walk
  else walk

def collectCallees (hop : Nat) (fqname : String) (walk : Walk Score) : Walk Score :=
  if request.includeCallees then
    (directCallees db fqname bucketCallees).foldl (Walk.expand scoring request seedRepoId .callee hop) walk
  else walk

def collectImports (hop : Nat) (fqname : String) (walk : Walk Score) : Walk Score :=
  if request.includeImports then
    (importNeighbors db fqname bucketImports).foldl
      (fun walk found => walk.accept scoring .importee hop found.1 (some found.2)) walk
  else walk

def collectSiblings (hop : Nat) (fqname : String) (walk : Walk Score) : Walk Score :=
  if hop = 1 && request.includeNeighbors then
    (containmentSiblings db fqname bucketSiblings).foldl
      (fun walk sibling => walk.accept scoring .containmentSibling hop sibling none) walk
  else walk

def collectTests (hop : Nat) (fqname : String) (walk : Walk Score) : Walk Score :=
  if hop = 1 && request.includeTests then
    (testNeighbors db fqname bucketTests).foldl
      (fun walk found => walk.accept scoring .testAdjacent hop found.1 (some found.2)) walk
  else walk

def visitName (hop : Nat) (walk : Walk Score) (fqname : String) : Walk Score :=
  collectTests scoring db request hop fqname
    (collectSiblings scoring db request hop fqname (collectImports scoring db request hop fqname
        (collectCallees scoring db request seedRepoId hop fqname (collectCallers scoring db request seedRepoId hop fqname walk))))

def walkHops : Nat → Nat → List String → Walk Score → Walk Score
  | 0, _, _, walk => walk
  | left + 1, hop, frontier, walk =>
    let reached := frontier.foldl (visitName scoring db request seedRepoId hop)
      { walk with nextFrontier := [] }
    if reached.nextFrontier = [] then reached
    else walkHops left (hop + 1) reached.nextFrontier reached

def collectSymbolContext (seed : Node) : Walk Score := walkHops scoring db request (nodeRepoId seed)
    (max (request.depth.getD 1) 1) 1 [seed.qualifiedName]
    { nodes := [selectNode scoring seed .directTarget 0]
      seenQnames := [seed.qualifiedName] }

def buildSymbolContext (buildWorkflowSummary : ContextResult Score → WorkflowSummary)
    (seed : Node) : ContextResult Score :=
  let walk := collectSymbolContext scoring db request seed
  let assembled : ContextResult Score :=
    { request
      nodes := walk.nodes
      edges := walk.edges
      files := collectFiles walk.nodes }
  let trimmed := updateFileNodeCounts (trimContext (rankContext scoring assembled))
  let spanned := if request.includeCodeSpans then applyCodeSpans trimmed else trimmed
  { spanned with workflow := some (buildWorkflowSummary spanned) }

end

/-! Without cross-repository edges the seed, its callers and its callees come from one
repository, at every depth. Imports, siblings and tests are taken from wherever their
rows are, when they are asked for. -/

section
variable {Score : Type} {scoring : Scoring Score} {db : Db} {request : ContextRequest}
  {seedRepoId : Option String}

def LocalOrUnchecked (request : ContextRequest)
    (seedRepoId : Option String) (selected : SelectedNode Score) : Prop :=
  nodeRepoId selected.node = seedRepoId ∨ selected.selectionReason = .importee ∧ request.includeImports = true ∨
    selected.selectionReason = .containmentSibling ∧ request.includeNeighbors = true ∧ selected.distance = 1 ∨
    selected.selectionReason = .testAdjacent ∧ request.includeTests = true ∧ selected.distance = 1

variable {selectionReason : SelectionReason}
  {hop : Nat} {walk : Walk Score} {selected : SelectedNode Score}

theorem mem_accept
    {node : Node} {edge : Option Edge}
    (mem : selected ∈ (walk.accept scoring selectionReason hop node edge).nodes) :
    selected ∈ walk.nodes ∨ selected = selectNode scoring node selectionReason hop := by
  unfold Walk.accept at mem
  split at mem
  · exact .inl mem
  · simpa using mem

theorem mem_expand
    {found : Node × Edge}
    (closed : request.allowCrossRepoEdges = false)
    (mem : selected ∈ (walk.expand scoring request seedRepoId selectionReason hop found).nodes) :
    selected ∈ walk.nodes ∨ nodeRepoId selected.node = seedRepoId := by
  unfold Walk.expand at mem
  split at mem
  · exact .inl mem
  · rename_i kept
    split at mem
    · exact .inl mem
    · rcases mem_accept mem with old | rfl
      · exact .inl old
      · have same : nodeRepoId found.1 = seedRepoId := by
          simpa [keepRepoLocalNeighbor, closed] using kept
        exact .inr same

theorem foldl_nodes {Found : Type} {holds : SelectedNode Score → Prop}
    {visit : Walk Score → Found → Walk Score}
    (keeps : ∀ walk found, (∀ selected ∈ walk.nodes, holds selected) → ∀ selected ∈ (visit walk found).nodes, holds selected)
    (found : List Found) (start : ∀ selected ∈ walk.nodes, holds selected) :
    ∀ selected ∈ (found.foldl visit walk).nodes, holds selected := by
  induction found generalizing walk with
  | nil => exact start
  | cons first rest ih => exact ih (keeps walk first start)

section
variable (closed : request.allowCrossRepoEdges = false)
include closed

theorem expand_keeps (selectionReason : SelectionReason) (hop : Nat) (walk : Walk Score) (found :
    Node × Edge) (start : ∀ selected ∈ walk.nodes, LocalOrUnchecked request seedRepoId selected) :
    ∀ selected ∈ (walk.expand scoring request seedRepoId selectionReason hop found).nodes,
      LocalOrUnchecked request seedRepoId selected := by
  intro selected mem
  rcases mem_expand closed mem with old | same
  · exact start selected old
  · exact .inl same

theorem visitName_keeps (hop : Nat) (walk : Walk Score) (fqname : String)
    (start : ∀ selected ∈ walk.nodes, LocalOrUnchecked request seedRepoId selected) :
    ∀ selected ∈ (visitName scoring db request seedRepoId hop walk fqname).nodes,
      LocalOrUnchecked request seedRepoId selected := by
  have callers : ∀ selected ∈ (collectCallers scoring db request seedRepoId hop fqname walk).nodes,
    LocalOrUnchecked request seedRepoId selected := by
    unfold collectCallers
    split
    · exact foldl_nodes (expand_keeps closed .caller hop) _ start
    · exact start
  have callees : ∀ selected ∈ (collectCallees scoring db request seedRepoId hop fqname
    (collectCallers scoring db request seedRepoId hop fqname walk)).nodes,
      LocalOrUnchecked request seedRepoId selected := by
    unfold collectCallees
    split
    · exact foldl_nodes (expand_keeps closed .callee hop) _ callers
    · exact callers
  have imports : ∀ selected ∈ (collectImports scoring db request hop fqname
    (collectCallees scoring db request seedRepoId hop fqname
        (collectCallers scoring db request seedRepoId hop fqname walk))).nodes,
      LocalOrUnchecked request seedRepoId selected := by
    unfold collectImports
    split
    · rename_i asked
      apply foldl_nodes _ _ callees
      intro walk found before selected mem
      rcases mem_accept mem with old | rfl
      · exact before selected old
      · exact .inr (.inl ⟨rfl, asked⟩)
    · exact callees
  have siblings : ∀ selected ∈ (collectSiblings scoring db request hop fqname (collectImports scoring db request hop fqname
        (collectCallees scoring db request seedRepoId hop fqname
          (collectCallers scoring db request seedRepoId hop fqname walk)))).nodes,
      LocalOrUnchecked request seedRepoId selected := by
    unfold collectSiblings
    split
    · rename_i asked
      rw [Bool.and_eq_true, decide_eq_true_eq] at asked
      apply foldl_nodes _ _ imports
      intro walk found before selected mem
      rcases mem_accept mem with old | rfl
      · exact before selected old
      · exact .inr (.inr (.inl ⟨rfl, asked.2, asked.1⟩))
    · exact imports
  unfold visitName collectTests
  split
  · rename_i asked
    rw [Bool.and_eq_true, decide_eq_true_eq] at asked
    apply foldl_nodes _ _ siblings
    intro walk found before selected mem
    rcases mem_accept mem with old | rfl
    · exact before selected old
    · exact .inr (.inr (.inr ⟨rfl, asked.2, asked.1⟩))
  · exact siblings

theorem walkHops_keeps (left hop : Nat) (frontier : List String) (walk : Walk Score)
    (start : ∀ selected ∈ walk.nodes, LocalOrUnchecked request seedRepoId selected) :
    ∀ selected ∈ (walkHops scoring db request seedRepoId left hop frontier walk).nodes,
      LocalOrUnchecked request seedRepoId selected := by
  induction left generalizing hop frontier walk with
  | zero => exact start
  | succ left ih =>
    have reached : ∀ selected ∈ (frontier.foldl (visitName scoring db request seedRepoId hop)
        { walk with nextFrontier := [] }).nodes,
        LocalOrUnchecked request seedRepoId selected :=
      foldl_nodes (visitName_keeps closed hop) frontier start
    unfold walkHops
    dsimp only
    split
    · exact reached
    · exact ih _ _ _ reached

end

theorem mem_sortBy {Item : Type} {order : Item → Item → Ordering} {items : List Item}
    {item : Item} : item ∈ sortBy order items ↔ item ∈ items :=
  (perm_insertionSort _ items).mem_iff

theorem mem_rankContext {result : ContextResult Score}
    (mem : selected ∈ (rankContext scoring result).nodes) :
    ∃ before ∈ result.nodes, selected = { before with relevanceScore := selected.relevanceScore } := by
  obtain ⟨before, inside, rfl⟩ := mem_map.mp (mem_sortBy.mp mem)
  exact ⟨before, inside, rfl⟩

theorem mem_trimNodes {nodes : List (SelectedNode Score)}
    (mem : selected ∈ trimNodes request nodes) : selected ∈ nodes := by
  unfold trimNodes at mem
  split at mem
  · rcases mem_append.mp mem with target | other
    · exact (mem_filter.mp (mem_of_mem_take target)).1
    · exact (mem_filter.mp (mem_of_mem_take other)).1
  · exact mem

variable {buildWorkflowSummary : ContextResult Score → WorkflowSummary} {seed : Node}

theorem buildSymbolContext_nodes :
    (buildSymbolContext scoring db request buildWorkflowSummary seed).nodes =
      trimNodes request (rankContext scoring
        { request
          nodes := (collectSymbolContext scoring db request seed).nodes
          edges := (collectSymbolContext scoring db request seed).edges
          files := collectFiles (collectSymbolContext scoring db request seed).nodes }).nodes := by
  unfold buildSymbolContext
  dsimp only
  split <;> rfl

/-- Over every store, seed, request and depth: a context without cross-repository edges
holds nodes of the seed's repository, and imports, siblings and tests that were asked
for. -/
theorem buildSymbolContext_local (closed : request.allowCrossRepoEdges = false)
    {selected : SelectedNode Score}
    (mem : selected ∈ (buildSymbolContext scoring db request buildWorkflowSummary seed).nodes) :
    LocalOrUnchecked request (nodeRepoId seed) selected := by
  rw [buildSymbolContext_nodes] at mem
  obtain ⟨before, collected, scored⟩ := mem_rankContext (mem_trimNodes mem)
  have start : ∀ first ∈ [selectNode scoring seed .directTarget 0], LocalOrUnchecked request (nodeRepoId seed) first := by
    intro first only
    rw [mem_singleton.mp only]
    exact .inl rfl
  have kept := walkHops_keeps closed _ _ _ _ start before collected
  rw [scored]
  exact kept

end

def sampleNode (repo qualifiedName filePath : String) (parentName : Option String) : NodeRow where
  id := 0
  kind := "function"
  name := "run"
  qualifiedName
  filePath
  lineStart := 1
  lineEnd := 2
  language := some "rust"
  parentName
  params := none
  returnType := none
  modifiers := none
  isTest := false
  fileHash := none
  extraJson := .obj [("repo_id", .str repo)]
  sourceRepoId := repo

def sampleEdge (kind source target : String) : EdgeRow where
  id := 0
  kind
  sourceQualified := source
  targetQualified := target
  filePath := some "src/lib.rs"
  line := none
  confidence := 0x3f800000
  confidenceTier := none
  extraJson := .null
  sourceRepoId := "app"

/-- A seed of one repository calls a function of its own and one of another repository,
from which an import, a sibling and a test come as well. -/
def sampleDb : Db where
  nodes := [
    sampleNode "app" "src/lib.rs::fn::run" "src/lib.rs" (some "src/lib.rs"),
    sampleNode "app" "step.rs::fn::run" "step.rs" none,
    sampleNode "vendor" "log.rs::fn::run" "log.rs" none,
    sampleNode "vendor" "src/lib.rs::fn::old" "src/lib.rs" (some "src/lib.rs"),
    sampleNode "vendor" "check.rs::fn::run" "check.rs" none]
  edges := [
    sampleEdge "calls" "src/lib.rs::fn::run" "step.rs::fn::run",
    sampleEdge "calls" "src/lib.rs::fn::run" "log.rs::fn::run",
    sampleEdge "imports" "src/lib.rs::fn::run" "log.rs::fn::run",
    sampleEdge "tests" "check.rs::fn::run" "src/lib.rs::fn::run"]

def sampleRequest : ContextRequest where
  includeTests := true
  includeNeighbors := true

def sampleScoring : Scoring Int where
  ofInt score := score
  edgeScore priority _ := priority
  compare := compare

def sampleSummary (_ : ContextResult Int) : WorkflowSummary where
  headline := none
  highImpactNodes := []
  impactedComponents := []
  callChains := []
  rippleEffects := []
  noiseReduction := .null

def sampleSeed : Node :=
  rowToNode (sampleNode "app" "src/lib.rs::fn::run" "src/lib.rs" (some "src/lib.rs"))
def sampleContext : ContextResult Int :=
  buildSymbolContext sampleScoring sampleDb sampleRequest sampleSummary sampleSeed

def sampleSelected : SelectedNode Int where
  node := rowToNode (sampleNode "app" "step.rs::fn::run" "step.rs" none)
  selectionReason := .callee
  distance := 1
  relevanceScore := 88

theorem sampleContext_local :
    LocalOrUnchecked sampleRequest (nodeRepoId sampleSeed) sampleSelected := by
  have mem : sampleSelected ∈
      (buildSymbolContext sampleScoring sampleDb sampleRequest sampleSummary sampleSeed).nodes := by
    decide +kernel
  exact buildSymbolContext_local rfl mem

/-- All three unchecked groups bring in a node of the other repository. -/
theorem sampleContext_foreign :
    sampleRequest.allowCrossRepoEdges = false ∧
      nodeRepoId sampleSeed = some "app" ∧
      sampleContext.nodes.map (fun selected =>
        (selected.selectionReason, nodeRepoId selected.node)) =
        [(SelectionReason.directTarget, some "app"),
          (SelectionReason.callee, some "app"),
          (SelectionReason.importee, some "vendor"),
          (SelectionReason.testAdjacent, some "vendor"),
          (SelectionReason.containmentSibling, some "vendor")] := by
  decide +kernel

end Atlas.Review
