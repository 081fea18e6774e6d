import Atlas.Program.Loop
import Atlas.Review.Symbol

/-! A trimmed context is serialized, and items are dropped one at a time until the payload
fits. Sizes and token counts of serialized values are parameters. -/
namespace Atlas.Review
open Core
open Program

structure BudgetLimitRule where
  (defaultLimit maxLimit : Nat)

structure PayloadPolicy where
  (contextPayloadBytes contextTokensEstimate fileExcerptBytes savedContextBytes : BudgetLimitRule)
  reviewSourceBytes : BudgetLimitRule

structure PayloadMeasurement where
  (bytes tokens : Nat)

structure Measures (Score : Type) where
  payload : ContextResult Score → PayloadMeasurement
  lineRanges : List (List (Nat × Nat)) → Nat
  savedSources : List (SavedContextSource Score) → Nat
  files : List SelectedFile → Nat

def effectiveTokenLimit (policy : PayloadPolicy) (request : ContextRequest) : Nat :=
  match request.tokenBudget with
  | some requested =>
    min (min requested policy.contextTokensEstimate.maxLimit) policy.contextTokensEstimate.defaultLimit
  | none => policy.contextTokensEstimate.defaultLimit

def tokenBudgetApplied (policy : PayloadPolicy) (request : ContextRequest) : Option Nat :=
  if request.tokenBudget.isSome ∧ effectiveTokenLimit policy request < policy.contextTokensEstimate.defaultLimit then
    some (effectiveTokenLimit policy request)
  else none

structure DropCandidate (Score : Type) where
  (index keepPriority : Nat)
  score : Score
  (keyA keyB : String)

def fileKeepPriority : SelectionReason → Nat
  | .directTarget => 6
  | .testAdjacent => 5
  | .impactNeighbor => 4
  | .caller | .callee => 3
  | .importer | .importee => 2
  | .containmentSibling => 1

section
variable {Score : Type} (scoring : Scoring Score)

def nodeKeepPriority (selected : SelectedNode Score) : Nat :=
  if selected.node.isTest then 5 else fileKeepPriority selected.selectionReason

def compareDropCandidates (left right : DropCandidate Score) : Ordering :=
  (((compare left.keepPriority right.keepPriority).then
    (scoring.compare left.score right.score)).then
    (compare left.keyA right.keyA)).then
    (compare left.keyB right.keyB)

def selectBestDrop : List (DropCandidate Score) → Option Nat
  | [] => none
  | first :: rest =>
    some (rest.foldl (fun best candidate =>
      if compareDropCandidates scoring best candidate = .gt then candidate else best) first).index

def dropCandidates {Item : Type}
    (droppable : Item → Bool) (candidate : Nat → Item → DropCandidate Score) (items : List Item) :
    List (DropCandidate Score) :=
  (items.zipIdx.filter fun item => droppable item.1).map fun item => candidate item.2 item.1

section
variable (result : ContextResult Score) (index : Nat)

def fileCandidate (file : SelectedFile) : DropCandidate Score where
  index
  keepPriority := fileKeepPriority file.selectionReason
  score := scoring.ofInt file.nodeCountIncluded
  keyA := file.path
  keyB := ""

def savedSourceCandidate (source : SavedContextSource Score) : DropCandidate Score where
  index
  keepPriority := 0
  score := source.relevanceScore
  keyA := source.sourceId
  keyB := ""

def edgeCandidate (selected : SelectedEdge Score) : DropCandidate Score where
  index
  keepPriority := fileKeepPriority selected.selectionReason
  score := selected.relevanceScore
  keyA := selected.edge.sourceQn
  keyB := selected.edge.targetQn

def nodeCandidate (selected : SelectedNode Score) : DropCandidate Score where
  index
  keepPriority := nodeKeepPriority selected
  score := selected.relevanceScore
  keyA := selected.node.qualifiedName
  keyB := ""

def selectExcerptDropIndex (files : List SelectedFile) : Option Nat := selectBestDrop scoring
    (dropCandidates (fun file => !file.lineRanges.isEmpty) (fileCandidate scoring) files)
def selectSavedSourceDropIndex (sources : List (SavedContextSource Score)) : Option Nat :=
  selectBestDrop scoring (dropCandidates (fun _ => true) savedSourceCandidate sources)

def selectFileDropIndex (files : List SelectedFile) : Option Nat :=
  let hasNonDirect := files.any fun file => !file.isTarget
  selectBestDrop scoring (dropCandidates (fun file => !hasNonDirect || !file.isTarget) (fileCandidate scoring) files)

def selectEdgeDropIndex (edges : List (SelectedEdge Score)) : Option Nat :=
  selectBestDrop scoring (dropCandidates (fun _ => true) edgeCandidate edges)

def selectNodeDropIndex (nodes : List (SelectedNode Score)) : Option Nat :=
  if nodes.length ≤ 1 then none
  else
    let hasNonDirect := nodes.any fun selected => !selected.isTarget
    selectBestDrop scoring (dropCandidates (fun selected => !hasNonDirect || !selected.isTarget) nodeCandidate nodes)

def trimWorkflow (workflow : WorkflowSummary) : Option WorkflowSummary :=
  if workflow.callChains ≠ [] then
    some { workflow with callChains := workflow.callChains.dropLast }
  else if workflow.rippleEffects ≠ [] then
    some { workflow with rippleEffects := workflow.rippleEffects.dropLast }
  else if workflow.impactedComponents ≠ [] then
    some { workflow with impactedComponents := workflow.impactedComponents.dropLast }
  else if workflow.highImpactNodes.length > 1 then
    some { workflow with highImpactNodes := workflow.highImpactNodes.dropLast }
  else none

def trimAmbiguity (ambiguity : AmbiguityMeta) : Option AmbiguityMeta :=
  if ambiguity.candidates.length > 1 then
    some { ambiguity with candidates := ambiguity.candidates.dropLast }
  else none

def dropNode : ContextResult Score :=
  match result.nodes[index]? with
  | none => result
  | some removed =>
    { result with
      nodes := result.nodes.eraseIdx index
      edges := result.edges.filter fun selected =>
        selected.edge.sourceQn ≠ removed.node.qualifiedName &&
          selected.edge.targetQn ≠ removed.node.qualifiedName }

def trimOnePayloadUnit : Option (ContextResult Score) :=
  match selectSavedSourceDropIndex scoring result.savedContextSources with
  | some index => some { result with savedContextSources := result.savedContextSources.eraseIdx index }
  | none =>
    match result.workflow.bind trimWorkflow with
    | some workflow => some { result with workflow := some workflow }
    | none =>
      match result.ambiguity.bind trimAmbiguity with
      | some ambiguity => some { result with ambiguity := some ambiguity }
      | none =>
        match selectFileDropIndex scoring result.files with
        | some index => some { result with files := result.files.eraseIdx index }
        | none =>
          match selectEdgeDropIndex scoring result.edges with
          | some index => some { result with edges := result.edges.eraseIdx index }
          | none => (selectNodeDropIndex scoring result.nodes).map (dropNode result)

def dropExcerpt :
    Option (ContextResult Score) := (selectExcerptDropIndex scoring result.files).map fun index =>
    { result with files := result.files.modify index fun file => { file with lineRanges := [] } }

def dropSavedSource : Option (ContextResult Score) :=
  (selectSavedSourceDropIndex scoring result.savedContextSources).map fun index =>
    { result with savedContextSources := result.savedContextSources.eraseIdx index }

def dropFile : Option (ContextResult Score) := (selectFileDropIndex scoring result.files).map
    fun index => { result with files := result.files.eraseIdx index }

end

variable (measures : Measures Score) (policy : PayloadPolicy) (result : ContextResult Score)

def trimFileExcerptBytes : ContextResult Score := dropWhileOver (fun result =>
    measures.lineRanges (result.files.map (·.lineRanges)) > policy.fileExcerptBytes.defaultLimit)
    (dropExcerpt scoring) result.files.length result

def trimSavedContextBytes : ContextResult Score := dropWhileOver (fun result =>
    measures.savedSources result.savedContextSources > policy.savedContextBytes.defaultLimit)
    (dropSavedSource scoring) result.savedContextSources.length result

def trimReviewSourceBytes : ContextResult Score :=
  dropWhileOver (fun result => measures.files result.files > policy.reviewSourceBytes.defaultLimit)
    (dropFile scoring) result.files.length result
def measurePayload : PayloadMeasurement :=
  measures.payload { result with truncation := { result.truncation with payload := none } }
def overPayload : Bool :=
  (measurePayload measures result).bytes > policy.contextPayloadBytes.defaultLimit ||
    (measurePayload measures result).tokens > effectiveTokenLimit policy result.request
def workflowUnits (workflow : WorkflowSummary) : Nat :=
  workflow.callChains.length + workflow.rippleEffects.length + workflow.impactedComponents.length +
    (workflow.highImpactNodes.length - 1)

def payloadUnits : Nat :=
  result.savedContextSources.length + (result.workflow.map workflowUnits).getD 0 +
    (result.ambiguity.map fun ambiguity => ambiguity.candidates.length - 1).getD 0 +
    result.files.length + result.edges.length + (result.nodes.length - 1)

def trimContextPayload : ContextResult Score := dropWhileOver (overPayload measures policy)
    (trimOnePayloadUnit scoring) (payloadUnits result) result

/-- All dropping of `apply_payload_budgets`, before its accounts are written. -/
def trimPayload : ContextResult Score := trimContextPayload scoring measures policy
    (trimReviewSourceBytes scoring measures policy (trimSavedContextBytes scoring measures policy
      (trimFileExcerptBytes scoring measures policy result)))

def continuationHint (request : ContextRequest) (omittedSources : Nat) : String :=
  if omittedSources > 0 then
    "reduce saved-context scope or retrieve full artifacts by source_id"
  else if request.includeCodeSpans then
    "narrow query, lower depth, or disable code_spans for larger payloads"
  else "narrow query, lower depth, or split changed-file set"

structure DropCounts where
  (nodes edges files sources contentAssets bytes : Nat)

def dropCounts (before after : ContextResult Score) : DropCounts where
  nodes := before.nodes.length - after.nodes.length
  edges := before.edges.length - after.edges.length
  files := before.files.length - after.files.length
  sources := before.savedContextSources.length - after.savedContextSources.length
  contentAssets := before.contentAssets.length - after.contentAssets.length
  bytes := (measurePayload measures before).bytes - (measurePayload measures after).bytes

def DropCounts.any (dropped : DropCounts) : Bool := dropped.nodes > 0 || dropped.edges >
    0 || dropped.files > 0 || dropped.sources > 0 || dropped.contentAssets > 0 || dropped.bytes > 0

def payloadTruncation (before after : ContextResult Score) : TruncationMeta :=
  let dropped := dropCounts measures before after
  { nodesDropped := before.truncation.nodesDropped + dropped.nodes
    edgesDropped := before.truncation.edgesDropped + dropped.edges
    filesDropped := before.truncation.filesDropped + dropped.files
    contentAssetsDropped := before.truncation.contentAssetsDropped + dropped.contentAssets
    truncated := dropped.any
    payload := some
      { bytesRequested := (measurePayload measures before).bytes
        bytesEmitted := (measurePayload measures after).bytes
        tokensEstimated := (measurePayload measures after).tokens
        tokenBudgetApplied := tokenBudgetApplied policy before.request
        omittedNodeCount := dropped.nodes
        omittedFileCount := dropped.files
        omittedSourceCount := dropped.sources
        omittedByteCount := dropped.bytes
        continuationHint :=
          if dropped.bytes > 0 || dropped.nodes > 0 || dropped.files > 0 then
            some (continuationHint before.request dropped.sources)
          else none } }

def applyPayloadBudgets : ContextResult Score :=
  let trimmed := trimPayload scoring measures policy result
  if (dropCounts measures result trimmed).any || (tokenBudgetApplied policy result.request).isSome then
    { updateFileNodeCounts trimmed with
      truncation := payloadTruncation measures policy result trimmed }
  else updateFileNodeCounts trimmed

end

/-! The context of a review starts from the impact of the changed files. Both kinds of
context are trimmed, then saved artifacts and content assets are attached, and payload
budgets are applied last. -/

open Store

structure ImpactResult where
  (changedNodes impactedNodes : List Node)
  relevantEdges : List Edge

structure FocusScores (Score : Type) where
  node : (qualifiedName : String) → Score → Score
  edge : (source target : String) → Score → Score

section
variable {Score : Type} (scoring : Scoring Score) (focus : FocusScores Score)

def selectImpactedNodes (changed : List String)
    (impacted : List Node) : List (SelectedNode Score) := impacted.foldl (fun selected node =>
    if node.qualifiedName ∈ changed ++ qualifiedNames selected then selected
    else selected ++ [selectNode scoring node .impactNeighbor 1]) []

variable (buildWorkflowSummary : ContextResult Score → WorkflowSummary) (impact : ImpactResult)

def selectReviewNodes : List (SelectedNode Score) :=
  impact.changedNodes.map (fun node => selectNode scoring node .directTarget 0) ++
    selectImpactedNodes scoring (impact.changedNodes.map (·.qualifiedName)) impact.impactedNodes

def selectReviewEdges (names : List String) (edges : List Edge) : List (SelectedEdge Score) :=
  (edges.filter fun edge => edge.sourceQn ∈ names || edge.targetQn ∈ names).map fun edge =>
    { edge
      selectionReason := .impactNeighbor
      depth := none
      relevanceScore := scoring.ofInt 0 }

def applyImpactFocusScores (result : ContextResult Score) : ContextResult Score :=
  { result with
    nodes := sortBy (compareNodes scoring) (result.nodes.map fun selected =>
      { selected with
        relevanceScore := focus.node selected.node.qualifiedName selected.relevanceScore })
    edges := sortBy (compareEdges scoring) (result.edges.map fun selected =>
      { selected with
        relevanceScore := focus.edge selected.edge.sourceQn selected.edge.targetQn
          selected.relevanceScore }) }

def selectReviewContext (request : ContextRequest) : ContextResult Score :=
  let nodes := selectReviewNodes scoring impact
  applyImpactFocusScores scoring focus (rankContext scoring
    { request
      nodes
      edges := selectReviewEdges scoring (qualifiedNames nodes) impact.relevantEdges
      files := collectFiles nodes })

def finishContext (selected : ContextResult Score) : ContextResult Score :=
  let trimmed := updateFileNodeCounts (trimContext selected)
  let spanned := if selected.request.includeCodeSpans then applyCodeSpans trimmed else trimmed
  { spanned with workflow := some (buildWorkflowSummary spanned) }

def buildReviewContext (request : ContextRequest) : ContextResult Score :=
  finishContext buildWorkflowSummary (selectReviewContext scoring focus impact request)

def selectSymbolContext (db : Db) (request : ContextRequest) (seed : Node) : ContextResult Score :=
  let walk := collectSymbolContext scoring db request seed
  rankContext scoring
    { request
      nodes := walk.nodes
      edges := walk.edges
      files := collectFiles walk.nodes }

theorem buildSymbolContext_eq (db : Db) (request : ContextRequest) (seed : Node) :
    buildSymbolContext scoring db request buildWorkflowSummary seed =
      finishContext buildWorkflowSummary (selectSymbolContext scoring db request seed) := rfl

inductive Built (scoring : Scoring Score)
    (focus : FocusScores Score) (buildWorkflowSummary : ContextResult Score → WorkflowSummary) :
    ContextResult Score → ContextResult Score → Prop where
  | symbol (db : Db) (request : ContextRequest) (seed : Node) (savedContextSources :
    List (SavedContextSource Score)) (contentAssets : List Json) :
      Built scoring focus buildWorkflowSummary (selectSymbolContext scoring db request seed)
        { buildSymbolContext scoring db request buildWorkflowSummary seed with
          savedContextSources, contentAssets }
  | review (impact : ImpactResult) (request : ContextRequest) (savedContextSources :
    List (SavedContextSource Score)) (contentAssets : List Json) :
      Built scoring focus buildWorkflowSummary (selectReviewContext scoring focus impact request)
        { buildReviewContext scoring focus buildWorkflowSummary impact request with
          savedContextSources, contentAssets }

end
end Atlas.Review
