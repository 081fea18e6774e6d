import Atlas.Core.Graph

/-! The items a context is made of, the order they are ranked in, and the caps on their
numbers. Relevance scores are `f32`: sums of small whole numbers for nodes, which are
exact, and products with a confidence or an impact score for the rest, which are
parameters. Ranking evidence and the provenance of files are only ever serialized, and
are left out. -/
namespace Atlas.Review
open Core

inductive SelectionReason where
  | directTarget
  | caller
  | callee
  | importer
  | importee
  | testAdjacent
  | containmentSibling
  | impactNeighbor
  deriving DecidableEq

inductive ContextIntent where
  | symbol
  | file
  | review
  | impact
  | impactAnalysis
  | usageLookup
  | refactorSafety
  | deadCodeCheck
  | renamePreview
  | dependencyRemoval
  deriving DecidableEq

structure ContextRequest where
  intent : ContextIntent := .symbol
  maxNodes : Option Nat := none
  maxEdges : Option Nat := none
  maxFiles : Option Nat := none
  depth : Option Nat := none
  includeTests : Bool := false
  includeImports : Bool := true
  includeNeighbors : Bool := false
  includeCodeSpans : Bool := false
  includeCallers : Bool := true
  includeCallees : Bool := true
  /-- Allow caller and callee expansion to cross repositories. -/
  allowCrossRepoEdges : Bool := false
  tokenBudget : Option Nat := none

structure SelectedNode (Score : Type) where
  node : Node
  selectionReason : SelectionReason
  distance : Nat
  relevanceScore : Score
  deriving DecidableEq

structure SelectedEdge (Score : Type) where
  edge : Edge
  selectionReason : SelectionReason
  depth : Option Nat
  relevanceScore : Score

structure SelectedFile where
  path : String
  selectionReason : SelectionReason
  lineRanges : List (Nat × Nat) := []
  language : Option String
  nodeCountIncluded : Nat := 0

structure PayloadTruncationMeta where
  (bytesRequested bytesEmitted tokensEstimated : Nat)
  tokenBudgetApplied : Option Nat
  (omittedNodeCount omittedFileCount omittedSourceCount omittedByteCount : Nat)
  continuationHint : Option String

structure TruncationMeta where
  nodesDropped : Nat := 0
  edgesDropped : Nat := 0
  filesDropped : Nat := 0
  contentAssetsDropped : Nat := 0
  truncated : Bool := false
  payload : Option PayloadTruncationMeta := none

structure AmbiguityMeta where
  query : String
  candidates : List String
  resolved : Bool

structure WorkflowSummary where
  headline : Option String
  (highImpactNodes impactedComponents callChains : List Json)
  rippleEffects : List String
  noiseReduction : Json

structure SavedContextSource (Score : Type) where
  sourceId : String
  relevanceScore : Score
  rest : Json

structure ContextResult (Score : Type) where
  request : ContextRequest
  nodes : List (SelectedNode Score)
  edges : List (SelectedEdge Score)
  files : List SelectedFile
  contentAssets : List Json := []
  truncation : TruncationMeta := {}
  ambiguity : Option AmbiguityMeta := none
  workflow : Option WorkflowSummary := none
  savedContextSources : List (SavedContextSource Score) := []

/-- The `f32` operations behind relevance scores. `compare` is `partial_cmp` with
incomparable values taken for equal. -/
structure Scoring (Score : Type) where
  ofInt : Int → Score
  edgeScore : (priority : Nat) → (confidence : UInt32) → Score
  compare : Score → Score → Ordering

def selectionPriority : SelectionReason → Nat
  | .directTarget => 100
  | .caller => 80
  | .callee => 80
  | .importer => 60
  | .importee => 60
  | .testAdjacent => 50
  | .containmentSibling => 40
  | .impactNeighbor => 30

def kindBoost : NodeKind → Int
  | .function | .method => 3
  | .class | .struct | .trait | .interface => 2
  | _ => 0

def distanceBonus (distance : Nat) : Int := max (10 - 5 * (distance : Int)) 0

/-- The needles are lower-case ASCII, so ASCII letters decide here. -/
def mentions (needle modifiers : String) : Bool :=
  (modifiers.toList.map Char.toLower).tails.any needle.toList.isPrefixOf

def isPublic (modifiers : Option String) : Bool :=
  match modifiers with
  | none => false
  | some text => mentions "pub" text || mentions "public" text || mentions "export" text

section
variable {Score : Type}

def nodeScore (seedFile : String) (selected : SelectedNode Score) : Int :=
  selectionPriority selected.selectionReason +
    distanceBonus selected.distance + (if selected.node.filePath = seedFile then 3 else 0) +
    (if isPublic selected.node.modifiers then 5 else 0)
    + kindBoost selected.node.kind
    - (if selected.node.isTest || selected.node.kind = .test then 10 else 0)

variable (scoring : Scoring Score)

/-- `sort_by` is stable, and so is insertion sort. -/
def sortBy {Item : Type} (order : Item → Item → Ordering) (items : List Item) : List Item :=
  items.insertionSort fun left right => order left right ≠ .gt

def compareNodes (left right : SelectedNode Score) : Ordering :=
  (scoring.compare right.relevanceScore left.relevanceScore).then
    (compare left.node.qualifiedName right.node.qualifiedName)

def compareEdges (left right : SelectedEdge Score) : Ordering :=
  ((scoring.compare right.relevanceScore left.relevanceScore).then
    (compare left.edge.sourceQn right.edge.sourceQn)).then
    (compare left.edge.targetQn right.edge.targetQn)

def compareFiles (left right : SelectedFile) : Ordering :=
  (compare (selectionPriority right.selectionReason) (selectionPriority left.selectionReason)).then
    (compare left.path right.path)

def seedFile (nodes : List (SelectedNode Score)) : String := ((nodes.find? fun selected =>
    selected.selectionReason = .directTarget).map (·.node.filePath)).getD ""

def rankContext (result : ContextResult Score) : ContextResult Score :=
  let seed := seedFile result.nodes
  { result with
    nodes := sortBy (compareNodes scoring) (result.nodes.map fun selected =>
      { selected with relevanceScore := scoring.ofInt (nodeScore seed selected) })
    edges := sortBy (compareEdges scoring) (result.edges.map fun selected =>
      { selected with
        relevanceScore := scoring.edgeScore (selectionPriority selected.selectionReason)
          selected.edge.confidence })
    files := sortBy compareFiles result.files }

end

def defaultMaxNodes : Nat := 50
def defaultMaxEdges : Nat := 100
def defaultMaxFiles : Nat := 20
def ContextRequest.nodeLimit (request : ContextRequest) : Nat :=
  request.maxNodes.getD defaultMaxNodes
def ContextRequest.edgeLimit (request : ContextRequest) : Nat :=
  request.maxEdges.getD defaultMaxEdges
def ContextRequest.fileLimit (request : ContextRequest) : Nat :=
  request.maxFiles.getD defaultMaxFiles

section
variable {Score : Type}

def SelectedNode.isTarget (selected : SelectedNode Score) : Bool :=
  selected.selectionReason = .directTarget
def SelectedFile.isTarget (file : SelectedFile) : Bool := file.selectionReason = .directTarget

variable (request : ContextRequest)
  (result : ContextResult Score) (nodes : List (SelectedNode Score))

/-- Direct targets come first. A review keeps one place for another node. -/
def trimNodes : List (SelectedNode Score) :=
  if nodes.length > request.nodeLimit then
    let targets := nodes.filter (·.isTarget)
    let rest := nodes.filter fun selected => !selected.isTarget
    let reserveNonTarget :=
      if request.intent = .review ∧ request.nodeLimit > 1 ∧ rest ≠ [] ∧ targets.length ≥ request.nodeLimit then 1 else 0
    let kept := targets.take (request.nodeLimit - reserveNonTarget)
    kept ++ rest.take (request.nodeLimit - kept.length)
  else nodes

def qualifiedNames : List String := nodes.map (·.node.qualifiedName)

def trimEdges (names : List String)
    (edges : List (SelectedEdge Score)) : List (SelectedEdge Score) := (edges.filter fun selected =>
    selected.edge.sourceQn ∈ names && selected.edge.targetQn ∈ names).take request.edgeLimit

def trimFiles (files : List SelectedFile) : List SelectedFile :=
  if files.length > request.fileLimit then
    let targets := files.filter (·.isTarget)
    let rest := files.filter fun file => !file.isTarget
    targets ++ rest.take (request.fileLimit - targets.length)
  else files

def trimContext : ContextResult Score :=
  let nodes := trimNodes result.request result.nodes
  let edges := trimEdges result.request (qualifiedNames nodes) result.edges
  let files := trimFiles result.request result.files
  let nodesDropped := result.nodes.length - nodes.length
  let edgesDropped := result.edges.length - edges.length
  let filesDropped := result.files.length - files.length
  { result with
    nodes
    edges
    files
    truncation :=
      { nodesDropped
        edgesDropped
        filesDropped
        contentAssetsDropped := 0
        truncated := nodesDropped > 0 || edgesDropped > 0 || filesDropped > 0
        payload := none } }

def collectFiles : List SelectedFile := nodes.foldl (fun files selected =>
    if selected.node.filePath ∈ files.map (·.path) then files
    else files ++ [{ path := selected.node.filePath
                     selectionReason := selected.selectionReason
                     language := some selected.node.language }]) []

def updateFileNodeCounts : ContextResult Score :=
  { result with
    files := result.files.map fun file =>
      { file with
        nodeCountIncluded :=
          (result.nodes.filter fun selected => selected.node.filePath = file.path).length } }

def mergeSpans (spans : List (Nat × Nat)) : List (Nat × Nat) :=
  match spans.insertionSort fun left right => left.1 ≤ right.1 with
  | [] => []
  | first :: rest =>
    let joined := rest.foldl (fun (merged : List (Nat × Nat) × (Nat × Nat)) span =>
      if span.1 ≤ merged.2.2 + 1 then (merged.1, (merged.2.1, max merged.2.2 span.2))
      else (merged.1 ++ [merged.2], span)) ([], first)
    joined.1 ++ [joined.2]

def givesSpan : SelectionReason → Bool
  | .directTarget | .caller | .callee | .impactNeighbor => true
  | _ => false

def applyCodeSpans : ContextResult Score :=
  let spans (path : String) :=
    (result.nodes.filter fun selected =>
      givesSpan selected.selectionReason && selected.node.filePath = path).map fun selected =>
        (selected.node.lineStart, max selected.node.lineEnd selected.node.lineStart)
  { result with
    files := result.files.map fun file =>
      if spans file.path = [] then file
      else { file with lineRanges := mergeSpans (spans file.path) } }

end
end Atlas.Review
