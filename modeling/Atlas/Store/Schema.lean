import Atlas.Core.Graph
import Atlas.Sql.Table
import Atlas.Sql.Transaction

/-! The live graph tables of the SQLite store. Timestamps are left out: no
operation reads them back. -/
namespace Atlas.Store
open Core

inductive AtlasError where
  | db (message : String)
  | other (message : String)
  deriving DecidableEq

structure OwnerColumns where
  ownerId : Option String := none
  ownerKind : Option String := none
  ownerRoot : Option String := none
  ownerManifestPath : Option String := none
  ownerName : Option String := none
  deriving DecidableEq

structure FileRow where
  path : String
  language : Option String
  hash : String
  size : Option Nat
  owner : OwnerColumns
  sourceRepoId : String
  deriving DecidableEq

def FileRow.key (row : FileRow) : String × String := (row.sourceRepoId, row.path)

structure NodeRow where
  id : Nat
  (kind name qualifiedName filePath : String)
  (lineStart lineEnd : Nat)
  (language parentName params returnType modifiers : Option String)
  isTest : Bool
  fileHash : Option String
  extraJson : Json
  sourceRepoId : String
  deriving DecidableEq

def NodeRow.key (row : NodeRow) : String × String := (row.sourceRepoId, row.qualifiedName)

structure FtsDocument where
  rowid : Nat
  (qualifiedName name kind filePath : String)
  (language params returnType modifiers : Option String)
  deriving DecidableEq

def NodeRow.document (row : NodeRow) : FtsDocument where
  rowid := row.id
  qualifiedName := row.qualifiedName
  name := row.name
  kind := row.kind
  filePath := row.filePath
  language := row.language
  params := row.params
  returnType := row.returnType
  modifiers := row.modifiers

structure EdgeRow where
  id : Nat
  (kind sourceQualified targetQualified : String)
  filePath : Option String
  line : Option Nat
  confidence : UInt32
  confidenceTier : Option String
  extraJson : Json
  sourceRepoId : String
  deriving DecidableEq

structure ChunkRow where
  id : Nat
  (sourceRepoId nodeQn : String)
  chunkIdx : Nat
  text : String
  embedding : Option (List UInt8)
  deriving DecidableEq

def ChunkRow.key (row : ChunkRow) : String × String × Nat :=
  (row.sourceRepoId, row.nodeQn, row.chunkIdx)

structure BuildStateRow where
  (repoRoot sourceRepoId : String)
  lastIndexedRef : Option String
  deriving DecidableEq

/-- The graph tables. The full-text index is a set of documents that only its own
insert and `'delete'` commands change. `lastInsertRowid` belongs to the
connection; every operation writes it before reading it. -/
structure Db where
  files : List FileRow := []
  nodes : List NodeRow := []
  nodesFts : List FtsDocument := []
  edges : List EdgeRow := []
  retrievalChunks : List ChunkRow := []
  graphBuildState : List BuildStateRow := []
  lastInsertRowid : Nat := 0
  deriving DecidableEq

def Db.empty : Db := {}

/-- A stored row as the engine reads it: an unknown kind falls back to a
function, a missing language to the empty text. The provenance `row_to_node`
also recovers is read by no operation here. -/
def rowToNode (row : NodeRow) : Node where
  id := row.id
  kind := (NodeKind.fromStr? row.kind).getD .function
  name := row.name
  qualifiedName := row.qualifiedName
  filePath := row.filePath
  lineStart := row.lineStart
  lineEnd := row.lineEnd
  language := row.language.getD ""
  parentName := row.parentName
  params := row.params
  returnType := row.returnType
  modifiers := row.modifiers
  isTest := row.isTest
  fileHash := row.fileHash.getD ""
  extraJson := row.extraJson
  repoProvenance := none

/-! The queries of `store/context.rs`. They join by qualified name alone, so they see the
rows of every repository in the store. The order of rows that tie is SQLite's choice;
here it is the order of the tables. -/

def EdgeKind.fromStr? (text : String) : Option EdgeKind :=
  [EdgeKind.contains, .imports, .calls, .defines, .implements, .extends, .tests, .references,
    .testedBy].find? fun kind => kind.asStr = text

def rowToEdge (row : EdgeRow) : Option Edge := row.filePath.map fun filePath =>
    { id := row.id
      kind := (EdgeKind.fromStr? row.kind).getD .references
      sourceQn := row.sourceQualified
      targetQn := row.targetQualified
      filePath
      line := row.line
      confidence := row.confidence
      confidenceTier := row.confidenceTier
      extraJson := row.extraJson }

def rowToNodeAndEdge (row : NodeRow × EdgeRow) : Option (Node × Edge) :=
  (rowToEdge row.2).map fun edge => (rowToNode row.1, edge)

/-- A whole number that orders `f32` values as their bits stand for them. -/
def confidenceKey (bits : UInt32) : Int :=
  if bits.toNat < 2 ^ 31 then bits.toNat else -((bits.toNat : Int) - 2 ^ 31)

def joinNodes (joins : EdgeRow → NodeRow → Bool) (db : Db) : List (NodeRow × EdgeRow) :=
  db.edges.flatMap fun edge => (db.nodes.filter (joins edge)).map fun node => (node, edge)

inductive EdgeDirection where
  | inbound
  | outbound

def EdgeDirection.joined : EdgeDirection → EdgeRow → String
  | .inbound, edge => edge.sourceQualified
  | .outbound, edge => edge.targetQualified

def EdgeDirection.filtered : EdgeDirection → EdgeRow → String
  | .inbound, edge => edge.targetQualified
  | .outbound, edge => edge.sourceQualified

def directedEdges (direction : EdgeDirection)
    (callsOnly : Bool) (db : Db) (qname : String) (limit : Nat) : List (Node × Edge) :=
  let rows := joinNodes (fun edge node =>
    direction.filtered edge = qname && (!callsOnly || edge.kind = "calls") && node.qualifiedName = direction.joined edge) db
  let ordered := rows.insertionSort fun left right =>
    confidenceKey right.2.confidence < confidenceKey left.2.confidence ∨
      confidenceKey right.2.confidence = confidenceKey left.2.confidence ∧
      direction.joined left.2 ≤ direction.joined right.2
  (ordered.take limit).filterMap rowToNodeAndEdge

def directCallers : Db → String → Nat → List (Node × Edge) := directedEdges .inbound true
def directCallees : Db → String → Nat → List (Node × Edge) := directedEdges .outbound true

def kindNeighbors (kinds : List String) (db : Db) (qname : String) (limit : Nat) :
    List (Node × Edge) :=
  let rows := joinNodes (fun edge node =>
    (edge.sourceQualified = qname && node.qualifiedName = edge.targetQualified ||
      edge.targetQualified = qname && node.qualifiedName = edge.sourceQualified) &&
      edge.kind ∈ kinds && node.qualifiedName ≠ qname) db
  let ordered := rows.insertionSort fun left right =>
    left.1.filePath < right.1.filePath ∨ left.1.filePath = right.1.filePath ∧ left.1.qualifiedName ≤ right.1.qualifiedName
  (ordered.take limit).filterMap rowToNodeAndEdge

def importNeighbors : Db → String → Nat → List (Node × Edge) := kindNeighbors ["imports"]
def testNeighbors : Db → String → Nat → List (Node × Edge) := kindNeighbors ["tests", "tested_by"]

def containmentSiblings (db : Db) (qname : String) (limit : Nat) : List Node :=
  let rows := (db.nodes.filter fun seed =>
    seed.qualifiedName = qname && seed.parentName.isSome).flatMap fun seed =>
      db.nodes.filter fun sibling =>
        sibling.filePath = seed.filePath && sibling.parentName = seed.parentName && sibling.qualifiedName ≠ seed.qualifiedName
  let ordered := rows.insertionSort fun left right => left.lineStart ≤ right.lineStart
  (ordered.take limit).map rowToNode

end Atlas.Store
