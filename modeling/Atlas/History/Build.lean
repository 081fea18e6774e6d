import Atlas.History.Schema

/-! Building snapshots: `process_commit` with its three phases, the commit loop and
the rebuild of one snapshot. The parallel parse of phase 2 has no effect of its own,
so a parse result is computed where phase 3 needs it. -/
namespace Atlas.History
open Core Sql

structure ParserRegistry where
  supports : String → Bool
  parse : String → String → Bytes → Option ParsedFile

structure CachedFileGraph where
  language : Option String
  size : Option Nat
  (nodeCount edgeCount : Nat)
  qualifiedNames : List String
  edgeKeys : List EdgeKey
  countsNodes : nodeCount = qualifiedNames.length
  countsEdges : edgeCount = edgeKeys.length

structure BuildRunCache where
  blobBytes : String → Option Bytes := fun _ => none
  blobGraphs : String → Option CachedFileGraph := fun _ => none
  binaryBlobs : String → Bool := fun _ => false

def insertAt {Value : Type} (key : String) (value : Value) (map : String → Option Value) : String →
    Option Value := fun other => if other = key then some value else map other

structure SnapshotFileMembership where
  (filePath fileHash : String)
  qualifiedNames : List String
  edgeKeys : List EdgeKey

structure ParseWork where
  fileIndex : Nat
  (fileHash relPath : String)
  bytes : Bytes
  origLanguage : Option String

structure IngestError where
  commitSha : Option String
  message : String

/-- Where a commit fails. Lookups, cached-graph loads and persisted files are numbered
by the position of the file, statements by their position in their group. -/
structure CommitFaults extends ReplayFaults where
  begins : Option String := none
  lookup : Nat → Option String := fun _ => none
  cachedGraph : Nat → Option String := fun _ => none
  persist : Nat → Nat → Option String := fun _ _ => none
  publish : Nat → Option String := fun _ => none
  rollsBack : Option String := none
  commits : Option String := none

def binarySniffBytes : Nat := 8 * 1024
def isBinaryBytes (bytes : Bytes) : Bool := (bytes.take binarySniffBytes).contains 0

variable (env : BuildEnv)
  (registry : ParserRegistry) (fileHash : String) (snapshotId : Nat) (git : Git)
  (filePath : String) (member : SnapshotFileMembership) (faults : CommitFaults) (commitSha : String)

def loadBlobBytes (cache : BuildRunCache) (commitSha relPath fileHash : String) :
    Except String (Option Bytes × BuildRunCache) :=
  match cache.blobBytes fileHash with
  | some bytes => .ok (some bytes, cache)
  | none =>
    match withContext ("git show " ++ commitSha ++ ":" ++ relPath) (git.showFile commitSha relPath) with
    | .error message => .error message
    | .ok none => .ok (none, cache)
    | .ok (some bytes) => .ok (some bytes, { cache with blobBytes := insertAt fileHash bytes cache.blobBytes })

def hashesToFetch (tracked : List StoredSnapshotFile) (cache : BuildRunCache) : List String :=
  (((tracked.filter fun file => registry.supports file.filePath).map StoredSnapshotFile.fileHash).filter fun hash =>
    (cache.blobBytes hash).isNone && (cache.blobGraphs hash).isNone &&
      !cache.binaryBlobs hash).dedup.insertionSort fun left right => left ≤ right

def prefetchBlobBytes (registry : ParserRegistry)
    (tracked : List StoredSnapshotFile) (cache : BuildRunCache) : Except String BuildRunCache :=
  if hashesToFetch registry tracked cache = [] then .ok cache
  else
    match withContext "batch-fetch blob bytes"
        (git.catFileBlobBatch (hashesToFetch registry tracked cache)) with
    | .error message => .error message
    | .ok fetched =>
      .ok { cache with
        blobBytes := fetched.foldl (fun map blob => insertAt blob.1 blob.2 map) cache.blobBytes }

def storedFileGraph (db : Db) (fileHash : String) : CachedFileGraph where
  language := getHistoricalFileLanguage db fileHash
  size := none
  nodeCount := countHistoricalNodes db fileHash
  edgeCount := countHistoricalEdges db fileHash
  qualifiedNames := listHistoricalNodeQns db fileHash
  edgeKeys := listHistoricalEdgeKeys db fileHash
  countsNodes := by simp [countHistoricalNodes, listHistoricalNodeQns]
  countsEdges := by simp [countHistoricalEdges, listHistoricalEdgeKeys]

def loadCachedFileGraph (fault : Option String) (db : Db)
    (cache : BuildRunCache) (fileHash : String) : Except String (CachedFileGraph × BuildRunCache) :=
  match cache.blobGraphs fileHash with
  | some graph => .ok (graph, cache)
  | none =>
    match attempt fault (storedFileGraph db fileHash) with
    | .error message => .error message
    | .ok graph => .ok (graph, { cache with blobGraphs := insertAt fileHash graph cache.blobGraphs })

structure Collected where
  snapshotFiles : List StoredSnapshotFile := []
  fileMemberships : List SnapshotFileMembership := []
  totalNodeCount : Nat := 0
  totalEdgeCount : Nat := 0
  parseErrorCount : Nat := 0

structure Classified where
  cache : BuildRunCache
  collected : Collected := {}
  parseBatch : List ParseWork := []

def reuseFile (file : StoredSnapshotFile) (graph : CachedFileGraph) (collected : Collected) :
    Collected :=
  { collected with
    snapshotFiles := collected.snapshotFiles ++
      [trackedFile file.filePath file.fileHash (file.language <|> graph.language)
        (file.size <|> graph.size)]
    fileMemberships := collected.fileMemberships ++
      [{ filePath := file.filePath, fileHash := file.fileHash,
         qualifiedNames := graph.qualifiedNames, edgeKeys := graph.edgeKeys }]
    totalNodeCount := collected.totalNodeCount + graph.nodeCount
    totalEdgeCount := collected.totalEdgeCount + graph.edgeCount }

def classifyFile (db : Db) (commitSha : String)
    (fileIndex : Nat) (file : StoredSnapshotFile) (state : Classified) : Except String Classified :=
  if registry.supports file.filePath = false then .ok state
  else
    match withContext ("has_historical_file_graph for " ++ file.fileHash)
        (attempt (faults.lookup fileIndex) (hasHistoricalFileGraph db file.fileHash)) with
    | .error message => .error message
    | .ok true =>
      match loadCachedFileGraph (faults.cachedGraph fileIndex) db state.cache file.fileHash with
      | .error message => .error message
      | .ok (graph, cache) => .ok { state with cache := cache, collected := reuseFile file graph state.collected }
    | .ok false =>
      match loadBlobBytes git state.cache commitSha file.filePath file.fileHash with
      | .error message => .error message
      | .ok (none, cache) => .ok { state with cache := cache }
      | .ok (some bytes, cache) =>
        if cache.binaryBlobs file.fileHash || isBinaryBytes bytes then
          .ok { state with
            cache := { cache with
              binaryBlobs := fun hash => decide (hash = file.fileHash) || cache.binaryBlobs hash } }
        else
          .ok { state with
            cache := cache
            parseBatch := state.parseBatch ++
              [{ fileIndex := fileIndex, fileHash := file.fileHash, relPath := file.filePath,
                 bytes := bytes, origLanguage := file.language }] }

/-- The first component is the error that stopped the loop, if any. -/
def classifyAll (registry : ParserRegistry) (git : Git) (faults : CommitFaults) (db : Db)
    (commitSha : String) : Nat → List StoredSnapshotFile → Classified → Option String × Classified
  | _, [], state => (none, state)
  | fileIndex, file :: rest, state =>
    match classifyFile registry git faults db commitSha fileIndex file state with
    | .error message => (some message, state)
    | .ok next => classifyAll registry git faults db commitSha (fileIndex + 1) rest next

def historicalNode (node : Node) : HistoricalNode where
  fileHash := fileHash
  qualifiedName := node.qualifiedName
  kind := node.kind.asStr
  name := node.name
  filePath := filePath
  lineStart := some node.lineStart
  lineEnd := some node.lineEnd
  language := some node.language
  parentName := node.parentName
  params := node.params
  returnType := node.returnType
  modifiers := node.modifiers
  isTest := node.isTest
  extraJson := some node.extraJson

def edgeKeyOf (edge : Edge) : EdgeKey := (edge.sourceQn, edge.targetQn, edge.kind.asStr)

def historicalEdge (edge : Edge) : HistoricalEdge where
  fileHash := fileHash
  edgeKey := edgeKeyOf edge
  filePath := filePath
  line := edge.line
  confidence := edge.confidence
  confidenceTier := edge.confidenceTier
  extraJson := some edge.extraJson

namespace Statement

def prepare : Sql.Statement Db := id

def insertHistoricalNode (row : HistoricalNode) : Sql.Statement Db := fun db =>
  { db with historicalNodes := insertOrIgnore HistoricalNode.key row db.historicalNodes }

def insertHistoricalEdge (row : HistoricalEdge) : Sql.Statement Db := fun db =>
  { db with historicalEdges := insertOrIgnore HistoricalEdge.key row db.historicalEdges }

def upsertCommit (row : StoredCommit) : Sql.Statement Db := fun db =>
  { db with commits := insertOrReplace StoredCommit.key row db.commits }

def insertSnapshot (row : StoredSnapshot) : Sql.Statement Db := fun db =>
  { db with graphSnapshots := insertOrReplace StoredSnapshot.key row db.graphSnapshots }

def insertSnapshotFile (row : StoredSnapshotFile) : Sql.Statement Db := fun db =>
  { db with snapshotFiles := insertOrReplace StoredSnapshotFile.key row db.snapshotFiles }

def attachSnapshotNode (row : SnapshotNode) : Sql.Statement Db := fun db =>
  { db with snapshotNodes := insertOrIgnore SnapshotNode.key row db.snapshotNodes }

def attachSnapshotEdge (row : SnapshotEdge) : Sql.Statement Db := fun db =>
  { db with snapshotEdges := insertOrIgnore SnapshotEdge.key row db.snapshotEdges }

def insertMembershipBlob (row : StoredSnapshotMembershipBlob) : Sql.Statement Db := fun db =>
  { db with
    snapshotMembershipBlobs :=
      insertOrReplace StoredSnapshotMembershipBlob.key row db.snapshotMembershipBlobs }

end Statement

def persistParsedFile (parsed : ParsedFile) : List (Sql.Statement Db) :=
  [Statement.prepare] ++ parsed.nodes.map
    (fun node => Statement.insertHistoricalNode (historicalNode fileHash filePath node)) ++
    [Statement.prepare] ++
    parsed.edges.map (fun edge => Statement.insertHistoricalEdge (historicalEdge fileHash filePath edge))

structure Persisted where
  db : Db
  cache : BuildRunCache
  collected : Collected
  errors : List IngestError

def parsedNames (parsed : ParsedFile) : List String := parsed.nodes.map Node.qualifiedName
def parsedEdgeKeys (parsed : ParsedFile) : List EdgeKey := parsed.edges.map edgeKeyOf

def parsedFileGraph (work : ParseWork) (parsed : ParsedFile) : CachedFileGraph where
  language := parsed.language <|> work.origLanguage
  size := some work.bytes.length
  nodeCount := parsed.nodes.length
  edgeCount := parsed.edges.length
  qualifiedNames := parsedNames parsed
  edgeKeys := parsedEdgeKeys parsed
  countsNodes := by simp [parsedNames]
  countsEdges := by simp [parsedEdgeKeys]

def collectParsed (work : ParseWork) (parsed : ParsedFile) (collected : Collected) : Collected :=
  { collected with
    snapshotFiles := collected.snapshotFiles ++
      [trackedFile work.relPath work.fileHash (parsed.language <|> work.origLanguage)
        (some work.bytes.length)]
    fileMemberships := collected.fileMemberships ++
      [{ filePath := work.relPath, fileHash := work.fileHash,
         qualifiedNames := parsedNames parsed, edgeKeys := parsedEdgeKeys parsed }]
    totalNodeCount := collected.totalNodeCount + parsed.nodes.length
    totalEdgeCount := collected.totalEdgeCount + parsed.edges.length }

def persistWork (state : Persisted) (work : ParseWork) : Persisted :=
  match registry.parse work.relPath work.fileHash work.bytes with
  | none => state
  | some parsed =>
    match execUntilFault (faults.persist work.fileIndex) 0
        (persistParsedFile work.fileHash work.relPath parsed) state.db with
    | (some message, reached) =>
      { state with
        db := reached
        collected := { state.collected with
          parseErrorCount := state.collected.parseErrorCount + 1 }
        errors := state.errors ++
          [⟨some commitSha, "persist " ++ work.relPath ++ ": " ++ message⟩] }
    | (none, reached) =>
      { state with
        db := reached
        cache := { state.cache with
          blobGraphs := insertAt work.fileHash (parsedFileGraph work parsed) state.cache.blobGraphs }
        collected := collectParsed work parsed state.collected }

def encodeNodeMembership (qualifiedNames : List String) : String :=
  String.intercalate "\n" (qualifiedNames.insertionSort fun left right => left ≤ right)

def encodeEdgeMembership (edgeKeys : List EdgeKey) : String :=
  String.intercalate "\n" ((edgeKeys.insertionSort fun left right =>
    toLex (left.1, toLex left.2) ≤ toLex (right.1, toLex right.2)).map fun key =>
      key.1 ++ "\t" ++ key.2.1 ++ "\t" ++ key.2.2)

def storedCommit (repoId : Nat) (indexedRef : Option String) (commit : GitCommitMeta) :
    StoredCommit where
  commitSha := commit.sha
  repoId := repoId
  parentSha := commit.parentSha
  indexedRef := indexedRef
  authorName := some commit.authorName
  authorEmail := some commit.authorEmail
  authorTime := commit.authorTime
  committerTime := commit.committerTime
  subject := commit.subject
  message := if commit.body = "" then none else some (commit.subject ++ "\n\n" ++ commit.body)

def snapshotRow (repoId snapshotId : Nat) (commitSha : String)
    (rootTreeHash : Option String) (collected : Collected) : StoredSnapshot where
  snapshotId := snapshotId
  repoId := repoId
  commitSha := commitSha
  rootTreeHash := rootTreeHash
  nodeCount := collected.totalNodeCount
  edgeCount := collected.totalEdgeCount
  fileCount := collected.snapshotFiles.length
  parseErrorCount := collected.parseErrorCount

def membershipNodes : List SnapshotNode :=
  member.qualifiedNames.map fun name => ⟨snapshotId, member.fileHash, name⟩
def membershipEdges : List SnapshotEdge :=
  member.edgeKeys.map fun key => ⟨snapshotId, member.fileHash, key⟩

def membershipBlob : StoredSnapshotMembershipBlob where
  snapshotId := snapshotId
  filePath := member.filePath
  fileHash := member.fileHash
  nodeMembership := encodeNodeMembership member.qualifiedNames
  edgeMembership := encodeEdgeMembership member.edgeKeys

def nextSnapshotId (db : Db) : Nat := nextRowid StoredSnapshot.snapshotId db.graphSnapshots

def publish (commitRow : StoredCommit)
    (rootTreeHash : Option String) (collected : Collected) : Block Db := fun db =>
  let snapshotId := nextSnapshotId db
  [Statement.upsertCommit commitRow, Statement.insertSnapshot (snapshotRow commitRow.repoId
    snapshotId commitRow.commitSha rootTreeHash collected)] ++ [Statement.prepare] ++
    collected.snapshotFiles.map (fun file =>
      Statement.insertSnapshotFile { file with snapshotId := snapshotId }) ++
    collected.fileMemberships.flatMap (fun member => [Statement.prepare] ++
      (membershipNodes snapshotId member).map Statement.attachSnapshotNode) ++
    collected.fileMemberships.flatMap (fun member => [Statement.prepare] ++
      (membershipEdges snapshotId member).map Statement.attachSnapshotEdge) ++
    [Statement.prepare] ++
    collected.fileMemberships.map (fun member =>
      Statement.insertMembershipBlob (membershipBlob snapshotId member))

structure BuildState where
  connection : Connection Db
  cache : BuildRunCache := {}
  errors : List IngestError := []

structure BuildEnv where
  registry : ParserRegistry
  repoId : Nat
  indexedRef : Option String := none

def trackedFiles (repoId : Nat) (db : Db) (commit : GitCommitMeta) :
    Except String (List StoredSnapshotFile) := do
  let replayed ← replaySnapshotFiles git faults.toReplayFaults repoId db commit
  let full ← fullSnapshotFiles git commit.sha
  .ok (replayed.getD full)

def rootTreeHash : Option String := (git.revParse (commitSha ++ "^\x7btree\x7d")).toOption

def persistAll (db : Db) (errors : List IngestError) (classified : Classified) : Persisted :=
  classified.parseBatch.foldl (persistWork registry faults commitSha)
    { db := db, cache := classified.cache, collected := classified.collected, errors := errors }

def writeCommit (commit : GitCommitMeta) (tracked : List StoredSnapshotFile) (state : BuildState) :
    Except String Unit × BuildState :=
  let began := withContext "begin commit write transaction: BEGIN IMMEDIATE"
    (match state.connection.pending with
      | some _ => .error "cannot start a transaction within a transaction"
      | none => attempt faults.begins ())
  match began with
  | .error message => (.error message, state)
  | .ok () =>
    let db := state.connection.committed
    match classifyAll env.registry git faults db commit.sha 1 tracked { cache := state.cache } with
    | (some message, classified) =>
      -- Returned with `?`: nothing rolls the transaction back.
      (.error message,
        { state with connection := ⟨db, some db⟩, cache := classified.cache })
    | (none, classified) =>
      let persisted := persistAll env.registry faults commit.sha db state.errors classified
      let next : BuildState :=
        { state with cache := persisted.cache, errors := persisted.errors }
      match execUntilFault faults.publish 0
          (publish (storedCommit env.repoId env.indexedRef commit) (rootTreeHash git commit.sha)
            persisted.collected persisted.db) persisted.db with
      | (some message, reached) =>
        match faults.rollsBack with
        | none => (.error message, { next with connection := ⟨db, none⟩ })
        | some _ => (.error message, { next with connection := ⟨db, some reached⟩ })
      | (none, reached) =>
        match withContext "commit write transaction: COMMIT" (attempt faults.commits ()) with
        | .error message => (.error message, { next with connection := ⟨db, some reached⟩ })
        | .ok () => (.ok (), { next with connection := ⟨reached, none⟩ })

def processCommit (commit : GitCommitMeta) (state : BuildState) : Except String Unit × BuildState :=
  match trackedFiles git faults env.repoId state.connection.visible commit with
  | .error message => (.error message, state)
  | .ok tracked =>
    match prefetchBlobBytes git env.registry tracked state.cache with
    | .error message => (.error message, state)
    | .ok cache => writeCommit env git faults commit tracked { state with cache := cache }

structure CommitStep where
  commit : GitCommitMeta
  git : Git
  faults : CommitFaults := {}

def buildCommit (state : BuildState) (step : CommitStep) : BuildState :=
  if (findSnapshot state.connection.visible env.repoId step.commit.sha).isSome then state
  else
    match processCommit env step.git step.faults step.commit state with
    | (.ok (), next) => next
    | (.error message, next) => { next with errors := next.errors ++ [⟨some step.commit.sha, message⟩] }

def buildCommits (steps : List CommitStep) (state : BuildState) : BuildState :=
  steps.foldl (buildCommit env) state

end Atlas.History
