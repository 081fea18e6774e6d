import Atlas.Content.Chunking
import Atlas.Program.Run
import Mathlib.Algebra.Order.Field.Rat

/-! The content store. A source row owns its chunk rows through a foreign key with
`ON DELETE CASCADE`; the two full-text indexes have no trigger and change only by
explicit commands. -/
namespace Atlas.Content.Artifact
open Program Sql
open Refactor (Text)

inductive OversizedPolicy where
  | failFast
  | partialWithWarning
  | skipFile

structure ContentStoreConfig where
  maxDbBytes : Option Nat := none
  retrievalBatchSize : Nat := 100
  maxChunksPerIndexRun : Nat := 50000
  maxChunksPerFile : Nat := 500
  oversizedPolicy : OversizedPolicy := .partialWithWarning

structure SourceMeta where
  id : String
  (sessionId agentId : Option String)
  (sourceType label : String)
  repoRoot : Option String
  repoRoots : List String
  repoId : Option String
  repoIds : List String
  (identityKind identityValue : String)

structure SourceRow where
  id : String
  (sessionId agentId : Option String)
  (sourceType label : String)
  repoRoot : Option String
  repoRootsJson : List String
  repoId : Option String
  repoIdsJson : List String
  (identityKind identityValue createdAt : String)
  deriving DecidableEq

structure ChunkRow where
  id : Nat
  (sourceId chunkId : String)
  content : Text
  contentType : String
  chunkIndex : Nat
  title : Option Text
  createdAt : String

structure Document where
  rowid : Nat
  title : Option Text
  content : Text
  (sourceId contentType : String)
  deriving DecidableEq

variable (env : Environment)
  (faults : Nat → Option String) (config : ContentStoreConfig) (sourceId : String)
  (row : ChunkRow) (metadata : SourceMeta) (chunks : List Chunk) (old : List String)

def ChunkRow.document : Document where
  rowid := row.id
  title := row.title
  content := row.content
  sourceId := row.sourceId
  contentType := row.contentType

structure VocabularyRow where
  term : Text
  docFreq : Nat

structure IndexStateRow where
  repoRoot : String
  (filesIndexed chunksWritten chunksReused : Nat)

structure Db where
  sources : List SourceRow
  chunks : List ChunkRow
  /-- The largest id that `AUTOINCREMENT` has given to a chunk row. -/
  sequence : Nat
  (chunksFts chunksTrigram : List Document)
  vocabulary : List VocabularyRow
  indexState : List IndexStateRow

def Db.empty : Db where
  sources := []
  chunks := []
  sequence := 0
  chunksFts := []
  chunksTrigram := []
  vocabulary := []
  indexState := []

structure IndexRunStats where
  bufferedChunkCount : Nat := 0
  bufferedBytes : Nat := 0
  stagedVectorBytes : Nat := 0
  batchFlushCount : Nat := 0
  chunksThisRun : Nat := 0

structure ContentStore where
  db : Db
  runStats : IndexRunStats := {}

/-- `ORDER BY created_at ASC LIMIT 1`, which leaves the choice among equal times open. -/
structure OldestSource where
  pick : List SourceRow → Option SourceRow
  none_iff : ∀ sources, pick sources = none ↔ sources = []
  mem : ∀ sources source, pick sources = some source → source ∈ sources
  least : ∀ sources source, pick sources = some source → ∀ other ∈ sources, ¬ other.createdAt < source.createdAt

structure Faults where
  /-- The transactions of an indexing call, and the statements that follow them. -/
  transaction : Nat → Option String := fun _ => none
  /-- The three statements of the deletions that a call makes one after the other. -/
  deletion : Nat → Nat → Option String := fun _ _ => none
  read : Nat → Option String := fun _ => none

structure Environment where
  config : ContentStoreConfig
  libraries : Libraries
  stableRepoId : String → String
  isAlphanumeric : Char → Bool
  toLowercase : Char → Text
  now : String
  daysAgo : Nat → String
  pageSize : Nat
  /-- Successive answers of `PRAGMA page_count`. -/
  pageCount : Nat → Nat
  oldest : OldestSource
  faults : Faults

def dbError (msg : String) : String := "database error: " ++ msg

/-- A transaction, or a statement of its own: it takes effect as a whole or fails and
changes nothing. -/
def issue {Value : Type} (fault : Option String)
    (change : Db → Except String (Value × Db)) : Run ContentStore Value := fun store =>
  match fault with
  | some msg => (.error (dbError msg), store)
  | none =>
    match change store.db with
    | .error msg => (.error (dbError msg), store)
    | .ok (value, db) => (.ok value, { store with db })

def deleteSources (selects : SourceRow → Bool) (db : Db) : Db :=
  { db with
    sources := deleteWhere selects db.sources
    chunks := deleteWhere
      (fun row => db.sources.any fun source => selects source && decide (source.id = row.sourceId))
      db.chunks }

def insertOrReplaceSource (row : SourceRow) (db : Db) : Db :=
  let db := deleteSources (fun source => decide (source.id = row.id)) db
  { db with sources := db.sources ++ [row] }

def ofSource : Bool := decide (row.sourceId = sourceId)
def isChunk (chunkId : String) (row : ChunkRow) : Bool :=
  decide (row.sourceId = sourceId ∧ row.chunkId = chunkId)
def isPlace (chunkIndex : Nat) (row : ChunkRow) : Bool :=
  decide (row.sourceId = sourceId ∧ row.chunkIndex = chunkIndex)
def removeDocuments (rows : List ChunkRow) (index : List Document) : List Document :=
  index.diff (rows.map ChunkRow.document)

def removeChunk (db : Db) (chunkId : String) : Db :=
  let rows := db.chunks.filter (isChunk sourceId chunkId)
  { db with
    chunks := deleteWhere (isChunk sourceId chunkId) db.chunks
    chunksFts := removeDocuments rows db.chunksFts
    chunksTrigram := removeDocuments rows db.chunksTrigram }

def updateChunkIndex (chunkId : String) (chunkIndex : Nat) (db : Db) : Except String Db :=
  if db.chunks.any fun row =>
      isPlace sourceId chunkIndex row && db.chunks.any (isChunk sourceId chunkId) && !isChunk sourceId chunkId row then
    .error "UNIQUE constraint failed: chunks.source_id, chunks.chunk_index"
  else
    .ok { db with
      chunks := updateWhere (isChunk sourceId chunkId) (fun row => { row with chunkIndex }) db.chunks }

def chunkRow (id : Nat) (chunk : Chunk) : ChunkRow where
  id := id
  sourceId := sourceId
  chunkId := chunk.chunkId
  content := chunk.content
  contentType := chunk.contentType
  chunkIndex := chunk.chunkIndex
  title := chunk.title
  createdAt := env.now

/-- The row and its two documents, under the id that `AUTOINCREMENT` gives. -/
def insertChunk (env : Environment) (sourceId : String) (chunk : Chunk) (db : Db) :
    Except String Db :=
  if db.chunks.any (isChunk sourceId chunk.chunkId) then
    .error "UNIQUE constraint failed: chunks.source_id, chunks.chunk_id"
  else if db.chunks.any (isPlace sourceId chunk.chunkIndex) then
    .error "UNIQUE constraint failed: chunks.source_id, chunks.chunk_index"
  else if !db.sources.any fun source => decide (source.id = sourceId) then
    .error "FOREIGN KEY constraint failed"
  else
    let row := chunkRow env sourceId (db.sequence + 1) chunk
    .ok { db with
      chunks := db.chunks ++ [row]
      sequence := db.sequence + 1
      chunksFts := db.chunksFts ++ [row.document]
      chunksTrigram := db.chunksTrigram ++ [row.document] }

def deleteSource : Run ContentStore Unit := do
  issue (faults 0) fun db => .ok ((), { db with
    chunksFts := removeDocuments (db.chunks.filter (ofSource sourceId)) db.chunksFts })
  issue (faults 1) fun db => .ok ((), { db with
    chunksTrigram := removeDocuments (db.chunks.filter (ofSource sourceId)) db.chunksTrigram })
  issue (faults 2) fun db => .ok ((), deleteSources (fun source => decide (source.id = sourceId)) db)

def ofSession (sessionId : String) (agentId : Option String) (source : SourceRow) : Bool :=
  decide (source.sessionId = some sessionId) &&
    match agentId with
    | none => true
    | some agent => decide (source.agentId = some agent)

def chunksOf (selects : SourceRow → Bool) (db : Db) : List ChunkRow := db.chunks.filter fun row =>
    db.sources.any fun source => selects source && decide (source.id = row.sourceId)

def deleteSessionSources (sessionId : String) (agentId : Option String) : Run ContentStore Nat := do
  issue (faults 0) fun db => .ok ((), { db with
    chunksFts := removeDocuments (chunksOf (ofSession sessionId agentId) db) db.chunksFts })
  issue (faults 1) fun db => .ok ((), { db with
    chunksTrigram := removeDocuments (chunksOf (ofSession sessionId agentId) db) db.chunksTrigram })
  issue (faults 2) fun db =>
    .ok (db.sources.countP (ofSession sessionId agentId), deleteSources (ofSession sessionId agentId) db)

def olderThan (cutoff : String) (source : SourceRow) : Bool := decide (source.createdAt < cutoff)

def cleanup (keepDays : Nat) : Run ContentStore Nat := issue (env.faults.transaction 0) fun db =>
    .ok (db.sources.countP (olderThan (env.daysAgo keepDays)), deleteSources (olderThan (env.daysAgo keepDays)) db)

def readPages (fault answer : Nat) : Run ContentStore Nat :=
  issue (env.faults.read fault) fun db => .ok (env.pageCount answer, db)

def enforceFrom (env : Environment) (maxBytes : Nat) : Nat → Nat → Run ContentStore Nat
  | 0, removed => pure removed
  | fuel + 1, removed => do
      let pages ← readPages env (2 * removed + 2) (removed + 1)
      if pages * env.pageSize ≤ maxBytes then pure removed
      else do
        let oldest ← issue (env.faults.read (2 * removed + 3)) fun db => .ok (env.oldest.pick db.sources, db)
        match oldest with
        | none => pure removed
        | some source => do
            deleteSource (env.faults.deletion removed) source.id
            enforceFrom env maxBytes fuel (removed + 1)

def enforceSizeLimit (maxBytes : Nat) : Run ContentStore Nat := do
  let pages ← readPages env 0 0
  issue (env.faults.read 1) fun db => .ok ((), db)
  if pages * env.pageSize ≤ maxBytes then pure 0
  else do
    let store ← Run.get
    enforceFrom env maxBytes (store.db.sources.length + 1) 0

def deriveRepoIds (repoRoots : List String) (repoId : Option String) (repoIds : List String) :
    List String :=
  let derived := if repoIds = [] then repoRoots.map env.stableRepoId else repoIds
  let derived :=
    match repoId with
    | some repo => if repo = "" then derived else derived ++ [repo]
    | none => derived
  (derived.insertionSort fun first second => first ≤ second).dedup

def sourceRow : SourceRow :=
  let repoIds := deriveRepoIds env metadata.repoRoots metadata.repoId metadata.repoIds
  { id := metadata.id
    sessionId := metadata.sessionId
    agentId := metadata.agentId
    sourceType := metadata.sourceType
    label := metadata.label
    repoRoot := metadata.repoRoot
    repoRootsJson := metadata.repoRoots
    repoId := metadata.repoId.or (if repoIds.length = 1 then repoIds.head? else none)
    repoIdsJson := repoIds
    identityKind := metadata.identityKind
    identityValue := metadata.identityValue
    createdAt := env.now }

def applyCap (policy : OversizedPolicy) (limit : Nat) (msg : String) (chunks : List Chunk) :
    Except String (Option (List Chunk)) :=
  if chunks.length ≤ limit then .ok (some chunks)
  else
    match policy with
    | .failFast => .error ("chunk cap exceeded: " ++ msg)
    | .partialWithWarning => .ok (some (chunks.take limit))
    | .skipFile => .ok none

def remainingRunCapacity (stats : IndexRunStats) : Nat :=
  config.maxChunksPerIndexRun - stats.chunksThisRun

def applyCaps (stats : IndexRunStats) (sourceId : String) (chunks : List Chunk) :
    Except String (Option (List Chunk)) :=
  let perFile := applyCap config.oversizedPolicy config.maxChunksPerFile
    ("source '" ++ sourceId ++ "' produced " ++ toString chunks.length ++
      " chunks, max_chunks_per_file=" ++ toString config.maxChunksPerFile) chunks
  match perFile with
  | .ok (some chunks) =>
    applyCap config.oversizedPolicy (remainingRunCapacity config stats)
      ("source '" ++ sourceId ++ "' would exceed max_chunks_per_index_run=" ++
        toString config.maxChunksPerIndexRun ++ " (run total so far=" ++
        toString stats.chunksThisRun ++ ", this file=" ++ toString chunks.length ++ ")") chunks
  | stopped => stopped

def buffered (stats : IndexRunStats) : IndexRunStats :=
  let bytes := (chunks.map fun chunk => byteLength chunk.content).sum
  { stats with
    bufferedChunkCount := stats.bufferedChunkCount + chunks.length
    bufferedBytes := stats.bufferedBytes + bytes
    stagedVectorBytes := stats.stagedVectorBytes + bytes }

def upsertSource (db : Db) : List String × Db :=
  let db := insertOrReplaceSource (sourceRow env metadata) db
  let old := (db.chunks.filter (ofSource metadata.id)).map ChunkRow.chunkId
  let removed := old.filter fun chunkId => decide (chunkId ∉ chunks.map Chunk.chunkId)
  (old, removed.foldl (removeChunk metadata.id) db)

def writeChunk (db : Db) (chunk : Chunk) : Except String Db :=
  if chunk.chunkId ∈ old then updateChunkIndex sourceId chunk.chunkId chunk.chunkIndex db
  else insertChunk env sourceId chunk db

def flushBatch (env : Environment) (sourceId : String)
    (old : List String) (batch : List Chunk) (db : Db) : Except String (Unit × Db) :=
  (batch.foldlM (writeChunk env sourceId old) db).map fun db => ((), db)

def extractVocabTerms (text : Text) : List Text :=
  let lowered := (text.splitOnP fun c => !env.isAlphanumeric c).map
    fun word => word.flatMap env.toLowercase
  (lowered.filter fun word => decide (3 ≤ word.length) && word.all Char.isAlpha).eraseDups

def countTerm (vocabulary : List VocabularyRow) (term : Text) : List VocabularyRow :=
  insertOrUpdate VocabularyRow.term (fun row => { row with docFreq := row.docFreq + 1 })
    { term, docFreq := 1 } vocabulary

/-- The counters of `retrieval_index_state`; a failure is only logged. -/
def incrementIndexCountersWithReuse (repoRoot : String)
    (written reused : Nat) : Run ContentStore Unit := do
  issue (faults 0) fun db => .ok ((), { db with
    indexState := insertOrIgnore IndexStateRow.repoRoot
      { repoRoot, filesIndexed := 0, chunksWritten := 0, chunksReused := 0 } db.indexState })
  issue (faults 1) fun db => .ok ((), { db with
    indexState := updateWhere (fun row => decide (row.repoRoot = repoRoot))
      (fun row => { row with
        filesIndexed := row.filesIndexed + 1
        chunksWritten := row.chunksWritten + written
        chunksReused := row.chunksReused + reused })
      db.indexState })

def batchesOf : List (List Chunk) := windows (max config.retrievalBatchSize 1) chunks

def flushEntry (entry : List Chunk × Nat) : Run ContentStore Unit := do
  issue (env.faults.transaction (entry.2 + 1)) (flushBatch env sourceId old entry.1)
  Run.modify fun store =>
    { store with
      runStats := { store.runStats with batchFlushCount := store.runStats.batchFlushCount + 1 } }

def flushBatches (env : Environment)
    (sourceId : String) (old : List String) (batches : List (List Chunk)) : Run ContentStore Unit :=
  Run.forEach (flushEntry env sourceId old) batches.zipIdx

def storeVocabulary (position : Nat) (rawText : Text) : Run ContentStore Unit :=
  issue (env.faults.transaction position) fun db =>
    .ok ((), { db with vocabulary := (extractVocabTerms env rawText).foldl countTerm db.vocabulary })

def finishIndexing (chunks : List Chunk) (position : Nat) : Run ContentStore Unit := do
  let inserted := chunks.countP fun chunk => decide (chunk.chunkId ∉ old)
  let reused := chunks.countP fun chunk => decide (chunk.chunkId ∈ old)
  Run.modify fun store =>
    { store with
      runStats := { store.runStats with chunksThisRun := store.runStats.chunksThisRun + inserted } }
  match metadata.repoRoot with
  | none => pure ()
  | some repoRoot => do
      let _ ← Run.attempt (incrementIndexCountersWithReuse
        (fun offset => env.faults.transaction (position + offset)) repoRoot inserted reused)
  match env.config.maxDbBytes with
  | none => pure ()
  | some limit => do
      let _ ← Run.attempt (enforceSizeLimit env limit)

def indexChunks (rawText : Text) (chunks : List Chunk) : Run ContentStore Unit := do
  let batches := batchesOf env.config chunks
  let old ← issue (env.faults.transaction 0) fun db => .ok (upsertSource env metadata chunks db)
  flushBatches env metadata.id old batches
  storeVocabulary env (batches.length + 1) rawText
  finishIndexing env metadata old chunks (batches.length + 2)

/-- The result is `none` when `chunk_text` panics, before anything is written. -/
def indexArtifact (rawText : Text) (contentType : String) (store : ContentStore) :
    Option (Except String Unit × ContentStore) :=
  (chunkText env.libraries metadata.id rawText contentType).map fun chunks =>
    match applyCaps env.config store.runStats metadata.id chunks with
    | .error msg => (.error msg, store)
    | .ok none => (.ok (), store)
    | .ok (some kept) =>
      indexChunks env metadata rawText kept
        { store with runStats := buffered kept store.runStats }

structure ChunkResult where
  (sourceId chunkId : String)
  chunkIndex : Nat
  title : Option Text
  content : Text
  contentType : String
  deriving DecidableEq

def ChunkRow.result : ChunkResult where
  sourceId := row.sourceId
  chunkId := row.chunkId
  chunkIndex := row.chunkIndex
  title := row.title
  content := row.content
  contentType := row.contentType

def getChunks (db : Db) (sourceId : String) : List ChunkResult :=
  ((db.chunks.filter (ofSource sourceId)).insertionSort fun first second => first.chunkIndex ≤
    second.chunkIndex).map ChunkRow.result

/-! ## Fusing ranked results

The scores are taken as exact. -/

def rrfK : Nat := 60

/-- `*scores.entry(key).or_default() += 1.0 / (RRF_K + rank + 1.0)`. -/
def rankScores (ranked : List ChunkResult) (scores : List (String × ℚ)) : List (String × ℚ) :=
  mergeAll Prod.fst (fun entry => (entry.1.chunkId, 0 + 1 / ((rrfK : ℚ) + entry.2 + 1)))
    (fun entry old => (old.1, old.2 + 1 / ((rrfK : ℚ) + entry.2 + 1))) ranked.zipIdx scores

/-- Read in the order of the map and sorted by the score alone. The sort is stable. -/
def rrfMerge (order : HashOrder (String × ℚ)) (listA listB : List ChunkResult) : List ChunkResult :=
  let scores := rankScores listB (rankScores listA [])
  let items := insertAllOrIgnore ChunkResult.chunkId listB
    (insertAllOrIgnore ChunkResult.chunkId listA [])
  (((order.arrange scores).filterMap fun entry =>
      (lookup ChunkResult.chunkId items entry.1).map fun chunk => (chunk, entry.2)).insertionSort
    fun left right => right.2 ≤ left.2).map Prod.fst

inductive Request where
  | indexArtifact (metadata : SourceMeta) (rawText : Text) (contentType : String)
  | deleteSource (sourceId : String)
  | deleteSessionSources (sessionId : String) (agentId : Option String)
  | cleanup (keepDays : Nat)
  | enforceSizeLimit (maxBytes : Nat)

def perform (store : ContentStore) : Request → ContentStore
  | .indexArtifact metadata rawText contentType =>
    ((indexArtifact env metadata rawText contentType store).map Prod.snd).getD store
  | .deleteSource sourceId => (deleteSource (env.faults.deletion 0) sourceId store).2
  | .deleteSessionSources sessionId agentId =>
    (deleteSessionSources (env.faults.deletion 0) sessionId agentId store).2
  | .cleanup keepDays => (cleanup env keepDays store).2
  | .enforceSizeLimit maxBytes => (enforceSizeLimit env maxBytes store).2

def run (store : ContentStore) (steps : List (Environment × Request)) : ContentStore :=
  steps.foldl (fun store step => perform step.1 store step.2) store

end Atlas.Content.Artifact
