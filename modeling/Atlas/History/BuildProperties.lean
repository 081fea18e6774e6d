import Atlas.History.Build
import Atlas.History.Replay

/-! What the phases of one commit write and collect. -/
namespace Atlas.History
open List Core Sql

variable {after cache : BuildRunCache} {file : StoredSnapshotFile} {fileIndex : Nat}
  {errors : List IngestError} {message hash : String} {step : CommitStep}

/-! ## Statement loops -/

theorem execAll_insertHistoricalNode (rows : List HistoricalNode) (db : Db) :
    execAll (rows.map Statement.insertHistoricalNode) db =
      { db with
        historicalNodes := insertAllOrIgnore HistoricalNode.key rows db.historicalNodes } := by
  induction rows generalizing db with
  | nil => rfl
  | cons row rest ih => exact ih _

private theorem execAll_insertHistoricalEdge (rows : List HistoricalEdge) (db : Db) :
    execAll (rows.map Statement.insertHistoricalEdge) db =
      { db with
        historicalEdges := insertAllOrIgnore HistoricalEdge.key rows db.historicalEdges } := by
  induction rows generalizing db with
  | nil => rfl
  | cons row rest ih => exact ih _

private theorem execAll_insertSnapshotFile (rows : List StoredSnapshotFile) (db : Db) :
    execAll (rows.map Statement.insertSnapshotFile) db =
      { db with
        snapshotFiles := insertAllOrReplace StoredSnapshotFile.key rows db.snapshotFiles } := by
  induction rows generalizing db with
  | nil => rfl
  | cons row rest ih => exact ih _

private theorem execAll_attachSnapshotNode (rows : List SnapshotNode) (db : Db) :
    execAll (rows.map Statement.attachSnapshotNode) db =
      { db with snapshotNodes := insertAllOrIgnore SnapshotNode.key rows db.snapshotNodes } := by
  induction rows generalizing db with
  | nil => rfl
  | cons row rest ih => exact ih _

private theorem execAll_attachSnapshotEdge (rows : List SnapshotEdge) (db : Db) :
    execAll (rows.map Statement.attachSnapshotEdge) db =
      { db with snapshotEdges := insertAllOrIgnore SnapshotEdge.key rows db.snapshotEdges } := by
  induction rows generalizing db with
  | nil => rfl
  | cons row rest ih => exact ih _

private theorem execAll_insertMembershipBlob (rows : List StoredSnapshotMembershipBlob) (db : Db) :
    execAll (rows.map Statement.insertMembershipBlob) db =
      { db with
        snapshotMembershipBlobs :=
          insertAllOrReplace StoredSnapshotMembershipBlob.key rows db.snapshotMembershipBlobs } := by
  induction rows generalizing db with
  | nil => rfl
  | cons row rest ih => exact ih _

private theorem execAll_attachMembershipNodes (snapshotId : Nat)
    (memberships : List SnapshotFileMembership) (db : Db) :
    execAll (memberships.flatMap fun member => [Statement.prepare] ++
      (membershipNodes snapshotId member).map Statement.attachSnapshotNode) db =
      { db with
        snapshotNodes := insertAllOrIgnore SnapshotNode.key
          (memberships.flatMap (membershipNodes snapshotId)) db.snapshotNodes } := by
  induction memberships generalizing db with
  | nil => rfl
  | cons member rest ih =>
    rw [flatMap_cons, execAll_append, execAll_append, execAll_attachSnapshotNode, ih, flatMap_cons, insertAllOrIgnore_append]
    rfl

private theorem execAll_attachMembershipEdges (snapshotId : Nat)
    (memberships : List SnapshotFileMembership) (db : Db) :
    execAll (memberships.flatMap fun member => [Statement.prepare] ++
      (membershipEdges snapshotId member).map Statement.attachSnapshotEdge) db =
      { db with
        snapshotEdges := insertAllOrIgnore SnapshotEdge.key
          (memberships.flatMap (membershipEdges snapshotId)) db.snapshotEdges } := by
  induction memberships generalizing db with
  | nil => rfl
  | cons member rest ih =>
    rw [flatMap_cons, execAll_append, execAll_append, execAll_attachSnapshotEdge, ih, flatMap_cons, insertAllOrIgnore_append]
    rfl

variable (fileHash filePath : String)

def persistedNodes (parsed : ParsedFile) : List HistoricalNode :=
  parsed.nodes.map (historicalNode fileHash filePath)
def persistedEdges (parsed : ParsedFile) : List HistoricalEdge :=
  parsed.edges.map (historicalEdge fileHash filePath)

theorem execAll_persistParsedFile (parsed : ParsedFile) (db : Db) :
    execAll (persistParsedFile fileHash filePath parsed) db =
      { db with
        historicalNodes := insertAllOrIgnore HistoricalNode.key
          (persistedNodes fileHash filePath parsed) db.historicalNodes
        historicalEdges := insertAllOrIgnore HistoricalEdge.key
          (persistedEdges fileHash filePath parsed) db.historicalEdges } := by
  have nodes : (parsed.nodes.map fun node =>
      Statement.insertHistoricalNode (historicalNode fileHash filePath node)) =
      (persistedNodes fileHash filePath parsed).map Statement.insertHistoricalNode := by
    rw [persistedNodes, map_map]
    rfl
  have edges : (parsed.edges.map fun edge =>
      Statement.insertHistoricalEdge (historicalEdge fileHash filePath edge)) =
      (persistedEdges fileHash filePath parsed).map Statement.insertHistoricalEdge := by
    rw [persistedEdges, map_map]
    rfl
  simp only [persistParsedFile, nodes, edges, execAll_append, execAll_insertHistoricalNode, execAll_insertHistoricalEdge]
  rfl

def publishedDb (commitRow : StoredCommit)
    (rootTreeHash : Option String) (collected : Collected) (db : Db) : Db :=
  let snapshotId := nextSnapshotId db
  { db with
    commits := insertOrReplace StoredCommit.key commitRow db.commits
    graphSnapshots := insertOrReplace StoredSnapshot.key
      (snapshotRow commitRow.repoId snapshotId commitRow.commitSha rootTreeHash collected)
      db.graphSnapshots
    snapshotFiles := insertAllOrReplace StoredSnapshotFile.key
      (collected.snapshotFiles.map fun file => { file with snapshotId := snapshotId })
      db.snapshotFiles
    snapshotNodes := insertAllOrIgnore SnapshotNode.key
      (collected.fileMemberships.flatMap (membershipNodes snapshotId)) db.snapshotNodes
    snapshotEdges := insertAllOrIgnore SnapshotEdge.key
      (collected.fileMemberships.flatMap (membershipEdges snapshotId)) db.snapshotEdges
    snapshotMembershipBlobs := insertAllOrReplace StoredSnapshotMembershipBlob.key
      (collected.fileMemberships.map (membershipBlob snapshotId)) db.snapshotMembershipBlobs }

theorem execAll_publish (commitRow : StoredCommit)
    (rootTreeHash : Option String) (collected : Collected) (db : Db) :
    execAll (publish commitRow rootTreeHash collected db) db = publishedDb commitRow rootTreeHash collected db := by
  have files : (collected.snapshotFiles.map fun file =>
      Statement.insertSnapshotFile { file with snapshotId := nextSnapshotId db }) =
      (collected.snapshotFiles.map fun file => { file with snapshotId := nextSnapshotId db }).map
        Statement.insertSnapshotFile := by
    rw [map_map]
    rfl
  have blobs : (collected.fileMemberships.map fun member =>
      Statement.insertMembershipBlob (membershipBlob (nextSnapshotId db) member)) =
      (collected.fileMemberships.map (membershipBlob (nextSnapshotId db))).map Statement.insertMembershipBlob := by
    rw [map_map]
    rfl
  simp only [publish, files, blobs, execAll_append, execAll_insertSnapshotFile,
    execAll_attachMembershipNodes, execAll_attachMembershipEdges, execAll_insertMembershipBlob]
  rfl

/-! ## Classification -/

def knownGraph (db : Db) (cache : BuildRunCache) (fileHash : String) : CachedFileGraph :=
  (cache.blobGraphs fileHash).getD (storedFileGraph db fileHash)

/-- What the run has cached about a blob is true of its bytes. -/
structure BuildRunCache.Faithful (content : String → Bytes) (cache : BuildRunCache) : Prop where
  bytes : ∀ hash bytes, cache.blobBytes hash = some bytes → bytes = content hash
  binary : ∀ hash, cache.binaryBlobs hash = true → isBinaryBytes (content hash) = true

/-- What the git calls of one commit answer, where they answer, agrees with the objects. -/
structure Git.Serves (content : String → Bytes)
    (commitSha : String) (tracked : List StoredSnapshotFile) (git : Git) : Prop where
  batch : ∀ hashes found, git.catFileBlobBatch hashes = .ok found → ∀ blob ∈ found, blob.2 = content blob.1
  shown : ∀ file ∈ tracked, ∀ answer, git.showFile commitSha file.filePath = .ok answer → answer = some (content file.fileHash)

def CacheExtends (db : Db) (before after : BuildRunCache) : Prop :=
  ∀ hash, after.blobGraphs hash = before.blobGraphs hash ∨
    (hasHistoricalFileGraph db hash = true ∧ before.blobGraphs hash = none ∧ after.blobGraphs hash =
      some (storedFileGraph db hash))

theorem CacheExtends.refl (db : Db) (cache : BuildRunCache) :
    CacheExtends db cache cache := fun _ => .inl rfl

theorem CacheExtends.trans {db : Db} {first second third : BuildRunCache}
    (left : CacheExtends db first second) (right : CacheExtends db second third) :
    CacheExtends db first third := by
  intro hash
  rcases left hash with sameLeft | ⟨stored, absent, loaded⟩
  · rcases right hash with sameRight | ⟨stored, absent, loaded⟩
    · exact .inl (sameRight.trans sameLeft)
    · exact .inr ⟨stored, sameLeft ▸ absent, loaded⟩
  · rcases right hash with sameRight | ⟨_, absentLater, _⟩
    · exact .inr ⟨stored, absent, sameRight.trans loaded⟩
    · rw [loaded] at absentLater
      cases absentLater

theorem CacheExtends.knownGraph_eq {db : Db}
    {before : BuildRunCache} (extends_ : CacheExtends db before after) (hash : String) :
    knownGraph db after hash = knownGraph db before hash := by
  unfold knownGraph
  rcases extends_ hash with same | ⟨_, absent, loaded⟩
  · rw [same]
  · rw [absent, loaded]
    rfl

def membershipOf (file : StoredSnapshotFile) (graph : CachedFileGraph) :
    SnapshotFileMembership where
  filePath := file.filePath
  fileHash := file.fileHash
  qualifiedNames := graph.qualifiedNames
  edgeKeys := graph.edgeKeys

def isReused (registry : ParserRegistry) (db : Db) (file : StoredSnapshotFile) : Bool :=
  registry.supports file.filePath && hasHistoricalFileGraph db file.fileHash

def needsParse (registry : ParserRegistry)
    (content : String → Bytes) (db : Db) (file : StoredSnapshotFile) : Bool :=
  registry.supports file.filePath && !hasHistoricalFileGraph db file.fileHash && !isBinaryBytes (content file.fileHash)

def parseWork (content : String → Bytes) (fileIndex : Nat) (file : StoredSnapshotFile) :
    ParseWork where
  fileIndex := fileIndex
  fileHash := file.fileHash
  relPath := file.filePath
  bytes := content file.fileHash
  origLanguage := file.language

def parseWorks (registry : ParserRegistry) (content : String → Bytes) (db : Db) :
    Nat → List StoredSnapshotFile → List ParseWork
  | _, [] => []
  | fileIndex, file :: rest =>
    (if needsParse registry content db file then [parseWork content fileIndex file] else []) ++
      parseWorks registry content db (fileIndex + 1) rest

def collectReused (registry : ParserRegistry) (db : Db) (cache : BuildRunCache)
    (tracked : List StoredSnapshotFile) (collected : Collected) : Collected :=
  (tracked.filter (isReused registry db)).foldl
    (fun current file => reuseFile file (knownGraph db cache file.fileHash) current) collected

section
variable {registry : ParserRegistry} {content : String → Bytes} {git : Git} {faults : CommitFaults}
  {db : Db} {commitSha : String}

private theorem loadBlobBytes_ok {answer : Option Bytes}
    (faithful : cache.Faithful content) (shown : ∀ answer, git.showFile commitSha file.filePath =
    .ok answer → answer = some (content file.fileHash))
    (loaded : loadBlobBytes git cache commitSha file.filePath file.fileHash = .ok (answer, after)) :
    answer = some (content file.fileHash) ∧ after.Faithful content ∧
      after.blobGraphs = cache.blobGraphs ∧ after.binaryBlobs = cache.binaryBlobs := by
  unfold loadBlobBytes at loaded
  cases cached : cache.blobBytes file.fileHash with
  | some bytes =>
    simp only [cached, Except.ok.injEq, Prod.mk.injEq] at loaded
    obtain ⟨rfl, rfl⟩ := loaded
    exact ⟨congrArg some (faithful.bytes _ _ cached), faithful, rfl, rfl⟩
  | none =>
    simp only [cached] at loaded
    cases asked : git.showFile commitSha file.filePath with
    | error message => simp [asked, withContext] at loaded
    | ok bytes =>
      rw [shown bytes asked] at asked
      simp only [asked, withContext, Except.ok.injEq, Prod.mk.injEq] at loaded
      obtain ⟨rfl, rfl⟩ := loaded
      refine ⟨rfl, ⟨?_, faithful.binary⟩, rfl, rfl⟩
      intro hash bytes found
      simp only [insertAt] at found
      split at found
      · next same =>
          cases found
          rw [same]
      · exact faithful.bytes hash bytes found

private theorem loadCachedFileGraph_ok {fault : Option String} {fileHash : String} {graph : CachedFileGraph}
    (stored : hasHistoricalFileGraph db fileHash = true) (faithful : cache.Faithful content)
    (loaded : loadCachedFileGraph fault db cache fileHash = .ok (graph, after)) :
    graph = knownGraph db cache fileHash ∧ after.Faithful content ∧ CacheExtends db cache after := by
  unfold loadCachedFileGraph at loaded
  cases cached : cache.blobGraphs fileHash with
  | some known =>
    simp only [cached, Except.ok.injEq, Prod.mk.injEq] at loaded
    obtain ⟨rfl, rfl⟩ := loaded
    exact ⟨by simp [knownGraph, cached], faithful, .refl _ _⟩
  | none =>
    cases failed : fault with
    | some message => simp [cached, failed, attempt] at loaded
    | none =>
      simp only [cached, failed, attempt, Except.ok.injEq, Prod.mk.injEq] at loaded
      obtain ⟨rfl, rfl⟩ := loaded
      refine ⟨by simp [knownGraph, cached], ⟨faithful.bytes, faithful.binary⟩, ?_⟩
      intro hash
      by_cases same : hash = fileHash
      · subst same
        exact .inr ⟨stored, cached, by simp [insertAt]⟩
      · exact .inl (by simp [insertAt, same])

variable {state next : Classified}

theorem classifyFile_ok (faithful : state.cache.Faithful content) (shown : ∀ answer,
    git.showFile commitSha file.filePath = .ok answer → answer = some (content file.fileHash))
    (classified : classifyFile registry git faults db commitSha fileIndex file state = .ok next) :
    next.cache.Faithful content ∧ CacheExtends db state.cache next.cache ∧
      next.collected = (if isReused registry db file then
        reuseFile file (knownGraph db state.cache file.fileHash) state.collected
        else state.collected) ∧
      next.parseBatch = state.parseBatch ++ (if needsParse registry content db
        file then [parseWork content fileIndex file] else []) := by
  unfold classifyFile at classified
  cases supported : registry.supports file.filePath with
  | false =>
    simp only [supported, if_true, Except.ok.injEq] at classified
    subst classified
    exact ⟨faithful, .refl _ _, by simp [isReused, supported], by simp [needsParse, supported]⟩
  | true =>
    simp only [supported, Bool.true_eq_false, if_false] at classified
    cases fault : faults.lookup fileIndex with
    | some message => simp [fault, attempt, withContext] at classified
    | none =>
      cases stored : hasHistoricalFileGraph db file.fileHash with
      | true =>
        simp only [fault, attempt, withContext, stored] at classified
        cases loaded : loadCachedFileGraph (faults.cachedGraph fileIndex) db state.cache file.fileHash with
        | error message => simp [loaded] at classified
        | ok result =>
          obtain ⟨graph, cache⟩ := result
          simp only [loaded, Except.ok.injEq] at classified
          subst classified
          obtain ⟨rfl, cacheFaithful, extended⟩ := loadCachedFileGraph_ok stored faithful loaded
          exact ⟨cacheFaithful, extended, by simp [isReused, supported, stored],
            by simp [needsParse, stored]⟩
      | false =>
        simp only [fault, attempt, withContext, stored] at classified
        cases loaded : loadBlobBytes git state.cache commitSha file.filePath file.fileHash with
        | error message => simp [loaded] at classified
        | ok result =>
          obtain ⟨answer, cache⟩ := result
          obtain ⟨rfl, cacheFaithful, sameGraphs, sameBinary⟩ := loadBlobBytes_ok faithful shown loaded
          have extended : CacheExtends db state.cache cache := fun hash => .inl (congrFun sameGraphs hash)
          simp only [loaded] at classified
          split at classified
          · next binary =>
              simp only [Except.ok.injEq] at classified
              subst classified
              have isBinary : isBinaryBytes (content file.fileHash) = true := by
                rcases Bool.or_eq_true _ _ ▸ binary with known | sniffed
                · exact cacheFaithful.binary _ known
                · exact sniffed
              refine ⟨⟨cacheFaithful.bytes, ?_⟩, extended, by simp [isReused, stored],
                by simp [needsParse, isBinary]⟩
              intro hash marked
              rcases Bool.or_eq_true _ _ ▸ marked with same | known
              · rw [of_decide_eq_true same]
                exact isBinary
              · exact cacheFaithful.binary hash known
          · next text =>
              simp only [Except.ok.injEq] at classified
              subst classified
              have notBinary : isBinaryBytes (content file.fileHash) = false := by
                by_contra sniffed
                exact text (by simp [sniffed])
              exact ⟨cacheFaithful, extended, by simp [isReused, stored],
                by simp [needsParse, supported, stored, notBinary, parseWork]⟩

section
variable (tracked : List StoredSnapshotFile)
  (faithful : state.cache.Faithful content) (serves : git.Serves content commitSha tracked)
include tracked faithful serves

theorem classifyAll_cache
    {failure : Option String}
    (classified : classifyAll registry git faults db commitSha fileIndex tracked state = (failure, next)) :
    next.cache.Faithful content ∧ CacheExtends db state.cache next.cache := by
  induction tracked generalizing fileIndex state with
  | nil =>
    cases classified
    exact ⟨faithful, .refl _ _⟩
  | cons file rest ih =>
    unfold classifyAll at classified
    cases ran : classifyFile registry git faults db commitSha fileIndex file state with
    | error message =>
      simp only [ran] at classified
      cases classified
      exact ⟨faithful, .refl _ _⟩
    | ok middle =>
      simp only [ran] at classified
      obtain ⟨middleFaithful, extended, _, _⟩ := classifyFile_ok faithful (serves.shown file (.head _)) ran
      obtain ⟨nextFaithful, extendedLater⟩ := ih middleFaithful ⟨serves.batch,
        fun later mem => serves.shown later (.tail _ mem)⟩ classified
      exact ⟨nextFaithful, extended.trans extendedLater⟩

theorem classifyAll_ok (classified :
    classifyAll registry git faults db commitSha fileIndex tracked state = (none, next)) :
    next.collected = collectReused registry db state.cache tracked state.collected ∧
      next.parseBatch = state.parseBatch ++ parseWorks registry content db fileIndex tracked := by
  induction tracked generalizing fileIndex state with
  | nil =>
    simp only [classifyAll, Prod.mk.injEq, true_and] at classified
    subst classified
    exact ⟨rfl, by simp [parseWorks]⟩
  | cons file rest ih =>
    unfold classifyAll at classified
    cases ran : classifyFile registry git faults db commitSha fileIndex file state with
    | error message => simp [ran] at classified
    | ok middle =>
      simp only [ran] at classified
      obtain ⟨middleFaithful, extended, collected, batch⟩ := classifyFile_ok faithful (serves.shown file (.head _)) ran
      obtain ⟨collectedLater, batchLater⟩ := ih middleFaithful ⟨serves.batch,
        fun later mem => serves.shown later (.tail _ mem)⟩ classified
      refine ⟨?_, ?_⟩
      · rw [collectedLater, collected]
        simp only [collectReused, extended.knownGraph_eq, filter_cons]
        cases isReused registry db file <;> rfl
      · rw [batchLater, batch, parseWorks, append_assoc]

end
end

theorem mem_parseWorks {registry : ParserRegistry} {content : String → Bytes} {db : Db}
    {tracked : List StoredSnapshotFile} {work : ParseWork}
    (mem : work ∈ parseWorks registry content db fileIndex tracked) :
    ∃ file ∈ tracked, needsParse registry content db file = true ∧ work.fileHash = file.fileHash ∧
      work.relPath = file.filePath ∧ work.bytes = content file.fileHash := by
  induction tracked generalizing fileIndex with
  | nil => cases mem
  | cons file rest ih =>
    rcases mem_append.mp mem with here | later
    · split at here
      · next parses =>
          rw [mem_singleton.mp here]
          exact ⟨file, .head _, parses, rfl, rfl, rfl⟩
      · cases here
    · obtain ⟨found, foundMember, facts⟩ := ih later
      exact ⟨found, .tail _ foundMember, facts⟩

theorem unstored_of_needsParse {registry : ParserRegistry}
    {content : String → Bytes} {db : Db} (needs : needsParse registry content db file = true) :
    hasHistoricalFileGraph db file.fileHash = false := by
  simp only [needsParse, Bool.and_eq_true, Bool.not_eq_true'] at needs
  exact needs.1.2

theorem prefetchBlobBytes_ok {registry : ParserRegistry} {content : String → Bytes} {git : Git}
    {commitSha : String} {tracked : List StoredSnapshotFile} (faithful : cache.Faithful content)
    (serves : git.Serves content commitSha tracked)
    (fetched : prefetchBlobBytes git registry tracked cache = .ok after) :
    after.Faithful content ∧ after.blobGraphs = cache.blobGraphs := by
  have inserted : ∀ (found : List (String × Bytes)) (map : String → Option Bytes), (∀ blob ∈ found,
    blob.2 = content blob.1) → (∀ hash bytes, map hash = some bytes → bytes = content hash) →
      ∀ hash bytes, found.foldl (fun map blob => insertAt blob.1 blob.2 map) map hash = some bytes → bytes = content hash := by
    intro found
    induction found with
    | nil => exact fun _ _ known => known
    | cons blob rest ih =>
      intro map served known
      refine ih _ (fun later mem => served later (.tail _ mem)) ?_
      intro hash bytes present
      simp only [insertAt] at present
      split at present
      · next same =>
          cases present
          rw [same]
          exact served blob (.head _)
      · exact known hash bytes present
  unfold prefetchBlobBytes at fetched
  split at fetched
  · cases fetched
    exact ⟨faithful, rfl⟩
  · cases asked : git.catFileBlobBatch (hashesToFetch registry tracked cache) with
    | error message => simp [asked, withContext] at fetched
    | ok found =>
      simp only [asked, withContext, Except.ok.injEq] at fetched
      subst fetched
      exact ⟨⟨inserted found _ (serves.batch _ found asked) faithful.bytes, faithful.binary⟩, rfl⟩

structure Collected.Counts (collected : Collected) : Prop where
  nodes : collected.totalNodeCount = (collected.fileMemberships.flatMap SnapshotFileMembership.qualifiedNames).length
  edges : collected.totalEdgeCount = (collected.fileMemberships.flatMap SnapshotFileMembership.edgeKeys).length
  files : (collected.snapshotFiles.map fun file => (file.filePath, file.fileHash)) =
    collected.fileMemberships.map fun member => (member.filePath, member.fileHash)

theorem Collected.Counts.empty : Collected.Counts {} := ⟨rfl, rfl, rfl⟩

variable {collected : Collected}

theorem Collected.Counts.reuse (counts : collected.Counts) (file : StoredSnapshotFile)
    (graph : CachedFileGraph) : (reuseFile file graph collected).Counts where
  nodes := by simp [reuseFile, counts.nodes, graph.countsNodes]
  edges := by simp [reuseFile, counts.edges, graph.countsEdges]
  files := by simp [reuseFile, counts.files, trackedFile]

theorem Collected.Counts.parsed (counts : collected.Counts)
    (work : ParseWork) (parsed : ParsedFile) : (collectParsed work parsed collected).Counts where
  nodes := by simp [collectParsed, counts.nodes, parsedNames]
  edges := by simp [collectParsed, counts.edges, parsedEdgeKeys]
  files := by simp [collectParsed, counts.files, trackedFile]

/-! ## Persisting without a fault -/

def persistClean (registry : ParserRegistry) (state : Persisted) (work : ParseWork) : Persisted :=
  match registry.parse work.relPath work.fileHash work.bytes with
  | none => state
  | some parsed =>
    { state with
      db := execAll (persistParsedFile work.fileHash work.relPath parsed) state.db
      cache := { state.cache with
        blobGraphs := insertAt work.fileHash (parsedFileGraph work parsed) state.cache.blobGraphs }
      collected := collectParsed work parsed state.collected }

section
variable {registry : ParserRegistry} {faults : CommitFaults} {commitSha : String}

section
variable (state : Persisted) (work : ParseWork)
include state work

theorem persistWork_cases :
    persistWork registry faults commitSha state work = persistClean registry state work ∨
      ∃ error, (persistWork registry faults commitSha state work).errors = state.errors ++ [error] := by
  unfold persistWork persistClean
  cases parsed : registry.parse work.relPath work.fileHash work.bytes with
  | none => exact .inl rfl
  | some file =>
    cases ran : execUntilFault (faults.persist work.fileIndex) 0 (persistParsedFile work.fileHash work.relPath file) state.db with
    | mk failure reached =>
      cases failure with
      | none =>
        refine .inl ?_
        simp only [ran, execUntilFault_ok ran]
      | some message =>
        refine .inr ⟨⟨some commitSha, "persist " ++ work.relPath ++ ": " ++ message⟩, ?_⟩
        simp only [ran]

theorem persistWork_of_clear (clear : ∀ position, faults.persist work.fileIndex position = none) :
    persistWork registry faults commitSha state work = persistClean registry state work := by
  unfold persistWork persistClean
  cases parsed : registry.parse work.relPath work.fileHash work.bytes with
  | none => rfl
  | some file =>
    have ran : execUntilFault (faults.persist work.fileIndex) 0
      (persistParsedFile work.fileHash work.relPath file) state.db = (none, _) :=
      execUntilFault_clear state.db fun offset _ => clear _
    simp only [ran]

theorem persistClean_errors : (persistClean registry state work).errors = state.errors := by
  unfold persistClean
  split <;> rfl

private theorem persistWork_errors_isPrefix :
    state.errors <+: (persistWork registry faults commitSha state work).errors := by
  rcases persistWork_cases state work with clean | ⟨error, grown⟩
  · have same : (persistWork registry faults commitSha state work).errors = state.errors := by
      rw [clean, persistClean_errors]
    exact same ▸ prefix_refl _
  · rw [grown]
    exact prefix_append _ _

end

private theorem foldl_persistWork_errors_isPrefix (batch : List ParseWork) (state : Persisted) :
    state.errors <+: (batch.foldl (persistWork registry faults commitSha) state).errors := by
  induction batch generalizing state with
  | nil => exact prefix_refl _
  | cons work rest ih => exact (persistWork_errors_isPrefix state work).trans (ih _)

variable {db : Db}

theorem persistAll_induction (Invariant : Persisted → Prop)
    (classified : Classified) (kept : ∀ work ∈ classified.parseBatch, ∀ state, Invariant state →
      Invariant (persistWork registry faults commitSha state work)) (holds : Invariant
      { db := db, cache := classified.cache, collected := classified.collected, errors := errors }) :
    Invariant (persistAll registry faults commitSha db errors classified) := by
  have all : ∀ (batch : List ParseWork) (state : Persisted), (∀ work ∈ batch, work ∈ classified.parseBatch) → Invariant state →
      Invariant (batch.foldl (persistWork registry faults commitSha) state) := by
    intro batch
    induction batch with
    | nil => exact fun _ _ before => before
    | cons work rest ih =>
      intro state batched before
      exact ih _ (fun later mem => batched later (.tail _ mem)) (kept work (batched work (.head _)) state before)
  exact all _ _ (fun _ mem => mem) holds

theorem persistWork_db (state : Persisted) (work : ParseWork) :
    (persistWork registry faults commitSha state work).db = state.db ∨
      ∃ parsed, registry.parse work.relPath work.fileHash work.bytes = some parsed ∧ (persistWork
        registry faults commitSha state work).db = (execUntilFault (faults.persist work.fileIndex) 0
            (persistParsedFile work.fileHash work.relPath parsed) state.db).2 := by
  unfold persistWork
  cases parsed : registry.parse work.relPath work.fileHash work.bytes with
  | none => exact .inl rfl
  | some file =>
    refine .inr ⟨file, rfl, ?_⟩
    cases ran : execUntilFault (faults.persist work.fileIndex) 0 (persistParsedFile work.fileHash work.relPath file) state.db with
    | mk failure stopped => cases failure <;> simp only [ran]

theorem persistAll_invariant (Invariant : Db → Prop)
    (errors : List IngestError) (classified : Classified)
    (kept : ∀ work ∈ classified.parseBatch, ∀ parsed, ∀ statement ∈ persistParsedFile work.fileHash
      work.relPath parsed, ∀ db, Invariant db → Invariant (statement db))
    (holds : Invariant db) :
    Invariant (persistAll registry faults commitSha db errors classified).db := by
  refine persistAll_induction (fun state => Invariant state.db) classified ?_ holds
  intro work batched state before
  rcases persistWork_db state work with same | ⟨parsed, _, reached⟩
  · exact same ▸ before
  · rw [reached]
    exact execUntilFault_invariant Invariant (kept work batched parsed) 0 before

theorem mem_persistParsedFile {fileHash filePath : String} {parsed : ParsedFile}
    {statement : Sql.Statement Db}
    (mem : statement ∈ persistParsedFile fileHash filePath parsed) :
    statement = Statement.prepare ∨ (∃ node, statement = Statement.insertHistoricalNode node ∧ node.fileHash = fileHash) ∨
      ∃ edge, statement = Statement.insertHistoricalEdge edge ∧ edge.fileHash = fileHash := by
  simp only [persistParsedFile, mem_append, mem_singleton, mem_map] at mem
  rcases mem with ((rfl | ⟨node, _, rfl⟩) | rfl) | ⟨edge, _, rfl⟩
  · exact .inl rfl
  · exact .inr (.inl ⟨_, rfl, rfl⟩)
  · exact .inl rfl
  · exact .inr (.inr ⟨_, rfl, rfl⟩)

theorem persistAll_snapshots (db : Db) (errors : List IngestError) (classified : Classified) :
    let after := (persistAll registry faults commitSha db errors classified).db
    after.repos = db.repos ∧ after.commits = db.commits ∧
      after.graphSnapshots = db.graphSnapshots ∧ after.snapshotFiles = db.snapshotFiles ∧
      after.snapshotNodes = db.snapshotNodes ∧ after.snapshotEdges = db.snapshotEdges := by
  refine persistAll_invariant (fun after => after.repos = db.repos ∧ after.commits = db.commits ∧
    after.graphSnapshots = db.graphSnapshots ∧
    after.snapshotFiles = db.snapshotFiles ∧ after.snapshotNodes = db.snapshotNodes ∧
    after.snapshotEdges = db.snapshotEdges) errors classified ?_ ⟨rfl, rfl, rfl, rfl, rfl, rfl⟩
  intro work _ parsed statement mem current same
  obtain rfl | ⟨node, rfl, _⟩ | ⟨edge, rfl, _⟩ := mem_persistParsedFile mem
  · exact same
  all_goals exact same

theorem foldl_persistWork_of_errors (batch : List ParseWork) (state : Persisted) (unrecorded :
    (batch.foldl (persistWork registry faults commitSha) state).errors = state.errors) :
    batch.foldl (persistWork registry faults commitSha) state = batch.foldl (persistClean registry) state := by
  induction batch generalizing state with
  | nil => rfl
  | cons work rest ih =>
    rw [foldl_cons] at unrecorded ⊢
    rcases persistWork_cases state work with clean | ⟨error, grown⟩
    · rw [clean] at unrecorded ⊢
      refine ih _ ?_
      rw [unrecorded, persistClean_errors]
    · have later : (persistWork registry faults commitSha state work).errors <+:
        (rest.foldl (persistWork registry faults commitSha) _).errors :=
        foldl_persistWork_errors_isPrefix rest _
      rw [unrecorded, grown] at later
      have shorter := later.length_le
      simp only [length_append, length_cons, length_nil] at shorter
      omega

end

/-! ## Outcomes of one commit -/

theorem trackedFiles_distinct {git : Git} {faults : CommitFaults} {repoId : Nat} {db : Db}
    {commit : GitCommitMeta} {tracked : List StoredSnapshotFile}
    (nodup : ∀ entries, git.lsTree commit.sha = .ok entries → (entries.map TreeEntry.filePath).Nodup)
    (listed : trackedFiles git faults repoId db commit = .ok tracked) : DistinctPaths tracked := by
  unfold trackedFiles at listed
  obtain ⟨files, replayed, listed⟩ := Program.bind_eq_ok listed
  obtain ⟨fullFiles, full, listed⟩ := Program.bind_eq_ok listed
  cases listed
  cases files with
  | none => exact fullSnapshotFiles_distinct nodup full
  | some files => exact replaySnapshotFiles_distinct replayed

section
variable {env : BuildEnv} {git : Git} {faults : CommitFaults} {commit : GitCommitMeta}
  {tracked : List StoredSnapshotFile} {state next : BuildState}

def committedState (env : BuildEnv) (git : Git) (faults : CommitFaults) (commit : GitCommitMeta)
    (db : Db) (errors : List IngestError) (classified : Classified) : BuildState :=
  let persisted := persistAll env.registry faults commit.sha db errors classified
  { connection := ⟨publishedDb (storedCommit env.repoId env.indexedRef commit)
      (rootTreeHash git commit.sha) persisted.collected persisted.db, none⟩
    cache := persisted.cache
    errors := persisted.errors }

private theorem writeCommit_ok (ran : writeCommit env git faults commit tracked state = (.ok (), next)) :
    state.connection.pending = none ∧ ∃ classified,
      classifyAll env.registry git faults state.connection.committed commit.sha 1 tracked
          { cache := state.cache } = (none, classified) ∧
        next = committedState env git faults commit state.connection.committed state.errors classified := by
  cases opened : state.connection.pending with
  | some other => simp [writeCommit, opened, withContext] at ran
  | none =>
    cases begun : faults.begins with
    | some message => simp [writeCommit, opened, begun, withContext, attempt] at ran
    | none =>
      simp only [writeCommit, opened, begun, withContext, attempt] at ran
      split at ran
      · cases ran
      · next classified classifies =>
          refine ⟨rfl, classified, classifies, ?_⟩
          split at ran
          · split at ran <;> cases ran
          · next reached published =>
              have whole := execUntilFault_ok published
              rw [execAll_publish] at whole
              split at ran
              · cases ran
              · cases ran
                rw [whole]
                rfl

private theorem writeCommit_error
    (ran : writeCommit env git faults commit tracked state = (.error message, next)) :
    next.connection.committed = state.connection.committed := by
  cases opened : state.connection.pending with
  | some other =>
    simp only [writeCommit, opened, withContext] at ran
    cases ran
    rfl
  | none =>
    cases begun : faults.begins with
    | some message =>
      simp only [writeCommit, opened, begun, withContext, attempt] at ran
      cases ran
      rfl
    | none =>
      simp only [writeCommit, opened, begun, withContext, attempt] at ran
      split at ran
      · cases ran
        rfl
      · split at ran
        · split at ran <;> cases ran <;> rfl
        · split at ran
          · cases ran
            rfl
          · cases ran

theorem processCommit_ok (ran : processCommit env git faults commit state = (.ok (), next)) :
    ∃ tracked cache classified,
      trackedFiles git faults env.repoId state.connection.visible commit = .ok tracked ∧
      prefetchBlobBytes git env.registry tracked state.cache = .ok cache ∧
      state.connection.pending = none ∧
      classifyAll env.registry git faults state.connection.committed commit.sha 1 tracked
        { cache := cache } = (none, classified) ∧
      next = committedState env git faults commit state.connection.committed state.errors classified := by
  cases listed : trackedFiles git faults env.repoId state.connection.visible commit with
  | error message => simp [processCommit, listed] at ran
  | ok tracked =>
    cases fetched : prefetchBlobBytes git env.registry tracked state.cache with
    | error message => simp [processCommit, listed, fetched] at ran
    | ok cache =>
      simp only [processCommit, listed, fetched] at ran
      obtain ⟨closed, classified, classifies, rfl⟩ := writeCommit_ok ran
      exact ⟨tracked, cache, classified, rfl, fetched, closed, classifies, rfl⟩

theorem processCommit_error
    (ran : processCommit env git faults commit state = (.error message, next)) :
    next.connection.committed = state.connection.committed := by
  cases listed : trackedFiles git faults env.repoId state.connection.visible commit with
  | error message =>
    simp only [processCommit, listed] at ran
    cases ran
    rfl
  | ok tracked =>
    cases fetched : prefetchBlobBytes git env.registry tracked state.cache with
    | error message =>
      simp only [processCommit, listed, fetched] at ran
      cases ran
      rfl
    | ok cache =>
      simp only [processCommit, listed, fetched] at ran
      have kept := writeCommit_error ran
      exact kept

/-! ## The cache over a run -/

private theorem foldl_persistWork_cache {registry : ParserRegistry} {faults : CommitFaults}
    {commitSha : String} (batch : List ParseWork) (state : Persisted) :
    let after := batch.foldl (persistWork registry faults commitSha) state
    after.cache.blobBytes = state.cache.blobBytes ∧ after.cache.binaryBlobs = state.cache.binaryBlobs := by
  induction batch generalizing state with
  | nil => exact ⟨rfl, rfl⟩
  | cons work rest ih =>
    have one : (persistWork registry faults commitSha state work).cache.blobBytes =
      state.cache.blobBytes ∧ (persistWork registry faults commitSha state work).cache.binaryBlobs =
        state.cache.binaryBlobs := by
      unfold persistWork
      split
      · exact ⟨rfl, rfl⟩
      · split <;> exact ⟨rfl, rfl⟩
    obtain ⟨bytes, binary⟩ := ih (persistWork registry faults commitSha state work)
    exact ⟨bytes.trans one.1, binary.trans one.2⟩

variable {content : String → Bytes} {registry : ParserRegistry} {commitSha : String} {db : Db}
  {classified : Classified} {result : Except String Unit}

theorem BuildRunCache.Faithful.persistAll
    {faults : CommitFaults}
    (faithful : classified.cache.Faithful content) :
    (persistAll registry faults commitSha db errors classified).cache.Faithful content := by
  obtain ⟨bytes, binary⟩ :
    (History.persistAll registry faults commitSha db errors classified).cache.blobBytes = _ ∧
    (History.persistAll registry faults commitSha db errors
      classified).cache.binaryBlobs = _ :=
    foldl_persistWork_cache classified.parseBatch _
  exact ⟨bytes ▸ faithful.bytes, binary ▸ faithful.binary⟩

private theorem writeCommit_faithful (faithful : state.cache.Faithful content)
    (serves : git.Serves content commit.sha tracked)
    (ran : writeCommit env git faults commit tracked state = (result, next)) :
    next.cache.Faithful content := by
  unfold writeCommit at ran
  dsimp only at ran
  split at ran
  · cases ran
    exact faithful
  · split at ran
    · next classified classifies =>
        cases ran
        exact (classifyAll_cache tracked faithful serves classifies).1
    · next classified classifies =>
        have persisted : (persistAll env.registry faults commit.sha state.connection.committed
          state.errors classified).cache.Faithful content :=
          (classifyAll_cache tracked faithful serves classifies).1.persistAll
        split at ran
        all_goals split at ran <;> cases ran <;> exact persisted

private theorem persistAll_blobGraphs_of_stored {faults : CommitFaults}
    (unstored : ∀ work ∈ classified.parseBatch, hasHistoricalFileGraph db work.fileHash = false)
    (stored : hasHistoricalFileGraph db hash = true) :
    (persistAll registry faults commitSha db errors classified).cache.blobGraphs hash = classified.cache.blobGraphs hash := by
  refine persistAll_induction (fun state => state.cache.blobGraphs hash = classified.cache.blobGraphs hash) classified ?_ rfl
  intro work batched state before
  have differs : hash ≠ work.fileHash := by
    intro same
    have absent := unstored work batched
    rw [← same, stored] at absent
    cases absent
  unfold persistWork
  split
  · exact before
  · split
    · exact before
    · simpa [insertAt, differs] using before

private theorem writeCommit_error_knownGraph (faithful : state.cache.Faithful content)
    (serves : git.Serves content commit.sha tracked)
    (ran : writeCommit env git faults commit tracked state = (.error message, next))
    (stored : hasHistoricalFileGraph state.connection.committed hash = true) :
    knownGraph state.connection.committed next.cache hash = knownGraph state.connection.committed state.cache hash := by
  unfold writeCommit at ran
  dsimp only at ran
  split at ran
  · cases ran
    rfl
  · split at ran
    · next classified classifies =>
        cases ran
        exact (classifyAll_cache tracked faithful serves classifies).2.knownGraph_eq hash
    · next classified classifies =>
        have batch := (classifyAll_ok tracked faithful serves classifies).2
        have unstored : ∀ work ∈ classified.parseBatch,
          hasHistoricalFileGraph state.connection.committed work.fileHash = false := by
          intro work mem
          rw [batch, nil_append] at mem
          obtain ⟨file, _, needs, sameHash, _⟩ := mem_parseWorks mem
          rw [sameHash]
          exact unstored_of_needsParse needs
        have persisted : knownGraph state.connection.committed (persistAll env.registry faults
          commit.sha state.connection.committed state.errors classified).cache hash =
            knownGraph state.connection.committed state.cache hash := by
          rw [← (classifyAll_cache tracked faithful serves classifies).2.knownGraph_eq hash]
          unfold knownGraph
          rw [persistAll_blobGraphs_of_stored unstored stored]
        split at ran
        · split at ran <;> cases ran <;> exact persisted
        · split at ran
          · cases ran
            exact persisted
          · cases ran

def CommitStep.Served (content : String → Bytes)
    (env : BuildEnv) (state : BuildState) (step : CommitStep) : Prop :=
  ∀ tracked, trackedFiles step.git step.faults env.repoId state.connection.visible step.commit =
    .ok tracked → step.git.Serves content step.commit.sha tracked

def AllServed (content : String → Bytes) (env : BuildEnv) : List CommitStep → BuildState → Prop
  | [], _ => True
  | step :: rest, state => step.Served content env state ∧ AllServed content env rest (buildCommit env state step)

theorem processCommit_faithful (faithful : state.cache.Faithful content)
    (served : step.Served content env state)
    (ran : processCommit env step.git step.faults step.commit state = (result, next)) :
    next.cache.Faithful content := by
  unfold processCommit at ran
  split at ran
  · cases ran
    exact faithful
  · next tracked listed =>
      split at ran
      · cases ran
        exact faithful
      · next cache fetched =>
          have serves := served tracked listed
          have fetchedFaithful : cache.Faithful content := (prefetchBlobBytes_ok faithful serves fetched).1
          exact writeCommit_faithful fetchedFaithful serves ran

theorem processCommit_error_knownGraph (faithful : state.cache.Faithful content)
    (served : step.Served content env state)
    (ran : processCommit env step.git step.faults step.commit state = (.error message, next))
    (stored : hasHistoricalFileGraph state.connection.committed hash = true) :
    knownGraph state.connection.committed next.cache hash = knownGraph state.connection.committed state.cache hash := by
  unfold processCommit at ran
  split at ran
  · cases ran
    rfl
  · next tracked listed =>
      split at ran
      · cases ran
        rfl
      · next cache fetched =>
          have serves := served tracked listed
          obtain ⟨fetchedFaithful, sameGraphs⟩ := prefetchBlobBytes_ok faithful serves fetched
          have written := writeCommit_error_knownGraph fetchedFaithful serves ran stored
          refine written.trans ?_
          unfold knownGraph
          rw [sameGraphs]

theorem persistAll_errors_of_clear (classified : Classified)
    (clear : ∀ fileIndex position, faults.persist fileIndex position = none) :
    (persistAll registry faults commitSha db errors classified).errors = errors := by
  refine persistAll_induction (fun state => state.errors = errors) classified ?_ rfl
  intro work _ state before
  rw [persistWork_of_clear state work (clear work.fileIndex), persistClean_errors]
  exact before

private theorem buildCommit_faithful (faithful : state.cache.Faithful content)
    (served : step.Served content env state) :
    (buildCommit env state step).cache.Faithful content := by
  unfold buildCommit
  split
  · exact faithful
  · cases ran : processCommit env step.git step.faults step.commit state with
    | mk result next =>
      have kept := processCommit_faithful faithful served ran
      cases result <;> exact kept

theorem buildCommits_faithful (steps : List CommitStep)
    {state : BuildState} (faithful : state.cache.Faithful content)
    (served : AllServed content env steps state) :
    (buildCommits env steps state).cache.Faithful content := by
  induction steps generalizing state with
  | nil => exact faithful
  | cons step rest ih => exact ih (buildCommit_faithful faithful served.1) served.2

theorem AllServed.append {first second : List CommitStep}
    {state : BuildState} (served : AllServed content env (first ++ second) state) :
    AllServed content env first state ∧ AllServed content env second (buildCommits env first state) := by
  induction first generalizing state with
  | nil => exact ⟨trivial, served⟩
  | cons step rest ih =>
    obtain ⟨here, later⟩ := served
    obtain ⟨restServed, secondServed⟩ := ih later
    exact ⟨⟨here, restServed⟩, secondServed⟩

theorem BuildRunCache.Faithful.empty (content : String → Bytes) :
    BuildRunCache.Faithful content {} where
  bytes _ _ found := by cases found
  binary _ found := by cases found

end
end Atlas.History
