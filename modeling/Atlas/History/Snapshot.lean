import Atlas.History.Soundness

/-! Reading a snapshot back: the stored counts against the rows that are found. -/
namespace Atlas.History
open List Core Sql

variable {registry : ParserRegistry} {cache : BuildRunCache}

structure HistoricalSnapshot where
  row : StoredSnapshot
  files : List StoredSnapshotFile
  nodes : List HistoricalNode
  edges : List HistoricalEdge

def countMismatch (what : String) (expected actual : Nat) : List String :=
  if expected = actual then []
  else [what ++ " expected=" ++ toString expected ++ " actual=" ++ toString actual]

def validateSnapshotMaterialization (snapshot : StoredSnapshot) (files : List StoredSnapshotFile)
    (nodes : List HistoricalNode) (edges : List HistoricalEdge) : Except String Unit :=
  let mismatches := countMismatch "files" snapshot.fileCount files.length ++
    countMismatch "nodes" snapshot.nodeCount nodes.length ++
    countMismatch "edges" snapshot.edgeCount edges.length
  if mismatches = [] then .ok ()
  else
    .error ("snapshot membership rows appear corrupted for commit " ++
      snapshot.commitSha ++ " (snapshot_id=" ++ toString snapshot.snapshotId ++ "): " ++
      String.intercalate ", " mismatches)

def reconstructSnapshotFromRow (db : Db) (snapshot : StoredSnapshot) :
    Except String HistoricalSnapshot := do
  let files := listSnapshotFiles db snapshot.snapshotId
  let nodes := reconstructSnapshotNodes db snapshot.snapshotId
  let edges := reconstructSnapshotEdges db snapshot.snapshotId
  validateSnapshotMaterialization snapshot files nodes edges
  .ok ⟨snapshot, files, nodes, edges⟩

def reconstructSnapshot (db : Db) (canonicalRoot commitSha : String) :
    Except String HistoricalSnapshot :=
  match findRepoId db canonicalRoot with
  | none => .error ("repo not yet registered for history: " ++ canonicalRoot)
  | some repoId =>
    match findSnapshot db repoId commitSha with
    | none => .error ("indexed snapshot not found for commit " ++ commitSha)
    | some snapshot => reconstructSnapshotFromRow db snapshot

private theorem validateSnapshotMaterialization_ok_iff {snapshot : StoredSnapshot}
    {files : List StoredSnapshotFile} {nodes : List HistoricalNode} {edges : List HistoricalEdge} :
    validateSnapshotMaterialization snapshot files nodes edges = .ok () ↔ snapshot.fileCount =
      files.length ∧ snapshot.nodeCount = nodes.length ∧ snapshot.edgeCount = edges.length := by
  have clear : ∀ what expected actual, countMismatch what expected actual = [] ↔ expected = actual := by
    intro what expected actual
    unfold countMismatch
    split <;> simp_all
  unfold validateSnapshotMaterialization
  simp only [append_eq_nil_iff, clear]
  split
  · next equal => simpa [and_assoc] using equal
  · next differ => simpa [and_assoc] using differ

private theorem reconstructSnapshotFromRow_ok_iff {db : Db} {snapshot : StoredSnapshot} :
    (∃ result, reconstructSnapshotFromRow db snapshot = .ok result) ↔
      snapshot.fileCount = (listSnapshotFiles db snapshot.snapshotId).length ∧
        snapshot.nodeCount = (reconstructSnapshotNodes db snapshot.snapshotId).length ∧
        snapshot.edgeCount = (reconstructSnapshotEdges db snapshot.snapshotId).length := by
  rw [← validateSnapshotMaterialization_ok_iff]
  unfold reconstructSnapshotFromRow
  cases validated : validateSnapshotMaterialization snapshot
    (listSnapshotFiles db snapshot.snapshotId) (reconstructSnapshotNodes db snapshot.snapshotId)
      (reconstructSnapshotEdges db snapshot.snapshotId) <;> simp [bind, Except.bind, validated]

def reusedMemberships (registry : ParserRegistry) (db : Db)
    (cache : BuildRunCache) (tracked : List StoredSnapshotFile) : List SnapshotFileMembership :=
  (tracked.filter (isReused registry db)).map fun file => membershipOf file (knownGraph db cache file.fileHash)

def parsedMembership (fileHash filePath : String) (parsed : ParsedFile) :
    SnapshotFileMembership where
  filePath := filePath
  fileHash := fileHash
  qualifiedNames := parsedNames parsed
  edgeKeys := parsedEdgeKeys parsed

def parsedMemberships (registry : ParserRegistry) (content : String → Bytes)
    (db : Db) (tracked : List StoredSnapshotFile) : List SnapshotFileMembership :=
  (tracked.filter (needsParse registry content db)).filterMap fun file =>
    (registry.parse file.filePath file.fileHash (content file.fileHash)).map (parsedMembership file.fileHash file.filePath)

def contributions (registry : ParserRegistry) (content : String → Bytes) (db : Db)
    (cache : BuildRunCache) (tracked : List StoredSnapshotFile) : List SnapshotFileMembership :=
  reusedMemberships registry db cache tracked ++ parsedMemberships registry content db tracked

/-- Over all files of the commit the names and the edge keys are distinct, and every
name and key of a reused graph is a stored row. -/
structure SelfConsistent (registry : ParserRegistry) (content : String → Bytes)
    (db : Db) (cache : BuildRunCache) (tracked : List StoredSnapshotFile) : Prop where
  names : ((contributions registry content db cache tracked).flatMap SnapshotFileMembership.qualifiedNames).Nodup
  edgeKeys : ((contributions registry content db cache tracked).flatMap SnapshotFileMembership.edgeKeys).Nodup
  namesStored : ∀ reused ∈ reusedMemberships registry db cache tracked,
    ∀ name ∈ reused.qualifiedNames, ∃ row ∈ db.historicalNodes, row.key = (reused.fileHash, name)
  edgesStored : ∀ reused ∈ reusedMemberships registry db cache tracked, ∀ key ∈ reused.edgeKeys,
    ∃ row ∈ db.historicalEdges, row.key = (reused.fileHash, key)

/-! ## The accumulators -/

private theorem collectReused_spec (registry : ParserRegistry)
    (db : Db) (cache : BuildRunCache) (tracked : List StoredSnapshotFile) :
    (collectReused registry db cache tracked {}).Counts ∧ (collectReused registry db cache tracked
      {}).fileMemberships = reusedMemberships registry db cache tracked := by
  have loop : ∀ (files : List StoredSnapshotFile) (collected : Collected), collected.Counts → (files.foldl (fun current file =>
          reuseFile file (knownGraph db cache file.fileHash) current) collected).Counts ∧
        (files.foldl (fun current file =>
          reuseFile file (knownGraph db cache file.fileHash) current) collected).fileMemberships =
          collected.fileMemberships ++ files.map fun file =>
            membershipOf file (knownGraph db cache file.fileHash) := by
    intro files
    induction files with
    | nil => exact fun collected counts => ⟨counts, by simp⟩
    | cons file rest ih =>
      intro collected counts
      obtain ⟨restCounts, memberships⟩ := ih _ (counts.reuse file (knownGraph db cache file.fileHash))
      refine ⟨restCounts, memberships.trans ?_⟩
      simp [reuseFile, membershipOf]
  obtain ⟨counts, memberships⟩ := loop (tracked.filter (isReused registry db)) {} .empty
  exact ⟨counts, memberships⟩

private theorem foldl_persistClean_spec (registry : ParserRegistry)
    (batch : List ParseWork) (state : Persisted) (counts : state.collected.Counts) :
    let after := batch.foldl (persistClean registry) state
    let added := batch.filterMap fun work =>
      (registry.parse work.relPath work.fileHash work.bytes).map (parsedMembership work.fileHash work.relPath)
    after.collected.Counts ∧ after.collected.fileMemberships = state.collected.fileMemberships ++
      added ∧ (∀ row ∈ state.db.historicalNodes, row ∈ after.db.historicalNodes) ∧
      (∀ row ∈ state.db.historicalEdges, row ∈ after.db.historicalEdges) ∧
      (∀ parsed ∈ added, ∀ name ∈ parsed.qualifiedNames, ∃ row ∈ after.db.historicalNodes, row.key = (parsed.fileHash, name)) ∧
      ∀ parsed ∈ added, ∀ key ∈ parsed.edgeKeys, ∃ row ∈ after.db.historicalEdges, row.key = (parsed.fileHash, key) := by
  induction batch generalizing state with
  | nil => exact ⟨counts, by simp, fun _ mem => mem, fun _ mem => mem, by simp, by simp⟩
  | cons work rest ih =>
    simp only [foldl_cons, filterMap_cons]
    cases parsed : registry.parse work.relPath work.fileHash work.bytes with
    | none =>
      have same : persistClean registry state work = state := by simp [persistClean, parsed]
      rw [same]
      simpa [parsed] using ih state counts
    | some file =>
      have stepped : persistClean registry state work =
          { state with
            db := execAll (persistParsedFile work.fileHash work.relPath file) state.db
            cache := { state.cache with
              blobGraphs := insertAt work.fileHash (parsedFileGraph work file)
                state.cache.blobGraphs }
            collected := collectParsed work file state.collected } := by
        simp [persistClean, parsed]
      obtain ⟨restCounts, memberships, nodesKept, edgesKept, namesStored, edgesStored⟩ :=
        ih (persistClean registry state work) (by rw [stepped]; exact counts.parsed work file)
      have written : (persistClean registry state work).db =
        execAll (persistParsedFile work.fileHash work.relPath file) state.db := by rw [stepped]
      rw [written, execAll_persistParsedFile] at nodesKept edgesKept
      refine ⟨restCounts, ?_, ?_, ?_, ?_, ?_⟩
      · rw [memberships, stepped]
        simp [collectParsed, parsedMembership]
      · exact fun row mem => nodesKept row (mem_insertAllOrIgnore_of_mem mem)
      · exact fun row mem => edgesKept row (mem_insertAllOrIgnore_of_mem mem)
      · intro member mem name named
        rcases mem_cons.mp mem with rfl | later
        · obtain ⟨node, nodeMem, rfl⟩ := mem_map.mp named
          have taken : ∃ row ∈ insertAllOrIgnore HistoricalNode.key
            (persistedNodes work.fileHash work.relPath file) state.db.historicalNodes,
              row.key = (historicalNode work.fileHash work.relPath node).key :=
            key_mem_insertAllOrIgnore (mem_map_of_mem nodeMem)
          obtain ⟨row, rowMem, same⟩ := taken
          exact ⟨row, nodesKept row rowMem, same⟩
        · exact namesStored member later name named
      · intro member mem key keyed
        rcases mem_cons.mp mem with rfl | later
        · obtain ⟨edge, edgeMem, rfl⟩ := mem_map.mp keyed
          have taken : ∃ row ∈ insertAllOrIgnore HistoricalEdge.key
            (persistedEdges work.fileHash work.relPath file) state.db.historicalEdges,
              row.key = (historicalEdge work.fileHash work.relPath edge).key :=
            key_mem_insertAllOrIgnore (mem_map_of_mem edgeMem)
          obtain ⟨row, rowMem, same⟩ := taken
          exact ⟨row, edgesKept row rowMem, same⟩
        · exact edgesStored member later key keyed

private theorem parseWorks_filterMap (registry : ParserRegistry)
    (content : String → Bytes) (db : Db) (fileIndex : Nat) (tracked : List StoredSnapshotFile) :
    ((parseWorks registry content db fileIndex tracked).filterMap fun work =>
        (registry.parse work.relPath work.fileHash work.bytes).map (parsedMembership work.fileHash work.relPath)) =
      parsedMemberships registry content db tracked := by
  induction tracked generalizing fileIndex with
  | nil => rfl
  | cons file rest ih =>
    rw [parseWorks, filterMap_append, ih, parsedMemberships, parsedMemberships]
    cases parses : needsParse registry content db file with
    | false => simp [parses]
    | true =>
      simp only [parses, if_true, filter_cons_of_pos, filterMap_cons, parseWork]
      cases registry.parse file.filePath file.fileHash (content file.fileHash) <;> rfl

section
variable {db : Db} {commitRow : StoredCommit} {rootTreeHash : Option String}
  {collected : Collected}

private theorem membership_paths_nodup {content : String → Bytes}
    {tracked : List StoredSnapshotFile} (nodup : (tracked.map StoredSnapshotFile.filePath).Nodup) :
    ((contributions registry content db cache tracked).map SnapshotFileMembership.filePath).Nodup := by
  have reused : (reusedMemberships registry db cache tracked).map SnapshotFileMembership.filePath =
    (tracked.filter (isReused registry db)).map StoredSnapshotFile.filePath := by
    rw [reusedMemberships, map_map]
    rfl
  have parsed :
    ((parsedMemberships registry content db tracked).map SnapshotFileMembership.filePath).Sublist
    ((tracked.filter (needsParse registry content db)).map StoredSnapshotFile.filePath) := by
    rw [parsedMemberships, map_filterMap]
    induction tracked.filter (needsParse registry content db) with
    | nil => exact .refl _
    | cons file rest ih =>
      rw [filterMap_cons]
      cases registry.parse file.filePath file.fileHash (content file.fileHash) with
      | none => exact ih.cons _
      | some parsed => exact ih.cons_cons _
  rw [contributions, map_append, reused]
  refine List.Nodup.append ?_ ?_ ?_
  · exact List.Nodup.sublist (List.Sublist.map _ filter_sublist) nodup
  · exact List.Nodup.sublist (parsed.trans (List.Sublist.map _ filter_sublist)) nodup
  · intro path inReused inParsed
    obtain ⟨file, mem, rfl⟩ := mem_map.mp inReused
    obtain ⟨other, otherMem, samePath⟩ := mem_map.mp (parsed.subset inParsed)
    obtain ⟨mem, stored⟩ := mem_filter.mp mem
    obtain ⟨otherMem, unstored⟩ := mem_filter.mp otherMem
    have same := inj_on_of_nodup_map nodup otherMem mem samePath
    subst same
    simp only [isReused, needsParse, Bool.and_eq_true, Bool.not_eq_true'] at stored unstored
    rw [stored.2] at unstored
    cases unstored.1.2

theorem listSnapshotFiles_published (valid : db.Valid)
    (paths : (collected.snapshotFiles.map StoredSnapshotFile.filePath).Nodup) :
    (listSnapshotFiles (publishedDb commitRow rootTreeHash collected db) (nextSnapshotId db)).Perm
      (collected.snapshotFiles.map fun file => { file with snapshotId := nextSnapshotId db }) := by
  unfold listSnapshotFiles
  refine (perm_insertionSort _ _).trans (List.Perm.of_eq ?_)
  rw [publishedDb_snapshotFiles valid paths, filter_append]
  have old : (db.snapshotFiles.filter fun row => decide (row.snapshotId = nextSnapshotId db)) = [] := by
    refine filter_eq_nil_iff.mpr fun row mem same => ?_
    exact Db.Valid.nextSnapshotId_fresh db (of_decide_eq_true same ▸ valid.files row mem)
  rw [old, nil_append, filter_eq_self]
  intro row mem
  obtain ⟨file, _, rfl⟩ := mem_map.mp mem
  simp

variable {id : Nat}

private theorem attached_rows {Row Key : Type} [DecidableEq Key] {key : Row → Key} {idOf : Row → Nat}
    {items rows : List Row} (fresh : ∀ row ∈ rows, idOf row ≠ id)
    (owned : ∀ item ∈ items, idOf item = id)
    (separates : ∀ row ∈ rows, ∀ item ∈ items, key row ≠ key item) :
    ∃ added, ((insertAllOrIgnore key items rows).filter fun row => decide (idOf row = id)) = added ∧
      added.length ≤ items.length ∧ (∀ row ∈ added, row ∈ items) ∧
      (added.length = items.length ↔ (items.map key).Nodup) ∧
      (added.length = items.length → added = items) := by
  obtain ⟨added, loop, kept, nodup, _⟩ := exists_insertAllOrIgnore_eq key items rows
  have old : (rows.filter fun row => decide (idOf row = id)) = [] :=
    filter_eq_nil_iff.mpr fun row mem => by simpa using fresh row mem
  have new : (added.filter fun row => decide (idOf row = id)) = added :=
    filter_eq_self.mpr fun row mem => by simpa using owned row (kept.subset mem)
  refine ⟨added, ?_, kept.length_le, fun row mem => kept.subset mem, ?_, ?_⟩
  · rw [loop, filter_append, old, new, nil_append]
  · constructor
    · intro complete
      rw [← kept.eq_of_length complete]
      exact nodup
    · intro unique
      have whole := insertAllOrIgnore_fresh unique fun item mem row rowMem =>
        separates row rowMem item mem
      rw [loop] at whole
      rw [append_cancel_left whole]
  · exact fun complete => kept.eq_of_length complete

theorem joined_length_iff {Row Key Blob BlobKey : Type} [DecidableEq Key]
    [DecidableEq BlobKey] (key : Row → Key) {idOf : Row → Nat} {items rows : List Row}
    {blobKey : Blob → BlobKey} {blobs : List Blob} (wanted : Row → BlobKey)
    (unique : (blobs.map blobKey).Nodup) (fresh : ∀ row ∈ rows, idOf row ≠ id)
    (owned : ∀ item ∈ items, idOf item = id)
    (separates : ∀ row ∈ rows, ∀ item ∈ items, key row ≠ key item) :
    items.length = (((insertAllOrIgnore key items rows).filter fun row =>
        decide (idOf row = id)).flatMap fun mem =>
          blobs.filter fun blob => decide (blobKey blob = wanted mem)).length ↔
      (items.map key).Nodup ∧ ∀ item ∈ items, ∃ blob ∈ blobs, blobKey blob = wanted item := by
  obtain ⟨added, attached, fewer, _, complete_iff, complete⟩ := attached_rows fresh owned separates
  rw [attached]
  obtain ⟨joinedFewer, joined_iff⟩ := length_join unique wanted added
  constructor
  · intro same
    have whole : added.length = items.length := by omega
    have all := complete whole
    subst all
    exact ⟨complete_iff.mp rfl, joined_iff.mp same.symm⟩
  · rintro ⟨nodup, found⟩
    have all := complete (complete_iff.mpr nodup)
    subst all
    exact (joined_iff.mpr found).symm

private theorem membershipNodes_keys (id : Nat) (memberships : List SnapshotFileMembership) :
    ((memberships.flatMap (membershipNodes id)).map SnapshotNode.key).Nodup ↔
      (memberships.flatMap SnapshotFileMembership.qualifiedNames).Nodup := by
  have keys : (memberships.flatMap (membershipNodes id)).map SnapshotNode.key =
    (memberships.flatMap SnapshotFileMembership.qualifiedNames).map fun name => (id, name) := by
    simp only [map_flatMap, membershipNodes, map_map]
    rfl
  rw [keys, nodup_map_iff fun first second same => (Prod.mk.inj same).2]

private theorem membershipEdges_keys (id : Nat) (memberships : List SnapshotFileMembership) :
    ((memberships.flatMap (membershipEdges id)).map SnapshotEdge.key).Nodup ↔
      (memberships.flatMap SnapshotFileMembership.edgeKeys).Nodup := by
  have keys : (memberships.flatMap (membershipEdges id)).map SnapshotEdge.key =
    (memberships.flatMap SnapshotFileMembership.edgeKeys).map fun key => (id, key) := by
    simp only [map_flatMap, membershipEdges, map_map]
    rfl
  rw [keys, nodup_map_iff fun first second same => (Prod.mk.inj same).2]

private theorem reconstructSnapshotNodes_published (valid : db.Valid) :
    (collected.fileMemberships.flatMap SnapshotFileMembership.qualifiedNames).length =
        (reconstructSnapshotNodes (publishedDb commitRow rootTreeHash collected db) (nextSnapshotId db)).length ↔
      (collected.fileMemberships.flatMap SnapshotFileMembership.qualifiedNames).Nodup ∧
        ∀ member ∈ collected.fileMemberships, ∀ name ∈ member.qualifiedNames,
          ∃ row ∈ db.historicalNodes, row.key = (member.fileHash, name) := by
  have fresh : ∀ row ∈ db.snapshotNodes, row.snapshotId ≠ nextSnapshotId db := by
    intro row mem same
    exact Db.Valid.nextSnapshotId_fresh db (same ▸ valid.nodes row mem)
  have owned : ∀ item ∈ collected.fileMemberships.flatMap (membershipNodes (nextSnapshotId db)),
    item.snapshotId = nextSnapshotId db := by
    intro item mem
    obtain ⟨member, _, attached⟩ := mem_flatMap.mp mem
    obtain ⟨name, _, rfl⟩ := mem_map.mp attached
    rfl
  have counted := joined_length_iff SnapshotNode.key (fun mem => (mem.fileHash, mem.qualifiedName)) valid.nodeKeys fresh owned
    fun row mem item itemMem same => fresh row mem ((congrArg Prod.fst same).trans (owned item itemMem))
  have sameLength :
    (collected.fileMemberships.flatMap (membershipNodes (nextSnapshotId db))).length =
    (collected.fileMemberships.flatMap SnapshotFileMembership.qualifiedNames).length := by
    simp [length_flatMap, membershipNodes]
  rw [sameLength, membershipNodes_keys] at counted
  unfold reconstructSnapshotNodes
  rw [length_insertionSort]
  refine counted.trans (and_congr_right fun _ => ?_)
  simp only [forall_mem_flatMap, membershipNodes, forall_mem_map]

private theorem reconstructSnapshotEdges_published (valid : db.Valid) :
    (collected.fileMemberships.flatMap SnapshotFileMembership.edgeKeys).length =
        (reconstructSnapshotEdges (publishedDb commitRow rootTreeHash collected db) (nextSnapshotId db)).length ↔
      (collected.fileMemberships.flatMap SnapshotFileMembership.edgeKeys).Nodup ∧
        ∀ member ∈ collected.fileMemberships, ∀ key ∈ member.edgeKeys, ∃ row ∈ db.historicalEdges,
          row.key = (member.fileHash, key) := by
  have fresh : ∀ row ∈ db.snapshotEdges, row.snapshotId ≠ nextSnapshotId db := by
    intro row mem same
    exact Db.Valid.nextSnapshotId_fresh db (same ▸ valid.edges row mem)
  have owned : ∀ item ∈ collected.fileMemberships.flatMap (membershipEdges (nextSnapshotId db)),
    item.snapshotId = nextSnapshotId db := by
    intro item mem
    obtain ⟨member, _, attached⟩ := mem_flatMap.mp mem
    obtain ⟨key, _, rfl⟩ := mem_map.mp attached
    rfl
  have counted := joined_length_iff SnapshotEdge.key (fun mem => (mem.fileHash, mem.edgeKey)) valid.edgeKeys fresh owned
    fun row mem item itemMem same => fresh row mem ((congrArg Prod.fst same).trans (owned item itemMem))
  have sameLength :
    (collected.fileMemberships.flatMap (membershipEdges (nextSnapshotId db))).length =
    (collected.fileMemberships.flatMap SnapshotFileMembership.edgeKeys).length := by
    simp [length_flatMap, membershipEdges]
  rw [sameLength, membershipEdges_keys] at counted
  unfold reconstructSnapshotEdges
  rw [length_insertionSort]
  refine counted.trans (and_congr_right fun _ => ?_)
  simp only [forall_mem_flatMap, membershipEdges, forall_mem_map]

private theorem reconstructSnapshotFromRow_published (valid : db.Valid) (counts : collected.Counts)
    (paths : (collected.fileMemberships.map SnapshotFileMembership.filePath).Nodup) :
    (∃ result, reconstructSnapshotFromRow (publishedDb commitRow rootTreeHash collected db)
        (snapshotRow commitRow.repoId (nextSnapshotId db) commitRow.commitSha rootTreeHash collected) = .ok result) ↔
      ((collected.fileMemberships.flatMap SnapshotFileMembership.qualifiedNames).Nodup ∧
        ∀ member ∈ collected.fileMemberships, ∀ name ∈ member.qualifiedNames,
          ∃ row ∈ db.historicalNodes, row.key = (member.fileHash, name)) ∧
      (collected.fileMemberships.flatMap SnapshotFileMembership.edgeKeys).Nodup ∧
        ∀ member ∈ collected.fileMemberships, ∀ key ∈ member.edgeKeys, ∃ row ∈ db.historicalEdges,
          row.key = (member.fileHash, key) := by
  have samePaths : collected.snapshotFiles.map StoredSnapshotFile.filePath =
    collected.fileMemberships.map SnapshotFileMembership.filePath := by
    have firsts := congrArg (map Prod.fst) counts.files
    rwa [map_map, map_map] at firsts
  have files : (listSnapshotFiles (publishedDb commitRow rootTreeHash collected db)
    (nextSnapshotId db)).length = collected.snapshotFiles.length := by
    rw [(listSnapshotFiles_published valid (samePaths ▸ paths)).length_eq, length_map]
  rw [reconstructSnapshotFromRow_ok_iff, ← reconstructSnapshotNodes_published
    valid, ← reconstructSnapshotEdges_published valid, ← counts.nodes, ← counts.edges]
  exact and_iff_right files.symm

end

section
variable {env : BuildEnv} {content : String → Bytes} {step : CommitStep} {state next : BuildState}
  {tracked : List StoredSnapshotFile}

structure Persisted.Contributes (content : String → Bytes) (registry : ParserRegistry) (db : Db)
    (cache : BuildRunCache) (tracked : List StoredSnapshotFile) (persisted : Persisted) : Prop where
  memberships : persisted.collected.fileMemberships = contributions registry content db cache tracked
  names : ∀ parsed ∈ parsedMemberships registry content db tracked, ∀ name ∈ parsed.qualifiedNames,
    ∃ row ∈ persisted.db.historicalNodes, row.key = (parsed.fileHash, name)
  keys : ∀ parsed ∈ parsedMemberships registry content db tracked, ∀ key ∈ parsed.edgeKeys,
    ∃ row ∈ persisted.db.historicalEdges, row.key = (parsed.fileHash, key)

def persistedCleanly (registry : ParserRegistry) (content : String → Bytes) (db : Db)
    (cache : BuildRunCache) (tracked : List StoredSnapshotFile) (errors : List IngestError) :
    Persisted :=
  (parseWorks registry content db 1 tracked).foldl (persistClean registry)
    { db := db, cache := cache, collected := collectReused registry db cache tracked {},
      errors := errors }

variable {db : Db} {before : BuildRunCache} {persisted : Persisted} {canonicalRoot : String}

theorem persistAll_of_errors {git : Git} {faults : CommitFaults} {commitSha : String}
    {errors : List IngestError} {classified : Classified} (faithful : cache.Faithful content)
    (serves : git.Serves content commitSha tracked)
    (classifies : classifyAll registry git faults db commitSha 1 tracked { cache := cache } = (none, classified))
    (clean : (persistAll registry faults commitSha db errors classified).errors = errors) :
    persistAll registry faults commitSha db errors classified =
      persistedCleanly registry content db classified.cache tracked errors := by
  obtain ⟨_, extended⟩ := classifyAll_cache tracked faithful serves classifies
  obtain ⟨collected, batch⟩ := classifyAll_ok tracked faithful serves classifies
  have sameCollected : classified.collected = collectReused registry db classified.cache tracked {} := by
    rw [collected]
    unfold collectReused
    simp only [extended.knownGraph_eq]
  refine (foldl_persistWork_of_errors classified.parseBatch _ clean).trans ?_
  rw [batch, nil_append, sameCollected]
  rfl

theorem processCommit_clean (lists : step.git.ListsOnce) (valid : state.connection.committed.Valid)
    (faithful : state.cache.Faithful content) (served : step.Served content env state)
    (listed : trackedFiles step.git step.faults env.repoId state.connection.visible step.commit = .ok tracked)
    (ran : processCommit env step.git step.faults step.commit state = (.ok (), next))
    (clean : next.errors = state.errors) :
    ∃ cache, CacheExtends state.connection.committed state.cache cache ∧
      (persistedCleanly env.registry content state.connection.committed cache tracked
      state.errors).Over state.connection.committed ∧
      next.cache = (persistedCleanly env.registry content state.connection.committed cache tracked state.errors).cache ∧
      next.connection = ⟨publishedDb (storedCommit env.repoId env.indexedRef step.commit) (rootTreeHash step.git step.commit.sha)
        (persistedCleanly env.registry content state.connection.committed cache tracked state.errors).collected
        (persistedCleanly env.registry content state.connection.committed cache tracked state.errors).db, none⟩ := by
  obtain ⟨sameTracked, cache, classified, relisted, fetched, _, classifies, rfl⟩ := processCommit_ok ran
  rw [listed] at relisted
  cases relisted
  have serves := served tracked listed
  obtain ⟨fetchedFaithful, sameGraphs⟩ := prefetchBlobBytes_ok faithful serves fetched
  obtain ⟨_, extended⟩ := classifyAll_cache tracked fetchedFaithful serves classifies
  have fromState : CacheExtends state.connection.committed state.cache classified.cache := by
    intro hash
    have step := extended hash
    rwa [sameGraphs] at step
  have complete : persistAll env.registry step.faults step.commit.sha state.connection.committed state.errors classified =
      persistedCleanly env.registry content state.connection.committed classified.cache tracked
        state.errors := persistAll_of_errors fetchedFaithful serves classifies clean
  have atop := persistAll_atop state.errors lists valid listed classifies
  rw [complete] at atop
  refine ⟨classified.cache, fromState, atop, ?_, ?_⟩
  all_goals simp only [committedState, complete]

private theorem contributions_of_extends {after : BuildRunCache} (extended : CacheExtends db before after) :
    contributions registry content db after tracked = contributions registry content db before tracked := by
  unfold contributions reusedMemberships
  simp only [extended.knownGraph_eq]

theorem persistedCleanly_contributes (extended : CacheExtends db before cache)
    (errors : List IngestError) :
    (persistedCleanly registry content db cache tracked errors).Contributes content registry db before tracked := by
  obtain ⟨reusedCounts, reused⟩ := collectReused_spec registry db cache tracked
  obtain ⟨_, memberships, _, _, names, keys⟩ := foldl_persistClean_spec registry (parseWorks registry content db 1 tracked)
    { db := db, cache := cache, collected := collectReused registry db cache tracked {},
      errors := errors } reusedCounts
  rw [parseWorks_filterMap] at memberships names keys
  refine ⟨?_, names, keys⟩
  rw [← contributions_of_extends extended]
  unfold persistedCleanly
  rw [memberships, reused]
  rfl

theorem stored_of_reused {member : SnapshotFileMembership}
    (reused : member ∈ reusedMemberships registry db cache tracked) :
    hasHistoricalFileGraph db member.fileHash = true := by
  obtain ⟨file, mem, rfl⟩ := mem_map.mp reused
  have kept := (mem_filter.mp mem).2
  rw [isReused, Bool.and_eq_true] at kept
  exact kept.2

section
variable (contributes : persisted.Contributes content registry db cache tracked)
  (atop : persisted.Over db)
include contributes atop

theorem Persisted.Contributes.names_stored_iff :
    (∀ member ∈ persisted.collected.fileMemberships, ∀ name ∈ member.qualifiedNames,
        ∃ row ∈ persisted.db.historicalNodes, row.key = (member.fileHash, name)) ↔
      ∀ reused ∈ reusedMemberships registry db cache tracked, ∀ name ∈ reused.qualifiedNames,
        ∃ row ∈ db.historicalNodes, row.key = (reused.fileHash, name) := by
  rw [contributes.memberships]
  constructor
  · intro stored reused mem name named
    obtain ⟨row, rowMem, same⟩ := stored reused (mem_append_left _ mem) name named
    have sameHash : row.fileHash = reused.fileHash := congrArg Prod.fst same
    exact ⟨row, atop.grown.node_of_stored rowMem (sameHash ▸ stored_of_reused mem), same⟩
  · intro stored member mem name named
    rcases mem_append.mp mem with reused | parsed
    · obtain ⟨row, rowMem, same⟩ := stored member reused name named
      exact ⟨row, atop.grown.node_mem rowMem, same⟩
    · exact contributes.names member parsed name named

theorem Persisted.Contributes.keys_stored_iff :
    (∀ member ∈ persisted.collected.fileMemberships, ∀ key ∈ member.edgeKeys,
        ∃ row ∈ persisted.db.historicalEdges, row.key = (member.fileHash, key)) ↔
      ∀ reused ∈ reusedMemberships registry db cache tracked, ∀ key ∈ reused.edgeKeys,
        ∃ row ∈ db.historicalEdges, row.key = (reused.fileHash, key) := by
  rw [contributes.memberships]
  constructor
  · intro stored reused mem key keyed
    obtain ⟨row, rowMem, same⟩ := stored reused (mem_append_left _ mem) key keyed
    have sameHash : row.fileHash = reused.fileHash := congrArg Prod.fst same
    exact ⟨row, atop.grown.edge_of_stored rowMem (sameHash ▸ stored_of_reused mem), same⟩
  · intro stored member mem key keyed
    rcases mem_append.mp mem with reused | parsed
    · obtain ⟨row, rowMem, same⟩ := stored member reused key keyed
      exact ⟨row, atop.grown.edge_mem rowMem, same⟩
    · exact contributes.keys member parsed key keyed

end

private theorem reconstructSnapshot_published {commitRow : StoredCommit}
    {rootTreeHash : Option String} {collected : Collected}
    (registered : findRepoId db canonicalRoot = some commitRow.repoId)
    (unindexed : ∀ row ∈ db.graphSnapshots, row.key ≠ (commitRow.repoId, commitRow.commitSha)) :
    reconstructSnapshot (publishedDb commitRow rootTreeHash collected db)
      canonicalRoot commitRow.commitSha =
      reconstructSnapshotFromRow (publishedDb commitRow rootTreeHash collected db)
        (snapshotRow commitRow.repoId (nextSnapshotId db) commitRow.commitSha rootTreeHash collected) := by
  have found : findRepoId (publishedDb commitRow rootTreeHash collected db) canonicalRoot = some commitRow.repoId := registered
  have row : findSnapshot (publishedDb commitRow rootTreeHash collected db) commitRow.repoId
      commitRow.commitSha = some (snapshotRow commitRow.repoId (nextSnapshotId db)
        commitRow.commitSha rootTreeHash collected) := by
    unfold findSnapshot
    rw [Db.Valid.publishedDb_graphSnapshots unindexed, find?_append, find?_eq_none.mpr (by simpa using unindexed)]
    simp [StoredSnapshot.key, snapshotRow]
  unfold reconstructSnapshot
  rw [found]
  dsimp only
  rw [row]

private theorem reconstructSnapshot_indexed_iff (lists : step.git.ListsOnce)
    (valid : state.connection.committed.Valid)
    (faithful : state.cache.Faithful content) (served : step.Served content env state)
    (registered : findRepoId state.connection.committed canonicalRoot = some env.repoId)
    (unindexed : findSnapshot state.connection.committed env.repoId step.commit.sha = none)
    (listed : trackedFiles step.git step.faults env.repoId state.connection.visible step.commit = .ok tracked)
    (ran : processCommit env step.git step.faults step.commit state = (.ok (), next))
    (clean : next.errors = state.errors) :
    (∃ snapshot,
      reconstructSnapshot next.connection.committed canonicalRoot step.commit.sha = .ok snapshot) ↔
      SelfConsistent env.registry content state.connection.committed state.cache tracked := by
  obtain ⟨cache, extended, atop, _, published⟩ := processCommit_clean lists valid faithful served listed ran clean
  have contributes : (persistedCleanly env.registry content state.connection.committed cache tracked
    state.errors).Contributes content env.registry state.connection.committed state.cache tracked :=
    persistedCleanly_contributes extended state.errors
  generalize persistedCleanly env.registry content state.connection.committed cache tracked
    state.errors = persisted at atop published contributes
  have paths : (persisted.collected.fileMemberships.map SnapshotFileMembership.filePath).Nodup := by
    rw [contributes.memberships]
    exact membership_paths_nodup (trackedFiles_distinct (lists _) listed)
  let commitRow := storedCommit env.repoId env.indexedRef step.commit
  have stillRegistered : findRepoId persisted.db canonicalRoot = some commitRow.repoId := by
    rw [findRepoId, atop.repos]
    exact registered
  have stillUnindexed : ∀ row ∈ persisted.db.graphSnapshots, row.key ≠ (commitRow.repoId, commitRow.commitSha) := by
    rw [atop.snapshots]
    exact findSnapshot_eq_none.mp unindexed
  rw [published]
  change (∃ snapshot, reconstructSnapshot _ canonicalRoot commitRow.commitSha = .ok snapshot) ↔ _
  rw [reconstructSnapshot_published stillRegistered stillUnindexed,
    reconstructSnapshotFromRow_published atop.valid atop.sound.counts paths,
    contributes.names_stored_iff atop, contributes.keys_stored_iff atop, contributes.memberships]
  constructor
  · rintro ⟨⟨names, namesStored⟩, edgeKeys, edgesStored⟩
    exact ⟨names, edgeKeys, namesStored, edgesStored⟩
  · rintro ⟨names, edgeKeys, namesStored, edgesStored⟩
    exact ⟨⟨names, namesStored⟩, edgeKeys, edgesStored⟩

end

/-! ## Snapshots of a whole build -/

section
variable {db next : Db} {canonicalRoot commitSha : String} {repoId : Nat}
  {snapshot : StoredSnapshot}

private theorem findSnapshot_of_extends (larger : db.Extends next)
    (indexed : findSnapshot db repoId commitSha = some snapshot) :
    findSnapshot next repoId commitSha = some snapshot := by
  obtain ⟨added, appended⟩ := larger.snapshots
  unfold findSnapshot at indexed ⊢
  rw [appended, find?_append, indexed]
  rfl

theorem findRepoId_of_extends (larger : db.Extends next) (canonicalRoot : String) :
    findRepoId next canonicalRoot = findRepoId db canonicalRoot := by
  unfold findRepoId
  rw [larger.repos]

private theorem reconstructSnapshot_of_extends (larger : db.Extends next)
    (registered : findRepoId db canonicalRoot = some repoId)
    (indexed : findSnapshot db repoId commitSha = some snapshot) :
    reconstructSnapshot next canonicalRoot commitSha = reconstructSnapshot db canonicalRoot commitSha := by
  have known : snapshot.snapshotId ∈ snapshotIds db := mem_map_of_mem (mem_of_find?_eq_some indexed)
  have same := larger.contents snapshot.snapshotId known
  unfold reconstructSnapshot
  rw [findRepoId_of_extends larger, registered]
  dsimp only
  rw [findSnapshot_of_extends larger indexed, indexed]
  dsimp only
  unfold reconstructSnapshotFromRow
  rw [same.files, same.nodes, same.edges]

end

private theorem processCommit_indexes {env : BuildEnv} {git : Git} {faults : CommitFaults}
    {commit : GitCommitMeta} {state next : BuildState}
    (ran : processCommit env git faults commit state = (.ok (), next)) :
    ∃ snapshot, findSnapshot next.connection.committed env.repoId commit.sha = some snapshot := by
  obtain ⟨_, _, classified, _, _, _, _, rfl⟩ := processCommit_ok ran
  rw [← Option.ne_none_iff_exists']
  intro missing
  exact findSnapshot_eq_none.mp missing _ (mem_insertOrReplace.mpr (.inr rfl)) rfl

private theorem reconstructSnapshot_run_iff {env : BuildEnv} {content : String → Bytes}
    {canonicalRoot : String} {earlier later : List CommitStep} {step : CommitStep}
    {start state next : BuildState} {tracked : List StoredSnapshotFile}
    (valid : start.connection.committed.Valid) (sound : start.connection.committed.Sound)
    (faithful : start.cache.Faithful content)
    (registered : findRepoId start.connection.committed canonicalRoot = some env.repoId)
    (listsSteps : ∀ other ∈ earlier ++ step :: later, other.git.ListsOnce)
    (served : AllServed content env (earlier ++ [step]) start)
    (reached : buildCommits env earlier start = state)
    (unindexed : findSnapshot state.connection.visible env.repoId step.commit.sha = none)
    (listed : trackedFiles step.git step.faults env.repoId state.connection.visible step.commit = .ok tracked)
    (ran : processCommit env step.git step.faults step.commit state = (.ok (), next))
    (clean : next.errors = state.errors) :
    (∃ snapshot, reconstructSnapshot (buildCommits env later next).connection.committed
      canonicalRoot step.commit.sha = .ok snapshot) ↔
      SelfConsistent env.registry content state.connection.committed state.cache tracked := by
  have listsStep : step.git.ListsOnce := listsSteps step (mem_append_right _ (.head _))
  obtain ⟨⟨stateValid, stateSound⟩, fromStart⟩ :=
    (Db.Extends.kept env.registry start.connection.committed).buildCommits earlier
      (fun other mem => listsSteps other (mem_append_left _ mem))
      ⟨⟨valid, sound⟩, .refl _⟩
  obtain ⟨servedEarlier, servedStep, _⟩ := served.append
  have stateFaithful : (buildCommits env earlier start).cache.Faithful content :=
    buildCommits_faithful earlier faithful servedEarlier
  change buildCommits ⟨env.registry, env.repoId, env.indexedRef⟩ earlier start = state at reached
  rw [reached] at stateSound fromStart stateValid servedStep stateFaithful
  have stateRegistered := (findRepoId_of_extends fromStart canonicalRoot).trans registered
  have closed : state.connection.pending = none := by
    obtain ⟨_, _, _, _, _, closed, _⟩ := processCommit_ok ran
    exact closed
  have notYet : findSnapshot state.connection.committed env.repoId step.commit.sha = none := by
    simpa [Connection.visible, closed] using unindexed
  rw [← reconstructSnapshot_indexed_iff listsStep stateValid stateFaithful servedStep stateRegistered notYet listed ran clean]
  -- The later commits leave the snapshot as it is.
  obtain ⟨nextKept, fromState⟩ := (Db.Extends.kept env.registry state.connection.committed).commit
    listsStep ⟨⟨stateValid, stateSound⟩, .refl _⟩ notYet ran
  obtain ⟨_, fromNext⟩ := (Db.Extends.kept env.registry next.connection.committed).buildCommits
    later (fun other mem => listsSteps other (mem_append_right _ (.tail _ mem)))
    ⟨nextKept, .refl _⟩
  obtain ⟨snapshot, indexed⟩ := processCommit_indexes ran
  have nextRegistered := (findRepoId_of_extends fromState canonicalRoot).trans stateRegistered
  rw [reconstructSnapshot_of_extends fromNext nextRegistered indexed]

def buildStart (registry : ParserRegistry) (operations : List Operation) (canonicalRoot : String) :
    BuildState where
  connection := ⟨upsertRepo canonicalRoot (runOperations registry operations Db.empty), none⟩

private theorem buildStart_sound (registry : ParserRegistry) {operations : List Operation}
    (canonicalRoot : String) (lists : ∀ operation ∈ operations, operation.Admitted ListsOnce)
    (resolves : ∀ operation ∈ operations, operation.Resolves) :
    (buildStart registry operations canonicalRoot).connection.committed.Valid ∧
      (buildStart registry operations canonicalRoot).connection.committed.Sound :=
  (Db.Sound.kept registry).register canonicalRoot
    ((Db.Sound.kept registry).runOperations operations lists resolves ⟨.empty, .empty⟩)

/-- A commit that a build indexes without an error reads back, right then and after
the rest of the build, if and only if its files are consistent when its turn comes. -/
theorem reconstructSnapshot_built_iff (env : BuildEnv) (content : String → Bytes)
    (operations : List Operation) (canonicalRoot : String) (earlier later : List CommitStep)
    (step : CommitStep) (state next : BuildState) (tracked : List StoredSnapshotFile)
    (lists : ∀ operation ∈ operations, operation.Admitted ListsOnce)
    (resolves : ∀ operation ∈ operations, operation.Resolves)
    (registered : findRepoId (buildStart env.registry operations canonicalRoot).connection.committed
      canonicalRoot = some env.repoId)
    (listsSteps : ∀ other ∈ earlier ++ step :: later, other.git.ListsOnce)
    (served : AllServed content env (earlier ++ [step]) (buildStart env.registry operations canonicalRoot))
    (reached : buildCommits env earlier (buildStart env.registry operations canonicalRoot) = state)
    (unindexed : findSnapshot state.connection.visible env.repoId step.commit.sha = none)
    (listed : trackedFiles step.git step.faults env.repoId state.connection.visible step.commit = .ok tracked)
    (ran : processCommit env step.git step.faults step.commit state = (.ok (), next))
    (clean : next.errors = state.errors) :
    (∃ snapshot, reconstructSnapshot (buildCommits env later next).connection.committed
      canonicalRoot step.commit.sha = .ok snapshot) ↔
      SelfConsistent env.registry content state.connection.committed state.cache tracked := by
  obtain ⟨valid, sound⟩ := buildStart_sound env.registry canonicalRoot lists resolves
  exact reconstructSnapshot_run_iff valid sound (.empty content) registered listsSteps served reached unindexed listed ran clean

/-! ## One file with calls -/

def callingFile (path hash : String) (lines : List Nat) : ParsedFile where
  path := path
  language := some "rust"
  hash := hash
  nodes := ["main", "helper"].map fun name =>
    { kind := .function, name := name, qualifiedName := path ++ "::fn::" ++ name, filePath := path,
      lineStart := 1, lineEnd := 9, language := "rust", fileHash := hash }
  edges := lines.map fun line =>
    { kind := .calls, sourceQn := path ++ "::fn::main", targetQn := path ++ "::fn::helper",
      filePath := path, line := some line }

def callingRegistry (lines : List Nat) : ParserRegistry where
  supports path := decide (path = "a.rs" ∨ path = "b.rs")
  parse path hash _ := some (callingFile path hash lines)

def rootCommitStep (sha : String) (tree : List TreeEntry) : CommitStep where
  commit :=
    { sha := sha, parentSha := none, authorName := "", authorEmail := "", authorTime := 0,
      committerTime := 0, subject := "", body := "" }
  git :=
    { revParse := fun _ => .ok "root"
      lsTree := fun _ => .ok tree
      lsTreePaths := fun _ paths => .ok (tree.filter fun entry => decide (entry.filePath ∈ paths))
      diffTreeFiles := fun _ _ => .ok []
      showFile := fun _ path => .ok (if path ∈ tree.map TreeEntry.filePath then some [1] else none)
      catFileBlobBatch := fun hashes => .ok (hashes.map fun hash => (hash, [1])) }

def callingEnv (lines : List Nat) : BuildEnv where
  registry := callingRegistry lines
  repoId := 1

def callingStep : CommitStep := rootCommitStep "c1" [⟨.blob, "h1", "a.rs"⟩]

theorem rootCommitStep_listsOnce (sha : String) {tree : List TreeEntry}
    (nodup : (tree.map TreeEntry.filePath).Nodup) : (rootCommitStep sha tree).git.ListsOnce := by
  intro commitSha entries listed
  cases listed
  exact nodup

private theorem rootCommitStep_serves (sha commitSha : String) (tree : List TreeEntry)
    {tracked : List StoredSnapshotFile}
    (inTree : ∀ file ∈ tracked, file.filePath ∈ tree.map TreeEntry.filePath) :
    (rootCommitStep sha tree).git.Serves (fun _ => [1]) commitSha tracked where
  batch hashes found answered blob mem := by
    cases answered
    obtain ⟨hash, _, rfl⟩ := mem_map.mp mem
    rfl
  shown file mem answer answered := by
    cases answered
    exact if_pos (inTree file mem)

theorem rootCommitStep_served (sha : String) (faults : CommitFaults)
    (env : BuildEnv) (state : BuildState) : CommitStep.Served (fun _ => [1]) env state
      { rootCommitStep sha [⟨.blob, "h1", "a.rs"⟩] with faults := faults } := by
  intro tracked listed
  have only : tracked = [trackedFile "a.rs" "h1" none none] := by
    cases listed
    rfl
  subst only
  refine rootCommitStep_serves sha _ _ ?_
  intro file mem
  rw [mem_singleton.mp mem]
  exact mem_singleton.mpr rfl

private theorem selfConsistent_one_call :
    SelfConsistent (callingRegistry [2]) (fun _ => [1]) (buildStart (callingRegistry [2]) []
      "/repo").connection.committed {} [trackedFile "a.rs" "h1" none none] where
  names := by decide
  edgeKeys := by decide
  namesStored reused mem := by
    have none : reusedMemberships (callingRegistry [2]) (buildStart (callingRegistry [2]) []
      "/repo").connection.committed {} [trackedFile "a.rs" "h1" none none] = [] := by decide
    rw [none] at mem
    cases mem
  edgesStored reused mem := by
    have none : reusedMemberships (callingRegistry [2]) (buildStart (callingRegistry [2]) []
      "/repo").connection.committed {} [trackedFile "a.rs" "h1" none none] = [] := by decide
    rw [none] at mem
    cases mem

theorem reconstructSnapshot_single_call : ∃ snapshot, reconstructSnapshot
    (processCommit (callingEnv [2]) callingStep.git callingStep.faults callingStep.commit
      (buildStart (callingRegistry [2]) [] "/repo")).2.connection.committed "/repo" "c1" = .ok snapshot :=
  (reconstructSnapshot_built_iff (callingEnv [2]) (fun _ => [1]) [] "/repo" [] [] callingStep
    (buildStart (callingRegistry [2]) [] "/repo") _ [trackedFile "a.rs" "h1" none none]
    (by simp) (by simp) rfl
    (fun other mem => by
      rw [mem_singleton.mp mem]
      exact rootCommitStep_listsOnce _ (nodup_singleton _))
    ⟨rootCommitStep_served "c1" {} _ _, trivial⟩ rfl rfl rfl (Prod.ext rfl rfl) rfl).mpr
    selfConsistent_one_call

/-- Two calls of one function from another are one edge row, counted twice. -/
theorem reconstructSnapshot_repeated_call :
    let built := buildCommits (callingEnv [2, 3]) [callingStep]
      (buildStart (callingRegistry [2, 3]) [] "/repo")
    built.errors = [] ∧ (findSnapshot built.connection.committed 1 "c1").isSome = true ∧
      reconstructSnapshot built.connection.committed "/repo" "c1" =
        .error ("snapshot membership rows appear corrupted for commit c1 (snapshot_id=1): " ++ "edges expected=2 actual=1") :=
  ⟨rfl, rfl, rfl⟩

end Atlas.History
