import Atlas.History.Runs

/-! What every commit leaves behind, whatever failed while it was processed: attached
names and edges belong to files of their snapshot, and stored blobs are not written
again. -/
namespace Atlas.History
open List Core Sql

variable {fileHash : String}
  {fileIndex : Nat} {file : StoredSnapshotFile} {tracked : List StoredSnapshotFile}
  {classified : Classified} {larger : Db} {work : ParseWork} {commitRow : StoredCommit} {env : BuildEnv}
  {persisted : Persisted}

theorem hasHistoricalFileGraph_iff {db : Db} : hasHistoricalFileGraph db fileHash = true ↔
    ∃ row ∈ db.historicalNodes, row.fileHash = fileHash := by
  simp [hasHistoricalFileGraph, nodesOfHash, length_pos_iff_exists_mem]

/-! ## Phase 1 -/

inductive Classification (db : Db) (file : StoredSnapshotFile) (state next : Classified) : Prop
  | skipped (collected : next.collected = state.collected) (batch : next.parseBatch = state.parseBatch)
  | reused (graph : CachedFileGraph) (stored : hasHistoricalFileGraph db file.fileHash = true)
    (collected : next.collected = reuseFile file graph state.collected)
      (batch : next.parseBatch = state.parseBatch)
  | queued (work : ParseWork) (unstored : hasHistoricalFileGraph db file.fileHash = false) (hash :
    work.fileHash = file.fileHash) (path : work.relPath = file.filePath)
      (collected : next.collected = state.collected)
      (batch : next.parseBatch = state.parseBatch ++ [work])

variable {registry : ParserRegistry} {git : Git} {faults : CommitFaults} {commitSha : String}
  {state next : Classified}

theorem classifyFile_classification {db : Db}
    (classified : classifyFile registry git faults db commitSha fileIndex file state = .ok next) :
    Classification db file state next := by
  unfold classifyFile at classified
  split at classified
  · cases classified
    exact .skipped rfl rfl
  · cases fault : faults.lookup fileIndex with
    | some msg => simp [fault, attempt, withContext] at classified
    | none =>
      cases stored : hasHistoricalFileGraph db file.fileHash with
      | true =>
        simp only [fault, attempt, withContext, stored] at classified
        split at classified
        · cases classified
        · cases classified
          exact .reused _ stored rfl rfl
      | false =>
        simp only [fault, attempt, withContext, stored] at classified
        split at classified
        · cases classified
        · cases classified
          exact .skipped rfl rfl
        · split at classified
          · cases classified
            exact .skipped rfl rfl
          · cases classified
            exact .queued _ stored rfl rfl rfl rfl

def Classified.paths (state : Classified) : List String := state.collected.snapshotFiles.map
    StoredSnapshotFile.filePath ++ state.parseBatch.map ParseWork.relPath

structure Classified.Sound (db : Db) (state : Classified) : Prop where
  counts : state.collected.Counts
  paths : state.paths.Nodup
  stored : ∀ membership ∈ state.collected.fileMemberships, hasHistoricalFileGraph db membership.fileHash = true
  unstored : ∀ work ∈ state.parseBatch, hasHistoricalFileGraph db work.fileHash = false

theorem Classification.paths_perm {db : Db} (step : Classification db file state next) :
    next.paths = state.paths ∨ next.paths.Perm (file.filePath :: state.paths) := by
  cases step with
  | skipped collected batch =>
    left
    unfold Classified.paths
    rw [collected, batch]
  | reused graph stored collected batch =>
    right
    unfold Classified.paths
    rw [collected, batch]
    simp only [reuseFile, trackedFile, map_append, map_cons, map_nil, append_assoc, singleton_append]
    exact perm_middle
  | queued work unstored hash path collected batch =>
    right
    unfold Classified.paths
    rw [collected, batch]
    simp only [map_append, map_cons, map_nil, path, ← append_assoc]
    exact perm_append_singleton _ _

theorem Classified.Sound.step {db : Db} (sound : state.Sound db)
    (fresh : file.filePath ∉ state.paths) (step : Classification db file state next) :
    next.Sound db := by
  have paths : next.paths.Nodup := by
    rcases step.paths_perm with same | grown
    · exact same ▸ sound.paths
    · exact grown.nodup_iff.mpr (nodup_cons.mpr ⟨fresh, sound.paths⟩)
  cases step with
  | skipped collected batch => exact ⟨collected ▸ sound.counts, paths, collected ▸ sound.stored, batch ▸ sound.unstored⟩
  | reused graph stored collected batch =>
    refine ⟨collected ▸ sound.counts.reuse file graph, paths, ?_, batch ▸ sound.unstored⟩
    intro membership mem
    rw [collected] at mem
    rcases mem_append.mp mem with old | new
    · exact sound.stored membership old
    · rw [mem_singleton.mp new]
      exact stored
  | queued work unstored hash path collected batch =>
    refine ⟨collected ▸ sound.counts, paths, collected ▸ sound.stored, ?_⟩
    intro other mem
    rw [batch] at mem
    rcases mem_append.mp mem with old | new
    · exact sound.unstored other old
    · rw [mem_singleton.mp new, hash]
      exact unstored

theorem classifyAll_sound {db : Db}
    {failure : Option String} (sound : state.Sound db) (nodup : DistinctPaths tracked)
    (fresh : ∀ file ∈ tracked, file.filePath ∉ state.paths)
    (classified : classifyAll registry git faults db commitSha fileIndex tracked state = (failure, next)) :
    next.Sound db := by
  induction tracked generalizing fileIndex state with
  | nil =>
    cases classified
    exact sound
  | cons file rest ih =>
    unfold classifyAll at classified
    cases ran : classifyFile registry git faults db commitSha fileIndex file state with
    | error msg =>
      simp only [ran] at classified
      cases classified
      exact sound
    | ok middle =>
      simp only [ran] at classified
      obtain ⟨notLater, restDistinct⟩ := nodup_cons.mp nodup
      have step := classifyFile_classification ran
      refine ih (sound.step (fresh file (.head _)) step) restDistinct ?_ classified
      intro later mem inMiddle
      have notBefore := fresh later (.tail _ mem)
      rcases step.paths_perm with same | grown
      · exact notBefore (same ▸ inMiddle)
      · rcases mem_cons.mp (grown.mem_iff.mp inMiddle) with equal | before
        · exact notLater (equal ▸ mem_map_of_mem mem)
        · exact notBefore before

/-! ## Phase 3 -/

/-- Rows were only added, for blobs that were not stored before. -/
structure Db.GrownFrom (start db : Db) : Prop where
  nodes : ∃ added, db.historicalNodes = start.historicalNodes ++ added ∧ ∀ row ∈ added,
    hasHistoricalFileGraph start row.fileHash = false
  edges : ∃ added, db.historicalEdges = start.historicalEdges ++ added ∧ ∀ row ∈ added,
    hasHistoricalFileGraph start row.fileHash = false ∧ ∀ old ∈ start.historicalEdges,
    old.key ≠ row.key

namespace Db.GrownFrom

theorem refl (db : Db) : db.GrownFrom db := ⟨⟨[], by simp, by simp⟩, ⟨[], by simp, by simp⟩⟩

variable {start db : Db}

theorem insertHistoricalNode (grown : db.GrownFrom start)
    {row : HistoricalNode} (unstored : hasHistoricalFileGraph db row.fileHash = false) :
    db.GrownFrom (Statement.insertHistoricalNode row start) := by
  obtain ⟨added, appended, fresh⟩ := grown.nodes
  refine ⟨?_, grown.edges⟩
  simp only [Statement.insertHistoricalNode, insertOrIgnore]
  split
  · exact ⟨added, appended, fresh⟩
  · refine ⟨added ++ [row], by rw [appended, append_assoc], ?_⟩
    intro other mem
    rcases mem_append.mp mem with old | new
    · exact fresh other old
    · rw [mem_singleton.mp new]
      exact unstored

theorem insertHistoricalEdge (grown : db.GrownFrom start)
    {row : HistoricalEdge} (unstored : hasHistoricalFileGraph db row.fileHash = false) :
    db.GrownFrom (Statement.insertHistoricalEdge row start) := by
  obtain ⟨added, appended, fresh⟩ := grown.edges
  refine ⟨grown.nodes, ?_⟩
  simp only [Statement.insertHistoricalEdge, insertOrIgnore]
  split
  · exact ⟨added, appended, fresh⟩
  · next absent =>
      refine ⟨added ++ [row], by rw [appended, append_assoc], ?_⟩
      intro other mem
      rcases mem_append.mp mem with old | new
      · exact fresh other old
      · rw [mem_singleton.mp new]
        refine ⟨unstored, fun earlier earlierMember same => absent ?_⟩
        refine hasKey_iff.mpr ⟨earlier, ?_, same⟩
        rw [appended]
        exact mem_append_left _ earlierMember

section
variable (grown : start.GrownFrom db)
include grown

theorem node_of_stored {row : HistoricalNode} (mem : row ∈ db.historicalNodes)
    (stored : hasHistoricalFileGraph start row.fileHash = true) : row ∈ start.historicalNodes := by
  obtain ⟨added, appended, fresh⟩ := grown.nodes
  rw [appended] at mem
  rcases mem_append.mp mem with old | new
  · exact old
  · rw [fresh row new] at stored
    cases stored

theorem edge_of_stored {row : HistoricalEdge} (mem : row ∈ db.historicalEdges)
    (stored : hasHistoricalFileGraph start row.fileHash = true) : row ∈ start.historicalEdges := by
  obtain ⟨added, appended, fresh⟩ := grown.edges
  rw [appended] at mem
  rcases mem_append.mp mem with old | new
  · exact old
  · rw [(fresh row new).1] at stored
    cases stored

theorem node_mem {row : HistoricalNode} (mem : row ∈ start.historicalNodes) :
    row ∈ db.historicalNodes := by
  obtain ⟨added, appended, _⟩ := grown.nodes
  rw [appended]
  exact mem_append_left _ mem

theorem edge_mem {row : HistoricalEdge} (mem : row ∈ start.historicalEdges) :
    row ∈ db.historicalEdges := by
  obtain ⟨added, appended, _⟩ := grown.edges
  rw [appended]
  exact mem_append_left _ mem

end
end Db.GrownFrom

theorem persistAll_grown {db : Db} (errors : List IngestError)
    (unstored : ∀ work ∈ classified.parseBatch, hasHistoricalFileGraph db work.fileHash = false) :
    db.GrownFrom (persistAll registry faults commitSha db errors classified).db := by
  refine persistAll_invariant db.GrownFrom errors classified ?_ (.refl db)
  intro work batched parsed statement mem current grown
  obtain rfl | ⟨node, rfl, sameHash⟩ | ⟨edge, rfl, sameHash⟩ := mem_persistParsedFile mem
  · exact grown
  · exact grown.insertHistoricalNode (sameHash ▸ unstored work batched)
  · exact grown.insertHistoricalEdge (sameHash ▸ unstored work batched)

/-- What is going to be attached has a stored blob, or at least its own edge row. -/
structure Collected.Backed (collected : Collected) (db : Db) : Prop where
  names : ∀ membership ∈ collected.fileMemberships, membership.qualifiedNames ≠ [] →
    hasHistoricalFileGraph db membership.fileHash = true
  keys : ∀ membership ∈ collected.fileMemberships, ∀ key ∈ membership.edgeKeys,
    hasHistoricalFileGraph db membership.fileHash = true ∨
    ∃ row ∈ db.historicalEdges, row.key = (membership.fileHash, key)

theorem hasHistoricalFileGraph_mono {db : Db} (nodes : ∀ row ∈ db.historicalNodes,
    row ∈ larger.historicalNodes) (stored : hasHistoricalFileGraph db fileHash = true) :
    hasHistoricalFileGraph larger fileHash = true := by
  obtain ⟨row, mem, same⟩ := hasHistoricalFileGraph_iff.mp stored
  exact hasHistoricalFileGraph_iff.mpr ⟨row, nodes row mem, same⟩

variable {collected : Collected}

theorem Collected.Backed.mono {db : Db} (backed : collected.Backed db)
    (nodes : ∀ row ∈ db.historicalNodes, row ∈ larger.historicalNodes)
    (edges : ∀ row ∈ db.historicalEdges, row ∈ larger.historicalEdges) :
    collected.Backed larger where
  names membership mem named := hasHistoricalFileGraph_mono nodes (backed.names membership mem named)
  keys membership mem key keyed := by
    rcases backed.keys membership mem key keyed with stored | ⟨row, rowMem, same⟩
    · exact .inl (hasHistoricalFileGraph_mono nodes stored)
    · exact .inr ⟨row, edges row rowMem, same⟩

theorem Collected.Backed.statement {db : Db} (backed : collected.Backed db)
    {filePath : String} {parsed : ParsedFile} {statement : Sql.Statement Db}
    (mem : statement ∈ persistParsedFile fileHash filePath parsed) :
    collected.Backed (statement db) := by
  have kept : ∀ {Row Key : Type} [DecidableEq Key] (key : Row → Key) (item : Row) (rows : List Row),
    ∀ row ∈ rows, row ∈ insertOrIgnore key item rows := by
    intro Row Key _ key item rows row rowMem
    have looped : row ∈ insertAllOrIgnore key [item] rows := mem_insertAllOrIgnore_of_mem rowMem
    exact looped
  obtain rfl | ⟨node, rfl, _⟩ | ⟨edge, rfl, _⟩ := mem_persistParsedFile mem
  · exact backed
  · exact backed.mono (kept _ node db.historicalNodes) fun row rowMem => rowMem
  · exact backed.mono (fun row rowMem => rowMem) (kept _ edge db.historicalEdges)

theorem Collected.Backed.parsed {db : Db} {parsed : ParsedFile}
    (backed : collected.Backed db) (nodes : ∀ node ∈ parsed.nodes, ∃ row ∈ db.historicalNodes,
      row.key = (work.fileHash, node.qualifiedName))
    (edges : ∀ edge ∈ parsed.edges, ∃ row ∈ db.historicalEdges, row.key = (work.fileHash, edgeKeyOf edge)) :
    (collectParsed work parsed collected).Backed db where
  names membership mem named := by
    rcases mem_append.mp mem with old | new
    · exact backed.names membership old named
    · rw [mem_singleton.mp new] at named ⊢
      obtain ⟨node, nodeMem⟩ := exists_mem_of_ne_nil _ fun empty => named (congrArg (map Node.qualifiedName) empty)
      obtain ⟨row, rowMem, same⟩ := nodes node nodeMem
      exact hasHistoricalFileGraph_iff.mpr ⟨row, rowMem, congrArg Prod.fst same⟩
  keys membership mem key keyed := by
    rcases mem_append.mp mem with old | new
    · exact backed.keys membership old key keyed
    · rw [mem_singleton.mp new] at keyed ⊢
      obtain ⟨edge, edgeMem, rfl⟩ := mem_map.mp keyed
      exact .inr (edges edge edgeMem)

structure Persisted.Sound (todo : List ParseWork) (state : Persisted) : Prop where
  counts : state.collected.Counts
  paths : (state.collected.snapshotFiles.map StoredSnapshotFile.filePath ++ todo.map ParseWork.relPath).Nodup
  backed : state.collected.Backed state.db

theorem stored_by_persistParsedFile (fileHash filePath : String) (parsed : ParsedFile) (db : Db) :
    (∀ node ∈ parsed.nodes, ∃ row ∈ (execAll (persistParsedFile fileHash filePath parsed)
      db).historicalNodes, row.key = (fileHash, node.qualifiedName)) ∧
      ∀ edge ∈ parsed.edges, ∃ row ∈ (execAll (persistParsedFile fileHash filePath parsed)
        db).historicalEdges, row.key = (fileHash, edgeKeyOf edge) := by
  rw [execAll_persistParsedFile]
  constructor
  · intro node mem
    have taken : ∃ row ∈ insertAllOrIgnore HistoricalNode.key (persistedNodes fileHash filePath
      parsed) db.historicalNodes, row.key = (historicalNode fileHash filePath node).key :=
      key_mem_insertAllOrIgnore (mem_map_of_mem mem)
    exact taken
  · intro edge mem
    have taken : ∃ row ∈ insertAllOrIgnore HistoricalEdge.key (persistedEdges fileHash filePath
      parsed) db.historicalEdges, row.key = (historicalEdge fileHash filePath edge).key :=
      key_mem_insertAllOrIgnore (mem_map_of_mem mem)
    exact taken

theorem Persisted.Sound.step {rest : List ParseWork}
    {state : Persisted} (sound : state.Sound (work :: rest)) :
    (persistWork registry faults commitSha state work).Sound rest := by
  have fewer : (state.collected.snapshotFiles.map StoredSnapshotFile.filePath ++ rest.map ParseWork.relPath).Nodup :=
    List.Nodup.sublist (List.Sublist.append_left (sublist_cons_self _ _) _) sound.paths
  unfold persistWork
  cases registry.parse work.relPath work.fileHash work.bytes with
  | none => exact ⟨sound.counts, fewer, sound.backed⟩
  | some parsed =>
    have backed : state.collected.Backed (execUntilFault (faults.persist work.fileIndex) 0
      (persistParsedFile work.fileHash work.relPath parsed) state.db).2 :=
      execUntilFault_invariant state.collected.Backed (fun statement mem db holds => holds.statement mem) 0 sound.backed
    cases ran : execUntilFault (faults.persist work.fileIndex) 0
      (persistParsedFile work.fileHash work.relPath parsed) state.db with
    | mk failure reached =>
      rw [ran] at backed
      cases failure with
      | some msg =>
        simp only [ran]
        exact ⟨⟨sound.counts.nodes, sound.counts.edges, sound.counts.files⟩, fewer, ⟨backed.names, backed.keys⟩⟩
      | none =>
        have stored := stored_by_persistParsedFile work.fileHash work.relPath parsed state.db
        rw [← execUntilFault_ok ran] at stored
        simp only [ran]
        refine ⟨sound.counts.parsed work parsed, ?_, backed.parsed stored.1 stored.2⟩
        simpa [collectParsed, trackedFile, append_assoc] using sound.paths

theorem persistAll_sound {db : Db} (errors : List IngestError) (sound : classified.Sound db) :
    (persistAll registry faults commitSha db errors classified).Sound [] := by
  have all : ∀ (batch : List ParseWork) (state : Persisted), state.Sound batch →
    (batch.foldl (persistWork registry faults commitSha) state).Sound [] := by
    intro batch
    induction batch with
    | nil => exact fun _ holds => holds
    | cons work rest ih => exact fun state holds => ih _ holds.step
  refine all _ _ ⟨sound.counts, sound.paths, ?_, ?_⟩
  · exact fun membership mem _ => sound.stored membership mem
  · exact fun membership mem _ _ => .inl (sound.stored membership mem)

/-! ## Publishing -/

theorem publishedDb_snapshotFiles {db : Db} (valid : db.Valid)
    {rootTreeHash : Option String}
    (paths : (collected.snapshotFiles.map StoredSnapshotFile.filePath).Nodup) :
    (publishedDb commitRow rootTreeHash collected db).snapshotFiles = db.snapshotFiles ++
      collected.snapshotFiles.map fun file => { file with snapshotId := nextSnapshotId db } := by
  refine insertAllOrReplace_fresh ?_ ?_
  · have keyed : (collected.snapshotFiles.map fun file =>
        { file with snapshotId := nextSnapshotId db }).map StoredSnapshotFile.key =
        (collected.snapshotFiles.map StoredSnapshotFile.filePath).map fun path =>
          (nextSnapshotId db, path) := by
      simp [StoredSnapshotFile.key]
    rw [keyed]
    exact paths.map fun first second same => congrArg Prod.snd same
  · intro item mem row rowMem same
    obtain ⟨file, _, rfl⟩ := mem_map.mp mem
    have used := valid.files row rowMem
    rw [show row.snapshotId = nextSnapshotId db from congrArg Prod.fst same] at used
    exact Db.Valid.nextSnapshotId_fresh db used

/-- Each member of a snapshot belongs to a file of it whose graph is stored. -/
structure Db.Sound (db : Db) : Prop where
  nodeFiles : ∀ member ∈ db.snapshotNodes, ∃ file ∈ db.snapshotFiles, file.snapshotId =
    member.snapshotId ∧ file.fileHash = member.fileHash
  edgeFiles : ∀ member ∈ db.snapshotEdges, ∃ file ∈ db.snapshotFiles, file.snapshotId =
    member.snapshotId ∧ file.fileHash = member.fileHash
  nodeGraphs : ∀ member ∈ db.snapshotNodes, hasHistoricalFileGraph db member.fileHash = true
  edgeGraphs : ∀ member ∈ db.snapshotEdges, hasHistoricalFileGraph db member.fileHash = true ∨
    ∃ row ∈ db.historicalEdges, row.key = (member.fileHash, member.edgeKey)

namespace Db.Sound

variable {db : Db}

theorem empty : Db.Sound Db.empty where
  nodeFiles := by simp [Db.empty]
  edgeFiles := by simp [Db.empty]
  nodeGraphs := by simp [Db.empty]
  edgeGraphs := by simp [Db.empty]

theorem grown {larger : Db} (sound : db.Sound) (grown : db.GrownFrom larger) (files :
    larger.snapshotFiles = db.snapshotFiles) (nodes : larger.snapshotNodes = db.snapshotNodes)
    (edges : larger.snapshotEdges = db.snapshotEdges) : larger.Sound := by
  constructor
  · rw [files, nodes]
    exact sound.nodeFiles
  · rw [files, edges]
    exact sound.edgeFiles
  · rw [nodes]
    intro mem attached
    exact hasHistoricalFileGraph_mono (fun _ => grown.node_mem) (sound.nodeGraphs mem attached)
  · rw [edges]
    intro mem attached
    rcases sound.edgeGraphs mem attached with stored | ⟨row, rowMem, same⟩
    · exact .inl (hasHistoricalFileGraph_mono (fun _ => grown.node_mem) stored)
    · exact .inr ⟨row, grown.edge_mem rowMem, same⟩

theorem publishedDb (sound : db.Sound) (valid : db.Valid) {commitRow : StoredCommit}
    {rootTreeHash : Option String} {collected : Collected} (counts : collected.Counts)
    (paths : (collected.snapshotFiles.map StoredSnapshotFile.filePath).Nodup)
    (backed : collected.Backed db) : (publishedDb commitRow rootTreeHash collected db).Sound := by
  have files : (History.publishedDb commitRow rootTreeHash collected db).snapshotFiles = _ :=
    publishedDb_snapshotFiles valid paths
  have listed : ∀ membership ∈ collected.fileMemberships,
    ∃ file ∈ (History.publishedDb commitRow rootTreeHash collected db).snapshotFiles,
        file.snapshotId = nextSnapshotId db ∧ file.fileHash = membership.fileHash := by
    intro membership mem
    have paired : (membership.filePath, membership.fileHash) ∈
      collected.snapshotFiles.map fun file => (file.filePath, file.fileHash) := by
      rw [counts.files]
      exact mem_map_of_mem mem
    obtain ⟨file, fileMem, same⟩ := mem_map.mp paired
    refine ⟨{ file with snapshotId := nextSnapshotId db }, ?_, rfl, congrArg Prod.snd same⟩
    rw [files]
    exact mem_append_right _ (mem_map_of_mem fileMem)
  constructor
  · intro mem attached
    rcases mem_insertAllOrIgnore attached with old | new
    · obtain ⟨file, fileMem, same⟩ := sound.nodeFiles mem old
      exact ⟨file, by rw [files]; exact mem_append_left _ fileMem, same⟩
    · obtain ⟨membership, membershipMember, named⟩ := mem_flatMap.mp new
      obtain ⟨name, _, rfl⟩ := mem_map.mp named
      exact listed membership membershipMember
  · intro mem attached
    rcases mem_insertAllOrIgnore attached with old | new
    · obtain ⟨file, fileMem, same⟩ := sound.edgeFiles mem old
      exact ⟨file, by rw [files]; exact mem_append_left _ fileMem, same⟩
    · obtain ⟨membership, membershipMember, keyed⟩ := mem_flatMap.mp new
      obtain ⟨key, _, rfl⟩ := mem_map.mp keyed
      exact listed membership membershipMember
  · intro mem attached
    rcases mem_insertAllOrIgnore attached with old | new
    · exact sound.nodeGraphs mem old
    · obtain ⟨membership, membershipMember, named⟩ := mem_flatMap.mp new
      obtain ⟨name, nameMem, rfl⟩ := mem_map.mp named
      exact backed.names membership membershipMember (ne_nil_of_mem nameMem)
  · intro mem attached
    rcases mem_insertAllOrIgnore attached with old | new
    · exact sound.edgeGraphs mem old
    · obtain ⟨membership, membershipMember, keyed⟩ := mem_flatMap.mp new
      obtain ⟨key, keyMem, rfl⟩ := mem_map.mp keyed
      exact backed.keys membership membershipMember key keyMem

end Db.Sound

/-! ## Snapshots that are left alone -/

/-- A snapshot is read back from both stores with the same files, nodes and edges. -/
structure SameContents (before after : Db) (snapshotId : Nat) : Prop where
  files : listSnapshotFiles after snapshotId = listSnapshotFiles before snapshotId
  nodes : reconstructSnapshotNodes after snapshotId = reconstructSnapshotNodes before snapshotId
  edges : reconstructSnapshotEdges after snapshotId = reconstructSnapshotEdges before snapshotId

namespace SameContents

theorem refl (db : Db) (snapshotId : Nat) : SameContents db db snapshotId := ⟨rfl, rfl, rfl⟩

variable {snapshotId : Nat}

theorem trans {first second third : Db} (left : SameContents first second snapshotId)
    (right : SameContents second third snapshotId) : SameContents first third snapshotId :=
  ⟨right.files.trans left.files, right.nodes.trans left.nodes, right.edges.trans left.edges⟩

theorem of_lookups {before after : Db}
    (files : (after.snapshotFiles.filter fun row => decide (row.snapshotId = snapshotId)) =
      before.snapshotFiles.filter fun row => decide (row.snapshotId = snapshotId))
    (nodes : (after.snapshotNodes.filter fun row => decide (row.snapshotId = snapshotId)) =
      before.snapshotNodes.filter fun row => decide (row.snapshotId = snapshotId))
    (edges : (after.snapshotEdges.filter fun row => decide (row.snapshotId = snapshotId)) =
      before.snapshotEdges.filter fun row => decide (row.snapshotId = snapshotId))
    (nodeRows : ∀ mem ∈ before.snapshotNodes, mem.snapshotId = snapshotId → (after.historicalNodes.filter fun row =>
        decide (row.key = (mem.fileHash, mem.qualifiedName))) =
      before.historicalNodes.filter fun row =>
        decide (row.key = (mem.fileHash, mem.qualifiedName)))
    (edgeRows : ∀ mem ∈ before.snapshotEdges, mem.snapshotId = snapshotId → (after.historicalEdges.filter fun row =>
        decide (row.key = (mem.fileHash, mem.edgeKey))) =
      before.historicalEdges.filter fun row =>
        decide (row.key = (mem.fileHash, mem.edgeKey))) :
    SameContents before after snapshotId := by
  constructor
  · unfold listSnapshotFiles
    rw [files]
  · unfold reconstructSnapshotNodes
    rw [nodes, flatMap_congr]
    intro mem attached
    obtain ⟨present, owned⟩ := mem_filter.mp attached
    exact nodeRows mem present (of_decide_eq_true owned)
  · unfold reconstructSnapshotEdges
    rw [edges, flatMap_congr]
    intro mem attached
    obtain ⟨present, owned⟩ := mem_filter.mp attached
    exact edgeRows mem present (of_decide_eq_true owned)

variable {db : Db}

theorem grown {larger : Db} (sound : db.Sound) (grown : db.GrownFrom larger) (files :
    larger.snapshotFiles = db.snapshotFiles) (nodes : larger.snapshotNodes = db.snapshotNodes)
    (edges : larger.snapshotEdges = db.snapshotEdges) : SameContents db larger snapshotId := by
  refine of_lookups (by rw [files]) (by rw [nodes]) (by rw [edges]) ?_ ?_
  · intro mem attached _
    obtain ⟨added, appended, fresh⟩ := grown.nodes
    rw [appended, filter_append, append_right_eq_self, filter_eq_nil_iff]
    intro row rowMem same
    have unstored := fresh row rowMem
    rw [show row.fileHash = mem.fileHash from congrArg Prod.fst (of_decide_eq_true same),
      sound.nodeGraphs mem attached] at unstored
    cases unstored
  · intro mem attached _
    obtain ⟨added, appended, fresh⟩ := grown.edges
    rw [appended, filter_append, append_right_eq_self, filter_eq_nil_iff]
    intro row rowMem same
    obtain ⟨unstored, newKey⟩ := fresh row rowMem
    have sameKey := of_decide_eq_true same
    rcases sound.edgeGraphs mem attached with stored | ⟨old, oldMem, oldKey⟩
    · rw [show row.fileHash = mem.fileHash from congrArg Prod.fst sameKey, stored] at unstored
      cases unstored
    · exact newKey old oldMem (oldKey.trans sameKey.symm)

theorem published (valid : db.Valid) {commitRow : StoredCommit}
    {rootTreeHash : Option String} {collected : Collected}
    (paths : (collected.snapshotFiles.map StoredSnapshotFile.filePath).Nodup)
    (known : snapshotId ∈ snapshotIds db) :
    SameContents db (publishedDb commitRow rootTreeHash collected db) snapshotId := by
  have old : nextSnapshotId db ≠ snapshotId := by
    intro same
    exact Db.Valid.nextSnapshotId_fresh db (same ▸ known)
  refine of_lookups ?_ ?_ ?_ (fun _ _ _ => rfl) (fun _ _ _ => rfl)
  · rw [publishedDb_snapshotFiles valid paths, filter_append, append_right_eq_self, filter_eq_nil_iff]
    intro row mem owned
    obtain ⟨file, _, rfl⟩ := mem_map.mp mem
    exact old (of_decide_eq_true owned)
  · obtain ⟨added, appended, kept, _⟩ := exists_insertAllOrIgnore_eq SnapshotNode.key
      (collected.fileMemberships.flatMap (membershipNodes (nextSnapshotId db))) db.snapshotNodes
    simp only [publishedDb]
    rw [appended, filter_append, append_right_eq_self, filter_eq_nil_iff]
    intro row mem owned
    obtain ⟨membership, _, named⟩ := mem_flatMap.mp (kept.subset mem)
    obtain ⟨name, _, rfl⟩ := mem_map.mp named
    exact old (of_decide_eq_true owned)
  · obtain ⟨added, appended, kept, _⟩ := exists_insertAllOrIgnore_eq SnapshotEdge.key
      (collected.fileMemberships.flatMap (membershipEdges (nextSnapshotId db))) db.snapshotEdges
    simp only [publishedDb]
    rw [appended, filter_append, append_right_eq_self, filter_eq_nil_iff]
    intro row mem owned
    obtain ⟨membership, _, keyed⟩ := mem_flatMap.mp (kept.subset mem)
    obtain ⟨key, _, rfl⟩ := mem_map.mp keyed
    exact old (of_decide_eq_true owned)

end SameContents

/-! ## Deletion and sweep -/

theorem mem_orphanHashes {db : Db} {hash : String} : hash ∈ orphanHashes db ↔
    hasHistoricalFileGraph db hash = true ∧ ∀ file ∈ db.snapshotFiles, file.fileHash ≠ hash := by
  rw [hasHistoricalFileGraph_iff]
  simp only [orphanHashes, mem_insertionSort, mem_dedup, mem_filter, mem_map, decide_eq_true_eq, not_exists, not_and]

theorem SameContents.deleted {db : Db} {ids : List Nat} {snapshotId : Nat}
    (kept : snapshotId ∉ ids) : SameContents db (deleteHistorySnapshots ids db) snapshotId := by
  have unaffected : ∀ {Row : Type} (idOf : Row → Nat) (rows : List Row),
    ((deleteWhere (fun row => decide (idOf row ∈ ids)) rows).filter fun row =>
        decide (idOf row = snapshotId)) = rows.filter fun row => decide (idOf row = snapshotId) := by
    intro Row idOf rows
    rw [deleteWhere, filter_filter]
    refine filter_congr fun row _ => ?_
    by_cases owned : idOf row = snapshotId <;> simp [owned, kept]
  exact SameContents.of_lookups (unaffected StoredSnapshotFile.snapshotId db.snapshotFiles)
    (unaffected SnapshotNode.snapshotId db.snapshotNodes)
    (unaffected SnapshotEdge.snapshotId db.snapshotEdges) (fun _ _ _ => rfl) (fun _ _ _ => rfl)

theorem SameContents.swept {db : Db} (sound : db.Sound) (snapshotId : Nat) :
    SameContents db (pruneOrphanHistoricalFileGraphs db).2 snapshotId := by
  have unaffected : ∀ {Row Key : Type} [DecidableEq Key] (hashOf : Row → String)
      (keyOf : Row → String × Key) (rows : List Row) (wanted : String × Key),
      (∀ row, (keyOf row).1 = hashOf row) → wanted.1 ∉ orphanHashes db →
      ((deleteWhere (fun row => decide (hashOf row ∈ orphanHashes db)) rows).filter fun row =>
        decide (keyOf row = wanted)) = rows.filter fun row => decide (keyOf row = wanted) := by
    intro Row Key _ hashOf keyOf rows wanted firsts used
    rw [deleteWhere, filter_filter]
    refine filter_congr fun row _ => ?_
    by_cases same : keyOf row = wanted
    · have sameHash : hashOf row = wanted.1 := (firsts row).symm.trans (congrArg Prod.fst same)
      simp [same, sameHash, used]
    · simp [same]
  have used : ∀ {hash : String}, (∃ file ∈ db.snapshotFiles, file.fileHash = hash) → hash ∉ orphanHashes db := by
    rintro hash ⟨file, mem, same⟩ orphan
    exact (mem_orphanHashes.mp orphan).2 file mem same
  refine SameContents.of_lookups rfl rfl rfl ?_ ?_
  · intro mem attached _
    obtain ⟨file, fileMem, _, sameHash⟩ := sound.nodeFiles mem attached
    exact unaffected HistoricalNode.fileHash HistoricalNode.key _ _ (fun _ => rfl) (used ⟨file, fileMem, sameHash⟩)
  · intro mem attached _
    obtain ⟨file, fileMem, _, sameHash⟩ := sound.edgeFiles mem attached
    exact unaffected HistoricalEdge.fileHash HistoricalEdge.key _ _ (fun _ => rfl) (used ⟨file, fileMem, sameHash⟩)

theorem Db.Sound.deleteHistorySnapshots {db : Db} (sound : db.Sound) (ids : List Nat) :
    (deleteHistorySnapshots ids db).Sound := by
  constructor
  · intro mem attached
    obtain ⟨old, kept⟩ := mem_deleteWhere.mp attached
    obtain ⟨file, fileMem, sameId, sameHash⟩ := sound.nodeFiles mem old
    exact ⟨file, mem_deleteWhere.mpr ⟨fileMem, by rw [sameId]; exact kept⟩, sameId, sameHash⟩
  · intro mem attached
    obtain ⟨old, kept⟩ := mem_deleteWhere.mp attached
    obtain ⟨file, fileMem, sameId, sameHash⟩ := sound.edgeFiles mem old
    exact ⟨file, mem_deleteWhere.mpr ⟨fileMem, by rw [sameId]; exact kept⟩, sameId, sameHash⟩
  · exact fun mem attached => sound.nodeGraphs mem (mem_deleteWhere.mp attached).1
  · exact fun mem attached => sound.edgeGraphs mem (mem_deleteWhere.mp attached).1

theorem Db.Sound.sweep {db : Db} (sound : db.Sound) :
    (pruneOrphanHistoricalFileGraphs db).2.Sound := by
  have used : ∀ {hash : String} {file : StoredSnapshotFile}, file ∈ db.snapshotFiles →
    file.fileHash = hash → hash ∉ orphanHashes db := by
    intro hash file mem same orphan
    exact (mem_orphanHashes.mp orphan).2 file mem same
  have stored : ∀ {hash : String}, hash ∉ orphanHashes db → hasHistoricalFileGraph db hash = true →
    hasHistoricalFileGraph (pruneOrphanHistoricalFileGraphs db).2 hash = true := by
    intro hash notOrphan present
    obtain ⟨row, rowMem, rfl⟩ := hasHistoricalFileGraph_iff.mp present
    refine hasHistoricalFileGraph_iff.mpr ⟨row, ?_, rfl⟩
    exact mem_deleteWhere.mpr ⟨rowMem, by simpa using notOrphan⟩
  constructor
  · exact sound.nodeFiles
  · exact sound.edgeFiles
  · intro mem attached
    obtain ⟨file, fileMem, _, sameHash⟩ := sound.nodeFiles mem attached
    exact stored (used fileMem sameHash) (sound.nodeGraphs mem attached)
  · intro mem attached
    obtain ⟨file, fileMem, _, sameHash⟩ := sound.edgeFiles mem attached
    rcases sound.edgeGraphs mem attached with present | ⟨row, rowMem, same⟩
    · exact .inl (stored (used fileMem sameHash) present)
    · refine .inr ⟨row, mem_deleteWhere.mpr ⟨rowMem, ?_⟩, same⟩
      have rowHash : row.fileHash = mem.fileHash := congrArg Prod.fst same
      simpa [rowHash] using used fileMem sameHash

/-! ## Commits and whole operations -/

def Git.ListsOnce (git : Git) : Prop :=
  ∀ commitSha entries, git.lsTree commitSha = .ok entries → (entries.map TreeEntry.filePath).Nodup

structure Persisted.Over (start : Db) (persisted : Persisted) : Prop where
  sound : persisted.Sound []
  valid : persisted.db.Valid
  grown : start.GrownFrom persisted.db
  repos : persisted.db.repos = start.repos
  snapshots : persisted.db.graphSnapshots = start.graphSnapshots
  files : persisted.db.snapshotFiles = start.snapshotFiles
  nodes : persisted.db.snapshotNodes = start.snapshotNodes
  edges : persisted.db.snapshotEdges = start.snapshotEdges

theorem persistAll_atop {commit : GitCommitMeta} {db visible : Db}
    {cache : BuildRunCache} (errors : List IngestError) (lists : git.ListsOnce) (valid : db.Valid)
    (listed : trackedFiles git faults env.repoId visible commit = .ok tracked)
    (classifies : classifyAll env.registry git faults db commit.sha 1 tracked { cache := cache } = (none, classified)) :
    (persistAll env.registry faults commit.sha db errors classified).Over db := by
  have start : Classified.Sound db { cache := cache } := ⟨.empty, by simp [Classified.paths], by simp, by simp⟩
  have sound : classified.Sound db :=
    classifyAll_sound start (trackedFiles_distinct (lists _) listed) (by simp [Classified.paths])
      classifies
  let persisted := persistAll env.registry faults commit.sha db errors classified
  obtain ⟨repos, _, snapshots, files, nodes, edges⟩ :
    persisted.db.repos = _ ∧ persisted.db.commits = _ ∧ persisted.db.graphSnapshots = _ ∧
      persisted.db.snapshotFiles = _ ∧ persisted.db.snapshotNodes = _ ∧
      persisted.db.snapshotEdges = _ :=
    persistAll_snapshots db errors classified
  refine ⟨?_, ?_, ?_, repos, snapshots, files, nodes, edges⟩
  · exact persistAll_sound errors sound
  · exact valid.persistAll env.registry faults commit.sha errors classified
  · exact persistAll_grown errors sound.unstored

theorem processCommit_published {commit : GitCommitMeta}
    {state next : BuildState} (lists : git.ListsOnce) (valid : state.connection.committed.Valid)
    (ran : processCommit env git faults commit state = (.ok (), next)) :
    ∃ persisted : Persisted, persisted.Over state.connection.committed ∧
      next.connection = ⟨publishedDb (storedCommit env.repoId env.indexedRef commit)
        (rootTreeHash git commit.sha) persisted.collected persisted.db, none⟩ := by
  obtain ⟨tracked, cache, classified, listed, _, _, classifies, rfl⟩ := processCommit_ok ran
  exact ⟨_, persistAll_atop state.errors lists valid listed classifies, rfl⟩

/-- Snapshots were only added, and the old ones are read back as before. -/
structure Db.Extends (db next : Db) : Prop where
  repos : next.repos = db.repos
  snapshots : ∃ added, next.graphSnapshots = db.graphSnapshots ++ added
  contents : ∀ snapshotId ∈ snapshotIds db, SameContents db next snapshotId

theorem Db.Extends.refl (db : Db) :
    db.Extends db := ⟨rfl, ⟨[], by simp⟩, fun snapshotId _ => .refl db snapshotId⟩

theorem Db.Extends.trans {first second third : Db}
    (left : first.Extends second) (right : second.Extends third) : first.Extends third := by
  obtain ⟨addedLeft, appendedLeft⟩ := left.snapshots
  obtain ⟨addedRight, appendedRight⟩ := right.snapshots
  refine ⟨right.repos.trans left.repos, ⟨addedLeft ++ addedRight, ?_⟩, ?_⟩
  · rw [appendedRight, appendedLeft, append_assoc]
  · intro snapshotId known
    refine (left.contents snapshotId known).trans (right.contents snapshotId ?_)
    rw [snapshotIds, appendedLeft, map_append]
    exact mem_append_left _ known

theorem Db.Extends.published {db : Db}
    (sound : db.Sound) (atop : persisted.Over db) {rootTreeHash : Option String}
    (unindexed : ∀ row ∈ db.graphSnapshots, row.key ≠ (commitRow.repoId, commitRow.commitSha)) :
    db.Extends (publishedDb commitRow rootTreeHash persisted.collected persisted.db) := by
  have paths : (persisted.collected.snapshotFiles.map StoredSnapshotFile.filePath).Nodup := by simpa using atop.sound.paths
  refine ⟨atop.repos, ⟨[snapshotRow commitRow.repoId (nextSnapshotId persisted.db)
    commitRow.commitSha rootTreeHash persisted.collected], ?_⟩, ?_⟩
  · rw [Db.Valid.publishedDb_graphSnapshots (by rw [atop.snapshots]; exact unindexed),
      atop.snapshots]
  · intro snapshotId known
    refine (SameContents.grown sound atop.grown atop.files atop.nodes atop.edges).trans ?_
    refine SameContents.published atop.valid paths ?_
    rw [snapshotIds, atop.snapshots]
    exact known

theorem Db.Sound.atop {db : Db}
    (sound : db.Sound) (atop : persisted.Over db) {rootTreeHash : Option String} :
    (History.publishedDb commitRow rootTreeHash persisted.collected persisted.db).Sound := by
  have paths : (persisted.collected.snapshotFiles.map StoredSnapshotFile.filePath).Nodup := by simpa using atop.sound.paths
  exact (sound.grown atop.grown atop.files atop.nodes atop.edges).publishedDb atop.valid atop.sound.counts paths atop.sound.backed

def ListsOnce (git : Git) (_ : CommitFaults) : Prop := git.ListsOnce

theorem Db.Sound.keptByDeletions : KeptByDeletions fun db => db.Valid ∧ db.Sound where
  snapshots ids holds := ⟨Db.Valid.keptByDeletions.snapshots ids holds.1, holds.2.deleteHistorySnapshots ids⟩
  commits repoId commitShas holds := ⟨Db.Valid.keptByDeletions.commits repoId commitShas holds.1,
    holds.2.nodeFiles, holds.2.edgeFiles, holds.2.nodeGraphs, holds.2.edgeGraphs⟩
  sweep holds := ⟨holds.1.sweep, holds.2.sweep⟩

theorem Db.Sound.kept (registry : ParserRegistry) :
    Kept registry ListsOnce fun db => db.Valid ∧ db.Sound where
  valid holds := holds.1
  commit := by
    intro repoId indexedRef git faults commit state next lists holds unindexed ran
    refine ⟨(Db.Valid.kept registry ListsOnce).commit lists holds.1 unindexed ran, ?_⟩
    obtain ⟨persisted, atop, published⟩ := processCommit_published lists holds.1 ran
    rw [published]
    exact holds.2.atop atop
  register canonical holds := by
    refine ⟨(Db.Valid.kept registry ListsOnce).register canonical holds.1, ?_⟩
    exact ⟨holds.2.nodeFiles, holds.2.edgeFiles, holds.2.nodeGraphs, holds.2.edgeGraphs⟩
  rebuild ids _ holds := Db.Sound.keptByDeletions.rebuild _ ids holds
  prune repoId commitShas ids _ holds := Db.Sound.keptByDeletions.prune _ repoId commitShas ids holds

theorem Db.Extends.kept (registry : ParserRegistry) (start : Db) :
    KeptByCommits registry ListsOnce fun db => (db.Valid ∧ db.Sound) ∧ start.Extends db where
  valid holds := holds.1.1
  commit := by
    intro repoId indexedRef git faults commit state next lists holds unindexed ran
    refine ⟨(Db.Sound.kept registry).commit lists holds.1 unindexed ran, holds.2.trans ?_⟩
    obtain ⟨persisted, atop, published⟩ := processCommit_published lists holds.1.1 ran
    rw [published]
    exact .published holds.1.2 atop (findSnapshot_eq_none.mp unindexed)

end Atlas.History
