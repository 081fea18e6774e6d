import Atlas.History.Snapshot

/-! What a prune keeps of the retained snapshots, and which blob rows it leaves. -/
namespace Atlas.History
open List Core Sql

variable {db : Db} {registry : ParserRegistry} {listTagRefs : Except String (List String)}
  {canonicalRoot : String} {policy : HistoryRetentionPolicy}

def ParserRegistry.EmitsNodes (registry : ParserRegistry) : Prop :=
  ∀ path hash bytes parsed, registry.parse path hash bytes = some parsed → parsed.nodes ≠ []
def Db.EdgesOwned (db : Db) : Prop :=
  ∀ row ∈ db.historicalEdges, hasHistoricalFileGraph db row.fileHash = true
def Db.NodesUsed (db : Db) : Prop :=
  ∀ row ∈ db.historicalNodes, ∃ file ∈ db.snapshotFiles, file.fileHash = row.fileHash

/-- No blob row carries a hash that no snapshot file uses. -/
def Db.NoOrphans (db : Db) : Prop :=
  db.NodesUsed ∧ ∀ row ∈ db.historicalEdges, ∃ file ∈ db.snapshotFiles, file.fileHash = row.fileHash

theorem Db.EdgesOwned.insertHistoricalNode (owned : db.EdgesOwned) (row : HistoricalNode) :
    (Statement.insertHistoricalNode row db).EdgesOwned := by
  intro edge mem
  refine hasHistoricalFileGraph_mono ?_ (owned edge mem)
  intro old oldMem
  have looped : old ∈ insertAllOrIgnore HistoricalNode.key [row] db.historicalNodes := mem_insertAllOrIgnore_of_mem oldMem
  exact looped

theorem Db.EdgesOwned.insertHistoricalEdge (owned : db.EdgesOwned)
    {row : HistoricalEdge} (stored : hasHistoricalFileGraph db row.fileHash = true) :
    (Statement.insertHistoricalEdge row db).EdgesOwned := by
  intro edge mem
  have looped : edge ∈ insertAllOrIgnore HistoricalEdge.key [row] db.historicalEdges := mem
  rcases mem_insertAllOrIgnore looped with old | new
  · exact owned edge old
  · rw [mem_singleton.mp new]
    exact stored

theorem Db.EdgesOwned.execUntilFault (owned : db.EdgesOwned) {faults : Nat → Option String}
    {fileHash filePath : String} {parsed : ParsedFile} (nonempty : parsed.nodes ≠ []) :
    (execUntilFault faults 0 (persistParsedFile fileHash filePath parsed) db).2.EdgesOwned := by
  let nodeStatements := [Statement.prepare] ++ parsed.nodes.map fun node =>
    Statement.insertHistoricalNode (historicalNode fileHash filePath node)
  let edgeStatements := [Statement.prepare] ++ parsed.edges.map fun edge =>
    Statement.insertHistoricalEdge (historicalEdge fileHash filePath edge)
  have split : persistParsedFile fileHash filePath parsed = nodeStatements ++ edgeStatements := by
    simp [persistParsedFile, nodeStatements, edgeStatements]
  have first : (Sql.execUntilFault faults 0 nodeStatements db).2.EdgesOwned := by
    refine execUntilFault_invariant Db.EdgesOwned ?_ 0 owned
    intro statement mem current holds
    simp only [nodeStatements, mem_append, mem_singleton, mem_map] at mem
    rcases mem with rfl | ⟨node, _, rfl⟩
    · exact holds
    · exact holds.insertHistoricalNode _
  rw [split, execUntilFault_append]
  cases ran : Sql.execUntilFault faults 0 nodeStatements db with
  | mk failure reached =>
    rw [ran] at first
    cases failure with
    | some msg => exact first
    | none =>
      have inserted : hasHistoricalFileGraph reached fileHash = true := by
        obtain ⟨node, mem⟩ := exists_mem_of_ne_nil _ nonempty
        have rows : nodeStatements = [Statement.prepare] ++
          (persistedNodes fileHash filePath parsed).map Statement.insertHistoricalNode := by
          simp [nodeStatements, persistedNodes]
        have whole := execUntilFault_ok ran
        rw [rows, execAll_append, execAll_insertHistoricalNode] at whole
        have taken : ∃ row ∈ insertAllOrIgnore HistoricalNode.key (persistedNodes fileHash filePath
          parsed) db.historicalNodes, row.key = (historicalNode fileHash filePath node).key :=
          key_mem_insertAllOrIgnore (mem_map_of_mem mem)
        obtain ⟨row, rowMem, same⟩ := taken
        refine hasHistoricalFileGraph_iff.mpr ⟨row, ?_, congrArg Prod.fst same⟩
        rw [whole]
        exact rowMem
      have second : (Sql.execUntilFault faults (0 + nodeStatements.length) edgeStatements
        reached).2.EdgesOwned ∧ hasHistoricalFileGraph (Sql.execUntilFault faults
            (0 + nodeStatements.length) edgeStatements reached).2 fileHash = true := by
        refine execUntilFault_invariant (fun current => current.EdgesOwned ∧
          hasHistoricalFileGraph current fileHash = true) ?_ _ ⟨first, inserted⟩
        intro statement mem current holds
        simp only [edgeStatements, mem_append, mem_singleton, mem_map] at mem
        rcases mem with rfl | ⟨edge, _, rfl⟩
        · exact holds
        · exact ⟨holds.1.insertHistoricalEdge holds.2, holds.2⟩
      exact second.1

theorem Db.EdgesOwned.persistAll (emits : registry.EmitsNodes) {faults : CommitFaults}
    {commitSha : String} (errors : List IngestError) (classified : Classified)
    (owned : db.EdgesOwned) :
    (persistAll registry faults commitSha db errors classified).db.EdgesOwned := by
  refine persistAll_induction (fun state => state.db.EdgesOwned) classified ?_ owned
  intro work _ state before
  rcases persistWork_db state work with same | ⟨parsed, parses, reached⟩
  · exact same ▸ before
  · rw [reached]
    exact before.execUntilFault (emits _ _ _ _ parses)

theorem Db.EdgesOwned.sweep (owned : db.EdgesOwned) :
    (pruneOrphanHistoricalFileGraphs db).2.EdgesOwned := by
  intro edge mem
  obtain ⟨old, kept⟩ := mem_deleteWhere.mp mem
  obtain ⟨row, rowMem, same⟩ := hasHistoricalFileGraph_iff.mp (owned edge old)
  refine hasHistoricalFileGraph_iff.mpr ⟨row, mem_deleteWhere.mpr ⟨rowMem, ?_⟩, same⟩
  rw [same]
  exact kept

theorem Db.EdgesOwned.keptByDeletions :
    KeptByDeletions fun db => (db.Valid ∧ db.Sound) ∧ db.EdgesOwned where
  snapshots ids holds := ⟨Db.Sound.keptByDeletions.snapshots ids holds.1, holds.2⟩
  commits repoId commitShas holds := ⟨Db.Sound.keptByDeletions.commits repoId commitShas holds.1, holds.2⟩
  sweep holds := ⟨Db.Sound.keptByDeletions.sweep holds.1, holds.2.sweep⟩

theorem Db.EdgesOwned.kept (emits : registry.EmitsNodes) :
    Kept registry ListsOnce fun db => (db.Valid ∧ db.Sound) ∧ db.EdgesOwned where
  valid holds := holds.1.1
  commit := by
    intro repoId indexedRef git faults commit state next lists holds unindexed ran
    refine ⟨(Db.Sound.kept registry).commit lists holds.1 unindexed ran, ?_⟩
    obtain ⟨tracked, cache, classified, _, _, _, _, rfl⟩ := processCommit_ok ran
    exact Db.EdgesOwned.persistAll emits state.errors classified holds.2
  register canonicalRoot holds := ⟨(Db.Sound.kept registry).register canonicalRoot holds.1, holds.2⟩
  rebuild ids _ holds := Db.EdgesOwned.keptByDeletions.rebuild _ ids holds
  prune repoId commitShas ids _ holds := Db.EdgesOwned.keptByDeletions.prune _ repoId commitShas ids holds

theorem Db.EdgesOwned.noOrphans_sweep (owned : db.EdgesOwned) :
    (pruneOrphanHistoricalFileGraphs db).2.NoOrphans := by
  have used : ∀ {hash : String}, hasHistoricalFileGraph db hash = true →
    hash ∉ orphanHashes db → ∃ file ∈ db.snapshotFiles, file.fileHash = hash := by
    intro hash stored notOrphan
    by_contra unused
    refine notOrphan (mem_orphanHashes.mpr ⟨stored, fun file mem same => ?_⟩)
    exact unused ⟨file, mem, same⟩
  constructor
  · intro row mem
    obtain ⟨old, kept⟩ := mem_deleteWhere.mp mem
    exact used (hasHistoricalFileGraph_iff.mpr ⟨row, old, rfl⟩) (by simpa using kept)
  · intro row mem
    obtain ⟨old, kept⟩ := mem_deleteWhere.mp mem
    exact used (owned row old) (by simpa using kept)

theorem Db.EdgesOwned.noOrphans (owned : db.EdgesOwned) (used : db.NodesUsed) : db.NoOrphans := by
  refine ⟨used, fun row mem => ?_⟩
  obtain ⟨node, nodeMem, same⟩ := hasHistoricalFileGraph_iff.mp (owned row mem)
  obtain ⟨file, fileMem, sameHash⟩ := used node nodeMem
  exact ⟨file, fileMem, sameHash.trans same⟩

/-- No insert of a parsed file fails. -/
def PersistsCleanly (git : Git) (faults : CommitFaults) : Prop :=
  git.ListsOnce ∧ ∀ fileIndex position, faults.persist fileIndex position = none

theorem persistAll_used {faults : CommitFaults}
    {commitSha : String} {errors : List IngestError} (classified : Classified)
    (clear : ∀ fileIndex position, faults.persist fileIndex position = none) :
    let persisted := persistAll registry faults commitSha db errors classified
    ∀ row ∈ persisted.db.historicalNodes, row ∈ db.historicalNodes ∨
      ∃ file ∈ persisted.collected.snapshotFiles, file.fileHash = row.fileHash := by
  refine persistAll_induction (fun state => ∀ row ∈ state.db.historicalNodes,
    row ∈ db.historicalNodes ∨ ∃ file ∈ state.collected.snapshotFiles, file.fileHash = row.fileHash)
    classified ?_
    fun row mem => .inl mem
  intro work _ state before
  rw [persistWork_of_clear state work (clear work.fileIndex)]
  unfold persistClean
  split
  · exact before
  · next parsed _ =>
      intro row mem
      rw [execAll_persistParsedFile] at mem
      rcases mem_insertAllOrIgnore mem with old | new
      · rcases before row old with older | ⟨file, fileMem, same⟩
        · exact .inl older
        · exact .inr ⟨file, mem_append_left _ fileMem, same⟩
      · obtain ⟨node, _, rfl⟩ := mem_map.mp new
        exact .inr ⟨_, mem_append_right _ (.head _), rfl⟩

theorem Db.NodesUsed.published {persisted : Persisted}
    (used : db.NodesUsed) (atop : persisted.Over db)
    (rows : ∀ row ∈ persisted.db.historicalNodes, row ∈ db.historicalNodes ∨
      ∃ file ∈ persisted.collected.snapshotFiles, file.fileHash = row.fileHash)
    {commitRow : StoredCommit} {rootTreeHash : Option String} :
    (publishedDb commitRow rootTreeHash persisted.collected persisted.db).NodesUsed := by
  have paths : (persisted.collected.snapshotFiles.map StoredSnapshotFile.filePath).Nodup := by simpa using atop.sound.paths
  intro row mem
  rw [publishedDb_snapshotFiles atop.valid paths, atop.files]
  rcases rows row mem with old | ⟨file, fileMem, same⟩
  · obtain ⟨file, fileMem, same⟩ := used row old
    exact ⟨file, mem_append_left _ fileMem, same⟩
  · exact ⟨_, mem_append_right _ (mem_map_of_mem fileMem), same⟩

/-- Every deletion goes through. -/
def DeletesCleanly (faults : DeletionFaults) : Prop := ∀ position, faults position = none

theorem execUntilFault_of_deletesCleanly {faults : DeletionFaults} (clean : DeletesCleanly faults)
    (deletions : List (Sql.Statement Db)) (db : Db) :
    execUntilFault faults 0 deletions db = (none, execAll deletions db) :=
  execUntilFault_clear db fun _ _ => clean _

/-- A failed deletion leaves nodes that no snapshot uses until the next sweep. -/
theorem Db.NodesUsed.kept (emits : registry.EmitsNodes) :
    Kept registry PersistsCleanly (fun db => ((db.Valid ∧ db.Sound) ∧ db.EdgesOwned) ∧ db.NodesUsed) DeletesCleanly where
  valid holds := holds.1.1.1
  commit := by
    intro repoId indexedRef git faults commit state next clean holds unindexed ran
    refine ⟨(Db.EdgesOwned.kept emits).commit clean.1 holds.1 unindexed ran, ?_⟩
    obtain ⟨tracked, cache, classified, listed, _, _, classifies, rfl⟩ := processCommit_ok ran
    exact holds.2.published (persistAll_atop state.errors clean.1 holds.1.1.1 listed classifies)
      (persistAll_used classified clean.2)
  register canonicalRoot holds := ⟨(Db.EdgesOwned.kept emits).register canonicalRoot holds.1, holds.2⟩
  rebuild {db _} ids clean holds := by
    have deleted : (deleteHistorySnapshots ids db).EdgesOwned := holds.1.2
    refine ⟨Db.EdgesOwned.keptByDeletions.rebuild _ ids holds.1, ?_⟩
    rw [execUntilFault_of_deletesCleanly clean]
    exact deleted.noOrphans_sweep.1
  prune {db _} repoId commitShas ids clean holds := by
    have deleted : (deleteHistoryCommits repoId commitShas (deleteHistorySnapshots ids db)).EdgesOwned := holds.1.2
    refine ⟨Db.EdgesOwned.keptByDeletions.prune _ repoId commitShas ids holds.1, ?_⟩
    rw [execUntilFault_of_deletesCleanly clean]
    exact deleted.noOrphans_sweep.1

/-- The prune does not return before its deletions. -/
def PruneSweeps (listTagRefs : Except String (List String))
    (canonicalRoot : String) (policy : HistoryRetentionPolicy) (db : Db) : Prop :=
  ∃ repoId, findRepoId db canonicalRoot = some repoId ∧
    listCommits db repoId ≠ [] ∧ listSnapshotsOrdered db repoId ≠ [] ∧ policy.keepAll = false ∧
    (policy.keepLatest ≠ none ∨ policy.olderThanDays ≠ none ∨ policy.keepTaggedOnly = true ∨ policy.keepWeekly = true) ∧
    (policy.keepTaggedOnly = true → ∃ tags, listTagRefs = .ok tags)

theorem pruneHistoricalGraph_sweeps {faults : DeletionFaults}
    (clean : DeletesCleanly faults) (now : Int)
    (sweeps : PruneSweeps listTagRefs canonicalRoot policy db) :
    ∃ repoId commitShas snapshotIds, (pruneHistoricalGraph faults listTagRefs now canonicalRoot policy db).2 =
      (pruneOrphanHistoricalFileGraphs
        (deleteHistoryCommits repoId commitShas (deleteHistorySnapshots snapshotIds db))).2 := by
  obtain ⟨repoId, registered, commits, snapshots, notAll, selected, tagged⟩ := sweeps
  have someSelected : ¬ (policy.keepAll = false ∧ policy.keepLatest = none ∧ policy.olderThanDays =
    none ∧ policy.keepTaggedOnly = false ∧ policy.keepWeekly = false) := by
    rintro ⟨_, latest, days, tags, weekly⟩
    rcases selected with latestSet | daysSet | tagsSet | weeklySet
    · exact latestSet latest
    · exact daysSet days
    · rw [tags] at tagsSet
      cases tagsSet
    · rw [weekly] at weeklySet
      cases weeklySet
  obtain ⟨tags, listed⟩ : ∃ tags, (if policy.keepTaggedOnly then
      withContext "list tag refs for history prune" listTagRefs else .ok []) = (.ok tags : Except String (List String)) := by
    cases only : policy.keepTaggedOnly with
    | false => exact ⟨[], rfl⟩
    | true =>
      obtain ⟨tags, listed⟩ := tagged only
      exact ⟨tags, by simp [listed, withContext]⟩
  unfold pruneHistoricalGraph
  simp only [registered, commits, snapshots, or_self, if_false]
  rw [if_neg someSelected]
  simp only [notAll, Bool.false_eq_true, if_false, listed, execUntilFault_of_deletesCleanly clean]
  exact ⟨_, _, _, rfl⟩

theorem pruneHistoricalGraph_early {faults : DeletionFaults} {now : Int}
    (early : ¬ PruneSweeps listTagRefs canonicalRoot policy db) :
    (pruneHistoricalGraph faults listTagRefs now canonicalRoot policy db).2 = db := by
  unfold pruneHistoricalGraph
  split
  · rfl
  · next repoId registered =>
      dsimp only
      split
      · rfl
      · next present =>
          split
          · rfl
          · next selected =>
              split
              · rfl
              · next notAll =>
                  split
                  · rfl
                  · next tags listed =>
                      refine absurd ⟨repoId, registered, ?_⟩ early
                      obtain ⟨commits, snapshots⟩ := not_or.mp present
                      have none : policy.keepAll = false := by simpa using notAll
                      refine ⟨commits, snapshots, none, ?_, ?_⟩
                      · by_contra nothing
                        simp only [not_or, not_not, Bool.not_eq_true] at nothing
                        exact selected ⟨none, nothing⟩
                      · intro only
                        simp only [only, if_true] at listed
                        cases asked : listTagRefs with
                        | error msg => simp [asked, withContext] at listed
                        | ok tags => exact ⟨tags, rfl⟩

/-- However far the deletions get, a snapshot that is still there has the contents it had. -/
def Retains (before after : Db) : Prop :=
  ∀ snapshot ∈ after.graphSnapshots, snapshot ∈ before.graphSnapshots ∧ SameContents before after snapshot.snapshotId

theorem Retains.keptByDeletions (start : Db) :
    KeptByDeletions fun db => (db.Valid ∧ db.Sound) ∧ Retains start db where
  snapshots ids holds := by
    refine ⟨Db.Sound.keptByDeletions.snapshots ids holds.1, fun snapshot mem => ?_⟩
    obtain ⟨old, kept⟩ := mem_deleteWhere.mp mem
    obtain ⟨first, same⟩ := holds.2 snapshot old
    exact ⟨first, same.trans (.deleted (by simpa using kept))⟩
  commits repoId commitShas holds := by
    refine ⟨Db.Sound.keptByDeletions.commits repoId commitShas holds.1, fun snapshot mem => ?_⟩
    obtain ⟨first, same⟩ := holds.2 snapshot mem
    exact ⟨first, same.trans ⟨rfl, rfl, rfl⟩⟩
  sweep holds := by
    refine ⟨Db.Sound.keptByDeletions.sweep holds.1, fun snapshot mem => ?_⟩
    obtain ⟨first, same⟩ := holds.2 snapshot mem
    exact ⟨first, same.trans (.swept holds.1.2 snapshot.snapshotId)⟩

theorem Retains.refl (db : Db) : Retains db db := fun _ mem => ⟨mem, .refl db _⟩

theorem pruneHistoricalGraph_sameContents {faults : DeletionFaults}
    {now : Int} (valid : db.Valid) (sound : db.Sound) :
    Retains db (pruneHistoricalGraph faults listTagRefs now canonicalRoot policy db).2 := by
  rcases pruneHistoricalGraph_cases faults listTagRefs now canonicalRoot policy db with
    same | ⟨repoId, commitShas, ids, pruned⟩
  · rw [same]
    exact .refl db
  · rw [pruned]
    exact ((Retains.keptByDeletions db).prune faults repoId commitShas ids ⟨⟨valid, sound⟩, .refl db⟩).2

theorem callingRegistry_emitsNodes (lines : List Nat) : (callingRegistry lines).EmitsNodes := by
  intro path hash bytes parsed parses
  cases parses
  simp [callingFile]

def callingBuild : Operation := .build "/repo" none [callingStep]

theorem callingStep_listsOnce :
    callingStep.git.ListsOnce := rootCommitStep_listsOnce _ (nodup_singleton _)

theorem callingBuild_listsOnce : ∀ operation ∈ [callingBuild], operation.Admitted ListsOnce := by
  intro operation mem
  rw [mem_singleton.mp mem]
  intro step stepMem
  rw [mem_singleton.mp stepMem]
  exact callingStep_listsOnce

/-- The second node of the file cannot be inserted: the file is left out of the snapshot,
and its first node stays. -/
def brokenBuild : Operation :=
  .build "/repo" none [{ callingStep with
    faults := { persist := fun _ position => if position = 2 then some "database or disk is full" else none } }]

/-- The broken snapshot is rebuilt, and a prune that is to delete it stops at the commits. -/
def mishaps : List Operation :=
  [brokenBuild,
    .rebuild "/repo" none (.ok callingStep.commit) callingStep.git (fun _ => none) callingStep.faults callingStep.commit.sha,
    .prune (fun position => if position = 1 then some "database is locked" else none) (.ok []) 0 "/repo"
      { keepTaggedOnly := true }]

end Atlas.History
