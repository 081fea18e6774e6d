import Atlas.History.Reuse
import Atlas.History.Retention

/-! Runs in which every commit meets the reuse condition. -/
namespace Atlas.History
open List Sql

structure Db.Fresh (registry : ParserRegistry) (content : String → Bytes) (db : Db) : Prop where
  valid : db.Valid
  sound : db.Sound
  fromParser : StoredFromParser registry content db
  agrees : ∀ snapshot ∈ db.graphSnapshots, SnapshotAgrees registry content db snapshot.snapshotId

structure BuildState.Fresh (registry : ParserRegistry)
    (content : String → Bytes) (state : BuildState) : Prop where
  tables : state.connection.committed.Fresh registry content
  faithful : state.cache.Faithful content
  graphs : GraphsFit state.connection.committed state.cache

/-- The commit lists and serves its files, inserts them without a fault and, unless it is
skipped, reuses graphs only for the paths that they were stored for. -/
structure CommitStep.Fits (content : String → Bytes)
    (env : BuildEnv) (state : BuildState) (step : CommitStep) : Prop where
  lists : step.git.ListsOnce
  served : step.Served content env state
  inserts : ∀ fileIndex position, step.faults.persist fileIndex position = none
  reuse : findSnapshot state.connection.visible env.repoId step.commit.sha = none → ∀ tracked,
    trackedFiles step.git step.faults env.repoId state.connection.visible step.commit =
    .ok tracked →
      ReuseFits env.registry content state.connection.committed state.cache tracked

section
variable {env : BuildEnv} {content : String → Bytes} {step : CommitStep} {state next : BuildState}

theorem GraphsFit.congr {db : Db} {before after : BuildRunCache} (graphs : GraphsFit db before)
    (same : ∀ hash, hasHistoricalFileGraph db hash = true → knownGraph db after hash =
      knownGraph db before hash) : GraphsFit db after := by
  have reused : ∀ row, ReusedRow db after row ↔ ReusedRow db before row := by
    intro row
    unfold ReusedRow
    refine and_congr_right fun mem => ?_
    rw [same row.fileHash (hasHistoricalFileGraph_iff.mpr ⟨row, mem, rfl⟩)]
  constructor
  · intro hash stored name known
    rw [same hash stored] at known
    exact graphs.named hash stored name known
  · intro row rowReused other mem sameHash samePath
    rw [reused] at rowReused ⊢
    exact graphs.closed row rowReused other mem sameHash samePath

theorem GraphsFit.empty (db : Db) : GraphsFit db {} where
  named hash _ name known := by
    obtain ⟨row, mem, rfl⟩ := mem_map.mp known
    obtain ⟨stored, sameHash⟩ := mem_filter.mp mem
    exact ⟨row, stored, Prod.ext (of_decide_eq_true sameHash) rfl⟩
  closed row _ other mem _ _ := by
    refine ⟨mem, mem_map_of_mem (mem_filter.mpr ⟨mem, ?_⟩)⟩
    simp

theorem agrees_published {registry : ParserRegistry} {db : Db} {persisted : Persisted}
    {commitRow : StoredCommit} {rootTreeHash : Option String} (atop : persisted.Over db)
    (labelled : Labelled registry content persisted.db persisted.collected)
    (larger : db.Extends (publishedDb commitRow rootTreeHash persisted.collected persisted.db))
    (unindexed : ∀ row ∈ db.graphSnapshots, row.key ≠ (commitRow.repoId, commitRow.commitSha))
    (agrees : ∀ snapshot ∈ db.graphSnapshots, SnapshotAgrees registry content db snapshot.snapshotId) :
    ∀ snapshot ∈ (publishedDb commitRow rootTreeHash persisted.collected persisted.db).graphSnapshots,
      SnapshotAgrees registry content (publishedDb commitRow rootTreeHash persisted.collected
        persisted.db) snapshot.snapshotId := by
  intro snapshot mem
  rw [Db.Valid.publishedDb_graphSnapshots (by rw [atop.snapshots]; exact unindexed)] at mem
  rcases mem_append.mp mem with old | new
  · rw [atop.snapshots] at old
    exact (agrees snapshot old).of_sameContents (larger.contents snapshot.snapshotId (mem_map_of_mem old))
  · rw [mem_singleton.mp new]
    have paths : (persisted.collected.snapshotFiles.map StoredSnapshotFile.filePath).Nodup := by simpa using atop.sound.paths
    exact snapshotAgrees_published atop.valid labelled paths

section
variable (fresh : state.Fresh env.registry content) (fits : step.Fits content env state)
include fresh fits

theorem BuildState.Fresh.committed
    (unindexed : findSnapshot state.connection.visible env.repoId step.commit.sha = none)
    (ran : processCommit env step.git step.faults step.commit state = (.ok (), next)) :
    next.Fresh env.registry content := by
  obtain ⟨tracked, _, classified, listed, _, closed, _, same⟩ := processCommit_ok ran
  have clean : next.errors = state.errors := by
    rw [same]
    exact persistAll_errors_of_clear classified fits.inserts
  have notYet : findSnapshot state.connection.committed env.repoId step.commit.sha = none := by
    simpa [Connection.visible, closed] using unindexed
  have reuse := fits.reuse unindexed tracked listed
  obtain ⟨cache, extended, atop, nextCache, published⟩ :=
    processCommit_clean fits.lists fresh.tables.valid fresh.faithful fits.served listed ran clean
  have contributes : (persistedCleanly env.registry content state.connection.committed cache tracked
    state.errors).Contributes content env.registry state.connection.committed state.cache tracked :=
    persistedCleanly_contributes extended state.errors
  have labelled := labelled_of_fits reuse fresh.tables.fromParser fresh.graphs atop contributes
  have stored := fresh.tables.fromParser.persistedCleanly reuse atop contributes
  have graphs := fresh.graphs.persistedCleanly reuse extended atop contributes
  obtain ⟨⟨nextValid, nextSound⟩, larger⟩ :=
    (Db.Extends.kept env.registry state.connection.committed).commit fits.lists
      ⟨⟨fresh.tables.valid, fresh.tables.sound⟩, .refl _⟩ notYet ran
  rw [published] at nextValid nextSound larger
  refine ⟨?_, processCommit_faithful fresh.faithful fits.served ran, ?_⟩
  · rw [published]
    refine ⟨nextValid, nextSound, ⟨stored.rows, stored.complete⟩, ?_⟩
    exact agrees_published atop labelled larger (findSnapshot_eq_none.mp notYet) fresh.tables.agrees
  · rw [published, nextCache]
    exact ⟨graphs.named, graphs.closed⟩

theorem BuildState.Fresh.processCommit
    (unindexed : findSnapshot state.connection.visible env.repoId step.commit.sha = none) :
    (processCommit env step.git step.faults step.commit state).2.Fresh env.registry content := by
  cases ran : History.processCommit env step.git step.faults step.commit state with
  | mk result next =>
    cases result with
    | ok value => exact fresh.committed fits unindexed ran
    | error msg =>
      have unchanged := processCommit_error ran
      refine ⟨?_, processCommit_faithful fresh.faithful fits.served ran, ?_⟩
      · rw [unchanged]
        exact fresh.tables
      · rw [unchanged]
        exact fresh.graphs.congr fun hash stored =>
          processCommit_error_knownGraph fresh.faithful fits.served ran stored

theorem BuildState.Fresh.buildCommit : (buildCommit env state step).Fresh env.registry content := by
  unfold History.buildCommit
  split
  · exact fresh
  · next unindexed =>
      have processed := fresh.processCommit fits (by simpa using unindexed)
      cases ran : History.processCommit env step.git step.faults step.commit state with
      | mk result next =>
        rw [ran] at processed
        cases result with
        | ok value => exact processed
        | error msg => exact ⟨processed.tables, processed.faithful, processed.graphs⟩

end

def AllFit (content : String → Bytes) (env : BuildEnv) : List CommitStep → BuildState → Prop
  | [], _ => True
  | step :: rest, state => step.Fits content env state ∧ AllFit content env rest (buildCommit env state step)

theorem BuildState.Fresh.buildCommits (steps : List CommitStep) {state : BuildState}
    (fresh : state.Fresh env.registry content) (fits : AllFit content env steps state) :
    (buildCommits env steps state).Fresh env.registry content := by
  induction steps generalizing state with
  | nil => exact fresh
  | cons step rest ih => exact ih (fresh.buildCommit fits.1) fits.2

end

section
variable {registry : ParserRegistry} {content : String → Bytes} {db : Db}

theorem StoredFromParser.sweep (fromParser : StoredFromParser registry content db) :
    StoredFromParser registry content (pruneOrphanHistoricalFileGraphs db).2 where
  rows row mem := fromParser.rows row (mem_deleteWhere.mp mem).1
  complete row mem fact made := by
    obtain ⟨old, kept⟩ := mem_deleteWhere.mp mem
    obtain ⟨other, otherMem, sameHash, sameFact⟩ := fromParser.complete row old fact made
    refine ⟨other, mem_deleteWhere.mpr ⟨otherMem, ?_⟩, sameHash, sameFact⟩
    rw [sameHash]
    exact kept

theorem Db.Fresh.keptByDeletions : KeptByDeletions fun db => db.Fresh registry content where
  snapshots ids fresh := by
    obtain ⟨valid, sound⟩ := Db.Sound.keptByDeletions.snapshots ids ⟨fresh.valid, fresh.sound⟩
    refine ⟨valid, sound, ⟨fresh.fromParser.rows, fresh.fromParser.complete⟩, fun snapshot mem => ?_⟩
    obtain ⟨old, kept⟩ := mem_deleteWhere.mp mem
    exact (fresh.agrees snapshot old).of_sameContents (.deleted (by simpa using kept))
  commits repoId commitShas fresh := by
    obtain ⟨valid, sound⟩ := Db.Sound.keptByDeletions.commits repoId commitShas ⟨fresh.valid, fresh.sound⟩
    refine ⟨valid, sound, ⟨fresh.fromParser.rows, fresh.fromParser.complete⟩, fun snapshot mem => ?_⟩
    exact (fresh.agrees snapshot mem).of_sameContents ⟨rfl, rfl, rfl⟩
  sweep fresh := by
    obtain ⟨valid, sound⟩ := Db.Sound.keptByDeletions.sweep ⟨fresh.valid, fresh.sound⟩
    refine ⟨valid, sound, fresh.fromParser.sweep, fun snapshot mem => ?_⟩
    exact (fresh.agrees snapshot mem).of_sameContents (.swept fresh.sound snapshot.snapshotId)

def freshStart (db : Db) : BuildState where
  connection := ⟨db, none⟩

def Operation.Fits (registry : ParserRegistry) (content : String → Bytes) (db : Db) :
    Operation → Prop
  | .build canonical indexedRef steps =>
    ∀ repoId, findRepoId (upsertRepo canonical db) canonical = some repoId →
      AllFit content ⟨registry, repoId, indexedRef⟩ steps (freshStart (upsertRepo canonical db))
  | .rebuild canonical indexedRef resolved git deletionFaults faults commitSha =>
    ∀ repoId existing commit swept, findRepoId db canonical = some repoId →
      findSnapshot db repoId commitSha = some existing → resolved = .ok commit →
      execUntilFault deletionFaults 0 (rebuildDeletions [existing.snapshotId]) db = (none, swept) →
      commit.sha = commitSha ∧
        CommitStep.Fits content ⟨registry, repoId, indexedRef⟩ (freshStart swept) ⟨commit, git, faults⟩
  | .prune .. => True

def RunFits (registry : ParserRegistry) (content : String → Bytes) : List Operation → Db → Prop
  | [], _ => True
  | operation :: rest, db =>
    operation.Fits registry content db ∧ RunFits registry content rest (operation.apply registry db)

theorem Db.Fresh.start (fresh : db.Fresh registry content) :
    (freshStart db).Fresh registry content := ⟨fresh, .empty content, .empty db⟩

theorem Db.Fresh.apply (fresh : db.Fresh registry content)
    {operation : Operation} (fits : operation.Fits registry content db) :
    (operation.apply registry db).Fresh registry content := by
  cases operation with
  | build canonical indexedRef steps =>
    simp only [Operation.apply, buildHistoricalGraph]
    split
    · exact fresh
    · split
      · exact fresh
      · next repoId registered =>
          have registeredFresh : (upsertRepo canonical db).Fresh registry content := by
            obtain ⟨valid, sound⟩ := (Db.Sound.kept registry).register canonical ⟨fresh.valid, fresh.sound⟩
            exact ⟨valid, sound, ⟨fresh.fromParser.rows, fresh.fromParser.complete⟩, fresh.agrees⟩
          exact (BuildState.Fresh.buildCommits steps registeredFresh.start (fits repoId registered)).tables
  | rebuild canonical indexedRef resolved git deletionFaults faults commitSha =>
    simp only [Operation.apply, rebuildHistoricalSnapshot]
    split
    · exact fresh
    · next repoId registered =>
        split
        · next existing commit indexed =>
            have deleted := Db.Fresh.keptByDeletions.rebuild deletionFaults [existing.snapshotId] fresh
            split
            next failed => rwa [failed] at deleted
            next swept ran =>
              rw [ran] at deleted
              obtain ⟨sameSha, stepFits⟩ := fits repoId existing commit swept registered indexed rfl ran
              refine (deleted.start.processCommit stepFits ?_).tables
              have unindexed := fresh.valid.findSnapshot_deleted indexed
              rw [← sameSha] at unindexed
              rw [execUntilFault_ok ran]
              exact unindexed
        · exact fresh
  | prune deletionFaults listTagRefs now canonical policy =>
    rcases pruneHistoricalGraph_cases deletionFaults listTagRefs now canonical policy db with
      same | ⟨repoId, commitShas, ids, pruned⟩
    · rw [Operation.apply, same]
      exact fresh
    · rw [Operation.apply, pruned]
      exact Db.Fresh.keptByDeletions.prune deletionFaults repoId commitShas ids fresh

theorem Db.Fresh.runOperations (operations : List Operation)
    {db : Db} (fresh : db.Fresh registry content) (fits : RunFits registry content operations db) :
    (runOperations registry operations db).Fresh registry content := by
  induction operations generalizing db with
  | nil => exact fresh
  | cons operation rest ih => exact ih (fresh.apply fits.1) fits.2

theorem Db.Fresh.empty : Db.empty.Fresh registry content where
  valid := .empty
  sound := .empty
  fromParser := ⟨by simp [Db.empty], by simp [Db.empty]⟩
  agrees := by simp [Db.empty]

end

/-- In a run all of whose commits meet the reuse condition every snapshot holds what a
fresh parse of its files gives, and nothing from another path. -/
theorem reconstructSnapshotNodes_eq_fresh_parse (registry : ParserRegistry) (content : String →
    Bytes) (operations : List Operation) (fits : RunFits registry content operations Db.empty) :
    ∀ snapshot ∈ (runOperations registry operations Db.empty).graphSnapshots, SnapshotAgrees
      registry content (runOperations registry operations Db.empty) snapshot.snapshotId ∧
        ∀ row ∈ reconstructSnapshotNodes (runOperations registry operations Db.empty)
          snapshot.snapshotId, ∃ file ∈ listSnapshotFiles (runOperations registry operations
            Db.empty) snapshot.snapshotId, file.filePath = row.filePath := by
  intro snapshot mem
  have agrees := (Db.Fresh.empty.runOperations operations fits).agrees snapshot mem
  refine ⟨agrees, fun row reconstructed => ?_⟩
  obtain ⟨file, listed, made⟩ := (agrees row.fact).mp ⟨row, reconstructed, rfl⟩
  exact ⟨file, listed, (parsedFacts_filePath made).symm⟩

def keepingStep : CommitStep := rootCommitStep "c2" [⟨.blob, "h1", "a.rs"⟩]

def renamingStep : CommitStep where
  commit := { (rootCommitStep "c2" []).commit with parentSha := some "c1" }
  git := { (rootCommitStep "c2" [⟨.blob, "h1", "b.rs"⟩]).git with
    diffTreeFiles := fun _ _ => .ok [⟨"a.rs", "b.rs", .renamed⟩] }

def onlyFile : List StoredSnapshotFile := [trackedFile "a.rs" "h1" none none]

theorem onlyFile_fits (sha : String) (state : BuildState)
    (rows : ∀ row ∈ state.connection.committed.historicalNodes, row.filePath = "a.rs")
    (own : isReused (callingRegistry [2])
      state.connection.committed (trackedFile "a.rs" "h1" none none) = true → ∃ row,
      ReusedRow state.connection.committed state.cache row ∧ row.fileHash = "h1") :
    (rootCommitStep sha [⟨.blob, "h1", "a.rs"⟩]).Fits (fun _ => [1]) (callingEnv [2]) state := by
  have tracked : ∀ files, trackedFiles (rootCommitStep sha [⟨.blob, "h1", "a.rs"⟩]).git
    (rootCommitStep sha [⟨.blob, "h1", "a.rs"⟩]).faults 1 state.connection.visible
      (rootCommitStep sha [⟨.blob, "h1", "a.rs"⟩]).commit = .ok files → files = onlyFile := by
    intro files listed
    cases listed
    rfl
  refine ⟨rootCommitStep_listsOnce _ (nodup_singleton _), rootCommitStep_served sha {} (callingEnv [2]) state, fun _ _ => rfl, ?_⟩
  intro _ files listed
  rw [tracked files listed]
  constructor
  · intro file mem reused row reusedRow sameHash
    rw [mem_singleton.mp mem] at reused ⊢
    exact ⟨_, mem_singleton.mpr rfl, reused, rfl, (rows row reusedRow.1).symm⟩
  · intro file mem reused _
    rw [mem_singleton.mp mem] at reused ⊢
    obtain ⟨row, reusedRow, sameHash⟩ := own reused
    exact ⟨row, reusedRow, sameHash, rows row reusedRow.1⟩
  · intro first firstMem second secondMem _ _
    rw [mem_singleton.mp firstMem, mem_singleton.mp secondMem]
    decide

theorem reconstructSnapshotNodes_kept_file :
    let db := runOperations (callingRegistry [2])
      [.build "/repo" none [callingStep, keepingStep]] Db.empty
    (db.graphSnapshots.map fun snapshot => (snapshot.snapshotId, snapshot.commitSha)) = [(1, "c1"), (2, "c2")] ∧
      ∀ snapshot ∈ db.graphSnapshots, SnapshotAgrees (callingRegistry [2]) (fun _ => [1]) db snapshot.snapshotId := by
  have fits : RunFits (callingRegistry [2]) (fun _ => [1]) [.build "/repo" none [callingStep, keepingStep]] Db.empty := by
    refine ⟨?_, trivial⟩
    intro repoId registered
    have first : repoId = 1 := by
      cases registered
      rfl
    subst first
    refine ⟨onlyFile_fits "c1" _ (by decide) ?_, onlyFile_fits "c2" _ (by decide) ?_, trivial⟩
    · intro reused
      cases reused
    · intro _
      exact ⟨_, ⟨.head _, .head _⟩, rfl⟩
  refine ⟨rfl, ?_⟩
  intro snapshot mem
  exact (reconstructSnapshotNodes_eq_fresh_parse _ _ _ fits snapshot mem).1

/-- The renamed file is reused with the nodes and the path of the old one. -/
theorem reconstructSnapshotNodes_renamed_file :
    let db := runOperations (callingRegistry [2])
      [.build "/repo" none [callingStep, renamingStep]] Db.empty
    (db.graphSnapshots.map fun snapshot => (snapshot.snapshotId, snapshot.commitSha)) =
      [(1, "c1"), (2, "c2")] ∧ (listSnapshotFiles db 2).map StoredSnapshotFile.filePath = ["b.rs"] ∧
      (reconstructSnapshotNodes db 2).map HistoricalNode.filePath = ["a.rs", "a.rs"] ∧
      ¬ SnapshotAgrees (callingRegistry [2]) (fun _ => [1]) db 2 := by
  refine ⟨rfl, rfl, rfl, fun agrees => ?_⟩
  obtain ⟨file, listed, made⟩ := (agrees _).mp ⟨_, .head _, rfl⟩
  have path := parsedFacts_filePath made
  rw [mem_singleton.mp listed] at path
  have same : "a.rs" = "b.rs" := path
  exact absurd same (by decide)

end Atlas.History
