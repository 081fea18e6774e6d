import Atlas.History.BuildProperties
import Atlas.History.Prune

/-! Stores reached by builds, rebuilds and prunes, and what the table constraints
guarantee about them. -/
namespace Atlas.History
open List Sql

variable {repoId : Nat} {state : BuildState} {indexedRef : Option String}

inductive Operation where
  | build (canonicalRoot : String) (indexedRef : Option String) (steps : List CommitStep)
  | rebuild (canonicalRoot : String) (indexedRef : Option String) (resolved : Except String GitCommitMeta) (git : Git)
      (deletionFaults : DeletionFaults) (faults : CommitFaults) (commitSha : String)
  | prune (deletionFaults : DeletionFaults) (listTagRefs : Except String (List String)) (now : Int)
      (canonicalRoot : String) (policy : HistoryRetentionPolicy)

def Operation.apply (registry : ParserRegistry) (db : Db) : Operation → Db
  | .build canonical indexedRef steps => buildHistoricalGraph registry canonical indexedRef steps db
  | .rebuild canonical indexedRef resolved git deletionFaults faults commitSha =>
    rebuildHistoricalSnapshot registry canonical indexedRef resolved git deletionFaults faults commitSha db
  | .prune deletionFaults listTagRefs now canonical policy =>
    (pruneHistoricalGraph deletionFaults listTagRefs now canonical policy db).2

def runOperations (registry : ParserRegistry) (operations : List Operation) (db : Db) : Db :=
  operations.foldl (Operation.apply registry) db

def Operation.Resolves : Operation → Prop
  | .rebuild _ _ (.ok commit) _ _ _ commitSha => commit.sha = commitSha
  | _ => True

def snapshotIds (db : Db) : List Nat := db.graphSnapshots.map StoredSnapshot.snapshotId

/-- Keys are unique, and each row of a snapshot has its snapshot. -/
structure Db.Valid (db : Db) : Prop where
  nodeKeys : (db.historicalNodes.map HistoricalNode.key).Nodup
  edgeKeys : (db.historicalEdges.map HistoricalEdge.key).Nodup
  snapshotKeys : (db.graphSnapshots.map StoredSnapshot.key).Nodup
  files : ∀ row ∈ db.snapshotFiles, row.snapshotId ∈ snapshotIds db
  nodes : ∀ row ∈ db.snapshotNodes, row.snapshotId ∈ snapshotIds db
  edges : ∀ row ∈ db.snapshotEdges, row.snapshotId ∈ snapshotIds db

namespace Db.Valid

variable {db : Db}

theorem empty : Db.Valid Db.empty :=
  ⟨nodup_nil, nodup_nil, nodup_nil, by simp [Db.empty], by simp [Db.empty], by simp [Db.empty]⟩

theorem nextSnapshotId_fresh (db : Db) : nextSnapshotId db ∉ snapshotIds db := by
  intro used
  obtain ⟨row, mem, same⟩ := mem_map.mp used
  have bounded := rowid_lt_nextRowid StoredSnapshot.snapshotId mem
  rw [same] at bounded
  exact Nat.lt_irrefl _ bounded

theorem persistAll (valid : db.Valid) (registry : ParserRegistry) (faults : CommitFaults)
    (commitSha : String) (errors : List IngestError) (classified : Classified) :
    (persistAll registry faults commitSha db errors classified).db.Valid := by
  refine persistAll_invariant Db.Valid errors classified ?_ valid
  intro work _ parsed statement mem current holds
  obtain rfl | ⟨node, rfl, _⟩ | ⟨edge, rfl, _⟩ := mem_persistParsedFile mem
  · exact holds
  · exact ⟨keys_nodup_insertOrIgnore _ holds.nodeKeys, holds.edgeKeys, holds.snapshotKeys, holds.files, holds.nodes, holds.edges⟩
  · exact ⟨holds.nodeKeys, keys_nodup_insertOrIgnore _ holds.edgeKeys, holds.snapshotKeys, holds.files, holds.nodes, holds.edges⟩

variable {commitRow : StoredCommit} {rootTreeHash : Option String} {collected : Collected}

theorem publishedDb_graphSnapshots
    (unindexed : ∀ row ∈ db.graphSnapshots, row.key ≠ (commitRow.repoId, commitRow.commitSha)) :
    (publishedDb commitRow rootTreeHash collected db).graphSnapshots =
      db.graphSnapshots ++ [snapshotRow commitRow.repoId (nextSnapshotId db) commitRow.commitSha
      rootTreeHash collected] :=
  insertOrReplace_fresh unindexed

theorem publishedDb (valid : db.Valid)
    (unindexed : ∀ row ∈ db.graphSnapshots, row.key ≠ (commitRow.repoId, commitRow.commitSha)) :
    (publishedDb commitRow rootTreeHash collected db).Valid := by
  have ids : ∀ id, id ∈ snapshotIds db ∨ id = nextSnapshotId db →
    id ∈ snapshotIds (History.publishedDb commitRow rootTreeHash collected db) := by
    intro id known
    rw [snapshotIds, publishedDb_graphSnapshots unindexed, map_append]
    rcases known with old | rfl
    · exact mem_append_left _ old
    · exact mem_append_right _ (.head _)
  refine ⟨valid.nodeKeys, valid.edgeKeys, keys_nodup_insertOrReplace _ valid.snapshotKeys, ?_, ?_, ?_⟩
  · intro row mem
    rcases mem_insertAllOrReplace mem with old | new
    · exact ids _ (.inl (valid.files row old))
    · obtain ⟨file, _, rfl⟩ := mem_map.mp new
      exact ids _ (.inr rfl)
  · intro row mem
    rcases mem_insertAllOrIgnore mem with old | new
    · exact ids _ (.inl (valid.nodes row old))
    · obtain ⟨member, _, attached⟩ := mem_flatMap.mp new
      obtain ⟨name, _, rfl⟩ := mem_map.mp attached
      exact ids _ (.inr rfl)
  · intro row mem
    rcases mem_insertAllOrIgnore mem with old | new
    · exact ids _ (.inl (valid.edges row old))
    · obtain ⟨member, _, attached⟩ := mem_flatMap.mp new
      obtain ⟨key, _, rfl⟩ := mem_map.mp attached
      exact ids _ (.inr rfl)

theorem deleteHistorySnapshots (valid : db.Valid) (ids : List Nat) :
    (deleteHistorySnapshots ids db).Valid := by
  have kept : ∀ id, id ∈ snapshotIds db → id ∉ ids → id ∈ snapshotIds (History.deleteHistorySnapshots ids db) := by
    intro id known notDeleted
    obtain ⟨row, mem, rfl⟩ := mem_map.mp known
    exact mem_map_of_mem (mem_deleteWhere.mpr ⟨mem, by simpa using notDeleted⟩)
  refine ⟨valid.nodeKeys, valid.edgeKeys, List.Nodup.sublist (List.Sublist.map _ filter_sublist) valid.snapshotKeys, ?_, ?_, ?_⟩
  · intro row mem
    obtain ⟨old, notDeleted⟩ := mem_deleteWhere.mp mem
    exact kept _ (valid.files row old) (by simpa using notDeleted)
  · intro row mem
    obtain ⟨old, notDeleted⟩ := mem_deleteWhere.mp mem
    exact kept _ (valid.nodes row old) (by simpa using notDeleted)
  · intro row mem
    obtain ⟨old, notDeleted⟩ := mem_deleteWhere.mp mem
    exact kept _ (valid.edges row old) (by simpa using notDeleted)

theorem sweep (valid : db.Valid) : (pruneOrphanHistoricalFileGraphs db).2.Valid where
  nodeKeys := List.Nodup.sublist (List.Sublist.map _ filter_sublist) valid.nodeKeys
  edgeKeys := List.Nodup.sublist (List.Sublist.map _ filter_sublist) valid.edgeKeys
  snapshotKeys := valid.snapshotKeys
  files := valid.files
  nodes := valid.nodes
  edges := valid.edges

theorem congr {other : Db}
    (valid : db.Valid) (nodeRows : other.historicalNodes = db.historicalNodes)
    (edgeRows : other.historicalEdges = db.historicalEdges)
    (snapshots : other.graphSnapshots = db.graphSnapshots)
    (files : other.snapshotFiles = db.snapshotFiles)
    (nodes : other.snapshotNodes = db.snapshotNodes)
    (edges : other.snapshotEdges = db.snapshotEdges) : other.Valid := by
  have ids : snapshotIds other = snapshotIds db := congrArg (map _) snapshots
  exact ⟨nodeRows ▸ valid.nodeKeys, edgeRows ▸ valid.edgeKeys, snapshots ▸ valid.snapshotKeys,
    by rw [files, ids]; exact valid.files,
    by rw [nodes, ids]; exact valid.nodes, by rw [edges, ids]; exact valid.edges⟩

end Db.Valid

variable {commitSha : String}

theorem findSnapshot_eq_none {db : Db} : findSnapshot db repoId commitSha = none ↔
    ∀ row ∈ db.graphSnapshots, row.key ≠ (repoId, commitSha) := by simp [findSnapshot]

theorem Db.Valid.findSnapshot_deleted {db : Db} (valid : db.Valid)
    {existing : StoredSnapshot} (found : findSnapshot db repoId commitSha = some existing) :
    findSnapshot (pruneOrphanHistoricalFileGraphs
      (History.deleteHistorySnapshots [existing.snapshotId] db)).2 repoId commitSha = none := by
  refine findSnapshot_eq_none.mpr fun row mem sameKey => ?_
  obtain ⟨old, notDeleted⟩ := mem_deleteWhere.mp mem
  have existingKey : existing.key = (repoId, commitSha) := by simpa using find?_some found
  have same := inj_on_of_nodup_map valid.snapshotKeys old (mem_of_find?_eq_some found) (sameKey.trans existingKey.symm)
  simp [same] at notDeleted

theorem processCommit_of_pending {env : BuildEnv} {git : Git} {faults : CommitFaults}
    {commit : GitCommitMeta} {next : BuildState} {result : Except String Unit} {working : Db}
    (opened : state.connection.pending = some working)
    (ran : processCommit env git faults commit state = (result, next)) :
    next.connection = state.connection := by
  unfold History.processCommit at ran
  split at ran
  · cases ran
    rfl
  · split at ran
    · cases ran
      rfl
    · simp only [writeCommit, opened, withContext] at ran
      cases ran
      rfl

structure KeptByCommits (registry : ParserRegistry)
    (Admits : Git → CommitFaults → Prop) (Invariant : Db → Prop) : Prop where
  valid : ∀ {db}, Invariant db → db.Valid
  commit : ∀ {repoId indexedRef git faults commit} {state next : BuildState}, Admits git faults →
    Invariant state.connection.committed →
    findSnapshot state.connection.committed repoId commit.sha = none →
    processCommit ⟨registry, repoId, indexedRef⟩ git faults commit state = (.ok (), next) →
    Invariant next.connection.committed

structure Kept (registry : ParserRegistry)
    (Admits : Git → CommitFaults → Prop) (Invariant : Db → Prop)
    (Deletes : DeletionFaults → Prop := fun _ => True) : Prop extends KeptByCommits registry Admits Invariant where
  register : ∀ {db} canonicalRoot, Invariant db → Invariant (upsertRepo canonicalRoot db)
  rebuild : ∀ {db faults} ids, Deletes faults → Invariant db →
    Invariant (execUntilFault faults 0 (rebuildDeletions ids) db).2
  prune : ∀ {db faults} repoId commitShas ids, Deletes faults → Invariant db →
    Invariant (execUntilFault faults 0 (pruneDeletions repoId commitShas ids) db).2

/-- What every single deletion keeps, however far a prune or a rebuild gets. -/
structure KeptByDeletions (Invariant : Db → Prop) : Prop where
  snapshots : ∀ {db} ids, Invariant db → Invariant (deleteHistorySnapshots ids db)
  commits : ∀ {db} repoId commitShas, Invariant db → Invariant (deleteHistoryCommits repoId commitShas db)
  sweep : ∀ {db}, Invariant db → Invariant (pruneOrphanHistoricalFileGraphs db).2

section
variable {Invariant : Db → Prop}
  (kept : KeptByDeletions Invariant) {db : Db} (faults : DeletionFaults)
include kept

theorem KeptByDeletions.rebuild (ids : List Nat) (holds : Invariant db) :
    Invariant (execUntilFault faults 0 (rebuildDeletions ids) db).2 := by
  refine execUntilFault_invariant Invariant ?_ 0 holds
  intro deletion mem current
  simp only [rebuildDeletions, mem_cons, not_mem_nil, or_false] at mem
  rcases mem with rfl | rfl
  · exact kept.snapshots ids
  · exact kept.sweep

theorem KeptByDeletions.prune (repoId : Nat)
    (commitShas : List String) (ids : List Nat) (holds : Invariant db) :
    Invariant (execUntilFault faults 0 (pruneDeletions repoId commitShas ids) db).2 := by
  refine execUntilFault_invariant Invariant ?_ 0 holds
  intro deletion mem current
  simp only [pruneDeletions, mem_cons, not_mem_nil, or_false] at mem
  rcases mem with rfl | rfl | rfl
  · exact kept.snapshots ids
  · exact kept.commits repoId commitShas
  · exact kept.sweep

end

def Operation.Admitted (Admits : Git → CommitFaults → Prop) (operation : Operation)
    (Deletes : DeletionFaults → Prop := fun _ => True) : Prop :=
  match operation with
  | .build _ _ steps => ∀ step ∈ steps, Admits step.git step.faults
  | .rebuild _ _ _ git deletionFaults faults _ => Deletes deletionFaults ∧ Admits git faults
  | .prune deletionFaults _ _ _ _ => Deletes deletionFaults

section
variable {registry : ParserRegistry} {Admits : Git → CommitFaults → Prop} {Invariant : Db → Prop}

section
variable (kept : KeptByCommits registry Admits Invariant)
include kept

theorem KeptByCommits.processCommit {git : Git}
    {faults : CommitFaults} {commit : GitCommitMeta} (admitted : Admits git faults)
    (holds : Invariant state.connection.committed)
    (unindexed : findSnapshot state.connection.committed repoId commit.sha = none) :
    Invariant (processCommit ⟨registry, repoId, indexedRef⟩ git faults commit state).2.connection.committed := by
  cases ran : History.processCommit ⟨registry, repoId, indexedRef⟩ git faults commit state with
  | mk result next =>
    cases result with
    | error msg => exact processCommit_error ran ▸ holds
    | ok value => exact kept.commit admitted holds unindexed ran

theorem KeptByCommits.buildCommit
    {step : CommitStep} (admitted : Admits step.git step.faults)
    (holds : Invariant state.connection.committed) :
    Invariant (buildCommit ⟨registry, repoId, indexedRef⟩ state step).connection.committed := by
  unfold History.buildCommit
  split
  · exact holds
  · next unindexed =>
      have processed : Invariant (History.processCommit ⟨registry, repoId, indexedRef⟩ step.git
        step.faults step.commit state).2.connection.committed := by
        cases opened : state.connection.pending with
        | none =>
          refine kept.processCommit admitted holds ?_
          simpa [Connection.visible, opened] using unindexed
        | some working =>
          have untouched : (History.processCommit ⟨registry, repoId, indexedRef⟩ step.git
            step.faults step.commit state).2.connection = state.connection :=
            processCommit_of_pending opened rfl
          rw [untouched]
          exact holds
      cases ran : History.processCommit ⟨registry, repoId, indexedRef⟩ step.git step.faults step.commit state with
      | mk result next =>
        rw [ran] at processed
        cases result <;> exact processed

theorem KeptByCommits.buildCommits (steps : List CommitStep) (admitted : ∀ step ∈ steps,
    Admits step.git step.faults) (holds : Invariant state.connection.committed) :
    Invariant (buildCommits ⟨registry, repoId, indexedRef⟩ steps state).connection.committed := by
  induction steps generalizing state with
  | nil => exact holds
  | cons step rest ih =>
    exact ih (fun later mem => admitted later (.tail _ mem))
      (kept.buildCommit (admitted step (.head _)) holds)

end

variable {db : Db} {Deletes : DeletionFaults → Prop}

theorem Kept.apply (kept : Kept registry Admits Invariant Deletes) {operation : Operation}
    (admitted : operation.Admitted Admits Deletes) (resolves : operation.Resolves) (holds : Invariant db) :
    Invariant (operation.apply registry db) := by
  cases operation with
  | build canonical indexedRef steps =>
    simp only [Operation.apply, buildHistoricalGraph]
    split
    · exact holds
    · split
      · exact holds
      · exact kept.buildCommits steps admitted (kept.register canonical holds)
  | rebuild canonical indexedRef resolved git deletionFaults faults commitSha =>
    simp only [Operation.apply, rebuildHistoricalSnapshot]
    split
    · exact holds
    · split
      · next existing commit indexed =>
          have same : commit.sha = commitSha := resolves
          have deleted := kept.rebuild [existing.snapshotId] admitted.1 holds
          split
          next failed => rwa [failed] at deleted
          next swept =>
            rw [swept] at deleted
            have unindexed := (kept.valid holds).findSnapshot_deleted indexed
            rw [← same] at unindexed
            refine kept.processCommit admitted.2 deleted ?_
            rw [execUntilFault_ok swept]
            exact unindexed
      · exact holds
  | prune deletionFaults listTagRefs now canonical policy =>
    rcases pruneHistoricalGraph_cases deletionFaults listTagRefs now canonical policy db with
      same | ⟨repoId, commitShas, ids, pruned⟩
    · rw [Operation.apply, same]
      exact holds
    · rw [Operation.apply, pruned]
      exact kept.prune repoId commitShas ids admitted holds

theorem Kept.runOperations (kept : Kept registry Admits Invariant Deletes)
    (operations : List Operation)
    (admitted : ∀ operation ∈ operations, operation.Admitted Admits Deletes)
    (resolves : ∀ operation ∈ operations, operation.Resolves) (holds : Invariant db) :
    Invariant (runOperations registry operations db) := by
  induction operations generalizing db with
  | nil => exact holds
  | cons operation rest ih =>
    exact ih (fun later mem => admitted later (.tail _ mem)) (fun later mem => resolves later (.tail _ mem))
      (kept.apply (admitted operation (.head _)) (resolves operation (.head _)) holds)

end

theorem Db.Valid.keptByDeletions : KeptByDeletions Db.Valid where
  snapshots ids holds := holds.deleteHistorySnapshots ids
  commits _ _ holds := holds.congr rfl rfl rfl rfl rfl rfl
  sweep holds := holds.sweep

theorem Db.Valid.kept (registry : ParserRegistry) (Admits : Git → CommitFaults → Prop) :
    Kept registry Admits Db.Valid where
  valid holds := holds
  commit := by
    intro repoId indexedRef git faults commit state next _ holds unindexed ran
    obtain ⟨tracked, cache, classified, _, _, _, _, rfl⟩ := processCommit_ok ran
    refine (holds.persistAll registry faults commit.sha state.errors classified).publishedDb ?_
    rw [(persistAll_snapshots _ _ _).2.2.1]
    exact findSnapshot_eq_none.mp unindexed
  register _ holds := holds.congr rfl rfl rfl rfl rfl rfl
  rebuild ids _ holds := Db.Valid.keptByDeletions.rebuild _ ids holds
  prune repoId commitShas ids _ holds := Db.Valid.keptByDeletions.prune _ repoId commitShas ids holds

end Atlas.History
