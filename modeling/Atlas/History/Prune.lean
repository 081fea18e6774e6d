import Atlas.History.Build

/-! Retention: deleting snapshots and commits, the sweep of orphaned blob graphs, and
the rebuild of one snapshot. Each deletion is a transaction of its own, so that one that
fails leaves what the earlier ones have deleted. The lifecycle tables, which are
recomputed afterwards, are not part of the model. -/
namespace Atlas.History
open Core Sql

def i64Min : Int := -(2 ^ 63)
def i64Max : Int := 2 ^ 63 - 1
def FitsI64 (value : Int) : Prop := i64Min ≤ value ∧ value ≤ i64Max

instance (value : Int) : Decidable (FitsI64 value) := inferInstanceAs (Decidable (_ ∧ _))

def saturate (value : Int) : Int := max i64Min (min i64Max value)

/-- `days as i64`: a count from `2^63` on wraps to a negative number. -/
def castI64 (value : Nat) : Int := Int.bmod value (2 ^ 64)

variable (policy : HistoryRetentionPolicy) (db : Db) (repoId : Nat)

def listCommits : List StoredCommit :=
  (db.commits.filter fun row => decide (row.repoId = repoId)).insertionSort fun left right =>
    toLex (right.authorTime, right.commitSha) ≤ toLex (left.authorTime, left.commitSha)

/-- Joined with the commits; `ORDER BY c.author_time ASC, s.snapshot_id ASC`. -/
def listSnapshotsOrdered : List StoredSnapshot :=
  (((db.graphSnapshots.filter fun row => decide (row.repoId = repoId)).flatMap fun snapshot =>
      (db.commits.filter fun commit =>
        decide (commit.repoId = snapshot.repoId ∧ commit.commitSha = snapshot.commitSha)).map
        fun commit => (snapshot, commit.authorTime)).insertionSort fun left right =>
      toLex (left.2, left.1.snapshotId) ≤ toLex (right.2, right.1.snapshotId)).map Prod.fst

def deleteHistorySnapshots (snapshotIds : List Nat) (db : Db) : Db :=
  { db with
    snapshotFiles := deleteWhere (fun row => decide (row.snapshotId ∈ snapshotIds)) db.snapshotFiles
    graphSnapshots :=
      deleteWhere (fun row => decide (row.snapshotId ∈ snapshotIds)) db.graphSnapshots
    snapshotNodes := deleteWhere (fun row => decide (row.snapshotId ∈ snapshotIds)) db.snapshotNodes
    snapshotEdges := deleteWhere (fun row => decide (row.snapshotId ∈ snapshotIds)) db.snapshotEdges
    snapshotMembershipBlobs :=
      deleteWhere (fun row => decide (row.snapshotId ∈ snapshotIds)) db.snapshotMembershipBlobs }

def deleteHistoryCommits (commitShas : List String) (db : Db) : Db :=
  { db with
    commits := deleteWhere
      (fun row => decide (row.repoId = repoId ∧ row.commitSha ∈ commitShas)) db.commits }

/-- Hashes of node rows that no snapshot file uses. Edge rows are not asked. -/
def orphanHashes : List String :=
  (((db.historicalNodes.map HistoricalNode.fileHash).filter fun hash =>
    decide (hash ∉ db.snapshotFiles.map StoredSnapshotFile.fileHash)).dedup).insertionSort fun left right => left ≤ right

structure Reclaimed where
  fileHashes : Nat := 0
  historicalNodes : Nat := 0
  historicalEdges : Nat := 0

def pruneOrphanHistoricalFileGraphs : Reclaimed × Db :=
  let orphans := orphanHashes db
  ({ fileHashes := orphans.length
     historicalNodes := (orphans.map (countHistoricalNodes db)).sum
     historicalEdges := (orphans.map (countHistoricalEdges db)).sum },
   { db with
     historicalNodes := deleteWhere (fun row => decide (row.fileHash ∈ orphans)) db.historicalNodes
     historicalEdges := deleteWhere (fun row => decide (row.fileHash ∈ orphans)) db.historicalEdges })

/-- The transactions of a prune, in order. -/
def pruneDeletions (repoId : Nat) (commitShas : List String) (snapshotIds : List Nat) :
    List (Statement Db) :=
  [deleteHistorySnapshots snapshotIds, deleteHistoryCommits repoId commitShas,
    fun db => (pruneOrphanHistoricalFileGraphs db).2]

/-- The transactions that a rebuild starts with. -/
def rebuildDeletions (snapshotIds : List Nat) : List (Statement Db) :=
  [deleteHistorySnapshots snapshotIds, fun db => (pruneOrphanHistoricalFileGraphs db).2]

/-- The error of each transaction that fails; the first place also stands for the reads
before it. -/
abbrev DeletionFaults := Nat → Option String

structure HistoryRetentionPolicy where
  keepAll : Bool := false
  keepLatest : Option Nat := none
  olderThanDays : Option Nat := none
  keepTaggedOnly : Bool := false
  keepWeekly : Bool := false

structure HistoryPruneSummary where
  (commitsBefore commitsAfter snapshotsBefore snapshotsAfter : Nat)
  deletedCommitShas : List String := []
  deletedSnapshotIds : List Nat := []
  reclaimed : Reclaimed := {}

def keptLatest (snapshots : List StoredSnapshot) : List String :=
  match policy.keepLatest with
  | none => []
  | some count => (snapshots.reverse.take count).map StoredSnapshot.commitSha

def ageCutoff (now : Int) (days : Nat) : Int := saturate (now - saturate (castI64 days * 86400))

def keptRecent (now : Int) (commits : List StoredCommit) : List String :=
  match policy.olderThanDays with
  | none => []
  | some days =>
    (commits.filter fun commit => decide (ageCutoff now days ≤ commit.authorTime)).map StoredCommit.commitSha

def weekOf (authorTime : Int) : Int := authorTime / 604800

def latestPerWeek (commits : List StoredCommit) (snapshots : List StoredSnapshot) :
    List (Int × String) := snapshots.foldl (fun latest snapshot =>
    match commits.find? fun commit => decide (commit.commitSha = snapshot.commitSha) with
    | none => latest
    | some commit =>
      latest.filter (fun entry => decide (entry.1 ≠ weekOf commit.authorTime)) ++
        [(weekOf commit.authorTime, snapshot.commitSha)]) []

def keptWeekly (commits : List StoredCommit) (snapshots : List StoredSnapshot) : List String :=
  if policy.keepWeekly then (latestPerWeek commits snapshots).map Prod.snd else []

def pruneHistoricalGraph (faults : DeletionFaults)
    (listTagRefs : Except String (List String)) (now : Int)
    (canonical : String) (policy : HistoryRetentionPolicy) (db : Db) : Except String HistoryPruneSummary × Db :=
  match findRepoId db canonical with
  | none => (.error ("repo not yet registered for history: " ++ canonical), db)
  | some repoId =>
    let commits := listCommits db repoId
    let snapshots := listSnapshotsOrdered db repoId
    let unchanged : HistoryPruneSummary :=
      { commitsBefore := commits.length, commitsAfter := commits.length,
        snapshotsBefore := snapshots.length, snapshotsAfter := snapshots.length }
    if commits = [] ∨ snapshots = [] then (.ok unchanged, db)
    else if policy.keepAll = false ∧ policy.keepLatest = none ∧
      policy.olderThanDays = none ∧ policy.keepTaggedOnly = false ∧ policy.keepWeekly = false then
      (.error "no history prune retention policy selected", db)
    else if policy.keepAll then (.ok unchanged, db)
    else
      match (if policy.keepTaggedOnly then withContext "list tag refs for history prune" listTagRefs
        else .ok []) with
      | .error msg => (.error msg, db)
      | .ok tagged =>
        let keepShas := keptLatest policy snapshots ++ keptRecent policy now commits ++ tagged ++
          keptWeekly policy commits snapshots
        let deleted := snapshots.filter fun snapshot => decide (snapshot.commitSha ∉ keepShas)
        let deletedIds := deleted.map StoredSnapshot.snapshotId
        let deletedShas := deleted.map StoredSnapshot.commitSha
        match execUntilFault faults 0 (pruneDeletions repoId deletedShas deletedIds) db with
        | (some msg, reached) => (.error msg, reached)
        | (none, swept) =>
          (.ok { commitsBefore := commits.length
                 commitsAfter := (listCommits swept repoId).length
                 snapshotsBefore := snapshots.length
                 snapshotsAfter := (listSnapshotsOrdered swept repoId).length
                 deletedCommitShas := deletedShas
                 deletedSnapshotIds := deletedIds
                 reclaimed := (pruneOrphanHistoricalFileGraphs
                   (deleteHistoryCommits repoId deletedShas (deleteHistorySnapshots deletedIds db))).1 }, swept)

theorem pruneHistoricalGraph_cases (faults : DeletionFaults)
    (listTagRefs : Except String (List String)) (now : Int)
    (canonical : String) (policy : HistoryRetentionPolicy) (db : Db) :
    (pruneHistoricalGraph faults listTagRefs now canonical policy db).2 = db ∨
      ∃ repoId commitShas snapshotIds, (pruneHistoricalGraph faults listTagRefs now canonical policy db).2 =
        (execUntilFault faults 0 (pruneDeletions repoId commitShas snapshotIds) db).2 := by
  unfold pruneHistoricalGraph
  split
  · exact .inl rfl
  · dsimp only
    split
    · exact .inl rfl
    · split
      · exact .inl rfl
      · split
        · exact .inl rfl
        · split
          · exact .inl rfl
          · refine .inr ?_
            split
            next failed => exact ⟨_, _, _, (congrArg Prod.snd failed).symm⟩
            next swept => exact ⟨_, _, _, (congrArg Prod.snd swept).symm⟩

def upsertRepo (rootPath : String) (db : Db) : Db :=
  { db with
    repos := insertOrIgnore RepoRow.rootPath
      ⟨nextRowid RepoRow.repoId db.repos, rootPath⟩ db.repos }

def buildHistoricalGraph (registry : ParserRegistry)
    (canonical : String) (indexedRef : Option String) (steps : List CommitStep) (db : Db) : Db :=
  if steps = [] then db
  else
    match findRepoId (upsertRepo canonical db) canonical with
    | none => db
    | some repoId =>
      (buildCommits ⟨registry, repoId, indexedRef⟩ steps
        { connection := ⟨upsertRepo canonical db, none⟩ }).connection.committed

def rebuildHistoricalSnapshot (registry : ParserRegistry)
    (canonical : String) (indexedRef : Option String)
    (resolved : Except String GitCommitMeta) (git : Git) (deletionFaults : DeletionFaults) (faults : CommitFaults)
    (commitSha : String) (db : Db) : Db :=
  match findRepoId db canonical with
  | none => db
  | some repoId =>
    match findSnapshot db repoId commitSha, resolved with
    | some old, .ok commit =>
      match execUntilFault deletionFaults 0 (rebuildDeletions [old.snapshotId]) db with
      | (some _, reached) => reached
      | (none, swept) =>
        (processCommit ⟨registry, repoId, indexedRef⟩ git faults commit
          { connection := ⟨swept, none⟩ }).2.connection.committed
    | _, _ => db

end Atlas.History
