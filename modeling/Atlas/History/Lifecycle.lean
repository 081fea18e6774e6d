import Atlas.History.Prune
import Atlas.Program.SortedMap

/-! `recompute_lifecycle` and the two tables it replaces. One pass over the snapshots, oldest
first, collects for every node and every edge where it was seen first and last and how
often. The digest, the decimal text of a confidence and the text of a stored JSON value
are parameters. -/
namespace Atlas.History
open List Core Sql Program

/-- What a row says about the snapshots of its node or edge. `confidence` holds the bits of
an `f64`. -/
structure Lifespan where
  (firstSnapshotId lastSnapshotId : Nat)
  (firstCommitSha lastCommitSha introductionCommitSha : String)
  removalCommitSha : Option String
  confidence : UInt64
  evidenceJson : Option String

structure StoredNodeHistory extends Lifespan where
  repoId : Nat
  (qualifiedName filePath kind : String)
  signatureHash : Option String

structure StoredEdgeHistory extends Lifespan where
  repoId : Nat
  (sourceQn targetQn kind filePath : String)
  metadataHash : Option String

abbrev NodeIdentity := String ×ₗ String ×ₗ String
abbrev EdgeIdentity := String ×ₗ String ×ₗ String ×ₗ String

def StoredNodeHistory.identity (row : StoredNodeHistory) : NodeIdentity :=
  toLex (row.qualifiedName, toLex (row.filePath, row.kind))
def StoredEdgeHistory.identity (row : StoredEdgeHistory) : EdgeIdentity :=
  toLex (row.sourceQn, toLex (row.targetQn, toLex (row.kind, row.filePath)))
def StoredNodeHistory.key (row : StoredNodeHistory) : Nat × NodeIdentity :=
  (row.repoId, row.identity)

/-- `PRIMARY KEY (repo_id, source_qn, target_qn, kind, file_path)`. -/
def StoredEdgeHistory.key (row : StoredEdgeHistory) : Nat × EdgeIdentity :=
  (row.repoId, row.identity)

@[ext] structure LifecycleStore where
  db : Db
  nodeHistory : List StoredNodeHistory
  edgeHistory : List StoredEdgeHistory
  nodeKeys : (db.historicalNodes.map HistoricalNode.key).Nodup
  edgeKeys : (db.historicalEdges.map HistoricalEdge.key).Nodup
  memberNodes : (db.snapshotNodes.map SnapshotNode.key).Nodup
  memberEdges : (db.snapshotEdges.map SnapshotEdge.key).Nodup
  nodeHistoryKeys : (nodeHistory.map StoredNodeHistory.key).Nodup
  edgeHistoryKeys : (edgeHistory.map StoredEdgeHistory.key).Nodup

section
variable {Row Key : Type} [DecidableEq Key] (key : Row → Key)

def insertEach : List Row → List Row → Except String Unit × List Row
  | rows, [] => (.ok (), rows)
  | rows, entry :: rest =>
    if key entry ∈ rows.map key then (.error "UNIQUE constraint failed", rows)
    else insertEach (rows ++ [entry]) rest

theorem insertEach_nodup {rows : List Row} (nodup : (rows.map key).Nodup) (entries : List Row) :
    ((insertEach key rows entries).2.map key).Nodup := by
  induction entries generalizing rows with
  | nil => exact nodup
  | cons entry rest ih =>
    unfold insertEach
    split
    · exact nodup
    · rename_i free
      refine ih ?_
      rw [map_append, map_singleton]
      exact nodup_append'.mpr ⟨nodup, nodup_singleton _, disjoint_singleton.mpr free⟩

end

variable (text : LifecycleText) (repoId : Nat) (db : Db) (snapshots : List StoredSnapshot)

def LifecycleStore.replaceNodeHistory (entries : List StoredNodeHistory) (store : LifecycleStore) :
    Except String Unit × LifecycleStore :=
  let deleted := deleteWhere (fun row => decide (row.repoId = repoId)) store.nodeHistory
  let inserted := insertEach StoredNodeHistory.key deleted entries
  (inserted.1, { store with
    nodeHistory := inserted.2
    nodeHistoryKeys := insertEach_nodup _
      (store.nodeHistoryKeys.sublist (filter_sublist.map _)) entries })

def LifecycleStore.replaceEdgeHistory (entries : List StoredEdgeHistory) (store : LifecycleStore) :
    Except String Unit × LifecycleStore :=
  let deleted := deleteWhere (fun row => decide (row.repoId = repoId)) store.edgeHistory
  let inserted := insertEach StoredEdgeHistory.key deleted entries
  (inserted.1, { store with
    edgeHistory := inserted.2
    edgeHistoryKeys := insertEach_nodup _
      (store.edgeHistoryKeys.sublist (filter_sublist.map _)) entries })

structure LifecycleText where
  hexHash : String → String
  sixDecimals : UInt32 → String
  jsonText : Json → String

def unitSeparator : String := "\x1f"

def nodeSignatureHash (node : HistoricalNode) : Option String :=
  if node.params = none ∧ node.returnType = none ∧ node.modifiers = none then none
  else some (text.hexHash (node.params.getD "" ++ unitSeparator ++ node.returnType.getD "" ++
    unitSeparator ++ node.modifiers.getD ""))

def oneF32 : UInt32 := 0x3f800000

def edgeMetadataHash (edge : HistoricalEdge) : Option String :=
  let payload := toString (edge.line.getD 0) ++ unitSeparator ++ edge.confidenceTier.getD "" ++
    unitSeparator ++ (edge.extraJson.map text.jsonText).getD "" ++ unitSeparator ++ text.sixDecimals edge.confidence
  if payload = "0" ++ unitSeparator ++ unitSeparator ++ unitSeparator ++ text.sixDecimals oneF32 then
    none
  else some (text.hexHash payload)

/-- `NodeAccumulator` and `EdgeAccumulator`, which differ in the name of the hash only. -/
structure Accumulator where
  hash : Option String
  (firstSnapshotId lastSnapshotId : Nat)
  (firstCommitSha lastCommitSha : String)
  (firstIndex lastIndex presenceCount : Nat)

def Accumulator.seen (hash : Option String)
    (index : Nat) (snapshot : StoredSnapshot) (acc : Accumulator) : Accumulator :=
  { acc with
    lastSnapshotId := snapshot.snapshotId
    lastCommitSha := snapshot.commitSha
    lastIndex := index
    hash := hash
    presenceCount := acc.presenceCount + 1 }

def Accumulator.start (hash : Option String) (index : Nat) (snapshot : StoredSnapshot) :
    Accumulator where
  hash := hash
  firstSnapshotId := snapshot.snapshotId
  lastSnapshotId := snapshot.snapshotId
  firstCommitSha := snapshot.commitSha
  lastCommitSha := snapshot.commitSha
  firstIndex := index
  lastIndex := index
  presenceCount := 1

section
variable {Key Item : Type} [LinearOrder Key] (identity : Item → Key) (hash : Item → Option String)

def recordItem (index : Nat) (snapshot : StoredSnapshot)
    (map : SortedMap Key Accumulator) (item : Item) : SortedMap Key Accumulator :=
  map.modifyOrInsert (identity item) (.seen (hash item) index snapshot) (.start (hash item) index snapshot)

variable (items : StoredSnapshot → List Item)

def accumulate (snapshots : List StoredSnapshot) : SortedMap Key Accumulator :=
  snapshots.zipIdx.foldl (fun map (snapshot, index) =>
    (items snapshot).foldl (recordItem identity hash index snapshot) map) ∅

end

def nodeIdentity (node : HistoricalNode) : NodeIdentity :=
  toLex (node.qualifiedName, toLex (node.filePath, node.kind))
def edgeIdentity (edge : HistoricalEdge) : EdgeIdentity :=
  toLex (edge.edgeKey.1, toLex (edge.edgeKey.2.1, toLex (edge.edgeKey.2.2, edge.filePath)))

def evidenceJson (presenceCount firstIndex lastIndex : Nat) : String :=
  "\x7b\"presence_count\":" ++ toString presenceCount ++ ",\"first_index\":" ++
    toString firstIndex ++ ",\"last_index\":" ++ toString lastIndex ++ "\x7d"

def Accumulator.lifespan (acc : Accumulator) : Lifespan where
  firstSnapshotId := acc.firstSnapshotId
  lastSnapshotId := acc.lastSnapshotId
  firstCommitSha := acc.firstCommitSha
  lastCommitSha := acc.lastCommitSha
  introductionCommitSha := acc.firstCommitSha
  removalCommitSha := snapshots[acc.lastIndex + 1]?.map StoredSnapshot.commitSha
  confidence := 0x3ff0000000000000
  evidenceJson := some (History.evidenceJson acc.presenceCount acc.firstIndex acc.lastIndex)

def nodeRow (identity : NodeIdentity) (acc : Accumulator) : StoredNodeHistory where
  toLifespan := acc.lifespan snapshots
  repoId
  qualifiedName := (ofLex identity).1
  filePath := (ofLex (ofLex identity).2).1
  kind := (ofLex (ofLex identity).2).2
  signatureHash := acc.hash

def edgeRow (identity : EdgeIdentity) (acc : Accumulator) : StoredEdgeHistory where
  toLifespan := acc.lifespan snapshots
  repoId
  sourceQn := (ofLex identity).1
  targetQn := (ofLex (ofLex identity).2).1
  kind := (ofLex (ofLex (ofLex identity).2).2).1
  filePath := (ofLex (ofLex (ofLex identity).2).2).2
  metadataHash := acc.hash

def nodeMap : SortedMap NodeIdentity Accumulator := accumulate nodeIdentity (nodeSignatureHash text)
    (fun snapshot => reconstructSnapshotNodes db snapshot.snapshotId) snapshots
def edgeMap : SortedMap EdgeIdentity Accumulator := accumulate edgeIdentity (edgeMetadataHash text)
    (fun snapshot => reconstructSnapshotEdges db snapshot.snapshotId) snapshots
def nodeRows (repoId : Nat) (snapshots : List StoredSnapshot) : List StoredNodeHistory :=
  (nodeMap text db snapshots).entries.map fun entry => nodeRow repoId snapshots entry.1 entry.2
def edgeRows (repoId : Nat) (snapshots : List StoredSnapshot) : List StoredEdgeHistory :=
  (edgeMap text db snapshots).entries.map fun entry => edgeRow repoId snapshots entry.1 entry.2

structure LifecycleSummary where
  repoId : Nat
  snapshotCount : Nat := 0
  nodeHistoryRows : Nat := 0
  edgeHistoryRows : Nat := 0

def recomputeLifecycle (canonical : String) (store : LifecycleStore) :
    Except String LifecycleSummary × LifecycleStore :=
  match findRepoId store.db canonical with
  | none => (.error ("repo not yet registered for history: " ++ canonical), store)
  | some repoId =>
    let snapshots := listSnapshotsOrdered store.db repoId
    if snapshots = [] then (.ok { repoId }, store)
    else
      let nodes := nodeRows text store.db repoId snapshots
      let edges := edgeRows text store.db repoId snapshots
      match store.replaceNodeHistory repoId nodes with
      | (.error msg, failed) => (.error ("replace node history: " ++ msg), failed)
      | (.ok _, withNodes) =>
        match withNodes.replaceEdgeHistory repoId edges with
        | (.error msg, failed) => (.error ("replace edge history: " ++ msg), failed)
        | (.ok _, replaced) =>
          (.ok { repoId, snapshotCount := snapshots.length, nodeHistoryRows := nodes.length,
                 edgeHistoryRows := edges.length }, replaced)

end Atlas.History
