import Atlas.Core.Graph
import Atlas.Sql.Table
import Atlas.Sql.Transaction
import Mathlib.Data.Prod.Lex

/-! The history tables. Timestamps and the completeness ratio of a snapshot are
left out: they are functions of the clock and of the stored counts, and no
operation reads them back. -/
namespace Atlas.History
open Core

structure RepoRow where
  repoId : Nat
  rootPath : String

structure StoredCommit where
  commitSha : String
  repoId : Nat
  (parentSha indexedRef authorName authorEmail : Option String)
  (authorTime committerTime : Int)
  subject : String
  message : Option String

structure StoredSnapshot where
  (snapshotId repoId : Nat)
  commitSha : String
  rootTreeHash : Option String
  (nodeCount edgeCount fileCount parseErrorCount : Nat)
  deriving DecidableEq

structure StoredSnapshotFile where
  snapshotId : Nat
  (filePath fileHash : String)
  language : Option String
  size : Option Nat
  deriving DecidableEq

structure SnapshotNode where
  snapshotId : Nat
  (fileHash qualifiedName : String)

abbrev EdgeKey := String × String × String

structure SnapshotEdge where
  snapshotId : Nat
  fileHash : String
  edgeKey : EdgeKey

structure StoredSnapshotMembershipBlob where
  snapshotId : Nat
  (filePath fileHash nodeMembership edgeMembership : String)

structure HistoricalNode where
  (fileHash qualifiedName kind name filePath : String)
  (lineStart lineEnd : Option Nat)
  (language parentName params returnType modifiers : Option String)
  isTest : Bool
  extraJson : Option Json

structure HistoricalEdge where
  fileHash : String
  edgeKey : EdgeKey
  filePath : String
  line : Option Nat
  confidence : UInt32
  confidenceTier : Option String
  extraJson : Option Json

def StoredCommit.key (row : StoredCommit) : String × Nat := (row.commitSha, row.repoId)
def StoredSnapshot.key (row : StoredSnapshot) : Nat × String := (row.repoId, row.commitSha)
def StoredSnapshotFile.key (row : StoredSnapshotFile) : Nat × String :=
  (row.snapshotId, row.filePath)

/-- `PRIMARY KEY (snapshot_id, qualified_name)`: the blob is not part of it. -/
def SnapshotNode.key (row : SnapshotNode) : Nat × String := (row.snapshotId, row.qualifiedName)
def SnapshotEdge.key (row : SnapshotEdge) : Nat × EdgeKey := (row.snapshotId, row.edgeKey)
def StoredSnapshotMembershipBlob.key (row : StoredSnapshotMembershipBlob) : Nat × String :=
  (row.snapshotId, row.filePath)

/-- `PRIMARY KEY (file_hash, qualified_name)`: the path is not part of it. -/
def HistoricalNode.key (row : HistoricalNode) : String × String := (row.fileHash, row.qualifiedName)
def HistoricalEdge.key (row : HistoricalEdge) : String × EdgeKey := (row.fileHash, row.edgeKey)

structure Db where
  repos : List RepoRow := []
  commits : List StoredCommit := []
  graphSnapshots : List StoredSnapshot := []
  snapshotFiles : List StoredSnapshotFile := []
  snapshotNodes : List SnapshotNode := []
  snapshotEdges : List SnapshotEdge := []
  snapshotMembershipBlobs : List StoredSnapshotMembershipBlob := []
  historicalNodes : List HistoricalNode := []
  historicalEdges : List HistoricalEdge := []

def Db.empty : Db := {}

section
variable (db : Db)

def findRepoId (rootPath : String) : Option Nat :=
  (db.repos.find? fun row => decide (row.rootPath = rootPath)).map RepoRow.repoId
def findSnapshot (repoId : Nat) (commitSha : String) : Option StoredSnapshot :=
  db.graphSnapshots.find? fun row => decide (row.key = (repoId, commitSha))

variable (snapshotId : Nat) (fileHash : String)

def listSnapshotFiles : List StoredSnapshotFile := (db.snapshotFiles.filter fun row => decide
    (row.snapshotId = snapshotId)).insertionSort fun left right => left.filePath ≤ right.filePath
def nodesOfHash : List HistoricalNode :=
  db.historicalNodes.filter fun row => decide (row.fileHash = fileHash)
def edgesOfHash : List HistoricalEdge :=
  db.historicalEdges.filter fun row => decide (row.fileHash = fileHash)
def hasHistoricalFileGraph : Bool := decide (0 < (nodesOfHash db fileHash).length)
def countHistoricalNodes : Nat := (nodesOfHash db fileHash).length
def countHistoricalEdges : Nat := (edgesOfHash db fileHash).length
def listHistoricalNodeQns : List String :=
  (nodesOfHash db fileHash).map HistoricalNode.qualifiedName
def listHistoricalEdgeKeys : List EdgeKey := (edgesOfHash db fileHash).map HistoricalEdge.edgeKey
def getHistoricalFileLanguage : Option String :=
  (nodesOfHash db fileHash).head?.bind HistoricalNode.language

/-- Joins the snapshot's names with the blob rows they were attached for. -/
def reconstructSnapshotNodes : List HistoricalNode :=
  ((db.snapshotNodes.filter fun row => decide (row.snapshotId = snapshotId)).flatMap fun mem =>
      db.historicalNodes.filter fun row =>
        decide (row.key = (mem.fileHash, mem.qualifiedName))).insertionSort
    fun left right => toLex (left.filePath, left.qualifiedName) ≤ toLex (right.filePath, right.qualifiedName)

def reconstructSnapshotEdges : List HistoricalEdge :=
  ((db.snapshotEdges.filter fun row => decide (row.snapshotId = snapshotId)).flatMap fun mem =>
      db.historicalEdges.filter fun row =>
        decide (row.key = (mem.fileHash, mem.edgeKey))).insertionSort
    fun left right =>
      toLex (left.filePath, toLex (left.edgeKey.1, toLex left.edgeKey.2)) ≤
        toLex (right.filePath, toLex (right.edgeKey.1, toLex right.edgeKey.2))

end

/-! Which files a commit tracks: the full listing of its tree, and the replay of
its diff over the file list stored for its first parent. -/

abbrev Bytes := List UInt8

inductive ObjectType where
  | blob | commit | tree
  deriving DecidableEq

structure TreeEntry where
  objectType : ObjectType
  (objectHash filePath : String)
  deriving DecidableEq

inductive ChangeStatus where
  | added | modified | deleted | renamed | copied | typeChanged | other
  deriving DecidableEq

/-- One line of `git diff-tree`. Only renames and copies have two paths; for the
other letters both are the same. -/
structure TreeChange where
  (oldPath newPath : String)
  status : ChangeStatus

structure GitCommitMeta where
  sha : String
  parentSha : Option String
  (authorName authorEmail : String)
  (authorTime committerTime : Int)
  (subject body : String)
  deriving DecidableEq

structure Git where
  revParse : String → Except String String
  lsTree : String → Except String (List TreeEntry)
  lsTreePaths : String → List String → Except String (List TreeEntry)
  diffTreeFiles : String → String → Except String (List TreeChange)
  showFile : String → String → Except String (Option Bytes)
  catFileBlobBatch : List String → Except String (List (String × Bytes))

def withContext {Value : Type} (context : String) : Except String Value → Except String Value
  | .ok value => .ok value
  | .error msg => .error (context ++ ": " ++ msg)

def attempt {Value : Type} (fault : Option String) (value : Value) : Except String Value :=
  match fault with
  | none => .ok value
  | some msg => .error msg

def trackedFile (filePath fileHash : String) (language : Option String) (size : Option Nat) :
    StoredSnapshotFile where
  snapshotId := 0
  filePath := filePath
  fileHash := fileHash
  language := language
  size := size

def fullSnapshotFiles (git : Git) (commitSha : String) :
    Except String (List StoredSnapshotFile) := do
  let entries ← withContext ("ls-tree for " ++ commitSha) (git.lsTree commitSha)
  .ok (entries.filterMap fun entry =>
    if entry.objectType = .blob then some (trackedFile entry.filePath entry.objectHash none none)
    else none)

def removeFile (path : String) (files : List StoredSnapshotFile) : List StoredSnapshotFile :=
  files.filter fun file => decide (file.filePath ≠ path)

def insertFile (file : StoredSnapshotFile) (files : List StoredSnapshotFile) :
    List StoredSnapshotFile :=
  (removeFile file.filePath files).orderedInsert (fun left right => left.filePath ≤ right.filePath) file

def collectFiles (files : List StoredSnapshotFile) : List StoredSnapshotFile :=
  files.foldl (fun collected file => insertFile file collected) []
def fileAt (path : String) (files : List StoredSnapshotFile) : Option StoredSnapshotFile :=
  files.find? fun file => decide (file.filePath = path)
def entryAt (entries : List TreeEntry) (path : String) : Option TreeEntry :=
  entries.reverse.find? fun entry => decide (entry.filePath = path)

def changedPaths (changes : List TreeChange) : List String := (changes.filterMap fun change =>
    match change.status with
    | .added | .modified | .renamed | .copied => some change.newPath
    | _ => none).dedup.insertionSort fun left right => left ≤ right

def applyReplayedEntry (files : List StoredSnapshotFile)
    (entries : List TreeEntry) (path : String) : List StoredSnapshotFile :=
  match entryAt entries path with
  | none => removeFile path files
  | some entry =>
    if entry.objectType = .blob then
      match fileAt path files with
      | some old =>
        if old.fileHash = entry.objectHash then
          insertFile (trackedFile path entry.objectHash old.language old.size) files
        else insertFile (trackedFile path entry.objectHash none none) files
      | none => insertFile (trackedFile path entry.objectHash none none) files
    else removeFile path files

def replayChange (entries : List TreeEntry)
    (files : List StoredSnapshotFile) (change : TreeChange) : List StoredSnapshotFile :=
  match change.status with
  | .deleted => removeFile change.oldPath files
  | .renamed => applyReplayedEntry (removeFile change.oldPath files) entries change.newPath
  | _ => applyReplayedEntry files entries change.newPath

structure ReplayFaults where
  findSnapshot : Option String := none
  listSnapshotFiles : Option String := none

def replaySnapshotFiles (git : Git) (faults : ReplayFaults) (repoId : Nat)
    (db : Db) (commit : GitCommitMeta) : Except String (Option (List StoredSnapshotFile)) :=
  match commit.parentSha with
  | none => .ok none
  | some parentSha => do
      match ← attempt faults.findSnapshot (findSnapshot db repoId parentSha) with
      | none => .ok none
      | some parentSnapshot =>
        let stored ← attempt faults.listSnapshotFiles
          (listSnapshotFiles db parentSnapshot.snapshotId)
        let files := collectFiles stored
        let changes ← withContext ("diff-tree for " ++ parentSha ++ ".." ++ commit.sha)
          (git.diffTreeFiles commit.sha parentSha)
        if changes = [] then .ok (some files)
        else
          let entries ← git.lsTreePaths commit.sha (changedPaths changes)
          .ok (some (changes.foldl (replayChange entries) files))

end Atlas.History
