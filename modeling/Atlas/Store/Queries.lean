import Atlas.Store.Mutation

/-! Queries over the graph tables that builds and updates rest on. A read error of a
single row is dropped by the source; here every row is read. -/
namespace Atlas.Store
open Core Sql

def ascending (names : List String) : List String :=
  names.insertionSort fun left right => left ≤ right

variable (db : Db) (repo : String)

def findFile (path : String) : Option FileRow :=
  db.files.find? fun row => decide (row.sourceRepoId = repo ∧ row.path = path)
def fileHashes : List (String × String) :=
  (db.files.filter fun row => decide (row.sourceRepoId = repo)).map fun row => (row.path, row.hash)
def filePaths : List String :=
  ascending ((db.files.filter fun row => decide (row.sourceRepoId = repo)).map FileRow.path)

/-- The half-open range from `dir/` up to `dir0`: `0` is the character after `/`. -/
def filePathsUnderDir (dir : String) : List String := ascending ((db.files.filter fun row => decide
    (row.sourceRepoId = repo ∧ dir ++ "/" ≤ row.path ∧ row.path < dir ++ "0")).map FileRow.path)

/-- `ORDER BY line_start`. Rows of one line stay in the order of the table. -/
def nodesByFile (nfc : String → String) (db : Db) (path : String) :
    Except AtlasError (List Node) := do
  let canonical ← canonicalizeRepoPath nfc path
  .ok (((db.nodes.filter fun row => decide (row.filePath = canonical)).insertionSort
    fun left right => left.lineStart ≤ right.lineStart).map rowToNode)

section
variable (nfc : String → String)

variable (db : Db) (repo path : String)

def fileHashForRepo : Except AtlasError (Option String) := do
  let canonical ← canonicalizeRepoPath nfc path
  .ok ((findFile db repo canonical).map FileRow.hash)

def PackageOwnerKind.fromStr? (text : String) : Option PackageOwnerKind :=
  if text = "cargo" then some .cargo
  else if text = "npm" then some .npm
  else if text = "go" then some .go
  else none

def OwnerColumns.storedOwnerId (columns : OwnerColumns) : Option String :=
  match columns.ownerId, columns.ownerKind, columns.ownerRoot, columns.ownerManifestPath with
  | some ownerId, some kind, some _, some _ => (PackageOwnerKind.fromStr? kind).map fun _ => ownerId
  | _, _, _, _ => none

def fileOwnerIdForRepo : Except AtlasError (Option String) := do
  let canonical ← canonicalizeRepoPath nfc path
  .ok ((findFile db repo canonical).bind fun row => row.owner.storedOwnerId)

def fileGraphExistsForRepo : Except AtlasError Bool := do
  let canonical ← canonicalizeRepoPath nfc path
  .ok ((findFile db repo canonical).isSome || db.nodes.any fun row => decide (row.sourceRepoId = repo ∧ row.filePath = canonical))

def signature (kind : String)
    (params returnType modifiers : Option String) (isTest : Bool) : String :=
  kind ++ "|" ++ params.getD "" ++ "|" ++ returnType.getD "" ++ "|" ++ modifiers.getD "" ++ "|" ++
    if isTest then "1" else "0"

def nodeSignaturesByFileForRepo : Except AtlasError (List (String × String)) := do
  let canonical ← canonicalizeRepoPath nfc path
  .ok ((db.nodes.filter fun row => decide (row.sourceRepoId = repo ∧ row.filePath = canonical)).map fun row => (row.qualifiedName,
      signature row.kind row.params row.returnType row.modifiers row.isTest))

end

/-- Files with a node that is the source of an edge into one of the names, where the
source is not itself a stored node of one of these names. -/
def findDependentsForQnames (changedQnames : List String) : List String :=
  let edges := db.edges.filter fun edge => decide (edge.sourceRepoId = repo ∧
    edge.targetQualified ∈ changedQnames ∧
    ¬ ∃ row ∈ db.nodes, row.sourceRepoId = repo ∧ row.qualifiedName = edge.sourceQualified ∧ edge.sourceQualified ∈ changedQnames)
  ascending ((edges.flatMap fun edge =>
    (db.nodes.filter fun row => decide (row.sourceRepoId = edge.sourceRepoId ∧ row.qualifiedName =
      edge.sourceQualified)).map NodeRow.filePath).dedup)

def lastIndexedRef (repoRoot : String) : Option String := (db.graphBuildState.find? fun row =>
    decide (row.repoRoot = repoRoot)).bind BuildStateRow.lastIndexedRef

def setLastIndexedRef (repoRoot repo gitRef : String) (db : Db) : Db :=
  { db with
    graphBuildState := insertOrUpdate BuildStateRow.repoRoot
      (fun row => { row with sourceRepoId := repo, lastIndexedRef := some gitRef })
      { repoRoot := repoRoot, sourceRepoId := repo, lastIndexedRef := some gitRef }
      db.graphBuildState }

end Atlas.Store
