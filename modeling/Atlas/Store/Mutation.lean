import Atlas.Store.Helpers

/-! Graph mutations of the store, statement by statement. Every operation is a
transaction whose body is a list of blocks: a block reads the node rows it needs
and then issues its statements in source order. -/
namespace Atlas.Store
open List Core Sql

/-! ## Single statements -/

namespace Statement

def prepare : Sql.Statement Db := id

def ftsDelete (document : FtsDocument) : Sql.Statement Db := fun db =>
  { db with nodesFts := db.nodesFts.filter fun other => other ≠ document }

def ftsInsert (document : FtsDocument) : Sql.Statement Db := fun db =>
  { db with
    nodesFts := if document ∈ db.nodesFts then db.nodesFts else db.nodesFts ++ [document] }

def deleteEdgesOfFile (repo path : String) : Sql.Statement Db := fun db =>
  { db with
    edges := deleteWhere
      (fun row => decide (row.sourceRepoId = repo ∧ row.filePath = some path)) db.edges }

def deleteEdgesTouching (repo qualifiedName : String) : Sql.Statement Db := fun db =>
  { db with
    edges := deleteWhere
      (fun row => decide (row.sourceRepoId = repo ∧
        (row.sourceQualified = qualifiedName ∨ row.targetQualified = qualifiedName))) db.edges }

def deleteNodesOfFile (repo path : String) : Sql.Statement Db := fun db =>
  { db with
    nodes := deleteWhere (fun row => decide (row.sourceRepoId = repo ∧ row.filePath = path)) db.nodes }

def deleteChunksOfSymbol (repo qualifiedName : String) : Sql.Statement Db := fun db =>
  { db with
    retrievalChunks := deleteWhere
      (fun row => decide (row.sourceRepoId = repo ∧ row.nodeQn = qualifiedName)) db.retrievalChunks }

def replaceFileRow (repo path hash : String)
    (language : Option String) (size : Option Nat) : Sql.Statement Db := fun db =>
  let owner := ((db.files.find? fun row => decide (row.key = (repo, path))).map FileRow.owner).getD {}
  { db with
    files := insertOrReplace FileRow.key
      { path := path, language := language, hash := hash, size := size, owner := owner,
        sourceRepoId := repo } db.files }

def deleteFileRow (repo path : String) : Sql.Statement Db := fun db =>
  { db with files := deleteWhere (fun row => decide (row.sourceRepoId = repo ∧ row.path = path)) db.files }

end Statement

def upsertRepoProvenanceJson (extraJson : Json) (provenance : RepoProvenance) : Json :=
  .obj (Json.orInsert "repo_provenance" provenance.toJson
    (Json.orInsert "repo_id" (.str provenance.repoId) extraJson.fieldsOrDefault))

def defaultRepoProvenance (repo : String) : RepoProvenance where
  repoId := repo
  repoFingerprint := some ("repo_fp_" ++ repo)

def nodeRow (repo : String) (id : Nat) (node : Node) : NodeRow where
  id := id
  kind := node.kind.asStr
  name := node.name
  qualifiedName := node.qualifiedName
  filePath := node.filePath
  lineStart := node.lineStart
  lineEnd := node.lineEnd
  language := some node.language
  parentName := node.parentName
  params := node.params
  returnType := node.returnType
  modifiers := node.modifiers
  isTest := node.isTest
  fileHash := some node.fileHash
  extraJson := upsertRepoProvenanceJson node.extraJson (node.repoProvenance.getD (defaultRepoProvenance repo))
  sourceRepoId := repo

def edgeRow (repo : String) (id : Nat) (extraJson : Json) (edge : Edge) : EdgeRow where
  id := id
  kind := edge.kind.asStr
  sourceQualified := edge.sourceQn
  targetQualified := edge.targetQn
  filePath := some edge.filePath
  line := edge.line
  confidence := edge.confidence
  confidenceTier := edge.confidenceTier
  extraJson := extraJson
  sourceRepoId := repo

def nodeDocument (rowid : Nat) (node : Node) : FtsDocument where
  rowid := rowid
  qualifiedName := node.qualifiedName
  name := node.name
  kind := node.kind.asStr
  filePath := node.filePath
  language := some node.language
  params := node.params
  returnType := node.returnType
  modifiers := node.modifiers

namespace Statement

def insertNode (repo : String) (node : Node) : Sql.Statement Db := fun db =>
  let id := nextRowid NodeRow.id db.nodes
  { db with
    nodes := insertOrReplace NodeRow.key (nodeRow repo id node) db.nodes
    lastInsertRowid := id }

def indexNode (node : Node) : Sql.Statement Db := fun db =>
  ftsInsert (nodeDocument db.lastInsertRowid node) db

def insertEdge (repo : String) (extraJson : Json) (edge : Edge) : Sql.Statement Db := fun db =>
  { db with edges := db.edges ++ [edgeRow repo (nextRowid EdgeRow.id db.edges) extraJson edge] }

end Statement

def nodesOfFile (repo path : String) (db : Db) : List Node :=
  (db.nodes.filter fun row => decide (row.sourceRepoId = repo ∧ row.filePath = path)).map rowToNode
def removedNames (oldNodes nodes : List Node) : List String :=
  (oldNodes.map Node.qualifiedName).filter fun name => name ∉ nodes.map Node.qualifiedName

def doReplaceFileGraph (limit : Option Nat) (repo path hash : String) (language : Option String)
    (size : Option Nat) (nodes : List Node) (edges : List Edge) : Block Db := fun db =>
  let oldNodes := fetched limit (nodesOfFile repo path db)
  let removed := removedNames oldNodes nodes
  [Statement.prepare] ++
    oldNodes.map (fun node => Statement.ftsDelete (nodeDocument node.id node)) ++
    [Statement.deleteEdgesOfFile repo path] ++ removed.map (Statement.deleteEdgesTouching repo) ++
    [Statement.deleteNodesOfFile repo path] ++
    removed.map (Statement.deleteChunksOfSymbol repo) ++
    [Statement.replaceFileRow repo path hash language size] ++
    nodes.flatMap (fun node => [Statement.insertNode repo node, Statement.indexNode node]) ++
    edges.map (fun edge => Statement.insertEdge repo (upsertRepoProvenanceJson edge.extraJson
      (edge.repoProvenance.getD (defaultRepoProvenance repo))) edge)

def replaceParsedFile (limit : Option Nat) (repo : String) (file : ParsedFile) : Block Db :=
  doReplaceFileGraph limit repo file.path file.hash file.language file.size file.nodes file.edges

def deleteFileGraph (limit : Option Nat) (repo path : String) : Block Db := fun db =>
  let oldNodes := fetched limit (nodesOfFile repo path db)
  [Statement.prepare] ++ oldNodes.map (fun node => Statement.ftsDelete
    (nodeDocument node.id node)) ++ [Statement.deleteEdgesOfFile repo path, fun current =>
      let names := (nodesOfFile repo path current).map Node.qualifiedName
      { current with
        edges := deleteWhere (fun row => decide (row.sourceRepoId = repo ∧
          (row.sourceQualified ∈ names ∨ row.targetQualified ∈ names))) current.edges },
     fun current =>
      let names := (nodesOfFile repo path current).map Node.qualifiedName
      { current with
        retrievalChunks := deleteWhere (fun row => decide (row.sourceRepoId = repo ∧
          row.nodeQn ∈ names)) current.retrievalChunks },
     Statement.deleteNodesOfFile repo path,
     Statement.deleteFileRow repo path]

def renameFileGraph (limit : Option Nat) (repo oldPath newPath : String) : Block Db := fun db =>
  let oldNodes := fetched limit (nodesOfFile repo oldPath db)
  [Statement.prepare] ++ oldNodes.map (fun node => Statement.ftsDelete (nodeDocument node.id node)) ++ [fun current =>
      { current with
        nodes := updateWhere (fun row => decide (row.sourceRepoId = repo ∧ row.filePath = oldPath))
          (fun row => { row with filePath := newPath }) current.nodes },
     fun current =>
      { current with
        edges := updateWhere
          (fun row => decide (row.sourceRepoId = repo ∧ row.filePath = some oldPath))
          (fun row => { row with filePath := some newPath }) current.edges },
     fun current =>
      { current with
        files := (current.files.filter fun row => decide (row.sourceRepoId = repo ∧ row.path = oldPath)).foldl
          (fun files row => insertOrReplace FileRow.key { row with path := newPath } files)
          current.files },
     Statement.deleteFileRow repo oldPath] ++
    oldNodes.map (fun node =>
      Statement.ftsInsert { nodeDocument node.id node with filePath := newPath })

def rewriteFileEdges (repo path : String) (edges : List Edge) : Block Db := fun _ =>
  [Statement.deleteEdgesOfFile repo path] ++ edges.map (fun edge => Statement.insertEdge repo edge.extraJson edge)

/-- `replace_chunks_for_parsed_files` prepares its two statements once. -/
def prepareChunks : Block Db := fun _ => [Statement.prepare, Statement.prepare]

def replaceChunks (repo : String) (file : ParsedFile) : Block Db := fun _ =>
  [fun current =>
    let names := (nodesOfFile repo file.path current).map Node.qualifiedName
    { current with
      retrievalChunks := deleteWhere (fun row => decide (row.sourceRepoId = repo ∧
        row.nodeQn ∈ names)) current.retrievalChunks }] ++
    file.nodes.map (fun node current =>
      { current with
        retrievalChunks := insertOrUpdate ChunkRow.key
          (fun row => { row with text := node.chunkText })
          { id := nextRowid ChunkRow.id current.retrievalChunks, sourceRepoId := repo,
            nodeQn := node.qualifiedName, chunkIdx := 0, text := node.chunkText,
            embedding := none }
          current.retrievalChunks })

/-! ## Operations of the store -/

section
variable (nfc : String → String) (faults : FaultPlan)

def replaceFileGraphForRepo (repo path hash : String) (language : Option String)
    (size : Option Nat) (nodes : List Node) (edges : List Edge) (conn : Connection Db) :
    Except AtlasError Unit × Connection Db :=
  match canonicalizeGraphSlice nfc path nodes edges with
  | .error error => (.error error, conn)
  | .ok normal =>
    transaction AtlasError.db .rollback faults [doReplaceFileGraph (faults.fetches 0) repo
      normal.path hash language size normal.nodes normal.edges] () conn

def replaceFilesTransactionalForRepo (repo : String) (files : List ParsedFile)
    (conn : Connection Db) : Except AtlasError (Nat × Nat) × Connection Db :=
  if files = [] then (.ok (0, 0), conn)
  else
    match files.mapM (canonicalizeParsedFile nfc) with
    | .error error => (.error error, conn)
    | .ok normal =>
      transaction AtlasError.db .rollback faults (normal.mapIdx fun index file =>
        replaceParsedFile (faults.fetches index) repo file)
        ((normal.map fun file => file.nodes.length).sum, (normal.map fun file => file.edges.length).sum) conn

def deleteFileGraphForRepo (repo path : String) (conn : Connection Db) :
    Except AtlasError Unit × Connection Db :=
  match canonicalizeRepoPath nfc path with
  | .error error => (.error error, conn)
  | .ok canonical =>
    transaction AtlasError.db .rollback faults [deleteFileGraph (faults.fetches 0) repo canonical] () conn

def renameFileGraphForRepo (repo oldPath newPath : String) (conn : Connection Db) :
    Except AtlasError Unit × Connection Db :=
  match canonicalizeRepoPath nfc oldPath with
  | .error error => (.error error, conn)
  | .ok canonicalOld =>
    match canonicalizeRepoPath nfc newPath with
    | .error error => (.error error, conn)
    | .ok canonicalNew =>
      if canonicalOld = canonicalNew then (.ok (), conn)
      else
        transaction AtlasError.db .propagate faults [renameFileGraph (faults.fetches 0) repo canonicalOld canonicalNew] () conn

def rewriteFileEdgesForRepo (repo path : String) (edges : List Edge) (conn : Connection Db) :
    Except AtlasError Unit × Connection Db :=
  match canonicalizeGraphSlice nfc path [] edges with
  | .error error => (.error error, conn)
  | .ok normal =>
    transaction AtlasError.db .propagate faults [rewriteFileEdges repo normal.path normal.edges] () conn

def replaceChunksForParsedFiles (repo : String) (files : List ParsedFile) (conn : Connection Db) :
    Except AtlasError Nat × Connection Db :=
  if files = [] then (.ok 0, conn)
  else
    transaction AtlasError.db .rollback faults (prepareChunks :: files.map (replaceChunks repo))
      (files.map fun file => file.nodes.length).sum conn

end

def ownerColumns : Option PackageOwner → OwnerColumns
  | none => {}
  | some owner =>
    { ownerId := some owner.ownerId
      ownerKind := some owner.kind.asStr
      ownerRoot := some owner.root
      ownerManifestPath := some owner.manifestPath
      ownerName := owner.packageName }

def upsertFileOwnerForRepo (repo path : String) (owner : Option PackageOwner) (db : Db) : Db :=
  { db with
    files := updateWhere (fun row => decide (row.sourceRepoId = repo ∧ row.path = path))
      (fun row => { row with owner := ownerColumns owner }) db.files }

/-! What each operation's body does to every table when no statement fails. -/

/-! ## Loops over rows -/

def insertNodeRows (repo : String) (nodes : List Node) (rows : List NodeRow) : List NodeRow :=
  nodes.foldl (fun current node =>
    insertOrReplace NodeRow.key (nodeRow repo (nextRowid NodeRow.id current) node) current) rows

def insertEdgeRows (repo : String) (extraJson : Edge → Json)
    (edges : List Edge) (rows : List EdgeRow) : List EdgeRow := edges.foldl (fun current edge =>
    current ++ [edgeRow repo (nextRowid EdgeRow.id current) (extraJson edge) edge]) rows

def edgeProvenanceJson (repo : String) (edge : Edge) : Json :=
  upsertRepoProvenanceJson edge.extraJson (edge.repoProvenance.getD (defaultRepoProvenance repo))
def insertNodeStatements (repo : String) (nodes : List Node) : List (Sql.Statement Db) :=
  nodes.flatMap fun node => [Statement.insertNode repo node, Statement.indexNode node]
def NodeRow.inFile (repo path : String) (row : NodeRow) : Bool :=
  decide (row.sourceRepoId = repo ∧ row.filePath = path)
def EdgeRow.inFile (repo path : String) (row : EdgeRow) : Bool :=
  decide (row.sourceRepoId = repo ∧ row.filePath = some path)
def EdgeRow.touches (repo : String) (names : List String) (row : EdgeRow) : Bool :=
  decide (row.sourceRepoId = repo ∧ (row.sourceQualified ∈ names ∨ row.targetQualified ∈ names))
def ChunkRow.isOf (repo : String) (names : List String) (row : ChunkRow) : Bool :=
  decide (row.sourceRepoId = repo ∧ row.nodeQn ∈ names)

theorem execAll_ftsDelete (documents : List FtsDocument) (db : Db) :
    execAll (documents.map Statement.ftsDelete) db =
      { db with nodesFts := db.nodesFts.filter fun other => decide (other ∉ documents) } := by
  induction documents generalizing db with
  | nil => simp
  | cons document rest ih =>
    rw [map_cons, execAll_cons, ih]
    simp only [Statement.ftsDelete, filter_filter, Db.mk.injEq, true_and, and_true]
    refine filter_congr fun other _ => ?_
    simp [Bool.and_comm]

theorem execAll_unindex (nodes : List Node) (db : Db) :
    execAll (nodes.map fun node => Statement.ftsDelete (nodeDocument node.id node)) db =
      { db with
        nodesFts := db.nodesFts.filter fun other =>
          decide (other ∉ nodes.map fun node => nodeDocument node.id node) } := by
  have unindexed := execAll_ftsDelete (nodes.map fun node => nodeDocument node.id node) db
  rwa [map_map] at unindexed

theorem execAll_deleteEdgesTouching (repo : String) (names : List String) (db : Db) :
    execAll (names.map (Statement.deleteEdgesTouching repo)) db =
      { db with edges := deleteWhere (EdgeRow.touches repo names) db.edges } := by
  induction names generalizing db with
  | nil => simp [deleteWhere, EdgeRow.touches]
  | cons name rest ih =>
    rw [map_cons, execAll_cons, ih]
    simp only [Statement.deleteEdgesTouching, deleteWhere, filter_filter, Db.mk.injEq, true_and, and_true]
    refine filter_congr fun row _ => ?_
    simp only [EdgeRow.touches, mem_cons]
    by_cases inRepo : row.sourceRepoId = repo <;> simp [inRepo]
    grind

theorem execAll_deleteChunksOfSymbol (repo : String) (names : List String) (db : Db) :
    execAll (names.map (Statement.deleteChunksOfSymbol repo)) db =
      { db with
        retrievalChunks := deleteWhere (ChunkRow.isOf repo names) db.retrievalChunks } := by
  induction names generalizing db with
  | nil => simp [deleteWhere, ChunkRow.isOf]
  | cons name rest ih =>
    rw [map_cons, execAll_cons, ih]
    simp only [Statement.deleteChunksOfSymbol, deleteWhere, filter_filter, Db.mk.injEq, true_and, and_true]
    refine filter_congr fun row _ => ?_
    simp only [ChunkRow.isOf, mem_cons]
    by_cases inRepo : row.sourceRepoId = repo <;> simp [inRepo]
    grind

theorem execAll_insertEdge (repo : String) (extraJson : Edge → Json) (edges : List Edge) (db : Db) :
    execAll (edges.map fun edge => Statement.insertEdge repo (extraJson edge) edge) db =
      { db with edges := insertEdgeRows repo extraJson edges db.edges } := by
  induction edges generalizing db with
  | nil => rfl
  | cons edge rest ih =>
    rw [map_cons, execAll_cons, ih]
    rfl

theorem execAll_insertNodeStatements (repo : String) (nodes : List Node) (db : Db) :
    ∃ documents rowid, execAll (insertNodeStatements repo nodes) db =
        { db with
          nodes := insertNodeRows repo nodes db.nodes
          nodesFts := documents
          lastInsertRowid := rowid } := by
  induction nodes generalizing db with
  | nil => exact ⟨db.nodesFts, db.lastInsertRowid, rfl⟩
  | cons node rest ih =>
    obtain ⟨documents, rowid, ran⟩ := ih (Statement.indexNode node (Statement.insertNode repo node db))
    refine ⟨documents, rowid, ?_⟩
    rw [insertNodeStatements, flatMap_cons, execAll_append]
    exact ran

section
variable (repo path hash : String)
  (language : Option String) (size : Option Nat) (nodes : List Node) (edges : List Edge) (db : Db)

def clearFile : Db :=
  let removed := removedNames (nodesOfFile repo path db) nodes
  { db with
    nodes := deleteWhere (NodeRow.inFile repo path) db.nodes
    nodesFts := db.nodesFts.filter fun other =>
      decide (other ∉ (nodesOfFile repo path db).map fun node => nodeDocument node.id node)
    edges := deleteWhere (EdgeRow.touches repo removed)
      (deleteWhere (EdgeRow.inFile repo path) db.edges)
    retrievalChunks := deleteWhere (ChunkRow.isOf repo removed) db.retrievalChunks }

theorem doReplaceFileGraph_eq :
    execAll (doReplaceFileGraph none repo path hash language size nodes edges db) db =
      execAll (edges.map fun edge => Statement.insertEdge repo (edgeProvenanceJson repo edge) edge)
        (execAll (insertNodeStatements repo nodes) (Statement.replaceFileRow repo path hash language
          size (clearFile repo path nodes db))) := by
  simp only [doReplaceFileGraph, fetched, execAll_append, execAll_cons, execAll_nil,
    execAll_unindex, execAll_deleteEdgesTouching, execAll_deleteChunksOfSymbol]
  rfl

theorem doReplaceFileGraph_tables : ∃ documents rowid,
    execAll (doReplaceFileGraph none repo path hash language size nodes edges db) db =
        { clearFile repo path nodes db with
          files := (Statement.replaceFileRow repo path hash language size db).files
          nodes := insertNodeRows repo nodes (clearFile repo path nodes db).nodes
          nodesFts := documents
          edges := insertEdgeRows repo (edgeProvenanceJson repo) edges
            (clearFile repo path nodes db).edges
          lastInsertRowid := rowid } := by
  obtain ⟨documents, rowid, ran⟩ := execAll_insertNodeStatements repo nodes
    (Statement.replaceFileRow repo path hash language size (clearFile repo path nodes db))
  refine ⟨documents, rowid, ?_⟩
  rw [doReplaceFileGraph_eq, ran, execAll_insertEdge]
  rfl

end

theorem nodesOfFile_eq (repo path : String) (db : Db) :
    nodesOfFile repo path db = (db.nodes.filter (NodeRow.inFile repo path)).map rowToNode := rfl

theorem deleteFileGraph_tables (repo path : String) (db : Db) :
    execAll (deleteFileGraph none repo path db) db =
      { clearFile repo path [] db with
        files := deleteWhere (fun row => decide (row.sourceRepoId = repo ∧ row.path = path))
          db.files } := by
  have removedAll : removedNames (nodesOfFile repo path db) [] =
    (nodesOfFile repo path db).map Node.qualifiedName := by simp [removedNames]
  simp only [deleteFileGraph, fetched, execAll_append, execAll_cons, execAll_nil, execAll_unindex, clearFile, removedAll]
  rfl

def renamedDocuments (repo oldPath newPath : String) (db : Db) : List FtsDocument :=
  (nodesOfFile repo oldPath db).map fun node =>
    { nodeDocument node.id node with filePath := newPath }

theorem execAll_ftsInsert (documents : List FtsDocument)
    (db : Db) (fresh : ∀ document ∈ documents, document ∉ db.nodesFts) (nodup : documents.Nodup) :
    execAll (documents.map Statement.ftsInsert) db =
      { db with nodesFts := db.nodesFts ++ documents } := by
  induction documents generalizing db with
  | nil => simp
  | cons document rest ih =>
    obtain ⟨notLater, restDistinct⟩ := nodup_cons.mp nodup
    have added : Statement.ftsInsert document db =
        { db with nodesFts := db.nodesFts ++ [document] } := by
      rw [Statement.ftsInsert, if_neg (fresh document mem_cons_self)]
    rw [map_cons, execAll_cons, added, ih _ _ restDistinct]
    · simp
    · intro other mem indexed
      rcases mem_append.mp indexed with old | new
      · exact fresh other (.tail _ mem) old
      · exact notLater (mem_singleton.mp new ▸ mem)

/-- The tables of a rename, before the documents of the moved nodes are indexed
again. -/
def moveFile (repo oldPath newPath : String) (db : Db) : Db :=
  { db with
    nodes := updateWhere (NodeRow.inFile repo oldPath)
      (fun row => { row with filePath := newPath }) db.nodes
    nodesFts := db.nodesFts.filter fun other =>
      decide (other ∉ (nodesOfFile repo oldPath db).map fun node => nodeDocument node.id node)
    edges := updateWhere (EdgeRow.inFile repo oldPath)
      (fun row => { row with filePath := some newPath }) db.edges
    files := deleteWhere (fun row => decide (row.sourceRepoId = repo ∧ row.path = oldPath))
      ((db.files.filter fun row => decide (row.sourceRepoId = repo ∧ row.path = oldPath)).foldl
        (fun files row => insertOrReplace FileRow.key { row with path := newPath } files) db.files) }

theorem renameFileGraph_eq (repo oldPath newPath : String) (db : Db) :
    execAll (renameFileGraph none repo oldPath newPath db) db =
      execAll ((renamedDocuments repo oldPath newPath db).map Statement.ftsInsert) (moveFile repo oldPath newPath db) := by
  rw [renamedDocuments, map_map]
  simp only [renameFileGraph, fetched, execAll_append, execAll_cons, execAll_nil, execAll_unindex]
  rfl

/-! ## Replacing retrieval chunks -/

def upsertChunkRow (repo : String) (rows : List ChunkRow) (node : Node) : List ChunkRow :=
  insertOrUpdate ChunkRow.key (fun row => { row with text := node.chunkText })
    { id := nextRowid ChunkRow.id rows, sourceRepoId := repo, nodeQn := node.qualifiedName,
      chunkIdx := 0, text := node.chunkText, embedding := none } rows

def replaceChunkRows (repo : String)
    (names : List String) (nodes : List Node) (rows : List ChunkRow) : List ChunkRow :=
  nodes.foldl (upsertChunkRow repo) (deleteWhere (ChunkRow.isOf repo names) rows)

theorem execAll_replaceChunks (repo : String) (file : ParsedFile) (db : Db) :
    execAll (replaceChunks repo file db) db =
      { db with
        retrievalChunks := replaceChunkRows repo
          ((nodesOfFile repo file.path db).map Node.qualifiedName) file.nodes db.retrievalChunks } := by
  have upserts : ∀ (nodes : List Node) (current : Db), execAll (nodes.map fun node current =>
        { current with retrievalChunks := upsertChunkRow repo current.retrievalChunks node }) current =
        { current with
          retrievalChunks := nodes.foldl (upsertChunkRow repo) current.retrievalChunks } := by
    intro nodes
    induction nodes with
    | nil => exact fun _ => rfl
    | cons node rest ih =>
      intro current
      rw [map_cons, execAll_cons, ih]
      rfl
  simp only [replaceChunks, execAll_append, execAll_cons, execAll_nil]
  exact upserts file.nodes _

theorem runBlocks_replaceChunks (repo : String) (files : List ParsedFile) (db : Db) :
    runBlocks (prepareChunks :: files.map (replaceChunks repo)) db =
      { db with
        retrievalChunks := files.foldl (fun rows file => replaceChunkRows repo
          ((nodesOfFile repo file.path db).map Node.qualifiedName) file.nodes rows)
            db.retrievalChunks } := by
  rw [runBlocks_cons]
  change runBlocks (files.map (replaceChunks repo)) db = _
  induction files generalizing db with
  | nil => rfl
  | cons file rest ih =>
    rw [map_cons, runBlocks_cons, execAll_replaceChunks, ih]
    rfl

end Atlas.Store
