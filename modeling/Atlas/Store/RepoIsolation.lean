import Atlas.Store.Runs

/-! A store shared by several repositories: an operation on one of them leaves the rows
of the others alone, and one that cannot tell them apart does nothing. -/
namespace Atlas.Store
open List Core Sql

/-- A single statement, which runs inside the open transaction if there is one. -/
def upsertFileOwnerRow (nfc : String → String) (faults : FaultPlan)
    (repo path : String) (owner : Option PackageOwner) (connection : Connection Db) :
    Except AtlasError Unit × Connection Db :=
  match canonicalizeRepoPath nfc path with
  | .error error => (.error error, connection)
  | .ok canonical =>
    match faults.statement 0 with
    | some msg => (.error (.db msg), connection)
    | none =>
      match connection.pending with
      | none =>
        (.ok (), { connection with
          committed := upsertFileOwnerForRepo repo canonical owner connection.committed })
      | some working =>
        (.ok (), { connection with
          pending := some (upsertFileOwnerForRepo repo canonical owner working) })

def pseudoRepoIds : List String := ["legacy", "registry"]

/-- `SELECT DISTINCT source_repo_id .. LIMIT 2`: an answer only if there is exactly one. -/
def singleSourceRepoIdForPath (db : Db) (path : String) : Option String :=
  match (((db.files.filter fun row =>
      decide (row.path = path ∧ row.sourceRepoId ∉ pseudoRepoIds)).map FileRow.sourceRepoId).dedup).take 2 with
  | [repo] => some repo
  | _ => none

section
variable (nfc : String → String) (faults : FaultPlan)

def resolvingRepo (path : String)
    (act : String → String → Connection Db → Except AtlasError Unit × Connection Db)
    (connection : Connection Db) : Except AtlasError Unit × Connection Db :=
  match canonicalizeRepoPath nfc path with
  | .error error => (.error error, connection)
  | .ok canonical =>
    match singleSourceRepoIdForPath connection.visible canonical with
    | some repo => act repo canonical connection
    | none => (.ok (), connection)

def deleteFileGraphUnscoped (path : String) :
    Connection Db → Except AtlasError Unit × Connection Db :=
  resolvingRepo nfc path fun repo canonical => deleteFileGraphForRepo nfc faults repo canonical

def renameFileGraphUnscoped (oldPath newPath : String) :
    Connection Db → Except AtlasError Unit × Connection Db :=
  resolvingRepo nfc oldPath fun repo canonical => renameFileGraphForRepo nfc faults repo canonical newPath

def upsertFileOwnerUnscoped (path : String) (owner : Option PackageOwner) :
    Connection Db → Except AtlasError Unit × Connection Db :=
  resolvingRepo nfc path fun repo canonical => upsertFileOwnerRow nfc faults repo canonical owner

end

section
variable (repo : String)

def FileRow.isForeign (row : FileRow) : Bool := decide (row.sourceRepoId ≠ repo)
def NodeRow.isForeign (row : NodeRow) : Bool := decide (row.sourceRepoId ≠ repo)
def EdgeRow.isForeign (row : EdgeRow) : Bool := decide (row.sourceRepoId ≠ repo)
def ChunkRow.isForeign (row : ChunkRow) : Bool := decide (row.sourceRepoId ≠ repo)

/-- Whether a document is filed under the row id of a node of another repository. -/
def FtsDocument.isForeign (db : Db) (document : FtsDocument) : Bool :=
  decide (document.rowid ∈ (db.nodes.filter (NodeRow.isForeign repo)).map NodeRow.id)

/-- No row of another repository has changed, in any table. -/
structure Untouched (before after : Db) : Prop where
  files : after.files.filter (FileRow.isForeign repo) = before.files.filter (FileRow.isForeign repo)
  nodes : after.nodes.filter (NodeRow.isForeign repo) = before.nodes.filter (NodeRow.isForeign repo)
  edges : after.edges.filter (EdgeRow.isForeign repo) = before.edges.filter (EdgeRow.isForeign repo)
  chunks : after.retrievalChunks.filter (ChunkRow.isForeign repo) = before.retrievalChunks.filter (ChunkRow.isForeign repo)
  documents : after.nodesFts.filter (FtsDocument.isForeign repo before) =
    before.nodesFts.filter (FtsDocument.isForeign repo before)

structure Isolated (before db : Db) : Prop extends Untouched repo before db where
  ids : (db.nodes.map NodeRow.id).Nodup

end

section
variable {repo : String} {before db : Db}

section
variable (isolated : Isolated repo before db)
include isolated

theorem Isolated.of_same {after : Db}
    (files : after.files.filter (FileRow.isForeign repo) = db.files.filter (FileRow.isForeign repo))
    (edges : after.edges.filter (EdgeRow.isForeign repo) = db.edges.filter (EdgeRow.isForeign repo))
    (chunks : after.retrievalChunks.filter (ChunkRow.isForeign repo) = db.retrievalChunks.filter (ChunkRow.isForeign repo))
    (nodes : after.nodes = db.nodes) (documents : after.nodesFts = db.nodesFts) :
    Isolated repo before after where
  files := files.trans isolated.files
  nodes := by rw [nodes]; exact isolated.nodes
  edges := edges.trans isolated.edges
  chunks := chunks.trans isolated.chunks
  documents := by rw [documents]; exact isolated.documents
  ids := by rw [nodes]; exact isolated.ids

/-! ### Statements on files, edges and chunks -/

theorem Isolated.withFiles {files : List FileRow}
    (same : files.filter (FileRow.isForeign repo) = db.files.filter (FileRow.isForeign repo)) :
    Isolated repo before { db with files := files } :=
  isolated.of_same same rfl rfl rfl rfl

theorem Isolated.withEdges {edges : List EdgeRow}
    (same : edges.filter (EdgeRow.isForeign repo) = db.edges.filter (EdgeRow.isForeign repo)) :
    Isolated repo before { db with edges := edges } :=
  isolated.of_same rfl same rfl rfl rfl

theorem Isolated.withChunks {chunks : List ChunkRow} (same :
    chunks.filter (ChunkRow.isForeign repo) = db.retrievalChunks.filter (ChunkRow.isForeign repo)) :
    Isolated repo before { db with retrievalChunks := chunks } :=
  isolated.of_same rfl rfl same rfl rfl

theorem Isolated.deleteEdges {selects : EdgeRow → Bool}
    (own : ∀ row, selects row = true → row.sourceRepoId = repo) :
    Isolated repo before { db with edges := deleteWhere selects db.edges } := by
  refine isolated.withEdges (filter_deleteWhere ?_ _)
  intro row foreign
  cases selected : selects row with
  | false => rfl
  | true => exact absurd (own row selected) (by simpa [EdgeRow.isForeign] using foreign)

theorem Isolated.deleteChunks {selects : ChunkRow → Bool}
    (own : ∀ row, selects row = true → row.sourceRepoId = repo) :
    Isolated repo before { db with retrievalChunks := deleteWhere selects db.retrievalChunks } := by
  refine isolated.withChunks (filter_deleteWhere ?_ _)
  intro row foreign
  cases selected : selects row with
  | false => rfl
  | true => exact absurd (own row selected) (by simpa [ChunkRow.isForeign] using foreign)

theorem Isolated.insertEdge (extraJson : Json) (edge : Edge) :
    Isolated repo before (Statement.insertEdge repo extraJson edge db) := by
  refine isolated.withEdges ?_
  simp [filter_append, EdgeRow.isForeign, edgeRow]

theorem Isolated.upsertChunk (node : Node) : Isolated repo before
      { db with retrievalChunks := upsertChunkRow repo db.retrievalChunks node } := by
  refine isolated.withChunks (filter_insertOrUpdate ?_ ?_ _)
  · exact fun _ => rfl
  · intro other same
    have own : other.sourceRepoId = repo := congrArg Prod.fst same
    simp [ChunkRow.isForeign, own]

theorem Isolated.replaceFileRow (path hash : String)
    (language : Option String) (size : Option Nat) :
    Isolated repo before (Statement.replaceFileRow repo path hash language size db) := by
  refine isolated.withFiles (filter_insertOrReplace ?_ _)
  intro other same
  have own : other.sourceRepoId = repo := congrArg Prod.fst same
  simp [FileRow.isForeign, own]

theorem Isolated.deleteFileRow (path : String) :
    Isolated repo before (Statement.deleteFileRow repo path db) := by
  refine isolated.withFiles (filter_deleteWhere ?_ _)
  intro row foreign
  have apart : row.sourceRepoId ≠ repo := by simpa [FileRow.isForeign] using foreign
  simp [apart]

theorem Isolated.moveFileRows (oldPath newPath : String) :
    Isolated repo before { db with
      files := (db.files.filter fun row =>
        decide (row.sourceRepoId = repo ∧ row.path = oldPath)).foldl
          (fun files row => insertOrReplace FileRow.key { row with path := newPath } files)
          db.files } := by
  refine isolated.withFiles ?_
  have moved : ∀ row ∈ db.files.filter fun row =>
      decide (row.sourceRepoId = repo ∧ row.path = oldPath), row.sourceRepoId = repo := by
    intro row mem
    exact (of_decide_eq_true (mem_filter.mp mem).2).1
  generalize db.files.filter (fun row => decide (row.sourceRepoId = repo ∧ row.path = oldPath)) = rows
    at moved
  generalize db.files = files
  induction rows generalizing files with
  | nil => rfl
  | cons row rest ih =>
    rw [foldl_cons, ih (fun other mem => moved other (mem_cons_of_mem _ mem))]
    refine filter_insertOrReplace ?_ _
    intro other same
    have own : other.sourceRepoId = repo := (congrArg Prod.fst same).trans (moved row (.head _))
    simp [FileRow.isForeign, own]

theorem Isolated.upsertFileOwner (path : String) (owner : Option PackageOwner) :
    Isolated repo before (upsertFileOwnerForRepo repo path owner db) := by
  refine isolated.withFiles (filter_updateWhere ?_ _)
  intro row selected
  have own : row.sourceRepoId = repo := (of_decide_eq_true selected).1
  simp [FileRow.isForeign, own]

end

/-! ### Statements on nodes and their documents -/

variable {document : FtsDocument}

section
variable (isolated : Isolated repo before db)
include isolated

theorem Isolated.not_foreign {row : NodeRow} (mem : row ∈ db.nodes) (own : row.sourceRepoId = repo)
    (filed : document.rowid = row.id) : FtsDocument.isForeign repo before document = false := by
  rw [FtsDocument.isForeign, ← isolated.nodes, decide_eq_false_iff_not, filed]
  intro foreign
  obtain ⟨other, isForeign, same⟩ := mem_map.mp foreign
  obtain ⟨inNodes, apart⟩ := mem_filter.mp isForeign
  have sameRow := inj_on_of_nodup_map isolated.ids inNodes mem same
  rw [sameRow, NodeRow.isForeign, own] at apart
  simp at apart

theorem Isolated.ftsDelete (own : FtsDocument.isForeign repo before document = false) :
    Isolated repo before (Statement.ftsDelete document db) := by
  refine ⟨⟨isolated.files, isolated.nodes, isolated.edges, isolated.chunks, ?_⟩, isolated.ids⟩
  rw [← isolated.documents]
  unfold Statement.ftsDelete
  rw [filter_filter]
  refine filter_congr fun other _ => ?_
  by_cases same : other = document
  · simp [same, own]
  · simp [same]

theorem Isolated.ftsInsert (own : FtsDocument.isForeign repo before document = false) :
    Isolated repo before (Statement.ftsInsert document db) := by
  refine ⟨⟨isolated.files, isolated.nodes, isolated.edges, isolated.chunks, ?_⟩, isolated.ids⟩
  rw [← isolated.documents]
  simp only [Statement.ftsInsert]
  split
  · rfl
  · simp [filter_append, own]

theorem Isolated.deleteNodesOfFile (path : String) :
    Isolated repo before (Statement.deleteNodesOfFile repo path db) := by
  refine ⟨⟨isolated.files, ?_, isolated.edges, isolated.chunks, isolated.documents⟩, ?_⟩
  · rw [← isolated.nodes]
    refine filter_deleteWhere ?_ _
    intro row foreign
    have apart : row.sourceRepoId ≠ repo := by simpa [NodeRow.isForeign] using foreign
    simp [apart]
  · exact isolated.ids.sublist (filter_sublist.map _)

theorem Isolated.moveNodes (oldPath newPath : String) :
    Isolated repo before { db with
      nodes := updateWhere (fun row => decide (row.sourceRepoId = repo ∧ row.filePath = oldPath))
        (fun row => { row with filePath := newPath }) db.nodes } := by
  refine ⟨⟨isolated.files, ?_, isolated.edges, isolated.chunks, isolated.documents⟩, ?_⟩
  · rw [← isolated.nodes]
    refine filter_updateWhere ?_ _
    intro row selected
    have own : row.sourceRepoId = repo := (of_decide_eq_true selected).1
    simp [NodeRow.isForeign, own]
  · have kept := @map_updateWhere _ _ (fun row : NodeRow =>
      decide (row.sourceRepoId = repo ∧ row.filePath = oldPath))
      (fun row => { row with filePath := newPath }) NodeRow.id (fun _ => rfl) db.nodes
    rw [kept]
    exact isolated.ids

theorem Isolated.insertNode (node : Node) :
    Isolated repo before (Statement.insertNode repo node db) := by
  refine ⟨⟨isolated.files, ?_, isolated.edges, isolated.chunks, isolated.documents⟩, ?_⟩
  · rw [← isolated.nodes]
    refine filter_insertOrReplace ?_ _
    intro other same
    have own : other.sourceRepoId = repo := congrArg Prod.fst same
    simp [NodeRow.isForeign, own]
  · simp only [Statement.insertNode, insertOrReplace, map_append, map_cons, map_nil]
    refine List.Nodup.append (isolated.ids.sublist (filter_sublist.map _)) (nodup_singleton _) ?_
    intro id used new
    obtain ⟨row, mem, rfl⟩ := mem_map.mp used
    have bounded := rowid_lt_nextRowid NodeRow.id (mem_deleteWhere.mp mem).1
    have sameId : row.id = nextRowid NodeRow.id db.nodes := by simpa [nodeRow] using new
    omega

theorem Isolated.indexNode (node : Node) :
    Isolated repo before (Statement.indexNode node (Statement.insertNode repo node db)) := by
  have inserted := isolated.insertNode node
  refine inserted.ftsInsert ?_
  have mem : nodeRow repo (nextRowid NodeRow.id db.nodes) node ∈
    (Statement.insertNode repo node db).nodes := mem_insertOrReplace.mpr (.inr rfl)
  exact inserted.not_foreign mem rfl rfl

end

theorem mem_fetched {Row : Type} {limit : Option Nat}
    {rows : List Row} {row : Row} (mem : row ∈ fetched limit rows) : row ∈ rows := by
  cases limit with
  | none => exact mem
  | some limit => exact mem_of_mem_take mem

theorem Isolated.unindex (isolated : Isolated repo before db) (limit : Option Nat) (path : String) :
    ∀ statement ∈ (fetched limit (nodesOfFile repo path db)).map fun node =>
      Statement.ftsDelete (nodeDocument node.id node),
      ∀ current, Isolated repo before current → Isolated repo before (statement current) := by
  intro statement mem current holds
  obtain ⟨node, read, rfl⟩ := mem_map.mp mem
  obtain ⟨row, inFile, rfl⟩ := mem_map.mp (mem_fetched read)
  obtain ⟨inNodes, selected⟩ := mem_filter.mp inFile
  exact holds.ftsDelete (isolated.not_foreign inNodes (of_decide_eq_true selected).1 rfl)

theorem doReplaceFileGraph_isolated (limit : Option Nat) (path hash : String)
    (language : Option String) (size : Option Nat) (nodes : List Node) (edges : List Edge)
    (isolated : Isolated repo before db) :
    Keeps (Isolated repo before) (doReplaceFileGraph limit repo path hash language size nodes edges db) := by
  unfold doReplaceFileGraph
  refine .append (.append (.append (.append (.append (.append (.append (.append ?_ ?_) ?_) ?_) ?_) ?_) ?_) ?_) ?_
  · exact .single fun _ holds => holds
  · exact .of_each (isolated.unindex limit path)
  · refine .single fun current holds => holds.deleteEdges ?_
    intro row selected
    exact (of_decide_eq_true selected).1
  · refine .of_each fun statement mem current holds => ?_
    obtain ⟨name, _, rfl⟩ := mem_map.mp mem
    refine holds.deleteEdges ?_
    intro row selected
    exact (of_decide_eq_true selected).1
  · exact .single fun current holds => holds.deleteNodesOfFile path
  · refine .of_each fun statement mem current holds => ?_
    obtain ⟨name, _, rfl⟩ := mem_map.mp mem
    refine holds.deleteChunks ?_
    intro row selected
    exact (of_decide_eq_true selected).1
  · exact .single fun current holds => holds.replaceFileRow path hash language size
  · refine .flatMap nodes fun node _ => .pair ?_ ?_
    · exact fun current holds => holds.insertNode node
    · exact fun current holds => holds.indexNode node
  · refine .of_each fun statement mem current holds => ?_
    obtain ⟨edge, _, rfl⟩ := mem_map.mp mem
    exact holds.insertEdge _ edge

theorem deleteFileGraph_isolated (limit : Option Nat)
    (path : String) (isolated : Isolated repo before db) :
    Keeps (Isolated repo before) (deleteFileGraph limit repo path db) := by
  unfold deleteFileGraph
  refine .append (.append ?_ (.of_each (isolated.unindex limit path))) (.of_each ?_)
  · exact .single fun _ holds => holds
  · intro statement mem current holds
    simp only [mem_cons, not_mem_nil, or_false] at mem
    rcases mem with rfl | rfl | rfl | rfl | rfl
    · refine holds.deleteEdges ?_
      intro row selected
      exact (of_decide_eq_true selected).1
    · refine holds.deleteEdges ?_
      intro row selected
      exact (of_decide_eq_true selected).1
    · refine holds.deleteChunks ?_
      intro row selected
      exact (of_decide_eq_true selected).1
    · exact holds.deleteNodesOfFile path
    · exact holds.deleteFileRow path

theorem renameFileGraph_isolated (limit : Option Nat)
    (oldPath newPath : String) (isolated : Isolated repo before db) :
    Keeps (Isolated repo before) (renameFileGraph limit repo oldPath newPath db) := by
  unfold renameFileGraph
  refine .append (.append (.append ?_ (.of_each (isolated.unindex limit oldPath))) (.of_each ?_)) (.of_each ?_)
  · exact .single fun _ holds => holds
  · intro statement mem current holds
    simp only [mem_cons, not_mem_nil, or_false] at mem
    rcases mem with rfl | rfl | rfl | rfl
    · exact holds.moveNodes oldPath newPath
    · refine holds.withEdges (filter_updateWhere ?_ _)
      intro row selected
      have own : row.sourceRepoId = repo := (of_decide_eq_true selected).1
      simp [EdgeRow.isForeign, own]
    · exact holds.moveFileRows oldPath newPath
    · exact holds.deleteFileRow oldPath
  · intro statement mem current holds
    obtain ⟨node, read, rfl⟩ := mem_map.mp mem
    obtain ⟨row, inFile, rfl⟩ := mem_map.mp (mem_fetched read)
    obtain ⟨inNodes, selected⟩ := mem_filter.mp inFile
    exact holds.ftsInsert (isolated.not_foreign inNodes (of_decide_eq_true selected).1 rfl)

theorem rewriteFileEdges_isolated (path : String) (edges : List Edge) (db : Db) :
    Keeps (Isolated repo before) (rewriteFileEdges repo path edges db) := by
  unfold rewriteFileEdges
  refine .append (.single fun current holds => holds.deleteEdges ?_) (.of_each ?_)
  · intro row selected
    exact (of_decide_eq_true selected).1
  · intro statement mem current holds
    obtain ⟨edge, _, rfl⟩ := mem_map.mp mem
    exact holds.insertEdge _ edge

theorem replaceChunks_isolated (file : ParsedFile) (db : Db) :
    Keeps (Isolated repo before) (replaceChunks repo file db) := by
  unfold replaceChunks
  refine .append (.single fun current holds => holds.deleteChunks ?_) (.of_each ?_)
  · intro row selected
    exact (of_decide_eq_true selected).1
  · intro statement mem current holds
    obtain ⟨node, _, rfl⟩ := mem_map.mp mem
    exact holds.upsertChunk node

end

def Call.repo : Call → String
  | .replaceFileGraph repo _ _ _ _ _ _ => repo
  | .replaceFilesTransactional repo _ => repo
  | .deleteFileGraph repo _ => repo
  | .renameFileGraph repo _ _ => repo
  | .rewriteFileEdges repo _ _ => repo
  | .replaceChunks repo _ => repo

inductive RepoCall where
  | transactional (call : Call)
  | upsertFileOwner (repo path : String) (owner : Option PackageOwner)

def RepoCall.repo : RepoCall → String
  | .transactional call => call.repo
  | .upsertFileOwner repo _ _ => repo

inductive UnscopedCall where
  | deleteFileGraph (path : String)
  | renameFileGraph (oldPath newPath : String)
  | upsertFileOwner (path : String) (owner : Option PackageOwner)

def UnscopedCall.path : UnscopedCall → String
  | .deleteFileGraph path => path
  | .renameFileGraph oldPath _ => oldPath
  | .upsertFileOwner path _ => path

section
variable (nfc : String → String) (faults : FaultPlan) (db : Db)

def RepoCall.perform : RepoCall → Except AtlasError Unit × Connection Db
  | .transactional call => call.perform nfc faults db
  | .upsertFileOwner repo path owner => upsertFileOwnerRow nfc faults repo path owner ⟨db, none⟩

def UnscopedCall.perform : UnscopedCall → Except AtlasError Unit × Connection Db
  | .deleteFileGraph path => deleteFileGraphUnscoped nfc faults path ⟨db, none⟩
  | .renameFileGraph oldPath newPath => renameFileGraphUnscoped nfc faults oldPath newPath ⟨db, none⟩
  | .upsertFileOwner path owner => upsertFileOwnerUnscoped nfc faults path owner ⟨db, none⟩

end

section
variable {nfc : String → String} {faults : FaultPlan} {db : Db}

theorem Isolated.refl {repo : String} (ids : (db.nodes.map NodeRow.id).Nodup) :
    Isolated repo db db := ⟨⟨rfl, rfl, rfl, rfl, rfl⟩, ids⟩

theorem Call.isolated (ids : (db.nodes.map NodeRow.id).Nodup) (call : Call) :
    let connection := (call.perform nfc faults db).2
    Isolated call.repo db connection.committed ∧ Isolated call.repo db connection.visible := by
  have start : ∀ repo, Isolated repo db db := fun _ => .refl ids
  cases call with
  | replaceFileGraph repo path hash language size nodes edges =>
    simp only [Call.perform, replaceFileGraphForRepo]
    cases canonicalizeGraphSlice nfc path nodes edges with
    | error error => exact ⟨start repo, start repo⟩
    | ok slice =>
      refine transaction_invariant ?_ (start repo)
      intro block mem current holds
      rw [mem_singleton.mp mem]
      exact doReplaceFileGraph_isolated _ _ _ _ _ _ _ holds
  | replaceFilesTransactional repo files =>
    simp only [Call.perform, replaceFilesTransactionalForRepo, discard]
    by_cases empty : files = []
    · simp only [empty, if_true]
      exact ⟨start repo, start repo⟩
    · simp only [empty, if_false]
      cases files.mapM (canonicalizeParsedFile nfc) with
      | error error => exact ⟨start repo, start repo⟩
      | ok normal =>
        refine transaction_invariant ?_ (start repo)
        intro block mem current holds
        obtain ⟨index, bounded, rfl⟩ := mem_mapIdx.mp mem
        exact doReplaceFileGraph_isolated _ _ _ _ _ _ _ holds
  | deleteFileGraph repo path =>
    simp only [Call.perform, deleteFileGraphForRepo]
    cases canonicalizeRepoPath nfc path with
    | error error => exact ⟨start repo, start repo⟩
    | ok canonical =>
      refine transaction_invariant ?_ (start repo)
      intro block mem current holds
      rw [mem_singleton.mp mem]
      exact deleteFileGraph_isolated _ _ holds
  | renameFileGraph repo oldPath newPath =>
    simp only [Call.perform, renameFileGraphForRepo]
    cases canonicalizeRepoPath nfc oldPath with
    | error error => exact ⟨start repo, start repo⟩
    | ok canonicalOld =>
      cases canonicalizeRepoPath nfc newPath with
      | error error => exact ⟨start repo, start repo⟩
      | ok canonicalNew =>
        by_cases same : canonicalOld = canonicalNew
        · simp only [same, if_true]
          exact ⟨start repo, start repo⟩
        · simp only [same, if_false]
          refine transaction_invariant ?_ (start repo)
          intro block mem current holds
          rw [mem_singleton.mp mem]
          exact renameFileGraph_isolated _ _ _ holds
  | rewriteFileEdges repo path edges =>
    simp only [Call.perform, rewriteFileEdgesForRepo]
    cases canonicalizeGraphSlice nfc path [] edges with
    | error error => exact ⟨start repo, start repo⟩
    | ok slice =>
      refine transaction_invariant ?_ (start repo)
      intro block mem current holds
      rw [mem_singleton.mp mem]
      exact rewriteFileEdges_isolated _ _ _
  | replaceChunks repo files =>
    simp only [Call.perform, replaceChunksForParsedFiles, discard]
    by_cases empty : files = []
    · simp only [empty, if_true]
      exact ⟨start repo, start repo⟩
    · simp only [empty, if_false]
      refine transaction_invariant ?_ (start repo)
      intro block mem current holds
      rcases mem_cons.mp mem with rfl | inFiles
      · exact .of_each (by simp [prepareChunks, Statement.prepare])
      · obtain ⟨file, _, rfl⟩ := mem_map.mp inFiles
        exact replaceChunks_isolated file current

theorem RepoCall.isolated (ids : (db.nodes.map NodeRow.id).Nodup) (call : RepoCall) :
    let connection := (call.perform nfc faults db).2
    Isolated call.repo db connection.committed ∧ Isolated call.repo db connection.visible := by
  cases call with
  | transactional call => exact call.isolated ids
  | upsertFileOwner repo path owner =>
    have start : Isolated repo db db := .refl ids
    simp only [RepoCall.perform, upsertFileOwnerRow]
    cases canonicalizeRepoPath nfc path with
    | error error => exact ⟨start, start⟩
    | ok canonical =>
      cases faults.statement 0 with
      | some msg => exact ⟨start, start⟩
      | none => exact ⟨start.upsertFileOwner canonical owner, start.upsertFileOwner canonical owner⟩

/-! ## Ambiguous paths -/

def Owns (db : Db) (path repo : String) : Prop :=
  repo ∉ pseudoRepoIds ∧ ∃ row ∈ db.files, row.path = path ∧ row.sourceRepoId = repo

variable {first second : String}

theorem singleSourceRepoIdForPath_ambiguous {path : String}
    (owns : Owns db path first) (alsoOwns : Owns db path second) (apart : first ≠ second) :
    singleSourceRepoIdForPath db path = none := by
  have listed : ∀ repo, Owns db path repo → repo ∈ ((db.files.filter fun row =>
      decide (row.path = path ∧ row.sourceRepoId ∉ pseudoRepoIds)).map FileRow.sourceRepoId).dedup := by
    intro repo ⟨stable, row, mem, samePath, sameRepo⟩
    refine mem_dedup.mpr (mem_map.mpr ⟨row, mem_filter.mpr ⟨mem, ?_⟩, sameRepo⟩)
    simp [samePath, sameRepo, stable]
  have early := listed first owns
  have late := listed second alsoOwns
  unfold singleSourceRepoIdForPath
  generalize ((db.files.filter fun row =>
    decide (row.path = path ∧ row.sourceRepoId ∉ pseudoRepoIds)).map FileRow.sourceRepoId).dedup = ids
    at early late
  match ids with
  | [] => rfl
  | [only] =>
    rw [mem_singleton] at early late
    exact absurd (early.trans late.symm) apart
  | _ :: _ :: _ => rfl

theorem resolvingRepo_ambiguous {path : String}
    {act : String → String → Connection Db → Except AtlasError Unit × Connection Db}
    (ambiguous : ∀ canonical, canonicalizeRepoPath nfc path = .ok canonical →
      Owns db canonical first ∧ Owns db canonical second) (apart : first ≠ second) :
    (resolvingRepo nfc path act ⟨db, none⟩).2 = ⟨db, none⟩ := by
  unfold resolvingRepo
  cases located : canonicalizeRepoPath nfc path with
  | error error => rfl
  | ok canonical =>
    obtain ⟨owns, alsoOwns⟩ := ambiguous canonical located
    have unresolved := singleSourceRepoIdForPath_ambiguous owns alsoOwns apart
    simp only [Connection.visible, Option.getD_none, unresolved]

theorem UnscopedCall.ambiguous (call : UnscopedCall)
    (ambiguous : ∀ canonical, canonicalizeRepoPath nfc call.path = .ok canonical →
      Owns db canonical first ∧ Owns db canonical second) (apart : first ≠ second) :
    (call.perform nfc faults db).2 = ⟨db, none⟩ := by
  cases call with
  | deleteFileGraph path | renameFileGraph oldPath newPath | upsertFileOwner path owner =>
    exact resolvingRepo_ambiguous ambiguous apart

end

/-- An operation on one repository leaves the others alone, whatever fails on the way,
and one that finds its path in two repositories changes nothing. -/
theorem repositories_isolated (nfc : String → String)
    (faults : FaultPlan) (db : Db) (ids : (db.nodes.map NodeRow.id).Nodup) :
    (∀ call : RepoCall, Untouched call.repo db (call.perform nfc faults db).2.committed ∧
      Untouched call.repo db (call.perform nfc faults db).2.visible) ∧
      ∀ (call : UnscopedCall) (first second : String),
        (∀ canonical, canonicalizeRepoPath nfc call.path = .ok canonical → Owns db canonical first ∧
        Owns db canonical second) → first ≠ second →
        (call.perform nfc faults db).2 = ⟨db, none⟩ := by
  constructor
  · intro call
    obtain ⟨committed, visible⟩ := call.isolated ids
    exact ⟨committed.toUntouched, visible.toUntouched⟩
  · intro call first second ambiguous apart
    exact call.ambiguous ambiguous apart

def sharedStore : Db := run id [writeFunction "a.rs",
    .replaceFileGraph "other" "a.rs" "h" none none [functionNode "a.rs" "f"] []] Db.empty

theorem sharedStore_isolated :
    Untouched "repo" sharedStore ((RepoCall.transactional (.deleteFileGraph "repo" "a.rs")).perform
      id .faultless sharedStore).2.committed ∧
      ((UnscopedCall.deleteFileGraph "a.rs").perform id .faultless sharedStore).2 = ⟨sharedStore, none⟩ := by
  obtain ⟨told, untold⟩ := repositories_isolated id .faultless sharedStore (by decide)
  have deleted := (told (.transactional (.deleteFileGraph "repo" "a.rs"))).1
  refine ⟨deleted, untold (.deleteFileGraph "a.rs") "repo" "other" ?_ (by decide)⟩
  intro canonical located
  have same : canonicalizeRepoPath id "a.rs" = .ok "a.rs" := by decide
  rw [UnscopedCall.path, same] at located
  cases located
  exact ⟨⟨by decide, by decide⟩, by decide, by decide⟩

end Atlas.Store
