import Atlas.Store.Runs

/-! The hand-maintained full-text index against the node table. -/
namespace Atlas.Store
open List Core Sql

variable {db : Db} {repo : String} {nfc : String → String}

/-- One document for every node row, with the same row id and columns, and none
besides. -/
def Mirrors (db : Db) : Prop :=
  db.nodesFts.Perm (db.nodes.map NodeRow.document) ∧ (db.nodesFts.map FtsDocument.rowid).Nodup

instance (db : Db) : Decidable (Mirrors db) := inferInstanceAs (Decidable (_ ∧ _))

def holdings (repo : String) (db : Db) : List (String × String) := (db.nodes.filter fun row =>
    decide (row.sourceRepoId = repo)).map fun row => (row.filePath, row.qualifiedName)
def NamesFree (held : List (String × String)) (path : String) (names : List String) : Prop :=
  names.Nodup ∧ ∀ holding ∈ held, holding.1 ≠ path → holding.2 ∉ names
def hold (path : String)
    (names : List String) (held : List (String × String)) : List (String × String) :=
  (held.filter fun holding => decide (holding.1 ≠ path)) ++ names.map fun name => (path, name)

def BatchFree : List (String × String) → List ParsedFile → Prop
  | _, [] => True
  | held, file :: rest =>
    NamesFree held file.path (file.nodes.map Node.qualifiedName) ∧
      BatchFree (hold file.path (file.nodes.map Node.qualifiedName) held) rest

def Mutation.WritesFreeNames (nfc : String → String) (db : Db) : Mutation → Prop
  | .replaceFileGraph repo path _ _ _ nodes edges =>
    IfAccepted (canonicalizeGraphSlice nfc path nodes edges) fun slice =>
      NamesFree (holdings repo db) slice.path (slice.nodes.map Node.qualifiedName)
  | .replaceFilesTransactional repo files =>
    IfAccepted (files.mapM (canonicalizeParsedFile nfc)) (BatchFree (holdings repo db))
  | .deleteFileGraph _ _ => True
  | .renameFileGraph _ _ _ => True

def AllWriteFreeNames (nfc : String → String) : List Mutation → Db → Prop
  | [], _ => True
  | mutation :: rest, db => mutation.WritesFreeNames nfc db ∧ AllWriteFreeNames nfc rest (mutation.commit nfc db)

instance (held : List (String × String)) (path : String) (names : List String) :
    Decidable (NamesFree held path names) := inferInstanceAs (Decidable (_ ∧ _))

instance decidableBatchFree :
    (held : List (String × String)) → (files : List ParsedFile) → Decidable (BatchFree held files)
  | _, [] => isTrue trivial
  | held, file :: rest =>
    have := decidableBatchFree (hold file.path (file.nodes.map Node.qualifiedName) held) rest
    inferInstanceAs (Decidable (_ ∧ _))

instance (nfc : String → String) (db : Db) :
    (mutation : Mutation) → Decidable (mutation.WritesFreeNames nfc db)
  | .replaceFileGraph _ _ _ _ _ _ _ => inferInstanceAs (Decidable (IfAccepted _ _))
  | .replaceFilesTransactional _ _ => inferInstanceAs (Decidable (IfAccepted _ _))
  | .deleteFileGraph _ _ => isTrue trivial
  | .renameFileGraph _ _ _ => isTrue trivial

instance decidableAllWriteFreeNames (nfc : String → String) :
    (mutations : List Mutation) → (db : Db) → Decidable (AllWriteFreeNames nfc mutations db)
  | [], _ => isTrue trivial
  | mutation :: rest, db =>
    have := decidableAllWriteFreeNames nfc rest (mutation.commit nfc db)
    inferInstanceAs (Decidable (_ ∧ _))

def NodeRow.Readable (row : NodeRow) : Prop :=
  (∃ kind : NodeKind, row.kind = kind.asStr) ∧ row.language.isSome

/-- The full-text table holds one document for each node row. -/
structure Indexed (db : Db) : Prop where
  ids : (db.nodes.map NodeRow.id).Nodup
  readable : ∀ row ∈ db.nodes, row.Readable
  mirrored : db.nodesFts.Perm (db.nodes.map NodeRow.document)

theorem Indexed.mirrors (indexed : Indexed db) : Mirrors db := by
  refine ⟨indexed.mirrored, ?_⟩
  have rowids : (db.nodes.map NodeRow.document).map FtsDocument.rowid = db.nodes.map NodeRow.id := by
    rw [map_map]
    rfl
  have moved := indexed.mirrored.map FtsDocument.rowid
  rw [rowids] at moved
  exact moved.nodup_iff.mpr indexed.ids

theorem Indexed.empty : Indexed Db.empty := ⟨nodup_nil, by simp [Db.empty], .refl _⟩
theorem nodeRow_readable (repo : String) (id : Nat) (node : Node) :
    (nodeRow repo id node).Readable := ⟨⟨node.kind, rfl⟩, rfl⟩

theorem nodeDocument_rowToNode {row : NodeRow} (readable : row.Readable) :
    nodeDocument (rowToNode row).id (rowToNode row) = row.document := by
  obtain ⟨⟨kind, written⟩, known⟩ := readable
  obtain ⟨language, stored⟩ := Option.isSome_iff_exists.mp known
  simp [nodeDocument, rowToNode, NodeRow.document, written, stored]

theorem Indexed.row_eq (indexed : Indexed db) {row other : NodeRow} (mem : row ∈ db.nodes)
    (otherMem : other ∈ db.nodes) (same : row.document = other.document) : row = other :=
  inj_on_of_nodup_map indexed.ids mem otherMem (congrArg FtsDocument.rowid same)

theorem Indexed.documents_of_file (indexed : Indexed db) (repo path : String) :
    ((nodesOfFile repo path db).map fun node => nodeDocument node.id node) =
      (db.nodes.filter (NodeRow.inFile repo path)).map NodeRow.document := by
  rw [nodesOfFile_eq, map_map]
  refine map_congr_left fun row mem => ?_
  exact nodeDocument_rowToNode (indexed.readable row (mem_filter.mp mem).1)

theorem Indexed.unindexed (indexed : Indexed db) (repo path : String) :
    (db.nodesFts.filter fun other =>
      decide (other ∉ (nodesOfFile repo path db).map fun node => nodeDocument node.id node)).Perm
      ((deleteWhere (NodeRow.inFile repo path) db.nodes).map NodeRow.document) := by
  rw [indexed.documents_of_file]
  refine (indexed.mirrored.filter _).trans ?_
  rw [filter_map, deleteWhere]
  refine List.Perm.of_eq (congrArg _ (filter_congr fun row mem => ?_))
  rw [Bool.eq_iff_iff]
  simp only [Function.comp_apply, decide_eq_true_eq, Bool.not_eq_true', mem_map, mem_filter, not_exists, not_and]
  constructor
  · intro apart
    by_contra inFile
    exact apart row ⟨mem, by simpa using inFile⟩ rfl
  · rintro outside other ⟨otherMem, inFile⟩ same
    rw [indexed.row_eq otherMem mem same, outside] at inFile
    cases inFile

theorem ids_nodup_of_filter {rows : List NodeRow} (ids : (rows.map NodeRow.id).Nodup)
    (keeps : NodeRow → Bool) : ((rows.filter keeps).map NodeRow.id).Nodup :=
  List.Nodup.sublist (List.Sublist.map _ filter_sublist) ids

theorem Indexed.clearFile (indexed : Indexed db) (repo path : String) (nodes : List Node) :
    Indexed (clearFile repo path nodes db) where
  ids := ids_nodup_of_filter indexed.ids _
  readable row mem := indexed.readable row (mem_deleteWhere.mp mem).1
  mirrored := indexed.unindexed repo path

theorem Indexed.insertNode (indexed : Indexed db)
    {node : Node} (fresh : ∀ row ∈ db.nodes, row.key ≠ (repo, node.qualifiedName)) :
    Indexed (Statement.indexNode node (Statement.insertNode repo node db)) ∧
      (Statement.indexNode node (Statement.insertNode repo node db)).nodes =
        db.nodes ++ [nodeRow repo (nextRowid NodeRow.id db.nodes) node] := by
  have appended : (Statement.insertNode repo node db).nodes =
    db.nodes ++ [nodeRow repo (nextRowid NodeRow.id db.nodes) node] := insertOrReplace_fresh fresh
  have notIndexed : nodeDocument (nextRowid NodeRow.id db.nodes) node ∉ db.nodesFts := by
    intro mem
    obtain ⟨row, rowMem, same⟩ := mem_map.mp (indexed.mirrored.subset mem)
    have bounded := rowid_lt_nextRowid NodeRow.id rowMem
    have sameId : row.id = nextRowid NodeRow.id db.nodes := congrArg FtsDocument.rowid same
    omega
  have documents : (Statement.indexNode node (Statement.insertNode repo node db)).nodesFts =
    db.nodesFts ++ [nodeDocument (nextRowid NodeRow.id db.nodes) node] := if_neg notIndexed
  have nodes : (Statement.indexNode node (Statement.insertNode repo node db)).nodes =
    db.nodes ++ [nodeRow repo (nextRowid NodeRow.id db.nodes) node] := appended
  refine ⟨⟨?_, ?_, ?_⟩, nodes⟩
  · rw [nodes, map_append]
    refine List.Nodup.append indexed.ids (nodup_singleton _) ?_
    intro id used new
    obtain ⟨row, rowMem, rfl⟩ := mem_map.mp used
    have bounded := rowid_lt_nextRowid NodeRow.id rowMem
    have sameId : row.id = nextRowid NodeRow.id db.nodes := by simpa [nodeRow] using new
    omega
  · intro row mem
    rw [nodes] at mem
    rcases mem_append.mp mem with old | new
    · exact indexed.readable row old
    · rw [mem_singleton.mp new]
      exact nodeRow_readable _ _ _
  · rw [documents, nodes, map_append]
    exact indexed.mirrored.append (.refl _)

theorem Indexed.insertNodeStatements (nodes : List Node)
    (indexed : Indexed db) (nodup : (nodes.map Node.qualifiedName).Nodup)
    (fresh : ∀ node ∈ nodes, ∀ row ∈ db.nodes, row.key ≠ (repo, node.qualifiedName)) :
    Indexed (execAll (insertNodeStatements repo nodes) db) ∧ holdings repo (execAll (insertNodeStatements repo nodes) db) =
        holdings repo db ++ nodes.map fun node => (node.filePath, node.qualifiedName) := by
  induction nodes generalizing db with
  | nil => exact ⟨indexed, by simp [Store.insertNodeStatements]⟩
  | cons node rest ih =>
    obtain ⟨notLater, restDistinct⟩ := nodup_cons.mp nodup
    obtain ⟨inserted, nodes⟩ := indexed.insertNode (fresh node (.head _))
    have holding : holdings repo (Statement.indexNode node (Statement.insertNode repo node db)) =
      holdings repo db ++ [(node.filePath, node.qualifiedName)] := by
      simp [holdings, nodes, nodeRow]
    obtain ⟨loop, held⟩ := ih inserted restDistinct (by
      intro later laterMem row mem
      rw [nodes] at mem
      rcases mem_append.mp mem with old | new
      · exact fresh later (.tail _ laterMem) row old
      · rw [mem_singleton.mp new]
        intro same
        refine notLater ?_
        have sameName : node.qualifiedName = later.qualifiedName := congrArg Prod.snd same
        exact sameName ▸ mem_map_of_mem laterMem)
    rw [holding, append_assoc] at held
    exact ⟨loop, held⟩

theorem Indexed.congr {other : Db} (indexed : Indexed db) (nodes : other.nodes = db.nodes)
    (documents : other.nodesFts = db.nodesFts) : Indexed other where
  ids := nodes ▸ indexed.ids
  readable := nodes ▸ indexed.readable
  mirrored := by rw [nodes, documents]; exact indexed.mirrored

theorem holdings_clearFile (repo path : String) (nodes : List Node) (db : Db) :
    holdings repo (clearFile repo path nodes db) = (holdings repo db).filter fun holding =>
      decide (holding.1 ≠ path) := by
  simp only [holdings, clearFile, deleteWhere, filter_map, filter_filter]
  refine congrArg _ (filter_congr fun row _ => ?_)
  simp only [NodeRow.inFile, Function.comp_apply]
  by_cases inRepo : row.sourceRepoId = repo <;> simp [inRepo]

theorem Indexed.replace (indexed : Indexed db) {path : String} (hash : String)
    (language : Option String) (size : Option Nat) {nodes : List Node} (edges : List Edge)
    (located : ∀ node ∈ nodes, node.filePath = path)
    (free : NamesFree (holdings repo db) path (nodes.map Node.qualifiedName)) :
    Indexed (execAll (doReplaceFileGraph none repo path hash language size nodes edges db) db) ∧
      holdings
      repo (execAll (doReplaceFileGraph none repo path hash language size nodes edges db) db) =
        hold path (nodes.map Node.qualifiedName) (holdings repo db) := by
  obtain ⟨nodup, unheld⟩ := free
  have cleared : Indexed (Statement.replaceFileRow repo path hash language size
    (Store.clearFile repo path nodes db)) := (indexed.clearFile repo path nodes).congr rfl rfl
  obtain ⟨inserted, held⟩ := cleared.insertNodeStatements nodes nodup (by
    rintro node mem row rowMem same
    obtain ⟨rowMem, outside⟩ := mem_deleteWhere.mp rowMem
    have inRepo : row.sourceRepoId = repo := congrArg Prod.fst same
    have sameName : row.qualifiedName = node.qualifiedName := congrArg Prod.snd same
    refine unheld (row.filePath, row.qualifiedName) ?_ ?_ ?_
    · exact mem_map.mpr ⟨row, mem_filter.mpr ⟨rowMem, by simpa using inRepo⟩, rfl⟩
    · intro samePath
      simp [NodeRow.inFile, inRepo] at outside
      exact outside samePath
    · exact sameName ▸ mem_map_of_mem mem)
  rw [doReplaceFileGraph_eq, execAll_insertEdge]
  refine ⟨inserted.congr rfl rfl, ?_⟩
  refine held.trans ?_
  have pairs : (nodes.map fun node => (node.filePath, node.qualifiedName)) =
    (nodes.map Node.qualifiedName).map fun name => (path, name) := by
    rw [map_map]
    refine map_congr_left fun node mem => ?_
    rw [located node mem]
    rfl
  rw [pairs]
  exact congrArg (· ++ _) (holdings_clearFile repo path nodes db)

theorem Indexed.replaceBatch (files : List ParsedFile) (indexed : Indexed db)
    (located : ∀ file ∈ files, ∀ node ∈ file.nodes, node.filePath = file.path)
    (free : BatchFree (holdings repo db) files) :
    Indexed (runBlocks (files.map (replaceParsedFile none repo)) db) := by
  induction files generalizing db with
  | nil => exact indexed
  | cons file rest ih =>
    obtain ⟨fileFree, restFree⟩ := free
    obtain ⟨replaced, held⟩ := indexed.replace file.hash file.language file.size file.edges (located file (.head _)) fileFree
    rw [← held] at restFree
    exact ih replaced (fun later mem => located later (.tail _ mem)) restFree

theorem Indexed.delete (indexed : Indexed db) (repo path : String) :
    Indexed (execAll (deleteFileGraph none repo path db) db) := by
  rw [deleteFileGraph_tables]
  exact (indexed.clearFile repo path []).congr rfl rfl

theorem Indexed.rename (indexed : Indexed db) (repo oldPath newPath : String) :
    Indexed (execAll (renameFileGraph none repo oldPath newPath db) db) := by
  have moved : renamedDocuments repo oldPath newPath db = (db.nodes.filter (NodeRow.inFile repo oldPath)).map fun row =>
        NodeRow.document { row with filePath := newPath } := by
    rw [renamedDocuments, nodesOfFile_eq, map_map]
    refine map_congr_left fun row mem => ?_
    have readable := indexed.readable row (mem_filter.mp mem).1
    simp only [Function.comp_apply, nodeDocument_rowToNode readable]
    rfl
  have rowids : (renamedDocuments repo oldPath newPath db).map FtsDocument.rowid =
    (db.nodes.filter (NodeRow.inFile repo oldPath)).map NodeRow.id := by
    rw [moved, map_map]
    rfl
  have nodup : (renamedDocuments repo oldPath newPath db).Nodup := by
    refine List.Nodup.of_map FtsDocument.rowid ?_
    rw [rowids]
    exact ids_nodup_of_filter indexed.ids _
  have fresh : ∀ document ∈ renamedDocuments repo oldPath newPath db, document ∉ (moveFile repo oldPath newPath db).nodesFts := by
    intro document mem indexedAlready
    rw [moved] at mem
    obtain ⟨row, rowMem, rfl⟩ := mem_map.mp mem
    obtain ⟨rowMem, inFile⟩ := mem_filter.mp rowMem
    obtain ⟨other, otherMem, same⟩ := mem_map.mp ((indexed.unindexed repo oldPath).subset indexedAlready)
    obtain ⟨otherMem, outside⟩ := mem_deleteWhere.mp otherMem
    have sameId : other.id = row.id := congrArg FtsDocument.rowid same
    rw [inj_on_of_nodup_map indexed.ids otherMem rowMem sameId, inFile] at outside
    cases outside
  rw [renameFileGraph_eq, execAll_ftsInsert _ _ fresh nodup]
  refine ⟨?_, ?_, ?_⟩
  · have sameIds : ((moveFile repo oldPath newPath db).nodes.map NodeRow.id) = db.nodes.map NodeRow.id := by
      simp only [moveFile, updateWhere, map_map]
      refine map_congr_left fun row _ => ?_
      by_cases inFile : row.inFile repo oldPath = true <;> simp [inFile]
    exact sameIds ▸ indexed.ids
  · intro row mem
    obtain ⟨old, oldMem, rfl⟩ := mem_map.mp mem
    have readable := indexed.readable old oldMem
    by_cases inFile : old.inFile repo oldPath = true
    · rw [if_pos inFile]
      exact readable
    · rw [if_neg inFile]
      exact readable
  · refine ((indexed.unindexed repo oldPath).append (List.Perm.of_eq moved)).trans ?_
    have split : (db.nodes.filter fun row => !row.inFile repo oldPath) ++
      db.nodes.filter (NodeRow.inFile repo oldPath) |>.Perm db.nodes :=
      perm_append_comm.trans (filter_append_perm _ _)
    have placed := split.map fun row =>
      NodeRow.document (if row.inFile repo oldPath then { row with filePath := newPath } else row)
    rw [map_append] at placed
    refine List.Perm.trans (List.Perm.of_eq ?_) (placed.trans (List.Perm.of_eq ?_))
    · congr 1
      · refine map_congr_left fun row mem => ?_
        have outside := (mem_deleteWhere.mp mem).2
        simp [outside]
      · refine map_congr_left fun row mem => ?_
        have inside := (mem_filter.mp mem).2
        simp [inside]
    · simp only [moveFile, updateWhere, map_map]
      rfl

theorem Indexed.commit (indexed : Indexed db) {mutation : Mutation}
    (free : mutation.WritesFreeNames nfc db) : Indexed (mutation.commit nfc db) := by
  rw [mutation.commit_eq]
  cases mutation with
  | replaceFileGraph repo path hash language size nodes edges =>
    simp only [Mutation.WritesFreeNames] at free
    cases accepted : canonicalizeGraphSlice nfc path nodes edges with
    | error error => simpa [Mutation.body, accepted] using indexed
    | ok slice =>
      simp only [Mutation.body, accepted, runBlocks_cons, runBlocks_nil]
      exact (indexed.replace hash language size slice.edges (canonicalizeGraphSlice_located accepted) (free.of_ok accepted)).1
  | replaceFilesTransactional repo files =>
    simp only [Mutation.WritesFreeNames] at free
    cases accepted : files.mapM (canonicalizeParsedFile nfc) with
    | error error => simpa [Mutation.body, accepted] using indexed
    | ok normal =>
      simp only [Mutation.body, accepted]
      exact indexed.replaceBatch normal (mapM_canonicalizeParsedFile_located accepted) (free.of_ok accepted)
  | deleteFileGraph repo path =>
    cases accepted : canonicalizeRepoPath nfc path with
    | error error => simpa [Mutation.body, accepted] using indexed
    | ok canonical =>
      simp only [Mutation.body, accepted, runBlocks_cons, runBlocks_nil]
      exact indexed.delete repo canonical
  | renameFileGraph repo oldPath newPath =>
    simp only [Mutation.body]
    split
    · split
      · exact indexed
      · exact indexed.rename repo _ _
    · exact indexed

theorem Indexed.run (mutations : List Mutation) (indexed : Indexed db)
    (free : AllWriteFreeNames nfc mutations db) : Indexed (run nfc mutations db) := by
  induction mutations generalizing db with
  | nil => exact indexed
  | cons mutation rest ih =>
    obtain ⟨firstFree, restFree⟩ := free
    exact ih (indexed.commit firstFree) restFree

theorem AllWriteFreeNames.of_isPrefix {reached mutations : List Mutation}
    (free : AllWriteFreeNames nfc mutations db) (earlier : reached <+: mutations) :
    AllWriteFreeNames nfc reached db := by
  induction reached generalizing mutations db with
  | nil => trivial
  | cons mutation rest ih =>
    obtain ⟨later, rfl⟩ := earlier
    exact ⟨free.1, ih free.2 (prefix_append rest later)⟩

/-- As long as every replacement finds its names free, the index mirrors the node
table after every operation of a run. -/
theorem nodesFts_mirrors_nodes (nfc : String → String)
    (mutations : List Mutation) (free : AllWriteFreeNames nfc mutations Db.empty) :
    ∀ reached, reached <+: mutations → Mirrors (run nfc reached Db.empty) :=
  fun reached earlier => (Indexed.empty.run reached (free.of_isPrefix earlier)).mirrors

theorem nodesFts_mirrors_nodes_sample :
    Mirrors (run id [writeFunction "a.rs", writeFunction "./b.rs",
      .renameFileGraph "repo" "a.rs" "c.rs", writeFunction "b.rs"] Db.empty) :=
  nodesFts_mirrors_nodes id [writeFunction "a.rs", writeFunction "./b.rs",
    .renameFileGraph "repo" "a.rs" "c.rs", writeFunction "b.rs", .deleteFileGraph "repo" "b.rs"]
    (by decide) _ (prefix_append _ [Mutation.deleteFileGraph "repo" "b.rs"])

/-- A renamed file keeps its names, so writing the old path again drops the moved
row and leaves its document behind. -/
theorem nodesFts_stale_after_rename : ¬ Mirrors (run id [writeFunction "a.rs",
    .renameFileGraph "repo" "a.rs" "b.rs", writeFunction "a.rs"] Db.empty) := by decide

end Atlas.Store
