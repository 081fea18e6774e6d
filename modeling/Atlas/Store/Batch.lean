import Atlas.Store.FileOwnership

/-! What a batch of replacements leaves in every table, for files with distinct paths
and distinct node names. -/
namespace Atlas.Store
open List Core Sql

def EdgeRow.columns (row : EdgeRow) : EdgeRow := { row with id := 0 }
def ChunkRow.columns (row : ChunkRow) : ChunkRow := { row with id := 0 }
def names (file : ParsedFile) : List String := file.nodes.map Node.qualifiedName
def storedNames (repo : String) (db : Db) (path : String) : List String :=
  (db.nodes.filter (NodeRow.inFile repo path)).map NodeRow.qualifiedName
def batch (repo : String) (files : List ParsedFile) (db : Db) : Db :=
  runBlocks (files.map (replaceParsedFile none repo)) db

section
variable (repo : String) (file : ParsedFile) (db : Db)

def replaced : Db := execAll (replaceParsedFile none repo file db) db

theorem batch_cons (rest : List ParsedFile) :
    batch repo (file :: rest) db = batch repo rest (replaced repo file db) := rfl

theorem removedNames_eq (nodes : List Node) : removedNames (nodesOfFile repo file.path db) nodes =
    (storedNames repo db file.path).filter fun name => name ∉ nodes.map Node.qualifiedName := by
  have read : (nodesOfFile repo file.path db).map Node.qualifiedName = storedNames repo db file.path := by
    rw [nodesOfFile_eq, map_map]
    rfl
  rw [removedNames, read]

def dropped : List String := (storedNames repo db file.path).filter fun name => name ∉ names file

theorem replaced_nodes : (replaced repo file db).nodes =
    insertNodeRows repo file.nodes (deleteWhere (NodeRow.inFile repo file.path) db.nodes) := by
  obtain ⟨documents, rowid, ran⟩ := doReplaceFileGraph_tables repo file.path file.hash file.language
    file.size file.nodes file.edges db
  rw [replaced, replaceParsedFile, ran]
  rfl

theorem replaced_edges :
    (replaced repo file db).edges = insertEdgeRows repo (edgeProvenanceJson repo) file.edges
        (deleteWhere (EdgeRow.touches repo (dropped repo file db)) (deleteWhere (EdgeRow.inFile repo file.path) db.edges)) := by
  obtain ⟨documents, rowid, ran⟩ := doReplaceFileGraph_tables repo file.path file.hash file.language
    file.size file.nodes file.edges db
  rw [replaced, replaceParsedFile, ran]
  show insertEdgeRows _ _ _ (clearFile repo file.path file.nodes db).edges = _
  rw [clearFile, removedNames_eq]
  rfl

theorem replaced_retrievalChunks : (replaced repo file db).retrievalChunks =
    deleteWhere (ChunkRow.isOf repo (dropped repo file db)) db.retrievalChunks := by
  obtain ⟨documents, rowid, ran⟩ := doReplaceFileGraph_tables repo file.path file.hash file.language
    file.size file.nodes file.edges db
  rw [replaced, replaceParsedFile, ran]
  show (clearFile repo file.path file.nodes db).retrievalChunks = _
  rw [clearFile, removedNames_eq]
  rfl

theorem replaced_files : (replaced repo file db).files =
    (Statement.replaceFileRow repo file.path file.hash file.language file.size db).files := by
  obtain ⟨documents, rowid, ran⟩ := doReplaceFileGraph_tables repo file.path file.hash file.language
    file.size file.nodes file.edges db
  rw [replaced, replaceParsedFile, ran]

end

theorem keys_nodup_insertNodeRows {repo : String}
    (nodes : List Node) {rows : List NodeRow} (unique : (rows.map NodeRow.key).Nodup) :
    ((insertNodeRows repo nodes rows).map NodeRow.key).Nodup := by
  induction nodes generalizing rows with
  | nil => exact unique
  | cons node rest ih => exact ih (keys_nodup_insertOrReplace _ unique)

theorem insertEdgeRows_columns (repo : String)
    (extraJson : Edge → Json) (edges : List Edge) (rows : List EdgeRow) :
    (insertEdgeRows repo extraJson edges rows).map EdgeRow.columns =
      rows.map EdgeRow.columns ++ edges.map fun edge => edgeRow repo 0 (extraJson edge) edge := by
  induction edges generalizing rows with
  | nil => simp [insertEdgeRows]
  | cons edge rest ih =>
    rw [insertEdgeRows, foldl_cons]
    refine (ih _).trans ?_
    simp [EdgeRow.columns, edgeRow]

theorem map_columns_filter_edges (keeps : EdgeRow → Bool)
    (blind : ∀ row : EdgeRow, keeps row.columns = keeps row) (rows : List EdgeRow) :
    (rows.filter keeps).map EdgeRow.columns = (rows.map EdgeRow.columns).filter keeps := by
  rw [filter_map]
  congr 1
  refine filter_congr fun row _ => ?_
  exact (blind row).symm

theorem map_columns_filter_nodes (keeps : NodeRow → Bool)
    (blind : ∀ row : NodeRow, keeps row.columns = keeps row) (rows : List NodeRow) :
    (rows.filter keeps).map NodeRow.columns = (rows.map NodeRow.columns).filter keeps := by
  rw [filter_map]
  congr 1
  refine filter_congr fun row _ => ?_
  exact (blind row).symm

theorem insertNodeRows_columns {repo : String}
    (nodes : List Node) (rows : List NodeRow) (nodup : (nodes.map Node.qualifiedName).Nodup) :
    ((insertNodeRows repo nodes rows).map NodeRow.columns).Perm
      ((rows.filter fun row => decide (∀ node ∈ nodes, row.key ≠ (repo, node.qualifiedName))).map
        NodeRow.columns ++ nodes.map (nodeRow repo 0)) := by
  induction nodes generalizing rows with
  | nil => simp [insertNodeRows]
  | cons node rest ih =>
    obtain ⟨notLater, restDistinct⟩ := nodup_cons.mp nodup
    rw [insertNodeRows, foldl_cons]
    refine (ih _ restDistinct).trans ?_
    have fresh : ∀ later ∈ rest, ∀ id, (nodeRow repo id node).key ≠ (repo, later.qualifiedName) := by
      intro later mem id same
      have sameName : node.qualifiedName = later.qualifiedName := congrArg Prod.snd same
      exact notLater (sameName ▸ mem_map_of_mem mem)
    have sameKey : ∀ id, (nodeRow repo id node).key = (repo, node.qualifiedName) := fun _ => rfl
    rw [insertOrReplace, filter_append, map_append, deleteWhere, filter_filter,
      filter_cons_of_pos (by simpa using fun later mem => fresh later mem _),
      filter_nil]
    have both : (rows.filter fun row =>
        decide (∀ later ∈ rest, row.key ≠ (repo, later.qualifiedName)) &&
          !decide (row.key = (nodeRow repo (nextRowid NodeRow.id rows) node).key)) =
        rows.filter fun row =>
          decide (∀ later ∈ node :: rest, row.key ≠ (repo, later.qualifiedName)) := by
      refine filter_congr fun row _ => ?_
      rw [sameKey]
      simp [Bool.and_comm]
    rw [both, append_assoc]
    rfl

theorem mem_insertNodeRows_of_fresh {repo : String} (nodes : List Node) {rows : List NodeRow}
    {row : NodeRow} (mem : row ∈ rows)
    (fresh : ∀ node ∈ nodes, row.key ≠ (repo, node.qualifiedName)) :
    row ∈ insertNodeRows repo nodes rows := by
  induction nodes generalizing rows with
  | nil => exact mem
  | cons node rest ih =>
    rw [insertNodeRows, foldl_cons]
    refine ih ?_ fun later laterMem => fresh later (.tail _ laterMem)
    exact mem_insertOrReplace.mpr (.inl ⟨mem, fresh node (.head _)⟩)

theorem mem_storedNames_replaced {repo path name : String} {file : ParsedFile} {db : Db}
    (located : ∀ node ∈ file.nodes, node.filePath = file.path) (other : path ≠ file.path) :
    name ∈ storedNames repo (replaced repo file db) path ↔ name ∈ storedNames repo db path ∧ name ∉ names file := by
  unfold storedNames
  rw [replaced_nodes]
  constructor
  · intro mem
    obtain ⟨row, rowMem, rfl⟩ := mem_map.mp mem
    obtain ⟨inserted, inFile⟩ := mem_filter.mp rowMem
    have ⟨inRepo, inPath⟩ : row.sourceRepoId = repo ∧ row.filePath = path := of_decide_eq_true inFile
    cases mem_insertNodeRows file.nodes inserted with
    | inl old =>
      refine ⟨mem_map_of_mem (mem_filter.mpr ⟨(mem_deleteWhere.mp old.1).1, inFile⟩), ?_⟩
      intro taken
      obtain ⟨node, nodeMem, same⟩ := mem_map.mp taken
      exact old.2 node nodeMem (Prod.ext inRepo same.symm)
    | inr new =>
      obtain ⟨node, nodeMem, id, shape⟩ := new
      rw [shape] at inPath
      exact absurd (inPath.symm.trans (located node nodeMem)) other
  · intro ⟨mem, free⟩
    obtain ⟨row, rowMem, rfl⟩ := mem_map.mp mem
    obtain ⟨member, inFile⟩ := mem_filter.mp rowMem
    have ⟨_, inPath⟩ : row.sourceRepoId = repo ∧ row.filePath = path := of_decide_eq_true inFile
    refine mem_map_of_mem (mem_filter.mpr ⟨?_, inFile⟩)
    refine mem_insertNodeRows_of_fresh file.nodes (mem_deleteWhere.mpr ⟨member, ?_⟩) ?_
    · simp [NodeRow.inFile, inPath, other]
    · intro node nodeMem same
      have sameName : row.qualifiedName = node.qualifiedName := congrArg Prod.snd same
      exact free (mem_map.mpr ⟨node, nodeMem, sameName.symm⟩)

section
variable (stored : String → List String)

def dropsOf (earlier : List String) (file : ParsedFile) : List String :=
  (stored file.path).filter fun name => decide (name ∉ earlier ∧ name ∉ names file)

def kills (earlier : List String) : List ParsedFile → List String
  | [] => []
  | file :: rest => dropsOf stored earlier file ++ kills (earlier ++ names file) rest

theorem mem_kills_iff {earlier : List String} {files : List ParsedFile} {name : String} :
    name ∈ kills stored earlier files ↔
      ∃ before file after, files = before ++ file :: after ∧ name ∈ stored file.path ∧
        name ∉ earlier ∧ name ∉ before.flatMap names ∧ name ∉ names file := by
  induction files generalizing earlier with
  | nil => simp [kills]
  | cons first rest ih =>
    rw [kills, mem_append, ih]
    constructor
    · intro mem
      cases mem with
      | inl here =>
        have ⟨member, free⟩ := mem_filter.mp here
        have ⟨notEarlier, notKept⟩ := of_decide_eq_true free
        exact ⟨[], first, rest, rfl, member, notEarlier, by simp, notKept⟩
      | inr later =>
        obtain ⟨before, file, after, split, member, notEarlier, notBefore, notKept⟩ := later
        rw [mem_append, not_or] at notEarlier
        refine ⟨first :: before, file, after, by rw [split]; rfl, member, notEarlier.1, ?_,
          notKept⟩
        rw [flatMap_cons, mem_append, not_or]
        exact ⟨notEarlier.2, notBefore⟩
    · intro ⟨before, file, after, split, member, notEarlier, notBefore, notKept⟩
      cases before with
      | nil =>
        cases split
        exact .inl (mem_filter.mpr ⟨member, decide_eq_true ⟨notEarlier, notKept⟩⟩)
      | cons head before =>
        cases split
        rw [flatMap_cons, mem_append, not_or] at notBefore
        refine .inr ⟨before, file, after, rfl, member, ?_, notBefore.2, notKept⟩
        rw [mem_append, not_or]
        exact ⟨notEarlier, notBefore.1⟩

end

structure Distinct (files : List ParsedFile) : Prop where
  paths : (files.map ParsedFile.path).Nodup
  named : (files.flatMap names).Nodup
  located : ∀ file ∈ files, ∀ node ∈ file.nodes, node.filePath = file.path

theorem Distinct.tail {file : ParsedFile}
    {rest : List ParsedFile} (nodup : Distinct (file :: rest)) : Distinct rest where
  paths := (nodup_cons.mp nodup.paths).2
  named := (nodup_append.mp nodup.named).2.1
  located other mem := nodup.located other (.tail _ mem)

theorem Distinct.head {file : ParsedFile}
    {rest : List ParsedFile} (nodup : Distinct (file :: rest)) :
    (names file).Nodup ∧ (∀ later ∈ rest, later.path ≠ file.path) ∧ ∀ name ∈ names file, ∀ later ∈ rest, name ∉ names later := by
  have ⟨own, _, apart⟩ := nodup_append.mp nodup.named
  refine ⟨own, ?_, ?_⟩
  · intro later mem same
    exact (nodup_cons.mp nodup.paths).1 (same ▸ mem_map_of_mem mem)
  · intro name mem later laterMem both
    exact apart name mem name (mem_flatMap.mpr ⟨later, laterMem, both⟩) rfl

theorem Distinct.perm {files others : List ParsedFile}
    (nodup : Distinct files) (perm : others.Perm files) : Distinct others where
  paths := (perm.map _).nodup_iff.mpr nodup.paths
  named := (perm.flatMap_right names).nodup_iff.mpr nodup.named
  located file mem := nodup.located file (perm.mem_iff.mp mem)

def Tracks (repo : String) (stored : String → List String)
    (earlier : List String) (files : List ParsedFile) (db : Db) : Prop :=
  ∀ file ∈ files, ∀ name, name ∈ storedNames repo db file.path ↔ name ∈ stored file.path ∧ name ∉ earlier

theorem Tracks.initial (repo : String) (files : List ParsedFile) (db : Db) :
    Tracks repo (storedNames repo db) [] files db := by
  intro file mem name
  simp

section
variable {repo : String} {stored : String → List String} {earlier : List String}
  {file : ParsedFile} {rest files : List ParsedFile} {db : Db}

theorem Tracks.step (tracks : Tracks repo stored earlier (file :: rest) db)
    (nodup : Distinct (file :: rest)) :
    Tracks repo stored (earlier ++ names file) rest (replaced repo file db) := by
  intro later mem name
  have other := nodup.head.2.1 later mem
  rw [mem_storedNames_replaced (nodup.located file mem_cons_self) other,
    tracks later (mem_cons_of_mem _ mem) name, mem_append, not_or, and_assoc]

theorem Tracks.mem_dropped (tracks : Tracks repo stored earlier (file :: rest) db) (name : String) :
    name ∈ dropped repo file db ↔ name ∈ dropsOf stored earlier file := by
  rw [dropped, dropsOf, mem_filter, mem_filter, tracks file mem_cons_self name]
  simp [and_assoc]

theorem batch_retrievalChunks (nodup : Distinct files)
    (tracks : Tracks repo stored earlier files db) :
    (batch repo files db).retrievalChunks = deleteWhere (ChunkRow.isOf repo (kills stored earlier files)) db.retrievalChunks := by
  induction files generalizing earlier db with
  | nil => simp [batch, kills, deleteWhere, ChunkRow.isOf]
  | cons file rest ih =>
    rw [batch_cons, ih nodup.tail (tracks.step nodup), replaced_retrievalChunks]
    unfold deleteWhere
    rw [filter_filter]
    refine filter_congr fun row _ => ?_
    have same := tracks.mem_dropped row.nodeQn
    simp only [ChunkRow.isOf, kills, mem_append, same]
    by_cases inRepo : row.sourceRepoId = repo <;> simp [inRepo, Bool.and_comm]

def EdgeRow.goneWith (repo : String) (paths dropped : List String) (row : EdgeRow) : Bool := decide
    (row.sourceRepoId = repo ∧ ∃ path ∈ paths, row.filePath = some path) || row.touches repo dropped

def survivors (repo : String) (stored : String → List String) :
    List String → List ParsedFile → List EdgeRow
  | _, [] => []
  | earlier, file :: rest =>
    ((file.edges.map fun edge => edgeRow repo 0 (edgeProvenanceJson repo edge) edge).filter
      fun row =>
      !row.goneWith repo (rest.map ParsedFile.path) (kills stored (earlier ++ names file) rest)) ++
      survivors repo stored (earlier ++ names file) rest

theorem batch_edges (nodup : Distinct files) (tracks : Tracks repo stored earlier files db) :
    (batch repo files db).edges.map EdgeRow.columns =
      ((db.edges.map EdgeRow.columns).filter fun row =>
        !row.goneWith repo (files.map ParsedFile.path) (kills stored earlier files)) ++
        survivors repo stored earlier files := by
  induction files generalizing earlier db with
  | nil => simp [batch, kills, survivors, EdgeRow.goneWith, EdgeRow.touches]
  | cons file rest ih =>
    rw [batch_cons, ih nodup.tail (tracks.step nodup), replaced_edges, insertEdgeRows_columns,
      filter_append, survivors, append_assoc]
    congr 1
    unfold deleteWhere
    rw [map_columns_filter_edges _ (fun _ => rfl), map_columns_filter_edges _ (fun _ => rfl), filter_filter, filter_filter]
    refine filter_congr fun row _ => ?_
    have source := tracks.mem_dropped row.sourceQualified
    have target := tracks.mem_dropped row.targetQualified
    simp only [EdgeRow.goneWith, EdgeRow.touches, EdgeRow.inFile, kills, map_cons, mem_append, source, target]
    by_cases inRepo : row.sourceRepoId = repo
    · simp only [inRepo, true_and, exists_mem_cons_iff]
      by_cases here : row.filePath = some file.path
      · simp [here]
      · simp only [here, false_or, decide_false, Bool.not_false, ← Bool.not_or, Bool.and_true]
        grind
    · simp [inRepo]

def NodeRow.goneWith (repo : String) (paths taken : List String) (row : NodeRow) : Bool :=
  decide (row.sourceRepoId = repo ∧ (row.filePath ∈ paths ∨ row.qualifiedName ∈ taken))

theorem batch_nodes (nodup : Distinct files) (db : Db) :
    ((batch repo files db).nodes.map NodeRow.columns).Perm
      (((db.nodes.map NodeRow.columns).filter fun row =>
        !row.goneWith repo (files.map ParsedFile.path) (files.flatMap names)) ++
        files.flatMap fun file => file.nodes.map (nodeRow repo 0)) := by
  induction files generalizing db with
  | nil => simp [batch, NodeRow.goneWith]
  | cons file rest ih =>
    have ⟨own, otherPath, otherName⟩ := nodup.head
    have inserted := @insertNodeRows_columns repo file.nodes (deleteWhere (NodeRow.inFile repo file.path) db.nodes) own
    rw [← replaced_nodes] at inserted
    have later := inserted.filter fun row => !row.goneWith repo (rest.map ParsedFile.path) (rest.flatMap names)
    have kept : ((file.nodes.map (nodeRow repo 0)).filter fun row =>
        !row.goneWith repo (rest.map ParsedFile.path) (rest.flatMap names)) =
        file.nodes.map (nodeRow repo 0) := by
      refine filter_eq_self.mpr fun row mem => ?_
      obtain ⟨node, nodeMem, rfl⟩ := mem_map.mp mem
      have path := nodup.located file (.head _) node nodeMem
      have free : node.filePath ∉ rest.map ParsedFile.path := by
        intro taken
        obtain ⟨other, member, same⟩ := mem_map.mp taken
        exact otherPath other member (same.trans path)
      have unnamed : node.qualifiedName ∉ rest.flatMap names := by
        intro taken
        obtain ⟨other, member, same⟩ := mem_flatMap.mp taken
        exact otherName _ (mem_map_of_mem nodeMem) other member same
      simp only [NodeRow.goneWith, nodeRow, free, unnamed, or_self, and_false, decide_false, Bool.not_false]
    rw [filter_append, kept] at later
    have old : (((deleteWhere (NodeRow.inFile repo file.path) db.nodes).filter fun row =>
        decide (∀ node ∈ file.nodes, row.key ≠ (repo, node.qualifiedName))).map NodeRow.columns).filter (fun row =>
            !row.goneWith repo (rest.map ParsedFile.path) (rest.flatMap names)) =
        (db.nodes.map NodeRow.columns).filter fun row =>
          !row.goneWith repo ((file :: rest).map ParsedFile.path) ((file :: rest).flatMap names) := by
      unfold deleteWhere
      rw [map_columns_filter_nodes _ (fun _ => rfl), map_columns_filter_nodes _ (fun _ => rfl), filter_filter, filter_filter]
      refine filter_congr fun row _ => ?_
      by_cases inRepo : row.sourceRepoId = repo
      · have named : (∀ node ∈ file.nodes, row.key ≠ (repo, node.qualifiedName)) ↔ row.qualifiedName ∉ names file := by
          simp [names, NodeRow.key, inRepo, eq_comm]
        simp only [NodeRow.goneWith, NodeRow.inFile, inRepo, true_and, named, map_cons, mem_cons, flatMap_cons, mem_append]
        grind
      · simp [NodeRow.goneWith, NodeRow.inFile, NodeRow.key, inRepo]
    rw [old] at later
    rw [batch_cons]
    refine (ih nodup.tail _).trans ?_
    refine (later.append_right _).trans ?_
    rw [append_assoc]
    exact .refl _

end
end Atlas.Store
