import Atlas.Engine.StoreCalls
import Atlas.Store.Batch
import Mathlib.Data.List.Induction

/-! What the store holds of one file, and what each mutation does to it. Row ids are left
out. -/
namespace Atlas.Engine
open List Core Sql Store

def nodesAt (repo : String) (db : Db) (path : String) : List NodeRow :=
  (db.nodes.filter (NodeRow.inFile repo path)).map NodeRow.columns
def edgesAt (repo : String) (db : Db) (path : String) : List EdgeRow :=
  (db.edges.filter (EdgeRow.inFile repo path)).map EdgeRow.columns
def chunksOf (repo : String) (rows : List ChunkRow) (name : String) : List ChunkRow :=
  (rows.filter (ChunkRow.isOf repo [name])).map ChunkRow.columns
def nodeNamed (repo : String) (db : Db) (name : String) : Option NodeRow :=
  (db.nodes.find? fun row => decide (row.key = (repo, name))).map NodeRow.columns
def nodeColumns (repo : String) (nodes : List Node) : List NodeRow :=
  nodes.foldl (fun rows node => insertOrReplace NodeRow.key (nodeRow repo 0 node) rows) []
def edgeColumns (repo : String) (edges : List Edge) : List EdgeRow :=
  edges.map fun edge => edgeRow repo 0 (edgeProvenanceJson repo edge) edge

def NodeRow.chunk (row : NodeRow) : ChunkRow where
  id := 0
  sourceRepoId := row.sourceRepoId
  nodeQn := row.qualifiedName
  chunkIdx := 0
  text := (rowToNode row).chunkText
  embedding := none

section
variable {repo path name : String} {db : Db} {row : NodeRow}

theorem mem_nodesAt : row ∈ nodesAt repo db path ↔ ∃ stored ∈ db.nodes, stored.sourceRepoId = repo ∧
    stored.filePath = path ∧ stored.columns = row := by
  simp [nodesAt, NodeRow.inFile, and_assoc]

theorem mem_storedNames :
    name ∈ storedNames repo db path ↔ ∃ row ∈ nodesAt repo db path, row.qualifiedName = name := by
  unfold storedNames nodesAt
  rw [← mem_map, map_map]
  rfl

theorem nodeNamed_eq_some_iff (unique : (db.nodes.map NodeRow.key).Nodup) :
    nodeNamed repo db name = some row ↔
      row ∈ nodesAt repo db row.filePath ∧ row.qualifiedName = name := by
  unfold nodeNamed
  rw [Option.map_eq_some_iff, mem_nodesAt]
  constructor
  · rintro ⟨stored, found, rfl⟩
    have key : stored.key = (repo, name) := by simpa using find?_some found
    obtain ⟨inRepo, named⟩ := Prod.ext_iff.mp key
    exact ⟨⟨stored, mem_of_find?_eq_some found, inRepo, rfl, rfl⟩, named⟩
  · rintro ⟨⟨stored, mem, inRepo, _, rfl⟩, named⟩
    refine ⟨stored, ?_, rfl⟩
    have key : stored.key = (repo, name) := Prod.ext inRepo named
    have only := filter_key_eq_of_mem unique mem
    rw [key] at only
    rw [← head?_filter, only]
    rfl

end

/-! ## Slices -/

structure Slice where
  file : ParsedFile
  owner : OwnerColumns

namespace Slice

variable (repo : String) (slice : Slice)

def fileRow : FileRow where
  path := slice.file.path
  language := slice.file.language
  hash := slice.file.hash
  size := slice.file.size
  owner := slice.owner
  sourceRepoId := repo

def nodeRows : List NodeRow := nodeColumns repo slice.file.nodes
def edgeRows : List EdgeRow := edgeColumns repo slice.file.edges

def movedTo (path : String) : Slice where
  file :=
    { slice.file with
      path := path
      nodes := slice.file.nodes.map fun node => { node with filePath := path }
      edges := slice.file.edges.map fun edge => { edge with filePath := path } }
  owner := slice.owner

end Slice

section
variable {repo : String}

theorem nodeColumns_append (nodes : List Node) (node : Node) : nodeColumns repo (nodes ++ [node]) =
    insertOrReplace NodeRow.key (nodeRow repo 0 node) (nodeColumns repo nodes) := by
  unfold nodeColumns
  rw [foldl_append]
  rfl

theorem nodeRow_columns (id : Nat) (node : Node) :
    (nodeRow repo id node).columns = nodeRow repo 0 node := rfl

theorem map_columns_insertOrReplace (row : NodeRow) (rows : List NodeRow) :
    (insertOrReplace NodeRow.key row rows).map NodeRow.columns =
      insertOrReplace NodeRow.key row.columns (rows.map NodeRow.columns) := by
  unfold insertOrReplace deleteWhere
  rw [map_append, map_columns_filter_nodes _ fun _ => rfl]
  rfl

theorem insertNodeRows_apart (nodes : List Node) (rows : List NodeRow)
    (free : ∀ node ∈ nodes, ∀ row ∈ rows, row.key ≠ (repo, node.qualifiedName)) :
    (insertNodeRows repo nodes rows).map NodeRow.columns = rows.map NodeRow.columns ++ nodeColumns repo nodes := by
  induction nodes using reverseRecOn with
  | nil => simp [insertNodeRows, nodeColumns]
  | append_singleton nodes node ih =>
    have before := ih fun other mem => free other (mem_append_left _ mem)
    have kept : deleteWhere (fun other => decide (other.key = (nodeRow repo 0 node).key))
      (rows.map NodeRow.columns) = rows.map NodeRow.columns := by
      apply filter_eq_self.mpr
      intro columns mem
      obtain ⟨row, isRow, rfl⟩ := mem_map.mp mem
      rw [Bool.not_eq_true', decide_eq_false_iff_not]
      exact free node (mem_append_right _ (.head _)) row isRow
    rw [insertNodeRows, foldl_append, foldl_cons, foldl_nil,
      map_columns_insertOrReplace, ← insertNodeRows, before, nodeRow_columns, nodeColumns_append,
      insertOrReplace, deleteWhere, filter_append, ← deleteWhere, kept, append_assoc]
    rfl

theorem mem_nodeColumns {nodes : List Node} {row : NodeRow} (mem : row ∈ nodeColumns repo nodes) :
    ∃ node ∈ nodes, row = nodeRow repo 0 node := by
  induction nodes using reverseRecOn with
  | nil => cases mem
  | append_singleton nodes node ih =>
    rw [nodeColumns_append] at mem
    rcases mem_insertOrReplace.mp mem with ⟨old, _⟩ | rfl
    · obtain ⟨other, inNodes, same⟩ := ih old
      exact ⟨other, mem_append_left _ inNodes, same⟩
    · exact ⟨node, mem_append_right _ (.head _), rfl⟩

theorem exists_nodeColumns {nodes : List Node} {node : Node} (mem : node ∈ nodes) :
    ∃ row ∈ nodeColumns repo nodes, row.qualifiedName = node.qualifiedName := by
  induction nodes using reverseRecOn with
  | nil => cases mem
  | append_singleton nodes last ih =>
    rw [nodeColumns_append]
    by_cases same : node.qualifiedName = last.qualifiedName
    · exact ⟨nodeRow repo 0 last, mem_insertOrReplace.mpr (.inr rfl), same.symm⟩
    · rcases mem_append.mp mem with earlier | here
      · obtain ⟨row, isRow, named⟩ := ih earlier
        refine ⟨row, mem_insertOrReplace.mpr (.inl ⟨isRow, ?_⟩), named⟩
        intro sameKey
        exact same (named.symm.trans (congrArg Prod.snd sameKey))
      · rw [mem_singleton.mp here] at same
        exact absurd rfl same

theorem nodeColumns_movedTo (slice : Slice) (path : String) :
    (slice.movedTo path).nodeRows repo = (slice.nodeRows repo).map fun row =>
      { row with filePath := path } := by
  unfold Slice.nodeRows Slice.movedTo
  dsimp only
  generalize slice.file.nodes = nodes
  induction nodes using reverseRecOn with
  | nil => rfl
  | append_singleton nodes node ih =>
    rw [map_append, map_singleton, nodeColumns_append, nodeColumns_append, ih, insertOrReplace,
      insertOrReplace, map_append, deleteWhere, deleteWhere, filter_map]
    rfl

theorem edgeColumns_movedTo (slice : Slice) (path : String) :
    (slice.movedTo path).edgeRows repo = (slice.edgeRows repo).map fun row =>
      { row with filePath := some path } := by
  unfold Slice.edgeRows Slice.movedTo edgeColumns
  simp only [map_map]
  rfl

end

/-! ## What a mutation does to the rows of each file -/

section
variable {repo : String} {file : ParsedFile} {db : Db}

theorem chunksOf_delete (names : List String) (rows : List ChunkRow) (name : String) :
    chunksOf repo (deleteWhere (ChunkRow.isOf repo names) rows) name =
      if name ∈ names then [] else chunksOf repo rows name := by
  unfold chunksOf
  by_cases listed : name ∈ names
  · rw [if_pos listed, map_eq_nil_iff, filter_eq_nil_iff]
    intro row mem isChunk
    obtain ⟨_, kept⟩ := mem_deleteWhere.mp mem
    simp only [ChunkRow.isOf, mem_singleton, decide_eq_true_eq, decide_eq_false_iff_not]
      at isChunk kept
    exact kept ⟨isChunk.1, isChunk.2 ▸ listed⟩
  · rw [if_neg listed, filter_deleteWhere]
    intro row isChunk
    simp only [ChunkRow.isOf, mem_singleton, decide_eq_true_eq] at isChunk
    simp [ChunkRow.isOf, isChunk.2, listed]

theorem filter_deleteWhere_comm {Row : Type} (selects keeps : Row → Bool) (rows : List Row) :
    (deleteWhere selects rows).filter keeps = deleteWhere selects (rows.filter keeps) := by
  unfold deleteWhere
  rw [filter_filter, filter_filter]
  exact filter_congr fun row _ => Bool.and_comm _ _

theorem map_columns_edgesAt (path : String) (db : Db) :
    edgesAt repo db path = (db.edges.map EdgeRow.columns).filter (EdgeRow.inFile repo path) :=
  map_columns_filter_edges _ (fun _ => rfl) _
theorem map_columns_nodesAt (path : String) (db : Db) :
    nodesAt repo db path = (db.nodes.map NodeRow.columns).filter (NodeRow.inFile repo path) :=
  map_columns_filter_nodes _ (fun _ => rfl) _

theorem findFile_replaced (path : String) : findFile (replaced repo file db) repo path =
      if path = file.path then
        some (Slice.fileRow repo ⟨file, ((findFile db repo file.path).map FileRow.owner).getD {}⟩)
      else findFile db repo path :=
  findFile_replaceParsedFile repo file db path

theorem nodesAt_replaced (located : ∀ node ∈ file.nodes, node.filePath = file.path)
    (free : ∀ row ∈ db.nodes, row.sourceRepoId = repo → row.filePath ≠ file.path →
      row.qualifiedName ∉ names file) (path : String) :
    nodesAt repo (replaced repo file db) path =
      if path = file.path then nodeColumns repo file.nodes else nodesAt repo db path := by
  have inserted := @insertNodeRows_apart repo file.nodes (deleteWhere (NodeRow.inFile repo file.path) db.nodes) (by
      intro node mem row kept same
      obtain ⟨inNodes, elsewhere⟩ := mem_deleteWhere.mp kept
      obtain ⟨inRepo, named⟩ := Prod.ext_iff.mp same
      have other : row.filePath ≠ file.path := by
        intro here
        exact of_decide_eq_false elsewhere ⟨inRepo, here⟩
      exact free row inNodes inRepo other (mem_map.mpr ⟨node, mem, named.symm⟩))
  have placed : ∀ row ∈ nodeColumns repo file.nodes, row.sourceRepoId = repo ∧ row.filePath = file.path := by
    intro row mem
    obtain ⟨node, inNodes, rfl⟩ := mem_nodeColumns mem
    exact ⟨rfl, located node inNodes⟩
  rw [map_columns_nodesAt, replaced_nodes, inserted, filter_append, ← map_columns_filter_nodes _ fun _ => rfl]
  by_cases same : path = file.path
  · rw [if_pos same, same, deleteWhere, filter_filter, filter_eq_nil_iff.mpr, map_nil, nil_append, filter_eq_self.mpr]
    · exact fun row mem => decide_eq_true (placed row mem)
    · intro row _
      simp
  · rw [if_neg same, filter_deleteWhere, (filter_eq_nil_iff (l := nodeColumns repo file.nodes)).mpr, append_nil]
    · rfl
    · intro row mem inFile
      exact same ((of_decide_eq_true inFile).2.symm.trans (placed row mem).2)
    · intro row inFile
      have here := (of_decide_eq_true inFile).2
      simp [NodeRow.inFile, here, same]

theorem edgesAt_replaced (located : ∀ edge ∈ file.edges, edge.filePath = file.path)
    (path : String) : edgesAt repo (replaced repo file db) path =
      if path = file.path then edgeColumns repo file.edges
      else (edgesAt repo db path).filter fun row => !row.touches repo (dropped repo file db) := by
  have placed : ∀ row ∈ edgeColumns repo file.edges, row.sourceRepoId = repo ∧ row.filePath = some file.path := by
    intro row mem
    obtain ⟨edge, inEdges, rfl⟩ := mem_map.mp mem
    exact ⟨rfl, congrArg some (located edge inEdges)⟩
  rw [map_columns_edgesAt, replaced_edges, insertEdgeRows_columns,
    filter_append, ← map_columns_filter_edges _ fun _ => rfl, ← edgeColumns]
  by_cases same : path = file.path
  · rw [if_pos same, same, deleteWhere, deleteWhere, filter_filter, filter_filter,
      filter_eq_nil_iff.mpr, map_nil, nil_append, filter_eq_self.mpr]
    · exact fun row mem => decide_eq_true (placed row mem)
    · intro row _ kept
      simp only [Bool.and_eq_true, Bool.not_eq_true'] at kept
      obtain ⟨⟨inFile, _⟩, outside⟩ := kept
      rw [inFile] at outside
      cases outside
  · rw [if_neg same, (filter_eq_nil_iff (l := edgeColumns repo file.edges)).mpr,
      append_nil, edgesAt, ← map_columns_filter_edges _ fun _ => rfl, filter_deleteWhere_comm,
      filter_deleteWhere]
    · rfl
    · intro row inFile
      have here := (of_decide_eq_true inFile).2
      simp [EdgeRow.inFile, here, same]
    · intro row mem inFile
      exact same (Option.some.inj ((of_decide_eq_true inFile).2.symm.trans (placed row mem).2))

def deleted (repo path : String) (db : Db) : Db := execAll (deleteFileGraph none repo path db) db

theorem deleted_tables (path : String) (db : Db) : ∃ documents, deleted repo path db =
      { db with
        files := deleteWhere (fun row => decide (row.sourceRepoId = repo ∧ row.path = path)) db.files
        nodes := deleteWhere (NodeRow.inFile repo path) db.nodes
        nodesFts := documents
        edges := deleteWhere (EdgeRow.touches repo (storedNames repo db path))
          (deleteWhere (EdgeRow.inFile repo path) db.edges)
        retrievalChunks :=
          deleteWhere (ChunkRow.isOf repo (storedNames repo db path)) db.retrievalChunks } := by
  have removed := removedNames_eq repo ⟨path, none, "", none, [], []⟩ db []
  rw [map_nil, filter_eq_self.mpr (by simp)] at removed
  rw [deleted, deleteFileGraph_tables, clearFile]
  exact ⟨_, by rw [removed]⟩

theorem nodesAt_deleted (removed path : String) (db : Db) :
    nodesAt repo (deleted repo removed db) path =
      if path = removed then [] else nodesAt repo db path := by
  obtain ⟨_, tables⟩ := @deleted_tables repo removed db
  rw [tables, nodesAt]
  by_cases same : path = removed
  · rw [if_pos same, same, map_eq_nil_iff, filter_eq_nil_iff]
    intro row mem inFile
    rw [(mem_deleteWhere.mp mem).2] at inFile
    cases inFile
  · rw [if_neg same, filter_deleteWhere]
    · rfl
    · intro row inFile
      have here := (of_decide_eq_true inFile).2
      simp [NodeRow.inFile, here, same]

theorem edgesAt_deleted (removed path : String) (db : Db) :
    edgesAt repo (deleted repo removed db) path =
      if path = removed then []
      else (edgesAt repo db path).filter fun row =>
        !row.touches repo (storedNames repo db removed) := by
  obtain ⟨_, tables⟩ := @deleted_tables repo removed db
  rw [tables, edgesAt]
  by_cases same : path = removed
  · rw [if_pos same, same, map_eq_nil_iff, filter_eq_nil_iff]
    intro row mem inFile
    rw [(mem_deleteWhere.mp (mem_deleteWhere.mp mem).1).2] at inFile
    cases inFile
  · rw [if_neg same, edgesAt, ← map_columns_filter_edges _ fun _ => rfl, filter_deleteWhere_comm, filter_deleteWhere]
    · rfl
    · intro row inFile
      have here := (of_decide_eq_true inFile).2
      simp [EdgeRow.inFile, here, same]

/-! ### Moving -/

def renamed (repo old new : String) (db : Db) : Db :=
  execAll (renameFileGraph none repo old new db) db

theorem map_filter_updateWhere {Row Shape : Type} {selects keeps picks : Row → Bool}
    {assign : Row → Row} {column shape : Row → Shape} {rows : List Row}
    (picked : ∀ row ∈ rows, keeps (if selects row then assign row else row) = picks row)
    (shaped : ∀ row ∈ rows, picks row = true → column (if selects row then assign row else row) = shape row) :
    ((updateWhere selects assign rows).filter keeps).map column = (rows.filter picks).map shape := by
  have same : rows.filter (keeps ∘ fun row => if selects row then assign row else row) = rows.filter picks := filter_congr picked
  rw [updateWhere, filter_map, map_map, same]
  refine map_congr_left fun row mem => ?_
  obtain ⟨inRows, isPicked⟩ := mem_filter.mp mem
  exact shaped row inRows isPicked

/-- What a file holds after the rows of one file moved to a free one. -/
theorem map_filter_moved {Row Shape : Type}
    {inFile : String → Row → Bool} {assign : Row → Row} {column : Row → Shape}
    {rows : List Row} {old new : String} (differ : old ≠ new) (free : ∀ row ∈ rows, inFile new row = false)
    (moved : ∀ path row, inFile old row = true → inFile path (assign row) = decide (path = new))
    (apart : ∀ path row, inFile path row = true → inFile old row = true → path = old) (path : String) :
    ((updateWhere (inFile old) assign rows).filter (inFile path)).map column =
      if path = old then [] else if path = new then (rows.filter (inFile old)).map fun row => column (assign row)
      else (rows.filter (inFile path)).map column := by
  split
  · next isOld =>
    rw [isOld, map_eq_nil_iff, filter_eq_nil_iff]
    intro row mem here
    obtain ⟨before, _, rfl⟩ := mem_map.mp mem
    split at here
    · next was =>
      rw [moved _ _ was] at here
      exact differ (of_decide_eq_true here)
    · next outside => exact outside here
  · next notOld =>
    split
    · next isNew =>
      rw [isNew]
      apply map_filter_updateWhere
      · intro row mem
        split
        · next was => rw [moved _ _ was, was, decide_eq_true rfl]
        · next outside => rw [free row mem, Bool.eq_false_iff.mpr outside]
      · intro row _ was
        rw [if_pos was]
    · next notNew =>
      apply map_filter_updateWhere
      · intro row _
        split
        · next was =>
          rw [moved _ _ was, decide_eq_false notNew]
          exact (Bool.eq_false_iff.mpr fun here => notOld (apart path row here was)).symm
        · rfl
      · intro row _ here
        rw [if_neg fun was => notOld (apart path row here was)]

section
variable {old new : String} {db : Db}

theorem nodesAt_renamed (differ : old ≠ new) (vacant : nodesAt repo db new = []) (path : String) :
    nodesAt repo (renamed repo old new db) path =
      if path = old then []
      else if path = new then (nodesAt repo db old).map fun row => { row with filePath := new }
      else nodesAt repo db path := by
  have none := filter_eq_nil_iff.mp (map_eq_nil_iff.mp vacant)
  rw [renamed, nodesAt, renameFileGraph_nodes, map_filter_moved differ fun row mem => Bool.eq_false_iff.mpr (none row mem)]
  · rw [nodesAt, map_map]
    rfl
  · intro path row was
    simp [NodeRow.inFile, (of_decide_eq_true was).1, eq_comm]
  · exact fun path row here was => (of_decide_eq_true here).2.symm.trans (of_decide_eq_true was).2

theorem edgesAt_renamed (differ : old ≠ new) (vacant : edgesAt repo db new = []) (path : String) :
    edgesAt repo (renamed repo old new db) path =
      if path = old then []
      else if path = new then
        (edgesAt repo db old).map fun row => { row with filePath := some new }
      else edgesAt repo db path := by
  have none := filter_eq_nil_iff.mp (map_eq_nil_iff.mp vacant)
  obtain ⟨_, tables⟩ := renameFileGraph_tables repo old new db
  rw [renamed, edgesAt, tables, moveFile, map_filter_moved differ fun row mem => Bool.eq_false_iff.mpr (none row mem)]
  · rw [edgesAt, map_map]
    rfl
  · intro path row was
    simp [EdgeRow.inFile, (of_decide_eq_true was).1, eq_comm]
  · exact fun path row here was => Option.some.inj ((of_decide_eq_true here).2.symm.trans (of_decide_eq_true was).2)

theorem chunk_nodeNamed_renamed (name : String) :
    (nodeNamed repo (renamed repo old new db) name).map NodeRow.chunk =
      (nodeNamed repo db name).map NodeRow.chunk := by
  have found : (renamed repo old new db).nodes.find? (fun row => decide (row.key = (repo, name))) =
    (db.nodes.find? fun row => decide (row.key = (repo, name))).map fun row =>
        if NodeRow.inFile repo old row then { row with filePath := new } else row := by
    rw [renamed, renameFileGraph_nodes]
    refine find?_updateWhere ?_ db.nodes
    intro row
    rfl
  unfold nodeNamed
  rw [found]
  simp only [Option.map_map]
  congr 1
  funext row
  simp only [Function.comp_apply]
  split
  all_goals rfl

end

/-! ### Retrieval chunks -/

variable {rows : List ChunkRow}

theorem chunksOf_upsert {node : Node} {held : Option NodeRow}
    (shape : chunksOf repo rows node.qualifiedName = held.toList.map NodeRow.chunk)
    (name : String) :
    chunksOf repo (upsertChunkRow repo rows node) name =
      if name = node.qualifiedName then [NodeRow.chunk (nodeRow repo 0 node)]
      else chunksOf repo rows name := by
  by_cases same : name = node.qualifiedName
  · subst same
    rw [if_pos rfl]
    cases held with
    | none =>
      have none := map_eq_nil_iff.mp shape
      have absent : hasKey ChunkRow.key (repo, node.qualifiedName, 0) rows = false := by
        rw [hasKey_eq_false_iff]
        intro row mem key
        refine filter_eq_nil_iff.mp none row mem ?_
        simp only [ChunkRow.key, Prod.mk.injEq] at key
        simp [ChunkRow.isOf, key]
      unfold upsertChunkRow insertOrUpdate
      rw [if_neg (by simpa [ChunkRow.key] using absent), chunksOf, filter_append, none]
      simp [ChunkRow.isOf, ChunkRow.columns, NodeRow.chunk, rowToNode, nodeRow, Node.chunkText]
    | some named =>
      -- The one row that is there is updated in place.
      obtain ⟨row, only, columns⟩ := map_eq_singleton_iff.mp shape
      obtain ⟨mem, isChunk⟩ := mem_filter.mp (only ▸ mem_singleton_self row)
      obtain ⟨inRepo, ofNode⟩ : row.sourceRepoId = repo ∧ row.nodeQn = node.qualifiedName := by
        simpa [ChunkRow.isOf] using isChunk
      have first : row.chunkIdx = 0 := congrArg ChunkRow.chunkIdx columns
      have unembedded : row.embedding = none := congrArg ChunkRow.embedding columns
      have present : hasKey ChunkRow.key (repo, node.qualifiedName, 0) rows = true :=
        hasKey_iff.mpr ⟨row, mem, by rw [ChunkRow.key, inRepo, ofNode, first]⟩
      unfold upsertChunkRow insertOrUpdate
      rw [if_pos (by simpa [ChunkRow.key] using present), chunksOf]
      refine (@map_filter_updateWhere ChunkRow ChunkRow _ _
        (ChunkRow.isOf repo [node.qualifiedName]) _ _ (fun _ => NodeRow.chunk (nodeRow repo 0 node))
        rows ?_ ?_).trans ?_
      · intro other _
        split
        all_goals rfl
      · intro other isRow picked
        have same := mem_filter.mpr ⟨isRow, picked⟩
        rw [only, mem_singleton] at same
        subst same
        rw [if_pos (by simp [ChunkRow.key, inRepo, ofNode, first])]
        simp [ChunkRow.columns, NodeRow.chunk, rowToNode, nodeRow, Node.chunkText, inRepo, ofNode, first, unembedded]
      · rw [only]
        rfl
  · rw [if_neg same, chunksOf, chunksOf, upsertChunkRow]
    congr 1
    refine filter_insertOrUpdate ?_ ?_ rows
    · intro row
      rfl
    · intro row key
      simp only [ChunkRow.key, Prod.mk.injEq] at key
      simp [ChunkRow.isOf, key, Ne.symm same]

theorem chunksOf_upserts (nodes : List Node)
    (cleared : ∀ node ∈ nodes, chunksOf repo rows node.qualifiedName = []) (name : String) :
    chunksOf repo (nodes.foldl (upsertChunkRow repo) rows) name =
      if name ∈ nodes.map Node.qualifiedName then
        ((nodeColumns repo nodes).find? fun row => decide (row.key = (repo, name))).toList.map NodeRow.chunk
      else chunksOf repo rows name := by
  induction nodes using reverseRecOn generalizing name with
  | nil => rfl
  | append_singleton nodes node ih =>
    have before := ih fun other mem => cleared other (mem_append_left _ mem)
    have held : chunksOf repo (nodes.foldl (upsertChunkRow repo) rows) node.qualifiedName =
      ((nodeColumns repo nodes).find? fun row =>
          decide (row.key = (repo, node.qualifiedName))).toList.map NodeRow.chunk := by
      rw [before]
      split
      · rfl
      · next absent =>
          rw [cleared node (mem_append_right _ mem_cons_self), find?_eq_none.mpr]
          · rfl
          · intro row mem key
            obtain ⟨other, inNodes, rfl⟩ := mem_nodeColumns mem
            have named : other.qualifiedName = node.qualifiedName := congrArg Prod.snd (of_decide_eq_true key)
            exact absent (named ▸ mem_map_of_mem inNodes)
    rw [foldl_append, foldl_cons, foldl_nil, chunksOf_upsert held, nodeColumns_append, find?_insertOrReplace]
    by_cases same : name = node.qualifiedName
    · subst same
      have own : (nodeRow repo 0 node).key = (repo, node.qualifiedName) := rfl
      rw [if_pos rfl, if_pos (by simp), if_pos own]
      rfl
    · have other : (nodeRow repo 0 node).key ≠ (repo, name) := by
        intro key
        exact same (congrArg Prod.snd key).symm
      rw [if_neg same, if_neg other, before]
      simp [same]

theorem chunksOf_replaceChunkRows (nodes : List Node)
    {stored : List String} (held : ∀ node ∈ nodes, node.qualifiedName ∈ stored)
    (holds : ∀ name ∈ stored, name ∈ nodes.map Node.qualifiedName) (name : String) :
    chunksOf repo (replaceChunkRows repo stored nodes rows) name =
      if name ∈ nodes.map Node.qualifiedName then
        ((nodeColumns repo nodes).find? fun row => decide (row.key = (repo, name))).toList.map NodeRow.chunk
      else chunksOf repo rows name := by
  unfold replaceChunkRows
  rw [chunksOf_upserts]
  · split
    · rfl
    · next absent => rw [chunksOf_delete, if_neg fun listed => absent (holds name listed)]
  · intro node mem
    rw [chunksOf_delete, if_pos (held node mem)]

end
end Atlas.Engine
