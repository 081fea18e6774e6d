import Atlas.Store.FullTextIndex

/-! Which node rows a replacement of one file leaves alone. Rows are removed by
`file_path` and inserted under a key on `qualified_name`. -/
namespace Atlas.Store
open List Core Sql

def Mutation.repo : Mutation → String
  | .replaceFileGraph repo _ _ _ _ _ _ => repo
  | .replaceFilesTransactional repo _ => repo
  | .deleteFileGraph repo _ => repo
  | .renameFileGraph repo _ _ => repo

def NodeRow.columns (row : NodeRow) : NodeRow := { row with id := 0 }

def ReplacedOnly (repo path : String) (nodes : List Node) (before after : Db) : Prop :=
  (after.nodes.filter fun row => decide (row.filePath ≠ path)) = (before.nodes.filter fun row => decide (row.filePath ≠ path)) ∧
    ((after.nodes.filter fun row => decide (row.filePath = path)).map NodeRow.columns).Perm (nodes.map (nodeRow repo 0))

instance (repo path : String) (nodes : List Node) (before after : Db) :
    Decidable (ReplacedOnly repo path nodes before after) := inferInstanceAs (Decidable (_ ∧ _))

structure OneRepo (repo : String) (rows : List NodeRow) : Prop where
  written : ∀ row ∈ rows, row.sourceRepoId = repo
  unique : (rows.map NodeRow.key).Nodup

namespace OneRepo

variable {repo : String} {rows : List NodeRow}

theorem empty : OneRepo repo [] := ⟨by simp, nodup_nil⟩

theorem filter (owned : OneRepo repo rows) (keeps : NodeRow → Bool) :
    OneRepo repo (rows.filter keeps) where
  written row mem := owned.written row (mem_filter.mp mem).1
  unique := List.Nodup.sublist (List.Sublist.map _ filter_sublist) owned.unique

theorem insertNodeRows (owned : OneRepo repo rows) (nodes : List Node) :
    OneRepo repo (insertNodeRows repo nodes rows) := by
  induction nodes generalizing rows with
  | nil => exact owned
  | cons node rest ih =>
    refine ih ⟨?_, keys_nodup_insertOrReplace _ owned.unique⟩
    intro row mem
    rcases mem_insertOrReplace.mp mem with ⟨old, _⟩ | rfl
    · exact owned.written row old
    · rfl

theorem move (owned : OneRepo repo rows) (selects : NodeRow → Bool) (newPath : String) :
    OneRepo repo (updateWhere selects (fun row => { row with filePath := newPath }) rows) where
  written row mem := by
    obtain ⟨old, oldMem, rfl⟩ := mem_map.mp mem
    by_cases selected : selects old = true <;>
      simpa [selected] using owned.written old oldMem
  unique := by
    have sameKeys : (updateWhere selects (fun row => { row with filePath := newPath }) rows).map
      NodeRow.key = rows.map NodeRow.key := by
      rw [updateWhere, map_map]
      refine map_congr_left fun row _ => ?_
      by_cases selected : selects row = true <;> simp [selected, NodeRow.key]
    rw [sameKeys]
    exact owned.unique

end OneRepo

theorem doReplaceFileGraph_nodes (repo path hash : String) (language : Option String)
    (size : Option Nat) (nodes : List Node) (edges : List Edge) (db : Db) :
    (execAll (doReplaceFileGraph none repo path hash language size nodes edges db) db).nodes =
      insertNodeRows repo nodes (deleteWhere (NodeRow.inFile repo path) db.nodes) := by
  obtain ⟨documents, rowid, ran⟩ := doReplaceFileGraph_tables repo path hash language size nodes edges db
  rw [ran]
  rfl

theorem renameFileGraph_nodes (repo oldPath newPath : String) (db : Db) :
    (execAll (renameFileGraph none repo oldPath newPath db) db).nodes =
      updateWhere (NodeRow.inFile repo oldPath) (fun row => { row with filePath := newPath }) db.nodes := by
  rw [renameFileGraph_eq]
  generalize renamedDocuments repo oldPath newPath db = documents
  have indexing : ∀ current : Db, (execAll (documents.map Statement.ftsInsert) current).nodes = current.nodes := by
    induction documents with
    | nil => exact fun _ => rfl
    | cons document rest ih => exact fun current => (ih _).trans rfl
  exact indexing _

theorem OneRepo.commit {nfc : String → String}
    {mutation : Mutation} {db : Db} (owned : OneRepo mutation.repo db.nodes) :
    OneRepo mutation.repo (mutation.commit nfc db).nodes := by
  rw [mutation.commit_eq]
  cases mutation with
  | replaceFileGraph repo path hash language size nodes edges =>
    cases accepted : canonicalizeGraphSlice nfc path nodes edges with
    | error error => simpa [Mutation.body, accepted] using owned
    | ok slice =>
      simp only [Mutation.body, accepted, runBlocks_cons, runBlocks_nil, doReplaceFileGraph_nodes]
      exact (owned.filter _).insertNodeRows slice.nodes
  | replaceFilesTransactional repo files =>
    cases accepted : files.mapM (canonicalizeParsedFile nfc) with
    | error error => simpa [Mutation.body, accepted] using owned
    | ok normal =>
      simp only [Mutation.body, accepted]
      clear accepted
      induction normal generalizing db with
      | nil => exact owned
      | cons file rest ih =>
        refine ih ?_
        rw [replaceParsedFile, doReplaceFileGraph_nodes]
        exact (owned.filter _).insertNodeRows file.nodes
  | deleteFileGraph repo path =>
    cases accepted : canonicalizeRepoPath nfc path with
    | error error => simpa [Mutation.body, accepted] using owned
    | ok canonical =>
      simp only [Mutation.body, accepted, runBlocks_cons, runBlocks_nil, deleteFileGraph_tables]
      exact owned.filter _
  | renameFileGraph repo oldPath newPath =>
    simp only [Mutation.body]
    split
    · split
      · exact owned
      · simp only [runBlocks_cons, runBlocks_nil, renameFileGraph_nodes]
        exact owned.move _ _
    · exact owned

theorem OneRepo.run {nfc : String → String} {repo : String} (mutations : List Mutation) {db : Db}
    (owned : OneRepo repo db.nodes) (oneRepo : ∀ mutation ∈ mutations, mutation.repo = repo) :
    OneRepo repo (run nfc mutations db).nodes := by
  induction mutations generalizing db with
  | nil => exact owned
  | cons mutation rest ih =>
    have same := oneRepo mutation (.head _)
    subst same
    exact ih owned.commit fun later mem => oneRepo later (.tail _ mem)

theorem insertNodeRows_fresh {repo : String}
    (nodes : List Node) (rows : List NodeRow) (nodup : (nodes.map Node.qualifiedName).Nodup)
    (fresh : ∀ node ∈ nodes, ∀ row ∈ rows, row.key ≠ (repo, node.qualifiedName)) :
    ∃ added, insertNodeRows repo nodes rows = rows ++ added ∧ added.map NodeRow.columns = nodes.map (nodeRow repo 0) := by
  induction nodes generalizing rows with
  | nil => exact ⟨[], by simp [insertNodeRows], rfl⟩
  | cons node rest ih =>
    obtain ⟨notLater, restDistinct⟩ := nodup_cons.mp nodup
    have appended : insertOrReplace NodeRow.key (nodeRow repo (nextRowid NodeRow.id rows) node)
      rows = rows ++ [nodeRow repo (nextRowid NodeRow.id rows) node] :=
      insertOrReplace_fresh (fresh node (.head _))
    obtain ⟨added, inserted, columns⟩ := ih (rows ++ [nodeRow repo (nextRowid NodeRow.id rows) node]) restDistinct (by
        intro later laterMem row mem same
        rcases mem_append.mp mem with old | new
        · exact fresh later (.tail _ laterMem) row old same
        · rw [mem_singleton.mp new] at same
          have sameName : node.qualifiedName = later.qualifiedName := congrArg Prod.snd same
          exact notLater (sameName ▸ mem_map_of_mem laterMem))
    refine ⟨nodeRow repo (nextRowid NodeRow.id rows) node :: added, ?_, ?_⟩
    · rw [← appended] at inserted
      rw [insertNodeRows, foldl_cons]
      refine inserted.trans ?_
      rw [appended, append_assoc]
      rfl
    · rw [map_cons, columns]
      rfl

theorem mem_insertNodeRows {repo : String} (nodes : List Node) {rows : List NodeRow}
    {row : NodeRow} (mem : row ∈ insertNodeRows repo nodes rows) :
    (row ∈ rows ∧ ∀ node ∈ nodes, row.key ≠ (repo, node.qualifiedName)) ∨ ∃ node ∈ nodes, ∃ id, row = nodeRow repo id node := by
  induction nodes generalizing rows with
  | nil => exact .inl ⟨mem, by simp⟩
  | cons node rest ih =>
    rcases ih mem with ⟨old, differs⟩ | ⟨later, laterMem, id, rfl⟩
    · rcases mem_insertOrReplace.mp old with ⟨old, differsFirst⟩ | rfl
      · exact .inl ⟨old, forall_mem_cons.mpr ⟨differsFirst, differs⟩⟩
      · exact .inr ⟨node, .head _, _, rfl⟩
    · exact .inr ⟨later, .tail _ laterMem, id, rfl⟩

section
variable {repo path : String} {nodes : List Node} {before after : Db}

section
variable (owned : OneRepo repo before.nodes)
  (located : ∀ node ∈ nodes, node.filePath = path) (replaced :
    after.nodes = insertNodeRows repo nodes (deleteWhere (NodeRow.inFile repo path) before.nodes))
include owned located replaced

theorem replacedOnly_of_namesFree
    (free : NamesFree (holdings repo before) path (nodes.map Node.qualifiedName)) :
    ReplacedOnly repo path nodes before after := by
  have others : deleteWhere (NodeRow.inFile repo path) before.nodes = before.nodes.filter fun row =>
    decide (row.filePath ≠ path) := by
    refine filter_congr fun row mem => ?_
    simp [NodeRow.inFile, owned.written row mem]
  obtain ⟨added, inserted, columns⟩ := insertNodeRows_fresh nodes (deleteWhere (NodeRow.inFile repo path) before.nodes) free.1 (by
      rintro node mem row rowMem same
      rw [others] at rowMem
      obtain ⟨rowMem, elsewhere⟩ := mem_filter.mp rowMem
      have sameName : row.qualifiedName = node.qualifiedName := congrArg Prod.snd same
      refine free.2 (row.filePath, row.qualifiedName) ?_ (by simpa using elsewhere) ?_
      · refine mem_map.mpr ⟨row, mem_filter.mpr ⟨rowMem, ?_⟩, rfl⟩
        simpa using owned.written row rowMem
      · exact sameName ▸ mem_map_of_mem mem)
  have placed : ∀ row ∈ added, row.filePath = path := by
    intro row mem
    have listed : row.columns ∈ nodes.map (nodeRow repo 0) := columns ▸ mem_map_of_mem mem
    obtain ⟨node, nodeMem, same⟩ := mem_map.mp listed
    have samePath : node.filePath = row.filePath := congrArg NodeRow.filePath same
    exact samePath ▸ located node nodeMem
  rw [others] at inserted replaced
  rw [inserted] at replaced
  constructor
  · rw [replaced, filter_append, filter_filter]
    have none : (added.filter fun row => decide (row.filePath ≠ path)) = [] :=
      filter_eq_nil_iff.mpr fun row mem => by simpa using placed row mem
    rw [none, append_nil]
    exact filter_congr fun row _ => by simp
  · rw [replaced, filter_append, filter_filter]
    have all : (added.filter fun row => decide (row.filePath = path)) = added :=
      filter_eq_self.mpr fun row mem => by simpa using placed row mem
    have none : (before.nodes.filter fun row =>
        decide (row.filePath = path) && decide (row.filePath ≠ path)) = [] :=
      filter_eq_nil_iff.mpr fun row _ => by simp
    rw [all, none, nil_append, columns]

theorem namesFree_of_replacedOnly (only : ReplacedOnly repo path nodes before after) :
    NamesFree (holdings repo before) path (nodes.map Node.qualifiedName) := by
  obtain ⟨others, exactly⟩ := only
  have ownedAfter : OneRepo repo after.nodes := by
    rw [replaced]
    exact (owned.filter _).insertNodeRows nodes
  constructor
  · have keys : ((after.nodes.filter fun row => decide (row.filePath = path)).map NodeRow.key).Perm
      (nodes.map fun node => (repo, node.qualifiedName)) := by
      have moved := exactly.map NodeRow.key
      rw [map_map, map_map] at moved
      exact moved
    have unique := keys.nodup_iff.mp (ownedAfter.filter _).unique
    have paired : (nodes.map fun node => (repo, node.qualifiedName)) =
      (nodes.map Node.qualifiedName).map fun name => (repo, name) := by
      rw [map_map]
      rfl
    rw [paired] at unique
    exact List.Nodup.of_map _ unique
  · rintro holding mem elsewhere taken
    obtain ⟨row, rowMem, rfl⟩ := mem_map.mp mem
    obtain ⟨rowMem, inRepo⟩ := mem_filter.mp rowMem
    obtain ⟨node, nodeMem, sameName⟩ := mem_map.mp taken
    have kept : row ∈ after.nodes := by
      have stays : row ∈ before.nodes.filter fun row => decide (row.filePath ≠ path) :=
        mem_filter.mpr ⟨rowMem, by simpa using elsewhere⟩
      rw [← others] at stays
      exact (mem_filter.mp stays).1
    rw [replaced] at kept
    rcases mem_insertNodeRows nodes kept with ⟨_, differs⟩ | ⟨writer, writerMember, id, rfl⟩
    · refine differs node nodeMem ?_
      simpa [NodeRow.key, sameName] using inRepo
    · exact elsewhere (located writer writerMember)

end
end

/-- In every state that one repository's operations reach, replacing a file leaves
the other files alone and stores exactly the given nodes if and only if the
canonical names are distinct and no other file holds one of them. -/
theorem replaceFileGraph_replacedOnly_iff (nfc : String → String) (repo : String)
    (mutations : List Mutation) (oneRepo : ∀ mutation ∈ mutations, mutation.repo = repo)
    (path hash : String) (language : Option String) (size : Option Nat) (nodes : List Node)
    (edges : List Edge) (slice : CanonicalizedGraphData)
    (accepted : canonicalizeGraphSlice nfc path nodes edges = .ok slice) :
    ReplacedOnly repo slice.path slice.nodes (run nfc mutations Db.empty)
      ((Mutation.replaceFileGraph repo path hash language size nodes edges).commit nfc
      (run nfc mutations Db.empty)) ↔
      NamesFree (holdings repo (run nfc mutations Db.empty)) slice.path (slice.nodes.map Node.qualifiedName) := by
  have owned : OneRepo repo (run nfc mutations Db.empty).nodes := OneRepo.empty.run mutations oneRepo
  have located := canonicalizeGraphSlice_located accepted
  have replaced := doReplaceFileGraph_nodes repo slice.path hash language size slice.nodes
    slice.edges (run nfc mutations Db.empty)
  rw [Mutation.commit_eq]
  simp only [Mutation.body, accepted, runBlocks_cons, runBlocks_nil]
  exact ⟨namesFree_of_replacedOnly owned located replaced, replacedOnly_of_namesFree owned located replaced⟩

theorem replaceFileGraph_replacedOnly_sample :
    ReplacedOnly "repo" "b.rs" [functionNode "b.rs" "f"] (run id [writeFunction "a.rs"] Db.empty)
      ((writeFunction "b.rs").commit id (run id [writeFunction "a.rs"] Db.empty)) :=
  (replaceFileGraph_replacedOnly_iff id "repo" [writeFunction "a.rs"] (by simp [writeFunction,
    Mutation.repo]) "b.rs" "h" none none [functionNode "b.rs" "f"] []
    ⟨"b.rs", [functionNode "b.rs" "f"], []⟩ (by decide)).mpr (by decide)

/-- Writing `a.rs` again after a rename deletes the node that moved to `b.rs`. -/
theorem replaceFileGraph_drops_renamed_node : ¬ ReplacedOnly "repo" "a.rs" [functionNode "a.rs" "f"]
    (run id [writeFunction "a.rs", .renameFileGraph "repo" "a.rs" "b.rs"] Db.empty)
      ((writeFunction "a.rs").commit id (run id [writeFunction "a.rs", .renameFileGraph "repo" "a.rs" "b.rs"] Db.empty)) := by
  decide

end Atlas.Store
