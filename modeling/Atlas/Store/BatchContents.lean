import Atlas.Store.BatchOrder

/-! What a batch leaves under the path of each of its files, and under other paths. -/
namespace Atlas.Store
open List Core Sql

variable {file : ParsedFile} {before after : List ParsedFile}

/-- The rows of a file are those of its parse, up to row ids. -/
structure StoredAs (repo : String) (db : Db) (file : ParsedFile) : Prop where
  nodes : ((db.nodes.filter (NodeRow.inFile repo file.path)).map NodeRow.columns).Perm (file.nodes.map (nodeRow repo 0))
  edges : ((db.edges.filter (EdgeRow.inFile repo file.path)).map EdgeRow.columns).Perm (edgeRows repo file)
  row : (db.files.find? fun row => decide (row.key = (repo, file.path))).map
    (fun row => (row.hash, row.language, row.size)) = some (file.hash, file.language, file.size)

section
variable {repo : String} {files : List ParsedFile} {db : Db}

theorem find?_replaced_files (file : ParsedFile) (path : String) :
    ((replaced repo file db).files.find? fun row => decide (row.key = (repo, path))).map
      (fun row => (row.hash, row.language, row.size)) =
      if file.path = path then some (file.hash, file.language, file.size)
      else (db.files.find? fun row => decide (row.key = (repo, path))).map fun row => (row.hash, row.language, row.size) := by
  rw [replaced_files, Statement.replaceFileRow]
  simp only
  rw [find?_insertOrReplace]
  by_cases same : file.path = path
  all_goals simp [FileRow.key, same]

theorem find?_batch_files_absent {path : String} (absent : ∀ file ∈ files, file.path ≠ path) :
    ((batch repo files db).files.find? fun row => decide (row.key = (repo, path))).map
      (fun row => (row.hash, row.language, row.size)) =
      (db.files.find? fun row => decide (row.key = (repo, path))).map fun row => (row.hash, row.language, row.size) := by
  induction files generalizing db with
  | nil => rfl
  | cons file rest ih =>
    rw [batch_cons, ih fun later mem => absent later (mem_cons_of_mem _ mem), find?_replaced_files,
      if_neg (absent file mem_cons_self)]

theorem find?_batch_files (paths : (files.map ParsedFile.path).Nodup) (mem : file ∈ files) :
    ((batch repo files db).files.find? fun row => decide (row.key = (repo, file.path))).map
      (fun row => (row.hash, row.language, row.size)) =
      some (file.hash, file.language, file.size) := by
  induction files generalizing db with
  | nil => cases mem
  | cons first rest ih =>
    obtain ⟨notLater, restPaths⟩ := nodup_cons.mp paths
    rw [batch_cons]
    cases mem_cons.mp mem with
    | inl same =>
      subst same
      have absent : ∀ later ∈ rest, later.path ≠ file.path :=
        fun later laterMem samePath => notLater (samePath ▸ mem_map_of_mem laterMem)
      rw [find?_batch_files_absent absent, find?_replaced_files, if_pos rfl]
    | inr later => exact ih restPaths later

structure LeftAs (repo : String)
    (db : Db) (files : List ParsedFile) (file : ParsedFile) : Prop where
  nodes : ((db.nodes.filter fun row => row.inFile repo file.path && decide (row.qualifiedName ∉
    files.flatMap names)).map NodeRow.columns).Perm (file.nodes.map (nodeRow repo 0))
  edges : ((db.edges.filter fun row => row.inFile repo file.path && !row.touches repo
    (kills (storedNames repo db) [] files)).map EdgeRow.columns).Perm (edgeRows repo file)
  row : (db.files.find? fun row => decide (row.key = (repo, file.path))).map
    (fun row => (row.hash, row.language, row.size)) = some (file.hash, file.language, file.size)

theorem batch_nodes_absent (nodup : Distinct files)
    {path : String} (absent : ∀ file ∈ files, file.path ≠ path) :
    (((batch repo files db).nodes.filter (NodeRow.inFile repo path)).map NodeRow.columns).Perm
      ((db.nodes.filter fun row => row.inFile repo path &&
        decide (row.qualifiedName ∉ files.flatMap names)).map NodeRow.columns) := by
  rw [map_columns_filter_nodes _ (fun _ => rfl), map_columns_filter_nodes _ (fun _ => rfl)]
  refine ((batch_nodes nodup db).filter _).trans ?_
  have none : ((files.flatMap fun file => file.nodes.map (nodeRow repo 0)).filter (NodeRow.inFile repo path)) = [] := by
    refine filter_eq_nil_iff.mpr fun row mem inFile => ?_
    obtain ⟨file, member, found⟩ := mem_flatMap.mp mem
    obtain ⟨node, nodeMem, rfl⟩ := mem_map.mp found
    have placed := nodup.located file member node nodeMem
    exact absent file member (placed.symm.trans (of_decide_eq_true inFile).2)
  rw [filter_append, none, append_nil, filter_filter]
  refine List.Perm.of_eq (filter_congr fun row _ => ?_)
  cases inFile : row.inFile repo path with
  | false => rfl
  | true =>
    have ⟨inRepo, here⟩ : row.sourceRepoId = repo ∧ row.filePath = path := of_decide_eq_true inFile
    have outside : row.filePath ∉ files.map ParsedFile.path := by
      rw [here]
      intro listed
      obtain ⟨file, member, same⟩ := mem_map.mp listed
      exact absent file member same
    by_cases taken : row.qualifiedName ∈ files.flatMap names
    · simp only [NodeRow.goneWith, inRepo, taken, or_true, and_self, not_true, decide_true,
        decide_false, Bool.not_true, Bool.and_false]
    · simp only [NodeRow.goneWith, taken, outside, or_self, and_false, not_false_eq_true,
        decide_true, decide_false, Bool.not_false, Bool.and_true]

theorem batch_edges_absent (nodup : Distinct files)
    (own : OwnEdges files) {path : String} (absent : ∀ file ∈ files, file.path ≠ path) :
    ((batch repo files db).edges.filter (EdgeRow.inFile repo path)).map EdgeRow.columns =
      (db.edges.filter fun row => row.inFile repo path &&
        !row.touches repo (kills (storedNames repo db) [] files)).map EdgeRow.columns := by
  rw [map_columns_filter_edges _ (fun _ => rfl), map_columns_filter_edges _ (fun _ => rfl),
    batch_edges nodup (Tracks.initial repo files db), filter_append]
  have none : (survivors repo (storedNames repo db) [] files).filter (EdgeRow.inFile repo path) =
    [] := filter_eq_nil_iff.mpr (countP_eq_zero.mp (countP_survivors_absent own absent))
  rw [none, append_nil, filter_filter]
  refine filter_congr fun row _ => ?_
  cases inFile : row.inFile repo path with
  | false => rfl
  | true =>
    have ⟨inRepo, here⟩ : row.sourceRepoId = repo ∧ row.filePath = some path := of_decide_eq_true inFile
    have outside : ¬ ∃ other ∈ files.map ParsedFile.path, row.filePath = some other := by
      rintro ⟨other, listed, same⟩
      obtain ⟨file, mem, rfl⟩ := mem_map.mp listed
      exact absent file mem (Option.some.inj (same.symm.trans here))
    simp only [EdgeRow.goneWith, outside, and_false, decide_false, Bool.false_or, Bool.true_and]

theorem storedAs_batch_absent_iff (nodup : Distinct files)
    (own : OwnEdges files) (absent : ∀ other ∈ files, other.path ≠ file.path) :
    StoredAs repo (batch repo files db) file ↔ LeftAs repo db files file := by
  have nodes := @batch_nodes_absent repo files db nodup file.path absent
  have edges := @batch_edges_absent repo files db nodup own file.path absent
  have rows := @find?_batch_files_absent repo files db file.path absent
  constructor
  · intro stored
    refine ⟨nodes.symm.trans stored.nodes, ?_, ?_⟩
    · rw [← edges]
      exact stored.edges
    · rw [← rows]
      exact stored.row
  · intro left
    refine ⟨nodes.trans left.nodes, ?_, ?_⟩
    · rw [edges]
      exact left.edges
    · rw [rows]
      exact left.row

theorem survivors_inFile {stored : String → List String}
    {earlier : List String} (own : OwnEdges (before ++ file :: after))
    (elsewhere : ∀ other ∈ before ++ after, other.path ≠ file.path) :
    (survivors repo stored earlier (before ++ file :: after)).filter
      (EdgeRow.inFile repo file.path) = (edgeRows repo file).filter fun row =>
        !row.touches repo (kills stored (earlier ++ before.flatMap names ++ names file) after) := by
  induction before generalizing earlier with
  | nil =>
    have ownFile := own file (by simp)
    have none : (survivors repo stored (earlier ++ names file) after).filter (EdgeRow.inFile repo file.path) = [] :=
      filter_eq_nil_iff.mpr (countP_eq_zero.mp (countP_survivors_absent (fun later member => own later (by simp [member]))
        fun later member => elsewhere later (by simp [member])))
    rw [nil_append, survivors, filter_append, none, append_nil, filter_filter, flatMap_nil, append_nil]
    refine filter_congr fun row mem => ?_
    obtain ⟨inRepo, here⟩ := edgeRows_inFile ownFile mem
    have outside : ¬ ∃ path ∈ after.map ParsedFile.path, row.filePath = some path := by
      rintro ⟨path, listed, same⟩
      obtain ⟨later, member, rfl⟩ := mem_map.mp listed
      exact elsewhere later (by simp [member]) (Option.some.inj (same.symm.trans here))
    have inFile : row.inFile repo file.path = true := decide_eq_true ⟨inRepo, here⟩
    simp only [inFile, EdgeRow.goneWith, outside, and_false, decide_false, Bool.false_or, Bool.true_and]
  | cons first rest ih =>
    have apart : first.path ≠ file.path := elsewhere first (by simp)
    have later := @ih (earlier ++ names first) (fun other member => own other (.tail _ member))
      (fun other member => elsewhere other (.tail _ member))
    have foreign : (edgeRows repo first).filter (EdgeRow.inFile repo file.path) = [] := by
      refine filter_eq_nil_iff.mpr fun row mem inFile => ?_
      have placed := (edgeRows_inFile (own first (.head _)) mem).2
      have here : row.filePath = some file.path := (of_decide_eq_true inFile).2
      exact apart (Option.some.inj (placed.symm.trans here))
    rw [edgeRows] at foreign
    rw [cons_append, survivors, filter_append, later, filter_comm, foreign, filter_nil, nil_append,
      flatMap_cons, ← append_assoc earlier]

theorem Distinct.elsewhere (nodup : Distinct (before ++ file :: after)) :
    ∀ other ∈ before ++ after, other.path ≠ file.path := by
  have paths := nodup.paths
  rw [map_append, map_cons] at paths
  have ⟨fresh, _⟩ := nodup_cons.mp (perm_middle.nodup_iff.mp paths)
  intro other listed same
  refine fresh ?_
  rw [← map_append, ← same]
  exact mem_map_of_mem listed

theorem batch_nodes_inFile (nodup : Distinct files) (member : file ∈ files) :
    (((batch repo files db).nodes.filter (NodeRow.inFile repo file.path)).map NodeRow.columns).Perm
      (file.nodes.map (nodeRow repo 0)) := by
  rw [map_columns_filter_nodes _ (fun _ => rfl)]
  refine ((batch_nodes nodup db).filter _).trans ?_
  have old : ((db.nodes.map NodeRow.columns).filter fun row =>
      !row.goneWith repo (files.map ParsedFile.path) (files.flatMap names)).filter (NodeRow.inFile repo file.path) = [] := by
    refine filter_eq_nil_iff.mpr fun row mem inFile => ?_
    have ⟨inRepo, here⟩ : row.sourceRepoId = repo ∧ row.filePath = file.path := of_decide_eq_true inFile
    have gone : row.goneWith repo (files.map ParsedFile.path) (files.flatMap names) = true :=
      decide_eq_true ⟨inRepo, .inl (here ▸ mem_map_of_mem member)⟩
    have stays := (mem_filter.mp mem).2
    rw [gone] at stays
    cases stays
  obtain ⟨before, after, split⟩ := append_of_mem member
  have rows : ∀ other ∈ files, (other.nodes.map (nodeRow repo 0)).filter (NodeRow.inFile repo file.path) =
        if other.path = file.path then other.nodes.map (nodeRow repo 0) else [] := by
    intro other otherMem
    by_cases same : other.path = file.path
    · rw [if_pos same, filter_eq_self]
      intro row mem
      obtain ⟨node, nodeMem, rfl⟩ := mem_map.mp mem
      exact decide_eq_true ⟨rfl, (nodup.located other otherMem node nodeMem).trans same⟩
    · rw [if_neg same, filter_eq_nil_iff]
      intro row mem inFile
      obtain ⟨node, nodeMem, rfl⟩ := mem_map.mp mem
      have placed := nodup.located other otherMem node nodeMem
      exact same (placed.symm.trans (of_decide_eq_true inFile).2)
  rw [filter_append, old, nil_append, filter_flatMap]
  have elsewhere := (split ▸ nodup).elsewhere
  have empty : ∀ others : List ParsedFile,
    (∀ other ∈ others, other ∈ files ∧ other.path ≠ file.path) → (others.flatMap fun other =>
        (other.nodes.map (nodeRow repo 0)).filter (NodeRow.inFile repo file.path)) = [] := by
    intro others apart
    refine flatMap_eq_nil_iff.mpr fun other listed => ?_
    rw [rows other (apart other listed).1, if_neg (apart other listed).2]
  rw [split, flatMap_append, flatMap_cons, rows file member, if_pos rfl, empty before
    fun other listed => ⟨by rw [split]; simp [listed], elsewhere other (by simp [listed])⟩,
    empty after fun other listed => ⟨by rw [split]; simp [listed], elsewhere other (by simp [listed])⟩,
    nil_append, append_nil]

theorem batch_edges_inFile (nodup : Distinct (before ++ file :: after))
    (own : OwnEdges (before ++ file :: after)) :
    ((batch repo (before ++ file :: after) db).edges.filter (EdgeRow.inFile repo file.path)).map
      EdgeRow.columns = (edgeRows repo file).filter fun row =>
        !row.touches repo (kills (storedNames repo db) (before.flatMap names ++ names file) after) := by
  rw [map_columns_filter_edges _ (fun _ => rfl), batch_edges nodup (Tracks.initial repo _ db), filter_append]
  have old : (((db.edges.map EdgeRow.columns).filter fun row =>
      !row.goneWith repo ((before ++ file :: after).map ParsedFile.path) (kills (storedNames repo
        db) [] (before ++ file :: after))).filter (EdgeRow.inFile repo file.path)) = [] := by
    refine filter_eq_nil_iff.mpr fun row mem inFile => ?_
    have ⟨inRepo, here⟩ : row.sourceRepoId = repo ∧ row.filePath = some file.path := of_decide_eq_true inFile
    have gone : row.goneWith repo ((before ++ file :: after).map ParsedFile.path)
      (kills (storedNames repo db) [] (before ++ file :: after)) = true := by
      rw [EdgeRow.goneWith, Bool.or_eq_true]
      exact .inl (decide_eq_true ⟨inRepo, file.path, mem_map_of_mem (by simp), here⟩)
    have stays := (mem_filter.mp mem).2
    rw [gone] at stays
    cases stays
  rw [old, nil_append, survivors_inFile own nodup.elsewhere, nil_append]

def Uncut (stored : String → List String) (files : List ParsedFile) : Prop :=
  ∀ before file after, files = before ++ file :: after → ∀ edge ∈ file.edges,
    ∀ name ∈ kills stored (before.flatMap names ++ names file) after, edge.sourceQn ≠ name ∧ edge.targetQn ≠ name

theorem storedAs_batch_iff (nodup : Distinct files) (own : OwnEdges files) :
    (∀ file ∈ files, StoredAs repo (batch repo files db) file) ↔
      Uncut (storedNames repo db) files := by
  constructor
  · intro stored before file after split edge edgeMem name killed
    subst split
    have kept := (stored file (by simp)).edges
    rw [batch_edges_inFile nodup own] at kept
    have all := filter_eq_self.mp (filter_sublist.eq_of_length kept.length_eq)
    have stays := all _ (mem_map_of_mem edgeMem)
    simp only [EdgeRow.touches, edgeRow, true_and, Bool.not_eq_eq_eq_not, Bool.not_true, decide_eq_false_iff_not, not_or] at stays
    exact ⟨fun same => stays.1 (same ▸ killed), fun same => stays.2 (same ▸ killed)⟩
  · intro uncut file member
    refine ⟨batch_nodes_inFile nodup member, ?_, find?_batch_files nodup.paths member⟩
    obtain ⟨before, after, split⟩ := append_of_mem member
    subst split
    rw [batch_edges_inFile nodup own, filter_eq_self.mpr]
    intro row mem
    obtain ⟨edge, edgeMem, rfl⟩ := mem_map.mp mem
    have apart := uncut before file after rfl edge edgeMem
    have source : edge.sourceQn ∉ kills (storedNames repo db) (before.flatMap names ++ names file)
      after := fun killed => (apart _ killed).1 rfl
    have target : edge.targetQn ∉ kills (storedNames repo db) (before.flatMap names ++ names file)
      after := fun killed => (apart _ killed).2 rfl
    simp only [EdgeRow.touches, edgeRow, source, target, or_self, and_false, decide_false, Bool.not_false]

theorem keys_nodup_batch (unique : (db.nodes.map NodeRow.key).Nodup) :
    ((batch repo files db).nodes.map NodeRow.key).Nodup := by
  induction files generalizing db with
  | nil => exact unique
  | cons file rest ih =>
    rw [batch_cons]
    refine ih ?_
    rw [replaced_nodes]
    refine keys_nodup_insertNodeRows _ ?_
    exact unique.sublist (filter_sublist.map _)

theorem named_of_storedAs (unique : (db.nodes.map NodeRow.key).Nodup)
    (paths : (files.map ParsedFile.path).Nodup) (stored : ∀ file ∈ files, StoredAs repo db file) :
    (files.flatMap names).Nodup := by
  have rowNames : ∀ file ∈ files, (storedNames repo db file.path).Perm (names file) := by
    intro file member
    have rows := ((stored file member).nodes).map NodeRow.qualifiedName
    rw [map_map, map_map] at rows
    exact rows
  have inRepo : ∀ path, ∀ row ∈ db.nodes.filter (NodeRow.inFile repo path), row.sourceRepoId =
    repo ∧ row.filePath = path := fun path row mem => of_decide_eq_true (mem_filter.mp mem).2
  rw [nodup_flatMap]
  constructor
  · intro file member
    refine (rowNames file member).nodup_iff.mp ?_
    have keys := unique.sublist ((@filter_sublist _ (NodeRow.inFile repo file.path) db.nodes).map NodeRow.key)
    refine List.Nodup.of_map (fun name => (repo, name)) ?_
    rw [storedNames, map_map]
    have same : (db.nodes.filter (NodeRow.inFile repo file.path)).map NodeRow.key = (db.nodes.filter
      (NodeRow.inFile repo file.path)).map ((fun name => (repo, name)) ∘ NodeRow.qualifiedName) :=
      map_congr_left fun row mem => Prod.ext (inRepo file.path row mem).1 rfl
    rwa [← same]
  · refine (pairwise_map.mp paths).imp_of_mem ?_
    intro first second firstMem secondMem apart name inFirst inSecond
    have held := (rowNames first firstMem).mem_iff.mpr inFirst
    have alsoHeld := (rowNames second secondMem).mem_iff.mpr inSecond
    obtain ⟨row, mem, rfl⟩ := mem_map.mp held
    obtain ⟨other, otherMem, sameName⟩ := mem_map.mp alsoHeld
    have sameKey : other.key = row.key := Prod.ext ((inRepo _ other otherMem).1.trans (inRepo _ row mem).1.symm) sameName
    have same := inj_on_of_nodup_map unique (mem_filter.mp otherMem).1 (mem_filter.mp mem).1 sameKey
    exact apart ((inRepo _ row mem).2.symm.trans (same ▸ (inRepo _ other otherMem).2))

end
end Atlas.Store
