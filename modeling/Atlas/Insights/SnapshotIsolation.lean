import Atlas.Insights.Snapshot

/-! What other repositories of a store can do to the snapshot of one. -/
namespace Atlas.Insights
open List Core Store
open Program (filter_insertionSort)

/-! ## The parts of a path -/

section
variable (db : Db) (path : String)

def ownerAt : Option String :=
  match singleSourceRepoIdForPath db path with
  | some repo => (findFile db repo path).bind fun row => row.owner.storedOwnerId
  | none => none

def isAt (row : NodeRow) : Bool := decide (row.filePath = path)
def isEdgeAt (row : EdgeRow) : Bool := decide (row.filePath = some path)

instance : Std.Total fun left right : NodeRow => left.lineStart ≤ right.lineStart :=
  ⟨fun _ _ => Nat.le_total _ _⟩

instance : IsTrans NodeRow fun left right => left.lineStart ≤ right.lineStart :=
  ⟨fun _ _ _ => Nat.le_trans⟩

def byLine (rows : List NodeRow) : List NodeRow :=
  rows.insertionSort fun left right => left.lineStart ≤ right.lineStart

private theorem byLine_filter (keep : NodeRow → Bool) (rows : List NodeRow) :
    (byLine rows).filter keep = byLine (rows.filter keep) := filter_insertionSort keep rows

def edgesAt : List Edge := (db.edges.filter (isEdgeAt path)).filterMap rowToEdge

variable (config : InsightsConfig)

def isKept (ownerId : Option String) (row : NodeRow) : Bool :=
  !isIgnoredNode config (rowToNode row) ownerId
def allowedAt : List Node :=
  (byLine ((db.nodes.filter (isAt path)).filter (isKept config (ownerAt db path)))).map rowToNode

end

def isBetween (nodes : List Node) (edge : Edge) : Bool :=
  decide (edge.filePath ∈ nodes.map Node.filePath ∧ edge.sourceQn ∈ nodes.map Node.qualifiedName ∧
    edge.targetQn ∈ nodes.map Node.qualifiedName)

def view (config : InsightsConfig)
    (db : Db) (paths : List String) (hashes : List (String × String)) : GraphSnapshot :=
  let nodes := paths.flatMap fun path => allowedAt db path config
  { nodes
    edges := (paths.flatMap (edgesAt db)).filter (isBetween nodes)
    ownerByFile := (paths.map fun path => (path, ownerAt db path)).filter fun entry =>
      decide (entry.1 ∈ nodes.map Node.filePath)
    fileHashByFile := hashes.filter fun entry => decide (entry.1 ∈ nodes.map Node.filePath) }

def pathsOf (db : Db) (repo : String) : List String :=
  ascending (((fileHashes db repo).insertionSort fun left right => left.1 ≤ right.1).map Prod.fst)

structure StoredPaths (nfc : String → String) (repo : String) (db : Db) : Prop where
  unique : ((fileHashes db repo).map Prod.fst).Nodup
  canonical : ∀ path ∈ (fileHashes db repo).map Prod.fst, canonicalizeRepoPath nfc path = .ok path

section
variable {nfc : String → String} {config : InsightsConfig} {db : Db} {repo path : String}

private theorem mem_pathsOf : path ∈ pathsOf db repo ↔ path ∈ (fileHashes db repo).map Prod.fst := by
  unfold pathsOf ascending
  rw [mem_insertionSort, mem_map, mem_map]
  simp only [mem_insertionSort]

theorem StoredPaths.nodup (stored : StoredPaths nfc repo db) : (pathsOf db repo).Nodup := by
  unfold pathsOf ascending
  rw [(perm_insertionSort _ _).nodup_iff, ((perm_insertionSort _ _).map _).nodup_iff]
  exact stored.unique

theorem isAt_of_mem_allowedAt {node : Node} (mem : node ∈ allowedAt db path config) :
    node.filePath = path := by
  obtain ⟨row, isRow, rfl⟩ := mem_map.mp mem
  have inRows := (perm_insertionSort _ _).mem_iff.mp isRow
  exact of_decide_eq_true (mem_filter.mp (mem_filter.mp inRows).1).2

theorem isAt_of_mem_edgesAt {edge : Edge} (mem : edge ∈ edgesAt db path) :
    edge.filePath = path := by
  obtain ⟨row, isRow, isEdge⟩ := mem_filterMap.mp mem
  have atPath : row.filePath = some path := of_decide_eq_true (mem_filter.mp isRow).2
  rw [rowToEdge, atPath] at isEdge
  cases isEdge
  rfl

private theorem loadFiles_ok (paths : List String)
    (canonical : ∀ path ∈ paths, canonicalizeRepoPath nfc path = .ok path) (loaded : Loaded) :
    loadFiles nfc db paths loaded = .ok
      { ownerByFile := loaded.ownerByFile ++ paths.map fun path => (path, ownerAt db path)
        nodes := loaded.nodes ++ paths.flatMap fun path => (byLine (db.nodes.filter (isAt path))).map rowToNode
        edges := loaded.edges ++ paths.flatMap (edgesAt db) } := by
  induction paths generalizing loaded with
  | nil => simp [loadFiles]
  | cons path rest ih =>
    have here := canonical path (.head _)
    have owner : fileOwnerId nfc db path = .ok (ownerAt db path) := by
      unfold fileOwnerId ownerAt
      rw [here]
      cases found : singleSourceRepoIdForPath db path with
      | none => simp [bind, Except.bind, found]
      | some repo => simp [bind, Except.bind, found, fileOwnerIdForRepo, here]
    have nodes : nodesByFile nfc db path = .ok ((byLine (db.nodes.filter (isAt path))).map rowToNode) := by
      unfold nodesByFile
      rw [here]
      rfl
    have edges : edgesByFile nfc db path = .ok (edgesAt db path) := by
      unfold edgesByFile
      rw [here]
      rfl
    unfold loadFiles
    rw [owner, nodes, edges]
    simp only [bind, Except.bind]
    rw [ih fun other mem => canonical other (mem_cons_of_mem _ mem)]
    simp only [append_assoc, singleton_append, map_cons, flatMap_cons]

private theorem find?_keyed {Value : Type}
    (value : String → Value) {paths : List String} (mem : path ∈ paths) :
    (paths.map fun path => (path, value path)).find? (fun entry => decide (entry.1 = path)) = some (path, value path) := by
  induction paths with
  | nil => cases mem
  | cons first rest ih =>
    rw [map_cons]
    by_cases same : first = path
    · subst same
      exact find?_cons_of_pos (decide_eq_true rfl)
    · rw [find?_cons_of_neg (by simpa using same)]
      exact ih ((mem_cons.mp mem).resolve_left fun head => same head.symm)

theorem snapshotForRepo_eq (stored : StoredPaths nfc repo db) :
    snapshotForRepo nfc config db repo = .ok (view config db (pathsOf db repo)
      ((fileHashes db repo).insertionSort fun left right => left.1 ≤ right.1)) := by
  have loads := @loadFiles_ok nfc db (pathsOf db repo) (fun path mem => stored.canonical path (mem_pathsOf.mp mem)) {}
  unfold snapshotForRepo
  change (loadFiles nfc db (pathsOf db repo) {} >>= _) = _
  rw [loads]
  simp only [bind, Except.bind, nil_append, Except.ok.injEq]
  have nodes : ((pathsOf db repo).flatMap fun path =>
      (byLine (db.nodes.filter (isAt path))).map rowToNode).filter (fun node =>
        !isIgnoredNode config node ((((pathsOf db repo).map fun path => (path,
          ownerAt db path)).find? fun entry => decide (entry.1 = node.filePath)).bind Prod.snd)) =
      (pathsOf db repo).flatMap fun path => allowedAt db path config := by
    rw [filter_flatMap]
    apply flatMap_congr
    intro path mem
    unfold allowedAt
    rw [← byLine_filter (isKept config (ownerAt db path)), filter_map]
    congr 1
    apply filter_congr
    intro row isRow
    have atPath : row.filePath = path := of_decide_eq_true (mem_filter.mp ((perm_insertionSort _ _).mem_iff.mp isRow)).2
    have located : (rowToNode row).filePath = path := atPath
    rw [Function.comp_apply, located, find?_keyed _ mem]
    rfl
  unfold Loaded.snapshot Loaded.ownerOf view
  dsimp only
  rw [nodes]
  rfl

/-! ## The store without the other repositories -/

def ownRows (repo : String) (db : Db) : Db :=
  { db with
    files := db.files.filter fun row => !row.isForeign repo
    nodes := db.nodes.filter fun row => !row.isForeign repo
    edges := db.edges.filter fun row => !row.isForeign repo }

def keptNames (config : InsightsConfig) (db : Db) (repo : String) : List String :=
  ((pathsOf db repo).flatMap fun path => allowedAt (ownRows repo db) path config).map
    Node.qualifiedName

/-- No node of the file counts, with or without the rows of other repositories. -/
structure LeftOut (config : InsightsConfig) (db : Db) (repo path : String) : Prop where
  shared : ∀ row ∈ db.nodes, row.filePath = path → isIgnoredNode config (rowToNode row) (ownerAt db path) = true
  alone : ∀ row ∈ db.nodes, row.sourceRepoId = repo → row.filePath = path →
    isIgnoredNode config (rowToNode row) (ownerAt (ownRows repo db) path) = true

/-- The owner is that of the repository, other repositories have ignored nodes only at the path, and
none of their edges there lies between two kept names. -/
structure Undisturbed (config : InsightsConfig) (db : Db) (repo path : String) : Prop where
  owner : ownerAt db path = ownerAt (ownRows repo db) path
  nodes : ∀ row ∈ db.nodes, row.sourceRepoId ≠ repo →
    row.filePath = path → isIgnoredNode config (rowToNode row) (ownerAt db path) = true
  edges : ∀ row ∈ db.edges, row.sourceRepoId ≠ repo →
    row.filePath = some path → ¬ (row.sourceQualified ∈ keptNames config db repo ∧
    row.targetQualified ∈ keptNames config db repo)

def KeepsApart (config : InsightsConfig) (db : Db) (repo : String) : Prop :=
  ∀ path ∈ pathsOf db repo, LeftOut config db repo path ∨ Undisturbed config db repo path

end

section
variable {nfc : String → String} {config : InsightsConfig} {db : Db} {repo path : String}

theorem fileHashes_ownRows : fileHashes (ownRows repo db) repo = fileHashes db repo := by
  unfold fileHashes ownRows FileRow.isForeign
  rw [filter_filter]
  congr 1
  apply filter_congr
  intro row _
  by_cases own : row.sourceRepoId = repo <;> simp [own]

theorem pathsOf_ownRows : pathsOf (ownRows repo db) repo = pathsOf db repo := by
  unfold pathsOf
  rw [fileHashes_ownRows]

theorem StoredPaths.ownRows (stored : StoredPaths nfc repo db) :
    StoredPaths nfc repo (Insights.ownRows repo db) where
  unique := by
    rw [fileHashes_ownRows]
    exact stored.unique
  canonical := by
    rw [fileHashes_ownRows]
    exact stored.canonical

private theorem rows_sublist (keep : NodeRow → Bool) :
    (((ownRows repo db).nodes.filter (isAt path)).filter keep).Sublist
      ((db.nodes.filter (isAt path)).filter keep) := (filter_sublist.filter _).filter _

private theorem edgeRows_sublist (keep : EdgeRow → Bool) :
    (((ownRows repo db).edges.filter (isEdgeAt path)).filter keep).Sublist
      ((db.edges.filter (isEdgeAt path)).filter keep) :=
  (filter_sublist.filter _).filter _

theorem mem_ownRows_nodes {row : NodeRow} :
    row ∈ (ownRows repo db).nodes ↔ row ∈ db.nodes ∧ row.sourceRepoId = repo := by
  simp [ownRows, NodeRow.isForeign]
private theorem mem_ownRows_edges {row : EdgeRow} :
    row ∈ (ownRows repo db).edges ↔ row ∈ db.edges ∧ row.sourceRepoId = repo := by
  simp [ownRows, EdgeRow.isForeign]

theorem allowedAt_eq_nil : allowedAt db path config = [] ↔ ∀ row ∈ db.nodes, row.filePath = path →
    isIgnoredNode config (rowToNode row) (ownerAt db path) = true := by
  unfold allowedAt byLine isKept isAt
  rw [map_eq_nil_iff, ← length_eq_zero_iff, length_insertionSort, length_eq_zero_iff, filter_eq_nil_iff]
  simp

theorem leftOut_iff : LeftOut config db repo path ↔
    allowedAt db path config = [] ∧ allowedAt (ownRows repo db) path config = [] := by
  rw [allowedAt_eq_nil, allowedAt_eq_nil]
  constructor
  · intro left
    refine ⟨left.shared, fun row mem => ?_⟩
    obtain ⟨inDb, own⟩ := mem_ownRows_nodes.mp mem
    exact left.alone row inDb own
  · intro ⟨shared, alone⟩
    exact ⟨shared, fun row mem own => alone row (mem_ownRows_nodes.mpr ⟨mem, own⟩)⟩

theorem allowedAt_ownRows_iff (owner : ownerAt db path = ownerAt (ownRows repo db) path) :
    allowedAt db path config = allowedAt (ownRows repo db) path config ↔
      ∀ row ∈ db.nodes, row.sourceRepoId ≠ repo → row.filePath = path →
        isIgnoredNode config (rowToNode row) (ownerAt db path) = true := by
  unfold allowedAt
  rw [← owner]
  have sublist := @rows_sublist db repo path (isKept config (ownerAt db path))
  constructor
  · intro same row mem foreign located
    by_contra kept
    have lengths := congrArg length same
    unfold byLine at lengths
    rw [length_map, length_map, length_insertionSort, length_insertionSort] at lengths
    have inRows : row ∈ (db.nodes.filter (isAt path)).filter (isKept config (ownerAt db path)) :=
      mem_filter.mpr ⟨mem_filter.mpr ⟨mem, decide_eq_true located⟩, by
        simpa [isKept] using kept⟩
    rw [← sublist.eq_of_length lengths.symm] at inRows
    exact foreign (mem_ownRows_nodes.mp (mem_of_mem_filter (mem_of_mem_filter inRows))).2
  · intro ignored
    congr 2
    unfold ownRows
    dsimp only
    rw [filter_filter, filter_filter, filter_filter]
    apply filter_congr
    intro row mem
    unfold isKept isAt NodeRow.isForeign
    by_cases located : row.filePath = path
    · by_cases own : row.sourceRepoId = repo
      · simp [own]
      · simp [ignored row mem own located]
    · simp [located]

theorem filter_flatMap_key {Item : Type} (key : Item → String) (gather : String → List Item)
    {paths : List String} (nodup : paths.Nodup) (mem : path ∈ paths)
    (keyed : ∀ path ∈ paths, ∀ item ∈ gather path, key item = path) :
    (paths.flatMap gather).filter (fun item => decide (key item = path)) = gather path := by
  induction paths with
  | nil => cases mem
  | cons first rest ih =>
    obtain ⟨fresh, restNodup⟩ := nodup_cons.mp nodup
    have others : ∀ other ∈ rest, ∀ item ∈ gather other, key item = other := fun other inRest => keyed other (.tail _ inRest)
    rw [flatMap_cons, filter_append]
    rcases mem_cons.mp mem with rfl | later
    · rw [filter_eq_self.mpr fun item isItem =>
        decide_eq_true (keyed path mem_cons_self item isItem), filter_eq_nil_iff.mpr, append_nil]
      intro item isItem
      obtain ⟨other, inRest, gathered⟩ := mem_flatMap.mp isItem
      rw [others other inRest item gathered]
      simpa using fun same : other = path => fresh (same ▸ inRest)
    · rw [ih restNodup later others, filter_eq_nil_iff.mpr, nil_append]
      intro item isItem
      rw [keyed first mem_cons_self item isItem]
      simpa using fun same : first = path => fresh (same ▸ later)

theorem filter_edgesAt (nodes : List Node) : (edgesAt db path).filter (isBetween nodes) =
      ((db.edges.filter (isEdgeAt path)).filter fun row => decide (path ∈ nodes.map Node.filePath ∧
        row.sourceQualified ∈ nodes.map Node.qualifiedName ∧
        row.targetQualified ∈ nodes.map Node.qualifiedName)).filterMap rowToEdge := by
  unfold edgesAt
  generalize listed : db.edges.filter (isEdgeAt path) = rows
  have located : ∀ row ∈ rows, row.filePath = some path := by
    rw [← listed]
    intro row mem
    exact of_decide_eq_true (mem_filter.mp mem).2
  rw [filter_filterMap, filterMap_filter]
  apply filterMap_congr
  intro row mem
  unfold rowToEdge isBetween
  rw [located row mem]
  simp only [Option.map_some, Option.filter_some]

theorem length_filterMap_rowToEdge (keep : EdgeRow → Bool) :
    (((db.edges.filter (isEdgeAt path)).filter keep).filterMap rowToEdge).length =
      ((db.edges.filter (isEdgeAt path)).filter keep).length := by
  rw [length_filterMap_eq_countP]
  apply countP_eq_length.mpr
  intro row mem
  have located : row.filePath = some path := of_decide_eq_true (mem_filter.mp (mem_of_mem_filter mem)).2
  simp [rowToEdge, located]

theorem mem_files_iff {paths : List String} (mem : path ∈ paths) :
    path ∈ (paths.flatMap fun path => allowedAt db path config).map Node.filePath ↔
      allowedAt db path config ≠ [] := by
  rw [mem_map]
  constructor
  · rintro ⟨node, inNodes, located⟩
    obtain ⟨other, _, allowed⟩ := mem_flatMap.mp inNodes
    rw [isAt_of_mem_allowedAt allowed] at located
    exact ne_nil_of_mem (located ▸ allowed)
  · intro some_
    obtain ⟨node, allowed⟩ := exists_mem_of_ne_nil _ some_
    exact ⟨node, mem_flatMap.mpr ⟨path, mem, allowed⟩, isAt_of_mem_allowedAt allowed⟩

variable {paths : List String} {hashes : List (String × String)}

private theorem view_of_keepsApart (apart : KeepsApart config db repo) :
    view config db (pathsOf db repo) hashes =
      view config (ownRows repo db) (pathsOf db repo) hashes := by
  have allowed : ∀ path ∈ pathsOf db repo, allowedAt db path config = allowedAt (ownRows repo db) path config := by
    intro path mem
    rcases apart path mem with left | undisturbed
    · obtain ⟨shared, alone⟩ := leftOut_iff.mp left
      rw [shared, alone]
    · exact (allowedAt_ownRows_iff undisturbed.owner).mpr undisturbed.nodes
  have disturbs : ∀ path ∈ pathsOf db repo, allowedAt (ownRows repo db) path config ≠ [] →
    Undisturbed config db repo path := fun path mem some_ =>
    (apart path mem).resolve_left fun left => some_ (leftOut_iff.mp left).2
  have nodes : ((pathsOf db repo).flatMap fun path => allowedAt db path config) =
    (pathsOf db repo).flatMap fun path => allowedAt (ownRows repo db) path config :=
    flatMap_congr allowed
  unfold view
  rw [nodes]
  simp only [GraphSnapshot.mk.injEq, true_and, and_true]
  constructor
  · rw [filter_flatMap, filter_flatMap]
    apply flatMap_congr
    intro path mem
    rw [filter_edgesAt, filter_edgesAt]
    congr 1
    unfold ownRows
    dsimp only
    rw [filter_filter, filter_filter, filter_filter]
    apply filter_congr
    intro row isRow
    by_cases located : row.filePath = some path
    · by_cases own : row.sourceRepoId = repo
      · simp [EdgeRow.isForeign, own]
      · -- An edge of another repository is not shown.
        have hidden : ¬ (path ∈ ((pathsOf db repo).flatMap fun path =>
            allowedAt (ownRows repo db) path config).map Node.filePath ∧
            row.sourceQualified ∈ keptNames config db repo ∧
            row.targetQualified ∈ keptNames config db repo) := by
          rintro ⟨isFile, ends⟩
          exact (disturbs path mem ((mem_files_iff mem).mp isFile)).edges row isRow own located ends
        have hidden := decide_eq_false hidden
        unfold keptNames ownRows at hidden
        rw [hidden]
        simp
    · simp [isEdgeAt, located]
  · rw [filter_map, filter_map]
    apply map_congr_left
    intro path kept
    obtain ⟨mem, isFile⟩ := mem_filter.mp kept
    rw [(disturbs path mem ((mem_files_iff mem).mp (of_decide_eq_true isFile))).owner]

private theorem keepsApart_of_view
    (nodup : (pathsOf db repo).Nodup) (same : view config db (pathsOf db repo) hashes =
    view config (ownRows repo db) (pathsOf db repo) hashes) : KeepsApart config db repo := by
  unfold view at same
  simp only [GraphSnapshot.mk.injEq] at same
  obtain ⟨nodes, edges, owners, _⟩ := same
  rw [nodes] at edges owners
  intro path mem
  have allowed : allowedAt db path config = allowedAt (ownRows repo db) path config := by
    have gathered := congrArg (filter fun node => decide (node.filePath = path)) nodes
    rw [filter_flatMap_key _ _ nodup mem fun _ _ _ isNode => isAt_of_mem_allowedAt isNode,
      filter_flatMap_key _ _ nodup mem fun _ _ _ isNode => isAt_of_mem_allowedAt isNode] at gathered
    exact gathered
  by_cases none_ : allowedAt (ownRows repo db) path config = []
  · exact Or.inl (leftOut_iff.mpr ⟨allowed.trans none_, none_⟩)
  · right
    have isFile := (mem_files_iff mem).mpr none_
    have owner : ownerAt db path = ownerAt (ownRows repo db) path := by
      have listed : (path, ownerAt db path) ∈ ((pathsOf db repo).map fun path =>
          (path, ownerAt db path)).filter fun entry => decide (entry.1 ∈ ((pathsOf db repo).flatMap
            fun path => allowedAt (ownRows repo db) path config).map Node.filePath) :=
        mem_filter.mpr ⟨mem_map_of_mem mem, decide_eq_true isFile⟩
      rw [owners] at listed
      obtain ⟨other, _, isEntry⟩ := mem_map.mp (mem_filter.mp listed).1
      obtain ⟨atPath, isOwner⟩ := Prod.mk.inj isEntry
      rw [atPath] at isOwner
      exact isOwner.symm
    refine ⟨owner, (allowedAt_ownRows_iff owner).mp allowed, ?_⟩
    intro row isRow foreign located ends
    rw [filter_flatMap, filter_flatMap] at edges
    have gathered := congrArg (filter fun edge => decide (edge.filePath = path)) edges
    rw [filter_flatMap_key _ _ nodup mem fun _ _ _ isEdge => isAt_of_mem_edgesAt (mem_of_mem_filter isEdge),
      filter_flatMap_key _ _ nodup mem fun _ _ _ isEdge => isAt_of_mem_edgesAt (mem_of_mem_filter isEdge),
      filter_edgesAt, filter_edgesAt] at gathered
    have lengths := congrArg length gathered
    rw [length_filterMap_rowToEdge, length_filterMap_rowToEdge] at lengths
    have inRows : row ∈ (db.edges.filter (isEdgeAt path)).filter fun row => decide (path ∈ ((pathsOf
      db repo).flatMap fun path => allowedAt (ownRows repo db) path config).map Node.filePath ∧
        row.sourceQualified ∈ keptNames config db repo ∧
        row.targetQualified ∈ keptNames config db repo) :=
      mem_filter.mpr ⟨mem_filter.mpr ⟨isRow, decide_eq_true located⟩, decide_eq_true ⟨isFile, ends⟩⟩
    unfold keptNames at inRows
    rw [← (edgeRows_sublist _).eq_of_length lengths.symm] at inRows
    exact foreign (mem_ownRows_edges.mp (mem_of_mem_filter (mem_of_mem_filter inRows))).2

theorem snapshotForRepo_ownRows_iff (stored : StoredPaths nfc repo db) :
    snapshotForRepo nfc config db repo = snapshotForRepo nfc config (ownRows repo db) repo ↔
      KeepsApart config db repo := by
  rw [snapshotForRepo_eq stored, snapshotForRepo_eq stored.ownRows, pathsOf_ownRows, fileHashes_ownRows, Except.ok.injEq]
  exact ⟨keepsApart_of_view stored.nodup, view_of_keepsApart⟩

end

structure SameRows (repo : String) (left right : Db) : Prop where
  files : (left.files.filter fun row => !row.isForeign repo) = right.files.filter fun row => !row.isForeign repo
  nodes : (left.nodes.filter fun row => !row.isForeign repo) = right.nodes.filter fun row => !row.isForeign repo
  edges : (left.edges.filter fun row => !row.isForeign repo) = right.edges.filter fun row => !row.isForeign repo

section
variable {nfc : String → String} {config : InsightsConfig} {repo : String} {left right : Db}

theorem SameRows.fileHashes (same : SameRows repo left right) :
    Store.fileHashes left repo = Store.fileHashes right repo := by
  rw [← @fileHashes_ownRows left, ← @fileHashes_ownRows right]
  unfold Store.fileHashes ownRows
  dsimp only
  rw [same.files]

theorem SameRows.storedPaths (same : SameRows repo left right)
    (stored : StoredPaths nfc repo left) : StoredPaths nfc repo right where
  unique := same.fileHashes ▸ stored.unique
  canonical := same.fileHashes ▸ stored.canonical

private theorem view_congr {paths : List String}
    {hashes : List (String × String)} (files : left.files = right.files)
    (nodes : left.nodes = right.nodes) (edges : left.edges = right.edges) :
    view config left paths hashes = view config right paths hashes := by
  have owner : ∀ path, ownerAt left path = ownerAt right path := by
    intro path
    unfold ownerAt singleSourceRepoIdForPath findFile
    rw [files]
  have allowed : ∀ path, allowedAt left path config = allowedAt right path config := by
    intro path
    unfold allowedAt
    rw [nodes, owner path]
  have edgesAt_eq : edgesAt left = edgesAt right := by
    funext path
    unfold edgesAt
    rw [edges]
  unfold view
  simp only [allowed, owner, edgesAt_eq]

theorem SameRows.snapshotForRepo_ownRows (same : SameRows repo left right)
    (stored : StoredPaths nfc repo left) :
    snapshotForRepo nfc config (ownRows repo left) repo = snapshotForRepo nfc config (ownRows repo right) repo := by
  rw [snapshotForRepo_eq stored.ownRows, snapshotForRepo_eq (same.storedPaths stored).ownRows,
    pathsOf_ownRows, pathsOf_ownRows, fileHashes_ownRows, fileHashes_ownRows, same.fileHashes]
  unfold pathsOf
  rw [same.fileHashes]
  congr 1
  exact view_congr same.files same.nodes same.edges

variable {stableRepoId : String → String} {repoRoot : String}

/-- Two stores show a repository as its own rows do exactly when neither disturbs a file of it. -/
theorem loadGraphSnapshot_keepsApart_iff (same : SameRows repo left right) (stored :
    StoredPaths nfc repo left) (leftRepo : analysedRepoId stableRepoId left repoRoot = repo)
    (rightRepo : analysedRepoId stableRepoId right repoRoot = repo) :
    (loadGraphSnapshot nfc config stableRepoId left repoRoot = loadGraphSnapshot nfc config stableRepoId right repoRoot ∧
      loadGraphSnapshot nfc config stableRepoId left repoRoot = snapshotForRepo nfc config (ownRows repo left) repo) ↔
      KeepsApart config left repo ∧ KeepsApart config right repo := by
  unfold loadGraphSnapshot
  rw [leftRepo, rightRepo, ← snapshotForRepo_ownRows_iff stored, ← snapshotForRepo_ownRows_iff
    (same.storedPaths stored), ← same.snapshotForRepo_ownRows stored]
  constructor
  · rintro ⟨equal, alone⟩
    exact ⟨alone, equal ▸ alone⟩
  · rintro ⟨leftAlone, rightAlone⟩
    exact ⟨leftAlone.trans rightAlone.symm, leftAlone⟩

end

def fileOf (repo owner : String) : FileRow where
  path := "a.rs"
  language := none
  hash := "h"
  size := none
  owner := ⟨some owner, some "cargo", some "", some "Cargo.toml", none⟩
  sourceRepoId := repo

def functionOf (id : Nat) (repo name : String) : NodeRow where
  id := id
  kind := "function"
  name := name
  qualifiedName := name
  filePath := "a.rs"
  lineStart := id
  lineEnd := id
  language := none
  parentName := none
  params := none
  returnType := none
  modifiers := none
  isTest := false
  fileHash := none
  extraJson := .obj []
  sourceRepoId := repo

def buildStateOf (repoRoot repo : String) : BuildStateRow where
  repoRoot := repoRoot
  sourceRepoId := repo
  lastIndexedRef := none

def storeOfOne : Db :=
  { Db.empty with
    files := [fileOf "one" "app"]
    nodes := [functionOf 1 "one" "main"]
    graphBuildState := [buildStateOf "/one" "one"] }

def storeOfTwo : Db :=
  { Db.empty with
    files := [fileOf "one" "app", fileOf "two" "lib"]
    nodes := [functionOf 1 "one" "main", functionOf 2 "two" "helper"]
    graphBuildState := [buildStateOf "/one" "one"] }

def storeOfApart : Db :=
  { Db.empty with
    files := [fileOf "one" "app", { fileOf "two" "lib" with path := "b.rs" }]
    nodes := [functionOf 1 "one" "main", { functionOf 2 "two" "helper" with filePath := "b.rs" }]
    graphBuildState := [buildStateOf "/one" "one"] }

private theorem storeOfOne_sameRows_apart : SameRows "one" storeOfOne storeOfApart where
  files := by decide
  nodes := by decide
  edges := by decide

private theorem storeOfOne_storedPaths : StoredPaths id "one" storeOfOne where
  unique := by decide
  canonical := by
    intro path mem
    obtain rfl := mem_singleton.mp mem
    decide +kernel

theorem loadGraphSnapshot_other_path : loadGraphSnapshot id {} id storeOfOne "/one" =
    loadGraphSnapshot id {} id storeOfApart "/one" := by
  refine ((loadGraphSnapshot_keepsApart_iff storeOfOne_sameRows_apart storeOfOne_storedPaths
    (by decide) (by decide)).mpr ⟨fun path mem => .inr ?_, fun path mem => .inr ?_⟩).1
  all_goals
    obtain rfl := mem_singleton.mp mem
    exact ⟨by decide, by decide, by decide⟩

/-- The function of the other repository is shown, and the owner of the file is lost. -/
theorem loadGraphSnapshot_shows_other_repo : SameRows "one" storeOfOne storeOfTwo ∧
    analysedRepoId id storeOfOne "/one" = "one" ∧ analysedRepoId id storeOfTwo "/one" = "one" ∧
      ((loadGraphSnapshot id {} id storeOfOne "/one").toOption.map fun snapshot =>
        (snapshot.nodes.map Node.qualifiedName, snapshot.ownerByFile)) = some (["main"], [("a.rs", some "app")]) ∧
      ((loadGraphSnapshot id {} id storeOfTwo "/one").toOption.map fun snapshot =>
        (snapshot.nodes.map Node.qualifiedName, snapshot.ownerByFile)) = some (["main", "helper"], [("a.rs", none)]) ∧
      loadGraphSnapshot id {} id storeOfOne "/one" ≠ loadGraphSnapshot id {} id storeOfTwo "/one" := by
  have one : ((loadGraphSnapshot id {} id storeOfOne "/one").toOption.map fun snapshot =>
      (snapshot.nodes.map Node.qualifiedName, snapshot.ownerByFile)) =
        some (["main"], [("a.rs", some "app")]) := by decide +kernel
  have two : ((loadGraphSnapshot id {} id storeOfTwo "/one").toOption.map fun snapshot =>
      (snapshot.nodes.map Node.qualifiedName, snapshot.ownerByFile)) =
        some (["main", "helper"], [("a.rs", none)]) := by decide +kernel
  refine ⟨⟨by decide, by decide, by decide⟩, by decide, by decide, one, two, ?_⟩
  intro same
  rw [same, two] at one
  exact absurd one (by decide)

end Atlas.Insights
