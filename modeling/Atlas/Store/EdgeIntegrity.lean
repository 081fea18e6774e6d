import Atlas.Store.Batch

/-! A replacement and a deletion erase the edges of the file and those that touch a
symbol which the file had and no longer has. Everything else stays. -/
namespace Atlas.Store
open List Core Sql

structure DanglingEdge where
  id : Nat
  (sourceQn targetQn kind side : String)

def DanglingEdge.of (side : String) (row : EdgeRow) : DanglingEdge where
  id := row.id
  sourceQn := row.sourceQualified
  targetQn := row.targetQualified
  kind := row.kind
  side := side

def danglingEdges (db : Db) (limit : Nat) : List DanglingEdge :=
  let missing (name : String) : Bool := decide (¬ ∃ node ∈ db.nodes, node.qualifiedName = name)
  let results := ((db.edges.filter fun row => missing row.sourceQualified).take limit).map
    (.of "source")
  if results.length < limit then
    results ++ ((db.edges.filter fun row => missing row.targetQualified).take (limit - results.length)).map (.of "target")
  else results

def Named (scope : String → Prop) (db : Db) (name : String) : Prop :=
  ∃ repo, scope repo ∧ (repo, name) ∈ db.nodes.map NodeRow.key
def Dangling (scope : String → Prop) (db : Db) (row : EdgeRow) : Prop :=
  ¬ (Named scope db row.sourceQualified ∧ Named scope db row.targetQualified)

theorem named_everywhere_iff {db : Db} {name : String} :
    Named (fun _ => True) db name ↔ ∃ node ∈ db.nodes, node.qualifiedName = name := by
  constructor
  · rintro ⟨repo, -, mem⟩
    obtain ⟨node, stored, same⟩ := mem_map.mp mem
    exact ⟨node, stored, congrArg Prod.snd same⟩
  · rintro ⟨node, stored, rfl⟩
    exact ⟨node.sourceRepoId, trivial, mem_map_of_mem stored⟩

theorem danglingEdges_eq_nil_iff {db : Db} {limit : Nat} (pos : 0 < limit) :
    danglingEdges db limit = [] ↔ ∀ row ∈ db.edges, ¬ Dangling (fun _ => True) db row := by
  have none_of_side : ∀ side : EdgeRow → String, ∀ count, 0 < count →
    (((db.edges.filter fun row => decide (¬ ∃ node ∈ db.nodes, node.qualifiedName = side row)).take
        count) = [] ↔ ∀ row ∈ db.edges, Named (fun _ => True) db (side row)) := by
    intro side count some_
    rw [take_eq_nil_iff, filter_eq_nil_iff]
    simp only [decide_eq_true_eq, not_not, named_everywhere_iff]
    exact ⟨fun either => either.resolve_left (Nat.ne_of_gt some_), Or.inr⟩
  unfold danglingEdges Dangling
  dsimp only
  simp only [not_not]
  constructor
  · intro empty row mem
    split at empty
    · obtain ⟨noSource, noTarget⟩ := append_eq_nil_iff.mp empty
      rw [noSource, length_nil, Nat.sub_zero] at noTarget
      rw [map_eq_nil_iff] at noSource noTarget
      exact ⟨(none_of_side _ limit pos).mp noSource row mem, (none_of_side _ limit pos).mp noTarget row mem⟩
    · next full =>
        rw [empty] at full
        exact absurd pos full
  · intro named
    have noSource := (none_of_side EdgeRow.sourceQualified limit pos).mpr fun row mem => (named row mem).1
    have noTarget := (none_of_side EdgeRow.targetQualified limit pos).mpr fun row mem => (named row mem).2
    rw [noSource, map_nil, length_nil, if_pos pos, Nat.sub_zero, noTarget]
    rfl

def Erased (repo path : String) (lost : List String) (row : EdgeRow) : Prop := row.sourceRepoId =
    repo ∧ (row.filePath = some path ∨ row.sourceQualified ∈ lost ∨ row.targetQualified ∈ lost)

instance (repo path : String) (lost : List String) (row : EdgeRow) :
    Decidable (Erased repo path lost row) := by
  unfold Erased
  infer_instance

def lostNames (repo path : String) (nodes : List Node) (db : Db) : List String :=
  (storedNames repo db path).filter fun name => decide (name ∉ nodes.map Node.qualifiedName)

section
variable {repo path : String} {nodes : List Node} {edges : List Edge} {db : Db}

theorem edges_clearFile : (clearFile repo path nodes db).edges = db.edges.filter fun row =>
    decide (¬ Erased repo path (lostNames repo path nodes db) row) := by
  have read : removedNames (nodesOfFile repo path db) nodes = lostNames repo path nodes db := by
    unfold removedNames lostNames
    rw [nodesOfFile_eq, map_map]
    rfl
  unfold clearFile
  dsimp only
  rw [read, deleteWhere, deleteWhere, filter_filter]
  apply filter_congr
  intro row _
  unfold EdgeRow.touches EdgeRow.inFile Erased
  by_cases inRepo : row.sourceRepoId = repo
  · simp only [inRepo, true_and, not_or, Bool.decide_and, decide_not, Bool.decide_or, Bool.not_or]
    rw [Bool.and_comm]
  · simp only [inRepo, false_and, decide_false, Bool.not_false, Bool.and_self, not_false_eq_true, decide_true]

theorem insertEdgeRows_append (extraJson : Edge → Json) (rows : List EdgeRow) :
    ∃ added, insertEdgeRows repo extraJson edges rows = rows ++ added ∧
      added.map EdgeRow.columns = edges.map fun edge => edgeRow repo 0 (extraJson edge) edge := by
  induction edges generalizing rows with
  | nil => exact ⟨[], (append_nil rows).symm, rfl⟩
  | cons edge rest ih =>
    obtain ⟨added, grown, columns⟩ := ih (rows ++ [edgeRow repo (nextRowid EdgeRow.id rows) (extraJson edge) edge])
    refine ⟨edgeRow repo (nextRowid EdgeRow.id rows) (extraJson edge) edge :: added, ?_, ?_⟩
    · rw [insertEdgeRows, foldl_cons, ← append_cons] at *
      exact grown
    · rw [map_cons, map_cons, columns]
      rfl

theorem mem_keys_insertNodeRows {rows : List NodeRow} {key : String × String} :
    key ∈ (insertNodeRows repo nodes rows).map NodeRow.key ↔
      key ∈ rows.map NodeRow.key ∨ ∃ node ∈ nodes, (repo, node.qualifiedName) = key := by
  induction nodes generalizing rows with
  | nil => simp [insertNodeRows]
  | cons node rest ih =>
    rw [insertNodeRows, foldl_cons, ← insertNodeRows, ih, exists_mem_cons_iff, ← or_assoc]
    apply or_congr_left
    constructor
    · intro mem
      obtain ⟨row, stored, rfl⟩ := mem_map.mp mem
      rcases mem_insertOrReplace.mp stored with ⟨old, -⟩ | rfl
      · exact .inl (mem_map_of_mem old)
      · exact .inr rfl
    · intro mem
      by_cases same : (repo, node.qualifiedName) = key
      · exact mem_map.mpr ⟨_, mem_insertOrReplace.mpr (.inr rfl), same⟩
      · obtain ⟨row, stored, rfl⟩ := mem_map.mp (mem.resolve_right same)
        exact mem_map_of_mem (mem_insertOrReplace.mpr (.inl ⟨stored, fun taken => same taken.symm⟩))

end

/-- What a replacement or a deletion of one file does to the edges. Names of a scope are those of
the repositories in it, the changed repository among them. -/
structure EdgeIntegrity (repo path : String)
    (nodes : List Node) (edges : List Edge) (before after : Db) : Prop where
  rows : ∃ added, after.edges = before.edges.filter (fun row =>
      decide (¬ Erased repo path (lostNames repo path nodes before) row)) ++ added ∧
    added.map EdgeRow.columns = edges.map fun edge => edgeRow repo 0 (edgeProvenanceJson repo edge) edge
  noneDangles : ∀ scope : String → Prop, scope repo →
    (∀ row ∈ before.edges, row.sourceRepoId = repo → ¬ Dangling scope before row) →
    (∀ edge ∈ edges, Named scope after edge.sourceQn ∧ Named scope after edge.targetQn) →
    ∀ row ∈ after.edges, row.sourceRepoId = repo → ¬ Dangling scope after row
  noneLost : (before.nodes.map NodeRow.key).Nodup → ∀ row ∈ before.edges, row.sourceRepoId = repo →
    row.filePath ≠ some path → ¬ Dangling (fun other => other = repo) after row → row ∈ after.edges

section
variable {repo path : String} {nodes : List Node} {edges : List Edge} {before after : Db}

section
variable (nodesAfter :
    after.nodes = insertNodeRows repo nodes (deleteWhere (NodeRow.inFile repo path) before.nodes))
include nodesAfter

theorem mem_keys_replaced
    {key : String × String} :
    key ∈ after.nodes.map NodeRow.key ↔ (∃ row ∈ before.nodes, row.inFile repo path = false ∧
      row.key = key) ∨ ∃ node ∈ nodes, (repo, node.qualifiedName) = key := by
  rw [nodesAfter, mem_keys_insertNodeRows]
  apply or_congr_left
  rw [mem_map]
  simp only [mem_deleteWhere, and_assoc]

theorem named_replaced
    {scope : String → Prop} (inScope : scope repo) {name : String} (named : Named scope before name)
    (kept : name ∉ lostNames repo path nodes before) : Named scope after name := by
  obtain ⟨owner, owned, mem⟩ := named
  obtain ⟨row, stored, same⟩ := mem_map.mp mem
  by_cases inFile : row.inFile repo path = true
  · have wanted : name ∈ nodes.map Node.qualifiedName := by
      by_contra absent
      apply kept
      refine mem_filter.mpr ⟨?_, decide_eq_true absent⟩
      exact mem_map.mpr ⟨row, mem_filter.mpr ⟨stored, inFile⟩, congrArg Prod.snd same⟩
    obtain ⟨node, inNodes, rfl⟩ := mem_map.mp wanted
    exact ⟨repo, inScope, (mem_keys_replaced nodesAfter).mpr (.inr ⟨node, inNodes, rfl⟩)⟩
  · exact ⟨owner, owned, (mem_keys_replaced nodesAfter).mpr (.inl ⟨row, stored, Bool.eq_false_iff.mpr inFile, same⟩)⟩

theorem not_lost_of_named (unique : (before.nodes.map NodeRow.key).Nodup)
    {name : String} (named : Named (fun other => other = repo) after name) :
    name ∉ lostNames repo path nodes before := by
  intro lost
  obtain ⟨stored, absent⟩ := mem_filter.mp lost
  obtain ⟨old, inFile, sameName⟩ := mem_map.mp stored
  obtain ⟨inTable, isInFile⟩ := mem_filter.mp inFile
  obtain ⟨owner, rfl, mem⟩ := named
  rcases (mem_keys_replaced nodesAfter).mp mem with ⟨row, inBefore, outside, same⟩ | ⟨node, new, same⟩
  · have sameKey : old.key = row.key := by
      rw [same]
      exact Prod.ext (of_decide_eq_true isInFile).1 sameName
    rw [inj_on_of_nodup_map unique inTable inBefore sameKey, outside] at isInFile
    cases isInFile
  · exact of_decide_eq_true absent (mem_map.mpr ⟨node, new, congrArg Prod.snd same⟩)

theorem edgeIntegrity_of_tables (edgesAfter : after.edges =
    insertEdgeRows repo (edgeProvenanceJson repo) edges (clearFile repo path nodes before).edges) :
    EdgeIntegrity repo path nodes edges before after := by
  rw [edges_clearFile] at edgesAfter
  obtain ⟨added, grown, columns⟩ := @insertEdgeRows_append repo edges (edgeProvenanceJson repo) (before.edges.filter fun row =>
      decide (¬ Erased repo path (lostNames repo path nodes before) row))
  have whole := edgesAfter.trans grown
  refine ⟨⟨added, whole, columns⟩, ?_, ?_⟩
  · intro scope inScope sound ends row mem inRepo
    rw [whole] at mem
    rcases mem_append.mp mem with old | new
    · obtain ⟨stored, kept⟩ := mem_filter.mp old
      have clear := of_decide_eq_true kept
      have named := not_not.mp (sound row stored inRepo)
      intro dangling
      apply dangling
      exact ⟨named_replaced nodesAfter inScope named.1 fun lost => clear ⟨inRepo, .inr (.inl lost)⟩,
        named_replaced nodesAfter inScope named.2 fun lost => clear ⟨inRepo, .inr (.inr lost)⟩⟩
    · have shown : row.columns ∈ edges.map fun edge =>
          edgeRow repo 0 (edgeProvenanceJson repo edge) edge := by
        rw [← columns]
        exact mem_map_of_mem new
      obtain ⟨edge, given, same⟩ := mem_map.mp shown
      have source : edge.sourceQn = row.sourceQualified := congrArg EdgeRow.sourceQualified same
      have target : edge.targetQn = row.targetQualified := congrArg EdgeRow.targetQualified same
      have named := ends edge given
      rw [source, target] at named
      exact fun dangling => dangling named
  · intro unique row stored inRepo elsewhere sound
    have named := not_not.mp sound
    rw [whole]
    apply mem_append_left
    refine mem_filter.mpr ⟨stored, decide_eq_true ?_⟩
    rintro ⟨-, ofFile | source | target⟩
    · exact elsewhere ofFile
    · exact not_lost_of_named nodesAfter unique named.1 source
    · exact not_lost_of_named nodesAfter unique named.2 target

end

theorem deleteFileGraph_edges (limit : Option Nat) : EdgeIntegrity repo path [] [] before
    (execAll (deleteFileGraph limit repo path before) before) := by
  have whole : ∀ limit, execAll (deleteFileGraph limit repo path before) before =
      { execAll (deleteFileGraph none repo path before) before with
        nodesFts := (execAll (deleteFileGraph limit repo path before) before).nodesFts } := by
    intro limit
    simp only [deleteFileGraph, execAll_append, execAll_cons, execAll_nil, execAll_unindex]
    rfl
  apply edgeIntegrity_of_tables
  all_goals
    rw [whole, deleteFileGraph_tables]
    rfl

end

/-- The law for the two operations, whatever the state they start from. -/
theorem fileGraph_edges (nfc : String → String) (faults : FaultPlan) (repo path : String)
    (conn after : Connection Db) : (∀ hash language size nodes edges, faults.fetches 0 = none →
      replaceFileGraphForRepo nfc faults repo path hash language size nodes edges conn = (.ok (), after) →
      ∃ slice, canonicalizeGraphSlice nfc path nodes edges = .ok slice ∧
        EdgeIntegrity repo slice.path slice.nodes slice.edges conn.committed after.committed) ∧
    (deleteFileGraphForRepo nfc faults repo path conn = (.ok (), after) → ∃ canonical,
      canonicalizeRepoPath nfc path = .ok canonical ∧
        EdgeIntegrity repo canonical [] [] conn.committed after.committed) := by
  constructor
  · intro hash language size nodes edges reads ran
    unfold replaceFileGraphForRepo at ran
    cases sliced : canonicalizeGraphSlice nfc path nodes edges with
    | error error =>
      rw [sliced] at ran
      cases ran
    | ok slice =>
      rw [sliced] at ran
      obtain ⟨-, reached⟩ := transaction_ok ran
      refine ⟨slice, rfl, ?_⟩
      rw [reached, runBlocks_cons, runBlocks_nil, reads]
      obtain ⟨documents, rowid, tables⟩ := doReplaceFileGraph_tables repo slice.path hash language
        size slice.nodes slice.edges conn.committed
      apply edgeIntegrity_of_tables
      · rw [tables]
        rfl
      · rw [tables]
  · intro ran
    unfold deleteFileGraphForRepo at ran
    cases placed : canonicalizeRepoPath nfc path with
    | error error =>
      rw [placed] at ran
      cases ran
    | ok canonical =>
      rw [placed] at ran
      obtain ⟨-, reached⟩ := transaction_ok ran
      refine ⟨canonical, rfl, ?_⟩
      rw [reached, runBlocks_cons, runBlocks_nil]
      exact deleteFileGraph_edges _

def callEdge (path source target : String) : Edge where
  kind := .calls
  sourceQn := source
  targetQn := target
  filePath := path

def callerTables : Db :=
  let called := execAll (doReplaceFileGraph none "app" "b.rs" "h" none none
    [functionNode "b.rs" "g"] [] Db.empty) Db.empty
  execAll (doReplaceFileGraph none "app" "a.rs" "h" none none [functionNode "a.rs" "f"]
    [callEdge "a.rs" "a.rs::fn::f" "b.rs::fn::g"] called) called

/-- The function is written again, or deleted: no edge dangles. -/
theorem callerTables_edges : ∃ replaced deleted : Connection Db,
    replaceFileGraphForRepo id .faultless "app" "b.rs" "h2" none none [functionNode "b.rs" "g"] []
      ⟨callerTables, none⟩ = (.ok (), replaced) ∧
      deleteFileGraphForRepo id .faultless "app" "b.rs" ⟨callerTables, none⟩ = (.ok (), deleted) ∧
      (∀ row ∈ replaced.committed.edges, row.sourceRepoId = "app" → ¬ Dangling (fun _ => True) replaced.committed row) ∧
      ∀ row ∈ deleted.committed.edges, row.sourceRepoId = "app" → ¬ Dangling (fun _ => True) deleted.committed row := by
  have sound : ∀ row ∈ callerTables.edges, ¬ Dangling (fun _ => True) callerTables row :=
    (danglingEdges_eq_nil_iff Nat.one_pos).mp (by decide +kernel)
  have written : replaceFileGraphForRepo id .faultless "app" "b.rs" "h2" none none
    [functionNode "b.rs" "g"] [] ⟨callerTables, none⟩ =
        (.ok (), (replaceFileGraphForRepo id .faultless "app" "b.rs" "h2" none none
          [functionNode "b.rs" "g"] [] ⟨callerTables, none⟩).2) :=
    Prod.ext (by decide +kernel) rfl
  have erased : deleteFileGraphForRepo id .faultless "app" "b.rs" ⟨callerTables, none⟩ =
    (.ok (), (deleteFileGraphForRepo id .faultless "app" "b.rs" ⟨callerTables, none⟩).2) :=
    Prod.ext (by decide +kernel) rfl
  refine ⟨_, _, written, erased, ?_, ?_⟩
  · obtain ⟨slice, sliced, integrity⟩ := (fileGraph_edges _ _ _ _ _ _).1 "h2" none none [functionNode "b.rs" "g"] [] rfl written
    have shape : canonicalizeGraphSlice id "b.rs" [functionNode "b.rs" "g"] [] =
      .ok ⟨"b.rs", [functionNode "b.rs" "g"], []⟩ := by decide +kernel
    rw [shape] at sliced
    cases sliced
    exact integrity.noneDangles _ trivial (fun row mem _ => sound row mem) nofun
  · obtain ⟨canonical, -, integrity⟩ := (fileGraph_edges _ _ _ _ _ _).2 erased
    exact integrity.noneDangles _ trivial (fun row mem _ => sound row mem) nofun

end Atlas.Store
