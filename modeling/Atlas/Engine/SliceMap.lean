import Atlas.Engine.Slices

/-! The store as a map from paths to slices. -/
namespace Atlas.Engine
open List Core Program Sql Store Function

def heldNames (slice : Option Slice) : List String := slice.elim [] fun held => names held.file

/-- The only edges that are missing touch the names that are gone. -/
structure LosesOnly (repo : String) (gone : List String) (whole rows : List EdgeRow) : Prop where
  fewer : rows.Sublist whole
  kept : (whole.filter fun row => !row.touches repo gone).Sublist rows

/-- Every name has the chunk of the node row that holds it, and no other chunks. The chunks
of pending names are still to be written. -/
def Mirrors (repo : String) (pending : String → Prop) (db : Db) : Prop := ∀ name, ¬ pending name →
    chunksOf repo db.retrievalChunks name = (nodeNamed repo db name).toList.map NodeRow.chunk

/-- The store holds the slice of each path, but for edges that touch lost names. -/
structure Holds (env : Env) (slices : String → Option Slice)
    (gone : List String) (pending : String → Prop) (db : Db) : Prop where
  valid : FilesValid env db
  unique : (db.nodes.map NodeRow.key).Nodup
  files : ∀ path, findFile db env.sourceRepoId path = (slices path).map (Slice.fileRow env.sourceRepoId)
  nodes : ∀ path, nodesAt env.sourceRepoId db path = (slices path).elim [] (Slice.nodeRows env.sourceRepoId)
  edges : ∀ path, LosesOnly env.sourceRepoId gone
    ((slices path).elim [] (Slice.edgeRows env.sourceRepoId)) (edgesAt env.sourceRepoId db path)
  chunks : Mirrors env.sourceRepoId pending db

namespace LosesOnly

variable {repo : String} {gone : List String} {whole rows : List EdgeRow}

theorem refl (whole : List EdgeRow) : LosesOnly repo gone whole whole := ⟨.refl _, filter_sublist⟩

theorem touches_mono {names : List String} (within : ∀ name ∈ names, name ∈ gone)
    (row : EdgeRow) (touches : row.touches repo names = true) : row.touches repo gone = true := by
  obtain ⟨inRepo, ends⟩ := of_decide_eq_true touches
  exact decide_eq_true ⟨inRepo, ends.imp (within _) (within _)⟩

theorem filter (loses : LosesOnly repo gone whole rows)
    {names : List String} (within : ∀ name ∈ names, name ∈ gone) :
    LosesOnly repo gone whole (rows.filter fun row => !row.touches repo names) := by
  refine ⟨filter_sublist.trans loses.fewer, ?_⟩
  have same : (whole.filter fun row => !row.touches repo gone).filter
    (fun row => !row.touches repo names) = whole.filter fun row => !row.touches repo gone := by
    apply filter_eq_self.mpr
    intro row mem
    have untouched := (mem_filter.mp mem).2
    rw [Bool.not_eq_true'] at untouched ⊢
    apply Bool.eq_false_iff.mpr
    intro touches
    rw [touches_mono within row touches] at untouched
    cases untouched
  exact same ▸ loses.kept.filter _

theorem map (loses : LosesOnly repo gone whole rows) (assign : EdgeRow → EdgeRow)
    (blind : ∀ row : EdgeRow, (assign row).touches repo gone = row.touches repo gone) :
    LosesOnly repo gone (whole.map assign) (rows.map assign) := by
  refine ⟨loses.fewer.map _, ?_⟩
  rw [filter_map]
  have same : (whole.filter ((fun row => !row.touches repo gone) ∘ assign)) = whole.filter
    fun row => !row.touches repo gone := filter_congr fun row _ => congrArg Bool.not (blind row)
  exact same ▸ loses.kept.map _

theorem of_nil (loses : LosesOnly repo gone [] rows) : rows = [] := sublist_nil.mp loses.fewer

end LosesOnly

section
variable {repo : String} {pending : String → Prop} {db after : Db}

theorem Mirrors.mono {wider : String → Prop} (mirrors : Mirrors repo pending db)
    (within : ∀ name, pending name → wider name) : Mirrors repo wider db :=
  fun name settled => mirrors name fun waits => settled (within name waits)

theorem Mirrors.exchange (mirrors : Mirrors repo pending db)
    (unique : (db.nodes.map NodeRow.key).Nodup)
    (uniqueAfter : (after.nodes.map NodeRow.key).Nodup) (path : String) (added : List String)
    (elsewhere : ∀ other, other ≠ path → nodesAt repo after other = nodesAt repo db other)
    (here : ∀ row ∈ nodesAt repo after path, row.qualifiedName ∈ added)
    (chunks : ∀ name, name ∉ added → chunksOf repo after.retrievalChunks name =
      if name ∈ storedNames repo db path then [] else chunksOf repo db.retrievalChunks name) :
    Mirrors repo (fun name => pending name ∨ name ∈ added) after := by
  intro name settled
  rw [not_or] at settled
  obtain ⟨notPending, notAdded⟩ := settled
  rw [chunks name notAdded]
  by_cases stored : name ∈ storedNames repo db path
  · obtain ⟨holder, atPath, named⟩ := mem_storedNames.mp stored
    have none : nodeNamed repo after name = none := by
      cases found : nodeNamed repo after name with
      | none => rfl
      | some row =>
        obtain ⟨mem, rowNamed⟩ := (nodeNamed_eq_some_iff uniqueAfter).mp found
        by_cases atHere : row.filePath = path
        · rw [atHere] at mem
          exact absurd (rowNamed ▸ here row mem) notAdded
        · rw [elsewhere _ atHere] at mem
          have first := (nodeNamed_eq_some_iff unique).mpr ⟨mem, rowNamed⟩
          obtain ⟨origin, _, _, located, columns⟩ := mem_nodesAt.mp atPath
          have holderPath : holder.filePath = path := by rw [← columns]; exact located
          have second := (nodeNamed_eq_some_iff unique).mpr
            ⟨show holder ∈ nodesAt repo db holder.filePath from holderPath.symm ▸ atPath, named⟩
          have same := Option.some.inj (first.symm.trans second)
          exact absurd (same ▸ holderPath) atHere
    rw [if_pos stored, none]
    rfl
  · rw [if_neg stored, mirrors name notPending]
    congr 2
    apply Option.ext
    intro row
    rw [nodeNamed_eq_some_iff unique, nodeNamed_eq_some_iff uniqueAfter]
    by_cases atHere : row.filePath = path
    · constructor
      · rintro ⟨mem, named⟩
        exact absurd (mem_storedNames.mpr ⟨row, atHere ▸ mem, named⟩) stored
      · rintro ⟨mem, named⟩
        exact absurd (named ▸ here row (atHere ▸ mem)) notAdded
    · rw [elsewhere _ atHere]

end

/-! ## What the mutations do to the map -/

section
variable {env : Env} {slices : String → Option Slice} {gone : List String}
  {pending : String → Prop} {db : Db}

section
variable (holds : Holds env slices gone pending db)
include holds

theorem Holds.mem_storedNames {path name : String} :
    name ∈ storedNames env.sourceRepoId db path ↔ name ∈ heldNames (slices path) := by
  rw [Engine.mem_storedNames, holds.nodes]
  cases slices path with
  | none => simp [heldNames]
  | some slice =>
    constructor
    · rintro ⟨row, mem, rfl⟩
      obtain ⟨node, inNodes, rfl⟩ := mem_nodeColumns mem
      exact mem_map_of_mem inNodes
    · intro mem
      obtain ⟨node, inNodes, rfl⟩ := mem_map.mp mem
      exact exists_nodeColumns inNodes

theorem Holds.congr {others : String → Option Slice} (same : ∀ path, others path = slices path) :
    Holds env others gone pending db := by
  have equal : others = slices := funext same
  exact equal ▸ holds

theorem Holds.replace {file : ParsedFile}
    (canonical : Canonical env file.path) (nodes : ∀ node ∈ file.nodes, node.filePath = file.path)
    (edges : ∀ edge ∈ file.edges, edge.filePath = file.path)
    (apart : ∀ other, other ≠ file.path → ∀ name ∈ heldNames (slices other), name ∉ names file)
    (drops : ∀ name ∈ heldNames (slices file.path), name ∉ names file → name ∈ gone) :
    Holds env (update slices file.path (some ⟨file, ((slices file.path).map Slice.owner).getD {}⟩))
      gone (fun name => pending name ∨ name ∈ names file) (replaced env.sourceRepoId file db) := by
  have free : ∀ row ∈ db.nodes, row.sourceRepoId = env.sourceRepoId →
    row.filePath ≠ file.path → row.qualifiedName ∉ names file := by
    intro row mem inRepo elsewhere
    refine apart row.filePath elsewhere _ (holds.mem_storedNames.mp ?_)
    exact mem_map_of_mem (mem_filter.mpr ⟨mem, decide_eq_true ⟨inRepo, rfl⟩⟩)
  have rows := @nodesAt_replaced env.sourceRepoId file db nodes free
  have unique : ((replaced env.sourceRepoId file db).nodes.map NodeRow.key).Nodup := by
    rw [replaced_nodes]
    exact keys_nodup_insertNodeRows _ (holds.unique.sublist (filter_sublist.map _))
  have within : ∀ name ∈ dropped env.sourceRepoId file db, name ∈ gone := by
    intro name mem
    obtain ⟨stored, left⟩ := mem_filter.mp mem
    exact drops name (holds.mem_storedNames.mp stored) (of_decide_eq_true left)
  refine ⟨holds.valid.replace canonical nodes, unique, ?_, ?_, ?_, ?_⟩
  · intro path
    rw [findFile_replaced, holds.files, holds.files, update_apply]
    split
    · rw [Option.map_map]
      rfl
    · rfl
  · intro path
    rw [rows, holds.nodes, update_apply]
    split
    all_goals rfl
  · intro path
    rw [edgesAt_replaced edges, update_apply]
    split
    · exact .refl _
    · exact (holds.edges path).filter within
  · refine holds.chunks.exchange holds.unique unique file.path (names file) ?_ ?_ ?_
    · intro other differ
      rw [rows, if_neg differ]
    · intro row mem
      rw [rows, if_pos rfl] at mem
      obtain ⟨node, inNodes, rfl⟩ := mem_nodeColumns mem
      exact mem_map_of_mem inNodes
    · intro name absent
      rw [replaced_retrievalChunks, chunksOf_delete]
      have same : name ∈ dropped env.sourceRepoId file db ↔ name ∈ storedNames env.sourceRepoId db file.path := by
        rw [dropped, mem_filter]
        simp [absent]
      simp only [same]

theorem Holds.delete {path : String} (drops : ∀ name ∈ heldNames (slices path), name ∈ gone) :
    Holds env (update slices path none) gone pending (deleted env.sourceRepoId path db) := by
  obtain ⟨_, tables⟩ := @deleted_tables env.sourceRepoId path db
  have unique : ((deleted env.sourceRepoId path db).nodes.map NodeRow.key).Nodup := by
    rw [tables]
    exact holds.unique.sublist (filter_sublist.map _)
  refine ⟨holds.valid.delete _ _, unique, ?_, ?_, ?_, ?_⟩
  · intro other
    rw [deleted, findFile_deleteFileGraph, holds.files, update_apply]
    split
    all_goals rfl
  · intro other
    rw [nodesAt_deleted, holds.nodes, update_apply]
    split
    all_goals rfl
  · intro other
    rw [edgesAt_deleted, update_apply]
    split
    · exact .refl _
    · refine (holds.edges other).filter ?_
      exact fun name stored => drops name (holds.mem_storedNames.mp stored)
  · refine (holds.chunks.exchange holds.unique unique path [] ?_ ?_ ?_).mono ?_
    · intro other differ
      rw [nodesAt_deleted, if_neg differ]
    · intro row mem
      rw [nodesAt_deleted, if_pos rfl] at mem
      cases mem
    · intro name _
      rw [tables]
      exact chunksOf_delete _ _ _
    · simp

theorem Holds.rename {old new : String} {slice : Slice} (canonical : Canonical env new)
    (differ : old ≠ new) (held : slices old = some slice) (vacant : slices new = none) :
    Holds env (update (update slices old none) new (some (slice.movedTo new))) gone pending
      (renamed env.sourceRepoId old new db) := by
  have noNodes : nodesAt env.sourceRepoId db new = [] := by
    rw [holds.nodes, vacant]
    rfl
  have noEdges : edgesAt env.sourceRepoId db new = [] := by
    have loses := holds.edges new
    rw [vacant] at loses
    exact loses.of_nil
  obtain ⟨_, tables⟩ := renameFileGraph_tables env.sourceRepoId old new db
  refine ⟨holds.valid.rename _ _ canonical, ?_, ?_, ?_, ?_, ?_⟩
  · have keys : (renamed env.sourceRepoId old new db).nodes.map NodeRow.key = db.nodes.map NodeRow.key := by
      rw [renamed, renameFileGraph_nodes]
      refine map_updateWhere ?_ db.nodes
      intro row
      rfl
    exact keys ▸ holds.unique
  · intro path
    rw [renamed, findFile_renameFileGraph holds.valid.unique, holds.files, holds.files, holds.files, update_apply, update_apply]
    by_cases isOld : path = old
    · rw [if_pos isOld, if_neg (isOld ▸ differ), if_pos isOld]
      rfl
    · rw [if_neg isOld, if_neg isOld]
      split
      · rw [held]
        rfl
      · rfl
  · intro path
    rw [nodesAt_renamed differ noNodes, holds.nodes, holds.nodes, update_apply, update_apply]
    by_cases isOld : path = old
    · rw [if_pos isOld, if_neg (isOld ▸ differ), if_pos isOld]
      rfl
    · rw [if_neg isOld, if_neg isOld]
      split
      · rw [held]
        exact (nodeColumns_movedTo slice new).symm
      · rfl
  · intro path
    rw [edgesAt_renamed differ noEdges, update_apply, update_apply]
    by_cases isOld : path = old
    · rw [if_pos isOld, if_neg (isOld ▸ differ), if_pos isOld]
      exact .refl _
    · rw [if_neg isOld, if_neg isOld]
      split
      · have loses := holds.edges old
        rw [held] at loses
        have moved := loses.map (fun row => { row with filePath := some new }) fun _ => rfl
        rw [Option.elim_some, edgeColumns_movedTo]
        exact moved
      · exact holds.edges path
  · intro name settled
    have chunks : (renamed env.sourceRepoId old new db).retrievalChunks = db.retrievalChunks := by
      rw [renamed, tables]
      rfl
    have same := @chunk_nodeNamed_renamed env.sourceRepoId old new db name
    rw [chunks, holds.chunks name settled, ← Option.toList_map, ← Option.toList_map, same]

theorem Holds.owner (path : String) (owner : Option PackageOwner) : Holds env
    (update slices path ((slices path).map fun slice => { slice with owner := ownerColumns owner }))
      gone pending (upsertFileOwnerForRepo env.sourceRepoId path owner db) := by
  refine ⟨holds.valid.owner _ _ _, holds.unique, ?_, ?_, ?_, holds.chunks⟩
  · intro other
    rw [findFile_owner, holds.files, update_apply]
    split
    · next same =>
        rw [same, Option.map_map, Option.map_map]
        rfl
    · rfl
  · intro other
    rw [update_apply]
    refine (holds.nodes other).trans ?_
    split
    · next same => cases held : slices path <;> simp [same, held, Slice.nodeRows]
    · rfl
  · intro other
    rw [update_apply]
    have loses := holds.edges other
    split
    · next same =>
        rw [same] at loses ⊢
        cases held : slices path with
        | none | some slice =>
          rw [held] at loses
          exact loses
    · exact loses

theorem Holds.replaceChunks {file : ParsedFile}
    {owner : OwnerColumns} (held : slices file.path = some ⟨file, owner⟩) :
    Holds env slices gone (fun name => pending name ∧ name ∉ names file)
      { db with
        retrievalChunks := replaceChunkRows env.sourceRepoId
          (storedNames env.sourceRepoId db file.path) file.nodes db.retrievalChunks } := by
  refine ⟨holds.valid.congr rfl rfl, holds.unique, holds.files, holds.nodes, holds.edges, ?_⟩
  have rows : nodesAt env.sourceRepoId db file.path = nodeColumns env.sourceRepoId file.nodes := by
    rw [holds.nodes, held]
    rfl
  have stored : ∀ name, name ∈ storedNames env.sourceRepoId db file.path ↔ name ∈ names file := by
    intro name
    rw [holds.mem_storedNames, held]
    rfl
  intro name settled
  dsimp only
  rw [chunksOf_replaceChunkRows]
  · split
    · next listed =>
        congr 2
        obtain ⟨node, inNodes, rfl⟩ := mem_map.mp listed
        obtain ⟨row, mem, named⟩ := @exists_nodeColumns env.sourceRepoId _ _ inNodes
        cases found : (nodeColumns env.sourceRepoId file.nodes).find? fun row =>
            decide (row.key = (env.sourceRepoId, node.qualifiedName)) with
        | none =>
          obtain ⟨other, _, rfl⟩ := mem_nodeColumns mem
          refine absurd ?_ (find?_eq_none.mp found _ mem)
          exact decide_eq_true (Prod.ext rfl named)
        | some chosen =>
          have inRows := mem_of_find?_eq_some found
          have key : chosen.key = (env.sourceRepoId, node.qualifiedName) := by simpa using find?_some found
          have atPath : chosen ∈ nodesAt env.sourceRepoId db file.path := rows.symm ▸ inRows
          have located : chosen.filePath = file.path := by
            obtain ⟨origin, _, _, located, columns⟩ := mem_nodesAt.mp atPath
            rw [← columns]
            exact located
          refine ((nodeNamed_eq_some_iff holds.unique).mpr ⟨?_, congrArg Prod.snd key⟩).symm
          exact located.symm ▸ atPath
    · next absent => refine holds.chunks name fun waits => settled ⟨waits, absent⟩
  · exact fun node mem => (stored _).mpr (mem_map_of_mem mem)
  · exact fun name mem => (stored name).mp mem

end

theorem Holds.empty : Holds env (fun _ => none) gone (fun _ => False) Db.empty := by
  refine ⟨.empty, nodup_nil, fun _ => rfl, fun _ => rfl, fun _ => .refl _, fun _ _ => rfl⟩

theorem Holds.settle {others : String → Prop} (holds : Holds env slices gone pending db)
    (within : ∀ name, pending name → others name) : Holds env slices gone others db :=
  { holds with chunks := holds.chunks.mono within }

end

/-! ## Writing a batch -/

structure WellPlaced (env : Env) (target : String → Option Slice) : Prop where
  canonical : ∀ path slice, target path = some slice → Canonical env path
  path : ∀ path slice, target path = some slice → slice.file.path = path
  nodes : ∀ path slice, target path = some slice → ∀ node ∈ slice.file.nodes, node.filePath = path
  edges : ∀ path slice, target path = some slice → ∀ edge ∈ slice.file.edges, edge.filePath = path
  apart : ∀ path other, path ≠ other → ∀ name ∈ heldNames (target path), name ∉ heldNames (target other)

structure Fits (target slices : String → Option Slice) (gone : List String) : Prop where
  apart : ∀ path other, other ≠ path → ∀ name ∈ heldNames (slices other), name ∉ heldNames (target path)
  drops : ∀ path, (target path).isSome = true → ∀ name ∈ heldNames (slices path), name ∉ heldNames (target path) → name ∈ gone

def overlay (paths : List String) (target slices : String → Option Slice) (path : String) :
    Option Slice :=
  if path ∈ paths then target path else slices path

section
variable {env : Env} {target slices : String → Option Slice} {gone : List String}
  {pending : String → Prop} {owners : String → Option PackageOwner} {db : Db}

theorem Fits.write (placed : WellPlaced env target) (fits : Fits target slices gone) {path : String}
    {slice : Slice} (held : target path = some slice) (owner : OwnerColumns) :
    Fits target (update slices path (some ⟨slice.file, owner⟩)) gone := by
  have same : heldNames (some ⟨slice.file, owner⟩) = heldNames (target path) := by
    rw [held]
    rfl
  constructor
  · intro wanted other differ name mem
    rw [update_apply] at mem
    split at mem
    · next isPath =>
        rw [same] at mem
        exact placed.apart path wanted (isPath ▸ differ) name mem
    · exact fits.apart wanted other differ name mem
  · intro wanted isSome name mem absent
    rw [update_apply] at mem
    split at mem
    · next isPath =>
        rw [same] at mem
        exact absurd (isPath ▸ mem) absent
    · exact fits.drops wanted isSome name mem absent

def IsTarget (target : String → Option Slice) (owners : String → Option PackageOwner)
    (file : ParsedFile) : Prop := target file.path = some ⟨file, ownerColumns (owners file.path)⟩

def carried (files : List ParsedFile) (target slices : String → Option Slice) (path : String) :
    Option Slice :=
  if path ∈ files.map ParsedFile.path then
    (target path).map fun slice => { slice with owner := ((slices path).map Slice.owner).getD {} }
  else slices path

theorem Holds.replaceAll (placed : WellPlaced env target) (files : List ParsedFile)
    (listed : ∀ file ∈ files, IsTarget target owners file) (fits : Fits target slices gone)
    (holds : Holds env slices gone pending db) :
    Holds env (carried files target slices) gone (fun name => pending name ∨ ∃ file ∈ files,
      name ∈ names file) (batch env.sourceRepoId files db) := by
  induction files generalizing slices pending db with
  | nil => exact (holds.congr fun _ => rfl).settle fun _ waits => .inl waits
  | cons file rest ih =>
    have held := listed file (.head _)
    have first := holds.replace (placed.canonical _ _ held) (placed.nodes _ _ held) (placed.edges _ _ held) (by
        intro other differ name mem
        have apart := fits.apart file.path other differ name mem
        rwa [held] at apart) (by
        intro name mem absent
        refine fits.drops file.path (by rw [held]; rfl) name mem ?_
        rwa [held])
    rw [batch_cons]
    refine ((ih (fun other mem => listed other (.tail _ mem)) (fits.write placed held _) first).congr ?_).settle ?_
    · intro path
      unfold carried
      rw [map_cons, update_apply]
      by_cases here : path = file.path
      · subst here
        rw [if_pos mem_cons_self, if_pos rfl, held]
        split
        all_goals rfl
      · simp only [mem_cons, here, false_or, if_false]
    · intro name waits
      rcases waits with (earlier | here) | ⟨other, mem, named⟩
      · exact .inl earlier
      · exact .inr ⟨file, .head _, here⟩
      · exact .inr ⟨other, .tail _ mem, named⟩

theorem nodesOfFile_names (repo path : String) (db : Db) :
    (nodesOfFile repo path db).map Node.qualifiedName = storedNames repo db path := by
  rw [nodesOfFile_eq, map_map]
  rfl

theorem Holds.replaceAllChunks (files : List ParsedFile) (held : ∀ file ∈ files, ∃ owner,
    slices file.path = some ⟨file, owner⟩) (holds : Holds env slices gone pending db) :
    Holds env slices gone (fun name => pending name ∧ ∀ file ∈ files, name ∉ names file)
      { db with
        retrievalChunks := files.foldl (fun rows file => replaceChunkRows env.sourceRepoId
          ((nodesOfFile env.sourceRepoId file.path db).map Node.qualifiedName) file.nodes rows)
            db.retrievalChunks } := by
  induction files generalizing pending db with
  | nil => exact holds.settle fun _ waits => ⟨waits, by simp⟩
  | cons file rest ih =>
    obtain ⟨owner, here⟩ := held file (.head _)
    have first := holds.replaceChunks here
    rw [← nodesOfFile_names] at first
    refine (ih (fun other mem => held other (.tail _ mem)) first).settle ?_
    rintro name ⟨⟨waits, notHere⟩, notLater⟩
    exact ⟨waits, forall_mem_cons.mpr ⟨notHere, notLater⟩⟩

section
variable (placed : WellPlaced env target)
  (files : List ParsedFile) (listed : ∀ file ∈ files, IsTarget target owners file)
include placed files listed

theorem Holds.ownAll (holds : Holds env (carried files target slices) gone pending db) :
    (Run.forEach (fun file => (upsertFileOwner env file.path (owners file.path)).withContext
      ("cannot store owner metadata for " ++ file.path)) files).Meets db
      (fun _ => Holds env (overlay (files.map ParsedFile.path) target slices) gone pending)
      (fun _ => False) := by
  refine (Run.Meets.forEach (fun done => Holds env (fun path =>
    if path ∈ done.map ParsedFile.path then target path
      else carried files target slices path) gone pending) files [] ?_ ?_).mono ?_
  · exact holds.congr fun _ => by simp
  · intro before file after reached split owned
    have mem : file ∈ files := by
      rw [show files = before ++ file :: after from split]
      exact mem_append_right _ (.head _)
    have held := listed file mem
    refine Run.Meets.withContext (upsertFileOwner_meets (placed.canonical _ _ held) ?_)
    refine (owned.owner file.path (owners file.path)).congr ?_
    intro path
    rw [map_append, map_singleton, update_apply]
    by_cases here : path = file.path
    · subst here
      unfold IsTarget at held
      rw [if_pos (by simp), if_pos rfl, held]
      split
      · rfl
      · rw [carried, if_pos (mem_map_of_mem mem), held]
        rfl
    · simp only [mem_append, mem_singleton, here, or_false, if_false]
  · intro _ reached owned
    refine owned.congr fun path => ?_
    rw [nil_append, overlay]
    split
    · rfl
    · next absent => rw [carried, if_neg absent]

theorem writeBatch_holds (fits : Fits target slices gone)
    (holds : Holds env slices gone (fun _ => False) db) (written : Written) :
    (writeBatch env owners none files written).Meets db (fun _ => Holds env (overlay
      (files.map ParsedFile.path) target slices) gone fun _ => False) (fun _ => False) := by
  have accepted : files.mapM (canonicalizeParsedFile env.nfc) = .ok files := by
    apply Program.mapM_ok_self
    intro file mem
    have held := listed file mem
    exact canonicalizeParsedFile_self (placed.canonical _ _ held) (placed.nodes _ _ held) (placed.edges _ _ held)
  unfold writeBatch
  refine Run.Meets.bind (Run.Meets.withContext (replaceFiles_meets ?_ ?_))
  · intro normal counts ran
    cases accepted.symm.trans ran
    have replacedAll := holds.replaceAll placed files listed fits
    refine Run.Meets.bind ((replacedAll.ownAll placed files listed).mono ?_)
    intro _ owned ownedHolds
    have chunked := ownedHolds.replaceAllChunks files fun file mem =>
      ⟨_, (if_pos (mem_map_of_mem mem)).trans (listed file mem)⟩
    have nothing : ∀ name, ((False ∨ ∃ file ∈ files, name ∈ names file) ∧ ∀ file ∈ files, name ∉ names file) → False := by
      rintro name ⟨never | ⟨file, mem, named⟩, written⟩
      · exact never
      · exact written file mem named
    have settled := chunked.settle nothing
    refine Run.Meets.bind (Run.Meets.attempt ?_)
    unfold Run.Meets storeCall replaceChunksForParsedFiles
    by_cases empty : files = []
    · subst empty
      simp only [if_true]
      exact settled
    · simp only [empty, if_false, transaction_faultless, runBlocks_replaceChunks]
      exact settled
  · intro error rejected
    cases accepted.symm.trans rejected

end
end

end Atlas.Engine
