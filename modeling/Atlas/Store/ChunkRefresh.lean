import Mathlib.Data.Fintype.EquivFin
import Atlas.Store.BatchOrder

/-! A batch of files is written in two calls: the graph under canonical paths and
names, then the retrieval chunks under the paths and names as they were given.
One symbol at a time, this module follows who holds its node and which text its
chunk has. -/
namespace Atlas.Store
open List Core Sql

def lastNamed (name : String) (nodes : List Node) : Option Node :=
  nodes.reverse.find? fun node => decide (node.qualifiedName = name)

theorem lastNamed_concat (name : String) (nodes : List Node) (node : Node) :
    lastNamed name (nodes ++ [node]) =
      if node.qualifiedName = name then some node else lastNamed name nodes := by
  unfold lastNamed
  rw [reverse_append, reverse_singleton, singleton_append, find?_cons]
  by_cases same : node.qualifiedName = name
  · rw [if_pos same, decide_eq_true same]
  · rw [if_neg same, decide_eq_false same]

variable {nodes : List Node} {node : Node} {held : Option (String × Node)} {file : ParsedFile}

theorem lastNamed_eq_none_iff {name : String} :
    lastNamed name nodes = none ↔ name ∉ nodes.map Node.qualifiedName := by
  unfold lastNamed
  rw [find?_eq_none, mem_map]
  simp only [mem_reverse, decide_eq_true_eq]
  constructor
  · rintro absent ⟨node, mem, same⟩
    exact absent node mem same
  · intro absent node mem same
    exact absent ⟨node, mem, same⟩

theorem mem_of_lastNamed {name : String} (found : lastNamed name nodes = some node) :
    node ∈ nodes ∧ node.qualifiedName = name := by
  refine ⟨mem_reverse.mp (mem_of_find?_eq_some found), ?_⟩
  have same := find?_some found
  rwa [decide_eq_true_eq] at same

def holdStep (name : String) (held : Option (String × Node)) (file : ParsedFile) :
    Option (String × Node) :=
  match lastNamed name file.nodes with
  | some node => some (file.path, node)
  | none => held.filter fun entry => decide (entry.1 ≠ file.path)

def holder (name : String) (files : List ParsedFile) : Option (String × Node) :=
  files.foldl (holdStep name) none

def Interrupted (name : String) (files : List ParsedFile) : Prop :=
  ∃ before file after node, files = before ++ file :: after ∧
    holder name before = some (file.path, node) ∧ lastNamed name file.nodes = none

def textStep (name path : String) (text : Option String) (file : ParsedFile) : Option String :=
  ((lastNamed name file.nodes).map Node.chunkText).or (if file.path = path then none else text)
def givenText (name path : String) (files : List ParsedFile) : Option String :=
  files.foldl (textStep name path) none

theorem holder_concat (name : String) (files : List ParsedFile) (file : ParsedFile) :
    holder name (files ++ [file]) = holdStep name (holder name files) file := by
  unfold holder
  rw [foldl_append]
  rfl

theorem holdStep_of_none {name : String} (unnamed : lastNamed name file.nodes = none) :
    holdStep name held file = held.filter fun entry => decide (entry.1 ≠ file.path) := by
  unfold holdStep
  rw [unnamed]

theorem holdStep_of_some {name : String} (named : lastNamed name file.nodes = some node) :
    holdStep name held file = some (file.path, node) := by
  unfold holdStep
  rw [named]

theorem holder_path_mem {name path : String} {files : List ParsedFile}
    (held : holder name files = some (path, node)) : path ∈ files.map ParsedFile.path := by
  induction files using reverseRecOn with
  | nil => cases held
  | append_singleton files file ih =>
    rw [holder_concat] at held
    rw [map_append, mem_append]
    cases named : lastNamed name file.nodes with
    | some other =>
      rw [holdStep_of_some named] at held
      cases held
      exact .inr (mem_singleton_self _)
    | none =>
      rw [holdStep_of_none named] at held
      exact .inl (ih (Option.filter_eq_some_iff.mp held).1)

def rowsNamed (repo name : String) (db : Db) : List NodeRow :=
  db.nodes.filter fun row => decide (row.key = (repo, name))

section
variable {repo name : String}

theorem rowsNamed_insertNodeRows (nodes : List Node) (rows : List NodeRow) :
    match lastNamed name nodes with
    | some node => ∃ id, (insertNodeRows repo nodes rows).filter (fun row =>
      decide (row.key = (repo, name))) = [nodeRow repo id node]
    | none => (insertNodeRows repo nodes rows).filter (fun row => decide (row.key = (repo, name))) =
        rows.filter fun row => decide (row.key = (repo, name)) := by
  induction nodes using reverseRecOn with
  | nil => rfl
  | append_singleton nodes node ih =>
    have step : insertNodeRows repo (nodes ++ [node]) rows = insertOrReplace NodeRow.key
      (nodeRow repo (nextRowid NodeRow.id (insertNodeRows repo nodes rows)) node)
          (insertNodeRows repo nodes rows) := by
      unfold insertNodeRows
      rw [foldl_append]
      rfl
    generalize nextRowid NodeRow.id (insertNodeRows repo nodes rows) = id at step
    rw [step, lastNamed_concat]
    have key : (nodeRow repo id node).key = (repo, node.qualifiedName) := rfl
    unfold insertOrReplace deleteWhere
    rw [filter_append, filter_filter]
    by_cases same : node.qualifiedName = name
    · rw [if_pos same]
      refine ⟨id, ?_⟩
      have own : (nodeRow repo id node).key = (repo, name) := by rw [key, same]
      have gone : (insertNodeRows repo nodes rows).filter (fun row =>
          decide (row.key = (repo, name)) && !decide (row.key = (nodeRow repo id node).key)) = [] := by
        rw [own, filter_eq_nil_iff]
        intro row _
        rw [Bool.and_not_self]
        exact Bool.false_ne_true
      rw [gone, nil_append, filter_eq_self]
      intro row mem
      rw [mem_singleton.mp mem]
      exact decide_eq_true own
    · rw [if_neg same]
      have apart : (nodeRow repo id node).key ≠ (repo, name) := fun taken => same (congrArg Prod.snd taken)
      rw [filter_cons_of_neg (by simpa using apart), filter_nil, append_nil]
      have keep : (insertNodeRows repo nodes rows).filter (fun row =>
          decide (row.key = (repo, name)) && !decide (row.key = (nodeRow repo id node).key)) =
          (insertNodeRows repo nodes rows).filter fun row => decide (row.key = (repo, name)) := by
        apply filter_congr
        intro row _
        by_cases here : row.key = (repo, name)
        · rw [here, decide_eq_true rfl, decide_eq_false fun taken => apart taken.symm]
          rfl
        · rw [decide_eq_false here, Bool.false_and]
      rw [keep]
      exact ih

variable {db : Db} {node : Node} {rows : List ChunkRow} {text : Option String}

theorem mem_rowsNamed {row : NodeRow} :
    row ∈ rowsNamed repo name db ↔ row ∈ db.nodes ∧ row.key = (repo, name) := by
  unfold rowsNamed
  rw [mem_filter, decide_eq_true_eq]

theorem rowsNamed_replaced (file : ParsedFile) (db : Db) :
    match lastNamed name file.nodes with
    | some node => ∃ id, rowsNamed repo name (replaced repo file db) = [nodeRow repo id node]
    | none => rowsNamed repo name (replaced repo file db) =
        (rowsNamed repo name db).filter fun row => decide (row.filePath ≠ file.path) := by
  have inserted := @rowsNamed_insertNodeRows repo name file.nodes (deleteWhere (NodeRow.inFile repo file.path) db.nodes)
  unfold rowsNamed
  rw [replaced_nodes]
  cases named : lastNamed name file.nodes with
  | some node =>
    rw [named] at inserted
    exact inserted
  | none =>
    rw [named] at inserted
    dsimp only at inserted ⊢
    rw [inserted, deleteWhere, filter_filter, filter_filter]
    apply filter_congr
    intro row _
    unfold NodeRow.inFile
    by_cases here : row.key = (repo, name)
    · have inRepo : row.sourceRepoId = repo := congrArg Prod.fst here
      simp only [here, inRepo, true_and, decide_true, Bool.true_and, Bool.and_true, decide_not]
    · rw [decide_eq_false here, Bool.false_and, Bool.and_false]

theorem batch_concat (files : List ParsedFile) (file : ParsedFile) (db : Db) :
    batch repo (files ++ [file]) db = replaced repo file (batch repo files db) := by
  unfold batch runBlocks
  rw [map_append, foldl_append]
  rfl

def Located (files : List ParsedFile) : Prop :=
  ∀ file ∈ files, ∀ node ∈ file.nodes, node.filePath = file.path

theorem rowsNamed_batch {files : List ParsedFile} (located : Located files) (db : Db) :
    match holder name files with
    | some (path, node) => node.filePath = path ∧ node.qualifiedName = name ∧
        ∃ id, rowsNamed repo name (batch repo files db) = [nodeRow repo id node]
    | none => rowsNamed repo name (batch repo files db) ⊆ rowsNamed repo name db := by
  induction files using reverseRecOn with
  | nil => exact fun _ mem => mem
  | append_singleton files file ih =>
    have earlier := ih fun other mem => located other (mem_append_left _ mem)
    have here : ∀ node ∈ file.nodes, node.filePath = file.path := located file (mem_append_right _ (mem_singleton_self _))
    have step := @rowsNamed_replaced repo name file (batch repo files db)
    rw [holder_concat, batch_concat]
    cases named : lastNamed name file.nodes with
    | some node =>
      rw [holdStep_of_some named]
      rw [named] at step
      obtain ⟨mem, same⟩ := mem_of_lastNamed named
      exact ⟨here node mem, same, step⟩
    | none =>
      rw [holdStep_of_none named]
      rw [named] at step
      dsimp only at step
      cases held : holder name files with
      | none =>
        rw [held] at earlier
        rw [Option.filter_none]
        dsimp only at earlier ⊢
        rw [step]
        exact List.Subset.trans (filter_subset_self _) earlier
      | some entry =>
        obtain ⟨path, node⟩ := entry
        rw [held] at earlier
        obtain ⟨placed, same, id, only⟩ := earlier
        rw [only] at step
        by_cases taken : path = file.path
        · rw [Option.filter_some_neg (by simpa using taken)]
          dsimp only
          have gone : rowsNamed repo name (replaced repo file (batch repo files db)) = [] := by
            rw [step, filter_eq_nil_iff]
            intro row mem
            rw [mem_singleton.mp mem]
            simp only [nodeRow, placed, taken, ne_eq, not_true_eq_false, decide_false, Bool.false_eq_true, not_false_eq_true]
          rw [gone]
          exact nil_subset _
        · rw [Option.filter_some_pos (by simpa using taken)]
          refine ⟨placed, same, id, ?_⟩
          rw [step, filter_eq_self]
          intro row mem
          rw [mem_singleton.mp mem]
          exact decide_eq_true (fun same => taken (placed.symm.trans same))

def chunksNamed (repo name : String) (rows : List ChunkRow) : List ChunkRow :=
  rows.filter fun row => decide (row.sourceRepoId = repo ∧ row.nodeQn = name)

theorem chunksNamed_deleteWhere (lost : List String) (rows : List ChunkRow) :
    chunksNamed repo name (deleteWhere (ChunkRow.isOf repo lost) rows) =
      if name ∈ lost then [] else chunksNamed repo name rows := by
  unfold chunksNamed deleteWhere
  rw [filter_filter]
  split
  · next mem =>
      rw [filter_eq_nil_iff]
      intro row _ both
      rw [Bool.and_eq_true, decide_eq_true_eq] at both
      obtain ⟨⟨inRepo, same⟩, kept⟩ := both
      have isLost : row.isOf repo lost = true := decide_eq_true ⟨inRepo, same ▸ mem⟩
      rw [isLost] at kept
      cases kept
  · next absent =>
      apply filter_congr
      intro row _
      by_cases here : row.sourceRepoId = repo ∧ row.nodeQn = name
      · have kept : row.isOf repo lost = false := decide_eq_false fun lostToo => absent (here.2 ▸ lostToo.2)
        rw [kept, Bool.not_false, Bool.and_true]
      · rw [decide_eq_false here, Bool.false_and]

theorem mem_dropped_iff {file : ParsedFile} :
    name ∈ dropped repo file db ↔ lastNamed name file.nodes = none ∧ ∃ row ∈ rowsNamed repo name db,
      row.filePath = file.path := by
  unfold dropped storedNames
  rw [mem_filter, decide_eq_true_eq, lastNamed_eq_none_iff, and_comm]
  apply and_congr_right
  intro _
  rw [mem_map]
  constructor
  · rintro ⟨row, stored, same⟩
    obtain ⟨inTable, inFile⟩ := mem_filter.mp stored
    have ⟨inRepo, atPath⟩ := of_decide_eq_true inFile
    exact ⟨row, mem_rowsNamed.mpr ⟨inTable, Prod.ext inRepo same⟩, atPath⟩
  · rintro ⟨row, mem, atPath⟩
    obtain ⟨inTable, key⟩ := mem_rowsNamed.mp mem
    exact ⟨row, mem_filter.mpr ⟨inTable, decide_eq_true ⟨congrArg Prod.fst key, atPath⟩⟩, congrArg Prod.snd key⟩

theorem chunksNamed_replaced (file : ParsedFile) (db : Db) :
    chunksNamed repo name (replaced repo file db).retrievalChunks =
      if name ∈ dropped repo file db then [] else chunksNamed repo name db.retrievalChunks := by
  rw [replaced_retrievalChunks, chunksNamed_deleteWhere]

theorem chunksNamed_of_interrupted {files : List ParsedFile}
    (located : Located files) (db : Db) (interrupted : Interrupted name files) :
    chunksNamed repo name (batch repo files db).retrievalChunks = [] := by
  obtain ⟨before, file, after, node, rfl, held, unnamed⟩ := interrupted
  have rows := @rowsNamed_batch repo name before (fun other mem => located other (mem_append_left _ mem)) db
  rw [held] at rows
  obtain ⟨placed, -, id, only⟩ := rows
  have gone : chunksNamed repo name (batch repo (before ++ [file]) db).retrievalChunks = [] := by
    rw [batch_concat, chunksNamed_replaced, if_pos]
    refine mem_dropped_iff.mpr ⟨unnamed, nodeRow repo id node, ?_, placed⟩
    rw [only]
    exact mem_singleton_self _
  rw [append_cons]
  generalize before ++ [file] = front at gone
  clear located held only
  induction after using reverseRecOn with
  | nil =>
    rw [append_nil]
    exact gone
  | append_singleton after later ih =>
    rw [← append_assoc, batch_concat, chunksNamed_replaced]
    split
    · rfl
    · exact ih

theorem chunksNamed_of_uninterrupted {files : List ParsedFile} (located : Located files)
    {db : Db} (elsewhere : ∀ row ∈ rowsNamed repo name db, row.filePath ∉ files.map ParsedFile.path)
    (calm : ¬ Interrupted name files) :
    chunksNamed repo name (batch repo files db).retrievalChunks = chunksNamed repo name db.retrievalChunks := by
  induction files using reverseRecOn with
  | nil => rfl
  | append_singleton files file ih =>
    have front : Located files := fun other mem => located other (mem_append_left _ mem)
    have earlier := ih front (fun row mem inFront => elsewhere row mem (by
        rw [map_append]
        exact mem_append_left _ inFront))
      (fun ⟨before, taker, after, node, split, held, unnamed⟩ =>
        calm ⟨before, taker, after ++ [file], node, by rw [split, append_assoc,
          cons_append], held, unnamed⟩)
    rw [batch_concat, chunksNamed_replaced, if_neg, earlier]
    intro dropping
    obtain ⟨unnamed, row, mem, atPath⟩ := mem_dropped_iff.mp dropping
    have rows := @rowsNamed_batch repo name files front db
    cases held : holder name files with
    | none =>
      rw [held] at rows
      apply elsewhere row (rows mem)
      rw [atPath, map_append]
      exact mem_append_right _ (mem_singleton_self _)
    | some entry =>
      obtain ⟨path, node⟩ := entry
      rw [held] at rows
      obtain ⟨placed, -, id, only⟩ := rows
      rw [only] at mem
      rw [mem_singleton.mp mem] at atPath
      have same : path = file.path := placed.symm.trans atPath
      rw [same] at held
      exact calm ⟨files, file, [], node, rfl, held, unnamed⟩

def HasText (repo name : String) (rows : List ChunkRow) : Option String → Prop
  | none => chunksNamed repo name rows = []
  | some text => ∃ chunk, chunksNamed repo name rows = [chunk] ∧ chunk.chunkIdx = 0 ∧
      chunk.text = text

theorem chunksNamed_upsertChunkRow_of_ne (apart : node.qualifiedName ≠ name)
    (rows : List ChunkRow) :
    chunksNamed repo name (upsertChunkRow repo rows node) = chunksNamed repo name rows := by
  unfold chunksNamed upsertChunkRow
  refine @filter_insertOrUpdate _ _ _ ChunkRow.key (fun row => { row with text := node.chunkText }) _ _ (fun _ => rfl) ?_ rows
  intro other same
  have sameName : other.nodeQn = node.qualifiedName := congrArg (fun key => key.2.1) same
  exact decide_eq_false fun both => apart (sameName.symm.trans both.2)

theorem mem_chunksNamed {chunk : ChunkRow} : chunk ∈ chunksNamed repo name rows ↔
    chunk ∈ rows ∧ chunk.sourceRepoId = repo ∧ chunk.nodeQn = name := by
  unfold chunksNamed
  rw [mem_filter, decide_eq_true_eq]

theorem hasText_upsertChunkRow (same : node.qualifiedName = name)
    (before : HasText repo name rows text) :
    HasText repo name (upsertChunkRow repo rows node) (some node.chunkText) := by
  unfold upsertChunkRow
  rw [same]
  cases text with
  | none =>
    have fresh : ∀ row ∈ rows, row.key ≠ (repo, name, 0) := by
      intro row mem key
      have named : row ∈ chunksNamed repo name rows :=
        mem_chunksNamed.mpr ⟨mem, congrArg Prod.fst key, congrArg (fun key => key.2.1) key⟩
      rw [show chunksNamed repo name rows = [] from before] at named
      cases named
    refine ⟨⟨nextRowid ChunkRow.id rows, repo, name, 0, node.chunkText, none⟩, ?_, rfl, rfl⟩
    unfold chunksNamed
    rw [@filter_insertOrUpdate_fresh _ _ _ ChunkRow.key _ _ _ _ fresh]
    rw [show rows.filter (fun row => decide (row.sourceRepoId = repo ∧ row.nodeQn = name)) = [] from
      before, nil_append, filter_eq_self]
    intro row mem
    rw [mem_singleton.mp mem]
    exact decide_eq_true ⟨rfl, rfl⟩
  | some text =>
    obtain ⟨chunk, only, first, -⟩ := before
    have named : chunk ∈ chunksNamed repo name rows := by
      rw [only]
      exact mem_singleton_self _
    obtain ⟨mem, inRepo, sameName⟩ := mem_chunksNamed.mp named
    have key : chunk.key = (repo, name, 0) := by
      unfold ChunkRow.key
      rw [inRepo, sameName, first]
    refine ⟨{ chunk with text := node.chunkText }, ?_, first, rfl⟩
    have taken : ∃ other ∈ rows, other.key =
      (⟨nextRowid ChunkRow.id rows, repo, name, 0, node.chunkText, none⟩ : ChunkRow).key :=
      ⟨chunk, mem, key⟩
    have updated := @filter_insertOrUpdate_taken _ _ _ ChunkRow.key (fun row => { row with text := node.chunkText }) _
      (fun row => decide (row.sourceRepoId = repo ∧ row.nodeQn = name)) (fun _ => rfl) rows taken
    unfold chunksNamed at only ⊢
    rw [updated, only]
    exact congrArg (fun row => [row]) (if_pos (decide_eq_true key))

def writeChunks (repo : String) (db : Db) (files : List ParsedFile)
    (rows : List ChunkRow) : List ChunkRow := files.foldl (fun rows file =>
    replaceChunkRows repo (storedNames repo db file.path) file.nodes rows) rows

theorem writeChunks_concat (db : Db)
    (files : List ParsedFile) (file : ParsedFile) (rows : List ChunkRow) :
    writeChunks repo db (files ++ [file]) rows = replaceChunkRows repo
      (storedNames repo db file.path) file.nodes (writeChunks repo db files rows) := by
  unfold writeChunks
  rw [foldl_append]
  rfl

theorem hasText_upserts (before : HasText repo name rows text) (nodes : List Node) :
    HasText repo name (nodes.foldl (upsertChunkRow repo) rows) (((lastNamed name nodes).map Node.chunkText).or text) := by
  induction nodes using reverseRecOn with
  | nil => exact before
  | append_singleton nodes node ih =>
    rw [foldl_append, lastNamed_concat]
    by_cases same : node.qualifiedName = name
    · rw [if_pos same]
      exact hasText_upsertChunkRow same ih
    · rw [if_neg same]
      change HasText repo name (upsertChunkRow repo (nodes.foldl (upsertChunkRow repo) rows) node) _
      unfold HasText at *
      rw [chunksNamed_upsertChunkRow_of_ne same]
      exact ih

theorem hasText_writeChunks {db : Db} {path : String}
    (home : ∀ other, name ∈ storedNames repo db other ↔ other = path) {files : List ParsedFile}
    {rows : List ChunkRow}
    (fresh : path ∈ files.map ParsedFile.path ∨ chunksNamed repo name rows = []) :
    HasText repo name (writeChunks repo db files rows) (givenText name path files) := by
  induction files using reverseRecOn with
  | nil => exact fresh.resolve_left not_mem_nil
  | append_singleton files file ih =>
    have given : givenText name path (files ++ [file]) = textStep name path (givenText name path files) file := by
      unfold givenText
      rw [foldl_append]
      rfl
    rw [writeChunks_concat, given]
    unfold textStep replaceChunkRows
    apply hasText_upserts
    by_cases here : file.path = path
    · rw [if_pos here]
      change chunksNamed repo name _ = []
      rw [chunksNamed_deleteWhere, if_pos ((home _).mpr here)]
    · rw [if_neg here]
      have earlier := ih (fresh.imp_left fun mem => by
        rw [map_append, mem_append] at mem
        exact mem.resolve_right fun last => here (mem_singleton.mp last).symm)
      unfold HasText at *
      rw [chunksNamed_deleteWhere, if_neg fun stored => here ((home _).mp stored)]
      exact earlier

end
end Atlas.Store
