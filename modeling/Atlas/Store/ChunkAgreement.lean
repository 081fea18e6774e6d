import Atlas.Store.ChunkRefresh

/-! When the graph of a list of files and then its chunks are written, the chunk
table follows the node table exactly for lists whose names and paths come back
in canonical form. -/
namespace Atlas.Store
open List Core Sql

variable {db : Db} {node : Node} {path : String} {rows : List ChunkRow}

def NamesNodes (repo : String) (db : Db) : Prop := ∀ chunk ∈ db.retrievalChunks,
    chunk.sourceRepoId = repo → ∃ row ∈ db.nodes, row.key = (repo, chunk.nodeQn)

structure FollowsNodes (repo : String) (listed : List String) (db : Db) : Prop where
  named : NamesNodes repo db
  own : ∀ row ∈ db.nodes, row.sourceRepoId = repo → row.filePath ∈ listed →
    ∃ chunk, chunksNamed repo row.qualifiedName db.retrievalChunks = [chunk] ∧
      chunk.chunkIdx = 0 ∧ chunk.text = (rowToNode row).chunkText

structure ListRefreshed (files normal : List ParsedFile) : Prop where
  kept : ∀ file ∈ files, ∀ name ∈ names file, (holder name normal).isSome = true
  refreshed : ∀ name path node, holder name normal = some (path, node) → givenText name path files =
    some node.chunkText ∧ (path ∈ files.map ParsedFile.path ∨ Interrupted name normal)

section
variable {repo name : String}

theorem namesNodes_iff : NamesNodes repo db ↔
    ∀ name, chunksNamed repo name db.retrievalChunks ≠ [] → rowsNamed repo name db ≠ [] := by
  constructor
  · intro sound name some_
    obtain ⟨chunk, mem⟩ := exists_mem_of_ne_nil _ some_
    obtain ⟨stored, inRepo, rfl⟩ := mem_chunksNamed.mp mem
    obtain ⟨row, inTable, key⟩ := sound chunk stored inRepo
    exact ne_nil_of_mem (mem_rowsNamed.mpr ⟨inTable, key⟩)
  · intro sound chunk stored inRepo
    have some_ := ne_nil_of_mem (mem_chunksNamed.mpr ⟨stored, inRepo, rfl⟩)
    obtain ⟨row, mem⟩ := exists_mem_of_ne_nil _ (sound chunk.nodeQn some_)
    exact ⟨row, mem_rowsNamed.mp mem⟩

private theorem namesNodes_replaced (file : ParsedFile) (sound : NamesNodes repo db) :
    NamesNodes repo (replaced repo file db) := by
  rw [namesNodes_iff] at *
  intro name some_
  rw [chunksNamed_replaced] at some_
  split at some_
  · exact absurd rfl some_
  · next kept =>
      obtain ⟨row, mem⟩ := exists_mem_of_ne_nil _ (sound name some_)
      have step := @rowsNamed_replaced repo name file db
      cases named : lastNamed name file.nodes with
      | some node =>
        rw [named] at step
        obtain ⟨id, only⟩ := step
        rw [only]
        exact cons_ne_nil _ _
      | none =>
        rw [named] at step
        dsimp only at step
        rw [step]
        apply ne_nil_of_mem
        refine mem_filter.mpr ⟨mem, decide_eq_true fun atPath => ?_⟩
        exact kept (mem_dropped_iff.mpr ⟨named, row, mem, atPath⟩)

private theorem namesNodes_batch (files : List ParsedFile) (sound : NamesNodes repo db) :
    NamesNodes repo (batch repo files db) := by
  induction files using reverseRecOn with
  | nil => exact sound
  | append_singleton files file ih =>
    rw [batch_concat]
    exact namesNodes_replaced file ih

private theorem chunksNamed_batch_nil (files : List ParsedFile)
    (none : chunksNamed repo name db.retrievalChunks = []) :
    chunksNamed repo name (batch repo files db).retrievalChunks = [] := by
  induction files using reverseRecOn with
  | nil => exact none
  | append_singleton files file ih =>
    rw [batch_concat, chunksNamed_replaced]
    split
    · rfl
    · exact ih

variable {files : List ParsedFile} {nodes : List Node} {key : String × String × Nat}

private theorem holder_of_listed (located : Located files)
    {row : NodeRow} (mem : row ∈ rowsNamed repo name (batch repo files db))
    (listed : row.filePath ∈ files.map ParsedFile.path) :
    ∃ node, holder name files = some (row.filePath, node) ∧ ∃ id, row = nodeRow repo id node := by
  induction files using reverseRecOn with
  | nil => cases listed
  | append_singleton files file ih =>
    have here : ∀ node ∈ file.nodes, node.filePath = file.path := located file (mem_append_right _ (mem_singleton_self _))
    have step := @rowsNamed_replaced repo name file (batch repo files db)
    rw [batch_concat] at mem
    rw [holder_concat]
    cases named : lastNamed name file.nodes with
    | some node =>
      rw [named] at step
      obtain ⟨id, only⟩ := step
      rw [only] at mem
      have same := mem_singleton.mp mem
      refine ⟨node, ?_, id, same⟩
      rw [holdStep_of_some named, same]
      exact congrArg (fun path => some (path, node)) (here node (mem_of_lastNamed named).1).symm
    | none =>
      rw [named] at step
      dsimp only at step
      rw [step] at mem
      obtain ⟨before, elsewhere⟩ := mem_filter.mp mem
      have apart := of_decide_eq_true elsewhere
      rw [map_append, mem_append] at listed
      have earlier := listed.resolve_right fun last => apart (mem_singleton.mp last)
      obtain ⟨node, held, id, same⟩ := ih (fun other inFront => located other (mem_append_left _ inFront)) before earlier
      refine ⟨node, ?_, id, same⟩
      rw [holdStep_of_none named, held]
      exact Option.filter_some_pos elsewhere

theorem mem_storedNames_of_only {id : Nat} (only : rowsNamed repo name db = [nodeRow repo id node])
    (placed : node.filePath = path) (other : String) :
    name ∈ storedNames repo db other ↔ other = path := by
  unfold storedNames
  rw [mem_map]
  constructor
  · rintro ⟨row, stored, same⟩
    obtain ⟨inTable, inFile⟩ := mem_filter.mp stored
    have ⟨inRepo, atPath⟩ := of_decide_eq_true inFile
    have mem : row ∈ rowsNamed repo name db := mem_rowsNamed.mpr ⟨inTable, Prod.ext inRepo same⟩
    rw [only] at mem
    rw [mem_singleton.mp mem] at atPath
    exact atPath.symm.trans placed
  · rintro rfl
    have mem : nodeRow repo id node ∈ rowsNamed repo name db := by
      rw [only]
      exact mem_singleton_self _
    obtain ⟨inTable, key⟩ := mem_rowsNamed.mp mem
    exact ⟨_, mem_filter.mpr ⟨inTable, decide_eq_true ⟨rfl, placed⟩⟩, congrArg Prod.snd key⟩

theorem chunkText_nodeRow (id : Nat) (node : Node) :
    (rowToNode (nodeRow repo id node)).chunkText = node.chunkText := by
  unfold rowToNode nodeRow Node.chunkText
  rw [NodeKind.fromStr?_asStr]
  rfl

private theorem chunksNamed_replaceChunkRows_of_unnamed (unnamed : name ∉ nodes.map Node.qualifiedName)
    (lost : List String) (rows : List ChunkRow) :
    chunksNamed repo name (replaceChunkRows repo lost nodes rows) =
      if name ∈ lost then [] else chunksNamed repo name rows := by
  unfold replaceChunkRows
  induction nodes using reverseRecOn with
  | nil => exact chunksNamed_deleteWhere lost rows
  | append_singleton nodes node ih =>
    rw [map_append, mem_append, not_or] at unnamed
    rw [foldl_append]
    refine Eq.trans (chunksNamed_upsertChunkRow_of_ne ?_ _) (ih unnamed.1)
    exact fun same => unnamed.2 (mem_singleton.mpr same.symm)

private theorem named_of_writeChunks (some_ : chunksNamed repo name (writeChunks repo db files rows) ≠ []) :
    chunksNamed repo name rows ≠ [] ∨ ∃ file ∈ files, name ∈ names file := by
  induction files using reverseRecOn with
  | nil => exact .inl some_
  | append_singleton files file ih =>
    by_cases given : name ∈ names file
    · exact .inr ⟨file, mem_append_right _ (mem_singleton_self _), given⟩
    · rw [writeChunks_concat, chunksNamed_replaceChunkRows_of_unnamed given] at some_
      split at some_
      · exact absurd rfl some_
      · rcases ih some_ with before | ⟨other, mem, inOther⟩
        · exact .inl before
        · exact .inr ⟨other, mem_append_left _ mem, inOther⟩

private theorem mem_keys_upsertChunkRow : key ∈ (upsertChunkRow repo rows node).map ChunkRow.key ↔
    key ∈ rows.map ChunkRow.key ∨ key = (repo, node.qualifiedName, 0) := by
  unfold upsertChunkRow
  rw [@map_key_insertOrUpdate _ _ _ ChunkRow.key (fun row => { row with text := node.chunkText }) _ (fun _ _ => rfl)]
  split
  · next taken =>
      constructor
      · exact .inl
      · rintro (old | rfl)
        · exact old
        · exact taken
  · rw [mem_append, mem_singleton]
    exact Iff.rfl

private theorem mem_keys_upserts : key ∈ (nodes.foldl (upsertChunkRow repo) rows).map ChunkRow.key ↔
    key ∈ rows.map ChunkRow.key ∨ ∃ node ∈ nodes, key = (repo, node.qualifiedName, 0) := by
  induction nodes generalizing rows with
  | nil => simp
  | cons node rest ih => rw [foldl_cons, ih, mem_keys_upsertChunkRow, exists_mem_cons_iff, or_assoc]

theorem key_mem_writeChunks {db : Db} {files : List ParsedFile} {rows : List ChunkRow}
    {idx : Nat} (apart : ∀ file ∈ files, name ∉ storedNames repo db file.path)
    (present : (repo, name, idx) ∈ rows.map ChunkRow.key ∨ (idx = 0 ∧ ∃ file ∈ files, name ∈ names file)) :
    (repo, name, idx) ∈ (writeChunks repo db files rows).map ChunkRow.key := by
  induction files using reverseRecOn with
  | nil => exact present.resolve_right fun ⟨_, _, mem, _⟩ => by cases mem
  | append_singleton files file ih =>
    rw [writeChunks_concat, replaceChunkRows, mem_keys_upserts]
    by_cases given : idx = 0 ∧ name ∈ names file
    · obtain ⟨node, mem, same⟩ := mem_map.mp given.2
      exact .inr ⟨node, mem, by rw [given.1, same]⟩
    · have earlier := ih (fun other mem => apart other (mem_append_left _ mem)) (by
        rcases present with old | ⟨first, other, mem, inOther⟩
        · exact .inl old
        · rcases mem_append.mp mem with before | last
          · exact .inr ⟨first, other, before, inOther⟩
          · rw [mem_singleton.mp last] at inOther
            exact absurd ⟨first, inOther⟩ given)
      obtain ⟨row, stored, key⟩ := mem_map.mp earlier
      refine .inl (mem_map.mpr ⟨row, mem_deleteWhere.mpr ⟨stored, ?_⟩, key⟩)
      apply decide_eq_false
      rintro ⟨-, lost⟩
      have sameName : row.nodeQn = name := congrArg (fun key => key.2.1) key
      exact apart file (mem_append_right _ (mem_singleton_self _)) (sameName ▸ lost)

end

def afterBoth (nfc : String → String) (repo : String) (files : List ParsedFile) (prior : Db) : Db :=
  (replaceChunksForParsedFiles .faultless repo files ⟨afterBatch nfc repo files prior, none⟩).2.committed

section
variable {nfc : String → String} {repo name : String} {files normal : List ParsedFile} {prior : Db}

section
variable (accepted : files.mapM (canonicalizeParsedFile nfc) = .ok normal)
include accepted

theorem afterBoth_eq : afterBoth nfc repo files prior =
      { batch repo normal prior with
        retrievalChunks := writeChunks repo (batch repo normal prior) files
          (batch repo normal prior).retrievalChunks } := by
  unfold afterBoth
  rw [afterBatch_ok accepted]
  unfold replaceChunksForParsedFiles
  by_cases empty : files = []
  · subst empty
    rfl
  · rw [if_neg empty, transaction_faultless, runBlocks_replaceChunks]
    have read : ∀ path, (nodesOfFile repo path (batch repo normal prior)).map Node.qualifiedName =
      storedNames repo (batch repo normal prior) path := by
      intro path
      rw [nodesOfFile_eq, map_map]
      rfl
    unfold writeChunks
    simp only [read]

theorem rowsNamed_afterBoth : rowsNamed repo name (afterBoth nfc repo files prior) =
    rowsNamed repo name (batch repo normal prior) := by
  rw [afterBoth_eq accepted]
  rfl

private theorem followsNodes_of_refreshed (list : ListRefreshed files normal)
    (sound : NamesNodes repo prior) :
    FollowsNodes repo (normal.map ParsedFile.path) (afterBoth nfc repo files prior) := by
  have located : Located normal := mapM_canonicalizeParsedFile_located accepted
  constructor
  · rw [namesNodes_iff]
    intro name some_
    rw [rowsNamed_afterBoth accepted]
    rw [afterBoth_eq accepted] at some_
    rcases named_of_writeChunks some_ with before | ⟨file, mem, given⟩
    · exact namesNodes_iff.mp (namesNodes_batch normal sound) name before
    · have rows := @rowsNamed_batch repo name normal located prior
      obtain ⟨⟨path, node⟩, held⟩ := Option.isSome_iff_exists.mp (list.kept file mem name given)
      rw [held] at rows
      obtain ⟨-, -, id, only⟩ := rows
      rw [only]
      exact cons_ne_nil _ _
  · intro row inTable inRepo listed
    rw [afterBoth_eq accepted] at inTable ⊢
    have mem : row ∈ rowsNamed repo row.qualifiedName (batch repo normal prior) :=
      mem_rowsNamed.mpr ⟨inTable, Prod.ext inRepo rfl⟩
    obtain ⟨node, held, id, shape⟩ := holder_of_listed located mem listed
    have rows := @rowsNamed_batch repo row.qualifiedName normal located prior
    rw [held] at rows
    obtain ⟨placed, -, id', only⟩ := rows
    obtain ⟨given, fresh⟩ := list.refreshed _ _ _ held
    have text := hasText_writeChunks (mem_storedNames_of_only only placed)
      (fresh.imp_right (chunksNamed_of_interrupted located prior))
    rw [given] at text
    obtain ⟨chunk, single, first, same⟩ := text
    refine ⟨chunk, single, first, same.trans ?_⟩
    rw [← chunkText_nodeRow id node, ← shape]

private theorem kept_of_follows (follows : NamesNodes repo (afterBoth nfc repo files Db.empty)) :
    ∀ file ∈ files, ∀ name ∈ names file, (holder name normal).isSome = true := by
  intro file mem name given
  have located : Located normal := mapM_canonicalizeParsedFile_located accepted
  by_contra unheld
  rw [Option.not_isSome_iff_eq_none] at unheld
  have rows := @rowsNamed_batch repo name normal located Db.empty
  rw [unheld] at rows
  have noRow : rowsNamed repo name (batch repo normal Db.empty) = [] := subset_nil.mp rows
  have apart : ∀ other ∈ files, name ∉ storedNames repo (batch repo normal Db.empty) other.path := by
    intro other _ stored
    obtain ⟨row, inFile, same⟩ := mem_map.mp stored
    obtain ⟨inTable, isInFile⟩ := mem_filter.mp inFile
    have inRows : row ∈ rowsNamed repo name (batch repo normal Db.empty) :=
      mem_rowsNamed.mpr ⟨inTable, Prod.ext (of_decide_eq_true isInFile).1 same⟩
    rw [noRow] at inRows
    cases inRows
  have written := @key_mem_writeChunks _ _ _ _ (batch repo normal Db.empty).retrievalChunks 0 apart (.inr ⟨rfl, file, mem, given⟩)
  obtain ⟨chunk, stored, key⟩ := mem_map.mp written
  have some_ : chunksNamed repo name (afterBoth nfc repo files Db.empty).retrievalChunks ≠ [] := by
    rw [afterBoth_eq accepted]
    exact ne_nil_of_mem (mem_chunksNamed.mpr ⟨stored, congrArg Prod.fst key, congrArg (fun key => key.2.1) key⟩)
  exact namesNodes_iff.mp follows name some_ ((rowsNamed_afterBoth accepted).trans noRow)

private theorem givenText_of_follows
    (follows : FollowsNodes repo (normal.map ParsedFile.path) (afterBoth nfc repo files Db.empty))
    (held : holder name normal = some (path, node)) :
    givenText name path files = some node.chunkText := by
  have located : Located normal := mapM_canonicalizeParsedFile_located accepted
  have rows := @rowsNamed_batch repo name normal located Db.empty
  rw [held] at rows
  obtain ⟨placed, sameName, id, only⟩ := rows
  have text := @hasText_writeChunks _ _ _ _ (mem_storedNames_of_only only placed) files _ (.inr
    (chunksNamed_batch_nil normal (rfl : chunksNamed repo name Db.empty.retrievalChunks = [])))
  have mem : nodeRow repo id node ∈ rowsNamed repo name (batch repo normal Db.empty) := by
    rw [only]
    exact mem_singleton_self _
  have listed : (nodeRow repo id node).filePath ∈ normal.map ParsedFile.path := by
    change node.filePath ∈ _
    rw [placed]
    exact holder_path_mem held
  obtain ⟨chunk, single, -, same⟩ := follows.own (nodeRow repo id node) (by
    rw [afterBoth_eq accepted]
    exact (mem_rowsNamed.mp mem).1) rfl listed
  rw [chunkText_nodeRow] at same
  have named : (nodeRow repo id node).qualifiedName = name := sameName
  rw [named, afterBoth_eq accepted] at single
  cases given : givenText name path files with
  | none =>
    rw [given] at text
    rw [show chunksNamed repo name (writeChunks repo (batch repo normal Db.empty) files
      (batch repo normal Db.empty).retrievalChunks) = [] from text] at single
    cases single
  | some last =>
    rw [given] at text
    obtain ⟨other, alone, -, sameText⟩ := text
    rw [alone, cons.injEq] at single
    rw [← sameText, single.1, same]

end

def strayChunk (repo : String) (node : Node) : ChunkRow where
  id := 1
  sourceRepoId := repo
  nodeQn := node.qualifiedName
  chunkIdx := 1
  text := node.chunkText
  embedding := none

def strayStore (repo path : String) (node : Node) : Db where
  nodes := [nodeRow repo 1 { node with filePath := path }]
  retrievalChunks := [strayChunk repo node]

private theorem namesNodes_strayStore (repo path : String) (node : Node) :
    NamesNodes repo (strayStore repo path node) := by
  intro chunk mem _
  rw [mem_singleton.mp mem]
  exact ⟨_, mem_singleton_self _, rfl⟩

private theorem fresh_of_follows (accepted : files.mapM (canonicalizeParsedFile nfc) = .ok normal)
    (follows : ∀ prior, NamesNodes repo prior →
      FollowsNodes repo (normal.map ParsedFile.path) (afterBoth nfc repo files prior))
    (held : holder name normal = some (path, node)) :
    path ∈ files.map ParsedFile.path ∨ Interrupted name normal := by
  have located : Located normal := mapM_canonicalizeParsedFile_located accepted
  by_contra neither
  obtain ⟨unlisted, calm⟩ := not_or.mp neither
  obtain ⟨away, outside⟩ := Infinite.exists_notMem_finset (normal.map ParsedFile.path).toFinset
  rw [mem_toFinset] at outside
  have rows := @rowsNamed_batch repo name normal located (strayStore repo away node)
  rw [held] at rows
  obtain ⟨placed, sameName, id, only⟩ := rows
  have stays := @chunksNamed_of_uninterrupted repo name normal located (strayStore repo away node) (by
      intro row mem
      rw [mem_singleton.mp (mem_rowsNamed.mp mem).1]
      exact outside) calm
  have second : (repo, name, 1) ∈ (batch repo normal (strayStore repo away node)).retrievalChunks.map ChunkRow.key := by
    have inNamed : (strayChunk repo node) ∈
      chunksNamed repo name (batch repo normal (strayStore repo away node)).retrievalChunks := by
      rw [stays]
      exact mem_chunksNamed.mpr ⟨mem_singleton_self _, rfl, sameName⟩
    refine mem_map.mpr ⟨_, (mem_chunksNamed.mp inNamed).1, ?_⟩
    exact congrArg (fun name => (repo, name, 1)) sameName
  have home := mem_storedNames_of_only only placed
  have written := @key_mem_writeChunks _ _ (batch repo normal (strayStore repo away node)) files
    (batch repo normal (strayStore repo away node)).retrievalChunks 1
    (fun file mem stored => unlisted ((home _).mp stored ▸ mem_map_of_mem mem))
    (.inl second)
  obtain ⟨chunk, stored, key⟩ := mem_map.mp written
  have mem : nodeRow repo id node ∈ rowsNamed repo name (batch repo normal (strayStore repo away node)) := by
    rw [only]
    exact mem_singleton_self _
  have listed : (nodeRow repo id node).filePath ∈ normal.map ParsedFile.path := by
    change node.filePath ∈ _
    rw [placed]
    exact holder_path_mem held
  obtain ⟨one, single, first, -⟩ := (follows _ (namesNodes_strayStore repo away node)).own (nodeRow repo id node) (by
      rw [afterBoth_eq accepted]
      exact (mem_rowsNamed.mp mem).1) rfl listed
  rw [show (nodeRow repo id node).qualifiedName = name from sameName, afterBoth_eq accepted] at single
  have inNamed : chunk ∈ chunksNamed repo name (writeChunks repo (batch repo normal (strayStore repo
    away node)) files (batch repo normal (strayStore repo away node)).retrievalChunks) :=
    mem_chunksNamed.mpr ⟨stored, congrArg Prod.fst key, congrArg (fun key => key.2.1) key⟩
  rw [single] at inNamed
  have index : chunk.chunkIdx = 1 := congrArg (fun key => key.2.2) key
  rw [mem_singleton.mp inNamed, first] at index
  cases index

end

private theorem namesNodes_deleteFileGraph {repo : String}
    (limit : Option Nat) (path : String) (sound : NamesNodes repo db) :
    NamesNodes repo (execAll (deleteFileGraph limit repo path db) db) := by
  have chunks : (execAll (deleteFileGraph limit repo path db) db).retrievalChunks =
    deleteWhere (ChunkRow.isOf repo (storedNames repo db path)) db.retrievalChunks := by
    have read : (nodesOfFile repo path db).map Node.qualifiedName = storedNames repo db path := by
      rw [nodesOfFile_eq, map_map]
      rfl
    rw [← read]
    simp only [deleteFileGraph, execAll_append, execAll_cons, execAll_nil, execAll_unindex]
    rfl
  have nodes : (execAll (deleteFileGraph limit repo path db) db).nodes = deleteWhere (NodeRow.inFile repo path) db.nodes := by
    simp only [deleteFileGraph, execAll_append, execAll_cons, execAll_nil, execAll_unindex]
    rfl
  intro chunk mem inRepo
  rw [chunks] at mem
  obtain ⟨stored, kept⟩ := mem_deleteWhere.mp mem
  obtain ⟨row, inTable, key⟩ := sound chunk stored inRepo
  refine ⟨row, ?_, key⟩
  rw [nodes]
  refine mem_deleteWhere.mpr ⟨inTable, Bool.eq_false_iff.mpr fun inFile => ?_⟩
  have lost : chunk.isOf repo (storedNames repo db path) = true := by
    refine decide_eq_true ⟨inRepo, ?_⟩
    exact mem_map.mpr ⟨row, mem_filter.mpr ⟨inTable, inFile⟩, congrArg Prod.snd key⟩
  rw [lost] at kept
  cases kept

/-- The chunk table follows the node table from every state that may be there before exactly for
the lists that refresh what they write. A deletion keeps every chunk at a node. -/
theorem chunks_follow_iff {nfc : String → String} {repo : String} {files normal : List ParsedFile}
    (accepted : files.mapM (canonicalizeParsedFile nfc) = .ok normal) :
    ((∀ prior, NamesNodes repo prior → FollowsNodes repo (normal.map ParsedFile.path)
      (afterBoth nfc repo files prior)) ↔ ListRefreshed files normal) ∧
    ∀ faults path conn after, NamesNodes repo conn.committed → deleteFileGraphForRepo nfc faults
      repo path conn = (.ok (), after) → NamesNodes repo after.committed := by
  constructor
  · constructor
    · intro follows
      have fromEmpty := follows Db.empty fun chunk mem _ => by cases mem
      refine ⟨kept_of_follows accepted fromEmpty.named, ?_⟩
      intro name path node held
      exact ⟨givenText_of_follows accepted fromEmpty held, fresh_of_follows accepted follows held⟩
    · exact fun list prior sound => followsNodes_of_refreshed accepted list sound
  · intro faults path conn after sound ran
    unfold deleteFileGraphForRepo at ran
    cases placed : canonicalizeRepoPath nfc path with
    | error error =>
      rw [placed] at ran
      cases ran
    | ok canonical =>
      rw [placed] at ran
      rw [(transaction_ok ran).2, runBlocks_cons, runBlocks_nil]
      exact namesNodes_deleteFileGraph _ canonical sound

/-! ## Lists in canonical form -/

private theorem listRefreshed_of_canonical {files : List ParsedFile}
    (nodup : (files.map ParsedFile.path).Nodup) : ListRefreshed files files := by
  constructor
  · intro file mem name given
    induction files using reverseRecOn with
    | nil => cases mem
    | append_singleton files last ih =>
      rw [holder_concat]
      cases named : lastNamed name last.nodes with
      | some node =>
        rw [holdStep_of_some named]
        rfl
      | none =>
        rw [map_append, nodup_append] at nodup
        rcases mem_append.mp mem with before | here
        · obtain ⟨⟨path, node⟩, held⟩ := Option.isSome_iff_exists.mp (ih nodup.1 before)
          rw [holdStep_of_none named, held, Option.filter_some_pos]
          · rfl
          · exact decide_eq_true (nodup.2.2 path (holder_path_mem held) last.path (mem_singleton_self _))
        · rw [mem_singleton.mp here] at given
          exact absurd given (lastNamed_eq_none_iff.mp named)
  · intro name path node held
    refine ⟨?_, .inl (holder_path_mem held)⟩
    induction files using reverseRecOn with
    | nil => cases held
    | append_singleton files last ih =>
      have given : givenText name path (files ++ [last]) = textStep name path (givenText name path files) last := by
        unfold givenText
        rw [foldl_append]
        rfl
      rw [holder_concat] at held
      rw [given]
      unfold textStep
      cases named : lastNamed name last.nodes with
      | some other =>
        rw [holdStep_of_some named] at held
        cases held
        rfl
      | none =>
        rw [holdStep_of_none named] at held
        obtain ⟨before, apart⟩ := Option.filter_eq_some_iff.mp held
        rw [map_append, nodup_append] at nodup
        rw [if_neg fun same => of_decide_eq_true apart same.symm]
        exact ih nodup.1 before

def spelledFile (path nodePath : String) : ParsedFile where
  path := path
  language := some "rust"
  hash := "h1"
  nodes := [{ functionNode nodePath "good" with filePath := nodePath }]
  edges := []

theorem spelledFile_follows :
    [spelledFile "src/lib.rs" "src/lib.rs"].mapM (canonicalizeParsedFile id) =
      .ok [spelledFile "src/lib.rs" "src/lib.rs"] ∧
      ∀ prior, NamesNodes "app" prior → FollowsNodes "app" ["src/lib.rs"]
        (afterBoth id "app" [spelledFile "src/lib.rs" "src/lib.rs"] prior) := by
  have accepted : [spelledFile "src/lib.rs" "src/lib.rs"].mapM (canonicalizeParsedFile id) =
    .ok [spelledFile "src/lib.rs" "src/lib.rs"] := by decide +kernel
  exact ⟨accepted, (chunks_follow_iff accepted).1.mpr (listRefreshed_of_canonical (nodup_singleton _))⟩

/-- The graph stores the function as `src/lib.rs::fn::good`, its chunk names the raw spelling. -/
theorem spelledFile_strays :
    ∃ normal, [spelledFile "./src/../src/lib.rs" "src\\lib.rs"].mapM (canonicalizeParsedFile id) =
      .ok normal ∧
      ¬ ∀ prior, NamesNodes "app" prior → FollowsNodes "app" (normal.map ParsedFile.path)
        (afterBoth id "app" [spelledFile "./src/../src/lib.rs" "src\\lib.rs"] prior) := by
  have accepted : [spelledFile "./src/../src/lib.rs" "src\\lib.rs"].mapM (canonicalizeParsedFile id) =
      .ok [{ spelledFile "src/lib.rs" "src/lib.rs" with
        nodes := [{ functionNode "src/lib.rs" "good" with filePath := "src/lib.rs" }] }] := by
    decide +kernel
  refine ⟨_, accepted, fun follows => ?_⟩
  have named := (follows Db.empty fun chunk mem _ => by cases mem).named
  have chunks : (afterBoth id "app" [spelledFile "./src/../src/lib.rs" "src\\lib.rs"]
      Db.empty).retrievalChunks.map (fun chunk => (chunk.sourceRepoId, chunk.nodeQn)) =
        [("app", "src\\lib.rs::fn::good")] := by decide +kernel
  have nodes : (afterBoth id "app" [spelledFile "./src/../src/lib.rs" "src\\lib.rs"]
    Db.empty).nodes.map NodeRow.key = [("app", "src/lib.rs::fn::good")] := by decide +kernel
  obtain ⟨chunk, stored, key⟩ := mem_map.mp (show ("app", "src\\lib.rs::fn::good") ∈
    (afterBoth id "app" [spelledFile "./src/../src/lib.rs" "src\\lib.rs"]
      Db.empty).retrievalChunks.map (fun chunk => (chunk.sourceRepoId, chunk.nodeQn)) by
        rw [chunks]
        exact mem_singleton_self _)
  obtain ⟨row, inTable, rowKey⟩ := named chunk stored (congrArg Prod.fst key)
  have mem := mem_map.mpr ⟨row, inTable, rowKey⟩
  rw [nodes, show chunk.nodeQn = "src\\lib.rs::fn::good" from congrArg Prod.snd key] at mem
  exact absurd mem (by decide)

end Atlas.Store
