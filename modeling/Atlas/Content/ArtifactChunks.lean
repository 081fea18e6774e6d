import Atlas.Content.ArtifactIndexes

/-! What an indexing call leaves stored under its source. The chunks stored before go with
the replaced source row in the first transaction, so a call that breaks off later has
already lost them. -/
namespace Atlas.Content.Artifact
open List Program Sql
open Refactor (Text)

def chunkResult (sourceId : String) (chunk : Chunk) : ChunkResult where
  sourceId := sourceId
  chunkId := chunk.chunkId
  chunkIndex := chunk.chunkIndex
  title := chunk.title
  content := chunk.content
  contentType := chunk.contentType

/-! ## Inserting chunks -/

structure Adds (base : Db) (sourceId : String) (done : List Chunk) (db : Db) : Prop where
  sources : db.sources = base.sources
  chunks : ∃ rows, db.chunks = base.chunks ++ rows ∧ rows.map ChunkRow.result = done.map (chunkResult sourceId)

structure Bare (base : Db) (sourceId : String) : Prop where
  present : ∃ source ∈ base.sources, source.id = sourceId
  none : ∀ row ∈ base.chunks, row.sourceId ≠ sourceId

section
variable {env : Environment} {base db : Db} {sourceId : String} {done : List Chunk}

theorem Adds.start (base : Db) (sourceId : String) :
    Adds base sourceId [] base := ⟨rfl, [], by simp, rfl⟩

section
variable (adds : Adds base sourceId done db) (bare : Bare base sourceId)
include adds bare

theorem Adds.any_iff (selects : ChunkResult → Bool) :
    (db.chunks.any fun row => decide (row.sourceId = sourceId) && selects row.result) = true ↔
      ∃ chunk ∈ done, selects (chunkResult sourceId chunk) = true := by
  obtain ⟨rows, shape, results⟩ := adds.chunks
  have old : (base.chunks.any fun row =>
      decide (row.sourceId = sourceId) && selects row.result) = false :=
    any_eq_false.mpr fun row mem => by simp [bare.none row mem]
  have new : (rows.any fun row => decide (row.sourceId = sourceId) && selects row.result) =
    (rows.map ChunkRow.result).any fun result =>
        decide (result.sourceId = sourceId) && selects result := by
    rw [any_map]
    rfl
  rw [shape, any_append, old, Bool.false_or, new, results, any_map, any_eq_true]
  constructor
  · intro ⟨chunk, mem, found⟩
    exact ⟨chunk, mem, (Bool.and_eq_true_iff.mp found).2⟩
  · intro ⟨chunk, mem, found⟩
    exact ⟨chunk, mem, Bool.and_eq_true_iff.mpr ⟨decide_eq_true rfl, found⟩⟩

theorem Adds.isChunk_iff (chunkId : String) :
    db.chunks.any (isChunk sourceId chunkId) = true ↔ chunkId ∈ done.map Chunk.chunkId := by
  have spelled : isChunk sourceId chunkId = fun row =>
    decide (row.sourceId = sourceId) && decide (row.result.chunkId = chunkId) := by
    funext row
    exact Bool.decide_and _ _
  rw [spelled, adds.any_iff bare fun result => decide (result.chunkId = chunkId), mem_map]
  exact exists_congr fun chunk => and_congr_right fun _ => decide_eq_true_iff

theorem Adds.isPlace_iff (chunkIndex : Nat) : db.chunks.any (isPlace sourceId chunkIndex) = true ↔
    chunkIndex ∈ done.map Chunk.chunkIndex := by
  have spelled : isPlace sourceId chunkIndex = fun row =>
    decide (row.sourceId = sourceId) && decide (row.result.chunkIndex = chunkIndex) := by
    funext row
    exact Bool.decide_and _ _
  rw [spelled, adds.any_iff bare fun result => decide (result.chunkIndex = chunkIndex), mem_map]
  exact exists_congr fun chunk => and_congr_right fun _ => decide_eq_true_iff

theorem Adds.insertChunk
    {chunk : Chunk} (place : chunk.chunkIndex ∉ done.map Chunk.chunkIndex) :
    if chunk.chunkId ∈ done.map Chunk.chunkId then
      ∃ message, Artifact.insertChunk env sourceId chunk db = .error message
    else
      ∃ next, Artifact.insertChunk env sourceId chunk db = .ok next ∧ Adds base sourceId (done ++ [chunk]) next := by
  have stored := adds.isChunk_iff bare chunk.chunkId
  have taken : ¬ db.chunks.any (isPlace sourceId chunk.chunkIndex) = true := by
    rw [adds.isPlace_iff bare]
    exact place
  have present : (db.sources.any fun source => decide (source.id = sourceId)) = true := by
    rw [adds.sources, any_eq_true]
    obtain ⟨source, mem, same⟩ := bare.present
    exact ⟨source, mem, decide_eq_true same⟩
  unfold Artifact.insertChunk
  by_cases repeated : chunk.chunkId ∈ done.map Chunk.chunkId
  · rw [if_pos repeated, if_pos (stored.mpr repeated)]
    exact ⟨_, rfl⟩
  · rw [if_neg repeated, if_neg (fun found => repeated (stored.mp found)), if_neg taken]
    simp only [present, Bool.not_true, Bool.false_eq_true, if_false]
    obtain ⟨rows, shape, results⟩ := adds.chunks
    refine ⟨_, rfl, adds.sources, rows ++ [chunkRow env sourceId (db.sequence + 1) chunk], ?_, ?_⟩
    · rw [shape, append_assoc]
    · rw [map_append, map_append, results]
      rfl

theorem Adds.flushBatch (nodup : (done.map Chunk.chunkId).Nodup)
    {batch : List Chunk} (places : ((done ++ batch).map Chunk.chunkIndex).Nodup) :
    if ((done ++ batch).map Chunk.chunkId).Nodup then
      ∃ next, Artifact.flushBatch env sourceId [] batch db = .ok ((), next) ∧ Adds base sourceId (done ++ batch) next
    else ∃ message, Artifact.flushBatch env sourceId [] batch db = .error message := by
  induction batch generalizing done db with
  | nil =>
    rw [append_nil, if_pos nodup]
    exact ⟨db, rfl, adds⟩
  | cons chunk rest ih =>
    have split : done ++ chunk :: rest = (done ++ [chunk]) ++ rest := by simp
    have place : chunk.chunkIndex ∉ done.map Chunk.chunkIndex := by
      rw [map_append, map_cons] at places
      intro mem
      exact (nodup_append.mp places).2.2 _ mem _ (.head _) rfl
    have inserted := @Adds.insertChunk env _ _ _ _ adds bare chunk place
    by_cases repeated : chunk.chunkId ∈ done.map Chunk.chunkId
    · rw [if_pos repeated] at inserted
      obtain ⟨message, failed⟩ := inserted
      have twice : ¬ ((done ++ chunk :: rest).map Chunk.chunkId).Nodup := by
        rw [map_append, map_cons, nodup_append]
        intro all
        exact all.2.2 _ repeated _ (.head _) rfl
      rw [if_neg twice]
      refine ⟨message, ?_⟩
      rw [Artifact.flushBatch, foldlM_cons, writeChunk_new, failed]
      rfl
    · rw [if_neg repeated] at inserted
      obtain ⟨next, ok, further⟩ := inserted
      have distinctNext : ((done ++ [chunk]).map Chunk.chunkId).Nodup := by
        rw [map_append, nodup_append]
        refine ⟨nodup, nodup_singleton _, ?_⟩
        intro id mem other otherMem same
        have shape : other = chunk.chunkId := mem_singleton.mp otherMem
        exact repeated (shape ▸ same ▸ mem)
      have later := ih further distinctNext (split ▸ places)
      rw [← split] at later
      have stepped : Artifact.flushBatch env sourceId [] (chunk :: rest) db = Artifact.flushBatch env sourceId [] rest next := by
        rw [Artifact.flushBatch, foldlM_cons, writeChunk_new, ok]
        rfl
      rwa [stepped]

end

/-- The chunks of the batches that go in one after the other, and whether all of them do: a
batch stays out if its transaction fails or a chunk id comes for the second time. -/
def flushedFrom (faults : Nat → Option String) :
    Nat → List Chunk → List (List Chunk) → List Chunk × Bool
  | _, done, [] => (done, true)
  | position, done, batch :: rest =>
    if faults position = none ∧ ((done ++ batch).map Chunk.chunkId).Nodup then
      flushedFrom faults (position + 1) (done ++ batch) rest
    else (done, false)

private theorem flushedFrom_complete_iff {faults : Nat → Option String} {position : Nat}
    {batches : List (List Chunk)} (nodup : (done.map Chunk.chunkId).Nodup) :
    (flushedFrom faults position done batches).2 = true ↔
      ((done ++ batches.flatten).map Chunk.chunkId).Nodup ∧ ∀ offset < batches.length,
      faults (position + offset) = none := by
  induction batches generalizing position done with
  | nil => simp [flushedFrom, nodup]
  | cons batch rest ih =>
    unfold flushedFrom
    by_cases goes : faults position = none ∧ ((done ++ batch).map Chunk.chunkId).Nodup
    · rw [if_pos goes, ih goes.2, flatten_cons, append_assoc]
      refine and_congr_right fun _ => ?_
      constructor
      · intro clear offset bounded
        cases offset with
        | zero => exact goes.1
        | succ offset =>
          have later := clear offset (by simpa using bounded)
          rwa [Nat.add_assoc, Nat.add_comm 1] at later
      · intro clear offset bounded
        have later := clear (offset + 1) (by simpa using bounded)
        rwa [Nat.add_assoc, Nat.add_comm 1]
    · rw [if_neg goes]
      refine iff_of_false (by simp) ?_
      intro ⟨all, clear⟩
      refine goes ⟨clear 0 (by simp), ?_⟩
      rw [flatten_cons, ← append_assoc, map_append] at all
      exact (nodup_append.mp all).1

theorem flushedFrom_isPrefix (faults : Nat → Option String)
    (position : Nat) (done : List Chunk) (batches : List (List Chunk)) :
    (flushedFrom faults position done batches).1 <+: done ++ batches.flatten ∧
      ((flushedFrom faults position done batches).2 = true →
        (flushedFrom faults position done batches).1 = done ++ batches.flatten) := by
  induction batches generalizing position done with
  | nil => simp [flushedFrom]
  | cons batch rest ih =>
    unfold flushedFrom
    by_cases goes : faults position = none ∧ ((done ++ batch).map Chunk.chunkId).Nodup
    · rw [if_pos goes, flatten_cons, ← append_assoc]
      exact ih _ _
    · rw [if_neg goes]
      exact ⟨prefix_append _ _, nofun⟩

theorem issue_fault {Value : Type}
    (message : String) (change : Db → Except String (Value × Db)) (store : ContentStore) :
    issue (some message) change store = (.error (dbError message), store) := rfl

theorem issue_ok {Value : Type} {change : Db → Except String (Value × Db)} {store : ContentStore}
    {value : Value} {next : Db} (changed : change store.db = .ok (value, next)) :
    issue none change store = (.ok value, { store with db := next }) := by
  simp only [issue, changed]

private theorem issue_error {Value : Type} {change : Db → Except String (Value × Db)}
    {store : ContentStore} {message : String} (failed : change store.db = .error message) :
    issue none change store = (.error (dbError message), store) := by
  simp only [issue, failed]

private theorem flushEntry_error {entry : List Chunk × Nat}
    {store : ContentStore} (stays : env.faults.transaction (entry.2 + 1) = none →
      ∃ message, Artifact.flushBatch env sourceId [] entry.1 store.db = .error message) :
    ∃ message, flushEntry env sourceId [] entry store = (.error message, store) := by
  cases fault : env.faults.transaction (entry.2 + 1) with
  | some message =>
    refine ⟨dbError message, ?_⟩
    unfold flushEntry
    rw [fault]
    exact Run.bind_error (issue_fault _ _ _)
  | none =>
    obtain ⟨message, failed⟩ := stays fault
    refine ⟨dbError message, ?_⟩
    unfold flushEntry
    rw [fault]
    exact Run.bind_error (issue_error failed)

private theorem flushEntry_ok {entry : List Chunk × Nat}
    {store : ContentStore} {next : Db} (clear : env.faults.transaction (entry.2 + 1) = none)
    (flushed : Artifact.flushBatch env sourceId [] entry.1 store.db = .ok ((), next)) :
    ∃ reached, flushEntry env sourceId [] entry store = (.ok (), reached) ∧ reached.db = next := by
  unfold flushEntry
  rw [clear]
  exact ⟨_, Run.bind_ok (issue_ok flushed), rfl⟩

theorem Adds.flushBatches {first : Nat} {batches : List (List Chunk)}
    {store : ContentStore} (adds : Adds base sourceId done store.db) (bare : Bare base sourceId)
    (nodup : (done.map Chunk.chunkId).Nodup)
    (places : ((done ++ batches.flatten).map Chunk.chunkIndex).Nodup) :
    let flushed := flushedFrom env.faults.transaction (first + 1) done batches
    let outcome := Run.forEach (flushEntry env sourceId []) (batches.zipIdx first) store
    Adds base sourceId flushed.1 outcome.2.db ∧
      if flushed.2 then outcome.1 = .ok () else ∃ message, outcome.1 = .error message := by
  induction batches generalizing first done store with
  | nil => exact ⟨adds, rfl⟩
  | cons batch rest ih =>
    have here : ((done ++ batch).map Chunk.chunkIndex).Nodup := by
      rw [flatten_cons, ← append_assoc, map_append] at places
      exact (nodup_append.mp places).1
    have flushes := @Adds.flushBatch env _ _ _ _ adds bare nodup batch here
    rw [zipIdx_cons]
    unfold flushedFrom
    by_cases goes : env.faults.transaction (first + 1) = none ∧ ((done ++ batch).map Chunk.chunkId).Nodup
    · rw [if_pos goes]
      rw [if_pos goes.2] at flushes
      obtain ⟨next, ok, further⟩ := flushes
      obtain ⟨reached, ran, same⟩ := @flushEntry_ok env _ (batch, first) store next goes.1 ok
      rw [Run.forEach_cons_ok ran]
      refine ih (same ▸ further) goes.2 ?_
      rwa [flatten_cons, ← append_assoc] at places
    · rw [if_neg goes]
      have stays : env.faults.transaction (first + 1) = none →
        ∃ message, Artifact.flushBatch env sourceId [] batch store.db = .error message := by
        intro clear
        rwa [if_neg fun all => goes ⟨clear, all⟩] at flushes
      obtain ⟨message, ran⟩ := @flushEntry_error env _ (batch, first) store stays
      rw [Run.forEach_cons_error ran]
      exact ⟨adds, message, rfl⟩

theorem Adds.getChunks (adds : Adds base sourceId done db)
    (bare : Bare base sourceId) (sorted : (done.map Chunk.chunkIndex).Pairwise (· ≤ ·)) :
    getChunks db sourceId = done.map (chunkResult sourceId) := by
  obtain ⟨rows, shape, results⟩ := adds.chunks
  have old : base.chunks.filter (ofSource sourceId) = [] :=
    filter_eq_nil_iff.mpr fun row mem ofIt => bare.none row mem (of_decide_eq_true ofIt)
  have new : rows.filter (ofSource sourceId) = rows := by
    refine filter_eq_self.mpr fun row mem => ?_
    have listed := mem_map_of_mem (f := ChunkRow.result) mem
    rw [results] at listed
    obtain ⟨chunk, _, same⟩ := mem_map.mp listed
    exact decide_eq_true (congrArg ChunkResult.sourceId same).symm
  have places : (rows.map ChunkRow.chunkIndex) = done.map Chunk.chunkIndex := by
    have mapped := congrArg (map ChunkResult.chunkIndex) results
    rw [map_map, map_map] at mapped
    exact mapped
  rw [← places, pairwise_map] at sorted
  rw [Artifact.getChunks, shape, filter_append, old, new, nil_append, sorted.insertionSort_eq, results]

private theorem bare_insertOrReplaceSource (owned : ∀ row ∈ db.chunks, ∃ source ∈ db.sources,
    source.id = row.sourceId) (row : SourceRow) : Bare (insertOrReplaceSource row db) row.id where
  present := ⟨row, mem_append_right _ (.head _), rfl⟩
  none chunk mem same := by
    obtain ⟨member, stays⟩ := mem_deleteWhere.mp mem
    obtain ⟨source, sourceMem, owns⟩ := owned chunk member
    have gone := any_eq_false.mp stays source sourceMem
    simp [owns, same] at gone

def evictedFrom (env : Environment) (maxBytes : Nat) : Nat → Nat → List SourceRow → List String
  | 0, _, _ => []
  | fuel + 1, removed, sources =>
    if env.faults.read (2 * removed + 2) = none ∧ maxBytes <
      env.pageCount (removed + 1) * env.pageSize ∧ env.faults.read (2 * removed + 3) = none then
      match env.oldest.pick sources with
      | none => []
      | some source =>
        if ∀ statement < 3, env.faults.deletion removed statement = none then
          source.id :: evictedFrom env maxBytes fuel (removed + 1)
            (deleteWhere (fun other => decide (other.id = source.id)) sources)
        else []
    else []

def evicted (env : Environment) (maxBytes : Nat) (sources : List SourceRow) : List String :=
  if env.faults.read 0 = none ∧ env.faults.read 1 = none ∧ maxBytes < env.pageCount 0 * env.pageSize then
    evictedFrom env maxBytes (sources.length + 1) 0 sources
  else []

theorem deleteSource_ok {faults : Nat → Option String}
    {store : ContentStore} (clear : ∀ statement < 3, faults statement = none) :
    ∃ after, deleteSource faults sourceId store = (.ok (), after) ∧ after.db.sources =
      deleteWhere (fun source => decide (source.id = sourceId)) store.db.sources ∧
        after.db.chunks = deleteWhere (cascades (fun source => decide (source.id = sourceId)) store.db) store.db.chunks := by
  unfold deleteSource
  rw [clear 0 (by omega), clear 1 (by omega), clear 2 (by omega)]
  exact ⟨_, rfl, rfl, rfl⟩

theorem deleteSource_error {faults : Nat → Option String}
    {store : ContentStore} (broken : ¬ ∀ statement < 3, faults statement = none) :
    ∃ message after, deleteSource faults sourceId store = (.error message, after) ∧
      after.db.sources = store.db.sources ∧ after.db.chunks = store.db.chunks := by
  unfold deleteSource
  cases first : faults 0 with
  | some message => exact ⟨_, _, rfl, rfl, rfl⟩
  | none =>
    cases second : faults 1 with
    | some message => exact ⟨_, _, rfl, rfl, rfl⟩
    | none =>
      cases third : faults 2 with
      | some message => exact ⟨_, _, rfl, rfl, rfl⟩
      | none =>
        refine absurd ?_ broken
        intro statement bounded
        obtain rfl | rfl | rfl : statement = 0 ∨ statement = 1 ∨ statement = 2 := by omega
        · exact first
        · exact second
        · exact third

def without (sourceIds : List String) (rows : List ChunkRow) : List ChunkRow :=
  rows.filter fun row => decide (row.sourceId ∉ sourceIds)

theorem without_nil (rows : List ChunkRow) :
    without [] rows = rows := filter_eq_self.mpr fun _ _ => decide_eq_true not_mem_nil

private theorem deleteWhere_cascades {source : SourceRow} (mem : source ∈ db.sources) :
    deleteWhere (cascades (fun other => decide (other.id = source.id)) db) db.chunks =
      without [source.id] db.chunks := by
  refine filter_congr fun row _ => ?_
  by_cases same : row.sourceId = source.id
  · have gone : cascades (fun other => decide (other.id = source.id)) db row = true :=
      any_eq_true.mpr ⟨source, mem, by simp [same]⟩
    rw [gone]
    simp [same]
  · have stays : cascades (fun other => decide (other.id = source.id)) db row = false := by
      refine any_eq_false.mpr fun other _ => ?_
      by_cases otherId : other.id = source.id
      · simp [otherId, Ne.symm same]
      · simp [otherId]
    rw [stays]
    simp [same]

private theorem without_without (first : String) (later : List String) (rows : List ChunkRow) :
    without later (without [first] rows) = without (first :: later) rows := by
  unfold without
  rw [filter_filter]
  refine filter_congr fun row _ => ?_
  by_cases same : row.sourceId = first
  all_goals simp [same]

section
variable {maxBytes : Nat}

theorem readPages_eq (fault answer : Nat) (store : ContentStore) :
    readPages env fault answer store =
      match env.faults.read fault with
      | some message => (.error (dbError message), store)
      | none => (.ok (env.pageCount answer), store) := by
  unfold readPages issue
  cases env.faults.read fault with
  | some message => rfl
  | none => rfl

private theorem enforceFrom_chunks (fuel removed : Nat) (store : ContentStore) :
    (enforceFrom env maxBytes fuel removed store).2.db.chunks =
      without (evictedFrom env maxBytes fuel removed store.db.sources) store.db.chunks := by
  induction fuel generalizing removed store with
  | zero => exact (without_nil _).symm
  | succ fuel ih =>
    unfold enforceFrom evictedFrom
    cases first : env.faults.read (2 * removed + 2) with
    | some message =>
      have read := @readPages_eq env (2 * removed + 2) (removed + 1) store
      rw [first] at read
      rw [Run.bind_error read, if_neg (by simp), without_nil]
    | none =>
      have read := @readPages_eq env (2 * removed + 2) (removed + 1) store
      rw [first] at read
      rw [Run.bind_ok read]
      by_cases fits : env.pageCount (removed + 1) * env.pageSize ≤ maxBytes
      · rw [if_pos fits, if_neg (by omega), without_nil]
        rfl
      · rw [if_neg fits]
        cases second : env.faults.read (2 * removed + 3) with
        | some message => rw [Run.bind_error (issue_fault _ _ _), if_neg (by simp), without_nil]
        | none =>
          rw [Run.bind_ok (issue_ok rfl), if_pos ⟨rfl, by omega, rfl⟩]
          cases picked : env.oldest.pick store.db.sources with
          | none => exact (without_nil _).symm
          | some source =>
            have mem := env.oldest.mem _ _ picked
            by_cases clear : ∀ statement < 3, env.faults.deletion removed statement = none
            · obtain ⟨after, ran, sources, chunks⟩ := @deleteSource_ok source.id _ store clear
              simp only [if_pos clear]
              rw [Run.bind_ok ran, ih, sources, chunks, deleteWhere_cascades mem, without_without]
            · obtain ⟨message, after, ran, _, chunks⟩ := @deleteSource_error source.id _ store clear
              simp only [if_neg clear]
              rw [Run.bind_error ran, chunks, without_nil]

private theorem enforceSizeLimit_chunks (store : ContentStore) :
    (enforceSizeLimit env maxBytes store).2.db.chunks =
      without (evicted env maxBytes store.db.sources) store.db.chunks := by
  unfold enforceSizeLimit evicted
  have read := @readPages_eq env 0 0 store
  cases first : env.faults.read 0 with
  | some message =>
    rw [first] at read
    rw [Run.bind_error read, if_neg (by simp), without_nil]
  | none =>
    rw [first] at read
    rw [Run.bind_ok read]
    cases second : env.faults.read 1 with
    | some message => rw [Run.bind_error (issue_fault _ _ _), if_neg (by simp), without_nil]
    | none =>
      rw [Run.bind_ok (issue_ok rfl)]
      by_cases fits : env.pageCount 0 * env.pageSize ≤ maxBytes
      · rw [if_pos fits, if_neg (by omega), without_nil]
        rfl
      · rw [if_neg fits, if_pos ⟨rfl, rfl, by omega⟩]
        exact enforceFrom_chunks _ _ _

end

def evictedAfter (env : Environment) (metadata : SourceMeta) (db : Db) : List String :=
  match env.config.maxDbBytes with
  | none => []
  | some limit => evicted env limit (insertOrReplaceSource (sourceRow env metadata) db).sources

private theorem incrementIndexCountersWithReuse_tables (faults : Nat → Option String)
    (repoRoot : String) (written reused : Nat) (store : ContentStore) :
    let after := (incrementIndexCountersWithReuse faults repoRoot written reused store).2
    after.db.sources = store.db.sources ∧ after.db.chunks = store.db.chunks := by
  unfold incrementIndexCountersWithReuse
  cases faults 0 with
  | some message => exact ⟨rfl, rfl⟩
  | none =>
    cases faults 1 with
    | some message | none => exact ⟨rfl, rfl⟩

private theorem finishIndexing_chunks (metadata : SourceMeta)
    (existing : List String) (chunks : List Chunk) (position : Nat) (store : ContentStore) :
    let outcome := finishIndexing env metadata existing chunks position store
    outcome.1 = .ok () ∧ outcome.2.db.chunks = without (match env.config.maxDbBytes with
          | none => []
          | some limit => evicted env limit store.db.sources) store.db.chunks := by
  have limited : ∀ reached : ContentStore, reached.db.sources = store.db.sources → reached.db.chunks = store.db.chunks →
      let outcome := (match env.config.maxDbBytes with
        | none => (pure () : Run ContentStore Unit)
        | some limit => do
            let _ ← Run.attempt (enforceSizeLimit env limit)) reached
      outcome.1 = .ok () ∧ outcome.2.db.chunks = without (match env.config.maxDbBytes with
          | none => []
          | some limit => evicted env limit store.db.sources) store.db.chunks := by
    intro reached sources same
    cases env.config.maxDbBytes with
    | none => exact ⟨rfl, same.trans (without_nil _).symm⟩
    | some limit =>
      refine ⟨rfl, ?_⟩
      have taken := @enforceSizeLimit_chunks env limit reached
      rw [sources, same] at taken
      exact taken
  unfold finishIndexing
  cases metadata.repoRoot with
  | none => exact limited _ rfl rfl
  | some repoRoot =>
    obtain ⟨sources, same⟩ :=
      incrementIndexCountersWithReuse_tables (fun offset => env.faults.transaction
        (position + offset)) repoRoot (chunks.countP fun chunk => decide (chunk.chunkId ∉ existing))
      (chunks.countP fun chunk => decide (chunk.chunkId ∈ existing))
      { store with
        runStats := { store.runStats with
          chunksThisRun := store.runStats.chunksThisRun +
            chunks.countP fun chunk => decide (chunk.chunkId ∉ existing) } }
    exact limited _ sources same

private theorem getChunks_without {first second : Db}
    {gone : List String} (same : first.chunks = without gone second.chunks) :
    getChunks first sourceId = if sourceId ∈ gone then [] else getChunks second sourceId := by
  unfold getChunks without at *
  rw [same, filter_filter]
  by_cases taken : sourceId ∈ gone
  · have none : second.chunks.filter (fun row =>
        ofSource sourceId row && decide (row.sourceId ∉ gone)) = [] := by
      refine filter_eq_nil_iff.mpr fun row _ both => ?_
      obtain ⟨ofIt, stays⟩ := Bool.and_eq_true_iff.mp both
      exact of_decide_eq_true stays ((of_decide_eq_true ofIt : row.sourceId = sourceId) ▸ taken)
    rw [if_pos taken, none]
    rfl
  · have all : second.chunks.filter (fun row =>
        ofSource sourceId row && decide (row.sourceId ∉ gone)) = second.chunks.filter (ofSource sourceId) := by
      refine filter_congr fun row _ => ?_
      by_cases ofIt : row.sourceId = sourceId
      · simp [ofSource, ofIt, taken]
      · simp [ofSource, ofIt]
    rw [if_neg taken, all]

/-- The chunks that a call gets into the store before it breaks off, if it does. -/
def flushed (env : Environment) (kept : List Chunk) : List Chunk × Bool :=
  flushedFrom env.faults.transaction 1 [] (batchesOf env.config kept)
def Completes (env : Environment) (kept : List Chunk) : Prop := (kept.map Chunk.chunkId).Nodup ∧
    ∀ position < (batchesOf env.config kept).length + 2, env.faults.transaction position = none

theorem batchesOf_flatten (config : ContentStoreConfig) (kept : List Chunk) :
    (batchesOf config kept).flatten = kept := windows_flatten (by omega) kept

theorem completes_iff {kept : List Chunk} :
    Completes env kept ↔ env.faults.transaction 0 = none ∧ (flushed env kept).2 = true ∧
      env.faults.transaction ((batchesOf env.config kept).length + 1) = none := by
  have none : (([] : List Chunk).map Chunk.chunkId).Nodup := nodup_nil
  rw [flushed, flushedFrom_complete_iff none, nil_append, batchesOf_flatten]
  constructor
  · intro ⟨nodup, clear⟩
    refine ⟨clear 0 (by omega), ⟨nodup, fun offset bounded => ?_⟩, clear _ (by omega)⟩
    exact clear (1 + offset) (by omega)
  · intro ⟨first, ⟨nodup, middle⟩, last⟩
    refine ⟨nodup, fun position bounded => ?_⟩
    by_cases start : position = 0
    · rw [start]
      exact first
    · by_cases stop : position = (batchesOf env.config kept).length + 1
      · rw [stop]
        exact last
      · have inside := middle (position - 1) (by omega)
        rwa [show 1 + (position - 1) = position by omega] at inside

section
variable {store : ContentStore} {metadata : SourceMeta} {rawText : Text} {kept : List Chunk}

private theorem indexChunks_refused {message : String} (fault : env.faults.transaction 0 = some message) :
    indexChunks env metadata rawText kept store = (.error (dbError message), store) := by
  unfold indexChunks
  rw [fault]
  exact Run.bind_error (issue_fault _ _ _)

theorem indexChunks_flushes (fault : env.faults.transaction 0 = none)
    (owned : ∀ row ∈ store.db.chunks, ∃ source ∈ store.db.sources, source.id = row.sourceId)
    (places : (kept.map Chunk.chunkIndex).Pairwise (· < ·)) :
    ∃ reached : ContentStore, getChunks reached.db metadata.id = (flushed env kept).1.map (chunkResult metadata.id) ∧
      reached.db.sources = (insertOrReplaceSource (sourceRow env metadata) store.db).sources ∧
      if (flushed env kept).2 then
        indexChunks env metadata rawText kept store = (do
          storeVocabulary env ((batchesOf env.config kept).length + 1) rawText
          finishIndexing env metadata [] kept ((batchesOf env.config kept).length + 2)) reached
      else
        ∃ message, indexChunks env metadata rawText kept store = (.error message, reached) := by
  have bare : Bare (insertOrReplaceSource (sourceRow env metadata) store.db) metadata.id :=
    bare_insertOrReplaceSource owned (sourceRow env metadata)
  have upserted : issue none (fun db => .ok (upsertSource env metadata kept db)) store =
    (.ok [], { store with db := insertOrReplaceSource (sourceRow env metadata) store.db }) :=
    issue_ok (by rw [upsertSource_eq owned])
  have all : (([] ++ (batchesOf env.config kept).flatten).map Chunk.chunkIndex).Nodup := by
    rw [nil_append, batchesOf_flatten]
    exact places.imp fun less => Nat.ne_of_lt less
  have flushes := @Adds.flushBatches env _ _ _ 0 (batchesOf env.config kept)
    { store with db := insertOrReplaceSource (sourceRow env metadata) store.db }
    (Adds.start _ _) bare nodup_nil all
  obtain ⟨adds, ended⟩ := flushes
  have sorted : ((flushed env kept).1.map Chunk.chunkIndex).Pairwise (· ≤ ·) := by
    have whole : (flushed env kept).1 <+: kept := by
      have before := (flushedFrom_isPrefix env.faults.transaction 1 [] (batchesOf env.config kept)).1
      rwa [nil_append, batchesOf_flatten] at before
    exact (places.imp fun less => Nat.le_of_lt less).sublist (whole.sublist.map _)
  refine ⟨_, adds.getChunks bare sorted, adds.sources, ?_⟩
  unfold indexChunks
  rw [fault]
  cases ran : Run.forEach (flushEntry env metadata.id []) ((batchesOf env.config kept).zipIdx 0)
      { store with db := insertOrReplaceSource (sourceRow env metadata) store.db } with
  | mk outcome reached =>
    rw [ran] at ended
    have called : flushBatches env metadata.id [] (batchesOf env.config kept)
        { store with db := insertOrReplaceSource (sourceRow env metadata) store.db } = (outcome, reached) := ran
    by_cases complete : (flushed env kept).2 = true
    · rw [if_pos complete]
      have ok : outcome = .ok () := by
        rwa [show (flushedFrom env.faults.transaction (0 + 1) [] (batchesOf env.config kept)).2 = true from complete] at ended
      rw [ok] at called
      rw [Run.bind_ok upserted, Run.bind_ok called]
    · rw [if_neg complete]
      have failed : ∃ message, outcome = .error message := by
        rwa [show (flushedFrom env.faults.transaction (0 + 1) [] (batchesOf env.config kept)).2 =
          false from Bool.eq_false_iff.mpr complete] at ended
      obtain ⟨message, error⟩ := failed
      rw [error] at called
      refine ⟨message, ?_⟩
      rw [Run.bind_ok upserted, Run.bind_error called]

private theorem indexChunks_completes (completes : Completes env kept)
    (owned : ∀ row ∈ store.db.chunks, ∃ source ∈ store.db.sources, source.id = row.sourceId)
    (places : (kept.map Chunk.chunkIndex).Pairwise (· < ·)) :
    ∃ after, indexChunks env metadata rawText kept store = (.ok (), after) ∧ getChunks after.db metadata.id =
        if metadata.id ∈ evictedAfter env metadata store.db then []
        else kept.map (chunkResult metadata.id) := by
  obtain ⟨first, complete, last⟩ := completes_iff.mp completes
  obtain ⟨reached, stored, sources, ran⟩ := @indexChunks_flushes env store metadata rawText kept first owned places
  rw [if_pos complete] at ran
  have whole : (flushed env kept).1 = kept := by
    have all := (flushedFrom_isPrefix env.faults.transaction 1 [] (batchesOf env.config kept)).2 complete
    rwa [nil_append, batchesOf_flatten] at all
  have vocabulary : storeVocabulary env ((batchesOf env.config kept).length + 1) rawText reached =
      (.ok (), { reached with db := { reached.db with
        vocabulary := (extractVocabTerms env rawText).foldl countTerm reached.db.vocabulary } }) := by
    unfold storeVocabulary
    rw [last]
    exact issue_ok rfl
  rw [Run.bind_ok vocabulary] at ran
  obtain ⟨ok, chunks⟩ := @finishIndexing_chunks env metadata [] kept
    ((batchesOf env.config kept).length + 2) { reached with db := { reached.db with
      vocabulary := (extractVocabTerms env rawText).foldl countTerm reached.db.vocabulary } }
  refine ⟨_, ran.trans (Prod.ext ok rfl), ?_⟩
  have gone := @getChunks_without metadata.id _ _ _ chunks
  rw [gone, ← whole, ← stored]
  unfold evictedAfter
  rw [← sources]
  rfl

private theorem indexChunks_breaks (first : env.faults.transaction 0 = none) (broken : ¬ Completes env kept)
    (owned : ∀ row ∈ store.db.chunks, ∃ source ∈ store.db.sources, source.id = row.sourceId)
    (places : (kept.map Chunk.chunkIndex).Pairwise (· < ·)) :
    ∃ message after, indexChunks env metadata rawText kept store = (.error message, after) ∧
      getChunks after.db metadata.id = (flushed env kept).1.map (chunkResult metadata.id) := by
  obtain ⟨reached, stored, _, ran⟩ := @indexChunks_flushes env store metadata rawText kept first owned places
  by_cases complete : (flushed env kept).2 = true
  · rw [if_pos complete] at ran
    cases last : env.faults.transaction ((batchesOf env.config kept).length + 1) with
    | none => exact absurd (completes_iff.mpr ⟨first, complete, last⟩) broken
    | some message =>
      have vocabulary : storeVocabulary env ((batchesOf env.config kept).length + 1) rawText
        reached = (.error (dbError message), reached) := by
        unfold storeVocabulary
        rw [last]
        rfl
      rw [Run.bind_error vocabulary] at ran
      exact ⟨_, _, ran, stored⟩
  · rw [if_neg complete] at ran
    obtain ⟨message, failed⟩ := ran
    exact ⟨message, reached, failed, stored⟩

end
end

/-! ## What the caller finds stored -/

theorem applyCap_ok {policy : OversizedPolicy} {limit : Nat} {message : String}
    {chunks kept : List Chunk} (capped : applyCap policy limit message chunks = .ok (some kept)) :
    kept <+: chunks := by
  unfold applyCap at capped
  split at capped
  next =>
    cases capped
    exact prefix_refl _
  next =>
    cases policy with
    | failFast => cases capped
    | partialWithWarning =>
      cases capped
      exact take_prefix _ _
    | skipFile => cases capped

private theorem applyCaps_ok {config : ContentStoreConfig} {stats : IndexRunStats} {sourceId : String}
    {chunks kept : List Chunk} (capped : applyCaps config stats sourceId chunks = .ok (some kept)) :
    kept <+: chunks := by
  unfold applyCaps at capped
  dsimp only at capped
  split at capped
  next between perFile => exact (applyCap_ok capped).trans (applyCap_ok perFile)
  next refused => exact absurd capped (refused kept)

def Within (env : Environment) (store : ContentStore) (chunks : List Chunk) : Prop :=
  chunks.length ≤ env.config.maxChunksPerFile ∧
    chunks.length ≤ remainingRunCapacity env.config store.runStats

theorem applyCaps_within {env : Environment} {store : ContentStore}
    {chunks : List Chunk} (within : Within env store chunks) (sourceId : String) :
    applyCaps env.config store.runStats sourceId chunks = .ok (some chunks) := by
  unfold applyCaps applyCap
  rw [if_pos within.1]
  dsimp only
  rw [if_pos within.2]

/-- What a call that stores an artifact leaves, by whether its chunks fit the limits. -/
structure Stores (env : Environment) (store : ContentStore) (metadata : SourceMeta)
    (chunks : List Chunk) (result : Except String Unit) (after : ContentStore) : Prop where
  stored : Within env store chunks → result = .ok () ∧ getChunks after.db metadata.id = chunks.map (chunkResult metadata.id)
  unchanged : ∀ message, result = .error message → getChunks after.db metadata.id = getChunks store.db metadata.id

/-- Nothing keeps the call from storing its chunks, and if it breaks off behind its first
transaction, the source already held what had been flushed by then. -/
structure Undisturbed (env : Environment)
    (store : ContentStore) (metadata : SourceMeta) (chunks : List Chunk) : Prop where
  completes : Within env store chunks → Completes env chunks ∧ (chunks ≠ [] → metadata.id ∉ evictedAfter env metadata store.db)
  broken : ∀ kept, applyCaps env.config store.runStats metadata.id chunks = .ok (some kept) →
    env.faults.transaction 0 = none → ¬ Completes env kept →
      getChunks store.db metadata.id = (flushed env kept).1.map (chunkResult metadata.id)

section
variable {env : Environment} {store after : ContentStore} {metadata : SourceMeta} {rawText : Text}
  {chunks kept : List Chunk} {result : Except String Unit}

private theorem stores_iff_of_kept (owned : ∀ row ∈ store.db.chunks, ∃ source ∈ store.db.sources,
    source.id = row.sourceId) (places : (chunks.map Chunk.chunkIndex).Pairwise (· < ·))
    (capped : applyCaps env.config store.runStats metadata.id chunks = .ok (some kept))
    (ran : indexChunks env metadata rawText kept
      { store with runStats := buffered kept store.runStats } = (result, after)) :
    Stores env store metadata chunks result after ↔ Undisturbed env store metadata chunks := by
  have only : ∀ other, applyCaps env.config store.runStats metadata.id chunks = .ok (some other) →
    other = kept := fun other same => by
    rw [capped] at same
    exact (Option.some.inj (Except.ok.inj same)).symm
  have whole : Within env store chunks → kept = chunks := fun within =>
    (only chunks (applyCaps_within within metadata.id)).symm
  have keptPlaces : (kept.map Chunk.chunkIndex).Pairwise (· < ·) := places.sublist ((applyCaps_ok capped).sublist.map _)
  cases first : env.faults.transaction 0 with
  | some message =>
    rw [indexChunks_refused first] at ran
    cases ran
    have never : ¬ Completes env chunks := by
      intro completes
      have clear := completes.2 0 (by omega)
      rw [first] at clear
      cases clear
    constructor
    · intro stores
      refine ⟨fun within => ?_, fun _ _ clear => ?_⟩
      · cases (stores.stored within).1
      · rw [first] at clear
        cases clear
    · intro undisturbed
      exact ⟨fun within => absurd (undisturbed.completes within).1 never, fun _ _ => rfl⟩
  | none =>
    by_cases completes : Completes env kept
    · obtain ⟨reached, done, found⟩ := @indexChunks_completes env
        { store with runStats := buffered kept store.runStats } metadata rawText kept completes
        owned keptPlaces
      rw [done] at ran
      cases ran
      constructor
      · intro stores
        refine ⟨fun within => ?_, fun other same _ broken => ?_⟩
        · have same := whole within
          subst same
          refine ⟨completes, fun some taken => some ?_⟩
          have stored := (stores.stored within).2
          rw [found, if_pos taken] at stored
          exact map_eq_nil_iff.mp stored.symm
        · exact absurd (only other same ▸ completes) broken
      · intro undisturbed
        refine ⟨fun within => ⟨rfl, ?_⟩, fun message failed => by cases failed⟩
        have same := whole within
        subst same
        rw [found]
        by_cases empty : kept = []
        · rw [empty]
          simp
        · exact if_neg ((undisturbed.completes within).2 empty)
    · obtain ⟨message, reached, done, found⟩ := @indexChunks_breaks env
        { store with runStats := buffered kept store.runStats } metadata rawText kept first
        completes owned keptPlaces
      rw [done] at ran
      cases ran
      constructor
      · intro stores
        refine ⟨fun within => ?_, fun other same _ _ => ?_⟩
        · cases (stores.stored within).1
        · rw [only other same, ← found]
          exact (stores.unchanged message rfl).symm
      · intro undisturbed
        refine ⟨fun within => ?_, fun _ _ => ?_⟩
        · exact absurd (whole within ▸ (undisturbed.completes within).1) completes
        · rw [found]
          exact (undisturbed.broken kept capped first completes).symm

/-- An indexing call stores exactly its chunks, and keeps the old ones when it fails, if and
only if nothing disturbs it. -/
theorem indexArtifact_stores_iff {contentType : String}
    (owned : ∀ row ∈ store.db.chunks, ∃ source ∈ store.db.sources, source.id = row.sourceId)
    (cut : chunkText env.libraries metadata.id rawText contentType = some chunks)
    (ran : indexArtifact env metadata rawText contentType store = some (result, after)) :
    Stores env store metadata chunks result after ↔ Undisturbed env store metadata chunks := by
  have places : (chunks.map Chunk.chunkIndex).Pairwise (· < ·) := by
    rw [chunkText_index cut]
    exact pairwise_lt_range
  rw [indexArtifact, cut, Option.map_some, Option.some.injEq] at ran
  -- A call that the caps end has changed nothing, and its chunks were not within them.
  have ended : ∀ outcome, applyCaps env.config store.runStats metadata.id chunks = outcome →
    (∀ kept, outcome ≠ .ok (some kept)) → ¬ Within env store chunks := by
    intro outcome capped none within
    exact none chunks (capped.symm.trans (applyCaps_within within metadata.id))
  cases capped : applyCaps env.config store.runStats metadata.id chunks with
  | error message =>
    have outside := ended _ capped (by simp)
    rw [capped] at ran
    cases ran
    refine iff_of_true ⟨fun within => absurd within outside, fun _ _ => rfl⟩ ?_
    exact ⟨fun within => absurd within outside, fun kept same => by rw [capped] at same; cases same⟩
  | ok allowed =>
    cases allowed with
    | none =>
      have outside := ended _ capped (by simp)
      rw [capped] at ran
      cases ran
      refine iff_of_true ⟨fun within => absurd within outside, fun _ failed => by cases failed⟩ ?_
      exact ⟨fun within => absurd within outside, fun kept same => by rw [capped] at same; cases same⟩
    | some kept =>
      rw [capped] at ran
      exact stores_iff_of_kept owned places capped ran

end

def storedOnce : ContentStore := run ⟨Db.empty, {}⟩ [indexPlain "2026-02-01T00:00:00Z" "one"]

def plainChunk (chunkId : String) (chunkIndex : Nat) (content : String) : Chunk where
  chunkId := chunkId
  chunkIndex := chunkIndex
  title := none
  content := content.toList
  contentType := "text/plain"

private theorem storedOnce_owned : ∀ row ∈ storedOnce.db.chunks, ∃ source ∈ storedOnce.db.sources,
    source.id = row.sourceId := by decide

theorem movedParagraph_stored :
    ∃ result after, indexArtifact (plainEnvironment "2026-02-02T00:00:00Z") plainSource
      "two\n\none".toList "text/plain" storedOnce = some (result, after) ∧
        Stores (plainEnvironment "2026-02-02T00:00:00Z") storedOnce plainSource
          [plainChunk "a8b53f42b26e462aa688f2ab4d055804324443bad5536258b524fcd090882a39" 0 "two",
            plainChunk "4208f734645d4379de499a94d7cfe9c711e93f0372f049dc29ffb05956281afc" 1 "one"]
          result after := by
  have returns : (indexArtifact (plainEnvironment "2026-02-02T00:00:00Z") plainSource
    "two\n\none".toList "text/plain" storedOnce).isSome = true := by decide
  obtain ⟨outcome, ran⟩ := Option.isSome_iff_exists.mp returns
  have completes : Completes (plainEnvironment "2026-02-02T00:00:00Z")
    [plainChunk "a8b53f42b26e462aa688f2ab4d055804324443bad5536258b524fcd090882a39" 0 "two",
        plainChunk "4208f734645d4379de499a94d7cfe9c711e93f0372f049dc29ffb05956281afc" 1 "one"] :=
    ⟨by decide, fun _ _ => rfl⟩
  refine ⟨outcome.1, outcome.2, ran, ?_⟩
  refine (indexArtifact_stores_iff storedOnce_owned (by decide) ran).mpr ⟨?_, ?_⟩
  · exact fun _ => ⟨completes, fun _ => not_mem_nil⟩
  · intro kept capped _ broken
    have whole :
      applyCaps (plainEnvironment "2026-02-02T00:00:00Z").config storedOnce.runStats plainSource.id
      [plainChunk "a8b53f42b26e462aa688f2ab4d055804324443bad5536258b524fcd090882a39" 0 "two",
          plainChunk "4208f734645d4379de499a94d7cfe9c711e93f0372f049dc29ffb05956281afc" 1 "one"] =
        .ok (some
          [plainChunk "a8b53f42b26e462aa688f2ab4d055804324443bad5536258b524fcd090882a39" 0 "two",
          plainChunk "4208f734645d4379de499a94d7cfe9c711e93f0372f049dc29ffb05956281afc" 1 "one"]) :=
      applyCaps_within ⟨by decide, by decide⟩ _
    rw [whole] at capped
    cases capped
    exact absurd completes broken

/-- A repeated paragraph makes the call fail, and the old chunk is gone. -/
theorem repeatedParagraph_lost :
    (getChunks storedOnce.db "src-1").map ChunkResult.content = ["one".toList] ∧ ∃ message after,
        indexArtifact (plainEnvironment "2026-02-02T00:00:00Z") plainSource "two\n\ntwo".toList
          "text/plain" storedOnce = some (.error message, after) ∧ getChunks after.db "src-1" = [] ∧
          ¬ Stores (plainEnvironment "2026-02-02T00:00:00Z") storedOnce plainSource
            [plainChunk "a8b53f42b26e462aa688f2ab4d055804324443bad5536258b524fcd090882a39" 0 "two",
              plainChunk "a8b53f42b26e462aa688f2ab4d055804324443bad5536258b524fcd090882a39" 1 "two"]
            (.error message) after := by
  have outcome : (indexArtifact (plainEnvironment "2026-02-02T00:00:00Z") plainSource
    "two\n\ntwo".toList "text/plain" storedOnce).map
        (fun outcome => (outcome.1.isOk, getChunks outcome.2.db "src-1")) = some (false, []) := by
    decide +kernel
  obtain ⟨⟨result, after⟩, ran, found⟩ := Option.map_eq_some_iff.mp outcome
  obtain ⟨failed, gone⟩ := Prod.mk.inj found
  cases result with
  | ok _ => cases failed
  | error message =>
    refine ⟨by decide, message, after, ran, gone, fun stores => ?_⟩
    cases (stores.stored ⟨by decide, by decide⟩).1

end Atlas.Content.Artifact
