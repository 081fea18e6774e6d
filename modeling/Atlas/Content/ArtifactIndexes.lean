import Atlas.Content.Artifact
import Atlas.Program.MapM
import Mathlib.Data.Multiset.AddSub

/-! The full-text indexes of the content store and its chunk table. A chunk that goes with
its source row leaves its documents behind, so a store stays in order as long as no source
with chunks is replaced or aged out. -/
namespace Atlas.Content.Artifact
open List Program Sql
open Refactor (Text)

/-- Both full-text tables hold one document for each chunk. -/
structure Mirrors (db : Db) : Prop where
  fts : db.chunksFts.Perm (db.chunks.map ChunkRow.document)
  trigram : db.chunksTrigram.Perm (db.chunks.map ChunkRow.document)
  ids : (db.chunks.map ChunkRow.id).Nodup

def Unbroken (faults : Nat → Option String) : Prop :=
  faults 0 = none → faults 1 = none ∧ faults 2 = none

def Admits (env : Environment) (store : ContentStore)
    (metadata : SourceMeta) (rawText : Text) (contentType : String) (kept : List Chunk) : Prop :=
  ∃ chunks, chunkText env.libraries metadata.id rawText contentType = some chunks ∧
    applyCaps env.config store.runStats metadata.id chunks = .ok (some kept)

def Tidy (env : Environment) (store : ContentStore) : Request → Prop
  | .indexArtifact metadata rawText contentType =>
    (∀ kept, Admits env store metadata rawText contentType kept → env.faults.transaction 0 = none →
      ∀ row ∈ store.db.chunks, row.sourceId ≠ metadata.id) ∧
    (env.config.maxDbBytes ≠ none → ∀ count, Unbroken (env.faults.deletion count))
  | .deleteSource _ => Unbroken (env.faults.deletion 0)
  | .deleteSessionSources _ _ => Unbroken (env.faults.deletion 0)
  | .cleanup keepDays =>
    env.faults.transaction 0 = none → ∀ source ∈ store.db.sources, source.createdAt <
      env.daysAgo keepDays → ∀ row ∈ store.db.chunks, row.sourceId ≠ source.id
  | .enforceSizeLimit _ => ∀ count, Unbroken (env.faults.deletion count)

def AllTidy : ContentStore → List (Environment × Request) → Prop
  | _, [] => True
  | store, (env, request) :: rest => Tidy env store request ∧ AllTidy (perform env store request) rest

/-! ## The invariant -/

structure Indexed (db : Db) : Prop extends Mirrors db where
  owned : ∀ row ∈ db.chunks, ∃ source ∈ db.sources, source.id = row.sourceId
  bounded : ∀ row ∈ db.chunks, row.id ≤ db.sequence

theorem Indexed.empty : Indexed Db.empty where
  fts := .refl _
  trigram := .refl _
  ids := nodup_nil
  owned _ mem := by cases mem
  bounded _ mem := by cases mem

theorem removeDocuments_perm {rows : List ChunkRow} {index : List Document}
    (selects : ChunkRow → Bool) (mirrors : index.Perm (rows.map ChunkRow.document)) :
    (removeDocuments (rows.filter selects) index).Perm ((deleteWhere selects rows).map ChunkRow.document) := by
  have split := (filter_append_perm selects rows).map ChunkRow.document
  rw [map_append] at split
  have whole := Multiset.coe_eq_coe.mpr (mirrors.trans split.symm)
  rw [← Multiset.coe_add, Multiset.add_comm] at whole
  refine Multiset.coe_eq_coe.mp ?_
  rw [removeDocuments, ← Multiset.coe_sub, whole, Multiset.add_sub_cancel_right]
  rfl

section
variable {db : Db}

def cascades (selects : SourceRow → Bool) (db : Db) (row : ChunkRow) : Bool :=
  db.sources.any fun source => selects source && decide (source.id = row.sourceId)

section
variable (indexed : Indexed db)
include indexed

theorem Indexed.deleteSources (selects : SourceRow → Bool) :
    Indexed { deleteSources selects db with
      chunksFts := removeDocuments (db.chunks.filter (cascades selects db)) db.chunksFts
      chunksTrigram := removeDocuments (db.chunks.filter (cascades selects db)) db.chunksTrigram } where
  fts := removeDocuments_perm _ indexed.fts
  trigram := removeDocuments_perm _ indexed.trigram
  ids := indexed.ids.sublist (filter_sublist.map _)
  owned row mem := by
    obtain ⟨member, stays⟩ := mem_deleteWhere.mp mem
    obtain ⟨source, sourceMem, owns⟩ := indexed.owned row member
    refine ⟨source, mem_deleteWhere.mpr ⟨sourceMem, ?_⟩, owns⟩
    have notAny := any_eq_false.mp stays source sourceMem
    simpa [owns] using notAny
  bounded row mem := indexed.bounded row (mem_deleteWhere.mp mem).1

theorem Indexed.deleteSources_idle {selects : SourceRow → Bool}
    (idle : ∀ row ∈ db.chunks, cascades selects db row = false) :
    Indexed (Artifact.deleteSources selects db) := by
  have none : db.chunks.filter (cascades selects db) = [] := filter_eq_nil_iff.mpr fun row mem => by rw [idle row mem]; simp
  have kept := indexed.deleteSources selects
  rw [none] at kept
  exact kept

theorem Indexed.withSources (added : List SourceRow) :
    Indexed { db with sources := db.sources ++ added } :=
  { indexed with
    owned := fun row mem => by
      obtain ⟨source, member, owns⟩ := indexed.owned row mem
      exact ⟨source, mem_append_left _ member, owns⟩ }

theorem filter_ofSource (sourceId : String) : db.chunks.filter (ofSource sourceId) =
    db.chunks.filter (cascades (fun source => decide (source.id = sourceId)) db) := by
  refine filter_congr fun row mem => ?_
  obtain ⟨source, member, owns⟩ := indexed.owned row mem
  by_cases same : row.sourceId = sourceId
  · have found : cascades (fun source => decide (source.id = sourceId)) db row = true :=
      any_eq_true.mpr ⟨source, member, by simp [owns, same]⟩
    rw [found]
    exact decide_eq_true same
  · have absent : cascades (fun source => decide (source.id = sourceId)) db row = false := by
      refine any_eq_false.mpr fun other _ => ?_
      by_cases otherId : other.id = sourceId
      · simp [otherId, Ne.symm same]
      · simp [otherId]
    rw [absent]
    exact decide_eq_false same

theorem Indexed.insertChunk {env : Environment} {sourceId : String}
    {chunk : Chunk} {next : Db} (inserted : Artifact.insertChunk env sourceId chunk db = .ok next) :
    Indexed next := by
  unfold Artifact.insertChunk at inserted
  split at inserted
  next => cases inserted
  next =>
    split at inserted
    next => cases inserted
    next =>
      split at inserted
      next => cases inserted
      next present =>
        cases inserted
        have owner : ∃ source ∈ db.sources, source.id = sourceId := by simpa using present
        refine { fts := ?_, trigram := ?_, ids := ?_, owned := ?_, bounded := ?_ }
        · rw [map_append]
          exact indexed.fts.append_right _
        · rw [map_append]
          exact indexed.trigram.append_right _
        · rw [map_append, nodup_append]
          refine ⟨indexed.ids, nodup_singleton _, ?_⟩
          intro id mem other otherMem same
          obtain ⟨row, rowMem, rfl⟩ := mem_map.mp mem
          have fresh : other = db.sequence + 1 := mem_singleton.mp otherMem
          have old := indexed.bounded row rowMem
          omega
        · intro row mem
          cases mem_append.mp mem with
          | inl old => exact indexed.owned row old
          | inr new =>
            rw [mem_singleton.mp new]
            exact owner
        · intro row mem
          cases mem_append.mp mem with
          | inl old => exact Nat.le_succ_of_le (indexed.bounded row old)
          | inr new =>
            rw [mem_singleton.mp new]
            exact le_rfl

end

theorem writeChunk_new (env : Environment) (sourceId : String) (db : Db) (chunk : Chunk) :
    writeChunk env sourceId [] db chunk = insertChunk env sourceId chunk db := if_neg not_mem_nil

theorem Indexed.flushBatch (indexed : Indexed db) {env : Environment} {sourceId : String}
    {batch : List Chunk} {next : Db}
    (flushed : batch.foldlM (writeChunk env sourceId []) db = .ok next) : Indexed next := by
  induction batch generalizing db with
  | nil =>
    cases flushed
    exact indexed
  | cons chunk rest ih =>
    rw [foldlM_cons] at flushed
    obtain ⟨between, wrote, flushed⟩ := Program.bind_eq_ok flushed
    rw [writeChunk_new] at wrote
    exact ih (indexed.insertChunk wrote) flushed

end

def Keeps {Value : Type} (call : Run ContentStore Value) : Prop := ∀ store, Indexed store.db →
    call.Meets store (fun _ after => Indexed after.db) fun after => Indexed after.db

section
variable {Value Next : Type} {call : Run ContentStore Value}

theorem after_of_meets {store : ContentStore}
    (meets : call.Meets store (fun _ after => Indexed after.db) fun after => Indexed after.db) :
    Indexed (call store).2.db := by
  unfold Run.Meets at meets
  cases ran : call store with
  | mk outcome after =>
    rw [ran] at meets
    cases outcome with
    | ok _ | error _ => exact meets

theorem Keeps.bind {next : Value → Run ContentStore Next}
    (first : Keeps call) (later : ∀ value, Keeps (next value)) : Keeps (call >>= next) := by
  intro store indexed
  exact Run.Meets.bind ((first store indexed).mono fun value reached => later value reached)

theorem Keeps.pure (value : Value) : Keeps (Pure.pure value) := fun _ indexed => indexed
theorem Keeps.get : Keeps Run.get := fun _ indexed => indexed

theorem Keeps.attempt (kept : Keeps call) : Keeps call.attempt := by
  intro store indexed
  refine Run.Meets.attempt ((kept store indexed).imp ?_ ?_)
  · exact fun _ _ after => after
  · exact fun _ after _ => after

theorem Keeps.modify {change : ContentStore → ContentStore}
    (same : ∀ store, (change store).db = store.db) : Keeps (Run.modify change) := by
  intro store indexed
  show Indexed (change store).db
  rw [same]
  exact indexed

theorem Keeps.issue {fault : Option String} {change : Db → Except String (Value × Db)}
    (kept : ∀ db value next, Indexed db → change db = .ok (value, next) → Indexed next) :
    Keeps (issue fault change) := by
  intro store indexed
  unfold Artifact.issue Run.Meets
  cases fault with
  | some msg => exact indexed
  | none =>
    cases changed : change store.db with
    | error msg => simpa [changed] using indexed
    | ok result =>
      obtain ⟨value, next⟩ := result
      simpa [changed] using kept store.db value next indexed changed

end

/-! ## Deletions -/

variable {faults : Nat → Option String} {store : ContentStore}

theorem Keeps.deletion {Value : Type} (unbroken : Unbroken faults)
    {selects : SourceRow → Bool} {rows : Db → List ChunkRow} {count : Db → Value}
    (covers : ∀ db, Indexed db → rows db = db.chunks.filter (cascades selects db))
    (blind : ∀ db documents, rows { db with chunksFts := documents } = rows db) :
    Keeps (do
      Artifact.issue (faults 0) fun db => .ok ((), { db with chunksFts := removeDocuments (rows db) db.chunksFts })
      Artifact.issue (faults 1) fun db =>
        .ok ((), { db with chunksTrigram := removeDocuments (rows db) db.chunksTrigram })
      Artifact.issue (faults 2) fun db => .ok (count db, deleteSources selects db)) := by
  intro store indexed
  cases first : faults 0 with
  | some msg => exact indexed
  | none =>
    obtain ⟨second, third⟩ := unbroken first
    rw [second, third]
    have kept := indexed.deleteSources selects
    rw [← covers store.db indexed] at kept
    have same := blind store.db (removeDocuments (rows store.db) store.db.chunksFts)
    show Indexed (deleteSources selects
      { store.db with
        chunksFts := removeDocuments (rows store.db) store.db.chunksFts
        chunksTrigram := removeDocuments
          (rows { store.db with chunksFts := removeDocuments (rows store.db) store.db.chunksFts })
          store.db.chunksTrigram })
    rw [same]
    exact kept

theorem keeps_deleteSource (unbroken : Unbroken faults) (sourceId : String) :
    Keeps (deleteSource faults sourceId) :=
  Keeps.deletion unbroken (fun _ indexed => filter_ofSource indexed sourceId) fun _ _ => rfl

theorem keeps_deleteSessionSources (unbroken : Unbroken faults) (sessionId : String)
    (agentId : Option String) : Keeps (deleteSessionSources faults sessionId agentId) :=
  Keeps.deletion unbroken (fun _ _ => rfl) fun _ _ => rfl

section
variable {env : Environment}

theorem keeps_readPages (fault answer : Nat) :
    Keeps (readPages env fault answer) := Keeps.issue fun _ _ _ indexed read => by
    cases read
    exact indexed

theorem keeps_enforceFrom (unbroken : ∀ count, Unbroken (env.faults.deletion count))
    (maxBytes fuel removed : Nat) : Keeps (enforceFrom env maxBytes fuel removed) := by
  induction fuel generalizing removed with
  | zero => exact Keeps.pure removed
  | succ fuel ih =>
    refine Keeps.bind (keeps_readPages _ _) fun pages => ?_
    by_cases fits : pages * env.pageSize ≤ maxBytes
    · simp only [if_pos fits]
      exact Keeps.pure removed
    · simp only [if_neg fits]
      refine Keeps.bind (Keeps.issue ?_) fun oldest => ?_
      · intro db value next indexed read
        cases read
        exact indexed
      · cases oldest with
        | none => exact Keeps.pure removed
        | some source => exact Keeps.bind (keeps_deleteSource (unbroken removed) source.id) fun _ => ih (removed + 1)

theorem keeps_enforceSizeLimit (unbroken : ∀ count, Unbroken (env.faults.deletion count))
    (maxBytes : Nat) : Keeps (enforceSizeLimit env maxBytes) := by
  refine Keeps.bind (keeps_readPages _ _) fun pages => ?_
  refine Keeps.bind (Keeps.issue ?_) fun _ => ?_
  · intro db value next indexed read
    cases read
    exact indexed
  · by_cases fits : pages * env.pageSize ≤ maxBytes
    · simp only [if_pos fits]
      exact Keeps.pure 0
    · simp only [if_neg fits]
      exact Keeps.bind Keeps.get fun store => keeps_enforceFrom unbroken _ _ _

/-! ## Indexing -/

variable {db : Db}

theorem Indexed.upsertSource (indexed : Indexed db)
    {metadata : SourceMeta} (absent : ∀ row ∈ db.chunks, row.sourceId ≠ metadata.id) :
    Indexed (insertOrReplaceSource (sourceRow env metadata) db) := by
  refine (indexed.deleteSources_idle ?_).withSources _
  intro row mem
  refine any_eq_false.mpr fun source _ => ?_
  by_cases same : source.id = metadata.id
  · have apart := absent row mem
    simp [sourceRow, same, Ne.symm apart]
  · simp [sourceRow, same]

theorem upsertSource_eq (owned : ∀ row ∈ db.chunks, ∃ source ∈ db.sources, source.id = row.sourceId)
    (metadata : SourceMeta) (chunks : List Chunk) :
    Artifact.upsertSource env metadata chunks db = ([], insertOrReplaceSource (sourceRow env metadata) db) := by
  have none : (insertOrReplaceSource (sourceRow env metadata) db).chunks.filter (ofSource metadata.id) = [] := by
    refine filter_eq_nil_iff.mpr fun row mem ofIt => ?_
    have same : row.sourceId = metadata.id := of_decide_eq_true ofIt
    obtain ⟨member, stays⟩ := mem_deleteWhere.mp mem
    obtain ⟨source, sourceMem, owns⟩ := owned row member
    have gone := any_eq_false.mp stays source sourceMem
    simp [owns, same, sourceRow] at gone
  simp only [Artifact.upsertSource]
  rw [none]
  rfl

theorem keeps_flushBatches (sourceId : String) (batches : List (List Chunk)) :
    Keeps (flushBatches env sourceId [] batches) := by
  unfold flushBatches
  generalize batches.zipIdx = entries
  induction entries with
  | nil => exact Keeps.pure ()
  | cons entry rest ih =>
    refine Keeps.bind (Keeps.bind (Keeps.issue ?_) fun _ => Keeps.modify fun _ => rfl) fun _ => ih
    intro db value next indexed flushed
    unfold Artifact.flushBatch at flushed
    obtain ⟨reached, ran, flushed⟩ := Program.bind_eq_ok flushed
    cases flushed
    exact indexed.flushBatch ran

def limitSize (env : Environment) : Run ContentStore Unit :=
  match env.config.maxDbBytes with
  | none => pure ()
  | some limit => do
      let _ ← Run.attempt (enforceSizeLimit env limit)

theorem keeps_finishIndexing
    (unbroken : env.config.maxDbBytes ≠ none → ∀ count, Unbroken (env.faults.deletion count))
    (metadata : SourceMeta) (existing : List String) (chunks : List Chunk) (position : Nat) :
    Keeps (finishIndexing env metadata existing chunks position) := by
  have counted : ∀ repoRoot inserted reused, Keeps (incrementIndexCountersWithReuse
    (fun offset => env.faults.transaction (position + offset)) repoRoot inserted reused) := by
    intro repoRoot inserted reused
    refine Keeps.bind (Keeps.issue ?_) fun _ => Keeps.issue ?_
    all_goals
      intro db value next indexed changed
      cases changed
      exact { indexed with }
  refine Keeps.bind (Keeps.modify fun _ => rfl) fun _ => ?_
  have limited : Keeps (limitSize env) := by
    unfold limitSize
    cases bounded : env.config.maxDbBytes with
    | none => exact Keeps.pure ()
    | some limit =>
      exact Keeps.bind (keeps_enforceSizeLimit (unbroken (by simp [bounded])) limit).attempt
        fun _ => Keeps.pure ()
  cases metadata.repoRoot with
  | none => exact Keeps.bind (Keeps.pure ()) fun _ => limited
  | some repoRoot =>
    refine Keeps.bind (Keeps.bind (counted repoRoot _ _).attempt fun _ => Keeps.pure ()) ?_
    exact fun _ => limited

theorem keeps_storeVocabulary (position : Nat) (rawText : Text) :
    Keeps (storeVocabulary env position rawText) := Keeps.issue fun _ _ _ indexed changed => by
    cases changed
    exact { indexed with }

theorem indexChunks_indexed {store : ContentStore} (indexed : Indexed store.db)
    {metadata : SourceMeta} {rawText : Text} {chunks : List Chunk}
    (absent : env.faults.transaction 0 = none → ∀ row ∈ store.db.chunks, row.sourceId ≠ metadata.id)
    (unbroken : env.config.maxDbBytes ≠ none → ∀ count, Unbroken (env.faults.deletion count)) :
    Indexed (indexChunks env metadata rawText chunks store).2.db := by
  refine after_of_meets (Run.Meets.bind ?_)
  cases fault : env.faults.transaction 0 with
  | some msg => exact indexed
  | none =>
    have rest : Keeps (do
        flushBatches env metadata.id [] (batchesOf env.config chunks)
        storeVocabulary env ((batchesOf env.config chunks).length + 1) rawText
        finishIndexing env metadata [] chunks ((batchesOf env.config chunks).length + 2)) :=
      Keeps.bind (keeps_flushBatches _ _) fun _ =>
        Keeps.bind (keeps_storeVocabulary _ _) fun _ => keeps_finishIndexing unbroken _ _ _ _
    unfold Artifact.issue Run.Meets
    simp only [upsertSource_eq indexed.owned]
    exact rest _ (indexed.upsertSource (absent fault))

end

theorem Indexed.perform {env : Environment} {request : Request} (indexed : Indexed store.db)
    (tidy : Tidy env store request) : Indexed (perform env store request).db := by
  cases request with
  | indexArtifact metadata rawText contentType =>
    obtain ⟨absent, unbroken⟩ := tidy
    cases cut : chunkText env.libraries metadata.id rawText contentType with
    | none =>
      simp only [Artifact.perform, Artifact.indexArtifact, cut, Option.map_none, Option.getD_none]
      exact indexed
    | some chunks =>
      simp only [Artifact.perform, Artifact.indexArtifact, cut, Option.map_some, Option.getD_some]
      cases capped : applyCaps env.config store.runStats metadata.id chunks with
      | error msg => exact indexed
      | ok allowed =>
        cases allowed with
        | none => exact indexed
        | some kept =>
          refine @indexChunks_indexed env { store with
            runStats := buffered kept store.runStats } ?_ _ _ _ ?_ unbroken
          · exact indexed
          · exact absent kept ⟨chunks, cut, capped⟩
  | deleteSource sourceId => exact after_of_meets (keeps_deleteSource tidy sourceId store indexed)
  | deleteSessionSources sessionId agentId =>
    exact after_of_meets (keeps_deleteSessionSources tidy sessionId agentId store indexed)
  | cleanup keepDays =>
    unfold Artifact.perform Artifact.cleanup Artifact.issue
    cases fault : env.faults.transaction 0 with
    | some msg => exact indexed
    | none =>
      refine indexed.deleteSources_idle fun row mem => ?_
      refine any_eq_false.mpr fun source sourceMem both => ?_
      rw [Bool.and_eq_true] at both
      exact tidy fault source sourceMem (of_decide_eq_true both.1) row mem (of_decide_eq_true both.2).symm
  | enforceSizeLimit maxBytes => exact after_of_meets (keeps_enforceSizeLimit tidy maxBytes store indexed)

theorem Indexed.run {steps : List (Environment × Request)}
    (indexed : Indexed store.db) (tidy : AllTidy store steps) : Indexed (run store steps).db := by
  induction steps generalizing store with
  | nil => exact indexed
  | cons step rest ih => exact ih (indexed.perform tidy.1) tidy.2

theorem AllTidy.of_append {first second : List (Environment × Request)}
    (tidy : AllTidy store (first ++ second)) : AllTidy store first := by
  induction first generalizing store with
  | nil => trivial
  | cons step rest ih => exact ⟨tidy.1, ih tidy.2⟩

/-- In a run of tidy steps the indexes mirror the chunk table after every step. -/
theorem run_mirrors (stats : IndexRunStats) {steps taken : List (Environment × Request)}
    (tidy : AllTidy ⟨Db.empty, stats⟩ steps) (reached : taken <+: steps) :
    Mirrors (run ⟨Db.empty, stats⟩ taken).db := by
  obtain ⟨rest, rfl⟩ := reached
  exact (Indexed.empty.run tidy.of_append).toMirrors

def firstOldest : OldestSource where
  pick sources := (sources.insertionSort fun first second => first.createdAt ≤ second.createdAt).head?
  none_iff sources := by rw [head?_eq_none_iff, ← length_eq_zero_iff, length_insertionSort, length_eq_zero_iff]
  mem sources source picked := (mem_insertionSort _).mp (mem_of_head? picked)
  least sources source picked other mem := by
    have sorted := pairwise_insertionSort (fun first second : SourceRow => first.createdAt ≤ second.createdAt) sources
    have listed := (mem_insertionSort fun first second : SourceRow => first.createdAt ≤ second.createdAt).mpr mem
    obtain ⟨rest, shape⟩ := head?_eq_some_iff.mp picked
    rw [shape] at sorted listed
    cases mem_cons.mp listed with
    | inl same =>
      rw [same]
      exact String.lt_irrefl _
    | inr later => exact String.not_lt.mpr ((pairwise_cons.mp sorted).1 other later)

def plainLibraries : Libraries where
  sha256 text :=
    if text = "src-1\x00one".toList then
      "4208f734645d4379de499a94d7cfe9c711e93f0372f049dc29ffb05956281afc"
    else if text = "src-1\x00two".toList then
      "a8b53f42b26e462aa688f2ab4d055804324443bad5536258b524fcd090882a39"
    else ""
  fromStr _ := none
  toStringPretty _ := []

def plainEnvironment (now : String) : Environment where
  config := {}
  libraries := plainLibraries
  stableRepoId root := root
  isAlphanumeric c := c.isAlphanum
  toLowercase c := [c.toLower]
  now := now
  daysAgo _ := "2026-01-01T00:00:00Z"
  pageSize := 4096
  pageCount _ := 0
  oldest := firstOldest
  faults := {}

def plainSource : SourceMeta where
  id := "src-1"
  sessionId := none
  agentId := none
  sourceType := "command_output"
  label := "out"
  repoRoot := none
  repoRoots := []
  repoId := none
  repoIds := []
  identityKind := "artifact_label"
  identityValue := "out"

def indexPlain (now : String) (text : String) : Environment × Request :=
  (plainEnvironment now, .indexArtifact plainSource text.toList "text/plain")
def deletePlain (now : String) : Environment × Request :=
  (plainEnvironment now, .deleteSource "src-1")

theorem deletedFirst_mirrors : (run ⟨Db.empty, {}⟩ [indexPlain "2026-02-01T00:00:00Z" "one",
    deletePlain "2026-02-02T00:00:00Z",
        indexPlain "2026-02-03T00:00:00Z" "two"]).db.chunks.map ChunkRow.content = ["two".toList] ∧
      Mirrors (run ⟨Db.empty, {}⟩ [indexPlain "2026-02-01T00:00:00Z" "one",
        deletePlain "2026-02-02T00:00:00Z", indexPlain "2026-02-03T00:00:00Z" "two"]).db := by
  refine ⟨by decide, run_mirrors {} ?_ (prefix_refl _)⟩
  have unlimited : ∀ now, (plainEnvironment now).config.maxDbBytes = none := fun _ => rfl
  refine ⟨⟨fun _ _ _ row mem => ?_, fun bounded => absurd (unlimited _) bounded⟩, fun _ =>
    ⟨rfl, rfl⟩, ⟨fun _ _ _ row mem => ?_, fun bounded => absurd (unlimited _) bounded⟩, trivial⟩
  · cases mem
  · have none : (perform (plainEnvironment "2026-02-02T00:00:00Z") (perform (plainEnvironment
      "2026-02-01T00:00:00Z") ⟨Db.empty, {}⟩ (.indexArtifact plainSource "one".toList "text/plain"))
        (.deleteSource "src-1")).db.chunks = [] := by decide
    rw [none] at mem
    cases mem

/-- The second version of a source leaves the documents of the first one behind. -/
theorem reindexed_not_mirrors :
    (indexArtifact (plainEnvironment "2026-02-02T00:00:00Z") plainSource "two".toList "text/plain"
        (run ⟨Db.empty, {}⟩ [indexPlain "2026-02-01T00:00:00Z" "one"])).map Prod.fst = some (.ok ()) ∧
      (run ⟨Db.empty, {}⟩ [indexPlain "2026-02-01T00:00:00Z" "one",
        indexPlain "2026-02-02T00:00:00Z" "two"]).db.chunks.map ChunkRow.id = [2] ∧
      (run ⟨Db.empty, {}⟩ [indexPlain "2026-02-01T00:00:00Z" "one",
        indexPlain "2026-02-02T00:00:00Z" "two"]).db.chunksFts.map Document.rowid = [1, 2] ∧
      ¬ Mirrors (run ⟨Db.empty, {}⟩ [indexPlain "2026-02-01T00:00:00Z" "one", indexPlain "2026-02-02T00:00:00Z" "two"]).db := by
  refine ⟨by decide, by decide, by decide, fun mirrors => ?_⟩
  have count := mirrors.fts.length_eq
  revert count
  decide

end Atlas.Content.Artifact
