import Atlas.History.Reuse

/-! Failing commits of a build against the run without them. -/
namespace Atlas.History
open List Sql

/-- The reads of phase 1, `ROLLBACK` and `COMMIT` work. Listing the files, fetching blobs
in a batch, `BEGIN`, the inserts of parsed files and the statements that publish the
snapshot may fail. -/
structure CommitStep.Tolerable (content : String → Bytes)
    (env : BuildEnv) (state : BuildState) (step : CommitStep) : Prop where
  served : step.Served content env state
  lookups : ∀ fileIndex, step.faults.lookup fileIndex = none
  graphs : ∀ fileIndex, step.faults.cachedGraph fileIndex = none
  shows : ∀ path, ∃ answer, step.git.showFile step.commit.sha path = .ok answer
  rollsBack : step.faults.rollsBack = none
  commits : step.faults.commits = none

structure CommitStep.Steady (step : CommitStep) : Prop where
  fetches : ∀ hashes, ∃ found, step.git.catFileBlobBatch hashes = .ok found
  inserts : ∀ fileIndex position, step.faults.persist fileIndex position = none

section
variable {registry : ParserRegistry} {content : String → Bytes} {git : Git} {faults : CommitFaults}
  {db : Db} {commitSha : String}

section
variable (lookups : ∀ fileIndex, faults.lookup fileIndex = none)
  (graphs : ∀ fileIndex, faults.cachedGraph fileIndex = none)
  (shows : ∀ path, ∃ answer, git.showFile commitSha path = .ok answer) (fileIndex : Nat)
include lookups graphs shows fileIndex

theorem classifyFile_succeeds (file : StoredSnapshotFile) (state : Classified) :
    ∃ next, classifyFile registry git faults db commitSha fileIndex file state = .ok next := by
  unfold classifyFile
  cases supported : registry.supports file.filePath with
  | false => exact ⟨state, rfl⟩
  | true =>
    simp only [Bool.true_eq_false, if_false, lookups, attempt, withContext]
    cases stored : hasHistoricalFileGraph db file.fileHash with
    | true =>
      cases cached : state.cache.blobGraphs file.fileHash with
      | some graph => exact ⟨_, by simp only [loadCachedFileGraph, cached]; rfl⟩
      | none => exact ⟨_, by simp only [loadCachedFileGraph, cached, graphs, attempt]; rfl⟩
    | false =>
      obtain ⟨answer, cache, loaded⟩ : ∃ answer cache, loadBlobBytes git state.cache commitSha
        file.filePath file.fileHash = .ok (answer, cache) := by
        unfold loadBlobBytes
        cases cached : state.cache.blobBytes file.fileHash with
        | some bytes => exact ⟨some bytes, state.cache, rfl⟩
        | none =>
          obtain ⟨answer, shown⟩ := shows file.filePath
          simp only [shown, withContext]
          cases answer with
          | none => exact ⟨none, state.cache, rfl⟩
          | some bytes => exact ⟨some bytes, _, rfl⟩
      simp only [loaded]
      cases answer with
      | none => exact ⟨_, rfl⟩
      | some bytes =>
        dsimp only
        split
        all_goals exact ⟨_, rfl⟩

theorem classifyAll_succeeds (tracked : List StoredSnapshotFile) (state : Classified) : ∃ next,
    classifyAll registry git faults db commitSha fileIndex tracked state = (none, next) := by
  induction tracked generalizing fileIndex state with
  | nil => exact ⟨state, rfl⟩
  | cons file rest ih =>
    obtain ⟨middle, ran⟩ : ∃ middle, classifyFile registry git faults db commitSha fileIndex file
      state = .ok middle := classifyFile_succeeds lookups graphs shows fileIndex file state
    obtain ⟨next, later⟩ := ih (fileIndex + 1) middle
    refine ⟨next, ?_⟩
    unfold classifyAll
    simp only [ran]
    exact later

end
end

section
variable {env : BuildEnv} {content : String → Bytes} {step : CommitStep} {state : BuildState}
  {tracked : List StoredSnapshotFile}

def publishOutcome (env : BuildEnv) (step : CommitStep) (db : Db) (persisted : Persisted) :
    Except String Unit × BuildState :=
  match execUntilFault step.faults.publish 0
      (publish (storedCommit env.repoId env.indexedRef step.commit)
        (rootTreeHash step.git step.commit.sha) persisted.collected persisted.db) persisted.db with
  | (some message, _) =>
    (.error message,
      { connection := ⟨db, none⟩, cache := persisted.cache, errors := persisted.errors })
  | (none, reached) =>
    (.ok (), { connection := ⟨reached, none⟩, cache := persisted.cache, errors := persisted.errors })

section
variable (tolerable : step.Tolerable content env state)
include tolerable

theorem writeCommit_tolerated (closed : state.connection.pending = none)
    (begins : step.faults.begins = none) (cache : BuildRunCache) :
    ∃ classified, classifyAll env.registry step.git step.faults state.connection.committed
      step.commit.sha 1 tracked { cache := cache } = (none, classified) ∧
      writeCommit env step.git step.faults step.commit tracked { state with cache := cache } =
        publishOutcome env step state.connection.committed
          (persistAll env.registry step.faults step.commit.sha state.connection.committed state.errors classified) := by
  obtain ⟨classified, classifies⟩ : ∃ classified, classifyAll env.registry step.git step.faults
    state.connection.committed step.commit.sha 1 tracked { cache := cache } = (none, classified) :=
    classifyAll_succeeds tolerable.lookups tolerable.graphs tolerable.shows 1 tracked _
  refine ⟨classified, classifies, ?_⟩
  unfold writeCommit publishOutcome
  cases published : execUntilFault step.faults.publish 0 (publish
    (storedCommit env.repoId env.indexedRef step.commit) (rootTreeHash step.git step.commit.sha)
        (persistAll env.registry step.faults step.commit.sha state.connection.committed state.errors classified).collected
        (persistAll env.registry step.faults step.commit.sha state.connection.committed state.errors classified).db)
      (persistAll env.registry step.faults step.commit.sha state.connection.committed state.errors classified).db with
  | mk failure reached =>
    cases failure with
    | none => simp only [closed, begins, attempt, withContext, classifies, tolerable.commits, published]
    | some message => simp only [closed, begins, attempt, withContext, classifies, tolerable.rollsBack, published]

theorem writeCommit_steady (steady : step.Steady)
    {cache : BuildRunCache} (faithful : cache.Faithful content)
    (serves : step.git.Serves content step.commit.sha tracked)
    (closed : state.connection.pending = none) (begins : step.faults.begins = none) :
    ∃ extended, CacheExtends state.connection.committed cache extended ∧
      (persistedCleanly env.registry content state.connection.committed extended tracked
      state.errors).cache.Faithful content ∧
      writeCommit env step.git step.faults step.commit tracked { state with cache := cache } =
        publishOutcome env step state.connection.committed
          (persistedCleanly env.registry content state.connection.committed extended tracked state.errors) := by
  obtain ⟨classified, classifies, outcome⟩ := writeCommit_tolerated tolerable closed begins cache
  obtain ⟨classifiedFaithful, extended⟩ := classifyAll_cache tracked faithful serves classifies
  have persisted : persistAll env.registry step.faults step.commit.sha state.connection.committed
      state.errors classified = persistedCleanly env.registry content state.connection.committed
        classified.cache tracked state.errors := by
    refine persistAll_of_errors faithful serves classifies ?_
    exact persistAll_errors_of_clear classified steady.inserts
  rw [persisted] at outcome
  exact ⟨classified.cache, extended, persisted ▸ classifiedFaithful.persistAll, outcome⟩

theorem processCommit_tolerated (closed : state.connection.pending = none)
    {result : Except String Unit} {next : BuildState}
    (ran : processCommit env step.git step.faults step.commit state = (result, next)) :
    next.connection.pending = none ∧ ∀ message, result = .error message → next.connection = state.connection := by
  unfold processCommit at ran
  split at ran
  · cases ran
    exact ⟨closed, fun _ _ => rfl⟩
  · next tracked listed =>
      split at ran
      · cases ran
        exact ⟨closed, fun _ _ => rfl⟩
      · next cache fetched =>
          cases begins : step.faults.begins with
          | some message =>
            simp only [writeCommit, closed, begins, attempt, withContext] at ran
            cases ran
            exact ⟨closed, fun _ _ => rfl⟩
          | none =>
            obtain ⟨classified, _, outcome⟩ := writeCommit_tolerated tolerable closed begins cache
            rw [outcome] at ran
            unfold publishOutcome at ran
            split at ran
            · cases ran
              refine ⟨rfl, fun _ _ => ?_⟩
              rw [← closed]
            · cases ran
              exact ⟨rfl, fun _ failed => by cases failed⟩

end
end

/-! ## Persisting from two caches -/

section
variable {registry : ParserRegistry} {content : String → Bytes} {db : Db} {left right : Persisted}

theorem foldl_persistClean_congr (batch : List ParseWork)
    (sameDb : right.db = left.db) (sameCollected : right.collected = left.collected) :
    (batch.foldl (persistClean registry) right).db = (batch.foldl (persistClean registry) left).db ∧
      (batch.foldl (persistClean registry) right).collected = (batch.foldl (persistClean registry) left).collected := by
  induction batch generalizing left right with
  | nil => exact ⟨sameDb, sameCollected⟩
  | cons work rest ih =>
    cases parses : registry.parse work.relPath work.fileHash work.bytes with
    | none => refine ih ?_ ?_ <;> simpa only [persistClean, parses]
    | some parsed =>
      refine ih ?_ ?_
      · simp only [persistClean, parses, sameDb]
      · simp only [persistClean, parses, sameCollected]

theorem foldl_persistClean_blobGraphs_eq (batch : List ParseWork)
    {hash : String}
    (known : right.cache.blobGraphs hash = left.cache.blobGraphs hash ∨ ∃ work ∈ batch, ∃ parsed,
      work.Parses registry parsed ∧ work.fileHash = hash) :
    (batch.foldl (persistClean registry) right).cache.blobGraphs hash =
      (batch.foldl (persistClean registry) left).cache.blobGraphs hash := by
  induction batch generalizing left right with
  | nil =>
    rcases known with same | ⟨work, mem, _⟩
    · exact same
    · cases mem
  | cons work rest ih =>
    refine ih ?_
    cases parses : registry.parse work.relPath work.fileHash work.bytes with
    | none =>
      simp only [persistClean, parses]
      rcases known with same | ⟨other, mem, parsed, otherParses, sameHash⟩
      · exact .inl same
      · rcases mem_cons.mp mem with rfl | later
        · rw [ParseWork.Parses, parses] at otherParses
          cases otherParses
        · exact .inr ⟨other, later, parsed, otherParses, sameHash⟩
    | some parsed =>
      simp only [persistClean, parses, insertAt]
      by_cases here : hash = work.fileHash
      · exact .inl (by simp [here])
      · simp only [here, if_false]
        rcases known with same | ⟨other, mem, otherParsed, otherParses, sameHash⟩
        · exact .inl same
        · rcases mem_cons.mp mem with rfl | later
          · exact absurd sameHash.symm here
          · exact .inr ⟨other, later, otherParsed, otherParses, sameHash⟩

theorem collectReused_congr {left right : BuildRunCache} (tracked : List StoredSnapshotFile)
    (known : ∀ hash, hasHistoricalFileGraph db hash = true → knownGraph db right hash =
      knownGraph db left hash) (collected : Collected) :
    collectReused registry db right tracked collected = collectReused registry db left tracked collected := by
  unfold collectReused
  refine foldl_ext _ _ _ ?_
  intro current file mem
  rw [known file.fileHash (stored_of_isReused (mem_filter.mp mem).2)]

theorem persistedCleanly_congr (registry : ParserRegistry) (content : String → Bytes)
    {left right : BuildRunCache} (tracked : List StoredSnapshotFile)
    (leftErrors rightErrors : List IngestError)
    (known : ∀ hash, hasHistoricalFileGraph db hash = true → knownGraph db right hash = knownGraph db left hash) :
    let leftAfter := persistedCleanly registry content db left tracked leftErrors
    let rightAfter := persistedCleanly registry content db right tracked rightErrors
    rightAfter.db = leftAfter.db ∧ rightAfter.collected = leftAfter.collected ∧ (∀ hash, hasHistoricalFileGraph db hash = true →
        knownGraph db rightAfter.cache hash = knownGraph db leftAfter.cache hash) ∧
      ∀ hash, hasHistoricalFileGraph leftAfter.db hash = true → knownGraph leftAfter.db
        rightAfter.cache hash = knownGraph leftAfter.db leftAfter.cache hash := by
  intro leftAfter rightAfter
  obtain ⟨sameDb, sameCollected⟩ : rightAfter.db = leftAfter.db ∧ rightAfter.collected =
    leftAfter.collected := foldl_persistClean_congr _ rfl (collectReused_congr tracked known {})
  have unparsed : ∀ {cache : BuildRunCache} {errors : List IngestError} {hash : String}, hasHistoricalFileGraph db hash = true →
      (persistedCleanly registry content db cache tracked errors).cache.blobGraphs hash = cache.blobGraphs hash := by
    intro cache errors hash stored
    rcases foldl_persistClean_graphs (parseWorks registry content db 1 tracked)
      { db := db, cache := cache, collected := collectReused registry db cache tracked {},
        errors := errors } hash with ⟨same, _⟩ | ⟨work, batched, _, _, sameHash, _⟩
    · exact same
    · obtain ⟨file, _, needs, workHash, _⟩ := mem_parseWorks batched
      have unstored := unstored_of_needsParse needs
      rw [← workHash, sameHash, stored] at unstored
      cases unstored
  refine ⟨sameDb, sameCollected, ?_, ?_⟩
  · intro hash stored
    unfold knownGraph
    rw [unparsed stored, unparsed stored]
    exact known hash stored
  · intro hash present
    cases stored : hasHistoricalFileGraph db hash with
    | true =>
      unfold knownGraph
      rw [unparsed stored, unparsed stored, storedFileGraph_grown
        (persistedCleanly_grown registry content db left tracked leftErrors) stored]
      exact known hash stored
    | false =>
      obtain ⟨row, mem, rowHash⟩ := hasHistoricalFileGraph_iff.mp present
      have parsed : ∃ work ∈ parseWorks registry content db 1 tracked, ∃ parsed,
        work.Parses registry parsed ∧ work.fileHash = hash := by
        rcases foldl_persistClean_rows _ _ row mem with old | ⟨work, batched, parsed, parses, made⟩
        · rw [hasHistoricalFileGraph_iff.mpr ⟨row, old, rowHash⟩] at stored
          cases stored
        · obtain ⟨node, _, rfl⟩ := mem_map.mp made
          exact ⟨work, batched, parsed, parses, rowHash⟩
      have sameGraphs : rightAfter.cache.blobGraphs hash = leftAfter.cache.blobGraphs hash :=
        foldl_persistClean_blobGraphs_eq _ (.inr parsed)
      unfold knownGraph
      rw [sameGraphs]

end

/-- The runs have the same tables and no open transaction, and know the same about the
blobs that are stored. What else is cached may differ. -/
structure Related (content : String → Bytes) (left right : BuildState) : Prop where
  connection : right.connection = left.connection
  closed : left.connection.pending = none
  leftFaithful : left.cache.Faithful content
  rightFaithful : right.cache.Faithful content
  known : ∀ hash, hasHistoricalFileGraph left.connection.committed hash = true →
    knownGraph left.connection.committed right.cache hash =
    knownGraph left.connection.committed left.cache hash

section
variable {env : BuildEnv} {content : String → Bytes} {step : CommitStep} {left right : BuildState}

theorem Related.refl {state : BuildState} (closed : state.connection.pending = none)
    (faithful : state.cache.Faithful content) : Related content state state :=
  ⟨rfl, closed, faithful, faithful, fun _ _ => rfl⟩

theorem Related.withErrors (related : Related content left right)
    (leftErrors rightErrors : List IngestError) :
    Related content { left with errors := leftErrors } { right with errors := rightErrors } :=
  ⟨related.connection, related.closed, related.leftFaithful, related.rightFaithful, related.known⟩

theorem Related.tolerable (related : Related content left right)
    (tolerable : step.Tolerable content env left) : step.Tolerable content env right := by
  refine ⟨?_, tolerable.lookups, tolerable.graphs, tolerable.shows, tolerable.rollsBack, tolerable.commits⟩
  intro tracked listed
  rw [related.connection] at listed
  exact tolerable.served tracked listed

theorem prefetchBlobBytes_succeeds (steady : step.Steady)
    (registry : ParserRegistry) (tracked : List StoredSnapshotFile) (cache : BuildRunCache) :
    ∃ fetched, prefetchBlobBytes step.git registry tracked cache = .ok fetched := by
  unfold prefetchBlobBytes
  split
  · exact ⟨cache, rfl⟩
  · obtain ⟨found, answered⟩ := steady.fetches (hashesToFetch registry tracked cache)
    exact ⟨_, by simp only [answered, withContext]; rfl⟩

theorem publishOutcome_related {db : Db} {leftAfter rightAfter : Persisted} (sameDb :
    rightAfter.db = leftAfter.db) (sameCollected : rightAfter.collected = leftAfter.collected)
    (leftFaithful : leftAfter.cache.Faithful content)
    (rightFaithful : rightAfter.cache.Faithful content)
    (knownBefore : ∀ hash, hasHistoricalFileGraph db hash = true →
      knownGraph db rightAfter.cache hash = knownGraph db leftAfter.cache hash)
    (knownAfter : ∀ hash, hasHistoricalFileGraph leftAfter.db hash = true → knownGraph leftAfter.db
      rightAfter.cache hash = knownGraph leftAfter.db leftAfter.cache hash) :
    (publishOutcome env step db rightAfter).1 = (publishOutcome env step db leftAfter).1 ∧
      Related content (publishOutcome env step db leftAfter).2
      (publishOutcome env step db rightAfter).2 := by
  simp only [publishOutcome, sameDb, sameCollected]
  cases ran : execUntilFault step.faults.publish 0 (publish (storedCommit env.repoId env.indexedRef step.commit)
        (rootTreeHash step.git step.commit.sha) leftAfter.collected leftAfter.db) leftAfter.db with
  | mk failure reached =>
    cases failure with
    | some message => exact ⟨rfl, rfl, rfl, leftFaithful, rightFaithful, knownBefore⟩
    | none =>
      have published := execUntilFault_ok ran
      rw [execAll_publish] at published
      refine ⟨rfl, rfl, rfl, leftFaithful, rightFaithful, ?_⟩
      rw [published]
      exact knownAfter

section
variable (related : Related content left right) (tolerable : step.Tolerable content env left)
include related tolerable

theorem Related.writeCommit (steady : step.Steady)
    {tracked : List StoredSnapshotFile}
    (serves : step.git.Serves content step.commit.sha tracked) :
    (writeCommit env step.git step.faults step.commit tracked right).1 =
      (writeCommit env step.git step.faults step.commit tracked left).1 ∧
      Related content (writeCommit env step.git step.faults step.commit tracked left).2
        (writeCommit env step.git step.faults step.commit tracked right).2 := by
  have rightClosed : right.connection.pending = none := related.connection ▸ related.closed
  cases begins : step.faults.begins with
  | some message =>
    simp only [History.writeCommit, related.closed, rightClosed, begins, attempt, withContext]
    exact ⟨trivial, related⟩
  | none =>
    obtain ⟨leftCache, leftExtended, leftFaithful, leftRan⟩ :=
      writeCommit_steady tolerable steady related.leftFaithful serves related.closed begins
    obtain ⟨rightCache, rightExtended, rightFaithful, rightRan⟩ := writeCommit_steady
      (related.tolerable tolerable) steady related.rightFaithful serves rightClosed begins
    change History.writeCommit env step.git step.faults step.commit tracked left = _ at leftRan
    change History.writeCommit env step.git step.faults step.commit tracked right = _ at rightRan
    rw [related.connection] at rightExtended rightFaithful rightRan
    rw [leftRan, rightRan]
    have known : ∀ hash, hasHistoricalFileGraph left.connection.committed hash = true →
      knownGraph left.connection.committed rightCache hash =
      knownGraph left.connection.committed leftCache hash := by
      intro hash stored
      rw [leftExtended.knownGraph_eq, rightExtended.knownGraph_eq]
      exact related.known hash stored
    obtain ⟨sameDb, sameCollected, knownBefore, knownAfter⟩ :=
      persistedCleanly_congr env.registry content tracked left.errors right.errors known
    exact publishOutcome_related sameDb sameCollected leftFaithful rightFaithful knownBefore knownAfter

theorem Related.processCommit (steady : step.Steady) :
    (processCommit env step.git step.faults step.commit right).1 =
      (processCommit env step.git step.faults step.commit left).1 ∧
      Related content (processCommit env step.git step.faults step.commit left).2
        (processCommit env step.git step.faults step.commit right).2 := by
  unfold History.processCommit
  rw [related.connection]
  cases listed : trackedFiles step.git step.faults env.repoId left.connection.visible step.commit with
  | error message => exact ⟨rfl, related⟩
  | ok tracked =>
    have serves := tolerable.served tracked listed
    obtain ⟨leftCache, leftFetched⟩ := prefetchBlobBytes_succeeds steady env.registry tracked left.cache
    obtain ⟨rightCache, rightFetched⟩ := prefetchBlobBytes_succeeds steady env.registry tracked right.cache
    obtain ⟨leftFaithful, leftGraphs⟩ := prefetchBlobBytes_ok related.leftFaithful serves leftFetched
    obtain ⟨rightFaithful, rightGraphs⟩ := prefetchBlobBytes_ok related.rightFaithful serves rightFetched
    have fetched : Related content { left with cache := leftCache }
        { right with connection := left.connection, cache := rightCache } := by
      refine ⟨rfl, related.closed, leftFaithful, rightFaithful, ?_⟩
      intro hash stored
      unfold knownGraph
      rw [leftGraphs, rightGraphs]
      exact related.known hash stored
    simp only [leftFetched, rightFetched]
    exact fetched.writeCommit ⟨tolerable.served, tolerable.lookups, tolerable.graphs,
      tolerable.shows, tolerable.rollsBack, tolerable.commits⟩ steady serves

theorem Related.buildCommit (steady : step.Steady) :
    Related content (buildCommit env left step) (buildCommit env right step) := by
  unfold History.buildCommit
  rw [related.connection]
  split
  · exact related
  · obtain ⟨same, after⟩ := related.processCommit tolerable steady
    cases leftRan : History.processCommit env step.git step.faults step.commit left with
    | mk leftResult leftNext =>
      cases rightRan : History.processCommit env step.git step.faults step.commit right with
      | mk rightResult rightNext =>
        rw [leftRan, rightRan] at same after
        obtain rfl : rightResult = leftResult := same
        cases rightResult with
        | ok _ => exact after
        | error message => exact after.withErrors _ _

theorem Related.failing {message : String} {next : BuildState} (failed :
    History.processCommit env step.git step.faults step.commit left = (.error message, next)) :
    Related content next right := by
  obtain ⟨_, same⟩ := processCommit_tolerated tolerable related.closed failed
  have connection : next.connection = left.connection := same message rfl
  refine ⟨related.connection.trans connection.symm, connection ▸ related.closed,
    processCommit_faithful related.leftFaithful tolerable.served failed, related.rightFaithful, ?_⟩
  rw [connection]
  intro hash stored
  rw [processCommit_error_knownGraph related.leftFaithful tolerable.served failed stored]
  exact related.known hash stored

end
end

def AllTolerable (content : String → Bytes) (env : BuildEnv) : List CommitStep → BuildState → Prop
  | [], _ => True
  | step :: rest, state =>
    step.Tolerable content env state ∧ AllTolerable content env rest (buildCommit env state step)

inductive Thins (env : BuildEnv) : List CommitStep → BuildState → List CommitStep → Prop
  | nil (state : BuildState) : Thins env [] state []
  | keep (step : CommitStep) (rest kept : List CommitStep) (state : BuildState) (steady :
    step.Steady) (later : Thins env rest (buildCommit env state step) kept) :
      Thins env (step :: rest) state (step :: kept)
  | drop (step : CommitStep) (rest kept : List CommitStep) (state next : BuildState) (message :
    String) (unindexed : findSnapshot state.connection.visible env.repoId step.commit.sha = none)
      (failed : processCommit env step.git step.faults step.commit state = (.error message, next))
      (later : Thins env rest (buildCommit env state step) kept) :
      Thins env (step :: rest) state kept

section
variable {env : BuildEnv} {content : String → Bytes} {state : BuildState}

theorem buildCommit_closed {step : CommitStep}
    (tolerable : step.Tolerable content env state) (closed : state.connection.pending = none) :
    (buildCommit env state step).connection.pending = none := by
  unfold buildCommit
  split
  · exact closed
  · cases ran : processCommit env step.git step.faults step.commit state with
    | mk result next =>
      obtain ⟨stillClosed, _⟩ := processCommit_tolerated tolerable closed ran
      cases result with
      | ok _ | error message => exact stillClosed

theorem AllTolerable.append {first second : List CommitStep}
    (closed : state.connection.pending = none)
    (tolerable : AllTolerable content env (first ++ second) state) :
    (buildCommits env first state).connection.pending = none ∧
      AllTolerable content env second (buildCommits env first state) := by
  induction first generalizing state with
  | nil => exact ⟨closed, tolerable⟩
  | cons step rest ih =>
    obtain ⟨here, later⟩ := tolerable
    exact ih (buildCommit_closed here closed) later

theorem Related.buildCommits {steps kept : List CommitStep} {left right : BuildState}
    (thins : Thins env steps left kept) (related : Related content left right)
    (tolerable : AllTolerable content env steps left) :
    Related content (buildCommits env steps left) (buildCommits env kept right) := by
  induction thins generalizing right with
  | nil state => exact related
  | keep step rest kept state steady _ ih =>
    obtain ⟨here, later⟩ := tolerable
    exact ih (related.buildCommit here steady) later
  | drop step rest kept state next message unindexed failed _ ih =>
    obtain ⟨here, later⟩ := tolerable
    refine ih ?_ later
    have built : History.buildCommit env state step =
        { next with errors := next.errors ++ [⟨some step.commit.sha, message⟩] } := by
      simp only [History.buildCommit, unindexed, failed, Option.isSome_none, Bool.false_eq_true, if_false]
    rw [built]
    exact (related.failing here failed).withErrors _ right.errors

/-- A commit that fails leaves the tables as they were and no transaction open, and taking
failing commits out of the list changes nothing for the others. -/
theorem buildCommits_isolates_failures (steps : List CommitStep) (start : BuildState)
    (closed : start.connection.pending = none) (faithful : start.cache.Faithful content)
    (tolerable : AllTolerable content env steps start) :
    (∀ earlier step later, steps = earlier ++ step :: later → ∀ message next, processCommit env
      step.git step.faults step.commit (buildCommits env earlier start) = (.error message, next) →
      next.connection.committed = (buildCommits env earlier start).connection.committed ∧
        next.connection.pending = none) ∧
    ∀ kept, Thins env steps start kept →
      (buildCommits env kept start).connection = (buildCommits env steps start).connection := by
  constructor
  · intro earlier step later split message next failed
    rw [split] at tolerable
    obtain ⟨stillClosed, here, _⟩ := AllTolerable.append closed tolerable
    obtain ⟨nextClosed, same⟩ := processCommit_tolerated here stillClosed failed
    exact ⟨congrArg Connection.committed (same message rfl), nextClosed⟩
  · intro kept thins
    exact ((Related.refl closed faithful).buildCommits thins tolerable).connection

end

def failingStep (faults : CommitFaults) : CommitStep := { callingStep with faults := faults }
def nextStep : CommitStep := rootCommitStep "c2" [⟨.blob, "h1", "a.rs"⟩]

/-- The row of the first commit cannot be written. -/
theorem buildCommits_isolates_unwritable_commit :
    let failing := failingStep
      { publish := fun position => if position = 0 then some "disk full" else none }
    let start := buildStart (callingRegistry [2]) [] "/repo"
    (buildCommits (callingEnv [2]) [failing, nextStep] start).errors.map IngestError.commitSha = [some "c1"] ∧
      (buildCommits (callingEnv [2]) [nextStep] start).connection =
        (buildCommits (callingEnv [2]) [failing, nextStep] start).connection := by
  intro failing start
  refine ⟨rfl, ?_⟩
  have tolerable : AllTolerable (fun _ => [1]) (callingEnv [2]) [failing, nextStep] start := by
    refine ⟨⟨rootCommitStep_served "c1" _ _ _, fun _ => rfl, fun _ => rfl, fun path => ⟨_, rfl⟩, rfl, rfl⟩,
      ⟨rootCommitStep_served "c2" _ _ _, fun _ => rfl, fun _ => rfl, fun path => ⟨_, rfl⟩, rfl, rfl⟩, trivial⟩
  have steady : nextStep.Steady := ⟨fun hashes => ⟨_, rfl⟩, fun _ _ => rfl⟩
  have thins : Thins (callingEnv [2]) [failing, nextStep] start [nextStep] := .drop failing _ _
    start _ "disk full" rfl (Prod.ext rfl rfl) (.keep nextStep [] [] _ steady (.nil _))
  exact (buildCommits_isolates_failures _ start rfl (.empty _) tolerable).2 _ thins

/-- The lookup of the first commit's file fails: its transaction stays open, and the
second commit cannot begin its own. -/
theorem buildCommits_blocked_by_open_transaction :
    let failing := failingStep { lookup := fun _ => some "database disk image is malformed" }
    let start := buildStart (callingRegistry [2]) [] "/repo"
    (processCommit (callingEnv [2]) failing.git failing.faults failing.commit start).1 =
      .error "has_historical_file_graph for h1: database disk image is malformed" ∧
      (buildCommits (callingEnv [2]) [failing] start).connection.pending.isSome = true ∧
      (buildCommits (callingEnv [2]) [failing, nextStep] start).connection.committed.graphSnapshots = [] ∧
      (buildCommits (callingEnv [2]) [failing, nextStep] start).errors = [⟨some "c1",
        "has_historical_file_graph for h1: database disk image is malformed"⟩, ⟨some "c2",
          "begin commit write transaction: BEGIN IMMEDIATE: cannot start a transaction within a transaction"⟩] ∧
      (buildCommits (callingEnv [2]) [nextStep] start).connection.committed.graphSnapshots.map
        StoredSnapshot.commitSha = ["c2"] := by
  refine ⟨rfl, rfl, rfl, rfl, rfl⟩

end Atlas.History
