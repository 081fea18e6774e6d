import Atlas.Engine.UpdateProperties

/-! A build that gets through all files, or that finds no recorded commit, loses no edit. -/
namespace Atlas.Engine
open List Core Program Sql Store
open History (Bytes ParserRegistry isBinaryBytes)

variable {scan : Scan} {reached : Db} {finished : BuildBudgetTracker}

section
variable {hashBytes : Bytes → String}
  (checkout : Checkout hashBytes) (registry : ParserRegistry) (maxBytes : Nat)

def Checkout.isScanned (path : String) : Bool := !checkout.ignored path && registry.supports path &&
    decide (checkout.checkFile path maxBytes = .accept)

/-- The scan leaves the file out for its size alone. -/
def Checkout.isOversized (path : String) : Bool := !checkout.ignored path &&
    registry.supports path && decide (checkout.checkFile path maxBytes = .skipBySize)

private theorem foldl_scanFile (paths : List String) (scan : Scan) :
    (paths.foldl (checkout.scanFile registry maxBytes) scan).files =
      scan.files ++ paths.filter (checkout.isScanned registry maxBytes) ∧
      (paths.foldl (checkout.scanFile registry maxBytes) scan).skippedBySize =
        scan.skippedBySize + paths.countP (checkout.isOversized registry maxBytes) := by
  induction paths generalizing scan with
  | nil => simp
  | cons path rest ih =>
    rw [foldl_cons, (ih _).1, (ih _).2, filter_cons, countP_cons]
    unfold Checkout.scanFile Checkout.isScanned Checkout.isOversized
    cases checkout.ignored path with
    | true => simp
    | false =>
      cases registry.supports path with
      | false => simp
      | true =>
        cases checkout.checkFile path maxBytes with
        | accept => simp
        | skipBySize =>
          simp
          omega
        | skipOther | disappeared => simp

end

section
variable {hashBytes : Bytes → String} {checkout : Checkout hashBytes} {registry : ParserRegistry}
  {maxBytes : Nat} {path : String}

theorem collectSupportedFiles_ok
    (ran : checkout.collectSupportedFiles registry maxBytes = .ok scan) :
    scan.files = checkout.tracked.filter (checkout.isScanned registry maxBytes) ∧
      scan.skippedBySize = checkout.tracked.countP (checkout.isOversized registry maxBytes) := by
  unfold Checkout.collectSupportedFiles at ran
  obtain ⟨paths, listed, ran⟩ := Program.bind_eq_ok ran
  cases ran
  rw [checkout.lsFiles_eq paths listed]
  simpa using foldl_scanFile checkout registry maxBytes checkout.tracked {}

theorem isScanned_content (scanned : checkout.isScanned registry maxBytes path = true) :
    registry.supports path = true ∧ ∃ bytes, checkout.content path = some bytes := by
  unfold Checkout.isScanned at scanned
  simp only [Bool.and_eq_true, decide_eq_true_eq] at scanned
  obtain ⟨⟨_, supported⟩, accepted⟩ := scanned
  refine ⟨supported, ?_⟩
  unfold Checkout.checkFile at accepted
  cases content : checkout.content path with
  | none =>
    rw [content] at accepted
    cases accepted
  | some bytes => exact ⟨bytes, rfl⟩

theorem isScanned_isInScope (scanned : checkout.isScanned registry maxBytes path = true) :
    checkout.isInScope path = true := by
  unfold Checkout.isScanned Checkout.checkFile at scanned
  unfold Checkout.isInScope
  cases content : checkout.content path with
  | none => simp [content] at scanned
  | some bytes =>
    simp only [content, Bool.and_eq_true, decide_eq_true_eq, Bool.not_eq_true'] at scanned ⊢
    obtain ⟨⟨kept, _⟩, accepted⟩ := scanned
    by_cases regular : checkout.isRegular path = false
    · simp [regular] at accepted
    · by_cases large : bytes.length > maxBytes
      · simp [regular, large] at accepted
      · cases binary : isBinaryBytes bytes with
        | true => simp [regular, large, binary] at accepted
        | false => exact ⟨⟨kept, by simpa using regular⟩, rfl⟩

private theorem isScanned_of_isInScope (supported : registry.supports path = true) (inScope :
    checkout.isInScope path = true) (small : checkout.isOversized registry maxBytes path = false) :
    checkout.isScanned registry maxBytes path = true := by
  unfold Checkout.isInScope at inScope
  unfold Checkout.isOversized Checkout.checkFile at small
  unfold Checkout.isScanned Checkout.checkFile
  cases content : checkout.content path with
  | none =>
    rw [content] at inScope
    cases inScope
  | some bytes =>
    simp only [content, Bool.and_eq_true, Bool.not_eq_true'] at inScope
    obtain ⟨⟨kept, regular⟩, text⟩ := inScope
    by_cases large : bytes.length > maxBytes
    · simp [content, kept, supported, regular, large] at small
    · simp [kept, supported, regular, large, text]

end

section
variable {env : Env} {db : Db}

/-- The store after a rebuild has cleared it: no file of the repository is left. -/
structure Cleared (env : Env) (before db : Db) : Prop where
  valid : FilesValid env db
  recorded : lastIndexedRef db env.repoRoot = lastIndexedRef before env.repoRoot
  empty : ∀ row ∈ db.files, row.sourceRepoId ≠ env.sourceRepoId

variable {before : Db}

theorem Cleared.storedHash (cleared : Cleared env before db) (path : String) :
    storedHash env db path = none := by
  unfold Engine.storedHash findFile
  rw [Option.map_eq_none_iff, find?_eq_none]
  intro row mem found
  exact cleared.empty row mem (of_decide_eq_true found).1

theorem Cleared.fileHashes (cleared : Cleared env before db) :
    fileHashes db env.sourceRepoId = [] := by
  unfold Store.fileHashes
  rw [map_eq_nil_iff, filter_eq_nil_iff]
  intro row mem inRepo
  exact cleared.empty row mem (of_decide_eq_true inRepo)

private theorem clearGraphs_clears (valid : FilesValid env db) :
    (clearGraphs env).Meets db (fun _ => Cleared env db) (fun _ => False) := by
  unfold clearGraphs
  refine Run.Meets.bind (Run.Meets.get ?_)
  -- A row that is still there was there before and its path has not been visited.
  refine (Run.Meets.forEach (fun done reached => FilesValid env reached ∧
    lastIndexedRef reached env.repoRoot = lastIndexedRef db env.repoRoot ∧
    ∀ row ∈ reached.files, row.sourceRepoId = env.sourceRepoId → row ∈ db.files ∧ row.path ∉ done)
    (filePaths db env.sourceRepoId) [] ⟨valid, rfl, fun row mem _ => ⟨mem, by simp⟩⟩ ?_).mono ?_
  · intro before path after reached split ⟨stillValid, recorded, remaining⟩
    have canonical : Canonical env path := by
      have mem : path ∈ filePaths db env.sourceRepoId := by
        rw [show filePaths db env.sourceRepoId = before ++ path :: after from split]
        exact mem_append_right _ (.head _)
      obtain ⟨row, inRepo, rfl⟩ := mem_map.mp (mem_ascending.mp mem)
      obtain ⟨inFiles, ours⟩ := mem_filter.mp inRepo
      exact valid.canonical row inFiles (of_decide_eq_true ours)
    refine Run.Meets.withContext (deleteGraph_meets canonical ⟨stillValid.delete _ _, ?_, ?_⟩)
    · rw [deleteFileGraph_tables]
      exact recorded
    · intro row mem inRepo
      rw [deleteFileGraph_tables] at mem
      obtain ⟨old, kept⟩ := mem_deleteWhere.mp mem
      obtain ⟨inFiles, unvisited⟩ := remaining row old inRepo
      refine ⟨inFiles, ?_⟩
      rw [mem_append, mem_singleton, not_or]
      refine ⟨unvisited, fun same => ?_⟩
      simp [same, inRepo] at kept
  · intro _ reached ⟨stillValid, recorded, remaining⟩
    refine ⟨stillValid, recorded, ?_⟩
    intro row mem inRepo
    obtain ⟨inFiles, unvisited⟩ := remaining row mem inRepo
    refine unvisited (mem_ascending.mpr (mem_map_of_mem (mem_filter.mpr ⟨inFiles, ?_⟩)))
    exact decide_eq_true inRepo

end

def Checkout.size {hashBytes : Bytes → String} (checkout : Checkout hashBytes)
    (path : String) : Nat := ((checkout.content path).getD []).length

/-- No limit of the budget cuts the build short. -/
structure FitsBudget (env : Env)
    (checkout : Checkout env.hashBytes) (options : BuildOptions) : Prop where
  owners : ∃ owners, checkout.owners = .ok owners
  listed : ∃ paths, checkout.lsFiles = .ok paths
  time : ∀ reading, options.clock reading ≤ options.budget.maxWallTimeMs
  sizes : ∀ path ∈ checkout.tracked, checkout.isOversized env.registry options.budget.maxFileBytes path = false
  count :
    (checkout.tracked.filter (checkout.isScanned env.registry options.budget.maxFileBytes)).length ≤
    options.budget.maxFilesPerRun
  bytes : ((checkout.tracked.filter (checkout.isScanned env.registry
    options.budget.maxFileBytes)).map checkout.size).sum ≤ options.budget.maxTotalBytesPerRun

namespace BuildBudgetTracker

def IsTimely (tracker : BuildBudgetTracker) : Prop :=
  ∀ reading, tracker.clock reading ≤ tracker.limits.maxWallTimeMs

def HasRoom (tracker : BuildBudgetTracker) (sizes : List Nat) : Prop :=
  tracker.counters.filesAccepted + sizes.length ≤ tracker.limits.maxFilesPerRun ∧
    tracker.counters.bytesAccepted + sizes.sum ≤ tracker.limits.maxTotalBytesPerRun

variable {tracker : BuildBudgetTracker}

theorem IsTimely.maybeStopForTime (timely : tracker.IsTimely) :
    tracker.maybeStopForTime = (.proceed, { tracker with readings := tracker.readings + 1 }) := by
  unfold BuildBudgetTracker.maybeStopForTime
  simp only [timely tracker.readings, if_true]

theorem HasRoom.tryAcceptFile {size : Nat}
    {sizes : List Nat} (room : tracker.HasRoom (size :: sizes)) :
    ∃ counters, tracker.tryAcceptFile size = (.proceed, { tracker with counters := counters }) ∧
      ({ tracker with counters := counters } : BuildBudgetTracker).HasRoom sizes := by
  obtain ⟨files, bytes⟩ := room
  rw [length_cons] at files
  rw [sum_cons] at bytes
  have next : saturatingAdd tracker.counters.bytesAccepted size ≤ tracker.counters.bytesAccepted + size := Nat.min_le_left _ _
  have few : ¬ tracker.counters.filesAccepted ≥ tracker.limits.maxFilesPerRun := by omega
  have small : ¬ saturatingAdd tracker.counters.bytesAccepted size > tracker.limits.maxTotalBytesPerRun := by omega
  refine ⟨{ tracker.counters with
    filesAccepted := tracker.counters.filesAccepted + 1
    bytesAccepted := saturatingAdd tracker.counters.bytesAccepted size }, ?_, ?_, ?_⟩
  · unfold BuildBudgetTracker.tryAcceptFile
    simp only [few, small, if_false]
  · change tracker.counters.filesAccepted + 1 + sizes.length ≤ tracker.limits.maxFilesPerRun
    omega
  · change saturatingAdd tracker.counters.bytesAccepted size + sizes.sum ≤ tracker.limits.maxTotalBytesPerRun
    omega

end BuildBudgetTracker

/-! ## Selecting files -/

structure Selects {hashBytes : Bytes → String}
    (checkout : Checkout hashBytes) (paths : List String) (state result : Selecting) : Prop where
  accounts : Accounts state.tracker result.tracker
  kept : ∀ candidate ∈ state.candidates, candidate ∈ result.candidates
  hashed : ∀ candidate ∈ result.candidates, candidate ∈ state.candidates ∨
    (candidate.1 ∈ paths ∧ checkout.hashFile candidate.1 = .ok candidate.2)
  complete : result.tracker.reports = [] → ∀ path ∈ paths, ∃ hash, (path, hash) ∈ result.candidates
  within : state.tracker.IsTimely → state.tracker.HasRoom (paths.map checkout.size) →
    result.tracker.reports = state.tracker.reports ∧ result.tracker.IsTimely

section
variable {env : Env} {checkout : Checkout env.hashBytes} {options : BuildOptions}

theorem stat_size {path : String} {size : Nat} {hash : String}
    (stat : checkout.stat path = .ok size) (hashed : checkout.hashFile path = .ok hash) :
    checkout.size path = size := by
  obtain ⟨bytes, content, _⟩ := Option.map_eq_some_iff.mp (checkout.hashFile_eq path hash hashed)
  rw [checkout.stat_eq path size bytes stat content]
  unfold Checkout.size
  rw [content, Option.getD_some]

private theorem selectFiles_selects (paths : List String) (inspected : ∀ path ∈ paths, ∃ size hash,
    checkout.stat path = .ok size ∧ checkout.hashFile path = .ok hash) (state : Selecting) :
    ∃ result, selectFiles env checkout options [] paths state = .ok result ∧ Selects checkout paths state result := by
  induction paths generalizing state with
  | nil =>
    exact ⟨state, rfl, .of_eq rfl rfl, fun _ mem => mem, fun _ mem => .inl mem,
      fun _ _ mem => (by cases mem), fun timely _ => ⟨rfl, timely⟩⟩
  | cons path rest ih =>
    obtain ⟨size, hash, stat, hashed⟩ := inspected path (.head _)
    have later := ih fun other mem => inspected other (.tail _ mem)
    unfold selectFiles
    rcases state.tracker.maybeStopForTime_cases with ⟨decision, reports, limits⟩ | ⟨decision, left⟩
    · rcases state.tracker.maybeStopForTime.2.tryAcceptFile_cases size with
        ⟨accepted, acceptedReports, acceptedLimits⟩ | ⟨accepted, left⟩
      · obtain ⟨result, ran, selects⟩ := later
          { state with
            tracker := (state.tracker.maybeStopForTime.2.tryAcceptFile size).2
            candidates := state.candidates ++ [(path, hash)] }
        have here : (path, hash) ∈ result.candidates := selects.kept _ (mem_append_right _ (.head _))
        refine ⟨result, ?_, ?_, ?_, ?_, ?_, ?_⟩
        · rw [← Prod.mk.eta (p := state.tracker.maybeStopForTime), decision]
          simp only [stat]
          rw [← Prod.mk.eta (p := state.tracker.maybeStopForTime.2.tryAcceptFile size), accepted]
          simp only [hashed, lookup_nil, reduceCtorEq, if_false]
          exact ran
        · exact (Accounts.of_eq (acceptedReports.trans reports) (acceptedLimits.trans limits)).trans selects.accounts
        · intro candidate mem
          exact selects.kept candidate (mem_append_left _ mem)
        · intro candidate mem
          rcases selects.hashed candidate mem with old | ⟨inRest, isHash⟩
          · rcases mem_append.mp old with earlier | new
            · exact .inl earlier
            · rw [mem_singleton.mp new]
              exact .inr ⟨.head _, hashed⟩
          · exact .inr ⟨.tail _ inRest, isHash⟩
        · intro clear other mem
          rcases mem_cons.mp mem with rfl | inRest
          · exact ⟨hash, here⟩
          · exact selects.complete clear other inRest
        · intro timely room
          have proceeds := timely.maybeStopForTime
          rw [map_cons, stat_size stat hashed] at room
          have readRoom : state.tracker.maybeStopForTime.2.HasRoom (size :: rest.map checkout.size) := by
            rw [proceeds]
            exact room
          obtain ⟨counters, accepts, restRoom⟩ := readRoom.tryAcceptFile
          have next := selects.within (by
            rw [accepts, proceeds]
            exact timely) (by
            rw [accepts]
            exact restRoom)
          exact ⟨next.1.trans (acceptedReports.trans reports), next.2⟩
      · refine ⟨{ state with
            tracker := (state.tracker.maybeStopForTime.2.tryAcceptFile size).2 }, ?_,
          (Accounts.of_eq reports limits).trans (.of_leavesOut left), fun _ mem => mem,
          fun _ mem => .inl mem, fun clear => absurd clear left.not_clear, ?_⟩
        · rw [← Prod.mk.eta (p := state.tracker.maybeStopForTime), decision]
          simp only [stat]
          rw [← Prod.mk.eta (p := state.tracker.maybeStopForTime.2.tryAcceptFile size), accepted]
        · intro timely room
          rw [map_cons, stat_size stat hashed] at room
          have readRoom : state.tracker.maybeStopForTime.2.HasRoom (size :: rest.map checkout.size) := by
            rw [timely.maybeStopForTime]
            exact room
          obtain ⟨counters, accepts, _⟩ := readRoom.tryAcceptFile
          rw [accepts] at accepted
          cases accepted
    · refine ⟨{ state with tracker := state.tracker.maybeStopForTime.2 }, ?_, .of_leavesOut left,
        fun _ mem => mem, fun _ mem => .inl mem, fun clear => absurd clear left.not_clear, ?_⟩
      · rw [← Prod.mk.eta (p := state.tracker.maybeStopForTime), decision]
      · intro timely
        rw [timely.maybeStopForTime] at decision
        cases decision

end

/-! ## Files that the store accepts -/

/-- The parser puts nodes and edges into the file that it was given. -/
def Locates (env : Env) : Prop := ∀ path hash bytes file, env.registry.parse path hash bytes = some
    file → (∀ node ∈ file.nodes, node.filePath = path) ∧ ∀ edge ∈ file.edges, edge.filePath = path

section
variable {env : Env} {checkout : Checkout env.hashBytes} {owners : String → Option PackageOwner}
  {db : Db}

theorem annotate_nodes (env : Env) (owner : Option PackageOwner) (file : ParsedFile) :
    (annotate env owner file).nodes.map Node.filePath = file.nodes.map Node.filePath := by
  unfold annotate annotateParsedFileRepo annotateParsedFileOwner namespaceFile
  cases owner with
  | none | some _ => cases env.namespaceQualifiedNames <;> simp

theorem annotate_edges (env : Env) (owner : Option PackageOwner) (file : ParsedFile) :
    (annotate env owner file).edges.map Edge.filePath = file.edges.map Edge.filePath := by
  unfold annotate annotateParsedFileRepo annotateParsedFileOwner namespaceFile
  cases owner with
  | none | some _ => cases env.namespaceQualifiedNames <;> simp

private theorem parsePath_accepted (labels : Labels env) (locates : Locates env) {path : String}
    {file : ParsedFile} (canonical : Canonical env path)
    (outcome : parsePath env checkout owners path = .parsed file) :
    ∃ normal, canonicalizeParsedFile env.nfc file = .ok normal := by
  obtain ⟨samePath, truthful⟩ := parsePath_truthful labels canonical outcome
  have isParsed : ∃ hash source parsed, env.registry.parse path hash source = some parsed ∧
    annotate env (owners path) parsed = file := by
    unfold parsePath parseHashed at outcome
    cases hashed : checkout.hashFile path with
    | error msg => simp [hashed] at outcome
    | ok hash =>
      cases read : checkout.readFile path with
      | error msg => simp [hashed, read] at outcome
      | ok source =>
        cases parse : env.registry.parse path hash source with
        | none => simp [hashed, read, parse] at outcome
        | some parsed => exact ⟨hash, source, parsed, parse, by simpa [hashed, read, parse] using outcome⟩
  obtain ⟨hash, source, parsed, parse, rfl⟩ := isParsed
  obtain ⟨nodes, edges⟩ := locates path hash source parsed parse
  refine ⟨_, canonicalizeParsedFile_self truthful.canonical ?_ ?_⟩
  · intro node mem
    have inMap := mem_map_of_mem (f := Node.filePath) mem
    rw [annotate_nodes] at inMap
    obtain ⟨original, isNode, same⟩ := mem_map.mp inMap
    rw [← same, nodes original isNode, samePath]
  · intro edge mem
    have inMap := mem_map_of_mem (f := Edge.filePath) mem
    rw [annotate_edges] at inMap
    obtain ⟨original, isEdge, same⟩ := mem_map.mp inMap
    rw [← same, edges original isEdge, samePath]

variable {files : List ParsedFile}
  {written : Written} {batch : List (String × String)} {options : BuildOptions}

private theorem writeBatch_succeeds {chunkFails : Option String}
    (canonical : ∀ file ∈ files, Canonical env file.path)
    (accepted : ∀ file ∈ files, ∃ normal, canonicalizeParsedFile env.nfc file = .ok normal) :
    (writeBatch env owners chunkFails files written).Meets db (fun _ _ => True) (fun _ => False) := by
  obtain ⟨normal, ran⟩ := Program.mapM_ok_of_forall accepted
  unfold writeBatch
  refine Run.Meets.bind (Run.Meets.withContext (replaceFiles_meets ?_ ?_))
  · intro _ counts _
    refine Run.Meets.bind ((Run.Meets.forEach (fun _ _ => True) files [] trivial ?_).mono ?_)
    · intro before file after reached split _
      refine Run.Meets.withContext (upsertFileOwner_meets (canonical file ?_) trivial)
      rw [show files = before ++ file :: after from split]
      exact mem_append_right _ (.head _)
    · intro _ reached _
      refine Run.Meets.bind (Run.Meets.attempt ?_)
      unfold Run.Meets
      split
      · trivial
      · exact fun _ => trivial
  · intro error rejected
    rw [ran] at rejected
    cases rejected

structure Parseable (env : Env) (checkout : Checkout env.hashBytes)
    (owners : String → Option PackageOwner) (candidate : String × String) : Prop where
  canonical : Canonical env candidate.1
  hashed : checkout.hashFile candidate.1 = .ok candidate.2
  parses : ∃ file, parsePath env checkout owners candidate.1 = .parsed file

private theorem map_parseHashed (parseable : ∀ candidate ∈ batch, Parseable env checkout owners candidate) :
    (batch.map fun candidate =>
        (candidate.1, parseHashed env checkout owners candidate.1 candidate.2)) =
      (batch.map Prod.fst).map fun path => (path, parsePath env checkout owners path) := by
  rw [map_map]
  refine map_congr_left ?_
  intro candidate mem
  simp only [Function.comp_apply, parsePath, (parseable candidate mem).hashed]

theorem collectResults_parseable (failFast : Bool)
    (here : ∀ candidate ∈ batch, Parseable env checkout owners candidate) (state : Parsing)
    (unblocked : state.budgetBlocked = false) : ∃ attempted, collectResults failFast "parsing"
        (batch.map fun candidate => (candidate.1, parseHashed env checkout owners candidate.1 candidate.2)) state =
      .ok { state with
        attemptedFiles := attempted
        parsed := state.parsed ++ parsedFiles (parsePath env checkout owners) (batch.map Prod.fst) } := by
  rw [map_parseHashed here]
  exact collectResults_parsed failFast "parsing" _ (forall_mem_map.mpr fun candidate mem =>
    (here candidate mem).parses) state unblocked

private theorem parsedFiles_truthful (labels : Labels env)
    (parseable : ∀ candidate ∈ batch, Parseable env checkout owners candidate) :
    ∀ file ∈ parsedFiles (parsePath env checkout owners) (batch.map Prod.fst), Truthful env checkout
      file ∧ (Locates env → ∃ normal, canonicalizeParsedFile env.nfc file = .ok normal) := by
  intro file mem
  obtain ⟨path, inBatch, outcome⟩ := mem_parsedFiles.mp mem
  obtain ⟨candidate, isCandidate, rfl⟩ := mem_map.mp inBatch
  have canonical := (parseable candidate isCandidate).canonical
  exact ⟨(parsePath_truthful labels canonical outcome).2, fun locates => parsePath_accepted labels locates canonical outcome⟩

private theorem writeParsedBatch_improves (wet : options.dryRun = false)
    {index : Nat}
    (truthful : ∀ file ∈ files, Truthful env checkout file ∧
      (Locates env → ∃ normal, canonicalizeParsedFile env.nfc file = .ok normal))
    (valid : FilesValid env db) :
    (writeParsedBatch env options owners index files written).Meets
      db (fun _ reached => Improves env checkout (fun _ => False) db reached ∧ ∀ file ∈ files,
      Current env checkout reached file.path)
      (fun reached => Improves env checkout (fun _ => False) db reached ∧ ¬ Locates env) := by
  unfold writeParsedBatch
  rw [wet, if_neg Bool.false_ne_true]
  by_cases empty : files = []
  · rw [if_pos empty]
    exact ⟨.refl valid, by simp [empty]⟩
  · rw [if_neg empty]
    have improves : (writeBatch env owners (options.chunkFails index) files written).Meets db
        (fun _ reached => Improves env checkout (fun _ => False) db reached ∧ ∀ file ∈ files,
          Current env checkout reached file.path)
        (Improves env checkout (fun _ => False) db) :=
      writeBatch_improves (fun file mem => (truthful file mem).1) valid
    by_cases locates : Locates env
    · have succeeds : (writeBatch env owners (options.chunkFails index) files written).Meets db
        (fun _ _ => True) (fun _ => False) :=
        writeBatch_succeeds (fun file mem => (truthful file mem).1.canonical) (fun file mem => (truthful file mem).2 locates)
      exact (improves.and succeeds).imp (fun _ _ both => both.1) fun _ both => both.2.elim
    · exact improves.imp (fun _ _ holds => holds) fun _ holds => ⟨holds, locates⟩

structure Builds (env : Env) (checkout : Checkout env.hashBytes) (paths : List String) (tracker :
    BuildBudgetTracker) (db : Db) (finished : BuildBudgetTracker) (reached : Db) : Prop where
  accounts : Accounts tracker finished
  improves : Improves env checkout (fun _ => False) db reached
  complete : finished.reports = [] → ∀ path ∈ paths, Current env checkout reached path
  within : tracker.IsTimely → finished.reports = tracker.reports

theorem buildBatches_builds (labels : Labels env)
    (wet : options.dryRun = false) (batches : List (List (String × String)))
    (parseable : ∀ candidate ∈ batches.flatten, Parseable env checkout owners candidate)
    (index : Nat) (state : Building) (unblocked : state.parsing.budgetBlocked = false)
    (valid : FilesValid env db) :
    (buildBatches env checkout options owners index batches state).Meets db
      (fun built reached => Builds env checkout (batches.flatten.map Prod.fst) state.parsing.tracker
        db built.parsing.tracker reached)
      (fun reached => Improves env checkout (fun _ => False) db reached ∧ ¬ Locates env) := by
  induction batches generalizing index state db with
  | nil => exact ⟨.of_eq rfl rfl, .refl valid, fun _ _ mem => (by cases mem), fun _ => rfl⟩
  | cons batch rest ih =>
    unfold buildBatches
    rcases state.parsing.tracker.maybeStopForTime_cases with
      ⟨decision, reports, limits⟩ | ⟨decision, left⟩
    · rw [← Prod.mk.eta (p := state.parsing.tracker.maybeStopForTime), decision]
      have here : ∀ candidate ∈ batch, Parseable env checkout owners candidate :=
        fun candidate mem => parseable candidate (mem_append_left _ mem)
      obtain ⟨attempted, collected⟩ := collectResults_parseable options.failFast here
        { state.parsing with tracker := state.parsing.tracker.maybeStopForTime.2, parsed := [] } unblocked
      refine Run.Meets.bind (Run.Meets.ofExcept ?_ ?_)
      · intro parsing ran
        rw [collected] at ran
        cases ran
        refine Run.Meets.bind ((writeParsedBatch_improves wet (parsedFiles_truthful labels here) valid).mono ?_)
        intro written between ⟨improves, current⟩
        rw [if_neg (by simp [unblocked])]
        refine Run.Meets.imp (ih (fun candidate mem =>
          parseable candidate (mem_append_right _ mem)) (index + 1) _ ?_ improves.valid) ?_ ?_
        · exact unblocked
        · intro built reached builds
          refine ⟨(Accounts.of_eq reports limits).trans builds.accounts, improves.trans builds.improves, ?_, ?_⟩
          · intro clear path mem
            rw [flatten_cons, map_append] at mem
            rcases mem_append.mp mem with first | later
            · obtain ⟨candidate, isCandidate, rfl⟩ := mem_map.mp first
              obtain ⟨file, outcome⟩ := (here candidate isCandidate).parses
              have located := (parsePath_truthful labels (here candidate isCandidate).canonical outcome).1
              rw [← located]
              exact builds.improves.current not_false (current file (mem_parsedFiles.mpr ⟨candidate.1, first, outcome⟩))
            · exact builds.complete clear path later
          · intro timely
            refine (builds.within ?_).trans reports
            change (state.parsing.tracker.maybeStopForTime.2).IsTimely
            rw [timely.maybeStopForTime]
            exact timely
        · intro reached ⟨later, unlocated⟩
          exact ⟨improves.trans later, unlocated⟩
      · intro msg ran
        rw [collected] at ran
        cases ran
    · rw [← Prod.mk.eta (p := state.parsing.tracker.maybeStopForTime), decision]
      refine ⟨.of_leavesOut left, .refl valid, fun clear => absurd clear left.not_clear, ?_⟩
      intro timely
      rw [timely.maybeStopForTime] at decision
      cases decision

end

def TracksCanonical (env : Env) (checkout : Checkout env.hashBytes) : Prop :=
  ∀ path ∈ checkout.tracked, env.registry.supports path = true → Canonical env path

/-- A build is due for what it clears: there is no recorded commit that it could leave
behind, or it gets through all files. -/
def BuildReady (env : Env) (checkout : Checkout env.hashBytes) (options : BuildOptions) (db : Db) :
    Prop := lastIndexedRef db env.repoRoot = none ∨ (FitsBudget env checkout options ∧ Locates env)

section
variable {env : Env} {treeOf : String → String → Option Bytes} {checkout : Checkout env.hashBytes}
  {owners : String → Option PackageOwner} {options : BuildOptions} {db : Db}
  {path : String} {cleared : Db} {selected : Selecting}

theorem Legible.inspects (legible : Legible env checkout) (owned : checkout.owners = .ok owners)
    (scanned : checkout.isScanned env.registry options.budget.maxFileBytes path = true) :
    ∃ size hash file, checkout.stat path = .ok size ∧
      checkout.hashFile path = .ok hash ∧ parsePath env checkout owners path = .parsed file := by
  obtain ⟨supported, bytes, content⟩ := isScanned_content scanned
  have inspected := legible.stats path bytes supported content
  obtain ⟨file, outcome⟩ := legible.parses owners owned path supported inspected
  cases stat : checkout.stat path with
  | error msg =>
    rw [stat] at inspected
    cases inspected
  | ok size =>
    cases hashed : checkout.hashFile path with
    | error msg => simp [parsePath, hashed] at outcome
    | ok hash => exact ⟨size, hash, file, rfl, rfl, outcome⟩

theorem Cleared.fresh (isCleared : Cleared env db cleared)
    (improves : Improves env checkout (fun _ => False) cleared reached)
    (current : ∀ path bytes, Watches env checkout path bytes → checkout.isInScope path = true →
      Current env checkout reached path) :
    ∀ path bytes, Watches env checkout path bytes → ¬ Stale env checkout reached path bytes := by
  intro path bytes watches stale
  have before := improves.stale watches not_false stale
  rcases before.2 with inScope | stored
  · exact (current path bytes watches inScope).not_stale watches stale
  · rw [isCleared.storedHash] at stored
    cases stored

structure Built (env : Env) (checkout : Checkout env.hashBytes) (options : BuildOptions)
    (before : Db) (finished : BuildBudgetTracker) (reached : Db) : Prop where
  valid : FilesValid env reached
  recorded : lastIndexedRef reached env.repoRoot = lastIndexedRef before env.repoRoot
  fresh : finished.reports = [] → ∀ path bytes, Watches env checkout path bytes → ¬ Stale env checkout reached path bytes
  within : FitsBudget env checkout options → finished.reports = []

theorem Built.trans {later : Db} (built : Built env checkout options db finished reached)
    (improves : Improves env checkout (fun _ => False) reached later) :
    Built env checkout options db finished later := by
  refine ⟨improves.valid, improves.recorded.trans built.recorded, ?_, built.within⟩
  intro clear path bytes watches stale
  exact built.fresh clear path bytes watches (improves.stale watches not_false stale)

theorem Sound.unrecorded (valid : FilesValid env reached)
    (unrecorded : lastIndexedRef reached env.repoRoot = none) :
    Sound env treeOf checkout reached := by
  refine ⟨valid, ?_, ?_⟩
  · intro commit recorded
    rw [unrecorded] at recorded
    cases recorded
  · rw [unrecorded]
    exact nofun

theorem Built.sound (built : Built env checkout options db finished reached)
    (sound : Sound env treeOf checkout db) (ready : BuildReady env checkout options db) :
    Sound env treeOf checkout reached := by
  rcases ready with unrecorded | ⟨fits, _⟩
  · exact .unrecorded built.valid (built.recorded.trans unrecorded)
  · refine ⟨built.valid, ?_, by rw [built.recorded]; exact sound.named⟩
    intro commit _ path bytes watches stale
    exact absurd stale (built.fresh (built.within fits) path bytes watches)

theorem Built.recordRef (built : Built env checkout options db finished reached)
    (sound : Sound env treeOf checkout db) (ready : BuildReady env checkout options db)
    (isDegraded : Bool) (complete : isDegraded = false → finished.reports = []) :
    (recordRef env checkout false isDegraded).Meets reached (fun _ => Sound env treeOf checkout) (Sound env treeOf checkout) := by
  have kept := built.sound sound ready
  unfold Engine.recordRef
  cases isHead : checkout.head with
  | none => exact kept
  | some head =>
    cases isDegraded with
    | true => exact kept
    | false => exact Sound.record built.valid isHead fun path bytes watches _ => built.fresh (complete rfl) path bytes watches

variable (options) in
def scannedTracker (scan : Scan) : BuildBudgetTracker :=
  (({ limits := options.budget, clock := options.clock } :
    BuildBudgetTracker).setFilesDiscovered scan.files.length).noteScannedFileByteSkips scan.skippedBySize

theorem scannedTracker_cases (scan : Scan) :
    ((scannedTracker options scan).reports = [] ∧ scan.skippedBySize = 0 ∧
        scannedTracker options scan = ({ limits := options.budget, clock := options.clock } :
          BuildBudgetTracker).setFilesDiscovered scan.files.length) ∨
      (LeavesOut { limits := options.budget, clock := options.clock }
        (scannedTracker options scan) ∧ scan.skippedBySize ≠ 0) := by
  unfold scannedTracker BuildBudgetTracker.noteScannedFileByteSkips
  by_cases none : scan.skippedBySize = 0
  · rw [if_pos none]
    exact .inl ⟨rfl, none, rfl⟩
  · rw [if_neg none]
    simp only [recordUsage_isPartial]
    exact .inr ⟨⟨_, rfl, rfl, rfl⟩, none⟩

theorem Selects.inScope
    (selects : Selects checkout scan.files { tracker := scannedTracker options scan } selected)
    (scanned : checkout.collectSupportedFiles env.registry options.budget.maxFileBytes = .ok scan)
    (clear : selected.tracker.reports = []) (tracked : path ∈ checkout.tracked)
    (supported : env.registry.supports path = true) (inScope : checkout.isInScope path = true) :
    ∃ hash, (path, hash) ∈ selected.candidates := by
  obtain ⟨files, oversized⟩ := collectSupportedFiles_ok scanned
  have none : scan.skippedBySize = 0 := by
    rcases scannedTracker_cases scan with ⟨_, none, _⟩ | ⟨left, _⟩
    · exact none
    · exact absurd (selects.accounts.clear clear) left.not_clear
  have small : checkout.isOversized env.registry options.budget.maxFileBytes path = false := by
    rw [none] at oversized
    have all := countP_eq_zero.mp oversized.symm path tracked
    simpa using all
  refine selects.complete clear path ?_
  rw [files]
  exact mem_filter.mpr ⟨tracked, isScanned_of_isInScope supported inScope small⟩

theorem Builds.built (isCleared : Cleared env db cleared)
    (scanned : checkout.collectSupportedFiles env.registry options.budget.maxFileBytes = .ok scan)
    (selects : Selects checkout scan.files { tracker := scannedTracker options scan } selected)
    (builds : Builds env checkout (selected.candidates.map Prod.fst) selected.tracker cleared finished reached) :
    Accounts { limits := options.budget, clock := options.clock } finished ∧ Built env checkout options db finished reached := by
  obtain ⟨files, oversized⟩ := collectSupportedFiles_ok scanned
  have started : Accounts { limits := options.budget, clock := options.clock } (scannedTracker options scan) := by
    rcases scannedTracker_cases scan with ⟨_, _, same⟩ | ⟨left, _⟩
    · rw [same]
      exact .of_eq rfl rfl
    · exact .of_leavesOut left
  refine ⟨(started.trans selects.accounts).trans builds.accounts, builds.improves.valid,
    builds.improves.recorded.trans isCleared.recorded, ?_, ?_⟩
  · intro clear
    refine isCleared.fresh builds.improves ?_
    intro path bytes watches inScope
    obtain ⟨hash, candidate⟩ := selects.inScope scanned (builds.accounts.clear clear) watches.tracked watches.supported inScope
    exact builds.complete clear path (mem_map_of_mem (f := Prod.fst) candidate)
  · intro fits
    have none : scan.skippedBySize = 0 := by
      rw [oversized, countP_eq_zero]
      intro path mem
      rw [fits.sizes path mem]
      exact Bool.false_ne_true
    rcases scannedTracker_cases scan with ⟨fresh, _, same⟩ | ⟨_, some⟩
    · obtain ⟨reports, timely⟩ := selects.within (by rw [same]; exact fits.time) (by
        rw [same, files]
        exact ⟨by simpa [BuildBudgetTracker.setFilesDiscovered] using fits.count,
          by simpa [BuildBudgetTracker.setFilesDiscovered] using fits.bytes⟩)
      exact (builds.within timely).trans (reports.trans fresh)
    · exact absurd none some

theorem selectFiles_scanned (legible : Legible env checkout)
    (owned : checkout.owners = .ok owners) (tracks : TracksCanonical env checkout)
    (scanned : checkout.collectSupportedFiles env.registry options.budget.maxFileBytes = .ok scan) :
    ∃ selected, selectFiles env checkout options [] scan.files { tracker := scannedTracker options scan } = .ok selected ∧
      Selects checkout scan.files { tracker := scannedTracker options scan } selected ∧ ∀ candidate ∈ selected.candidates,
        (candidate.1 ∈ checkout.tracked ∧
          checkout.isScanned env.registry options.budget.maxFileBytes candidate.1 = true) ∧
          Parseable env checkout owners candidate := by
  have inspects : ∀ path ∈ scan.files, path ∈ checkout.tracked ∧
    checkout.isScanned env.registry options.budget.maxFileBytes path = true := by
    rw [(collectSupportedFiles_ok scanned).1]
    exact fun path mem => mem_filter.mp mem
  obtain ⟨selected, selection, selects⟩ := @selectFiles_selects env checkout options scan.files (fun path mem => by
    obtain ⟨size, hash, _, stat, hashed, _⟩ := legible.inspects owned (inspects path mem).2
    exact ⟨size, hash, stat, hashed⟩) { tracker := scannedTracker options scan }
  refine ⟨selected, selection, selects, fun candidate mem => ?_⟩
  rcases selects.hashed candidate mem with none | ⟨inFiles, hashed⟩
  · cases none
  · obtain ⟨tracked, isFile⟩ := inspects candidate.1 inFiles
    obtain ⟨_, _, file, _, _, outcome⟩ := legible.inspects owned isFile
    exact ⟨⟨tracked, isFile⟩, tracks candidate.1 tracked (isScanned_content isFile).1, hashed, file, outcome⟩

theorem buildGraph_keeps (labels : Labels env) (legible : Legible env checkout)
    (aftermath : Aftermath env checkout) (tracks : TracksCanonical env checkout)
    (sound : Sound env treeOf checkout db) (wet : options.dryRun = false)
    (ready : BuildReady env checkout options db) :
    (buildGraph env checkout options).Meets db (fun _ => Sound env treeOf checkout) (Sound env treeOf checkout) := by
  unfold buildGraph
  rw [wet]
  refine Run.Meets.bind ((clearGraphs_clears sound.valid).imp ?_ fun _ => False.elim)
  intro _ cleared isCleared
  -- A build that stops early is one that has no recorded commit to answer for.
  have stopped : ∀ reached, Improves env checkout (fun _ => False) cleared reached →
    ¬ (FitsBudget env checkout options ∧ Locates env) → Sound env treeOf checkout reached := by
    intro reached improves unfit
    rcases ready with unrecorded | fits
    · have recorded : lastIndexedRef reached env.repoRoot = none := improves.recorded.trans (isCleared.recorded.trans unrecorded)
      exact .unrecorded improves.valid recorded
    · exact absurd fits unfit
  refine Run.Meets.bind (Run.Meets.ofExcept ?_ ?_)
  case refine_2 =>
    intro msg failed
    refine stopped cleared (.refl isCleared.valid) ?_
    intro ⟨fits, _⟩
    obtain ⟨owners, owned⟩ := fits.owners
    rw [owned] at failed
    cases failed
  intro owners isOwned
  have owned := withContext_ok isOwned
  refine Run.Meets.bind (Run.Meets.get ?_)
  refine Run.Meets.bind (Run.Meets.ofExcept ?_ ?_)
  case refine_2 =>
    intro msg failed
    refine stopped cleared (.refl isCleared.valid) ?_
    intro ⟨fits, _⟩
    obtain ⟨paths, listed⟩ := fits.listed
    rw [Checkout.collectSupportedFiles, listed] at failed
    cases failed
  intro scan isScanned
  have scanned := withContext_ok isScanned
  obtain ⟨selected, selection, selects, inspected⟩ := selectFiles_scanned legible owned tracks scanned
  rw [isCleared.fileHashes]
  refine Run.Meets.bind (Run.Meets.ofExcept ?_ ?_)
  case refine_2 =>
    intro msg failed
    have impossible := selection.symm.trans failed
    cases impossible
  intro result isSelected
  have same := Except.ok.inj (selection.symm.trans isSelected)
  subst same
  have batched := flatten_chunks options.batchPositive selected.candidates
  refine Run.Meets.bind (Run.Meets.imp (buildBatches_builds
    labels wet _ (by rw [batched]; exact fun candidate mem => (inspected candidate mem).2) 0 _ rfl
    isCleared.valid) ?_ ?_)
  case refine_2 =>
    intro reached ⟨improves, unlocated⟩
    exact stopped reached improves fun fits => unlocated fits.2
  intro building reached builds
  rw [batched] at builds
  obtain ⟨accounts, built⟩ := Builds.built isCleared scanned selects builds
  refine Run.Meets.bind ((refresh_improves aftermath built.valid).imp ?_ ?_)
  case refine_2 =>
    intro failed improves
    exact (built.trans improves).sound sound ready
  intro _ refreshed refreshes
  refine Run.Meets.bind ((reconcile_improves aftermath false _ refreshes.valid).imp ?_ fun _ => False.elim)
  intro failures final reconciles
  refine Run.Meets.bind ((((built.trans refreshes).trans reconciles).recordRef sound ready _
    ?_).mono fun _ _ recorded => recorded)
  intro notDegraded
  unfold BuildSummary.isDegraded at notDegraded
  rw [Bool.or_eq_false_iff, Bool.or_eq_false_iff] at notDegraded
  exact accounts.finish rfl notDegraded.1.1

/-! ## Dry runs -/

private theorem buildBatches_dry (dry : options.dryRun = true)
    (batches : List (List (String × String))) (index : Nat) (state : Building) :
    (buildBatches env checkout options owners index batches state).Meets db
      (fun _ reached => reached = db) (fun reached => reached = db) := by
  induction batches generalizing index state with
  | nil => exact Run.Meets.pure rfl
  | cons batch rest ih =>
    unfold buildBatches
    split
    · exact Run.Meets.pure rfl
    · refine Run.Meets.bind (Run.Meets.ofExcept ?_ fun _ _ => rfl)
      intro parsing _
      unfold writeParsedBatch
      rw [dry, if_pos rfl]
      refine Run.Meets.bind (Run.Meets.pure ?_)
      split
      · exact Run.Meets.pure rfl
      · exact ih _ _

theorem buildGraph_dry (dry : options.dryRun = true) : (buildGraph env checkout options).Meets db
    (fun _ reached => reached = db) (fun reached => reached = db) := by
  unfold buildGraph
  rw [dry]
  refine Run.Meets.bind (Run.Meets.pure ?_)
  refine Run.Meets.bind (Run.Meets.ofExcept ?_ fun _ _ => rfl)
  intro owners _
  refine Run.Meets.bind (Run.Meets.get ?_)
  refine Run.Meets.bind (Run.Meets.ofExcept ?_ fun _ _ => rfl)
  intro scan _
  refine Run.Meets.bind (Run.Meets.ofExcept ?_ fun _ _ => rfl)
  intro selected _
  refine Run.Meets.bind ((buildBatches_dry dry _ 0 _).mono ?_)
  intro built reached same
  subst same
  refine Run.Meets.bind (Run.Meets.pure ?_)
  refine Run.Meets.bind ((reconcile_dry _).mono ?_)
  intro failures reached same
  subst same
  exact Run.Meets.bind ((recordRef_dry _).mono fun _ _ same => same)

end
end Atlas.Engine
