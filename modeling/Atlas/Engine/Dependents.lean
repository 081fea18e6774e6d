import Atlas.Engine.CleanPhases
import Atlas.Engine.Refinement
import Atlas.Engine.Signatures

/-! Which files an update parses again because symbols that they use have changed. -/
namespace Atlas.Engine
open List Core Program Sql Store

/-! ## What the deletions leave -/

section
variable (env : Env)

def DeletedPath (db : Db) (toDelete : List String) (path : String) : Prop :=
  ∃ existing, existingFileGraphDeletions env db toDelete = .ok existing ∧ ∃ raw ∈ existing,
    canonicalizeRepoPath env.nfc raw = .ok path

def EdgeLost (db : Db) (gone : String → Prop) (edge : EdgeRow) : Prop :=
  (∃ path, edge.filePath = some path ∧ gone path) ∨
    ∃ row ∈ db.nodes, row.sourceRepoId = env.sourceRepoId ∧ gone row.filePath ∧
      (row.qualifiedName = edge.sourceQualified ∨ row.qualifiedName = edge.targetQualified)

variable {env} {db cleared : Db}

theorem deleteGraph_eq_ok {path : String}
    {reached : Db} (ran : deleteGraph env path db = (.ok (), reached)) :
    ∃ canonical, canonicalizeRepoPath env.nfc path = .ok canonical ∧ reached = deleted env.sourceRepoId canonical db := by
  cases located : canonicalizeRepoPath env.nfc path with
  | error error =>
    unfold deleteGraph Run.withContext storeCall deleteFileGraphForRepo at ran
    simp [located] at ran
  | ok canonical =>
    refine ⟨canonical, rfl, ?_⟩
    have meets : (deleteGraph env path).Meets db
      (fun _ reached => reached = deleted env.sourceRepoId canonical db) (fun _ => True) :=
      Run.Meets.withContext (deleteGraph_meets located rfl)
    exact meets.of_ok ran

theorem mem_deleted {path : String} : (∀ row, row ∈ (deleted env.sourceRepoId path db).nodes ↔
    row ∈ db.nodes ∧ ¬ (row.sourceRepoId = env.sourceRepoId ∧ row.filePath = path)) ∧
    ∀ edge, edge ∈ (deleted env.sourceRepoId path db).edges ↔ edge ∈ db.edges ∧
      ¬ (edge.sourceRepoId = env.sourceRepoId ∧ EdgeLost env db (· = path) edge) := by
  obtain ⟨_, tables⟩ := @deleted_tables env.sourceRepoId path db
  have named : ∀ name, name ∈ storedNames env.sourceRepoId db path ↔ ∃ row ∈ db.nodes,
    row.sourceRepoId = env.sourceRepoId ∧ row.filePath = path ∧ row.qualifiedName = name := by
    intro name
    simp only [storedNames, NodeRow.inFile, mem_map, mem_filter, decide_eq_true_eq]
    constructor
    · intro listed
      obtain ⟨row, ⟨mem, inRepo, here⟩, same⟩ := listed
      exact ⟨row, mem, inRepo, here, same⟩
    · intro listed
      obtain ⟨row, mem, inRepo, here, same⟩ := listed
      exact ⟨row, ⟨mem, inRepo, here⟩, same⟩
  rw [tables]
  constructor
  · intro row
    rw [mem_deleteWhere]
    simp [NodeRow.inFile]
  · intro edge
    rw [mem_deleteWhere, mem_deleteWhere]
    simp only [EdgeRow.touches, EdgeRow.inFile, decide_eq_false_iff_not, named]
    unfold EdgeLost
    constructor
    · intro kept
      obtain ⟨⟨mem, elsewhere⟩, untouched⟩ := kept
      refine ⟨mem, ?_⟩
      intro lost
      obtain ⟨inRepo, how⟩ := lost
      cases how with
      | inl here =>
        obtain ⟨place, located, same⟩ := here
        exact elsewhere ⟨inRepo, same ▸ located⟩
      | inr touched =>
        obtain ⟨row, rowMem, rowRepo, here, ends⟩ := touched
        refine untouched ⟨inRepo, ?_⟩
        cases ends with
        | inl source => exact .inl ⟨row, rowMem, rowRepo, here, source⟩
        | inr target => exact .inr ⟨row, rowMem, rowRepo, here, target⟩
    · intro kept
      obtain ⟨mem, stays⟩ := kept
      refine ⟨⟨mem, ?_⟩, ?_⟩
      · intro here
        exact stays ⟨here.1, .inl ⟨path, here.2, rfl⟩⟩
      · intro touched
        obtain ⟨inRepo, ends⟩ := touched
        cases ends with
        | inl source =>
          obtain ⟨row, rowMem, rowRepo, here, same⟩ := source
          exact stays ⟨inRepo, .inr ⟨row, rowMem, rowRepo, here, .inl same⟩⟩
        | inr target =>
          obtain ⟨row, rowMem, rowRepo, here, same⟩ := target
          exact stays ⟨inRepo, .inr ⟨row, rowMem, rowRepo, here, .inr same⟩⟩

theorem mem_afterDeletions (paths : List String)
    (ran : Run.forEach (deleteGraph env) paths db = (.ok (), cleared)) :
    (∀ row, row ∈ cleared.nodes ↔ row ∈ db.nodes ∧ ¬ (row.sourceRepoId = env.sourceRepoId ∧
      ∃ raw ∈ paths, canonicalizeRepoPath env.nfc raw = .ok row.filePath)) ∧
    ∀ edge, edge ∈ cleared.edges ↔
      edge ∈ db.edges ∧ ¬ (edge.sourceRepoId = env.sourceRepoId ∧ EdgeLost env db
      (fun path => ∃ raw ∈ paths, canonicalizeRepoPath env.nfc raw = .ok path) edge) := by
  induction paths generalizing db with
  | nil =>
    cases ran
    simp [EdgeLost]
  | cons path rest ih =>
    obtain ⟨_, middle, first, later⟩ := Run.bind_eq_ok ran
    obtain ⟨canonical, located, rfl⟩ := deleteGraph_eq_ok first
    obtain ⟨nodesHere, edgesHere⟩ := @mem_deleted env db canonical
    obtain ⟨nodesLater, edgesLater⟩ := ih later
    have here : ∀ wanted, canonicalizeRepoPath env.nfc path = .ok wanted ↔ wanted = canonical := by
      intro wanted
      rw [located, Except.ok.injEq]
      exact eq_comm
    constructor
    · intro row
      rw [nodesLater, nodesHere]
      simp only [mem_cons, exists_eq_or_imp, here, and_or_left, not_or, and_assoc]
    · intro edge
      rw [edgesLater, edgesHere]
      unfold EdgeLost
      simp only [mem_cons, exists_eq_or_imp, here, nodesHere]
      constructor
      · intro kept
        obtain ⟨⟨mem, stays⟩, staysLater⟩ := kept
        refine ⟨mem, ?_⟩
        intro lost
        obtain ⟨inRepo, how⟩ := lost
        cases how with
        | inl placed =>
          obtain ⟨place, located, hit⟩ := placed
          cases hit with
          | inl same => exact stays ⟨inRepo, .inl ⟨place, located, same⟩⟩
          | inr more => exact staysLater ⟨inRepo, .inl ⟨place, located, more⟩⟩
        | inr touched =>
          obtain ⟨row, rowMem, rowRepo, hit, ends⟩ := touched
          by_cases same : row.filePath = canonical
          · exact stays ⟨inRepo, .inr ⟨row, rowMem, rowRepo, same, ends⟩⟩
          · refine staysLater ⟨inRepo, .inr ⟨row, ⟨rowMem, fun other => same other.2⟩, rowRepo, hit.resolve_left same, ends⟩⟩
      · intro kept
        obtain ⟨mem, stays⟩ := kept
        refine ⟨⟨mem, ?_⟩, ?_⟩
        · intro lost
          obtain ⟨inRepo, how⟩ := lost
          refine stays ⟨inRepo, ?_⟩
          cases how with
          | inl placed =>
            obtain ⟨place, located, same⟩ := placed
            exact .inl ⟨place, located, .inl same⟩
          | inr touched =>
            obtain ⟨row, rowMem, rowRepo, same, ends⟩ := touched
            exact .inr ⟨row, rowMem, rowRepo, .inl same, ends⟩
        · intro lost
          obtain ⟨inRepo, how⟩ := lost
          refine stays ⟨inRepo, ?_⟩
          cases how with
          | inl placed =>
            obtain ⟨place, located, more⟩ := placed
            exact .inl ⟨place, located, .inr more⟩
          | inr touched =>
            obtain ⟨row, ⟨rowMem, _⟩, rowRepo, more, ends⟩ := touched
            exact .inr ⟨row, rowMem, rowRepo, .inr more, ends⟩

end

/-! ## The files of an update -/

def UpdateSteps.Parses {env : Env} {checkout : Checkout env.hashBytes} {options : UpdateOptions}
    {db : Db} {summary : UpdateSummary} (steps : UpdateSteps env checkout options db summary)
    (path : String) : Prop :=
  ∃ file ∈ steps.changed.parsed ++ steps.dependents.parsed, file.path = path

def Reparsed (env : Env) (checkout : Checkout env.hashBytes)
    (options : UpdateOptions) (db : Db) (summary : UpdateSummary) (path : String) : Prop :=
  ∃ steps : UpdateSteps env checkout options db summary, steps.Parses path

/-! ## Dependents of changed symbols -/

def interfaceOfRow (row : NodeRow) :
    String × Option String × Option String × Option String × Bool :=
  (row.kind, row.params, row.returnType, row.modifiers, row.isTest)

def SymbolChanges (repo : String) (before after : Db) (name : String) : Prop :=
  ∃ old ∈ before.nodes, old.sourceRepoId = repo ∧ old.qualifiedName = name ∧
    ((∀ new ∈ after.nodes, new.sourceRepoId = repo → new.qualifiedName ≠ name) ∨
      ∃ new ∈ after.nodes, new.sourceRepoId = repo ∧ new.qualifiedName = name ∧ interfaceOfRow new ≠
      interfaceOfRow old)

instance (repo : String) (before after : Db) (name : String) :
    Decidable (SymbolChanges repo before after name) :=
  inferInstanceAs (Decidable (∃ old ∈ before.nodes, _))

def DependsOnChanged (repo : String) (before after : Db) (path : String) : Prop :=
  ∃ edge ∈ before.edges, ∃ row ∈ before.nodes, edge.sourceRepoId = repo ∧
    row.sourceRepoId = repo ∧ row.filePath = path ∧ edge.sourceQualified = row.qualifiedName ∧
      SymbolChanges repo before after edge.targetQualified

instance (repo : String) (before after : Db) (path : String) :
    Decidable (DependsOnChanged repo before after path) :=
  inferInstanceAs (Decidable (∃ edge ∈ before.edges, _))

section
variable (env : Env) (checkout : Checkout env.hashBytes) (owners : String → Option PackageOwner)

variable (plan : Plan) (moved : Db)

def movedStore (db : Db) : Db := (Run.forEach (renameStable env owners) plan.toRename db).2
def parsedChanges : List ParsedFile := parsedFiles (parsePath env checkout owners)
    (plan.toParse.filter fun path => env.registry.supports path)

def noticedNames : List String := (parsedChanges env checkout owners plan).flatMap fun file =>
    changedQnames (((loadSignatures env moved plan.toParse).lookup file.path).getD []) file.nodes

/-- A node of the file has an edge to a noticed name. It is not noticed itself, and neither
the node nor the edge is lost to a deletion of the same update. -/
def Noticed (path : String) : Prop := ∃ edge ∈ moved.edges, ∃ row ∈ moved.nodes,
    edge.sourceRepoId = env.sourceRepoId ∧ row.sourceRepoId = env.sourceRepoId ∧
    row.filePath = path ∧ row.qualifiedName = edge.sourceQualified ∧
    edge.targetQualified ∈ noticedNames env checkout owners plan moved ∧
    edge.sourceQualified ∉ noticedNames env checkout owners plan moved ∧
    ¬ DeletedPath env moved plan.toDelete path ∧
    ¬ EdgeLost env moved (DeletedPath env moved plan.toDelete) edge

/-- The parsers take the file, and it is in the change set or noticed. -/
def Follows (path : String) : Prop :=
  (path ∈ plan.toParse ∨ Noticed env checkout owners plan moved path) ∧
    ∃ file, parsePath env checkout owners path = .parsed file

variable {env checkout owners}

theorem deleteStale_eq_ok {toDelete : List String} {moved cleared : Db}
    {count : Nat} (ran : deleteStale env false toDelete moved = (.ok count, cleared)) :
    ∃ existing, existingFileGraphDeletions env moved toDelete = .ok existing ∧
      Run.forEach (deleteGraph env) existing moved = (.ok (), cleared) := by
  unfold deleteStale at ran
  rw [Run.get_bind] at ran
  obtain ⟨existing, found, ran⟩ := Run.ofExcept_bind_eq_ok ran
  obtain ⟨_, _, deletes, last⟩ := Run.bind_eq_ok ran
  cases last
  exact ⟨existing, found, deletes⟩

theorem movedStore_still {plan : Plan} (still : plan.toRename = []) (db : Db) :
    movedStore env owners plan db = db := by
  unfold movedStore
  rw [still]
  rfl

theorem deleteStale_nil (env : Env) (db : Db) : deleteStale env false [] db = (.ok 0, db) := rfl

theorem mem_dependentPaths_iff {plan : Plan} {moved cleared : Db} {count : Nat}
    (ran : deleteStale env false plan.toDelete moved = (.ok count, cleared)) {path : String} :
    path ∈ dependentPaths env cleared (loadSignatures env moved plan.toParse) plan.toParse
      (parsedChanges env checkout owners plan) ↔
      path ∉ plan.toParse ∧ Noticed env checkout owners plan moved path := by
  obtain ⟨existing, found, deletes⟩ := deleteStale_eq_ok ran
  obtain ⟨nodes, edges⟩ := mem_afterDeletions existing deletes
  have gone : (fun path => ∃ raw ∈ existing, canonicalizeRepoPath env.nfc raw = .ok path) =
    DeletedPath env moved plan.toDelete := by
    funext place
    apply propext
    constructor
    · intro hit
      exact ⟨existing, found, hit⟩
    · intro hit
      obtain ⟨others, alsoFound, hit⟩ := hit
      cases found.symm.trans alsoFound
      exact hit
  have nodes : ∀ row, row ∈ cleared.nodes ↔ row ∈ moved.nodes ∧
    ¬ (row.sourceRepoId = env.sourceRepoId ∧ DeletedPath env moved plan.toDelete row.filePath) := by
    intro row
    rw [nodes, ← gone]
  rw [gone] at edges
  unfold dependentPaths findDependentsForQnames
  rw [mem_filter, decide_eq_true_eq, mem_ascending, mem_dedup, and_comm, and_congr_right_iff]
  intro _
  change path ∈ (cleared.edges.filter fun edge => decide (edge.sourceRepoId = env.sourceRepoId ∧
    edge.targetQualified ∈ noticedNames env checkout owners plan moved ∧
    ¬ ∃ row ∈ cleared.nodes, row.sourceRepoId = env.sourceRepoId ∧
      row.qualifiedName = edge.sourceQualified ∧
      edge.sourceQualified ∈ noticedNames env checkout owners plan moved)).flatMap _ ↔ _
  rw [mem_flatMap]
  constructor
  · intro listed
    obtain ⟨edge, isEdge, inRows⟩ := listed
    obtain ⟨edgeMem, chosen⟩ := mem_filter.mp isEdge
    obtain ⟨inRepo, target, source⟩ := of_decide_eq_true chosen
    obtain ⟨row, isRow, here⟩ := mem_map.mp inRows
    obtain ⟨rowMem, joined⟩ := mem_filter.mp isRow
    obtain ⟨sameRepo, sameName⟩ := of_decide_eq_true joined
    have rowRepo := sameRepo.trans inRepo
    obtain ⟨edgeBefore, edgeKept⟩ := (edges edge).mp edgeMem
    obtain ⟨rowBefore, rowKept⟩ := (nodes row).mp rowMem
    refine ⟨edge, edgeBefore, row, rowBefore, inRepo, rowRepo, here, sameName, target, ?_, ?_, ?_⟩
    · exact fun noticed => source ⟨row, rowMem, rowRepo, sameName, noticed⟩
    · exact fun hit => rowKept ⟨rowRepo, here ▸ hit⟩
    · exact fun lost => edgeKept ⟨inRepo, lost⟩
  · intro noticed
    obtain ⟨edge, edgeBefore, row, rowBefore, inRepo, rowRepo, here, sameName, target, source, kept, edgeKept⟩ := noticed
    have edgeMem := (edges edge).mpr ⟨edgeBefore, fun lost => edgeKept lost.2⟩
    have rowMem := (nodes row).mpr ⟨rowBefore, fun lost => kept (here ▸ lost.2)⟩
    refine ⟨edge, mem_filter.mpr ⟨edgeMem, decide_eq_true ⟨inRepo, target, ?_⟩⟩, ?_⟩
    · intro alsoNoticed
      obtain ⟨_, _, _, _, noticed⟩ := alsoNoticed
      exact source noticed
    · exact mem_map.mpr ⟨row, mem_filter.mpr ⟨rowMem, decide_eq_true ⟨rowRepo.trans inRepo.symm, sameName⟩⟩, here⟩

variable {path : String}

theorem parsePath_path (labels : Labels env) {file : ParsedFile}
    (outcome : parsePath env checkout owners path = .parsed file) : file.path = path := by
  unfold parsePath at outcome
  cases hashed : checkout.hashFile path with
  | error msg => simp [hashed] at outcome
  | ok hash =>
    simp only [hashed] at outcome
    unfold parseHashed at outcome
    cases read : checkout.readFile path with
    | error msg => simp [read] at outcome
    | ok source =>
      cases parse : env.registry.parse path hash source with
      | none => simp [read, parse] at outcome
      | some parsed =>
        simp only [read, parse, ParseOutcome.parsed.injEq] at outcome
        rw [← outcome, annotate_path, (labels path hash source parsed parse).1]

theorem mem_parsedFiles_path (labels : Labels env) {paths : List String} :
    (∃ file ∈ parsedFiles (parsePath env checkout owners)
        (paths.filter fun path => env.registry.supports path), file.path = path) ↔
      path ∈ paths ∧ env.registry.supports path = true ∧ ∃ file, parsePath env checkout owners path = .parsed file := by
  constructor
  · intro found
    obtain ⟨file, mem, here⟩ := found
    obtain ⟨other, listed, outcome⟩ := mem_parsedFiles.mp mem
    obtain ⟨inPaths, supported⟩ := mem_filter.mp listed
    have same := (parsePath_path labels outcome).symm.trans here
    subst same
    exact ⟨inPaths, supported, file, outcome⟩
  · intro found
    obtain ⟨inPaths, supported, file, outcome⟩ := found
    exact ⟨file, mem_parsedFiles.mpr ⟨path, mem_filter.mpr ⟨inPaths, supported⟩, outcome⟩, parsePath_path labels outcome⟩

variable {options : UpdateOptions} {db : Db} {summary : UpdateSummary}

theorem UpdateSteps.whole (steps : UpdateSteps env checkout options db summary)
    (complete : summary.budget.isPartial = false) (clean : summary.parseErrors = 0) :
    steps.plan = fullPlan env checkout steps.owners db steps.changes ∧
      steps.changed.parsed = parsedChanges env checkout steps.owners steps.plan ∧
      steps.dependents.parsed = parsedFiles (parsePath env checkout steps.owners)
        ((dependentPaths env steps.cleared (loadSignatures env steps.moved steps.plan.toParse)
          steps.plan.toParse steps.changed.parsed).filter fun path =>
            env.registry.supports path) := by
  have last : steps.dependents.parseErrors = 0 := steps.parseErrors.symm.trans clean
  have later := parsePhase_parseErrors steps.follows
  have first : steps.changed.parseErrors = 0 := by omega
  obtain ⟨unblocked, accounts, changed⟩ := parsePhase_clean rfl steps.parses first
  obtain ⟨_, moreAccounts, dependents⟩ := parsePhase_clean unblocked steps.follows (last.trans first.symm)
  have planAccounts := @planChanges_accounts env checkout steps.owners db steps.changes
    (({ limits := options.budget, clock := options.clock } : BuildBudgetTracker).setFilesDiscovered steps.changes.length) {}
  have planComplete := @planChanges_complete env checkout steps.owners db steps.changes
    (({ limits := options.budget, clock := options.clock } : BuildBudgetTracker).setFilesDiscovered steps.changes.length) {}
  rw [steps.planned] at planAccounts planComplete
  have clear : steps.dependents.tracker.reports = [] :=
    ((planAccounts.trans accounts).trans moreAccounts).finish rfl (steps.budget ▸ complete)
  have clearChanged := moreAccounts.clear clear
  exact ⟨planComplete (accounts.clear clearChanged), changed clearChanged, dependents clear⟩

theorem UpdateSteps.parses_iff (labels : Labels env)
    (steps : UpdateSteps env checkout options db summary)
    (complete : summary.budget.isPartial = false) (clean : summary.parseErrors = 0) (supported :
      env.registry.supports path = true) :
    steps.Parses path ↔ Follows env checkout steps.owners steps.plan steps.moved path := by
  obtain ⟨_, changed, dependents⟩ := steps.whole complete clean
  have found : steps.Parses path ↔ (∃ file ∈ steps.changed.parsed, file.path = path) ∨
    ∃ file ∈ steps.dependents.parsed, file.path = path := by
    unfold UpdateSteps.Parses
    simp only [mem_append, or_and_right, exists_or]
  rw [found, dependents, changed, parsedChanges, mem_parsedFiles_path labels,
    mem_parsedFiles_path labels, ← parsedChanges, mem_dependentPaths_iff steps.deletes]
  unfold Follows
  constructor
  · intro parsed
    cases parsed with
    | inl direct => exact ⟨.inl direct.1, direct.2.2⟩
    | inr dependent => exact ⟨.inr dependent.1.2, dependent.2.2⟩
  · intro follows
    obtain ⟨how, taken⟩ := follows
    by_cases direct : path ∈ steps.plan.toParse
    · exact .inl ⟨direct, supported, taken⟩
    · exact .inr ⟨⟨direct, how.resolve_left direct⟩, supported, taken⟩

/-- A supported file, whatever symbols it depends on, is parsed again exactly if it is in the change
set or noticed. -/
theorem updateGraph_reparses_iff (labels : Labels env) {reached : Db} {changes : List ChangedFile}
    (wet : options.dryRun = false)
    (ran : updateGraph env checkout options db = (.ok summary, reached))
    (complete : summary.budget.isPartial = false) (clean : summary.parseErrors = 0)
    (owned : checkout.owners = .ok owners)
    (detected : detectChanges env checkout options.target db = .ok changes)
    (supported : env.registry.supports path = true) :
    Reparsed env checkout options db summary path ↔
      Follows env checkout owners (fullPlan env checkout owners db changes)
        (movedStore env owners (fullPlan env checkout owners db changes) db) path := by
  have each : ∀ steps : UpdateSteps env checkout options db summary, steps.Parses path ↔
      Follows env checkout owners (fullPlan env checkout owners db changes)
        (movedStore env owners (fullPlan env checkout owners db changes) db) path := by
    intro steps
    cases owned.symm.trans steps.owned
    cases detected.symm.trans steps.detected
    obtain ⟨planned, _, _⟩ := steps.whole complete clean
    have moved : movedStore env steps.owners (fullPlan env checkout steps.owners db steps.changes) db =
        steps.moved := by
      unfold movedStore
      rw [← planned, steps.renames]
    rw [moved, ← planned]
    exact steps.parses_iff labels complete clean supported
  constructor
  · intro reparsed
    obtain ⟨steps, parses⟩ := reparsed
    exact (each steps).mp parses
  · intro follows
    obtain ⟨steps, _⟩ := updateGraph_ran wet ran
    exact ⟨steps, (each steps).mpr follows⟩

end

def typedGraph (path hash : String) (bytes : History.Bytes) : ParsedFile :=
  { callerGraph path hash bytes with
    nodes := (callerGraph path hash bytes).nodes.map fun node =>
      { node with returnType := some (callerEnv.hashBytes bytes) } }

def typedEnv : Env :=
  { callerEnv with
    registry :=
      { supports := callerEnv.registry.supports
        parse := fun path hash bytes =>
          if path = "a.rs" ∨ path = "b.rs" then some (typedGraph path hash bytes) else none } }

theorem typedEnv_labels : Labels typedEnv := by
  intro path hash bytes file parsed
  simp only [typedEnv] at parsed
  split at parsed
  · cases parsed
    exact ⟨rfl, rfl⟩
  · cases parsed

def retypedFiles : CallerFiles := { a := some [2], b := some [3] }
def typedBuild : Db := (buildGraph typedEnv (callerCheckout calledFiles) {} Db.empty).2

def endsWhole (parsed : Nat) (ran : Except String UpdateSummary × Db) : Bool :=
  ran.1.toOption.any fun summary => decide (summary.parsed = parsed ∧ summary.parseErrors = 0 ∧ summary.budget.isPartial = false)

theorem ok_of_endsWhole {parsed : Nat}
    {ran : Except String UpdateSummary × Db} (whole : endsWhole parsed ran = true) :
    ∃ summary, ran = (.ok summary, ran.2) ∧
      summary.parsed = parsed ∧ summary.parseErrors = 0 ∧ summary.budget.isPartial = false := by
  obtain ⟨outcome, reached⟩ := ran
  cases outcome with
  | error msg => cases whole
  | ok summary => exact ⟨summary, rfl, of_decide_eq_true whole⟩

/-- `b.rs` gets another return type, and its caller in `a.rs` is parsed again. -/
theorem retyped_reparses :
    ∃ summary reached, updateGraph typedEnv (callerCheckout retypedFiles)
        { target := .batch [⟨"b.rs", .modified, none⟩] } typedBuild = (.ok summary, reached) ∧
      DependsOnChanged "repo" typedBuild reached "a.rs" ∧
      Reparsed typedEnv (callerCheckout retypedFiles)
        { target := .batch [⟨"b.rs", .modified, none⟩] } typedBuild summary "a.rs" := by
  have whole : endsWhole 2 (updateGraph typedEnv (callerCheckout retypedFiles)
      { target := .batch [⟨"b.rs", .modified, none⟩] } typedBuild) = true := by decide +kernel
  obtain ⟨summary, ran, _, clean, complete⟩ := ok_of_endsWhole whole
  refine ⟨summary, _, ran, ?_, ?_⟩
  · decide +kernel
  · have detected : detectChanges typedEnv (callerCheckout retypedFiles)
        (.batch [⟨"b.rs", .modified, none⟩]) typedBuild = .ok [⟨"b.rs", .modified, none⟩] := by
      decide +kernel
    refine (updateGraph_reparses_iff typedEnv_labels rfl ran complete clean rfl detected rfl).mpr ?_
    have noticed : "a.rs" ∈ dependentPaths typedEnv typedBuild
        (loadSignatures typedEnv typedBuild ["b.rs"]) ["b.rs"]
        (parsedChanges typedEnv (callerCheckout retypedFiles) retypedFiles.owners
          { toParse := ["b.rs"] }) := by decide +kernel
    have plan : fullPlan typedEnv (callerCheckout retypedFiles) retypedFiles.owners typedBuild
        [⟨"b.rs", .modified, none⟩] = { toParse := ["b.rs"] } := by decide +kernel
    rw [plan, movedStore_still rfl]
    have nothingGone := deleteStale_nil typedEnv typedBuild
    exact ⟨.inr ((@mem_dependentPaths_iff _ _ _ { toParse := ["b.rs"] } _ _ _ nothingGone _).mp
      noticed).2, _, rfl⟩

/-- The same for a file that is deleted is not so: its caller is left alone. -/
theorem deleted_leaves_caller :
    ¬ ∀ (env : Env) (checkout : Checkout env.hashBytes) (options : UpdateOptions)
      (db reached : Db) (summary : UpdateSummary), Labels env → options.dryRun = false →
      updateGraph env checkout options db = (.ok summary, reached) →
      summary.budget.isPartial = false → summary.parseErrors = 0 →
      ∀ path, (checkout.content path).isSome = true →
        env.registry.supports path = true → DependsOnChanged env.sourceRepoId db reached path →
        Reparsed env checkout options db summary path := by
  intro claimed
  have whole : endsWhole 0 (callerUpdate calledFiles danglingFiles [⟨"b.rs", .deleted, none⟩]) = true := by decide +kernel
  obtain ⟨summary, ran, parsed, clean, complete⟩ := ok_of_endsWhole whole
  have depends : DependsOnChanged "repo" (callerBuild calledFiles).2 (callerUpdate calledFiles
    danglingFiles [⟨"b.rs", .deleted, none⟩]).2 "a.rs" := by decide +kernel
  obtain ⟨steps, file, mem, _⟩ := claimed callerEnv (callerCheckout danglingFiles) _ _ _ summary
    callerEnv_parses.labels rfl ran complete clean "a.rs" (by decide) (by decide) depends
  have none := steps.parsed.symm.trans parsed
  rw [eq_nil_of_length_eq_zero none] at mem
  cases mem

end Atlas.Engine
