import Atlas.Engine.ExactChanges

/-! An update by an exact list of changes against a build of the new working tree. -/
namespace Atlas.Engine
open List Core Program Store
open History (Bytes)

structure UpdateSteps (env : Env) (checkout : Checkout env.hashBytes)
    (options : UpdateOptions) (db : Db) (summary : UpdateSummary) where
  owners : String → Option PackageOwner
  changes : List ChangedFile
  tracker : BuildBudgetTracker
  plan : Plan
  moved : Db
  deleted : Nat
  cleared : Db
  (changed dependents : Parsing)
  written : Written
  stored : Db
  owned : checkout.owners = .ok owners
  detected : detectChanges env checkout options.target db = .ok changes
  planned : planChanges env checkout owners db changes (({ limits := options.budget, clock :=
    options.clock } : BuildBudgetTracker).setFilesDiscovered changes.length) {} = (tracker, plan)
  renames : Run.forEach (renameStable env owners) plan.toRename db = (.ok (), moved)
  deletes : deleteStale env false plan.toDelete moved = (.ok deleted, cleared)
  parses : parsePhase env checkout options owners "stat" "processing" plan.toParse
    { tracker := tracker } = .ok changed
  follows : parsePhase env checkout options owners "stat dependent" "processing dependent"
    (dependentPaths env cleared (loadSignatures env moved plan.toParse) plan.toParse changed.parsed)
    changed = .ok dependents
  writes : writeParsed env options owners 0 (chunks options.batchSize
    (changed.parsed ++ dependents.parsed)) {} cleared = (.ok written, stored)
  budget : summary.budget = dependents.tracker.finish.2
  parseErrors : summary.parseErrors = dependents.parseErrors
  parsed : summary.parsed = (changed.parsed ++ dependents.parsed).length

structure UpdateTrace (env : Env)
    (checkout : Checkout env.hashBytes) (options : UpdateOptions) (summary : UpdateSummary)
    (db reached : Db) extends UpdateSteps env checkout options db summary where
  isDegraded : Bool
  records : recordRef env checkout false isDegraded stored = (.ok (), reached)

section
variable {env : Env} {checkout : Checkout env.hashBytes} {options : UpdateOptions}
  {summary : UpdateSummary} {db reached : Db}

theorem updateGraph_ran (wet : options.dryRun = false)
    (ran : updateGraph env checkout options db = (.ok summary, reached)) :
    ∃ (steps : UpdateSteps env checkout options db summary) (isDegraded : Bool), Quiet env →
      recordRef env checkout false isDegraded steps.stored = (.ok (), reached) := by
  unfold updateGraph at ran
  dsimp only at ran
  rw [wet] at ran
  obtain ⟨owners, isOwned, ran⟩ := Run.ofExcept_bind_eq_ok ran
  rw [Run.get_bind] at ran
  obtain ⟨changes, detected, ran⟩ := Run.ofExcept_bind_eq_ok ran
  obtain ⟨_, moved, renames, ran⟩ := Run.bind_eq_ok ran
  rw [Run.get_bind] at ran
  obtain ⟨deleted, cleared, deletes, ran⟩ := Run.bind_eq_ok ran
  obtain ⟨changed, parses, ran⟩ := Run.ofExcept_bind_eq_ok ran
  rw [Run.get_bind] at ran
  obtain ⟨dependents, follows, ran⟩ := Run.ofExcept_bind_eq_ok ran
  obtain ⟨written, stored, writes, ran⟩ := Run.bind_eq_ok ran
  obtain ⟨_, refreshed, refresh, ran⟩ := Run.bind_eq_ok ran
  obtain ⟨_, resolved, resolve, ran⟩ := Run.bind_eq_ok ran
  obtain ⟨_, last, records, ran⟩ := Run.bind_eq_ok ran
  have recorded (quiet : Quiet env) := (quiet.refresh_meets _).of_ok refresh ▸ (quiet.reconcile_meets _).of_ok resolve ▸ records
  cases ran
  exact ⟨{
    owned := withContext_ok isOwned
    planned := Prod.mk.eta.symm
    budget := rfl
    parseErrors := rfl
    parsed := rfl
    detected, renames, deletes, parses, follows, writes, .. }, _, recorded⟩

private theorem updateGraph_traced (quiet : Quiet env) (wet : options.dryRun = false)
    (ran : updateGraph env checkout options db = (.ok summary, reached)) :
    Nonempty (UpdateTrace env checkout options summary db reached) :=
  have ⟨steps, _, records⟩ := updateGraph_ran wet ran
  ⟨{ steps with records := records quiet, .. }⟩

private theorem writeParsed_holds {target slices : String → Option Slice} {gone : List String}
    {owners : String → Option PackageOwner} (placed : WellPlaced env target)
    (wet : options.dryRun = false) (unfailing : ∀ index, options.chunkFails index = none)
    (batches : List (List ParsedFile)) (listed : ∀ file ∈ batches.flatten, IsTarget target owners file)
    (index : Nat) (written : Written) (fits : Fits target slices gone)
    (holds : Holds env slices gone (fun _ => False) db) :
    (writeParsed env options owners index batches written).Meets db (fun _ =>
      Holds env (overlay (batches.flatten.map ParsedFile.path) target slices) gone fun _ => False)
      (fun _ => False) := by
  induction batches generalizing db slices index written with
  | nil => exact holds.congr fun _ => by simp [overlay]
  | cons files rest ih =>
    unfold writeParsed
    rw [wet, if_neg Bool.false_ne_true, unfailing index]
    refine Run.Meets.bind ((writeBatch_holds placed files
      (fun file mem => listed file (mem_append_left _ mem)) fits holds written).mono ?_)
    intro next between holdsMore
    refine (ih (fun file mem => listed file (mem_append_right _ mem)) (index + 1) next (fits.overlay placed _) holdsMore).mono ?_
    intro _ last holdsLast
    rw [flatten_cons, map_append, overlay_append]
    exact holdsLast

private theorem dependentPaths_held {slices : String → Option Slice} {gone : List String}
    {pending : String → Prop} (holds : Holds env slices gone pending db)
    {oldSignatures : List (String × List (String × String))} {toParse : List String}
    {parsed : List ParsedFile} {path : String}
    (mem : path ∈ dependentPaths env db oldSignatures toParse parsed) :
    path ∉ toParse ∧ (slices path).isSome = true := by
  unfold dependentPaths findDependentsForQnames at mem
  obtain ⟨found, fresh⟩ := mem_filter.mp mem
  refine ⟨of_decide_eq_true fresh, ?_⟩
  obtain ⟨edge, isEdge, inRows⟩ := mem_flatMap.mp (mem_dedup.mp (mem_ascending.mp found))
  obtain ⟨row, isRow, rfl⟩ := mem_map.mp inRows
  obtain ⟨inRepo, _⟩ := of_decide_eq_true (mem_filter.mp isEdge).2
  obtain ⟨inNodes, source⟩ := mem_filter.mp isRow
  have stored := mem_nodesAt.mpr ⟨row, inNodes, (of_decide_eq_true source).1.trans inRepo, rfl, rfl⟩
  rw [holds.nodes] at stored
  cases held : slices row.filePath with
  | none => simp [held] at stored
  | some slice => rfl

end

/-! ## Comparing with a build -/

section
variable (env : Env) (before after : Checkout env.hashBytes)
  (ownersBefore ownersAfter : String → Option PackageOwner)

def KeepsContent (old path : String) : Prop :=
  env.registry.supports old = true ∧ ∃ was now, before.tree old = some was ∧
    after.tree path = some now ∧ env.hashBytes was = env.hashBytes now ∧
    (ownersBefore old).map PackageOwner.ownerId = (ownersAfter path).map PackageOwner.ownerId

structure Comparable (changes : List ChangedFile) (path : String) : Prop where
  notMoved : ∀ old, (⟨path, .renamed, some old⟩ : ChangedFile) ∈ changes →
    ¬ KeepsContent env before after ownersBefore ownersAfter old path
  sameOwner : ∀ bytes, before.tree path = some bytes → after.tree path = some bytes → ownersBefore path = ownersAfter path

end

section
variable {env : Env} {pathOf : String → String} {before after : Checkout env.hashBytes}
  {ownersBefore ownersAfter : String → Option PackageOwner} {options : UpdateOptions}
  {summary : UpdateSummary} {db reached : Db} {changes : List ChangedFile}

private theorem storedOwnerId_ownerColumns (owner : Option PackageOwner) :
    (ownerColumns owner).storedOwnerId = owner.map PackageOwner.ownerId := by
  cases owner with
  | none => rfl
  | some owner =>
    obtain ⟨ownerId, kind, root, manifestPath, packageName⟩ := owner
    cases kind <;> rfl

private theorem isStableRename_keepsContent (labels : Labels env) (holds : Holds env (sliceOf env before
    ownersBefore) (vanished env before after ownersBefore ownersAfter) (fun _ => False) db)
    {old path : String} (canonical : Canonical env old) (present : (after.tree path).isSome = true)
    (stable : isStableRename env after ownersAfter db old path = true) :
    KeepsContent env before after ownersBefore ownersAfter old path := by
  obtain ⟨slice, held⟩ := fullPlan_rename_held holds canonical stable
  obtain ⟨supported, was, parsed, oldTree, parse, rfl⟩ := sliceOf_eq_some_iff.mp held
  obtain ⟨now, newTree⟩ := Option.isSome_iff_exists.mp present
  obtain ⟨bytes, content, stored⟩ := isStableRename_content canonical stable
  cases content.symm.trans (tree_eq_some_iff.mp newTree).2.2
  refine ⟨supported, was, now, oldTree, newTree, ?_, ?_⟩
  · rw [storedHash, holds.files, held] at stored
    have hash := (labels old _ was parsed parse).2
    simp only [Option.map_some, Slice.fileRow, annotate_hash, hash, Option.some.injEq] at stored
    exact stored
  · unfold isStableRename at stable
    split at stable
    · have owner := (of_decide_eq_true stable).2
      unfold Canonical at canonical
      rw [fileOwnerIdForRepo, canonical] at owner
      simp only [bind, Except.bind, Except.toOption, Option.bind_some, holds.files, held,
        Option.map_some, Slice.fileRow, storedOwnerId_ownerColumns] at owner
      exact owner
    · cases stable

theorem UpdateTrace.holds (parses : Parses env pathOf)
    (wasIndexable : Indexable env before ownersBefore) (indexable : Indexable env after ownersAfter)
    (exactly : ListsExactly before.tree after.tree changes) (target : options.target = .batch changes)
    (wet : options.dryRun = false) (unfailing : ∀ index, options.chunkFails index = none)
    (holds : Holds env (sliceOf env before ownersBefore) (vanished env before after ownersBefore ownersAfter) (fun _ => False) db)
    (trace : UpdateTrace env after options summary db reached)
    (whole : summary.budget.isPartial = false) :
    ∃ slices, Holds env slices (vanished env before after ownersBefore ownersAfter) (fun _ => False) reached ∧
      ∀ path, Comparable env before after ownersBefore ownersAfter changes path →
        slices path = sliceOf env after ownersAfter path := by
  obtain ⟨⟨owners, found, tracker, plan, moved, deleted, cleared, changed, dependents, written, stored,
    owned, detected, planned, renames, deletes, first, second, writes, budget, _, _⟩, isDegraded, records⟩ := trace
  cases indexable.owners.symm.trans owned
  rw [target, detectChanges_exact exactly wasIndexable.canonical indexable.canonical] at detected
  cases detected
  have placed := @sliceOf_wellPlaced _ _ _ ownersAfter parses indexable.canonical
  have readable := indexable.legible.parses ownersAfter owned
  obtain ⟨unblocked, firstAccounts, firstParsed, firstComplete⟩ := parsePhase_ok readable rfl first
  obtain ⟨_, secondAccounts, secondParsed, _⟩ := parsePhase_ok readable unblocked second
  -- Nothing was reported, so the plan is the full one.
  have accounts := @planChanges_accounts env after ownersAfter db changes
    (({ limits := options.budget, clock := options.clock } :
      BuildBudgetTracker).setFilesDiscovered changes.length) {}
  rw [planned] at accounts
  rw [budget] at whole
  have clear := ((accounts.trans firstAccounts).trans secondAccounts).finish rfl whole
  have firstClear := secondAccounts.clear clear
  have isFull := @planChanges_complete env after ownersAfter db changes
    (({ limits := options.budget, clock := options.clock } :
      BuildBudgetTracker).setFilesDiscovered changes.length) {}
      (by rw [planned]; exact firstAccounts.clear firstClear)
  rw [planned] at isFull
  change plan = fullPlan env after ownersAfter db changes at isFull
  have covers := @fullPlan_covers env before after ownersAfter db changes
  have sources : (plan.toRename.map Prod.fst).Nodup := by
    rw [isFull]
    exact exactly.once.sublist (fullPlan_sources.trans (removedPaths_sublist changes))
  have targets : (plan.toRename.map Prod.snd).Nodup := by
    rw [isFull]
    exact exactly.once.sublist fullPlan_targets
  have renamed : ∀ rename ∈ plan.toRename, (⟨rename.2, .renamed, some rename.1⟩ : ChangedFile) ∈
    changes ∧ isStableRename env after ownersAfter db rename.1 rename.2 = true := by
    intro rename mem
    rw [isFull] at mem
    obtain ⟨⟨path, changeType, oldPath⟩, inChanges, isRename, old, new, stable⟩ := mem_fullPlan_toRename mem
    cases isRename
    cases old
    cases new
    exact ⟨inChanges, stable⟩
  have parsed : ∀ path ∈ plan.toParse, (after.tree path).isSome = true := by
    intro path mem
    rw [isFull] at mem
    exact exactly.present (mem_fullPlan_toParse mem)
  have removed : ∀ path ∈ plan.toDelete, (before.tree path).isSome = true ∧ after.tree path = none := by
    intro path mem
    rw [isFull] at mem
    obtain ⟨change, inChanges, removed⟩ := mem_fullPlan_toDelete mem
    exact exactly.removed inChanges removed
  rw [← isFull] at covers
  clear isFull
  have afterRenames := (renames_move parses exactly wasIndexable.canonical indexable.canonical holds
    renamed sources targets).of_ok renames
  have afterDeletes := (deleteStale_removes parses wasIndexable.canonical removed afterRenames).of_ok deletes
  obtain ⟨slices, clearedHolds, midway⟩ := afterDeletes
  have unchanged : ∀ path, path ∉ plan.toRename.map Prod.snd → path ∉ plan.toRename.map Prod.fst ++
    plan.toDelete → path ∉ plan.toParse → before.tree path = after.tree path := by
    intro path notNew stays notParsed
    by_contra differs
    rw [mem_append, not_or] at stays
    rcases covers exactly (exactly.listed path differs) with parse | delete | old | new
    · exact notParsed parse
    · exact stays.2 delete
    · exact stays.1 old
    · exact notNew new
  have followed : ∀ path ∈ dependentPaths env cleared (loadSignatures env moved plan.toParse)
    plan.toParse changed.parsed, (after.tree path).isSome = true := by
    intro path mem
    obtain ⟨notParsed, isHeld⟩ := dependentPaths_held clearedHolds mem
    by_cases isNew : path ∈ plan.toRename.map Prod.snd
    · obtain ⟨rename, inRenames, rfl⟩ := mem_map.mp isNew
      exact (exactly.renamed (renamed rename inRenames).1).2.2.2
    · rw [midway.elsewhere path isNew] at isHeld
      split at isHeld
      · cases isHeld
      · next stays =>
          obtain ⟨slice, held⟩ := Option.isSome_iff_exists.mp isHeld
          obtain ⟨_, bytes, _, inTree, _⟩ := sliceOf_eq_some_iff.mp held
          rw [← unchanged path isNew stays notParsed, inTree]
          rfl
  have listed : ∀ file ∈ changed.parsed ++ dependents.parsed, IsTarget (sliceOf env after ownersAfter) ownersAfter file := by
    intro file mem
    rcases mem_append.mp mem with direct | dependent
    · obtain ⟨path, inPlan, supported, outcome⟩ := firstParsed file direct
      exact (parsePath_isTarget parses.labels supported (parsed path inPlan) outcome).2
    · obtain ⟨path, follows, supported, outcome⟩ := secondParsed file dependent
      exact (parsePath_isTarget parses.labels supported (followed path follows) outcome).2
  have batched := flatten_chunks options.batchPositive (changed.parsed ++ dependents.parsed)
  have stores := (writeParsed_holds placed wet unfailing (chunks options.batchSize
    (changed.parsed ++ dependents.parsed)) (by rw [batched]; exact listed) 0 {}
    (midway.fits parses) clearedHolds).of_ok writes
  rw [batched] at stores
  refine ⟨_, (recordRef_holds isDegraded).of_ok records _ _ _ stores, ?_⟩
  intro path comparable
  rw [overlay]
  split
  · rfl
  · next unwritten =>
      have notNew : path ∉ plan.toRename.map Prod.snd := by
        intro isNew
        obtain ⟨rename, inRenames, rfl⟩ := mem_map.mp isNew
        obtain ⟨inChanges, stable⟩ := renamed rename inRenames
        obtain ⟨stood, _, _, present⟩ := exactly.renamed inChanges
        obtain ⟨bytes, inTree⟩ := Option.isSome_iff_exists.mp stood
        exact comparable.notMoved rename.1 inChanges (isStableRename_keepsContent parses.labels
          holds (wasIndexable.canonical _ (tree_eq_some_iff.mp inTree).1) present stable)
      rw [midway.elsewhere path notNew]
      split
      · next leaves =>
          refine (sliceOf_eq_none ?_).symm
          rcases mem_append.mp leaves with old | delete
          · obtain ⟨rename, inRenames, rfl⟩ := mem_map.mp old
            exact (exactly.renamed (renamed rename inRenames).1).2.1
          · exact (removed path delete).2
      · next stays =>
          by_cases isParsed : path ∈ plan.toParse
          · obtain ⟨bytes, inTree⟩ := Option.isSome_iff_exists.mp (parsed path isParsed)
            obtain ⟨tracked, _, content⟩ := tree_eq_some_iff.mp inTree
            by_cases supported : env.registry.supports path = true
            · have canonical : ∀ path ∈ plan.toParse, Canonical env path := by
                intro path mem
                obtain ⟨bytes, inTree⟩ := Option.isSome_iff_exists.mp (parsed path mem)
                exact indexable.canonical path (tree_eq_some_iff.mp inTree).1
              obtain ⟨file, isFile, rfl⟩ := parsePhase_complete parses.labels indexable.legible
                owned canonical rfl first firstClear ⟨tracked, supported, content⟩ isParsed
              exact absurd (mem_map_of_mem (mem_append_left _ isFile)) unwritten
            · unfold sliceOf
              rw [if_neg supported, if_neg supported]
          · have same := unchanged path notNew stays isParsed
            exact sliceOf_congr same fun bytes inTree => comparable.sameOwner bytes inTree (same ▸ inTree)

/-- The graph rows of two stores agree: at the given paths the files and nodes are the same, the
second store has lost edges that touch a vanished name at most, and so are the chunks of the names
that lie at these paths. -/
structure Agrees (repo : String)
    (comparable : String → Prop) (gone : List String) (rebuilt updated : Db) : Prop where
  files : ∀ path, comparable path → findFile updated repo path = findFile rebuilt repo path
  nodes : ∀ path, comparable path → nodesAt repo updated path = nodesAt repo rebuilt path
  edges : ∀ path, comparable path → LosesOnly repo gone (edgesAt repo rebuilt path) (edgesAt repo updated path)
  chunks : ∀ name, (∀ path, name ∈ storedNames repo rebuilt path ∨ name ∈ storedNames repo updated path → comparable path) →
    chunksOf repo updated.retrievalChunks name = chunksOf repo rebuilt.retrievalChunks name

theorem Holds.agrees {source target : String → Option Slice} {gone : List String}
    {comparable : String → Prop} {rebuilt : Db}
    (holds : Holds env source gone (fun _ => False) db)
    (exact : Holds env target [] (fun _ => False) rebuilt)
    (same : ∀ path, comparable path → source path = target path) :
    Agrees env.sourceRepoId comparable gone rebuilt db := by
  have nodes : ∀ path, comparable path → nodesAt env.sourceRepoId db path = nodesAt env.sourceRepoId rebuilt path := by
    intro path compares
    rw [holds.nodes, exact.nodes, same path compares]
  refine ⟨?_, nodes, ?_, ?_⟩
  · intro path compares
    rw [holds.files, exact.files, same path compares]
  · intro path compares
    have whole : edgesAt env.sourceRepoId rebuilt path = (target path).elim [] (Slice.edgeRows env.sourceRepoId) := by
      have ⟨fewer, kept⟩ := exact.edges path
      refine fewer.antisymm ?_
      rwa [filter_eq_self.mpr (by simp [EdgeRow.touches])] at kept
    rw [whole, ← same path compares]
    exact holds.edges path
  · intro name compares
    rw [holds.chunks name not_false, exact.chunks name not_false]
    congr 2
    apply Option.ext
    intro row
    rw [nodeNamed_eq_some_iff holds.unique, nodeNamed_eq_some_iff exact.unique]
    constructor
    · rintro ⟨mem, named⟩
      have here := compares row.filePath (.inr (Engine.mem_storedNames.mpr ⟨row, mem, named⟩))
      exact ⟨nodes _ here ▸ mem, named⟩
    · rintro ⟨mem, named⟩
      have here := compares row.filePath (.inl (Engine.mem_storedNames.mpr ⟨row, mem, named⟩))
      exact ⟨(nodes _ here).symm ▸ mem, named⟩

end

section
variable (env : Env) (pathOf : String → String) (before after : Checkout env.hashBytes)
  (ownersBefore ownersAfter : String → Option PackageOwner) (changes : List ChangedFile)

structure Replaces : Prop where
  parses : Parses env pathOf
  quiet : Quiet env
  wasIndexable : Indexable env before ownersBefore
  indexable : Indexable env after ownersAfter
  exactly : ListsExactly before.tree after.tree changes

end

structure Writes (build rebuild : BuildOptions) (update : UpdateOptions) : Prop where
  build : build.dryRun = false ∧ ∀ index, build.chunkFails index = none
  rebuild : rebuild.dryRun = false ∧ ∀ index, rebuild.chunkFails index = none
  update : update.dryRun = false ∧ ∀ index, update.chunkFails index = none

/-- After an update by exactly the changes between two trees, the store has at every comparable
path what a build of the new tree writes, less edges that touch a vanished name. -/
theorem updateGraph_refines_buildGraph {env : Env} {pathOf : String → String}
    {before after : Checkout env.hashBytes} {ownersBefore ownersAfter : String → Option PackageOwner}
    {changes : List ChangedFile} {build rebuild : BuildOptions} {update : UpdateOptions}
    {built rebuilt : BuildSummary} {updated : UpdateSummary} {db reached full : Db}
    (replaces : Replaces env pathOf before after ownersBefore ownersAfter changes)
    (target : update.target = .batch changes) (writes : Writes build rebuild update)
    (builds : buildGraph env before build Db.empty = (.ok built, db))
    (builtWhole : built.budget.isPartial = false)
    (updates : updateGraph env after update db = (.ok updated, reached))
    (updatedWhole : updated.budget.isPartial = false)
    (rebuilds : buildGraph env after rebuild Db.empty = (.ok rebuilt, full))
    (rebuiltWhole : rebuilt.budget.isPartial = false) :
    Agrees env.sourceRepoId (Comparable env before after ownersBefore ownersAfter changes)
      (vanished env before after ownersBefore ownersAfter) full reached := by
  obtain ⟨parses, quiet, wasIndexable, indexable, exactly⟩ := replaces
  have start : Holds env (sliceOf env before ownersBefore)
    (vanished env before after ownersBefore ownersAfter) (fun _ => False) db :=
    (buildGraph_holds parses quiet wasIndexable writes.build.1 writes.build.2).of_ok builds builtWhole
  have final : Holds env (sliceOf env after ownersAfter) [] (fun _ => False) full :=
    (buildGraph_holds parses quiet indexable writes.rebuild.1 writes.rebuild.2).of_ok rebuilds
      rebuiltWhole
  obtain ⟨trace⟩ := updateGraph_traced quiet writes.update.1 updates
  obtain ⟨slices, holds, same⟩ := trace.holds parses wasIndexable indexable exactly target
    writes.update.1 writes.update.2 start updatedWhole
  exact holds.agrees final same

def callerGraph (path hash : String) (bytes : Bytes) : ParsedFile where
  path := path
  hash := hash
  nodes :=
    [{ kind := .function, name := "f", qualifiedName := path ++ "::f", filePath := path, lineStart := 1,
       lineEnd := 1, language := "rust", fileHash := hash }]
  edges :=
    if bytes = [2] then
      [{ kind := .calls, sourceQn := path ++ "::f", targetQn := "b.rs::f", filePath := path }]
    else []

def callerEnv : Env where
  nfc := id
  hashBytes := fun bytes => String.ofList (bytes.map fun byte => Char.ofNat byte.toNat)
  registry :=
    { supports := fun path => decide (path = "a.rs" ∨ path = "b.rs")
      parse := fun path hash bytes =>
        if path = "a.rs" ∨ path = "b.rs" then some (callerGraph path hash bytes) else none }
  repoRoot := "/repo"
  sourceRepoId := "repo"
  repoFingerprint := "fingerprint"
  refreshOwnerGraphs := fun _ => pure ()
  reconcileCallTargets := fun _ _ => pure ()

theorem mem_slash_of_isBelow {dir path : String} (below : isBelow dir path = true) :
    '/' ∈ path.toList := by
  unfold isBelow startsWith at below
  rw [ isPrefixOf_iff_prefix, String.toList_append] at below
  exact below.subset (mem_append_right _ (by decide))

section
structure CallerFiles where
  a : Option Bytes := none
  b : Option Bytes := none
  manifest : Option Bytes := none

variable (files : CallerFiles)

def CallerFiles.content (path : String) : Option Bytes :=
  if path = "a.rs" then files.a
  else if path = "b.rs" then files.b
  else if path = "Cargo.toml" then files.manifest
  else none

def CallerFiles.owners (_ : String) : Option PackageOwner :=
  files.manifest.map fun _ => ⟨"cargo:.", .cargo, "", "Cargo.toml", some "demo"⟩

private theorem isBelow_caller {dir path : String} (below : isBelow dir path = true) :
    files.content path = none := by
  unfold CallerFiles.content
  split
  · next isA =>
      subst isA
      exact absurd (mem_slash_of_isBelow below) (by decide)
  · split
    · next isB =>
        subst isB
        exact absurd (mem_slash_of_isBelow below) (by decide)
    · split
      · next isManifest =>
          subst isManifest
          exact absurd (mem_slash_of_isBelow below) (by decide)
      · rfl

def callerCheckout : Checkout callerEnv.hashBytes where
  tracked := ["a.rs", "b.rs", "Cargo.toml"].filter fun path => (files.content path).isSome
  lsFiles := .ok (["a.rs", "b.rs", "Cargo.toml"].filter fun path => (files.content path).isSome)
  content := files.content
  isDirectory := fun _ => false
  ignored := fun _ => false
  isRegular := fun _ => true
  stat := fun path => ((files.content path).map length).elim (.error "no such file") .ok
  hashFile := fun path => ((files.content path).map callerEnv.hashBytes).elim (.error "no such file") .ok
  readFile := fun path => (files.content path).elim (.error "no such file") .ok
  owners := .ok files.owners
  head := some "head"
  changedFiles := fun _ => .ok []
  normalizeChangePath := fun path => .ok ⟨path, "relative"⟩
  missingChangePathCandidates := fun _ => []
  lsFiles_eq := by
    intro paths listed
    cases listed
    rfl
  stat_eq := by
    intro path size bytes stat content
    rw [content] at stat
    cases stat
    rfl
  hashFile_eq := by
    intro path hash hashed
    cases content : files.content path with
    | none => simp [content] at hashed
    | some bytes =>
      rw [content] at hashed
      cases hashed
      rfl
  readFile_eq := by
    intro path bytes read
    cases content : files.content path with
    | none => simp [content] at read
    | some found =>
      rw [content] at read
      cases read
      rfl
  directories := by
    intro dir path below present
    rw [isBelow_caller files below] at present
    cases present
  head_nonempty := by decide

theorem callerCheckout_indexable : Indexable callerEnv (callerCheckout files) files.owners where
  legible :=
    { stats := by
        intro path bytes _ content
        have onDisk : files.content path = some bytes := content
        simp [callerCheckout, onDisk, Except.isOk, Except.toBool]
      parses := by
        intro owners _ path supported inspected
        cases onDisk : files.content path with
        | none => simp [callerCheckout, onDisk, Except.isOk, Except.toBool] at inspected
        | some bytes =>
          have isFile : path = "a.rs" ∨ path = "b.rs" := of_decide_eq_true supported
          exact ⟨annotate callerEnv (owners path) (callerGraph path (callerEnv.hashBytes bytes) bytes),
            by simp [parsePath, parseHashed, callerCheckout, onDisk, callerEnv, isFile]⟩ }
  canonical := by
    intro path tracked
    have inPair := (mem_filter.mp tracked).1
    simp only [mem_cons, not_mem_nil, or_false] at inPair
    unfold Canonical
    rcases inPair with rfl | rfl | rfl <;> decide
  owners := rfl

end

theorem callerGraph_of_parse {path hash : String} {bytes : Bytes}
    {file : ParsedFile} (parsed : callerEnv.registry.parse path hash bytes = some file) :
    (path = "a.rs" ∨ path = "b.rs") ∧ file = callerGraph path hash bytes := by
  simp only [callerEnv] at parsed
  split at parsed
  · next isFile => exact ⟨isFile, (Option.some.inj parsed).symm⟩
  · cases parsed

def callerPathOf (name : String) : String := String.ofList (name.toList.takeWhile (· ≠ ':'))

theorem callerEnv_parses : Parses callerEnv callerPathOf where
  labels := by
    intro path hash bytes file parsed
    obtain ⟨_, rfl⟩ := callerGraph_of_parse parsed
    exact ⟨rfl, rfl⟩
  locates := by
    intro path hash bytes file parsed
    obtain ⟨_, rfl⟩ := callerGraph_of_parse parsed
    constructor
    · intro node mem
      cases mem_singleton.mp mem
      rfl
    · intro edge mem
      unfold callerGraph at mem
      dsimp only at mem
      split at mem
      · cases mem_singleton.mp mem
        rfl
      · cases mem
  embeds := by
    intro path hash bytes file parsed name mem
    obtain ⟨isFile, rfl⟩ := callerGraph_of_parse parsed
    cases mem_singleton.mp mem
    rcases isFile with rfl | rfl
    · change callerPathOf ("a.rs" ++ "::f") = "a.rs"
      decide
    · change callerPathOf ("b.rs" ++ "::f") = "b.rs"
      decide

private theorem callerEnv_quiet : Quiet callerEnv := ⟨fun _ => rfl, fun _ _ => rfl⟩
private theorem writes_default {target : UpdateTarget} : Writes {} {} { target := target } :=
  ⟨⟨rfl, fun _ => rfl⟩, ⟨rfl, fun _ => rfl⟩, ⟨rfl, fun _ => rfl⟩⟩

def callerBuild (files : CallerFiles) :
    Except String BuildSummary × Db := buildGraph callerEnv (callerCheckout files) {} Db.empty

def callerUpdate (before after : CallerFiles) (changes : List ChangedFile) :
    Except String UpdateSummary × Db :=
  updateGraph callerEnv (callerCheckout after) { target := .batch changes } (callerBuild before).2

def builtWhole (files : CallerFiles) : Bool :=
  (callerBuild files).1.toOption.any fun summary => !summary.budget.isPartial
def updatedWhole (before after : CallerFiles) (changes : List ChangedFile) : Bool :=
  (callerUpdate before after changes).1.toOption.any fun summary => !summary.budget.isPartial

theorem ok_of_any {Value : Type} {check : Value → Bool} {ran : Except String Value × Db}
    (whole : ran.1.toOption.any (fun value => !check value) = true) :
    ∃ value, ran = (.ok value, ran.2) ∧ check value = false := by
  obtain ⟨outcome, reached⟩ := ran
  cases outcome with
  | error msg => cases whole
  | ok value => exact ⟨value, rfl, (Bool.not_eq_true' _).mp whole⟩

section
variable {before after : CallerFiles} {changes : List ChangedFile}

theorem callerTree_elsewhere (files : CallerFiles)
    {path : String} (elsewhere : path ∉ ["a.rs", "b.rs", "Cargo.toml"]) :
    (callerCheckout files).tree path = none := by
  unfold Checkout.tree
  refine if_neg fun inside => elsewhere ?_
  exact (mem_filter.mp inside.1).1

theorem callerTree_listed {mentioned : List String} (here : ∀ path ∈ ["a.rs", "b.rs", "Cargo.toml"],
    (callerCheckout before).tree path ≠ (callerCheckout after).tree path → path ∈ mentioned)
    (path : String) (differs : (callerCheckout before).tree path ≠ (callerCheckout after).tree path) :
    path ∈ mentioned := by
  by_cases isFile : path ∈ ["a.rs", "b.rs", "Cargo.toml"]
  · exact here path isFile differs
  · rw [callerTree_elsewhere before isFile, callerTree_elsewhere after isFile] at differs
    exact absurd rfl differs

theorem caller_replaces
    (exactly : ListsExactly (callerCheckout before).tree (callerCheckout after).tree changes) :
    Replaces callerEnv callerPathOf (callerCheckout before) (callerCheckout after) before.owners after.owners changes :=
  ⟨callerEnv_parses, callerEnv_quiet, callerCheckout_indexable before, callerCheckout_indexable after, exactly⟩

end

def calledFiles : CallerFiles := { a := some [2], b := some [1] }
def danglingFiles : CallerFiles := { a := some [2] }
def ownedFiles : CallerFiles := { a := some [2], manifest := some [3] }
def oldFiles : CallerFiles := { a := some [1] }
def newFiles : CallerFiles := { b := some [1] }

private theorem renamed_listsExactly : ListsExactly (callerCheckout oldFiles).tree
    (callerCheckout newFiles).tree [⟨"b.rs", .renamed, some "a.rs"⟩] where
  described := by
    intro change mem
    cases mem_singleton.mp mem
    exact .renamed (by decide) (by decide) (by decide) (by decide)
  listed := callerTree_listed (by decide)
  once := by decide

theorem deleted_listsExactly : ListsExactly (callerCheckout calledFiles).tree
    (callerCheckout danglingFiles).tree [⟨"b.rs", .deleted, none⟩] where
  described := by
    intro change mem
    cases mem_singleton.mp mem
    exact .deleted (by decide) (by decide)
  listed := callerTree_listed (by decide)
  once := by decide

private theorem added_listsExactly : ListsExactly (callerCheckout danglingFiles).tree
    (callerCheckout ownedFiles).tree [⟨"Cargo.toml", .added, none⟩] where
  described := by
    intro change mem
    cases mem_singleton.mp mem
    exact .added (by decide) (by decide)
  listed := callerTree_listed (by decide)
  once := by decide

theorem updateGraph_refines_buildGraph_deleted :
    Agrees "repo" (Comparable callerEnv (callerCheckout calledFiles) (callerCheckout danglingFiles)
        calledFiles.owners danglingFiles.owners [⟨"b.rs", .deleted, none⟩])
      (vanished callerEnv (callerCheckout calledFiles) (callerCheckout danglingFiles) calledFiles.owners danglingFiles.owners)
      (callerBuild danglingFiles).2
      (callerUpdate calledFiles danglingFiles [⟨"b.rs", .deleted, none⟩]).2 := by
  have before : builtWhole calledFiles = true := by decide +kernel
  have update : updatedWhole calledFiles danglingFiles [⟨"b.rs", .deleted, none⟩] = true := by decide +kernel
  have after : builtWhole danglingFiles = true := by decide +kernel
  obtain ⟨built, builds, builtWhole⟩ := ok_of_any before
  obtain ⟨updated, updates, updatedWhole⟩ := ok_of_any update
  obtain ⟨rebuilt, rebuilds, rebuiltWhole⟩ := ok_of_any after
  exact updateGraph_refines_buildGraph (caller_replaces deleted_listsExactly) rfl writes_default
    builds builtWhole updates updatedWhole rebuilds rebuiltWhole

/-- A renamed file keeps its old qualified names, a deletion takes an edge of an unchanged file with
it, and an unchanged file stays without its new owner: none of it is so after a build. -/
theorem updateGraph_differs_from_buildGraph :
    (Replaces callerEnv callerPathOf (callerCheckout oldFiles) (callerCheckout newFiles)
      oldFiles.owners newFiles.owners [⟨"b.rs", .renamed, some "a.rs"⟩] ∧
      builtWhole oldFiles = true ∧
      updatedWhole oldFiles newFiles [⟨"b.rs", .renamed, some "a.rs"⟩] = true ∧
      builtWhole newFiles = true ∧
      (nodesAt "repo" (callerUpdate oldFiles newFiles [⟨"b.rs", .renamed, some "a.rs"⟩]).2
        "b.rs").map NodeRow.qualifiedName = ["a.rs::f"] ∧
      (nodesAt "repo" (callerBuild newFiles).2 "b.rs").map NodeRow.qualifiedName = ["b.rs::f"]) ∧
    (Replaces callerEnv callerPathOf (callerCheckout calledFiles) (callerCheckout danglingFiles)
      calledFiles.owners danglingFiles.owners [⟨"b.rs", .deleted, none⟩] ∧
      builtWhole calledFiles = true ∧
      updatedWhole calledFiles danglingFiles [⟨"b.rs", .deleted, none⟩] = true ∧
      builtWhole danglingFiles = true ∧
      (edgesAt "repo" (callerUpdate calledFiles danglingFiles [⟨"b.rs", .deleted, none⟩]).2
        "a.rs").map EdgeRow.targetQualified = [] ∧
      (edgesAt "repo" (callerBuild danglingFiles).2 "a.rs").map EdgeRow.targetQualified = ["b.rs::f"]) ∧
    (Replaces callerEnv callerPathOf (callerCheckout danglingFiles) (callerCheckout ownedFiles)
      danglingFiles.owners ownedFiles.owners [⟨"Cargo.toml", .added, none⟩] ∧
      builtWhole danglingFiles = true ∧
      updatedWhole danglingFiles ownedFiles [⟨"Cargo.toml", .added, none⟩] = true ∧
      builtWhole ownedFiles = true ∧
      (findFile (callerUpdate danglingFiles ownedFiles [⟨"Cargo.toml", .added, none⟩]).2 "repo"
        "a.rs").bind (fun row => row.owner.ownerId) = none ∧
      (findFile (callerBuild ownedFiles).2 "repo" "a.rs").bind (fun row => row.owner.ownerId) = some "cargo:.") := by
  refine ⟨⟨caller_replaces renamed_listsExactly, ?_, ?_, ?_, ?_, ?_⟩, ⟨caller_replaces deleted_listsExactly, ?_, ?_, ?_, ?_, ?_⟩,
    caller_replaces added_listsExactly, ?_, ?_, ?_, ?_, ?_⟩ <;> decide +kernel

end Atlas.Engine
