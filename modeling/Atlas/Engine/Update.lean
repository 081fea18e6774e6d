import Atlas.Engine.Parse

/-! The incremental update: detecting changes, moving and deleting stale graphs,
parsing changed files and their dependents, and writing them. -/
namespace Atlas.Engine
open Core Program Store

inductive UpdateTarget where
  | workingTree
  | staged
  | baseRef (gitRef : String)
  | files (paths : List String)
  | batch (changes : List ChangedFile)

/-- The batch size is clamped to at least one by the configuration. -/
structure UpdateOptions where
  failFast : Bool := false
  dryRun : Bool := false
  batchSize : Nat := 64
  target : UpdateTarget := .workingTree
  budget : BuildRunBudget := {}
  clock : Nat → Nat := fun _ => 0
  chunkFails : Nat → Option String := fun _ => none
  batchPositive : 0 < batchSize := by decide

structure UpdateSummary where
  (deleted renamed parsed skippedUnsupported parseErrors chunkUpsertFailures : Nat)
  (callTargetReconcileFailures nodesUpdated edgesUpdated : Nat)
  budgetCounters : BuildUpdateBudgetCounters
  budget : BudgetReport

def UpdateSummary.isDegraded (summary : UpdateSummary) : Bool := summary.budget.isPartial ||
    decide (summary.chunkUpsertFailures > 0) || decide (summary.callTargetReconcileFailures > 0)

section
variable (env : Env)

def canonicalizeBatchPath (label path : String) : Except String String :=
  match Repo.canonicalizeRelative env.nfc path with
  | .ok canonical => .ok canonical
  | .error error => .error ("invalid batch update " ++ label ++ " '" ++ path ++ "': " ++ error.message)

def canonicalizeBatchChange (change : ChangedFile) : Except String ChangedFile := do
  let path ← canonicalizeBatchPath env "path" change.path
  match change.oldPath with
  | none => .ok { path := path, changeType := change.changeType, oldPath := none }
  | some old => do
      let oldPath ← canonicalizeBatchPath env "old_path" old
      .ok { path := path, changeType := change.changeType, oldPath := some oldPath }

def liftStore {Value : Type} (context : String) (outcome : Except AtlasError Value) :
    Except String Value := History.withContext context (outcome.mapError AtlasError.message)

def graphHasChangeTarget (db : Db) (path : String) : Except String Bool := do
  let exact ← liftStore ("cannot inspect graph for '" ++ path ++ "'")
    (fileGraphExistsForRepo env.nfc db env.sourceRepoId path)
  .ok (exact || !(filePathsUnderDir db env.sourceRepoId path).isEmpty)

variable (checkout : Checkout env.hashBytes)

def retargetCandidate (db : Db) (canonical : String) : List String → Except String String
  | [] => .ok canonical
  | candidate :: rest =>
    if checkout.pathExists candidate then retargetCandidate db canonical rest
    else do
      if ← graphHasChangeTarget env db candidate then .ok candidate
      else retargetCandidate db canonical rest

def firstSegment (path : String) : String := String.ofList ((path.toList.splitOn '/').headD [])

def resolveExplicitChangePath (db : Db) (raw : String) : Except String String := do
  let resolved ← History.withContext ("invalid explicit update path '" ++ raw ++ "'")
    (checkout.normalizeChangePath raw)
  let canonical := resolved.canonical
  if checkout.pathExists canonical then .ok canonical
  else if resolved.reason = "absolute" then .ok canonical
  else if checkout.isDirectory (firstSegment canonical) then .ok canonical
  else if ← graphHasChangeTarget env db canonical then .ok canonical
  else retargetCandidate env checkout db canonical (checkout.missingChangePathCandidates canonical)

def explicitFileChange (db : Db) (raw : String) : Except String ChangedFile := do
  let path ← resolveExplicitChangePath env checkout db raw
  .ok { path := path
        changeType := if checkout.pathExists path then .modified else .deleted
        oldPath := none }

def detectChanges (target : UpdateTarget) (db : Db) : Except String (List ChangedFile) :=
  match target with
  | .files paths => paths.mapM (explicitFileChange env checkout db)
  | .batch changes => changes.mapM (canonicalizeBatchChange env)
  | .staged => History.withContext "cannot detect changed files" (checkout.changedFiles .staged)
  | .baseRef gitRef => History.withContext "cannot detect changed files" (checkout.changedFiles (.baseRef gitRef))
  | .workingTree =>
    History.withContext "cannot detect changed files" (checkout.changedFiles (match lastIndexedRef db env.repoRoot with
        | some commit => if commit = "" then .workingTree else .baseRef commit
        | none => .workingTree))

structure Plan where
  toDelete : List String := []
  toParse : List String := []
  toRename : List (String × String) := []
  deriving DecidableEq

def isStableRename (owners : String → Option PackageOwner) (db : Db) (old new : String) : Bool :=
  match checkout.hashFile new, fileHashForRepo env.nfc db env.sourceRepoId old with
  | .ok newHash, .ok (some storedHash) =>
    decide (newHash = storedHash ∧ ((fileOwnerIdForRepo env.nfc db env.sourceRepoId
      old).toOption.bind fun owner => owner) = (owners new).map PackageOwner.ownerId)
  | _, _ => false

def planChange (owners : String → Option PackageOwner)
    (db : Db) (plan : Plan) (change : ChangedFile) : Plan :=
  match change.changeType, change.oldPath with
  | .deleted, _ => { plan with toDelete := plan.toDelete ++ [change.path] }
  | .renamed, some old =>
    if isStableRename env checkout owners db old change.path then
      { plan with toRename := plan.toRename ++ [(old, change.path)] }
    else
      { plan with
        toDelete := plan.toDelete ++ [old]
        toParse := plan.toParse ++ [change.path] }
  | _, _ => { plan with toParse := plan.toParse ++ [change.path] }

def planChanges (owners : String → Option PackageOwner) (db : Db) :
    List ChangedFile → BuildBudgetTracker → Plan → BuildBudgetTracker × Plan
  | [], tracker, plan => (tracker, plan)
  | change :: rest, tracker, plan =>
    match tracker.maybeStopForTime with
    | (.degraded, stopped) => (stopped, plan)
    | (_, read) => planChanges owners db rest read (planChange env checkout owners db plan change)

def renameStable (owners : String → Option PackageOwner)
    (rename : String × String) : Run Db Unit := do
  (storeCall (renameFileGraphForRepo env.nfc .faultless env.sourceRepoId rename.1
    rename.2)).withContext ("cannot rename graph '" ++ rename.1 ++ "' -> '" ++ rename.2 ++ "'")
  (upsertFileOwner env rename.2 (owners rename.2)).withContext ("cannot update owner metadata for '" ++ rename.2 ++ "'")

def deletionsOf (db : Db) (path : String) : Except String (List String) := do
  let exact ← liftStore ("cannot inspect graph for '" ++ path ++ "'")
    (fileGraphExistsForRepo env.nfc db env.sourceRepoId path)
  .ok ((if exact then [path] else []) ++ filePathsUnderDir db env.sourceRepoId path)

def existingFileGraphDeletions (db : Db) (paths : List String) : Except String (List String) := do
  let found ← paths.mapM (deletionsOf env db)
  .ok (ascending found.flatten.dedup)

def deleteGraph (path : String) : Run Db Unit :=
  (storeCall (deleteFileGraphForRepo env.nfc .faultless env.sourceRepoId path)).withContext
    ("cannot delete graph for '" ++ path ++ "'")

def deleteStale (dryRun : Bool) (paths : List String) : Run Db Nat := do
  let db ← Run.get
  let existing ← Run.ofExcept (existingFileGraphDeletions env db paths)
  Run.whenNot dryRun (Run.forEach (deleteGraph env) existing)
  pure existing.length

def nodeSignature (node : Node) : String :=
  signature node.kind.asStr node.params node.returnType node.modifiers node.isTest

def changedQnames (oldSignatures : List (String × String)) (nodes : List Node) : List String :=
  (nodes.filter fun node => decide (oldSignatures.lookup node.qualifiedName ≠
    some (nodeSignature node))).map Node.qualifiedName ++
    (oldSignatures.map Prod.fst).filter fun name => decide (name ∉ nodes.map Node.qualifiedName)

def loadSignatures (db : Db) (paths : List String) :
    List (String × List (String × String)) := paths.filterMap fun path =>
    match nodeSignaturesByFileForRepo env.nfc db env.sourceRepoId path with
    | .ok signatures => some (path, signatures)
    | .error _ => none

def dependentPaths (db : Db) (oldSignatures : List (String × List (String × String)))
    (toParse : List String) (parsedChanged : List ParsedFile) : List String :=
  let changed := parsedChanged.flatMap fun file => changedQnames ((oldSignatures.lookup file.path).getD []) file.nodes
  (findDependentsForQnames db env.sourceRepoId changed).filter fun path => decide (path ∉ toParse)

def parsePhase (options : UpdateOptions) (owners : String → Option PackageOwner)
    (statLabel label : String) (paths : List String) (state : Parsing) : Except String Parsing := do
  let candidates := paths.filter fun path => env.registry.supports path
  let accepting ← acceptFiles checkout options.failFast statLabel candidates
    { tracker := state.tracker, parseErrors := state.parseErrors }
  parseBatches options.failFast label (parsePath env checkout owners) (chunks options.batchSize accepting.accepted)
    { state with
      tracker := accepting.tracker
      parsed := []
      parseErrors := accepting.parseErrors
      skippedUnsupported := state.skippedUnsupported + (paths.length - candidates.length) }

def writeParsed (options : UpdateOptions) (owners : String → Option PackageOwner) :
    Nat → List (List ParsedFile) → Written → Run Db Written
  | _, [], written => pure written
  | index, files :: rest, written =>
    if options.dryRun then writeParsed options owners (index + 1) rest (countBatch files written)
    else do
      let next ← writeBatch env owners (options.chunkFails index) files written
      writeParsed options owners (index + 1) rest next

def reconcile (dryRun : Bool) (resolvedPaths : List String) : Run Db Nat :=
  if resolvedPaths = [] ∨ dryRun = true then pure 0
  else do
    let outcome ← Run.attempt (env.reconcileCallTargets checkout resolvedPaths)
    pure (match outcome with
      | .ok _ => 0
      | .error _ => 1)

def recordRef (dryRun isDegraded : Bool) : Run Db Unit :=
  match checkout.head with
  | none => pure ()
  | some head =>
    if dryRun || isDegraded then pure ()
    else .modify (setLastIndexedRef env.repoRoot env.sourceRepoId head)

def updateGraph (options : UpdateOptions) : Run Db UpdateSummary := do
  let owners ← Run.ofExcept (History.withContext "cannot discover package owners" checkout.owners)
  let before ← Run.get
  let changes ← Run.ofExcept (detectChanges env checkout options.target before)
  let discovered := ({ limits := options.budget, clock := options.clock } :
    BuildBudgetTracker).setFilesDiscovered changes.length
  let (tracker, plan) := planChanges env checkout owners before changes discovered {}
  Run.whenNot options.dryRun (Run.forEach (renameStable env owners) plan.toRename)
  let moved ← Run.get
  let oldSignatures := loadSignatures env moved plan.toParse
  let deleted ← deleteStale env options.dryRun plan.toDelete
  let changed ← Run.ofExcept (parsePhase env checkout options owners "stat" "processing" plan.toParse
    { tracker := tracker })
  let cleared ← Run.get
  let dependents ← Run.ofExcept (parsePhase env checkout options owners "stat dependent"
    "processing dependent" (dependentPaths env cleared oldSignatures plan.toParse changed.parsed)
    changed)
  let allParsed := changed.parsed ++ dependents.parsed
  let written ← writeParsed env options owners 0 (chunks options.batchSize allParsed) {}
  Run.whenNot options.dryRun ((env.refreshOwnerGraphs checkout).withContext "cannot refresh package/workspace nodes")
  let reconcileFailures ← reconcile env checkout options.dryRun (allParsed.map ParsedFile.path)
  let finished := dependents.tracker.finish
  let summary : UpdateSummary :=
    { deleted := deleted
      renamed := plan.toRename.length
      parsed := allParsed.length
      skippedUnsupported := dependents.skippedUnsupported
      parseErrors := dependents.parseErrors
      chunkUpsertFailures := written.chunkUpsertFailures
      callTargetReconcileFailures := reconcileFailures
      nodesUpdated := written.nodes
      edgesUpdated := written.edges
      budgetCounters := finished.1
      budget := finished.2 }
  recordRef env checkout options.dryRun summary.isDegraded
  pure summary

end
end Atlas.Engine
