import Atlas.Engine.Update

/-! The full build: clearing the stored graphs, scanning, parsing and writing. -/
namespace Atlas.Engine
open Core Program Store

theorem batchSize_pos : 0 < 64 := by decide

structure BuildOptions where
  failFast : Bool := false
  dryRun : Bool := false
  batchSize : Nat := 64
  budget : BuildRunBudget := {}
  clock : Nat → Nat := fun _ => 0
  chunkFails : Nat → Option String := fun _ => none
  batchPositive : 0 < batchSize := by first | exact batchSize_pos | decide

structure BuildSummary where
  (scanned skippedUnsupported skippedUnchanged parsed parseErrors chunkUpsertFailures : Nat)
  (callTargetReconcileFailures nodesInserted edgesInserted : Nat)
  budgetCounters : BuildUpdateBudgetCounters
  budget : BudgetReport

def BuildSummary.isDegraded (summary : BuildSummary) : Bool := summary.budget.isPartial ||
    decide (summary.chunkUpsertFailures > 0) || decide (summary.callTargetReconcileFailures > 0)

section
variable (env : Env) (checkout : Checkout env.hashBytes) (options : BuildOptions)

def clearGraphs : Run Db Unit := do
  let db ← Run.get
  Run.forEach (fun path =>
    (storeCall (deleteFileGraphForRepo env.nfc .faultless env.sourceRepoId path)).withContext
      ("cannot clear stale graph for '" ++ path ++ "'")) (filePaths db env.sourceRepoId)

structure Selecting where
  tracker : BuildBudgetTracker
  skippedUnchanged : Nat := 0
  parseErrors : Nat := 0
  candidates : List (String × String) := []

def selectFiles (storedHashes : List (String × String)) :
    List String → Selecting → Except String Selecting
  | [], state => .ok state
  | path :: rest, state =>
    match state.tracker.maybeStopForTime with
    | (.degraded, stopped) => .ok { state with tracker := stopped }
    | (_, read) =>
      match checkout.stat path with
      | .error msg =>
        if options.failFast then
          .error ("stat '" ++ path ++ "' failed (--fail-fast): " ++ msg)
        else
          selectFiles storedHashes rest
            { state with tracker := read, parseErrors := state.parseErrors + 1 }
      | .ok fileBytes =>
        match read.tryAcceptFile fileBytes with
        | (.proceed, accepted) =>
          match checkout.hashFile path with
          | .error msg =>
            if options.failFast then
              .error ("hashing '" ++ path ++ "' failed (--fail-fast): " ++ msg)
            else
              selectFiles storedHashes rest
                { state with tracker := accepted, parseErrors := state.parseErrors + 1 }
          | .ok hash =>
            if storedHashes.lookup path = some hash then
              selectFiles storedHashes rest
                { state with
                  tracker := accepted
                  skippedUnchanged := state.skippedUnchanged + 1 }
            else
              selectFiles storedHashes rest
                { state with
                  tracker := accepted
                  candidates := state.candidates ++ [(path, hash)] }
        | (_, stopped) => .ok { state with tracker := stopped }

structure Building where
  parsing : Parsing
  written : Written := {}
  resolvedPaths : List String := []

def writeParsedBatch (owners : String → Option PackageOwner)
    (index : Nat) (files : List ParsedFile) (written : Written) : Run Db Written :=
  if options.dryRun then pure (countBatch files written)
  else if files = [] then pure written
  else writeBatch env owners (options.chunkFails index) files written

def buildBatches (owners : String → Option PackageOwner) :
    Nat → List (List (String × String)) → Building → Run Db Building
  | _, [], state => pure state
  | index, batch :: rest, state =>
    match state.parsing.tracker.maybeStopForTime with
    | (.degraded, stopped) => pure { state with parsing := { state.parsing with tracker := stopped } }
    | (_, read) => do
        let results := batch.map fun candidate =>
          (candidate.1, parseHashed env checkout owners candidate.1 candidate.2)
        let parsing ← Run.ofExcept (collectResults options.failFast "parsing" results
          { state.parsing with tracker := read, parsed := [] })
        let written ← writeParsedBatch env options owners index parsing.parsed state.written
        let next : Building :=
          { parsing := parsing
            written := written
            resolvedPaths := state.resolvedPaths ++ parsing.parsed.map ParsedFile.path }
        if parsing.budgetBlocked then pure next else buildBatches owners (index + 1) rest next

def buildGraph : Run Db BuildSummary := do
  Run.whenNot options.dryRun (clearGraphs env)
  let owners ← Run.ofExcept (History.withContext "cannot discover package owners" checkout.owners)
  let db ← Run.get
  let scan ← Run.ofExcept (History.withContext "cannot collect tracked files"
    (checkout.collectSupportedFiles env.registry options.budget.maxFileBytes))
  let discovered := (({ limits := options.budget, clock := options.clock } :
    BuildBudgetTracker).setFilesDiscovered scan.files.length).noteScannedFileByteSkips scan.skippedBySize
  let selected ← Run.ofExcept (selectFiles env checkout options (fileHashes db env.sourceRepoId)
    scan.files { tracker := discovered })
  let built ← buildBatches env checkout options owners 0
    (chunks options.batchSize selected.candidates)
    { parsing :=
        { tracker := selected.tracker
          parseErrors := selected.parseErrors
          skippedUnsupported := scan.skippedUnsupported } }
  Run.whenNot options.dryRun ((env.refreshOwnerGraphs checkout).withContext "cannot refresh package/workspace nodes")
  let reconcileFailures ← reconcile env checkout options.dryRun built.resolvedPaths
  let finished := built.parsing.tracker.finish
  let summary : BuildSummary :=
    { scanned := scan.files.length + scan.skippedUnsupported + scan.skippedBySize
      skippedUnsupported := built.parsing.skippedUnsupported
      skippedUnchanged := selected.skippedUnchanged
      parsed := built.resolvedPaths.length
      parseErrors := built.parsing.parseErrors
      chunkUpsertFailures := built.written.chunkUpsertFailures
      callTargetReconcileFailures := reconcileFailures
      nodesInserted := built.written.nodes
      edgesInserted := built.written.edges
      budgetCounters := finished.1
      budget := finished.2 }
  recordRef env checkout options.dryRun summary.isDegraded
  pure summary

end
end Atlas.Engine
