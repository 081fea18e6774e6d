import Atlas.Engine.Budget
import Atlas.Engine.Checkout

/-! Accepting files within the budget, parsing them in batches and writing the parsed
files. Parsing runs in parallel in the source, but results are taken in order. -/
namespace Atlas.Engine
open List Core Program Store

def chunksWithin {Item : Type} (size : Nat) : Nat → List Item → List (List Item)
  | 0, _ => []
  | _ + 1, [] => []
  | fuel + 1, item :: rest => (item :: rest).take size :: chunksWithin size fuel ((item :: rest).drop size)

def chunks {Item : Type} (size : Nat) (items : List Item) : List (List Item) :=
  chunksWithin size items.length items

theorem flatten_chunksWithin {Item : Type}
    {size : Nat} (pos : 0 < size) (fuel : Nat) (items : List Item) (enough : items.length ≤ fuel) :
    (chunksWithin size fuel items).flatten = items := by
  induction fuel generalizing items with
  | zero =>
    cases items with
    | nil => rfl
    | cons item rest => cases enough
  | succ fuel ih =>
    cases items with
    | nil => rfl
    | cons item rest =>
      have shorter : ((item :: rest).drop size).length ≤ fuel := by
        rw [length_drop]
        simp only [length_cons] at enough ⊢
        omega
      rw [chunksWithin, flatten_cons, ih _ shorter, take_append_drop]

theorem flatten_chunks {Item : Type} {size : Nat} (pos : 0 < size) (items : List Item) :
    (chunks size items).flatten = items := flatten_chunksWithin pos items.length items le_rfl

structure Accepting where
  tracker : BuildBudgetTracker
  parseErrors : Nat
  accepted : List String := []

def acceptFiles {hashBytes : History.Bytes → String} (checkout : Checkout hashBytes)
    (failFast : Bool) (label : String) : List String → Accepting → Except String Accepting
  | [], state => .ok state
  | path :: rest, state =>
    match checkout.stat path with
    | .error msg =>
      if failFast then
        .error (label ++ " '" ++ path ++ "' failed (--fail-fast): " ++ msg)
      else
        acceptFiles checkout failFast label rest
          { state with parseErrors := state.parseErrors + 1 }
    | .ok fileBytes =>
      if fileBytes > state.tracker.limits.maxFileBytes then
        acceptFiles checkout failFast label rest
          { state with tracker := state.tracker.noteSkippedByFileBytes fileBytes }
      else
        match state.tracker.tryAcceptFile fileBytes with
        | (.proceed, tracker) =>
          acceptFiles checkout failFast label rest
            { state with tracker := tracker, accepted := state.accepted ++ [path] }
        | (_, tracker) => .ok { state with tracker := tracker }

inductive ParseOutcome where
  | parsed (file : ParsedFile)
  | unsupported
  | failed (message : String)

structure Parsing where
  tracker : BuildBudgetTracker
  parsed : List ParsedFile := []
  parseErrors : Nat := 0
  skippedUnsupported : Nat := 0
  attemptedFiles : Nat := 0
  budgetBlocked : Bool := false

def parseHashed (env : Env) (checkout : Checkout env.hashBytes)
    (owners : String → Option PackageOwner) (path hash : String) : ParseOutcome :=
  match checkout.readFile path with
  | .error msg => .failed ("read error: " ++ msg)
  | .ok source =>
    match env.registry.parse path hash source with
    | none => .unsupported
    | some file => .parsed (annotate env (owners path) file)

def parsePath (env : Env) (checkout : Checkout env.hashBytes)
    (owners : String → Option PackageOwner) (path : String) : ParseOutcome :=
  match checkout.hashFile path with
  | .error msg => .failed ("hash error: " ++ msg)
  | .ok hash => parseHashed env checkout owners path hash

def collectOutcome (failFast : Bool)
    (label path : String) (outcome : ParseOutcome) (state : Parsing) : Except String Parsing :=
  let counted := { state with attemptedFiles := state.attemptedFiles + 1 }
  match outcome with
  | .parsed file => .ok { counted with parsed := state.parsed ++ [file] }
  | .unsupported => .ok { counted with skippedUnsupported := state.skippedUnsupported + 1 }
  | .failed msg =>
    let noted := state.tracker.noteParseFailure counted.attemptedFiles
    if failFast then .error (label ++ " '" ++ path ++ "' failed: " ++ msg ++ " (--fail-fast)")
    else
      .ok { counted with
        tracker := noted.2
        parseErrors := state.parseErrors + 1
        budgetBlocked := state.budgetBlocked || decide (noted.1 = .blocked) }

def collectResults (failFast : Bool) (label : String) :
    List (String × ParseOutcome) → Parsing → Except String Parsing
  | [], state => .ok state
  | (path, outcome) :: rest, state =>
    match collectOutcome failFast label path outcome state with
    | .error msg => .error msg
    | .ok next => if next.budgetBlocked then .ok next else collectResults failFast label rest next

def parseBatches (failFast : Bool) (label : String) (parse : String → ParseOutcome) :
    List (List String) → Parsing → Except String Parsing
  | [], state => .ok state
  | batch :: rest, state =>
    match state.tracker.maybeStopForTime with
    | (.degraded, tracker) => .ok { state with tracker := tracker }
    | (_, tracker) =>
      match collectResults failFast label (batch.map fun path => (path, parse path))
          { state with tracker := tracker } with
      | .error msg => .error msg
      | .ok next => if next.budgetBlocked then .ok next else parseBatches failFast label parse rest next

def AtlasError.message : AtlasError → String
  | .db msg => "database error: " ++ msg
  | .other msg => msg

def storeCall {Value : Type} (call : Sql.Connection Db →
    Except AtlasError Value × Sql.Connection Db) : Run Db Value := fun db =>
    match call ⟨db, none⟩ with
    | (.ok value, conn) => (.ok value, conn.committed)
    | (.error error, conn) => (.error (AtlasError.message error), conn.committed)

def upsertFileOwner (env : Env) (path : String) (owner : Option PackageOwner) : Run Db Unit :=
  match canonicalizeRepoPath env.nfc path with
  | .error error => .ofExcept (.error (AtlasError.message error))
  | .ok canonical => .modify (upsertFileOwnerForRepo env.sourceRepoId canonical owner)

structure Written where
  nodes : Nat := 0
  edges : Nat := 0
  chunkUpsertFailures : Nat := 0

def writeBatch (env : Env) (owners : String → Option PackageOwner) (chunkFails : Option String)
    (files : List ParsedFile) (written : Written) : Run Db Written := do
  let counts ← (storeCall (replaceFilesTransactionalForRepo env.nfc .faultless env.sourceRepoId
    files)).withContext "cannot store parsed files"
  Run.forEach (fun file => (upsertFileOwner env file.path (owners file.path)).withContext
    ("cannot store owner metadata for " ++ file.path)) files
  let upserted ← Run.attempt (match chunkFails with
    | some msg => .ofExcept (.error msg)
    | none => storeCall (replaceChunksForParsedFiles .faultless env.sourceRepoId files))
  pure { nodes := written.nodes + counts.1
         edges := written.edges + counts.2
         chunkUpsertFailures := written.chunkUpsertFailures +
          (match upserted with
            | .ok _ => 0
            | .error _ => 1) }

def countBatch (files : List ParsedFile) (written : Written) : Written :=
  { written with
    nodes := written.nodes + (files.map fun file => file.nodes.length).sum
    edges := written.edges + (files.map fun file => file.edges.length).sum }

end Atlas.Engine
