import Atlas.Refactor.Patch
import Atlas.Store.Mutation

/-! Applying a refactor plan: every touched file is read, edited and validated, then all
of them are written, then the graph is refreshed. Files are visited in the order of two
hash maps, which is a parameter, and so are the failures of the file system and of the
database. -/
namespace Atlas.Refactor
open Core Sql Store
open Program (HashOrder)

inductive RefactorOperation where
  | renameSymbol (oldQname newName : String)
  | removeDeadCode (targetQname : String)
  | cleanImports (filePath : String)
  | extractFunctionCandidate (filePath : String) (lineStart lineEnd : Nat)

structure RefactorPlan where
  operation : RefactorOperation
  edits : List RefactorEdit
  manualReview : List String

structure RefactorValidationResult where
  valid : Bool
  (errors warnings manualReview : List String)

def RefactorValidationResult.fail (validation : RefactorValidationResult) (msg : String) :
    RefactorValidationResult :=
  { validation with valid := false, errors := validation.errors ++ [msg] }

def RefactorValidationResult.warn (validation : RefactorValidationResult) (msg : String) :
    RefactorValidationResult :=
  { validation with warnings := validation.warnings ++ [msg] }

structure RefactorPatch where
  filePath : String
  unifiedDiff : Text

structure RefactorDryRunResult where
  plan : RefactorPlan
  patches : List RefactorPatch
  validation : RefactorValidationResult
  (filesChanged editCount : Nat)
  dryRun : Bool

def AtlasError.toString : AtlasError → String
  | .db msg => "database error: " ++ msg
  | .other msg => msg

structure Rewrite where
  path : String
  (old new : Text)
  deriving DecidableEq

def defaultMaxFileBytes : Nat := 10 * 1024 * 1024
def byteLength (text : Text) : Nat := (text.map Char.utf8Size).sum

/-- The language handler of a path. A handler gets the path, the hash and the source; the
tree it returns matters only by whether its root has an error. -/
abbrev ParserRegistry := String → Option (String → Text → ParsedFile × Option Bool)

def ParserRegistry.supports (registry : ParserRegistry) (path : String) : Bool :=
  (registry path).isSome

def ParserRegistry.parse (registry : ParserRegistry) (path hash : String) (source : Text) :
    Option (ParsedFile × Option Bool) :=
  if byteLength source > defaultMaxFileBytes then none
  else (registry path).map fun handler => handler hash source

structure Machine (File : Type) where
  repoRoot : String
  /-- `stable_repo_id` of the root; a root that is not UTF-8 has none. -/
  sourceRepoId : Option String
  /-- The file that a path of the plan denotes below the root. -/
  locate : String → File
  registry : ParserRegistry
  sha256 : Text → String
  nfc : String → String
  editOrder : HashOrder (String × List RefactorEdit)
  contentOrder : HashOrder Rewrite
  (readFault writeFault restoreFault : String → Option String)
  refreshFaults : FaultPlan

structure World (File : Type) where
  disk : File → Option Text
  store : Connection Db

section
variable {File : Type} [DecidableEq File] (machine : Machine File)

variable (plan : RefactorPlan) (contents : List Rewrite)
  (path : String) (validation : RefactorValidationResult) (disk : File → Option Text)

def Machine.absolute : String :=
  if startsWith path "/" then path
  else if endsWith machine.repoRoot "/" then machine.repoRoot ++ path
  else machine.repoRoot ++ "/" ++ path

def readFileContent (path : String) : Except AtlasError Text :=
  let failed := fun reason : String =>
    AtlasError.other ("cannot read \x60" ++ machine.absolute path ++ "\x60: " ++ reason)
  match machine.readFault path with
  | some reason => .error (failed reason)
  | none =>
    match disk (machine.locate path) with
    | none => .error (failed "No such file or directory (os error 2)")
    | some content => .ok content

def writeFile (fault : Option String) (path : String) (content : Text) (disk : File → Option Text) :
    Except String Unit × (File → Option Text) :=
  match fault with
  | some reason => (.error reason, disk)
  | none => (.ok (), Function.update disk (machine.locate path) (some content))

def parseFileContent (content : Text) (validation : RefactorValidationResult) :
    Option (ParsedFile × Option Bool) × RefactorValidationResult :=
  if !machine.registry.supports path then (none, validation)
  else if content = [] then
    (none, validation.warn ("skipping parser revalidation for empty file \x60" ++ path ++ "\x60"))
  else (machine.registry.parse path (machine.sha256 content) content, validation)

def groupByFile : List RefactorEdit → List (String × List RefactorEdit)
  | [] => []
  | edit :: rest =>
    (edit.filePath, edit :: rest.filter fun other => decide (other.filePath = edit.filePath)) ::
      (groupByFile rest).filter fun group => decide (group.1 ≠ edit.filePath)

def normalizePostEditContent (content : Text) : Text :=
  match plan.operation with
  | .cleanImports _ => normalizeImportBlockLayout path content
  | .removeDeadCode _ => normalizeImportBlockLayout path content
  | _ => content

structure Preparation where
  patches : List RefactorPatch := []
  newContents : List Rewrite := []
  validation : RefactorValidationResult

def prepareFile (prepared : Preparation) (group : String × List RefactorEdit) :
    Option Preparation :=
  match readFileContent machine disk group.1 with
  | .error error =>
    some { prepared with
      validation := prepared.validation.fail
        ("cannot read \x60" ++ group.1 ++ "\x60: " ++ AtlasError.toString error) }
  | .ok old =>
    match applyEdits old (sortReverse group.2) with
    | .error .panicked => none
    | .error (.refused error) =>
      some { prepared with
        validation := prepared.validation.fail
          ("apply failed for \x60" ++ group.1 ++ "\x60: " ++ AtlasError.toString error) }
    | .ok edited =>
      let new := normalizePostEditContent plan group.1 edited
      let diff := unifiedDiffAnnotated group.1 old new
      some { prepared with
        patches := if diff = [] then prepared.patches
          else prepared.patches ++ [⟨group.1, diff⟩]
        newContents := prepared.newContents ++ [⟨group.1, old, new⟩] }

def prepare : Option Preparation :=
  (machine.editOrder.arrange (groupByFile plan.edits)).foldlM (prepareFile machine plan disk)
    { validation :=
        { valid := true, errors := [], warnings := [], manualReview := plan.manualReview } }

def revalidateFile (rewrite : Rewrite) : RefactorValidationResult :=
  match parseFileContent machine rewrite.path rewrite.new validation with
  | (some (_, some true), validation) =>
    validation.fail ("parser revalidation failed for \x60" ++ rewrite.path ++ "\x60: syntax errors detected after refactor")
  | (_, validation) => validation

def revalidateParsedFiles (contents : List Rewrite) : RefactorValidationResult :=
  (machine.contentOrder.arrange contents).foldl (revalidateFile machine) validation

structure Writing (File : Type) where
  disk : File → Option Text
  written : List String
  /-- Set by the write that failed, which ends the loop. -/
  failed : Option String

def writeContents : List Rewrite → Writing File → Writing File
  | [], writing => writing
  | rewrite :: rest, writing =>
    match writeFile machine (machine.writeFault rewrite.path) rewrite.path rewrite.new
        writing.disk with
    | (.error reason, disk) =>
      { writing with
        disk
        failed := some ("write failed \x60" ++ machine.absolute rewrite.path ++ "\x60: " ++
          reason) }
    | (.ok (), disk) => writeContents rest { writing with disk, written := writing.written ++ [rewrite.path] }

def rollbackWrittenFiles (written : List String) (contents : List Rewrite)
    (disk : File → Option Text) : File → Option Text := written.foldl (fun disk path =>
      match contents.find? fun rewrite => decide (rewrite.path = path) with
      | none => disk
      | some rewrite =>
        (writeFile machine (machine.restoreFault path) path rewrite.old disk).2)
    disk

def parsedContents : List ParsedFile :=
  (machine.contentOrder.arrange contents).filterMap fun rewrite =>
    (parseFileContent machine rewrite.path rewrite.new
      { valid := true, errors := [], warnings := [], manualReview := [] }).1.map (·.1)

def refreshGraphSlices (store : Connection Db) : Except AtlasError Unit × Connection Db :=
  match parsedContents machine contents with
  | [] => (.ok (), store)
  | parsedFiles =>
    match machine.sourceRepoId with
    | none => (.error (.other "refactor repo root is not valid UTF-8"), store)
    | some repo =>
      match replaceFilesTransactionalForRepo machine.nfc machine.refreshFaults repo parsedFiles
          store with
      | (.error error, store) => (.error error, store)
      | (.ok _, store) => (.ok (), store)

def commitContents (world : World File) : RefactorValidationResult × World File :=
  let writing := writeContents machine (machine.contentOrder.arrange contents)
    { disk := world.disk, written := [], failed := none }
  match writing.failed with
  | some msg =>
    (validation.fail msg,
      { world with disk := rollbackWrittenFiles machine writing.written contents writing.disk })
  | none =>
    match refreshGraphSlices machine contents world.store with
    | (.ok (), store) => (validation, { disk := writing.disk, store })
    | (.error error, store) =>
      (validation.fail ("graph refresh failed: " ++ AtlasError.toString error),
        { disk := rollbackWrittenFiles machine writing.written contents writing.disk, store })

/-- The result is `none` when an edit makes the call panic; nothing is written before. -/
def applyPlanInternal (dryRun : Bool) (validate : RefactorValidationResult → List Rewrite →
    RefactorValidationResult) (world : World File) : Option (RefactorDryRunResult × World File) :=
  (prepare machine plan world.disk).map fun prepared =>
    let validation := validate
      (revalidateParsedFiles machine prepared.validation prepared.newContents)
      prepared.newContents
    let (validation, world) :=
      if !dryRun && validation.valid then
        commitContents machine prepared.newContents validation world
      else (validation, world)
    ({ plan
       patches := prepared.patches
       validation
       filesChanged := prepared.patches.length
       editCount := plan.edits.length
       dryRun }, world)

end
end Atlas.Refactor
