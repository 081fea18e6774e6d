import Atlas.History.Build
import Atlas.Program.Run
import Atlas.Store.Queries

/-! The working tree and the repository as one call finds them, and the scan for
supported files. -/
namespace Atlas.Engine
open Core Program Store
open History (Bytes ParserRegistry isBinaryBytes)

inductive DiffTarget where
  | baseRef (gitRef : String)
  | staged
  | workingTree

structure NormalizedRepoPath where
  (canonical reason : String)

def isBelow (dir path : String) : Bool := startsWith path (dir ++ "/")

/-- `git ls-files`, `stat`, `hash_file` and `read` may fail, and tell the truth where
they answer. -/
structure Checkout (hashBytes : Bytes → String) where
  tracked : List String
  lsFiles : Except String (List String)
  content : String → Option Bytes
  (isDirectory ignored isRegular : String → Bool)
  stat : String → Except String Nat
  hashFile : String → Except String String
  readFile : String → Except String Bytes
  owners : Except String (String → Option PackageOwner)
  head : Option String
  changedFiles : DiffTarget → Except String (List ChangedFile)
  normalizeChangePath : String → Except String NormalizedRepoPath
  missingChangePathCandidates : String → List String
  lsFiles_eq : ∀ paths, lsFiles = .ok paths → paths = tracked
  stat_eq : ∀ path size bytes, stat path = .ok size → content path = some bytes → size = bytes.length
  hashFile_eq : ∀ path hash, hashFile path = .ok hash → (content path).map hashBytes = some hash
  readFile_eq : ∀ path bytes, readFile path = .ok bytes → content path = some bytes
  directories : ∀ dir path, isBelow dir path = true → (content path).isSome = true → isDirectory dir = true ∧ content dir = none
  head_nonempty : head ≠ some ""

/-- What stays the same from call to call. Refreshing the package-owner nodes and
resolving call targets are programs over the store of their own. -/
structure Env where
  nfc : String → String
  hashBytes : Bytes → String
  registry : ParserRegistry
  (repoRoot sourceRepoId repoFingerprint : String)
  namespaceQualifiedNames : Bool := false
  refreshOwnerGraphs : Checkout hashBytes → Run Db Unit
  reconcileCallTargets : Checkout hashBytes → List String → Run Db Unit

section
variable {hashBytes : Bytes → String}

variable (checkout : Checkout hashBytes)

def Checkout.pathExists (path : String) : Bool :=
  (checkout.content path).isSome || checkout.isDirectory path

inductive CheckFileOutcome where
  | accept | skipBySize | skipOther | disappeared
  deriving DecidableEq

def Checkout.checkFile (path : String) (maxBytes : Nat) : CheckFileOutcome :=
  match checkout.content path with
  | none => .disappeared
  | some bytes =>
    if checkout.isRegular path = false then .skipOther
    else if bytes.length > maxBytes then .skipBySize
    else if isBinaryBytes bytes then .skipOther
    else .accept

structure Scan where
  files : List String := []
  skippedUnsupported : Nat := 0
  skippedBySize : Nat := 0

def Checkout.scanFile (registry : ParserRegistry)
    (maxBytes : Nat) (scan : Scan) (path : String) : Scan :=
  if checkout.ignored path then scan
  else if registry.supports path = false then
    { scan with skippedUnsupported := scan.skippedUnsupported + 1 }
  else
    match checkout.checkFile path maxBytes with
    | .accept => { scan with files := scan.files ++ [path] }
    | .skipBySize => { scan with skippedBySize := scan.skippedBySize + 1 }
    | .skipOther => scan
    | .disappeared => scan

def Checkout.collectSupportedFiles (registry : ParserRegistry)
    (maxBytes : Nat) : Except String Scan :=
  checkout.lsFiles.map fun paths => paths.foldl (checkout.scanFile registry maxBytes) {}

end

/-! Annotation of parsed files, the same for builds and updates. -/

def namespaceQname (repoId qname : String) : String :=
  if startsWith qname "repo::" then qname else "repo::" ++ repoId ++ "::" ++ qname

def insertFields (fields : List (String × Json)) (extraJson : Json) : Json := .obj (fields.foldl
    (fun current field => Json.insertField field.1 field.2 current) extraJson.fieldsOrDefault)

def repoProvenance (env : Env) : RepoProvenance where
  repoId := env.sourceRepoId
  repoFingerprint := some env.repoFingerprint
  repoRoot := some env.repoRoot

def repoFields (env : Env) : List (String × Json) := [("repo_id", .str env.sourceRepoId),
    ("repo_root", .str env.repoRoot), ("repo_provenance", (repoProvenance env).toJson)]

def namespaceFile (repoId : String) (file : ParsedFile) : ParsedFile :=
  { file with
    nodes := file.nodes.map fun node =>
      { node with
        qualifiedName := namespaceQname repoId node.qualifiedName
        parentName := node.parentName.map (namespaceQname repoId) }
    edges := file.edges.map fun edge =>
      { edge with
        sourceQn := namespaceQname repoId edge.sourceQn
        targetQn := namespaceQname repoId edge.targetQn } }

def annotateParsedFileRepo (env : Env) (file : ParsedFile) : ParsedFile :=
  let named := if env.namespaceQualifiedNames then namespaceFile env.sourceRepoId file else file
  { named with
    nodes := named.nodes.map fun node =>
      { node with
        extraJson := insertFields (repoFields env) node.extraJson
        repoProvenance := some (repoProvenance env) }
    edges := named.edges.map fun edge =>
      { edge with
        extraJson := insertFields (repoFields env) edge.extraJson
        repoProvenance := some (repoProvenance env) } }

def ownerFields (owner : PackageOwner) : List (String × Json) :=
  [("owner_id", .str owner.ownerId), ("owner_kind", .str owner.kind.asStr),
   ("owner_root", .str owner.root), ("owner_manifest_path", .str owner.manifestPath)] ++
    match owner.packageName with
    | some packageName => [("owner_name", .str packageName)]
    | none => []

def annotateParsedFileOwner (owner : Option PackageOwner) (file : ParsedFile) : ParsedFile :=
  match owner with
  | none => file
  | some owner =>
    { file with
      nodes := file.nodes.map fun node =>
        { node with extraJson := insertFields (ownerFields owner) node.extraJson } }

def annotate (env : Env) (owner : Option PackageOwner) (file : ParsedFile) : ParsedFile :=
  annotateParsedFileRepo env (annotateParsedFileOwner owner file)

end Atlas.Engine
