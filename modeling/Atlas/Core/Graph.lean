import Atlas.Core.Json

/-! Graph entities as the parser produces them and the store persists them. -/
namespace Atlas.Core

inductive NodeKind where
  | file | package | module | «import» | «class» | interface | struct | enum
  | function | method | variable | constant | trait | test
  deriving DecidableEq, Repr

namespace NodeKind

def asStr : NodeKind → String
  | .file => "file"
  | .package => "package"
  | .module => "module"
  | .import => "import"
  | .class => "class"
  | .interface => "interface"
  | .struct => "struct"
  | .enum => "enum"
  | .function => "function"
  | .method => "method"
  | .variable => "variable"
  | .constant => "constant"
  | .trait => "trait"
  | .test => "test"

def fromStr? (text : String) : Option NodeKind :=
  if text = "file" then some .file
  else if text = "package" then some .package
  else if text = "module" then some .module
  else if text = "import" then some .import
  else if text = "class" then some .class
  else if text = "interface" then some .interface
  else if text = "struct" then some .struct
  else if text = "enum" then some .enum
  else if text = "function" then some .function
  else if text = "method" then some .method
  else if text = "variable" then some .variable
  else if text = "constant" then some .constant
  else if text = "trait" then some .trait
  else if text = "test" then some .test
  else none

@[simp] theorem fromStr?_asStr (kind : NodeKind) : fromStr? kind.asStr = some kind := by
  cases kind <;> decide

end NodeKind

inductive EdgeKind where
  | contains | imports | calls | defines | implements | extends | tests | references | testedBy
  deriving DecidableEq, Repr

def EdgeKind.asStr : EdgeKind → String
  | .contains => "contains"
  | .imports => "imports"
  | .calls => "calls"
  | .defines => "defines"
  | .implements => "implements"
  | .extends => "extends"
  | .tests => "tests"
  | .references => "references"
  | .testedBy => "tested_by"

structure RepoProvenance where
  repoId : String
  repoFingerprint : Option String := none
  repoRoot : Option String := none
  remoteUrl : Option String := none
  deriving DecidableEq

namespace RepoProvenance

private def optionalField (key : String) (value : Option String) : List (String × Json) :=
  match value with
  | none => []
  | some text => [(key, .str text)]

/-- `serde_json::to_value`: absent fields are skipped, keys are sorted. -/
def toJson (provenance : RepoProvenance) : Json := .obj (optionalField "remote_url"
    provenance.remoteUrl ++ optionalField "repo_fingerprint" provenance.repoFingerprint ++
    [("repo_id", .str provenance.repoId)] ++
    optionalField "repo_root" provenance.repoRoot)

end RepoProvenance

/-- One symbol of the graph. `id` is `0` until the store assigns a row id. -/
structure Node where
  id : Nat := 0
  kind : NodeKind
  (name qualifiedName filePath : String)
  (lineStart lineEnd : Nat)
  language : String
  parentName : Option String := none
  params : Option String := none
  returnType : Option String := none
  modifiers : Option String := none
  isTest : Bool := false
  fileHash : String
  extraJson : Json := .null
  repoProvenance : Option RepoProvenance := none
  deriving DecidableEq

private def nonEmpty : Option String → Option String
  | some text => if text = "" then none else some text
  | none => none

/-- Text indexed for retrieval:
`{kind} {name}[({params})][ -> {return_type}]  [{qualified_name}]`. -/
def Node.chunkText (node : Node) : String :=
  node.kind.asStr ++ " " ++ node.name ++ (match nonEmpty node.params with
      | some params => "(" ++ params ++ ")"
      | none => "") ++
    (match nonEmpty node.returnType with
      | some returnType => " -> " ++ returnType
      | none => "") ++
    "  [" ++ node.qualifiedName ++ "]"

/-- One dependency of the graph. The `f32` confidence is carried by its bits. -/
structure Edge where
  id : Nat := 0
  kind : EdgeKind
  (sourceQn targetQn filePath : String)
  line : Option Nat := none
  confidence : UInt32 := 0x3f800000
  confidenceTier : Option String := none
  extraJson : Json := .null
  repoProvenance : Option RepoProvenance := none
  deriving DecidableEq

structure ParsedFile where
  path : String
  language : Option String := none
  hash : String
  size : Option Nat := none
  nodes : List Node
  edges : List Edge
  deriving DecidableEq

inductive PackageOwnerKind where
  | cargo | npm | go

def PackageOwnerKind.asStr : PackageOwnerKind → String
  | .cargo => "cargo"
  | .npm => "npm"
  | .go => "go"

structure PackageOwner where
  ownerId : String
  kind : PackageOwnerKind
  (root manifestPath : String)
  packageName : Option String

inductive ChangeType where
  | added | modified | deleted | renamed | copied
  deriving DecidableEq

structure ChangedFile where
  path : String
  changeType : ChangeType
  oldPath : Option String := none
  deriving DecidableEq

end Atlas.Core
