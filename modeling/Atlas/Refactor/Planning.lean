import Atlas.Refactor.Engine
import Atlas.Search.Store
import Atlas.Store.Queries
import Atlas.Text.Find

/-! What the planners of refactorings share: the name of the symbol, the lookups in the store,
the lines of the files, and the order of the planned edits. -/
namespace Atlas.Refactor
open Core Store
open Text (cut lines)

inductive SafetyBand where
  | safe
  | caution
  | risky

structure EstimatedPlan extends RefactorPlan where
  affectedFiles : List String
  estimatedSafety : SafetyBand

def edgeQueryLimit : Nat := 500

def canonicalKind (token : Text) : Text :=
  let lower := token.map Char.toLower
  if lower = "function".toList ∨ lower = "func".toList then "fn".toList
  else if lower = "meth".toList then "method".toList
  else if lower = "constant".toList then "const".toList
  else lower

/-- The part between the first two double colons gets its canonical spelling. -/
def normalizeQnKindTokens (qname : String) : String :=
  match cut [':', ':'] qname.toList with
  | none => qname
  | some (filePart, rest) =>
    match cut [':', ':'] rest with
    | none => qname
    | some (kindToken, symbol) =>
      if canonicalKind kindToken = kindToken then qname
      else String.ofList (filePart ++ [':', ':'] ++ canonicalKind kindToken ++ [':', ':'] ++ symbol)

def inboundEdges : Db → String → Nat → List (Node × Edge) := directedEdges .inbound false
def inboundRows (db : Db) (qname : String) : List (NodeRow × EdgeRow) := joinNodes
    (fun edge node => edge.targetQualified = qname && node.qualifiedName = edge.sourceQualified) db

/-- A comparison of `f32` values by their bits; the store holds none that is not a number. -/
def confidenceBelow (bits threshold : UInt32) : Bool :=
  decide (confidenceKey bits < confidenceKey threshold)

section
variable {File : Type} (machine : Machine File)

def readLine (disk : File → Option Text) (path : String) (line : Nat) : Except AtlasError Text :=
  match readFileContent machine disk path with
  | .error error => .error error
  | .ok content =>
    match (lines content)[line - 1]? with
    | some text => .ok text
    | none => .error (.other ("line " ++ toString line ++ " out of range in \x60" ++ path ++ "\x60"))

end

def editBefore (first second : RefactorEdit) : Prop := first.filePath < second.filePath ∨
    first.filePath = second.filePath ∧ first.lineStart ≤ second.lineStart

instance : DecidableRel editBefore := fun _ _ => inferInstanceAs (Decidable (_ ∨ _))

/-- `dedup_by`: an edit is dropped when the last one kept starts on the same line. -/
def dedupEdits (edits : List RefactorEdit) : List RefactorEdit :=
  edits.destutter fun kept next => kept.filePath ≠ next.filePath ∨ kept.lineStart ≠ next.lineStart
def sortAndDedup (edits : List RefactorEdit) : List RefactorEdit :=
  dedupEdits (edits.insertionSort editBefore)

end Atlas.Refactor
