import Atlas.Refactor.Identifier
import Atlas.Refactor.Planning

/-! Planning the rename of a symbol. The files that the edits touch are visited in the order of
a hash set, which is a parameter. -/
namespace Atlas.Refactor
open Core Search Store
open Program (HashOrder)

def validateIdentifier (name : String) : Except AtlasError Unit :=
  match name.toList with
  | [] => .error (.other "new name must not be empty")
  | first :: others =>
    if !first.isAlpha && first ≠ '_' then
      .error (.other ("invalid identifier \x60" ++ name ++ "\x60: must start with a letter or underscore"))
    else
      match others.find? fun c => !c.isAlphanum && c ≠ '_' with
      | some c => .error (.other ("invalid identifier \x60" ++ name ++
          "\x60: contains invalid character \x60" ++ String.ofList [c] ++ "\x60"))
      | none => .ok ()

structure RenameDraft where
  edits : List RefactorEdit := []
  manualReview : List String := []
  affectedFiles : List String := []
  risky : Bool := false

def referenceLine (reference : Node × Edge) : Nat := reference.2.line.getD reference.1.lineStart

def renameEdit (path : String) (line : Nat) (old new : Text) : RefactorEdit where
  filePath := path
  lineStart := line
  lineEnd := line
  oldText := old
  newText := new
  editKind := .renameOccurrence

def RenameDraft.push (draft : RenameDraft) (edit : RefactorEdit) : RenameDraft :=
  { draft with
    edits := draft.edits ++ [edit]
    affectedFiles := draft.affectedFiles.insert edit.filePath }

def RenameDraft.review (draft : RenameDraft) (msg : String) : RenameDraft :=
  { draft with manualReview := draft.manualReview ++ [msg] }

section
variable {File : Type}
  (machine : Machine File) (fileOrder : HashOrder String) (db : Db) (disk : File → Option Text)

def renamedLine (path : String) (line : Nat) (oldName newName : String) :
    Except EditFailure (Text × Text) :=
  match readLine machine disk path line with
  | .error error => .error (.refused error)
  | .ok text =>
    match replaceIdentifier text oldName.toList newName.toList with
    | none => .error .panicked
    | some renamed => .ok (text, renamed)

variable (target : Node) (qname newName : String)

def renameDefinition : Except EditFailure RenameDraft := (renamedLine machine disk target.filePath
    target.lineStart target.name newName).map fun (text, renamed) =>
      if renamed ≠ text then
        ({} : RenameDraft).push (renameEdit target.filePath target.lineStart text renamed)
      else {}

def renameReference (oldName newName : String) (draft : RenameDraft) (reference : Node × Edge) :
    Except EditFailure RenameDraft :=
  let line := referenceLine reference
  let path := reference.1.filePath
  if line = 0 then .ok draft
  else if confidenceBelow reference.2.confidence 0x3f000000 then
    .ok { draft.review ("unresolved reference in \x60" ++ path ++ "\x60 at line " ++
            toString line ++ " — verify manually") with
          risky := true }
  else
    (renamedLine machine disk path line oldName newName).map fun (text, renamed) =>
      if renamed = text then
        draft.review ("could not locate \x60" ++ oldName ++ "\x60 on line " ++ toString line ++
          " in \x60" ++ path ++ "\x60 — verify manually")
      else draft.push (renameEdit path line text renamed)

def reviewNode (path newName : String) (draft : RenameDraft) (node : Node) : RenameDraft :=
  if node.name = newName then
    { draft.review ("potential collision: \x60" ++ newName ++ "\x60 already exists in \x60" ++
        path ++ "\x60 as \x60" ++ node.qualifiedName ++ "\x60") with
      risky := true }
  else draft

def reviewFile (draft : RenameDraft) (path : String) : Except EditFailure RenameDraft :=
  if path = target.filePath then .ok draft
  else
    match nodesByFile machine.nfc db path with
    | .error error => .error (.refused error)
    | .ok nodes => .ok (nodes.foldl (reviewNode path newName) draft)

def collisions (nodes : List Node) : List String :=
  (nodes.filter fun node => node.name = newName ∧ node.qualifiedName ≠ qname).map fun node =>
    "\x60" ++ node.qualifiedName ++ "\x60 in \x60" ++ node.filePath ++ "\x60"

def renameTarget : Except AtlasError Node :=
  match nodeByQname db qname with
  | none => .error (.other ("symbol not found: \x60" ++ qname ++ "\x60"))
  | some row =>
    match nodesByFile machine.nfc db row.filePath with
    | .error error => .error error
    | .ok nodes =>
      if collisions qname newName nodes ≠ [] then
        .error (.other
          ("rename collision: \x60" ++ newName ++ "\x60 already exists at definition site: " ++
          ", ".intercalate (collisions qname newName nodes)))
      else .ok (rowToNode row)

def renamePlan (draft : RenameDraft) : EstimatedPlan where
  operation := .renameSymbol qname newName
  edits := sortAndDedup draft.edits
  manualReview := draft.manualReview
  affectedFiles := draft.affectedFiles.insertionSort (· ≤ ·)
  estimatedSafety := if draft.risky ∨ draft.manualReview ≠ [] then .caution else .safe

def collectDraft : Except EditFailure RenameDraft := do
  let draft ← renameDefinition machine disk target newName
  let draft ← (inboundEdges db qname edgeQueryLimit).foldlM
    (renameReference machine disk target.name newName) draft
  (fileOrder.arrange draft.affectedFiles).foldlM (reviewFile machine db target newName) draft

def planRename (oldQname newName : String) : Except EditFailure EstimatedPlan :=
  match validateIdentifier newName with
  | .error error => .error (.refused error)
  | .ok () =>
    let qname := normalizeQnKindTokens oldQname
    match renameTarget machine db qname newName with
    | .error error => .error (.refused error)
    | .ok target => (collectDraft machine fileOrder db disk target qname newName).map (renamePlan qname newName)

end
end Atlas.Refactor
