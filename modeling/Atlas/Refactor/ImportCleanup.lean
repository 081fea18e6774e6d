import Atlas.Refactor.Identifier
import Atlas.Refactor.Planning

/-! The names that an import line is read to bind, one reader for each language. -/
namespace Atlas.Refactor
open Repo (trim)
open Text (cut)
open Text (lines)

def trimStartMatches (pattern text : Text) : Text := strip text.length text
where
  strip : Nat → Text → Text
    | 0, text => text
    | rounds + 1, text => if pattern.isPrefixOf text then strip rounds (text.drop pattern.length) else text

def trimEndOf (letter : Char) (text : Text) : Text :=
  (text.reverse.dropWhile fun c => c = letter).reverse
def trimMatches (letter : Char) (text : Text) : Text :=
  trimEndOf letter (text.dropWhile fun c => c = letter)
def behindLast (pattern text : Text) : Option Text :=
  (cut pattern.reverse text.reverse).map fun parts => parts.1.reverse

def lastPiece (pattern text : Text) : Text := walk text.length text
where
  walk : Nat → Text → Text
    | 0, text => text
    | rounds + 1, text =>
      match cut pattern text with
      | none => text
      | some (_, behind) => walk rounds behind

def asKeyword : Text := [' ', 'a', 's', ' ']

def rustItemName (item : Text) : Text :=
  let item := trim item
  match behindLast asKeyword item with
  | some name => trim name
  | none => lastPiece [':', ':'] item

def rustPathName (body : Text) : Text :=
  let raw := lastPiece [':', ':'] body
  match behindLast asKeyword raw with
  | some name => trim name
  | none => trim raw

/-- The slice between the braces panics when a closing one comes first. -/
def extractRustUseNames (line : Text) : Option (List Text) :=
  let body := trim (trimEndOf ';' (trimStartMatches "use ".toList line))
  if '{' ∈ body then
    let start := (body.takeWhile (· ≠ '{')).length
    let stop := (body.takeWhile (· ≠ '}')).length
    if start + 1 ≤ stop then
      some ((((body.take stop).drop (start + 1)).splitOn ',').map rustItemName |>.filter
        fun name => name ≠ [] ∧ name ≠ ['*'])
    else none
  else
    let name := rustPathName body
    some (if name = [] ∨ name = ['*'] then [] else [name])

def aliasedName (plain : Text → Text) (item : Text) : Text :=
  let item := trim item
  match cut asKeyword item with
  | some (_, behind) => trim behind
  | none => plain item

def extractPythonImportNames (line : Text) : List Text :=
  if "from ".toList.isPrefixOf line then
    match cut " import ".toList (line.drop 5) with
    | some (_, behind) => ((behind.splitOn ',').map (aliasedName id)).filter fun name => name ≠ [] ∧ name ≠ ['*']
    | none => []
  else if "import ".toList.isPrefixOf line then
    (((line.drop 7).splitOn ',').map (aliasedName fun item => item.takeWhile (· ≠ '.'))).filter fun name => name ≠ []
  else []

def extractJsImportNames (line : Text) : List Text :=
  let body := trim (trimStartMatches "import".toList line)
  if body.head? = some '{' then
    if '}' ∈ body then
      ((((body.takeWhile (· ≠ '}')).drop 1).splitOn ',').map (aliasedName id)).filter
        fun name => name ≠ []
    else []
  else
    let name := body.takeWhile isIdentChar
    if name ≠ [] ∧ name ≠ "type".toList then [name] else []

def extractGoImportName (line : Text) : List Text :=
  let body := trimMatches '"' (trim (trimStartMatches "import".toList line))
  if body = [] then []
  else
    let name := ((trimMatches '"' body).splitOn '/').getLastD body
    if name = [] then [] else [name]

def extractNames : Lang → Text → Option (List Text)
  | .rust, line => extractRustUseNames line
  | .python, line => some (extractPythonImportNames line)
  | .jsTs, line => some (extractJsImportNames line)
  | .go, line => some (extractGoImportName line)
  | .other, _ => some []

/-! Planning the removal of imports. A `u32` holds the number of every line here, and the
`Debug` form of a list of names is a parameter. -/

open Store

structure ImportInfo where
  lineNo : Nat
  importedNames : List Text
  rawLine : Text

def findImport (lang : Lang) (entry : Text × Nat) : Option (List ImportInfo) :=
  if isImportLine (trim entry.1) lang then
    (extractNames lang (trim entry.1)).map fun names => if names = [] then [] else [⟨entry.2 + 1, names, entry.1⟩]
  else some []

def findImports (fileLines : List Text) (lang : Lang) : Option (List ImportInfo) :=
  (fileLines.zipIdx.mapM (findImport lang)).map List.flatten
def usedElsewhere (fileLines : List Text) (lineNo : Nat) (name : Text) : Bool :=
  fileLines.zipIdx.any fun (line, index) => index + 1 ≠ lineNo && containsWord line name

structure Cleanup where
  edits : List RefactorEdit := []
  manualReview : List String := []

def removeImportEdit (filePath : String) (info : ImportInfo) : RefactorEdit where
  filePath
  lineStart := info.lineNo
  lineEnd := info.lineNo
  oldText := info.rawLine
  newText := []
  editKind := .removeImport

def cleanImport (debugNames : List Text → String)
    (filePath : String) (fileLines : List Text) (cleanup : Cleanup) (info : ImportInfo) : Cleanup :=
  if !info.importedNames.any (usedElsewhere fileLines info.lineNo) then
    { cleanup with edits := cleanup.edits ++ [removeImportEdit filePath info] }
  else if info.importedNames.length > 1 then
    let unused := info.importedNames.filter fun name => !usedElsewhere fileLines info.lineNo name
    if unused ≠ [] then
      { cleanup with
        manualReview := cleanup.manualReview ++
          ["partial import cleanup in \x60" ++ filePath ++ "\x60 line " ++ toString info.lineNo ++
            ": unused items " ++ debugNames unused] }
    else cleanup
  else cleanup

section
variable {File : Type}
  (machine : Machine File) (debugNames : List Text → String) (disk : File → Option Text)

def planImportCleanup (filePath : String) : Except EditFailure EstimatedPlan :=
  match readFileContent machine disk filePath with
  | .error error => .error (.refused error)
  | .ok content =>
    match findImports (lines content) (detectLanguage filePath) with
    | none => .error .panicked
    | some imports =>
      let cleanup := imports.foldl (cleanImport debugNames filePath (lines content)) {}
      .ok {
        operation := .cleanImports filePath
        edits := sortReverse cleanup.edits
        manualReview := cleanup.manualReview
        affectedFiles := if cleanup.edits ≠ [] then [filePath] else []
        estimatedSafety := .safe }

end
end Atlas.Refactor
