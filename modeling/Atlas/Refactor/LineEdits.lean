import Atlas.Repo.Path
import Atlas.Store.Schema
import Atlas.Text.Lines

/-! Line-based text edits. A text is its list of characters; `lines` drops the line
ends, so a rewritten text gets new ones when its lines are joined. -/
namespace Atlas.Refactor
open List
open Store (AtlasError)
open Text (stripCr linesOfPieces lines text_induction lines_last lines_line)

abbrev Text := List Char

def endsWithNewline (text : Text) : Bool := decide (text.getLast? = some '\n')
def joinLines (trailingNewline : Bool) (parts : List Text) : Text :=
  ['\n'].intercalate parts ++ if trailingNewline then ['\n'] else []

inductive RefactorEditKind where
  | renameOccurrence
  | removeSpan
  | removeImport
  deriving DecidableEq

structure RefactorEdit where
  filePath : String
  (lineStart lineEnd : Nat)
  (oldText newText : Text)
  editKind : RefactorEditKind
  deriving DecidableEq

inductive EditFailure where
  | refused (error : AtlasError)
  | panicked
  deriving DecidableEq

def outOfRange (edit : RefactorEdit) (count : Nat) : AtlasError :=
  .other ("edit out of range: lines " ++ toString edit.lineStart ++ "-" ++ toString edit.lineEnd ++
    " but file has " ++ toString count ++ " lines in \x60" ++ edit.filePath ++ "\x60")

def drain (first last : Nat) (parts : List Text) : Except EditFailure (List Text) :=
  if first ≤ last + 1 then .ok (parts.take first ++ parts.drop (last + 1)) else .error .panicked

def applyEdit (parts : List Text) (edit : RefactorEdit) : Except EditFailure (List Text) :=
  let first := edit.lineStart - 1
  let last := edit.lineEnd - 1
  if first > parts.length ∨ last ≥ parts.length then
    .error (.refused (outOfRange edit parts.length))
  else if edit.newText = [] then drain first last parts
  else if first = parts.length then .error .panicked
  else if last > first then drain (first + 1) last (parts.set first edit.newText)
  else .ok (parts.set first edit.newText)

def applyEdits (content : Text) (edits : List RefactorEdit) : Except EditFailure Text :=
  (edits.foldlM applyEdit (lines content)).map (joinLines (endsWithNewline content))

/-- `sort_by_key(|e| Reverse(e.line_start))`, which is stable. -/
def sortReverse (edits : List RefactorEdit) : List RefactorEdit :=
  edits.insertionSort fun first second => second.lineStart ≤ first.lineStart

inductive Lang where
  | rust
  | python
  | jsTs
  | go
  | other
  deriving DecidableEq

def endsWith (path ending : String) : Bool := ending.toList.isSuffixOf path.toList

def detectLanguage (path : String) : Lang :=
  if endsWith path ".rs" then .rust
  else if endsWith path ".py" then .python
  else if endsWith path ".js" || endsWith path ".ts" || endsWith path ".tsx" || endsWith path ".jsx" then .jsTs
  else if endsWith path ".go" then .go
  else .other

def isImportLine (line : Text) : Lang → Bool
  | .rust => "use ".toList.isPrefixOf line
  | .python => "import ".toList.isPrefixOf line || "from ".toList.isPrefixOf line
  | .jsTs => "import ".toList.isPrefixOf line
  | .go => "import ".toList.isPrefixOf line
  | .other => false

def isBlank (line : Text) : Bool := decide (Repo.trim line = [])

def squeezeBlanks : List Text → List Text
  | [] => []
  | first :: rest => if isBlank first then first :: rest.dropWhile isBlank else first :: rest

def sortImports (block : List Text) : List Text :=
  block.insertionSort fun first second => ¬ Repo.trim second < Repo.trim first

def layoutWithin (lang : Lang) : Nat → List Text → List Text
  | 0, parts => parts
  | _ + 1, [] => []
  | fuel + 1, line :: rest =>
    if isImportLine (Repo.trim line) lang then
      let imports : Text → Bool := fun other => isImportLine (Repo.trim other) lang
      sortImports ((line :: rest).takeWhile imports) ++ layoutWithin lang fuel (squeezeBlanks ((line :: rest).dropWhile imports))
    else line :: layoutWithin lang fuel rest

def normalizeImportBlockLayout (filePath : String) (content : Text) : Text :=
  let lang := detectLanguage filePath
  if lang = .other then content
  else
    joinLines (endsWithNewline content) (layoutWithin lang (lines content).length (lines content))

/-! Line edits as one simultaneous substitution in the lines of a file with their ends. -/

def overlapIn (path : String) : List (Nat × Nat) → Option AtlasError
  | [] => none
  | [_] => none
  | (_, endA) :: (startB, endB) :: rest =>
    if startB ≤ endA then
      some (.other ("overlapping edits at lines " ++ toString endA ++ " and " ++ toString startB ++ " in \x60" ++ path ++ "\x60"))
    else overlapIn path ((startB, endB) :: rest)

def sortedSpans (path : String) (edits : List RefactorEdit) : List (Nat × Nat) :=
  ((edits.filter fun edit => decide (edit.filePath = path)).map fun edit =>
    (edit.lineStart, edit.lineEnd)).insertionSort fun first second => first.1 ≤ second.1

def checkOverlaps (byFile : List String) (edits : List RefactorEdit) : Except AtlasError Unit :=
  match byFile.findSome? fun path => overlapIn path (sortedSpans path edits) with
  | some error => .error error
  | none => .ok ()

structure FileLine where
  (text ending : Text)
  deriving DecidableEq

def FileLine.whole (line : FileLine) : Text := line.text ++ line.ending
def FileLine.Terminated (line : FileLine) : Prop :=
  line.ending = ['\n'] ∨ line.ending = ['\r', '\n']

def fileLinesOfPieces : List Text → List FileLine
  | [] => []
  | [last] => if last = [] then [] else [⟨last, []⟩]
  | piece :: next :: rest =>
    ⟨stripCr piece, if piece.getLast? = some '\r' then ['\r', '\n'] else ['\n']⟩ :: fileLinesOfPieces (next :: rest)

variable (content : Text) (edits : List RefactorEdit)

def fileLines : List FileLine := fileLinesOfPieces (content.splitOn '\n')

section
variable {piece rest : Text}

theorem fileLines_last (absent : '\n' ∉ piece) :
    fileLines piece = if piece = [] then [] else [⟨piece, []⟩] := by
  unfold fileLines
  rw [splitOn_eq_singleton absent]
  rfl

theorem fileLines_line (absent : '\n' ∉ piece) : fileLines (piece ++ '\n' :: rest) = ⟨stripCr piece,
    if piece.getLast? = some '\r' then ['\r', '\n'] else ['\n']⟩ :: fileLines rest := by
  unfold fileLines
  rw [splitOn_append_cons_self_of_not_mem absent]
  cases pieces : rest.splitOn '\n' with
  | nil => exact absurd pieces (splitOn_ne_nil _ _)
  | cons head tail => rfl

end

theorem fileLines_map_text : (fileLines content).map FileLine.text = lines content := by
  induction content using text_induction with
  | last piece absent =>
    rw [fileLines_last absent, lines_last absent]
    split <;> rfl
  | line piece rest absent ih => rw [fileLines_line absent, lines_line absent, map_cons, ih]

theorem fileLines_flatMap_whole : (fileLines content).flatMap FileLine.whole = content := by
  induction content using text_induction with
  | last piece absent =>
    rw [fileLines_last absent]
    split
    · next empty => exact empty.symm
    · simp [FileLine.whole]
  | line piece rest absent ih =>
    rw [fileLines_line absent, flatMap_cons, ih]
    unfold FileLine.whole stripCr
    split
    · next returned =>
        have own := dropLast_append_getLast? '\r' returned
        conv => rhs; rw [← own]
        simp
    · simp

theorem endsWithNewline_line (piece rest : Text) : endsWithNewline (piece ++ '\n' :: rest) =
    if rest = [] then true else endsWithNewline rest := by
  unfold endsWithNewline
  cases rest with
  | nil => simp
  | cons head tail => simp [getLast?_append, getLast?_cons_cons]

theorem fileLines_endings :
    if endsWithNewline content then ∀ line ∈ fileLines content, line.Terminated
    else fileLines content = [] ∨ ∃ init last, fileLines content = init ++ [last] ∧
      (∀ line ∈ init, line.Terminated) ∧ last.ending = [] := by
  induction content using text_induction with
  | last piece absent =>
    have open' : endsWithNewline piece = false := by
      unfold endsWithNewline
      exact decide_eq_false fun ends => absent (mem_of_getLast? ends)
    rw [open', fileLines_last absent]
    by_cases empty : piece = []
    · simp [empty]
    · rw [if_neg empty]
      simp only [Bool.false_eq_true, if_false]
      exact .inr ⟨[], ⟨piece, []⟩, rfl, nofun, rfl⟩
  | line piece rest absent ih =>
    have ended : (FileLine.mk (stripCr piece) (if piece.getLast? = some '\r' then ['\r', '\n'] else ['\n'])).Terminated := by
      unfold FileLine.Terminated
      dsimp only
      split
      · exact .inr rfl
      · exact .inl rfl
    rw [endsWithNewline_line, fileLines_line absent]
    by_cases empty : rest = []
    · rw [if_pos empty, if_pos rfl, empty]
      intro line mem
      rw [fileLines_last (not_mem_nil), if_pos rfl, mem_singleton] at mem
      rw [mem]
      exact ended
    · rw [if_neg empty]
      cases ends : endsWithNewline rest with
      | true =>
        rw [ends, if_pos rfl] at ih
        rw [if_pos rfl]
        intro line mem
        rcases mem_cons.mp mem with rfl | later
        · exact ended
        · exact ih line later
      | false =>
        rw [ends, if_neg Bool.false_ne_true] at ih
        rw [if_neg Bool.false_ne_true]
        right
        rcases ih with none' | ⟨init, last, split, terminated, bare⟩
        · have whole := fileLines_flatMap_whole rest
          rw [none'] at whole
          exact absurd whole.symm empty
        · refine ⟨_ :: init, last, congrArg (_ :: ·) split, ?_, bare⟩
          intro line mem
          rcases mem_cons.mp mem with rfl | later
          · exact ended
          · exact terminated line later

def editOf (number : Nat) : Option RefactorEdit :=
  edits.find? fun edit => decide (edit.lineStart ≤ number ∧ number ≤ edit.lineEnd)

def substituteLine (number : Nat) (line : FileLine) : List FileLine :=
  match editOf edits number with
  | none => [line]
  | some edit => if number = edit.lineEnd ∧ edit.newText ≠ [] then [{ line with text := edit.newText }] else []

def substituteFrom (edits : List RefactorEdit) : Nat → List FileLine → List FileLine
  | _, [] => []
  | number, line :: rest => substituteLine edits number line ++ substituteFrom edits (number + 1) rest

def substituted : List FileLine := substituteFrom edits 1 (fileLines content)

end Atlas.Refactor
