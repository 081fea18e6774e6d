import Atlas.Content.ByteWindows
import Atlas.Program.Selection
import Atlas.Store.Helpers
import Atlas.Text.Lines
import Atlas.Text.Trim
import Mathlib.Data.Prod.Lex

/-! Sections of an indexed markdown document, found by a heading or by a line. -/
namespace Atlas.Review
open Content (byteLength byteLength_append byteLength_cons byteLength_nil takeBytes takeBytes_append eq_append_of_takeBytes join)
open Core (Json Node)
open Core.Json (lookupField)
open Refactor (Text)
open Text (lines withoutReturns)

inductive DocsSectionSelector where
  | heading (query : String)
  | line (line : Nat)

structure DocsSectionLine where
  line : Nat
  text : Text

structure DocsSectionCandidate where
  (title headingPath headingSlug : String)
  (headingLevel startLine endLine : Nat)

structure IndexedHeading where
  (title path slug : String)
  (level startLine endLine : Nat)
  fileHash : Option String
  deriving DecidableEq

structure BoundedExcerpt where
  content : Text
  lines : List DocsSectionLine
  truncated : Bool
  omittedByteCount : Nat

structure DocsSectionLookup where
  (file selectorKind : String)
  /-- The heading and its excerpt, or the query with the headings that it matches. -/
  selected : (IndexedHeading × BoundedExcerpt) ⊕ (String × List DocsSectionCandidate)

def asU64 : Json → Option Nat
  | .num text =>
    if text.toList ≠ [] ∧ text.toList.all Char.isDigit then
      let number := Nat.ofDigitChars 10 text.toList 0
      if number < 2 ^ 64 then some number else none
    else none
  | _ => none

def field (value : Json) (key : String) : Option Json :=
  match value with
  | .obj fields => lookupField fields key
  | _ => none

def indexedHeadingFromNode (node : Node) : Option IndexedHeading := do
  if node.kind ≠ .module ∨ node.language ≠ "markdown" then none
  else
    let level ← (field node.extraJson "level").bind asU64
    let path ← match field node.extraJson "path" with
      | some (.str path) => some path
      | _ => none
    some { title := node.name, path
           slug := String.ofList (path.toList.reverse.takeWhile (· ≠ '.')).reverse
           level := level % 2 ^ 32
           startLine := node.lineStart
           endLine := max node.lineEnd node.lineStart
           fileHash := if node.fileHash = "" then none else some node.fileHash }

variable (fileLines : List Text) (heading : IndexedHeading)

def IndexedHeading.place : Nat ×ₗ String := toLex (heading.startLine, heading.path)

def withEnd (totalLines : Nat) (heading : IndexedHeading) (later : List IndexedHeading) :
    IndexedHeading :=
  { heading with
    endLine :=
      match later.find? fun candidate => candidate.level ≤ heading.level with
      | some next => max (next.startLine - 1) heading.startLine
      | none => max totalLines heading.startLine }

def withEnds (totalLines : Nat) : List IndexedHeading → List IndexedHeading
  | [] => []
  | heading :: rest => withEnd totalLines heading rest :: withEnds totalLines rest

def sortedHeadings (headings : List IndexedHeading) : List IndexedHeading :=
  headings.insertionSort fun left right => left.place ≤ right.place
def indexedHeadings (nodes : List Node) (totalLines : Nat) : List IndexedHeading :=
  withEnds totalLines (sortedHeadings (nodes.filterMap indexedHeadingFromNode))

def headingMatches (query : String) : Bool :=
  let dots := (Repo.trim query.toList).dropWhile (· = '.')
  let normal := String.ofList (dots.reverse.dropWhile (· = '.')).reverse
  decide (normal ≠ "") && (decide (heading.path = normal) ||
    decide (heading.path = "document." ++ normal) || decide (heading.slug = normal) ||
    decide (heading.title.toList.map Char.toLower = normal.toList.map Char.toLower))

def headingAtLine (headings : List IndexedHeading) (line : Nat) : Option IndexedHeading :=
  Program.lastGreatest? IndexedHeading.level (headings.filter fun heading => heading.startLine ≤ line ∧ line ≤ heading.endLine)

def candidateFromHeading : DocsSectionCandidate :=
  { title := heading.title, headingPath := heading.path, headingSlug := heading.slug
    headingLevel := heading.level, startLine := heading.startLine, endLine := heading.endLine }

/-- The loop over `char_indices`: the last start of a character that is not behind the limit. -/
def lastStart (maxBytes : Nat) : Nat → Text → Nat → Nat
  | _, [], stop => stop
  | index, c :: rest, stop => if maxBytes < index then stop else lastStart maxBytes (index + c.utf8Size) rest index

def truncateToBoundary (text : Text) (maxBytes : Nat) : Option Text :=
  if byteLength text ≤ maxBytes then some text
  else
    let stop := lastStart maxBytes 0 text 0
    if stop = 0 ∧ 0 < maxBytes ∧ (takeBytes maxBytes text).isSome then takeBytes maxBytes text
    else takeBytes stop text

def lineAt (lineNumber : Nat) : Option Text := fileLines[lineNumber - 1]?

structure ExcerptState where
  outLines : List DocsSectionLine := []
  content : Text := []
  usedBytes : Nat := 0
  truncated : Bool := false

def separator (content : Text) : Text := if content = [] then [] else ['\n']

def excerptLoop (fileLines : List Text) (maxBytes : Nat) :
    List Nat → ExcerptState → Option ExcerptState
  | [], state => some state
  | lineNumber :: rest, state =>
    match lineAt fileLines lineNumber with
    | none => some state
    | some line =>
      let lineText := withoutReturns line
      let prefixBytes := byteLength (separator state.content)
      if state.usedBytes + (prefixBytes + byteLength lineText) ≤ maxBytes then
        excerptLoop fileLines maxBytes rest
          { state with
            content := state.content ++ separator state.content ++ lineText
            usedBytes := state.usedBytes + prefixBytes + byteLength lineText
            outLines := state.outLines ++ [⟨lineNumber, lineText⟩] }
      else
        let remaining := maxBytes - (state.usedBytes + prefixBytes)
        if 0 < remaining then
          (truncateToBoundary lineText remaining).map fun part =>
            { state with
              content := state.content ++ separator state.content ++ part
              outLines := state.outLines ++ [⟨lineNumber, part⟩]
              truncated := true }
        else some { state with truncated := true }

def lineNumbers (startLine endLine : Nat) : List Nat :=
  List.range' startLine (endLine + 1 - startLine)
def sectionLines (numbers : List Nat) : List Text :=
  numbers.filterMap fun lineNumber => (lineAt fileLines lineNumber).map withoutReturns

def boundedExcerpt (startLine endLine maxBytes : Nat) : Option BoundedExcerpt :=
  let numbers := lineNumbers startLine endLine
  (excerptLoop fileLines maxBytes numbers {}).map fun state =>
    { content := state.content
      lines := state.outLines
      truncated := state.truncated
      omittedByteCount := byteLength (join (sectionLines fileLines numbers)) - byteLength state.content }

inductive DocsFailure where
  | error (message : String)
  /-- A slice inside of a character. -/
  | panic

def lookupDocsSection (nfc : String → String) (readToString : String → Option (Except String Text))
    (nodesByFile : String → List Node) (given : String) (selector : DocsSectionSelector)
    (maxBytes : Nat) : Except DocsFailure DocsSectionLookup := do
  let file ← (Repo.canonicalizeRelative nfc given).mapError fun error =>
    .error ("invalid file path '" ++ given ++ "': " ++ error.message)
  let read ← match readToString file with
    | none => .error (.error ("file not found: " ++ file))
    | some read => .ok read
  let contents ← read.mapError fun error => .error ("cannot read UTF-8 text file '" ++ file ++ "': " ++ error)
  let fileLines := lines contents
  let nodes := nodesByFile file
  if nodes = [] then .error (.error ("document not indexed: " ++ file))
  else
    let headings := indexedHeadings nodes (fileLines.length % 2 ^ 32)
    let excerpt := fun (kind : String) (heading : IndexedHeading) =>
      match boundedExcerpt fileLines heading.startLine heading.endLine maxBytes with
      | some excerpt => Except.ok (⟨file, kind, .inl (heading, excerpt)⟩ : DocsSectionLookup)
      | none => .error DocsFailure.panic
    if headings = [] then .error (.error ("no indexed markdown headings found in " ++ file))
    else
      match selector with
      | .heading query =>
        match headings.filter (headingMatches · query) with
        | [] => .error (.error ("heading not found in " ++ file ++ ": " ++ query))
        | [heading] => excerpt "heading" heading
        | found => .ok ⟨file, "heading", .inr (query, found.map candidateFromHeading)⟩
      | .line line =>
        if line = 0 then .error (.error "line numbers are 1-based; got 0")
        else
          match headingAtLine headings line with
          | some heading => excerpt "line" heading
          | none => .error (.error ("no section covers line " ++ toString line ++ " in " ++ file))

end Atlas.Review
