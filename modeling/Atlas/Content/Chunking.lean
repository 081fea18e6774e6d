import Atlas.Refactor.LineEdits

/-! Cutting a text into chunks. A chunk is known by the hash of its source and its trimmed
content; its index is its place in the list. -/
namespace Atlas.Content
open List Core
open Refactor (Text)
open Text (lines)
open Repo (trim)

def maxChunkBytes : Nat := 4096
def lineWindow : Nat := 60

structure Chunk where
  chunkId : String := ""
  chunkIndex : Nat := 0
  title : Option Text
  content : Text
  contentType : String
  deriving DecidableEq

structure Libraries where
  sha256 : Text → String
  fromStr : Text → Option Json
  toStringPretty : Json → Text

variable (libraries : Libraries) (text source : Text)

def computeChunkId (sourceId : String) (content : Text) : String :=
  libraries.sha256 (sourceId.toList ++ '\x00' :: trim content)

/-- `slice::chunks`, for a size above zero. The first argument bounds the number of windows. -/
def windowsUpTo {Item : Type} : Nat → Nat → List Item → List (List Item)
  | 0, _, _ => []
  | _ + 1, _, [] => []
  | fuel + 1, size, items => items.take size :: windowsUpTo fuel size (items.drop size)

def windows {Item : Type} (size : Nat) (items : List Item) : List (List Item) :=
  windowsUpTo items.length size items

theorem windowsUpTo_flatten {Item : Type} {fuel size : Nat} {items : List Item} (pos : 0 < size)
    (bounded : items.length ≤ fuel) : (windowsUpTo fuel size items).flatten = items := by
  induction fuel generalizing items with
  | zero =>
    cases items with
    | nil => rfl
    | cons item rest => simp at bounded
  | succ fuel ih =>
    cases items with
    | nil => rfl
    | cons item rest =>
      have shorter : ((item :: rest).drop size).length ≤ fuel := by
        rw [length_drop]
        simp only [length_cons] at bounded ⊢
        omega
      rw [windowsUpTo, flatten_cons, ih shorter, take_append_drop]
      simp

theorem windows_flatten {Item : Type} {size : Nat} (pos : 0 < size) (items : List Item) :
    (windows size items).flatten = items := windowsUpTo_flatten pos le_rfl

def join (parts : List Text) : Text := ['\n'].intercalate parts

def extractHeading (line : Text) : Option Text :=
  let trimmed := line.dropWhile fun c => c = '#'
  if trimmed.length < line.length then
    if trim trimmed = [] then none else some (trim trimmed)
  else none

def flushTextChunk (lines : List Text) (title : Option Text) (contentType : String) : List Chunk :=
  let trimmed := trim (join lines)
  if trimmed = [] then [] else [{ title, content := trimmed, contentType }]

def markdownFrom (title : Option Text) (collected : List Text) : List Text → List Chunk
  | [] => flushTextChunk collected title "text/markdown"
  | line :: rest =>
    match extractHeading line with
    | some heading => flushTextChunk collected title "text/markdown" ++ markdownFrom (some heading) [] rest
    | none => markdownFrom title (collected ++ [line]) rest

def chunkMarkdown : List Chunk :=
  match markdownFrom none [] (lines source) with
  | [] => [{ title := none, content := source, contentType := "text/markdown" }]
  | chunks => chunks

def lineWindowChunks (window : Nat) (contentType : String) : List Chunk :=
  (windows window (lines source)).map fun part =>
    { title := none, content := join part, contentType }

def paragraphsFrom (current : List Text) : List Text → List Text
  | [] => if current = [] then [] else [join current]
  | line :: rest =>
    if trim line = [] then
      (if current = [] then [] else [join current]) ++ paragraphsFrom [] rest
    else paragraphsFrom (current ++ [line]) rest

def chunkPlain : List Chunk :=
  match paragraphsFrom [] (lines source) with
  | [] => lineWindowChunks source lineWindow "text/plain"
  | paragraphs => paragraphs.map fun content => { title := none, content, contentType := "text/plain" }

def chunkJson : List Chunk :=
  match libraries.fromStr source with
  | some (.obj fields) =>
    fields.map fun field =>
      { title := some field.1.toList
        content := libraries.toStringPretty field.2
        contentType := "application/json" }
  | some (.arr items) =>
    (windows 20 items).mapIdx fun index batch =>
      { title := some ("array[" ++ toString (index * 20) ++ ".." ++
          toString (index * 20 + batch.length) ++ "]").toList
        content := libraries.toStringPretty (.arr batch)
        contentType := "application/json" }
  | _ => chunkPlain source

def continuations : List Bool := text.flatMap fun c => false :: replicate (c.utf8Size - 1) true
def byteLength : Nat := (continuations text).length

def snapUtf8 (bytes : List Bool) : Nat → Nat
  | 0 => 0
  | position + 1 => if bytes[position]? = some true then snapUtf8 bytes position else position + 1

def dropBytes : Nat → Text → Option Text
  | 0, text => some text
  | _ + 1, [] => none
  | count + 1, c :: rest => if c.utf8Size ≤ count + 1 then dropBytes (count + 1 - c.utf8Size) rest else none

def takeBytes : Nat → Text → Option Text
  | 0, _ => some []
  | _ + 1, [] => none
  | count + 1, c :: rest =>
    if c.utf8Size ≤ count + 1 then (takeBytes (count + 1 - c.utf8Size) rest).map (c :: ·) else none

/-- `&text[first..last]`, which panics inside of a character. -/
def slice (first last : Nat) : Option Text := (dropBytes first text).bind (takeBytes (last - first))
def partTitle (parent : Option Text) (part : Nat) : Option Text :=
  parent.map fun title => title ++ (" (part " ++ toString part ++ ")").toList

def byteWindows (content : Text) (parent : Option Text) (contentType : String) :
    Nat → Nat → Nat → Option (List Chunk)
  | 0, _, _ => some []
  | fuel + 1, start, part =>
    if start < byteLength content then
      let stop := snapUtf8 (continuations content)
        (min (start + maxChunkBytes) (byteLength content))
      (slice content start stop).bind fun piece =>
        (byteWindows content parent contentType fuel stop (part + 1)).map
          ({ title := partTitle parent part, content := piece, contentType } :: ·)
    else some []

/-- The result is `none` when a byte window ends inside of a character. -/
def subdivide (content : Text) (parent : Option Text) (contentType : String) :
    Option (List Chunk) :=
  if (lines content).length > 1 then
    some ((windows (max (maxChunkBytes / 80) 10) (lines content)).mapIdx fun index part =>
      { title := partTitle parent index, content := join part, contentType })
  else byteWindows content parent contentType (byteLength content) 0 0

def baseChunks (raw : Text) (contentType : String) : List Chunk :=
  if contentType = "text/markdown" ∨ contentType = "markdown" then chunkMarkdown raw
  else if contentType = "application/json" ∨ contentType = "json" then chunkJson libraries raw
  else chunkPlain raw

def subdivideOversized (chunk : Chunk) : Option (List Chunk) :=
  if byteLength chunk.content ≤ maxChunkBytes then some [chunk]
  else subdivide chunk.content chunk.title chunk.contentType

def chunkText (sourceId : String) (raw : Text) (contentType : String) : Option (List Chunk) :=
  ((baseChunks libraries raw contentType).mapM subdivideOversized).map fun parts =>
    parts.flatten.mapIdx fun index chunk =>
      { chunk with
        chunkId := computeChunkId libraries sourceId chunk.content
        chunkIndex := index }

theorem chunkText_index {libraries : Libraries} {sourceId : String} {raw : Text}
    {contentType : String} {chunks : List Chunk}
    (cut : chunkText libraries sourceId raw contentType = some chunks) :
    chunks.map Chunk.chunkIndex = range chunks.length := by
  obtain ⟨parts, _, rfl⟩ := Option.map_eq_some_iff.mp cut
  refine ext_getElem (by simp) ?_
  intro index bounded inRange
  simp

end Atlas.Content
