import Atlas.Content.ByteWindows
import Atlas.Search.Widening
import Atlas.Review.Context
import Atlas.Text.Find

/-! Reading a context request from a plain text. -/
namespace Atlas.Review
open List
open Content (byteLength dropBytes)
open Search (mem_of_mem_splitWhitespace splitWhitespace_append_space)
open Repo (isWhitespace splitWhitespace trim)
open Text (cut strip stripEnd)

inductive ContextTarget where
  | qualifiedName (qname : List Char)
  | symbolName (name : List Char)
  | filePath (path : List Char)
  | changedFiles (paths : List (List Char))

structure ParsedRequest extends ContextRequest where
  target : ContextTarget

/-- The tables of the standard library. `lowered` has the lowercase form of each character
of a text. -/
structure Letters where
  (isAlphabetic isAlphanumeric isUppercase isLowercase : Char → Bool)
  lowered : List Char → List (List Char)

section
variable (letters : Letters)

def Letters.toLowercase (text : List Char) : List Char := (letters.lowered text).flatten

def intentPhrases : List (String × ContextIntent) :=
  [("review context", .review), ("code review", .review), ("what changed", .review),
    ("changed in", .review), ("what breaks", .impactAnalysis), ("what will break", .impactAnalysis),
    ("impact of", .impactAnalysis), ("breaking change", .impactAnalysis),
    ("safe to refactor", .refactorSafety), ("safe to remove", .refactorSafety),
    ("remove dependency", .dependencyRemoval), ("dead code", .deadCodeCheck), ("unused", .deadCodeCheck),
    ("rename", .renamePreview), ("who calls", .usageLookup), ("what calls", .usageLookup),
    ("used by", .usageLookup), ("callers of", .usageLookup), ("usages of", .usageLookup),
    ("usage of", .usageLookup), ("where is", .usageLookup), ("find usages", .usageLookup),
    ("show file", .file), ("symbols in", .file), ("what is in", .file)]

def contains (pattern : String) (text : List Char) : Bool := (cut pattern.toList text).isSome

def classifyIntent (text : List Char) : ContextIntent :=
  match intentPhrases.find? fun entry => contains entry.1 (letters.toLowercase text) with
  | some entry => entry.2
  | none => .symbol

def phrasesForIntent : ContextIntent → List String
  | .review => ["review context", "code review", "what changed", "changed in"]
  | .impact | .impactAnalysis => ["what will break", "what breaks", "impact of", "breaking change"]
  | .refactorSafety => ["safe to refactor", "safe to remove"]
  | .dependencyRemoval => ["remove dependency"]
  | .deadCodeCheck => ["dead code", "unused"]
  | .renamePreview => ["rename"]
  | .usageLookup => ["where is", "what calls", "who calls", "used by", "callers of", "usages of",
      "usage of", "find usages"]
  | .file => ["show file", "symbols in", "what is in"]
  | .symbol => []

def stopwords : List String := ["if", "i", "change", "used", "use", "calls", "call", "of", "to",
    "is", "it", "safe", "dead", "code",
    "remove", "dependency", "rename", "what", "who", "where", "breaks", "break", "will", "by", "me",
    "about", "tell", "do", "does", "this", "that"]

variable (s token : List Char)

def isStopword : Bool := decide (String.ofList (token.map Char.toLower) ∈ stopwords)
def marks : List Char := [',', '.', ';', ':', '(', ')', '[', ']', '?', '!']
def trimEndMatches (chars token : List Char) : List Char :=
  stripEnd (fun c => decide (c ∈ chars)) token
def isIdentifier : Bool := s.head?.any (fun c => letters.isAlphabetic c || c = '_') &&
    s.all fun c => letters.isAlphanumeric c || c = '_'

def extractBetween (opening closing : Char) (text : List Char) : Option (List Char) := do
  let (_, rest) ← cut [opening] text
  let (content, _) ← cut [closing] rest
  return content

def extractQuoted (text : List Char) : Option (List Char) := (extractBetween '"' '"' text).or
    ((extractBetween '\'' '\'' text).filter fun content => 2 ≤ byteLength content)

def fileExtensions : List String :=
  [".rs", ".py", ".ts", ".tsx", ".js", ".jsx", ".go", ".java", ".kt", ".swift", ".c", ".cpp", ".h",
    ".hpp", ".cs", ".rb", ".php", ".scala", ".zig", ".ex", ".exs", ".lua"]

def looksLikeFilePath : Bool :=
  decide ('/' ∈ s ∨ '\\' ∈ s) && fileExtensions.any fun extension => decide (extension.toList <:+ s)

/-- The first word with a property, without the characters at its end. -/
def firstToken (chars : List Char) (accepts : List Char → Bool) (text : List Char) :
    Option (List Char) := ((splitWhitespace text).map (trimEndMatches chars)).find? accepts
def extractFilePath :
    List Char → Option (List Char) := firstToken [',', '.', ';', ')', ']'] looksLikeFilePath

def isQualifiedName : Bool := contains "::" token && decide (3 < byteLength token) ||
    decide (2 ≤ (token.splitOn '.').length) && (token.splitOn '.').any (fun part =>
      part.head?.any letters.isUppercase) && (token.splitOn '.').all (isIdentifier letters)

def extractQualifiedName : List Char → Option (List Char) :=
  firstToken [',', '.', ';', ')', ']', '?'] (isQualifiedName letters)
def isCamel : Bool :=
  token.head?.any letters.isUppercase && decide ('_' ∉ token) && token.any letters.isLowercase
def isSnake : Bool := decide ('_' ∈ token) && token.all fun c => letters.isAlphanumeric c || c = '_'

def extractBestIdentifier (text : List Char) : Option (List Char) :=
  let find := fun accepts => firstToken [',', '.', ';', ')', ']', '?']
    (fun token => isIdentifier letters token && decide (2 ≤ byteLength token) && accepts token) text
  (find (isCamel letters)).or (find (isSnake letters))

def extractPlainIdentifier :
    List Char → Option (List Char) := firstToken [',', '.', ';', ')', ']', '?', '!'] fun token =>
    isIdentifier letters token && !isStopword token

def classifyStringTarget : ContextTarget :=
  if contains "::" s then .qualifiedName s
  else if looksLikeFilePath s then .filePath s
  else .symbolName s

def pathTarget (intent : ContextIntent) (path : List Char) : ContextTarget :=
  match intent with
  | .review | .impact | .impactAnalysis | .refactorSafety | .dependencyRemoval => .changedFiles [path]
  | _ => .filePath path

/-- The lowercase text up to the end of the first phrase of the intent that it has. -/
def matchedPhrase (text : List Char) (intent : ContextIntent) : Option (List Char) :=
  (phrasesForIntent intent).findSome? fun phrase =>
    (cut phrase.toList (letters.toLowercase (trim text))).map fun (before, _) => before ++ phrase.toList

def tokensOf (narrowed : List Char) : List (List Char) :=
  ((splitWhitespace narrowed).map (strip fun c => decide (c ∈ marks))).filter fun token =>
    decide (token ≠ []) && !isStopword token

/-- An offset in the lowercase text cuts the text itself, which panics inside of a character. -/
def stripIntentWords (text : List Char) (intent : ContextIntent) : Option (List Char) := do
  let narrowed ← match matchedPhrase letters text intent with
    | some front => (dropBytes (byteLength front) (trim text)).map trim
    | none => some (trim text)
  let filteredTokens := tokensOf narrowed
  return if filteredTokens = [] then trim text else [' '].intercalate filteredTokens

def plainTarget (text : List Char) (intent : ContextIntent) (narrowed : List Char) :
    ContextTarget :=
  match extractFilePath narrowed with
  | some path => pathTarget intent path
  | none => match extractQualifiedName letters narrowed with
    | some qname => .qualifiedName qname
    | none => match (extractBestIdentifier letters narrowed).or (extractBestIdentifier letters text) with
      | some name => .symbolName name
      | none => match extractPlainIdentifier letters narrowed with
        | some name => .symbolName name
        | none => .symbolName (trim narrowed)

def extractTarget (text : List Char) (intent : ContextIntent) : Option ContextTarget :=
  match extractQuoted text with
  | some quoted => some (classifyStringTarget quoted)
  | none => match extractFilePath text with
    | some path => some (pathTarget intent path)
    | none => match extractQualifiedName letters text with
      | some qname => some (.qualifiedName qname)
      | none => (stripIntentWords letters text intent).map (plainTarget letters text intent)

/-- `none` is a panic. -/
def parseQuery (text : List Char) : Option ParsedRequest := do
  let intent := classifyIntent letters text
  let target ← extractTarget letters text intent
  return {
    intent, target
    includeImports := true
    includeCallers := decide (intent ∈ ([.symbol, .impact, .impactAnalysis, .usageLookup, .refactorSafety,
      .dependencyRemoval] : List ContextIntent))
    includeCallees := decide (intent ∈ ([.symbol, .impact, .impactAnalysis, .refactorSafety,
      .renamePreview] : List ContextIntent))
    includeTests := decide (intent = .review) }

end

def ContextTarget.texts : ContextTarget → List (List Char)
  | .qualifiedName text | .symbolName text | .filePath text => [text]
  | .changedFiles paths => paths

def IsWordOf (source word : List Char) : Prop := ∃ token ∈ splitWhitespace source, ∃ before behind,
    token = before ++ (word ++ behind) ∧ ∀ c ∈ before ++ behind, c ∈ marks
def ConsistsOf (source target : List Char) : Prop :=
  ∀ word ∈ splitWhitespace target, IsWordOf source word

variable {letters : Letters} {text source word : List Char}

theorem words_append {left right : List Char} (blanks : ∀ c ∈ left, isWhitespace c = true) :
    splitWhitespace (left ++ right) = splitWhitespace right := by
  induction left with
  | nil => rfl
  | cons c rest ih =>
    have split := @splitWhitespace_append_space c [] (rest ++ right) (blanks c (.head _))
    rw [nil_append] at split
    rw [cons_append, split, ih fun d mem => blanks d (mem_cons_of_mem _ mem)]
    rfl

theorem words_trim (text : List Char) : splitWhitespace (trim text) = splitWhitespace text := by
  obtain ⟨before, behind, split, front, back⟩ := Text.exists_strip isWhitespace text
  conv_rhs => rw [split, words_append front]
  change splitWhitespace (strip isWhitespace text) = _
  cases behind with
  | nil => rw [append_nil]
  | cons c rest =>
    have none := @words_append rest [] fun d mem => back d (.tail _ mem)
    rw [append_nil] at none
    rw [splitWhitespace_append_space (back c mem_cons_self), none]
    exact (append_nil _).symm

theorem words_word (solid : ∀ c ∈ text, isWhitespace c = false)
    (mem : word ∈ splitWhitespace text) : word = text := by
  unfold splitWhitespace at mem
  rw [splitOnP_eq_singleton solid] at mem
  exact mem_singleton.mp (mem_filter.mp mem).1

theorem IsWordOf.solid (isWord : IsWordOf source word) : ∀ c ∈ word, isWhitespace c = false := by
  obtain ⟨_, mem, before, behind, rfl, _⟩ := isWord
  intro c inside
  exact (mem_of_mem_splitWhitespace mem).2.1 c (by simp [inside])

theorem IsWordOf.consists (isWord : IsWordOf source word) :
    ConsistsOf source word := fun _ mem => words_word isWord.solid mem ▸ isWord

theorem firstToken_isWord {chars : List Char} {accepts : List Char → Bool} (isMarks : chars ⊆ marks)
    (found : firstToken chars accepts source = some word) : IsWordOf source word := by
  obtain ⟨token, mem, rfl⟩ := mem_map.mp (mem_of_find?_eq_some found)
  obtain ⟨behind, split, blanks⟩ := Text.exists_stripEnd (fun c => decide (c ∈ chars)) token
  refine ⟨token, mem, [], behind, split, fun c inside => isMarks ?_⟩
  exact of_decide_eq_true (blanks c inside)

theorem tokensOf_isWord (mem : word ∈ tokensOf source) : word ≠ [] ∧ IsWordOf source word := by
  obtain ⟨inMap, filled⟩ := mem_filter.mp mem
  obtain ⟨token, isToken, rfl⟩ := mem_map.mp inMap
  obtain ⟨before, behind, split, front, back⟩ := Text.exists_strip (fun c => decide (c ∈ marks)) token
  refine ⟨of_decide_eq_true (Bool.and_eq_true_iff.mp filled).1, token, isToken, before, behind, split, ?_⟩
  intro c inside
  rcases mem_append.mp inside with early | late
  · exact of_decide_eq_true (front c early)
  · exact of_decide_eq_true (back c late)

theorem mem_words_join {tokens : List (List Char)}
    (solid : ∀ token ∈ tokens, ∀ c ∈ token, isWhitespace c = false)
    (mem : word ∈ splitWhitespace ([' '].intercalate tokens)) : word ∈ tokens := by
  induction tokens with
  | nil => cases mem
  | cons first rest ih =>
    have own := solid first (.head _)
    cases rest with
    | nil =>
      rw [intercalate_singleton] at mem
      exact mem_singleton.mpr (words_word own mem)
    | cons second rest =>
      rw [intercalate_cons_cons, append_assoc, singleton_append, splitWhitespace_append_space (by decide)] at mem
      rcases mem_append.mp mem with here | later
      · exact words_word own here ▸ mem_cons_self
      · exact .tail _ (ih (fun token inRest => solid token (.tail _ inRest)) later)

theorem IsWordOf.of_join (isWord : IsWordOf ([' '].intercalate (tokensOf source)) word) :
    IsWordOf source word := by
  obtain ⟨token, mem, before, behind, rfl, inMarks⟩ := isWord
  have isToken := mem_words_join (fun token inTokens => (tokensOf_isWord inTokens).2.solid) mem
  obtain ⟨_, whole, isWhole, front, back, rfl, outer⟩ := tokensOf_isWord isToken
  refine ⟨_, isWhole, front ++ before, behind ++ back, by simp, fun c inside => ?_⟩
  simp only [mem_append] at inside inMarks outer
  rcases inside with (atFront | atBefore) | atBehind | atBack
  · exact outer c (.inl atFront)
  · exact inMarks c (.inl atBefore)
  · exact inMarks c (.inr atBehind)
  · exact outer c (.inr atBack)

theorem ConsistsOf.of_join {target : List Char}
    (consists : ConsistsOf ([' '].intercalate (tokensOf source)) target) :
    ConsistsOf source target := fun word mem => (consists word mem).of_join

theorem consistsOf_trim (source : List Char) : ConsistsOf source (trim source) := by
  intro word mem
  rw [words_trim] at mem
  exact ⟨word, mem, [], [], by simp, nofun⟩

theorem extractBestIdentifier_isWord (found : extractBestIdentifier letters source = some word) :
    IsWordOf source word := by
  rcases Option.or_eq_some_iff.mp found with camel | ⟨_, snake⟩
  · exact firstToken_isWord (by decide) camel
  · exact firstToken_isWord (by decide) snake

theorem plainTarget_consists {intent : ContextIntent}
    {narrowed : List Char} (mem : word ∈ (plainTarget letters text intent narrowed).texts) :
    ConsistsOf narrowed word ∨ extractBestIdentifier letters narrowed = none ∧ ConsistsOf text word := by
  unfold plainTarget at mem
  split at mem
  · next path found =>
    have same : word = path := by
      unfold pathTarget at mem
      split at mem <;> exact mem_singleton.mp mem
    exact .inl (same ▸ firstToken_isWord (by decide) found).consists
  · split at mem
    · next found => exact .inl (mem_singleton.mp mem ▸ firstToken_isWord (by decide) found).consists
    · split at mem
      · next found =>
        obtain rfl := mem_singleton.mp mem
        rcases Option.or_eq_some_iff.mp found with own | ⟨none, other⟩
        · exact .inl (extractBestIdentifier_isWord own).consists
        · exact .inr ⟨none, (extractBestIdentifier_isWord other).consists⟩
      · split at mem
        · next found => exact .inl (mem_singleton.mp mem ▸ firstToken_isWord (by decide) found).consists
        · exact .inl (mem_singleton.mp mem ▸ consistsOf_trim narrowed)

/-- `rest` follows the phrase in the text itself, where the text before it, with the phrase,
is as long as its lowercase form. -/
def FollowsEvenly (letters : Letters) (text front rest : List Char) : Prop :=
  ∃ count, ((letters.lowered (trim text)).take count).flatten = front ∧
    byteLength ((trim text).take count) = byteLength front ∧ rest = trim ((trim text).drop count)

/-- The target of a plain text: words that follow the phrase, or else words of the text if
none is left or none of them is the name of a type or a function. -/
theorem parseQuery_consists (letters : Letters) (text : List Char) (even : ∀ front ∈ matchedPhrase
    letters text (classifyIntent letters text), ∃ rest, FollowsEvenly letters text front rest) :
    ∃ request, parseQuery letters text = some request ∧ (extractQuoted text = none →
      extractFilePath text = none → extractQualifiedName letters text = none →
        ∃ rest, (matchedPhrase letters text (classifyIntent letters text) = none ∧ rest = trim text ∨
            ∃ front ∈ matchedPhrase letters text (classifyIntent letters text), FollowsEvenly letters text front rest) ∧
          ∀ word ∈ request.target.texts, ConsistsOf rest word ∨ (tokensOf rest = [] ∨
            extractBestIdentifier letters ([' '].intercalate (tokensOf rest)) = none) ∧
            ConsistsOf text word) := by
  have stripped : ∃ rest, (matchedPhrase letters text (classifyIntent letters text) = none ∧ rest = trim text ∨
        ∃ front ∈ matchedPhrase letters text (classifyIntent letters text), FollowsEvenly letters text front rest) ∧
      stripIntentWords letters text (classifyIntent letters text) =
        some (if tokensOf rest = [] then trim text else [' '].intercalate (tokensOf rest)) := by
    unfold stripIntentWords
    cases matched : matchedPhrase letters text (classifyIntent letters text) with
    | none => exact ⟨trim text, .inl ⟨rfl, rfl⟩, rfl⟩
    | some front =>
      obtain ⟨rest, count, lowered, long, rfl⟩ := even front matched
      refine ⟨_, .inr ⟨front, rfl, count, lowered, long, rfl⟩, ?_⟩
      have cut := @Content.dropBytes_append ((trim text).take count) ((trim text).drop count)
      rw [take_append_drop, long] at cut
      simp only [cut]
      rfl
  obtain ⟨rest, follows, strips⟩ := stripped
  unfold parseQuery extractTarget
  cases extractQuoted text with
  | some quoted => exact ⟨_, rfl, nofun⟩
  | none =>
    cases extractFilePath text with
    | some path => exact ⟨_, rfl, fun _ => nofun⟩
    | none =>
      cases extractQualifiedName letters text with
      | some qname => exact ⟨_, rfl, fun _ _ => nofun⟩
      | none =>
        dsimp only
        rw [strips]
        refine ⟨_, rfl, fun _ _ _ => ⟨rest, follows, fun word mem => ?_⟩⟩
        by_cases empty : tokensOf rest = []
        · rw [if_pos empty] at mem
          refine .inr ⟨.inl empty, ?_⟩
          rcases plainTarget_consists mem with own | ⟨_, other⟩
          · intro part inside
            obtain ⟨token, isToken, rest⟩ := own part inside
            exact ⟨token, words_trim text ▸ isToken, rest⟩
          · exact other
        · rw [if_neg empty] at mem
          rcases plainTarget_consists mem with own | ⟨none, other⟩
          · exact .inl own.of_join
          · exact .inr ⟨.inr none, other⟩

def asciiLetters : Letters where
  isAlphabetic := Char.isAlpha
  isAlphanumeric := Char.isAlphanum
  isUppercase := Char.isUpper
  isLowercase := Char.isLower
  lowered text := text.map fun c => [c.toLower]

def callerQuery : List Char := "FooBar who calls helper".toList

theorem matchedPhrase_callerQuery :
    matchedPhrase asciiLetters callerQuery (classifyIntent asciiLetters callerQuery) =
      some "foobar who calls".toList := by decide

theorem parseQuery_consists_callerQuery : (parseQuery asciiLetters callerQuery).isSome := by
  obtain ⟨request, parsed, _⟩ := parseQuery_consists asciiLetters callerQuery (by
    rw [matchedPhrase_callerQuery]
    intro phrase found
    obtain rfl := Option.mem_some_iff.mp found
    exact ⟨_, 16, by decide, by decide, rfl⟩)
  exact Option.isSome_iff_exists.mpr ⟨request, parsed⟩

/-- The phrase is followed by `helper`, but the target is the word before it. -/
theorem callerQuery_target :
    ((parseQuery asciiLetters callerQuery).map fun request => request.target.texts) =
      some ["FooBar".toList] ∧ tokensOf " helper".toList = ["helper".toList] := by
  decide

end Atlas.Review
