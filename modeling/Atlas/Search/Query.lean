import Mathlib.Data.List.Destutter
import Atlas.Search.Store

/-! `search_with_embedding`: exact lookups, full-text and relaxed full-text search merged by
qualified name, or full-text and vector search merged by rank; then boosts, graph
expansion, the exclusion of files and the limit. Hash maps are lists in the order of
insertion: what leaves them is sorted by score and qualified name. -/
namespace Atlas.Search
open Core Store Sql
open Repo (splitWhitespace)

variable {Score Embedding : Type}

section
variable (lib : Library Score Embedding)

/-- A new word starts at an upper-case letter next to a lower-case one. -/
def splitCamelFrom (before : Option Char) (current : List Char) : List Char → List (List Char)
  | [] => if current.isEmpty then [] else [current]
  | c :: rest =>
    if lib.isUppercase c && before.isSome &&
      (before.any lib.isLowercase || rest.head?.any lib.isLowercase) && !current.isEmpty then
      current :: splitCamelFrom (some c) [c] rest
    else splitCamelFrom (some c) (current ++ [c]) rest

variable (text : List Char) (db : Db) (query : SearchQuery)

def splitCamel : List (List Char) := splitCamelFrom lib none [] text
def splitSnake : List (List Char) := (text.splitOn '_').filter (· ≠ [])

def severalParts (parts : List (List Char)) : List (List Char) :=
  if 1 < parts.length then parts.map lib.toLowercase else []

/-- The whole text and its camel-case, snake-case and whitespace parts, all lowered. -/
def tokenVariants : List (List Char) := [lib.toLowercase text] ++ severalParts lib (splitCamel lib
    text) ++ severalParts lib (splitSnake text) ++ severalParts lib (splitWhitespace text)

/-- Neighbouring repetitions are dropped. -/
def joinOr (tokens : List (List Char)) : String :=
  String.ofList (" OR ".toList.intercalate (tokens.destutter (· ≠ ·)))

def buildFtsQuery (text : String) : String :=
  let text := trimmed text
  if text.isEmpty then "" else joinOr (tokenVariants lib text)

def relaxedPrefix (token : List Char) : Option (List Char) :=
  if token.length < 4 then none
  else some (token.take (if 6 ≤ token.length then 3 else 2) ++ ['*'])

def buildRelaxedFtsQuery (text : String) : String :=
  let text := trimmed text
  if text.isEmpty then "" else joinOr ((tokenVariants lib text).filterMap relaxedPrefix)

/-- A blank subpath does not filter, and the rest is compared without outer blanks. -/
def matchesSubpath (filePath : String) (subpath : Option String) : Bool :=
  match subpath with
  | none => true
  | some subpath => (trimmed subpath).isPrefixOf filePath.toList

def editDistance (left right : List Char) (cap : Nat) : Nat :=
  if cap < (left.length - right.length) + (right.length - left.length) then cap + 1
  else min (lib.levenshtein left right) (cap + 1)

def fuzzyThreshold (length : Nat) : Nat :=
  if length ≤ 3 then 0
  else if length ≤ 5 then 1
  else if length ≤ 8 then 2
  else 3

def isNonCodeLanguage (language : String) : Bool := decide (String.ofList
    (language.toList.map Char.toLower) ∈ ["markdown", "md", "json", "toml", "yaml", "yml"])

def fuzzyDistanceBonus : Nat → Int
  | 0 => 24
  | 1 => 18
  | 2 => 12
  | _ => 8

def fuzzyKindBonus : NodeKind → Int
  | .function | .method => 10
  | .class | .struct | .trait | .interface | .enum | .constant | .variable | .test => 8
  | .module | .package => 5
  | .import => -4
  | .file => -8

def fuzzyTypoBonus (node : Node) (lowered : List Char) (cap : Nat) : Nat :=
  let distance := editDistance lib lowered (lib.toLowercase node.name.toList) cap
  if cap = 0 ∨ cap < distance then 0
  else (fuzzyDistanceBonus distance + fuzzyKindBonus node.kind +
    if isNonCodeLanguage node.language then -6 else 0).toNat

def kindBoost : NodeKind → Nat
  | .function | .method => 3
  | .class | .struct | .trait | .interface => 2
  | .enum => 1
  | _ => 0

def directory (path : String) : List Char :=
  (path.toList.reverse.dropWhile (· ≠ '/')).drop 1 |>.reverse

def isExported (modifiers : Option String) : Bool :=
  modifiers.any fun text => ["pub", "public", "export"].any fun needle =>
    (lib.toLowercase text.toList).tails.any needle.toList.isPrefixOf

/-- The sum of the boosts is a small whole number, which `f64` holds exactly. -/
def rankingBoost (recentFiles : List String) (node : Node) : Nat :=
  let lowered := lib.toLowercase (trimmed query.text)
  let name := lib.toLowercase node.name.toList
  let exactName := decide (name = lowered)
  let startsName := !exactName && lowered.isPrefixOf name
  (if exactName then 20 else 0) + (if startsName then 5 else 0) +
    (if lib.toLowercase node.qualifiedName.toList = lowered then 15 else 0) +
    (if query.fuzzyMatch && !(exactName || startsName) then
      fuzzyTypoBonus lib node lowered (fuzzyThreshold lowered.length) else 0) +
    kindBoost node.kind +
    (if isExported lib node.modifiers then 2 else 0) +
    (if query.referenceFile.any fun file => directory node.filePath = directory file then 3
      else 0) +
    (if query.referenceLanguage.any fun language =>
        lib.toLowercase node.language.toList = lib.toLowercase language.toList then 2
      else 0) +
    (if node.filePath ∈ recentFiles then 4 else 0) +
    (if node.filePath ∈ query.changedFiles then 5 else 0)

def sortScoredNodes (results : List (ScoredNode Score)) : List (ScoredNode Score) :=
  results.insertionSort fun left right => lib.exceeds left.score right.score = true ∨
    lib.exceeds right.score left.score = false ∧ left.qualifiedName ≤ right.qualifiedName

def applyRankingBoosts (recentFiles : List String) (results : List (ScoredNode Score)) :
    List (ScoredNode Score) :=
  sortScoredNodes lib (results.map fun result => { result with
    score := lib.add result.score
      (lib.whole (rankingBoost lib query recentFiles result.node)) })

def recentFiles : List String :=
  if query.recentFileBoost then lib.recentlyIndexedFiles db 50 else []

def mergeScoredNodes (primary secondary : List (ScoredNode Score)) : List (ScoredNode Score) :=
  mergeAll ScoredNode.qualifiedName id (fun result old =>
    if lib.exceeds result.score old.score then result else old)
    (primary ++ secondary) []

def maybeExcludeFileNodes (results : List (ScoredNode Score))
    (includeFiles : Bool) (limit : Nat) : List (ScoredNode Score) := (if includeFiles then results
    else results.filter fun result => decide (result.node.kind ≠ .file)).take limit

/-- The lookups by name only look at the kind `file` and at the subpath. -/
def admitsExact (row : NodeRow) : Bool := (query.includeFiles ||
    decide ((rowToNode row).kind ≠ .file)) && matchesSubpath row.filePath query.subpath

/-- A name found by the second lookup too keeps the score of the first. -/
def exactSymbolHits : List (ScoredNode Score) :=
  let text := trimmed query.text
  if text.isEmpty then []
  else
    let byQname := (nodeByQname db (String.ofList text)).toList.filter (admitsExact query)
    let byName := if text.any Repo.isWhitespace then []
      else (nodesByName db (String.ofList text) (max query.limit 25)).filter (admitsExact query)
    insertAllOrIgnore ScoredNode.qualifiedName (byName.map fun row =>
      { row, score := lib.whole 80 }) (byQname.map fun row => { row, score := lib.whole 100 })

def expandFrom (score : Score) (results : List (ScoredNode Score)) (qname : String) :
    List (ScoredNode Score) :=
  insertAllOrIgnore ScoredNode.qualifiedName ((nodesConnectedTo db [qname]).map fun row => { row, score }) results

def expandHops (db : Db) (seeds : List Score) (limit : Nat) :
    Nat → Nat → List String → List (ScoredNode Score) → List (ScoredNode Score)
  | _, 0, _, results => results
  | hop, hops + 1, frontier, results =>
    if frontier.isEmpty || decide (limit ≤ results.length) then results
    else
      let expanded := frontier.foldl (expandFrom db (lib.hopScore seeds hop)) results
      let fresh := (expanded.drop results.length).map ScoredNode.qualifiedName
      expandHops db seeds limit (hop + 1) hops fresh expanded

def graphExpand (seeds : List (ScoredNode Score)) (maxHops limit : Nat) : List (ScoredNode Score) :=
  let start := insertAllOrIgnore ScoredNode.qualifiedName seeds []
  (sortScoredNodes lib (expandHops lib db (seeds.map ScoredNode.score) limit 1 maxHops
    (seeds.map ScoredNode.qualifiedName) start)).take limit

def fuseRanks (k : Nat) (ranked merged : List (ScoredNode Score)) : List (ScoredNode Score) :=
  mergeAll ScoredNode.qualifiedName
    (fun entry => { entry.1 with
      score := lib.add (lib.whole 0) (lib.rankContribution k entry.2) })
    (fun entry old => { old with
      score := lib.add old.score (lib.rankContribution k entry.2) })
    ranked.zipIdx merged

def reciprocalRankFusion (fts vector : List (ScoredNode Score)) (k : Nat) :
    List (ScoredNode Score) := sortScoredNodes lib (fuseRanks lib k vector (fuseRanks lib k fts []))

def searchHybrid (embedText : String → Except String Embedding) :
    Except AtlasError (List (ScoredNode Score)) := do
  let fts ← searchStore lib db
    { query with text := buildFtsQuery lib query.text, limit := query.topKFts }
  let boosted := applyRankingBoosts lib query (recentFiles lib db query) fts
  match embedText query.text with
  | .error msg => .error (.other msg)
  | .ok embedding =>
    let vector := maybeExcludeFileNodes
      (nodesByVectorSimilarity lib db embedding query.topKVector)
      query.includeFiles query.topKVector
    .ok (maybeExcludeFileNodes (reciprocalRankFusion lib boosted vector query.rrfK) query.includeFiles query.limit)

def isFuzzyHit (row : NodeRow) : Bool :=
  let text := trimmed query.text
  let cap := fuzzyThreshold text.length
  decide (cap ≠ 0) && decide (editDistance lib (lib.toLowercase text) (lib.toLowercase row.name.toList) cap ≤ cap)

def relaxedQuery : SearchQuery :=
  { query with
    text := buildRelaxedFtsQuery lib query.text
    limit := max (min (query.limit * 5) (2 ^ 64 - 1)) 25 }

def relaxes : Bool := query.fuzzyMatch && decide ((relaxedQuery lib query).text ≠ "")

def relaxedHits : Except AtlasError (List (ScoredNode Score)) := do
  if relaxes lib query then
    let results ← searchStore lib db (relaxedQuery lib query)
    .ok (results.filter fun result => isFuzzyHit lib query result.row)
  else .ok []

def searchText : Except AtlasError (List (ScoredNode Score)) := do
  let exact := exactSymbolHits lib db query
  let fts ← searchStore lib db { query with text := buildFtsQuery lib query.text }
  let relaxed ← relaxedHits lib db query
  let found := if relaxes lib query then mergeScoredNodes lib fts relaxed else fts
  let boosted := applyRankingBoosts lib query (recentFiles lib db query)
    (mergeScoredNodes lib exact found)
  if query.graphExpand && !boosted.isEmpty then
    .ok (maybeExcludeFileNodes (graphExpand lib db boosted query.graphMaxHops query.limit) query.includeFiles query.limit)
  else .ok (maybeExcludeFileNodes boosted query.includeFiles query.limit)

def searchWithEmbedding (embedText : Option (String → Except String Embedding)) :
    Except AtlasError (List (ScoredNode Score)) :=
  match query.hybrid, embedText with
  | true, some embedText => searchHybrid lib db query embedText
  | _, _ => searchText lib db query

end
end Atlas.Search
