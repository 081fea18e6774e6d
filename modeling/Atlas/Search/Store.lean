import Atlas.Repo.Path
import Atlas.Sql.Like
import Atlas.Store.Schema

/-! `store/search.rs`, and the lookups of `store/context.rs` and `store/retrieval.rs` that a
search makes. A hit keeps the row it was read from, since a node does not carry the
repository it belongs to. Scores are `f64`; the full-text matcher with its ranking, the
regex engine and the similarity of embeddings are not part of this repository. All of
these are parameters. Ranking evidence is only ever serialized and is left out, and so
are errors of the database. -/
namespace Atlas.Search
open Core Store Sql

structure SearchQuery where
  text : String := ""
  kind : Option String := none
  language : Option String := none
  includeFiles : Bool := false
  filePath : Option String := none
  subpath : Option String := none
  isTest : Option Bool := none
  limit : Nat := 20
  graphExpand : Bool := false
  graphMaxHops : Nat := 1
  referenceFile : Option String := none
  referenceLanguage : Option String := none
  fuzzyMatch : Bool := false
  recentFileBoost : Bool := false
  changedFiles : List String := []
  hybrid : Bool := false
  topKFts : Nat := 60
  topKVector : Nat := 60
  rrfK : Nat := 60
  regexPattern : Option String := none
  /-- Restrict search to these indexed repo ids. Empty means all repos. -/
  repoIds : List String := []

/-- What a search takes from libraries, from SQLite and from `f64` arithmetic. -/
structure Library (Score Embedding : Type) where
  toLowercase : List Char → List Char
  (isUppercase isLowercase : Char → Bool)
  levenshtein : List Char → List Char → Nat
  /-- `Regex::new` and the `is_match` of what it returns. -/
  compileRegex : String → Except String (String → Bool)
  whole : Nat → Score
  add : Score → Score → Score
  /-- `left > right`; false when they cannot be compared. -/
  exceeds : Score → Score → Bool
  /-- `nodes_fts MATCH query`. -/
  ftsMatches : String → FtsDocument → Bool
  /-- `-bm25(nodes_fts)`. -/
  negatedBm25 : List FtsDocument → String → FtsDocument → Score
  cosineSimilarity : Embedding → List UInt8 → Score
  /-- `1 / (k + rank + 1)`. -/
  rankContribution : Nat → Nat → Score
  /-- The highest of `1` and the seeds' scores, divided by `hop + 1`. -/
  hopScore : List Score → Nat → Score
  /-- In the order of `indexed_at`, latest first. -/
  recentlyIndexedFiles : Db → Nat → List String

structure ScoredNode (Score : Type) where
  row : NodeRow
  score : Score
  deriving DecidableEq

variable {Score Embedding : Type}

def ScoredNode.node (result : ScoredNode Score) : Node := rowToNode result.row
def ScoredNode.qualifiedName (result : ScoredNode Score) : String := result.row.qualifiedName
def trimmed (text : String) : List Char := Repo.trim text.toList

def normalizeKindAlias (input : String) : String :=
  let lowered := String.ofList (input.toList.map Char.toLower)
  if lowered ∈ ["fn", "func", "function"] then "function"
  else if lowered ∈ ["method", "meth"] then "method"
  else if lowered ∈ ["struct", "record"] then "struct"
  else if lowered ∈ ["interface", "iface"] then "interface"
  else if lowered ∈ ["module", "mod"] then "module"
  else if lowered ∈ ["variable", "var", "field"] then "variable"
  else if lowered ∈ ["constant", "const"] then "constant"
  else if lowered ∈ ["import", "use"] then "import"
  else if lowered ∈ ["package", "pkg"] then "package"
  else lowered

def sqlLimit {Row : Type} (limit : Nat) (rows : List Row) : List Row :=
  if limit < 2 ^ 63 then rows.take limit else rows

def subpathLike (subpath : String) (filePath : String) : Bool :=
  like (escapeLike subpath.toList ++ ['%']) filePath.toList

/-- The `WHERE` clause. A kind takes the place of the exclusion of files. -/
def passesFilters (regex : Option (String → Bool)) (query : SearchQuery) (row : NodeRow) : Bool :=
  (query.repoIds.isEmpty || decide (row.sourceRepoId ∈ query.repoIds)) && (match query.kind with
    | some kind => decide (row.kind = normalizeKindAlias kind)
    | none => query.includeFiles || decide (row.kind ≠ "file")) &&
  query.language.all (fun language => decide (row.language = some language)) &&
  query.filePath.all (fun filePath => decide (row.filePath = filePath)) &&
  query.isTest.all (fun isTest => decide (row.isTest = isTest)) &&
  query.subpath.all (fun subpath => subpathLike subpath row.filePath) &&
  regex.all (fun isMatch => isMatch row.name || isMatch row.qualifiedName)

section
variable (lib : Library Score Embedding)

def byScore (results : List (ScoredNode Score)) : List (ScoredNode Score) :=
  results.insertionSort fun left right => lib.exceeds right.score left.score = false

def compileRegex : Option String → Except AtlasError (Option (String → Bool))
  | none => .ok none
  | some pattern =>
    match lib.compileRegex pattern with
    | .ok isMatch => .ok (some isMatch)
    | .error msg => .error (.other ("invalid regex pattern: " ++ msg))

def isOperator (token : List Char) : Bool :=
  decide (token ∈ ["AND".toList, "OR".toList, "NOT".toList])

def looksLikeSafeFtsTerm (token : List Char) : Bool :=
  let stem := if token.getLast? = some '*' then token.dropLast else token
  !stem.isEmpty && stem.all fun c => c.isAlphanum || decide (c = '_')

def safeTokens : Option (List Char) → List (List Char) → Bool
  | _, [] => true
  | before, token :: rest =>
    (if isOperator token then
      before.any (fun left => !isOperator left) && rest.head?.any (fun right => !isOperator right)
    else looksLikeSafeFtsTerm token) && safeTokens (some token) rest

def looksLikeSafeFtsQuery (text : List Char) : Bool :=
  let tokens := Repo.splitWhitespace text
  !tokens.isEmpty && safeTokens none tokens

def fts5Escape (text : String) : String :=
  if looksLikeSafeFtsQuery text.toList then text
  else String.ofList
    (['"'] ++ text.toList.flatMap (fun c => if c = '"' then ['"', '"'] else [c]) ++ ['"'])

def structuralScan (db : Db) (regex : Option (String → Bool)) (query : SearchQuery) :
    List (ScoredNode Score) :=
  let rows := (db.nodes.insertionSort fun left right => left.id ≤ right.id).filter
    (passesFilters regex query)
  (sqlLimit query.limit rows).map fun row => { row, score := lib.whole 1 }

def ftsRows (db : Db) (ftsQuery : String) : List (ScoredNode Score) :=
  (db.nodesFts.filter (lib.ftsMatches ftsQuery)).flatMap fun document =>
    (db.nodes.filter fun row => decide (row.id = document.rowid)).map fun row =>
      { row, score := lib.negatedBm25 db.nodesFts ftsQuery document }

def fullTextScan (db : Db) (regex : Option (String → Bool)) (query : SearchQuery) :
    List (ScoredNode Score) :=
  let rows := (ftsRows lib db (fts5Escape query.text)).filter fun result => passesFilters regex query result.row
  sqlLimit query.limit (byScore lib rows)

def searchStore (db : Db) (query : SearchQuery) : Except AtlasError (List (ScoredNode Score)) := do
  let regex ← compileRegex lib query.regexPattern
  if (trimmed query.text).isEmpty then
    if regex.isNone then .error (.other "search requires a non-empty text or regex pattern")
    else .ok (structuralScan lib db regex query)
  else .ok (fullTextScan lib db regex query)

end

def nodeByQname (db : Db) (qname : String) : Option NodeRow :=
  db.nodes.find? fun row => decide (row.qualifiedName = qname)

def nodesByName (db : Db) (name : String) (limit : Nat) : List NodeRow :=
  sqlLimit limit ((db.nodes.filter fun row => decide (row.name = name)).insertionSort
    fun left right => left.filePath < right.filePath ∨ left.filePath = right.filePath ∧ left.lineStart ≤ right.lineStart)

def nodesByQualifiedNames (db : Db) (qualifiedNames : List String) : List NodeRow :=
  db.nodes.filter fun row => decide (row.qualifiedName ∈ qualifiedNames)

def nodesConnectedTo (db : Db) (qualifiedNames : List String) : List NodeRow :=
  db.nodes.filter fun row => decide ((∃ edge ∈ db.edges,
      edge.sourceQualified ∈ qualifiedNames ∧ edge.targetQualified = row.qualifiedName ∨
      edge.targetQualified ∈ qualifiedNames ∧ edge.sourceQualified = row.qualifiedName) ∧
    row.qualifiedName ∉ qualifiedNames)

section
variable (lib : Library Score Embedding)

def vectorCandidates (db : Db) (embedding : Embedding) (limit : Nat) : List (String × Score) :=
  let scored := db.retrievalChunks.filterMap fun chunk => chunk.embedding.map fun blob =>
    (chunk.nodeQn, lib.cosineSimilarity embedding blob)
  (scored.insertionSort fun left right => lib.exceeds right.2 left.2 = false).take limit

def nodesByVectorSimilarity (db : Db) (embedding : Embedding) (limit : Nat) :
    List (ScoredNode Score) :=
  let candidates := vectorCandidates lib db embedding limit
  let rows := nodesByQualifiedNames db (candidates.map Prod.fst)
  byScore lib (rows.map fun row =>
    { row
      score := ((candidates.reverse.find? fun candidate =>
        decide (candidate.1 = row.qualifiedName)).map Prod.snd).getD (lib.whole 0) })

end
end Atlas.Search
