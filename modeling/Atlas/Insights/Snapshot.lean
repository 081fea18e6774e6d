import Atlas.Refactor.LineEdits
import Atlas.Store.Queries
import Atlas.Store.RepoIsolation

/-! The graph of one repository as the insights engine loads it. The glob set of the ignored files
comes from an external crate and is a parameter. -/
namespace Atlas.Insights
open List Core Store

section
variable (nfc : String → String)

def fileOwnerId (db : Db) (path : String) : Except AtlasError (Option String) := do
  let canonical ← canonicalizeRepoPath nfc path
  match singleSourceRepoIdForPath db canonical with
  | some repo => fileOwnerIdForRepo nfc db repo canonical
  | none => .ok none

def edgesByFile (db : Db) (path : String) : Except AtlasError (List Edge) := do
  let canonical ← canonicalizeRepoPath nfc path
  .ok ((db.edges.filter fun row => decide (row.filePath = some canonical)).filterMap rowToEdge)

end

structure InsightsConfig where
  ignoreFiles : List String := []
  ignoreModules : List String := []
  ignoreNodeKinds : List String := []
  ignoreFilesGlob : Option (String → Bool) := none

def stripPrefix? (pattern text : String) : Option (List Char) :=
  if pattern.toList.isPrefixOf text.toList then some (text.toList.drop pattern.length) else none

def matchesAny (separator text : String) (patterns : List String) : Bool :=
  patterns.any fun pattern => decide (text = pattern) ||
    (stripPrefix? pattern text).any fun rest => separator.toList.isPrefixOf rest

def pathMatchesAny : String → List String → Bool := matchesAny "/"
def moduleMatchesAny : String → List String → Bool := matchesAny "::"
def pathMatchesIgnoreList (config : InsightsConfig) (path : String) : Bool :=
  config.ignoreFilesGlob.any (fun isMatch => isMatch path) || pathMatchesAny path config.ignoreFiles

def parentOf? (path : String) : Option (List Char) :=
  match (path.toList.reverse.dropWhile (· ≠ '/')) with
  | [] => none
  | _ :: rest => some rest.reverse

def moduleIdForFile (filePath : String) (ownerId : Option String) : String :=
  match ownerId with
  | some ownerId => ownerId
  | none =>
    match parentOf? filePath with
    | some parent => if parent ≠ [] then "module:" ++ String.ofList parent else "module:<root>"
    | none => "module:<root>"

def eqIgnoreAsciiCase (left right : String) : Bool :=
  left.toList.map Char.toLower == right.toList.map Char.toLower

def isIgnoredNode (config : InsightsConfig) (node : Node) (ownerId : Option String) : Bool :=
  let moduleId := moduleIdForFile node.filePath ownerId
  pathMatchesIgnoreList config node.filePath || moduleMatchesAny node.qualifiedName
    config.ignoreModules || moduleMatchesAny moduleId config.ignoreModules ||
    ownerId.any (fun owner => moduleMatchesAny owner config.ignoreModules) ||
    config.ignoreNodeKinds.any fun kind => eqIgnoreAsciiCase kind node.kind.asStr

structure GraphSnapshot where
  nodes : List Node
  edges : List Edge
  ownerByFile : List (String × Option String)
  fileHashByFile : List (String × String)

structure Loaded where
  ownerByFile : List (String × Option String) := []
  nodes : List Node := []
  edges : List Edge := []

section
variable (nfc : String → String) (config : InsightsConfig)

def loadFiles (db : Db) : List String → Loaded → Except AtlasError Loaded
  | [], loaded => .ok loaded
  | path :: rest, loaded => do
      let ownerId ← fileOwnerId nfc db path
      let nodes ← nodesByFile nfc db path
      let edges ← edgesByFile nfc db path
      loadFiles db rest
        { ownerByFile := loaded.ownerByFile ++ [(path, ownerId)]
          nodes := loaded.nodes ++ nodes
          edges := loaded.edges ++ edges }

def Loaded.ownerOf (loaded : Loaded) (path : String) : Option String :=
  (loaded.ownerByFile.find? fun entry => decide (entry.1 = path)).bind Prod.snd

def Loaded.snapshot (loaded : Loaded) (fileHashByFile : List (String × String)) : GraphSnapshot :=
  let allowedNodes := loaded.nodes.filter fun node => !isIgnoredNode config node (loaded.ownerOf node.filePath)
  let allowedQnames := allowedNodes.map Node.qualifiedName
  let allowedFiles := allowedNodes.map Node.filePath
  { nodes := allowedNodes
    edges := loaded.edges.filter fun edge => decide (edge.filePath ∈ allowedFiles ∧
      edge.sourceQn ∈ allowedQnames ∧ edge.targetQn ∈ allowedQnames)
    ownerByFile := loaded.ownerByFile.filter fun entry => decide (entry.1 ∈ allowedFiles)
    fileHashByFile := fileHashByFile.filter fun entry => decide (entry.1 ∈ allowedFiles) }

def snapshotForRepo (db : Db) (repo : String) : Except AtlasError GraphSnapshot := do
  let fileHashByFile := (fileHashes db repo).insertionSort fun left right => left.1 ≤ right.1
  let loaded ← loadFiles nfc db (ascending (fileHashByFile.map Prod.fst)) {}
  .ok (loaded.snapshot config fileHashByFile)

def singleSourceRepoId (db : Db) : Option String :=
  match (((db.files.filter fun row => decide (row.sourceRepoId ∉ pseudoRepoIds)).map
      FileRow.sourceRepoId).dedup).take 2 with
  | [repo] => some repo
  | _ => none

def analysedRepoId (stableRepoId : String → String) (db : Db) (repoRoot : String) : String :=
  match db.graphBuildState.find? fun row => decide (row.repoRoot = repoRoot) with
  | some status => status.sourceRepoId
  | none => (singleSourceRepoId db).getD (stableRepoId repoRoot)

def loadGraphSnapshot (stableRepoId : String → String) (db : Db) (repoRoot : String) :
    Except AtlasError GraphSnapshot :=
  snapshotForRepo nfc config db (analysedRepoId stableRepoId db repoRoot)

end

/-! Fingerprints of the callables of a repository, and the cache file that keeps them between calls.
A cache is here what its file reads back as; a file that is missing, broken or of another version is
`none`. -/

structure TokenSet where
  tokens : List String
  ascending : tokens.Pairwise (· < ·)
  deriving DecidableEq

variable (text : List Char) (tokens : List String) (node : Node)

theorem ascending_collect : (tokens.dedup.insertionSort (· ≤ ·)).Pairwise (· < ·) := by
  have sorted := pairwise_insertionSort (· ≤ ·) tokens.dedup
  have nodup : (tokens.dedup.insertionSort (· ≤ ·)).Nodup := (perm_insertionSort _ _).nodup_iff.mpr tokens.nodup_dedup
  exact (sorted.and nodup).imp fun both => lt_of_le_of_ne both.1 both.2

namespace TokenSet

def collect (tokens : List String) : TokenSet :=
  ⟨tokens.dedup.insertionSort (· ≤ ·), ascending_collect tokens⟩

instance : EmptyCollection TokenSet := ⟨⟨[], .nil⟩⟩

@[simp] theorem collect_tokens (set : TokenSet) : collect set.tokens = set := by
  obtain ⟨tokens, ascending⟩ := set
  unfold collect
  congr 1
  have nodup : tokens.Nodup := ascending.imp fun less => ne_of_lt less
  change insertionSort _ tokens.dedup = tokens
  rw [nodup.dedup]
  exact (ascending.imp fun less => le_of_lt less).insertionSort_eq

end TokenSet

def isCallableNode : Bool := decide (node.kind = .function ∨ node.kind = .method)

def stripParentheses (params : List Char) : List Char :=
  match params.head?, params.getLast? with
  | some '(', some ')' => params.tail.dropLast
  | _, _ => params

def parseArity (params : Option String) : Nat :=
  match params with
  | none => 0
  | some params =>
    let inner := Repo.trim (stripParentheses (Repo.trim params.toList))
    if inner = [] then 0 else (inner.splitOn ',').length

def spaceWords (previousIsLower : Bool) : List Char → List Char
  | [] => []
  | ch :: rest =>
    (if ch.isUpper && previousIsLower then [' '] else []) ++
      (if ch.isAlphanum then ch.toLower else ' ') :: spaceWords ch.isLower rest

def tokenizeIdentifier (text : String) : TokenSet :=
  .collect ((Repo.splitWhitespace (spaceWords false text.toList)).map String.ofList)

def tokenizeSource : List String := (Repo.splitWhitespace (text.map fun ch =>
    if ch.isAlphanum || ch == '_' then ch.toLower else ' ')).map String.ofList

def signatureTokens : TokenSet := .collect ((tokenizeIdentifier node.name).tokens ++
    [node.params, node.returnType, node.modifiers].flatMap fun source =>
      source.elim [] fun text => tokenizeSource text.toList)

def sourceExcerptFromText (source : String) (node : Node) : List Char :=
  let start := node.lineStart - 1
  ['\n'].intercalate (((Text.lines source.toList).drop start).take (node.lineEnd - start))

def keywords : List String :=
  ["if", "else", "for", "while", "loop", "match", "return", "let", "const", "fn", "pub", "impl",
    "struct", "enum", "trait", "class", "interface", "switch", "case", "break", "continue", "try",
    "catch", "throw", "await", "async", "new", "use", "import", "export", "mod", "where", "in", "true",
    "false", "none", "some", "ok", "err"]

def isKeyword (token : String) : Bool := decide (token ∈ keywords)

def normalizeDuplicateTokens : List String := (tokenizeSource text).map fun token =>
    if token.toList.all Char.isDigit then "<num>" else if isKeyword token then token else "<id>"

def windows (size : Nat) (tokens : List String) : List (List String) :=
  (range (tokens.length + 1 - size)).map fun start => (tokens.drop start).take size

def shingles (size : Nat) : TokenSet :=
  if tokens = [] then ∅
  else if tokens.length ≤ size then .collect [" ".intercalate tokens]
  else .collect ((windows size tokens).map (" ".intercalate ·))

def summarizeDuplicatePattern : String := " ".intercalate (tokens.take 12)
def similarShingleSize : Nat := 3
def duplicateShingleSize : Nat := 4

structure InsightSymbolSummary where
  (qualifiedName displayName filePath : String)
  (lineStart lineEnd : Nat)
  (language nodeKind moduleId : String)

def symbolSummary (moduleId : String) : InsightSymbolSummary where
  qualifiedName := node.qualifiedName
  displayName := node.name
  filePath := node.filePath
  lineStart := node.lineStart
  lineEnd := node.lineEnd
  language := node.language
  nodeKind := node.kind.asStr
  moduleId := moduleId

structure CallableFingerprint where
  summary : InsightSymbolSummary
  arity : Nat
  (nameTokens signatureTokens bodyShingles duplicateShingles : TokenSet)
  (duplicateSignature duplicateSummary : String)
  neighborNames : TokenSet
  loc : Nat

structure PersistedCallableFingerprint where
  (arity loc : Nat)
  (nameTokens signatureTokens bodyShingles duplicateShingles : List String)
  (duplicateSignature duplicateSummary : String)

structure PersistedFingerprintFile where
  fileHash : String
  callables : List (String × PersistedCallableFingerprint)

structure PersistedFingerprintCache where
  files : List (String × PersistedFingerprintFile)

def PersistedCallableFingerprint.fromRuntime (fingerprint : CallableFingerprint) :
    PersistedCallableFingerprint where
  arity := fingerprint.arity
  loc := fingerprint.loc
  nameTokens := fingerprint.nameTokens.tokens
  signatureTokens := fingerprint.signatureTokens.tokens
  bodyShingles := fingerprint.bodyShingles.tokens
  duplicateShingles := fingerprint.duplicateShingles.tokens
  duplicateSignature := fingerprint.duplicateSignature
  duplicateSummary := fingerprint.duplicateSummary

def PersistedCallableFingerprint.toRuntime (persisted : PersistedCallableFingerprint)
    (summary : InsightSymbolSummary) (neighborNames : TokenSet) : CallableFingerprint where
  summary := summary
  arity := persisted.arity
  nameTokens := .collect persisted.nameTokens
  signatureTokens := .collect persisted.signatureTokens
  bodyShingles := .collect persisted.bodyShingles
  duplicateShingles := .collect persisted.duplicateShingles
  duplicateSignature := persisted.duplicateSignature
  duplicateSummary := persisted.duplicateSummary
  neighborNames := neighborNames
  loc := persisted.loc

/-- The names that are called, referenced or imported by each qualified name and not taken yet. -/
abbrev Outbound := String → TokenSet

def Outbound.remove (outbound : Outbound) (name : String) : TokenSet × Outbound :=
  (outbound name, Function.update outbound name ∅)
def lookup {Value : Type} (entries : List (String × Value)) (key : String) : Option Value :=
  (entries.find? fun entry => decide (entry.1 = key)).map Prod.snd

/-- `collect::<BTreeMap<_, _>>`: in the order of the keys, each with the last of its values. -/
def collectMap {Value : Type} (entries : List (String × Value)) : List (String × Value) :=
  (TokenSet.collect (entries.map Prod.fst)).tokens.filterMap fun key =>
    entries.reverse.find? fun entry => decide (entry.1 = key)

section
variable (moduleByQname : String → Option String)

def moduleIdOf (node : Node) : String := (moduleByQname node.qualifiedName).getD "module:<unknown>"

def restoreNodes (callables : List (String × PersistedCallableFingerprint)) :
    List Node → Outbound → Option (List CallableFingerprint) × Outbound
  | [], outbound => (some [], outbound)
  | node :: rest, outbound =>
    match lookup callables node.qualifiedName with
    | none => (none, outbound)
    | some persisted =>
      let (neighborNames, outbound) := outbound.remove node.qualifiedName
      let (restored, outbound) := restoreNodes callables rest outbound
      (restored.map fun fingerprints =>
        persisted.toRuntime (symbolSummary node (moduleIdOf moduleByQname node)) neighborNames :: fingerprints, outbound)

def restoreCachedFileFingerprints (cached : Option PersistedFingerprintFile)
    (fileHash : Option String) (nodes : List Node) (outbound : Outbound) :
    Option (List CallableFingerprint × PersistedFingerprintFile) × Outbound :=
  match cached, fileHash with
  | some cached, some fileHash =>
    if fileHash = "" ∨ cached.fileHash ≠ fileHash then (none, outbound)
    else if TokenSet.collect (nodes.map Node.qualifiedName) ≠
      TokenSet.collect (cached.callables.map Prod.fst) then (none, outbound)
    else
      let (restored, outbound) := restoreNodes moduleByQname cached.callables nodes outbound
      (restored.map fun fingerprints => (fingerprints, cached), outbound)
  | _, _ => (none, outbound)

def buildFileFingerprints (source : String) :
    List Node → Outbound → List CallableFingerprint × Outbound
  | [], outbound => ([], outbound)
  | node :: rest, outbound =>
    let sourceExcerpt := sourceExcerptFromText source node
    let duplicateTokens := normalizeDuplicateTokens sourceExcerpt
    let (neighborNames, outbound) := outbound.remove node.qualifiedName
    let (built, outbound) := buildFileFingerprints source rest outbound
    ({ summary := symbolSummary node (moduleIdOf moduleByQname node)
       arity := parseArity node.params
       nameTokens := tokenizeIdentifier node.name
       signatureTokens := signatureTokens node
       bodyShingles := shingles (tokenizeSource sourceExcerpt) similarShingleSize
       duplicateShingles := shingles duplicateTokens duplicateShingleSize
       duplicateSignature := " ".intercalate duplicateTokens
       duplicateSummary := summarizeDuplicatePattern duplicateTokens
       neighborNames
       loc := node.lineEnd - node.lineStart + 1 } :: built, outbound)

end

def persistedFingerprintFile (fileHash : String) (fingerprints : List CallableFingerprint) :
    PersistedFingerprintFile where
  fileHash := fileHash
  callables := collectMap (fingerprints.map fun fingerprint =>
    (fingerprint.summary.qualifiedName, .fromRuntime fingerprint))

def lastSegment : List Char → List Char → List Char
  | ':' :: ':' :: _, segment => segment
  | ch :: rest, segment => lastSegment rest (ch :: segment)
  | [], segment => segment

def nameOfTarget (nodes : List Node) (targetQn : String) : String :=
  match nodes.reverse.find? fun node => decide (node.qualifiedName = targetQn) with
  | some node => node.name
  | none => String.ofList (lastSegment targetQn.toList.reverse [])

def outboundOf (snapshot : GraphSnapshot) : Outbound := fun source =>
  .collect ((snapshot.edges.filter fun edge => decide (edge.sourceQn = source ∧
    (edge.kind = .calls ∨ edge.kind = .references ∨ edge.kind = .imports))).map fun edge =>
      nameOfTarget snapshot.nodes edge.targetQn)

abbrev Bytes := List UInt8
abbrev Worktree := String → Option Bytes

def decodeUtf8 (bytes : Bytes) : Option String := String.fromUTF8? ⟨⟨bytes⟩⟩
def readToString (worktree : Worktree) (path : String) : String :=
  ((worktree path).bind decodeUtf8).getD ""
def callableNodes (snapshot : GraphSnapshot) : List Node := snapshot.nodes.filter isCallableNode
def callableNodesOf (snapshot : GraphSnapshot) (path : String) : List Node :=
  (callableNodes snapshot).filter fun node => decide (node.filePath = path)
def callableFiles (snapshot : GraphSnapshot) : List String :=
  (TokenSet.collect ((callableNodes snapshot).map Node.filePath)).tokens

def precedes (left right : CallableFingerprint) : Bool :=
  compare left.summary.filePath right.summary.filePath |>.then
    (compare left.summary.lineStart right.summary.lineStart) |>.then
    (compare left.summary.qualifiedName right.summary.qualifiedName) |>.isLE

section
variable (worktree : Worktree) (snapshot : GraphSnapshot) (moduleByQname : String → Option String)

def fingerprintFiles (cache : PersistedFingerprintCache) :
    List String → Outbound → List CallableFingerprint × List (String × PersistedFingerprintFile)
  | [], _ => ([], [])
  | path :: rest, outbound =>
    let nodes := callableNodesOf snapshot path
    match restoreCachedFileFingerprints moduleByQname (lookup cache.files path)
        (lookup snapshot.fileHashByFile path) nodes outbound with
    | (some (cached, persisted), outbound) =>
      let (fingerprints, files) := fingerprintFiles cache rest outbound
      (cached ++ fingerprints, (path, persisted) :: files)
    | (none, outbound) =>
      let (built, outbound) :=
        buildFileFingerprints moduleByQname (readToString worktree path) nodes outbound
      let fileHash := (lookup snapshot.fileHashByFile path).getD ""
      let (fingerprints, files) := fingerprintFiles cache rest outbound
      (built ++ fingerprints, (path, persistedFingerprintFile fileHash built) :: files)

def callableFingerprints (cacheFile : Option PersistedFingerprintCache) :
    List CallableFingerprint × PersistedFingerprintCache :=
  let cache := cacheFile.getD ⟨[]⟩
  let (fingerprints, files) := fingerprintFiles worktree snapshot moduleByQname cache
    (callableFiles snapshot) (outboundOf snapshot)
  (fingerprints.insertionSort fun left right => precedes left right = true, ⟨files⟩)

end
end Atlas.Insights
