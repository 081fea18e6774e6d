import Atlas.Insights.Snapshot
import Mathlib.Data.List.Induction

/-! Runs of edits, graph updates and fingerprint calls, and what the cache file shows of the
past. -/
namespace Atlas.Insights
open List Core Store Function

def describe (source : String) (node : Node) : PersistedCallableFingerprint :=
  let sourceExcerpt := sourceExcerptFromText source node
  let duplicateTokens := normalizeDuplicateTokens sourceExcerpt
  { arity := parseArity node.params
    loc := node.lineEnd - node.lineStart + 1
    nameTokens := (tokenizeIdentifier node.name).tokens
    signatureTokens := (signatureTokens node).tokens
    bodyShingles := (shingles (tokenizeSource sourceExcerpt) similarShingleSize).tokens
    duplicateShingles := (shingles duplicateTokens duplicateShingleSize).tokens
    duplicateSignature := " ".intercalate duplicateTokens
    duplicateSummary := summarizeDuplicatePattern duplicateTokens }

structure SameText (left right : Node) : Prop where
  name : left.name = right.name
  params : left.params = right.params
  returnType : left.returnType = right.returnType
  modifiers : left.modifiers = right.modifiers
  lineStart : left.lineStart = right.lineStart
  lineEnd : left.lineEnd = right.lineEnd

theorem SameText.describe_eq {left right : Node} (same : SameText left right) (source : String) :
    describe source left = describe source right := by
  unfold describe sourceExcerptFromText signatureTokens
  rw [same.name, same.params, same.returnType, same.modifiers, same.lineStart, same.lineEnd]

theorem fromRuntime_toRuntime_describe (source : String)
    (node : Node) (summary : InsightSymbolSummary) (neighborNames : TokenSet) :
    .fromRuntime ((describe source node).toRuntime summary neighborNames) = describe source node := by
  unfold PersistedCallableFingerprint.toRuntime PersistedCallableFingerprint.fromRuntime describe
  simp only [TokenSet.collect_tokens]

section
variable {Value : Type} {entries : List (String × Value)} {key : String} {value : Value}

theorem mem_of_lookup (found : lookup entries key = some value) : (key, value) ∈ entries := by
  unfold lookup at found
  obtain ⟨entry, isEntry, rfl⟩ := Option.map_eq_some_iff.mp found
  have isKey := find?_some isEntry
  rw [decide_eq_true_eq] at isKey
  rw [← isKey]
  exact mem_of_find?_eq_some isEntry

theorem lookup_isSome : (lookup entries key).isSome = true ↔ key ∈ entries.map Prod.fst := by
  unfold lookup
  rw [Option.isSome_map, find?_isSome, mem_map]
  simp only [decide_eq_true_eq]

theorem lookup_map (gives : String → Value) {keys : List String} (mem : key ∈ keys) :
    lookup (keys.map fun key => (key, gives key)) key = some (gives key) := by
  cases found : lookup (keys.map fun key => (key, gives key)) key with
  | none =>
    have missing : ¬ (lookup (keys.map fun key => (key, gives key)) key).isSome = true := by
      rw [found]
      exact Bool.false_ne_true
    rw [lookup_isSome, map_map] at missing
    exact absurd (mem_map.mpr ⟨key, mem, rfl⟩) missing
  | some value =>
    obtain ⟨other, _, isEntry⟩ := mem_map.mp (mem_of_lookup found)
    cases isEntry
    rfl

variable {token : String} {left right : List String}

theorem TokenSet.mem_collect {tokens : List String} :
    token ∈ (TokenSet.collect tokens).tokens ↔ token ∈ tokens := by
  unfold TokenSet.collect
  rw [mem_insertionSort, mem_dedup]

theorem TokenSet.mem_iff_of_collect_eq (same : TokenSet.collect left = TokenSet.collect right) :
    token ∈ left ↔ token ∈ right := by
  rw [← TokenSet.mem_collect, same, TokenSet.mem_collect]

theorem mem_of_mem_collectMap {entry : String × Value} (mem : entry ∈ collectMap entries) :
    entry ∈ entries := by
  unfold collectMap at mem
  obtain ⟨key, _, found⟩ := mem_filterMap.mp mem
  exact mem_reverse.mp (mem_of_find?_eq_some found)

theorem TokenSet.collect_congr (same : ∀ token, token ∈ left ↔ token ∈ right) :
    TokenSet.collect left = TokenSet.collect right := by
  have perm : (TokenSet.collect left).tokens.Perm (TokenSet.collect right).tokens := by
    refine (perm_ext_iff_of_nodup ?_ ?_).mpr fun token => ?_
    · exact (TokenSet.collect left).ascending.imp fun less => ne_of_lt less
    · exact (TokenSet.collect right).ascending.imp fun less => ne_of_lt less
    · rw [TokenSet.mem_collect, TokenSet.mem_collect]
      exact same token
  have tokens : (TokenSet.collect left).tokens = (TokenSet.collect right).tokens :=
    perm.eq_of_pairwise (fun _ _ _ _ less greater => absurd greater (lt_asymm less))
      (TokenSet.collect left).ascending (TokenSet.collect right).ascending
  cases leftSet : TokenSet.collect left
  cases rightSet : TokenSet.collect right
  rw [leftSet, rightSet] at tokens
  subst tokens
  rfl

theorem mem_keys_collectMap :
    key ∈ (collectMap entries).map Prod.fst ↔ key ∈ entries.map Prod.fst := by
  constructor
  · intro mem
    obtain ⟨entry, isEntry, rfl⟩ := mem_map.mp mem
    exact mem_map_of_mem (mem_of_mem_collectMap isEntry)
  · intro mem
    obtain ⟨given, isGiven, isKey⟩ := mem_map.mp mem
    cases found : entries.reverse.find? fun entry => decide (entry.1 = key) with
    | none =>
      have differs := find?_eq_none.mp found given (mem_reverse.mpr isGiven)
      exact absurd (decide_eq_true isKey) differs
    | some entry =>
      have same := find?_some found
      rw [decide_eq_true_eq] at same
      refine mem_map.mpr ⟨entry, mem_filterMap.mpr ⟨key, ?_, found⟩, same⟩
      exact TokenSet.mem_collect.mpr mem

end

def renderNodes (moduleByQname : String → Option String)
    (persisted : Node → PersistedCallableFingerprint) :
    List Node → Outbound → List CallableFingerprint × Outbound
  | [], outbound => ([], outbound)
  | node :: rest, outbound =>
    let (neighborNames, outbound) := outbound.remove node.qualifiedName
    let (rendered, outbound) := renderNodes moduleByQname persisted rest outbound
    ((persisted node).toRuntime (symbolSummary node (moduleIdOf moduleByQname node)) neighborNames :: rendered, outbound)

def restorable (cached : Option PersistedFingerprintFile)
    (fileHash : Option String) (nodes : List Node) : Option PersistedFingerprintFile :=
  match cached, fileHash with
  | some cached, some fileHash =>
    if fileHash ≠ "" ∧ cached.fileHash = fileHash ∧
      TokenSet.collect (nodes.map Node.qualifiedName) =
      TokenSet.collect (cached.callables.map Prod.fst) then some cached else none
  | _, _ => none

section
variable {moduleByQname : String → Option String} {cached : Option PersistedFingerprintFile}
  {fileHash : Option String} {nodes : List Node} {file : PersistedFingerprintFile}

theorem restorable_eq_some :
    restorable cached fileHash nodes = some file ↔ cached = some file ∧ fileHash =
      some file.fileHash ∧ file.fileHash ≠ "" ∧ TokenSet.collect (nodes.map Node.qualifiedName) =
        TokenSet.collect (file.callables.map Prod.fst) := by
  unfold restorable
  cases cached with
  | none => simp
  | some cached =>
    cases fileHash with
    | none => simp
    | some fileHash =>
      dsimp only
      split
      · rename_i holds
        obtain ⟨present, recorded, names⟩ := holds
        constructor
        · intro same
          cases same
          exact ⟨rfl, by rw [recorded], recorded ▸ present, names⟩
        · rintro ⟨same, _⟩
          exact same
      · rename_i fails
        constructor
        · intro same
          cases same
        · rintro ⟨same, recorded, present, names⟩
          cases same
          cases recorded
          exact absurd ⟨present, rfl, names⟩ fails

private theorem buildFileFingerprints_eq (source : String) (nodes : List Node) (outbound : Outbound) :
    buildFileFingerprints moduleByQname source nodes outbound = renderNodes moduleByQname (describe source) nodes outbound := by
  induction nodes generalizing outbound with
  | nil => rfl
  | cons node rest ih =>
    unfold buildFileFingerprints renderNodes
    dsimp only
    rw [ih]
    unfold PersistedCallableFingerprint.toRuntime describe
    simp only [TokenSet.collect_tokens]

def persistedOf (source : String) (file : Option PersistedFingerprintFile) (node : Node) :
    PersistedCallableFingerprint :=
  (file.bind fun file => lookup file.callables node.qualifiedName).getD (describe source node)

private theorem restoreNodes_eq {source : String} {nodes : List Node} (known : ∀ node ∈ nodes,
    node.qualifiedName ∈ file.callables.map Prod.fst) (outbound : Outbound) :
    restoreNodes moduleByQname file.callables nodes outbound =
      (some (renderNodes moduleByQname (persistedOf source (some file)) nodes outbound).1,
        (renderNodes moduleByQname (persistedOf source (some file)) nodes outbound).2) := by
  induction nodes generalizing outbound with
  | nil => rfl
  | cons node rest ih =>
    have found := lookup_isSome.mpr (known node (.head _))
    obtain ⟨persisted, isPersisted⟩ := Option.isSome_iff_exists.mp found
    have rendered : persistedOf source (some file) node = persisted := by
      unfold persistedOf
      rw [Option.bind_some, isPersisted, Option.getD_some]
    unfold restoreNodes renderNodes
    rw [isPersisted, rendered]
    dsimp only
    rw [ih fun other mem => known other (mem_cons_of_mem _ mem)]
    rfl

private theorem restoreCachedFileFingerprints_eq (source : String) (outbound : Outbound) :
    restoreCachedFileFingerprints moduleByQname cached fileHash nodes outbound =
      match restorable cached fileHash nodes with
      | some file =>
        (some ((renderNodes moduleByQname (persistedOf source (some file)) nodes outbound).1, file),
          (renderNodes moduleByQname (persistedOf source (some file)) nodes outbound).2)
      | none => (none, outbound) := by
  cases found : restorable cached fileHash nodes with
  | some file =>
    obtain ⟨rfl, rfl, present, names⟩ := restorable_eq_some.mp found
    have known : ∀ node ∈ nodes, node.qualifiedName ∈ file.callables.map Prod.fst :=
      fun node mem => (TokenSet.mem_iff_of_collect_eq names).mp (mem_map_of_mem mem)
    unfold restoreCachedFileFingerprints
    simp only [present, ne_eq, not_true_eq_false, or_self, if_false, names]
    rw [restoreNodes_eq known]
    rfl
  | none =>
    unfold restoreCachedFileFingerprints
    cases cached with
    | none => rfl
    | some cached =>
      cases fileHash with
      | none => rfl
      | some fileHash =>
        dsimp only
        split
        · rfl
        · split
          · rfl
          · rename_i recorded names
            obtain ⟨present, same⟩ := not_or.mp recorded
            have restored := restorable_eq_some.mpr ⟨rfl, congrArg some (not_not.mp same).symm,
              not_not.mp same ▸ present, not_not.mp names⟩
            exact absurd (restored.symm.trans found) (by simp)

private theorem renderNodes_congr {left right : Node → PersistedCallableFingerprint}
    (same : ∀ node ∈ nodes, left node = right node) (outbound : Outbound) :
    renderNodes moduleByQname left nodes outbound = renderNodes moduleByQname right nodes outbound := by
  induction nodes generalizing outbound with
  | nil => rfl
  | cons node rest ih =>
    unfold renderNodes
    rw [same node mem_cons_self]
    dsimp only
    rw [ih fun other mem => same other (mem_cons_of_mem _ mem)]

variable {persisted : Node → PersistedCallableFingerprint} {outbound : Outbound}

private theorem mem_renderNodes
    {fingerprint : CallableFingerprint}
    (mem : fingerprint ∈ (renderNodes moduleByQname persisted nodes outbound).1) :
    ∃ node ∈ nodes, ∃ neighborNames, fingerprint = (persisted node).toRuntime
      (symbolSummary node (moduleIdOf moduleByQname node)) neighborNames := by
  induction nodes generalizing outbound with
  | nil => cases mem
  | cons node rest ih =>
    rcases mem_cons.mp mem with rfl | later
    · exact ⟨node, .head _, _, rfl⟩
    · obtain ⟨other, isNode, neighborNames, same⟩ := ih later
      exact ⟨other, .tail _ isNode, neighborNames, same⟩

private theorem exists_mem_renderNodes
    {node : Node} (mem : node ∈ nodes) :
    ∃ neighborNames, (persisted node).toRuntime (symbolSummary node (moduleIdOf moduleByQname node))
      neighborNames ∈ (renderNodes moduleByQname persisted nodes outbound).1 := by
  induction nodes generalizing outbound with
  | nil => cases mem
  | cons first rest ih =>
    rcases mem_cons.mp mem with rfl | later
    · exact ⟨_, .head _⟩
    · obtain ⟨neighborNames, isFingerprint⟩ := @ih (outbound.remove first.qualifiedName).2 later
      exact ⟨neighborNames, .tail _ isFingerprint⟩

private theorem persistedFingerprintFile_built (recorded source : String) (outbound : Outbound) :
    persistedFingerprintFile recorded
      (renderNodes moduleByQname (describe source) nodes outbound).1 =
      ⟨recorded, collectMap (nodes.map fun node => (node.qualifiedName, describe source node))⟩ := by
  unfold persistedFingerprintFile
  congr 2
  induction nodes generalizing outbound with
  | nil => rfl
  | cons node rest ih =>
    unfold renderNodes
    dsimp only
    rw [map_cons, map_cons, ih, fromRuntime_toRuntime_describe]
    rfl

end

def entryAt (snapshot : GraphSnapshot) (cache : PersistedFingerprintCache) (path : String) :
    Option PersistedFingerprintFile :=
  restorable (lookup cache.files path) (lookup snapshot.fileHashByFile path) (callableNodesOf snapshot path)

def writtenAt (worktree : Worktree) (snapshot : GraphSnapshot)
    (cache : PersistedFingerprintCache) (path : String) : PersistedFingerprintFile :=
  (entryAt snapshot cache path).getD ⟨(lookup snapshot.fileHashByFile path).getD "",
    collectMap ((callableNodesOf snapshot path).map
      fun node => (node.qualifiedName, describe (readToString worktree path) node))⟩

def renderFiles (moduleByQname : String → Option String)
    (snapshot : GraphSnapshot) (persisted : String → Node → PersistedCallableFingerprint) :
    List String → Outbound → List CallableFingerprint
  | [], _ => []
  | path :: rest, outbound =>
    let (rendered, outbound) :=
      renderNodes moduleByQname (persisted path) (callableNodesOf snapshot path) outbound
    rendered ++ renderFiles moduleByQname snapshot persisted rest outbound

section
variable {worktree : Worktree} {snapshot : GraphSnapshot} {moduleByQname : String → Option String}
  {cache : PersistedFingerprintCache} {persisted : String → Node → PersistedCallableFingerprint}
  {paths : List String} {outbound : Outbound}

private theorem fingerprintFiles_eq (paths : List String) (outbound : Outbound) :
    fingerprintFiles worktree snapshot moduleByQname cache paths outbound =
      (renderFiles moduleByQname snapshot (fun path =>
        persistedOf (readToString worktree path) (entryAt snapshot cache path)) paths outbound,
        paths.map fun path => (path, writtenAt worktree snapshot cache path)) := by
  induction paths generalizing outbound with
  | nil => rfl
  | cons path rest ih =>
    unfold fingerprintFiles renderFiles
    dsimp only
    rw [restoreCachedFileFingerprints_eq (readToString worktree path) outbound, map_cons]
    have entry : restorable (lookup cache.files path) (lookup snapshot.fileHashByFile path)
      (callableNodesOf snapshot path) = entryAt snapshot cache path := rfl
    rw [entry]
    unfold writtenAt
    cases found : entryAt snapshot cache path with
    | some file =>
      dsimp only
      rw [ih]
      rfl
    | none =>
      have built : persistedOf (readToString worktree path) none = describe (readToString worktree path) := rfl
      dsimp only
      rw [buildFileFingerprints_eq, ih, persistedFingerprintFile_built, built]
      rfl

private theorem renderFiles_congr {other : String → Node → PersistedCallableFingerprint}
    (same : ∀ path ∈ paths, ∀ node ∈ callableNodesOf snapshot path, persisted path node = other path node) (outbound : Outbound) :
    renderFiles moduleByQname snapshot persisted paths outbound = renderFiles moduleByQname snapshot other paths outbound := by
  induction paths generalizing outbound with
  | nil => rfl
  | cons path rest ih =>
    unfold renderFiles
    rw [renderNodes_congr (same path mem_cons_self)]
    dsimp only
    rw [ih fun later mem => same later (mem_cons_of_mem _ mem)]

private theorem mem_renderFiles {fingerprint : CallableFingerprint}
    (mem : fingerprint ∈ renderFiles moduleByQname snapshot persisted paths outbound) :
    ∃ path ∈ paths, ∃ node ∈ callableNodesOf snapshot path, ∃ neighborNames, fingerprint =
      (persisted path node).toRuntime (symbolSummary node (moduleIdOf moduleByQname node))
      neighborNames := by
  induction paths generalizing outbound with
  | nil => cases mem
  | cons path rest ih =>
    rcases mem_append.mp mem with here | later
    · exact ⟨path, .head _, mem_renderNodes here⟩
    · obtain ⟨other, isPath, rendered⟩ := ih later
      exact ⟨other, .tail _ isPath, rendered⟩

private theorem exists_mem_renderFiles {path : String}
    (isPath : path ∈ paths) {node : Node} (isNode : node ∈ callableNodesOf snapshot path) :
    ∃ neighborNames, (persisted path node).toRuntime (symbolSummary node (moduleIdOf moduleByQname
      node)) neighborNames ∈ renderFiles moduleByQname snapshot persisted paths outbound := by
  induction paths generalizing outbound with
  | nil => cases isPath
  | cons first rest ih =>
    rcases mem_cons.mp isPath with rfl | later
    · obtain ⟨neighborNames, rendered⟩ := exists_mem_renderNodes isNode
      exact ⟨neighborNames, mem_append_left _ rendered⟩
    · obtain ⟨neighborNames, rendered⟩ := @ih (renderNodes moduleByQname (persisted first)
        (callableNodesOf snapshot first) outbound).2 later
      exact ⟨neighborNames, mem_append_right _ rendered⟩

theorem callableFingerprints_eq (cacheFile : Option PersistedFingerprintCache) :
    callableFingerprints worktree snapshot moduleByQname cacheFile =
      ((renderFiles moduleByQname snapshot (fun path => persistedOf (readToString worktree path)
        (entryAt snapshot (cacheFile.getD ⟨[]⟩) path)) (callableFiles snapshot)
            (outboundOf snapshot)).insertionSort fun left right => precedes left right = true,
        ⟨(callableFiles snapshot).map fun path =>
          (path, writtenAt worktree snapshot (cacheFile.getD ⟨[]⟩) path)⟩) := by
  unfold callableFingerprints
  dsimp only
  rw [fingerprintFiles_eq]

theorem entryAt_nil (path : String) : entryAt snapshot ⟨[]⟩ path = none := by
  unfold entryAt lookup restorable
  rfl

theorem callableNodesOf_spec {path : String}
    {node : Node} (mem : node ∈ callableNodesOf snapshot path) :
    node ∈ snapshot.nodes ∧ node.filePath = path := by
  obtain ⟨isNode, located⟩ := mem_filter.mp mem
  exact ⟨mem_of_mem_filter isNode, of_decide_eq_true located⟩

end

section
variable (hash : Bytes → String) (parse : String → Bytes → List Node)

def ParsedFrom (content : Bytes) (node : Node) : Prop :=
  ∃ origin parsed, ((parse origin content).reverse.find? fun other =>
    decide (other.qualifiedName = node.qualifiedName)) = some parsed ∧ SameText parsed node

structure ParsedGraph where
  snapshot : GraphSnapshot
  indexed : ∀ path fileHash, lookup snapshot.fileHashByFile path = some fileHash →
    ∃ content, hash content = fileHash ∧ ∀ node ∈ snapshot.nodes, node.filePath = path →
    ParsedFrom parse content node

structure State where
  worktree : Worktree
  graph : ParsedGraph hash parse
  cacheFile : Option PersistedFingerprintCache

inductive Step where
  | edit (worktree : Worktree)
  | update (graph : ParsedGraph hash parse)
  | fingerprint (moduleByQname : String → Option String) (persists : Bool)

variable {hash parse}

def State.call (state : State hash parse) (moduleByQname : String → Option String) :
    List CallableFingerprint × PersistedFingerprintCache :=
  callableFingerprints state.worktree state.graph.snapshot moduleByQname state.cacheFile

/-- A cache that cannot be written leaves the file as it is. -/
def Step.apply (state : State hash parse) : Step hash parse → State hash parse
  | .edit worktree => { state with worktree }
  | .update graph => { state with graph }
  | .fingerprint moduleByQname persists =>
    { state with cacheFile :=
        if persists then some (state.call moduleByQname).2 else state.cacheFile }

def run (state : State hash parse) (steps : List (Step hash parse)) : State hash parse :=
  steps.foldl Step.apply state

def Matches (hash : Bytes → String) (worktree : Worktree) (snapshot : GraphSnapshot) : Prop :=
  ∀ path fileHash, lookup snapshot.fileHashByFile path = some fileHash →
    ∃ content, worktree path = some content ∧ hash content = fileHash

/-- Once the files match, a call returns what it returns without the cache file. -/
def State.Invisible (state : State hash parse) : Prop :=
  ∀ worktree moduleByQname, Matches hash worktree state.graph.snapshot →
    (callableFingerprints worktree state.graph.snapshot moduleByQname state.cacheFile).1 =
      (callableFingerprints worktree state.graph.snapshot moduleByQname none).1

def textOf (content : Bytes) : String := (decodeUtf8 content).getD ""

/-- A call reads nothing else of the callables than what the recorded content has there: no
file that is not restored has a recorded hash, or its text describes each callable as that
content does. -/
def State.ReadsIndexed (state : State hash parse) : Prop := ∀ path ∈ callableFiles
    state.graph.snapshot, entryAt state.graph.snapshot (state.cacheFile.getD ⟨[]⟩) path = none →
    ∀ content, lookup state.graph.snapshot.fileHashByFile path = some (hash content) → hash content ≠ "" →
      ∀ node ∈ callableNodesOf state.graph.snapshot path,
        describe (readToString state.worktree path) node = describe (textOf content) node

def Honest (hash : Bytes → String)
    (parse : String → Bytes → List Node) (cache : PersistedFingerprintCache) : Prop :=
  ∀ file ∈ cache.files.map Prod.snd, file.fileHash ≠ "" → ∀ content, hash content = file.fileHash → ∀ entry ∈ file.callables,
      ∀ node, ParsedFrom parse content node → node.qualifiedName = entry.1 → entry.2 = describe (textOf content) node

section
variable {pathOf : String → String} {worktree : Worktree} {snapshot : GraphSnapshot}
  {cache : PersistedFingerprintCache} {path : String} {content : Bytes} {state : State hash parse}

theorem entryAt_mem {file : PersistedFingerprintFile}
    (found : entryAt snapshot cache path = some file) : file ∈ cache.files.map Prod.snd := by
  obtain ⟨cached, _⟩ := restorable_eq_some.mp found
  exact mem_map_of_mem (mem_of_lookup cached)

theorem ParsedFrom.describe_eq
    (named : ∀ origin content, ∀ node ∈ parse origin content, pathOf node.qualifiedName = origin)
    {left right : Node} (leftParsed : ParsedFrom parse content left)
    (rightParsed : ParsedFrom parse content right) (same : left.qualifiedName = right.qualifiedName)
    (source : String) : describe source left = describe source right := by
  obtain ⟨leftOrigin, leftNode, leftFound, leftText⟩ := leftParsed
  obtain ⟨rightOrigin, rightNode, rightFound, rightText⟩ := rightParsed
  have leftName := find?_some leftFound
  have rightName := find?_some rightFound
  rw [decide_eq_true_eq] at leftName rightName
  have leftPath := named leftOrigin content leftNode (mem_reverse.mp (mem_of_find?_eq_some leftFound))
  have rightPath := named rightOrigin content rightNode (mem_reverse.mp (mem_of_find?_eq_some rightFound))
  rw [leftName, same] at leftPath
  rw [rightName] at rightPath
  rw [leftPath.symm.trans rightPath, same] at leftFound
  cases leftFound.symm.trans rightFound
  rw [← leftText.describe_eq, rightText.describe_eq]

theorem ParsedGraph.parsed (injective : Injective hash) (graph : ParsedGraph hash parse)
    (recorded : lookup graph.snapshot.fileHashByFile path = some (hash content)) {node : Node}
    (mem : node ∈ callableNodesOf graph.snapshot path) : ParsedFrom parse content node := by
  obtain ⟨given, sameHash, parsed⟩ := graph.indexed path _ recorded
  cases injective sameHash
  obtain ⟨isNode, located⟩ := callableNodesOf_spec mem
  exact parsed node isNode located

theorem Honest.invisible (injective : Injective hash)
    (honest : Honest hash parse (state.cacheFile.getD ⟨[]⟩)) : state.Invisible := by
  intro worktree moduleByQname matched
  rw [callableFingerprints_eq, callableFingerprints_eq]
  dsimp only
  congr 1
  apply renderFiles_congr
  intro path _ node mem
  rw [Option.getD_none, entryAt_nil]
  cases found : entryAt state.graph.snapshot (state.cacheFile.getD ⟨[]⟩) path with
  | none => rfl
  | some file =>
    obtain ⟨cached, recorded, present, names⟩ := restorable_eq_some.mp found
    obtain ⟨content, isContent, sameHash⟩ := matched path _ recorded
    have isName := (TokenSet.mem_iff_of_collect_eq names).mp (mem_map_of_mem mem)
    obtain ⟨persisted, isPersisted⟩ := Option.isSome_iff_exists.mp (lookup_isSome.mpr isName)
    rw [← sameHash] at recorded
    have described := honest file (entryAt_mem found) present content sameHash _
      (mem_of_lookup isPersisted) node (state.graph.parsed injective recorded mem) rfl
    unfold persistedOf
    rw [Option.bind_some, isPersisted, Option.getD_some, Option.bind_none, Option.getD_none]
    unfold readToString
    rw [isContent]
    exact described

theorem Honest.call (injective : Injective hash)
    (named : ∀ origin content, ∀ node ∈ parse origin content, pathOf node.qualifiedName = origin)
    {state : State hash parse} (honest : Honest hash parse (state.cacheFile.getD ⟨[]⟩))
    (reads : state.ReadsIndexed) (moduleByQname : String → Option String) :
    Honest hash parse (state.call moduleByQname).2 := by
  unfold State.call
  rw [callableFingerprints_eq]
  intro file mem present content sameHash entry isEntry node parsed isName
  rw [map_map] at mem
  obtain ⟨path, isPath, rfl⟩ := mem_map.mp mem
  simp only [comp_apply] at present sameHash isEntry
  unfold writtenAt at present sameHash isEntry
  cases found : entryAt state.graph.snapshot (state.cacheFile.getD ⟨[]⟩) path with
  | some kept =>
    rw [found, Option.getD_some] at present sameHash isEntry
    exact honest kept (entryAt_mem found) present content sameHash entry isEntry node parsed isName
  | none =>
    rw [found, Option.getD_none] at present sameHash isEntry
    dsimp only at present sameHash isEntry
    obtain ⟨own, isOwn, rfl⟩ := mem_map.mp (mem_of_mem_collectMap isEntry)
    have recorded : lookup state.graph.snapshot.fileHashByFile path = some (hash content) := by
      cases recorded : lookup state.graph.snapshot.fileHashByFile path with
      | none => exact absurd (by rw [recorded]; rfl) present
      | some fileHash =>
        rw [recorded, Option.getD_some] at sameHash
        rw [sameHash]
    dsimp only
    rw [reads path isPath found content recorded (sameHash ▸ present) own isOwn]
    exact ParsedFrom.describe_eq named (state.graph.parsed injective recorded isOwn) parsed isName.symm _

theorem ParsedGraph.exists_matches (graph : ParsedGraph hash parse) :
    ∃ worktree, Matches hash worktree graph.snapshot := by
  have contents : ∀ path, ∃ file : Option Bytes, ∀ fileHash, lookup graph.snapshot.fileHashByFile
    path = some fileHash → ∃ content, file = some content ∧ hash content = fileHash := by
    intro path
    cases recorded : lookup graph.snapshot.fileHashByFile path with
    | none => exact ⟨none, fun fileHash same => by cases same⟩
    | some fileHash =>
      obtain ⟨content, sameHash, _⟩ := graph.indexed path fileHash recorded
      refine ⟨some content, fun other same => ?_⟩
      cases same
      exact ⟨content, rfl, sameHash⟩
  choose worktree matched using contents
  exact ⟨worktree, matched⟩

private theorem entryAt_written (isPath : path ∈ callableFiles snapshot)
    (unread : entryAt snapshot cache path = none)
    (recorded : lookup snapshot.fileHashByFile path = some (hash content)) (present : hash content ≠ "") :
    entryAt snapshot ⟨(callableFiles snapshot).map fun path =>
        (path, writtenAt worktree snapshot cache path)⟩ path =
      some ⟨hash content, collectMap ((callableNodesOf snapshot path).map fun node =>
        (node.qualifiedName, describe (readToString worktree path) node))⟩ := by
  apply restorable_eq_some.mpr
  refine ⟨?_, recorded, present, TokenSet.collect_congr fun name => ?_⟩
  · rw [lookup_map (writtenAt worktree snapshot cache) isPath]
    unfold writtenAt
    rw [unread, recorded, Option.getD_none, Option.getD_some]
  · rw [mem_keys_collectMap, map_map]
    rfl

theorem State.readsIndexed_of_matches (injective : Injective hash)
    (matched : Matches hash state.worktree state.graph.snapshot) : state.ReadsIndexed := by
  intro path _ _ content recorded _ node _
  obtain ⟨reached, isReached, sameHash⟩ := matched path _ recorded
  cases injective sameHash
  unfold readToString
  rw [isReached]
  rfl

theorem State.readsIndexed_of_invisible (injective : Injective hash)
    (named : ∀ origin content, ∀ node ∈ parse origin content, pathOf node.qualifiedName = origin)
      {moduleByQname : String → Option String}
    (invisible : ((Step.fingerprint moduleByQname true).apply state).Invisible) :
    state.ReadsIndexed := by
  intro path isPath unread content recorded present node isNode
  have parsed : ∀ other ∈ callableNodesOf state.graph.snapshot path,
    ParsedFrom parse content other := fun other mem => state.graph.parsed injective recorded mem
  obtain ⟨worktree, matched⟩ := state.graph.exists_matches
  have same := invisible worktree moduleByQname matched
  simp only [Step.apply, if_true] at same
  unfold State.call at same
  rw [callableFingerprints_eq, callableFingerprints_eq, callableFingerprints_eq] at same
  dsimp only [Option.getD_some] at same
  -- The fingerprint of the node that the cache shows is among those of the files.
  obtain ⟨neighborNames, shown⟩ := @exists_mem_renderFiles state.graph.snapshot moduleByQname
    (fun path => persistedOf (readToString worktree path)
      (entryAt state.graph.snapshot ⟨(callableFiles state.graph.snapshot).map fun path =>
        (path, writtenAt state.worktree state.graph.snapshot (state.cacheFile.getD ⟨[]⟩) path)⟩ path))
    (callableFiles state.graph.snapshot) (outboundOf state.graph.snapshot) path isPath node isNode
  have listed := (mem_insertionSort fun left right => precedes left right = true).mpr shown
  rw [same] at listed
  obtain ⟨otherPath, _, other, isOther, otherNames, isShown⟩ :=
    mem_renderFiles ((mem_insertionSort fun left right => precedes left right = true).mp listed)
  rw [entryAt_written isPath unread recorded present, Option.getD_none, entryAt_nil] at isShown
  have described : persistedOf (readToString worktree path)
    (some ⟨hash content, collectMap ((callableNodesOf state.graph.snapshot path).map fun node =>
        (node.qualifiedName, describe (readToString state.worktree path) node))⟩) node =
      describe (readToString state.worktree path) node := by
    have isName : node.qualifiedName ∈ (collectMap ((callableNodesOf state.graph.snapshot path).map
        fun node => (node.qualifiedName, describe (readToString state.worktree path) node))).map Prod.fst := by
      rw [mem_keys_collectMap, map_map]
      exact mem_map_of_mem isNode
    obtain ⟨persisted, isPersisted⟩ := Option.isSome_iff_exists.mp (lookup_isSome.mpr isName)
    obtain ⟨own, isOwn, isEntry⟩ := mem_map.mp (mem_of_mem_collectMap (mem_of_lookup isPersisted))
    obtain ⟨sameName, isDescribed⟩ := Prod.mk.inj isEntry
    unfold persistedOf
    rw [Option.bind_some, isPersisted, Option.getD_some, ← isDescribed]
    exact ParsedFrom.describe_eq named (parsed own isOwn) (parsed node isNode) sameName _
  rw [described] at isShown
  have summaries := congrArg CallableFingerprint.summary isShown
  have samePath : node.filePath = other.filePath := congrArg InsightSymbolSummary.filePath summaries
  have sameName : node.qualifiedName = other.qualifiedName := congrArg InsightSymbolSummary.qualifiedName summaries
  rw [(callableNodesOf_spec isNode).2, (callableNodesOf_spec isOther).2] at samePath
  subst samePath
  have texts := congrArg PersistedCallableFingerprint.fromRuntime isShown
  change _ = PersistedCallableFingerprint.fromRuntime ((describe (readToString worktree path) other).toRuntime _ _) at texts
  rw [fromRuntime_toRuntime_describe, fromRuntime_toRuntime_describe] at texts
  obtain ⟨reached, isReached, sameHash⟩ := matched path _ recorded
  cases injective sameHash
  rw [texts, ParsedFrom.describe_eq named (parsed other isOther) (parsed node isNode) sameName.symm]
  unfold readToString textOf
  rw [isReached]
  rfl

/-- The cache file stays invisible throughout a run exactly when each call that wrote it had
read the indexed text of the callables. -/
theorem callableFingerprints_invisible_iff (injective : Injective hash)
    (named : ∀ origin content, ∀ node ∈ parse origin content, pathOf node.qualifiedName = origin)
    {start : State hash parse} (absent : start.cacheFile = none) (steps : List (Step hash parse)) :
    (∀ before after, steps = before ++ after → (run start before).Invisible) ↔
      ∀ before moduleByQname after, steps = before ++ .fingerprint moduleByQname true :: after →
        (run start before).ReadsIndexed := by
  constructor
  · intro invisible before moduleByQname after split
    have reached := invisible (before ++ [.fingerprint moduleByQname true]) after (by rw [split, append_assoc]; rfl)
    unfold run at reached
    rw [foldl_append] at reached
    exact State.readsIndexed_of_invisible injective named reached
  · intro reads before after split
    apply Honest.invisible injective
    induction before using reverseRecOn generalizing after with
    | nil =>
      rw [show (run start []).cacheFile = none from absent]
      intro file mem
      cases mem
    | append_singleton earlier step ih =>
      have earlierSplit : steps = earlier ++ step :: after := by
        rw [split, append_assoc]
        rfl
      have honest := ih (step :: after) earlierSplit
      unfold run at honest ⊢
      rw [foldl_append]
      cases step with
      | edit worktree | update graph => exact honest
      | fingerprint moduleByQname persists =>
        cases persists with
        | false => exact honest
        | true => exact Honest.call injective named honest (reads earlier moduleByQname after earlierSplit) moduleByQname

end
end

def spell (content : Bytes) : String :=
  String.ofList (content.map fun byte => Char.ofNat byte.toNat)

theorem spell_injective : Injective spell := by
  intro left right same
  refine map_injective_iff.mpr (fun first second equal => ?_) (String.ofList_injective same)
  have valid : ∀ byte : UInt8, (Char.ofNat byte.toNat).toNat = byte.toNat := by
    intro byte
    have small := byte.toNat_lt
    unfold Char.ofNat
    rw [dif_pos (.inl (by omega))]
    rfl
  exact UInt8.toNat_inj.mp (by rw [← valid first, ← valid second]; exact congrArg Char.toNat equal)

def parseOne (path : String) (_ : Bytes) : List Node :=
  [{ kind := .function, name := "f", qualifiedName := path ++ "::f", filePath := path,
     lineStart := 1, lineEnd := 1, language := "rust", fileHash := "" }]

def pathOfOne (name : String) : String := String.ofList (name.toList.take (name.toList.length - 3))

private theorem parseOne_named (origin : String) (content : Bytes) :
    ∀ node ∈ parseOne origin content, pathOfOne node.qualifiedName = origin := by
  intro node mem
  cases mem_singleton.mp mem
  simp [pathOfOne]

def graphOfOne (content : Bytes) : ParsedGraph spell parseOne where
  snapshot := ⟨parseOne "a.rs" content, [], [], [("a.rs", spell content)]⟩
  indexed := by
    intro path fileHash recorded
    cases mem_singleton.mp (mem_of_lookup recorded)
    refine ⟨content, rfl, fun node mem _ => ⟨"a.rs", node, ?_, ⟨rfl, rfl, rfl, rfl, rfl, rfl⟩⟩⟩
    cases mem_singleton.mp mem
    rfl

def indexedContent : Bytes := [102, 110, 32, 102]
def editedContent : Bytes := [108, 101, 116]
def startWith (content : Bytes) : State spell parseOne :=
  ⟨fun path => if path = "a.rs" then some content else none, graphOfOne indexedContent, none⟩

theorem startWith_matches :
    Matches spell (startWith indexedContent).worktree (graphOfOne indexedContent).snapshot := by
  intro path fileHash recorded
  cases mem_singleton.mp (mem_of_lookup recorded)
  exact ⟨indexedContent, rfl, rfl⟩

/-- A call before the edit leaves nothing to see after it is undone. -/
theorem callableFingerprints_invisible_unedited : (run (startWith indexedContent)
    [.fingerprint (fun _ => none) true, .edit (startWith editedContent).worktree,
      .edit (startWith indexedContent).worktree]).Invisible := by
  refine (callableFingerprints_invisible_iff spell_injective parseOne_named rfl _).mpr ?_ _ [] (append_nil _).symm
  intro before moduleByQname after split
  cases before with
  | nil => exact State.readsIndexed_of_matches spell_injective startWith_matches
  | cons first rest =>
    exfalso
    rw [cons_append, cons.injEq] at split
    have listed : Step.fingerprint moduleByQname true ∈
      rest ++ .fingerprint moduleByQname true :: after := mem_append_right _ (.head _)
    rw [← split.2] at listed
    rcases mem_cons.mp listed with same | listed
    · cases same
    · cases mem_singleton.mp listed

/-- A call during an edit is shown after the edit is undone. -/
theorem callableFingerprints_shows_undone_edit :
    Matches spell (startWith indexedContent).worktree (graphOfOne indexedContent).snapshot ∧
      ((run (startWith editedContent) [.fingerprint (fun _ => none) true,
        .edit (startWith indexedContent).worktree]).call fun _ => none).1.map
        CallableFingerprint.duplicateSignature = ["let"] ∧
      (callableFingerprints (startWith indexedContent).worktree (graphOfOne indexedContent).snapshot
        (fun _ => none) none).1.map CallableFingerprint.duplicateSignature = ["fn <id>"] :=
  ⟨startWith_matches, by decide +kernel, by decide +kernel⟩

end Atlas.Insights
