import Atlas.Engine.Parse
import Atlas.Program.Memo
import Atlas.Repo.RegistryOrder
import Atlas.Text.Find

/-! The files that an import may mean, as the working tree and the resolver configuration in it
answer. A hash set is a list without repetition, gone through in the order of insertion. -/
namespace Atlas.Engine
open Repo Text

structure ImportBinding where
  (source localName : String)
  imported : Option String
  kind : String
  relativeLevel : Nat

structure TsPathAlias where
  pattern : String
  targets : List String

structure TsConfigEntry where
  dir : String
  paths : List TsPathAlias

structure ResolverConfig where
  tsconfigs : List TsConfigEntry
  goModule : Option String

/-- The file system below the root of a repo. A directory lists its entries, and `none` for an
entry that cannot be read. -/
structure WorkTree where
  pathExists : String → Bool
  entries : String → Option (List (Option String))
  content : String → Option (List Char)

def joinRelative (base path : List Char) : List Char :=
  if base = [] then path else joinPath base path

def parentDir? (path : List Char) : Option (List Char) :=
  match pathComponents path with
  | [] => none
  | [['/']] => none
  | parts => some (componentsText parts.dropLast)

/-- `Path::extension`: what follows the last dot of a name that does not begin with it. -/
def extension? (path : List Char) : Option (List Char) :=
  match (pathComponents path).getLast? with
  | none => none
  | some name =>
    let ending := (name.reverse.takeWhile (· ≠ '.')).reverse
    if name = ['/'] ∨ name = ['.', '.'] ∨ name.length ≤ ending.length + 1 then none
    else some ending

def normalizeStep (parts : List (List Char)) (part : List Char) : List (List Char) :=
  if part = ['.'] then parts
  else if part = ['.', '.'] then if parts = [['/']] then parts else parts.dropLast
  else parts ++ [part]

def normalizeRelativePath (path : List Char) : List Char :=
  componentsText ((pathComponents path).foldl normalizeStep [])

/-! ## Candidates -/

section
variable (config : ResolverConfig) (tree : WorkTree)

def existingRepoPaths (candidates : List (List Char)) : Option (List String) :=
  let paths := ((candidates.map fun candidate => String.ofList (normalizeRelativePath candidate)).filter
    tree.pathExists).eraseDups
  if paths = [] then none else some paths

variable (path language : String) (binding : ImportBinding)

def candidateExtensions : List String :=
  if language = "typescript" then ["ts", "tsx", "js", "jsx", "mjs", "cjs"]
  else ["js", "jsx", "mjs", "cjs", "ts", "tsx"]

def jsTsCandidatesForBase (base : List Char) (language : String) : List (List Char) :=
  if (extension? base).isSome then [base]
  else (candidateExtensions language).flatMap fun ext =>
    [base ++ '.' :: ext.toList, joinRelative base ("index." ++ ext).toList]

def matchAliasPattern (pattern source : List Char) : Option (List Char) :=
  match cut ['*'] pattern with
  | some (start, ending) =>
    if start.isPrefixOf source && ending.isSuffixOf source && decide (start.length + ending.length ≤ source.length) then
      some ((source.drop start.length).take (source.length - (start.length + ending.length)))
    else none
  | none => if pattern = source then some [] else none

def applyAliasTarget (target wildcard : List Char) : List Char :=
  match cut ['*'] target with
  | some (start, ending) => start ++ wildcard ++ ending
  | none => target

def findNearestTsconfig : Option TsConfigEntry :=
  let currentDir := (parentDir? path.toList).getD []
  config.tsconfigs.find? fun entry => (pathComponents entry.dir.toList).isPrefixOf (pathComponents currentDir)

def resolveTsconfigImportFiles (entry : TsConfigEntry) (source language : String) :
    Option (List String) := existingRepoPaths tree (entry.paths.flatMap fun pathAlias =>
    match matchAliasPattern pathAlias.pattern.toList source.toList with
    | none => []
    | some wildcard => pathAlias.targets.flatMap fun target =>
      jsTsCandidatesForBase (applyAliasTarget target.toList wildcard) language)

def resolveJsTsImportFiles (source : String) : Option (List String) :=
  if source.toList.head? ≠ some '.' then
    (findNearestTsconfig config path).bind fun entry => resolveTsconfigImportFiles tree entry source language
  else (parentDir? path.toList).bind fun currentDir =>
    existingRepoPaths tree (jsTsCandidatesForBase (joinRelative currentDir source.toList) language)

def dotsToSlashes (name : List Char) : List Char := name.map fun c => if c = '.' then '/' else c

def pythonImportCandidates (baseDir source : List Char) (imported : Option String) :
    List (List Char) :=
  let normal := source.dropWhile (· = '.')
  let under (name : List Char) := joinRelative baseDir name
  if normal = [] then
    under "__init__.py".toList :: match imported with
      | none => []
      | some name =>
        let modulePath := dotsToSlashes name.toList
        [under (modulePath ++ ".py".toList), under (modulePath ++ "/__init__.py".toList)]
  else
    let modulePath := dotsToSlashes normal
    [under (modulePath ++ ".py".toList), under (modulePath ++ "/__init__.py".toList)] ++
      match imported with
      | none => []
      | some name =>
        if name = "" ∨ name = "*" then []
        else
          let importedPath := dotsToSlashes name.toList
          [under (modulePath ++ '/' :: importedPath ++ ".py".toList),
            under (modulePath ++ '/' :: importedPath ++ "/__init__.py".toList)]

/-- Each level above the first leaves one directory. -/
def resolvePythonImportFiles : Option (List String) :=
  let currentDir := (parentDir? path.toList).getD []
  let baseDir := if binding.relativeLevel = 0 then []
    else (fun dir => (parentDir? dir).getD dir)^[binding.relativeLevel - 1] currentDir
  existingRepoPaths tree (pythonImportCandidates baseDir binding.source.toList binding.imported)

def goPackageDir (modulePath source : String) : Option (List Char) :=
  if source = modulePath then some []
  else
    let start := (modulePath ++ "/").toList
    if start.isPrefixOf source.toList then some (source.toList.drop start.length) else none

def resolveGoImportFiles : Option (List String) := do
  let modulePath ← config.goModule
  let dir ← goPackageDir modulePath binding.source
  let entries ← tree.entries (String.ofList dir)
  let names ← entries.mapM id
  let files := ((names.map fun name => joinRelative dir name.toList).filter fun candidate =>
    decide (extension? candidate = some "go".toList)).map String.ofList
  if files = [] then none else some files.eraseDups

def resolveImportFiles : Option (List String) :=
  if language = "javascript" ∨ language = "typescript" then
    resolveJsTsImportFiles config tree path language binding.source
  else if language = "python" then resolvePythonImportFiles tree path binding
  else if language = "go" then resolveGoImportFiles config tree binding
  else none

/-! ## Re-exports -/

def quotedModuleSource (line : List Char) : Option (List Char) :=
  match line.dropWhile fun c => c ≠ '"' ∧ c.toNat ≠ 39 with
  | [] => none
  | mark :: rest => (cut [mark] rest).map Prod.fst

def exportedAs (symbol spec : List Char) : Option (List Char) :=
  match cut " as ".toList spec with
  | some (inner, outer) => if trim outer = symbol then some (trim inner) else none
  | none => if spec = symbol then some spec else none

def reexportsOfLine (symbol line : List Char) : List (List Char × List Char) :=
  if ("export ".toList.isPrefixOf line && (cut " from ".toList line).isSome) = false then []
  else
    match quotedModuleSource line with
    | none => []
    | some moduleSource =>
      if "export * from ".toList.isPrefixOf line then [(moduleSource, symbol)]
      else
        match (cut ['{'] line).bind fun (_, behind) => cut ['}'] behind with
        | none => []
        | some (clause, _) =>
          ((((clause.splitOn ',').map trim).filter fun spec => !spec.isEmpty).filterMap
            (exportedAs symbol)).map fun name => (moduleSource, name)

def jsTsReexportsForSymbol (source : List Char) (symbol : String) : List (String × String) :=
  ((lines source).flatMap fun line => reexportsOfLine symbol.toList (trim line)).map
    fun (moduleSource, name) => (String.ofList moduleSource, String.ofList name)

/-- Files and the name of the symbol in them, followed through a number of re-exports, with the
pairs of a file and a name visited on the way. -/
def followJsTsReexports (language : String) : Nat → List String →
    String → List (String × String) → List (List String × String) × List (String × String)
  | 0, _, _, visited => ([], visited)
  | depth + 1, files, importedName, visited =>
    files.foldl (fun (results, visited) file =>
      if (file, importedName) ∈ visited then (results, visited)
      else
        let visited := (file, importedName) :: visited
        match tree.content file with
        | none => (results, visited)
        | some source =>
          (jsTsReexportsForSymbol source importedName).foldl (fun (results, visited) (reexportSource, nextName) =>
              let binding : ImportBinding :=
                { source := reexportSource, localName := nextName, imported := some nextName,
                  kind := "named", relativeLevel := 0 }
              match resolveImportFiles config tree file language binding with
              | none => (results, visited)
              | some nextFiles =>
                let (further, visited) :=
                  followJsTsReexports language depth nextFiles nextName visited
                (results ++ (nextFiles, nextName) :: further, visited))
            (results, visited)) ([], visited)

def importResolutionOptions (importedName : String) : Option (List (List String × String)) :=
  (resolveImportFiles config tree path language binding).map fun files =>
    (files, importedName) ::
      if language = "javascript" ∨ language = "typescript" then
        (followJsTsReexports config tree language 4 files importedName []).1
      else []

end

/-! Late resolution of the targets of call edges, over the import bindings of a file and the
package that it belongs to. -/

open Core Program Store

section
variable (nfc : String → String) (db : Db)

def callableNodesByName (language name : String) : List Node :=
  ((db.nodes.filter fun row => decide (row.language = some language ∧ row.name = name ∧
    row.kind ∈ ["function", "method", "test"])).insertionSort fun left right =>
      left.filePath < right.filePath ∨ left.filePath = right.filePath ∧ left.lineStart ≤ right.lineStart).map rowToNode

def nodesByFileForRepo (repo path : String) : Except AtlasError (List Node) := do
  let canonical ← canonicalizeRepoPath nfc path
  .ok (((db.nodes.filter fun row => decide (row.sourceRepoId = repo ∧ row.filePath = canonical)).insertionSort fun left right =>
      left.lineStart ≤ right.lineStart).map rowToNode)

def edgesByFileForRepo (repo path : String) : Except AtlasError (List Edge) := do
  let canonical ← canonicalizeRepoPath nfc path
  .ok ((db.edges.filter fun row => decide (row.sourceRepoId = repo ∧ row.filePath = some canonical)).filterMap rowToEdge)

def ownerIdOf (repo path : String) : Option String :=
  (fileOwnerIdForRepo nfc db repo path).toOption.bind id

end

variable (key : String) (node : Node) (call : CallMeta) (extraJson : Json)

def stringField : Option String :=
  match extraJson.fieldsOrDefault.lookup key with
  | some (.str text) => some text
  | _ => none

def arrayField : Option (List Json) :=
  match extraJson.fieldsOrDefault.lookup key with
  | some (.arr items) => some items
  | _ => none

def natField : Option Nat :=
  match extraJson.fieldsOrDefault.lookup key with
  | some (.num text) => text.toNat?
  | _ => none

def nodeRepoId : Option String := stringField "repo_id" node.extraJson

structure CallMeta where
  calleeName : String
  (receiverText receiverType : Option String)

def callMeta (edge : Edge) : Option CallMeta :=
  (stringField "callee_name" edge.extraJson).map fun calleeName =>
    { calleeName
      receiverText := (stringField "receiver_text" edge.extraJson).filter fun text => text ≠ ""
      receiverType := (stringField "receiver_type" edge.extraJson).filter fun text => text ≠ "" }

def bindingsOfNode : List ImportBinding :=
  if node.kind ≠ .import then []
  else
    match stringField "source" node.extraJson, arrayField "bindings" node.extraJson with
    | some source, some items => items.filterMap fun item =>
      (stringField "local" item).map fun localName =>
        { source
          localName
          imported := stringField "imported" item
          kind := (stringField "kind" item).getD "module"
          relativeLevel := (natField "relative_level" node.extraJson).getD 0 }
    | _, _ => []

def collectImportBindings (nodes : List Node) : List ImportBinding := nodes.flatMap bindingsOfNode

def fileLanguage (nodes : List Node) : String :=
  match nodes.find? fun node => decide (node.kind = .file) with
  | some file => file.language
  | none => (nodes.head?.map Node.language).getD ""

def allowedRepoIds (registry : Option RepoRegistry) (sourceRepoId : String) : List String :=
  match registry with
  | none => [sourceRepoId]
  | some registry =>
    (sourceRepoId :: registry.registrations.flatMap fun entry =>
      (if entry.repoId = sourceRepoId then
        entry.dependencies.map RepoDependency.repoId ++ entry.relationship.parentRepoId.toList
      else []) ++
      if (entry.dependencies.any fun dependency => dependency.repoId = sourceRepoId) ||
        entry.relationship.parentRepoId = some sourceRepoId then [entry.repoId]
      else []).eraseDups

def isAllowed (allowed : List String) (node : Node) : Bool :=
  ((nodeRepoId node).map fun repoId => decide (repoId ∈ allowed)).getD true
def targetRepo (sourceRepoId : String) (node : Node) : String := (nodeRepoId node).getD sourceRepoId

structure ResolutionContext where
  (path language : String)
  config : ResolverConfig
  tree : WorkTree
  sourceRepoId : String
  allowedRepoIds : List String

structure Resolved where
  node : Node
  tier : String
  confidence : UInt32
  deriving DecidableEq

/-- `0.75` as an `f32`. -/
def importsTarget : Resolved := ⟨node, "imports", 0x3f400000⟩

/-- `0.65` as an `f32`. -/
def samePackageTarget : Resolved := ⟨node, "same_package", 0x3f266666⟩

def uniqueNode : List Node → Option Node
  | [node] => some node
  | _ => none

/-! ## Receivers -/

def afterLast (pattern text : List Char) : List Char :=
  match cut pattern.reverse text.reverse with
  | some (behind, _) => behind.reverse
  | none => text

def beforeLast? (pattern text : List Char) : Option (List Char) :=
  (cut pattern.reverse text.reverse).map fun (_, before) => before.reverse
def trimAmpersands (text : List Char) : List Char :=
  ((text.dropWhile (· = '&')).reverse.dropWhile (· = '&')).reverse

def receiverTypeHint (receiver : String) : Option (List Char) :=
  let receiver := trim receiver.toList
  if receiver = [] then none
  else
    let segment := trim (afterLast "::".toList (trim (trimAmpersands (receiver.takeWhile (· ≠ '<')))))
    if segment = [] then none else some segment

def methodReceiverName : Option (List Char) :=
  match (node.parentName.map String.toList).filter fun parent =>
      (cut "::impl::".toList parent).isSome with
  | some parent => some (afterLast "::".toList (afterLast "::impl::".toList parent))
  | none => (cut "::method::".toList node.qualifiedName.toList).bind fun (_, tail) =>
    (beforeLast? "::".toList tail).or (beforeLast? ['.'] tail)

def receiverHint : Option (List Char) :=
  (call.receiverType.map String.toList).or (call.receiverText.bind receiverTypeHint)

def preferReceiver (candidates : List Node) : List Node :=
  match receiverHint call with
  | none => candidates
  | some hint =>
    let matching := candidates.filter fun node => decide (methodReceiverName node = some hint)
    if matching = [] then candidates else matching

def inSameDir (path candidatePath : String) : Bool :=
  (parentDir? candidatePath.toList).any fun parent =>
    decide (pathComponents parent = pathComponents ((parentDir? path.toList).getD []))

/-! ## The two rules

How candidates and owners are looked up is left open: a call of the reconciliation answers from
its caches, and the same rules without caches are what the cached ones are measured by. -/

structure Lookups (m : Type → Type) where
  callableCandidates : String → String → m (List Node)
  ownerId : String → m (Option String)

def matchingBindings (bindings : List ImportBinding) : List ImportBinding :=
  match call.receiverText with
  | some receiver => bindings.filter fun binding => binding.localName = receiver
  | none => bindings.filter fun binding => binding.localName = call.calleeName || binding.kind = "wildcard"

def importedSymbolName (binding : ImportBinding) (call : CallMeta) : Option String :=
  if call.receiverText.isSome then some call.calleeName
  else if binding.kind = "wildcard" then some call.calleeName
  else if binding.kind ∈ ["module", "namespace", "package", "default"] then none
  else some (binding.imported.getD binding.localName)

section
variable {m : Type → Type} [Monad m] (lookups : Lookups m) (ctx : ResolutionContext)

def tryOptions : List (List String × String) → m (Option Resolved)
  | [] => pure none
  | (candidateFiles, candidateName) :: rest => do
      let candidates ← lookups.callableCandidates ctx.language candidateName
      match uniqueNode (candidates.filter fun node => node.filePath ∈ candidateFiles) with
      | some node => pure (some (importsTarget node))
      | none => tryOptions rest

def tryBindings (call : CallMeta) : List ImportBinding → m (Option Resolved)
  | [] => pure none
  | binding :: rest =>
    match (importedSymbolName binding call).bind
        (importResolutionOptions ctx.config ctx.tree ctx.path ctx.language binding) with
    | none => pure none
    | some options => do
        match ← tryOptions lookups ctx options with
        | some resolved => pure (some resolved)
        | none => tryBindings call rest

def resolveImportTarget (bindings : List ImportBinding) (call : CallMeta) : m (Option Resolved) :=
  tryBindings lookups ctx call (matchingBindings call bindings)

def keepOwned (owner : String) : List Node → m (List Node)
  | [] => pure []
  | node :: rest => do
      let found ← lookups.ownerId node.filePath
      let kept ← keepOwned owner rest
      pure (if found = some owner then node :: kept else kept)

def chooseInPackage (elsewhere : List Node) : m (Option Resolved) := do
  match ← lookups.ownerId ctx.path with
  | some currentOwner => do
      let sameOwner ← keepOwned lookups currentOwner elsewhere
      pure (((uniqueNode sameOwner).or (uniqueNode (sameOwner.filter fun node =>
        inSameDir ctx.path node.filePath))).map samePackageTarget)
  | none => pure ((uniqueNode (elsewhere.filter fun node =>
    inSameDir ctx.path node.filePath)).map samePackageTarget)

def resolveSamePackageTarget (call : CallMeta) : m (Option Resolved) := do
  let candidates ← lookups.callableCandidates ctx.language call.calleeName
  chooseInPackage lookups ctx ((preferReceiver call candidates).filter fun node => node.filePath ≠ ctx.path)

def resolveCall (bindings : List ImportBinding) (call : CallMeta) : m (Option Resolved) := do
  match ← resolveImportTarget lookups ctx bindings call with
  | some resolved => pure (some resolved)
  | none => resolveSamePackageTarget lookups ctx call

end

structure Caches where
  candidates : List ((String × String) × List Node) := []
  owners : List (String × Option String) := []

section
variable (nfc : String → String) (db : Db) (sourceRepoId : String) (allowed : List String)

def callable (key : String × String) : List Node := callableNodesByName db key.1 key.2
def allowedCallable (key : String × String) : List Node :=
  (callable db key).filter (isAllowed allowed)

/-- A list is cut to the allowed repos when it is fetched, and is kept uncut. -/
def cachedCandidates (language calleeName : String) : StateM Caches (List Node) := fun caches =>
  let (nodes, candidates) :=
    fetch (callable db) (allowedCallable db allowed) (language, calleeName) caches.candidates
  (nodes, { caches with candidates })

def cachedOwnerId (path : String) : StateM Caches (Option String) := fun caches =>
  let (owner, owners) :=
    fetch (ownerIdOf nfc db sourceRepoId) (ownerIdOf nfc db sourceRepoId) path caches.owners
  (owner, { caches with owners })

def cachedLookups : Lookups (StateM Caches) where
  callableCandidates := cachedCandidates db allowed
  ownerId := cachedOwnerId nfc db sourceRepoId

def plainLookups : Lookups Id where
  callableCandidates language calleeName := allowedCallable db allowed (language, calleeName)
  ownerId := ownerIdOf nfc db sourceRepoId

/-- The names that the rules ask for, the last one first, when the store answers. -/
def askingLookups : Lookups (StateM (List (String × String))) where
  callableCandidates language calleeName := fun asked =>
    (allowedCallable db allowed (language, calleeName), (language, calleeName) :: asked)
  ownerId path := fun asked => (ownerIdOf nfc db sourceRepoId path, asked)

end

/-- `before` are the caches that the decision starts from. -/
structure Decision where
  (path language : String)
  bindings : List ImportBinding
  call : CallMeta
  edge : Edge
  before : Caches
  target : Option Resolved

/-- An edge that already has the target and the tier is left alone. -/
def Decision.rewrites (decision : Decision) : Bool := decision.target.any fun resolved =>
    decide ¬ (decision.edge.targetQn = resolved.node.qualifiedName ∧ decision.edge.confidenceTier = some resolved.tier)

def annotateCrossRepoEdge (sourceRepoId : String)
    (target : Node) (tier : String) (edge : Edge) : Edge :=
  let targetRepoId := targetRepo sourceRepoId target
  { edge with
    extraJson := insertFields
      [("source_repo", .str sourceRepoId), ("target_repo", .str targetRepoId),
       ("relationship_reason", .str (if targetRepoId = sourceRepoId then "import" else "dependency")),
       ("confidence_tier_label", .str tier)] edge.extraJson }

def markUnresolvedCrossRepoEdge (ctx : ResolutionContext)
    (bindings : List ImportBinding) (call : CallMeta) (edge : Edge) : Edge :=
  let hasExternalBinding := bindings.any fun binding =>
    binding.source.toList.head? ≠ some '.' && (binding.localName =
      call.calleeName || call.receiverText = some binding.localName || binding.kind = "wildcard")
  if hasExternalBinding = false ∨ ctx.allowedRepoIds.length ≤ 1 then edge
  else
    { edge with
      extraJson := insertFields
        [("source_repo", .str ctx.sourceRepoId), ("relationship_reason", .str "import"),
         ("confidence_tier_label", .str "unresolved_cross_repo"),
         ("unresolved_cross_repo", .bool true),
         ("allowed_target_repos", .arr (ctx.allowedRepoIds.map Json.str))] edge.extraJson }

def Decision.apply (ctx : ResolutionContext) (decision : Decision) : Edge :=
  match decision.target with
  | none => markUnresolvedCrossRepoEdge ctx decision.bindings decision.call decision.edge
  | some resolved =>
    if decision.rewrites then
      annotateCrossRepoEdge ctx.sourceRepoId resolved.node resolved.tier
        { decision.edge with
          targetQn := resolved.node.qualifiedName
          confidenceTier := some resolved.tier
          confidence := resolved.confidence }
    else decision.edge

def openCall (edge : Edge) : Option CallMeta :=
  if edge.kind = .calls ∧ edge.confidenceTier ≠ some "same_file" then callMeta edge else none

def reconcileEdges (lookups : Lookups (StateM Caches)) (ctx : ResolutionContext)
    (bindings : List ImportBinding) : List Edge → StateM Caches (List Edge × List Decision)
  | [] => pure ([], [])
  | edge :: rest =>
    match openCall edge with
    | none => do
        let (edges, decisions) ← reconcileEdges lookups ctx bindings rest
        pure (edge :: edges, decisions)
    | some call => do
        let before ← get
        let target ← resolveCall lookups ctx bindings call
        let decision : Decision :=
          { path := ctx.path, language := ctx.language, bindings, call, edge, before, target }
        let (edges, decisions) ← reconcileEdges lookups ctx bindings rest
        pure (decision.apply ctx :: edges, decision :: decisions)

structure ReconcileScope where
  nfc : String → String
  sourceRepoId : String
  registry : Option RepoRegistry
  config : ResolverConfig
  tree : WorkTree

def ReconcileScope.allowed (scope : ReconcileScope) : List String :=
  allowedRepoIds scope.registry scope.sourceRepoId

def ReconcileScope.context (scope : ReconcileScope) (path language : String) :
    ResolutionContext where
  path := path
  language := language
  config := scope.config
  tree := scope.tree
  sourceRepoId := scope.sourceRepoId
  allowedRepoIds := scope.allowed

structure Reconciling where
  db : Db
  seen : List String := []
  caches : Caches := {}
  touchedFiles : Nat := 0
  decisions : List Decision := []

section
variable (scope : ReconcileScope)

def onStore {Value : Type} (run : Run Db Value) : Run Reconciling Value := fun state =>
  ((run state.db).1, { state with db := (run state.db).2 })

def resolveFile (path language : String) (nodes : List Node) (edges : List Edge) :
    Run Reconciling (List Edge × List Decision) := fun state =>
  let lookups := cachedLookups scope.nfc state.db scope.sourceRepoId scope.allowed
  let ((edges, decisions), caches) :=
    reconcileEdges lookups (scope.context path language) (collectImportBindings nodes) edges state.caches
  (.ok (edges, decisions), { state with caches, decisions := state.decisions ++ decisions })

def reconcileFile (path : String) : Run Reconciling Unit := do
  let state ← Run.get
  if path ∈ state.seen then pure ()
  else do
    Run.modify fun state => { state with seen := path :: state.seen }
    let nodes ← Run.ofExcept
      ((nodesByFileForRepo scope.nfc state.db scope.sourceRepoId path).mapError AtlasError.message)
    if fileLanguage nodes = "" then pure ()
    else do
      let edges ← Run.ofExcept
        ((edgesByFileForRepo scope.nfc state.db scope.sourceRepoId path).mapError AtlasError.message)
      let (edges, decisions) ← resolveFile scope path (fileLanguage nodes) nodes edges
      if decisions.any Decision.rewrites then do
        onStore (storeCall (rewriteFileEdgesForRepo scope.nfc .faultless scope.sourceRepoId path edges))
        Run.modify fun state => { state with touchedFiles := state.touchedFiles + 1 }
      else pure ()

def reconcileFiles (filePaths : List String) : Run Reconciling Unit :=
  Run.forEach (reconcileFile scope) filePaths

end
end Atlas.Engine
