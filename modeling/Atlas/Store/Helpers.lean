import Atlas.Program.MapM
import Atlas.Repo.Path
import Atlas.Store.Schema

/-! Canonicalization of a graph slice before it is persisted. -/
namespace Atlas.Store
open Core Repo

structure CanonicalizedGraphData where
  path : String
  nodes : List Node
  edges : List Edge
  deriving DecidableEq

def startsWith (text start : String) : Bool := start.toList.isPrefixOf text.toList

def stripStart? (text start : String) : Option String :=
  if startsWith text start then some (String.ofList (text.toList.drop start.toList.length)) else none

def alreadyCanonical (value : String) (mappings : List (String × String)) : Bool :=
  mappings.any fun mapping =>
    decide (value = mapping.2) || startsWith value (mapping.2 ++ "::")

def rewriteRawPath (value : String) : List (String × String) → String
  | [] => value
  | (raw, canonical) :: rest =>
    if raw = "" ∨ raw = canonical then rewriteRawPath value rest
    else if value = raw then canonical
    else
      match stripStart? value raw with
      | some suffix => if startsWith suffix "::" then canonical ++ suffix else rewriteRawPath value rest
      | none => rewriteRawPath value rest

def rewriteKnownPathPrefixes (value : String) (mappings : List (String × String)) : String :=
  if alreadyCanonical value mappings then value else rewriteRawPath value mappings

section
variable (nfc : String → String)

def canonicalizeRepoPath (path : String) : Except AtlasError String :=
  match canonicalizeRelative nfc path with
  | .ok canonical => .ok canonical
  | .error error => .error (.other ("invalid repo-relative path '" ++ path ++ "': " ++ error.message))

def canonicalizeNode (rawPath canonicalPath : String) (node : Node) : Except AtlasError Node := do
  let nodePath ← canonicalizeRepoPath nfc node.filePath
  if nodePath = canonicalPath then
    let mappings := [(rawPath, canonicalPath), (node.filePath, canonicalPath)]
    .ok { node with
      filePath := nodePath
      qualifiedName := rewriteKnownPathPrefixes node.qualifiedName mappings
      parentName := node.parentName.map fun parent => rewriteKnownPathPrefixes parent mappings }
  else
    .error (.other ("node file_path '" ++ node.filePath ++ "' does not match file '" ++
      canonicalPath ++ "'"))

def canonicalizeEdge (rawPath canonicalPath : String) (edge : Edge) : Except AtlasError Edge := do
  let edgePath ← canonicalizeRepoPath nfc edge.filePath
  let mappings := [(rawPath, canonicalPath), (edge.filePath, edgePath)]
  .ok { edge with
    filePath := edgePath
    sourceQn := rewriteKnownPathPrefixes edge.sourceQn mappings
    targetQn := rewriteKnownPathPrefixes edge.targetQn mappings }

def canonicalizeGraphSlice (path : String) (nodes : List Node) (edges : List Edge) :
    Except AtlasError CanonicalizedGraphData := do
  let canonicalPath ← canonicalizeRepoPath nfc path
  let normalizedNodes ← nodes.mapM (canonicalizeNode nfc path canonicalPath)
  let normalizedEdges ← edges.mapM (canonicalizeEdge nfc path canonicalPath)
  .ok { path := canonicalPath, nodes := normalizedNodes, edges := normalizedEdges }

def canonicalizeParsedFile (file : ParsedFile) : Except AtlasError ParsedFile := do
  let normal ← canonicalizeGraphSlice nfc file.path file.nodes file.edges
  .ok { file with
    path := normal.path
    nodes := normal.nodes
    edges := normal.edges }

end

/-! What an accepted graph slice looks like. -/

def IfAccepted {Result : Type} : Except AtlasError Result → (Result → Prop) → Prop
  | .ok result, property => property result
  | .error _, _ => True

instance {Result : Type} (property : Result → Prop) [DecidablePred property] :
    (outcome : Except AtlasError Result) → Decidable (IfAccepted outcome property)
  | .ok result => inferInstanceAs (Decidable (property result))
  | .error _ => isTrue trivial

theorem IfAccepted.of_ok {Result : Type} {outcome : Except AtlasError Result} {result : Result}
    {property : Result → Prop} (holds : IfAccepted outcome property)
    (accepted : outcome = .ok result) : property result := by
  subst accepted
  exact holds

section
variable {nfc : String → String}

theorem canonicalizeNode_located {rawPath canonicalPath : String}
    {node normal : Node} (accepted : canonicalizeNode nfc rawPath canonicalPath node = .ok normal) :
    normal.filePath = canonicalPath := by
  unfold canonicalizeNode at accepted
  obtain ⟨nodePath, -, checked⟩ := Program.bind_eq_ok accepted
  by_cases same : nodePath = canonicalPath
  · rw [if_pos same] at checked
    cases checked
    exact same
  · rw [if_neg same] at checked
    cases checked

variable {path : String}
  {nodes : List Node} {edges : List Edge} {slice : CanonicalizedGraphData} {file : ParsedFile}

theorem canonicalizeGraphSlice_ok
    (accepted : canonicalizeGraphSlice nfc path nodes edges = .ok slice) :
    canonicalizeRepoPath nfc path = .ok slice.path ∧
      nodes.mapM (canonicalizeNode nfc path slice.path) = .ok slice.nodes ∧
      edges.mapM (canonicalizeEdge nfc path slice.path) = .ok slice.edges := by
  unfold canonicalizeGraphSlice at accepted
  obtain ⟨canonicalPath, located, accepted⟩ := Program.bind_eq_ok accepted
  obtain ⟨normalizedNodes, nodesOk, accepted⟩ := Program.bind_eq_ok accepted
  obtain ⟨normalizedEdges, edgesOk, accepted⟩ := Program.bind_eq_ok accepted
  cases accepted
  exact ⟨located, nodesOk, edgesOk⟩

theorem canonicalizeGraphSlice_located
    (accepted : canonicalizeGraphSlice nfc path nodes edges = .ok slice) :
    ∀ node ∈ slice.nodes, node.filePath = slice.path := by
  intro node mem
  obtain ⟨_, nodesOk, _⟩ := canonicalizeGraphSlice_ok accepted
  obtain ⟨source, _, ran⟩ := Program.mapM_ok_mem nodesOk mem
  exact canonicalizeNode_located ran

theorem canonicalizeParsedFile_ok {normal : ParsedFile}
    (accepted : canonicalizeParsedFile nfc file = .ok normal) :
    ∃ slice, canonicalizeGraphSlice nfc file.path file.nodes file.edges = .ok slice ∧
      normal = { file with path := slice.path, nodes := slice.nodes, edges := slice.edges } := by
  unfold canonicalizeParsedFile at accepted
  obtain ⟨slice, sliced, accepted⟩ := Program.bind_eq_ok accepted
  cases accepted
  exact ⟨slice, sliced, rfl⟩

theorem rewriteKnownPathPrefixes_self (value path : String) :
    rewriteKnownPathPrefixes value [(path, path), (path, path)] = value := by
  simp [rewriteKnownPathPrefixes, rewriteRawPath]

theorem canonicalizeParsedFile_self (canonical : canonicalizeRepoPath nfc file.path = .ok file.path)
    (nodes : ∀ node ∈ file.nodes, node.filePath = file.path)
    (edges : ∀ edge ∈ file.edges, edge.filePath = file.path) :
    canonicalizeParsedFile nfc file = .ok file := by
  have nodesAccepted : file.nodes.mapM (canonicalizeNode nfc file.path file.path) = .ok file.nodes := by
    apply Program.mapM_ok_self
    intro node mem
    have located := nodes node mem
    obtain ⟨id, kind, name, qualifiedName, filePath, lineStart, lineEnd, language, parentName⟩ := node
    subst located
    cases parentName with
    | none | some parent => simp [canonicalizeNode, canonical, bind, Except.bind, rewriteKnownPathPrefixes_self]
  have edgesAccepted : file.edges.mapM (canonicalizeEdge nfc file.path file.path) = .ok file.edges := by
    apply Program.mapM_ok_self
    intro edge mem
    simp [canonicalizeEdge, edges edge mem, canonical, bind, Except.bind, rewriteKnownPathPrefixes_self]
    rw [← edges edge mem]
  simp [canonicalizeParsedFile, canonicalizeGraphSlice, canonical, nodesAccepted, edgesAccepted, bind, Except.bind]

theorem mapM_canonicalizeParsedFile_located {files normal : List ParsedFile}
    (accepted : files.mapM (canonicalizeParsedFile nfc) = .ok normal) :
    ∀ file ∈ normal, ∀ node ∈ file.nodes, node.filePath = file.path := by
  intro file mem
  obtain ⟨source, _, ran⟩ := Program.mapM_ok_mem accepted mem
  obtain ⟨slice, sliced, rfl⟩ := canonicalizeParsedFile_ok ran
  exact canonicalizeGraphSlice_located sliced

end
end Atlas.Store
