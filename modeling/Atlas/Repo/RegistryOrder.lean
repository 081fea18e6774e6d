import Atlas.Program.KeyedList
import Atlas.Repo.Boundary
import Atlas.Repo.Ignore

/-! The registry of repos: how it is bootstrapped, edited and brought in line
with the file system and with `git submodule status`. -/
namespace Atlas.Repo
open List Files Program

inductive RepoRelationshipKind where
  | root
  | submodule
  | workspaceMember
  | manual
  deriving DecidableEq

structure RepoRelationship where
  kind : RepoRelationshipKind
  (parentRepoId parentPath : Option String)
  deriving DecidableEq

inductive TrustState where
  | trusted
  | untrusted
  | missing
  | stale
  | unauthorized
  deriving DecidableEq

structure VcsMetadata where
  (head defaultBranch remoteUrl : Option String)
  deriving DecidableEq

structure RepoDependency where
  repoId : String
  kind : Option String
  deriving DecidableEq

structure RepoRegistryWarning where
  (code message : String)
  path : Option String
  deriving DecidableEq

structure RepoRegistration where
  (repoId root displayAlias : String)
  vcs : VcsMetadata
  relationship : RepoRelationship
  trustState : TrustState
  enabled : Bool
  (includeGlobs excludeGlobs : Option (List String))
  dependencies : List RepoDependency
  deriving DecidableEq

structure RepoRegistry where
  schemaVersion : Nat
  rootRepoId : String
  registrations : List RepoRegistration
  warnings : List RepoRegistryWarning
  deriving DecidableEq

def repoRegistrySchemaVersion : Nat := 1

def RepoRegistry.new (rootRepoId : String) : RepoRegistry where
  schemaVersion := repoRegistrySchemaVersion
  rootRepoId := rootRepoId
  registrations := []
  warnings := []

def relationshipRank : RepoRelationshipKind → Nat
  | .root => 0
  | .submodule => 1
  | .workspaceMember => 2
  | .manual => 3

def sortsBefore (left right : RepoRegistration) : Prop :=
  relationshipRank left.relationship.kind < relationshipRank right.relationship.kind ∨
    relationshipRank left.relationship.kind =
      relationshipRank right.relationship.kind ∧ (left.displayAlias < right.displayAlias ∨
      left.displayAlias = right.displayAlias ∧ left.repoId ≤ right.repoId)

instance : DecidableRel sortsBefore := fun left right => by
  unfold sortsBefore
  infer_instance

def sortAndDedupe (registrations : List RepoRegistration) : List RepoRegistration :=
  firsts RepoRegistration.repoId [] (registrations.insertionSort sortsBefore)

def RepoRegistry.upsert (registry : RepoRegistry) (registration : RepoRegistration) :
    RepoRegistry :=
  { registry with
    registrations := sortAndDedupe (put RepoRegistration.repoId registration registry.registrations) }

def withoutDependency (repoId : String) (entry : RepoRegistration) : RepoRegistration :=
  { entry with dependencies := entry.dependencies.filter fun dependency => dependency.repoId ≠ repoId }

def RepoRegistry.remove (registry : RepoRegistry) (repoId : String) :
    Option (RepoRegistration × RepoRegistry) :=
  match registry.registrations.find? fun entry => entry.repoId = repoId with
  | none => none
  | some removed => some (removed, { registry with
      registrations := (registry.registrations.eraseP fun entry => entry.repoId = repoId).map
        (withoutDependency repoId) })

/-! ## The world around the registry -/

/-- The file system with the directory of the process, and what git answers in a directory:
the output of a command that succeeded with UTF-8 text, and that of `git submodule status
--recursive`. -/
structure RepoWorld where
  files : FileSystem
  cwd : Location
  gitStdout : String → List String → Option (List Char)
  submoduleStatus : String → Option (List Char)

structure Rendering where
  lossy : Location → String
  debug : List String → String

def BoundaryPathError.message (rendering : Rendering) : BoundaryPathError → String
  | .text error => error.message
  | .repoRootNotAbsolute repoRoot => "repo root '" ++ repoRoot ++ "' must be absolute"
  | .absoluteInputNotAbsolute path => "absolute path input '" ++ path ++ "' must be absolute"
  | .notUnderRepoRoot repoRoot path => "path '" ++ path ++ "' is not under repo root '" ++ repoRoot ++ "'"
  | .filesystemCanonicalize path message => "cannot canonicalize filesystem path '" ++ path ++ "': " ++ message
  | .nonUtf8Path path => "path '" ++ rendering.lossy path ++ "' is not valid UTF-8 after filesystem canonicalization"
  | .pathNotFound requested => "file path '" ++ requested ++
      "' does not exist in this repo and no unambiguous root-prefix was stripped"
  | .ambiguousPath requested candidates => "file path '" ++ requested ++
      "' is ambiguous after removing root-like prefixes; candidates: " ++ rendering.debug candidates

inductive RegistryError where
  | registryRoot (path : List Char) (error : BoundaryPathError)
  | repoRoot (path : List Char) (error : BoundaryPathError)
  | sliceInsideCharacter (line : List Char)
  deriving DecidableEq

section
variable (nfc : String → String) (sha256Hex : String → String) (rendering : Rendering)
variable (world : RepoWorld)

variable (path : List Char) (links : List (String × String)) (repoRoot registryRoot : List Char)

def RepoWorld.pathExists : Bool :=
  (follow world.files maxLinks (if isAbsolute path then [] else world.cwd) (components path)).isSome

def gitOutput (repoRoot : String) (args : List String) : Option String :=
  match world.gitStdout repoRoot args with
  | some stdout => if trim stdout = [] then none else some (String.ofList (trim stdout))
  | none => none

def stripOrigin (branch : String) : String :=
  if "origin/".toList.isPrefixOf branch.toList then String.ofList (branch.toList.drop 7) else branch

def defaultBranch (repoRoot : String) : Option String :=
  match gitOutput world repoRoot ["symbolic-ref", "--quiet", "--short", "refs/remotes/origin/HEAD"] with
  | some branch => some (stripOrigin branch)
  | none => gitOutput world repoRoot ["branch", "--show-current"]

def readVcsMetadata (repoRoot : String) : VcsMetadata where
  head := gitOutput world repoRoot ["rev-parse", "HEAD"]
  defaultBranch := defaultBranch world repoRoot
  remoteUrl := gitOutput world repoRoot ["config", "--get", "remote.origin.url"]

def stablePrefixedHash (start seed : String) : String :=
  String.ofList ((start ++ sha256Hex seed).toList.take (start.length + 16))
def stableRepoId : String :=
  stablePrefixedHash sha256Hex "repo_" (String.ofList (toForwardSlashes repoRoot))
def repoRelative (absPath : List Char) :
    Except BoundaryPathError String := fromAbsolutePath nfc repoRoot absPath

def displayAliasFor (repoRoot : List Char) : String :=
  match repoRelative nfc registryRoot repoRoot with
  | .ok relative => relative
  | .error _ =>
    match fileName repoRoot with
    | some name => String.ofList name
    | none => String.ofList repoRoot

def registrationForRepo (relationship : RepoRelationship) (displayAlias : Option String) :
    Except RegistryError RepoRegistration :=
  match canonicalFilesystemPath nfc world.files repoRoot with
  | .error error => .error (.repoRoot repoRoot error)
  | .ok parts => .ok
      { repoId := stableRepoId sha256Hex (absoluteText parts)
        root := String.ofList (absoluteText parts)
        displayAlias := displayAlias.getD (displayAliasFor nfc registryRoot repoRoot)
        vcs := readVcsMetadata world (String.ofList repoRoot)
        relationship := relationship
        trustState := .trusted
        enabled := true
        includeGlobs := none
        excludeGlobs := none
        dependencies := [] }

/-! ## Submodules -/

structure SubmoduleStatus where
  state : Char
  (commit relPath : String)

def parseSubmoduleStatusLine (line : List Char) : Except RegistryError (Option SubmoduleStatus) :=
  match line.dropWhile isWhitespace with
  | [] => .ok none
  | first :: rest =>
    let state := if line.head? = some ' ' then ' ' else first
    if state ≠ ' ' ∧ 1 < first.utf8Size then .error (.sliceInsideCharacter line)
    else
      let withoutState := if state = ' ' then first :: rest else rest
      match splitWhitespace withoutState with
      | commit :: relPath :: _ => .ok (some
          { state := state
            commit := String.ofList (commit.dropWhile fun c => c = '+' ∨ c = '-')
            relPath := String.ofList relPath })
      | _ => .ok none

/-- `Path::components`, as text: a leading `/` or `.` counts, an inner `.` does not. -/
def pathComponents : List (List Char) :=
  let rest := (path.splitOn '/').filter fun segment => segment ≠ [] ∧ segment ≠ ['.']
  if isAbsolute path then ['/'] :: rest
  else if (path.splitOn '/').head? = some ['.'] then ['.'] :: rest
  else rest

def parentComponents : List (List Char) :=
  if pathComponents path = [['/']] then [] else (pathComponents path).dropLast

def componentsText : List (List Char) → List Char
  | ['/'] :: rest => absoluteText rest
  | parts => ['/'].intercalate parts

def submoduleDistance (parentPath : List (List Char)) (entry : RepoRegistration) :
    Option (Nat × String) :=
  let base := pathComponents entry.displayAlias.toList
  if entry.relationship.kind = .submodule ∧ base.isPrefixOf parentPath then
    some (parentPath.length - base.length, entry.repoId)
  else none

def nearest : List (Nat × String) → Option (Nat × String)
  | [] => none
  | candidate :: rest =>
    match nearest rest with
    | none => some candidate
    | some other => if other.1 < candidate.1 then some other else some candidate

def parentRepoIdForSubmodule (registrations : List RepoRegistration) (relPath : String) :
    Option String :=
  let parentPath := parentComponents relPath.toList
  match nearest (registrations.filterMap (submoduleDistance parentPath)) with
  | some (_, repoId) => some repoId
  | none =>
    match repoRelative nfc registryRoot (joinPath registryRoot (componentsText parentPath)) with
    | .error _ => none
    | .ok parent => (registrations.find? fun entry => entry.displayAlias = parent).map
        RepoRegistration.repoId

/-- What the loop over the lines of git carries: the registry, and the children found for each
parent, in the order of the lines. -/
structure Discovery where
  registry : RepoRegistry
  links : List (String × String)

def Discovery.warn (found : Discovery) (code message relPath : String) : Discovery :=
  { found with registry := { found.registry with
      warnings := found.registry.warnings ++ [⟨code, message, some relPath⟩] } }

def withHead (commit : String) (registration : RepoRegistration) : RepoRegistration :=
  if registration.vcs.head = none ∧ commit ≠ "" then
    { registration with vcs := { registration.vcs with head := some commit } }
  else registration

def Discovery.register (submoduleRoot : List (List Char))
    (line : SubmoduleStatus) (found : Discovery) : Except RegistryError Discovery :=
  let parentRepoId := (parentRepoIdForSubmodule nfc registryRoot found.registry.registrations
    line.relPath).getD found.registry.rootRepoId
  match registrationForRepo nfc sha256Hex world (absoluteText submoduleRoot) registryRoot
      ⟨.submodule, some parentRepoId, some line.relPath⟩ (some line.relPath) with
  | .error error => .error error
  | .ok registration => .ok
      { registry := found.registry.upsert (withHead line.commit registration)
        links := found.links ++ [(parentRepoId, registration.repoId)] }

def Discovery.step (found : Discovery) (rawLine : List Char) : Except RegistryError Discovery :=
  match parseSubmoduleStatusLine rawLine with
  | .error error => .error error
  | .ok none => .ok found
  | .ok (some line) =>
    if line.state = '-' then
      .ok (found.warn "submodule_uninitialized" ("submodule '" ++ line.relPath ++ "' is not initialized") line.relPath)
    else if line.state = 'U' then
      .ok (found.warn "submodule_conflict" ("submodule '" ++ line.relPath ++ "' has unresolved conflicts") line.relPath)
    else
      let absolute := joinPath registryRoot line.relPath.toList
      if world.pathExists absolute then
        match canonicalFilesystemPath nfc world.files absolute with
        | .error error => .ok (found.warn "submodule_uncanonical"
            ("submodule '" ++ line.relPath ++ "' cannot be canonicalized: " ++ error.message rendering) line.relPath)
        | .ok submoduleRoot => found.register nfc sha256Hex world registryRoot submoduleRoot line
      else .ok (found.warn "submodule_missing" ("submodule '" ++ line.relPath ++ "' path is missing") line.relPath)

/-- New children come with the kind of a submodule; the dependencies are sorted by id. -/
def withChildren (children : List String) (entry : RepoRegistration) : RepoRegistration :=
  { entry with dependencies :=
      (entry.dependencies ++ (children.filter fun child =>
        child ∉ entry.dependencies.map RepoDependency.repoId).map fun child =>
          RepoDependency.mk child (some "submodule")).insertionSort fun left right => left.repoId ≤ right.repoId }

def changeFirst (repoId : String) (change : RepoRegistration → RepoRegistration) :
    List RepoRegistration → List RepoRegistration
  | [] => []
  | entry :: rest => if entry.repoId = repoId then change entry :: rest else entry :: changeFirst repoId change rest

def childrenOf (parent : String) : List String :=
  ((links.filter fun entry => entry.1 = parent).map Prod.snd).dedup.insertionSort (· ≤ ·)
def parentsOf : List String := (links.map Prod.fst).dedup.insertionSort (· ≤ ·)

def addChildren (registrations : List RepoRegistration) : List RepoRegistration :=
  (parentsOf links).foldl (fun entries parent =>
    changeFirst parent (withChildren (childrenOf links parent)) entries) registrations

def statusLines (stdout : List Char) : List (List Char) :=
  (Text.lines stdout).filter fun line => trim line ≠ []

def discoverInitializedSubmodules (registry : RepoRegistry) : Except RegistryError RepoRegistry :=
  match world.submoduleStatus (String.ofList registryRoot) with
  | none => .ok registry
  | some stdout =>
    match (statusLines stdout).foldlM
        (Discovery.step nfc sha256Hex rendering world registryRoot) ⟨registry, []⟩ with
    | .error error => .error error
    | .ok found => .ok { found.registry with
        registrations := addChildren found.links found.registry.registrations }

/-! ## Bootstrap and sync -/

def bootstrapRegistry : Except RegistryError RepoRegistry :=
  match canonicalFilesystemPath nfc world.files registryRoot with
  | .error error => .error (.registryRoot registryRoot error)
  | .ok parts =>
    let root := absoluteText parts
    let registry := RepoRegistry.new (stableRepoId sha256Hex root)
    match registrationForRepo nfc sha256Hex world root root ⟨.root, none, none⟩ (some ".") with
    | .error error => .error error
    | .ok registration =>
      discoverInitializedSubmodules nfc sha256Hex rendering world root (registry.upsert registration)

def rootExists (registration : RepoRegistration) : Bool := world.pathExists registration.root.toList

/-- What a sync makes of an entry before it looks at the submodules. -/
def refresh (registration : RepoRegistration) : RepoRegistration :=
  if rootExists world registration then
    { registration with trustState := .trusted, vcs := readVcsMetadata world registration.root }
  else { registration with trustState := .missing, enabled := false }

def missingWarning (registration : RepoRegistration) : RepoRegistryWarning where
  code := "repo_missing"
  message := "registered repo '" ++ registration.repoId ++ "' is missing"
  path := some registration.root

def RepoRegistry.sync (registry : RepoRegistry) (registryRoot : List Char) :
    Except RegistryError RepoRegistry :=
  let missing := registry.registrations.filter fun entry => !rootExists world entry
  let refreshed := { registry with
    registrations := registry.registrations.map (refresh world)
    warnings := missing.map missingWarning }
  match discoverInitializedSubmodules nfc sha256Hex rendering world registryRoot refreshed with
  | .error error => .error error
  | .ok found => .ok { found with registrations := sortAndDedupe found.registrations }

end

/-! A registry is sorted and has one entry for each id, so it is determined by
what is registered under each id. -/

instance : IsTrans RepoRegistration sortsBefore where
  trans left middle right early late := by
    unfold sortsBefore at early late ⊢
    rcases early with rank | ⟨rank, name | ⟨name, id⟩⟩
    · rcases late with rank' | ⟨rank', _⟩
      · exact .inl (rank.trans rank')
      · exact .inl (rank' ▸ rank)
    · rcases late with rank' | ⟨rank', name' | ⟨name', _⟩⟩
      · exact .inl (rank ▸ rank')
      · exact .inr ⟨rank.trans rank', .inl (name.trans name')⟩
      · exact .inr ⟨rank.trans rank', .inl (name' ▸ name)⟩
    · rcases late with rank' | ⟨rank', name' | ⟨name', id'⟩⟩
      · exact .inl (rank ▸ rank')
      · exact .inr ⟨rank.trans rank', .inl (name ▸ name')⟩
      · exact .inr ⟨rank.trans rank', .inr ⟨name.trans name', id.trans id'⟩⟩

instance : Std.Total sortsBefore where
  total left right := by
    unfold sortsBefore
    rcases Nat.lt_trichotomy (relationshipRank left.relationship.kind)
      (relationshipRank right.relationship.kind) with rank | rank | rank
    · exact .inl (.inl rank)
    · rcases lt_trichotomy left.displayAlias right.displayAlias with name | name | name
      · exact .inl (.inr ⟨rank, .inl name⟩)
      · rcases le_total left.repoId right.repoId with id | id
        · exact .inl (.inr ⟨rank, .inr ⟨name, id⟩⟩)
        · exact .inr (.inr ⟨rank.symm, .inr ⟨name.symm, id⟩⟩)
      · exact .inr (.inr ⟨rank.symm, .inl name⟩)
    · exact .inr (.inl rank)

theorem sortsBefore_antisymm (left right : RepoRegistration) (forth : sortsBefore left right)
    (back : sortsBefore right left) : left.repoId = right.repoId := by
  unfold sortsBefore at forth back
  rcases forth with rank | ⟨rank, name | ⟨name, id⟩⟩
  · rcases back with rank' | ⟨rank', _⟩
    all_goals omega
  · rcases back with rank' | ⟨_, name' | ⟨name', _⟩⟩
    · omega
    · exact absurd (name.trans name') (lt_irrefl _)
    · rw [name'] at name
      exact absurd name (lt_irrefl _)
  · rcases back with rank' | ⟨_, name' | ⟨_, id'⟩⟩
    · omega
    · rw [name] at name'
      exact absurd name' (lt_irrefl _)
    · exact le_antisymm id id'

/-- Sorted, with each id once. -/
structure Settled (registrations : List RepoRegistration) : Prop where
  sorted : registrations.Pairwise sortsBefore
  distinct : (registrations.map RepoRegistration.repoId).Nodup

abbrev registered (registrations : List RepoRegistration) (repoId : String) :
    Option RepoRegistration := lookup RepoRegistration.repoId registrations repoId

variable {registrations others : List RepoRegistration} {registration : RepoRegistration}

theorem settled_nil : Settled [] := ⟨List.Pairwise.nil, nodup_nil⟩

theorem settled_sortAndDedupe (registrations : List RepoRegistration) :
    Settled (sortAndDedupe registrations) :=
  ⟨(pairwise_insertionSort sortsBefore registrations).sublist (firsts_sublist _ _), (firsts_nodup _ _).1⟩

theorem Settled.sortAndDedupe_eq (settled : Settled registrations) :
    sortAndDedupe registrations = registrations := by
  unfold sortAndDedupe
  rw [settled.sorted.insertionSort_eq]
  exact firsts_of_nodup settled.distinct fun row _ => not_mem_nil

theorem Settled.eq (settled : Settled registrations) (settled' : Settled others) (same : ∀ repoId,
    registered registrations repoId = registered others repoId) : registrations = others :=
  eq_of_lookup sortsBefore_antisymm settled.sorted settled'.sorted settled.distinct settled'.distinct same

variable {change : RepoRegistration → RepoRegistration} {other : RepoRegistration}

theorem Settled.map (settled : Settled registrations)
    (ids : ∀ entry, (change entry).repoId = entry.repoId)
    (aliases : ∀ entry, (change entry).displayAlias = entry.displayAlias)
    (kinds : ∀ entry, (change entry).relationship = entry.relationship) :
    Settled (registrations.map change) := by
  constructor
  · rw [pairwise_map]
    refine settled.sorted.imp fun before => ?_
    unfold sortsBefore
    rw [ids, ids, aliases, aliases, kinds, kinds]
    exact before
  · rw [map_map]
    have same : RepoRegistration.repoId ∘ change = RepoRegistration.repoId := funext ids
    rw [same]
    exact settled.distinct

theorem registered_sortAndDedupe (nodup : (registrations.map RepoRegistration.repoId).Nodup)
    (repoId : String) :
    registered (sortAndDedupe registrations) repoId = registered registrations repoId := by
  have perm := perm_insertionSort sortsBefore registrations
  have distinct' := (perm.map RepoRegistration.repoId).nodup_iff.mpr nodup
  unfold sortAndDedupe
  rw [firsts_of_nodup distinct' fun row _ => not_mem_nil]
  exact lookup_perm perm distinct'

def upsertEntry (registrations : List RepoRegistration) (registration : RepoRegistration) :
    List RepoRegistration := sortAndDedupe (put RepoRegistration.repoId registration registrations)

theorem settled_upsertEntry (registrations : List RepoRegistration)
    (registration : RepoRegistration) :
    Settled (upsertEntry registrations registration) := settled_sortAndDedupe _

theorem registered_upsertEntry (nodup : (registrations.map RepoRegistration.repoId).Nodup)
    (registration : RepoRegistration) (repoId : String) :
    registered (upsertEntry registrations registration) repoId =
      if registration.repoId = repoId then some registration else registered registrations repoId := by
  unfold upsertEntry
  rw [registered_sortAndDedupe (nodup_put nodup)]
  exact lookup_put registration registrations

/-! ## What the parent of a submodule is found by -/

/-- The part of an entry that the order, the search for a parent and the check of the root
look at. -/
structure Row where
  kind : RepoRelationshipKind
  (displayAlias repoId root : String)

def row (registration : RepoRegistration) : Row := ⟨registration.relationship.kind,
    registration.displayAlias, registration.repoId, registration.root⟩
def SameRows (registrations others : List RepoRegistration) : Prop :=
  registrations.map row = others.map row

def Row.sortsBefore (left right : Row) : Prop :=
  relationshipRank left.kind < relationshipRank right.kind ∨
    relationshipRank left.kind = relationshipRank right.kind ∧ (left.displayAlias <
      right.displayAlias ∨ left.displayAlias = right.displayAlias ∧ left.repoId ≤ right.repoId)

instance : DecidableRel Row.sortsBefore := fun left right => by
  unfold Row.sortsBefore
  infer_instance

theorem map_row_put (registration : RepoRegistration) (registrations : List RepoRegistration) :
    (put RepoRegistration.repoId registration registrations).map row =
      put Row.repoId (row registration) (registrations.map row) :=
  map_put (fun entry => (rfl : (row entry).repoId = entry.repoId)) registration registrations

theorem map_row_firsts (seen : List String) (registrations : List RepoRegistration) :
    (firsts RepoRegistration.repoId seen registrations).map row =
      firsts Row.repoId seen (registrations.map row) :=
  map_firsts (fun entry => (rfl : (row entry).repoId = entry.repoId)) seen registrations

theorem map_row_sortAndDedupe (registrations : List RepoRegistration) :
    (sortAndDedupe registrations).map row =
      firsts Row.repoId [] ((registrations.map row).insertionSort Row.sortsBefore) := by
  unfold sortAndDedupe
  rw [map_row_firsts, map_insertionSort sortsBefore Row.sortsBefore row registrations fun left _ right _ => Iff.rfl]

theorem SameRows.upsertEntry (same : SameRows registrations others)
    (alike : row registration = row other) :
    SameRows (upsertEntry registrations registration) (upsertEntry others other) := by
  unfold SameRows Repo.upsertEntry
  rw [map_row_sortAndDedupe, map_row_sortAndDedupe, map_row_put, map_row_put, same, alike]

theorem sameRows_map (keeps : ∀ entry, row (change entry) = row entry)
    (registrations : List RepoRegistration) :
    SameRows (registrations.map change) registrations := by
  unfold SameRows
  rw [map_map]
  exact map_congr_left fun entry _ => keeps entry

theorem submoduleDistance_row {parentPath : List (List Char)}
    {entry : RepoRegistration} (same : row entry = row other) :
    submoduleDistance parentPath entry = submoduleDistance parentPath other := by
  have kinds : entry.relationship.kind = other.relationship.kind := congrArg Row.kind same
  have aliases : entry.displayAlias = other.displayAlias := congrArg Row.displayAlias same
  have ids : entry.repoId = other.repoId := congrArg Row.repoId same
  unfold submoduleDistance
  rw [kinds, aliases, ids]

theorem SameRows.filterMap_distance (same : SameRows registrations others)
    (parentPath : List (List Char)) :
    registrations.filterMap (submoduleDistance parentPath) = others.filterMap (submoduleDistance parentPath) := by
  induction registrations generalizing others with
  | nil =>
    cases others with
    | nil => rfl
    | cons other rest => cases same
  | cons entry rest ih =>
    cases others with
    | nil => cases same
    | cons other others =>
      obtain ⟨head, tail⟩ := cons.inj same
      rw [filterMap_cons, filterMap_cons, submoduleDistance_row head, ih tail]

theorem SameRows.find_alias (same : SameRows registrations others) (wanted : String) :
    (registrations.find? fun entry => entry.displayAlias = wanted).map RepoRegistration.repoId =
      (others.find? fun entry => entry.displayAlias = wanted).map RepoRegistration.repoId := by
  induction registrations generalizing others with
  | nil =>
    cases others with
    | nil => rfl
    | cons other rest => cases same
  | cons entry rest ih =>
    cases others with
    | nil => cases same
    | cons other others =>
      obtain ⟨head, tail⟩ := cons.inj same
      have aliases : entry.displayAlias = other.displayAlias := congrArg Row.displayAlias head
      have ids : entry.repoId = other.repoId := congrArg Row.repoId head
      rw [find?_cons, find?_cons, aliases]
      split
      · rw [Option.map_some, Option.map_some, ids]
      · exact ih tail

theorem SameRows.parentRepoId (same : SameRows registrations others)
    (nfc : String → String) (registryRoot : List Char) (relPath : String) :
    parentRepoIdForSubmodule nfc registryRoot registrations relPath =
      parentRepoIdForSubmodule nfc registryRoot others relPath := by
  unfold parentRepoIdForSubmodule
  dsimp only
  rw [same.filterMap_distance]
  split
  · rfl
  · split
    · rfl
    · exact same.find_alias _

end Atlas.Repo
