import Atlas.Core.Json
import Atlas.Repo.Boundary
import Atlas.Repo.Ignore

/-! The file argument of the file tools. The walk that looks for a file of the
same name, behind an error's suggestion, belongs to an external crate. -/
namespace Atlas.Mcp
open Core Files Repo
open Text (lines)

inductive ToolErrorCode where
  | invalidInput
  | fileNotFound
  | symbolNotFound
  | graphStale
  | timeout
  | dependencyFailed
  | internalToolError
  deriving DecidableEq

structure ToolErrorPayload where
  code : ToolErrorCode
  message : String
  (retryGuidance tool : Option String)
  details : Option Json
  deriving DecidableEq

def maxToolErrorTextLen : Nat := 240

def normalizeToolErrorText (text : String) : String :=
  let normal := [' '].intercalate
    (((lines text.toList).map trim).filter fun line => line ≠ [])
  let cut := if maxToolErrorTextLen < normal.length then
    normal.take (maxToolErrorTextLen - 1) ++ ['…'] else normal
  if cut = [] then "internal tool error" else String.ofList cut

structure RepoPathCandidate where
  (path reason : String)

structure RepoPathIdentity where
  (repoRoot repoName workspaceRootPrefix : String)

def RepoPathIdentity.new (repoRoot : RepoRoot) : RepoPathIdentity :=
  let repoName := match fileName repoRoot.text with
    | some name => if name = [] then String.ofList repoRoot.text else String.ofList name
    | none => String.ofList repoRoot.text
  ⟨String.ofList repoRoot.text, repoName, repoName ++ "/"⟩

def RepoPathIdentity.details (identity : RepoPathIdentity) (path : String) : List (String × Json) :=
  [("accepted_root_prefixes", .arr [.str ""]),
    ("canonical_path_guidance", .str "Atlas file tools expect repo-relative paths under current repo root, for example 'src/lib.rs'. Do not prefix with workspace root, nested project root, or foreign repo name."),
    ("path", .str path), ("repo_name", .str identity.repoName), ("repo_root", .str identity.repoRoot),
    ("workspace_root_prefix", .str identity.workspaceRootPrefix)]

def RepoPathCandidate.toJson (candidate : RepoPathCandidate) : Json :=
  .obj [("path", .str candidate.path), ("reason", .str candidate.reason)]

def buildRepoPathErrorPayload (toolName : String) (repoRoot : RepoRoot) (path : String)
    (code : ToolErrorCode) (message retryGuidance : String) (candidates : List RepoPathCandidate) :
    ToolErrorPayload :=
  let details := (RepoPathIdentity.new repoRoot).details path
  let details := match candidates with
    | [primary] => Json.insertField "suggestion_reason" (.str primary.reason)
        (Json.insertField "suggested_repo_relative_path" (.str primary.path) details)
    | _ => details
  let details := if candidates = [] then details
    else Json.insertField "candidate_paths" (.arr (candidates.map RepoPathCandidate.toJson)) details
  let details := if 1 < candidates.length then Json.insertField "ambiguity"
      (.str "multiple deterministic repo-relative candidates exist; Atlas refused to guess") details
    else details
  { code := code, message := normalizeToolErrorText message
    retryGuidance := some (normalizeToolErrorText retryGuidance), tool := some toolName
    details := some (.obj details) }

section
variable (nfc : String → String) (files : FileSystem)
variable (uniqueBasenameCandidate : RepoRoot → String → Option RepoPathCandidate)

def pushExisting (repoRoot : RepoRoot) (segments : List (List Char))
    (candidates : List RepoPathCandidate) (stripCount : Nat) : List RepoPathCandidate :=
  let tail := ['/'].intercalate (segments.drop stripCount)
  if tail = [] then candidates
  else
    match existingBelow nfc files repoRoot tail with
    | none => candidates
    | some canonical =>
      if candidates.any fun candidate => candidate.path = canonical then candidates
      else
        let reason :=
          if stripCount = 1 ∧ segments.head? = some ((fileName repoRoot.text).getD []) then
            "duplicated_root_prefix"
          else if stripCount = 1 then "foreign_root_prefix"
          else "nested_subdir_root_prefix"
        candidates ++ [⟨canonical, reason⟩]

def uniqueExistingRepoPathCandidates (repoRoot : RepoRoot) (path : String) :
    List RepoPathCandidate :=
  let normal := toForwardSlashes (trim path.toList)
  let segments := (normal.splitOn '/').filter fun segment => segment ≠ []
  if segments.length < 2 then []
  else ((List.range' 1 (segments.length - 1)).foldl (pushExisting nfc files repoRoot segments)
    []).insertionSort fun left right => left.path ≤ right.path

def resolveRepoFilePath (repoRoot : RepoRoot) (path : String) :
    Except BoundaryPathError (String × List Char) :=
  match normalizeRepoFilePath nfc files repoRoot path with
  | .ok normal => .ok (normal.canonical, repoRoot.join normal.canonical.toList)
  | .error error => .error error

def retryGuidance : String :=
  "Use exact repo-relative file path inside current Atlas repo, then retry."

def cleanRelativeSpelling (path : String) : Bool :=
  match canonicalizeRelative nfc (String.ofList (toForwardSlashes (trim path.toList))) with
  | .ok _ => true
  | .error _ => false

def unresolvedMessage (path : String) (code : ToolErrorCode) : List RepoPathCandidate → String
  | [] =>
    if code = .fileNotFound then "file not found: " ++ path
    else "invalid file path '" ++ path ++ "': Atlas file tools expect repo-relative paths"
  | [candidate] =>
    if code = .fileNotFound then
      "file not found: " ++ path ++ ". Retry with repo-relative path '" ++ candidate.path ++ "'"
    else "invalid file path '" ++ path ++ "': Atlas file tools expect repo-relative paths. Retry with '" ++ candidate.path ++ "'"
  | _ => "invalid file path '" ++ path ++
      "': Atlas found multiple repo-relative candidates after removing root-like prefixes"

def absentMessage (canonical : String) : List RepoPathCandidate → String
  | [] => "file not found: " ++ canonical
  | [candidate] => "file not found: " ++ canonical ++ ". Retry with repo-relative path '" ++
      candidate.path ++ "'"
  | _ => "file not found: " ++ canonical ++
      ". Atlas found multiple repo-relative candidates after removing root-like prefixes"

def resolveRepoFilePathOrError (toolName : String) (repoRoot : RepoRoot)
    (path : String) (requireExistingFile : Bool) : Except ToolErrorPayload (String × List Char) :=
  let recovered := uniqueExistingRepoPathCandidates nfc files repoRoot path
  let basename := uniqueBasenameCandidate repoRoot path
  let candidates := if recovered = [] then basename.toList else recovered
  match resolveRepoFilePath nfc files repoRoot path with
  | .error _ =>
    let code := if cleanRelativeSpelling nfc path ∧ recovered = [] then .fileNotFound
      else .invalidInput
    .error (buildRepoPathErrorPayload toolName repoRoot path code
      (unresolvedMessage path code candidates) retryGuidance candidates)
  | .ok (canonical, absolute) =>
    if requireExistingFile ∧ isFile files absolute = false then
      let code := if recovered = [] then .fileNotFound else .invalidInput
      .error (buildRepoPathErrorPayload toolName repoRoot path code (absentMessage canonical candidates) retryGuidance candidates)
    else .ok (canonical, absolute)

end

/-! Where the path of an accepted file argument leads. -/

section
variable (nfc : String → String) (files : FileSystem)
variable (uniqueBasenameCandidate : RepoRoot → String → Option RepoPathCandidate)

def Confined (repoRoot : RepoRoot) (absolute : List Char) : Prop := ∀ found, reachText files
    absolute = some found → ∃ root, reachText files repoRoot.text = some root ∧ root <+: found

def LinksLeadInside (repoRoot : RepoRoot) (canonical : String) : Prop :=
  ∀ left root, follow files maxLinks [] (components repoRoot.text) = some (left, root) →
    ∀ landing after, LastCrossing files left root (pathNames canonical) landing after → root <+: landing ++ after

variable {nfc files uniqueBasenameCandidate} {repoRoot : RepoRoot}

theorem reachText_eq_some {path : List Char} {found : Location} :
    reachText files path = some found ↔
      ∃ left, follow files maxLinks [] (components path) = some (left, found) := by
  unfold reachText reach
  rw [Option.map_eq_some_iff]
  constructor
  · rintro ⟨⟨left, place⟩, reached, same⟩
    cases same
    exact ⟨left, reached⟩
  · rintro ⟨left, reached⟩
    exact ⟨(left, found), reached, rfl⟩

variable {canonical input : String} {absolute : List Char}

theorem confined_join_iff (relative : IsRelative canonical) :
    Confined files repoRoot (repoRoot.join canonical.toList) ↔
      LinksLeadInside files repoRoot canonical := by
  constructor
  · intro confined left root rooted landing after crossing
    obtain ⟨rest, reached⟩ := crossing.follow_eq
    have place : reachText files (repoRoot.join canonical.toList) = some (landing ++ after) := by
      refine reachText_eq_some.mpr ⟨rest, ?_⟩
      rw [follow_join relative, rooted, Option.bind_some]
      exact reached
    obtain ⟨other, rooted', inside⟩ := confined _ place
    rw [reachText_eq_some.mpr ⟨left, rooted⟩] at rooted'
    cases rooted'
    exact inside
  · intro lasts found place
    obtain ⟨rest, reached⟩ := reachText_eq_some.mp place
    rw [follow_join relative] at reached
    obtain ⟨⟨left, root⟩, rooted, entered⟩ := Option.bind_eq_some_iff.mp reached
    refine ⟨root, reachText_eq_some.mpr ⟨left, rooted⟩, ?_⟩
    exact (follow_children_inside entered).mpr (lasts left root rooted)

theorem resolveRepoFilePath_ok_iff :
    resolveRepoFilePath nfc files repoRoot input = .ok (canonical, absolute) ↔
      Reading nfc files repoRoot input canonical ∧ absolute = repoRoot.join canonical.toList := by
  rw [← normalizeRepoFilePath_ok_iff]
  unfold resolveRepoFilePath
  constructor
  · intro resolved
    split at resolved
    · next normal accepted =>
        cases resolved
        exact ⟨⟨normal.reason, accepted⟩, rfl⟩
    · cases resolved
  · rintro ⟨⟨reason, accepted⟩, same⟩
    rw [accepted, same]

theorem resolveRepoFilePathOrError_ok_iff {toolName : String}
    {requireExistingFile : Bool} :
    resolveRepoFilePathOrError nfc files uniqueBasenameCandidate toolName repoRoot input
      requireExistingFile = .ok (canonical, absolute) ↔
      (Reading nfc files repoRoot input canonical ∧ absolute = repoRoot.join canonical.toList) ∧
        (requireExistingFile = true → isFile files absolute = true) := by
  rw [← resolveRepoFilePath_ok_iff]
  unfold resolveRepoFilePathOrError
  constructor
  · intro resolved
    split at resolved
    · cases resolved
    · next path place found =>
        split at resolved
        · cases resolved
        · next present =>
            cases resolved
            refine ⟨found, fun required => ?_⟩
            exact Bool.eq_true_of_not_eq_false fun missing => present ⟨required, missing⟩
  · rintro ⟨found, present⟩
    rw [found]
    refine if_neg ?_
    rintro ⟨required, missing⟩
    rw [present required] at missing
    cases missing

/-- A file argument is confined to the repo exactly when the path it is read as does not leave it
over a symbolic link. -/
theorem resolveRepoFilePathOrError_confined_iff (toolName input : String)
    (requireExistingFile : Bool) :
    (∀ canonical absolute, resolveRepoFilePathOrError nfc files uniqueBasenameCandidate toolName
        repoRoot input requireExistingFile = .ok (canonical, absolute) → Confined files repoRoot absolute) ↔
      ∀ canonical, Reading nfc files repoRoot input canonical →
        (requireExistingFile = true → isFile files (repoRoot.join canonical.toList) = true) →
        LinksLeadInside files repoRoot canonical := by
  constructor
  · intro confined canonical reading present
    refine (confined_join_iff reading.isRelative).mp (confined canonical _ ?_)
    exact resolveRepoFilePathOrError_ok_iff.mpr ⟨⟨reading, rfl⟩, present⟩
  · intro inside canonical absolute resolved
    obtain ⟨⟨reading, place⟩, present⟩ := resolveRepoFilePathOrError_ok_iff.mp resolved
    rw [place] at present ⊢
    exact (confined_join_iff reading.isRelative).mpr (inside canonical reading present)

end

def named (text : String) : Name := .text text.toList

def linkedFiles : FileSystem :=
  .ofEntries [([named "etc"], .dir), ([named "etc", named "passwd"], .file), ([named "repo"], .dir),
      ([named "repo", named "link"], .link ⟨true, [.child (named "etc"), .child (named "passwd")]⟩)]
    (by decide)

def linkedRoot : RepoRoot := ⟨"/repo".toList, by decide⟩

/-- The link is a file of the repo for the boundary, and what it reads is not. -/
theorem resolveRepoFilePathOrError_leaves_repo :
    resolveRepoFilePathOrError id linkedFiles (fun _ _ => none) "read_file_excerpt" linkedRoot
      "link" true = .ok ("link", "/repo/link".toList) ∧
      reachText linkedFiles linkedRoot.text = some [named "repo"] ∧
      reachText linkedFiles "/repo/link".toList = some [named "etc", named "passwd"] ∧
      ¬ Confined linkedFiles linkedRoot "/repo/link".toList := by
  have root : reachText linkedFiles linkedRoot.text = some [named "repo"] := by decide +kernel
  have leads : reachText linkedFiles "/repo/link".toList = some [named "etc", named "passwd"] := by decide +kernel
  refine ⟨by decide +kernel, root, leads, fun confined => ?_⟩
  obtain ⟨place, rooted, inside⟩ := confined _ leads
  rw [root] at rooted
  cases rooted
  exact absurd inside (by decide +kernel)

end Atlas.Mcp
