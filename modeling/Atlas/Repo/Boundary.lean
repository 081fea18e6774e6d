import Atlas.Files.Tree
import Atlas.Program.MapM
import Atlas.Repo.PathProperties
import Mathlib.Data.List.Sort
import Mathlib.Data.String.Basic

/-! How a file path from outside is resolved against one repo: an absolute one
over the file system, a relative one by its text, with leading segments stripped
when the whole text names nothing. -/
namespace Atlas.Repo
open List Files

inductive BoundaryPathError where
  | text (error : RepoPathError)
  | repoRootNotAbsolute (repoRoot : String)
  | absoluteInputNotAbsolute (path : String)
  | notUnderRepoRoot (repoRoot path : String)
  | filesystemCanonicalize (path message : String)
  | nonUtf8Path (path : Location)
  | pathNotFound (requested : String)
  | ambiguousPath (requested : String) (candidates : List String)
  deriving DecidableEq

def isAbsolute (path : List Char) : Bool := path.head? = some '/'

def joinPath (base path : List Char) : List Char :=
  if isAbsolute path then path
  else if base.getLast? = some '/' then base ++ path
  else base ++ '/' :: path

def component (segment : List Char) : Component :=
  if segment = [] ∨ segment = ['.'] then .here
  else if segment = ['.', '.'] then .up
  else .child (.text segment)

def components (path : List Char) : List Component := (path.splitOn '/').map component

def fileName (path : List Char) : Option (List Char) :=
  match ((path.splitOn '/').filter fun segment => segment ≠ [] ∧ segment ≠ ['.']).getLast? with
  | some last => if last = ['.', '.'] then none else some last
  | none => none

structure RepoRoot where
  text : List Char
  absolute : isAbsolute text = true

def RepoRoot.join (repoRoot : RepoRoot) (path : List Char) : List Char :=
  joinPath repoRoot.text path

inductive AbsoluteRole where
  | repoRoot
  | inputPath

def absoluteText (parts : List (List Char)) : List Char := '/' :: ['/'].intercalate parts

section
variable (nfc : String → String) (files : FileSystem)

def reachText (path : List Char) : Option Location := reach files (components path)
def pathExists (path : List Char) : Bool := (reachText files path).isSome

def isFile (path : List Char) : Bool :=
  match reachText files path with
  | some found => files.entry found = some .file
  | none => false

def normalizeAbsolute (role : AbsoluteRole) (path : List Char) :
    Except BoundaryPathError (List (List Char)) :=
  let cased := normalizeIdentity nfc path
  if isAbsolute cased then
    match (cased.splitOn '/').foldlM (pushComponent cased) [] with
    | .ok parts => .ok parts
    | .error error => .error (.text error)
  else
    match role with
    | .repoRoot => .error (.repoRootNotAbsolute (String.ofList path))
    | .inputPath => .error (.absoluteInputNotAbsolute (String.ofList path))

def canonicalAbsolutePath (path : List Char) :
    Except BoundaryPathError (List (List Char)) := normalizeAbsolute nfc .inputPath path

def canonicalizeExistingAncestor : List (List Char) → Except BoundaryPathError Location
  | [] =>
    match reachText files (absoluteText []) with
    | some found => .ok found
    | none => .error (.filesystemCanonicalize "/" "no existing ancestor was found")
  | name :: above =>
    match reachText files (absoluteText (name :: above).reverse) with
    | some found => .ok found
    | none =>
      match canonicalizeExistingAncestor above with
      | .ok found => .ok (found ++ [.text name])
      | .error error => .error error

def nameText : Name → Option (List Char)
  | .text chars => some chars
  | .bytes _ => none

def canonicalFilesystemPath (path : List Char) : Except BoundaryPathError (List (List Char)) := do
  let normalized ← canonicalAbsolutePath nfc path
  let canonical ← canonicalizeExistingAncestor files normalized.reverse
  match canonical.mapM nameText with
  | some names => canonicalAbsolutePath nfc (absoluteText names)
  | none => .error (.nonUtf8Path canonical)

def fromRepoRelative (path : List Char) : Except BoundaryPathError String :=
  match canonicalizeRelative nfc (String.ofList path) with
  | .ok canonical => .ok canonical
  | .error error => .error (.text error)

def fromAbsolutePath (repoRoot absPath : List Char) : Except BoundaryPathError String := do
  let canonicalRoot ← normalizeAbsolute nfc .repoRoot repoRoot
  let canonicalAbs ← normalizeAbsolute nfc .inputPath absPath
  if canonicalRoot.isPrefixOf canonicalAbs then
    fromRepoRelative nfc (['/'].intercalate (canonicalAbs.drop canonicalRoot.length))
  else .error (.notUnderRepoRoot (String.ofList (absoluteText canonicalRoot)) (String.ofList (absoluteText canonicalAbs)))

def fromBoundaryInput (repoRoot : RepoRoot) (path : List Char) : Except BoundaryPathError String :=
  match canonicalFilesystemPath nfc files repoRoot.text,
      canonicalFilesystemPath nfc files (repoRoot.join path) with
  | .ok physicalRoot, .ok physicalPath => fromAbsolutePath nfc (absoluteText physicalRoot) (absoluteText physicalPath)
  | _, _ =>
    if isAbsolute path then fromAbsolutePath nfc repoRoot.text path
    else fromRepoRelative nfc path

def fromCliArgument (repoRoot : RepoRoot) (path : List Char) :
    Except BoundaryPathError String := fromBoundaryInput nfc files repoRoot path

structure NormalizedRepoPath where
  (canonical reason : String)

def existingBelow (repoRoot : RepoRoot) (text : List Char) : Option String :=
  match fromRepoRelative nfc text with
  | .ok canonical => if pathExists files (repoRoot.join canonical.toList) then some canonical else none
  | .error _ => none

def stripReason (repoRoot : RepoRoot) (segments : List (List Char)) (stripCount : Nat) : String :=
  if stripCount = 1 ∧ segments.head? = some ((fileName repoRoot.text).getD []) then
    "stripped_duplicated_root_prefix"
  else if stripCount = 1 then "stripped_foreign_root_prefix"
  else "stripped_nested_subdir_prefix"

def pushCandidate (repoRoot : RepoRoot) (segments : List (List Char))
    (candidates : List (String × String)) (stripCount : Nat) : List (String × String) :=
  let tail := ['/'].intercalate (segments.drop stripCount)
  if tail = [] then candidates
  else
    match existingBelow nfc files repoRoot tail with
    | none => candidates
    | some canonical =>
      if candidates.any fun candidate => candidate.1 = canonical then candidates
      else candidates ++ [(canonical, stripReason repoRoot segments stripCount)]

def normalizeRepoFilePath (repoRoot : RepoRoot) (raw : String) :
    Except BoundaryPathError NormalizedRepoPath :=
  let trimmed := trim raw.toList
  if trimmed = [] then .error (.text .empty)
  else
    let normalized := toForwardSlashes trimmed
    if isAbsolute normalized then
      match fromCliArgument nfc files repoRoot normalized with
      | .ok canonical => .ok ⟨canonical, "absolute"⟩
      | .error error => .error error
    else
      match existingBelow nfc files repoRoot normalized with
      | some canonical => .ok ⟨canonical, "direct"⟩
      | none =>
        let segments := (normalized.splitOn '/').filter fun segment => segment ≠ []
        let candidates := (range' 1 (segments.length - 1)).foldl
          (pushCandidate nfc files repoRoot segments) []
        match candidates with
        | [(canonical, reason)] => .ok ⟨canonical, reason⟩
        | [] => .error (.pathNotFound (String.ofList trimmed))
        | _ => .error (.ambiguousPath (String.ofList trimmed)
            ((candidates.map Prod.fst).insertionSort (· ≤ ·)))

end

/-! What an input is read as, and where a path below the root leads. -/

section
variable {nfc : String → String} {files : FileSystem} {repoRoot : RepoRoot}

/-! ## Joined paths -/

def pathNames (canonical : String) : List Name := (canonical.toList.splitOn '/').map .text

theorem components_append (base path : List Char) :
    components (base ++ '/' :: path) = components base ++ components path := by
  unfold components
  rw [splitOn_append_cons_self, map_append]

structure IsRelative (canonical : String) : Prop where
  normal : ∀ segment ∈ canonical.toList.splitOn '/', IsNormal segment
  relative : isAbsolute canonical.toList = false

variable {canonical : String}

theorem IsRelative.components (relative : IsRelative canonical) :
    components canonical.toList = children (pathNames canonical) := by
  unfold Repo.components children pathNames
  rw [map_map]
  apply map_congr_left
  intro segment mem
  obtain ⟨nonempty, dot, dots⟩ := relative.normal segment mem
  rw [component, if_neg (not_or.mpr ⟨nonempty, dot⟩), if_neg dots]
  rfl

theorem pathNames_ne_nil (canonical : String) : pathNames canonical ≠ [] := by
  intro none
  exact splitOn_ne_nil _ _ (map_eq_nil_iff.mp none)

variable {text : List Char}
  {segments : List (List Char)} {candidates : List (String × String)} {count : Nat}

theorem fromRepoRelative_isRelative (accepted : fromRepoRelative nfc text = .ok canonical) :
    IsRelative canonical := by
  unfold fromRepoRelative at accepted
  split at accepted
  · next spelled =>
      cases accepted
      obtain ⟨nonempty, shape⟩ := canonicalizeRelative_ok spelled
      have pieces : canonical.toList.splitOn '/' = survivingSegments nfc (String.ofList text) := by
        rw [shape, String.toList_ofList]
        exact splitOn_intercalate '/' (fun segment mem => (survivingSegments_mem mem).2.1) nonempty
      refine ⟨fun segment mem => ?_, ?_⟩
      · rw [pieces] at mem
        exact (survivingSegments_mem mem).1
      · obtain ⟨first, rest, parts⟩ := exists_cons_of_ne_nil nonempty
        have mem : first ∈ survivingSegments nfc (String.ofList text) := by
          rw [parts]
          exact .head _
        obtain ⟨normal, noSlash, _⟩ := survivingSegments_mem mem
        rw [isAbsolute, shape, String.toList_ofList, parts, intercalate_head? _ normal.1, decide_eq_false_iff_not]
        intro slash
        exact noSlash (mem_of_head? slash)
  · cases accepted

theorem fromAbsolutePath_isRelative {root path : List Char}
    (accepted : fromAbsolutePath nfc root path = .ok canonical) : IsRelative canonical := by
  unfold fromAbsolutePath at accepted
  obtain ⟨canonicalRoot, -, accepted⟩ := Program.bind_eq_ok accepted
  obtain ⟨canonicalAbs, -, accepted⟩ := Program.bind_eq_ok accepted
  split at accepted
  · exact fromRepoRelative_isRelative accepted
  · cases accepted

theorem fromBoundaryInput_isRelative {path : List Char}
    (accepted : fromBoundaryInput nfc files repoRoot path = .ok canonical) :
    IsRelative canonical := by
  unfold fromBoundaryInput at accepted
  split at accepted
  · exact fromAbsolutePath_isRelative accepted
  · split at accepted
    · exact fromAbsolutePath_isRelative accepted
    · exact fromRepoRelative_isRelative accepted

theorem existingBelow_eq_some_iff :
    existingBelow nfc files repoRoot text = some canonical ↔ fromRepoRelative nfc text =
      .ok canonical ∧ pathExists files (repoRoot.join canonical.toList) = true := by
  unfold existingBelow
  constructor
  · intro found
    split at found
    · next spelled =>
        split at found
        · next present =>
            cases found
            exact ⟨spelled, present⟩
        · cases found
    · cases found
  · rintro ⟨spelled, present⟩
    rw [spelled]
    exact if_pos present

theorem existingBelow_nil : existingBelow nfc files repoRoot [] = none := by
  unfold existingBelow fromRepoRelative canonicalizeRelative
  rfl

theorem follow_join (relative : IsRelative canonical) :
    follow files maxLinks [] (components (repoRoot.join canonical.toList)) =
      (follow files maxLinks [] (components repoRoot.text)).bind fun stop =>
        follow files stop.1 stop.2 (children (pathNames canonical)) := by
  unfold RepoRoot.join joinPath
  rw [relative.relative, if_neg Bool.false_ne_true]
  by_cases slash : repoRoot.text.getLast? = some '/'
  · obtain ⟨base, parts⟩ := getLast?_eq_some_iff.mp slash
    obtain ⟨name, names, path⟩ := exists_cons_of_ne_nil (pathNames_ne_nil canonical)
    have whole : repoRoot.text ++ canonical.toList = base ++ '/' :: canonical.toList := by
      rw [parts, append_assoc, singleton_append]
    have root : components repoRoot.text = components base ++ [.here] := by
      rw [parts, components_append]
      rfl
    rw [if_pos slash, whole, components_append, relative.components, root, ← follow_append,
      append_assoc, follow_append, follow_append]
    congr 1
    funext stop
    rw [path]
    exact (follow_here name).symm
  · rw [if_neg slash, components_append, relative.components, follow_append]

/-! ## Readings of an input -/

def boundaryText (input : String) : List Char := toForwardSlashes (trim input.toList)
def boundarySegments (input : String) : List (List Char) :=
  ((boundaryText input).splitOn '/').filter fun segment => segment ≠ []
def strippedText (input : String) (count : Nat) : List Char :=
  ['/'].intercalate ((boundarySegments input).drop count)
def Strippable (input : String) (count : Nat) : Prop :=
  1 ≤ count ∧ count < (boundarySegments input).length

/-- What an input names below the root: the physical path of an absolute input, the whole of a
relative one, or what all its stripped texts that name anything agree on. -/
inductive Reading (nfc : String → String)
    (files : FileSystem) (repoRoot : RepoRoot) (input : String) (canonical : String) : Prop where
  | absolute : isAbsolute (boundaryText input) = true → fromCliArgument nfc files repoRoot
    (boundaryText input) = .ok canonical → Reading nfc files repoRoot input canonical
  | whole : isAbsolute (boundaryText input) = false → existingBelow nfc files repoRoot
    (boundaryText input) = some canonical → Reading nfc files repoRoot input canonical
  | stripped (count : Nat) : isAbsolute (boundaryText input) = false →
    existingBelow nfc files repoRoot (boundaryText input) = none → Strippable input count →
      existingBelow nfc files repoRoot (strippedText input count) = some canonical →
      (∀ other path, Strippable input other → existingBelow nfc files repoRoot
        (strippedText input other) = some path → path = canonical) →
      Reading nfc files repoRoot input canonical

variable {input : String}

theorem Reading.isRelative (reading : Reading nfc files repoRoot input canonical) :
    IsRelative canonical := by
  cases reading with
  | absolute _ accepted => exact fromBoundaryInput_isRelative accepted
  | whole _ found | stripped _ _ _ _ found _ => exact fromRepoRelative_isRelative (existingBelow_eq_some_iff.mp found).1

variable (nfc files repoRoot) in
theorem pushCandidate_cases (segments : List (List Char)) (candidates : List (String × String))
    (count : Nat) : (pushCandidate nfc files repoRoot segments candidates count = candidates ∧
      ∀ path, existingBelow nfc files repoRoot (['/'].intercalate (segments.drop count)) =
        some path → path ∈ candidates.map Prod.fst) ∨
      ∃ path reason, existingBelow nfc files repoRoot (['/'].intercalate (segments.drop count)) =
        some path ∧ path ∉ candidates.map Prod.fst ∧
        pushCandidate nfc files repoRoot segments candidates count = candidates ++ [(path, reason)] := by
  unfold pushCandidate
  generalize ['/'].intercalate (segments.drop count) = tail
  dsimp only
  split
  · next empty =>
      refine .inl ⟨rfl, fun path found => ?_⟩
      rw [empty, existingBelow_nil] at found
      cases found
  · split
    · next missing =>
        refine .inl ⟨rfl, fun path found => ?_⟩
        rw [missing] at found
        cases found
    · next canonical found =>
        have seen_iff : (candidates.any fun candidate => decide (candidate.1 = canonical)) = true ↔
          canonical ∈ candidates.map Prod.fst := by
          rw [any_eq_true, mem_map]
          simp only [decide_eq_true_eq]
        split
        · next seen =>
            refine .inl ⟨rfl, fun path named => ?_⟩
            rw [found] at named
            cases named
            exact seen_iff.mp seen
        · next fresh => exact .inr ⟨canonical, _, found, fun seen => fresh (seen_iff.mpr seen), rfl⟩

variable {path : String}

theorem pushCandidate_paths :
    path ∈ (pushCandidate nfc files repoRoot segments candidates count).map Prod.fst ↔
      path ∈ candidates.map Prod.fst ∨
        existingBelow nfc files repoRoot (['/'].intercalate (segments.drop count)) = some path := by
  rcases pushCandidate_cases nfc files repoRoot segments candidates count with ⟨same,
    seen⟩ | ⟨canonical, reason, found, _, pushed⟩
  · rw [same]
    exact ⟨.inl, fun mem => mem.elim id (seen path)⟩
  · rw [pushed, found, map_append, mem_append, Option.some.injEq, map_singleton, mem_singleton]
    exact or_congr_right eq_comm

theorem pushCandidate_nodup (distinct : (candidates.map Prod.fst).Nodup) :
    ((pushCandidate nfc files repoRoot segments candidates count).map Prod.fst).Nodup := by
  rcases pushCandidate_cases nfc files repoRoot segments candidates count with ⟨same, _⟩ | ⟨canonical, reason, _, fresh, pushed⟩
  · rw [same]
    exact distinct
  · rw [pushed, map_append, map_singleton]
    refine nodup_append.mpr ⟨distinct, nodup_singleton _, ?_⟩
    intro path mem other new same
    rw [same, mem_singleton.mp new] at mem
    exact fresh mem

theorem foldl_pushCandidate (counts : List Nat)
    (candidates : List (String × String)) (distinct : (candidates.map Prod.fst).Nodup) :
    ((counts.foldl (pushCandidate nfc files repoRoot segments) candidates).map Prod.fst).Nodup ∧
      ∀ path, path ∈ (counts.foldl (pushCandidate nfc files repoRoot segments) candidates).map
        Prod.fst ↔ path ∈ candidates.map Prod.fst ∨ ∃ count ∈ counts,
          existingBelow nfc files repoRoot (['/'].intercalate (segments.drop count)) = some path := by
  induction counts generalizing candidates with
  | nil => exact ⟨distinct, fun path => by simp⟩
  | cons count counts ih =>
    obtain ⟨nodup, members⟩ := ih _ (pushCandidate_nodup distinct)
    refine ⟨nodup, fun path => ?_⟩
    rw [foldl_cons, members path, pushCandidate_paths, or_assoc]
    refine or_congr_right ?_
    constructor
    · rintro (here | ⟨other, mem, found⟩)
      · exact ⟨count, .head _, here⟩
      · exact ⟨other, .tail _ mem, found⟩
    · rintro ⟨other, mem, found⟩
      rcases mem_cons.mp mem with same | later
      · rw [same] at found
        exact .inl found
      · exact .inr ⟨other, later, found⟩

theorem eq_singleton_of_nodup (distinct : (candidates.map Prod.fst).Nodup) (mem :
    path ∈ candidates.map Prod.fst) (only : ∀ other ∈ candidates.map Prod.fst, other = path) :
    ∃ reason, candidates = [(path, reason)] := by
  cases candidates with
  | nil => cases mem
  | cons first rest =>
    have named := only first.1 (mem_map_of_mem (.head _))
    cases rest with
    | nil => exact ⟨first.2, by rw [← named]⟩
    | cons second rest =>
      have again := only second.1 (mem_map_of_mem (.tail _ (.head _)))
      rw [map_cons, nodup_cons, named, ← again] at distinct
      exact absurd (mem_map_of_mem (.head _)) distinct.1

def strippedCandidates (nfc : String → String)
    (files : FileSystem) (repoRoot : RepoRoot) (input : String) : List (String × String) :=
  (range' 1 ((boundarySegments input).length - 1)).foldl (pushCandidate nfc files repoRoot (boundarySegments input)) []

theorem mem_strippedCandidates : path ∈ (strippedCandidates nfc files repoRoot input).map Prod.fst ↔
      ∃ count, Strippable input count ∧ existingBelow nfc files repoRoot (strippedText input count) = some path := by
  unfold strippedCandidates Strippable strippedText
  rw [(foldl_pushCandidate _ [] nodup_nil).2 path]
  simp only [map_nil, not_mem_nil, false_or, mem_range'_1]
  constructor
  all_goals
    rintro ⟨count, range, found⟩
    exact ⟨count, by omega, found⟩

theorem strippedCandidates_singleton :
    (∃ reason, strippedCandidates nfc files repoRoot input = [(path, reason)]) ↔
      ∃ count, Strippable input count ∧ existingBelow nfc files repoRoot (strippedText input count) = some path ∧
        ∀ other found, Strippable input other → existingBelow nfc files repoRoot
          (strippedText input other) = some found → found = path := by
  constructor
  · rintro ⟨reason, single⟩
    have members : ∀ found, found ∈ (strippedCandidates nfc files repoRoot input).map Prod.fst ↔ ∃ count, Strippable input count ∧
          existingBelow nfc files repoRoot (strippedText input count) = some found :=
      fun found => mem_strippedCandidates
    simp only [single, map_singleton, mem_singleton] at members
    obtain ⟨count, fits, found⟩ := (members path).mp rfl
    exact ⟨count, fits, found, fun other name fits' named => (members name).mpr ⟨other, fits', named⟩⟩
  · rintro ⟨count, fits, found, only⟩
    refine eq_singleton_of_nodup (foldl_pushCandidate _ [] nodup_nil).1 (mem_strippedCandidates.mpr ⟨count, fits, found⟩) ?_
    intro other mem
    obtain ⟨place, fits', named⟩ := mem_strippedCandidates.mp mem
    exact only place other fits' named

theorem normalizeRepoFilePath_ok_iff :
    (∃ reason, normalizeRepoFilePath nfc files repoRoot input = .ok ⟨canonical, reason⟩) ↔
      Reading nfc files repoRoot input canonical := by
  have text : toForwardSlashes (trim input.toList) = boundaryText input := rfl
  have segments : (((boundaryText input).splitOn '/').filter fun segment => decide (segment ≠ [])) = boundarySegments input := rfl
  have rounds : (range' 1 ((boundarySegments input).length - 1)).foldl (pushCandidate nfc files
    repoRoot (boundarySegments input)) [] = strippedCandidates nfc files repoRoot input := rfl
  unfold normalizeRepoFilePath
  simp only [text, segments, rounds]
  by_cases blank : trim input.toList = []
  · have nothing : boundaryText input = [] := by
      unfold boundaryText
      rw [blank]
      rfl
    rw [if_pos blank]
    constructor
    · rintro ⟨reason, accepted⟩
      cases accepted
    · intro reading
      cases reading with
      | absolute absolute _ =>
        rw [nothing] at absolute
        cases absolute
      | whole _ found =>
        rw [nothing, existingBelow_nil] at found
        cases found
      | stripped count _ _ fits _ _ =>
        have none : boundarySegments input = [] := by
          unfold boundarySegments
          rw [nothing]
          rfl
        rw [Strippable, none, length_nil] at fits
        omega
  · rw [if_neg blank]
    cases absolute : isAbsolute (boundaryText input) with
    | true =>
      rw [if_pos rfl]
      constructor
      · rintro ⟨reason, accepted⟩
        cases argued : fromCliArgument nfc files repoRoot (boundaryText input) with
        | error error =>
          rw [argued] at accepted
          cases accepted
        | ok path =>
          rw [argued] at accepted
          cases accepted
          exact .absolute absolute argued
      · intro reading
        cases reading with
        | absolute _ argued => exact ⟨"absolute", by rw [argued]⟩
        | whole relative _ | stripped _ relative _ _ _ _ =>
          rw [relative] at absolute
          cases absolute
    | false =>
      rw [if_neg Bool.false_ne_true]
      cases whole : existingBelow nfc files repoRoot (boundaryText input) with
      | some path =>
        constructor
        · rintro ⟨reason, accepted⟩
          cases accepted
          exact .whole absolute whole
        · intro reading
          cases reading with
          | absolute rooted _ =>
            rw [rooted] at absolute
            cases absolute
          | whole _ found =>
            rw [found] at whole
            cases whole
            exact ⟨"direct", rfl⟩
          | stripped _ _ missing _ _ _ =>
            rw [missing] at whole
            cases whole
      | none =>
        dsimp only
        constructor
        · rintro ⟨reason, accepted⟩
          split at accepted
          · next path why single =>
              cases accepted
              obtain ⟨count, fits, found, only⟩ := strippedCandidates_singleton.mp ⟨_, single⟩
              exact .stripped count absolute whole fits found only
          all_goals cases accepted
        · intro reading
          cases reading with
          | absolute rooted _ =>
            rw [rooted] at absolute
            cases absolute
          | whole _ found =>
            rw [found] at whole
            cases whole
          | stripped count _ _ fits found only =>
            obtain ⟨reason, single⟩ := strippedCandidates_singleton.mpr ⟨count, fits, found, only⟩
            exact ⟨reason, by rw [single]⟩

end
end Atlas.Repo
