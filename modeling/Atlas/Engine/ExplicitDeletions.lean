import Atlas.Engine.Refinement
import Atlas.Repo.PathProperties
import Mathlib.Data.Finset.Max

/-! Deleting the graphs of explicitly named paths: which slices go, how often a repeated
deletion counts, and where a missing path may be moved to. -/
namespace Atlas.Engine
open List Program Repo Sql Store

def inTrees (paths : List String) (path : String) : Bool :=
  paths.any fun named => decide (path = named) || isBelow named path

section
variable (env : Env)

def slicePaths (db : Db) : List String :=
  ((db.files.filter fun row => decide (row.sourceRepoId = env.sourceRepoId)).map FileRow.path ++
    (db.nodes.filter fun row => decide (row.sourceRepoId = env.sourceRepoId)).map NodeRow.filePath).dedup

/-- Files and nodes of the removed paths are gone, all other ones stay. -/
structure Clears (removed : String → Bool) (before after : Db) : Prop where
  files : after.files = deleteWhere (fun row => decide (row.sourceRepoId = env.sourceRepoId) && removed row.path) before.files
  nodes : after.nodes = deleteWhere (fun row => decide (row.sourceRepoId = env.sourceRepoId) && removed row.filePath) before.nodes

/-- `delete_existing_file_graphs` removes the named trees, counts each slice of them
once, and finds nothing the second time. -/
structure DeletesTrees (paths : List String) (before after : Db) : Prop where
  once : deleteStale env false paths before = (.ok ((slicePaths env before).filter (inTrees paths)).length, after)
  clears : Clears env (inTrees paths) before after
  again : deleteStale env false paths after = (.ok 0, after)

def TreesAddressable (paths : List String) (db : Db) : Prop :=
  ∀ path ∈ slicePaths env db, inTrees paths path = true →
    Canonical env path ∧ (path ∈ paths ∨ (findFile db env.sourceRepoId path).isSome = true)

end

section
variable {env : Env} {db : Db} {paths : List String} {path : String}

theorem inTrees_iff :
    inTrees paths path = true ↔ path ∈ paths ∨ ∃ dir ∈ paths, isBelow dir path = true := by
  unfold inTrees
  rw [any_eq_true]
  constructor
  · rintro ⟨named, mem, hit⟩
    rw [Bool.or_eq_true, decide_eq_true_eq] at hit
    rcases hit with rfl | below
    · exact .inl mem
    · exact .inr ⟨named, mem, below⟩
  · rintro (mem | ⟨dir, mem, below⟩)
    · exact ⟨path, mem, by simp⟩
    · exact ⟨dir, mem, by simp [below]⟩

theorem findFile_isSome_iff : (findFile db env.sourceRepoId path).isSome = true ↔
    ∃ row ∈ db.files, row.sourceRepoId = env.sourceRepoId ∧ row.path = path := by
  unfold findFile
  rw [find?_isSome]
  simp only [decide_eq_true_eq]

theorem mem_slicePaths_iff :
    path ∈ slicePaths env db ↔ (findFile db env.sourceRepoId path).isSome = true ∨ ∃ row ∈ db.nodes,
      row.sourceRepoId = env.sourceRepoId ∧ row.filePath = path := by
  rw [findFile_isSome_iff]
  simp [slicePaths, and_assoc]

theorem range_of_below (dir rest : List Char) :
    ¬ dir ++ '/' :: rest < dir ++ ['/'] ∧ dir ++ '/' :: rest < dir ++ ['0'] := by
  induction dir with
  | nil =>
    constructor
    · intro less
      rw [nil_append, nil_append, cons_lt_cons_iff] at less
      rcases less with lower | ⟨_, shorter⟩
      · exact absurd lower (by decide)
      · exact not_lt_nil _ shorter
    · rw [nil_append, nil_append, cons_lt_cons_iff]
      exact .inl (by decide)
  | cons head tail ih =>
    obtain ⟨lower, upper⟩ := ih
    constructor
    · intro less
      rw [cons_append, cons_append, cons_lt_cons_iff] at less
      rcases less with head_less | ⟨_, tail_less⟩
      · exact absurd head_less (lt_irrefl head)
      · exact lower tail_less
    · rw [cons_append, cons_append, cons_lt_cons_iff]
      exact .inr ⟨rfl, upper⟩

variable {dir raw : String} {old : List String} {after : Db} {removed : String → Bool}
  {checkout : Checkout env.hashBytes}

theorem isBelow_iff_range : isBelow dir path = true ↔ dir ++ "/" ≤ path ∧ path < dir ++ "0" := by
  constructor
  · intro below
    unfold isBelow startsWith at below
    rw [ isPrefixOf_iff_prefix, String.toList_append] at below
    obtain ⟨rest, split⟩ := below
    have shape : path.toList = dir.toList ++ '/' :: rest := by
      rw [← split, append_assoc]
      rfl
    obtain ⟨lower, upper⟩ := range_of_below dir.toList rest
    constructor
    · rw [← not_lt, String.lt_iff_toList_lt, String.toList_append, shape]
      exact lower
    · rw [String.lt_iff_toList_lt, String.toList_append, shape]
      exact upper
  · rintro ⟨lower, upper⟩
    exact isBelow_of_range lower upper

theorem mem_filePathsUnderDir_iff : path ∈ filePathsUnderDir db env.sourceRepoId dir ↔
    (findFile db env.sourceRepoId path).isSome = true ∧ isBelow dir path = true := by
  unfold filePathsUnderDir
  rw [mem_ascending, findFile_isSome_iff, isBelow_iff_range]
  simp only [mem_map, mem_filter, decide_eq_true_eq]
  constructor
  · rintro ⟨row, ⟨mem, inRepo, range⟩, rfl⟩
    exact ⟨⟨row, mem, inRepo, rfl⟩, range⟩
  · rintro ⟨⟨row, mem, inRepo, rfl⟩, range⟩
    exact ⟨row, ⟨mem, inRepo, range⟩, rfl⟩

theorem existingFileGraphDeletions_ok (canonical : ∀ path ∈ paths, Canonical env path) :
    ∃ old, existingFileGraphDeletions env db paths = .ok old ∧ old.Nodup ∧ ∀ path, path ∈ old ↔
      path ∈ slicePaths env db ∧ inTrees paths path = true ∧
        (path ∈ paths ∨ (findFile db env.sourceRepoId path).isSome = true) := by
  obtain ⟨lists, gathered⟩ := @Program.mapM_ok_of_forall _ _ _ (deletionsOf env db) paths
    fun path mem => ⟨_, deletionsOf_ok (canonical path mem)⟩
  refine ⟨ascending lists.flatten.dedup, ?_, ?_, ?_⟩
  · unfold existingFileGraphDeletions
    simp only [gathered, bind, Except.bind]
  · exact (perm_insertionSort _ _).nodup_iff.mpr (nodup_dedup _)
  intro path
  rw [mem_ascending, mem_dedup, mem_flatten, mem_slicePaths_iff]
  constructor
  · rintro ⟨list, inLists, inList⟩
    obtain ⟨dir, isDir, ran⟩ := Program.mapM_ok_mem gathered inLists
    rw [deletionsOf_ok (canonical dir isDir), Except.ok.injEq] at ran
    subst ran
    rcases mem_append.mp inList with self | child
    · split at self
      · next stored =>
          rw [mem_singleton] at self
          subst self
          refine ⟨?_, inTrees_iff.mpr (.inl isDir), .inl isDir⟩
          simpa using stored
      · cases self
    · obtain ⟨stored, below⟩ := mem_filePathsUnderDir_iff.mp child
      exact ⟨.inl stored, inTrees_iff.mpr (.inr ⟨dir, isDir, below⟩), .inr stored⟩
  · rintro ⟨slice, inTree, reachable⟩
    rcases inTrees_iff.mp inTree with named | ⟨dir, isDir, below⟩
    · obtain ⟨list, inLists, ran⟩ := Program.mapM_ok_of_mem gathered named
      rw [deletionsOf_ok (canonical path named), Except.ok.injEq] at ran
      subst ran
      refine ⟨_, inLists, mem_append_left _ ?_⟩
      rw [if_pos (by simpa using slice)]
      exact mem_singleton.mpr rfl
    · rcases reachable with named | stored
      · obtain ⟨list, inLists, ran⟩ := Program.mapM_ok_of_mem gathered named
        rw [deletionsOf_ok (canonical path named), Except.ok.injEq] at ran
        subst ran
        refine ⟨_, inLists, mem_append_left _ ?_⟩
        rw [if_pos (by simpa using slice)]
        exact mem_singleton.mpr rfl
      · obtain ⟨list, inLists, ran⟩ := Program.mapM_ok_of_mem gathered isDir
        rw [deletionsOf_ok (canonical dir isDir), Except.ok.injEq] at ran
        subst ran
        exact ⟨_, inLists, mem_append_right _ (mem_filePathsUnderDir_iff.mpr ⟨stored, below⟩)⟩

/-! ## The deletions one after the other -/

theorem deleteGraph_ok {target : String}
    (located : canonicalizeRepoPath env.nfc path = .ok target) :
    deleteGraph env path db = (.ok (), deleted env.sourceRepoId target db) := by
  unfold deleteGraph Run.withContext storeCall deleteFileGraphForRepo
  simp only [located, transaction_faultless]
  rfl

theorem deleteGraph_error {error : AtlasError}
    (rejected : canonicalizeRepoPath env.nfc path = .error error) :
    ∃ msg, deleteGraph env path db = (.error msg, db) := by
  unfold deleteGraph Run.withContext storeCall deleteFileGraphForRepo
  simp only [rejected]
  exact ⟨_, rfl⟩

theorem forEach_deleteGraph_iff : Run.forEach (deleteGraph env) old db = (.ok (), after) ↔
    ∃ targets, old.mapM (canonicalizeRepoPath env.nfc) = .ok targets ∧
        after = targets.foldl (fun current path => deleted env.sourceRepoId path current) db := by
  induction old generalizing db with
  | nil =>
    constructor
    · intro ran
      cases ran
      exact ⟨[], rfl, rfl⟩
    · rintro ⟨targets, accepted, rfl⟩
      cases accepted
      rfl
  | cons path rest ih =>
    rw [mapM_cons]
    cases located : canonicalizeRepoPath env.nfc path with
    | error error =>
      obtain ⟨msg, failed⟩ := @deleteGraph_error env db path error located
      rw [Run.forEach_cons_error failed]
      simp [bind, Except.bind]
    | ok target =>
      rw [Run.forEach_cons_ok (deleteGraph_ok located), ih]
      cases later : rest.mapM (canonicalizeRepoPath env.nfc) with
      | error error => simp [bind, Except.bind]
      | ok targets => simp [bind, Except.bind, pure, Except.pure]

theorem Clears.foldl (targets : List String) : Clears env (fun path => decide (path ∈ targets)) db
    (targets.foldl (fun current path => deleted env.sourceRepoId path current) db) := by
  induction targets generalizing db with
  | nil =>
    constructor
    all_goals simp [deleteWhere]
  | cons target rest ih =>
    obtain ⟨documents, tables⟩ := @deleted_tables env.sourceRepoId target db
    obtain ⟨files, nodes⟩ := @ih (deleted env.sourceRepoId target db)
    constructor
    · rw [foldl_cons, files, tables]
      unfold deleteWhere
      rw [filter_filter]
      refine filter_congr fun row _ => ?_
      by_cases inRepo : row.sourceRepoId = env.sourceRepoId
      · by_cases here : row.path = target
        all_goals simp [inRepo, here]
      · simp [inRepo]
    · rw [foldl_cons, nodes, tables]
      unfold deleteWhere
      rw [filter_filter]
      refine filter_congr fun row _ => ?_
      by_cases inRepo : row.sourceRepoId = env.sourceRepoId
      · by_cases here : row.filePath = target
        all_goals simp [NodeRow.inFile, inRepo, here]
      · simp [NodeRow.inFile, inRepo]

theorem Clears.mem_slicePaths (clears : Clears env removed db after) :
    path ∈ slicePaths env after ↔ path ∈ slicePaths env db ∧ removed path = false := by
  rw [mem_slicePaths_iff, mem_slicePaths_iff, findFile_isSome_iff, findFile_isSome_iff, clears.files, clears.nodes]
  simp only [mem_deleteWhere]
  constructor
  · rintro (⟨row, ⟨mem, kept⟩, inRepo, rfl⟩ | ⟨row, ⟨mem, kept⟩, inRepo, rfl⟩)
    · rw [inRepo, decide_eq_true rfl, Bool.true_and] at kept
      exact ⟨.inl ⟨row, mem, inRepo, rfl⟩, kept⟩
    · rw [inRepo, decide_eq_true rfl, Bool.true_and] at kept
      exact ⟨.inr ⟨row, mem, inRepo, rfl⟩, kept⟩
  · rintro ⟨⟨row, mem, inRepo, rfl⟩ | ⟨row, mem, inRepo, rfl⟩, kept⟩
    · exact .inl ⟨row, ⟨mem, by rw [kept, Bool.and_false]⟩, inRepo, rfl⟩
    · exact .inr ⟨row, ⟨mem, by rw [kept, Bool.and_false]⟩, inRepo, rfl⟩

theorem Clears.congr {other : String → Bool} (clears : Clears env removed db after)
    (same : ∀ path ∈ slicePaths env db, removed path = other path) : Clears env other db after := by
  constructor
  · rw [clears.files]
    refine filter_congr fun row mem => ?_
    by_cases inRepo : row.sourceRepoId = env.sourceRepoId
    · dsimp only
      rw [same row.path (mem_slicePaths_iff.mpr (.inl (findFile_isSome_iff.mpr ⟨row, mem, inRepo, rfl⟩)))]
    · simp [inRepo]
  · rw [clears.nodes]
    refine filter_congr fun row mem => ?_
    by_cases inRepo : row.sourceRepoId = env.sourceRepoId
    · dsimp only
      rw [same row.filePath (mem_slicePaths_iff.mpr (.inr ⟨row, mem, inRepo, rfl⟩))]
    · simp [inRepo]

theorem deleteStale_iff {count : Nat} (found : existingFileGraphDeletions env db paths = .ok old) :
    deleteStale env false paths db = (.ok count, after) ↔
      count = old.length ∧ ∃ targets, old.mapM (canonicalizeRepoPath env.nfc) = .ok targets ∧
        after = targets.foldl (fun current path => deleted env.sourceRepoId path current) db := by
  constructor
  · intro ran
    unfold deleteStale at ran
    rw [Run.get_bind] at ran
    obtain ⟨listed, same, ran⟩ := Run.ofExcept_bind_eq_ok ran
    rw [found, Except.ok.injEq] at same
    subst same
    obtain ⟨_, middle, looped, counted⟩ := Run.bind_eq_ok ran
    cases counted
    exact ⟨rfl, forEach_deleteGraph_iff.mp looped⟩
  · rintro ⟨rfl, accepted⟩
    have looped : Run.whenNot false (Run.forEach (deleteGraph env) old) db = (.ok (), after) :=
      forEach_deleteGraph_iff.mpr accepted
    unfold deleteStale
    rw [Run.get_bind, found]
    change (Run.whenNot false (Run.forEach (deleteGraph env) old) >>= _) db = _
    rw [Run.bind_ok looped]
    rfl

/-! ## When a deletion does what it should -/

theorem TreesAddressable.deletes (canonical : ∀ path ∈ paths, Canonical env path)
    (addressable : TreesAddressable env paths db) : ∃ after, DeletesTrees env paths db after := by
  obtain ⟨old, found, nodup, members⟩ := @existingFileGraphDeletions_ok env db paths canonical
  have members : ∀ path, path ∈ old ↔ path ∈ slicePaths env db ∧ inTrees paths path = true := by
    intro path
    constructor
    · intro mem
      obtain ⟨slice, inTree, _⟩ := (members path).mp mem
      exact ⟨slice, inTree⟩
    · intro ⟨slice, inTree⟩
      exact (members path).mpr ⟨slice, inTree, (addressable path slice inTree).2⟩
  have accepted : old.mapM (canonicalizeRepoPath env.nfc) = .ok old := by
    refine Program.mapM_ok_self fun path mem => ?_
    obtain ⟨slice, inTree⟩ := (members path).mp mem
    exact (addressable path slice inTree).1
  have counted : old.length = ((slicePaths env db).filter (inTrees paths)).length := by
    refine List.Perm.length_eq ((perm_ext_iff_of_nodup nodup ((nodup_dedup _).filter _)).mpr fun path => ?_)
    rw [members, mem_filter]
    exact Iff.rfl
  have clears : Clears env (inTrees paths) db (old.foldl (fun current path => deleted env.sourceRepoId path current) db) := by
    refine (Clears.foldl old).congr fun path slice => ?_
    rw [Bool.eq_iff_iff, decide_eq_true_eq, members]
    exact ⟨fun both => both.2, fun inTree => ⟨slice, inTree⟩⟩
  refine ⟨_, (deleteStale_iff found).mpr ⟨counted.symm, old, accepted, rfl⟩, clears, ?_⟩
  generalize old.foldl (fun current path => deleted env.sourceRepoId path current) db = after
    at clears
  obtain ⟨rest, foundAgain, _, restMembers⟩ := @existingFileGraphDeletions_ok env after paths canonical
  have none : rest = [] := by
    rw [eq_nil_iff_forall_not_mem]
    intro path mem
    obtain ⟨slice, inTree, _⟩ := (restMembers path).mp mem
    rw [(clears.mem_slicePaths.mp slice).2] at inTree
    cases inTree
  subst none
  exact (deleteStale_iff foundAgain).mpr ⟨rfl, [], rfl, rfl⟩

theorem canonicalize_shortens {nfc : String → String} (law : IsNormalization nfc)
    {first second : String} (once : canonicalizeRepoPath nfc raw = .ok first)
    (twice : canonicalizeRepoPath nfc first = .ok second) (differ : second ≠ first) :
    second.toList.length < first.toList.length := by
  have accepted : ∀ {path canonical : String}, canonicalizeRepoPath nfc path = .ok canonical →
    canonicalizeRelative nfc path = .ok canonical := by
    intro path canonical located
    unfold canonicalizeRepoPath at located
    cases result : canonicalizeRelative nfc path with
    | ok found =>
      rw [result, Except.ok.injEq] at located
      rw [located]
    | error error =>
      rw [result] at located
      cases located
  have settled := canonicalizeRelative_isSettled law (accepted once)
  obtain ⟨_, spelled⟩ := canonicalizeRelative_ok (accepted once)
  obtain ⟨kept, respelled⟩ := canonicalizeRelative_ok (accepted twice)
  have letters : first.toList = ['/'].intercalate (survivingSegments nfc raw) := by rw [spelled, String.toList_ofList]
  have bound := survivingSegments_length kept
  rw [letters, settled.normalizeIdentity_eq law (trim_isInfix _), ← letters] at bound
  rw [respelled, String.toList_ofList]
  have trimmed := (trim_sublist first.toList).length_le
  by_contra longer
  -- A second pass that trims nothing changes nothing.
  have whole : trim first.toList = first.toList := (trim_sublist first.toList).eq_of_length_le (by omega)
  rw [letters, settled.trim_eq_self_iff_edgesClear] at whole
  have again := accepted twice
  rw [spelled, settled.canonicalizeRelative_eq law whole, Except.ok.injEq, ← spelled] at again
  exact differ again.symm

theorem DeletesTrees.addressable (law : IsNormalization env.nfc)
    (canonical : ∀ path ∈ paths, Canonical env path) (deletes : DeletesTrees env paths db after) :
    TreesAddressable env paths db := by
  obtain ⟨old, found, _, members⟩ := @existingFileGraphDeletions_ok env db paths canonical
  obtain ⟨_, targets, accepted, rfl⟩ := (deleteStale_iff found).mp deletes.once
  -- Whatever is cleared was the canonical form of a path found.
  have source : ∀ path ∈ slicePaths env db, inTrees paths path = true →
    ∃ other ∈ old, canonicalizeRepoPath env.nfc other = .ok path := by
    intro path slice inTree
    have gone : path ∉ slicePaths env (targets.foldl (fun current path => deleted env.sourceRepoId path current) db) := by
      rw [deletes.clears.mem_slicePaths, inTree]
      simp
    rw [(Clears.foldl targets).mem_slicePaths] at gone
    have target : path ∈ targets := by
      by_contra absent
      exact gone ⟨slice, decide_eq_false absent⟩
    exact Program.mapM_ok_mem accepted target
  have stable : ∀ path ∈ slicePaths env db, inTrees paths path = true → Canonical env path := by
    classical
    by_contra unstable
    push Not at unstable
    obtain ⟨path, slice, inTree, moves⟩ := unstable
    -- The longest of the paths that move would have to come from a longer one.
    obtain ⟨longest, isLongest, longer⟩ := Finset.exists_max_image ((slicePaths env db).filter
      fun path => inTrees paths path && decide (¬ Canonical env path)).toFinset
      (fun path => path.toList.length) ⟨path, by simp [slice, inTree, moves]⟩
    simp only [mem_toFinset, mem_filter, Bool.and_eq_true, decide_eq_true_eq]
      at isLongest longer
    obtain ⟨longestSlice, longestInTree, longestMoves⟩ := isLongest
    obtain ⟨other, mem, located⟩ := source longest longestSlice longestInTree
    obtain ⟨otherSlice, otherInTree, _⟩ := (members other).mp mem
    have differ : longest ≠ other := by
      rintro rfl
      exact longestMoves located
    have otherMoves : ¬ Canonical env other := by
      intro same
      rw [Canonical, located, Except.ok.injEq] at same
      exact differ same
    obtain ⟨origin, _, settled⟩ := source other otherSlice otherInTree
    have shorter := canonicalize_shortens law settled located differ
    have atMost := longer other ⟨otherSlice, otherInTree, otherMoves⟩
    omega
  intro path slice inTree
  refine ⟨stable path slice inTree, ?_⟩
  obtain ⟨other, mem, located⟩ := source path slice inTree
  obtain ⟨otherSlice, otherInTree, reachable⟩ := (members other).mp mem
  have same := stable other otherSlice otherInTree
  rw [Canonical, located, Except.ok.injEq] at same
  rwa [← same] at reachable

/-! ## Where a missing path is moved to -/

theorem retargetCandidate_missing {canonical : String}
    {candidates : List String} (missing : checkout.pathExists canonical = false)
    (moved : retargetCandidate env checkout db canonical candidates = .ok path) :
    checkout.pathExists path = false := by
  induction candidates with
  | nil =>
    cases moved
    exact missing
  | cons candidate rest ih =>
    unfold retargetCandidate at moved
    cases there : checkout.pathExists candidate with
    | true =>
      rw [there, if_pos rfl] at moved
      exact ih moved
    | false =>
      rw [there, if_neg Bool.false_ne_true] at moved
      obtain ⟨stored, -, moved⟩ := Program.bind_eq_ok moved
      cases stored with
      | true =>
        cases moved
        exact there
      | false => exact ih moved

theorem resolveExplicitChangePath_exists_iff
    {resolved : NormalizedRepoPath} (normal : checkout.normalizeChangePath raw = .ok resolved)
    (taken : resolveExplicitChangePath env checkout db raw = .ok path) :
    checkout.pathExists path = checkout.pathExists resolved.canonical := by
  unfold resolveExplicitChangePath at taken
  simp only [normal, History.withContext, bind, Except.bind] at taken
  cases there : checkout.pathExists resolved.canonical with
  | true =>
    rw [there, if_pos rfl, Except.ok.injEq] at taken
    rw [← taken]
    exact there
  | false =>
    rw [there, if_neg Bool.false_ne_true] at taken
    by_cases literal : resolved.reason = "absolute" ∨ checkout.isDirectory (firstSegment resolved.canonical) = true
    · have kept : resolved.canonical = path := by
        rcases literal with isAbsolute | ordinary
        · rwa [if_pos isAbsolute, Except.ok.injEq] at taken
        · rw [if_pos ordinary, ite_self, Except.ok.injEq] at taken
          exact taken
      rw [← kept]
      exact there
    · rw [not_or] at literal
      rw [if_neg literal.1, if_neg literal.2] at taken
      cases known : graphHasChangeTarget env db resolved.canonical with
      | error msg => simp [known] at taken
      | ok stored =>
        cases stored with
        | true =>
          simp only [known, if_true, Except.ok.injEq] at taken
          rw [← taken]
          exact there
        | false =>
          simp only [known, Bool.false_eq_true, if_false] at taken
          exact retargetCandidate_missing there taken

end

def KeepsMissing (env : Env) (db : Db) : Prop :=
  ∀ (checkout : Checkout env.hashBytes) (raw : String) (resolved : NormalizedRepoPath)
    (path : String),
    checkout.normalizeChangePath raw = .ok resolved →
      checkout.pathExists resolved.canonical = false →
      resolveExplicitChangePath env checkout db raw = .ok path → checkout.pathExists path = false

/-- Deleting the graphs of canonical paths removes exactly their trees, counts every slice
once and converges, if and only if every slice there is stored under its canonical path,
with a file row unless it is named. A missing path is never moved to one on disk. -/
theorem explicitDeletions_exact_iff (env : Env) (law : IsNormalization env.nfc)
    (db : Db) (paths : List String) (canonical : ∀ path ∈ paths, Canonical env path) :
    ((∃ after, DeletesTrees env paths db after) ∧ KeepsMissing env db) ↔ TreesAddressable env paths db := by
  constructor
  · intro ⟨⟨_, deletes⟩, _⟩
    exact deletes.addressable law canonical
  · intro addressable
    refine ⟨addressable.deletes canonical, ?_⟩
    intro checkout raw resolved path normal missing taken
    rw [resolveExplicitChangePath_exists_iff normal taken]
    exact missing

theorem namedTree_exact : (∃ after, DeletesTrees callerEnv ["dir"]
    (run id [writeFunction "dir/a.rs", writeFunction "dir0/b.rs"] Db.empty) after) ∧
      KeepsMissing callerEnv (run id [writeFunction "dir/a.rs", writeFunction "dir0/b.rs"] Db.empty) := by
  refine (explicitDeletions_exact_iff callerEnv isNormalization_id _ ["dir"] ?_).mpr ?_
  · intro path mem
    rw [mem_singleton] at mem
    subst mem
    unfold Canonical
    decide
  · have stored : slicePaths callerEnv (run id [writeFunction "dir/a.rs", writeFunction "dir0/b.rs"]
      Db.empty) = ["dir/a.rs", "dir0/b.rs"] := by decide +kernel
    intro path slice inTree
    rw [stored] at slice
    simp only [mem_cons, not_mem_nil, or_false] at slice
    rcases slice with rfl | rfl
    · unfold Canonical
      exact ⟨by decide, .inr (by decide +kernel)⟩
    · exact absurd inTree (by decide)

/-- A file stored under a name that ends in a space: its deletion is asked for again and again,
and never done. -/
theorem spacedName_survives :
    (deleteStale callerEnv false ["dir"] (run id [writeFunction "dir/a /."] Db.empty)).1.toOption =
      some 1 ∧
      (deleteStale callerEnv false ["dir"] (run id [writeFunction "dir/a /."] Db.empty)).2 =
        run id [writeFunction "dir/a /."] Db.empty ∧
      ¬ ∃ after, DeletesTrees callerEnv ["dir"] (run id [writeFunction "dir/a /."] Db.empty) after := by
  have unchanged : deleteStale callerEnv false ["dir"] (run id [writeFunction "dir/a /."]
    Db.empty) = (.ok 1, run id [writeFunction "dir/a /."] Db.empty) := by
    decide +kernel
  refine ⟨by rw [unchanged]; rfl, by rw [unchanged], ?_⟩
  rintro ⟨after, deletes⟩
  have once := deletes.once
  rw [unchanged, Prod.mk.injEq] at once
  have again := deletes.again
  rw [← once.2, unchanged] at again
  cases again

end Atlas.Engine
