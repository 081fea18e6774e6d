import Atlas.Engine.Trees

/-! Exact lists of changes between two trees, and what an update does before it writes. -/
namespace Atlas.Engine
open List Core Program Store Function
open History (Bytes)

/-! ## Exact lists of changes -/

section
variable (before after : String → Option Bytes)

/-- The change says what happened to its path between the two trees. -/
inductive Describes : ChangedFile → Prop where
  | added {path : String} (free : before path = none) (present : (after path).isSome = true) : Describes ⟨path, .added, none⟩
  | modified {path : String} (stood : (before path).isSome = true) (present : (after path).isSome =
    true) (differs : before path ≠ after path) : Describes ⟨path, .modified, none⟩
  | deleted {path : String} (stood : (before path).isSome = true) (gone : after path = none) : Describes ⟨path, .deleted, none⟩
  | renamed {old path : String} (stood : (before old).isSome = true) (gone : after old = none)
    (free : before path = none) (present : (after path).isSome = true) :
    Describes ⟨path, .renamed, some old⟩

def mentions (change : ChangedFile) : List String := change.path :: change.oldPath.toList

/-- Each change is true, each differing path is mentioned, and none twice. -/
structure ListsExactly (changes : List ChangedFile) : Prop where
  described : ∀ change ∈ changes, Describes before after change
  listed : ∀ path, before path ≠ after path → path ∈ changes.flatMap mentions
  once : (changes.flatMap mentions).Nodup

end

section
variable {before after : String → Option Bytes} {changes : List ChangedFile} {path old : String}

section
variable (exactly : ListsExactly before after changes)
include exactly

theorem ListsExactly.present (lists : Lists changes path) : (after path).isSome = true := by
  obtain ⟨change, mem, rfl, stays⟩ := lists
  cases exactly.described change mem with
  | added _ present | modified _ present _ => exact present
  | deleted _ _ => exact absurd rfl stays
  | renamed _ _ _ present => exact present

theorem ListsExactly.removed {change : ChangedFile} (mem : change ∈ changes)
    (removed : path ∈ removedPaths change) : (before path).isSome = true ∧ after path = none := by
  cases exactly.described change mem with
  | added _ _ | modified _ _ _ => cases removed
  | deleted stood gone | renamed stood gone _ _ =>
    cases mem_singleton.mp removed
    exact ⟨stood, gone⟩

theorem ListsExactly.renamed (mem : (⟨path, .renamed, some old⟩ : ChangedFile) ∈ changes) :
    (before old).isSome = true ∧
      after old = none ∧ before path = none ∧ (after path).isSome = true := by
  cases exactly.described _ mem with
  | renamed stood gone free present => exact ⟨stood, gone, free, present⟩

end

theorem removedPaths_sublist (changes : List ChangedFile) :
    (changes.flatMap removedPaths).Sublist (changes.flatMap mentions) := by
  induction changes with
  | nil => exact .slnil
  | cons change rest ih =>
    rw [flatMap_cons, flatMap_cons]
    refine List.Sublist.append ?_ ih
    obtain ⟨path, changeType, oldPath⟩ := change
    cases changeType <;> cases oldPath <;> simp [removedPaths, mentions]

end

/-! ## The plan of an update -/

section
variable {env : Env} {before after : Checkout env.hashBytes} {owners : String → Option PackageOwner}
  {db : Db} {changes : List ChangedFile} {path : String}

theorem detectChanges_exact (exactly : ListsExactly before.tree after.tree changes)
    (canonicalBefore : ∀ path ∈ before.tracked, Canonical env path)
    (canonicalAfter : ∀ path ∈ after.tracked, Canonical env path) :
    detectChanges env after (.batch changes) db = .ok changes := by
  have located : ∀ path label, (before.tree path).isSome = true ∨ (after.tree path).isSome = true →
    canonicalizeBatchPath env label path = .ok path := by
    intro path label stands
    have canonical : Canonical env path := by
      rcases stands with stood | stands
      · obtain ⟨bytes, inTree⟩ := Option.isSome_iff_exists.mp stood
        exact canonicalBefore path (tree_eq_some_iff.mp inTree).1
      · obtain ⟨bytes, inTree⟩ := Option.isSome_iff_exists.mp stands
        exact canonicalAfter path (tree_eq_some_iff.mp inTree).1
    unfold Canonical canonicalizeRepoPath at canonical
    unfold canonicalizeBatchPath
    cases accepted : Repo.canonicalizeRelative env.nfc path with
    | error error => simp [accepted] at canonical
    | ok found => simpa [accepted] using canonical
  unfold detectChanges
  apply Program.mapM_ok_self
  intro change mem
  unfold canonicalizeBatchChange
  cases exactly.described change mem with
  | added _ present | modified _ present _ => simp [located _ _ (.inr present), bind, Except.bind]
  | deleted stood _ => simp [located _ _ (.inl stood), bind, Except.bind]
  | renamed stood _ _ present => simp [located _ _ (.inr present), located _ _ (.inl stood), bind, Except.bind]

theorem fullPlan_covers (exactly : ListsExactly before.tree after.tree changes)
    (mentioned : path ∈ changes.flatMap mentions) :
    path ∈ (fullPlan env after owners db changes).toParse ∨ path ∈ (fullPlan env after owners db
      changes).toDelete ∨ path ∈ (fullPlan env after owners db changes).toRename.map Prod.fst ∨
      path ∈ (fullPlan env after owners db changes).toRename.map Prod.snd := by
  obtain ⟨change, mem, named⟩ := mem_flatMap.mp mentioned
  rw [fullPlan, foldl_planChange]
  simp only [nil_append, map_flatMap, mem_flatMap]
  have planned : path ∈ (planChange env after owners db {} change).toParse ∨
    path ∈ (planChange env after owners db {} change).toDelete ∨
      path ∈ (planChange env after owners db {} change).toRename.map Prod.fst ∨
      path ∈ (planChange env after owners db {} change).toRename.map Prod.snd := by
    cases exactly.described change mem with
    | added _ _ | modified _ _ _ | deleted _ _ => simpa [planChange, mentions] using named
    | @renamed old target _ _ _ _ =>
      simp only [mentions, Option.toList_some, mem_cons, not_mem_nil, or_false] at named
      by_cases stable : isStableRename env after owners db old target = true
      · simpa [planChange, stable, or_comm] using named
      · simpa [planChange, stable] using named
  rcases planned with parse | delete | source | target
  · exact .inl ⟨change, mem, parse⟩
  · exact .inr (.inl ⟨change, mem, delete⟩)
  · exact .inr (.inr (.inl ⟨change, mem, source⟩))
  · exact .inr (.inr (.inr ⟨change, mem, target⟩))

theorem fullPlan_targets : ((fullPlan env after owners db changes).toRename.map Prod.snd).Sublist
    (changes.flatMap mentions) := by
  rw [fullPlan, foldl_planChange]
  simp only [nil_append]
  induction changes with
  | nil => exact .slnil
  | cons change rest ih =>
    rw [flatMap_cons, flatMap_cons, map_append]
    refine List.Sublist.append ?_ ih
    obtain ⟨target, changeType, oldPath⟩ := change
    cases changeType with
    | renamed =>
      cases oldPath with
      | none => simp [planChange]
      | some old =>
        by_cases stable : isStableRename env after owners db old target = true
        · simp [planChange, stable, mentions]
        · simp [planChange, stable]
    | deleted | added | modified | copied => simp [planChange]

end

/-! ## Names that vanish -/

section
variable (env : Env) (before after : Checkout env.hashBytes)
  (ownersBefore ownersAfter : String → Option PackageOwner)

def vanished : List String :=
  (before.tracked.flatMap fun path => heldNames (sliceOf env before ownersBefore path)).filter
    fun name => decide (name ∉ after.tracked.flatMap fun path => heldNames (sliceOf env after ownersAfter path))

end

section
variable {env : Env} {pathOf : String → String} {before after : Checkout env.hashBytes}
  {ownersBefore ownersAfter : String → Option PackageOwner} {path name : String}

theorem mem_vanished_iff : name ∈ vanished env before after ownersBefore ownersAfter ↔
      (∃ path, name ∈ heldNames (sliceOf env before ownersBefore path)) ∧ ∀ path,
        name ∉ heldNames (sliceOf env after ownersAfter path) := by
  unfold vanished
  rw [mem_filter, decide_eq_true_eq, mem_flatMap, mem_flatMap]
  constructor
  · rintro ⟨⟨path, _, held⟩, absent⟩
    exact ⟨⟨path, held⟩, fun other taken => absent ⟨other, tracked_of_name taken, taken⟩⟩
  · rintro ⟨⟨path, held⟩, absent⟩
    exact ⟨⟨path, tracked_of_name held, held⟩, fun ⟨other, _, taken⟩ => absent other taken⟩

theorem vanishes (embeds : Embeds env pathOf)
    (held : name ∈ heldNames (sliceOf env before ownersBefore path))
    (lost : name ∉ heldNames (sliceOf env after ownersAfter path)) :
    name ∈ vanished env before after ownersBefore ownersAfter := by
  refine mem_vanished_iff.mpr ⟨⟨path, held⟩, ?_⟩
  intro other taken
  have same := (embeds.pathOf_name held).symm.trans (embeds.pathOf_name taken)
  exact lost (same ▸ taken)

theorem sliceOf_eq_none (absent : before.tree path = none) :
    sliceOf env before ownersBefore path = none := by
  unfold sliceOf
  rw [absent]
  split
  all_goals rfl

theorem sliceOf_congr (same : before.tree path = after.tree path)
    (owner : ∀ bytes, before.tree path = some bytes → ownersBefore path = ownersAfter path) :
    sliceOf env before ownersBefore path = sliceOf env after ownersAfter path := by
  unfold sliceOf
  rw [← same]
  cases inTree : before.tree path with
  | none => rfl
  | some bytes => rw [owner bytes inTree]

structure Midway (source : String → Option Slice)
    (gone news removed : List String) (slices : String → Option Slice) : Prop where
  elsewhere : ∀ path, path ∉ news → slices path = if path ∈ removed then none else source path
  moved : ∀ path ∈ news, ∀ name ∈ heldNames (slices path), name ∈ gone

theorem Midway.fits (parses : Parses env pathOf) {news removed : List String}
    {slices : String → Option Slice}
    (midway : Midway (sliceOf env before ownersBefore) (vanished env before after ownersBefore ownersAfter) news removed slices) :
    Fits (sliceOf env after ownersAfter) slices (vanished env before after ownersBefore ownersAfter) := by
  have origin : ∀ path, ∀ name ∈ heldNames (slices path), name ∈ vanished env before after
    ownersBefore ownersAfter ∨ name ∈ heldNames (sliceOf env before ownersBefore path) := by
    intro path name held
    by_cases isNew : path ∈ news
    · exact .inl (midway.moved path isNew name held)
    · rw [midway.elsewhere path isNew] at held
      split at held
      · cases held
      · exact .inr held
  constructor
  · intro path other differ name held taken
    rcases origin other name held with gone | old
    · exact (mem_vanished_iff.mp gone).2 path taken
    · exact differ ((parses.embeds.pathOf_name old).symm.trans (parses.embeds.pathOf_name taken))
  · intro path _ name held lost
    rcases origin path name held with gone | old
    · exact gone
    · exact vanishes parses.embeds old lost

end

/-! ## Moving and deleting -/

section
variable {env : Env} {pathOf : String → String} {before after : Checkout env.hashBytes}
  {ownersBefore ownersAfter : String → Option PackageOwner} {db moved : Db}
  {changes : List ChangedFile} {path : String} {news olds paths : List String}

theorem fullPlan_rename_held (holds : Holds env (sliceOf env before ownersBefore)
    (vanished env before after ownersBefore ownersAfter) (fun _ => False) db)
    {old : String} (canonical : Canonical env old)
    (stable : isStableRename env after ownersAfter db old path = true) :
    ∃ slice, sliceOf env before ownersBefore old = some slice := by
  obtain ⟨bytes, _, stored⟩ := isStableRename_content canonical stable
  rw [storedHash, holds.files] at stored
  cases held : sliceOf env before ownersBefore old with
  | none => simp [held] at stored
  | some slice => exact ⟨slice, rfl⟩

theorem names_movedTo (slice : Slice) (path : String) (owner : OwnerColumns) :
    names ({ slice.movedTo path with owner := owner } : Slice).file = names slice.file := by
  unfold names Slice.movedTo
  rw [map_map]
  rfl

def MovedTo (env : Env) (before after : Checkout env.hashBytes) (ownersBefore ownersAfter : String →
    Option PackageOwner) (news removed : List String) (db : Db) : Prop :=
  ∃ slices, Holds env slices (vanished env before after ownersBefore ownersAfter) (fun _ => False) db ∧
      Midway (sliceOf env before ownersBefore) (vanished env before after ownersBefore ownersAfter) news removed slices

theorem renameStable_moves (parses : Parses env pathOf)
    {rename : String × String} {slice : Slice}
    (oldCanonical : Canonical env rename.1) (newCanonical : Canonical env rename.2)
    (held : sliceOf env before ownersBefore rename.1 = some slice)
    (leaves : after.tree rename.1 = none) (free : before.tree rename.2 = none)
    (differ : rename.1 ≠ rename.2)
    (oldFresh : rename.1 ∉ news ∧ rename.1 ∉ olds) (newFresh : rename.2 ∉ news ∧ rename.2 ∉ olds)
    (state : MovedTo env before after ownersBefore ownersAfter news olds db) :
    (renameStable env ownersAfter rename).Meets db (fun _ => MovedTo env before after ownersBefore
      ownersAfter (news ++ [rename.2]) (olds ++ [rename.1])) (fun _ => False) := by
  obtain ⟨slices, holds, midway⟩ := state
  have source : slices rename.1 = some slice := by rw [midway.elsewhere _ oldFresh.1, if_neg oldFresh.2, held]
  have vacant : slices rename.2 = none := by rw [midway.elsewhere _ newFresh.1, if_neg newFresh.2, sliceOf_eq_none free]
  unfold renameStable
  refine Run.Meets.bind (Run.Meets.withContext (renameGraph_meets oldCanonical newCanonical differ
    (Run.Meets.withContext (upsertFileOwner_meets newCanonical ?_))))
  refine ⟨_, (holds.rename newCanonical differ source vacant).owner rename.2 (ownersAfter rename.2), ?_, ?_⟩
  · intro path elsewhere
    rw [mem_append, mem_singleton, not_or] at elsewhere
    rw [update_apply, if_neg elsewhere.2, update_apply, if_neg elsewhere.2, update_apply, midway.elsewhere path elsewhere.1]
    by_cases isOld : path = rename.1
    · rw [if_pos isOld, if_pos (mem_append_right _ (mem_singleton.mpr isOld))]
    · simp [isOld]
  · intro path isNew name named
    rw [update_apply] at named
    by_cases here : path = rename.2
    · rw [if_pos here, update_apply, if_pos rfl] at named
      have inSource : name ∈ heldNames (sliceOf env before ownersBefore rename.1) := by
        rw [held]
        change name ∈ names slice.file
        rw [← names_movedTo slice rename.2 (ownerColumns (ownersAfter rename.2))]
        exact named
      refine vanishes parses.embeds inSource ?_
      rw [sliceOf_eq_none leaves]
      exact not_mem_nil
    · rw [if_neg here, update_apply, if_neg here, update_apply] at named
      split at named
      · cases named
      · refine midway.moved path ?_ name named
        rcases mem_append.mp isNew with earlier | last
        · exact earlier
        · exact absurd (mem_singleton.mp last) here

theorem renames_move (parses : Parses env pathOf)
    (exactly : ListsExactly before.tree after.tree changes)
    (canonicalBefore : ∀ path ∈ before.tracked, Canonical env path)
    (canonicalAfter : ∀ path ∈ after.tracked, Canonical env path)
    (holds : Holds env (sliceOf env before ownersBefore) (vanished env before after ownersBefore ownersAfter) (fun _ => False) db)
    {renames : List (String × String)}
    (planned : ∀ rename ∈ renames, (⟨rename.2, .renamed, some rename.1⟩ : ChangedFile) ∈ changes ∧
      isStableRename env after ownersAfter db rename.1 rename.2 = true)
    (sources : (renames.map Prod.fst).Nodup) (targets : (renames.map Prod.snd).Nodup) :
    (Run.forEach (renameStable env ownersAfter) renames).Meets db (fun _ => MovedTo env before after
      ownersBefore ownersAfter (renames.map Prod.snd) (renames.map Prod.fst)) (fun _ => False) := by
  refine Run.Meets.forEach (fun done => MovedTo env before after ownersBefore ownersAfter
    (done.map Prod.snd) (done.map Prod.fst)) renames [] ?_ ?_
  · exact ⟨_, holds, fun _ _ => by simp, nofun⟩
  · intro earlier rename later reached split state
    have split : renames = earlier ++ rename :: later := split
    have mem : rename ∈ renames := by
      rw [split]
      exact mem_append_right _ (.head _)
    have ends : ∀ other ∈ renames, after.tree other.1 = none ∧ (after.tree other.2).isSome = true := by
      intro other inRenames
      have ⟨_, gone, _, present⟩ := exactly.renamed (planned other inRenames).1
      exact ⟨gone, present⟩
    have apart : ∀ first ∈ renames, ∀ second ∈ renames, first.1 ≠ second.2 := by
      intro first inFirst second inSecond same
      have present := (ends second inSecond).2
      rw [← same, (ends first inFirst).1] at present
      cases present
    have within : ∀ other ∈ earlier, other ∈ renames := by
      intro other inEarlier
      rw [split]
      exact mem_append_left _ inEarlier
    have ⟨isChange, stable⟩ := planned rename mem
    have ⟨stood, leaves, free, present⟩ := exactly.renamed isChange
    obtain ⟨oldBytes, oldTree⟩ := Option.isSome_iff_exists.mp stood
    obtain ⟨newBytes, newTree⟩ := Option.isSome_iff_exists.mp present
    have oldCanonical := canonicalBefore _ (tree_eq_some_iff.mp oldTree).1
    have newCanonical := canonicalAfter _ (tree_eq_some_iff.mp newTree).1
    obtain ⟨slice, held⟩ := fullPlan_rename_held holds oldCanonical stable
    rw [split, map_append, map_cons] at sources targets
    have oldNew : rename.1 ∉ earlier.map Prod.fst := fun early =>
      (nodup_append.mp sources).2.2 _ early _ (.head _) rfl
    have newNew : rename.2 ∉ earlier.map Prod.snd := fun early =>
      (nodup_append.mp targets).2.2 _ early _ (.head _) rfl
    rw [map_append, map_append]
    refine renameStable_moves parses oldCanonical newCanonical held leaves free
      (apart rename mem rename mem) ⟨?_, oldNew⟩ ⟨newNew, ?_⟩ state
    · intro taken
      obtain ⟨other, inEarlier, same⟩ := mem_map.mp taken
      exact apart rename mem other (within other inEarlier) same.symm
    · intro taken
      obtain ⟨other, inEarlier, same⟩ := mem_map.mp taken
      exact apart other (within other inEarlier) rename mem same

theorem deletionsOf_ok (canonical : Canonical env path) : deletionsOf env db path =
    .ok ((if (findFile db env.sourceRepoId path).isSome || db.nodes.any (fun row =>
          decide (row.sourceRepoId = env.sourceRepoId ∧ row.filePath = path)) then [path] else []) ++
        filePathsUnderDir db env.sourceRepoId path) := by
  unfold Canonical at canonical
  unfold deletionsOf fileGraphExistsForRepo liftStore
  simp only [canonical, bind, Except.bind, History.withContext, Except.mapError]

theorem mem_existing_of_stored {existing : List String}
    (found : existingFileGraphDeletions env db paths = .ok existing) (listed : path ∈ paths)
    (canonical : Canonical env path) (stored : (findFile db env.sourceRepoId path).isSome = true) :
    path ∈ existing := by
  unfold existingFileGraphDeletions at found
  obtain ⟨lists, gathered, collected⟩ := Program.bind_eq_ok found
  cases collected
  obtain ⟨list, inLists, ran⟩ := Program.mapM_ok_of_mem gathered listed
  refine mem_ascending.mpr (mem_dedup.mpr (mem_flatten.mpr ⟨list, inLists, ?_⟩))
  rw [deletionsOf_ok canonical] at ran
  cases ran
  simp [stored]

theorem deleteStale_removes (parses : Parses env pathOf)
    (canonicalBefore : ∀ path ∈ before.tracked, Canonical env path)
    (listed : ∀ path ∈ paths, (before.tree path).isSome = true ∧ after.tree path = none)
    (state : MovedTo env before after ownersBefore ownersAfter news olds db) :
    (deleteStale env false paths).Meets db (fun _ =>
      MovedTo env before after ownersBefore ownersAfter news (olds ++ paths)) (fun _ => True) := by
  obtain ⟨slices, holds, midway⟩ := state
  have canonical : ∀ path ∈ paths, Canonical env path := by
    intro path mem
    obtain ⟨bytes, inTree⟩ := Option.isSome_iff_exists.mp (listed path mem).1
    exact canonicalBefore path (tree_eq_some_iff.mp inTree).1
  unfold deleteStale
  refine Run.Meets.bind (Run.Meets.get ?_)
  refine Run.Meets.bind (Run.Meets.ofExcept ?_ fun _ _ => trivial)
  intro existing found
  -- What lies below a removed file was not there before, so it was moved there.
  have targets : ∀ path ∈ existing, Canonical env path ∧ (path ∈ news ∨ path ∈ paths) := by
    intro path mem
    rcases mem_existingFileGraphDeletions found mem with direct | ⟨dir, isDir, below, row, inFiles, inRepo, rfl⟩
    · exact ⟨canonical path direct, .inr direct⟩
    · refine ⟨holds.valid.canonical row inFiles inRepo, ?_⟩
      by_cases isNew : row.path ∈ news
      · exact .inl isNew
      · have stored : (findFile db env.sourceRepoId row.path).isSome = true := by
          unfold findFile
          rw [find?_isSome]
          exact ⟨row, inFiles, decide_eq_true ⟨inRepo, rfl⟩⟩
        rw [holds.files, Option.isSome_map, midway.elsewhere _ isNew] at stored
        split at stored
        · cases stored
        · obtain ⟨slice, held⟩ := Option.isSome_iff_exists.mp stored
          obtain ⟨_, bytes, _, inTree, _⟩ := sliceOf_eq_some_iff.mp held
          have content := (tree_eq_some_iff.mp inTree).2.2
          have ⟨_, noFile⟩ := before.directories dir row.path below (by rw [content]; rfl)
          obtain ⟨dirBytes, dirTree⟩ := Option.isSome_iff_exists.mp (listed dir isDir).1
          rw [(tree_eq_some_iff.mp dirTree).2.2] at noFile
          cases noFile
  refine Run.Meets.bind ((Run.Meets.forEach (fun done => MovedTo env before after ownersBefore
    ownersAfter news (olds ++ done)) existing [] ?_ ?_).mono ?_)
  · rw [append_nil]
    exact ⟨slices, holds, midway⟩
  · intro earlier path later reached split ⟨current, currentHolds, currentMidway⟩
    have mem : path ∈ existing := by
      rw [show existing = earlier ++ path :: later from split]
      exact mem_append_right _ (.head _)
    have ⟨located, known⟩ := targets path mem
    refine Run.Meets.withContext (deleteGraph_meets located ⟨_, currentHolds.delete ?_, ?_, ?_⟩)
    · intro name named
      by_cases isNew : path ∈ news
      · exact currentMidway.moved path isNew name named
      · rw [currentMidway.elsewhere path isNew] at named
        split at named
        · cases named
        · refine vanishes parses.embeds named ?_
          rw [sliceOf_eq_none (listed path (known.resolve_left isNew)).2]
          exact not_mem_nil
    · intro other elsewhere
      rw [update_apply, currentMidway.elsewhere other elsewhere, ← append_assoc]
      by_cases here : other = path
      · rw [if_pos here, if_pos (mem_append_right _ (mem_singleton.mpr here))]
      · simp [here]
    · intro other isNew name named
      rw [update_apply] at named
      split at named
      · cases named
      · exact currentMidway.moved other isNew name named
  · intro _ reached ⟨last, lastHolds, lastMidway⟩
    refine ⟨last, lastHolds, ?_, lastMidway.moved⟩
    intro path elsewhere
    rw [lastMidway.elsewhere path elsewhere, nil_append]
    by_cases removed : path ∈ paths
    · rw [if_pos (mem_append_right _ removed)]
      by_cases there : path ∈ olds ++ existing
      · rw [if_pos there]
      · rw [if_neg there]
        rw [mem_append, not_or] at there
        have unstored : ¬ (findFile db env.sourceRepoId path).isSome = true := fun stored =>
          there.2 (mem_existing_of_stored found removed (canonical path removed) stored)
        rw [holds.files, midway.elsewhere path elsewhere, if_neg there.1, Option.isSome_map,
          Option.not_isSome_iff_eq_none] at unstored
        exact unstored
    · have same : path ∈ olds ++ existing ↔ path ∈ olds ++ paths := by
        rw [mem_append, mem_append]
        refine or_congr_right ⟨fun inExisting => ?_, fun inPaths => absurd inPaths removed⟩
        exact (targets path inExisting).2.resolve_left elsewhere
      simp only [same]

end
end Atlas.Engine
