import Atlas.Program.MapM
import Atlas.Repo.RegistryOrder

/-! A sync as a function of what git lists: every line is read on its own, and
only the parent of a listed submodule depends on the registry. -/
namespace Atlas.Repo
open List Files

structure Listed where
  relPath : String
  entry : RepoRegistration
  deriving DecidableEq

def Listed.repoId (listed : Listed) : String := listed.entry.repoId

def Listed.under (listed : Listed) (parentRepoId : String) : RepoRegistration :=
  { listed.entry with relationship := ⟨.submodule, some parentRepoId, some listed.relPath⟩ }

structure LineReading where
  warnings : List RepoRegistryWarning
  listed : Option Listed
  deriving DecidableEq

section
variable (nfc : String → String) (sha256Hex : String → String) (rendering : Rendering)
variable (world : RepoWorld) (root : List Char)

def warning (code msg relPath : String) : LineReading := ⟨[⟨code, msg, some relPath⟩], none⟩

def readListed (submoduleRoot : List (List Char)) (line : SubmoduleStatus) :
    Except RegistryError LineReading :=
  match registrationForRepo nfc sha256Hex world (absoluteText submoduleRoot) root
      ⟨.submodule, none, some line.relPath⟩ (some line.relPath) with
  | .error error => .error error
  | .ok entry => .ok ⟨[], some ⟨line.relPath, withHead line.commit entry⟩⟩

def readLine (rawLine : List Char) : Except RegistryError LineReading :=
  match parseSubmoduleStatusLine rawLine with
  | .error error => .error error
  | .ok none => .ok ⟨[], none⟩
  | .ok (some line) =>
    if line.state = '-' then
      .ok (warning "submodule_uninitialized" ("submodule '" ++ line.relPath ++ "' is not initialized") line.relPath)
    else if line.state = 'U' then
      .ok (warning "submodule_conflict" ("submodule '" ++ line.relPath ++ "' has unresolved conflicts") line.relPath)
    else
      let absolute := joinPath root line.relPath.toList
      if world.pathExists absolute then
        match canonicalFilesystemPath nfc world.files absolute with
        | .error error => .ok (warning "submodule_uncanonical"
            ("submodule '" ++ line.relPath ++ "' cannot be canonicalized: " ++ error.message rendering) line.relPath)
        | .ok submoduleRoot => readListed nfc sha256Hex world root submoduleRoot line
      else .ok (warning "submodule_missing" ("submodule '" ++ line.relPath ++ "' path is missing") line.relPath)

def readStatus : Except RegistryError (List LineReading) :=
  match world.submoduleStatus (String.ofList root) with
  | none => .ok []
  | some stdout => (statusLines stdout).mapM
      (readLine nfc sha256Hex rendering world root)

def listedOf (readings : List LineReading) : List Listed := readings.filterMap LineReading.listed

variable (rootRepoId : String)

def parentFound (registrations : List RepoRegistration) (listed : Listed) : Option String :=
  parentRepoIdForSubmodule nfc root registrations listed.relPath

def registerListed (registrations : List RepoRegistration)
    (listed : Listed) : List RepoRegistration := upsertEntry registrations
    (listed.under ((parentFound nfc root registrations listed).getD rootRepoId))

def registerAll (registrations : List RepoRegistration) (listed : List Listed) :
    List RepoRegistration := listed.foldl (registerListed nfc root rootRepoId) registrations

def parentsFound : List RepoRegistration → List Listed → List (Option String)
  | _, [] => []
  | registrations, first :: rest =>
    parentFound nfc root registrations first :: parentsFound (registerListed nfc root rootRepoId registrations first) rest

def entriesUnder (parents : List (Option String)) (listed : List Listed) : List RepoRegistration :=
  zipWith (fun parent (one : Listed) => one.under (parent.getD rootRepoId)) parents listed
def linksUnder (parents : List (Option String)) (listed : List Listed) : List (String × String) :=
  zipWith (fun parent (one : Listed) => (parent.getD rootRepoId, one.repoId)) parents listed

def LineReading.apply (found : Discovery) (reading : LineReading) : Discovery :=
  let warned := { found.registry with warnings := found.registry.warnings ++ reading.warnings }
  match reading.listed with
  | none => ⟨warned, found.links⟩
  | some listed =>
    let parent := (parentFound nfc root found.registry.registrations listed).getD
      found.registry.rootRepoId
    ⟨{ warned with registrations := upsertEntry found.registry.registrations (listed.under parent) },
      found.links ++ [(parent, listed.repoId)]⟩

variable {nfc sha256Hex rendering world root rootRepoId}

private theorem registrationForRepo_relationship (repoRoot : List Char)
    (relationship other : RepoRelationship) (displayAlias : Option String) :
    registrationForRepo nfc sha256Hex world repoRoot root relationship displayAlias =
      (registrationForRepo nfc sha256Hex world repoRoot root other displayAlias).map fun entry =>
        { entry with relationship := relationship } := by
  unfold registrationForRepo
  cases canonicalFilesystemPath nfc world.files repoRoot with
  | error error => rfl
  | ok parts => rfl

private theorem withHead_relationship (commit : String) (relationship : RepoRelationship)
    (entry : RepoRegistration) : withHead commit { entry with relationship := relationship } =
      { withHead commit entry with relationship := relationship } := by
  unfold withHead
  by_cases headless : entry.vcs.head = none ∧ commit ≠ ""
  · rw [if_pos headless, if_pos headless]
  · rw [if_neg headless, if_neg headless]

private theorem withHead_repoId (commit : String) (entry : RepoRegistration) :
    (withHead commit entry).repoId = entry.repoId := by
  unfold withHead
  split
  all_goals rfl

private theorem register_eq (submoduleRoot : List (List Char)) (line : SubmoduleStatus)
    (found : Discovery) : found.register nfc sha256Hex world root submoduleRoot line =
      (readListed nfc sha256Hex world root submoduleRoot line).map (LineReading.apply nfc root found) := by
  unfold Discovery.register readListed
  dsimp only
  rw [registrationForRepo_relationship _ ⟨.submodule, some _, some line.relPath⟩ ⟨.submodule, none, some line.relPath⟩]
  cases registrationForRepo nfc sha256Hex world (absoluteText submoduleRoot) root ⟨.submodule, none,
    some line.relPath⟩ (some line.relPath) with
  | error error => rfl
  | ok entry =>
    simp only [Except.map, LineReading.apply, withHead_relationship, append_nil]
    exact congrArg (fun id => Except.ok (Discovery.mk _ (found.links ++ [(_, id)]))) (withHead_repoId line.commit entry).symm

private theorem step_eq (found : Discovery) (rawLine : List Char) :
    Discovery.step nfc sha256Hex rendering world root found rawLine =
      (readLine nfc sha256Hex rendering world root rawLine).map (LineReading.apply nfc root found) := by
  unfold Discovery.step readLine
  cases parseSubmoduleStatusLine rawLine with
  | error error => rfl
  | ok parsed =>
    cases parsed with
    | none => simp only [Except.map, LineReading.apply, append_nil]
    | some line =>
      dsimp only
      by_cases uninitialized : line.state = '-'
      · rw [if_pos uninitialized, if_pos uninitialized]
        rfl
      rw [if_neg uninitialized, if_neg uninitialized]
      by_cases conflict : line.state = 'U'
      · rw [if_pos conflict, if_pos conflict]
        rfl
      rw [if_neg conflict, if_neg conflict]
      cases world.pathExists (joinPath root line.relPath.toList) with
      | false => rfl
      | true =>
        rw [if_pos rfl, if_pos rfl]
        cases canonicalFilesystemPath nfc world.files (joinPath root line.relPath.toList) with
        | error error => rfl
        | ok submoduleRoot => exact register_eq _ _ _

private theorem foldlM_eq_mapM {Error State Item Reading : Type} {step : State → Item → Except Error State}
    {read : Item → Except Error Reading} {apply : State → Reading → State}
    (reads : ∀ state item, step state item = (read item).map (apply state)) (items : List Item)
    (state : State) : items.foldlM step state = (items.mapM read).map (foldl apply state) := by
  induction items generalizing state with
  | nil => rfl
  | cons item items ih =>
    rw [foldlM_cons, mapM_cons, reads]
    cases read item with
    | error error => rfl
    | ok reading =>
      change foldlM step (apply state reading) items = _
      rw [ih]
      cases items.mapM read with
      | error error | ok readings => rfl

private theorem foldl_apply (readings : List LineReading) (found : Discovery) :
    readings.foldl (LineReading.apply nfc root) found =
      ⟨{ found.registry with
          registrations := registerAll nfc root found.registry.rootRepoId
            found.registry.registrations (listedOf readings)
          warnings := found.registry.warnings ++ readings.flatMap LineReading.warnings },
        found.links ++ linksUnder found.registry.rootRepoId (parentsFound
          nfc root found.registry.rootRepoId found.registry.registrations (listedOf readings))
          (listedOf readings)⟩ := by
  induction readings generalizing found with
  | nil =>
    simp only [foldl_nil, listedOf, filterMap_nil, registerAll, parentsFound, linksUnder,
      zipWith_nil_left, flatMap_nil, append_nil]
  | cons reading readings ih =>
    rw [foldl_cons, ih]
    unfold LineReading.apply
    cases here : reading.listed with
    | none => simp only [listedOf, filterMap_cons, here, flatMap_cons, append_assoc]
    | some listed =>
      simp only [listedOf, filterMap_cons, here, flatMap_cons, append_assoc, registerAll,
        foldl_cons, registerListed, parentsFound, linksUnder, zipWith_cons_cons, singleton_append]

theorem registerAll_eq (registrations : List RepoRegistration) (listed : List Listed) :
    registerAll nfc root rootRepoId registrations listed =
      (entriesUnder rootRepoId (parentsFound nfc root rootRepoId registrations listed) listed).foldl
        upsertEntry registrations := by
  induction listed generalizing registrations with
  | nil => rfl
  | cons first rest ih => exact ih _

variable {registrations : List RepoRegistration}

variable (links : List (String × String))

def linked (entry : RepoRegistration) : RepoRegistration :=
  if entry.repoId ∈ links.map Prod.fst then withChildren (childrenOf links entry.repoId) entry
  else entry

theorem linked_repoId (entry : RepoRegistration) : (linked links entry).repoId = entry.repoId := by
  unfold linked
  split
  all_goals rfl

private theorem changeFirst_eq_map {change : RepoRegistration → RepoRegistration}
    {repoId : String} (nodup : (registrations.map RepoRegistration.repoId).Nodup) :
    changeFirst repoId change registrations = registrations.map fun entry =>
      if entry.repoId = repoId then change entry else entry := by
  induction registrations with
  | nil => rfl
  | cons entry rest ih =>
    rw [map_cons, nodup_cons] at nodup
    rw [changeFirst, map_cons]
    split
    · next here =>
        refine congrArg (cons _) ?_
        have others : ∀ other ∈ rest, (if other.repoId = repoId then change other else other) = id other := by
          intro other mem
          refine if_neg fun same => nodup.1 ?_
          rw [here, ← same]
          exact mem_map_of_mem mem
        rw [map_congr_left others, map_id]
    · rw [ih nodup.2]

private theorem foldl_changeFirst {change : String → RepoRegistration → RepoRegistration}
    (keeps : ∀ parent entry, (change parent entry).repoId = entry.repoId) (parents : List String)
    (once : parents.Nodup) (nodup : (registrations.map RepoRegistration.repoId).Nodup) :
    parents.foldl (fun entries parent => changeFirst parent (change parent) entries) registrations =
      registrations.map fun entry =>
        if entry.repoId ∈ parents then change entry.repoId entry else entry := by
  induction parents generalizing registrations with
  | nil => simp only [foldl_nil, not_mem_nil, if_false, map_id']
  | cons parent parents ih =>
    rw [nodup_cons] at once
    have ids : ∀ entry : RepoRegistration,
      (if entry.repoId = parent then change parent entry else entry).repoId = entry.repoId := by
      intro entry
      split
      · exact keeps parent entry
      · rfl
    rw [foldl_cons, changeFirst_eq_map nodup, ih once.2]
    · rw [map_map]
      apply map_congr_left
      intro entry _
      simp only [Function.comp_apply, ids, mem_cons]
      by_cases here : entry.repoId = parent
      · rw [if_pos here, if_pos (Or.inl here), here, if_neg once.1]
      · rw [if_neg here]
        simp only [here, false_or]
    · rw [map_map]
      have same : (RepoRegistration.repoId ∘ fun entry : RepoRegistration =>
          if entry.repoId = parent then change parent entry else entry) = RepoRegistration.repoId := funext ids
      rw [same]
      exact nodup

private theorem addChildren_eq (nodup : (registrations.map RepoRegistration.repoId).Nodup) :
    addChildren links registrations = registrations.map (linked links) := by
  have once : (parentsOf links).Nodup := (perm_insertionSort _ _).nodup_iff.mpr (nodup_dedup _)
  unfold addChildren
  rw [foldl_changeFirst (fun parent entry =>
    (rfl : (withChildren (childrenOf links parent) entry).repoId = entry.repoId)) _ once nodup]
  apply map_congr_left
  intro entry _
  unfold linked parentsOf
  simp only [mem_insertionSort, mem_dedup]

theorem settled_registerAll (settled : Settled registrations) (listed : List Listed) :
    Settled (registerAll nfc root rootRepoId registrations listed) := by
  cases listed using reverseRecOn with
  | nil => exact settled
  | append_singleton early last =>
    unfold registerAll
    rw [foldl_append]
    exact settled_upsertEntry _ _

theorem linked_relationship (entry : RepoRegistration) :
    (linked links entry).relationship = entry.relationship := by
  unfold linked
  split
  all_goals rfl

theorem linked_row (entry : RepoRegistration) : row (linked links entry) = row entry := by
  unfold linked
  split
  all_goals rfl

private theorem settled_linked (settled : Settled registrations) (links : List (String × String)) :
    Settled (registrations.map (linked links)) :=
  settled.map (linked_repoId links) (fun entry => congrArg Row.displayAlias (linked_row links entry)) (linked_relationship links)

theorem refresh_relationship (entry : RepoRegistration) :
    (refresh world entry).relationship = entry.relationship := by
  unfold refresh
  split
  all_goals rfl

theorem refresh_row (entry : RepoRegistration) : row (refresh world entry) = row entry := by
  unfold refresh
  split
  all_goals rfl

theorem refresh_repoId (entry : RepoRegistration) :
    (refresh world entry).repoId = entry.repoId := congrArg Row.repoId (refresh_row entry)

variable {entry : RepoRegistration} {registry : RepoRegistry}

theorem refresh_of_exists (present : rootExists world entry = true) : refresh world entry =
      { entry with trustState := .trusted, vcs := readVcsMetadata world entry.root } := by
  unfold refresh
  rw [present, if_pos rfl]

theorem refresh_of_missing (missing : rootExists world entry = false) :
    refresh world entry = { entry with trustState := .missing, enabled := false } := by
  unfold refresh
  rw [missing, if_neg Bool.false_ne_true]

theorem settled_refresh (settled : Settled registrations) :
    Settled (registrations.map (refresh world)) :=
  settled.map refresh_repoId (fun entry => congrArg Row.displayAlias (refresh_row entry)) refresh_relationship

def discovered (nfc : String → String) (root : List Char) (rootRepoId : String)
    (registrations : List RepoRegistration) (listed : List Listed) : List RepoRegistration :=
  (registerAll nfc root rootRepoId registrations listed).map
    (linked (linksUnder rootRepoId (parentsFound nfc root rootRepoId registrations listed) listed))

theorem settled_discovered (settled : Settled registrations) (listed : List Listed) :
    Settled (discovered nfc root rootRepoId registrations listed) :=
  settled_linked (settled_registerAll settled listed) _

private theorem linked_nil (entry : RepoRegistration) : linked [] entry = entry := by
  unfold linked
  exact if_neg not_mem_nil

theorem discoverInitializedSubmodules_eq (settled : Settled registry.registrations) :
    discoverInitializedSubmodules nfc sha256Hex rendering world root registry =
      (readStatus nfc sha256Hex rendering world root).map fun readings =>
        { registry with
          registrations := discovered nfc root registry.rootRepoId registry.registrations
            (listedOf readings)
          warnings := registry.warnings ++ readings.flatMap LineReading.warnings } := by
  unfold discoverInitializedSubmodules readStatus
  cases world.submoduleStatus (String.ofList root) with
  | none =>
    have whole : discovered nfc root registry.rootRepoId registry.registrations (listedOf []) = registry.registrations := by
      have same : linked [] = id := funext linked_nil
      change registry.registrations.map (linked []) = _
      rw [same, map_id]
    simp only [Except.map, whole, flatMap_nil, append_nil]
  | some stdout =>
    dsimp only
    rw [foldlM_eq_mapM step_eq]
    cases (statusLines stdout).mapM (readLine nfc sha256Hex rendering world root) with
    | error error => rfl
    | ok readings =>
      simp only [Except.map, foldl_apply, nil_append]
      rw [addChildren_eq _ (settled_registerAll settled _).distinct]
      rfl

def synced (nfc : String → String) (world : RepoWorld)
    (root : List Char) (registry : RepoRegistry) (readings : List LineReading) : RepoRegistry :=
  { registry with
    registrations := discovered nfc root registry.rootRepoId
      (registry.registrations.map (refresh world)) (listedOf readings)
    warnings := (registry.registrations.filter fun entry => !rootExists world entry).map
      missingWarning ++ readings.flatMap LineReading.warnings }

theorem sync_eq (settled : Settled registry.registrations) :
    registry.sync nfc sha256Hex rendering world root =
      (readStatus nfc sha256Hex rendering world root).map (synced nfc world root registry) := by
  unfold RepoRegistry.sync
  dsimp only
  rw [discoverInitializedSubmodules_eq (settled_refresh settled)]
  cases readStatus nfc sha256Hex rendering world root with
  | error error => rfl
  | ok readings =>
    simp only [Except.map]
    rw [(settled_discovered (settled_refresh settled) _).sortAndDedupe_eq]
    rfl

end
end Atlas.Repo
