import Atlas.Repo.RegistryProperties

/-! Every registry that bootstrap, upsert, remove and sync build, in any order. -/
namespace Atlas.Repo
open List

section
variable (nfc : String → String) (sha256Hex : String → String) (rendering : Rendering)

def bootstrapStart (world : RepoWorld) (registryRoot : List Char) :
    Except RegistryError (List Char × RepoRegistry) :=
  match canonicalFilesystemPath nfc world.files registryRoot with
  | .error error => .error (.registryRoot registryRoot error)
  | .ok parts =>
    match registrationForRepo nfc sha256Hex world (absoluteText parts) (absoluteText parts)
        ⟨.root, none, none⟩ (some ".") with
    | .error error => .error error
    | .ok registration => .ok (absoluteText parts,
        (RepoRegistry.new (stableRepoId sha256Hex (absoluteText parts))).upsert registration)

/-- The registries that a sequence of operations builds. In a careful one, a repo is removed only
when it is nobody's parent, and submodules without a registered parent are found only while the
root is registered. -/
inductive RegistryRun (careful : Bool) : RepoRegistry → Prop
  | bootstrap {world : RepoWorld} {registryRoot root : List Char} {start registry : RepoRegistry}
      {readings : List LineReading} :
      bootstrapStart nfc sha256Hex world registryRoot = .ok (root, start) →
      readStatus nfc sha256Hex rendering world root = .ok readings →
      (careful = true → ParentsPlaced nfc root start.rootRepoId start.registrations (listedOf readings)) →
      bootstrapRegistry nfc sha256Hex rendering world registryRoot = .ok registry →
      RegistryRun careful registry
  | upsert {registry : RepoRegistry} {registration : RepoRegistration} :
    RegistryRun careful registry → NamesAmong (ids registry.registrations) registration →
      RegistryRun careful (registry.upsert registration)
  | remove {registry next : RepoRegistry} {removed : RepoRegistration} {repoId : String} :
    RegistryRun careful registry → (careful = true → NoParent registry.registrations repoId) →
      registry.remove repoId = some (removed, next) →
      RegistryRun careful next
  | sync {registry next : RepoRegistry} {world : RepoWorld} {registryRoot : List Char}
      {readings : List LineReading} :
      RegistryRun careful registry →
      readStatus nfc sha256Hex rendering world registryRoot = .ok readings →
      (careful = true → ParentsPlaced nfc registryRoot registry.rootRepoId registry.registrations (listedOf readings)) →
      registry.sync nfc sha256Hex rendering world registryRoot = .ok next →
      RegistryRun careful next

variable {nfc sha256Hex rendering} {world : RepoWorld} {registryRoot : List Char}
variable {registry next : RepoRegistry} {readings : List LineReading} {careful : Bool}

theorem bootstrapRegistry_of_start {root : List Char} {start : RepoRegistry}
    (started : bootstrapStart nfc sha256Hex world registryRoot = .ok (root, start)) :
    bootstrapRegistry nfc sha256Hex rendering world registryRoot =
      discoverInitializedSubmodules nfc sha256Hex rendering world root start := by
  unfold bootstrapStart at started
  unfold bootstrapRegistry
  cases placed : canonicalFilesystemPath nfc world.files registryRoot with
  | error error =>
    rw [placed] at started
    cases started
  | ok parts =>
    rw [placed] at started
    dsimp only at started ⊢
    cases made : registrationForRepo nfc sha256Hex world (absoluteText parts) (absoluteText parts)
        { kind := .root, parentRepoId := none, parentPath := none } (some ".") with
    | error error =>
      rw [made] at started
      cases started
    | ok registration =>
      rw [made] at started
      cases started
      rfl

theorem start_sound {root : List Char} {start : RepoRegistry}
    (started : bootstrapStart nfc sha256Hex world registryRoot = .ok (root, start)) :
    Settled start.registrations ∧ RefsRegistered start.registrations := by
  unfold bootstrapStart at started
  split at started
  · cases started
  · split at started
    · cases started
    · next parts _ registration made =>
        cases started
        refine ⟨settled_upsertEntry [] registration, ?_⟩
        refine refsRegistered_upsert settled_nil (fun entry mem => by cases mem)
          ⟨fun dependency mem => ?_, fun parent named => ?_⟩
        · rw [(fresh_registrationForRepo made).dependencies] at mem
          cases mem
        · unfold registrationForRepo at made
          split at made
          · cases made
          · cases made
            cases named

/-- What the operations keep: one entry for each id, in order, and in careful runs the
references. -/
structure Sound (careful : Bool) (registrations : List RepoRegistration) : Prop where
  settled : Settled registrations
  refs : careful = true → RefsRegistered registrations

theorem ParentsPlaced.refresh (placed : ParentsPlaced nfc registryRoot registry.rootRepoId
    registry.registrations (listedOf readings)) : ParentsPlaced nfc registryRoot registry.rootRepoId
      (registry.registrations.map (refresh world)) (listedOf readings) := by
  unfold ParentsPlaced at placed ⊢
  rw [(sameRows_map refresh_row registry.registrations).parentsFound, ids_refresh]
  exact placed

theorem listedLinks_refresh (world : RepoWorld) : listedLinks nfc registryRoot registry.rootRepoId
    (registry.registrations.map (refresh world)) (listedOf readings) =
      listedLinks nfc registryRoot registry.rootRepoId registry.registrations (listedOf readings) := by
  unfold listedLinks
  rw [(sameRows_map refresh_row registry.registrations).parentsFound]

theorem RegistryRun.sound (run : RegistryRun nfc sha256Hex rendering careful registry) :
    Sound careful registry.registrations := by
  induction run with
  | bootstrap started status placed built =>
    obtain ⟨settled, refs⟩ := start_sound started
    rw [bootstrapRegistry_of_start started, discoverInitializedSubmodules_eq settled, status] at built
    cases built
    exact ⟨settled_discovered settled _, fun care =>
      refsRegistered_discovered settled refs (fresh_listed status) (placed care)⟩
  | upsert _ names sound =>
    exact ⟨settled_upsertEntry _ _,
      fun care => refsRegistered_upsert sound.settled (sound.refs care) names⟩
  | remove _ noParent gone sound =>
    obtain ⟨_, left⟩ := removed_eq sound.settled gone
    rw [left]
    exact ⟨settled_removed sound.settled _, fun care =>
      (refsRegistered_removed_iff (sound.refs care)).mpr (noParent care)⟩
  | sync _ status placed done sound =>
    rw [sync_eq sound.settled, status] at done
    cases done
    exact ⟨settled_discovered (settled_refresh sound.settled) _, fun care =>
      refsRegistered_discovered (settled_refresh sound.settled)
        (refsRegistered_refresh (sound.refs care)) (fresh_listed status) (placed care).refresh⟩

/-- In every registry that is built, ids are distinct, and in every careful one the references are
registered; the next sync keeps the user's decisions exactly when none is in its way, and once it
is steady a second sync changes nothing. -/
theorem registryRun_keeps (run : RegistryRun nfc sha256Hex rendering careful registry) :
    (ids registry.registrations).Nodup ∧
      (careful = true → RefsRegistered registry.registrations) ∧ ∀ world registryRoot readings next,
        readStatus nfc sha256Hex rendering world registryRoot = .ok readings →
          registry.sync nfc sha256Hex rendering world registryRoot = .ok next →
            (KeepsDecisions registry.registrations next.registrations ↔
              ∀ entry ∈ registry.registrations,
              Undecided world ((listedOf readings).map Listed.repoId)
                  (listedLinks nfc registryRoot registry.rootRepoId registry.registrations (listedOf readings)) entry) ∧
              (Steady nfc world registryRoot registry.rootRepoId registry.registrations (listedOf readings) →
                next.sync nfc sha256Hex rendering world registryRoot = .ok next) := by
  have sound := run.sound
  refine ⟨sound.settled.distinct, sound.refs, fun world registryRoot readings next status done => ?_⟩
  rw [sync_eq sound.settled, status] at done
  cases done
  have early : Settled (registry.registrations.map (refresh world)) := settled_refresh sound.settled
  constructor
  · rw [← listedLinks_refresh world]
    exact keepsDecisions_discovered_iff sound.settled (fresh_listed status)
  · intro steady
    have settled : Settled (synced nfc world registryRoot registry readings).registrations := settled_discovered early _
    rw [sync_eq settled, status]
    exact congrArg Except.ok (synced_twice sound.settled steady)

end

def plainRendering : Rendering := ⟨fun _ => "", fun _ => ""⟩

/-- A root with one submodule, where git answers nothing but the submodule's status. -/
def dependencyWorld : RepoWorld where
  files := .ofEntries [([.text "repo".toList], .dir), ([.text "repo".toList, .text "dep".toList], .dir)] (by decide)
  cwd := []
  gitStdout _ _ := none
  submoduleStatus _ := some " 4f2a dep\n".toList

def dependencyHash (text : String) : String :=
  if text = "/repo" then "816fc349d3faebf805d1bed70fce7e14754cad5251c77dda31c414ee961a0bdd"
  else if text = "/repo/dep" then "8729cfdfaec876afce7e65aa55be31719f80f468bfcf67501a9c1b57f6e435e5"
  else ""

def rootEntry : RepoRegistration where
  repoId := "repo_816fc349d3faebf8"
  root := "/repo"
  displayAlias := "."
  vcs := ⟨none, none, none⟩
  relationship := ⟨.root, none, none⟩
  trustState := .trusted
  enabled := true
  includeGlobs := none
  excludeGlobs := none
  dependencies := [⟨"repo_8729cfdfaec876af", some "submodule"⟩]

def dependencyEntry (enabled : Bool) : RepoRegistration where
  repoId := "repo_8729cfdfaec876af"
  root := "/repo/dep"
  displayAlias := "dep"
  vcs := ⟨some "4f2a", none, none⟩
  relationship := ⟨.submodule, some "repo_816fc349d3faebf8", some "dep"⟩
  trustState := .trusted
  enabled := enabled
  includeGlobs := none
  excludeGlobs := none
  dependencies := []

def dependencyRegistry (enabled : Bool) : RepoRegistry where
  schemaVersion := repoRegistrySchemaVersion
  rootRepoId := rootEntry.repoId
  registrations := [rootEntry, dependencyEntry enabled]
  warnings := []

def dependencyReadings : List LineReading :=
  [⟨[], some ⟨"dep", { dependencyEntry true with
    relationship := ⟨.submodule, none, some "dep"⟩ }⟩⟩]

def dependencyStart : RepoRegistry :=
  { dependencyRegistry true with registrations := [{ rootEntry with dependencies := [] }] }

theorem readStatus_dependencyWorld :
    readStatus id dependencyHash plainRendering dependencyWorld "/repo".toList =
      .ok dependencyReadings := by decide +kernel

theorem bootstrap_dependencyWorld :
    RegistryRun id dependencyHash plainRendering true (dependencyRegistry true) := by
  have started : bootstrapStart id dependencyHash dependencyWorld "/repo".toList =
    .ok ("/repo".toList, dependencyStart) := by decide +kernel
  refine .bootstrap started readStatus_dependencyWorld (fun _ => ?_) (by decide +kernel)
  unfold ParentsPlaced
  decide +kernel

theorem sync_dependencyRegistry (enabled : Bool) :
    (dependencyRegistry enabled).sync id dependencyHash plainRendering dependencyWorld
      "/repo".toList = .ok (dependencyRegistry true) := by
  revert enabled
  decide +kernel

theorem not_refused_trusted : ¬ Refused .trusted := by
  rintro (untrusted | unauthorized)
  · cases untrusted
  · cases unauthorized

/-- While nothing is decided about the submodule, a sync keeps all there is and is steady. -/
theorem registryRun_keeps_dependency :
    KeepsDecisions (dependencyRegistry true).registrations (dependencyRegistry true).registrations ∧
      (dependencyRegistry true).sync id dependencyHash plainRendering dependencyWorld
        "/repo".toList = .ok (dependencyRegistry true) := by
  obtain ⟨keeps, again⟩ := (registryRun_keeps bootstrap_dependencyWorld).2.2 dependencyWorld
    "/repo".toList dependencyReadings (dependencyRegistry true) readStatus_dependencyWorld (sync_dependencyRegistry true)
  refine ⟨keeps.mpr fun entry mem => ?_, again ⟨by decide +kernel, by decide +kernel⟩⟩
  rcases mem_cons.mp mem with rfl | later
  · exact ⟨fun inListed => absurd inListed (by decide +kernel),
      fun _ refused => absurd refused not_refused_trusted⟩
  · rw [mem_singleton.mp later]
    refine ⟨fun _ => ⟨rfl, not_refused_trusted, rfl, rfl, fun dependency inside => ?_⟩,
      fun _ refused => absurd refused not_refused_trusted⟩
    cases inside

/-- A sync enables the submodule that the user disabled. -/
theorem sync_enables_disabled :
    RegistryRun id dependencyHash plainRendering true (dependencyRegistry false) ∧
      (dependencyRegistry false).sync id dependencyHash plainRendering dependencyWorld
        "/repo".toList = .ok (dependencyRegistry true) ∧
      (dependencyEntry false).enabled = false ∧
      registered (dependencyRegistry true).registrations (dependencyEntry false).repoId = some (dependencyEntry true) ∧
      ¬ KeepsDecisions (dependencyRegistry false).registrations (dependencyRegistry true).registrations := by
  have disabled : (dependencyRegistry true).upsert (dependencyEntry false) = dependencyRegistry false := by decide +kernel
  have held : registered (dependencyRegistry true).registrations (dependencyEntry false).repoId =
    some (dependencyEntry true) := by decide +kernel
  refine ⟨?_, sync_dependencyRegistry false, rfl, held, fun keeps => ?_⟩
  · rw [← disabled]
    refine .upsert bootstrap_dependencyWorld ⟨fun dependency inside => ?_, fun parent named => ?_⟩
    · cases inside
    · cases named
      decide +kernel
  · obtain ⟨new, found, kept⟩ := keeps (dependencyEntry false) (.tail _ (.head _))
    rw [held] at found
    cases found
    cases kept.enabled rfl

end Atlas.Repo
