import Atlas.Repo.RegistrySync

/-! What a sync keeps of the user's decisions, which references stay registered,
and when a second sync changes nothing. -/
namespace Atlas.Repo
open Files Program

variable {entry : RepoRegistration} {links : List (String × String)}

section
variable {nfc : String → String} {sha256Hex : String → String} {rendering : Rendering}
variable {world : RepoWorld} {registryRoot : List Char} {rootRepoId repoId : String}
variable {registrations others : List RepoRegistration} {registry next : RepoRegistry}
variable {readings : List LineReading} {listed : List Listed}

/-! ## What is registered under an id -/

private theorem registered_foldl (settled : Settled registrations) (entries : List RepoRegistration)
    (repoId : String) : registered (entries.foldl upsertEntry registrations) repoId =
      (registered entries.reverse repoId).or (registered registrations repoId) := by
  induction entries generalizing registrations with
  | nil => rfl
  | cons entry rest ih =>
    rw [List.foldl_cons, ih (settled_upsertEntry _ _), registered_upsertEntry settled.distinct, List.reverse_cons]
    unfold registered lookup
    rw [List.find?_append, Option.or_assoc, List.find?_singleton]
    by_cases same : entry.repoId = repoId
    · rw [if_pos same, decide_eq_true same, if_pos rfl, Option.some_or]
    · rw [if_neg same, decide_eq_false same, if_neg Bool.false_ne_true, Option.none_or]

def listedEntries (nfc : String → String) (registryRoot : List Char) (rootRepoId : String)
    (registrations : List RepoRegistration) (listed : List Listed) : List RepoRegistration :=
  entriesUnder rootRepoId (parentsFound nfc registryRoot rootRepoId registrations listed) listed

def listedLinks (nfc : String → String) (registryRoot : List Char) (rootRepoId : String)
    (registrations : List RepoRegistration) (listed : List Listed) : List (String × String) :=
  linksUnder rootRepoId (parentsFound nfc registryRoot rootRepoId registrations listed) listed

variable (nfc registryRoot rootRepoId listed) in
theorem registered_discovered (settled : Settled registrations) (repoId : String) :
    registered (discovered nfc registryRoot rootRepoId registrations listed) repoId =
      ((registered (listedEntries nfc registryRoot rootRepoId registrations listed).reverse repoId).or
        (registered registrations repoId)).map (linked (listedLinks nfc registryRoot rootRepoId registrations listed)) := by
  unfold discovered registered
  rw [lookup_map (linked_repoId _), registerAll_eq]
  exact congrArg (Option.map _) (registered_foldl settled _ _)

variable {parents : List (Option String)}
  {one : Listed} {parent : String} {old registration : RepoRegistration}

theorem mem_entriesUnder (mem : entry ∈ entriesUnder rootRepoId parents listed) :
    ∃ parent ∈ parents, ∃ one ∈ listed, entry = one.under (parent.getD rootRepoId) := by
  induction parents generalizing listed with
  | nil => cases mem
  | cons parent parents ih =>
    cases listed with
    | nil => cases mem
    | cons one rest =>
      rcases List.mem_cons.mp mem with same | later
      · exact ⟨parent, List.mem_cons_self, one, List.mem_cons_self, same⟩
      · obtain ⟨parent', inParents, one', inRest, same⟩ := ih later
        exact ⟨parent', List.mem_cons_of_mem _ inParents, one', List.mem_cons_of_mem _ inRest, same⟩

private theorem mem_linksUnder {link : String × String}
    (mem : link ∈ linksUnder rootRepoId parents listed) : ∃ one ∈ listed, link.2 = one.repoId := by
  induction parents generalizing listed with
  | nil => cases mem
  | cons parent parents ih =>
    cases listed with
    | nil => cases mem
    | cons one rest =>
      rcases List.mem_cons.mp mem with same | later
      · exact ⟨one, List.mem_cons_self, by rw [same]⟩
      · obtain ⟨one', inRest, same⟩ := ih later
        exact ⟨one', List.mem_cons_of_mem _ inRest, same⟩

private theorem ids_listedEntries (registrations : List RepoRegistration) (listed : List Listed) :
    (listedEntries nfc registryRoot rootRepoId registrations listed).map RepoRegistration.repoId = listed.map Listed.repoId := by
  induction listed generalizing registrations with
  | nil => rfl
  | cons first rest ih => exact congrArg (List.cons _) (ih _)

variable (nfc registryRoot rootRepoId registrations) in
theorem registered_listed_iff :
    (registered (listedEntries nfc registryRoot rootRepoId registrations listed).reverse
      repoId).isSome = true ↔ repoId ∈ listed.map Listed.repoId := by
  unfold registered
  rw [lookup_isSome_iff, List.map_reverse, List.mem_reverse, ids_listedEntries]

/-! ## The entries that are listed -/

structure Fresh (entry : RepoRegistration) : Prop where
  enabled : entry.enabled = true
  trusted : entry.trustState = .trusted
  includeGlobs : entry.includeGlobs = none
  excludeGlobs : entry.excludeGlobs = none
  dependencies : entry.dependencies = []

theorem fresh_registrationForRepo {repoRoot : List Char} {relationship : RepoRelationship}
    {displayAlias : Option String}
    (made : registrationForRepo nfc sha256Hex world repoRoot registryRoot relationship
      displayAlias = .ok entry) : Fresh entry := by
  unfold registrationForRepo at made
  cases placed : canonicalFilesystemPath nfc world.files repoRoot with
  | error error =>
    rw [placed] at made
    cases made
  | ok parts =>
    rw [placed] at made
    cases made
    exact ⟨rfl, rfl, rfl, rfl, rfl⟩

theorem Fresh.withHead (fresh : Fresh entry) (commit : String) : Fresh (withHead commit entry) := by
  unfold Repo.withHead
  split
  · exact ⟨fresh.enabled, fresh.trusted, fresh.includeGlobs, fresh.excludeGlobs, fresh.dependencies⟩
  · exact fresh

theorem Fresh.under (fresh : Fresh one.entry) (parent : String) : Fresh (one.under parent) :=
  ⟨fresh.enabled, fresh.trusted, fresh.includeGlobs, fresh.excludeGlobs, fresh.dependencies⟩

private theorem fresh_readLine {rawLine : List Char} {reading : LineReading}
    (read : readLine nfc sha256Hex rendering world registryRoot rawLine = .ok reading)
    (lists : reading.listed = some one) : Fresh one.entry := by
  unfold readLine at read
  cases parsed : parseSubmoduleStatusLine rawLine with
  | error error =>
    rw [parsed] at read
    cases read
  | ok line =>
    rw [parsed] at read
    cases line with
    | none =>
      cases read
      cases lists
    | some line =>
      dsimp only at read
      split at read
      · cases read
        cases lists
      split at read
      · cases read
        cases lists
      split at read
      · split at read
        · cases read
          cases lists
        · unfold readListed at read
          split at read
          · cases read
          · next made =>
              cases read
              cases lists
              exact (fresh_registrationForRepo made).withHead line.commit
      · cases read
        cases lists

theorem fresh_listed (status : readStatus nfc sha256Hex rendering world registryRoot =
    .ok readings) : ∀ one ∈ listedOf readings, Fresh one.entry := by
  intro one mem
  obtain ⟨reading, inReadings, lists⟩ := List.mem_filterMap.mp mem
  unfold readStatus at status
  split at status
  · cases status
    cases inReadings
  · obtain ⟨rawLine, _, read⟩ := Program.mapM_ok_mem status inReadings
    exact fresh_readLine read lists

theorem fresh_listedEntries (fresh : ∀ one ∈ listed, Fresh one.entry)
    (mem : entry ∈ listedEntries nfc registryRoot rootRepoId registrations listed) :
    Fresh entry := by
  obtain ⟨parent, _, one, inside, same⟩ := mem_entriesUnder mem
  rw [same]
  exact (fresh one inside).under _

/-! ## The user's decisions -/

def Refused (trust : TrustState) : Prop := trust = .untrusted ∨ trust = .unauthorized

structure Kept (old new : RepoRegistration) : Prop where
  enabled : new.enabled = true → old.enabled = true
  trust : Refused old.trustState → new.trustState ≠ .trusted
  includeGlobs : new.includeGlobs = old.includeGlobs
  excludeGlobs : new.excludeGlobs = old.excludeGlobs
  dependencies : ∀ dependency ∈ old.dependencies, dependency ∈ new.dependencies

def KeepsDecisions (registrations others : List RepoRegistration) : Prop :=
  ∀ old ∈ registrations, ∃ new, registered others old.repoId = some new ∧ Kept old new

structure Undecided (world : RepoWorld) (listedIds : List String)
    (links : List (String × String)) (entry : RepoRegistration) : Prop where
  asNew : entry.repoId ∈ listedIds → entry.enabled = true ∧ ¬ Refused entry.trustState ∧
    entry.includeGlobs = none ∧ entry.excludeGlobs = none ∧ ∀ dependency ∈ entry.dependencies,
        dependency.kind = some "submodule" ∧ (entry.repoId, dependency.repoId) ∈ links
  refused : entry.repoId ∉ listedIds → Refused entry.trustState → rootExists world entry = false

theorem mem_childrenOf {child : String} :
    child ∈ childrenOf links parent ↔ (parent, child) ∈ links := by
  unfold childrenOf
  rw [List.mem_insertionSort, List.mem_dedup, List.mem_map]
  constructor
  · rintro ⟨⟨first, second⟩, inside, rfl⟩
    obtain ⟨mem, same⟩ := List.mem_filter.mp inside
    rw [decide_eq_true_eq] at same
    cases same
    exact mem
  · intro mem
    exact ⟨(parent, child), List.mem_filter.mpr ⟨mem, decide_eq_true rfl⟩, rfl⟩

theorem mem_dependencies_linked {dependency : RepoDependency} :
    dependency ∈ (linked links entry).dependencies ↔ dependency ∈ entry.dependencies ∨
      dependency.kind = some "submodule" ∧ (entry.repoId, dependency.repoId) ∈ links ∧
        dependency.repoId ∉ entry.dependencies.map RepoDependency.repoId := by
  unfold linked
  split
  · unfold withChildren
    rw [List.mem_insertionSort, List.mem_append, List.mem_map]
    refine or_congr_right ?_
    constructor
    · rintro ⟨child, mem, rfl⟩
      obtain ⟨inside, fresh⟩ := List.mem_filter.mp mem
      exact ⟨rfl, mem_childrenOf.mp inside, decide_eq_true_eq.mp fresh⟩
    · rintro ⟨kind, mem, fresh⟩
      refine ⟨dependency.repoId, List.mem_filter.mpr ⟨mem_childrenOf.mpr mem, decide_eq_true fresh⟩, ?_⟩
      cases dependency
      rw [← kind]
  · next childless =>
      constructor
      · exact .inl
      · rintro (old | ⟨_, mem, _⟩)
        · exact old
        · exact absurd (List.mem_map_of_mem mem) childless

theorem linked_decisions (links : List (String × String)) (entry : RepoRegistration) :
    (linked links entry).enabled = entry.enabled ∧
      (linked links entry).trustState = entry.trustState ∧
      (linked links entry).includeGlobs = entry.includeGlobs ∧ (linked links entry).excludeGlobs = entry.excludeGlobs := by
  unfold linked
  split
  all_goals exact ⟨rfl, rfl, rfl, rfl⟩

theorem kept_fresh_iff (fresh : Fresh entry) (same : entry.repoId = old.repoId) :
    Kept old (linked links entry) ↔ old.enabled = true ∧ ¬ Refused old.trustState ∧
      old.includeGlobs = none ∧ old.excludeGlobs = none ∧ ∀ dependency ∈ old.dependencies,
        dependency.kind = some "submodule" ∧ (old.repoId, dependency.repoId) ∈ links := by
  obtain ⟨enabled, trust, includes, excludes⟩ := linked_decisions links entry
  have children : ∀ dependency : RepoDependency, dependency ∈ (linked links entry).dependencies ↔
    dependency.kind = some "submodule" ∧ (old.repoId, dependency.repoId) ∈ links := by
    intro dependency
    rw [mem_dependencies_linked, fresh.dependencies, same]
    simp only [List.not_mem_nil, false_or, List.map_nil, not_false_eq_true, and_true]
  constructor
  · intro kept
    refine ⟨kept.enabled (enabled.trans fresh.enabled), fun refused => ?_, ?_, ?_, ?_⟩
    · exact kept.trust refused (trust.trans fresh.trusted)
    · exact kept.includeGlobs.symm.trans (includes.trans fresh.includeGlobs)
    · exact kept.excludeGlobs.symm.trans (excludes.trans fresh.excludeGlobs)
    · exact fun dependency mem => (children dependency).mp (kept.dependencies dependency mem)
  · rintro ⟨on, accepted, noIncludes, noExcludes, known⟩
    exact ⟨fun _ => on, fun refused => absurd refused accepted,
      (includes.trans fresh.includeGlobs).trans noIncludes.symm,
      (excludes.trans fresh.excludeGlobs).trans noExcludes.symm,
      fun dependency mem => (children dependency).mpr (known dependency mem)⟩

theorem kept_refresh_iff : Kept old (linked links (refresh world old)) ↔
    (Refused old.trustState → rootExists world old = false) := by
  obtain ⟨enabled, trust, includes, excludes⟩ := linked_decisions links (refresh world old)
  cases present : rootExists world old with
  | true =>
    have fresh := refresh_of_exists present
    constructor
    · intro kept refused
      refine absurd ?_ (kept.trust refused)
      rw [trust, fresh]
    · intro missing
      refine ⟨fun on => ?_, fun refused => ?_, ?_, ?_, fun dependency mem => ?_⟩
      · rw [enabled, fresh] at on
        exact on
      · cases missing refused
      · rw [includes, fresh]
      · rw [excludes, fresh]
      · refine mem_dependencies_linked.mpr (.inl ?_)
        rw [fresh]
        exact mem
  | false =>
    have stale := refresh_of_missing present
    refine ⟨fun _ _ => rfl, fun _ => ⟨fun on => ?_, fun _ => ?_, ?_, ?_, fun dependency mem => ?_⟩⟩
    · rw [enabled, stale] at on
      cases on
    · rw [trust, stale]
      exact nofun
    · rw [includes, stale]
    · rw [excludes, stale]
    · refine mem_dependencies_linked.mpr (.inl ?_)
      rw [stale]
      exact mem

theorem keepsDecisions_discovered_iff (settled : Settled registrations)
    (fresh : ∀ one ∈ listed, Fresh one.entry) :
    KeepsDecisions registrations (discovered nfc registryRoot rootRepoId (registrations.map (refresh world)) listed) ↔
      ∀ entry ∈ registrations, Undecided world (listed.map Listed.repoId) (listedLinks nfc
        registryRoot rootRepoId (registrations.map (refresh world)) listed) entry := by
  refine forall₂_congr fun old mem => ?_
  have early : Settled (registrations.map (refresh world)) := settled_refresh settled
  have held := registered_discovered nfc registryRoot rootRepoId listed early old.repoId
  have own : registered (registrations.map (refresh world)) old.repoId = some (refresh world old) := by
    unfold registered
    rw [lookup_map refresh_repoId, lookup_of_mem settled.distinct mem]
    rfl
  rw [held, own]
  generalize listedLinks nfc registryRoot rootRepoId (registrations.map (refresh world)) listed = links
  cases anew : registered (listedEntries nfc registryRoot rootRepoId
    (registrations.map (refresh world)) listed).reverse old.repoId with
  | some entry =>
    have inListed : old.repoId ∈ listed.map Listed.repoId :=
      (registered_listed_iff nfc registryRoot rootRepoId _).mp (by rw [anew]; rfl)
    have isFresh : Fresh entry := fresh_listedEntries fresh (List.mem_reverse.mp (mem_of_lookup anew))
    have same : entry.repoId = old.repoId := key_of_lookup anew
    constructor
    · rintro ⟨new, found, kept⟩
      cases found
      exact ⟨fun _ => (kept_fresh_iff isFresh same).mp kept, fun out => absurd inListed out⟩
    · intro undecided
      exact ⟨_, rfl, (kept_fresh_iff isFresh same).mpr (undecided.asNew inListed)⟩
  | none =>
    have notListed : old.repoId ∉ listed.map Listed.repoId := by
      intro inListed
      have present := (registered_listed_iff nfc registryRoot rootRepoId (registrations.map (refresh world))).mpr inListed
      rw [anew] at present
      cases present
    constructor
    · rintro ⟨new, found, kept⟩
      cases found
      exact ⟨fun isListed => absurd isListed notListed, fun _ => kept_refresh_iff.mp kept⟩
    · intro undecided
      exact ⟨_, rfl, kept_refresh_iff.mpr (undecided.refused notListed)⟩

/-! ## References -/

def ids (registrations : List RepoRegistration) : List String :=
  registrations.map RepoRegistration.repoId

structure NamesAmong (known : List String) (entry : RepoRegistration) : Prop where
  dependencies : ∀ dependency ∈ entry.dependencies, dependency.repoId ∈ known
  parent : ∀ parent, entry.relationship.parentRepoId = some parent → parent ∈ known

def RefsRegistered (registrations : List RepoRegistration) : Prop :=
  ∀ entry ∈ registrations, NamesAmong (ids registrations) entry

theorem NamesAmong.mono {known more : List String} (names : NamesAmong known entry)
    (subset : ∀ repoId ∈ known, repoId ∈ more) : NamesAmong more entry :=
  ⟨fun dependency mem => subset _ (names.dependencies dependency mem), fun parent same => subset _ (names.parent parent same)⟩

private theorem nearest_mem {candidates : List (Nat × String)}
    {found : Nat × String} (near : nearest candidates = some found) : found ∈ candidates := by
  induction candidates generalizing found with
  | nil => cases near
  | cons candidate rest ih =>
    unfold nearest at near
    split at near
    · cases near
      exact List.mem_cons_self
    · next other later =>
        split at near
        · cases near
          exact List.mem_cons_of_mem _ (ih later)
        · cases near
          exact List.mem_cons_self

private theorem parentRepoId_mem {relPath : String}
    (found : parentRepoIdForSubmodule nfc registryRoot registrations relPath = some repoId) :
    repoId ∈ ids registrations := by
  unfold parentRepoIdForSubmodule at found
  dsimp only at found
  split at found
  · next distance near =>
      cases found
      obtain ⟨entry, mem, measured⟩ := List.mem_filterMap.mp (nearest_mem near)
      unfold submoduleDistance at measured
      dsimp only at measured
      split at measured
      · cases measured
        exact List.mem_map_of_mem mem
      · cases measured
  · split at found
    · cases found
    · obtain ⟨entry, named, same⟩ := Option.map_eq_some_iff.mp found
      rw [← same]
      exact List.mem_map_of_mem (List.mem_of_find?_eq_some named)

theorem mem_ids_upsertEntry (settled : Settled registrations) :
    repoId ∈ ids (upsertEntry registrations registration) ↔
      repoId = registration.repoId ∨ repoId ∈ ids registrations := by
  unfold ids
  rw [← lookup_isSome_iff, ← lookup_isSome_iff]
  change (registered _ _).isSome = true ↔ _ ∨ (registered _ _).isSome = true
  rw [registered_upsertEntry settled.distinct]
  by_cases same : registration.repoId = repoId
  · rw [if_pos same]
    exact ⟨fun _ => .inl same.symm, fun _ => rfl⟩
  · rw [if_neg same]
    exact ⟨.inr, fun mem => mem.elim (fun again => absurd again.symm same) id⟩

private theorem parentsFound_mem (settled : Settled registrations)
    (mem : some parent ∈ parentsFound nfc registryRoot rootRepoId registrations listed) :
    parent ∈ ids registrations ∨ parent ∈ listed.map Listed.repoId := by
  induction listed generalizing registrations with
  | nil => cases mem
  | cons first rest ih =>
    rcases List.mem_cons.mp mem with here | later
    · exact .inl (parentRepoId_mem here.symm)
    · rcases ih (settled_upsertEntry _ _) later with known | inRest
      · rcases (mem_ids_upsertEntry settled).mp known with same | old
        · exact .inr (List.mem_cons.mpr (.inl same))
        · exact .inl old
      · exact .inr (List.mem_cons_of_mem _ inRest)

variable (nfc registryRoot rootRepoId listed) in
private theorem mem_ids_discovered (settled : Settled registrations) (repoId : String) :
    repoId ∈ ids (discovered nfc registryRoot rootRepoId registrations listed) ↔
      repoId ∈ ids registrations ∨ repoId ∈ listed.map Listed.repoId := by
  unfold ids
  rw [← lookup_isSome_iff, ← lookup_isSome_iff]
  change (registered _ _).isSome = true ↔ (registered _ _).isSome = true ∨ _
  rw [registered_discovered _ _ _ _ settled, Option.isSome_map, Option.isSome_or, Bool.or_eq_true, registered_listed_iff]
  exact or_comm

def ParentsPlaced (nfc : String → String) (registryRoot : List Char)
    (rootRepoId : String) (registrations : List RepoRegistration) (listed : List Listed) : Prop :=
  none ∈ parentsFound nfc registryRoot rootRepoId registrations listed →
    rootRepoId ∈ ids registrations ∨ rootRepoId ∈ listed.map Listed.repoId

theorem refsRegistered_discovered (settled : Settled registrations)
    (refs : RefsRegistered registrations) (fresh : ∀ one ∈ listed, Fresh one.entry)
    (placed : ParentsPlaced nfc registryRoot rootRepoId registrations listed) :
    RefsRegistered (discovered nfc registryRoot rootRepoId registrations listed) := by
  intro entry mem
  have known := mem_ids_discovered nfc registryRoot rootRepoId listed settled
  generalize ids (discovered nfc registryRoot rootRepoId registrations listed) = among at known ⊢
  have found := lookup_of_mem (settled_discovered settled listed).distinct mem
  change registered _ _ = _ at found
  rw [registered_discovered _ _ _ _ settled] at found
  obtain ⟨source, origin, same⟩ := Option.map_eq_some_iff.mp found
  have sourceNames : NamesAmong among source := by
    rcases Option.or_eq_some_iff.mp origin with anew | ⟨_, old⟩
    · have inEntries := List.mem_reverse.mp (mem_of_lookup anew)
      obtain ⟨parent, inParents, one, inListed, made⟩ := mem_entriesUnder inEntries
      refine ⟨fun dependency inside => ?_, fun wanted named => ?_⟩
      · rw [(fresh_listedEntries fresh inEntries).dependencies] at inside
        cases inside
      · rw [made] at named
        cases named
        cases parent with
        | none => exact (known _).mpr (placed inParents)
        | some parent => exact (known _).mpr (parentsFound_mem settled inParents)
    · exact (refs source (mem_of_lookup old)).mono fun repoId inside => (known repoId).mpr (.inl inside)
  rw [← same]
  refine ⟨fun dependency inside => ?_, fun parent named => ?_⟩
  · rcases mem_dependencies_linked.mp inside with old | ⟨_, link, _⟩
    · exact sourceNames.dependencies dependency old
    · obtain ⟨one, inListed, child⟩ := mem_linksUnder link
      exact (known _).mpr (.inr (List.mem_map.mpr ⟨one, inListed, child.symm⟩))
  · rw [linked_relationship] at named
    exact sourceNames.parent parent named

theorem ids_refresh (registrations : List RepoRegistration) :
    ids (registrations.map (refresh world)) = ids registrations := by
  unfold ids
  rw [List.map_map]
  exact List.map_congr_left fun entry _ => refresh_repoId entry

theorem refsRegistered_refresh (refs : RefsRegistered registrations) :
    RefsRegistered (registrations.map (refresh world)) := by
  intro entry mem
  obtain ⟨old, inside, same⟩ := List.mem_map.mp mem
  have names := refs old inside
  rw [ids_refresh, ← same]
  refine ⟨fun dependency there => names.dependencies dependency ?_, fun parent named => ?_⟩
  · unfold refresh at there
    split at there
    all_goals exact there
  · rw [refresh_relationship] at named
    exact names.parent parent named

theorem refsRegistered_upsert (settled : Settled registrations)
    (refs : RefsRegistered registrations) (names : NamesAmong (ids registrations) registration) :
    RefsRegistered (upsertEntry registrations registration) := by
  intro entry mem
  have more : ∀ repoId ∈ ids registrations, repoId ∈ ids (upsertEntry registrations registration) :=
    fun repoId inside => (mem_ids_upsertEntry settled).mpr (.inr inside)
  have found := lookup_of_mem (settled_upsertEntry registrations registration).distinct mem
  change registered _ _ = _ at found
  rw [registered_upsertEntry settled.distinct] at found
  split at found
  · cases found
    exact names.mono more
  · exact (refs entry (mem_of_lookup found)).mono more

def NoParent (registrations : List RepoRegistration) (repoId : String) : Prop :=
  ∀ entry ∈ registrations, entry.repoId ≠ repoId → entry.relationship.parentRepoId ≠ some repoId

private theorem eraseP_eq_filter (nodup : (ids registrations).Nodup) (repoId : String) :
    (registrations.eraseP fun entry => decide (entry.repoId = repoId)) =
      registrations.filter fun entry => decide (entry.repoId ≠ repoId) := by
  induction registrations with
  | nil => rfl
  | cons entry rest ih =>
    unfold ids at nodup
    rw [List.map_cons, List.nodup_cons] at nodup
    by_cases here : entry.repoId = repoId
    · rw [List.eraseP_cons_of_pos (by simp [here]), List.filter_cons_of_neg (by simp [here])]
      refine (List.filter_eq_self.mpr fun other mem => ?_).symm
      rw [decide_eq_true_eq]
      intro same
      rw [here, ← same] at nodup
      exact nodup.1 (List.mem_map_of_mem mem)
    · rw [List.eraseP_cons_of_neg (by simp [here]), List.filter_cons_of_pos (by simp [here]),
        ih nodup.2]

theorem removed_eq {removed : RepoRegistration} (settled : Settled registry.registrations)
    (gone : registry.remove repoId = some (removed, next)) :
    next.rootRepoId = registry.rootRepoId ∧
      next.registrations = (registry.registrations.filter fun entry =>
        decide (entry.repoId ≠ repoId)).map (withoutDependency repoId) := by
  unfold RepoRegistry.remove at gone
  split at gone
  · cases gone
  · cases gone
    exact ⟨rfl, congrArg _ (eraseP_eq_filter settled.distinct repoId)⟩

theorem settled_removed (settled : Settled registrations) (repoId : String) :
    Settled ((registrations.filter fun entry => decide (entry.repoId ≠ repoId)).map
      (withoutDependency repoId)) := by
  have filtered : Settled (registrations.filter fun entry => decide (entry.repoId ≠ repoId)) :=
    ⟨settled.sorted.sublist List.filter_sublist,
      settled.distinct.sublist (List.filter_sublist.map _)⟩
  exact filtered.map (fun _ => rfl) (fun _ => rfl) fun _ => rfl

theorem mem_ids_removed {other : String} :
    other ∈ ids ((registrations.filter fun entry => decide (entry.repoId ≠ repoId)).map
      (withoutDependency repoId)) ↔ other ∈ ids registrations ∧ other ≠ repoId := by
  unfold ids
  rw [List.map_map, List.mem_map, List.mem_map]
  constructor
  · rintro ⟨entry, mem, rfl⟩
    obtain ⟨inside, apart⟩ := List.mem_filter.mp mem
    exact ⟨⟨entry, inside, rfl⟩, decide_eq_true_eq.mp apart⟩
  · rintro ⟨⟨entry, inside, rfl⟩, apart⟩
    exact ⟨entry, List.mem_filter.mpr ⟨inside, decide_eq_true apart⟩, rfl⟩

theorem refsRegistered_removed_iff (refs : RefsRegistered registrations) :
    RefsRegistered ((registrations.filter fun entry => decide (entry.repoId ≠ repoId)).map
      (withoutDependency repoId)) ↔ NoParent registrations repoId := by
  constructor
  · intro kept entry mem apart named
    have stays : withoutDependency repoId entry ∈ (registrations.filter fun entry =>
        decide (entry.repoId ≠ repoId)).map (withoutDependency repoId) :=
      List.mem_map_of_mem (List.mem_filter.mpr ⟨mem, decide_eq_true apart⟩)
    exact (mem_ids_removed.mp ((kept _ stays).parent repoId named)).2 rfl
  · intro noParent entry mem
    obtain ⟨old, inside, same⟩ := List.mem_map.mp mem
    obtain ⟨inOld, apart⟩ := List.mem_filter.mp inside
    rw [decide_eq_true_eq] at apart
    have names := refs old inOld
    rw [← same]
    refine ⟨fun dependency there => ?_, fun parent named => ?_⟩
    · obtain ⟨inDependencies, other⟩ := List.mem_filter.mp there
      exact mem_ids_removed.mpr ⟨names.dependencies dependency inDependencies, decide_eq_true_eq.mp other⟩
    · refine mem_ids_removed.mpr ⟨names.parent parent named, fun gone => ?_⟩
      rw [gone] at named
      exact noParent old inOld apart named

theorem SameRows.registerListed (same : SameRows registrations others) (one : Listed) :
    SameRows (registerListed nfc registryRoot rootRepoId registrations one)
      (registerListed nfc registryRoot rootRepoId others one) := by
  refine same.upsertEntry ?_
  unfold parentFound
  rw [same.parentRepoId]

theorem SameRows.registerAll (same : SameRows registrations others) (listed : List Listed) :
    SameRows (registerAll nfc registryRoot rootRepoId registrations listed)
      (registerAll nfc registryRoot rootRepoId others listed) := by
  induction listed generalizing registrations others with
  | nil => exact same
  | cons first rest ih => exact ih (same.registerListed first)

theorem SameRows.parentsFound (same : SameRows registrations others) (listed : List Listed) :
    parentsFound nfc registryRoot rootRepoId registrations listed = parentsFound nfc registryRoot rootRepoId others listed := by
  induction listed generalizing registrations others with
  | nil => rfl
  | cons first rest ih =>
    unfold Repo.parentsFound
    rw [ih (same.registerListed first)]
    exact congrArg (· :: _) (same.parentRepoId nfc registryRoot first.relPath)

def missingWarnings (world : RepoWorld)
    (registrations : List RepoRegistration) : List RepoRegistryWarning :=
  (registrations.filter fun entry => !rootExists world entry).map missingWarning

theorem SameRows.missingWarnings (same : SameRows registrations others) :
    missingWarnings world registrations = missingWarnings world others := by
  unfold Repo.missingWarnings
  induction registrations generalizing others with
  | nil =>
    cases others with
    | nil => rfl
    | cons other rest => cases same
  | cons entry rest ih =>
    cases others with
    | nil => cases same
    | cons other others =>
      obtain ⟨head, tail⟩ := List.cons.inj same
      have roots : entry.root = other.root := congrArg Row.root head
      have named : missingWarning entry = missingWarning other := by
        unfold missingWarning
        have named : entry.repoId = other.repoId := congrArg Row.repoId head
        rw [roots, named]
      have present : rootExists world entry = rootExists world other := by
        unfold rootExists
        rw [roots]
      rw [List.filter_cons, List.filter_cons, present]
      split
      · rw [List.map_cons, List.map_cons, named, ih tail]
      · exact ih tail

structure Steady (nfc : String → String)
    (world : RepoWorld) (registryRoot : List Char) (rootRepoId : String)
    (registrations : List RepoRegistration) (listed : List Listed) : Prop where
  parents : parentsFound nfc registryRoot rootRepoId (registerAll nfc registryRoot rootRepoId
    registrations listed) listed = parentsFound nfc registryRoot rootRepoId registrations listed
  missing : missingWarnings world (registerAll nfc registryRoot rootRepoId registrations listed) =
    missingWarnings world registrations

instance : Std.Total fun left right : RepoDependency => left.repoId ≤ right.repoId :=
  ⟨fun left right => le_total left.repoId right.repoId⟩

instance : IsTrans RepoDependency fun left right => left.repoId ≤ right.repoId :=
  ⟨fun _ _ _ early late => early.trans late⟩

private theorem withChildren_twice (children : List String) (entry : RepoRegistration) :
    withChildren children (withChildren children entry) = withChildren children entry := by
  unfold withChildren
  have known : (children.filter fun child => decide (child ∉ ((entry.dependencies ++
      (children.filter fun child => child ∉ entry.dependencies.map RepoDependency.repoId).map
        fun child => RepoDependency.mk child (some "submodule")).insertionSort
          fun left right => left.repoId ≤ right.repoId).map RepoDependency.repoId)) = [] := by
    refine List.filter_eq_nil_iff.mpr fun child mem => ?_
    rw [decide_eq_true_eq, not_not, List.mem_map]
    by_cases old : child ∈ entry.dependencies.map RepoDependency.repoId
    · obtain ⟨dependency, inside, same⟩ := List.mem_map.mp old
      exact ⟨dependency, (List.mem_insertionSort _).mpr (List.mem_append_left _ inside), same⟩
    · refine ⟨⟨child, some "submodule"⟩, (List.mem_insertionSort _).mpr
        (List.mem_append_right _ (List.mem_map.mpr ⟨child, ?_, rfl⟩)), rfl⟩
      exact List.mem_filter.mpr ⟨mem, decide_eq_true old⟩
  simp only [known, List.map_nil, List.append_nil]
  rw [(List.pairwise_insertionSort _ _).insertionSort_eq]

private theorem linked_twice (links : List (String × String)) (entry : RepoRegistration) :
    linked links (linked links entry) = linked links entry := by
  by_cases parent : entry.repoId ∈ links.map Prod.fst
  · have once : linked links entry = withChildren (childrenOf links entry.repoId) entry := by
      unfold linked
      exact if_pos parent
    rw [once]
    unfold linked
    exact (if_pos parent).trans (withChildren_twice _ _)
  · have once : linked links entry = entry := by
      unfold linked
      exact if_neg parent
    rw [once, once]

theorem rootExists_row {other : RepoRegistration} (same : row entry = row other) :
    rootExists world entry = rootExists world other := by
  have roots : entry.root = other.root := congrArg Row.root same
  unfold rootExists
  rw [roots]

private theorem refresh_twice (entry : RepoRegistration) :
    refresh world (refresh world entry) = refresh world entry := by
  have present : rootExists world (refresh world entry) = rootExists world entry := rootExists_row (refresh_row entry)
  cases held : rootExists world entry with
  | true => rw [refresh_of_exists (present.trans held), refresh_of_exists held]
  | false => rw [refresh_of_missing (present.trans held), refresh_of_missing held]

private theorem refresh_linked (links : List (String × String)) (entry : RepoRegistration) :
    refresh world (linked links entry) = linked links (refresh world entry) := by
  have present : rootExists world (linked links entry) = rootExists world entry := rootExists_row (linked_row links entry)
  by_cases parent : entry.repoId ∈ links.map Prod.fst
  · have once : linked links entry = withChildren (childrenOf links entry.repoId) entry := by
      unfold linked
      exact if_pos parent
    have again : linked links (refresh world entry) = withChildren (childrenOf links entry.repoId) (refresh world entry) := by
      unfold linked
      rw [refresh_repoId, if_pos parent]
    rw [again]
    unfold refresh
    rw [present, once]
    split
    all_goals rfl
  · have once : linked links entry = entry := by
      unfold linked
      exact if_neg parent
    rw [once]
    unfold linked
    rw [refresh_repoId, if_neg parent]

private theorem discovered_twice (settled : Settled registrations)
    (steady : Steady nfc world registryRoot rootRepoId registrations listed) :
    discovered nfc registryRoot rootRepoId ((discovered nfc registryRoot rootRepoId
      (registrations.map (refresh world)) listed).map (refresh world)) listed =
      discovered nfc registryRoot rootRepoId (registrations.map (refresh world)) listed := by
  have early : Settled (registrations.map (refresh world)) := settled_refresh settled
  have first : Settled (discovered nfc registryRoot rootRepoId (registrations.map (refresh world))
    listed) := settled_discovered early listed
  have rows : SameRows
    ((discovered nfc registryRoot rootRepoId (registrations.map (refresh world)) listed).map
    (refresh world)) (registerAll nfc registryRoot rootRepoId registrations listed) := by
    refine (sameRows_map refresh_row _).trans ?_
    refine (sameRows_map (linked_row _) _).trans ?_
    exact (sameRows_map refresh_row registrations).registerAll listed
  have parents : parentsFound nfc registryRoot rootRepoId ((discovered nfc registryRoot rootRepoId
      (registrations.map (refresh world)) listed).map (refresh world)) listed =
        parentsFound nfc registryRoot rootRepoId (registrations.map (refresh world)) listed := by
    rw [rows.parentsFound, steady.parents]
    exact ((sameRows_map refresh_row registrations).parentsFound listed).symm
  refine (settled_discovered (settled_refresh first) listed).eq first fun repoId => ?_
  rw [registered_discovered _ _ _ _ (settled_refresh first)]
  unfold listedEntries listedLinks
  rw [parents]
  have before := registered_discovered nfc registryRoot rootRepoId listed early repoId
  unfold listedEntries listedLinks at before
  have after : registered ((discovered nfc registryRoot rootRepoId
    (registrations.map (refresh world)) listed).map (refresh world)) repoId =
        (registered (discovered nfc registryRoot rootRepoId (registrations.map (refresh world))
          listed) repoId).map (refresh world) := lookup_map refresh_repoId
  rw [after, before]
  generalize linksUnder rootRepoId (parentsFound nfc registryRoot rootRepoId
    (registrations.map (refresh world)) listed) listed = links
  have old : registered (registrations.map (refresh world)) repoId =
    (registered registrations repoId).map (refresh world) := lookup_map refresh_repoId
  rw [old]
  cases registered (entriesUnder rootRepoId (parentsFound nfc registryRoot rootRepoId
    (registrations.map (refresh world)) listed) listed).reverse repoId with
  | some entry => rfl
  | none =>
    cases registered registrations repoId with
    | none => rfl
    | some entry =>
      simp only [Option.none_or, Option.map_some]
      rw [refresh_linked, refresh_twice, linked_twice]

theorem synced_twice (settled : Settled registry.registrations) (steady :
    Steady nfc world registryRoot registry.rootRepoId registry.registrations (listedOf readings)) :
    synced nfc world registryRoot (synced nfc world registryRoot registry readings) readings =
      synced nfc world registryRoot registry readings := by
  have rows : SameRows (discovered nfc registryRoot registry.rootRepoId
    (registry.registrations.map (refresh world)) (listedOf readings))
        (registerAll nfc registryRoot registry.rootRepoId registry.registrations (listedOf readings)) := by
    refine (sameRows_map (linked_row _) _).trans ?_
    exact (sameRows_map refresh_row registry.registrations).registerAll _
  have warned : missingWarnings world (discovered nfc registryRoot registry.rootRepoId
    (registry.registrations.map (refresh world)) (listedOf readings)) =
        missingWarnings world registry.registrations := rows.missingWarnings.trans steady.missing
  have entries := discovered_twice settled steady
  unfold missingWarnings at warned
  unfold synced
  dsimp only
  rw [entries, warned]

end
end Atlas.Repo
