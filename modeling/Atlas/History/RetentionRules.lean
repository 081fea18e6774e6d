import Atlas.History.Retention

/-! The rules in their own terms, with ages counted in unbounded numbers, and the prune that
applies them with 64-bit arithmetic. The two agree except on snapshots whose age lies
between the promised cutoff and the one that the arithmetic arrives at. -/
namespace Atlas.History
open List Sql

variable {days : Nat} {time : Int} {snapshot : StoredSnapshot}

/-- The times inside the promised window that lie before the computed cutoff. From `2^63`
days on the cutoff is in the future. -/
def MissedByAge (now : Int) (days : Nat) (time : Int) : Prop := now - days * 86400 ≤ time ∧
    if days < 2 ^ 63 then time < now - (2 ^ 63 - 1)
    else time < min (2 ^ 63 - 1) (now + min (2 ^ 63) ((2 ^ 64 - (days : Int)) * 86400))

theorem castI64_of_lt (small : days < 2 ^ 63) : castI64 days = days := by
  unfold castI64
  rw [Int.bmod_def]
  omega

theorem castI64_of_le (large : 2 ^ 63 ≤ days) (bound : days < 2 ^ 64) :
    castI64 days = days - 2 ^ 64 := by
  unfold castI64
  rw [Int.bmod_def]
  omega

variable {now : Int}

theorem ageCutoff_le_iff (clock : FitsI64 now) (stored : FitsI64 time) (bound : days < 2 ^ 64) :
    ageCutoff now days ≤ time ↔ now - days * 86400 ≤ time ∧ ¬ MissedByAge now days time := by
  unfold FitsI64 i64Min i64Max at clock stored
  unfold MissedByAge ageCutoff saturate i64Min i64Max
  by_cases small : days < 2 ^ 63
  · rw [castI64_of_lt small, if_pos small]
    omega
  · rw [castI64_of_le (by omega) bound, if_neg small]
    omega

theorem not_missedByAge (small : days ≤ 106751991167300) : ¬ MissedByAge now days time := by
  unfold MissedByAge
  rw [if_pos (by omega)]
  omega

/-- A repository at the moment of a prune. The keys are those of the tables, times are
stored in 64 bits, and the clock is read into 64 bits. -/
structure RetentionCase where
  db : Db
  canonicalRoot : String
  repoId : Nat
  listTagRefs : Except String (List String)
  now : Int
  registered : findRepoId db canonicalRoot = some repoId
  commitKeys : (db.commits.map StoredCommit.key).Nodup
  snapshotIds : (snapshotIds db).Nodup
  snapshotKeys : (db.graphSnapshots.map StoredSnapshot.key).Nodup
  times : ∀ commit ∈ db.commits, FitsI64 commit.authorTime
  clock : FitsI64 now

namespace RetentionCase

variable (world : RetentionCase)

def ordered : List StoredSnapshot := listSnapshotsOrdered world.db world.repoId
def commitOf (commitSha : String) : Option StoredCommit :=
  (listCommits world.db world.repoId).find? fun commit => decide (commit.commitSha = commitSha)
def authorTime (snapshot : StoredSnapshot) : Option Int :=
  (world.commitOf snapshot.commitSha).map StoredCommit.authorTime
def prune (policy : HistoryRetentionPolicy) : Except String HistoryPruneSummary × Db :=
  pruneHistoricalGraph (fun _ => none) world.listTagRefs world.now world.canonicalRoot policy world.db

def Kept (policy : HistoryRetentionPolicy) (snapshot : StoredSnapshot) : Prop :=
  snapshot ∈ (world.prune policy).2.graphSnapshots

inductive SelectedOtherwise (policy : HistoryRetentionPolicy)
    (snapshot : StoredSnapshot) : Prop where
  | all : policy.keepAll = true → SelectedOtherwise policy snapshot
  | latest {count : Nat} : policy.keepLatest = some count →
    snapshot ∈ world.ordered.reverse.take count → SelectedOtherwise policy snapshot
  | tagged {tags : List String} : policy.keepTaggedOnly = true →
    world.listTagRefs = .ok tags → snapshot.commitSha ∈ tags → SelectedOtherwise policy snapshot
  | weekly {before after : List StoredSnapshot} : policy.keepWeekly = true → world.ordered = before ++ snapshot :: after →
      (∀ later ∈ after, (world.authorTime later).map weekOf ≠
        (world.authorTime snapshot).map weekOf) → SelectedOtherwise policy snapshot

/-- Some rule of the policy selects the snapshot. -/
inductive Selected (policy : HistoryRetentionPolicy) (snapshot : StoredSnapshot) : Prop where
  | otherwise : world.SelectedOtherwise policy snapshot → Selected policy snapshot
  | recent {days : Nat} {time : Int} : policy.olderThanDays = some days → world.authorTime
    snapshot = some time → world.now - days * 86400 ≤ time → Selected policy snapshot

/-- A prune that is not refused keeps what the rules select and deletes the rest. -/
def Exact (policy : HistoryRetentionPolicy) : Prop :=
  (∃ summary, (world.prune policy).1 = .ok summary) →
    ∀ snapshot ∈ world.ordered, world.Kept policy snapshot ↔ world.Selected policy snapshot

end RetentionCase

/-- The larger policy has every rule of the other, no narrower. -/
structure HistoryRetentionPolicy.Extends (larger policy : HistoryRetentionPolicy) : Prop where
  keepAll : policy.keepAll = true → larger.keepAll = true
  keepLatest : ∀ count, policy.keepLatest = some count → ∃ more, larger.keepLatest = some more ∧ count ≤ more
  olderThanDays : ∀ days, policy.olderThanDays = some days → ∃ more, larger.olderThanDays = some more ∧ days ≤ more
  keepTaggedOnly : policy.keepTaggedOnly = true → larger.keepTaggedOnly = true
  keepWeekly : policy.keepWeekly = true → larger.keepWeekly = true

/-- The number of days is a `u64`. -/
def HistoryRetentionPolicy.Typed (policy : HistoryRetentionPolicy) : Prop :=
  ∀ days, policy.olderThanDays = some days → days < 2 ^ 64

namespace RetentionCase

variable {world : RetentionCase} {policy larger : HistoryRetentionPolicy}

theorem Selected.extend (extension : larger.Extends policy)
    (selected : world.Selected policy snapshot) : world.Selected larger snapshot := by
  cases selected with
  | otherwise other =>
    cases other with
    | all keepAll => exact .otherwise (.all (extension.keepAll keepAll))
    | latest keepLatest among =>
      obtain ⟨more, set, bound⟩ := extension.keepLatest _ keepLatest
      exact .otherwise (.latest set ((take_subset_take_left _ bound) among))
    | tagged only listed among => exact .otherwise (.tagged (extension.keepTaggedOnly only) listed among)
    | weekly keepWeekly split last => exact .otherwise (.weekly (extension.keepWeekly keepWeekly) split last)
  | recent set stored within =>
    obtain ⟨more, raised, bound⟩ := extension.olderThanDays _ set
    exact .recent raised stored (by omega)

variable {db : Db} {repoId : Nat} {commit : StoredCommit} {sha : String}

theorem mem_listSnapshotsOrdered : snapshot ∈ listSnapshotsOrdered db repoId ↔
    snapshot ∈ db.graphSnapshots ∧ snapshot.repoId = repoId ∧
        ∃ commit ∈ db.commits, commit.repoId = repoId ∧ commit.commitSha = snapshot.commitSha := by
  unfold listSnapshotsOrdered
  simp only [mem_map, mem_insertionSort, mem_flatMap, mem_filter, decide_eq_true_eq, Prod.exists]
  constructor
  · rintro ⟨other, time, ⟨stored, ⟨inside, same⟩, commit, ⟨mem, repo, sha⟩, pair⟩, rfl⟩
    cases pair
    exact ⟨inside, same, commit, mem, repo.trans same, sha⟩
  · rintro ⟨inside, same, commit, mem, repo, sha⟩
    exact ⟨snapshot, commit.authorTime, ⟨snapshot, ⟨inside, same⟩, commit, ⟨mem, repo.trans same.symm, sha⟩, rfl⟩, rfl⟩

theorem mem_listCommits :
    commit ∈ listCommits db repoId ↔ commit ∈ db.commits ∧ commit.repoId = repoId := by
  unfold listCommits
  rw [mem_insertionSort, mem_filter, decide_eq_true_eq]

theorem commitOf_eq_some_iff : world.commitOf sha = some commit ↔
    commit ∈ listCommits world.db world.repoId ∧ commit.commitSha = sha := by
  unfold commitOf
  constructor
  · intro found
    have same := find?_some found
    rw [decide_eq_true_eq] at same
    exact ⟨mem_of_find?_eq_some found, same⟩
  · rintro ⟨mem, same⟩
    cases found : (listCommits world.db world.repoId).find? fun commit => decide (commit.commitSha = sha) with
    | none =>
      have absent := find?_eq_none.mp found commit mem
      rw [decide_eq_true_eq] at absent
      exact absurd same absent
    | some other =>
      have otherSha := find?_some found
      rw [decide_eq_true_eq] at otherSha
      have otherMem := mem_listCommits.mp (mem_of_find?_eq_some found)
      have stored := mem_listCommits.mp mem
      have key : other.key = commit.key := by
        unfold StoredCommit.key
        rw [otherSha, same, otherMem.2, stored.2]
      exact congrArg some (inj_on_of_nodup_map world.commitKeys otherMem.1 stored.1 key)

theorem authorTime_of_mem (mem : snapshot ∈ world.ordered) :
    ∃ commit, world.commitOf snapshot.commitSha = some commit := by
  obtain ⟨_, _, commit, stored, repo, sha⟩ := mem_listSnapshotsOrdered.mp mem
  exact ⟨commit, commitOf_eq_some_iff.mpr ⟨mem_listCommits.mpr ⟨stored, repo⟩, sha⟩⟩

theorem sha_injective {left right : StoredSnapshot} (leftMem : left ∈ world.ordered)
    (rightMem : right ∈ world.ordered) (same : left.commitSha = right.commitSha) :
    left = right := by
  obtain ⟨leftStored, leftRepo, _⟩ := mem_listSnapshotsOrdered.mp leftMem
  obtain ⟨rightStored, rightRepo, _⟩ := mem_listSnapshotsOrdered.mp rightMem
  refine inj_on_of_nodup_map world.snapshotKeys leftStored rightStored ?_
  unfold StoredSnapshot.key
  rw [leftRepo, rightRepo, same]

/-! ## Rules and the code that applies them -/

theorem mem_keptLatest (mem : snapshot ∈ world.ordered) :
    snapshot.commitSha ∈ keptLatest policy world.ordered ↔
      ∃ count, policy.keepLatest = some count ∧ snapshot ∈ world.ordered.reverse.take count := by
  unfold keptLatest
  cases policy.keepLatest with
  | none => simp
  | some count =>
    simp only [mem_map, Option.some.injEq, exists_eq_left']
    constructor
    · rintro ⟨other, among, same⟩
      have otherMem := mem_reverse.mp (mem_of_mem_take among)
      exact sha_injective otherMem mem same ▸ among
    · intro among
      exact ⟨snapshot, among, rfl⟩

theorem mem_keptRecent (mem : snapshot ∈ world.ordered) :
    snapshot.commitSha ∈ keptRecent policy world.now (listCommits world.db world.repoId) ↔
      ∃ days time, policy.olderThanDays = some days ∧
        world.authorTime snapshot = some time ∧ ageCutoff world.now days ≤ time := by
  unfold keptRecent
  cases policy.olderThanDays with
  | none => simp
  | some days =>
    simp only [mem_map, mem_filter, decide_eq_true_eq, Option.some.injEq]
    constructor
    · rintro ⟨commit, ⟨listed, within⟩, same⟩
      have found := commitOf_eq_some_iff.mpr ⟨listed, same⟩
      exact ⟨days, commit.authorTime, rfl, by rw [authorTime, found]; rfl, within⟩
    · rintro ⟨_, time, rfl, stored, within⟩
      obtain ⟨commit, found⟩ := authorTime_of_mem mem
      rw [authorTime, found] at stored
      cases stored
      obtain ⟨listed, same⟩ := commitOf_eq_some_iff.mp found
      exact ⟨commit, ⟨listed, within⟩, same⟩

def replaceWeek (found : Option StoredCommit) (sha : String) (latest : List (Int × String)) :
    List (Int × String) :=
  match found with
  | none => latest
  | some commit =>
    latest.filter (fun entry => decide (entry.1 ≠ weekOf commit.authorTime)) ++ [(weekOf commit.authorTime, sha)]

theorem mem_latestPerWeek {week : Int} (snapshots : List StoredSnapshot) :
    (week, sha) ∈ latestPerWeek (listCommits world.db world.repoId) snapshots ↔
      ∃ before snapshot after, snapshots = before ++ snapshot :: after ∧
        snapshot.commitSha = sha ∧ (world.authorTime snapshot).map weekOf = some week ∧
        ∀ later ∈ after, (world.authorTime later).map weekOf ≠ some week := by
  induction snapshots using reverseRecOn with
  | nil => simp [latestPerWeek]
  | append_singleton snapshots last ih =>
    have step : latestPerWeek (listCommits world.db world.repoId) (snapshots ++ [last]) =
        replaceWeek (world.commitOf last.commitSha) last.commitSha
          (latestPerWeek (listCommits world.db world.repoId) snapshots) := by
      unfold latestPerWeek
      rw [foldl_concat]
      rfl
    have timed : (world.authorTime last).map weekOf =
      (world.commitOf last.commitSha).map fun commit => weekOf commit.authorTime := by
      rw [authorTime, Option.map_map]
      rfl
    -- Either the entry is the new one, or it is an old one of another week.
    have split : (∃ before snapshot after, snapshots ++ [last] = before ++ snapshot :: after ∧
      snapshot.commitSha = sha ∧ (world.authorTime snapshot).map weekOf = some week ∧
        ∀ later ∈ after, (world.authorTime later).map weekOf ≠ some week) ↔
        (last.commitSha = sha ∧ (world.authorTime last).map weekOf = some week) ∨
          ((week, sha) ∈ latestPerWeek (listCommits world.db world.repoId) snapshots ∧
            (world.authorTime last).map weekOf ≠ some week) := by
      rw [ih]
      constructor
      · rintro ⟨before, snapshot, after, whole, same, ofWeek, later⟩
        obtain rfl | ⟨front, final, rfl⟩ := eq_nil_or_concat after
        · obtain ⟨_, lastSame⟩ := append_inj' whole rfl
          cases singleton_injective lastSame
          exact .inl ⟨same, ofWeek⟩
        · rw [concat_eq_append, ← cons_append, ← append_assoc] at whole
          obtain ⟨rest, lastSame⟩ := append_inj' whole rfl
          cases singleton_injective lastSame
          rw [concat_eq_append] at later
          exact .inr ⟨⟨before, snapshot, front, rest, same, ofWeek, fun other inside =>
            later other (mem_append_left _ inside)⟩, later last (mem_append_right _ (.head _))⟩
      · rintro (⟨same, ofWeek⟩ | ⟨⟨before, snapshot, after, rfl, same, ofWeek, later⟩, other⟩)
        · exact ⟨snapshots, last, [], rfl, same, ofWeek, nofun⟩
        · refine ⟨before, snapshot, after ++ [last], by simp, same, ofWeek, ?_⟩
          intro candidate inside
          obtain inside | inside := mem_append.mp inside
          · exact later candidate inside
          · rw [mem_singleton.mp inside]
            exact other
    rw [split, step, timed]
    unfold replaceWeek
    cases world.commitOf last.commitSha with
    | none => simp
    | some commit =>
      simp only [mem_append, mem_filter, decide_eq_true_eq, mem_singleton, Prod.mk.injEq,
        Option.map_some, Option.some.injEq, ne_eq]
      constructor
      · rintro (⟨old, other⟩ | ⟨rfl, rfl⟩)
        · exact .inr ⟨old, fun same => other same.symm⟩
        · exact .inl ⟨rfl, rfl⟩
      · rintro (⟨rfl, rfl⟩ | ⟨old, other⟩)
        · exact .inr ⟨rfl, rfl⟩
        · exact .inl ⟨old, fun same => other same.symm⟩

theorem mem_keptWeekly (mem : snapshot ∈ world.ordered) :
    snapshot.commitSha ∈ keptWeekly policy (listCommits world.db world.repoId) world.ordered ↔
      policy.keepWeekly = true ∧
        ∃ before after, world.ordered = before ++ snapshot :: after ∧ ∀ later ∈ after,
        (world.authorTime later).map weekOf ≠ (world.authorTime snapshot).map weekOf := by
  unfold keptWeekly
  cases policy.keepWeekly with
  | false => simp
  | true =>
    simp only [if_true, mem_map, Prod.exists, exists_eq_right, true_and]
    constructor
    · rintro ⟨week, entry⟩
      obtain ⟨before, other, after, whole, same, ofWeek, later⟩ := (mem_latestPerWeek world.ordered).mp entry
      have otherMem : other ∈ world.ordered := whole ▸ mem_append_right _ (.head _)
      cases sha_injective otherMem mem same
      exact ⟨before, after, whole, ofWeek.symm ▸ later⟩
    · rintro ⟨before, after, whole, later⟩
      obtain ⟨commit, found⟩ := authorTime_of_mem mem
      have ofWeek : (world.authorTime snapshot).map weekOf = some (weekOf commit.authorTime) := by
        rw [authorTime, found]
        rfl
      rw [ofWeek] at later
      exact ⟨_, (mem_latestPerWeek world.ordered).mpr ⟨before, snapshot, after, whole, rfl, ofWeek, later⟩⟩

variable (world) in
def TagsListed (policy : HistoryRetentionPolicy) : Prop :=
  policy.keepAll = false → policy.keepTaggedOnly = true → ∃ tags, world.listTagRefs = .ok tags

theorem prune_cases {snapshot : StoredSnapshot} (mem : snapshot ∈ world.ordered) :
    (policy.keepAll = true ∧ (world.prune policy).2 = world.db) ∨
      ((∃ message, (world.prune policy).1 = .error message) ∧ (world.prune policy).2 = world.db ∧
        (world.TagsListed policy → policy.olderThanDays = none)) ∨
      (policy.keepAll = false ∧ (∃ summary, (world.prune policy).1 = .ok summary) ∧
        ∃ tags, (policy.keepTaggedOnly = true → world.listTagRefs = .ok tags) ∧ (policy.keepTaggedOnly = false → tags = []) ∧
          (world.Kept policy snapshot ↔ snapshot.commitSha ∈ keptLatest policy world.ordered ++
            keptRecent policy world.now (listCommits world.db world.repoId) ++ tags ++
                keptWeekly policy (listCommits world.db world.repoId) world.ordered)) := by
  obtain ⟨commit, found⟩ := authorTime_of_mem mem
  have someCommit : listCommits world.db world.repoId ≠ [] := ne_nil_of_mem (commitOf_eq_some_iff.mp found).1
  have someSnapshot : listSnapshotsOrdered world.db world.repoId ≠ [] := ne_nil_of_mem mem
  have present : ¬ (listCommits world.db world.repoId = [] ∨ listSnapshotsOrdered world.db world.repoId = []) := by
    rintro (none | none)
    · exact someCommit none
    · exact someSnapshot none
  unfold Kept prune pruneHistoricalGraph
  simp only [world.registered]
  rw [if_neg present]
  by_cases nothing : policy.keepAll = false ∧ policy.keepLatest = none ∧
    policy.olderThanDays = none ∧ policy.keepTaggedOnly = false ∧ policy.keepWeekly = false
  · rw [if_pos nothing]
    obtain ⟨_, _, days, _⟩ := nothing
    exact .inr (.inl ⟨⟨_, rfl⟩, rfl, fun _ => days⟩)
  · rw [if_neg nothing]
    by_cases all : policy.keepAll = true
    · rw [if_pos all]
      exact .inl ⟨all, rfl⟩
    · rw [if_neg all]
      rw [Bool.not_eq_true] at all
      cases listed : (if policy.keepTaggedOnly = true then
          withContext "list tag refs for history prune" world.listTagRefs
        else (.ok [] : Except String (List String))) with
      | error message =>
        refine .inr (.inl ⟨⟨message, rfl⟩, rfl, fun answers => ?_⟩)
        by_cases only : policy.keepTaggedOnly = true
        · obtain ⟨tags, answered⟩ := answers all only
          rw [if_pos only, answered] at listed
          cases listed
        · rw [if_neg only] at listed
          cases listed
      | ok tags =>
        refine .inr (.inr ⟨all, ⟨_, rfl⟩, tags, ?_, ?_, ?_⟩)
        · intro only
          rw [if_pos only] at listed
          cases asked : world.listTagRefs with
          | error message =>
            rw [asked] at listed
            cases listed
          | ok answered =>
            rw [asked] at listed
            cases listed
            rfl
        · intro only
          rw [only, if_neg Bool.false_ne_true] at listed
          cases listed
          rfl
        · obtain ⟨stored, _⟩ := mem_listSnapshotsOrdered.mp mem
          change snapshot ∈ deleteWhere _ world.db.graphSnapshots ↔ _
          rw [mem_deleteWhere, decide_eq_false_iff_not]
          constructor
          · rintro ⟨_, kept⟩
            by_contra lost
            exact kept (mem_map.mpr ⟨snapshot, mem_filter.mpr ⟨mem, decide_eq_true lost⟩, rfl⟩)
          · intro selected
            refine ⟨stored, fun deleted => ?_⟩
            obtain ⟨other, among, same⟩ := mem_map.mp deleted
            obtain ⟨otherMem, lost⟩ := mem_filter.mp among
            have otherStored := (mem_listSnapshotsOrdered.mp otherMem).1
            cases inj_on_of_nodup_map world.snapshotIds otherStored stored same
            exact of_decide_eq_true lost selected

theorem selectedOtherwise_iff (mem : snapshot ∈ world.ordered) (notAll : policy.keepAll = false)
    {tags : List String} (answered : policy.keepTaggedOnly = true → world.listTagRefs = .ok tags)
    (unasked : policy.keepTaggedOnly = false → tags = []) :
    world.SelectedOtherwise policy snapshot ↔ snapshot.commitSha ∈ keptLatest policy world.ordered ∨ snapshot.commitSha ∈ tags ∨
        snapshot.commitSha ∈ keptWeekly policy (listCommits world.db world.repoId) world.ordered := by
  rw [mem_keptLatest mem, mem_keptWeekly mem]
  constructor
  · intro selected
    cases selected with
    | all keepAll =>
      rw [keepAll] at notAll
      cases notAll
    | latest set among => exact .inl ⟨_, set, among⟩
    | tagged only listed among =>
      rw [answered only] at listed
      cases listed
      exact .inr (.inl among)
    | weekly only whole last => exact .inr (.inr ⟨only, _, _, whole, last⟩)
  · rintro (⟨count, set, among⟩ | among | ⟨only, before, after, whole, last⟩)
    · exact .latest set among
    · cases only : policy.keepTaggedOnly with
      | true => exact .tagged only (answered only) among
      | false =>
        rw [unasked only] at among
        cases among
    · exact .weekly only whole last

variable (world) in
/-- Every snapshot that the computed cutoff misses is selected by another rule. -/
def Covered (policy : HistoryRetentionPolicy) : Prop :=
  world.TagsListed policy → ∀ snapshot ∈ world.ordered, ∀ days time,
    policy.olderThanDays = some days → world.authorTime snapshot = some time →
      MissedByAge world.now days time → world.SelectedOtherwise policy snapshot

theorem authorTime_fits (stored : world.authorTime snapshot = some time) : FitsI64 time := by
  obtain ⟨commit, found, rfl⟩ := Option.map_eq_some_iff.mp stored
  exact world.times commit (mem_listCommits.mp (commitOf_eq_some_iff.mp found).1).1

theorem exact_iff_covered (typed : policy.Typed) : world.Exact policy ↔ world.Covered policy := by
  constructor
  · intro exactly answers snapshot mem days time set stored missed
    obtain ⟨all, _⟩ | ⟨_, _, refused⟩ | ⟨notAll, succeeds, tags, answered, unasked, kept⟩ := @prune_cases world policy _ mem
    · exact .all all
    · rw [refused answers] at set
      cases set
    · have within : world.Kept policy snapshot := (exactly succeeds snapshot mem).mpr (.recent set stored missed.1)
      rw [selectedOtherwise_iff mem notAll answered unasked]
      obtain ((latest | recent) | tagged) | weekly := by simpa only [mem_append] using kept.mp within
      · exact .inl latest
      · obtain ⟨_, _, same, sameTime, cutoff⟩ := (mem_keptRecent mem).mp recent
        rw [set] at same
        rw [stored] at sameTime
        cases same
        cases sameTime
        exact absurd missed ((ageCutoff_le_iff world.clock (authorTime_fits stored) (typed _ set)).mp cutoff).2
      · exact .inr (.inl tagged)
      · exact .inr (.inr weekly)
  · intro covered succeeds snapshot mem
    obtain ⟨all, same⟩ | ⟨⟨message, failed⟩, _⟩ | ⟨notAll, _, tags, answered, unasked, kept⟩ := @prune_cases world policy _ mem
    · refine iff_of_true ?_ (.otherwise (.all all))
      unfold Kept
      rw [same]
      exact (mem_listSnapshotsOrdered.mp mem).1
    · obtain ⟨summary, passed⟩ := succeeds
      rw [failed] at passed
      cases passed
    · have others := selectedOtherwise_iff mem notAll answered unasked
      rw [kept]
      simp only [mem_append]
      constructor
      · rintro (((latest | recent) | tagged) | weekly)
        · exact .otherwise (others.mpr (.inl latest))
        · obtain ⟨days, time, set, stored, cutoff⟩ := (mem_keptRecent mem).mp recent
          exact .recent set stored ((ageCutoff_le_iff world.clock (authorTime_fits stored) (typed _ set)).mp cutoff).1
        · exact .otherwise (others.mpr (.inr (.inl tagged)))
        · exact .otherwise (others.mpr (.inr (.inr weekly)))
      · have fromOthers : world.SelectedOtherwise policy snapshot →
          ((snapshot.commitSha ∈ keptLatest policy world.ordered ∨ snapshot.commitSha ∈
              keptRecent policy world.now (listCommits world.db world.repoId)) ∨ snapshot.commitSha ∈ tags) ∨ snapshot.commitSha ∈
                  keptWeekly policy (listCommits world.db world.repoId) world.ordered := by
          intro selected
          obtain latest | tagged | weekly := others.mp selected
          · exact .inl (.inl (.inl latest))
          · exact .inl (.inr tagged)
          · exact .inr weekly
        intro selected
        cases selected with
        | otherwise selected => exact fromOthers selected
        | @recent days time set stored within =>
          by_cases missed : MissedByAge world.now days time
          · have answers : world.TagsListed policy := fun _ only => ⟨tags, answered only⟩
            exact fromOthers (covered answers snapshot mem days time set stored missed)
          · exact .inl
              (.inl (.inr ((mem_keptRecent mem).mpr ⟨days, time, set, stored, (ageCutoff_le_iff
              world.clock (authorTime_fits stored) (typed _ set)).mpr ⟨within, missed⟩⟩)))

theorem kept_or_ok {snapshot : StoredSnapshot} (mem : snapshot ∈ world.ordered) :
    world.Kept policy snapshot ∨ ∃ summary, (world.prune policy).1 = .ok summary := by
  have stored := (mem_listSnapshotsOrdered.mp mem).1
  obtain ⟨_, same⟩ | ⟨_, same, _⟩ | ⟨_, succeeds, _⟩ := @prune_cases world policy _ mem
  · exact .inl (by rw [Kept, same]; exact stored)
  · exact .inl (by rw [Kept, same]; exact stored)
  · exact .inr succeeds

variable (world) in
def Promises (policy larger : HistoryRetentionPolicy) : Prop :=
  world.Exact policy ∧ world.Exact larger ∧
    (larger.Extends policy → (∃ summary, (world.prune policy).1 = .ok summary) →
      ∀ snapshot ∈ world.ordered, world.Kept policy snapshot → world.Kept larger snapshot)

/-- Retention keeps its promises exactly when the 64-bit cutoffs miss no snapshot that
nothing else selects. -/
theorem promises_iff_covered (world : RetentionCase)
    {policy larger : HistoryRetentionPolicy} (typed : policy.Typed) (typedLarger : larger.Typed) :
    world.Promises policy larger ↔ world.Covered policy ∧ world.Covered larger := by
  constructor
  · rintro ⟨exactly, exactLarger, _⟩
    exact ⟨(exact_iff_covered typed).mp exactly, (exact_iff_covered typedLarger).mp exactLarger⟩
  · rintro ⟨covered, coveredLarger⟩
    have exactly := (exact_iff_covered typed).mpr covered
    have exactLarger := (exact_iff_covered typedLarger).mpr coveredLarger
    refine ⟨exactly, exactLarger, fun extension succeeds snapshot mem kept => ?_⟩
    obtain keptLarger | succeedsLarger := @kept_or_ok world larger _ mem
    · exact keptLarger
    · have selected := (exactly succeeds snapshot mem).mp kept
      exact (exactLarger succeedsLarger snapshot mem).mpr (selected.extend extension)

def recentCommit : StoredCommit where
  commitSha := "c"
  repoId := 1
  parentSha := none
  indexedRef := none
  authorName := none
  authorEmail := none
  authorTime := 90
  committerTime := 90
  subject := "s"
  message := none

def recentSnapshot : StoredSnapshot where
  snapshotId := 1
  repoId := 1
  commitSha := "c"
  rootTreeHash := none
  nodeCount := 0
  edgeCount := 0
  fileCount := 0
  parseErrorCount := 0

def recentWorld : RetentionCase where
  db := { repos := [⟨1, "/repo"⟩], commits := [recentCommit], graphSnapshots := [recentSnapshot] }
  canonicalRoot := "/repo"
  repoId := 1
  listTagRefs := .ok []
  now := 100
  registered := by decide
  commitKeys := nodup_singleton _
  snapshotIds := nodup_singleton _
  snapshotKeys := nodup_singleton _
  times := by
    intro commit mem
    rw [mem_singleton.mp mem]
    decide
  clock := by decide

def keepDays (days : Nat) : HistoryRetentionPolicy where
  olderThanDays := some days

theorem keepDays_typed (bound : days < 2 ^ 64) : (keepDays days).Typed := by
  intro count set
  cases set
  exact bound

theorem promises_iff_covered_days : recentWorld.Promises (keepDays 1) (keepDays 2) := by
  have covered : ∀ days : Nat, days ≤ 2 → recentWorld.Covered (keepDays days) := by
    intro days few _ snapshot _ count time set _ missed
    cases set
    exact absurd missed (not_missedByAge (by omega))
  exact (promises_iff_covered recentWorld (keepDays_typed (by decide))
    (keepDays_typed (by decide))).mpr ⟨covered 1 (by decide), covered 2 (by decide)⟩

/-- With `2^63` days the cutoff lies in the future, so a snapshot from ten seconds ago is
deleted that a policy of one day keeps. -/
theorem prune_loses_recent :
    recentWorld.Kept (keepDays 1) recentSnapshot ∧ ¬ recentWorld.Kept (keepDays (2 ^ 63))
      recentSnapshot ∧ ¬ recentWorld.Promises (keepDays 1) (keepDays (2 ^ 63)) := by
  have mem : recentSnapshot ∈ recentWorld.ordered := mem_listSnapshotsOrdered.mpr
    ⟨mem_singleton_self _, rfl, recentCommit, mem_singleton_self _, rfl, rfl⟩
  have found : recentWorld.commitOf recentSnapshot.commitSha = some recentCommit :=
    commitOf_eq_some_iff.mpr ⟨mem_listCommits.mpr ⟨mem_singleton_self _, rfl⟩, rfl⟩
  have stored : recentWorld.authorTime recentSnapshot = some 90 := by
    rw [authorTime, found]
    rfl
  have kept : ∀ days : Nat, recentWorld.Kept (keepDays days) recentSnapshot ↔ ageCutoff 100 days ≤ 90 := by
    intro days
    obtain ⟨all, _⟩ | ⟨_, _, refused⟩ | ⟨_, _, tags, _, unasked, kept⟩ := @prune_cases recentWorld (keepDays days) _ mem
    · cases all
    · cases refused nofun
    · have others : keptLatest (keepDays days) recentWorld.ordered = [] := rfl
      have weekly : keptWeekly (keepDays days) (listCommits recentWorld.db recentWorld.repoId) recentWorld.ordered = [] := rfl
      rw [kept, unasked rfl, others, weekly, nil_append, append_nil, append_nil, mem_keptRecent mem]
      constructor
      · rintro ⟨_, time, set, sameTime, cutoff⟩
        rw [stored] at sameTime
        cases set
        cases sameTime
        exact cutoff
      · intro cutoff
        exact ⟨days, 90, rfl, stored, cutoff⟩
  have keptByDay : recentWorld.Kept (keepDays 1) recentSnapshot := (kept 1).mpr (by decide)
  have lost : ¬ recentWorld.Kept (keepDays (2 ^ 63)) recentSnapshot := fun keeps =>
    absurd ((kept (2 ^ 63)).mp keeps) (by decide)
  refine ⟨keptByDay, lost, fun promises => ?_⟩
  have extension : (keepDays (2 ^ 63)).Extends (keepDays 1) := by
    have days : ∀ count, (keepDays 1).olderThanDays = some count →
      ∃ more, (keepDays (2 ^ 63)).olderThanDays = some more ∧ count ≤ more := by
      intro count set
      cases set
      exact ⟨2 ^ 63, rfl, by decide⟩
    have latest : ∀ count, (keepDays 1).keepLatest = some count →
      ∃ more, (keepDays (2 ^ 63)).keepLatest = some more ∧ count ≤ more := by
      intro count set
      cases set
    exact ⟨fun all => all, latest, days, fun only => only, fun only => only⟩
  obtain ⟨all, _⟩ | ⟨_, _, refused⟩ | ⟨_, succeeds, _⟩ := @prune_cases recentWorld (keepDays 1) _ mem
  · cases all
  · cases refused nofun
  · exact lost (promises.2.2 extension succeeds recentSnapshot mem keptByDay)

end RetentionCase

end Atlas.History
