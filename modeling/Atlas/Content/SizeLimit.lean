import Atlas.Content.ArtifactChunks

/-! Deleted rows free pages for reuse and leave the size of the file alone, and the loop reads the
size of the file. Once it runs, it runs until no source is left. -/
namespace Atlas.Content.Artifact
open List Program Sql
open Refactor (Text)

/-- `auto_vacuum = INCREMENTAL`, without a vacuum in the call: the freed pages stay in the file. -/
structure PageAccounting (env : Environment) where
  /-- The pages of the file. -/
  total : Nat
  /-- The pages that hold data once so many sources have been deleted. -/
  inUse : Nat → Nat
  constant : ∀ answer, env.pageCount answer = total
  bounded : inUse 0 ≤ total
  freed : ∀ deleted, inUse (deleted + 1) ≤ inUse deleted

/-- The oldest sources go, and no more of them than the limit asks for. -/
structure RemovesOnlyWhatItMust {env : Environment}
    (pages : PageAccounting env) (maxBytes : Nat) (before after : List SourceRow) : Prop where
  kept : after.Sublist before
  oldest : ∀ gone ∈ before, gone ∉ after → ∀ left ∈ after, ¬ left.createdAt < gone.createdAt
  needed : ∀ deleted < before.length - after.length, maxBytes < pages.inUse deleted * env.pageSize

structure RoundClear (faults : Faults) (round : Nat) : Prop where
  pages : faults.read (2 * round + 2) = none
  oldest : faults.read (2 * round + 3) = none
  deletion : ∀ statement < 3, faults.deletion round statement = none

/-- What a loop does that never finds the file small enough, from a round on. -/
structure Drains (env : Environment) (round : Nat) (before after : List SourceRow) : Prop where
  kept : after.Sublist before
  oldest : ∀ gone ∈ before, gone ∉ after → ∀ left ∈ after, ¬ left.createdAt < gone.createdAt
  count : ∀ deleted, deleted < before.length - after.length ↔
    deleted < before.length ∧ ∀ earlier ≤ deleted, RoundClear env.faults (round + earlier)

section
variable {env : Environment} {maxBytes round : Nat} {sources : List SourceRow} {source : SourceRow}

theorem Drains.stopped (ended : sources = [] ∨ ¬ RoundClear env.faults round) :
    Drains env round sources sources where
  kept := .refl _
  oldest gone mem lost := absurd mem lost
  count deleted := by
    rw [Nat.sub_self]
    refine ⟨fun below => absurd below (Nat.not_lt_zero _), fun ⟨inside, clear⟩ => ?_⟩
    rcases ended with empty | broken
    · rw [empty] at inside
      cases inside
    · exact absurd (clear 0 (Nat.zero_le _)) broken

theorem mem_deleteWhere_id {other : SourceRow}
    (unique : (sources.map SourceRow.id).Nodup) (mem : source ∈ sources) :
    other ∈ deleteWhere (fun row => decide (row.id = source.id)) sources ↔ other ∈ sources ∧ other ≠ source := by
  rw [mem_deleteWhere]
  refine and_congr_right fun inside => ?_
  rw [decide_eq_false_iff_not]
  refine not_congr ⟨fun same => ?_, fun same => congrArg _ same⟩
  exact inj_on_of_nodup_map unique inside mem same

theorem length_deleteWhere_id (unique : (sources.map SourceRow.id).Nodup) (mem : source ∈ sources) :
    (deleteWhere (fun row => decide (row.id = source.id)) sources).length + 1 = sources.length := by
  have single : deleteWhere (fun row => decide (row.id = source.id)) sources = sources.erase source := by
    rw [unique.of_map.erase_eq_filter]
    refine filter_congr fun other inside => ?_
    have same : other.id = source.id ↔ other = source := ⟨inj_on_of_nodup_map unique inside mem, congrArg _⟩
    by_cases equal : other = source <;> simp [same, equal]
  rw [single, length_erase_of_mem mem]
  have filled := length_pos_of_mem mem
  omega

theorem Drains.cons {before after : List SourceRow} {source : SourceRow}
    (unique : (before.map SourceRow.id).Nodup) (picked : env.oldest.pick before = some source)
    (clear : RoundClear env.faults round)
    (later : Drains env (round + 1) (deleteWhere (fun row => decide (row.id = source.id)) before) after) :
    Drains env round before after := by
  have mem := env.oldest.mem _ _ picked
  have shorter := length_deleteWhere_id unique mem
  have sublist := later.kept.trans filter_sublist
  refine ⟨sublist, ?_, ?_⟩
  · intro gone inside lost left stays
    by_cases first : gone = source
    · rw [first]
      exact env.oldest.least _ _ picked left (sublist.subset stays)
    · exact later.oldest gone ((mem_deleteWhere_id unique mem).mpr ⟨inside, first⟩) lost left stays
  · intro deleted
    have bound := later.kept.length_le
    cases deleted with
    | zero =>
      refine ⟨fun _ => ⟨by omega, fun earlier small => ?_⟩, fun _ => by omega⟩
      rw [Nat.le_zero.mp small]
      exact clear
    | succ deleted =>
      have rest := later.count deleted
      constructor
      · intro below
        obtain ⟨inside, others⟩ := rest.mp (by omega)
        refine ⟨by omega, fun earlier small => ?_⟩
        cases earlier with
        | zero => exact clear
        | succ earlier =>
          have next := others earlier (by omega)
          rwa [Nat.add_assoc, Nat.add_comm 1] at next
      · rintro ⟨inside, all⟩
        have below := rest.mpr ⟨by omega, fun earlier small => by
          have next := all (earlier + 1) (by omega)
          rwa [Nat.add_assoc, Nat.add_comm 1]⟩
        omega

theorem enforceFrom_drains (large : ∀ answer, maxBytes < env.pageCount answer * env.pageSize)
    (fuel : Nat) (store : ContentStore) (unique : (store.db.sources.map SourceRow.id).Nodup)
    (enough : store.db.sources.length < fuel) :
    Drains env round store.db.sources (enforceFrom env maxBytes fuel round store).2.db.sources := by
  induction fuel generalizing round store with
  | zero => omega
  | succ fuel ih =>
    unfold enforceFrom
    have read := @readPages_eq env (2 * round + 2) (round + 1) store
    cases first : env.faults.read (2 * round + 2) with
    | some msg =>
      rw [first] at read
      rw [Run.bind_error read]
      exact .stopped (.inr fun clear => by rw [clear.pages] at first; cases first)
    | none =>
      rw [first] at read
      rw [Run.bind_ok read, if_neg (Nat.not_le.mpr (large _))]
      cases second : env.faults.read (2 * round + 3) with
      | some msg =>
        rw [Run.bind_error (issue_fault _ _ _)]
        exact .stopped (.inr fun clear => by rw [clear.oldest] at second; cases second)
      | none =>
        rw [Run.bind_ok (issue_ok rfl)]
        cases picked : env.oldest.pick store.db.sources with
        | none => exact .stopped (.inl ((env.oldest.none_iff _).mp picked))
        | some source =>
          have mem := env.oldest.mem _ _ picked
          by_cases clear : ∀ statement < 3, env.faults.deletion round statement = none
          · obtain ⟨after, ran, sources, _⟩ := @deleteSource_ok source.id _ store clear
            dsimp only
            rw [Run.bind_ok ran]
            have shorter := length_deleteWhere_id unique mem
            have names : (after.db.sources.map SourceRow.id).Nodup := by
              rw [sources]
              exact unique.sublist (filter_sublist.map _)
            have later := @ih (round + 1) after names (by rw [sources]; omega)
            rw [sources] at later
            exact .cons unique picked ⟨first, second, clear⟩ later
          · obtain ⟨msg, after, ran, sources, _⟩ := @deleteSource_error source.id _ store clear
            dsimp only
            rw [Run.bind_error ran, sources]
            exact .stopped (.inr fun round => clear round.deletion)

def Reached (faults : Faults) (deleted : Nat) : Prop :=
  faults.read 0 = none ∧ faults.read 1 = none ∧ ∀ earlier ≤ deleted, RoundClear faults earlier

/-- The size limit removes only what it must exactly when the file itself fits, or what is in use
is still too much before the last source goes. -/
theorem enforceSizeLimit_minimal_iff (pages : PageAccounting env)
    (maxBytes : Nat) (store : ContentStore) (unique : (store.db.sources.map SourceRow.id).Nodup) :
    RemovesOnlyWhatItMust pages maxBytes store.db.sources (enforceSizeLimit env maxBytes store).2.db.sources ↔
      pages.total * env.pageSize ≤ maxBytes ∨ ∀ deleted < store.db.sources.length,
        Reached env.faults deleted → maxBytes < pages.inUse deleted * env.pageSize := by
  have unchanged : RemovesOnlyWhatItMust pages maxBytes store.db.sources store.db.sources :=
    ⟨.refl _, fun gone mem lost => absurd mem lost, fun deleted below => absurd below (by omega)⟩
  unfold enforceSizeLimit
  have read := @readPages_eq env 0 0 store
  cases first : env.faults.read 0 with
  | some msg =>
    rw [first] at read
    rw [Run.bind_error read]
    exact iff_of_true unchanged (.inr fun _ _ reached => by rw [reached.1] at first; cases first)
  | none =>
    rw [first] at read
    rw [Run.bind_ok read]
    cases second : env.faults.read 1 with
    | some msg =>
      rw [Run.bind_error (issue_fault _ _ _)]
      exact iff_of_true unchanged (.inr fun _ _ reached => by rw [reached.2.1] at second; cases second)
    | none =>
      rw [Run.bind_ok (issue_ok rfl), pages.constant]
      by_cases fits : pages.total * env.pageSize ≤ maxBytes
      · rw [if_pos fits]
        exact iff_of_true unchanged (.inl fits)
      · rw [if_neg fits]
        have large : ∀ answer, maxBytes < env.pageCount answer * env.pageSize := fun answer => by
          rw [pages.constant]
          exact Nat.not_le.mp fits
        have drains := @enforceFrom_drains env maxBytes 0 large (store.db.sources.length + 1) store unique (Nat.lt_succ_self _)
        have reached (deleted : Nat) : Reached env.faults deleted ↔ ∀ earlier ≤ deleted, RoundClear env.faults (0 + earlier) := by
          simp only [Reached, first, second, true_and, Nat.zero_add]
        constructor
        · intro minimal
          refine .inr fun deleted inside clear => minimal.needed deleted ?_
          exact (drains.count deleted).mpr ⟨inside, (reached deleted).mp clear⟩
        · intro needed
          refine ⟨drains.kept, drains.oldest, fun deleted below => ?_⟩
          obtain ⟨inside, clear⟩ := (drains.count deleted).mp below
          exact needed.resolve_left fits deleted inside ((reached deleted).mpr clear)

end

def limitedEnvironment : Environment :=
  { plainEnvironment "2026-02-01T00:00:00Z" with
    config := { maxDbBytes := some 200000 }
    pageCount := fun _ => 100 }

def freePages : PageAccounting limitedEnvironment where
  total := 100
  inUse deleted := if deleted = 0 then 12 else 8
  constant _ := rfl
  bounded := by decide
  freed deleted := by
    cases deleted with
    | zero => decide
    | succ deleted => exact le_rfl

def storedArtifact : ContentStore := run ⟨Db.empty, {}⟩ [indexPlain "2026-02-01T00:00:00Z" "one"]

def secondSource : SourceMeta :=
  { plainSource with
    id := "src-2"
    label := "err"
    identityValue := "err" }

def storedArtifacts : ContentStore :=
  run storedArtifact
    [(plainEnvironment "2026-02-02T00:00:00Z",
      .indexArtifact secondSource "two".toList "text/plain")]

/-- Two artifacts that are over the limit together and each for itself must both go; under
the size of the file nothing goes. -/
theorem enforceSizeLimit_minimal_stored :
    storedArtifacts.db.sources.length = 2 ∧
      (enforceSizeLimit limitedEnvironment 30000 storedArtifacts).2.db.sources = [] ∧
      RemovesOnlyWhatItMust freePages 30000 storedArtifacts.db.sources
        (enforceSizeLimit limitedEnvironment 30000 storedArtifacts).2.db.sources ∧
      RemovesOnlyWhatItMust freePages 409600 storedArtifact.db.sources
        (enforceSizeLimit limitedEnvironment 409600 storedArtifact).2.db.sources := by
  have inUse (deleted : Nat) : 30000 < freePages.inUse deleted * limitedEnvironment.pageSize := by
    cases deleted with
    | zero => decide
    | succ deleted => exact (by decide : 30000 < 8 * 4096)
  refine ⟨by decide +kernel, by decide +kernel, ?_, ?_⟩
  · refine (enforceSizeLimit_minimal_iff freePages 30000 storedArtifacts (by decide +kernel)).mpr ?_
    exact .inr fun deleted _ _ => inUse deleted
  · refine (enforceSizeLimit_minimal_iff freePages 409600 storedArtifact (by decide)).mpr ?_
    exact .inl (by decide)

/-- Indexing into that file deletes the artifact it has just stored, which alone fits. -/
theorem indexArtifact_deletes_stored :
    (indexArtifact limitedEnvironment plainSource "one".toList "text/plain" ⟨Db.empty, {}⟩).map
        (fun outcome => (outcome.1, outcome.2.db.sources)) = some (.ok (), []) ∧
      freePages.inUse 0 * limitedEnvironment.pageSize ≤ 200000 ∧
      ¬ RemovesOnlyWhatItMust freePages 200000 storedArtifact.db.sources
        (enforceSizeLimit limitedEnvironment 200000 storedArtifact).2.db.sources := by
  refine ⟨by decide +kernel, by decide, fun minimal => ?_⟩
  have needed := minimal.needed 0 (by decide)
  exact absurd needed (by decide)

end Atlas.Content.Artifact
