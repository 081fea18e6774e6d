import Atlas.Content.ArtifactIndexes
import Atlas.Core.Clock

/-! Purging saved context, by session or by age. -/
namespace Atlas.Mcp
open List
open Content.Artifact
open Core
open Program Sql
open Text (lastUnit)

structure PurgeArguments where
  sessionId : Option String := none
  agentId : Option String := none
  keepDays : Option UInt64 := none

inductive ConfirmationProgress where
  | confirmed
  | cancelled
  | inputRequired

inductive PurgeOutcome where
  | deleted (mode : String) (deletedSources : Nat)
  | inputRequired

/-- What the days, a narrowing cast, are kept as. -/
def PurgeArguments.days (args : PurgeArguments) : Nat := (args.keepDays.getD 30).toUInt32.toNat

section
variable (env : Environment)
  (now : OffsetDateTime) (minusDays : OffsetDateTime → Nat → Option OffsetDateTime)
  (progress : Option (Except String ConfirmationProgress)) (args : PurgeArguments)

/-- `cs.cleanup(keep_days)`. The subtraction panics where the date leaves the range of its type. -/
def cleanupOlder : Run ContentStore PurgeOutcome :=
  match minusDays now args.days with
  | none => Run.ofExcept (.error "resulting value is out of range")
  | some cutoff => do
    let deleted ← cleanup { env with daysAgo := fun _ => formatRfc3339 cutoff } args.days
    pure (.deleted "age_based" deleted)

/-- `progress` is the client's answer, where a request context is there to ask in. -/
def purgeSavedContext : Run ContentStore PurgeOutcome :=
  match args.sessionId with
  | some sessionId => do
    let deleted ← deleteSessionSources (env.faults.deletion 0) sessionId args.agentId
    pure (.deleted "session" deleted)
  | none =>
    match progress with
    | some (.error msg) => Run.ofExcept (.error msg)
    | some (.ok .cancelled) => Run.ofExcept (.error "purge_saved_context cancelled by client")
    | some (.ok .inputRequired) => pure .inputRequired
    | some (.ok .confirmed) => cleanupOlder env now minusDays args
    | none => cleanupOlder env now minusDays args

end

def nanosPerDay : Int := 86400 * 10 ^ 9

/-- The moment that `keep_days` asks for, and the days as they were given. -/
def PurgeArguments.asked (args : PurgeArguments) (now : OffsetDateTime) : Int :=
  now.unixTimestampNanos - (args.keepDays.getD 30).toNat * nanosPerDay
def ofAgent (agentId : Option String) (source : SourceRow) : Bool :=
  agentId.all fun agent => decide (source.agentId = some agent)

def PurgeArguments.selects (args : PurgeArguments)
    (now : OffsetDateTime) (created : SourceRow → OffsetDateTime) (source : SourceRow) : Bool :=
  match args.sessionId with
  | some sessionId => ofSession sessionId args.agentId source
  | none => ofAgent args.agentId source && decide ((created source).unixTimestampNanos < args.asked now)

def PurgesExactly (env : Environment)
    (now : OffsetDateTime) (minusDays : OffsetDateTime → Nat → Option OffsetDateTime)
    (progress : Option (Except String ConfirmationProgress)) (args : PurgeArguments)
    (created : SourceRow → OffsetDateTime) (store : ContentStore) : Prop :=
  ∃ mode deleted reached, purgeSavedContext env now minusDays progress args store = (.ok (.deleted mode deleted), reached) ∧
      reached.db.sources = store.db.sources.filter fun source => !args.selects now created source

/-- Two instants in order, nearer than a unit of the first one's last printed digit. -/
def NearerThanPrinted (earlier later : OffsetDateTime) : Prop := earlier < later ∧
    later.unixTimestampNanos < earlier.unixTimestampNanos + lastUnit 9 earlier.nanosecond
def FourDigits (ts : OffsetDateTime) : Prop := 0 ≤ ts.year ∧ ts.year ≤ 9999

/-- When a purge by age deletes what was asked for. -/
structure AgeKept (args : PurgeArguments) (created : SourceRow → OffsetDateTime)
    (sources : List SourceRow) (cutoff : OffsetDateTime) : Prop where
  /-- The cast kept the days, and the cutoff has a date that can be printed. -/
  whole : (args.keepDays.getD 30).toNat < 2 ^ 32 → FourDigits cutoff → ∀ source ∈ sources,
    if ofAgent args.agentId source then
      ¬ NearerThanPrinted (created source) cutoff ∧ ¬ NearerThanPrinted cutoff (created source)
    else ¬ source.createdAt < formatRfc3339 cutoff
  /-- Otherwise nothing is old enough, and no row may sort before the text that is used instead. -/
  otherwise : ¬ ((args.keepDays.getD 30).toNat < 2 ^ 32 ∧ FourDigits cutoff) → ∀ source ∈ sources,
    ¬ source.createdAt < formatRfc3339 cutoff

def PurgeKept (now : OffsetDateTime)
    (minusDays : OffsetDateTime → Nat → Option OffsetDateTime) (args : PurgeArguments)
    (created : SourceRow → OffsetDateTime) (sources : List SourceRow) : Prop :=
  args.sessionId = none → ∃ cutoff, minusDays now args.days = some cutoff ∧ AgeKept args created sources cutoff

/-! ## The two orders of the times -/

section
variable {left right : OffsetDateTime}

theorem subsecond_inj {nanosecond nanosecond' : Nat}
    (bound : nanosecond < 10 ^ 9) (bound' : nanosecond' < 10 ^ 9)
    (same : subsecond nanosecond = subsecond nanosecond') : nanosecond = nanosecond' := by
  unfold subsecond at same
  split at same <;> split at same
  · omega
  · cases same
  · cases same
  · exact Text.fraction_inj bound bound' (List.cons.inj same).2

theorem toList_formatRfc3339 (fourDigits : FourDigits left) :
    (formatRfc3339 left).toList = rfc3339Text left := by
  unfold FourDigits at fourDigits
  simp [formatRfc3339, rfc3339, fourDigits]

theorem formatRfc3339_ne (leftYear : FourDigits left) (rightYear : FourDigits right)
    (before : left < right) : formatRfc3339 left ≠ formatRfc3339 right := by
  intro same
  have texts : rfc3339Text left = rfc3339Text right := by
    rw [← toList_formatRfc3339 leftYear, ← toList_formatRfc3339 rightYear, same]
  rcases OffsetDateTime.lt_iff.mp before with seconds | ⟨seconds, nanos⟩
  · have less := rfc3339Text_lt_of_second_lt leftYear rightYear seconds
    rw [texts] at less
    exact List.lt_irrefl _ less
  · have notLess := mt (rfc3339Text_lt_of_second_eq leftYear rightYear seconds).mpr (texts ▸ List.lt_irrefl _)
    have notGreater := mt (rfc3339Text_lt_of_second_eq rightYear leftYear seconds.symm).mpr (texts ▸ List.lt_irrefl _)
    have tails := append_cancel_right (le_antisymm (not_lt.mp notGreater) (not_lt.mp notLess))
    exact absurd (subsecond_inj left.nanosecond_lt right.nanosecond_lt tails) (by omega)

/-- The order of the printed times, read off the instants. -/
theorem formatRfc3339_lt_iff_near (leftYear : FourDigits left) (rightYear : FourDigits right) :
    formatRfc3339 left < formatRfc3339 right ↔ left < right ∧ ¬ NearerThanPrinted left right ∨ NearerThanPrinted right left := by
  unfold NearerThanPrinted
  simp only [OffsetDateTime.lt_def]
  rcases lt_trichotomy left.unixTimestampNanos right.unixTimestampNanos with before | same | after
  · rw [formatRfc3339_lt_iff leftYear rightYear before]
    omega
  · have seconds : left.unixTimestamp = right.unixTimestamp ∧ left.nanosecond = right.nanosecond := by
      have := left.nanosecond_lt
      have := right.nanosecond_lt
      unfold OffsetDateTime.unixTimestampNanos at same
      omega
    rw [String.lt_iff, toList_formatRfc3339 leftYear, toList_formatRfc3339 rightYear,
      rfc3339Text_lt_of_second_eq leftYear rightYear seconds.1, seconds.2]
    have never := List.lt_irrefl (subsecond right.nanosecond ++ ['Z'])
    constructor
    · exact fun less => absurd less never
    · omega
  · have order := formatRfc3339_lt_iff rightYear leftYear after
    have apart := formatRfc3339_ne rightYear leftYear after
    constructor
    · intro less
      have far := mt order.mpr (lt_asymm less)
      omega
    · intro near
      have notGreater := mt order.mp (by omega)
      exact lt_of_le_of_ne (not_lt.mp notGreater) apart.symm

theorem lt_of_year_lt (earlier : left.year < right.year) :
    left.unixTimestampNanos < right.unixTimestampNanos := by
  have days : left.unixDay < right.unixDay := by
    by_contra later
    rcases OffsetDateTime.day_order (not_lt.mp later) with years | ⟨years, _⟩ <;> omega
  have := left.hour_lt
  have := left.minute_lt
  have := left.second_lt
  have := left.nanosecond_lt
  unfold OffsetDateTime.unixTimestampNanos OffsetDateTime.unixTimestamp
  omega

/-- No time with a printable date is as old as a count of days that the cast cuts. -/
theorem asked_lt_of_wide {now : OffsetDateTime}
    (clock : now.year ≤ 9999) (leftYear : FourDigits left)
    {days : Nat} (wide : 2 ^ 32 ≤ days) :
    now.unixTimestampNanos - days * nanosPerDay < left.unixTimestampNanos := by
  have first := OffsetDateTime.daysBeforeYear_mono leftYear.1
  have last := OffsetDateTime.daysBeforeYear_mono clock
  have start : OffsetDateTime.daysBeforeYear 0 = 0 := by decide
  have finish : OffsetDateTime.daysBeforeYear 9999 = 3652060 := by decide
  have bound : now.ordinal ≤ 366 := by
    have := now.ordinal_le
    unfold Core.daysInYear at this
    split at this <;> omega
  have := now.hour_lt
  have := now.minute_lt
  have := now.second_lt
  have := now.nanosecond_lt
  have := left.ordinal_pos
  unfold nanosPerDay OffsetDateTime.unixTimestampNanos OffsetDateTime.unixTimestamp OffsetDateTime.unixDay
  omega

end

section
variable {env : Environment} {now cutoff : OffsetDateTime}
  {minusDays : OffsetDateTime → Nat → Option OffsetDateTime}
  {progress : Option (Except String ConfirmationProgress)} {args : PurgeArguments}
  {created : SourceRow → OffsetDateTime} {store : ContentStore} {sources : List SourceRow}

theorem purgesExactly_session (sound : env.faults = {})
    {sessionId : String} (named : args.sessionId = some sessionId) :
    PurgesExactly env now minusDays progress args created store := by
  unfold PurgesExactly purgeSavedContext PurgeArguments.selects
  rw [named, sound]
  exact ⟨_, _, _, rfl, rfl⟩

theorem cleanupOlder_eq (sound : env.faults = {})
    (subtracted : minusDays now args.days = some cutoff) :
    cleanupOlder env now minusDays args store =
      (.ok (.deleted "age_based" (store.db.sources.countP (olderThan (formatRfc3339 cutoff)))),
        { store with db := deleteSources (olderThan (formatRfc3339 cutoff)) store.db }) := by
  unfold cleanupOlder cleanup
  rw [subtracted]
  dsimp only
  rw [sound]
  rfl

/-- The rows that a purge by age takes are the ones asked for, row by row. -/
theorem ageKept_iff (clock : now.year ≤ 9999) (dated : ∀ source ∈ sources,
    FourDigits (created source) ∧ source.createdAt = formatRfc3339 (created source))
    (exact : cutoff.unixTimestampNanos = now.unixTimestampNanos - args.days * nanosPerDay)
    (unnamed : args.sessionId = none) :
    AgeKept args created sources cutoff ↔ ∀ source ∈ sources,
      olderThan (formatRfc3339 cutoff) source = args.selects now created source := by
  have narrow : (args.keepDays.getD 30).toNat < 2 ^ 32 → args.asked now = cutoff.unixTimestampNanos := by
    intro small
    rw [exact, PurgeArguments.asked, PurgeArguments.days, UInt64.toNat_toUInt32, Nat.mod_eq_of_lt small]
  by_cases printed : (args.keepDays.getD 30).toNat < 2 ^ 32 ∧ FourDigits cutoff
  · have each : ∀ source ∈ sources, (if ofAgent args.agentId source then
          ¬ NearerThanPrinted (created source) cutoff ∧ ¬ NearerThanPrinted cutoff (created source)
        else ¬ source.createdAt < formatRfc3339 cutoff) ↔
          olderThan (formatRfc3339 cutoff) source = args.selects now created source := by
      intro source mem
      obtain ⟨year, printedAs⟩ := dated source mem
      have order := formatRfc3339_lt_iff_near year printed.2
      rw [← printedAs] at order
      have before : NearerThanPrinted (created source) cutoff → created source < cutoff := And.left
      have after : NearerThanPrinted cutoff (created source) → ¬ created source < cutoff :=
        fun near => lt_asymm (show cutoff.unixTimestampNanos < _ from near.1)
      unfold olderThan PurgeArguments.selects
      rw [unnamed, narrow printed.1]
      dsimp only
      by_cases own : ofAgent args.agentId source = true
      · rw [if_pos own, own, Bool.true_and, decide_eq_decide, order]
        change _ ↔ (_ ↔ created source < cutoff)
        tauto
      · rw [if_neg own, Bool.eq_false_of_not_eq_true own, Bool.false_and, decide_eq_false_iff_not]
    exact ⟨fun kept source mem => (each source mem).mp (kept.whole printed.1 printed.2 source mem),
      fun same => ⟨fun _ _ source mem => (each source mem).mpr (same source mem), fun other => absurd printed other⟩⟩
  · have unselected : ∀ source ∈ sources, args.selects now created source = false := by
      intro source mem
      have year := (dated source mem).1
      unfold PurgeArguments.selects
      rw [unnamed, Bool.and_eq_false_iff, decide_eq_false_iff_not]
      right
      by_cases small : (args.keepDays.getD 30).toNat < 2 ^ 32
      · have past : cutoff.year ≤ 9999 := by
          by_contra beyond
          have later := lt_of_year_lt (clock.trans_lt (not_le.mp beyond))
          have spent : 0 ≤ args.days * nanosPerDay := by
            unfold nanosPerDay
            omega
          omega
        have ancient : cutoff.year < 0 := by
          by_contra recent
          exact printed ⟨small, not_lt.mp recent, past⟩
        rw [narrow small]
        exact not_lt.mpr (lt_of_year_lt (ancient.trans_le year.1)).le
      · exact not_lt.mpr (asked_lt_of_wide clock year (not_lt.mp small)).le
    constructor
    · intro kept source mem
      rw [unselected source mem]
      exact decide_eq_false (kept.otherwise printed source mem)
    · refine fun same => ⟨fun small fits => absurd ⟨small, fits⟩ printed, fun _ source mem => ?_⟩
      have taken := same source mem
      rw [unselected source mem] at taken
      exact of_decide_eq_false taken

theorem purgesExactly_iff (sound : env.faults = {})
    (confirmed : ∀ answer ∈ progress, answer = .ok .confirmed) (clock : now.year ≤ 9999)
    (dated : ∀ source ∈ store.db.sources, FourDigits (created source) ∧ source.createdAt = formatRfc3339 (created source))
    (subtracts : ∀ cutoff ∈ minusDays now args.days,
      cutoff.unixTimestampNanos = now.unixTimestampNanos - args.days * nanosPerDay) :
    PurgesExactly env now minusDays progress args created store ↔ PurgeKept now minusDays args created store.db.sources := by
  cases unnamed : args.sessionId with
  | some sessionId =>
    refine ⟨fun _ none => ?_, fun _ => purgesExactly_session sound unnamed⟩
    rw [unnamed] at none
    cases none
  | none =>
    have ran : purgeSavedContext env now minusDays progress args store = cleanupOlder env now minusDays args store := by
      unfold purgeSavedContext
      rw [unnamed]
      cases progress with
      | none => rfl
      | some answer => rw [confirmed answer rfl]
    unfold PurgesExactly PurgeKept
    rw [ran]
    cases subtracted : minusDays now args.days with
    | none =>
      have failed : cleanupOlder env now minusDays args store = (.error "resulting value is out of range", store) := by
        unfold cleanupOlder
        rw [subtracted]
        rfl
      rw [failed]
      constructor
      · rintro ⟨_, _, _, wrong, _⟩
        cases wrong
      · intro kept
        obtain ⟨_, wrong, _⟩ := kept unnamed
        cases wrong
    | some cutoff =>
      have rows := ageKept_iff clock dated (subtracts cutoff subtracted) unnamed
      rw [cleanupOlder_eq sound subtracted]
      constructor
      · rintro ⟨mode, deleted, reached, same, left⟩ _
        cases same
        refine ⟨cutoff, rfl, rows.mpr fun source mem => ?_⟩
        have both : source ∈ deleteWhere (olderThan (formatRfc3339 cutoff)) store.db.sources ↔
          source ∈ store.db.sources.filter fun source => !args.selects now created source := by
          rw [← left]
          rfl
        unfold deleteWhere at both
        rw [mem_filter, mem_filter, and_iff_right mem, and_iff_right mem, Bool.not_eq_true', Bool.not_eq_true'] at both
        cases older : olderThan (formatRfc3339 cutoff) source with
        | false => exact (both.mp older).symm
        | true =>
          rw [older] at both
          cases asked : args.selects now created source with
          | false => exact absurd (both.mpr asked) (by simp)
          | true => rfl
      · intro kept
        obtain ⟨_, same, whole⟩ := kept unnamed
        cases same
        refine ⟨_, _, _, rfl, filter_congr fun source mem => ?_⟩
        rw [rows.mp whole source mem]

end

def savedAt : OffsetDateTime := sampleInstant 0 zeroNanoseconds
def purgedAt : OffsetDateTime := { savedAt with second := 21, second_lt := by decide }

def savedSource : SourceRow where
  id := "src-1"
  sessionId := none
  agentId := none
  sourceType := "command_output"
  label := "out"
  repoRoot := none
  repoRootsJson := []
  repoId := none
  repoIdsJson := []
  identityKind := "artifact_label"
  identityValue := "out"
  createdAt := formatRfc3339 savedAt

def savedStore : ContentStore := ⟨{ Db.empty with sources := [savedSource] }, {}⟩
def widestPurge : PurgeArguments := { keepDays := some 4294967296 }

theorem fourDigits_savedAt : FourDigits savedAt := ⟨by decide, by decide⟩
theorem fourDigits_purgedAt : FourDigits purgedAt := ⟨by decide, by decide⟩
theorem savedAt_lt_purgedAt : savedAt < purgedAt := by decide

theorem purgesExactly_iff_saved : PurgesExactly (plainEnvironment "now") purgedAt
    (fun now _ => some now) none widestPurge (fun _ => savedAt) savedStore ↔
      PurgeKept purgedAt (fun now _ => some now) widestPurge (fun _ => savedAt) savedStore.db.sources := by
  refine purgesExactly_iff rfl nofun (by decide) ?_ ?_
  · intro source mem
    rw [mem_singleton.mp mem]
    exact ⟨fourDigits_savedAt, rfl⟩
  · rintro cutoff ⟨⟩
    decide

/-- The cast of 2^32 days is no day at all, and a source a second old is deleted. -/
theorem widestPurge_deletes :
    ¬ PurgesExactly (plainEnvironment "now") purgedAt (fun now _ => some now) none widestPurge
      (fun _ => savedAt) savedStore := by
  rintro ⟨mode, deleted, reached, ran, left⟩
  have older : olderThan (formatRfc3339 purgedAt) savedSource = true := by
    refine decide_eq_true ((formatRfc3339_lt_iff fourDigits_savedAt fourDigits_purgedAt savedAt_lt_purgedAt).mpr ?_)
    decide
  change cleanupOlder (plainEnvironment "now") purgedAt (fun now _ => some now) widestPurge savedStore = _ at ran
  rw [cleanupOlder_eq rfl rfl] at ran
  cases ran
  change deleteWhere (olderThan (formatRfc3339 purgedAt)) [savedSource] = [savedSource] at left
  rw [deleteWhere, filter_cons, older] at left
  cases left

end Atlas.Mcp
