import Atlas.Engine.UpdateProperties

/-! What a build or an update tells its budget tracker, and what the tracker reports of it. -/
namespace Atlas.Engine
open List Store

inductive TrackerCall where
  | setFilesDiscovered (filesDiscovered : Nat)
  | noteSkippedByFileBytes (fileBytes : Nat)
  | noteScannedFileByteSkips (count : Nat)
  | maybeStopForTime
  | tryAcceptFile (fileBytes : Nat)
  | noteParseFailure (attemptedFiles : Nat)

namespace TrackerCall

def run (call : TrackerCall) (tracker : BuildBudgetTracker) :
    BuildBudgetDecision × BuildBudgetTracker :=
  match call with
  | .setFilesDiscovered filesDiscovered => (.proceed, tracker.setFilesDiscovered filesDiscovered)
  | .noteSkippedByFileBytes fileBytes => (.proceed, tracker.noteSkippedByFileBytes fileBytes)
  | .noteScannedFileByteSkips count => (.proceed, tracker.noteScannedFileByteSkips count)
  | .maybeStopForTime => tracker.maybeStopForTime
  | .tryAcceptFile fileBytes => tracker.tryAcceptFile fileBytes
  | .noteParseFailure attemptedFiles => tracker.noteParseFailure attemptedFiles

/-- A file is skipped or refused, or the loop is stopped. -/
def cutsShort (call : TrackerCall) (tracker : BuildBudgetTracker) : Bool :=
  match call with
  | .noteSkippedByFileBytes _ => true
  | .noteScannedFileByteSkips count => decide (count ≠ 0)
  | _ => decide ((call.run tracker).1 ≠ .proceed)

def acceptedSize (call : TrackerCall) (tracker : BuildBudgetTracker) : List Nat :=
  match call with
  | .tryAcceptFile fileBytes => if (tracker.tryAcceptFile fileBytes).1 = .proceed then [fileBytes] else []
  | _ => []

end TrackerCall

def runCalls (calls : List TrackerCall) (tracker : BuildBudgetTracker) : BuildBudgetTracker :=
  calls.foldl (fun tracker call => (call.run tracker).2) tracker

def cutShort : List TrackerCall → BuildBudgetTracker → Bool
  | [], _ => false
  | call :: rest, tracker => call.cutsShort tracker || cutShort rest (call.run tracker).2

def acceptedSizes : List TrackerCall → BuildBudgetTracker → List Nat
  | [], _ => []
  | call :: rest, tracker => call.acceptedSize tracker ++ acceptedSizes rest (call.run tracker).2

def offeredSizes (calls : List TrackerCall) : List Nat := calls.filterMap fun
    | .tryAcceptFile fileBytes => some fileBytes
    | _ => none

def failedAttempts (calls : List TrackerCall) : List Nat := calls.filterMap fun
    | .noteParseFailure attemptedFiles => some attemptedFiles
    | _ => none

def tolerates (limits : BuildRunBudget) (failures attemptedFiles : Nat) : Bool :=
  decide (failures ≤ limits.maxParseFailures ∧
    (attemptedFiles = 0 ∨ failures * 10000 / attemptedFiles ≤ limits.maxParseFailureRatioBps))

def toleratesAll (limits : BuildRunBudget) : Nat → List Nat → Bool
  | _, [] => true
  | failures, attemptedFiles :: rest =>
    tolerates limits (failures + 1) attemptedFiles && toleratesAll limits (failures + 1) rest

def countsBytes (limits : BuildRunBudget)
    (calls : List TrackerCall) : Bool := decide (limits.maxTotalBytesPerRun < 2 ^ 64 - 1 ∨
    ((offeredSizes calls).take limits.maxFilesPerRun).sum ≤ 2 ^ 64 - 1)
def BudgetReport.IsHit (report : BudgetReport) : Prop := (report.budgetStatus = .partialResult ∧
    report.isPartial = true) ∨ (report.budgetStatus = .blocked ∧ report.isPartial = false)

inductive Reporting (call : TrackerCall) (tracker : BuildBudgetTracker) : Prop where
  | quiet (reports : (call.run tracker).2.reports = tracker.reports) (whole :
    call.cutsShort tracker = false) (unblocked : (call.run tracker).1 ≠ .blocked)
  | degraded (name : String) (limit seen : Nat) (reports : (call.run tracker).2.reports =
    tracker.reports ++ [.partialResult name limit seen false])
      (cut : call.cutsShort tracker = true) (unblocked : (call.run tracker).1 ≠ .blocked)
  | blocked (name : String) (limit seen : Nat) (reports : (call.run tracker).2.reports =
    tracker.reports ++ [.blocked name limit seen])
      (cut : call.cutsShort tracker = true) (blocks : (call.run tracker).1 = .blocked)

section
variable (tracker : BuildBudgetTracker)

theorem recordUsage_failClosed {name : String}
    {limit seen : Nat} (exceeds : limit < seen) (reports : List BudgetReport) :
    recordUsage .failClosed name limit seen false reports = reports ++ [.blocked name limit seen] := by
  unfold recordUsage
  rw [if_neg (by omega)]

theorem BuildBudgetTracker.noteParseFailure_cases (attemptedFiles : Nat) :
    ((tracker.noteParseFailure attemptedFiles).1 = .proceed ∧
        (tracker.noteParseFailure attemptedFiles).2.reports = tracker.reports ∧
        tolerates tracker.limits (tracker.counters.parseFailures + 1) attemptedFiles = true) ∨
      ((tracker.noteParseFailure attemptedFiles).1 = .blocked ∧
        (∃ name limit seen, (tracker.noteParseFailure attemptedFiles).2.reports =
        tracker.reports ++ [.blocked name limit seen]) ∧
        tolerates tracker.limits (tracker.counters.parseFailures + 1) attemptedFiles = false) := by
  unfold BuildBudgetTracker.noteParseFailure tolerates
  by_cases many : tracker.counters.parseFailures + 1 > tracker.limits.maxParseFailures
  · right
    rw [if_pos many]
    refine ⟨rfl, ⟨_, _, _, recordUsage_failClosed many _⟩, ?_⟩
    exact decide_eq_false fun tolerated => absurd tolerated.1 (by omega)
  · dsimp only
    rw [if_neg many]
    split
    · next none =>
        rw [if_neg (Nat.not_lt_zero _)]
        exact .inl ⟨rfl, rfl, decide_eq_true ⟨by omega, .inl none⟩⟩
    · next some =>
        by_cases large : (tracker.counters.parseFailures + 1) * 10000 / attemptedFiles > tracker.limits.maxParseFailureRatioBps
        · right
          rw [if_pos large]
          refine ⟨rfl, ⟨_, _, _, recordUsage_failClosed large _⟩, ?_⟩
          refine decide_eq_false fun tolerated => ?_
          rcases tolerated.2 with none | small
          · exact some none
          · omega
        · rw [if_neg large]
          exact .inl ⟨rfl, rfl, decide_eq_true ⟨by omega, .inr (by omega)⟩⟩

theorem BuildBudgetTracker.noteScannedFileByteSkips_reports {count : Nat} (skips : count ≠ 0) :
    (tracker.noteScannedFileByteSkips count).reports = tracker.reports ++
      [.partialResult "build_update.max_file_bytes" tracker.limits.maxFileBytes (tracker.limits.maxFileBytes + 1) false] := by
  simp [BuildBudgetTracker.noteScannedFileByteSkips, skips, recordUsage]

theorem TrackerCall.reporting (call : TrackerCall) : Reporting call tracker := by
  cases call with
  | setFilesDiscovered filesDiscovered => exact .quiet rfl rfl nofun
  | noteSkippedByFileBytes fileBytes => exact .degraded _ _ _ (recordUsage_isPartial _ _ _ _) rfl nofun
  | noteScannedFileByteSkips count =>
    by_cases none : count = 0
    · subst none
      exact .quiet rfl rfl nofun
    · exact .degraded _ _ _ (tracker.noteScannedFileByteSkips_reports none) (decide_eq_true none) nofun
  | maybeStopForTime =>
    by_cases within : tracker.clock tracker.readings ≤ tracker.limits.maxWallTimeMs
    · have decision : tracker.maybeStopForTime.1 = .proceed := by
        simp [BuildBudgetTracker.maybeStopForTime, within]
      refine .quiet ?_ (decide_eq_false (not_not.mpr decision)) (by simp [run, decision])
      simp [run, BuildBudgetTracker.maybeStopForTime, within]
    · have decision : tracker.maybeStopForTime.1 = .degraded := by
        simp [BuildBudgetTracker.maybeStopForTime, within]
      refine .degraded "build_update.max_wall_time_ms" tracker.limits.maxWallTimeMs
        (tracker.clock tracker.readings) ?_ (decide_eq_true (by simp [run, decision]))
        (by simp [run, decision])
      simp only [run, BuildBudgetTracker.maybeStopForTime, within, if_false, recordUsage_isPartial]
  | tryAcceptFile fileBytes =>
    by_cases many : tracker.counters.filesAccepted ≥ tracker.limits.maxFilesPerRun
    · have decision : (tracker.tryAcceptFile fileBytes).1 = .degraded := by
        simp [BuildBudgetTracker.tryAcceptFile, many]
      refine .degraded "build_update.max_files_per_run" tracker.limits.maxFilesPerRun
        (saturatingAdd tracker.counters.filesAccepted 1) ?_
        (decide_eq_true (by simp [run, decision])) (by simp [run, decision])
      simp only [run, BuildBudgetTracker.tryAcceptFile, many, if_true, recordUsage_isPartial]
    · by_cases large : saturatingAdd tracker.counters.bytesAccepted fileBytes > tracker.limits.maxTotalBytesPerRun
      · have decision : (tracker.tryAcceptFile fileBytes).1 = .degraded := by
          simp [BuildBudgetTracker.tryAcceptFile, many, large]
        refine .degraded "build_update.max_total_bytes_per_run" tracker.limits.maxTotalBytesPerRun
          (saturatingAdd tracker.counters.bytesAccepted fileBytes) ?_
          (decide_eq_true (by simp [run, decision])) (by simp [run, decision])
        simp only [run, BuildBudgetTracker.tryAcceptFile, many, if_false, large, if_true, recordUsage_isPartial]
      · have decision : (tracker.tryAcceptFile fileBytes).1 = .proceed := by
          simp [BuildBudgetTracker.tryAcceptFile, many, large]
        refine .quiet ?_ (decide_eq_false (not_not.mpr decision)) (by simp [run, decision])
        simp [run, BuildBudgetTracker.tryAcceptFile, many, large]
  | noteParseFailure attemptedFiles =>
    rcases tracker.noteParseFailure_cases attemptedFiles with
      ⟨decision, reports, _⟩ | ⟨decision, ⟨name, limit, seen, reports⟩, _⟩
    · exact .quiet reports (decide_eq_false (not_not.mpr decision)) (by simp [run, decision])
    · exact .blocked name limit seen reports (decide_eq_true (by simp [run, decision])) decision

theorem TrackerCall.run_failures (call : TrackerCall) :
    (call.run tracker).2.limits = tracker.limits ∧
      (call.run tracker).2.counters.parseFailures = tracker.counters.parseFailures + (failedAttempts [call]).length ∧
      ((call.run tracker).1 = .blocked ↔ toleratesAll tracker.limits tracker.counters.parseFailures
        (failedAttempts [call]) = false) := by
  cases call with
  | setFilesDiscovered filesDiscovered | noteSkippedByFileBytes fileBytes =>
    exact ⟨rfl, rfl, by simp [run, failedAttempts, toleratesAll]⟩
  | noteScannedFileByteSkips count =>
    unfold run BuildBudgetTracker.noteScannedFileByteSkips
    dsimp only
    split <;> exact ⟨rfl, rfl, by simp [failedAttempts, toleratesAll]⟩
  | maybeStopForTime =>
    unfold run BuildBudgetTracker.maybeStopForTime
    dsimp only
    split <;> exact ⟨rfl, rfl, by simp [failedAttempts, toleratesAll]⟩
  | tryAcceptFile fileBytes =>
    unfold run BuildBudgetTracker.tryAcceptFile
    dsimp only
    split
    · exact ⟨rfl, rfl, by simp [failedAttempts, toleratesAll]⟩
    · split <;> exact ⟨rfl, rfl, by simp [failedAttempts, toleratesAll]⟩
  | noteParseFailure attemptedFiles =>
    have counts : (tracker.noteParseFailure attemptedFiles).2.limits = tracker.limits ∧
      (tracker.noteParseFailure attemptedFiles).2.counters.parseFailures =
      tracker.counters.parseFailures + 1 := by
      unfold BuildBudgetTracker.noteParseFailure
      dsimp only
      split
      · exact ⟨rfl, rfl⟩
      · split <;> split <;> exact ⟨rfl, rfl⟩
    refine ⟨counts.1, counts.2, ?_⟩
    rcases tracker.noteParseFailure_cases attemptedFiles with
      ⟨decision, _, tolerated⟩ | ⟨decision, _, tolerated⟩
    all_goals simp [run, decision, failedAttempts, toleratesAll, tolerated]

end

/-! ## Accepted files -/

inductive Admitting (call : TrackerCall) (tracker : BuildBudgetTracker) : Prop where
  | other (offers : offeredSizes [call] = []) (accepts : call.acceptedSize tracker = []) (files :
    (call.run tracker).2.counters.filesAccepted = tracker.counters.filesAccepted)
      (bytes : (call.run tracker).2.counters.bytesAccepted = tracker.counters.bytesAccepted)
  | refused (fileBytes : Nat) (offers : offeredSizes [call] = [fileBytes]) (accepts : call.acceptedSize tracker = [])
      (files : (call.run tracker).2.counters.filesAccepted = tracker.counters.filesAccepted)
      (bytes : (call.run tracker).2.counters.bytesAccepted = tracker.counters.bytesAccepted)
      (full : tracker.limits.maxFilesPerRun ≤ tracker.counters.filesAccepted ∨
        tracker.limits.maxTotalBytesPerRun < saturatingAdd tracker.counters.bytesAccepted fileBytes)
  | accepted (fileBytes : Nat) (offers : offeredSizes [call] = [fileBytes]) (accepts : call.acceptedSize tracker = [fileBytes])
      (files : (call.run tracker).2.counters.filesAccepted = tracker.counters.filesAccepted + 1)
      (bytes : (call.run tracker).2.counters.bytesAccepted = saturatingAdd tracker.counters.bytesAccepted fileBytes)
      (room : tracker.counters.filesAccepted < tracker.limits.maxFilesPerRun)
      (fits : saturatingAdd tracker.counters.bytesAccepted fileBytes ≤ tracker.limits.maxTotalBytesPerRun)

theorem TrackerCall.admitting (call : TrackerCall) (tracker : BuildBudgetTracker) :
    Admitting call tracker := by
  cases call with
  | setFilesDiscovered filesDiscovered | noteSkippedByFileBytes fileBytes => exact .other rfl rfl rfl rfl
  | noteScannedFileByteSkips count =>
    refine .other rfl rfl ?_ ?_ <;>
    · unfold run BuildBudgetTracker.noteScannedFileByteSkips
      dsimp only
      split <;> rfl
  | maybeStopForTime =>
    refine .other rfl rfl ?_ ?_ <;>
    · unfold run BuildBudgetTracker.maybeStopForTime
      dsimp only
      split <;> rfl
  | tryAcceptFile fileBytes =>
    by_cases many : tracker.counters.filesAccepted ≥ tracker.limits.maxFilesPerRun
    · refine .refused fileBytes rfl ?_ ?_ ?_ (.inl many) <;>
        simp [acceptedSize, run, BuildBudgetTracker.tryAcceptFile, many]
    · by_cases large : saturatingAdd tracker.counters.bytesAccepted fileBytes > tracker.limits.maxTotalBytesPerRun
      · refine .refused fileBytes rfl ?_ ?_ ?_ (.inr large) <;>
          simp [acceptedSize, run, BuildBudgetTracker.tryAcceptFile, many, large]
      · refine .accepted fileBytes rfl ?_ ?_ ?_ (by omega) (by omega) <;>
          simp [acceptedSize, run, BuildBudgetTracker.tryAcceptFile, many, large]
  | noteParseFailure attemptedFiles =>
    refine .other rfl rfl ?_ ?_ <;>
    · unfold run BuildBudgetTracker.noteParseFailure
      dsimp only
      split
      · rfl
      · split <;> split <;> rfl

private theorem saturatingAdd_min (total more : Nat) :
    saturatingAdd (min total (2 ^ 64 - 1)) more = min (total + more) (2 ^ 64 - 1) := by
  unfold saturatingAdd
  omega

section
variable {limits : BuildRunBudget}

private theorem offeredSizes_cons (call : TrackerCall) (calls : List TrackerCall) :
    offeredSizes (call :: calls) = offeredSizes [call] ++ offeredSizes calls :=
  filterMap_append (l := [call])
private theorem failedAttempts_cons (call : TrackerCall) (calls : List TrackerCall) :
    failedAttempts (call :: calls) = failedAttempts [call] ++ failedAttempts calls :=
  filterMap_append (l := [call])

theorem runCalls_within (calls : List TrackerCall) {tracker : BuildBudgetTracker} (isLimits :
    tracker.limits = limits) (files : tracker.counters.filesAccepted ≤ limits.maxFilesPerRun)
    (bytes : tracker.counters.bytesAccepted ≤ limits.maxTotalBytesPerRun) :
    (runCalls calls tracker).counters.filesAccepted ≤ limits.maxFilesPerRun ∧
      (runCalls calls tracker).counters.bytesAccepted ≤ limits.maxTotalBytesPerRun := by
  induction calls generalizing tracker with
  | nil => exact ⟨files, bytes⟩
  | cons call rest ih =>
    subst isLimits
    refine ih (TrackerCall.run_failures tracker call).1 ?_ ?_
    · cases call.admitting tracker with
      | other _ _ same _ | refused _ _ _ same _ _ => exact same ▸ files
      | accepted _ _ _ more _ room _ => exact more ▸ Nat.succ_le_of_lt room
    · cases call.admitting tracker with
      | other _ _ _ same | refused _ _ _ _ same _ => exact same ▸ bytes
      | accepted _ _ _ _ more _ fits => exact more ▸ fits

private theorem runCalls_bytes (calls : List TrackerCall) {tracker : BuildBudgetTracker}
    {total : Nat} (bytes : tracker.counters.bytesAccepted = min total (2 ^ 64 - 1)) :
    (runCalls calls tracker).counters.bytesAccepted = min (total + (acceptedSizes calls tracker).sum) (2 ^ 64 - 1) := by
  induction calls generalizing tracker total with
  | nil => exact bytes
  | cons call rest ih =>
    change (runCalls rest (call.run tracker).2).counters.bytesAccepted = _
    unfold acceptedSizes
    cases call.admitting tracker with
    | other _ accepts _ same | refused _ _ accepts _ same _ => rw [ih (same.trans bytes), accepts, nil_append]
    | accepted fileBytes _ accepts _ more _ _ =>
      rw [bytes, saturatingAdd_min] at more
      rw [ih more, accepts, sum_append, sum_singleton, Nat.add_assoc]

private theorem acceptedSizes_eq_take (calls : List TrackerCall) {tracker : BuildBudgetTracker}
    (isLimits : tracker.limits = limits) (unlimited : 2 ^ 64 - 1 ≤ limits.maxTotalBytesPerRun) :
    acceptedSizes calls tracker = (offeredSizes calls).take (limits.maxFilesPerRun - tracker.counters.filesAccepted) := by
  induction calls generalizing tracker with
  | nil => exact take_nil.symm
  | cons call rest ih =>
    subst isLimits
    have later := ih (TrackerCall.run_failures tracker call).1
    unfold acceptedSizes
    rw [later, offeredSizes_cons]
    cases call.admitting tracker with
    | other offers accepts files _ => rw [offers, accepts, files, nil_append, nil_append]
    | refused fileBytes offers accepts files _ full =>
      have many : tracker.limits.maxFilesPerRun ≤ tracker.counters.filesAccepted := by
        rcases full with many | large
        · exact many
        · unfold saturatingAdd at large
          omega
      rw [accepts, files, Nat.sub_eq_zero_of_le many, take_zero, take_zero]
      rfl
    | accepted fileBytes offers accepts files _ room _ =>
      have one : tracker.limits.maxFilesPerRun - tracker.counters.filesAccepted =
        (tracker.limits.maxFilesPerRun - (tracker.counters.filesAccepted + 1)) + 1 := by omega
      rw [offers, accepts, files, one]
      rfl

/-! ## The summary -/

private theorem toleratesAll_append (failures : Nat) (first second : List Nat) :
    toleratesAll limits failures (first ++ second) =
      (toleratesAll limits failures first && toleratesAll limits (failures + first.length) second) := by
  induction first generalizing failures with
  | nil => simp [toleratesAll]
  | cons attemptedFiles rest ih =>
    rw [cons_append, toleratesAll, toleratesAll, ih, length_cons, Bool.and_assoc]
    congr 3
    omega

theorem runCalls_reports (calls : List TrackerCall)
    {tracker : BuildBudgetTracker} (isLimits : tracker.limits = limits) :
    ∃ added, (runCalls calls tracker).reports = tracker.reports ++ added ∧
      (∀ report ∈ added, report.IsHit) ∧ (added ≠ [] ↔ cutShort calls tracker = true) ∧
      ((∃ report ∈ added, report.budgetStatus = .blocked) ↔
        toleratesAll limits tracker.counters.parseFailures (failedAttempts calls) = false) := by
  induction calls generalizing tracker with
  | nil => exact ⟨[], (append_nil _).symm, nofun, by simp [cutShort], by
      simp [failedAttempts, toleratesAll]⟩
  | cons call rest ih =>
    obtain ⟨sameLimits, failures, blocks⟩ := TrackerCall.run_failures tracker call
    obtain ⟨added, reports, hits, cut, blocked⟩ := ih (sameLimits.trans isLimits)
    rw [isLimits] at blocks
    rw [failures] at blocked
    change ∃ added, (runCalls rest (call.run tracker).2).reports = tracker.reports ++ added ∧ _
    unfold cutShort
    rw [failedAttempts_cons, toleratesAll_append, Bool.and_eq_false_iff, ← blocks, ← blocked]
    cases call.reporting tracker with
    | quiet same whole unblocked =>
      refine ⟨added, by rw [reports, same], hits, by rw [whole, Bool.false_or, cut], ?_⟩
      exact ⟨.inr, fun either => either.resolve_left unblocked⟩
    | degraded name limit seen more isCut unblocked =>
      refine ⟨.partialResult name limit seen false :: added, by simp [reports, more], ?_,
        by simp [isCut], ?_⟩
      · intro report mem
        rcases mem_cons.mp mem with rfl | later
        · exact .inl ⟨rfl, rfl⟩
        · exact hits report later
      · rw [exists_mem_cons_iff]
        exact ⟨fun either => .inr (either.resolve_left nofun), fun either => .inr (either.resolve_left unblocked)⟩
    | blocked name limit seen more isCut isBlocked =>
      refine ⟨.blocked name limit seen :: added, by simp [reports, more], ?_,
        by simp [isCut], ?_⟩
      · intro report mem
        rcases mem_cons.mp mem with rfl | later
        · exact .inr ⟨rfl, rfl⟩
        · exact hits report later
      · rw [exists_mem_cons_iff]
        exact ⟨fun _ => .inl isBlocked, fun _ => .inl rfl⟩

private theorem worst?_severity {first : BudgetReport} (rest : List BudgetReport) :
    ∃ worst, BudgetReport.worst? (first :: rest) = some worst ∧
      ∀ report ∈ first :: rest, report.budgetStatus.severity ≤ worst.budgetStatus.severity := by
  refine ⟨_, rfl, ?_⟩
  induction rest generalizing first with
  | nil =>
    intro report mem
    rw [mem_singleton.mp mem]
    exact le_rfl
  | cons second later ih =>
    rw [foldl_cons]
    by_cases atMost : first.isAtMost second = true
    · rw [if_pos atMost]
      intro report mem
      rcases mem_cons.mp mem with rfl | older
      · have step : report.budgetStatus.severity ≤ second.budgetStatus.severity := by
          have order := of_decide_eq_true atMost
          omega
        exact step.trans (ih second (.head _))
      · exact ih report older
    · rw [if_neg atMost]
      have step : second.budgetStatus.severity ≤ first.budgetStatus.severity := by
        have order := of_decide_eq_false (Bool.eq_false_iff.mpr atMost)
        omega
      intro report mem
      rcases mem_cons.mp mem with rfl | older
      · exact ih report (.head _)
      · rcases mem_cons.mp older with rfl | oldest
        · exact step.trans (ih first (.head _))
        · exact ih report (.tail _ oldest)

private theorem worst?_isPartial {reports : List BudgetReport}
    (some_ : reports ≠ []) (hits : ∀ report ∈ reports, report.IsHit) :
    ∃ worst, BudgetReport.worst? reports = some worst ∧
      (worst.isPartial = true ↔ ¬ ∃ report ∈ reports, report.budgetStatus = .blocked) := by
  cases reports with
  | nil => exact absurd rfl some_
  | cons first rest =>
    obtain ⟨worst, isWorst, bounds⟩ : ∃ worst, BudgetReport.worst? (first :: rest) = some worst ∧
      ∀ report ∈ first :: rest, report.budgetStatus.severity ≤ worst.budgetStatus.severity :=
      worst?_severity rest
    refine ⟨worst, isWorst, ?_⟩
    have mem := worst?_mem isWorst
    rcases hits worst mem with ⟨status, isPartial⟩ | ⟨status, isPartial⟩
    · refine ⟨fun _ => ?_, fun _ => isPartial⟩
      rintro ⟨report, inReports, blocked⟩
      have bound := bounds report inReports
      rw [status, blocked] at bound
      exact absurd bound (by decide)
    · rw [isPartial]
      exact ⟨nofun, fun none => absurd ⟨worst, mem, status⟩ none⟩

end

/-! ## Runs from a new tracker -/

section
variable (limits : BuildRunBudget) (clock : Nat → Nat) (calls : List TrackerCall)

/-- The budget holds, its counters count, and a run that was cut short is reported as degraded, so
that it leaves the recorded ref as it was. -/
structure KeepsBudget : Prop where
  files : (runCalls calls { limits, clock }).counters.filesAccepted ≤ limits.maxFilesPerRun
  bytes : (runCalls calls { limits, clock }).counters.bytesAccepted ≤ limits.maxTotalBytesPerRun
  counts : (runCalls calls { limits, clock }).counters.bytesAccepted = (acceptedSizes calls { limits, clock }).sum
  degraded : cutShort calls { limits, clock } = true →
    ∀ summary : UpdateSummary, summary.budget = (runCalls calls { limits, clock }).finish.2 →
      summary.isDegraded = true ∧
        ∀ (env : Env) (checkout : Checkout env.hashBytes) (dryRun : Bool) (db : Db),
        recordRef env checkout dryRun summary.isDegraded db = (.ok (), db)

end

section
variable {limits : BuildRunBudget} {clock : Nat → Nat} {calls : List TrackerCall}

private theorem recordRef_degraded {env : Env} (checkout : Checkout env.hashBytes)
    (dryRun : Bool) (db : Db) : recordRef env checkout dryRun true db = (.ok (), db) := by
  unfold recordRef
  cases checkout.head with
  | none => rfl
  | some head =>
    rw [Bool.or_true]
    rfl

theorem finish_isPartial_iff (cut : cutShort calls { limits, clock } = true) :
    (runCalls calls { limits, clock }).finish.2.isPartial = true ↔
      toleratesAll limits 0 (failedAttempts calls) = true := by
  obtain ⟨added, reports, hits, cuts, blocked⟩ := @runCalls_reports limits calls { limits, clock } rfl
  rw [nil_append] at reports
  obtain ⟨worst, isWorst, isPartial⟩ := worst?_isPartial (cuts.mpr cut) hits
  have summary : (runCalls calls { limits, clock }).finish.2 = worst := by
    unfold BuildBudgetTracker.finish
    rw [reports, isWorst]
    rfl
  rw [summary, isPartial, blocked, Bool.not_eq_false]

theorem counts_iff : (runCalls calls { limits, clock }).counters.bytesAccepted =
    (acceptedSizes calls { limits, clock }).sum ↔ countsBytes limits calls = true := by
  have bytes := @runCalls_bytes calls { limits, clock } 0 rfl
  have within := (@runCalls_within limits calls { limits, clock } rfl (Nat.zero_le _) (Nat.zero_le _)).2
  rw [Nat.zero_add] at bytes
  unfold countsBytes
  rw [decide_eq_true_iff]
  by_cases limited : limits.maxTotalBytesPerRun < 2 ^ 64 - 1
  · exact ⟨fun _ => .inl limited, fun _ => by omega⟩
  · have unlimited := @acceptedSizes_eq_take limits calls { limits, clock } rfl (by omega)
    rw [Nat.sub_zero] at unlimited
    rw [← unlimited]
    omega

private theorem cutShort_of_intolerable
    (intolerable : toleratesAll limits 0 (failedAttempts calls) = false) :
    cutShort calls { limits, clock } = true := by
  obtain ⟨added, _, _, cuts, blocked⟩ := @runCalls_reports limits calls { limits, clock } rfl
  obtain ⟨report, mem, _⟩ := blocked.mpr intolerable
  exact cuts.mp (ne_nil_of_mem mem)

/-- A run keeps its budget if no parse failure is one too many and 64 bits are enough for the bytes:
a run that blocks is reported with `partial` unset and counts as clean. -/
theorem keepsBudget_iff (limits : BuildRunBudget) (clock : Nat → Nat) (calls : List TrackerCall) :
    KeepsBudget limits clock calls ↔ toleratesAll limits 0 (failedAttempts calls) = true ∧ countsBytes limits calls = true := by
  constructor
  · intro keeps
    refine ⟨?_, counts_iff.mp keeps.counts⟩
    by_contra blocks
    have cut := @cutShort_of_intolerable limits clock calls (Bool.eq_false_iff.mpr blocks)
    -- Nothing but the budget can tell that this summary is degraded.
    obtain ⟨degraded, _⟩ := keeps.degraded cut
      { deleted := 0, renamed := 0, parsed := 0, skippedUnsupported := 0, parseErrors := 0,
        chunkUpsertFailures := 0, callTargetReconcileFailures := 0, nodesUpdated := 0,
        edgesUpdated := 0, budgetCounters := {}, budget := _ } rfl
    have isPartial : (runCalls calls { limits, clock }).finish.2.isPartial = true := by
      simpa [UpdateSummary.isDegraded] using degraded
    exact blocks ((finish_isPartial_iff cut).mp isPartial)
  · intro ⟨tolerated, counted⟩
    have within := @runCalls_within limits calls { limits, clock } rfl (Nat.zero_le _) (Nat.zero_le _)
    refine ⟨within.1, within.2, counts_iff.mpr counted, ?_⟩
    intro cut summary budget
    have degraded : summary.isDegraded = true := by
      unfold UpdateSummary.isDegraded
      rw [budget, (finish_isPartial_iff cut).mpr tolerated]
      rfl
    refine ⟨degraded, ?_⟩
    intro env checkout dryRun db
    rw [degraded]
    exact recordRef_degraded checkout dryRun db

/-- The one file of an update cannot be read: the update blocks, and is not degraded. -/
theorem keepsBudget_fails_unreadable :
    (runCalls [.setFilesDiscovered 1, .maybeStopForTime, .tryAcceptFile 10, .maybeStopForTime,
        .noteParseFailure 1] { limits := {}, clock := fun _ => 0 }).finish.2.budgetStatus = .blocked ∧
      cutShort [.setFilesDiscovered 1, .maybeStopForTime, .tryAcceptFile 10, .maybeStopForTime,
        .noteParseFailure 1] { limits := {}, clock := fun _ => 0 } = true ∧
      ¬ KeepsBudget {} (fun _ => 0) [.setFilesDiscovered 1, .maybeStopForTime, .tryAcceptFile 10,
        .maybeStopForTime, .noteParseFailure 1] := by
  refine ⟨by decide, by decide, fun keeps => ?_⟩
  obtain ⟨degraded, _⟩ := keeps.degraded (by decide)
    { deleted := 0, renamed := 0, parsed := 0, skippedUnsupported := 0, parseErrors := 1,
      chunkUpsertFailures := 0, callTargetReconcileFailures := 0, nodesUpdated := 0,
      edgesUpdated := 0, budgetCounters := {}, budget := _ } rfl
  exact absurd degraded (by decide)

end
end Atlas.Engine
