import Atlas.Program.Selection
import Mathlib.Data.Prod.Lex

/-! Operational budget of one build or update run. -/
namespace Atlas.Engine
open List

structure BuildRunBudget where
  maxFilesPerRun : Nat := 10000
  maxTotalBytesPerRun : Nat := 64 * 1024 * 1024
  maxFileBytes : Nat := 10 * 1024 * 1024
  maxParseFailures : Nat := 100
  maxParseFailureRatioBps : Nat := 2500
  maxWallTimeMs : Nat := 30000

inductive BuildBudgetDecision where
  | proceed | degraded | blocked
  deriving DecidableEq

inductive BudgetStatus where
  | withinBudget | overrideClamped | partialResult | blocked
  deriving DecidableEq

def BudgetStatus.severity : BudgetStatus → Nat
  | .withinBudget => 0
  | .overrideClamped => 1
  | .partialResult => 2
  | .blocked => 3

structure BudgetReport where
  budgetStatus : BudgetStatus
  budgetHit : Bool
  budgetName : String
  (budgetLimit budgetObserved : Nat)
  (isPartial safeToAnswer : Bool)
  deriving DecidableEq

namespace BudgetReport

def withinBudget (name : String) (limit seen : Nat) : BudgetReport :=
  ⟨.withinBudget, false, name, limit, seen, false, true⟩
def partialResult (name : String) (limit seen : Nat) (safeToAnswer : Bool) : BudgetReport :=
  ⟨.partialResult, true, name, limit, seen, true, safeToAnswer⟩
def blocked (name : String) (limit seen : Nat) : BudgetReport :=
  ⟨.blocked, true, name, limit, seen, false, false⟩

def isAtMost (left right : BudgetReport) : Bool :=
  decide (left.budgetStatus.severity < right.budgetStatus.severity ∨
    (left.budgetStatus.severity = right.budgetStatus.severity ∧ left.budgetObserved ≤ right.budgetObserved))

def worst? : List BudgetReport → Option BudgetReport
  | [] => none
  | first :: rest => some (rest.foldl (fun best report => if best.isAtMost report then report else best) first)

end BudgetReport

inductive BudgetHitBehavior where
  | failClosed | partialResult

/-- `BudgetManager::record_usage`, on the reports so far. No rule of a build or update
run is safe to answer once it is hit. -/
def recordUsage (behavior : BudgetHitBehavior) (name : String)
    (limit seen : Nat) (isPartial : Bool) (reports : List BudgetReport) : List BudgetReport :=
  if seen ≤ limit ∧ isPartial = false then reports
  else
    match behavior with
    | .failClosed => reports ++ [.blocked name limit seen]
    | .partialResult => reports ++ [.partialResult name limit seen false]

structure BuildUpdateBudgetCounters where
  filesDiscovered : Nat := 0
  filesAccepted : Nat := 0
  filesSkippedByByteBudget : Nat := 0
  bytesAccepted : Nat := 0
  bytesSkipped : Nat := 0
  parseFailures : Nat := 0
  budgetStopReason : Option String := none

def saturatingAdd (left right : Nat) : Nat := min (left + right) (2 ^ 64 - 1)

structure BuildBudgetTracker where
  limits : BuildRunBudget
  clock : Nat → Nat
  readings : Nat := 0
  reports : List BudgetReport := []
  counters : BuildUpdateBudgetCounters := {}

namespace BuildBudgetTracker

variable (tracker : BuildBudgetTracker)

def setFilesDiscovered (filesDiscovered : Nat) : BuildBudgetTracker :=
  { tracker with counters := { tracker.counters with filesDiscovered := filesDiscovered } }

def noteSkippedByFileBytes (fileBytes : Nat) : BuildBudgetTracker :=
  { tracker with
    counters := { tracker.counters with
      filesSkippedByByteBudget := tracker.counters.filesSkippedByByteBudget + 1
      bytesSkipped := saturatingAdd tracker.counters.bytesSkipped fileBytes
      budgetStopReason := tracker.counters.budgetStopReason <|> some "max_file_bytes" }
    reports := recordUsage .partialResult "build_update.max_file_bytes" tracker.limits.maxFileBytes
      fileBytes true tracker.reports }

def noteScannedFileByteSkips (count : Nat) : BuildBudgetTracker :=
  if count = 0 then tracker
  else
    { tracker with
      counters := { tracker.counters with
        filesSkippedByByteBudget := tracker.counters.filesSkippedByByteBudget + count
        budgetStopReason := tracker.counters.budgetStopReason <|> some "max_file_bytes" }
      reports := recordUsage .partialResult "build_update.max_file_bytes"
        tracker.limits.maxFileBytes (tracker.limits.maxFileBytes + 1) true tracker.reports }

def maybeStopForTime : BuildBudgetDecision × BuildBudgetTracker :=
  let elapsedMs := tracker.clock tracker.readings
  let read := { tracker with readings := tracker.readings + 1 }
  if elapsedMs ≤ tracker.limits.maxWallTimeMs then (.proceed, read)
  else
    (.degraded, { read with
      counters := { tracker.counters with budgetStopReason := some "max_wall_time_ms" }
      reports := recordUsage .partialResult "build_update.max_wall_time_ms"
        tracker.limits.maxWallTimeMs elapsedMs true tracker.reports })

def tryAcceptFile (fileBytes : Nat) : BuildBudgetDecision × BuildBudgetTracker :=
  let counters := tracker.counters
  let nextBytes := saturatingAdd counters.bytesAccepted fileBytes
  if counters.filesAccepted ≥ tracker.limits.maxFilesPerRun then
    (.degraded, { tracker with
      counters := { counters with budgetStopReason := some "max_files_per_run" }
      reports := recordUsage .partialResult "build_update.max_files_per_run"
        tracker.limits.maxFilesPerRun (saturatingAdd counters.filesAccepted 1) true
        tracker.reports })
  else if nextBytes > tracker.limits.maxTotalBytesPerRun then
    (.degraded, { tracker with
      counters := { counters with
        filesSkippedByByteBudget := counters.filesSkippedByByteBudget + 1
        bytesSkipped := saturatingAdd counters.bytesSkipped fileBytes
        budgetStopReason := some "max_total_bytes_per_run" }
      reports := recordUsage .partialResult "build_update.max_total_bytes_per_run"
        tracker.limits.maxTotalBytesPerRun nextBytes true tracker.reports })
  else
    (.proceed, { tracker with
      counters := { counters with
        filesAccepted := counters.filesAccepted + 1
        bytesAccepted := nextBytes } })

def noteParseFailure (attemptedFiles : Nat) : BuildBudgetDecision × BuildBudgetTracker :=
  let failures := tracker.counters.parseFailures + 1
  let counters := { tracker.counters with parseFailures := failures }
  let ratioBps := if attemptedFiles = 0 then 0 else failures * 10000 / attemptedFiles
  if failures > tracker.limits.maxParseFailures then
    (.blocked, { tracker with
      counters := { counters with budgetStopReason := some "max_parse_failures" }
      reports := recordUsage .failClosed "build_update.max_parse_failures"
        tracker.limits.maxParseFailures failures false tracker.reports })
  else if ratioBps > tracker.limits.maxParseFailureRatioBps then
    (.blocked, { tracker with
      counters := { counters with budgetStopReason := some "max_parse_failure_ratio" }
      reports := recordUsage .failClosed "build_update.max_parse_failure_ratio"
        tracker.limits.maxParseFailureRatioBps ratioBps false tracker.reports })
  else (.proceed, { tracker with counters := counters })

def finish : BuildUpdateBudgetCounters × BudgetReport :=
  let counters := tracker.counters
  let seen := max (max counters.parseFailures counters.filesSkippedByByteBudget)
    counters.filesAccepted
  (counters, (BudgetReport.worst? tracker.reports).getD (.withinBudget "build_update" (max counters.filesAccepted 1) seen))

end BuildBudgetTracker

/-! Every stage records its reports through one manager and answers with a single
one of them. The severity and the observed amount of the answer are the greatest
recorded; its flags are those of the one report that was chosen. -/

open Program

namespace BudgetReport

def notApplicable : BudgetReport := .withinBudget "none" 0 0
def overrideClamped (name : String) (limit seen : Nat) : BudgetReport :=
  ⟨.overrideClamped, true, name, limit, seen, false, true⟩

def isWorseThan (left right : BudgetReport) : Bool :=
  decide (left.budgetStatus.severity > right.budgetStatus.severity ∨
    (left.budgetStatus.severity = right.budgetStatus.severity ∧ left.budgetObserved > right.budgetObserved))

def merge (self other : BudgetReport) : BudgetReport :=
  if other.isWorseThan self then other else self

def rank (report : BudgetReport) : Nat ×ₗ Nat :=
  toLex (report.budgetStatus.severity, report.budgetObserved)

inductive Constructed : BudgetReport → Prop where
  | withinBudget (name : String) (limit seen : Nat) : Constructed (.withinBudget name limit seen)
  | overrideClamped (name : String) (limit seen : Nat) : Constructed (.overrideClamped name limit seen)
  | partialResult (name : String) (limit seen : Nat) (safeToAnswer : Bool) :
    Constructed (.partialResult name limit seen safeToAnswer)
  | blocked (name : String) (limit seen : Nat) : Constructed (.blocked name limit seen)

end BudgetReport

namespace BudgetManager

inductive BudgetHitBehavior where
  | clamp | partialResult | failClosed

structure BudgetLimitRule where
  (defaultLimit maxLimit : Nat)
  hitBehavior : BudgetHitBehavior
  safeToAnswerOnHit : Bool

end BudgetManager

open BudgetManager (BudgetLimitRule)

structure BudgetManager where
  reports : List BudgetReport := []

namespace BudgetManager

def resolveLimit (manager : BudgetManager)
    (rule : BudgetLimitRule) (name : String) (requested : Option Nat) : BudgetManager × Nat :=
  let seen := requested.getD rule.defaultLimit
  if seen ≤ rule.maxLimit then (manager, seen)
  else
    let report :=
      match rule.hitBehavior with
      | .clamp => BudgetReport.overrideClamped name rule.maxLimit seen
      | .partialResult => BudgetReport.partialResult name rule.maxLimit seen rule.safeToAnswerOnHit
      | .failClosed => BudgetReport.blocked name rule.maxLimit seen
    (⟨manager.reports ++ [report]⟩, rule.maxLimit)

def recordReport (manager : BudgetManager) (report : BudgetReport) : BudgetManager :=
  if report.budgetHit then ⟨manager.reports ++ [report]⟩ else manager

def recordUsage (manager : BudgetManager) (rule : BudgetLimitRule)
    (name : String) (limit seen : Nat) (isPartial : Bool) : BudgetManager :=
  if seen ≤ limit ∧ isPartial = false then manager
  else
    let report :=
      match rule.hitBehavior with
      | .failClosed => BudgetReport.blocked name limit seen
      | .clamp | .partialResult => BudgetReport.partialResult name limit seen rule.safeToAnswerOnHit
    ⟨manager.reports ++ [report]⟩

def summary (manager : BudgetManager) (defaultName : String) (limit seen : Nat) : BudgetReport :=
  (BudgetReport.worst? manager.reports).getD (.withinBudget defaultName limit seen)

inductive Call where
  | resolveLimit (rule : BudgetLimitRule) (name : String) (requested : Option Nat)
  | recordUsage (rule : BudgetLimitRule) (name : String) (limit seen : Nat) (isPartial : Bool)
  | recordReport (report : BudgetReport)

def call (manager : BudgetManager) : Call → BudgetManager
  | .resolveLimit rule name requested => (manager.resolveLimit rule name requested).1
  | .recordUsage rule name limit seen isPartial => manager.recordUsage rule name limit seen isPartial
  | .recordReport report => manager.recordReport report

def run (calls : List Call) : BudgetManager := calls.foldl call {}
def ReportsConstructed (calls : List Call) : Prop :=
  ∀ report, .recordReport report ∈ calls → report.Constructed

theorem reports_call (manager : BudgetManager) (step : Call) :
    ∃ added, (manager.call step).reports = manager.reports ++ added ∧ ∀ report ∈ added,
      report.Constructed ∨ step = .recordReport report := by
  cases step with
  | resolveLimit rule name requested =>
    simp only [call, resolveLimit]
    split
    · exact ⟨[], (append_nil _).symm, nofun⟩
    · refine ⟨[_], rfl, ?_⟩
      intro report mem
      rw [mem_singleton.mp mem]
      cases rule.hitBehavior with
      | clamp => exact .inl (.overrideClamped _ _ _)
      | partialResult => exact .inl (.partialResult _ _ _ _)
      | failClosed => exact .inl (.blocked _ _ _)
  | recordUsage rule name limit seen isPartial =>
    simp only [call, recordUsage]
    split
    · exact ⟨[], (append_nil _).symm, nofun⟩
    · refine ⟨[_], rfl, ?_⟩
      intro report mem
      rw [mem_singleton.mp mem]
      cases rule.hitBehavior with
      | clamp | partialResult => exact .inl (.partialResult _ _ _ _)
      | failClosed => exact .inl (.blocked _ _ _)
  | recordReport report =>
    simp only [call, recordReport]
    split
    · refine ⟨[report], rfl, ?_⟩
      intro other mem
      rw [mem_singleton.mp mem]
      exact .inr rfl
    · exact ⟨[], (append_nil _).symm, nofun⟩

theorem constructed_foldl {calls : List Call} (given : ReportsConstructed calls)
    {manager : BudgetManager} (before : ∀ report ∈ manager.reports, report.Constructed) :
    ∀ report ∈ (calls.foldl call manager).reports, report.Constructed := by
  induction calls generalizing manager with
  | nil => exact before
  | cons step rest ih =>
    apply ih fun report mem => given report (.tail _ mem)
    obtain ⟨added, grown, made⟩ := reports_call manager step
    intro report mem
    rw [grown] at mem
    rcases mem_append.mp mem with old | new
    · exact before report old
    · rcases made report new with constructed | handed
      · exact constructed
      · exact given report (handed ▸ mem_cons_self)

end BudgetManager

/-! ## The selected report -/

namespace BudgetReport

variable {left right report : BudgetReport}

theorem rank_le_iff : left.rank ≤ right.rank ↔ left.isAtMost right = true := by
  unfold rank isAtMost
  rw [Prod.Lex.toLex_le_toLex, decide_eq_true_eq]

theorem rank_lt_iff : left.rank < right.rank ↔ right.isWorseThan left = true := by
  unfold rank isWorseThan
  rw [Prod.Lex.toLex_lt_toLex, decide_eq_true_eq]
  constructor
  all_goals
    rintro (order | ⟨same, order⟩)
    · exact .inl order
    · exact .inr ⟨same.symm, order⟩

theorem rank_eq_iff : left.rank = right.rank ↔ left.budgetStatus.severity =
    right.budgetStatus.severity ∧ left.budgetObserved = right.budgetObserved := by
  unfold rank
  rw [toLex_inj, Prod.mk.injEq]

theorem worst?_eq_lastGreatest? (reports : List BudgetReport) :
    worst? reports = lastGreatest? rank reports := by
  cases reports with
  | nil => rfl
  | cons first rest =>
    unfold worst? lastGreatest?
    simp only [rank_le_iff]

theorem keepsGreater_merge : KeepsGreater rank merge := by
  intro best item
  unfold merge
  by_cases worse : item.isWorseThan best = true
  · exact .inr ⟨if_pos worse, (rank_lt_iff.mpr worse).le⟩
  · refine .inl ⟨if_neg worse, ?_⟩
    exact not_lt.mp fun order => worse (rank_lt_iff.mp order)

theorem Constructed.severity_of_isPartial (constructed : report.Constructed)
    (isPartial : report.isPartial = true) : report.budgetStatus = .partialResult := by
  cases constructed with
  | withinBudget | overrideClamped => cases isPartial
  | partialResult => rfl
  | blocked => cases isPartial

theorem Constructed.partial_or_blocked (constructed : report.Constructed)
    (severe : BudgetStatus.partialResult.severity ≤ report.budgetStatus.severity) :
    report.isPartial = true ∨ report.budgetStatus = .blocked := by
  cases constructed with
  | withinBudget =>
    change 2 ≤ 0 at severe
    omega
  | overrideClamped =>
    change 2 ≤ 1 at severe
    omega
  | partialResult => exact .inl rfl
  | blocked => exact .inr rfl

end BudgetReport

namespace BudgetManager

/-- Some unsafe report is ahead of every safe one: more severe, or as severe with more observed,
or recorded later with the same of both. -/
def UnsafeAhead (reports : List BudgetReport) : Prop :=
  ∃ before report after, reports = before ++ report :: after ∧ report.safeToAnswer = false ∧
    (∀ other ∈ before, other.safeToAnswer = true → other.isAtMost report = true) ∧
    ∀ other ∈ after, other.safeToAnswer = true → report.isWorseThan other = true

section
variable {manager : BudgetManager} {report : BudgetReport} (name : String) (limit seen : Nat)

theorem summary_of_mem (recorded : report ∈ manager.reports) :
    lastGreatest? BudgetReport.rank manager.reports = some (manager.summary name limit seen) := by
  cases worst : lastGreatest? BudgetReport.rank manager.reports with
  | none =>
    rw [lastGreatest?_eq_none_iff.mp worst] at recorded
    cases recorded
  | some greatest =>
    unfold summary
    rw [BudgetReport.worst?_eq_lastGreatest?, worst]
    rfl

theorem rank_le_summary (recorded : report ∈ manager.reports) :
    report.isAtMost (manager.summary name limit seen) = true :=
  BudgetReport.rank_le_iff.mp (le_lastGreatest? (summary_of_mem name limit seen recorded) report recorded)

theorem summary_unsafe_iff (recorded : manager.reports ≠ []) :
    (manager.summary name limit seen).safeToAnswer = false ↔ UnsafeAhead manager.reports := by
  obtain ⟨report, mem⟩ := exists_mem_of_ne_nil _ recorded
  have worst := summary_of_mem name limit seen mem
  rw [lastGreatest?_has_iff worst fun report => report.safeToAnswer = false]
  simp only [UnsafeAhead, Bool.not_eq_false, BudgetReport.rank_le_iff, BudgetReport.rank_lt_iff]

theorem rank_merge_eq_summary {first : BudgetReport}
    {rest : List BudgetReport} (same : (first :: rest).Perm manager.reports) :
    (rest.foldl BudgetReport.merge first).rank = (manager.summary name limit seen).rank := by
  have worst := summary_of_mem name limit seen (same.subset (.head _))
  have merged := mem_foldl_keep BudgetReport.keepsGreater_merge first rest
  apply le_antisymm
  · exact le_lastGreatest? worst _ (same.subset merged)
  · have mem := mem_of_lastGreatest? worst
    exact le_foldl_keep BudgetReport.keepsGreater_merge first rest _ (same.symm.subset mem)

theorem rank_merge_default {order : List BudgetReport}
    (same : order.Perm manager.reports) (recorded : manager.reports ≠ []) :
    (order.foldl BudgetReport.merge .notApplicable).rank = (manager.summary name limit seen).rank := by
  obtain ⟨report, mem⟩ := exists_mem_of_ne_nil _ recorded
  have worst := summary_of_mem name limit seen mem
  have chosen := mem_of_lastGreatest? worst
  have least : BudgetReport.notApplicable.rank ≤ (manager.summary name limit seen).rank := by
    rw [BudgetReport.rank_le_iff, BudgetReport.isAtMost, decide_eq_true_eq]
    change 0 < _ ∨ 0 = _ ∧ 0 ≤ _
    omega
  apply le_antisymm
  · rcases mem_cons.mp (mem_foldl_keep BudgetReport.keepsGreater_merge BudgetReport.notApplicable order) with start | inOrder
    · rw [start]
      exact least
    · exact le_lastGreatest? worst _ (same.subset inOrder)
  · exact le_foldl_keep BudgetReport.keepsGreater_merge BudgetReport.notApplicable order _ (.tail _ (same.symm.subset chosen))

end

theorem constructed_run {calls : List Call} (given : ReportsConstructed calls) :
    ∀ report ∈ (run calls).reports, report.Constructed := constructed_foldl given nofun

/-- The summary has the greatest severity and observed amount, however the reports are merged.
It is unsafe exactly when an unsafe report is ahead of the safe ones. -/
theorem summary_run (calls : List Call)
    (name : String) (limit seen : Nat) (recorded : (run calls).reports ≠ []) :
    (run calls).summary name limit seen ∈ (run calls).reports ∧ (∀ report ∈ (run calls).reports,
      report.isAtMost ((run calls).summary name limit seen) = true) ∧
      (∀ first rest, (first :: rest).Perm (run calls).reports → (rest.foldl BudgetReport.merge
        first).budgetStatus.severity = ((run calls).summary name limit seen).budgetStatus.severity ∧
          (rest.foldl BudgetReport.merge first).budgetObserved = ((run calls).summary name limit seen).budgetObserved) ∧
      (∀ order : List BudgetReport, order.Perm (run calls).reports →
        (order.foldl BudgetReport.merge .notApplicable).budgetStatus.severity =
            ((run calls).summary name limit seen).budgetStatus.severity ∧
          (order.foldl BudgetReport.merge .notApplicable).budgetObserved = ((run calls).summary name limit seen).budgetObserved) ∧
      (((run calls).summary name limit seen).safeToAnswer = false ↔ UnsafeAhead (run calls).reports) ∧
      (ReportsConstructed calls → ∀ report ∈ (run calls).reports, report.isPartial = true →
        ((run calls).summary name limit seen).isPartial = true ∨
          ((run calls).summary name limit seen).budgetStatus = .blocked) := by
  obtain ⟨some_, mem⟩ := exists_mem_of_ne_nil _ recorded
  have chosen := mem_of_lastGreatest? (summary_of_mem name limit seen mem)
  refine ⟨chosen, fun report => rank_le_summary name limit seen, ?_, ?_, summary_unsafe_iff name limit seen recorded, ?_⟩
  · intro first rest same
    exact BudgetReport.rank_eq_iff.mp (rank_merge_eq_summary name limit seen same)
  · intro order same
    exact BudgetReport.rank_eq_iff.mp (rank_merge_default name limit seen same recorded)
  · intro given report inReports isPartial
    have constructed := constructed_run given
    apply (constructed _ chosen).partial_or_blocked
    have order := of_decide_eq_true (rank_le_summary name limit seen inReports)
    rw [(constructed report inReports).severity_of_isPartial isPartial] at order
    omega

theorem summary_of_none {manager : BudgetManager}
    (name : String) (limit seen : Nat) (none : manager.reports = []) :
    manager.summary name limit seen = .withinBudget name limit seen := by
  unfold summary
  rw [none]
  rfl

def Hitting (manager : BudgetManager) : Prop := ∀ report ∈ manager.reports, report.budgetHit = true

section
variable {manager : BudgetManager}

theorem Hitting.resolveLimit (hitting : manager.Hitting) (rule : BudgetLimitRule) (name : String)
    (requested : Option Nat) : (manager.resolveLimit rule name requested).1.Hitting := by
  unfold BudgetManager.resolveLimit
  dsimp only
  split
  · exact hitting
  · intro report mem
    rcases mem_append.mp mem with old | new
    · exact hitting report old
    · rw [mem_singleton.mp new]
      cases rule.hitBehavior <;> rfl

theorem Hitting.recordUsage (hitting : manager.Hitting)
    (rule : BudgetLimitRule) (name : String) (limit seen : Nat) (isPartial : Bool) :
    (manager.recordUsage rule name limit seen isPartial).Hitting := by
  unfold BudgetManager.recordUsage
  dsimp only
  split
  · exact hitting
  · intro report mem
    rcases mem_append.mp mem with old | new
    · exact hitting report old
    · rw [mem_singleton.mp new]
      cases rule.hitBehavior <;> rfl

variable {rule : BudgetLimitRule} {name : String}

theorem resolveLimit_silent_iff {requested : Option Nat} :
    (manager.resolveLimit rule name requested).1.reports = [] ↔
      manager.reports = [] ∧ (manager.resolveLimit rule name requested).2 = requested.getD rule.defaultLimit := by
  unfold resolveLimit
  dsimp only
  split
  · simp
  · rename_i exceeds
    have other : ¬ rule.maxLimit = requested.getD rule.defaultLimit := by omega
    simp [other]

theorem recordUsage_silent_iff {limit seen : Nat}
    {isPartial : Bool} :
    (manager.recordUsage rule name limit seen isPartial).reports = [] ↔
      manager.reports = [] ∧ seen ≤ limit ∧ isPartial = false := by
  unfold recordUsage
  split
  · rename_i silent
    simp [silent]
  · rename_i told
    simp [told]

theorem Hitting.summary_hit_iff (hitting : manager.Hitting) (name : String) (limit seen : Nat) :
    ((manager.summary name limit seen).budgetHit = true ∨
      (manager.summary name limit seen).isPartial = true) ↔ manager.reports ≠ [] := by
  constructor
  · intro told silent
    rw [summary_of_none name limit seen silent] at told
    rcases told with told | told <;> cases told
  · intro recorded
    obtain ⟨report, mem⟩ := exists_mem_of_ne_nil _ recorded
    exact .inl (hitting _ (mem_of_lastGreatest? (summary_of_mem name limit seen mem)))

end

/-- Two partial results of one run: the smaller one is not safe to answer. -/
def sampleCalls : List Call :=
  [.recordUsage ⟨50, 200, .partialResult, false⟩ "build_update.max_files_per_run" 50 75 true,
   .recordUsage ⟨50, 200, .partialResult, true⟩ "mcp_cli_payload_serialization.max_context_payload_bytes" 50 100 true]

theorem sampleCalls_summary : (run sampleCalls).summary "none" 0 0 ∈ (run sampleCalls).reports ∧
    ((run sampleCalls).summary "none" 0 0).isPartial = true := by
  have spec := summary_run sampleCalls "none" 0 0 (by decide)
  obtain ⟨mem, -, -, -, -, isPartial⟩ := spec
  refine ⟨mem, ?_⟩
  rcases isPartial nofun _ mem (by decide) with holds | blocked
  · exact holds
  · exact absurd blocked (by decide)

/-- A handed-over report need not be a constructed one. -/
theorem sampleCalls_upgraded : (¬ ∀ (calls : List Call) (name : String) (limit seen : Nat),
      ∀ report ∈ (run calls).reports, report.safeToAnswer = false → ((run calls).summary name limit seen).safeToAnswer = false) ∧
    ¬ ∀ (calls : List Call) (name : String) (limit seen : Nat), ∀ report ∈ (run calls).reports, report.isPartial = true →
        ((run calls).summary name limit seen).isPartial = true ∨
          ((run calls).summary name limit seen).budgetStatus = .blocked := by
  constructor
  · intro always
    exact absurd (always sampleCalls "none" 0 0
      (.partialResult "build_update.max_files_per_run" 50 75 false) (by decide) rfl) (by decide)
  · intro always
    have recorded := always [.recordReport ⟨.overrideClamped, true, "depth", 3, 5, true, true⟩,
      .recordReport (.overrideClamped "nodes" 10 20)] "none" 0 0
      ⟨.overrideClamped, true, "depth", 3, 5, true, true⟩ (by decide) rfl
    exact absurd recorded (by decide)

end BudgetManager

end Atlas.Engine
