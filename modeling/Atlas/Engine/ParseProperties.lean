import Atlas.Engine.Build

/-! What the loops of a run report to its budget, and what they leave out when they do. -/
namespace Atlas.Engine
open List Core Store

theorem recordUsage_isPartial (name : String) (limit seen : Nat) (reports : List BudgetReport) :
    recordUsage .partialResult name limit seen true reports = reports ++ [.partialResult name limit seen false] := by
  simp [recordUsage]

def LeavesOut (before after : BuildBudgetTracker) : Prop := ∃ report, report.isPartial = true ∧
    after.reports = before.reports ++ [report] ∧ after.limits = before.limits

/-- Reports were only added, each of them partial. -/
structure Accounts (before after : BuildBudgetTracker) : Prop where
  reports : ∃ added, after.reports = before.reports ++ added ∧ ∀ report ∈ added, report.isPartial = true
  limits : after.limits = before.limits

namespace Accounts

variable {first second third : BuildBudgetTracker}

theorem of_eq (reports : second.reports = first.reports) (limits : second.limits = first.limits) :
    Accounts first second := ⟨⟨[], by simp [reports], by simp⟩, limits⟩

theorem of_leavesOut (left : LeavesOut first second) : Accounts first second := by
  obtain ⟨report, isPartial, reports, limits⟩ := left
  exact ⟨⟨[report], reports, by simpa using isPartial⟩, limits⟩

theorem trans (left : Accounts first second) (right : Accounts second third) :
    Accounts first third := by
  obtain ⟨⟨added, reports, isPartial⟩, limits⟩ := left
  obtain ⟨⟨more, moreReports, morePartial⟩, moreLimits⟩ := right
  refine ⟨⟨added ++ more, ?_, ?_⟩, moreLimits.trans limits⟩
  · rw [moreReports, reports, append_assoc]
  · intro report mem
    rcases mem_append.mp mem with old | new
    · exact isPartial report old
    · exact morePartial report new

theorem clear (accounts : Accounts first second) (clear : second.reports = []) :
    first.reports = [] := by
  obtain ⟨⟨added, reports, _⟩, _⟩ := accounts
  rw [clear] at reports
  exact (append_eq_nil_iff.mp reports.symm).1

end Accounts

theorem LeavesOut.not_clear {before after : BuildBudgetTracker} (left : LeavesOut before after) :
    after.reports ≠ [] := by
  obtain ⟨report, _, reports, _⟩ := left
  rw [reports]
  exact append_ne_nil_of_right_ne_nil _ (cons_ne_nil _ _)

namespace BuildBudgetTracker

variable (tracker : BuildBudgetTracker)

theorem maybeStopForTime_cases :
    (tracker.maybeStopForTime.1 = .proceed ∧ tracker.maybeStopForTime.2.reports = tracker.reports ∧
      tracker.maybeStopForTime.2.limits = tracker.limits) ∨
      (tracker.maybeStopForTime.1 = .degraded ∧ LeavesOut tracker tracker.maybeStopForTime.2) := by
  by_cases within : tracker.clock tracker.readings ≤ tracker.limits.maxWallTimeMs
  · simp [maybeStopForTime, within]
  · simp only [maybeStopForTime, within, if_false, recordUsage_isPartial]
    exact .inr ⟨trivial, _, rfl, rfl, rfl⟩

theorem tryAcceptFile_cases (fileBytes : Nat) : ((tracker.tryAcceptFile fileBytes).1 = .proceed ∧
    (tracker.tryAcceptFile fileBytes).2.reports = tracker.reports ∧
        (tracker.tryAcceptFile fileBytes).2.limits = tracker.limits) ∨
      ((tracker.tryAcceptFile fileBytes).1 = .degraded ∧ LeavesOut tracker (tracker.tryAcceptFile fileBytes).2) := by
  by_cases many : tracker.counters.filesAccepted ≥ tracker.limits.maxFilesPerRun
  · simp only [tryAcceptFile, many, if_true, recordUsage_isPartial]
    exact .inr ⟨trivial, _, rfl, rfl, rfl⟩
  · by_cases large : saturatingAdd tracker.counters.bytesAccepted fileBytes > tracker.limits.maxTotalBytesPerRun
    · simp only [tryAcceptFile, many, if_false, large, if_true, recordUsage_isPartial]
      exact .inr ⟨trivial, _, rfl, rfl, rfl⟩
    · simp only [tryAcceptFile, many, if_false, large]
      exact .inl ⟨trivial, trivial, trivial⟩

theorem noteSkippedByFileBytes_leavesOut (fileBytes : Nat) :
    LeavesOut tracker (tracker.noteSkippedByFileBytes fileBytes) := by
  simp only [noteSkippedByFileBytes, recordUsage_isPartial]
  exact ⟨_, rfl, rfl, rfl⟩

end BuildBudgetTracker

theorem worst?_mem {reports : List BudgetReport} {report : BudgetReport}
    (worst : BudgetReport.worst? reports = some report) : report ∈ reports := by
  cases reports with
  | nil => cases worst
  | cons first rest =>
    have folded : ∀ (others : List BudgetReport) (best : BudgetReport), others.foldl
      (fun best report => if best.isAtMost report then report else best) best ∈ best :: others := by
      intro others
      induction others with
      | nil => exact fun best => .head _
      | cons other later ih =>
        intro best
        rw [foldl_cons]
        have next := ih (if best.isAtMost other then other else best)
        rcases mem_cons.mp next with same | mem
        · rw [same]
          split
          · exact .tail _ (.head _)
          · exact .head _
        · exact .tail _ (.tail _ mem)
    have chosen := folded rest first
    rwa [Option.some.inj worst] at chosen

theorem Accounts.finish {start tracker : BuildBudgetTracker} (accounts : Accounts start tracker)
    (fresh : start.reports = []) (complete : tracker.finish.2.isPartial = false) :
    tracker.reports = [] := by
  obtain ⟨⟨added, reports, isPartial⟩, _⟩ := accounts
  rw [fresh, nil_append] at reports
  unfold BuildBudgetTracker.finish at complete
  cases worst : BudgetReport.worst? tracker.reports with
  | none =>
    cases all : tracker.reports with
    | nil => rfl
    | cons first rest =>
      rw [all] at worst
      cases worst
  | some report =>
    rw [worst] at complete
    change report.isPartial = false at complete
    have mem := worst?_mem worst
    rw [reports] at mem
    rw [isPartial report mem] at complete
    cases complete

section
variable {env : Env} {checkout : Checkout env.hashBytes} {owners : String → Option PackageOwner}
  {db : Db}

theorem planChanges_accounts (changes : List ChangedFile)
    (tracker : BuildBudgetTracker) (plan : Plan) :
    Accounts tracker (planChanges env checkout owners db changes tracker plan).1 := by
  induction changes generalizing tracker plan with
  | nil => exact .of_eq rfl rfl
  | cons change rest ih =>
    unfold planChanges
    rcases tracker.maybeStopForTime_cases with ⟨decision, reports, limits⟩ | ⟨decision, left⟩
    · rw [← Prod.mk.eta (p := tracker.maybeStopForTime), decision]
      exact (Accounts.of_eq reports limits).trans (ih _ _)
    · rw [← Prod.mk.eta (p := tracker.maybeStopForTime), decision]
      exact .of_leavesOut left

theorem planChanges_complete (changes : List ChangedFile) (tracker : BuildBudgetTracker) (plan :
    Plan) (clear : (planChanges env checkout owners db changes tracker plan).1.reports = []) :
    (planChanges env checkout owners db changes tracker plan).2 = changes.foldl (planChange env checkout owners db) plan := by
  induction changes generalizing tracker plan with
  | nil => rfl
  | cons change rest ih =>
    unfold planChanges at clear ⊢
    rcases tracker.maybeStopForTime_cases with ⟨decision, reports, limits⟩ | ⟨decision, left⟩
    · rw [← Prod.mk.eta (p := tracker.maybeStopForTime), decision] at clear ⊢
      exact ih _ _ clear
    · rw [← Prod.mk.eta (p := tracker.maybeStopForTime), decision] at clear
      exact absurd clear left.not_clear

end

section
variable {hashBytes : History.Bytes → String} {checkout : Checkout hashBytes}

theorem acceptFiles_ok {failFast : Bool} {label : String} (paths : List String)
    {state result : Accepting}
    (ran : acceptFiles checkout failFast label paths state = .ok result) :
    Accounts state.tracker result.tracker ∧ (∀ path ∈ result.accepted, path ∈ state.accepted ∨
      (path ∈ paths ∧ (checkout.stat path).isOk = true)) ∧
      (result.tracker.reports = [] → result.accepted = state.accepted ++ paths.filter fun path => (checkout.stat path).isOk) := by
  induction paths generalizing state with
  | nil =>
    cases ran
    exact ⟨.of_eq rfl rfl, fun _ mem => .inl mem, fun _ => (append_nil _).symm⟩
  | cons path rest ih =>
    unfold acceptFiles at ran
    cases answer : checkout.stat path with
    | error msg =>
      simp only [answer] at ran
      split at ran
      · cases ran
      · obtain ⟨accounts, accepted, complete⟩ := ih ran
        refine ⟨accounts, ?_, ?_⟩
        · intro other mem
          rcases accepted other mem with old | ⟨later, readable⟩
          · exact .inl old
          · exact .inr ⟨.tail _ later, readable⟩
        · intro clear
          rw [complete clear, filter_cons_of_neg (by simp [answer, Except.isOk, Except.toBool])]
    | ok fileBytes =>
      simp only [answer] at ran
      have readable : (checkout.stat path).isOk = true := by simp [answer, Except.isOk, Except.toBool]
      split at ran
      · have left := state.tracker.noteSkippedByFileBytes_leavesOut fileBytes
        obtain ⟨accounts, accepted, complete⟩ := ih ran
        refine ⟨(Accounts.of_leavesOut left).trans accounts, ?_, ?_⟩
        · intro other mem
          rcases accepted other mem with old | ⟨later, readable⟩
          · exact .inl old
          · exact .inr ⟨.tail _ later, readable⟩
        · intro clear
          exact absurd (accounts.clear clear) left.not_clear
      · rcases state.tracker.tryAcceptFile_cases fileBytes with
          ⟨decision, reports, limits⟩ | ⟨decision, left⟩
        · rw [← Prod.mk.eta (p := state.tracker.tryAcceptFile fileBytes), decision] at ran
          obtain ⟨accounts, accepted, complete⟩ := ih ran
          refine ⟨(Accounts.of_eq reports limits).trans accounts, ?_, ?_⟩
          · intro other mem
            rcases accepted other mem with old | ⟨later, otherReadable⟩
            · rcases mem_append.mp old with earlier | here
              · exact .inl earlier
              · rw [mem_singleton.mp here]
                exact .inr ⟨.head _, readable⟩
            · exact .inr ⟨.tail _ later, otherReadable⟩
          · intro clear
            rw [complete clear, filter_cons_of_pos (by exact readable), append_assoc]
            rfl
        · rw [← Prod.mk.eta (p := state.tracker.tryAcceptFile fileBytes), decision] at ran
          cases ran
          exact ⟨.of_leavesOut left, fun _ mem => .inl mem, fun clear => absurd clear left.not_clear⟩

end

def parsedFiles (parse : String → ParseOutcome) (paths : List String) : List ParsedFile :=
  paths.filterMap fun path =>
    match parse path with
    | .parsed file => some file
    | _ => none

theorem parsedFiles_append (parse : String → ParseOutcome) (first second : List String) :
    parsedFiles parse (first ++ second) = parsedFiles parse first ++ parsedFiles parse second :=
  filterMap_append

theorem mem_parsedFiles {parse : String → ParseOutcome} {paths : List String} {file : ParsedFile} :
    file ∈ parsedFiles parse paths ↔ ∃ path ∈ paths, parse path = .parsed file := by
  unfold parsedFiles
  rw [mem_filterMap]
  constructor
  · rintro ⟨path, mem, chosen⟩
    refine ⟨path, mem, ?_⟩
    cases outcome : parse path with
    | parsed other =>
      rw [outcome] at chosen
      rw [Option.some.inj chosen]
    | unsupported | failed msg =>
      rw [outcome] at chosen
      cases chosen
  · rintro ⟨path, mem, outcome⟩
    exact ⟨path, mem, by rw [outcome]⟩

section
variable {failFast : Bool} {label : String} {parse : String → ParseOutcome}

theorem collectResults_parsed (failFast : Bool) (label : String) (batch : List String)
    (parses : ∀ path ∈ batch, ∃ file, parse path = .parsed file) (state : Parsing)
    (unblocked : state.budgetBlocked = false) :
    ∃ attempted, collectResults failFast label (batch.map fun path => (path, parse path)) state =
      .ok { state with
        attemptedFiles := attempted
        parsed := state.parsed ++ parsedFiles parse batch } := by
  induction batch generalizing state with
  | nil => exact ⟨state.attemptedFiles, by simp [collectResults, parsedFiles]⟩
  | cons path rest ih =>
    obtain ⟨file, outcome⟩ := parses path (.head _)
    obtain ⟨attempted, later⟩ := ih (fun other mem => parses other (.tail _ mem))
      { state with
        attemptedFiles := state.attemptedFiles + 1
        parsed := state.parsed ++ [file] } unblocked
    refine ⟨attempted, ?_⟩
    simp only [unblocked] at later
    simp only [map_cons, collectResults, collectOutcome, outcome, unblocked, Bool.false_eq_true, if_false]
    rw [later]
    simp [parsedFiles, outcome]

theorem parseBatches_parsed (batches : List (List String)) (parses : ∀ path ∈ batches.flatten,
    ∃ file, parse path = .parsed file) (state : Parsing) (unblocked : state.budgetBlocked = false) :
    ∃ next, parseBatches failFast label parse batches state = .ok next ∧
      next.budgetBlocked = false ∧ Accounts state.tracker next.tracker ∧
      (∀ file ∈ next.parsed, file ∈ state.parsed ∨ file ∈ parsedFiles parse batches.flatten) ∧
      (next.tracker.reports = [] →
        next.parsed = state.parsed ++ parsedFiles parse batches.flatten) := by
  induction batches generalizing state with
  | nil => exact ⟨state, rfl, unblocked, .of_eq rfl rfl, fun _ mem => .inl mem, fun _ => (append_nil _).symm⟩
  | cons batch rest ih =>
    unfold parseBatches
    rcases state.tracker.maybeStopForTime_cases with ⟨decision, reports, limits⟩ | ⟨decision, left⟩
    · rw [← Prod.mk.eta (p := state.tracker.maybeStopForTime), decision]
      obtain ⟨attempted, collected⟩ := collectResults_parsed failFast label batch
        (fun path mem => parses path (mem_append_left _ mem))
        { state with tracker := state.tracker.maybeStopForTime.2 } unblocked
      obtain ⟨next, ran, nextUnblocked, accounts, parsed, complete⟩ := ih (fun path mem => parses path (mem_append_right _ mem))
        { state with
          tracker := state.tracker.maybeStopForTime.2
          attemptedFiles := attempted
          parsed := state.parsed ++ parsedFiles parse batch } unblocked
      refine ⟨next, ?_, nextUnblocked, (Accounts.of_eq reports limits).trans accounts, ?_, ?_⟩
      · simp only [collected]
        rw [if_neg (by simp [unblocked])]
        exact ran
      · intro file mem
        rw [flatten_cons, parsedFiles_append]
        rcases parsed file mem with earlier | later
        · rcases mem_append.mp earlier with old | here
          · exact .inl old
          · exact .inr (mem_append_left _ here)
        · exact .inr (mem_append_right _ later)
      · intro clear
        rw [complete clear, flatten_cons, parsedFiles_append, append_assoc]
    · rw [← Prod.mk.eta (p := state.tracker.maybeStopForTime), decision]
      exact ⟨_, rfl, unblocked, .of_leavesOut left, fun _ mem => .inl mem, fun clear => absurd clear left.not_clear⟩

end

def Readable (env : Env)
    (checkout : Checkout env.hashBytes) (owners : String → Option PackageOwner) : Prop :=
  ∀ path, env.registry.supports path = true →
    (checkout.stat path).isOk = true → ∃ file, parsePath env checkout owners path = .parsed file

section
variable {env : Env} {checkout : Checkout env.hashBytes} {owners : String → Option PackageOwner}
  {options : UpdateOptions} {statLabel label : String} {paths : List String} {state next : Parsing}

theorem parsePhase_ok (readable : Readable env checkout owners)
    (unblocked : state.budgetBlocked = false)
    (ran : parsePhase env checkout options owners statLabel label paths state = .ok next) :
    next.budgetBlocked = false ∧
      Accounts state.tracker next.tracker ∧ (∀ file ∈ next.parsed, ∃ path ∈ paths,
      env.registry.supports path = true ∧ parsePath env checkout owners path = .parsed file) ∧
      (next.tracker.reports = [] → next.parsed = parsedFiles (parsePath env checkout owners)
        ((paths.filter fun path => env.registry.supports path).filter fun path =>
          (checkout.stat path).isOk)) := by
  unfold parsePhase at ran
  obtain ⟨accepted, accepting, ran⟩ := Program.bind_eq_ok ran
  obtain ⟨accounts, members, complete⟩ := acceptFiles_ok _ accepting
  have supported : ∀ path ∈ accepted.accepted, path ∈ paths ∧
    env.registry.supports path = true ∧ (checkout.stat path).isOk = true := by
    intro path mem
    rcases members path mem with old | ⟨candidate, inspected⟩
    · cases old
    · obtain ⟨listed, supports⟩ := mem_filter.mp candidate
      exact ⟨listed, supports, inspected⟩
  have batched := flatten_chunks options.batchPositive accepted.accepted
  obtain ⟨reached, batches, stillUnblocked, batchAccounts, parsed, batchComplete⟩ :=
    parseBatches_parsed (chunks options.batchSize accepted.accepted) (by
        rw [batched]
        intro path mem
        obtain ⟨_, supports, inspected⟩ := supported path mem
        exact readable path supports inspected)
      { state with
        tracker := accepted.tracker
        parsed := []
        parseErrors := accepted.parseErrors
        skippedUnsupported := state.skippedUnsupported +
          (paths.length - (paths.filter fun path => env.registry.supports path).length) }
      unblocked
  rw [batches] at ran
  cases ran
  rw [batched] at parsed batchComplete
  refine ⟨stillUnblocked, accounts.trans batchAccounts, ?_, ?_⟩
  · intro file mem
    rcases parsed file mem with old | new
    · cases old
    · obtain ⟨path, accept, outcome⟩ := mem_parsedFiles.mp new
      obtain ⟨listed, supports, _⟩ := supported path accept
      exact ⟨path, listed, supports, outcome⟩
  · intro clear
    rw [batchComplete clear, complete (batchAccounts.clear clear), nil_append, nil_append]

end
end Atlas.Engine
