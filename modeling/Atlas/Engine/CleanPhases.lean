import Atlas.Engine.ParseProperties

/-! Parse phases of an update that count no parse error. -/
namespace Atlas.Engine
open List Core Store

section
variable {hashBytes : History.Bytes → String} {checkout : Checkout hashBytes}
  {failFast : Bool} {label : String} {state result : Accepting}

section
variable (paths : List String) (ran : acceptFiles checkout failFast label paths state = .ok result)
include paths ran

theorem acceptFiles_parseErrors : state.parseErrors ≤ result.parseErrors := by
  induction paths generalizing state with
  | nil =>
    cases ran
    exact le_rfl
  | cons path rest ih =>
    unfold acceptFiles at ran
    cases answer : checkout.stat path with
    | error msg =>
      simp only [answer] at ran
      split at ran
      · cases ran
      · exact (Nat.le_succ _).trans (ih ran)
    | ok fileBytes =>
      simp only [answer] at ran
      split at ran
      · have counted := ih ran
        exact counted
      · split at ran
        · have counted := ih ran
          exact counted
        · cases ran
          exact le_rfl

theorem acceptFiles_clean (clean : result.parseErrors = state.parseErrors)
    (clear : result.tracker.reports = []) : ∀ path ∈ paths, (checkout.stat path).isOk = true := by
  induction paths generalizing state with
  | nil => simp
  | cons path rest ih =>
    unfold acceptFiles at ran
    cases answer : checkout.stat path with
    | error msg =>
      simp only [answer] at ran
      split at ran
      · cases ran
      · have counted := acceptFiles_parseErrors rest ran
        dsimp only at counted
        omega
    | ok fileBytes =>
      simp only [answer] at ran
      have inspected : (checkout.stat path).isOk = true := by simp [answer, Except.isOk, Except.toBool]
      have rest : ∀ other ∈ rest, (checkout.stat other).isOk = true := by
        split at ran
        · exact ih ran clean
        · rcases state.tracker.tryAcceptFile_cases fileBytes with
            ⟨decision, _, _⟩ | ⟨decision, left⟩
          · rw [← Prod.mk.eta (p := state.tracker.tryAcceptFile fileBytes), decision] at ran
            exact ih ran clean
          · rw [← Prod.mk.eta (p := state.tracker.tryAcceptFile fileBytes), decision] at ran
            cases ran
            exact absurd clear left.not_clear
      intro other mem
      cases mem_cons.mp mem with
      | inl same => exact same ▸ inspected
      | inr later => exact rest other later

end
end

section
variable {failFast : Bool} {label : String} {parse : String → ParseOutcome} {state next : Parsing}

theorem collectOutcome_parseErrors {path : String}
    {outcome : ParseOutcome} (ran : collectOutcome failFast label path outcome state = .ok next) :
    state.parseErrors ≤ next.parseErrors := by
  unfold collectOutcome at ran
  cases outcome with
  | parsed file | unsupported =>
    cases ran
    exact le_rfl
  | failed msg =>
    dsimp only at ran
    split at ran
    · cases ran
    · cases ran
      exact Nat.le_succ _

theorem collectResults_parseErrors (results : List (String × ParseOutcome))
    (ran : collectResults failFast label results state = .ok next) :
    state.parseErrors ≤ next.parseErrors := by
  induction results generalizing state with
  | nil =>
    cases ran
    exact le_rfl
  | cons result rest ih =>
    unfold collectResults at ran
    cases one : collectOutcome failFast label result.1 result.2 state with
    | error msg => simp [one] at ran
    | ok middle =>
      simp only [one] at ran
      have first := collectOutcome_parseErrors one
      split at ran
      · cases ran
        exact first
      · exact first.trans (ih ran)

theorem collectResults_clean (batch : List String) (ran :
    collectResults failFast label (batch.map fun path => (path, parse path)) state = .ok next)
    (unblocked : state.budgetBlocked = false) (clean : next.parseErrors = state.parseErrors) :
    next.budgetBlocked = false ∧ next.tracker = state.tracker ∧
      next.parsed = state.parsed ++ parsedFiles parse batch := by
  induction batch generalizing state with
  | nil =>
    cases ran
    exact ⟨unblocked, rfl, (append_nil _).symm⟩
  | cons path rest ih =>
    rw [map_cons] at ran
    unfold collectResults at ran
    cases outcome : parse path with
    | parsed file | unsupported =>
      simp only [outcome, collectOutcome, unblocked, Bool.false_eq_true, if_false] at ran
      obtain ⟨stays, tracker, parsed⟩ := ih ran rfl clean
      refine ⟨stays, tracker, ?_⟩
      rw [parsed]
      simp [parsedFiles, outcome]
    | failed msg =>
      rw [outcome] at ran
      cases one : collectOutcome failFast label path (.failed msg) state with
      | error text => simp [one] at ran
      | ok middle =>
        simp only [one] at ran
        have counted : middle.parseErrors = state.parseErrors + 1 := by
          unfold collectOutcome at one
          dsimp only at one
          split at one
          · cases one
          · cases one
            rfl
        have later : middle.parseErrors ≤ next.parseErrors := by
          split at ran
          · cases ran
            exact le_rfl
          · exact collectResults_parseErrors _ ran
        omega

section
variable (batches : List (List String))
  (ran : parseBatches failFast label parse batches state = .ok next)
include batches ran

theorem parseBatches_parseErrors : state.parseErrors ≤ next.parseErrors := by
  induction batches generalizing state with
  | nil =>
    cases ran
    exact le_rfl
  | cons batch rest ih =>
    unfold parseBatches at ran
    split at ran
    · cases ran
      exact le_rfl
    · split at ran
      · cases ran
      · next middle collected =>
          have first := collectResults_parseErrors _ collected
          dsimp only at first
          split at ran
          · cases ran
            exact first
          · exact first.trans (ih ran)

theorem parseBatches_clean (unblocked : state.budgetBlocked = false)
    (clean : next.parseErrors = state.parseErrors) :
    next.budgetBlocked = false ∧ Accounts state.tracker next.tracker ∧ (next.tracker.reports = [] →
        next.parsed = state.parsed ++ parsedFiles parse batches.flatten) := by
  induction batches generalizing state with
  | nil =>
    cases ran
    exact ⟨unblocked, .of_eq rfl rfl, fun _ => (append_nil _).symm⟩
  | cons batch rest ih =>
    unfold parseBatches at ran
    rcases state.tracker.maybeStopForTime_cases with ⟨decision, reports, limits⟩ | ⟨decision, left⟩
    · rw [← Prod.mk.eta (p := state.tracker.maybeStopForTime), decision] at ran
      dsimp only at ran
      cases collected : collectResults failFast label (batch.map fun path => (path, parse path))
          { state with tracker := state.tracker.maybeStopForTime.2 } with
      | error msg => simp [collected] at ran
      | ok middle =>
        simp only [collected] at ran
        have first := collectResults_parseErrors _ collected
        dsimp only at first
        have later : middle.parseErrors ≤ next.parseErrors := by
          split at ran
          · cases ran
            exact le_rfl
          · exact parseBatches_parseErrors _ ran
        have same : middle.parseErrors = state.parseErrors := by omega
        obtain ⟨stays, tracker, parsed⟩ := collectResults_clean batch collected unblocked same
        rw [stays, if_neg Bool.false_ne_true] at ran
        obtain ⟨ends, accounts, complete⟩ := ih ran stays (by omega)
        rw [tracker] at accounts
        refine ⟨ends, (Accounts.of_eq reports limits).trans accounts, ?_⟩
        intro clear
        rw [complete clear, parsed, flatten_cons, parsedFiles_append, append_assoc]
    · rw [← Prod.mk.eta (p := state.tracker.maybeStopForTime), decision] at ran
      cases ran
      exact ⟨unblocked, .of_leavesOut left, fun clear => absurd clear left.not_clear⟩

end
end

section
variable {env : Env} {checkout : Checkout env.hashBytes} {owners : String → Option PackageOwner}
  {options : UpdateOptions} {statLabel label : String} {paths : List String} {state next : Parsing}

section
variable (ran : parsePhase env checkout options owners statLabel label paths state = .ok next)
include ran

theorem parsePhase_parts : ∃ accepting, acceptFiles checkout options.failFast statLabel
    (paths.filter fun path => env.registry.supports path)
        { tracker := state.tracker, parseErrors := state.parseErrors } = .ok accepting ∧
      parseBatches options.failFast label (parsePath env checkout owners) (chunks options.batchSize accepting.accepted)
        { state with
          tracker := accepting.tracker
          parsed := []
          parseErrors := accepting.parseErrors
          skippedUnsupported := state.skippedUnsupported +
            (paths.length - (paths.filter fun path => env.registry.supports path).length) } =
        .ok next := by
  unfold parsePhase at ran
  exact Program.bind_eq_ok ran

theorem parsePhase_parseErrors : state.parseErrors ≤ next.parseErrors := by
  obtain ⟨accepting, accepts, parses⟩ := parsePhase_parts ran
  exact (acceptFiles_parseErrors _ accepts).trans (parseBatches_parseErrors _ parses)

end

theorem parsePhase_clean (unblocked : state.budgetBlocked = false)
    (ran : parsePhase env checkout options owners statLabel label paths state = .ok next)
    (clean : next.parseErrors = state.parseErrors) :
    next.budgetBlocked = false ∧ Accounts state.tracker next.tracker ∧
      (next.tracker.reports = [] → next.parsed = parsedFiles (parsePath env checkout owners)
        (paths.filter fun path => env.registry.supports path)) := by
  obtain ⟨accepting, accepts, parses⟩ := parsePhase_parts ran
  have first : state.parseErrors ≤ accepting.parseErrors := acceptFiles_parseErrors _ accepts
  have later : accepting.parseErrors ≤ next.parseErrors := parseBatches_parseErrors _ parses
  obtain ⟨stays, batchAccounts, complete⟩ :=
    parseBatches_clean _ parses unblocked (show next.parseErrors = accepting.parseErrors by omega)
  obtain ⟨accounts, _, accepted⟩ := acceptFiles_ok _ accepts
  refine ⟨stays, accounts.trans batchAccounts, ?_⟩
  intro clear
  have earlier := batchAccounts.clear clear
  have inspected := acceptFiles_clean _ accepts (show accepting.parseErrors = state.parseErrors by omega) earlier
  rw [complete clear, flatten_chunks options.batchPositive, accepted earlier, nil_append,
    nil_append, filter_eq_self.mpr inspected]

end
end Atlas.Engine
