import Atlas.Mcp.Tasks
import Atlas.Program.MapM

/-! The worker of a task and any number of clients, interleaved at their single reads and
writes of the stored record. A write does not look at the status it replaces, so a
terminal status survives exactly the runs in which no party writes over one that
another party stored since its own check. -/
namespace Atlas.Mcp
open Core (Json)
open Session

inductive WorkerPhase where
  /-- The tool is running and may report progress. -/
  | running
  /-- The record has been read, and this is what the worker is about to write. -/
  | decided (update : Option DurableTaskUpdate)
  | finished

inductive ClientPhase where
  | idle
  /-- `tasks_update` has read a record that accepts updates. -/
  | updating (input : Json)
  /-- `tasks_cancel` has read a record that accepts cancellation. -/
  | cancelling

structure TaskSystem (Client : Type) where
  tasks : TaskTable
  worker : WorkerPhase
  clients : Client → ClientPhase

inductive TaskStep (Client : Type) where
  | progress (message : String) (percentage : Option Nat) (now : String)
  | finalRead (result : Except String Json)
  | finalWrite (now : String)
  | updateRead (client : Client) (input : Json)
  | updateWrite (client : Client) (now : String)
  | cancelRead (client : Client)
  | cancelWrite (client : Client) (now : String)

section
variable {Client : Type}
  [DecidableEq Client] (toRmcp : List Json → Except String Json) (taskId : String)

def TaskSystem.setClient (system : TaskSystem Client) (client : Client) (phase : ClientPhase) :
    TaskSystem Client :=
  { system with clients := Function.update system.clients client phase }

def TaskStep.writes (system : TaskSystem Client) :
    TaskStep Client → Option (DurableTaskUpdate × String)
  | .progress msg percentage now =>
    match system.worker with
    | .running => some (progressUpdate msg percentage, now)
    | _ => none
  | .finalWrite now =>
    match system.worker with
    | .decided (some update) => some (update, now)
    | _ => none
  | .updateWrite client now =>
    match system.clients client with
    | .updating input => some (clientInputUpdate input, now)
    | _ => none
  | .cancelWrite client now =>
    match system.clients client with
    | .cancelling => some (cancelUpdate, now)
    | _ => none
  | .finalRead _ | .updateRead _ _ | .cancelRead _ => none

/-- Where the parties stand after a step. A call that is refused ends at once. -/
def TaskStep.advances (system : TaskSystem Client) : TaskStep Client → TaskSystem Client
  | .progress .. => system
  | .finalRead result =>
    match system.worker with
    | .running =>
      match finalUpdate toRmcp (getDurableTask taskId system.tasks) result with
      | .ok update => { system with worker := .decided update }
      | .error _ => { system with worker := .finished }
    | _ => system
  | .finalWrite _ =>
    match system.worker with
    | .decided _ => { system with worker := .finished }
    | _ => system
  | .updateRead client input =>
    match system.clients client, accepts "updates" taskId system.tasks with
    | .idle, .ok _ => system.setClient client (.updating input)
    | _, _ => system
  | .updateWrite client _ =>
    match system.clients client with
    | .updating _ => system.setClient client .idle
    | _ => system
  | .cancelRead client =>
    match system.clients client, accepts "cancellation" taskId system.tasks with
    | .idle, .ok _ => system.setClient client .cancelling
    | _, _ => system
  | .cancelWrite client _ =>
    match system.clients client with
    | .cancelling => system.setClient client .idle
    | _ => system

def TaskSystem.step (system : TaskSystem Client) (step : TaskStep Client) : TaskSystem Client :=
  { step.advances toRmcp taskId system with
    tasks :=
      match step.writes system with
      | some (update, now) => updateDurableTask taskId update now system.tasks
      | none => system.tasks }

def KeepsTerminal (before after : TaskSystem Client) : Prop :=
  ∀ task, getDurableTask taskId before.tasks = some task → isTerminal task.status = true →
    (getDurableTask taskId after.tasks).map (·.status) = some task.status

def KeepsTerminalThroughout : List (TaskStep Client) → TaskSystem Client → Prop
  | [], _ => True
  | step :: rest, system =>
    KeepsTerminal taskId system (system.step toRmcp taskId step) ∧ KeepsTerminalThroughout rest (system.step toRmcp taskId step)

/-- The system with the terminal statuses stored so far and, for each party, how many
of them were stored when it last checked the record. The worker starts checked. -/
structure WatchedTask (Client : Type) where
  system : TaskSystem Client
  terminals : List DurableTaskStatus
  workerChecked : Nat
  clientChecked : Client → Nat

def terminalOf (update : DurableTaskUpdate) : List DurableTaskStatus :=
  update.status.toList.filter isTerminal

def WatchedTask.step (watched : WatchedTask Client) (step : TaskStep Client) :
    WatchedTask Client where
  system := watched.system.step toRmcp taskId step
  terminals :=
    match step.writes watched.system with
    | some (update, _) => watched.terminals ++ terminalOf update
    | none => watched.terminals
  workerChecked :=
    match step, watched.system.worker with
    | .finalRead _, .running => watched.terminals.length
    | _, _ => watched.workerChecked
  clientChecked :=
    match step with
    | .updateRead client _ | .cancelRead client =>
      -- A client in the middle of a call makes no further check.
      match watched.system.clients client with
      | .idle => Function.update watched.clientChecked client watched.terminals.length
      | _ => watched.clientChecked
    | _ => watched.clientChecked

def TaskStep.storedSince (watched : WatchedTask Client) : TaskStep Client → List DurableTaskStatus
  | .progress .. | .finalRead _ | .finalWrite _ => watched.terminals.drop watched.workerChecked
  | .updateRead client _ | .updateWrite client _ | .cancelRead client | .cancelWrite client _ =>
    watched.terminals.drop (watched.clientChecked client)

/-- A step writes over no other terminal status stored since its party's check. -/
def Undisturbed (watched : WatchedTask Client) (step : TaskStep Client) : Prop :=
  ∀ update now, step.writes watched.system = some (update, now) → ∀ status ∈ step.storedSince watched, update.status = some status

def UndisturbedThroughout : List (TaskStep Client) → WatchedTask Client → Prop
  | [], _ => True
  | step :: rest, watched =>
    Undisturbed watched step ∧ UndisturbedThroughout rest (watched.step toRmcp taskId step)

/-! ## The invariant -/

/-- As long as terminal statuses were kept: at most one has been stored, it is still
stored, and whoever is about to write checked before it was. -/
structure Settled (watched : WatchedTask Client) : Prop where
  stored : ∃ task, getDurableTask taskId watched.system.tasks = some task ∧
    (∀ status ∈ watched.terminals, task.status = status) ∧
    (isTerminal task.status = true → task.status ∈ watched.terminals)
  onlyTerminal : ∀ status ∈ watched.terminals, isTerminal status = true
  byClients : watched.system.worker ≠ .finished → ∀ status ∈ watched.terminals, status = .cancelled
  running : watched.system.worker = .running → watched.workerChecked = 0
  decided : ∀ update, watched.system.worker = .decided (some update) →
    watched.workerChecked = 0 ∧ ∃ status, update.status = some status
  pending : ∀ client, watched.system.clients client ≠ .idle → watched.clientChecked client = 0

variable {toRmcp taskId} {watched : WatchedTask Client}
  {task : DurableTaskRecord} {now : String} {system : TaskSystem Client} {status : DurableTaskStatus}

theorem accepts_eq_ok {what : String}
    {tasks : TaskTable} (accepted : accepts what taskId tasks = .ok task) :
    getDurableTask taskId tasks = some task ∧ isTerminal task.status = false := by
  unfold accepts taskRecord at accepted
  cases found : getDurableTask taskId tasks with
  | none =>
    rw [found] at accepted
    cases accepted
  | some stored =>
    rw [found] at accepted
    cases terminal : isTerminal stored.status with
    | true => simp [terminal] at accepted
    | false =>
      simp only [terminal, Bool.false_eq_true, if_false, Except.ok.injEq] at accepted
      subst accepted
      exact ⟨rfl, terminal⟩

variable {update : DurableTaskUpdate}

theorem finalUpdate_status {current : Option DurableTaskRecord} {result : Except String Json}
    (decided : finalUpdate toRmcp current result = .ok (some update)) :
    ∃ task, current = some task ∧ task.status ≠ .cancelled ∧ ∃ status, update.status = some status := by
  cases current with
  | none => cases decided
  | some task =>
    unfold finalUpdate at decided
    by_cases cancelled : task.status = .cancelled
    · simp [cancelled] at decided
    refine ⟨task, rfl, cancelled, ?_⟩
    simp only [cancelled, if_false] at decided
    cases result with
    | error msg =>
      simp only [Except.ok.injEq, Option.some.injEq] at decided
      exact ⟨.failed, by rw [← decided]⟩
    | ok value =>
      cases input : isInputRequiredToolResult value with
      | false =>
        simp only [input, Bool.false_eq_true, if_false, Except.ok.injEq, Option.some.injEq]
          at decided
        exact ⟨.completed, by rw [← decided]⟩
      | true =>
        simp only [input, if_true] at decided
        obtain ⟨requests, converted, decided⟩ := Program.bind_eq_ok decided
        have same : some
            ({ status := some .inputRequired
               statusMessage := some "input required"
               inputRequests := requests
               requestState := textField "requestState" value } : DurableTaskUpdate) =
            some update := Except.ok.inj decided
        exact ⟨.inputRequired, by rw [← Option.some.inj same]⟩

omit [DecidableEq Client] in
theorem Settled.none_stored (settled : Settled taskId watched)
    (found : getDurableTask taskId watched.system.tasks = some task)
    (active : task.status ∉ watched.terminals) : watched.terminals = [] := by
  obtain ⟨stored, foundStored, all, -⟩ := settled.stored
  rw [found] at foundStored
  cases foundStored
  cases kept : watched.terminals with
  | nil => rfl
  | cons status rest =>
    have mem : status ∈ watched.terminals := by simp [kept]
    exact absurd (all status mem ▸ mem) active

omit [DecidableEq Client] in
theorem Settled.writes (settled : Settled taskId watched)
    {step : TaskStep Client} (wrote : step.writes watched.system = some (update, now)) :
    (∃ status, update.status = some status) ∧ step.storedSince watched = watched.terminals := by
  cases step with
  | progress msg percentage at_ =>
    cases worker : watched.system.worker with
    | running =>
      simp only [TaskStep.writes, worker, Option.some.injEq, Prod.mk.injEq] at wrote
      obtain ⟨rfl, rfl⟩ := wrote
      exact ⟨⟨.working, rfl⟩, by simp [TaskStep.storedSince, settled.running worker]⟩
    | decided update | finished => simp [TaskStep.writes, worker] at wrote
  | finalRead result => cases wrote
  | finalWrite at_ =>
    cases worker : watched.system.worker with
    | running => simp [TaskStep.writes, worker] at wrote
    | decided planned =>
      cases planned with
      | none => simp [TaskStep.writes, worker] at wrote
      | some planned =>
        simp only [TaskStep.writes, worker, Option.some.injEq, Prod.mk.injEq] at wrote
        obtain ⟨rfl, rfl⟩ := wrote
        obtain ⟨checked, status⟩ := settled.decided planned worker
        exact ⟨status, by simp [TaskStep.storedSince, checked]⟩
    | finished => simp [TaskStep.writes, worker] at wrote
  | updateRead client input => cases wrote
  | updateWrite client at_ =>
    cases phase : watched.system.clients client with
    | idle => simp [TaskStep.writes, phase] at wrote
    | updating input =>
      simp only [TaskStep.writes, phase, Option.some.injEq, Prod.mk.injEq] at wrote
      obtain ⟨rfl, rfl⟩ := wrote
      have checked := settled.pending client (by simp [phase])
      exact ⟨⟨.working, rfl⟩, by simp [TaskStep.storedSince, checked]⟩
    | cancelling => simp [TaskStep.writes, phase] at wrote
  | cancelRead client => cases wrote
  | cancelWrite client at_ =>
    cases phase : watched.system.clients client with
    | idle | updating input => simp [TaskStep.writes, phase] at wrote
    | cancelling =>
      simp only [TaskStep.writes, phase, Option.some.injEq, Prod.mk.injEq] at wrote
      obtain ⟨rfl, rfl⟩ := wrote
      have checked := settled.pending client (by simp [phase])
      exact ⟨⟨.cancelled, rfl⟩, by simp [TaskStep.storedSince, checked]⟩

theorem step_tasks_of_write {step : TaskStep Client}
    (wrote : step.writes system = some (update, now)) :
    (system.step toRmcp taskId step).tasks = updateDurableTask taskId update now system.tasks := by
  simp [TaskSystem.step, wrote]

theorem step_tasks_of_read {step : TaskStep Client} (silent : step.writes system = none) :
    (system.step toRmcp taskId step).tasks = system.tasks := by
  simp [TaskSystem.step, silent]

theorem Settled.keeps_iff (settled : Settled taskId watched) (step : TaskStep Client) :
    KeepsTerminal taskId watched.system
        (watched.system.step toRmcp taskId step) ↔ Undisturbed watched step := by
  obtain ⟨task, found, all, terminal⟩ := settled.stored
  cases wrote : step.writes watched.system with
  | none =>
    constructor
    · intro _ update now writes
      rw [wrote] at writes
      cases writes
    · intro _ other foundOther _
      rw [step_tasks_of_read wrote, foundOther]
      rfl
  | some written =>
    obtain ⟨update, now⟩ := written
    obtain ⟨⟨status, sets⟩, since⟩ := settled.writes wrote
    have after : (getDurableTask taskId (watched.system.step toRmcp taskId step).tasks).map (·.status) = some status := by
      rw [step_tasks_of_write wrote, getDurableTask_update, found]
      simp [TaskChanges.apply, sets]
    constructor
    · intro keeps other time writes earlier mem
      rw [wrote] at writes
      cases writes
      rw [since] at mem
      have same := all earlier mem
      have kept := keeps task found (same ▸ settled.onlyTerminal earlier mem)
      rw [after] at kept
      rw [sets, Option.some.inj kept, same]
    · intro undisturbed other foundOther isFinal
      rw [found] at foundOther
      cases foundOther
      have same := undisturbed update now wrote task.status (by
        rw [since]
        exact terminal isFinal)
      rw [after, ← sets, same]

theorem step_terminals_of_write {step : TaskStep Client}
    (wrote : step.writes watched.system = some (update, now)) :
    (watched.step toRmcp taskId step).terminals = watched.terminals ++ terminalOf update := by
  simp [WatchedTask.step, wrote]

theorem step_terminals_of_read {step : TaskStep Client}
    (silent : step.writes watched.system = none) :
    (watched.step toRmcp taskId step).terminals = watched.terminals := by
  simp [WatchedTask.step, silent]

theorem mem_terminalOf :
    status ∈ terminalOf update ↔ update.status = some status ∧ isTerminal status = true := by
  simp [terminalOf]

theorem mem_step_terminals {step : TaskStep Client}
    (mem : status ∈ (watched.step toRmcp taskId step).terminals) :
    status ∈ watched.terminals ∨ ∃ update now, step.writes watched.system = some (update, now) ∧
      update.status = some status ∧ isTerminal status = true := by
  cases wrote : step.writes watched.system with
  | none => exact .inl (step_terminals_of_read wrote ▸ mem)
  | some written =>
    obtain ⟨update, now⟩ := written
    rw [step_terminals_of_write wrote] at mem
    rcases List.mem_append.mp mem with old | new
    · exact .inl old
    · exact .inr ⟨update, now, rfl, mem_terminalOf.mp new⟩

theorem Settled.stored_step (settled : Settled taskId watched) (step : TaskStep Client)
    (keeps : KeepsTerminal taskId watched.system (watched.system.step toRmcp taskId step)) :
    ∃ task, getDurableTask taskId (watched.step toRmcp taskId step).system.tasks = some task ∧
      (∀ status ∈ (watched.step toRmcp taskId step).terminals, task.status = status) ∧
      (isTerminal task.status = true → task.status ∈ (watched.step toRmcp taskId step).terminals) := by
  obtain ⟨task, found, all, terminal⟩ := settled.stored
  cases wrote : step.writes watched.system with
  | none =>
    rw [step_terminals_of_read wrote]
    exact ⟨task, (congrArg _ (step_tasks_of_read wrote)).trans found, all, terminal⟩
  | some written =>
    obtain ⟨update, now⟩ := written
    obtain ⟨⟨status, sets⟩, -⟩ := settled.writes wrote
    have after : getDurableTask taskId (watched.system.step toRmcp taskId step).tasks = some (update.apply now task) := by
      rw [step_tasks_of_write wrote, getDurableTask_update, found]
      rfl
    have newStatus : (update.apply now task).status = status := by simp [TaskChanges.apply, sets]
    rw [step_terminals_of_write wrote]
    refine ⟨update.apply now task, after, ?_, ?_⟩
    · intro earlier mem
      rw [newStatus]
      rcases List.mem_append.mp mem with old | new
      · have same := all earlier old
        have kept := keeps task found (same ▸ settled.onlyTerminal earlier old)
        rw [after] at kept
        exact newStatus.symm.trans ((Option.some.inj kept).trans same)
      · exact Option.some.inj (sets.symm.trans (mem_terminalOf.mp new).1)
    · intro isFinal
      rw [newStatus] at isFinal ⊢
      exact List.mem_append_right _ (mem_terminalOf.mpr ⟨sets, isFinal⟩)

theorem Settled.byClients_step (settled : Settled taskId watched) (step : TaskStep Client)
    (active : (watched.step toRmcp taskId step).system.worker ≠ .finished) :
    ∀ status ∈ (watched.step toRmcp taskId step).terminals, status = .cancelled := by
  have before : watched.system.worker ≠ .finished := by
    intro finished
    apply active
    cases step <;> simp [WatchedTask.step, TaskSystem.step, TaskStep.advances, finished]
    all_goals split <;> simp_all [TaskSystem.setClient]
  intro status mem
  rcases mem_step_terminals mem with old | ⟨update, now, wrote, sets, final⟩
  · exact settled.byClients before status old
  · cases step with
    | progress msg percentage at_ =>
      simp only [TaskStep.writes] at wrote
      split at wrote
      · simp only [Option.some.injEq, Prod.mk.injEq] at wrote
        obtain ⟨rfl, -⟩ := wrote
        cases sets
        cases final
      · cases wrote
    | finalRead result => cases wrote
    | finalWrite at_ =>
      simp only [TaskStep.writes] at wrote
      split at wrote
      next planned worker =>
        exact absurd (by simp [WatchedTask.step, TaskSystem.step, TaskStep.advances, worker]) active
      next => cases wrote
    | updateRead client input => cases wrote
    | updateWrite client at_ =>
      simp only [TaskStep.writes] at wrote
      split at wrote
      · simp only [Option.some.injEq, Prod.mk.injEq] at wrote
        obtain ⟨rfl, -⟩ := wrote
        cases sets
        cases final
      · cases wrote
    | cancelRead client => cases wrote
    | cancelWrite client at_ =>
      simp only [TaskStep.writes] at wrote
      split at wrote
      · simp only [Option.some.injEq, Prod.mk.injEq] at wrote
        obtain ⟨rfl, -⟩ := wrote
        exact (Option.some.inj sets).symm
      · cases wrote

theorem worker_step_cases (toRmcp : List Json → Except String Json)
    (taskId : String) (watched : WatchedTask Client) (step : TaskStep Client) :
    ((watched.step toRmcp taskId step).system.worker = watched.system.worker ∧
      (watched.step toRmcp taskId step).workerChecked = watched.workerChecked) ∨
    (watched.step toRmcp taskId step).system.worker = .finished ∨
    ∃ result update, watched.system.worker = .running ∧
      finalUpdate toRmcp (getDurableTask taskId watched.system.tasks) result = .ok update ∧
      (watched.step toRmcp taskId step).system.worker = .decided update ∧
      (watched.step toRmcp taskId step).workerChecked = watched.terminals.length := by
  cases step with
  | progress msg percentage at_ => exact .inl ⟨rfl, rfl⟩
  | finalRead result =>
    cases worker : watched.system.worker with
    | running =>
      right
      cases planned : finalUpdate toRmcp (getDurableTask taskId watched.system.tasks) result with
      | error msg =>
        left
        simp [WatchedTask.step, TaskSystem.step, TaskStep.advances, worker, planned]
      | ok update =>
        right
        refine ⟨result, update, rfl, planned, ?_, ?_⟩
        · simp [WatchedTask.step, TaskSystem.step, TaskStep.advances, worker, planned]
        · simp [WatchedTask.step, worker]
    | decided update | finished =>
      left
      simp [WatchedTask.step, TaskSystem.step, TaskStep.advances, worker]
  | finalWrite at_ =>
    cases worker : watched.system.worker with
    | running =>
      left
      simp [WatchedTask.step, TaskSystem.step, TaskStep.advances, worker]
    | decided update =>
      right; left
      simp [WatchedTask.step, TaskSystem.step, TaskStep.advances, worker]
    | finished =>
      left
      simp [WatchedTask.step, TaskSystem.step, TaskStep.advances, worker]
  | updateRead client input | updateWrite client at_ | cancelRead client | cancelWrite client at_ =>
    left
    refine ⟨?_, rfl⟩
    simp only [WatchedTask.step, TaskSystem.step, TaskStep.advances]
    split <;> rfl

theorem client_read_cases (what : String) (phase : ClientPhase) {client : Client} (other : Client)
    {clients : Client → ClientPhase} {checked : Client → Nat}
    (read : clients = (match watched.system.clients client,
        accepts what taskId watched.system.tasks with
      | .idle, .ok _ => watched.system.setClient client phase
      | _, _ => watched.system).clients)
    (checks : checked = match watched.system.clients client with
      | .idle => Function.update watched.clientChecked client watched.terminals.length
      | _ => watched.clientChecked) :
    (clients other = watched.system.clients other ∧ checked other = watched.clientChecked other) ∨ clients other = .idle ∨
      ∃ task, getDurableTask taskId watched.system.tasks = some task ∧
        isTerminal task.status = false ∧ checked other = watched.terminals.length := by
  cases idle : watched.system.clients client with
  | idle =>
    rw [idle] at read checks
    by_cases own : other = client
    · subst own
      cases accepted : accepts what taskId watched.system.tasks with
      | error error =>
        right; left
        simp [read, accepted, idle]
      | ok task =>
        right; right
        obtain ⟨found, active⟩ := accepts_eq_ok accepted
        exact ⟨task, found, active, by simp [checks]⟩
    · left
      cases accepted : accepts what taskId watched.system.tasks with
      | error error => simp [read, checks, accepted, own]
      | ok task => simp [read, checks, accepted, own, TaskSystem.setClient]
  | updating input | cancelling =>
    rw [idle] at read checks
    exact .inl ⟨by rw [read], by rw [checks]⟩

theorem client_step_cases (toRmcp : List Json → Except String Json)
    (taskId : String) (watched : WatchedTask Client) (step : TaskStep Client) (other : Client) :
    ((watched.step toRmcp taskId step).system.clients other = watched.system.clients other ∧
      (watched.step toRmcp taskId step).clientChecked other = watched.clientChecked other) ∨
    (watched.step toRmcp taskId step).system.clients other = .idle ∨
    ∃ task, getDurableTask taskId watched.system.tasks = some task ∧ isTerminal task.status =
      false ∧ (watched.step toRmcp taskId step).clientChecked other = watched.terminals.length := by
  cases step with
  | progress msg percentage at_ => exact .inl ⟨rfl, rfl⟩
  | finalRead result =>
    left
    refine ⟨?_, rfl⟩
    simp only [WatchedTask.step, TaskSystem.step, TaskStep.advances]
    split
    · split <;> rfl
    · rfl
  | finalWrite at_ =>
    left
    refine ⟨?_, rfl⟩
    simp only [WatchedTask.step, TaskSystem.step, TaskStep.advances]
    split <;> rfl
  | updateRead client input => exact client_read_cases "updates" (.updating input) other rfl rfl
  | updateWrite client at_ =>
    by_cases own : other = client
    · subst own
      cases phase : watched.system.clients other with
      | updating input =>
        right; left
        simp [WatchedTask.step, TaskSystem.step, TaskStep.advances, phase, TaskSystem.setClient]
      | idle | cancelling =>
        left
        simp [WatchedTask.step, TaskSystem.step, TaskStep.advances, phase]
    · left
      refine ⟨?_, rfl⟩
      simp only [WatchedTask.step, TaskSystem.step, TaskStep.advances]
      split <;> simp [TaskSystem.setClient, own]
  | cancelRead client => exact client_read_cases "cancellation" .cancelling other rfl rfl
  | cancelWrite client at_ =>
    by_cases own : other = client
    · subst own
      cases phase : watched.system.clients other with
      | cancelling =>
        right; left
        simp [WatchedTask.step, TaskSystem.step, TaskStep.advances, phase, TaskSystem.setClient]
      | idle | updating input =>
        left
        simp [WatchedTask.step, TaskSystem.step, TaskStep.advances, phase]
    · left
      refine ⟨?_, rfl⟩
      simp only [WatchedTask.step, TaskSystem.step, TaskStep.advances]
      split <;> simp [TaskSystem.setClient, own]

theorem Settled.step (settled : Settled taskId watched) (step : TaskStep Client)
    (keeps : KeepsTerminal taskId watched.system (watched.system.step toRmcp taskId step)) :
    Settled taskId (watched.step toRmcp taskId step) where
  stored := settled.stored_step step keeps
  onlyTerminal := by
    intro status mem
    rcases mem_step_terminals mem with old | ⟨update, now, -, -, final⟩
    · exact settled.onlyTerminal status old
    · exact final
  byClients := settled.byClients_step step
  running := by
    intro running
    rcases worker_step_cases toRmcp taskId watched step with ⟨same, checked⟩ | finished | ⟨_, update, -, -, decided, -⟩
    · rw [checked]
      exact settled.running (same ▸ running)
    · rw [finished] at running
      cases running
    · rw [decided] at running
      cases running
  decided := by
    intro update decided
    rcases worker_step_cases toRmcp taskId watched step with ⟨same, checked⟩ | finished | ⟨result,
      planned, running, plan, now, checked⟩
    · rw [checked]
      exact settled.decided update (same ▸ decided)
    · rw [finished] at decided
      cases decided
    · rw [now] at decided
      cases decided
      obtain ⟨task, found, open_, status⟩ := finalUpdate_status plan
      have absent : task.status ∉ watched.terminals := by
        intro mem
        have active : watched.system.worker ≠ .finished := by simp [running]
        exact open_ (settled.byClients active task.status mem)
      rw [checked, settled.none_stored found absent]
      exact ⟨rfl, status⟩
  pending := by
    intro client busy
    rcases client_step_cases toRmcp taskId watched step client with ⟨same, checked⟩ | idle | ⟨task, found, open_, checked⟩
    · rw [checked]
      exact settled.pending client (same ▸ busy)
    · exact absurd idle busy
    · have absent : task.status ∉ watched.terminals := by
        intro mem
        rw [settled.onlyTerminal task.status mem] at open_
        cases open_
      rw [checked, settled.none_stored found absent]
      rfl

theorem Settled.keepsThroughout_iff (settled : Settled taskId watched)
    (steps : List (TaskStep Client)) :
    KeepsTerminalThroughout toRmcp taskId steps watched.system ↔ UndisturbedThroughout toRmcp taskId steps watched := by
  induction steps generalizing watched with
  | nil => exact Iff.rfl
  | cons step rest ih =>
    constructor
    · rintro ⟨keeps, later⟩
      exact ⟨(settled.keeps_iff step).mp keeps, (ih (settled.step step keeps)).mp later⟩
    · rintro ⟨undisturbed, later⟩
      have keeps : KeepsTerminal taskId watched.system (watched.system.step toRmcp taskId step) :=
        (settled.keeps_iff step).mpr undisturbed
      exact ⟨keeps, (ih (settled.step step keeps)).mpr later⟩

def WatchedTask.started (tasks : TaskTable) : WatchedTask Client where
  system := { tasks, worker := .running, clients := fun _ => .idle }
  terminals := []
  workerChecked := 0
  clientChecked := fun _ => 0

/-- Over every interleaving of the worker and the clients of a task, a terminal status
is final exactly when no write of the run was disturbed. -/
theorem started_keepsTerminal_iff {tasks : TaskTable} {task : DurableTaskRecord}
    (found : getDurableTask taskId tasks = some task) (active : isTerminal task.status = false)
    (steps : List (TaskStep Client)) :
    KeepsTerminalThroughout toRmcp taskId steps (WatchedTask.started tasks).system ↔
      UndisturbedThroughout toRmcp taskId steps (WatchedTask.started tasks) := by
  have settled : @Settled Client taskId (WatchedTask.started tasks) := by
    constructor
    case stored =>
      refine ⟨task, found, ?_, ?_⟩
      · intro status mem
        cases mem
      · intro final
        rw [active] at final
        cases final
    case onlyTerminal =>
      intro status mem
      cases mem
    case byClients =>
      intro _ status mem
      cases mem
    case running =>
      intro _
      rfl
    case decided =>
      intro update decided
      cases decided
    case pending =>
      intro client busy
      exact absurd rfl busy
  exact settled.keepsThroughout_iff steps

end

def sampleTask : DurableTaskRecord := (newTask "atlas-task-1-build_or_update_graph-1" "1"
    "build_or_update_graph" none none (some 1000)).record "2026-01-01T00:00:00Z"

/-- The only client cancels, and the tool reports progress once more. -/
def sampleSteps : List (TaskStep Unit) := [.cancelRead (), .cancelWrite () "2026-01-01T00:00:01Z",
    .progress "indexed files" (some 55) "2026-01-01T00:00:02Z"]

theorem sampleSteps_iff : KeepsTerminalThroughout (fun _ => .ok .null) sampleTask.taskId sampleSteps
    (WatchedTask.started [sampleTask]).system ↔
      UndisturbedThroughout (fun _ => .ok .null) sampleTask.taskId sampleSteps (WatchedTask.started [sampleTask]) :=
  started_keepsTerminal_iff (show getDurableTask sampleTask.taskId [sampleTask] = some sampleTask
    by decide) (by decide) sampleSteps

theorem sampleSteps_revive : ¬ KeepsTerminalThroughout (fun _ => .ok .null) sampleTask.taskId
    sampleSteps (WatchedTask.started [sampleTask]).system := by
  rintro ⟨-, -, keeps, -⟩
  have cancelled := keeps (cancelUpdate.apply "2026-01-01T00:00:01Z" sampleTask) (by decide)
    (by decide)
  exact absurd cancelled (by decide)

end Atlas.Mcp
