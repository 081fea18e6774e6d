import Atlas.Mcp.Tasks

/-! The caller of a deferred tool call and the worker thread that runs the tool, interleaved
at their steps on the task record and the channel. An explicit task has its record before
the worker starts, an automatic one only after the caller has waited in vain; a single read
tells the worker whether there is a record to write to. -/
namespace Atlas.Mcp
open Core (Json)
open Session
open Store (AtlasError)
open Sql (hasKey)

/-! ## The two parties -/

/-- A call that runs on a worker thread; `ttlMs` is set for an explicit task. -/
structure ToolCall where
  (taskId requestId toolName : String)
  (transportKind sessionId : Option String)
  ttlMs : Option Nat
  /-- What the tool ends with. -/
  result : Except String Json

inductive Reply where
  | own (outcome : Except String Json)
  | handle (task : DurableTaskRecord)

inductive CallerPhase where
  | starting
  | waiting
  /-- The threshold has passed without a message. -/
  | timedOut
  /-- The record has been created. -/
  | holding (task : DurableTaskRecord)
  | replied (reply : Reply)

inductive DeliveryWorker where
  | notStarted
  | running
  | decided (update : DurableTaskUpdate)
  /-- The worker has written what it had to, and returns this outcome. -/
  | returning (outcome : Except String Json)
  | sent

structure Delivery where
  tasks : TaskTable
  caller : CallerPhase
  worker : DeliveryWorker
  channel : Option (Except String Json)

def Delivery.start (tasks : TaskTable) : Delivery :=
  { tasks, caller := .starting, worker := .notStarted, channel := none }

inductive DeliveryStep where
  | create (now : String)
  | spawn
  | receive
  | timeout
  | reply
  | progress (message : String) (percentage : Option Nat) (now : String)
  | finalRead
  | finalWrite (now : String)
  | send

def ToolCall.newTask (call : ToolCall) : NewDurableTask :=
  Mcp.newTask call.taskId call.requestId call.toolName call.transportKind call.sessionId call.ttlMs

section
variable (toRmcp : List Json → Except String Json) (call : ToolCall)

/-- One step, where its party can take it. Creating a record fails when the id is taken,
which is a store error and no step of these runs. -/
def Delivery.step (state : Delivery) : DeliveryStep → Option Delivery
  | .create now =>
    match state.caller, call.ttlMs.isSome with
    | .starting, true | .timedOut, false =>
      match createDurableTask call.newTask now state.tasks with
      | (.ok task, tasks) => some { state with tasks, caller := .holding task }
      | (.error _, _) => none
    | _, _ => none
  | .spawn =>
    match state.worker, state.caller, call.ttlMs.isSome with
    | .notStarted, .holding task, true => some { state with worker := .running, caller := .holding task }
    | .notStarted, .starting, false => some { state with worker := .running, caller := .waiting }
    | _, _, _ => none
  | .receive =>
    match state.caller, state.channel with
    | .waiting, some outcome => some { state with caller := .replied (.own outcome), channel := none }
    | _, _ => none
  | .timeout =>
    match state.caller, state.channel with
    | .waiting, none => some { state with caller := .timedOut }
    | _, _ => none
  | .reply =>
    match state.caller, state.worker with
    | .holding _, .notStarted => none
    | .holding task, _ => some { state with caller := .replied (.handle task) }
    | _, _ => none
  | .progress message percentage now =>
    match state.worker with
    | .running => some { state with
        tasks := updateDurableTask call.taskId (progressUpdate message percentage) now state.tasks }
    | _ => none
  | .finalRead =>
    match state.worker with
    | .running =>
      match finalUpdate toRmcp (getDurableTask call.taskId state.tasks)
          call.result with
      | .ok none => some { state with worker := .returning call.result }
      | .ok (some update) => some { state with worker := .decided update }
      | .error message => some { state with worker := .returning (.error message) }
    | _ => none
  | .finalWrite now =>
    match state.worker with
    | .decided update => some { state with
        tasks := updateDurableTask call.taskId update now state.tasks
        worker := .returning call.result }
    | _ => none
  | .send =>
    match state.worker with
    | .returning outcome => some { state with worker := .sent, channel := some outcome }
    | _ => none

def Delivery.run : List DeliveryStep → Delivery → Option Delivery
  | [], state => some state
  | step :: rest, state => (state.step toRmcp call step).bind (Delivery.run rest)

def Delivery.Complete (state : Delivery) : Prop :=
  (∃ reply, state.caller = .replied reply) ∧ state.worker = .sent

def Carries (result : Except String Json) (task : DurableTaskRecord) : Prop :=
  match result with
  | .ok value =>
    if isInputRequiredToolResult value then
      task.status = .inputRequired ∧ persistedInputRequests toRmcp value = .ok task.inputRequests
    else task.status = .completed ∧ task.result = some value
  | .error message => task.status = .failed ∧ task.error = some (.obj [("message", .str message)])

/-- The caller's reply is the outcome itself, or a handle to a task that carries it. -/
def Delivery.Delivered (state : Delivery) : Prop :=
  match state.caller with
  | .replied (.own outcome) => outcome = call.result
  | .replied (.handle task) => task.taskId = call.taskId ∧
      ∃ stored, getDurableTask call.taskId state.tasks = some stored ∧ Carries toRmcp call.result stored
  | _ => False

def Convertible (result : Except String Json) : Prop :=
  ∀ value, result = .ok value → isInputRequiredToolResult value = true →
    ∃ requests, persistedInputRequests toRmcp value = .ok requests

def Delivery.Timely (state : Delivery) : DeliveryStep → Prop
  | .create _ => state.worker = .notStarted ∨ state.worker = .running
  | .finalRead => ∀ task, getDurableTask call.taskId state.tasks = some task →
      task.status ≠ .cancelled → Convertible toRmcp call.result
  | _ => True

def Delivery.TimelyThroughout : List DeliveryStep → Delivery → Prop
  | [], _ => True
  | step :: rest, state =>
    state.Timely toRmcp call step ∧ ∀ reached, state.step toRmcp call step = some reached → Delivery.TimelyThroughout rest reached

/-! ## What a step can do -/

/-- One step of the caller, of the worker or of the table. -/
inductive Moves (state : Delivery) : DeliveryStep → Delivery → Prop where
  | create {now : String} : state.caller = .starting ∨ state.caller = .timedOut → getDurableTask call.taskId state.tasks = none →
      Moves state (.create now) { state with
        tasks := state.tasks ++ [call.newTask.record now]
        caller := .holding (call.newTask.record now) }
  | spawnExplicit {task : DurableTaskRecord} : state.worker = .notStarted → state.caller =
    .holding task → Moves state .spawn { state with worker := .running, caller := .holding task }
  | spawnAutomatic : state.worker = .notStarted → state.caller = .starting →
    Moves state .spawn { state with worker := .running, caller := .waiting }
  | receive {outcome : Except String Json} : state.caller = .waiting → state.channel = some
    outcome → Moves state .receive { state with caller := .replied (.own outcome), channel := none }
  | timeout : state.caller = .waiting → state.channel = none → Moves state .timeout { state with caller := .timedOut }
  | reply {task : DurableTaskRecord} : state.caller = .holding task →
    Moves state .reply { state with caller := .replied (.handle task) }
  | progress {message : String} {percentage : Option Nat} {now : String} : state.worker = .running →
      Moves state (.progress message percentage now) { state with
        tasks := updateDurableTask call.taskId (progressUpdate message percentage) now state.tasks }
  | readSilent : state.worker = .running → finalUpdate toRmcp (getDurableTask call.taskId state.tasks) call.result = .ok none →
      Moves state .finalRead { state with worker := .returning call.result }
  | readDecided {update : DurableTaskUpdate} : state.worker = .running →
    finalUpdate toRmcp (getDurableTask call.taskId state.tasks) call.result = .ok (some update) →
      Moves state .finalRead { state with worker := .decided update }
  | readFailed {message : String} : state.worker = .running →
    finalUpdate toRmcp (getDurableTask call.taskId state.tasks) call.result = .error message →
      Moves state .finalRead { state with worker := .returning (.error message) }
  | write {update : DurableTaskUpdate} {now : String} : state.worker = .decided update →
      Moves state (.finalWrite now) { state with
        tasks := updateDurableTask call.taskId update now state.tasks
        worker := .returning call.result }
  | send {outcome : Except String Json} : state.worker = .returning outcome →
    Moves state .send { state with worker := .sent, channel := some outcome }

variable {toRmcp call} {state reached : Delivery}

theorem create_moves {now : String} (when : state.caller = .starting ∨ state.caller = .timedOut)
    (ran : (match createDurableTask call.newTask now state.tasks with
      | (.ok task, tasks) => some { state with tasks, caller := .holding task }
      | (.error _, _) => none) = some reached) :
    Moves toRmcp call state (.create now) reached := by
  cases absent : getDurableTask call.newTask.taskId state.tasks with
  | none =>
    rw [(getDurableTask_create absent).1] at ran
    cases ran
    exact .create when absent
  | some task =>
    have taken : hasKey (·.taskId) call.newTask.taskId state.tasks = true := by
      rw [Sql.hasKey_iff]
      exact ⟨task, mem_of_getDurableTask absent⟩
    simp [createDurableTask, taken] at ran

theorem Moves.of_step {step : DeliveryStep} (ran : state.step toRmcp call step = some reached) :
    Moves toRmcp call state step reached := by
  cases step with
  | create now =>
    simp only [Delivery.step] at ran
    split at ran
    next starting _ => exact create_moves (.inl starting) ran
    next timedOut _ => exact create_moves (.inr timedOut) ran
    next => cases ran
  | spawn =>
    simp only [Delivery.step] at ran
    split at ran
    next worker caller _ =>
      cases ran
      exact .spawnExplicit worker caller
    next worker caller _ =>
      cases ran
      exact .spawnAutomatic worker caller
    next => cases ran
  | receive =>
    simp only [Delivery.step] at ran
    split at ran
    next caller channel =>
      cases ran
      exact .receive caller channel
    next => cases ran
  | timeout =>
    simp only [Delivery.step] at ran
    split at ran
    next caller channel =>
      cases ran
      exact .timeout caller channel
    next => cases ran
  | reply =>
    simp only [Delivery.step] at ran
    split at ran
    next => cases ran
    next caller _ =>
      cases ran
      exact .reply caller
    next => cases ran
  | progress message percentage now =>
    simp only [Delivery.step] at ran
    split at ran
    next worker =>
      cases ran
      exact .progress worker
    next => cases ran
  | finalRead =>
    simp only [Delivery.step] at ran
    split at ran
    next worker =>
      split at ran
      next decision =>
        cases ran
        exact .readSilent worker decision
      next decision =>
        cases ran
        exact .readDecided worker decision
      next decision =>
        cases ran
        exact .readFailed worker decision
    next => cases ran
  | finalWrite now =>
    simp only [Delivery.step] at ran
    split at ran
    next worker =>
      cases ran
      exact .write worker
    next => cases ran
  | send =>
    simp only [Delivery.step] at ran
    split at ran
    next worker =>
      cases ran
      exact .send worker
    next => cases ran

/-! ## Runs that deliver -/

def Untouched (task : DurableTaskRecord) : Prop :=
  task.status = .working ∧ task.inputRequests = none
def Delivery.HasHandle (state : Delivery) (task : DurableTaskRecord) : Prop :=
  state.caller = .holding task ∨ state.caller = .replied (.handle task)

structure OnTime (toRmcp : List Json → Except String Json)
    (call : ToolCall) (state : Delivery) : Prop where
  handle : ∀ task, state.HasHandle task →
    task.taskId = call.taskId ∧ ∃ stored, getDurableTask call.taskId state.tasks = some stored ∧
      match state.worker with
      | .notStarted | .running => Untouched stored
      | .decided update => ∀ now, Carries toRmcp call.result (update.apply now stored)
      | .returning _ | .sent => Carries toRmcp call.result stored
  decided : ∀ update, state.worker = .decided update → getDurableTask call.taskId state.tasks ≠ none
  returning : ∀ outcome, state.worker = .returning outcome → outcome = call.result
  channel : ∀ outcome, state.channel = some outcome → outcome = call.result
  own : ∀ outcome, state.caller = .replied (.own outcome) → outcome = call.result ∧ state.worker = .sent
  empty : state.worker ≠ .sent → state.channel = none
  begun : state.caller = .starting → state.worker = .notStarted

theorem OnTime.start (tasks : TaskTable) : OnTime toRmcp call (.start tasks) where
  handle := by
    intro task has
    rcases has with holding | replied
    · cases holding
    · cases replied
  decided := fun _ wrong => nomatch wrong
  returning := fun _ wrong => nomatch wrong
  channel := fun _ wrong => nomatch wrong
  own := fun _ wrong => nomatch wrong
  empty := fun _ => rfl
  begun := fun _ => rfl

variable {current task : DurableTaskRecord} {steps : List DeliveryStep}

theorem finalUpdate_carries {update : DurableTaskUpdate}
    (decision : finalUpdate toRmcp (some current) call.result = .ok (some update))
    {stored : DurableTaskRecord} (untouched : Untouched stored) (now : String) :
    Carries toRmcp call.result (update.apply now stored) := by
  unfold finalUpdate at decision
  by_cases cancelled : current.status = .cancelled
  · simp [cancelled] at decision
  simp only [cancelled, if_false] at decision
  unfold Carries
  cases ended : call.result with
  | error message =>
    simp only [ended, Except.ok.injEq, Option.some.injEq] at decision
    rw [← decision]
    exact ⟨rfl, rfl⟩
  | ok value =>
    simp only [ended] at decision
    dsimp only
    cases input : isInputRequiredToolResult value with
    | false =>
      simp only [input, Bool.false_eq_true, if_false, Except.ok.injEq, Option.some.injEq]
        at decision
      rw [← decision]
      exact ⟨rfl, rfl⟩
    | true =>
      simp only [input, if_true] at decision
      cases converted : persistedInputRequests toRmcp value with
      | error message =>
        rw [converted] at decision
        cases decision
      | ok requests =>
        rw [converted] at decision
        have same : some
            ({ status := some .inputRequired
               statusMessage := some "input required"
               inputRequests := requests
               requestState := textField "requestState" value } : DurableTaskUpdate) =
            some update := Except.ok.inj decision
        rw [← Option.some.inj same]
        simp [TaskChanges.apply, untouched.2]

theorem finalUpdate_of_convertible (active : current.status ≠ .cancelled)
    (convertible : Convertible toRmcp call.result) :
    ∃ update, finalUpdate toRmcp (some current) call.result = .ok (some update) := by
  unfold finalUpdate
  simp only [active, if_false]
  cases ended : call.result with
  | error message => exact ⟨_, rfl⟩
  | ok value =>
    cases input : isInputRequiredToolResult value with
    | false =>
      simp only [input, Bool.false_eq_true, if_false]
      exact ⟨_, rfl⟩
    | true =>
      obtain ⟨requests, converted⟩ := convertible value ended input
      simp only [input, if_true, converted]
      exact ⟨_, rfl⟩

theorem Untouched.progress {task : DurableTaskRecord}
    (untouched : Untouched task) (message : String) (percentage : Option Nat) (now : String) :
    Untouched ((progressUpdate message percentage).apply now task) :=
  ⟨rfl, untouched.2⟩

section
variable (onTime : OnTime toRmcp call state)
include onTime

theorem OnTime.not_own (active : state.worker ≠ .sent) (outcome : Except String Json) :
    state.caller ≠ .replied (.own outcome) := fun replied => active (onTime.own outcome replied).2
theorem OnTime.not_starting (started : state.worker ≠ .notStarted) :
    state.caller ≠ .starting := fun starting => started (onTime.begun starting)

theorem OnTime.step {step : DeliveryStep} (timely : state.Timely toRmcp call step)
    (moves : Moves toRmcp call state step reached) : OnTime toRmcp call reached := by
  cases moves with
  | @create now when absent =>
    have early : state.worker = .notStarted ∨ state.worker = .running := timely
    have found : getDurableTask call.taskId (state.tasks ++ [call.newTask.record now]) = some (call.newTask.record now) :=
      (@getDurableTask_create _ call.newTask now state.tasks absent).2
    refine { onTime with handle := ?handle, decided := ?decided, own := ?own, begun := ?begun }
    case handle =>
      intro task has
      rcases has with holding | replied
      · cases holding
        refine ⟨rfl, _, found, ?_⟩
        rcases early with before | running
        · simp only [before]
          exact ⟨rfl, rfl⟩
        · simp only [running]
          exact ⟨rfl, rfl⟩
      · cases replied
    case decided =>
      intro update decided
      rcases early with before | running
      · simp [before] at decided
      · simp [running] at decided
    case own => exact fun _ wrong => nomatch wrong
    case begun => exact fun wrong => nomatch wrong
  | @spawnExplicit task worker caller =>
    constructor
    case handle =>
      intro other has
      have kept := onTime.handle other (by
        rcases has with holding | replied
        · exact .inl (caller.trans holding)
        · cases replied)
      simpa [worker] using kept
    case decided => exact fun _ wrong => nomatch wrong
    case returning => exact fun _ wrong => nomatch wrong
    case channel => exact onTime.channel
    case own => exact fun _ wrong => nomatch wrong
    case empty => exact fun _ => onTime.empty (by simp [worker])
    case begun => exact fun wrong => nomatch wrong
  | spawnAutomatic worker caller =>
    constructor
    case handle =>
      intro other has
      rcases has with holding | replied
      · cases holding
      · cases replied
    case decided => exact fun _ wrong => nomatch wrong
    case returning => exact fun _ wrong => nomatch wrong
    case channel => exact onTime.channel
    case own => exact fun _ wrong => nomatch wrong
    case empty => exact fun _ => onTime.empty (by simp [worker])
    case begun => exact fun wrong => nomatch wrong
  | @receive outcome caller channel =>
    have sent : state.worker = .sent := by
      by_contra active
      rw [onTime.empty active] at channel
      cases channel
    refine { onTime with handle := ?handle, channel := ?channel, own := ?own, empty := ?empty, begun := ?begun }
    case handle =>
      intro other has
      rcases has with holding | replied
      · cases holding
      · cases replied
    case channel => exact fun _ wrong => nomatch wrong
    case own =>
      intro other replied
      cases replied
      exact ⟨onTime.channel outcome channel, sent⟩
    case empty => exact fun _ => rfl
    case begun => exact fun wrong => nomatch wrong
  | timeout caller channel =>
    refine { onTime with handle := ?handle, own := ?own, begun := ?begun }
    case handle =>
      intro other has
      rcases has with holding | replied
      · cases holding
      · cases replied
    case own => exact fun _ wrong => nomatch wrong
    case begun => exact fun wrong => nomatch wrong
  | @reply task caller =>
    refine { onTime with handle := ?handle, own := ?own, begun := ?begun }
    case handle =>
      intro other has
      rcases has with holding | replied
      · cases holding
      · cases replied
        exact onTime.handle task (.inl caller)
    case own => exact fun _ wrong => nomatch wrong
    case begun => exact fun wrong => nomatch wrong
  | @progress message percentage now worker =>
    refine { onTime with handle := ?handle, decided := ?decided }
    case handle =>
      intro task has
      obtain ⟨own, stored, found, rest⟩ := onTime.handle task has
      rw [worker] at rest
      refine ⟨own, (progressUpdate message percentage).apply now stored, ?_, ?_⟩
      · rw [getDurableTask_update, found]
        rfl
      · rw [worker]
        exact Untouched.progress rest message percentage now
    case decided =>
      intro update decided
      rw [worker] at decided
      cases decided
  | readSilent worker decision =>
    constructor
    case handle =>
      -- A record under the handle is not cancelled, so it takes the outcome.
      intro task has
      obtain ⟨-, stored, found, rest⟩ := onTime.handle task has
      rw [worker] at rest
      have active : stored.status ≠ .cancelled := by
        rw [rest.1]
        decide
      obtain ⟨update, decided⟩ := finalUpdate_of_convertible active (timely stored found active)
      rw [found, decided] at decision
      cases decision
    case decided => exact fun _ wrong => nomatch wrong
    case returning =>
      intro outcome same
      cases same
      rfl
    case channel => exact onTime.channel
    case own => exact fun outcome replied => absurd replied (onTime.not_own (by simp [worker]) outcome)
    case empty => exact fun _ => onTime.empty (by simp [worker])
    case begun => exact fun starting => absurd starting (onTime.not_starting (by simp [worker]))
  | @readDecided update worker decision =>
    constructor
    case handle =>
      intro task has
      obtain ⟨own, stored, found, rest⟩ := onTime.handle task has
      rw [worker] at rest
      rw [found] at decision
      exact ⟨own, stored, found, fun now => finalUpdate_carries decision rest now⟩
    case decided =>
      intro _ _ absent
      rw [absent] at decision
      cases decision
    case returning => exact fun _ wrong => nomatch wrong
    case channel => exact onTime.channel
    case own => exact fun outcome replied => absurd replied (onTime.not_own (by simp [worker]) outcome)
    case empty => exact fun _ => onTime.empty (by simp [worker])
    case begun => exact fun starting => absurd starting (onTime.not_starting (by simp [worker]))
  | @readFailed message worker decision =>
    exfalso
    cases found : getDurableTask call.taskId state.tasks with
    | none =>
      rw [found] at decision
      cases decision
    | some task =>
      by_cases cancelled : task.status = .cancelled
      · rw [found] at decision
        simp [finalUpdate, cancelled] at decision
      · obtain ⟨update, decided⟩ := finalUpdate_of_convertible cancelled (timely task found cancelled)
        rw [found, decided] at decision
        cases decision
  | @write update now worker =>
    constructor
    case handle =>
      intro task has
      obtain ⟨own, stored, found, rest⟩ := onTime.handle task has
      rw [worker] at rest
      refine ⟨own, update.apply now stored, ?_, rest now⟩
      rw [getDurableTask_update, found]
      rfl
    case decided => exact fun _ wrong => nomatch wrong
    case returning =>
      intro outcome same
      cases same
      rfl
    case channel => exact onTime.channel
    case own => exact fun outcome replied => absurd replied (onTime.not_own (by simp [worker]) outcome)
    case empty => exact fun _ => onTime.empty (by simp [worker])
    case begun => exact fun starting => absurd starting (onTime.not_starting (by simp [worker]))
  | @send outcome worker =>
    constructor
    case handle =>
      intro task has
      have kept := onTime.handle task has
      simpa [worker] using kept
    case decided => exact fun _ wrong => nomatch wrong
    case returning => exact fun _ wrong => nomatch wrong
    case channel =>
      intro other same
      cases same
      exact onTime.returning outcome worker
    case own => exact fun other replied => absurd replied (onTime.not_own (by simp [worker]) other)
    case empty => exact fun wrong => absurd rfl wrong
    case begun => exact fun starting => absurd starting (onTime.not_starting (by simp [worker]))

end

/-! ## Runs that lose the outcome -/

/-- The caller will not see the result, whatever comes next. -/
inductive Doomed (call : ToolCall) (state : Delivery) : Prop where
  /-- The worker is done and the record under the handle is as it was created. -/
  | stuck {task stored : DurableTaskRecord} : state.HasHandle task →
    getDurableTask call.taskId state.tasks = some stored → stored.status = .working →
      ((∃ outcome, state.worker = .returning outcome) ∨ state.worker = .sent) → Doomed call state
  /-- The worker reports its own failure in place of the outcome. -/
  | misled {message : String} {value : Json} :
    call.result = .ok value → getDurableTask call.taskId state.tasks ≠ none →
      state.caller = .waiting →
      (state.worker = .returning (.error message) ∧ state.channel = none ∨
        state.worker = .sent ∧ state.channel = some (.error message)) → Doomed call state
  | told {message : String} {value : Json} :
    call.result = .ok value → state.caller = .replied (.own (.error message)) →
      Doomed call state
  /-- The caller cannot create its record: the id is taken. -/
  | barred : getDurableTask call.taskId state.tasks ≠ none → state.caller = .timedOut → Doomed call state

theorem Doomed.step (doomed : Doomed call state) {step : DeliveryStep}
    (moves : Moves toRmcp call state step reached) : Doomed call reached := by
  cases doomed with
  | @stuck task stored has found idle ended =>
    have busy : state.worker ≠ .notStarted ∧ state.worker ≠ .running ∧ ∀ update, state.worker ≠ .decided update := by
      rcases ended with ⟨outcome, returning⟩ | sent
      · simp [returning]
      · simp [sent]
    have held : state.caller ≠ .starting ∧ state.caller ≠ .timedOut ∧ state.caller ≠ .waiting := by
      rcases has with holding | replied
      · simp [holding]
      · simp [replied]
    cases moves with
    | create when absent => exact absurd when (by simp [held])
    | spawnExplicit worker caller | spawnAutomatic worker caller => exact absurd worker busy.1
    | receive caller channel | timeout caller channel => exact absurd caller held.2.2
    | reply caller => exact .stuck (.inr rfl) found idle ended
    | progress worker | readSilent worker decision | readDecided worker decision
    | readFailed worker decision => exact absurd worker busy.2.1
    | write worker => exact absurd worker (busy.2.2 _)
    | send worker => exact .stuck has found idle (.inr rfl)
  | @misled message value ended present waiting told =>
    have busy : state.worker ≠ .notStarted ∧ state.worker ≠ .running ∧ ∀ update, state.worker ≠ .decided update := by
      rcases told with ⟨returning, -⟩ | ⟨sent, -⟩
      · simp [returning]
      · simp [sent]
    cases moves with
    | create when absent => exact absurd absent present
    | spawnExplicit worker caller | spawnAutomatic worker caller => exact absurd worker busy.1
    | @receive outcome caller channel =>
      rcases told with ⟨-, empty⟩ | ⟨-, full⟩
      · rw [empty] at channel
        cases channel
      · rw [full] at channel
        cases channel
        exact .told ended rfl
    | timeout caller channel => exact .barred present rfl
    | reply caller =>
      rw [waiting] at caller
      cases caller
    | progress worker | readSilent worker decision | readDecided worker decision
    | readFailed worker decision => exact absurd worker busy.2.1
    | write worker => exact absurd worker (busy.2.2 _)
    | @send outcome worker =>
      rcases told with ⟨returning, -⟩ | ⟨sent, -⟩
      · rw [returning] at worker
        cases worker
        exact .misled ended present waiting (.inr ⟨rfl, rfl⟩)
      · rw [sent] at worker
        cases worker
  | @told message value ended replied =>
    cases moves with
    | create when absent => exact absurd when (by simp [replied])
    | spawnExplicit worker caller | spawnAutomatic worker caller | receive caller channel
    | timeout caller channel | reply caller =>
      rw [replied] at caller
      cases caller
    | progress worker | readSilent worker decision | readDecided worker decision
    | readFailed worker decision | write worker | send worker => exact .told ended replied
  | barred present timedOut =>
    cases moves with
    | create when absent => exact absurd absent present
    | spawnExplicit worker caller | spawnAutomatic worker caller | receive caller channel
    | timeout caller channel | reply caller =>
      rw [timedOut] at caller
      cases caller
    | progress worker => exact .barred (by simpa [getDurableTask_update] using present) timedOut
    | readSilent worker decision | readDecided worker decision | readFailed worker decision => exact .barred present timedOut
    | write worker => exact .barred (by simpa [getDurableTask_update] using present) timedOut
    | send worker => exact .barred present timedOut

theorem finalUpdate_of_not_convertible (active : current.status ≠ .cancelled)
    (stubborn : ¬ Convertible toRmcp call.result) :
    ∃ value message, call.result = .ok value ∧ finalUpdate toRmcp (some current) call.result = .error message := by
  unfold Convertible at stubborn
  push Not at stubborn
  obtain ⟨value, ended, input, refused⟩ := stubborn
  cases converted : persistedInputRequests toRmcp value with
  | ok requests => exact absurd converted (refused requests)
  | error message =>
    refine ⟨value, message, ended, ?_⟩
    unfold finalUpdate
    simp only [active, if_false, ended, input, if_true, converted]
    rfl

section
variable (onTime : OnTime toRmcp call state)
include onTime

theorem OnTime.doomed_read (worker : state.worker = .running)
    (found : getDurableTask call.taskId state.tasks = some task)
    {value : Json} {message : String} (ended : call.result = .ok value) :
    Doomed call { state with worker := .returning (.error message) } := by
  have present : getDurableTask call.taskId state.tasks ≠ none := by simp [found]
  have handled : ∀ other, state.HasHandle other → Doomed call { state with worker := .returning (.error message) } := by
    intro other has
    obtain ⟨-, stored, foundStored, rest⟩ := onTime.handle other has
    rw [worker] at rest
    exact .stuck has foundStored rest.1 (.inl ⟨_, rfl⟩)
  -- The phase is named first: the goal mentions it, and must keep doing so.
  obtain ⟨phase, caller⟩ : ∃ phase, state.caller = phase := ⟨_, rfl⟩
  cases phase with
  | starting =>
    have idle := onTime.begun caller
    rw [worker] at idle
    cases idle
  | waiting =>
    have empty := onTime.empty (by simp [worker])
    exact .misled ended present caller (.inl ⟨rfl, empty⟩)
  | timedOut => exact .barred present caller
  | holding other => exact handled other (.inl caller)
  | replied reply =>
    cases reply with
    | own outcome =>
      have sent := (onTime.own outcome caller).2
      rw [worker] at sent
      cases sent
    | handle other => exact handled other (.inr caller)

theorem OnTime.doomed {step : DeliveryStep} (late : ¬ state.Timely toRmcp call step)
    (moves : Moves toRmcp call state step reached) : Doomed call reached := by
  cases moves with
  | @create now when absent =>
    have found : getDurableTask call.taskId (state.tasks ++ [call.newTask.record now]) = some (call.newTask.record now) :=
      (@getDurableTask_create _ call.newTask now state.tasks absent).2
    apply Doomed.stuck (.inl rfl) found rfl
    cases worker : state.worker with
    | notStarted => exact absurd (.inl worker) late
    | running => exact absurd (.inr worker) late
    | decided update => exact absurd absent (onTime.decided update worker)
    | returning outcome => exact .inl ⟨outcome, rfl⟩
    | sent => exact .inr rfl
  | spawnExplicit worker caller | spawnAutomatic worker caller | receive caller channel | timeout caller channel | reply caller
  | progress worker => exact absurd trivial late
  | readSilent worker decision | readDecided worker decision =>
    unfold Delivery.Timely at late
    push Not at late
    obtain ⟨task, found, active, stubborn⟩ := late
    obtain ⟨value, message, -, failed⟩ := finalUpdate_of_not_convertible active stubborn
    rw [found, failed] at decision
    cases decision
  | readFailed worker decision =>
    unfold Delivery.Timely at late
    push Not at late
    obtain ⟨task, found, active, stubborn⟩ := late
    obtain ⟨value, message, ended, -⟩ := finalUpdate_of_not_convertible active stubborn
    exact onTime.doomed_read worker found ended
  | write worker | send worker => exact absurd trivial late

/-! ## Complete runs -/

theorem OnTime.delivered (complete : state.Complete) : state.Delivered toRmcp call := by
  obtain ⟨⟨reply, replied⟩, sent⟩ := complete
  unfold Delivery.Delivered
  rw [replied]
  cases reply with
  | own outcome => exact (onTime.own outcome replied).1
  | handle task =>
    obtain ⟨own, stored, found, rest⟩ := onTime.handle task (.inr replied)
    rw [sent] at rest
    exact ⟨own, stored, found, rest⟩

end

theorem not_carries_of_working {result : Except String Json} (idle : task.status = .working) :
    ¬ Carries toRmcp result task := by
  unfold Carries
  cases result with
  | error message => simp [idle]
  | ok value =>
    dsimp only
    split <;> simp [idle]

theorem Doomed.not_delivered (doomed : Doomed call state) (complete : state.Complete) :
    ¬ state.Delivered toRmcp call := by
  obtain ⟨⟨reply, replied⟩, -⟩ := complete
  unfold Delivery.Delivered
  cases doomed with
  | @stuck task stored has found idle ended =>
    rcases has with holding | handled
    · rw [holding] at replied
      cases replied
    · rw [handled]
      rintro ⟨-, other, foundOther, carries⟩
      rw [found] at foundOther
      cases foundOther
      exact not_carries_of_working idle carries
  | misled ended present waiting told =>
    rw [waiting] at replied
    cases replied
  | told ended answered =>
    rw [answered, ended]
    intro wrong
    cases wrong
  | barred present timedOut =>
    rw [timedOut] at replied
    cases replied

theorem Doomed.run (doomed : Doomed call state) (ran : state.run toRmcp call steps = some reached) :
    Doomed call reached := by
  induction steps generalizing state with
  | nil =>
    cases ran
    exact doomed
  | cons step rest ih =>
    obtain ⟨between, stepped, later⟩ := Option.bind_eq_some_iff.mp ran
    exact ih (doomed.step (Moves.of_step stepped)) later

theorem OnTime.run_delivered_iff (onTime : OnTime toRmcp call state)
    (ran : state.run toRmcp call steps = some reached) (complete : reached.Complete) :
    reached.Delivered toRmcp call ↔ state.TimelyThroughout toRmcp call steps := by
  induction steps generalizing state with
  | nil =>
    cases ran
    exact ⟨fun _ => trivial, fun _ => onTime.delivered complete⟩
  | cons step rest ih =>
    obtain ⟨between, stepped, later⟩ := Option.bind_eq_some_iff.mp ran
    have moves := Moves.of_step stepped
    by_cases timely : state.Timely toRmcp call step
    · have next := ih (onTime.step timely moves) later
      constructor
      · intro delivered
        refine ⟨timely, ?_⟩
        intro other sameStep
        rw [stepped] at sameStep
        cases sameStep
        exact next.mp delivered
      · rintro ⟨-, throughout⟩
        exact next.mpr (throughout between stepped)
    · have doomed := (onTime.doomed timely moves).run later
      constructor
      · intro delivered
        exact absurd delivered (doomed.not_delivered complete)
      · rintro ⟨wrong, -⟩
        exact absurd wrong timely

/-- Whatever the interleaving of caller and worker, once both have finished the outcome
has reached the caller or its task exactly when the run was timely. -/
theorem start_delivered_iff (toRmcp : List Json → Except String Json)
    (call : ToolCall) (tasks : TaskTable) {steps : List DeliveryStep}
    (ran : (Delivery.start tasks).run toRmcp call steps = some reached)
    (complete : reached.Complete) :
    reached.Delivered toRmcp call ↔ (Delivery.start tasks).TimelyThroughout toRmcp call steps :=
  (OnTime.start tasks).run_delivered_iff ran complete

end

/-! ## An outcome that arrives with the timeout -/

def sampleCall : ToolCall where
  taskId := "atlas-task-1-build_or_update_graph-1"
  requestId := "1"
  toolName := "build_or_update_graph"
  transportKind := none
  sessionId := none
  ttlMs := none
  result := .ok (.obj [("files", .num "3")])

/-- The worker looks for the record after the threshold and before the caller creates it. -/
def sampleRace : List DeliveryStep :=
  [.spawn, .timeout, .finalRead, .create "2026-01-01T00:00:01Z", .reply, .send]

def sampleRaceEnd : Delivery where
  tasks := [sampleCall.newTask.record "2026-01-01T00:00:01Z"]
  caller := .replied (.handle (sampleCall.newTask.record "2026-01-01T00:00:01Z"))
  worker := .sent
  channel := some sampleCall.result

theorem sampleRace_iff : sampleRaceEnd.Delivered (fun _ => .ok .null) sampleCall ↔
    (Delivery.start []).TimelyThroughout (fun _ => .ok .null) sampleCall sampleRace :=
  start_delivered_iff _ sampleCall [] (show (Delivery.start []).run (fun _ => .ok .null) sampleCall
    sampleRace = some sampleRaceEnd from rfl) ⟨⟨_, rfl⟩, rfl⟩

theorem sampleRace_loses :
    (Delivery.start []).run (fun _ => .ok .null) sampleCall sampleRace = some sampleRaceEnd ∧
      sampleRaceEnd.Complete ∧ ¬ sampleRaceEnd.Delivered (fun _ => .ok .null) sampleCall := by
  refine ⟨rfl, ⟨⟨_, rfl⟩, rfl⟩, ?_⟩
  rintro ⟨-, stored, found, carries⟩
  have same : stored = sampleCall.newTask.record "2026-01-01T00:00:01Z" := (Option.some.inj found).symm
  subst same
  exact not_carries_of_working rfl carries

end Atlas.Mcp
