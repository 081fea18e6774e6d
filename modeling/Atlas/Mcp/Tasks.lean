import Atlas.Session.DurableTask
import Atlas.Session.Event

/-! The programs of `tasks.rs` that touch the stored record of a task, each cut into what
it writes and what it decides from a read. Converting input requests to the wire types
of the protocol crate is a parameter. -/
namespace Atlas.Mcp
open List
open Core (Json)
open Session

inductive TaskApiErrorKind where
  | internal
  | invalidParams
  | notFound

structure TaskApiError where
  kind : TaskApiErrorKind
  message : String

def field (key : String) (value : Json) : Option Json :=
  (value.fieldsOrDefault.find? fun entry => entry.1 == key).map (·.2)

def textField (key : String) (value : Json) : Option String :=
  match field key value with
  | some (.str text) => some text
  | _ => none

def isTerminal : DurableTaskStatus → Bool
  | .completed | .failed | .cancelled => true
  | .inputRequired | .working => false

def progressUpdate (msg : String) (percentage : Option Nat) : DurableTaskUpdate where
  status := some .working
  statusMessage := some msg
  progress := some (.obj [("message", .str msg),
    ("percentage", (percentage.map fun value => Json.num (toString value)).getD .null)])

def isInputRequiredToolResult (value : Json) : Bool :=
  textField "resultType" value == some "input_required"

section
variable (toRmcp : List Json → Except String Json)

def persistedInputRequests (value : Json) : Except String (Option Json) :=
  match field "inputRequests" value with
  | none => .ok none
  | some (.obj fields) => .ok (some (.obj fields))
  | some (.arr items) => (toRmcp items).map some
  | some other => .error ("inputRequests must be object or array, got " ++ canonicalJson other)

/-- What the worker writes after the tool has run, decided from the record it reads. -/
def finalUpdate (current : Option DurableTaskRecord) (result : Except String Json) :
    Except String (Option DurableTaskUpdate) :=
  match current with
  | none => .ok none
  | some task =>
    if task.status = .cancelled then .ok none
    else
      match result with
      | .ok value =>
        if isInputRequiredToolResult value then do
          let inputRequests ← persistedInputRequests toRmcp value
          pure (some
            { status := some .inputRequired
              statusMessage := some "input required"
              inputRequests
              requestState := textField "requestState" value })
        else .ok (some
          { status := some .completed
            statusMessage := some "completed"
            result := some value })
      | .error msg => .ok (some
          { status := some .failed
            statusMessage := some msg
            error := some (.obj [("message", .str msg)]) })

end

def taskRecord (taskId : String) (tasks : TaskTable) : Except TaskApiError DurableTaskRecord :=
  match getDurableTask taskId tasks with
  | some task => .ok task
  | none => .error ⟨.notFound, "unknown task_id '" ++ taskId ++ "'"⟩

/-- The check of `tasks_update` and `tasks_cancel` after their read. -/
def accepts (what taskId : String) (tasks : TaskTable) : Except TaskApiError DurableTaskRecord :=
  match taskRecord taskId tasks with
  | .error error => .error error
  | .ok task =>
    if isTerminal task.status then
      .error ⟨.invalidParams, "task '" ++ taskId ++ "' no longer accepts " ++ what⟩
    else .ok task

def clientInputUpdate (input : Json) : DurableTaskUpdate where
  status := some .working
  statusMessage := some "client input received"
  progress := some (.obj [("clientInput", input)])

def cancelUpdate : DurableTaskUpdate where
  status := some .cancelled
  statusMessage := some "cancelled"
  cancelRequested := some true

def newTask (taskId requestId toolName : String)
    (transportKind sessionId : Option String) (ttlMs : Option Nat) : NewDurableTask where
  taskId
  originatingMethod := "tools/call"
  requestId := some requestId
  toolName := some toolName
  transportKind
  sessionId
  status := .working
  statusMessage := some "working"
  ttlMs

/-- `counter` is the value of the process counter after its increment. -/
def newTaskId (requestId toolName : String) (counter : Nat) : String :=
  "atlas-task-" ++ requestId ++ "-" ++ toolName ++ "-" ++ toString counter

/-! Task records outlive the server process that made them, while the counter in a task id
starts again with each process. An id is fresh exactly when no stored record was made by
a call with the same number in its own process and the same request and tool text. -/

open Sql

/-- A deferrable tool call. A lifetime is one server process from its start to its stop,
and `number` counts the ids it has chosen, this one included. -/
structure TaskCall (Lifetime : Type) where
  lifetime : Lifetime
  number : Nat
  (requestId toolName : String)
  /-- The client asked for a task, so the record is created before the worker starts. -/
  explicit : Bool
  deriving DecidableEq

section
variable {Lifetime : Type}

/-- The process counter is a `u64` that wraps around. -/
def TaskCall.taskId (call : TaskCall Lifetime) : String :=
  newTaskId call.requestId call.toolName (call.number % 2 ^ 64)
def TaskCall.Clash (call other : TaskCall Lifetime) : Prop := call.number % 2 ^ 64 = other.number %
    2 ^ 64 ∧ call.requestId ++ "-" ++ call.toolName = other.requestId ++ "-" ++ other.toolName

theorem newTaskId_toList (requestId toolName : String) (counter : Nat) :
    (newTaskId requestId toolName counter).toList =
      "atlas-task-".toList ++ ((requestId ++ "-" ++ toolName).toList ++ '-' :: counter.repr.toList) := by
  have digits : ("-" ++ toString counter).toList = '-' :: counter.repr.toList := by
    rw [String.toList_append]
    rfl
  unfold newTaskId
  rw [← digits, ← String.toList_append, ← String.toList_append]
  simp only [String.append_assoc]

theorem newTaskId_eq_iff {requestId requestId' toolName toolName' : String}
    {counter counter' : Nat} :
    newTaskId requestId toolName counter = newTaskId requestId' toolName' counter' ↔
      counter = counter' ∧ requestId ++ "-" ++ toolName = requestId' ++ "-" ++ toolName' := by
  have noDash : ∀ number : Nat, '-' ∉ number.repr.toList := by
    intro number dash
    exact absurd (Text.isDigit_of_mem_natRepr dash) (by decide)
  constructor
  · intro same
    have chars := congrArg String.toList same
    rw [newTaskId_toList, newTaskId_toList, append_cancel_left_eq] at chars
    obtain ⟨texts, digits⟩ := Text.append_separator_inj (noDash _) (noDash _) chars
    exact ⟨Text.natRepr_injective (String.toList_injective digits), String.toList_injective texts⟩
  · rintro ⟨rfl, texts⟩
    apply String.toList_injective
    rw [newTaskId_toList, newTaskId_toList, texts]

theorem TaskCall.taskId_eq_iff {call other : TaskCall Lifetime} :
    call.taskId = other.taskId ↔ call.Clash other := newTaskId_eq_iff

end

/-! ## Servers on one store -/

structure Servers (Lifetime : Type) where
  tasks : TaskTable
  /-- Ids each process has chosen so far: its `TASK_ID_COUNTER` before it wraps. -/
  chosen : Lifetime → Nat
  /-- Calls whose caller has neither created a record nor replied. -/
  pending : List (TaskCall Lifetime)
  /-- Calls whose worker has not finished. -/
  running : List (TaskCall Lifetime)
  /-- Ghost: the call that last created a record under an id. -/
  makers : String → Option (TaskCall Lifetime)

def Servers.initial (Lifetime : Type) : Servers Lifetime where
  tasks := []
  chosen := fun _ => 0
  pending := []
  running := []
  makers := fun _ => none

inductive ServerStep (Lifetime : Type) where
  /-- A call arrives and an id is chosen for it. -/
  | call (lifetime : Lifetime) (requestId toolName : String) (explicit : Bool)
  | create (call : TaskCall Lifetime) (transportKind sessionId : Option String) (ttlMs : Option Nat) (now : String)
  /-- The caller of a call answers without creating a record. -/
  | reply (call : TaskCall Lifetime)
  /-- The worker of a call reads the record under its id. -/
  | read (call : TaskCall Lifetime)
  /-- The worker of a call writes progress or an outcome under its id. -/
  | write (call : TaskCall Lifetime) (update : DurableTaskUpdate) (now : String)
  | finish (call : TaskCall Lifetime)
  /-- A client updates or cancels a task. -/
  | request (taskId : String) (update : DurableTaskUpdate) (now : String)
  | delete (taskId : String)
  | stop (lifetime : Lifetime)

section
variable {Lifetime : Type} {servers : Servers Lifetime}

def Servers.nextCall (servers : Servers Lifetime)
    (lifetime : Lifetime) (requestId toolName : String) (explicit : Bool) : TaskCall Lifetime where
  lifetime
  number := servers.chosen lifetime + 1
  requestId
  toolName
  explicit

def TaskCall.newTask (call : TaskCall Lifetime)
    (transportKind sessionId : Option String) (ttlMs : Option Nat) : NewDurableTask :=
  Mcp.newTask call.taskId call.requestId call.toolName transportKind sessionId ttlMs

def Servers.step [DecidableEq Lifetime] (servers : Servers Lifetime) :
    ServerStep Lifetime → Servers Lifetime
  | .call lifetime requestId toolName explicit =>
    let call := servers.nextCall lifetime requestId toolName explicit
    { servers with
      chosen := Function.update servers.chosen lifetime call.number
      pending := call :: servers.pending
      running := if explicit then servers.running else call :: servers.running }
  | .create call transportKind sessionId ttlMs now =>
    if call ∈ servers.pending then
      match createDurableTask (call.newTask transportKind sessionId ttlMs) now servers.tasks with
      -- A refused creation is the answer to the client; an explicit call has no worker then.
      | (.error _, tasks) => { servers with tasks, pending := servers.pending.erase call }
      | (.ok _, tasks) =>
        { servers with
          tasks
          pending := servers.pending.erase call
          running := if call.explicit then call :: servers.running else servers.running
          makers := Function.update servers.makers call.taskId (some call) }
    else servers
  | .reply call => { servers with pending := servers.pending.erase call }
  | .read _ => servers
  | .write call update now =>
    if call ∈ servers.running then
      { servers with tasks := updateDurableTask call.taskId update now servers.tasks }
    else servers
  | .finish call => { servers with running := servers.running.erase call }
  | .request taskId update now => { servers with tasks := updateDurableTask taskId update now servers.tasks }
  | .delete taskId => { servers with tasks := deleteDurableTask taskId servers.tasks }
  | .stop lifetime =>
    { servers with
      pending := servers.pending.filter fun call => decide (call.lifetime ≠ lifetime)
      running := servers.running.filter fun call => decide (call.lifetime ≠ lifetime) }

/-- What freshness asks of a step: the chosen id is not in the store, the record can be
created, and a worker finds its own record or none. -/
def Servers.Fresh (servers : Servers Lifetime) : ServerStep Lifetime → Prop
  | .call lifetime requestId toolName explicit =>
    getDurableTask (servers.nextCall lifetime requestId toolName explicit).taskId servers.tasks = none
  | .create call transportKind sessionId ttlMs now =>
    call ∈ servers.pending → ∃ record, (createDurableTask
      (call.newTask transportKind sessionId ttlMs) now servers.tasks).1 = .ok record
  | .read call | .write call _ _ =>
    call ∈ servers.running → ∀ task, getDurableTask call.taskId servers.tasks = some task → servers.makers task.taskId = some call
  | .reply _ | .finish _ | .request _ _ _ | .delete _ | .stop _ => True

def Servers.Taken (servers : Servers Lifetime) (call maker : TaskCall Lifetime) : Prop :=
  ∃ task ∈ servers.tasks, servers.makers task.taskId = some maker ∧ call.Clash maker

def Servers.Clear (servers : Servers Lifetime) : ServerStep Lifetime → Prop
  | .call lifetime requestId toolName explicit =>
    ∀ maker, ¬ servers.Taken (servers.nextCall lifetime requestId toolName explicit) maker
  | .create call _ _ _ _ => call ∈ servers.pending → ∀ maker, ¬ servers.Taken call maker
  | .read call | .write call _ _ => call ∈ servers.running → ∀ maker, maker ≠ call → ¬ servers.Taken call maker
  | .reply _ | .finish _ | .request _ _ _ | .delete _ | .stop _ => True

def Servers.FreshThroughout [DecidableEq Lifetime] :
    Servers Lifetime → List (ServerStep Lifetime) → Prop
  | _, [] => True
  | servers, step :: rest => servers.Fresh step ∧ (servers.step step).FreshThroughout rest

def Servers.ClearThroughout [DecidableEq Lifetime] :
    Servers Lifetime → List (ServerStep Lifetime) → Prop
  | _, [] => True
  | servers, step :: rest => servers.Clear step ∧ (servers.step step).ClearThroughout rest

/-! ## Where stored records come from -/

def Servers.Attributed (servers : Servers Lifetime) : Prop := ∀ task ∈ servers.tasks, ∃ maker,
    servers.makers task.taskId = some maker ∧ maker.taskId = task.taskId

theorem Servers.Attributed.of_ids (attributed : servers.Attributed) {tasks : TaskTable}
    (kept : ∀ task ∈ tasks, ∃ other ∈ servers.tasks, other.taskId = task.taskId) :
    ∀ task ∈ tasks, ∃ maker, servers.makers task.taskId = some maker ∧ maker.taskId = task.taskId := by
  intro task mem
  obtain ⟨other, stored, same⟩ := kept task mem
  rw [← same]
  exact attributed other stored

theorem mem_updateDurableTask {taskId : String} {update : DurableTaskUpdate} {now : String}
    {tasks : TaskTable} {task : DurableTaskRecord}
    (mem : task ∈ updateDurableTask taskId update now tasks) :
    ∃ other ∈ tasks, other.taskId = task.taskId := by
  have id := mem_map_of_mem (f := fun task : DurableTaskRecord => task.taskId) mem
  rw [taskIds_update] at id
  exact mem_map.mp id

theorem Servers.Attributed.create (attributed : servers.Attributed) {call : TaskCall Lifetime}
    {record : DurableTaskRecord} (own : record.taskId = call.taskId) :
    ∀ task ∈ servers.tasks ++ [record], ∃ maker, Function.update servers.makers call.taskId
      (some call) task.taskId = some maker ∧ maker.taskId = task.taskId := by
  intro task mem
  by_cases same : task.taskId = call.taskId
  · exact ⟨call, by rw [same, Function.update_self], same.symm⟩
  · rw [Function.update_of_ne same]
    rcases mem_append.mp mem with stored | new
    · exact attributed task stored
    · rw [mem_singleton.mp new] at same
      exact absurd own same

theorem createDurableTask_cases (task : NewDurableTask) (now : String) (tasks : TaskTable) :
    (∃ error, createDurableTask task now tasks = (.error error, tasks) ∧ ∃ stored ∈ tasks, stored.taskId = task.taskId) ∨
    (createDurableTask task now tasks = (.ok (task.record now), tasks ++ [task.record now]) ∧
      ∀ stored ∈ tasks, stored.taskId ≠ task.taskId) := by
  cases present : hasKey (·.taskId) task.taskId tasks with
  | true => exact .inl ⟨_, by simp only [createDurableTask, present]; rfl, hasKey_iff.mp present⟩
  | false => exact .inr ⟨by simp only [createDurableTask, present]; rfl, hasKey_eq_false_iff.mp present⟩

section
variable (attributed : servers.Attributed)
include attributed

theorem Servers.Attributed.step [DecidableEq Lifetime] (step : ServerStep Lifetime) :
    (servers.step step).Attributed := by
  cases step with
  | call lifetime requestId toolName explicit => exact attributed
  | create call transportKind sessionId ttlMs now =>
    unfold Servers.step
    dsimp only
    split
    case isFalse => exact attributed
    case isTrue =>
      rcases createDurableTask_cases (call.newTask transportKind sessionId ttlMs) now
        servers.tasks with ⟨error, refused, -⟩ | ⟨created, -⟩
      · rw [refused]
        exact attributed
      · rw [created]
        exact attributed.create rfl
  | reply call | read call => exact attributed
  | write call update now =>
    unfold Servers.step
    dsimp only
    split
    · exact attributed.of_ids fun _ => mem_updateDurableTask
    · exact attributed
  | finish call => exact attributed
  | request taskId update now => exact attributed.of_ids fun _ => mem_updateDurableTask
  | delete taskId =>
    apply attributed.of_ids
    intro task mem
    exact ⟨task, (mem_deleteWhere.mp mem).1, rfl⟩
  | stop lifetime => exact attributed

/-! ## Freshness from the calls -/

theorem Servers.Attributed.taken_iff
    {call : TaskCall Lifetime} :
    (∃ maker, servers.Taken call maker) ↔ ∃ task ∈ servers.tasks, task.taskId = call.taskId := by
  constructor
  · rintro ⟨maker, task, mem, made, clash⟩
    obtain ⟨other, madeOther, same⟩ := attributed task mem
    rw [made] at madeOther
    cases madeOther
    exact ⟨task, mem, same.symm.trans (TaskCall.taskId_eq_iff.mpr clash).symm⟩
  · rintro ⟨task, mem, same⟩
    obtain ⟨maker, made, own⟩ := attributed task mem
    exact ⟨maker, task, mem, made, TaskCall.taskId_eq_iff.mp (same.symm.trans own.symm)⟩

theorem Servers.Attributed.own_iff {call : TaskCall Lifetime} : (∀ task,
    getDurableTask call.taskId servers.tasks = some task → servers.makers task.taskId = some call) ↔
      ∀ maker, maker ≠ call → ¬ servers.Taken call maker := by
  constructor
  · rintro own maker other ⟨task, mem, made, clash⟩
    have same : task.taskId = call.taskId := by
      obtain ⟨first, madeFirst, id⟩ := attributed task mem
      rw [made] at madeFirst
      cases madeFirst
      exact id.symm.trans (TaskCall.taskId_eq_iff.mpr clash).symm
    cases found : getDurableTask call.taskId servers.tasks with
    | none => exact getDurableTask_eq_none_iff.mp found (mem_map.mpr ⟨task, mem, same⟩)
    | some stored =>
      have mine := own stored found
      rw [(mem_of_getDurableTask found).2, ← same, made] at mine
      exact other (Option.some.inj mine)
  · intro clear task found
    obtain ⟨mem, same⟩ := mem_of_getDurableTask found
    obtain ⟨maker, made, own⟩ := attributed task mem
    by_cases mine : maker = call
    · rw [made, mine]
    · exact absurd ⟨task, mem, made, TaskCall.taskId_eq_iff.mp (same.symm.trans own.symm)⟩ (clear maker mine)

theorem Servers.Attributed.fresh_iff (step : ServerStep Lifetime) :
    servers.Fresh step ↔ servers.Clear step := by
  cases step with
  | call lifetime requestId toolName explicit =>
    have taken := @Servers.Attributed.taken_iff Lifetime servers attributed
      (servers.nextCall lifetime requestId toolName explicit)
    unfold Servers.Fresh Servers.Clear
    dsimp only
    rw [getDurableTask_eq_none_iff, ← not_exists, taken, mem_map]
  | create call transportKind sessionId ttlMs now =>
    have taken := @Servers.Attributed.taken_iff Lifetime servers attributed call
    unfold Servers.Fresh Servers.Clear
    dsimp only
    apply imp_congr_right
    intro _
    rw [← not_exists, taken]
    rcases createDurableTask_cases (call.newTask transportKind sessionId ttlMs) now
      servers.tasks with ⟨error, refused, present⟩ | ⟨created, absent⟩
    · rw [refused]
      constructor
      · rintro ⟨record, wrong⟩
        cases wrong
      · intro none
        exact absurd present none
    · rw [created]
      constructor
      · rintro - ⟨task, mem, same⟩
        exact absent task mem same
      · intro _
        exact ⟨_, rfl⟩
  | read call | write call update now => exact imp_congr_right fun _ => attributed.own_iff
  | reply call | finish call | request taskId update now | delete taskId | stop lifetime => exact Iff.rfl

theorem Servers.Attributed.freshThroughout_iff [DecidableEq Lifetime]
    (steps : List (ServerStep Lifetime)) :
    servers.FreshThroughout steps ↔ servers.ClearThroughout steps := by
  induction steps generalizing servers with
  | nil => exact Iff.rfl
  | cons step rest ih =>
    unfold Servers.FreshThroughout Servers.ClearThroughout
    rw [attributed.fresh_iff step, ih (attributed.step step)]

end

/-- Over every run of any number of servers on one store, every id is fresh exactly when
no call meets a stored record of a call that clashes with it. -/
theorem initial_freshThroughout_iff [DecidableEq Lifetime] (steps : List (ServerStep Lifetime)) :
    (Servers.initial Lifetime).FreshThroughout steps ↔ (Servers.initial Lifetime).ClearThroughout steps := by
  have attributed : (Servers.initial Lifetime).Attributed := by
    intro task mem
    cases mem
  exact attributed.freshThroughout_iff steps

end

def sampleTaskCall (lifetime : Nat) : TaskCall Nat where
  lifetime
  number := 1
  requestId := "1"
  toolName := "build_or_update_graph"
  explicit := true

/-- The first call of each of two processes, with the same request id and tool. -/
def sampleRestart : List (ServerStep Nat) :=
  [.call 0 "1" "build_or_update_graph" true, .create (sampleTaskCall 0) none none (some 1000)
    "2026-01-01T00:00:00Z", .finish (sampleTaskCall 0), .stop 0,
    .call 1 "1" "build_or_update_graph" true,
    .create (sampleTaskCall 1) none none (some 1000) "2026-01-02T00:00:00Z"]

theorem sampleRestart_stale : ¬ (Servers.initial Nat).FreshThroughout sampleRestart := by
  rintro ⟨-, -, -, -, chosen, -⟩
  have taken : getDurableTask (sampleTaskCall 1).taskId
      ([((sampleTaskCall 0).newTask none none (some 1000)).record "2026-01-01T00:00:00Z"] : TaskTable) ≠ none := by decide
  exact taken chosen

end Atlas.Mcp
