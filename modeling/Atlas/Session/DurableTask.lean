import Atlas.Store.Schema

/-! The `durable_tasks` table. Its operations are the same whether a JSON column is the text that is
stored or the value that the text is read as. -/
namespace Atlas.Session
open List Sql
open Core (Json)
open Store (AtlasError)

inductive DurableTaskStatus where
  | cancelled
  | completed
  | failed
  | inputRequired
  | working
  deriving DecidableEq

structure TaskColumns (Value : Type) where
  (taskId originatingMethod : String)
  (requestId toolName transportKind sessionId : Option String)
  (createdAt updatedAt : String)
  status : DurableTaskStatus
  statusMessage : Option String
  (progress result error inputRequests : Option Value)
  requestState : Option String
  ttlMs : Option Nat
  cancelRequested : Bool
  deriving DecidableEq

abbrev DurableTaskRecord := TaskColumns Json

structure NewDurableTask where
  (taskId originatingMethod : String)
  (requestId toolName transportKind sessionId : Option String)
  status : DurableTaskStatus
  statusMessage : Option String
  ttlMs : Option Nat

structure TaskChanges (Value : Type) where
  status : Option DurableTaskStatus := none
  statusMessage : Option String := none
  progress : Option Value := none
  result : Option Value := none
  error : Option Value := none
  inputRequests : Option Value := none
  requestState : Option String := none
  cancelRequested : Option Bool := none

abbrev DurableTaskUpdate := TaskChanges Json

/-- The table where each JSON column is read as the value that was written. -/
abbrev TaskTable := List DurableTaskRecord

variable {Value : Type} (taskId : String) (update : TaskChanges Value) (now : String)

def getDurableTask (tasks : List (TaskColumns Value)) : Option (TaskColumns Value) :=
  tasks.find? fun task => decide (task.taskId = taskId)

def NewDurableTask.record (task : NewDurableTask) (now : String) : TaskColumns Value :=
  { taskId := task.taskId
    originatingMethod := task.originatingMethod
    requestId := task.requestId
    toolName := task.toolName
    transportKind := task.transportKind
    sessionId := task.sessionId
    createdAt := now
    updatedAt := now
    status := task.status
    statusMessage := task.statusMessage
    progress := none
    result := none
    error := none
    inputRequests := none
    requestState := none
    ttlMs := task.ttlMs
    cancelRequested := false }

/-- `task_id` is the primary key, so a second record under an id is refused. -/
def createDurableTask (task : NewDurableTask) (now : String) (tasks : List (TaskColumns Value)) :
    Except AtlasError (TaskColumns Value) × List (TaskColumns Value) :=
  if hasKey (·.taskId) task.taskId tasks then
    (.error (.db "UNIQUE constraint failed: durable_tasks.task_id"), tasks)
  else (.ok (task.record now), tasks ++ [task.record now])

def TaskChanges.apply (task : TaskColumns Value) : TaskColumns Value :=
  { task with
    status := update.status.getD task.status
    statusMessage := update.statusMessage.or task.statusMessage
    progress := update.progress.or task.progress
    result := update.result.or task.result
    error := update.error.or task.error
    cancelRequested := update.cancelRequested.getD task.cancelRequested
    updatedAt := now
    inputRequests := update.inputRequests.or task.inputRequests
    requestState := update.requestState.or task.requestState }

def updateDurableTask (tasks : List (TaskColumns Value)) : List (TaskColumns Value) :=
  updateWhere (fun task => decide (task.taskId = taskId)) (update.apply now) tasks

def deleteDurableTask (tasks : List (TaskColumns Value)) : List (TaskColumns Value) :=
  deleteWhere (fun task => decide (task.taskId = taskId)) tasks

@[simp] theorem TaskChanges.apply_taskId (task : TaskColumns Value) :
    (update.apply now task).taskId = task.taskId := rfl

theorem mem_of_getDurableTask {taskId : String}
    {tasks : List (TaskColumns Value)} {task : TaskColumns Value}
    (found : getDurableTask taskId tasks = some task) : task ∈ tasks ∧ task.taskId = taskId := by
  have own := find?_some found
  exact ⟨mem_of_find?_eq_some found, of_decide_eq_true own⟩

theorem getDurableTask_update (tasks : List (TaskColumns Value)) :
    getDurableTask taskId (updateDurableTask taskId update now tasks) =
      (getDurableTask taskId tasks).map (update.apply now) := by
  have keeps : ∀ task : TaskColumns Value, decide ((update.apply now task).taskId = taskId) =
    decide (task.taskId = taskId) := fun _ => rfl
  unfold getDurableTask updateDurableTask
  rw [find?_updateWhere keeps]
  cases found : tasks.find? fun task => decide (task.taskId = taskId) with
  | none => rfl
  | some task =>
    have own := find?_some found
    simp only [Option.map_some, if_pos own]

theorem taskIds_update (tasks : List (TaskColumns Value)) :
    (updateDurableTask taskId update now tasks).map (·.taskId) = tasks.map (·.taskId) :=
  map_updateWhere (fun task => update.apply_taskId now task) tasks

theorem getDurableTask_eq_none_iff {taskId : String} {tasks : List (TaskColumns Value)} :
    getDurableTask taskId tasks = none ↔ taskId ∉ tasks.map (·.taskId) := by simp [getDurableTask]

theorem getDurableTask_create {task : NewDurableTask}
    {now : String} {tasks : List (TaskColumns Value)}
    (absent : getDurableTask task.taskId tasks = none) :
    createDurableTask task now tasks = (.ok (task.record now), tasks ++ [task.record now]) ∧
      getDurableTask task.taskId (tasks ++ [task.record now]) = some (task.record now) := by
  have unused : hasKey (·.taskId) task.taskId tasks = false := by
    rw [hasKey_eq_false_iff]
    intro other mem same
    exact getDurableTask_eq_none_iff.mp absent (mem_map.mpr ⟨other, mem, same⟩)
  constructor
  · simp [createDurableTask, unused]
  · unfold getDurableTask at absent ⊢
    rw [find?_append, absent]
    simp [NewDurableTask.record]

end Atlas.Session
