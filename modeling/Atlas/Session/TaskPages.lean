import Atlas.Program.Paging
import Atlas.Session.CanonicalJson
import Atlas.Session.DurableTask
import Mathlib.Data.Prod.Lex

/-! Listing durable tasks page by page, while tasks are created and updated. The table has the JSON
columns as texts, and a row with a text that is not read is left out of its page. -/
namespace Atlas.Session
open List
open Core (Json)
open Program (IsBelow page pages pages_falling mem_pages)
open Store (AtlasError)
open Text (fromStr nesting numbers recursionLimit)

abbrev DurableTaskRow := TaskColumns String
abbrev TaskRows := List DurableTaskRow

def DurableTaskUpdate.columns (update : DurableTaskUpdate) : TaskChanges String where
  status := update.status
  statusMessage := update.statusMessage
  progress := update.progress.map canonicalJson
  result := update.result.map canonicalJson
  error := update.error.map canonicalJson
  inputRequests := update.inputRequests.map canonicalJson
  requestState := update.requestState
  cancelRequested := update.cancelRequested

structure DurableTaskListCursor where
  (updatedAt createdAt taskId : String)

structure DurableTaskListPage where
  tasks : List DurableTaskRecord
  nextCursor : Option String

/-- `ORDER BY updated_at DESC, created_at DESC, task_id DESC` compares the three columns in turn. -/
abbrev TaskPlace := String ×ₗ String ×ₗ String

def TaskColumns.place {Value : Type} (task : TaskColumns Value) : TaskPlace :=
  toLex (task.updatedAt, toLex (task.createdAt, task.taskId))

def DurableTaskListCursor.place (cursor : DurableTaskListCursor) : TaskPlace :=
  toLex (cursor.updatedAt, toLex (cursor.createdAt, cursor.taskId))

def TaskColumns.cursor {Value : Type} (task : TaskColumns Value) : DurableTaskListCursor :=
  ⟨task.updatedAt, task.createdAt, task.taskId⟩

section
variable (reads : String → Option String)

def readColumn : Option String → Option (Option Json)
  | none => some none
  | some text => (fromStr reads text.toList).map some

/-- What is left of the errors of the four columns once `filter_map` has dropped them. -/
def rowToDurableTask (row : DurableTaskRow) : Option DurableTaskRecord := do
  let progress ← readColumn reads row.progress
  let result ← readColumn reads row.result
  let error ← readColumn reads row.error
  let inputRequests ← readColumn reads row.inputRequests
  some
    { taskId := row.taskId
      originatingMethod := row.originatingMethod
      requestId := row.requestId
      toolName := row.toolName
      transportKind := row.transportKind
      sessionId := row.sessionId
      createdAt := row.createdAt
      updatedAt := row.updatedAt
      status := row.status
      statusMessage := row.statusMessage
      progress
      result
      error
      inputRequests
      requestState := row.requestState
      ttlMs := row.ttlMs
      cancelRequested := row.cancelRequested }

end

def encodeDurableTaskListCursor (task : DurableTaskRecord) : String :=
  String.ofList (Text.print Text.compact 0 (.obj (Text.collectFields
    [("updated_at", .str task.updatedAt), ("created_at", .str task.createdAt), ("task_id", .str task.taskId)])))

def readCursor : Json → Option DurableTaskListCursor
  | .obj fields =>
    match Json.lookupField fields "updated_at", Json.lookupField fields "created_at",
      Json.lookupField fields "task_id" with
    | some (.str updatedAt), some (.str createdAt), some (.str taskId) => some ⟨updatedAt, createdAt, taskId⟩
    | _, _, _ => none
  | .arr [.str updatedAt, .str createdAt, .str taskId] => some ⟨updatedAt, createdAt, taskId⟩
  | _ => none

/-! `explain` is the message of `serde_json` for a text that it does not read. -/

section
variable (explain : String → String) (reads : String → Option String)

def parseDurableTaskListCursor (cursor : String) : Except AtlasError DurableTaskListCursor :=
  match (Text.parse cursor.toList).bind readCursor with
  | some read => .ok read
  | none => .error (.other ("invalid durable task cursor: " ++ explain cursor))

def clampLimit (limit : Nat) : Nat := min (max limit 1) 100

/-- The rows of the query: one more than the page may have. -/
def selectDurableTasks (cursor : Option DurableTaskListCursor) (limit : Nat) (rows : TaskRows) :
    TaskRows :=
  let below := match cursor with
    | none => rows
    | some cursor => rows.filter fun row => row.place < cursor.place
  (below.insertionSort fun left right => right.place ≤ left.place).take (limit + 1)

def listDurableTasks (cursor : Option String) (limit : Nat) (rows : TaskRows) :
    Except AtlasError DurableTaskListPage := do
  let limit := clampLimit limit
  let cursor ← match cursor with
    | none => pure none
    | some text => some <$> parseDurableTaskListCursor explain text
  let tasks := (selectDurableTasks cursor limit rows).filterMap (rowToDurableTask reads)
  if limit < tasks.length then
    let shown := tasks.dropLast
    return { tasks := shown, nextCursor := shown.getLast?.map encodeDurableTaskListCursor }
  else return { tasks, nextCursor := none }

inductive TaskStep where
  | create (task : NewDurableTask) (now : String)
  | update (taskId : String) (update : DurableTaskUpdate) (now : String)

def TaskStep.apply (rows : TaskRows) : TaskStep → TaskRows
  | .create task now => (createDurableTask task now rows).2
  | .update taskId changes now => updateDurableTask taskId changes.columns now rows

def TaskStep.updates (taskId : String) : TaskStep → Prop
  | .create _ _ => False
  | .update other _ _ => other = taskId

def tablesMet : TaskRows → List (Nat × List TaskStep) → List (Nat × TaskRows)
  | _, [] => []
  | rows, (limit, steps) :: rest => (limit, rows) :: tablesMet (steps.foldl TaskStep.apply rows) rest

/-- The client follows `next_cursor` until it is absent, or stops earlier. -/
def followPages :
    Option String → List (Nat × TaskRows) → Except AtlasError (List DurableTaskListPage)
  | _, [] => .ok []
  | cursor, (limit, rows) :: rest => do
      let shown ← listDurableTasks explain reads cursor limit rows
      match shown.nextCursor with
      | none => return [shown]
      | some next => return shown :: (← followPages (some next) rest)

end

variable {explain : String → String} {reads : String → Option String}

theorem parse_encode (task : DurableTaskRecord) :
    parseDurableTaskListCursor explain (encodeDurableTaskListCursor task) = .ok task.cursor := by
  have first : "created_at" < "updated_at" := String.lt_iff_toList_lt.mpr (by decide)
  have second : ¬ "task_id" < "created_at" := mt String.lt_iff_toList_lt.mp (by decide)
  have third : "task_id" < "updated_at" := String.lt_iff_toList_lt.mpr (by decide)
  have sorted : Text.collectFields [("updated_at", .str task.updatedAt),
    ("created_at", .str task.createdAt), ("task_id", .str task.taskId)] =
      [("created_at", .str task.createdAt), ("task_id", .str task.taskId), ("updated_at", .str task.updatedAt)] := by
    simp only [Text.collectFields, foldl_cons, foldl_nil, Json.insertField, String.reduceEq,
      if_false, if_pos first, if_neg second, if_pos third]
  have formed : Text.WellFormed (.obj [("created_at", .str task.createdAt),
    ("task_id", .str task.taskId), ("updated_at", .str task.updatedAt)]) := by
    have order : "created_at" < "task_id" := String.lt_iff_toList_lt.mpr (by decide)
    refine ⟨.cons ?_ (.cons ?_ (pairwise_singleton _ _)), trivial, trivial, trivial, trivial⟩
    · intro name mem
      rcases mem_cons.mp mem with rfl | last
      · exact order
      · exact mem_singleton.mp last ▸ first
    · intro name mem
      exact mem_singleton.mp mem ▸ third
  unfold parseDurableTaskListCursor encodeDurableTaskListCursor
  rw [sorted, String.toList_ofList, Text.parse_print Text.compact 0 formed]
  rfl

section
variable {rows : TaskRows} {requests : List (Nat × List TaskStep)}

theorem rowToDurableTask_place {row : DurableTaskRow} {task : DurableTaskRecord}
    (read : rowToDurableTask reads row = some task) : task.place = row.place := by
  unfold rowToDurableTask at read
  simp only [Option.bind_eq_bind, Option.bind_eq_some_iff, Option.some_inj] at read
  obtain ⟨_, _, _, _, _, _, _, _, rfl⟩ := read
  rfl

/-- A page of the store is a page in the sense of `Program.page`. -/
theorem listDurableTasks_eq (last : Option DurableTaskRecord) (limit : Nat) :
    ∃ (shown : List DurableTaskRecord) (next : Option DurableTaskRecord),
      listDurableTasks explain reads (last.map encodeDurableTaskListCursor) limit rows =
        .ok ⟨shown, next.map encodeDurableTaskListCursor⟩ ∧
      page TaskColumns.place TaskColumns.place (rowToDurableTask reads) (clampLimit limit)
        (last.map TaskColumns.place) rows = (shown, next.map TaskColumns.place) := by
  have cut : ∀ read : List DurableTaskRecord, ∃ (shown : List DurableTaskRecord) (next : Option DurableTaskRecord),
      (if clampLimit limit < read.length then
        Except.ok (⟨read.dropLast, read.dropLast.getLast?.map encodeDurableTaskListCursor⟩ : DurableTaskListPage)
      else .ok ⟨read, none⟩) =
        (.ok ⟨shown, next.map encodeDurableTaskListCursor⟩ : Except AtlasError DurableTaskListPage) ∧
      (if clampLimit limit < read.length then (read.dropLast, read.dropLast.getLast?.map TaskColumns.place)
      else (read, none)) = (shown, next.map TaskColumns.place) := by
    intro read
    by_cases more : clampLimit limit < read.length
    · exact ⟨read.dropLast, read.dropLast.getLast?, by rw [if_pos more], by rw [if_pos more]⟩
    · exact ⟨read, none, by rw [if_neg more]; rfl, by rw [if_neg more]; rfl⟩
  cases last with
  | none => exact cut _
  | some task =>
    unfold listDurableTasks
    simp only [Option.map_some, parse_encode]
    exact cut _

def Ended (shown : List DurableTaskListPage) : Prop :=
  ∃ final ∈ shown.getLast?, final.nextCursor = none

/-- The requests as `Program.pages` has them, with the limit that the store uses. -/
def clamped (met : List (Nat × TaskRows)) : List (Nat × TaskRows) :=
  met.map fun request => (clampLimit request.1, request.2)

theorem followPages_eq (met : List (Nat × TaskRows)) (last : Option DurableTaskRecord) :
    ∃ shown, followPages explain reads (last.map encodeDurableTaskListCursor) met = .ok shown ∧
      (pages TaskColumns.place TaskColumns.place (rowToDurableTask reads) (last.map TaskColumns.place)
        (clamped met)).1 = shown.map DurableTaskListPage.tasks ∧
      (Ended shown ↔ (pages TaskColumns.place TaskColumns.place (rowToDurableTask reads)
        (last.map TaskColumns.place) (clamped met)).2 = true) := by
  induction met generalizing last with
  | nil =>
    refine ⟨[], rfl, rfl, ?_, nofun⟩
    rintro ⟨_, absent, _⟩
    cases absent
  | cons request rest ih =>
    obtain ⟨limit, rows⟩ := request
    obtain ⟨read, next, listed, paged⟩ := @listDurableTasks_eq explain reads rows last limit
    unfold followPages
    rw [listed, clamped, map_cons, pages]
    simp only [paged, bind, Except.bind]
    cases next with
    | none => exact ⟨[⟨read, none⟩], rfl, rfl, fun _ => rfl, fun _ => ⟨_, rfl, rfl⟩⟩
    | some next =>
      obtain ⟨shown, followed, same, ended⟩ := ih (some next)
      rw [Option.map_some] at followed same ended
      simp only [Option.map_some, followed]
      refine ⟨_, rfl, congrArg (read :: ·) same, .trans ?_ ended⟩
      cases shown with
      | nil =>
        constructor
        · rintro ⟨final, isLast, stops⟩
          cases isLast
          cases stops
        · rintro ⟨_, absent, _⟩
          cases absent
      | cons first others => simp only [Ended, getLast?_cons_cons]

theorem taskIds_step (distinct : (rows.map (·.taskId)).Nodup) (step : TaskStep) :
    ((step.apply rows).map (·.taskId)).Nodup := by
  cases step with
  | create task now =>
    unfold TaskStep.apply createDurableTask
    dsimp only
    by_cases taken : Sql.hasKey (·.taskId) task.taskId rows = true
    · rw [if_pos taken]
      exact distinct
    · rw [if_neg taken, map_append, map_singleton, ← concat_eq_append, nodup_concat]
      refine ⟨?_, distinct⟩
      intro mem
      obtain ⟨other, inRows, same⟩ := mem_map.mp mem
      exact Sql.hasKey_eq_false_iff.mp (Bool.eq_false_iff.mpr taken) other inRows same
  | update taskId changes now =>
    unfold TaskStep.apply
    rw [taskIds_update]
    exact distinct

theorem mem_step {row : DurableTaskRow} (mem : row ∈ rows) {step : TaskStep}
    (untouched : ¬ step.updates row.taskId) : row ∈ step.apply rows := by
  cases step with
  | create other now =>
    unfold TaskStep.apply createDurableTask
    dsimp only
    by_cases taken : Sql.hasKey (·.taskId) other.taskId rows = true
    · rw [if_pos taken]
      exact mem
    · rw [if_neg taken]
      exact mem_append_left _ mem
  | update taskId changes now =>
    refine mem_map.mpr ⟨row, mem, if_neg ?_⟩
    exact fun own => untouched (of_decide_eq_true own).symm

theorem tablesMet_distinct (distinct : (rows.map (·.taskId)).Nodup) :
    ∀ request ∈ tablesMet rows requests, (request.2.map (·.taskId)).Nodup := by
  induction requests generalizing rows with
  | nil => exact nofun
  | cons request rest ih =>
    obtain ⟨limit, steps⟩ := request
    intro other mem
    rcases mem_cons.mp mem with rfl | later
    · exact distinct
    · refine ih ?_ other later
      clear ih later mem
      induction steps generalizing rows with
      | nil => exact distinct
      | cons step steps ih => exact ih (taskIds_step distinct step)

theorem mem_tablesMet {row : DurableTaskRow} (mem : row ∈ rows) (count : Nat)
    (untouched : ∀ request ∈ requests.take (count - 1), ∀ step ∈ request.2, ¬ step.updates row.taskId) :
    ∀ request ∈ (tablesMet rows requests).take count, row ∈ request.2 := by
  induction requests generalizing rows count with
  | nil => simp [tablesMet]
  | cons request rest ih =>
    obtain ⟨limit, steps⟩ := request
    intro other taken
    cases count with
    | zero => simp at taken
    | succ count =>
      rw [tablesMet, take_succ_cons] at taken
      rcases mem_cons.mp taken with rfl | later
      · exact mem
      · cases count with
        | zero => simp at later
        | succ count =>
          rw [Nat.add_sub_cancel, take_succ_cons] at untouched
          refine ih ?_ (count + 1) (fun next inRest => untouched next (.tail _ inRest)) other later
          have quiet := untouched _ (.head _)
          clear ih later taken untouched
          induction steps generalizing rows with
          | nil => exact mem
          | cons step steps ih =>
            exact ih (mem_step mem (quiet step (.head _))) fun next inSteps => quiet next (.tail _ inSteps)

theorem places_distinct (distinct : (rows.map (·.taskId)).Nodup) :
    (rows.map TaskColumns.place).Nodup := by
  rw [List.Nodup, pairwise_map] at distinct ⊢
  exact distinct.imp fun apart same => apart (congrArg (fun place => (ofLex (ofLex place).2).2) same)

end

/-- Every row that the query of a request returns can be read, in each request until the
cursor is absent. -/
def AllRead (reads : String → Option String) (met : List (Nat × TaskRows)) : Prop :=
  Program.AllDecoded TaskColumns.place TaskColumns.place (rowToDurableTask reads) none (clamped met)

/-- Whatever is created and updated between the requests, no version of a task is shown
twice. Where all that is selected can be read, a task of the first table that is not updated
until the last page is shown exactly once. -/
theorem followPages_exactlyOnce (explain : String → String)
    (reads : String → Option String) (rows : TaskRows)
    (requests : List (Nat × List TaskStep)) (distinct : (rows.map (·.taskId)).Nodup) :
    (∃ shown, followPages explain reads none (tablesMet rows requests) = .ok shown ∧
      ((shown.flatMap DurableTaskListPage.tasks).map TaskColumns.place).Nodup ∧
      (AllRead reads (tablesMet rows requests) → Ended shown → ∀ row ∈ rows,
        (∀ request ∈ requests.take (shown.length - 1), ∀ step ∈ request.2, ¬ step.updates row.taskId) →
        ∃ task, rowToDurableTask reads row = some task ∧
          (shown.flatMap DurableTaskListPage.tasks).count task = 1)) ∧
      ∀ task, parseDurableTaskListCursor explain (encodeDurableTaskListCursor task) = .ok task.cursor := by
  refine ⟨?_, fun task => parse_encode task⟩
  obtain ⟨shown, followed, same, ended⟩ := @followPages_eq explain reads (tablesMet rows requests) none
  rw [Option.map_none] at followed same ended
  have places : ∀ request ∈ clamped (tablesMet rows requests), (request.2.map TaskColumns.place).Nodup := by
    intro request mem
    obtain ⟨own, met, rfl⟩ := mem_map.mp mem
    exact places_distinct (tablesMet_distinct distinct own met)
  have pos : ∀ request ∈ clamped (tablesMet rows requests), 0 < request.1 := by
    intro request mem
    obtain ⟨own, _, rfl⟩ := mem_map.mp mem
    unfold clampLimit
    dsimp only
    omega
  obtain ⟨falling, _⟩ := @pages_falling _ _ _ _ TaskColumns.place TaskColumns.place (rowToDurableTask reads) none
    rowToDurableTask_place _ places pos
  have flat : shown.flatMap DurableTaskListPage.tasks = (pages TaskColumns.place TaskColumns.place
      (rowToDurableTask reads) none (clamped (tablesMet rows requests))).1.flatten := by
    rw [same, flatMap_def]
  rw [← flat] at falling
  refine ⟨shown, followed, pairwise_map.mpr (falling.imp fun less => less.ne'), ?_⟩
  intro read isEnd row mem untouched
  have nodup : (shown.flatMap DurableTaskListPage.tasks).Nodup :=
    falling.imp fun less equal => absurd (equal ▸ less) (lt_irrefl _)
  have held : ∀ request ∈ (clamped (tablesMet rows requests)).take (pages TaskColumns.place TaskColumns.place
      (rowToDurableTask reads) none (clamped (tablesMet rows requests))).1.length, row ∈ request.2 := by
    intro request inTaken
    rw [same, length_map, clamped, ← map_take] at inTaken
    obtain ⟨own, taken, rfl⟩ := mem_map.mp inTaken
    exact mem_tablesMet mem shown.length untouched own taken
  obtain ⟨task, onPage, own⟩ := mem_pages rowToDurableTask_place places pos read (ended.mp isEnd) nofun held
  exact ⟨task, own, count_eq_one_of_mem nodup (flat ▸ onPage)⟩

def sampleTask (taskId : String) : NewDurableTask where
  taskId
  originatingMethod := "tools/call"
  requestId := none
  toolName := none
  transportKind := none
  sessionId := none
  status := .working
  statusMessage := none
  ttlMs := none

def workingTask {Value : Type} (taskId now : String) : TaskColumns Value :=
  (sampleTask taskId).record now

def twoTasks : TaskRows :=
  [workingTask "task-1" "2026-01-01T00:00:01Z", workingTask "task-2" "2026-01-01T00:00:02Z"]

/-- The second task is finished after the first page has shown it. -/
def finishedBetween : List (Nat × List TaskStep) :=
  [(1, [.update "task-2" { status := some .completed, result := some (.num "7") } "2026-01-01T00:00:03Z"]), (1, [])]

theorem followPages_finishedBetween : ∃ shown task,
    followPages id some none (tablesMet twoTasks finishedBetween) = .ok shown ∧ shown.length = 2 ∧
      rowToDurableTask some (workingTask "task-1" "2026-01-01T00:00:01Z") = some task ∧
      (shown.flatMap DurableTaskListPage.tasks).count task = 1 := by
  obtain ⟨⟨shown, followed, _, once⟩, _⟩ :=
    followPages_exactlyOnce id some twoTasks finishedBetween (by decide)
  obtain ⟨other, also, same, ended⟩ := @followPages_eq id some (tablesMet twoTasks finishedBetween) none
  obtain rfl := Except.ok.inj (followed.symm.trans also)
  have two : shown.length = 2 := by
    rw [← length_map DurableTaskListPage.tasks, ← same]
    rfl
  have read : AllRead some (tablesMet twoTasks finishedBetween) := Program.allDecoded_of_all (by decide +kernel)
  obtain ⟨task, own, single⟩ := once read (ended.mpr rfl) _ (.head _) fun request taken step mem => by
    rw [two] at taken
    obtain rfl := mem_singleton.mp taken
    obtain rfl := mem_singleton.mp mem
    exact (by decide : "task-2" ≠ "task-1")
  exact ⟨shown, task, followed, two, own, single⟩

theorem rowToDurableTask_eq_none {row : DurableTaskRow}
    {text : String} (held : row.result = some text)
    (unread : fromStr reads text.toList = none) : rowToDurableTask reads row = none := by
  have column : readColumn reads row.result = none := by rw [held, readColumn, unread, Option.map_none]
  unfold rowToDurableTask
  rw [column]
  cases readColumn reads row.progress with
  | none | some _ => rfl

/-- The third task is updated with a result of 128 nested arrays. -/
def spoiledTasks : TaskRows :=
  (TaskStep.update "task-3" { result := some (nested 128) } "2026-01-01T00:00:04Z").apply
    (twoTasks ++ [workingTask "task-3" "2026-01-01T00:00:03Z"])

/-- The result is not read, so that the first page has one task fewer than the query
returned rows, and the paging ends before the last task. -/
theorem spoiledTasks_end_early : ∃ shown task,
    followPages id some none (tablesMet spoiledTasks [(1, []), (1, [])]) = .ok shown ∧ Ended shown ∧
      workingTask "task-1" "2026-01-01T00:00:01Z" ∈ spoiledTasks ∧
      rowToDurableTask some (workingTask "task-1" "2026-01-01T00:00:01Z") = some task ∧
      task ∉ shown.flatMap DurableTaskListPage.tasks := by
  obtain ⟨shown, followed, same, ended⟩ := @followPages_eq id some (tablesMet spoiledTasks [(1, []), (1, [])]) none
  obtain ⟨spoiled, held, drawn⟩ : ∃ spoiled : DurableTaskRow, spoiled.result = some (canonicalJson (nested 128)) ∧
      Program.selected TaskColumns.place 1 none spoiledTasks =
        [spoiled, workingTask "task-2" "2026-01-01T00:00:02Z"] := ⟨_, rfl, rfl⟩
  have first : page TaskColumns.place TaskColumns.place (rowToDurableTask some) 1 none spoiledTasks =
      ([workingTask "task-2" "2026-01-01T00:00:02Z"], none) := by
    rw [page, drawn, filterMap_cons_none (rowToDurableTask_eq_none held (fromStr_nested (by decide)))]
    rfl
  have only : pages TaskColumns.place TaskColumns.place (rowToDurableTask some) none
      (clamped (tablesMet spoiledTasks [(1, []), (1, [])])) = ([[workingTask "task-2" "2026-01-01T00:00:02Z"]], true) := by
    have met : clamped (tablesMet spoiledTasks [(1, []), (1, [])]) = [(1, spoiledTasks), (1, spoiledTasks)] := rfl
    rw [met, pages, first]
  rw [Option.map_none, only] at same ended
  refine ⟨shown, workingTask "task-1" "2026-01-01T00:00:01Z", followed, ended.mpr rfl, .head _, rfl, ?_⟩
  rw [flatMap_def, ← same]
  decide

end Atlas.Session
