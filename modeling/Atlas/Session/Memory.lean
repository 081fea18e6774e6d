import Atlas.Core.Clock
import Atlas.Core.Json
import Atlas.Program.Run
import Atlas.Repo.Path
import Atlas.Sql.Table
import Mathlib.Data.Prod.Lex

/-! Storing, listing, deleting, pruning and consolidating rows of `memories`, with the
link log of `memory_supersessions`. The decay score column is written by reports only
and is left out. SHA-256, Unicode lower case and the RFC 3339 parser are parameters. -/
namespace Atlas.Session
open Sql
open Core (Json OffsetDateTime formatRfc3339)
open Program (Run)

inductive MemoryImportance where
  | critical
  | high
  | normal
  | low
  deriving DecidableEq

inductive MemoryScope where
  | project
  | session
  | frontend
  | global
  deriving DecidableEq

structure MemoryRecord where
  (id repoRoot : String)
  (sessionId frontend : Option String)
  scope : MemoryScope
  (topic title body : String)
  importance : MemoryImportance
  (createdAt updatedAt lastAccessedAt : String)
  sourceId : Option String
  metadata : Json
  supersededBy : Option String
  deriving DecidableEq

structure NewMemory where
  repoRoot : String
  sessionId : Option String := none
  frontend : Option String := none
  scope : MemoryScope := .project
  topic : String := ""
  title : String := ""
  body : String
  importance : MemoryImportance := .normal
  sourceId : Option String := none
  metadata : Json := .obj []

structure MemorySupersession where
  (oldMemoryId newMemoryId reason createdAt : String)

structure MemoryTables where
  memories : List MemoryRecord
  supersessions : List MemorySupersession

structure MemoryListFilter where
  topic : Option String := none
  importance : Option MemoryImportance := none
  scope : Option MemoryScope := none
  olderThan : Option String := none
  newerThan : Option String := none
  includeSuperseded : Bool := false

structure MemoryDecayPolicy where
  enabled : Bool := true
  lowDays : Nat := 30
  normalDays : Nat := 90
  highDays : Nat := 365
  criticalNeverPrune : Bool := true

structure MemoryLibrary where
  (sha256 toLowercase : String → String)
  /-- The seconds since the epoch of an RFC 3339 text. -/
  parseTimestamp : String → Option Int

variable (lib : MemoryLibrary) (group : MemoryGroup) (input : NewMemory)
  (policy : MemoryDecayPolicy) (repoRoot now : String) (filter : MemoryListFilter)

def deriveMemoryId (body : String) (createdAtNanos : Int) : String :=
  lib.sha256 (repoRoot ++ "\x00" ++ body ++ "\x00" ++ toString createdAtNanos)
def formatMemoryTimestamp (ts : OffsetDateTime) : String :=
  formatRfc3339 (ts.replaceNanosecond 0 Core.zeroNanoseconds)

def isBlank (text : Option String) : Bool :=
  match text with
  | some text => Repo.trim text.toList == []
  | none => true

def NewMemory.validate : Except String Unit :=
  if isBlank (some input.body) then .error "memory body must not be empty"
  else if input.scope = .frontend ∧ isBlank input.frontend then
    .error "scope 'frontend' requires a frontend identifier"
  else if input.scope = .session ∧ isBlank input.sessionId then
    .error "scope 'session' requires a session_id"
  else .ok ()

def NewMemory.record (id : String) : MemoryRecord :=
  { id
    repoRoot := input.repoRoot
    sessionId := input.sessionId
    frontend := input.frontend
    scope := input.scope
    topic := input.topic
    title := input.title
    body := input.body
    importance := input.importance
    createdAt := now
    updatedAt := now
    lastAccessedAt := now
    sourceId := input.sourceId
    metadata := input.metadata
    supersededBy := none }

def storeMemoryAt (id : String) : Run MemoryTables MemoryRecord := do
  Run.ofExcept input.validate
  let tables ← Run.get
  if hasKey (·.id) id tables.memories then
    Run.ofExcept (.error "UNIQUE constraint failed: memories.id")
  else
    let record := input.record now id
    Run.modify fun tables => { tables with memories := tables.memories ++ [record] }
    pure record

def storeMemory (first second : OffsetDateTime) : Run MemoryTables MemoryRecord := do
  Run.ofExcept input.validate
  storeMemoryAt input (formatMemoryTimestamp second) (deriveMemoryId lib input.repoRoot input.body first.unixTimestampNanos)

def foldAscii (text : String) : List Char :=
  text.toList.map fun c => if 'A' ≤ c ∧ c ≤ 'Z' then Char.ofNat (c.toNat + 32) else c

def MemoryListFilter.selects (row : MemoryRecord) : Bool :=
  filter.topic.all (fun topic => foldAscii row.topic == foldAscii topic) &&
  filter.importance.all (fun importance => row.importance == importance) &&
  filter.scope.all (fun scope => row.scope == scope) &&
  filter.olderThan.all (fun olderThan => decide (row.updatedAt < olderThan)) &&
  filter.newerThan.all (fun newerThan => decide (newerThan < row.updatedAt)) &&
  (filter.includeSuperseded || row.supersededBy.isNone)

def listsBefore (left right : MemoryRecord) : Prop :=
  right.updatedAt < left.updatedAt ∨ right.updatedAt = left.updatedAt ∧
    (right.createdAt < left.createdAt ∨ right.createdAt = left.createdAt ∧ left.id ≤ right.id)

instance : DecidableRel listsBefore := fun left right =>
  inferInstanceAs (Decidable (right.updatedAt < left.updatedAt ∨ right.updatedAt = left.updatedAt ∧
    (right.createdAt < left.createdAt ∨ right.createdAt = left.createdAt ∧ left.id ≤ right.id)))

def listMemories (memories : List MemoryRecord) : List MemoryRecord := (memories.filter fun row =>
    decide (row.repoRoot = repoRoot) && filter.selects row).insertionSort listsBefore

def deleteById (memoryId : String) (tables : MemoryTables) : MemoryTables :=
  { tables with
    memories := deleteWhere
      (fun row => decide (row.id = memoryId ∧ row.repoRoot = repoRoot)) tables.memories }

structure MemoryDeleteResult where
  memoryId : String
  (found deleted dryRun : Bool)

def deleteMemory (memoryId : String) (dryRun : Bool) : Run MemoryTables MemoryDeleteResult := do
  let tables ← Run.get
  let found := tables.memories.any fun row => decide (row.id = memoryId ∧ row.repoRoot = repoRoot)
  if found && !dryRun then
    Run.modify (deleteById repoRoot memoryId)
    pure { memoryId, found, deleted := true, dryRun }
  else pure { memoryId, found, deleted := false, dryRun }

def MemoryDecayPolicy.retentionDays : MemoryImportance → Option Nat
  | .critical => if policy.criticalNeverPrune then none else some policy.highDays
  | .high => some policy.highDays
  | .normal => some policy.normalDays
  | .low => some policy.lowDays

def MemoryDecayPolicy.isProtected (importance : MemoryImportance) : Bool :=
  importance == .critical && policy.criticalNeverPrune

def ageSeconds (updatedAt : String) (now : OffsetDateTime) : Int :=
  match lib.parseTimestamp updatedAt with
  | none => 0
  | some seconds => max 0 (now.unixTimestamp - seconds)

/-- The score reaches one. The source divides the age in days by the retention as
`f64`: a positive age of whole seconds gives a quotient of one or more exactly from the
retention on, and without any age the quotient is zero or not a number. -/
def MemoryDecayPolicy.pastRetention (importance : MemoryImportance) (age : Int) : Bool :=
  match policy.retentionDays importance with
  | none => false
  | some days => decide (0 < age ∧ days * 86400 ≤ age)

def isStale (now : OffsetDateTime) (row : MemoryRecord) : Bool := !policy.isProtected
    row.importance && policy.pastRetention row.importance (ageSeconds lib row.updatedAt now)

structure MemoryPruneResult where
  dryRun : Bool
  (candidateCount deletedCount protectedCount : Nat)
  candidates : List MemoryRecord

def reportedRows (memories : List MemoryRecord) : List MemoryRecord :=
  listMemories repoRoot { filter with includeSuperseded := true } memories

def pruneCandidates (policy : MemoryDecayPolicy) (now : OffsetDateTime)
    (allowCritical : Bool) (memories : List MemoryRecord) : List MemoryRecord :=
  (reportedRows repoRoot filter memories).filter fun row =>
    !(policy.isProtected row.importance && !allowCritical) && isStale lib policy now row

def pruneMemories (policy : MemoryDecayPolicy)
    (now : OffsetDateTime) (dryRun allowCritical : Bool) : Run MemoryTables MemoryPruneResult := do
  if !policy.enabled then
    pure { dryRun, candidateCount := 0, deletedCount := 0, protectedCount := 0, candidates := [] }
  else if !allowCritical && filter.importance == some .critical then
    Run.ofExcept (.error ("critical memories are protected by memory.decay.critical_never_prune; " ++
      "pass --allow-critical to include them in prune candidates"))
  else
    let tables ← Run.get
    let candidates :=
      pruneCandidates lib repoRoot filter policy now allowCritical tables.memories
    let protectedCount := (reportedRows repoRoot filter tables.memories).countP fun row =>
      policy.isProtected row.importance && !allowCritical
    if dryRun then
      pure { dryRun, candidateCount := candidates.length, deletedCount := 0, protectedCount, candidates }
    else
      Run.modify fun tables => candidates.foldl (fun tables memory => deleteById repoRoot memory.id tables) tables
      let left ← Run.get
      let deletedCount := tables.memories.length - left.memories.length
      pure { dryRun, candidateCount := candidates.length, deletedCount, protectedCount, candidates }

def normalizeText (value : String) : String :=
  let words := (value.toList.splitOnP Repo.isWhitespace).filter (· ≠ [])
  lib.toLowercase (String.ofList ([' '].intercalate words))

def memoryCategory (metadata : Json) : Option String :=
  match metadata.fieldsOrDefault.find? fun field => field.1 == "category" with
  | some (_, .str text) =>
    let trimmed := Repo.trim text.toList
    if trimmed = [] then none else some (String.ofList trimmed)
  | _ => none

structure MemberKeys where
  title : Option String
  body : String
  (source category : Option String)

def memberKeys (row : MemoryRecord) : MemberKeys :=
  { title := if isBlank (some row.title) then none else some (normalizeText lib row.title)
    body := normalizeText lib row.body
    source := row.sourceId
    category := memoryCategory row.metadata }

def MemberKeys.matches (keys other : MemberKeys) : Bool :=
  (keys.title.isSome && keys.title == other.title) || keys.body ==
    other.body || (keys.source.isSome && keys.source == other.source) ||
    (keys.category.isSome && keys.category == other.category)

structure MemoryGroup where
  kept : MemoryRecord
  merged : List MemoryRecord
  keys : List MemberKeys

def MemoryGroup.members : List MemoryRecord := group.kept :: group.merged
def MemoryGroup.takes (keys : MemberKeys) (row : MemoryRecord) : Bool :=
  group.kept.topic == row.topic && group.keys.any keys.matches

/-- A row joins the earliest group that takes it, after the members of the other groups
that take it, the last of these groups first. -/
def absorbRow (groups : List MemoryGroup) (row : MemoryRecord) : List MemoryGroup :=
  let keys := memberKeys lib row
  match groups.span fun group => !group.takes keys row with
  | (_, []) => groups ++ [{ kept := row, merged := [], keys := [keys] }]
  | (before, first :: after) =>
    let extras := (after.filter fun group => group.takes keys row).reverse
    before ++ { kept := first.kept
                merged := first.merged ++ extras.flatMap MemoryGroup.members ++ [row]
                keys := first.keys ++ extras.flatMap MemoryGroup.keys ++ [keys] } ::
      after.filter fun group => !group.takes keys row

def consolidationGroups (rows : List MemoryRecord) : List MemoryGroup :=
  (rows.foldl (absorbRow lib) []).filter fun group => group.merged ≠ []

def memberPairs : List MemoryRecord → List (MemoryRecord × MemoryRecord)
  | [] => []
  | row :: rest => rest.map (fun other => (row, other)) ++ memberPairs rest

def consolidationGroupKey (members : List MemoryRecord) : String :=
  let pairs := memberPairs members
  if pairs.any fun (a, b) => !isBlank (some a.title) && !isBlank (some b.title) &&
    normalizeText lib a.title == normalizeText lib b.title then "same_title"
  else if pairs.any fun (a, b) => normalizeText lib a.body == normalizeText lib b.body then
    "same_body"
  else if pairs.any fun (a, b) => a.sourceId.isSome && a.sourceId == b.sourceId then "same_source"
  else if pairs.any fun (a, b) => (memoryCategory a.metadata).isSome && memoryCategory a.metadata ==
    memoryCategory b.metadata then "same_category"
  else "same_body"

def importanceRank : MemoryImportance → Nat
  | .critical => 0
  | .high => 1
  | .normal => 2
  | .low => 3

def importanceFromRank : Nat → MemoryImportance
  | 0 => .critical
  | 1 => .high
  | 2 => .normal
  | _ => .low

def groupImportance : MemoryImportance := importanceFromRank (group.merged.foldl (fun rank mem =>
    min rank (importanceRank mem.importance)) (importanceRank group.kept.importance))
def groupSourceIds : List String :=
  (group.members.filterMap (·.sourceId)).dedup.insertionSort fun left right => left ≤ right

/-- `metadata[key] = value`, which stops the program on anything but an object or null. -/
def setMetadata (key : String) (value : Json) : Json → Except String Json
  | .obj fields => .ok (.obj (Json.insertField key value fields))
  | .null => .ok (.obj [(key, value)])
  | .bool _ => .error ("cannot access key \"" ++ key ++ "\" in JSON boolean")
  | .num _ => .error ("cannot access key \"" ++ key ++ "\" in JSON number")
  | .str _ => .error ("cannot access key \"" ++ key ++ "\" in JSON string")
  | .arr _ => .error ("cannot access key \"" ++ key ++ "\" in JSON array")

def consolidatedMetadata : Except String Json := do
  let marked ← setMetadata "consolidated" (.bool true) group.kept.metadata
  let merged ← setMetadata "merged_ids" (.arr (group.merged.map fun row => .str row.id)) marked
  setMetadata "merged_source_ids" (.arr ((groupSourceIds group).map .str)) merged

def consolidatedInput (group : MemoryGroup) (metadata : Json) : NewMemory :=
  { repoRoot
    sessionId := group.kept.sessionId
    frontend := group.kept.frontend
    scope := group.kept.scope
    topic := group.kept.topic
    title := group.kept.title
    body := group.kept.body
    importance := groupImportance group
    sourceId := group.kept.sourceId
    metadata }

def supersede (newMemoryId reason now : String) (mem : MemoryRecord) : Run MemoryTables Unit := do
  Run.modify fun tables => { tables with
    memories := updateWhere
      (fun row => decide (row.id = mem.id ∧ row.repoRoot = repoRoot))
      (fun row => { row with supersededBy := some newMemoryId, updatedAt := now })
      tables.memories }
  let tables ← Run.get
  let link : MemorySupersession :=
    { oldMemoryId := mem.id, newMemoryId, reason, createdAt := now }
  if hasKey (fun row : MemorySupersession => (row.oldMemoryId, row.newMemoryId)) (link.oldMemoryId,
    link.newMemoryId) tables.supersessions then
    Run.ofExcept (.error ("UNIQUE constraint failed: memory_supersessions.old_memory_id, " ++
      "memory_supersessions.new_memory_id"))
  else
    Run.modify fun tables => { tables with supersessions := tables.supersessions ++ [link] }

def consolidateGroup (first second : OffsetDateTime) (group : MemoryGroup) :
    Run MemoryTables (Option String) := do
  let metadata ← Run.ofExcept (consolidatedMetadata group)
  let record ← storeMemory lib (consolidatedInput repoRoot group metadata) first second
  Run.forEach (supersede repoRoot record.id (consolidationGroupKey lib group.members) now) group.merged
  pure (some record.id)

structure MemoryConsolidationGroup where
  (topic groupKey keptMemoryId : String)
  (mergedMemoryIds sourceIds : List String)
  consolidatedId : Option String

def consolidateGroups (lib : MemoryLibrary) (repoRoot now : String) (dryRun : Bool) :
    List MemoryGroup → (Nat → OffsetDateTime) → Run MemoryTables (List MemoryConsolidationGroup)
  | [], _ => pure []
  | group :: rest, clock => do
      let consolidatedId ←
        (if dryRun then pure none
        else consolidateGroup lib repoRoot now (clock 0) (clock 1) group)
      let planned ← consolidateGroups lib repoRoot now dryRun rest fun reading => clock (reading + 2)
      pure ({ topic := group.kept.topic
              groupKey := consolidationGroupKey lib group.members
              keptMemoryId := group.kept.id
              mergedMemoryIds := group.merged.map (·.id)
              sourceIds := groupSourceIds group
              consolidatedId } :: planned)

def consolidationPlan (dryRun : Bool) (clock : Nat → OffsetDateTime) :
    Run MemoryTables (List MemoryConsolidationGroup) := do
  let tables ← Run.get
  let rows := listMemories repoRoot filter tables.memories
  consolidateGroups lib repoRoot (formatMemoryTimestamp (clock 0)) dryRun
    (consolidationGroups lib rows) fun reading => clock (reading + 1)

end Atlas.Session
