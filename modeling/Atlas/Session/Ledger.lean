import Atlas.Core.Clock
import Atlas.Program.Greatest
import Atlas.Session.Event
import Atlas.Store.Schema
import Mathlib.Data.Prod.Lex

/-! `append_event` writes to `session_events`, where a unique constraint on the session
and the event hash, a time window and a limit on the number of events decide what
stays. -/
namespace Atlas.Session
open Sql
open Core (OffsetDateTime formatRfc3339)
open Store (AtlasError)

structure SessionStoreConfig where
  maxEventsPerSession : Nat := 256
  maxInlinePayloadBytes : Nat := 8 * 1024
  dedupWindowSecs : Nat := 0

structure SessionMeta where
  sessionId : SessionId
  (repoRoot updatedAt : String)
  lastCompactionAt : Option String

/-- The tables an append touches. `sequence` is the largest id ever given to an event,
and `Decisions` stands for the tables of decision memory. -/
structure SessionStore (Decisions : Type) where
  metas : List SessionMeta
  events : List SessionEventRow
  sequence : Nat
  decisions : Decisions

structure Surroundings (Decisions : Type) where
  /-- The instants read from the system clock, in the order of the readings. -/
  clock : Nat → OffsetDateTime
  /-- Subtraction of a duration in seconds. -/
  secondsBefore : OffsetDateTime → Nat → OffsetDateTime
  fromCliArgument : String → String → Option String
  /-- Ids that `AUTOINCREMENT` leaves out. -/
  skippedIds : Nat
  /-- `upsert_decision_from_event`, whose errors are logged and dropped. -/
  upsertDecision : SessionId → Nat → String → String → Decisions → Decisions

section
variable {Decisions : Type} (sha256 : String → String)

def getSessionMeta (store : SessionStore Decisions) (sessionId : SessionId) : Option SessionMeta :=
  store.metas.find? fun entry => decide (entry.sessionId = sessionId)

variable (config : SessionStoreConfig)
  (sessionId : SessionId) (around : Surroundings Decisions) (row : SessionEventRow)

def payloadText (store : SessionStore Decisions) (event : NewSessionEvent) : String :=
  match getSessionMeta store event.sessionId with
  | some entry => canonicalJson
      (normalizeEventPayloadPaths around.fromCliArgument entry.repoRoot event.payload)
  | none => canonicalJson event.payload

def ensurePayloadFits (payloadJson : String) : Except AtlasError Unit :=
  if config.maxInlinePayloadBytes < payloadJson.utf8ByteSize then
    .error (.other ("session event payload " ++ toString payloadJson.utf8ByteSize ++
      " bytes exceeds inline limit " ++ toString config.maxInlinePayloadBytes ++
      " bytes; store raw output in content store and write source_id into payload"))
  else .ok ()

def offeredRow (store : SessionStore Decisions) (event : NewSessionEvent) : SessionEventRow :=
  let payloadJson := payloadText around store event
  { id := store.sequence + 1 + around.skippedIds
    sessionId := event.sessionId
    eventType := event.eventType
    priority := event.priority
    payloadJson
    eventHash := hashEvent sha256 event.eventType event.priority payloadJson
    createdAt := event.createdAt.getD (formatRfc3339 (around.clock 0)) }

def recentEvents (events : List SessionEventRow) : List SessionEventRow :=
  let windowCutoff :=
    formatRfc3339 (around.secondsBefore (around.clock 1) config.dedupWindowSecs)
  events.filter fun stored => decide (stored.sessionId = row.sessionId ∧ stored.eventType =
    row.eventType ∧ stored.priority = row.priority ∧
    windowCutoff ≤ stored.createdAt ∧ stored.eventHash = row.eventHash)

def SessionEventRow.uniqueKey : SessionId × String := (row.sessionId, row.eventHash)
def SessionEventRow.rank : Int ×ₗ String ×ₗ Nat :=
  toLex (row.priority, toLex (row.createdAt, row.id))
def sessionEvents (events : List SessionEventRow) : List SessionEventRow :=
  events.filter fun row => decide (row.sessionId = sessionId)

def enforceEventLimit (maxEventsPerSession : Nat) (events : List SessionEventRow) :
    Nat × List SessionEventRow :=
  let current := sessionEvents sessionId events
  if current.length ≤ maxEventsPerSession then (0, events)
  else
    let overflow := current.length - maxEventsPerSession
    let victims := (Program.least SessionEventRow.rank overflow current).map (·.id)
    (overflow, deleteWhere (fun row => decide (row.id ∈ victims)) events)

def touchMeta (now : String) (metas : List SessionMeta) : List SessionMeta :=
  updateWhere (fun entry => decide (entry.sessionId = sessionId))
    (fun entry => { entry with updatedAt := now }) metas

def compactMeta (now : String) (metas : List SessionMeta) : List SessionMeta :=
  updateWhere (fun entry => decide (entry.sessionId = sessionId))
    (fun entry => { entry with updatedAt := now, lastCompactionAt := some now }) metas

inductive Appended where
  /-- No row was inserted: an equal event is stored. -/
  | duplicate
  /-- The row was inserted; `found` is the row read back after the eviction. -/
  | inserted (row : SessionEventRow) (found : Option SessionEventRow)
  deriving DecidableEq

def Appended.answer : Appended → Option SessionEventRow
  | .duplicate => none
  | .inserted _ found => found

def insertEvent (store : SessionStore Decisions) : Appended × SessionStore Decisions :=
  let (evicted, events) :=
    enforceEventLimit row.sessionId config.maxEventsPerSession (store.events ++ [row])
  let touched := touchMeta row.sessionId (formatRfc3339 (around.clock 2)) store.metas
  let metas :=
    if 0 < evicted then
      compactMeta row.sessionId (formatRfc3339 (around.clock 3)) touched
    else touched
  let found := events.find? fun stored => decide (stored.uniqueKey = row.uniqueKey)
  let decisions :=
    match decide (row.eventType = .decision), found with
    | true, some stored =>
      around.upsertDecision row.sessionId stored.id stored.payloadJson stored.createdAt store.decisions
    | _, _ => store.decisions
  (.inserted row found, { metas, events, sequence := row.id, decisions })

/-- `append_event`, with the way it ended. A transaction that fails is rolled back. -/
def appendOutcome (event : NewSessionEvent) (store : SessionStore Decisions) :
    Except AtlasError Appended × SessionStore Decisions :=
  let row := offeredRow sha256 around store event
  match ensurePayloadFits config row.payloadJson with
  | .error error => (.error error, store)
  | .ok () =>
    if 0 < config.dedupWindowSecs ∧ 0 < (recentEvents config around row store.events).length then
      (.ok .duplicate, store)
    else if hasKey SessionEventRow.uniqueKey row.uniqueKey store.events then
      -- The insert is ignored, and the transaction only moves `updated_at`.
      (.ok .duplicate, { store with
        metas := touchMeta row.sessionId (formatRfc3339 (around.clock 2)) store.metas })
    else if (getSessionMeta store row.sessionId).isNone then
      (.error (.db "FOREIGN KEY constraint failed"), store)
    else
      let (appended, reached) := insertEvent config around row store
      (.ok appended, reached)

def appendEvent (event : NewSessionEvent) (store : SessionStore Decisions) :
    Except AtlasError (Option SessionEventRow) × SessionStore Decisions :=
  let (outcome, reached) := appendOutcome sha256 config around event store
  (outcome.map Appended.answer, reached)

end
end Atlas.Session
