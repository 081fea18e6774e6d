import Atlas.Hooks.Service
import Atlas.Session.Ledger

/-! Bridge files: session events written to a markdown file, and read from it into the
session store. -/
namespace Atlas.Hooks
open Content.Artifact (SourceMeta)
open Core (Json)
open Program (lookup put)
open Session (NewSessionEvent SessionEventType SessionId SessionMeta SessionStore
  SessionStoreConfig Surroundings appendEvent getSessionMeta)
open Sql (insertOrUpdate)

structure BridgeEvent where
  eventType : String
  priority : Int32
  (payloadJson createdAt : String)

structure BridgeEnvelope where
  (schema sessionId frontend createdAt : String)
  events : List BridgeEvent

def BridgeEvent.toJson (event : BridgeEvent) : Json :=
  .obj [("event_type", .str event.eventType), ("priority", .num (toString event.priority.toInt)),
    ("payload_json", .str event.payloadJson), ("created_at", .str event.createdAt)]

def BridgeEnvelope.toJson (envelope : BridgeEnvelope) : Json :=
  .obj [("schema", .str envelope.schema), ("session_id", .str envelope.sessionId),
    ("frontend", .str envelope.frontend), ("created_at", .str envelope.createdAt),
    ("events", .arr (envelope.events.map BridgeEvent.toJson))]

def serializePretty (value : Json) : Text := Text.print Text.pretty 0 value

def parseEventType (value : String) : Option SessionEventType :=
  match value with
  | "FILE_READ" => some .fileRead
  | "FILE_WRITE" => some .fileWrite
  | "COMMAND_RUN" => some .commandRun
  | "COMMAND_FAIL" => some .commandFail
  | "GRAPH_BUILD" => some .graphBuild
  | "GRAPH_UPDATE" => some .graphUpdate
  | "REVIEW_CONTEXT" => some .reviewContext
  | "IMPACT_ANALYSIS" => some .impactAnalysis
  | "CONTEXT_REQUEST" => some .contextRequest
  | "REASONING_RESULT" => some .reasoningResult
  | "USER_INTENT" => some .userIntent
  | "DECISION" => some .decision
  | "RULE_INSTRUCTION" => some .ruleInstruction
  | "ERROR" => some .error
  | "SESSION_START" => some .sessionStart
  | "SESSION_RESUME" => some .sessionResume
  | _ => none

def padded (width number : Nat) : Text := (Nat.toDigits 10 number).leftpad width '0'

def epochDaysToYmd (days : Nat) : Nat × Nat × Nat :=
  let days := days + 719468
  let era := days / 146097
  let doe := days % 146097
  let yoe := (doe - doe / 1460 + doe / 36524 - doe / 146096) / 365
  let y := yoe + era * 400
  let doy := doe - (365 * yoe + yoe / 4 - yoe / 100)
  let mp := (5 * doy + 2) / 153
  let da := doy - (153 * mp + 2) / 5 + 1
  let mo := if mp < 10 then mp + 3 else mp - 9
  let y := if mo ≤ 2 then y + 1 else y
  (y, mo, da)

def formatNowRfc3339 (secs : Nat) : Text :=
  let s := secs % 60
  let m := secs / 60 % 60
  let h := secs / 3600 % 24
  let (y, mo, da) := epochDaysToYmd (secs / 86400)
  padded 4 y ++ '-' :: padded 2 mo ++ '-' :: padded 2 da ++ 'T' :: padded 2 h ++ ':' :: padded 2 m ++ ':' :: padded 2 s ++ ['Z']

/-- The columns of `session_meta` beside those that an append reads or writes. -/
structure SessionOrigin where
  sessionId : SessionId
  frontend : String
  worktreeId : Option String
  createdAt : String

structure BridgeFile where
  path : String
  content : Text

structure World (Decisions Content : Type) where
  files : List BridgeFile
  sessions : SessionStore Decisions
  origins : List SessionOrigin
  content : Content

structure BridgeSetting (Decisions Content : Type) where
  /-- `serde_json::from_str` at the type of values and at the type of envelopes. -/
  fromStr : Text → Option Json
  readEnvelope : Text → Option BridgeEnvelope
  sha256 : String → String
  config : SessionStoreConfig
  /-- What the append of the event at a position takes from outside. -/
  surroundings : Nat → Surroundings Decisions
  formatNow : String
  generateSourceId : String → String → Text → String
  /-- `route_output`, whose errors are logged and dropped. -/
  routeOutput : SourceMeta → Text → String → Content → Content

section
variable {Decisions Content : Type} (setting : BridgeSetting Decisions Content)

variable (path : String) (sessionId : SessionId) (event : BridgeEvent)

def upsertSessionMeta (repoRoot frontend : String)
    (worktreeId : Option String) (world : World Decisions Content) : World Decisions Content :=
  let now := setting.formatNow
  { world with
    sessions := { world.sessions with
      metas := insertOrUpdate SessionMeta.sessionId
        (fun entry => { entry with repoRoot, updatedAt := now })
        { sessionId, repoRoot, updatedAt := now, lastCompactionAt := none } world.sessions.metas }
    origins := insertOrUpdate SessionOrigin.sessionId (fun entry => { entry with frontend, worktreeId })
      { sessionId, frontend, worktreeId, createdAt := now } world.origins }

def rawPayload : Json := (setting.fromStr event.payloadJson.toList).getD (.obj [])
def cleanPayload : Json := redactPayload (rawPayload setting event)

def redactEvent : BridgeEvent :=
  { event with payloadJson := String.ofList (serialize (cleanPayload setting event)) }

def bridgeEnvelope (secs : Nat)
    (sessionId : SessionId) (frontend : String) (events : List BridgeEvent) : BridgeEnvelope :=
  { schema := "atlas-bridge-v1"
    sessionId
    frontend
    createdAt := String.ofList (formatNowRfc3339 secs)
    events := events.map (redactEvent setting) }

def openingFence : Text := "```json\n".toList
def closingFence : Text := "\n```".toList

def bridgeHeader (sid fe tsStr : String) : Text := ("# Atlas Session Bridge\n\n" ++
    "> Generated by Atlas when direct hook payload transport was unavailable.\n" ++
    "> session_id: ").toList ++ (sid.toList ++
      ("  frontend: ".toList ++ (fe.toList ++ ("  created_at: ".toList ++ tsStr.toList))))

def bridgeContent (sid fe tsStr : String) (json : Text) : Text := bridgeHeader sid fe tsStr ++
    ('\n' :: '\n' :: (openingFence ++ (json ++ (closingFence ++ ['\n']))))

def bridgeText (secs : Nat)
    (sessionId : SessionId) (frontend : String) (events : List BridgeEvent) : Text :=
  let envelope := bridgeEnvelope setting secs sessionId frontend events
  bridgeContent sessionId frontend envelope.createdAt (serializePretty envelope.toJson)

def joinPath (dir name : String) : String :=
  if dir = "" ∨ dir.toList.getLast? = some '/' then dir ++ name else dir ++ "/" ++ name

def writeBridgeFile (ts secs : Nat) (bridgeDir : String) (sessionId : SessionId)
    (frontend : String) (events : List BridgeEvent) (world : World Decisions Content) :
    String × World Decisions Content :=
  let path := joinPath bridgeDir ("bridge-" ++ toString ts ++ ".md")
  let content := bridgeText setting secs sessionId frontend events
  (path, { world with files := put BridgeFile.path { path, content } world.files })

def parseBridgeEnvelope (markdown : Text) : Option BridgeEnvelope := do
  let (_, behindFence) ← Text.cut openingFence markdown
  let (json, _) ← Text.cut closingFence behindFence
  setting.readEnvelope json

def newEvent (payload : Json) (event : BridgeEvent) (eventType : SessionEventType) :
    NewSessionEvent :=
  { sessionId, eventType, priority := event.priority.toInt, payload, createdAt := some event.createdAt }

def appendEvents (sessionId : SessionId) (payload : BridgeEvent → Json) (position : Nat) :
    List BridgeEvent → SessionStore Decisions → Nat × SessionStore Decisions
  | [], store => (0, store)
  | event :: rest, store =>
    match parseEventType event.eventType with
    | none => appendEvents sessionId payload (position + 1) rest store
    | some eventType =>
      let (outcome, reached) :=
        appendEvent setting.sha256 setting.config (setting.surroundings position)
          (newEvent sessionId (payload event) event eventType) store
      let (appended, final) := appendEvents sessionId payload (position + 1) rest reached
      match outcome with
      | .ok _ => (appended + 1, final)
      | .error _ => (appended, final)

def bridgeSource (raw : Text) (envelope : BridgeEnvelope) : SourceMeta :=
  { id := setting.generateSourceId "synthetic_path" path raw
    sessionId := some envelope.sessionId
    agentId := none
    sourceType := "bridge_artifact"
    label := "bridge: " ++ toString envelope.events.length ++ " events from " ++ envelope.frontend ++
      " at " ++ envelope.createdAt
    repoRoot := none
    repoRoots := []
    repoId := none
    repoIds := []
    identityKind := "synthetic_path"
    identityValue := path }

def removeFile (world : World Decisions Content) : World Decisions Content :=
  { world with files := world.files.filter fun file => decide (file.path ≠ path) }

def ingestBridgeFile (world : World Decisions Content) : Nat × World Decisions Content :=
  match lookup BridgeFile.path world.files path with
  | none => (0, removeFile path world)
  | some file =>
    match parseBridgeEnvelope setting file.content with
    | none => (0, removeFile path world)
    | some envelope =>
      let registered := upsertSessionMeta setting envelope.sessionId "" envelope.frontend none world
      let (appended, sessions) := appendEvents setting envelope.sessionId (rawPayload setting) 0
        envelope.events registered.sessions
      let content := setting.routeOutput (bridgeSource setting path file.content envelope) file.content
        "text/markdown" registered.content
      (appended, removeFile path { registered with sessions, content })

def appendDirectly (events : List BridgeEvent)
    (store : SessionStore Decisions) : SessionStore Decisions :=
  (appendEvents setting sessionId (cleanPayload setting) 0 events store).2

end
end Atlas.Hooks
