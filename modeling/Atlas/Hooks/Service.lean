import Atlas.Content.Artifact
import Atlas.Hooks.Payload
import Atlas.Session.Event

/-! Hook events: their policies, and what they write to the session and to the content store. -/
namespace Atlas.Hooks
open Content (byteLength takeBytes)
open Content.Artifact (SourceMeta)
open Core (Json)
open Session (NewSessionEvent SessionEventType SessionId)

inductive HookStorage where
  | sessionOnly
  | sessionAndContent
  deriving DecidableEq

structure HookPolicy where
  canonicalEvent : String
  aliases : List String
  eventType : SessionEventType
  priority : Int
  storage : HookStorage
  promptRouting : Bool := false
  freshness : Bool := false
  sessionStart : Bool := false
  deriving DecidableEq

def hookPolicies : List HookPolicy :=
  [{ canonicalEvent := "session-start",
      aliases := ["session-start", "SessionStart", "sessionStart"],
      eventType := .sessionStart, priority := 5, storage := .sessionOnly, sessionStart := true },
    { canonicalEvent := "user-prompt",
      aliases := ["user-prompt", "UserPromptSubmit", "userPromptSubmitted"],
      eventType := .userIntent, priority := 3, storage := .sessionAndContent, promptRouting := true },
    { canonicalEvent := "user-prompt-expansion",
      aliases := ["user-prompt-expansion", "UserPromptExpansion"],
      eventType := .userIntent, priority := 3, storage := .sessionAndContent, promptRouting := true },
    { canonicalEvent := "pre-tool-use", aliases := ["pre-tool-use", "PreToolUse", "preToolUse"],
      eventType := .commandRun, priority := 2, storage := .sessionOnly },
    { canonicalEvent := "post-tool-use", aliases := ["post-tool-use", "PostToolUse", "postToolUse"],
      eventType := .graphUpdate, priority := 3, storage := .sessionAndContent },
    { canonicalEvent := "pre-compact", aliases := ["pre-compact", "PreCompact"],
      eventType := .commandRun, priority := 2, storage := .sessionOnly },
    { canonicalEvent := "post-compact", aliases := ["post-compact", "PostCompact"],
      eventType := .commandRun, priority := 2, storage := .sessionOnly },
    { canonicalEvent := "stop", aliases := ["stop", "Stop"],
      eventType := .commandRun, priority := 2, storage := .sessionAndContent },
    { canonicalEvent := "session-end", aliases := ["session-end", "SessionEnd", "sessionEnd"],
      eventType := .commandRun, priority := 2, storage := .sessionAndContent },
    { canonicalEvent := "permission-request",
      aliases := ["permission-request", "PermissionRequest"],
      eventType := .decision, priority := 3, storage := .sessionOnly },
    { canonicalEvent := "permission-denied", aliases := ["permission-denied", "PermissionDenied"],
      eventType := .decision, priority := 3, storage := .sessionOnly },
    { canonicalEvent := "tool-failure", aliases := ["tool-failure", "PostToolUseFailure"],
      eventType := .commandFail, priority := 3, storage := .sessionAndContent },
    { canonicalEvent := "stop-failure", aliases := ["stop-failure", "StopFailure"],
      eventType := .commandFail, priority := 3, storage := .sessionAndContent },
    { canonicalEvent := "error", aliases := ["error", "errorOccurred"],
      eventType := .error, priority := 4, storage := .sessionAndContent },
    { canonicalEvent := "elicitation", aliases := ["elicitation", "Elicitation"],
      eventType := .userIntent, priority := 3, storage := .sessionAndContent, promptRouting := true },
    { canonicalEvent := "elicitation-result",
      aliases := ["elicitation-result", "ElicitationResult"],
      eventType := .userIntent, priority := 3, storage := .sessionAndContent, promptRouting := true },
    { canonicalEvent := "instructions-loaded",
      aliases := ["instructions-loaded", "InstructionsLoaded"],
      eventType := .ruleInstruction, priority := 2, storage := .sessionAndContent },
    { canonicalEvent := "notification", aliases := ["notification", "Notification"],
      eventType := .commandRun, priority := 2, storage := .sessionOnly },
    { canonicalEvent := "subagent-start", aliases := ["subagent-start", "SubagentStart"],
      eventType := .commandRun, priority := 2, storage := .sessionOnly },
    { canonicalEvent := "subagent-stop", aliases := ["subagent-stop", "SubagentStop"],
      eventType := .commandRun, priority := 2, storage := .sessionOnly },
    { canonicalEvent := "task-created", aliases := ["task-created", "TaskCreated"],
      eventType := .commandRun, priority := 2, storage := .sessionOnly },
    { canonicalEvent := "task-completed", aliases := ["task-completed", "TaskCompleted"],
      eventType := .commandRun, priority := 2, storage := .sessionOnly },
    { canonicalEvent := "config-change", aliases := ["config-change", "ConfigChange"],
      eventType := .commandRun, priority := 2, storage := .sessionOnly, freshness := true },
    { canonicalEvent := "cwd-changed", aliases := ["cwd-changed", "CwdChanged"],
      eventType := .commandRun, priority := 2, storage := .sessionOnly },
    { canonicalEvent := "file-changed", aliases := ["file-changed", "FileChanged"],
      eventType := .fileWrite, priority := 3, storage := .sessionOnly, freshness := true },
    { canonicalEvent := "worktree-create", aliases := ["worktree-create", "WorktreeCreate"],
      eventType := .commandRun, priority := 2, storage := .sessionOnly },
    { canonicalEvent := "worktree-remove", aliases := ["worktree-remove", "WorktreeRemove"],
      eventType := .commandRun, priority := 2, storage := .sessionOnly }]

inductive HookFailure where
  | unknownEvent (event : String)
  /-- A preview of 256 bytes ends inside of a character, which panics. -/
  | brokenPreview
  deriving DecidableEq

def resolveHookPolicy (event : String) : Except HookFailure HookPolicy :=
  match hookPolicies.find? fun policy => policy.aliases.contains event with
  | some policy => .ok policy
  | none => .error (.unknownEvent event)

def sanitizePayloadForStorage (policy : HookPolicy) (payload : Json) : Json :=
  if policy.canonicalEvent = "file-changed" then stripInlineFileContent payload else payload

abbrev Text := List Char
abbrev RoutedText := Option (SourceMeta × Text)

structure ResumeSnapshot where
  consumed : Bool
  eventCount : Nat

inductive ContextTarget where
  | qualifiedName (qname : String)
  | symbolName (name : String)
  | filePath (path : String)
  | changedFiles (paths : List String)
  | changedSymbols (qnames : List String)
  | edgeQuerySeed (sourceQname : String)

structure ParsedQuery where
  target : ContextTarget
  (intentValue targetValue : Json)

structure SourceSummary where
  (label sourceType createdAt : String)

/-- What a call reads: the resume snapshot of the session, the thresholds and answers of the content
store, which may depend on the text routed before, and the parser of prompts. -/
structure HookStores where
  resumeSnapshot : Option ResumeSnapshot
  (smallOutputBytes previewThresholdBytes : Nat)
  generateSourceId : String → String → Text → String
  parseQuery : String → ParsedQuery
  searchWithFallback : RoutedText → String → List String
  getSource : RoutedText → String → Option SourceSummary

structure PersistEventContext where
  (repo frontend event source : String)
  agentId : Option String

structure HookPayloadRouting where
  eventPayload : Json
  (sourceId storageKind : Option String)

/-- `json!({..})` with its keys in ascending order; under `preserve_order` they stay as they
are written, and the printed text is as long. -/
def object (fields : List (String × Json)) : Json := .obj (Text.collectFields fields)
def optional (text : Option String) : Json := (text.map Json.str).getD .null
def count (number : Nat) : Json := .num (toString number)
def serialize (value : Json) : Text := Text.print Text.compact 0 value

section
variable (stores : HookStores) (context : PersistEventContext) (sessionId : SessionId)

variable (policy : HookPolicy) (routed : RoutedText) (payload : Json) (routing : HookPayloadRouting)

def routeHookPayload : HookPayloadRouting × RoutedText :=
  if payload = .null then (⟨payload, none, none⟩, none)
  else
    let rawPayload := serialize payload
    let label := "hook:" ++ context.frontend ++ ":" ++ policy.canonicalEvent
    let identityValue := context.repo ++ ":" ++ label
    let sourceId := stores.generateSourceId "artifact_label" identityValue rawPayload
    let metadata : SourceMeta :=
      { id := sourceId
        sessionId := some sessionId
        agentId := context.agentId
        sourceType := "hook_event"
        label
        repoRoot := some context.repo
        repoRoots := [context.repo]
        repoId := none
        repoIds := []
        identityKind := "artifact_label"
        identityValue }
    let routing :=
      if byteLength rawPayload ≤ stores.smallOutputBytes then ⟨payload, none, none⟩
      else if byteLength rawPayload ≤ stores.previewThresholdBytes then
        ⟨object [("preview", .str (String.ofList (rawPayload.take 512)))], some sourceId, some "preview"⟩
      else ⟨.null, some sourceId, some "pointer"⟩
    (routing, some (metadata, rawPayload))

def maxHookSourceHints : Nat := 3
def maxHookPromptHits : Nat := 3

def pushUnique {Item : Type}
    [DecidableEq Item] (limit : Nat) (values : List Item) (candidate : Item) : List Item :=
  if candidate ∈ values then values else (values ++ [candidate]).take limit

def promptLookupQuery (target : ContextTarget) (promptText : String) : String :=
  match target with
  | .qualifiedName qname => qname
  | .symbolName name => name
  | .filePath path => path
  | .changedFiles paths => paths.head?.getD promptText
  | .changedSymbols qnames => qnames.head?.getD promptText
  | .edgeQuerySeed sourceQname => sourceQname

def searchSavedContext (query : String) : List String :=
  if byteLength (Repo.trim query.toList) < 3 then []
  else ((stores.searchWithFallback routed query).eraseDups).take maxHookPromptHits

abbrev Hints := List Json × List String

def hintOfRouting (hints : Hints) : Hints :=
  match routing.sourceId with
  | none => hints
  | some sourceId =>
    (pushUnique maxHookPromptHits
      hints.1 (object [("kind", .str "hook_payload"), ("event", .str policy.canonicalEvent),
      ("source_id", .str sourceId), ("storage_kind", optional routing.storageKind)]),
      pushUnique maxHookSourceHints hints.2 sourceId)

def hintOfHit (query : String) (hints : Hints) (sourceId : String) : Hints :=
  let source := stores.getSource routed sourceId
  (pushUnique maxHookPromptHits hints.1 (object [("kind", .str "saved_context_hit"), ("query",
    .str query), ("source_id", .str sourceId), ("label", optional (source.map SourceSummary.label)),
    ("source_type", optional (source.map SourceSummary.sourceType))]),
    pushUnique maxHookSourceHints hints.2 sourceId)

def hintsOfPrompt (hints : Hints) : Hints :=
  if policy.promptRouting then
    match extractPromptText payload with
    | none => hints
    | some promptText =>
      let request := stores.parseQuery promptText
      let query := promptLookupQuery request.target promptText
      let withQuery := (pushUnique maxHookPromptHits hints.1 (object [("kind", .str "prompt_query"),
        ("query", .str query), ("intent", request.intentValue), ("target", request.targetValue)]),
        hints.2)
      ((searchSavedContext stores routed query).take maxHookSourceHints).foldl (hintOfHit stores routed query) withQuery
  else hints

def buildRestoreMetadata (pendingResume : Bool) : Json := object [("pending_resume",
    .bool pendingResume), ("has_resume_snapshot", .bool stores.resumeSnapshot.isSome),
    ("snapshot_consumed", (stores.resumeSnapshot.map fun row => .bool row.consumed).getD .null),
    ("snapshot_event_count", (stores.resumeSnapshot.map fun row => count row.eventCount).getD .null)]

def readSourceSummaries (sourceIds : List String) : List Json :=
  sourceIds.filterMap fun sourceId => (stores.getSource routed sourceId).map fun source =>
    object [("source_id", .str sourceId), ("label", .str source.label),
      ("source_type", .str source.sourceType), ("created_at", .str source.createdAt)]

def buildFreshnessMetadata : Json :=
  if policy.freshness then
    object [("status", .str "stale"), ("event", .str policy.canonicalEvent), ("stale", .bool true),
      ("changed_files", .arr ((extractChangedFiles context.repo payload).map Json.str)),
      ("inline_content_persisted", .bool false)]
  else .null

def storageMode : HookStorage → String
  | .sessionOnly => "session_only"
  | .sessionAndContent => "session_and_content"

def buildHookEventMetadata (routed : RoutedText) (pendingResume : Bool) : Json :=
  let (retrievalHints, savedArtifactRefs) :=
    hintsOfPrompt stores policy routed payload (hintOfRouting policy routing ([], []))
  object [("storage_mode", .str (storageMode policy.storage)),
    ("event_source", .str context.source), ("agent_id", optional context.agentId),
    ("restore_metadata", buildRestoreMetadata stores pendingResume),
    ("retrieval_hints", .arr retrievalHints), ("saved_artifact_refs", .arr (savedArtifactRefs.map Json.str)),
    ("source_summaries", .arr (readSourceSummaries stores routed savedArtifactRefs)),
    ("freshness", buildFreshnessMetadata context policy payload)]

def maxEventPayloadBytes : Nat := 8 * 1024

def normalizePayload : Except HookFailure Json :=
  let serialized := serialize payload
  if byteLength serialized ≤ maxEventPayloadBytes then .ok payload
  else
    match takeBytes (min (byteLength serialized) 256) serialized with
    | none => .error .brokenPreview
    | some preview =>
      .ok (object [("truncated", .bool true), ("original_bytes", count (byteLength serialized)),
        ("preview", .str (String.ofList preview))])

def buildHookEvent (hookMetadata : Json) (pendingResume : Bool) :
    Except HookFailure NewSessionEvent := do
  if policy.sessionStart then
    .ok { sessionId
          eventType := if pendingResume then .sessionResume else .sessionStart
          priority := policy.priority
          payload := object [("frontend", .str context.frontend), ("event_source", .str context.source),
            ("agent_id", optional context.agentId), ("hook_event", .str policy.canonicalEvent),
            ("pending_resume", .bool pendingResume), ("payload", routing.eventPayload),
            ("hook_metadata", hookMetadata)]
          createdAt := none }
  else
    let payload ← normalizePayload (object (
      [("frontend", .str context.frontend), ("event_source", .str context.source),
        ("hook_event", .str policy.canonicalEvent), ("payload", routing.eventPayload),
        ("hook_metadata", hookMetadata)] ++
      (context.agentId.map fun agentId => ("agent_id", Json.str agentId)).toList ++
      (routing.sourceId.map fun sourceId => ("source_id", Json.str sourceId)).toList ++
      (routing.storageKind.map fun kind => ("payload_storage",
        object [("kind", .str kind), ("content_type", .str "application/json")])).toList))
    .ok { sessionId, eventType := policy.eventType, priority := policy.priority, payload, createdAt := none }

structure HookWrites where
  event : NewSessionEvent
  routed : RoutedText

def persistHookEventWithSession : Except HookFailure HookWrites := do
  let pendingResume := stores.resumeSnapshot.any fun snapshot => !snapshot.consumed
  let policy ← resolveHookPolicy context.event
  let sanitizedPayload := sanitizePayloadForStorage policy payload
  let (routing, routed) := routeHookPayload stores context sessionId policy sanitizedPayload
  let hookMetadata :=
    buildHookEventMetadata stores context policy sanitizedPayload routing routed pendingResume
  let event ← buildHookEvent context sessionId policy routing hookMetadata pendingResume
  .ok { event, routed }

end
end Atlas.Hooks
