import Atlas.Content.ChunkBounds
import Atlas.Hooks.Service
import Atlas.Session.LedgerProperties

/-! Whether the events that adapters and hooks build can be stored. -/
namespace Atlas.Hooks
open List
open Content (byteLength byteLength_append byteLength_cons byteLength_nil takeBytes)
open Core (Json)
open Session

structure PendingEvent where
  eventType : SessionEventType
  priority : Int
  payload : Json

def PendingEvent.bind (event : PendingEvent) (sessionId : SessionId) : NewSessionEvent :=
  { sessionId, eventType := event.eventType, priority := event.priority, payload := event.payload
    createdAt := none }

def normalizeEvent (eventType : SessionEventType) (priority : Int) (payload : Json) :
    Except HookFailure PendingEvent := do
  .ok { eventType, priority, payload := ← normalizePayload payload }

def cliPayload (command status : String) (extra : Json) : Json :=
  redactPayload (object [("command", .str command), ("status", .str status), ("extra", extra)])

def extractCliEvent (command status : String) (extra : Json) : Except HookFailure PendingEvent := do
  .ok { eventType := if status = "fail" then .commandFail else .commandRun, priority := 2
        payload := ← normalizePayload (cliPayload command status extra) }

def extractGraphEvent (eventType : SessionEventType) (payload : Json) :
    Except HookFailure PendingEvent := do
  .ok { eventType, priority := 3, payload := ← normalizePayload payload }

/-- The payload is not cut to the limit. -/
def extractContextEvent (queryHint : String) (fileCount : Nat) : PendingEvent :=
  { eventType := .contextRequest, priority := 2
    payload := object [("query_hint", .str queryHint), ("file_count", count fileCount)] }

def reasoningPayload (sourceId : Option String) (summary : String) : Json :=
  object [("source_id", optional sourceId), ("summary", .str summary)]

def extractReasoningEvent (sourceId : Option String) (summary : String) :
    Except HookFailure PendingEvent := do
  .ok { eventType := .reasoningResult, priority := 3
        payload := ← normalizePayload (reasoningPayload sourceId summary) }

/-- The payload is not cut to the limit. -/
def extractUserEvent (intent : String) : PendingEvent :=
  { eventType := .userIntent, priority := 3, payload := object [("intent", .str intent)] }

def toolPayload (toolName status : String) (extra : Json) : Json :=
  redactPayload (object [("tool", .str toolName), ("status", .str status), ("extra", extra)])

def extractToolEvent (toolName status : String) (extra : Json) :
    Except HookFailure PendingEvent := do
  .ok { eventType := if status = "fail" then .commandFail else .contextRequest, priority := 2
        payload := ← normalizePayload (toolPayload toolName status extra) }

variable (request : EventRequest)
  (summary : String) (sessionId : SessionId) (rationale : Option String)

def decisionPayload (details : Json) : Json :=
  redactPayload (object ([("summary", .str summary), ("rationale", optional rationale)] ++
    match details with
    | .obj fields => fields
    | _ => []))

def extractDecisionEventWithDetails (details : Json) : Except HookFailure PendingEvent := do
  .ok { eventType := .decision, priority := 4
        payload := ← normalizePayload (decisionPayload summary rationale details) }

def extractDecisionEvent :
    Except HookFailure PendingEvent := extractDecisionEventWithDetails summary rationale .null
def rulePayload (label rule : String) (source : Option String) : Json :=
  object [("label", .str label), ("rule", .str rule), ("source", optional source)]

def extractRuleEvent (label rule : String) (source : Option String) :
    Except HookFailure PendingEvent := do
  .ok { eventType := .ruleInstruction, priority := 4
        payload := ← normalizePayload (rulePayload label rule source) }

inductive EventRequest where
  | normalize (eventType : SessionEventType) (priority : Int) (payload : Json)
  | cli (command status : String) (extra : Json)
  | graph (eventType : SessionEventType) (payload : Json)
  | context (queryHint : String) (fileCount : Nat)
  | reasoning (sourceId : Option String) (summary : String)
  | user (intent : String)
  | tool (toolName status : String) (extra : Json)
  | decision (summary : String) (rationale : Option String)
  | decisionWithDetails (summary : String) (rationale : Option String) (details : Json)
  | rule (label rule : String) (source : Option String)
  | hook (context : PersistEventContext) (policy : HookPolicy) (routing : HookPayloadRouting)
    (hookMetadata : Json) (pendingResume : Bool)

def EventRequest.build : EventRequest → Except HookFailure NewSessionEvent
  | .normalize eventType priority payload => (normalizeEvent eventType priority payload).map (·.bind sessionId)
  | .cli command status extra => (extractCliEvent command status extra).map (·.bind sessionId)
  | .graph eventType payload => (extractGraphEvent eventType payload).map (·.bind sessionId)
  | .context queryHint fileCount => .ok ((extractContextEvent queryHint fileCount).bind sessionId)
  | .reasoning sourceId summary => (extractReasoningEvent sourceId summary).map (·.bind sessionId)
  | .user intent => .ok ((extractUserEvent intent).bind sessionId)
  | .tool toolName status extra => (extractToolEvent toolName status extra).map (·.bind sessionId)
  | .decision summary rationale => (extractDecisionEvent summary rationale).map (·.bind sessionId)
  | .decisionWithDetails summary rationale details =>
    (extractDecisionEventWithDetails summary rationale details).map (·.bind sessionId)
  | .rule label text source => (extractRuleEvent label text source).map (·.bind sessionId)
  | .hook caller policy routing hookMetadata pendingResume =>
    buildHookEvent caller sessionId policy routing hookMetadata pendingResume

def EventRequest.raw : EventRequest → Json
  | .normalize _ _ payload => payload
  | .cli command status extra => cliPayload command status extra
  | .graph _ payload => payload
  | .context queryHint fileCount => (extractContextEvent queryHint fileCount).payload
  | .reasoning sourceId summary => reasoningPayload sourceId summary
  | .user intent => (extractUserEvent intent).payload
  | .tool toolName status extra => toolPayload toolName status extra
  | .decision summary rationale => decisionPayload summary rationale .null
  | .decisionWithDetails summary rationale details => decisionPayload summary rationale details
  | .rule label text source => rulePayload label text source
  | .hook caller policy routing hookMetadata pendingResume =>
    if policy.sessionStart then
      object [("frontend", .str caller.frontend), ("event_source", .str caller.source),
        ("agent_id", optional caller.agentId), ("hook_event", .str policy.canonicalEvent),
        ("pending_resume", .bool pendingResume), ("payload", routing.eventPayload),
        ("hook_metadata", hookMetadata)]
    else
      object ([("frontend", .str caller.frontend), ("event_source", .str caller.source),
        ("hook_event", .str policy.canonicalEvent), ("payload", routing.eventPayload),
          ("hook_metadata", hookMetadata)] ++
        (caller.agentId.map fun agentId => ("agent_id", Json.str agentId)).toList ++
        (routing.sourceId.map fun sourceId => ("source_id", Json.str sourceId)).toList ++
        (routing.storageKind.map fun kind => ("payload_storage",
          object [("kind", .str kind), ("content_type", .str "application/json")])).toList)

def EventRequest.isCut : EventRequest → Bool
  | .context _ _ => false
  | .user _ => false
  | .hook _ policy _ _ _ => !policy.sessionStart
  | _ => true

/-- Built without a panic, under the limit, and not refused for its size where the ledger does not
make paths longer. -/
def EventRequest.Storable : Prop := ∃ event, request.build sessionId = .ok event ∧
    byteLength (serialize event.payload) ≤ maxEventPayloadBytes ∧
    ∀ {Decisions : Type} (around : Surroundings Decisions) (store : SessionStore Decisions),
      (payloadText around store event).utf8ByteSize ≤ byteLength (serialize event.payload) →
      ensurePayloadFits {} (payloadText around store event) = .ok ()

def EventRequest.Fits : Prop := byteLength (serialize request.raw) ≤ maxEventPayloadBytes ∨
    request.isCut = true ∧ (takeBytes 256 (serialize request.raw)).isSome = true

theorem payload_bind (payload : Json) (eventType : SessionEventType)
    (priority : Int) (sessionId : SessionId) : ((show Except HookFailure PendingEvent from do
      .ok ⟨eventType, priority, ← normalizePayload payload⟩).map (·.bind sessionId)).map
        NewSessionEvent.payload = normalizePayload payload := by
  cases normalizePayload payload <;> rfl

theorem EventRequest.build_payload : (request.build sessionId).map NewSessionEvent.payload =
      if request.isCut then normalizePayload request.raw else .ok request.raw := by
  cases request with
  | hook caller policy routing hookMetadata pendingResume =>
    cases starts : policy.sessionStart with
    | true =>
      simp only [build, raw, isCut, buildHookEvent, starts, if_true, Bool.not_true, Bool.false_eq_true, if_false]
      rfl
    | false =>
      simp only [build, raw, isCut, buildHookEvent, starts, Bool.false_eq_true, if_false, Bool.not_false, if_true]
      cases normalizePayload _ <;> rfl
  | context queryHint fileCount | user intent =>
    unfold build raw isCut
    rfl
  | normalize eventType priority payload =>
    unfold build raw isCut normalizeEvent
    rw [if_pos rfl]
    exact payload_bind payload _ _ _
  | graph eventType payload =>
    unfold build raw isCut extractGraphEvent
    rw [if_pos rfl]
    exact payload_bind payload _ _ _
  | cli command status extra =>
    unfold build raw isCut extractCliEvent
    rw [if_pos rfl]
    exact payload_bind (cliPayload command status extra) _ _ _
  | reasoning sourceId summary =>
    unfold build raw isCut extractReasoningEvent
    rw [if_pos rfl]
    exact payload_bind (reasoningPayload sourceId summary) _ _ _
  | tool toolName status extra =>
    unfold build raw isCut extractToolEvent
    rw [if_pos rfl]
    exact payload_bind (toolPayload toolName status extra) _ _ _
  | decision summary rationale =>
    unfold build raw isCut extractDecisionEvent extractDecisionEventWithDetails
    rw [if_pos rfl]
    exact payload_bind (decisionPayload summary rationale .null) _ _ _
  | decisionWithDetails summary rationale details =>
    unfold build raw isCut extractDecisionEventWithDetails
    rw [if_pos rfl]
    exact payload_bind (decisionPayload summary rationale details) _ _ _
  | rule label text source =>
    unfold build raw isCut extractRuleEvent
    rw [if_pos rfl]
    exact payload_bind (rulePayload label text source) _ _ _

theorem byteLength_escape (c : Char) : byteLength (Text.escape c) ≤ 6 * c.utf8Size := by
  have pos := c.utf8Size_pos
  have small : ∀ digits : Nat, (Text.hexDigit digits).utf8Size = 1 := by
    intro digits
    have table : ∀ value < 16, (Nat.digitChar value).utf8Size = 1 := by decide
    exact table _ (Nat.mod_lt _ (by decide))
  have marks : '"'.utf8Size = 1 ∧ '\\'.utf8Size = 1 ∧ 'b'.utf8Size = 1 ∧ 't'.utf8Size = 1 ∧
      'n'.utf8Size = 1 ∧ 'f'.utf8Size = 1 ∧ 'r'.utf8Size = 1 ∧ 'u'.utf8Size = 1 ∧ '0'.utf8Size = 1 := by
    decide
  unfold Text.escape
  repeat' split
  all_goals simp only [byteLength_cons, byteLength_nil, small, marks]
  all_goals omega

theorem byteLength_quote (text : String) :
    byteLength (Text.quote text) ≤ 6 * byteLength text.toList + 2 := by
  have escaped : ∀ chars : List Char, byteLength (chars.flatMap Text.escape) ≤ 6 * byteLength chars := by
    intro chars
    induction chars with
    | nil => simp
    | cons c rest ih =>
      have head := byteLength_escape c
      rw [List.flatMap_cons, byteLength_append, byteLength_cons]
      omega
  have inner := escaped text.toList
  have mark : ('"' : Char).utf8Size = 1 := by decide
  unfold Text.quote
  rw [byteLength_cons, byteLength_append, byteLength_cons, byteLength_nil, mark]
  omega

theorem byteLength_digits {number : Nat} (addressable : number < 2 ^ 64) :
    byteLength (toString number).toList ≤ 20 := by
  have ascii : ∀ chars : List Char, (∀ c ∈ chars, c.isDigit = true) → byteLength chars = chars.length := by
    intro chars digits
    induction chars with
    | nil => rfl
    | cons c rest ih =>
      have own := digits c (.head _)
      have single : c.utf8Size = 1 := by
        rw [Char.isDigit_iff_toNat] at own
        have nine : '9'.toNat = 57 := rfl
        exact Char.utf8Size_eq_one_iff.mpr (UInt32.le_iff_toNat_le.mpr (by
          change c.toNat ≤ 127
          omega))
      rw [byteLength_cons, single, ih fun other mem => digits other (mem_cons_of_mem _ mem), length_cons, Nat.add_comm]
  have shown : (toString number).toList = number.repr.toList := rfl
  rw [shown, ascii _ fun c mem => Text.isDigit_of_mem_natRepr mem, String.length_toList]
  exact (Nat.length_repr_le_iff (by decide)).mpr (by omega)

theorem serialize_marker (size : Nat) (preview : String) : serialize (object
    [("truncated", .bool true), ("original_bytes", count size), ("preview", .str preview)]) =
      "\x7b\"original_bytes\":".toList ++ (toString size).toList ++ ",\"preview\":".toList ++
        Text.quote preview ++ ",\"truncated\":true\x7d".toList := by
  have first : "original_bytes" < "truncated" := String.lt_iff_toList_lt.mpr (by decide)
  have second : ¬ "preview" < "original_bytes" := mt String.lt_iff_toList_lt.mp (by decide)
  have third : "preview" < "truncated" := String.lt_iff_toList_lt.mpr (by decide)
  have sorted : Text.collectFields [("truncated", Json.bool true), ("original_bytes", count size), ("preview", .str preview)] =
      [("original_bytes", count size), ("preview", .str preview), ("truncated", .bool true)] := by
    simp only [Text.collectFields, foldl_cons, foldl_nil, Json.insertField, String.reduceEq,
      if_false, if_pos first, if_neg second, if_pos third]
  unfold object serialize
  rw [sorted]
  simp [Text.print, Text.printFields, Text.compact, count, Text.quote, Text.escape]

theorem normalizePayload_fits {payload stored : Json}
    (addressable : byteLength (serialize payload) < 2 ^ 64)
    (built : normalizePayload payload = .ok stored) :
    byteLength (serialize stored) ≤ maxEventPayloadBytes := by
  unfold normalizePayload at built
  dsimp only at built
  split at built
  · next fits =>
      cases built
      exact fits
  · next large =>
      split at built
      · cases built
      · next preview taken =>
          cases built
          obtain ⟨rest, whole, size⟩ := Content.eq_append_of_takeBytes taken
          have digits := byteLength_digits addressable
          have quoted := byteLength_quote (String.ofList preview)
          rw [String.toList_ofList, size] at quoted
          rw [serialize_marker]
          simp only [byteLength_append]
          have frame : byteLength "\x7b\"original_bytes\":".toList + byteLength
            ",\"preview\":".toList + byteLength ",\"truncated\":true\x7d".toList ≤ 100 := by decide
          have limit : maxEventPayloadBytes = 8192 := rfl
          have short := Nat.min_le_right (byteLength (serialize payload)) 256
          omega

theorem normalizePayload_ok {payload : Json}
    {failure : HookFailure} (fits : byteLength (serialize payload) ≤ maxEventPayloadBytes ∨
      (takeBytes 256 (serialize payload)).isSome = true) : normalizePayload payload ≠ .error failure := by
  intro failed
  unfold normalizePayload at failed
  dsimp only at failed
  split at failed
  · cases failed
  · next large =>
      have limit : maxEventPayloadBytes = 8192 := rfl
      have short : min (byteLength (serialize payload)) 256 = 256 := by omega
      obtain ⟨preview, taken⟩ := Option.isSome_iff_exists.mp (fits.resolve_left large)
      rw [short, taken] at failed
      cases failed

/-- An event can be stored exactly when its payload fits, or it is cut to the limit and a character
starts where its preview ends. -/
theorem eventRequest_storable_iff (request : EventRequest)
    (sessionId : SessionId) (addressable : byteLength (serialize request.raw) < 2 ^ 64) :
    request.Storable sessionId ↔ request.Fits := by
  have payload := request.build_payload sessionId
  unfold EventRequest.Storable EventRequest.Fits
  constructor
  · rintro ⟨event, built, fits, _⟩
    rw [built] at payload
    by_cases whole : byteLength (serialize request.raw) ≤ maxEventPayloadBytes
    · exact .inl whole
    · right
      cases cut : request.isCut with
      | false =>
        rw [cut, if_neg Bool.false_ne_true] at payload
        rw [Except.ok.inj payload] at fits
        exact absurd fits whole
      | true =>
        rw [cut, if_pos rfl] at payload
        refine ⟨rfl, ?_⟩
        have limit : maxEventPayloadBytes = 8192 := rfl
        have short : min (byteLength (serialize request.raw)) 256 = 256 := by omega
        cases taken : takeBytes 256 (serialize request.raw) with
        | none =>
          simp only [normalizePayload, if_neg whole, short, taken] at payload
          cases payload
        | some preview => rfl
  · intro fits
    obtain ⟨stored, built, small⟩ :
      ∃ stored, (request.build sessionId).map NewSessionEvent.payload = .ok stored ∧
      byteLength (serialize stored) ≤ maxEventPayloadBytes := by
      rw [payload]
      cases cut : request.isCut with
      | false =>
        refine ⟨request.raw, by rw [if_neg Bool.false_ne_true], fits.resolve_right ?_⟩
        rw [cut]
        exact fun other => Bool.false_ne_true other.1
      | true =>
        rw [if_pos rfl]
        cases done : normalizePayload request.raw with
        | ok stored => exact ⟨stored, rfl, normalizePayload_fits addressable done⟩
        | error failure => exact absurd done (normalizePayload_ok (fits.imp_right And.right))
    cases event : request.build sessionId with
    | error failure =>
      rw [event] at built
      cases built
    | ok event' =>
      rw [event] at built
      cases built
      refine ⟨event', rfl, small, fun around store shorter => ?_⟩
      exact ensurePayloadFits_eq_ok.mpr (Nat.le_trans shorter small)

theorem eventRequest_storable_shortIntent : (EventRequest.user "rename").Storable "s1" :=
  (eventRequest_storable_iff (.user "rename") "s1" (by decide)).mpr (.inl (by decide))

theorem byteLength_intent (count : Nat) :
    byteLength (serialize (extractUserEvent (String.ofList (replicate count 'a'))).payload) =
      count + 13 := by
  have letters : (replicate count 'a').flatMap Text.escape = replicate count 'a' := by
    rw [flatMap_replicate]
    exact flatten_replicate_singleton
  have shape : serialize (extractUserEvent (String.ofList (replicate count 'a'))).payload =
    "\x7b\"intent\":\"".toList ++ replicate count 'a' ++ "\"\x7d".toList := by
    simp [extractUserEvent, object, Text.collectFields, Json.insertField, serialize, Text.print,
      Text.printFields, Text.compact, Text.quote, letters, Text.escape]
  rw [shape, byteLength_append, byteLength_append, Content.byteLength_replicate]
  have front : byteLength "\x7b\"intent\":\"".toList = 11 := by decide
  have back : byteLength "\"\x7d".toList = 2 := by decide
  omega

/-- An intent of 8192 letters is handed over as it is. -/
theorem longIntent_notStorable :
    ¬ (EventRequest.user (String.ofList (replicate 8192 'a'))).Storable "s1" := by
  rintro ⟨event, built, fits, _⟩
  obtain rfl := Except.ok.inj built
  have size := byteLength_intent 8192
  exact absurd (Nat.le_trans (Nat.le_of_eq size.symm) fits) (by decide)

end Atlas.Hooks
