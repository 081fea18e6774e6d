import Atlas.Hooks.BridgeCodec
import Atlas.Session.LedgerAgreement

/-! What a detour over a bridge file leaves in the session store, against appending directly. -/
namespace Atlas.Hooks
open Program (lookup put lookup_put)
open Session
open Sql (find?_insertOrUpdate insertOrUpdate)

section
variable {Decisions Content : Type} (setting : BridgeSetting Decisions Content)

def worktreeOf (world : World Decisions Content) (sessionId : SessionId) : Option String :=
  (lookup SessionOrigin.sessionId world.origins sessionId).bind SessionOrigin.worktreeId

def detour (ts secs : Nat) (bridgeDir : String) (sessionId : SessionId) (frontend : String)
    (events : List BridgeEvent) (world : World Decisions Content) : World Decisions Content :=
  let (path, written) := writeBridgeFile setting ts secs bridgeDir sessionId frontend events world
  (ingestBridgeFile setting path written).2

structure DetourFaithful (ts secs : Nat) (bridgeDir : String) (sessionId : SessionId)
    (frontend : String) (events : List BridgeEvent) (world : World Decisions Content) : Prop where
  parses : parseBridgeEnvelope setting (bridgeText setting secs sessionId frontend events) =
    some (bridgeEnvelope setting secs sessionId frontend events)
  appends : sessionEvents sessionId (detour setting ts secs bridgeDir sessionId frontend events world).sessions.events =
    sessionEvents sessionId (appendDirectly setting sessionId events world.sessions).events
  root : ∀ repoRoot, rootOf world.sessions sessionId = some repoRoot → rootOf (detour setting ts
    secs bridgeDir sessionId frontend events world).sessions sessionId = some repoRoot ∧
      worktreeOf (detour setting ts secs bridgeDir sessionId frontend events world) sessionId = worktreeOf world sessionId

def Taken (position : Nat) (event : BridgeEvent) : Prop :=
  (parseEventType event.eventType).isSome = true ∧
    (canonicalJson (normalizeEventPayloadPaths (setting.surroundings position).fromCliArgument ""
      (cleanPayload setting event))).utf8ByteSize ≤ setting.config.maxInlinePayloadBytes

/-- No fence in the header, a registration that already is the placeholder of the ingestion,
and no event that an unregistered session would take. -/
structure DetourSafe (sessionId : SessionId)
    (frontend : String) (events : List BridgeEvent) (world : World Decisions Content) : Prop where
  sid : ¬ openingFence <:+: sessionId.toList
  fe : ¬ openingFence <:+: frontend.toList
  root : ∀ repoRoot, rootOf world.sessions sessionId = some repoRoot → repoRoot = "" ∧ worktreeOf world sessionId = none
  unregistered : rootOf world.sessions sessionId = none → 0 < setting.config.maxEventsPerSession →
    ∀ position event, events[position]? = some event → ¬ Taken setting position event

structure Stored (store : SessionStore Decisions) : Prop where
  numbered : Numbered store
  owned : ∀ row ∈ store.events, (rootOf store row.sessionId).isSome = true

variable {setting} {ts secs : Nat} {bridgeDir : String} {sessionId : SessionId} {frontend : String}
  {events : List BridgeEvent} {world : World Decisions Content} {store left right : SessionStore Decisions}
  {payload payload' : BridgeEvent → Core.Json} {position : Nat} {event : BridgeEvent}

def appendOne (setting : BridgeSetting Decisions Content) (sessionId : SessionId)
    (payload : BridgeEvent → Core.Json) (position : Nat) (event : BridgeEvent)
    (store : SessionStore Decisions) : SessionStore Decisions :=
  match parseEventType event.eventType with
  | none => store
  | some eventType =>
    (appendEvent setting.sha256 setting.config (setting.surroundings position)
      (newEvent sessionId (payload event) event eventType) store).2

theorem appendEvents_cons (rest : List BridgeEvent) (store : SessionStore Decisions) :
    (appendEvents setting sessionId payload position (event :: rest) store).2 =
      (appendEvents setting sessionId payload (position + 1) rest
        (appendOne setting sessionId payload position event store)).2 := by
  rw [appendEvents]
  unfold appendOne
  cases parseEventType event.eventType with
  | none => rfl
  | some eventType =>
    dsimp only
    split
    all_goals rfl

theorem appendEvents_invariant {Holds : SessionStore Decisions → Prop}
    (step : ∀ index event, events[index]? = some event → ∀ store, Holds store →
      Holds (appendOne setting sessionId payload (position + index) event store)) (holds : Holds store) :
    Holds (appendEvents setting sessionId payload position events store).2 := by
  induction events generalizing position store with
  | nil => exact holds
  | cons event rest ih =>
    rw [appendEvents_cons]
    apply ih
    · intro index later found
      rw [Nat.add_assoc, Nat.add_comm 1 index]
      exact step (index + 1) later found
    · exact step 0 event rfl store holds

theorem rootOf_appendOne :
    rootOf (appendOne setting sessionId payload position event store) sessionId =
      rootOf store sessionId := by
  unfold appendOne
  split
  · rfl
  · exact rootOf_appendEvent _ store

private theorem rootOf_appendEvents {root : Option String} (known : rootOf store sessionId = root) :
    rootOf (appendEvents setting sessionId payload position events store).2 sessionId = root := by
  refine @appendEvents_invariant _ _ setting sessionId events store payload position
    (fun store => rootOf store sessionId = root) ?_ known
  intro index event _ store known
  rw [rootOf_appendOne, known]

private theorem seesAlike_appendOne (alike : SeesAlike sessionId left right) {changed : BridgeEvent}
    (eventType : changed.eventType = event.eventType) (priority : changed.priority = event.priority)
    (createdAt : changed.createdAt = event.createdAt) (same : payload changed = payload' event) :
    SeesAlike sessionId (appendOne setting sessionId payload position changed left)
      (appendOne setting sessionId payload' position event right) := by
  unfold appendOne newEvent
  rw [eventType, priority, createdAt, same]
  split
  · exact alike
  · exact alike.append rfl

theorem seesAlike_redacted (alike : SeesAlike sessionId left right) (readsBack : ∀ event ∈ events,
    setting.fromStr (serialize (cleanPayload setting event)) = some (cleanPayload setting event)) :
    SeesAlike sessionId (appendEvents setting sessionId (rawPayload setting) position (events.map (redactEvent setting)) left).2
      (appendEvents setting sessionId (cleanPayload setting) position events right).2 := by
  induction events generalizing position left right with
  | nil => exact alike
  | cons event rest ih =>
    have same : rawPayload setting (redactEvent setting event) = cleanPayload setting event := by
      unfold rawPayload redactEvent
      rw [String.toList_ofList, readsBack event List.mem_cons_self]
      rfl
    rw [List.map_cons, appendEvents_cons, appendEvents_cons]
    exact ih (seesAlike_appendOne alike rfl rfl rfl same) fun later mem =>
      readsBack later (List.mem_cons_of_mem _ mem)

theorem payloadText_of_empty_root {surroundings : Surroundings Decisions}
    {event : NewSessionEvent} (root : rootOf store event.sessionId = some "") :
    payloadText surroundings store event =
      canonicalJson (normalizeEventPayloadPaths surroundings.fromCliArgument "" event.payload) := by
  obtain ⟨entry, found, empty⟩ := Option.map_eq_some_iff.mp root
  unfold payloadText
  rw [found]
  dsimp only
  rw [empty]

private theorem getSessionMeta_isSome {root : String} (known : rootOf store sessionId = some root) :
    (getSessionMeta store sessionId).isSome = true := by
  obtain ⟨entry, found, -⟩ := Option.map_eq_some_iff.mp known
  rw [found]
  rfl

private theorem appendOne_unregistered (unknown : rootOf store sessionId = none)
    (empty : sessionEvents sessionId store.events = []) :
    appendOne setting sessionId payload position event store = store := by
  unfold appendOne
  split
  · rfl
  · exact appendEvent_unregistered (Option.map_eq_none_iff.mp unknown) empty

private theorem appendOne_refused (root : rootOf store sessionId = some "")
    (refused : ¬ Taken setting position event) :
    appendOne setting sessionId (cleanPayload setting) position event store = store := by
  unfold appendOne
  split
  · rfl
  · next eventType isType =>
      apply appendEvent_large
      rw [payloadText_of_empty_root root]
      by_contra fits
      exact refused ⟨by rw [isType]; rfl, Nat.le_of_not_lt fits⟩

theorem numbered_appendOne (numbered : Numbered store) :
    Numbered (appendOne setting sessionId payload position event store) := by
  unfold appendOne
  split
  · exact numbered
  · exact numbered.append _

theorem appendOne_ne_nil (numbered : Numbered store) (pos : 0 < setting.config.maxEventsPerSession)
    (some_ : sessionEvents sessionId store.events ≠ []) :
    sessionEvents sessionId (appendOne setting sessionId payload position event store).events ≠ [] := by
  unfold appendOne
  split
  · exact some_
  · next eventType _ =>
      exact @appendEvent_ne_nil _ _ _ _ (newEvent sessionId (payload event) event eventType) _ numbered pos some_

private theorem appendOne_taken (numbered : Numbered store) (pos : 0 < setting.config.maxEventsPerSession)
    (root : rootOf store sessionId = some "") (taken : Taken setting position event) :
    sessionEvents sessionId (appendOne setting sessionId (cleanPayload setting) position event store).events ≠ [] := by
  by_cases empty : sessionEvents sessionId store.events = []
  · obtain ⟨known, fits⟩ := taken
    obtain ⟨eventType, isType⟩ := Option.isSome_iff_exists.mp known
    unfold appendOne
    rw [isType]
    refine @appendEvent_first_stays _ _ _ _ (newEvent sessionId (cleanPayload setting event) event
      eventType) _ pos ?_ (getSessionMeta_isSome root) empty
    rw [payloadText_of_empty_root root]
    exact fits
  · exact appendOne_ne_nil numbered pos empty

private theorem appendOne_limit_zero (numbered : Numbered store)
    (zero : setting.config.maxEventsPerSession = 0)
    (empty : sessionEvents sessionId store.events = []) :
    sessionEvents sessionId (appendOne setting sessionId payload position event store).events = [] := by
  unfold appendOne
  split
  · exact empty
  · next eventType _ =>
      exact @appendEvent_limit_zero _ _ _ _ (newEvent sessionId (payload event) event eventType) _ numbered zero empty

private theorem appendEvents_unregistered (unknown : rootOf store sessionId = none)
    (empty : sessionEvents sessionId store.events = []) :
    (appendEvents setting sessionId payload position events store).2 = store := by
  refine @appendEvents_invariant _ _ setting sessionId events store payload position (fun reached => reached = store) ?_ rfl
  rintro index event - reached rfl
  exact appendOne_unregistered unknown empty

private theorem appendEvents_ne_nil (numbered : Numbered store)
    (pos : 0 < setting.config.maxEventsPerSession)
    (some_ : sessionEvents sessionId store.events ≠ []) :
    sessionEvents sessionId (appendEvents setting sessionId payload position events store).2.events ≠ [] := by
  have kept :
    Numbered (appendEvents setting sessionId payload position events store).2 ∧ sessionEvents
    sessionId (appendEvents setting sessionId payload position events store).2.events ≠ [] := by
    refine @appendEvents_invariant _ _ setting sessionId events store payload
      position (fun reached => Numbered reached ∧ sessionEvents sessionId reached.events ≠ []) ?_
      ⟨numbered, some_⟩
    rintro index event - reached ⟨numbered, some_⟩
    exact ⟨numbered_appendOne numbered, appendOne_ne_nil numbered pos some_⟩
  exact kept.2

private theorem appendEvents_taken (numbered : Numbered store)
    (pos : 0 < setting.config.maxEventsPerSession)
    (root : rootOf store sessionId = some "") {index : Nat} (found : events[index]? = some event)
    (taken : Taken setting (position + index) event) :
    sessionEvents sessionId (appendEvents setting sessionId (cleanPayload setting) position events store).2.events ≠ [] := by
  induction events generalizing position store index with
  | nil => cases found
  | cons head rest ih =>
    rw [appendEvents_cons]
    cases index with
    | zero =>
      cases found
      exact appendEvents_ne_nil (numbered_appendOne numbered) pos (appendOne_taken numbered pos root taken)
    | succ index =>
      rw [Nat.add_comm index 1, ← Nat.add_assoc] at taken
      exact ih (numbered_appendOne numbered) (by rw [rootOf_appendOne, root]) found taken

private theorem appendEvents_refused (numbered : Numbered store)
    (root : rootOf store sessionId = some "") (empty : sessionEvents sessionId store.events = [])
    (refused : 0 < setting.config.maxEventsPerSession → ∀ index event, events[index]? = some event →
      ¬ Taken setting (position + index) event) :
    sessionEvents sessionId (appendEvents setting sessionId (cleanPayload setting) position events store).2.events = [] := by
  have kept : Numbered (appendEvents setting sessionId (cleanPayload setting) position events store).2 ∧
      rootOf (appendEvents setting sessionId (cleanPayload setting) position events store).2 sessionId = some "" ∧
      sessionEvents sessionId (appendEvents setting sessionId (cleanPayload setting) position events store).2.events = [] := by
    refine @appendEvents_invariant _ _ setting sessionId events store (cleanPayload setting) position
      (fun reached => Numbered reached ∧ rootOf reached sessionId = some "" ∧
        sessionEvents sessionId reached.events = []) ?_ ⟨numbered, root, empty⟩
    rintro index event found reached ⟨numbered, root, empty⟩
    refine ⟨numbered_appendOne numbered, by rw [rootOf_appendOne, root], ?_⟩
    rcases Nat.eq_zero_or_pos setting.config.maxEventsPerSession with zero | pos
    · exact appendOne_limit_zero numbered zero empty
    · rw [appendOne_refused root (refused pos index event found)]
      exact empty
  exact kept.2.2

variable {repoRoot : String} {worktreeId : Option String}

theorem rootOf_upsertSessionMeta :
    rootOf (upsertSessionMeta setting sessionId repoRoot frontend worktreeId world).sessions
      sessionId = some repoRoot := by
  have found := @find?_insertOrUpdate _ _ _ SessionMeta.sessionId
    (fun entry => { entry with repoRoot, updatedAt := setting.formatNow }) (fun _ => rfl)
    { sessionId, repoRoot, updatedAt := setting.formatNow, lastCompactionAt := none } world.sessions.metas
  unfold rootOf getSessionMeta upsertSessionMeta
  dsimp only at found ⊢
  rw [found]
  cases world.sessions.metas.find? fun other => decide (other.sessionId = sessionId) with
  | none => rfl
  | some entry => rfl

private theorem worktreeOf_upsertSessionMeta :
    worktreeOf (upsertSessionMeta setting sessionId repoRoot frontend worktreeId world) sessionId =
      worktreeId := by
  have found := @find?_insertOrUpdate _ _ _ SessionOrigin.sessionId
    (fun entry => { entry with frontend, worktreeId }) (fun _ => rfl)
    { sessionId, frontend, worktreeId, createdAt := setting.formatNow } world.origins
  unfold worktreeOf lookup upsertSessionMeta
  dsimp only at found ⊢
  rw [found]
  cases world.origins.find? fun other => decide (other.sessionId = sessionId) with
  | none => rfl
  | some entry => rfl

theorem detour_eq (parses : parseBridgeEnvelope setting (bridgeText setting secs sessionId frontend
    events) = some (bridgeEnvelope setting secs sessionId frontend events)) :
    (detour setting ts secs bridgeDir sessionId frontend events world).sessions =
      (appendEvents setting sessionId (rawPayload setting) 0 (events.map (redactEvent setting))
          (upsertSessionMeta setting sessionId "" frontend none world).sessions).2 ∧
      (detour setting ts secs bridgeDir sessionId frontend events world).origins =
        (upsertSessionMeta setting sessionId "" frontend none world).origins := by
  unfold detour writeBridgeFile ingestBridgeFile
  dsimp only
  rw [lookup_put, if_pos rfl]
  dsimp only
  rw [parses]
  exact ⟨rfl, rfl⟩

private theorem seesAlike_registered (root : rootOf world.sessions sessionId = some "") :
    SeesAlike sessionId (upsertSessionMeta setting sessionId "" frontend none world).sessions
      world.sessions :=
  ⟨rfl, rfl, by rw [rootOf_upsertSessionMeta, root]⟩

section
variable (parses : parseBridgeEnvelope setting (bridgeText setting secs sessionId frontend events) =
    some (bridgeEnvelope setting secs sessionId frontend events))
  (readsBack : ∀ event ∈ events, setting.fromStr (serialize (cleanPayload setting event)) = some (cleanPayload setting event))

include parses

theorem rootOf_detour :
    rootOf (detour setting ts secs bridgeDir sessionId frontend events world).sessions sessionId =
      some "" := by
  rw [(detour_eq parses).1]
  exact rootOf_appendEvents rootOf_upsertSessionMeta

theorem worktreeOf_detour :
    worktreeOf (detour setting ts secs bridgeDir sessionId frontend events world) sessionId =
      none := by
  unfold worktreeOf
  rw [(detour_eq parses).2]
  exact worktreeOf_upsertSessionMeta

include readsBack

private theorem events_detour :
    (detour setting ts secs bridgeDir sessionId frontend events world).sessions.events =
      (appendEvents setting sessionId (cleanPayload setting) 0 events
        (upsertSessionMeta setting sessionId "" frontend none world).sessions).2.events := by
  rw [(detour_eq parses).1]
  exact (seesAlike_redacted ⟨rfl, rfl, rfl⟩ readsBack).events

private theorem events_detour_registered (root : rootOf world.sessions sessionId = some "") :
    (detour setting ts secs bridgeDir sessionId frontend events world).sessions.events =
      (appendDirectly setting sessionId events world.sessions).events := by
  rw [(detour_eq parses).1]
  exact (seesAlike_redacted (seesAlike_registered root) readsBack).events

theorem events_detour_unregistered_iff (stored : Stored world.sessions)
    (unknown : rootOf world.sessions sessionId = none) :
    sessionEvents sessionId (detour setting ts secs bridgeDir sessionId frontend events world).sessions.events =
        sessionEvents sessionId (appendDirectly setting sessionId events world.sessions).events ↔
      (0 < setting.config.maxEventsPerSession → ∀ position event, events[position]? = some event →
        ¬ Taken setting position event) := by
  have empty : sessionEvents sessionId world.sessions.events = [] := by
    rw [List.eq_nil_iff_forall_not_mem]
    intro row mem
    obtain ⟨inTable, own⟩ := mem_sessionEvents.mp mem
    have known := stored.owned row inTable
    rw [own, unknown] at known
    cases known
  have direct : appendDirectly setting sessionId events world.sessions = world.sessions := appendEvents_unregistered unknown empty
  have numbered : Numbered (upsertSessionMeta setting sessionId "" frontend none world).sessions :=
    ⟨stored.numbered.bounded, stored.numbered.distinct⟩
  rw [direct, empty, events_detour parses readsBack]
  constructor
  · intro same pos position event found taken
    rw [← Nat.zero_add position] at taken
    exact appendEvents_taken numbered pos rootOf_upsertSessionMeta found taken same
  · intro refused
    refine appendEvents_refused numbered rootOf_upsertSessionMeta empty ?_
    intro pos index event found
    rw [Nat.zero_add]
    exact refused pos index event found

end

/-- For events whose redacted payloads are read as they are printed. -/
theorem detour_faithful_iff (lawful : setting.Lawful)
    (stored : Stored world.sessions) (readsBack : ∀ event ∈ events,
      setting.fromStr (serialize (cleanPayload setting event)) = some (cleanPayload setting event)) :
    DetourFaithful setting ts secs bridgeDir sessionId frontend events world ↔
      DetourSafe setting sessionId frontend events world := by
  constructor
  · intro faithful
    have parses := faithful.parses
    refine ⟨fun fenced => ?_, fun fenced => ?_, fun repoRoot known => ?_, fun unknown => ?_⟩
    · exact parse_fenced lawful (.inl fenced) parses
    · exact parse_fenced lawful (.inr fenced) parses
    · obtain ⟨root, worktree⟩ := faithful.root repoRoot known
      rw [rootOf_detour parses] at root
      rw [worktreeOf_detour parses] at worktree
      exact ⟨(Option.some.inj root).symm, worktree.symm⟩
    · exact (events_detour_unregistered_iff parses readsBack stored unknown).mp faithful.appends
  · intro safe
    have parses : parseBridgeEnvelope setting (bridgeText setting secs sessionId frontend
      events) = _ := parse_bridgeText lawful safe.sid safe.fe
    refine ⟨parses, ?_, fun repoRoot known => ?_⟩
    · cases known : rootOf world.sessions sessionId with
      | none => exact (events_detour_unregistered_iff parses readsBack stored known).mpr (safe.unregistered known)
      | some repoRoot =>
        rw [(safe.root repoRoot known).1] at known
        rw [events_detour_registered parses readsBack known]
    · obtain ⟨empty, worktree⟩ := safe.root repoRoot known
      rw [rootOf_detour parses, worktreeOf_detour parses, empty, worktree]
      exact ⟨rfl, rfl⟩

end

def sampleInstant : Core.OffsetDateTime := Core.sampleInstant 0 Core.zeroNanoseconds

def sampleSetting : BridgeSetting Unit Unit where
  fromStr := Text.parse
  readEnvelope := envelopeOfText
  sha256 := id
  config := {}
  surroundings _ :=
    { clock := fun _ => sampleInstant
      secondsBefore := fun ts _ => ts
      fromCliArgument := fun _ path => some path
      skippedIds := 0
      upsertDecision := fun _ _ _ _ decisions => decisions }
  formatNow := "2026-01-02T00:00:00Z"
  generateSourceId kind value _ := kind ++ ":" ++ value
  routeOutput _ _ _ content := content

def sampleWorld (repoRoot : String) (worktreeId : Option String) : World Unit Unit where
  files := []
  sessions :=
    { metas := [⟨"s", repoRoot, "2026-01-01T00:00:00Z", none⟩], events := [], sequence := 0, decisions := () }
  origins := [⟨"s", "cli", worktreeId, "2026-01-01T00:00:00Z"⟩]
  content := ()

def sampleBridgeEvents : List BridgeEvent :=
  [⟨"COMMAND_RUN", 2, "\x7b\"command\":\"atlas build\"\x7d", "2026-01-01T00:00:00Z"⟩]

private theorem sampleWorld_stored (repoRoot : String) (worktreeId : Option String) :
    Stored (sampleWorld repoRoot worktreeId).sessions := by
  refine ⟨⟨?_, List.nodup_nil⟩, ?_⟩
  all_goals
    intro row mem
    cases mem

theorem sampleWorld_detour_faithful : DetourFaithful sampleSetting 1767312000000000000 1767312000
    ".atlas/bridge" "s" "cli" sampleBridgeEvents (sampleWorld "" none) := by
  refine (detour_faithful_iff (lawful_of_envelopeOfText rfl) (sampleWorld_stored "" none) ?_).mpr ?_
  · intro event mem
    rw [List.mem_singleton.mp mem]
    decide +kernel
  · refine ⟨by decide, by decide, ?_, ?_⟩
    · intro repoRoot known
      cases known
      exact ⟨rfl, rfl⟩
    · intro unknown
      cases unknown

/-- The root and the worktree of a session are lost, and a frontend name with a fence makes the file
unreadable. -/
theorem sampleWorld_detour_unfaithful : ¬ DetourFaithful sampleSetting 1767312000000000000
    1767312000 ".atlas/bridge" "s" "cli" sampleBridgeEvents (sampleWorld "/repo" (some "wt")) ∧
      ¬ DetourFaithful sampleSetting 1767312000000000000 1767312000 ".atlas/bridge" "s" "```json\n"
        sampleBridgeEvents (sampleWorld "" none) := by
  constructor
  · intro faithful
    have kept := (faithful.root "/repo" rfl).1
    rw [rootOf_detour faithful.parses] at kept
    exact absurd kept (by decide)
  · intro faithful
    exact parse_fenced (lawful_of_envelopeOfText rfl) (.inr (by decide)) faithful.parses

end Atlas.Hooks
