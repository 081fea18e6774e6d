import Atlas.Session.Ledger

/-! Over any run of appends, to any number of sessions, each session holds the greatest
of its accepted events, and an append is refused exactly for an equal stored event. -/
namespace Atlas.Session
open List Sql
open Core (OffsetDateTime formatRfc3339)
open Store (AtlasError)
open Program (Greatest least least_split)

variable {sessionId : SessionId} {events : List SessionEventRow} {row : SessionEventRow}

section
variable {Decisions : Type} {sha256 : String → String} {config : SessionStoreConfig}

theorem mem_sessionEvents :
    row ∈ sessionEvents sessionId events ↔ row ∈ events ∧ row.sessionId = sessionId := by
  simp [sessionEvents]

theorem eq_of_same_id (distinct : (events.map (·.id)).Nodup) {left right : SessionEventRow}
    (leftIn : left ∈ events) (rightIn : right ∈ events) (same : left.id = right.id) :
    left = right :=
  inj_on_of_nodup_map distinct leftIn rightIn same

theorem ids_nodup_sessionEvents (sessionId : SessionId) (distinct : (events.map (·.id)).Nodup) :
    ((sessionEvents sessionId events).map (·.id)).Nodup := distinct.sublist (filter_sublist.map _)

theorem ranks_nodup (distinct : (events.map (·.id)).Nodup) :
    (events.map SessionEventRow.rank).Nodup := by
  have ids : (events.map SessionEventRow.rank).map (fun rank => (ofLex (ofLex rank).2).2) = events.map (·.id) := by
    rw [map_map]
    rfl
  rw [← ids] at distinct
  exact distinct.of_map _

def evictedRows (sessionId : SessionId) (limit : Nat) (events : List SessionEventRow) :
    List SessionEventRow :=
  least SessionEventRow.rank ((sessionEvents sessionId events).length - limit) (sessionEvents sessionId events)

theorem enforceEventLimit_events (sessionId : SessionId)
    (limit : Nat) (events : List SessionEventRow) :
    (enforceEventLimit sessionId limit events).2 = events.filter fun row =>
      !decide (row.id ∈ (evictedRows sessionId limit events).map (·.id)) := by
  unfold enforceEventLimit evictedRows
  by_cases fits : (sessionEvents sessionId events).length ≤ limit
  · have none : (sessionEvents sessionId events).length - limit = 0 := by omega
    simp [fits, none, least]
  · simp [fits, deleteWhere]

theorem sessionEvents_filter (sessionId : SessionId)
    (keeps : SessionEventRow → Bool) (events : List SessionEventRow) :
    sessionEvents sessionId (events.filter keeps) = (sessionEvents sessionId events).filter keeps := by
  unfold sessionEvents
  rw [filter_filter, filter_filter]
  apply filter_congr
  intro row _
  exact Bool.and_comm _ _

theorem mem_of_mem_evictedRows {limit : Nat} (evicted : row ∈ evictedRows sessionId limit events) :
    row ∈ sessionEvents sessionId events := (mem_insertionSort _).mp (mem_of_mem_take evicted)

theorem sessionEvents_enforceEventLimit_other {other : SessionId}
    (limit : Nat) (distinct : (events.map (·.id)).Nodup) (apart : other ≠ sessionId) :
    sessionEvents other (enforceEventLimit sessionId limit events).2 = sessionEvents other events := by
  rw [enforceEventLimit_events, sessionEvents_filter, filter_eq_self]
  intro row mem
  obtain ⟨stored, owner⟩ := mem_sessionEvents.mp mem
  rw [Bool.not_eq_true', decide_eq_false_iff_not]
  intro chosen
  obtain ⟨victim, evicted, same⟩ := mem_map.mp chosen
  obtain ⟨victimStored, victimOwner⟩ := mem_sessionEvents.mp (mem_of_mem_evictedRows evicted)
  have equal := eq_of_same_id distinct victimStored stored same
  apply apart
  rw [← owner, ← equal, victimOwner]

theorem evictedRows_append_perm (sessionId : SessionId)
    (limit : Nat) (distinct : (events.map (·.id)).Nodup) :
    (evictedRows sessionId limit events ++ sessionEvents sessionId
      (enforceEventLimit sessionId limit events).2).Perm (sessionEvents sessionId events) := by
  have current := ids_nodup_sessionEvents sessionId distinct
  obtain ⟨rest, cut, -, -⟩ : ∃ rest, (evictedRows sessionId limit events ++ rest).Perm
    (sessionEvents sessionId events) ∧ _ := least_split SessionEventRow.rank _ (ranks_nodup current)
  have ids := (cut.map (·.id)).nodup_iff.mpr current
  rw [map_append, nodup_append] at ids
  rw [enforceEventLimit_events, sessionEvents_filter]
  generalize evictedRows sessionId limit events = victims at *
  have gone : (victims.filter fun row => !decide (row.id ∈ victims.map (·.id))) = [] := by
    rw [filter_eq_nil_iff]
    intro row mem
    simp [mem_map_of_mem mem]
  have stay : (rest.filter fun row => !decide (row.id ∈ victims.map (·.id))) = rest := by
    rw [filter_eq_self]
    intro row mem
    rw [Bool.not_eq_true', decide_eq_false_iff_not]
    intro chosen
    exact ids.2.2 row.id chosen row.id (mem_map_of_mem mem) rfl
  have same := cut.filter fun row => !decide (row.id ∈ victims.map (·.id))
  rw [filter_append, gone, stay, nil_append] at same
  exact (same.symm.append_left victims).trans cut

def StoresEqual (surroundings : Surroundings Decisions)
    (event : NewSessionEvent) (store : SessionStore Decisions) : Prop :=
  ∃ row ∈ store.events, row.sessionId = event.sessionId ∧ row.eventType = event.eventType ∧
    row.priority = event.priority ∧ row.payloadJson = payloadText surroundings store event

structure WellFormed (sha256 : String → String)
    (config : SessionStoreConfig) (events : List SessionEventRow) : Prop where
  fits : ∀ row ∈ events, row.payloadJson.utf8ByteSize ≤ config.maxInlinePayloadBytes
  hashed : ∀ row ∈ events, row.eventHash = hashEvent sha256 row.eventType row.priority row.payloadJson

theorem ensurePayloadFits_eq_ok {payloadJson : String} :
    ensurePayloadFits config payloadJson = .ok () ↔
      payloadJson.utf8ByteSize ≤ config.maxInlinePayloadBytes := by
  unfold ensurePayloadFits
  split <;> simp <;> omega

theorem hasKey_iff_storesEqual (collisionFree : Function.Injective sha256)
    {surroundings : Surroundings Decisions} {event : NewSessionEvent}
    {store : SessionStore Decisions} (formed : WellFormed sha256 config store.events) :
    hasKey SessionEventRow.uniqueKey (offeredRow sha256 surroundings store event).uniqueKey
      store.events = true ↔ StoresEqual surroundings event store := by
  rw [hasKey_iff]
  constructor
  · rintro ⟨row, mem, same⟩
    have keys := Prod.ext_iff.mp same
    have hashes : hashEvent sha256 row.eventType row.priority row.payloadJson =
      hashEvent sha256 event.eventType event.priority (payloadText surroundings store event) := by
      rw [← formed.hashed row mem]
      exact keys.2
    obtain ⟨types, priorities, payloads⟩ := (hashEvent_eq_iff collisionFree).mp hashes
    exact ⟨row, mem, keys.1, types, priorities, payloads⟩
  · rintro ⟨row, mem, session, types, priorities, payloads⟩
    refine ⟨row, mem, ?_⟩
    rw [SessionEventRow.uniqueKey, formed.hashed row mem, session, types, priorities, payloads]
    rfl

theorem hasKey_of_recentEvents {surroundings : Surroundings Decisions}
    (recent : 0 < (recentEvents config surroundings row events).length) :
    hasKey SessionEventRow.uniqueKey row.uniqueKey events = true := by
  obtain ⟨stored, mem⟩ := exists_mem_of_length_pos recent
  unfold recentEvents at mem
  rw [mem_filter] at mem
  obtain ⟨session, -, -, -, hash⟩ := of_decide_eq_true mem.2
  rw [hasKey_iff]
  exact ⟨stored, mem.1, Prod.ext session hash⟩

theorem insertEvent_eq (surroundings : Surroundings Decisions)
    (row : SessionEventRow) (store : SessionStore Decisions) :
    ∃ found metas decisions, insertEvent config surroundings row store = (.inserted row found,
        { metas
          events := (enforceEventLimit row.sessionId config.maxEventsPerSession
            (store.events ++ [row])).2
          sequence := row.id
          decisions }) := ⟨_, _, _, rfl⟩

theorem appendOutcome_cases (sha256 : String → String) (config : SessionStoreConfig) (surroundings :
    Surroundings Decisions) (event : NewSessionEvent) (store : SessionStore Decisions) :
    (∃ error, appendOutcome sha256 config surroundings event store = (.error error, store) ∧
      (config.maxInlinePayloadBytes < (payloadText surroundings store event).utf8ByteSize ∨
        hasKey SessionEventRow.uniqueKey (offeredRow sha256 surroundings store event).uniqueKey store.events = false)) ∨
    (∃ metas, appendOutcome sha256 config surroundings event store = (.ok .duplicate, { store with metas }) ∧
      hasKey SessionEventRow.uniqueKey (offeredRow sha256 surroundings store event).uniqueKey store.events = true) ∨
    (∃ found metas decisions, appendOutcome sha256 config surroundings event store =
      (.ok (.inserted (offeredRow sha256 surroundings store event) found),
          { metas
            events := (enforceEventLimit event.sessionId config.maxEventsPerSession
              (store.events ++ [offeredRow sha256 surroundings store event])).2
            sequence := (offeredRow sha256 surroundings store event).id
            decisions }) ∧
      (payloadText surroundings store event).utf8ByteSize ≤ config.maxInlinePayloadBytes ∧
      hasKey SessionEventRow.uniqueKey (offeredRow sha256 surroundings store event).uniqueKey store.events = false) := by
  have text : (offeredRow sha256 surroundings store event).payloadJson = payloadText surroundings store event := rfl
  unfold appendOutcome
  cases checked : ensurePayloadFits config (offeredRow sha256 surroundings store event).payloadJson with
  | error error =>
    left
    have large : ¬ (payloadText surroundings store event).utf8ByteSize ≤ config.maxInlinePayloadBytes := by
      rw [← text, ← ensurePayloadFits_eq_ok, checked]
      simp
    exact ⟨error, by simp only [checked], .inl (by omega)⟩
  | ok _ =>
    have small := ensurePayloadFits_eq_ok.mp checked
    rw [text] at small
    simp only [checked]
    by_cases recent : 0 < config.dedupWindowSecs ∧ 0 < (recentEvents config surroundings
      (offeredRow sha256 surroundings store event) store.events).length
    · right; left
      exact ⟨store.metas, by simp [recent], hasKey_of_recentEvents recent.2⟩
    · rw [if_neg recent]
      cases known : hasKey SessionEventRow.uniqueKey (offeredRow sha256 surroundings store event).uniqueKey store.events with
      | true =>
        right; left
        exact ⟨_, by rw [if_pos rfl], rfl⟩
      | false =>
        by_cases orphan : (getSessionMeta store (offeredRow sha256 surroundings store event).sessionId).isNone = true
        · left
          exact ⟨.db "FOREIGN KEY constraint failed", by simp [orphan], .inr rfl⟩
        · right; right
          obtain ⟨found, metas, decisions, ended⟩ :=
            @insertEvent_eq _ config surroundings (offeredRow sha256 surroundings store event) store
          refine ⟨found, metas, decisions, ?_, small, rfl⟩
          simp only [Bool.false_eq_true, if_false, if_neg orphan, ended]
          rfl

structure Ledger (Decisions : Type) where
  store : SessionStore Decisions
  accepted : List SessionEventRow

structure AppendCall (Decisions : Type) where
  surroundings : Surroundings Decisions
  event : NewSessionEvent

def Ledger.append (sha256 : String → String) (config : SessionStoreConfig)
    (ledger : Ledger Decisions) (call : AppendCall Decisions) : Ledger Decisions :=
  let (outcome, store) := appendOutcome sha256 config call.surroundings call.event ledger.store
  match outcome with
  | .ok (.inserted row _) => { store, accepted := row :: ledger.accepted }
  | _ => { store, accepted := ledger.accepted }

def Ledger.run (sha256 : String → String) (config : SessionStoreConfig)
    (calls : List (AppendCall Decisions)) (ledger : Ledger Decisions) : Ledger Decisions :=
  calls.foldl (Ledger.append sha256 config) ledger

def Ledger.empty (metas : List SessionMeta) (sequence : Nat) (decisions : Decisions) :
    Ledger Decisions :=
  { store := { metas, events := [], sequence, decisions }, accepted := [] }

/-- Each session holds the greatest of the rows accepted for it, by rank. -/
structure Ledger.Retains (sha256 : String → String)
    (config : SessionStoreConfig) (ledger : Ledger Decisions) : Prop where
  formed : WellFormed sha256 config ledger.store.events
  numbered : ∀ row ∈ ledger.accepted, row.id ≤ ledger.store.sequence
  distinct : (ledger.accepted.map (·.id)).Nodup
  greatest : ∀ sessionId, Greatest SessionEventRow.rank config.maxEventsPerSession
    (sessionEvents sessionId ledger.accepted) (sessionEvents sessionId ledger.store.events)

namespace Ledger

variable {ledger : Ledger Decisions}

theorem Retains.accepted (retains : ledger.Retains sha256 config)
    (stored : row ∈ ledger.store.events) : row ∈ ledger.accepted := by
  have own : row ∈ sessionEvents row.sessionId ledger.store.events := mem_sessionEvents.mpr ⟨stored, rfl⟩
  exact (mem_sessionEvents.mp ((retains.greatest row.sessionId).mem own)).1

theorem Retains.storedDistinct (retains : ledger.Retains sha256 config) :
    (ledger.store.events.map (·.id)).Nodup := by
  have rowsNodup : ledger.store.events.Nodup := by
    rw [nodup_iff_count_le_one]
    intro row
    have counted : count row ledger.store.events =
      count row (sessionEvents row.sessionId ledger.store.events) := (count_filter (by simp)).symm
    obtain ⟨dropped, same, -⟩ := (retains.greatest row.sessionId).split
    have acceptedNodup : (sessionEvents row.sessionId ledger.accepted).Nodup := (retains.distinct.of_map _).filter _
    have kept := (nodup_append.mp (same.nodup_iff.mpr acceptedNodup)).1
    rw [counted]
    exact nodup_iff_count_le_one.mp kept row
  apply rowsNodup.map_on
  intro left leftIn right rightIn same
  exact eq_of_same_id retains.distinct (retains.accepted leftIn) (retains.accepted rightIn) same

theorem Retains.empty (metas : List SessionMeta) (sequence : Nat) (decisions : Decisions) :
    (Ledger.empty metas sequence decisions).Retains sha256 config where
  formed := ⟨by simp [Ledger.empty], by simp [Ledger.empty]⟩
  numbered := by simp [Ledger.empty]
  distinct := nodup_nil
  greatest := fun _ => Greatest.nil _

section
variable (retains : ledger.Retains sha256 config)
include retains

theorem Retains.insert (fresh : ledger.store.sequence < row.id)
    (fits : row.payloadJson.utf8ByteSize ≤ config.maxInlinePayloadBytes)
    (hashed : row.eventHash = hashEvent sha256 row.eventType row.priority row.payloadJson)
    (metas : List SessionMeta) (decisions : Decisions) :
    Retains sha256 config
      { store :=
          { metas
            events := (enforceEventLimit row.sessionId config.maxEventsPerSession
              (ledger.store.events ++ [row])).2
            sequence := row.id
            decisions }
        accepted := row :: ledger.accepted } := by
  have unused : ∀ stored ∈ ledger.accepted, stored.id ≠ row.id := by
    intro stored mem same
    have := retains.numbered stored mem
    omega
  have storedIds : ((ledger.store.events ++ [row]).map (·.id)).Nodup := by
    rw [map_append, nodup_append]
    refine ⟨retains.storedDistinct, by simp, ?_⟩
    intro left leftIn right rightIn
    obtain ⟨stored, mem, rfl⟩ := mem_map.mp leftIn
    obtain rfl : right = row.id := by simpa using rightIn
    exact unused stored (retains.accepted mem)
  have stays : ∀ stored ∈ (enforceEventLimit row.sessionId config.maxEventsPerSession
    (ledger.store.events ++ [row])).2, stored ∈ ledger.store.events ∨ stored = row := by
    intro stored mem
    rw [enforceEventLimit_events] at mem
    simpa using (mem_filter.mp mem).1
  constructor
  case formed =>
    constructor
    · intro stored mem
      rcases stays stored mem with old | rfl
      · exact retains.formed.fits stored old
      · exact fits
    · intro stored mem
      rcases stays stored mem with old | rfl
      · exact retains.formed.hashed stored old
      · exact hashed
  case numbered =>
    intro stored mem
    rcases mem_cons.mp mem with rfl | old
    · exact le_rfl
    · exact Nat.le_of_lt (Nat.lt_of_le_of_lt (retains.numbered stored old) fresh)
  case distinct =>
    rw [map_cons, nodup_cons]
    refine ⟨?_, retains.distinct⟩
    intro taken
    obtain ⟨stored, mem, same⟩ := mem_map.mp taken
    exact unused stored mem same
  case greatest =>
    intro sessionId
    by_cases own : sessionId = row.sessionId
    · subst own
      have grown : (sessionEvents row.sessionId (ledger.store.events ++ [row])).Perm
        (row :: sessionEvents row.sessionId ledger.store.events) := by
        simp [sessionEvents, filter_append]
      have ownIds := ids_nodup_sessionEvents row.sessionId storedIds
      have whole : sessionEvents row.sessionId (row :: ledger.accepted) =
        row :: sessionEvents row.sessionId ledger.accepted := by simp [sessionEvents]
      rw [whole]
      exact (retains.greatest row.sessionId).insert grown (ranks_nodup ownIds)
        (evictedRows_append_perm row.sessionId config.maxEventsPerSession storedIds)
    · have rows : sessionEvents sessionId (ledger.store.events ++ [row]) = sessionEvents sessionId ledger.store.events := by
        simp [sessionEvents, filter_append, Ne.symm own]
      have whole : sessionEvents sessionId (row :: ledger.accepted) =
        sessionEvents sessionId ledger.accepted := by simp [sessionEvents, Ne.symm own]
      rw [whole, sessionEvents_enforceEventLimit_other _ storedIds own, rows]
      exact retains.greatest sessionId

theorem Retains.append (call : AppendCall Decisions) :
    (ledger.append sha256 config call).Retains sha256 config := by
  unfold Ledger.append
  rcases appendOutcome_cases sha256 config call.surroundings call.event ledger.store with ⟨error,
    ended, -⟩ | ⟨metas, ended, -⟩ | ⟨found, metas, decisions, ended, fits, -⟩
  · rw [ended]
    exact retains
  · rw [ended]
    exact ⟨retains.formed, retains.numbered, retains.distinct, retains.greatest⟩
  · rw [ended]
    have fresh : ledger.store.sequence < (offeredRow sha256 call.surroundings ledger.store call.event).id := by
      show ledger.store.sequence < ledger.store.sequence + 1 + call.surroundings.skippedIds
      omega
    exact retains.insert fresh fits rfl metas decisions

theorem Retains.run (calls : List (AppendCall Decisions)) :
    (ledger.run sha256 config calls).Retains sha256 config := by
  induction calls generalizing ledger with
  | nil => exact retains
  | cons call rest ih => exact ih (retains.append call)

theorem Retains.duplicate_iff (collisionFree : Function.Injective sha256)
    (call : AppendCall Decisions) :
    (appendOutcome sha256 config call.surroundings call.event ledger.store).1 = .ok .duplicate ↔
      StoresEqual call.surroundings call.event ledger.store := by
  rw [← hasKey_iff_storesEqual collisionFree retains.formed]
  rcases appendOutcome_cases sha256 config call.surroundings call.event ledger.store with ⟨error,
    ended, why⟩ | ⟨metas, ended, known⟩ | ⟨found, metas, decisions, ended, -, new⟩
  · rw [ended]
    rcases why with large | new
    · -- A stored event fits, so an event that does not fit is not stored.
      constructor
      · intro wrong
        cases wrong
      · intro known
        obtain ⟨row, mem, -, -, -, payload⟩ := (hasKey_iff_storesEqual collisionFree retains.formed).mp known
        have := retains.formed.fits row mem
        rw [payload] at this
        omega
    · simp [new]
  · simp [ended, known]
  · simp [ended, new]

end

structure Keeps (sha256 : String → String)
    (config : SessionStoreConfig) (ledger : Ledger Decisions) : Prop where
  bounded : ∀ sessionId, (sessionEvents sessionId ledger.store.events).length ≤ config.maxEventsPerSession
  greatest : ∀ sessionId, Greatest SessionEventRow.rank config.maxEventsPerSession
    (sessionEvents sessionId ledger.accepted) (sessionEvents sessionId ledger.store.events)
  refuses : ∀ call : AppendCall Decisions, (appendOutcome sha256 config call.surroundings call.event
    ledger.store).1 = .ok .duplicate ↔ StoresEqual call.surroundings call.event ledger.store

/-- Every run of appends on an empty ledger, whatever the times and the window are. -/
theorem run_keeps {sha256 : String → String} (collisionFree : Function.Injective sha256)
    (config : SessionStoreConfig) (metas : List SessionMeta) (sequence : Nat)
    (decisions : Decisions) (calls : List (AppendCall Decisions)) :
    ((Ledger.empty metas sequence decisions).run sha256 config calls).Keeps sha256 config := by
  have retains := (@Retains.empty _ sha256 config metas sequence decisions).run calls
  constructor
  case bounded =>
    intro sessionId
    rw [(retains.greatest sessionId).length]
    exact Nat.min_le_left _ _
  case greatest => exact retains.greatest
  case refuses => exact retains.duplicate_iff collisionFree

end Ledger

end

def sampleDigest : String → String := Equiv.swap "COMMAND_RUN\x002\x00\x7b\"command\":\"build\"\x7d"
    "dde5d50a2b5504674d3882c2f1a607f22144087cf4a379ee09ef048b5a2390e5"

def sampleCall (createdAt : String) : AppendCall Unit where
  surroundings :=
    { clock := fun _ => Core.sampleInstant 0 Core.zeroNanoseconds
      secondsBefore := fun ts _ => ts
      fromCliArgument := fun _ path => some path
      skippedIds := 0
      upsertDecision := fun _ _ _ _ decisions => decisions }
  event :=
    { sessionId := "s"
      eventType := .commandRun
      priority := 2
      payload := .obj [("command", .str "build")]
      createdAt := some createdAt }

def sampleLedger : Ledger Unit := Ledger.empty [⟨"s", "/repo", "2026-01-01T00:00:00Z", none⟩] 0 ()

theorem sampleLedger_keeps :
    (sampleLedger.run sampleDigest {} [sampleCall "2026-01-01T00:00:00Z"]).Keeps sampleDigest {} :=
  Ledger.run_keeps (Equiv.injective _) {} _ 0 () [sampleCall "2026-01-01T00:00:00Z"]

/-- Without a window an equal event is refused a day later. -/
theorem sampleLedger_refuses :
    ({} : SessionStoreConfig).dedupWindowSecs = 0 ∧ (appendOutcome sampleDigest {}
      (sampleCall "2026-01-02T00:00:00Z").surroundings (sampleCall "2026-01-02T00:00:00Z").event
      (sampleLedger.run sampleDigest {} [sampleCall "2026-01-01T00:00:00Z"]).store).1 =
      .ok .duplicate := by
  refine ⟨rfl, ?_⟩
  decide +kernel

end Atlas.Session
