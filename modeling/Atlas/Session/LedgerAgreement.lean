import Atlas.Session.LedgerProperties

/-! Stores on which an append does the same to the events, and stores on which it does nothing. -/
namespace Atlas.Session
open List Sql
open Core (formatRfc3339)
open Program (least)

section
variable {Decisions : Type}

def rootOf (store : SessionStore Decisions) (sessionId : SessionId) : Option String :=
  (getSessionMeta store sessionId).map SessionMeta.repoRoot

/-- Two stores that an append to the session cannot tell apart. -/
structure SeesAlike (sessionId : SessionId) (left right : SessionStore Decisions) : Prop where
  events : left.events = right.events
  sequence : left.sequence = right.sequence
  root : rootOf left sessionId = rootOf right sessionId

variable {sha256 : String → String}
  {config : SessionStoreConfig} {surroundings : Surroundings Decisions}
  {event : NewSessionEvent} {store left right : SessionStore Decisions} {sessionId : SessionId}

theorem isNone_rootOf :
    (getSessionMeta store sessionId).isNone = (rootOf store sessionId).isNone := by
  unfold rootOf
  rw [Option.isNone_map]

theorem payloadText_of_root (root : rootOf left event.sessionId = rootOf right event.sessionId) :
    payloadText surroundings left event = payloadText surroundings right event := by
  unfold rootOf at root
  unfold payloadText
  cases inLeft : getSessionMeta left event.sessionId with
  | none =>
    rw [inLeft, Option.map_none, eq_comm, Option.map_eq_none_iff] at root
    rw [root]
  | some entry =>
    rw [inLeft, Option.map_some, eq_comm, Option.map_eq_some_iff] at root
    obtain ⟨entry', inRight, same⟩ := root
    rw [inRight]
    dsimp only
    rw [same]

theorem find?_metas_update (assign : SessionMeta → SessionMeta)
    (sessionIds : ∀ entry, (assign entry).sessionId = entry.sessionId)
    (roots : ∀ entry, (assign entry).repoRoot = entry.repoRoot) (sessionId other : SessionId)
    (metas : List SessionMeta) :
    ((updateWhere (fun entry => decide (entry.sessionId = other)) assign metas).find? fun entry =>
      decide (entry.sessionId = sessionId)).map SessionMeta.repoRoot =
      (metas.find? fun entry => decide (entry.sessionId = sessionId)).map SessionMeta.repoRoot := by
  rw [find?_updateWhere (fun entry => by rw [sessionIds]), Option.map_map]
  congr 1
  funext entry
  rw [Function.comp_apply]
  split
  · exact roots entry
  · rfl

theorem rootOf_touched (now : String)
    (other : SessionId) (events : List SessionEventRow) (sequence : Nat) (decisions : Decisions) :
    rootOf { metas := touchMeta other now store.metas, events, sequence, decisions } sessionId = rootOf store sessionId :=
  find?_metas_update (fun entry => { entry with updatedAt := now }) (fun _ => rfl) (fun _ => rfl) sessionId other store.metas

theorem rootOf_compacted (now later : String) (other : SessionId)
    (events : List SessionEventRow) (sequence : Nat) (decisions : Decisions) :
    rootOf { metas := compactMeta other later (touchMeta other now store.metas),
             events, sequence, decisions } sessionId = rootOf store sessionId := by
  have compacted := find?_metas_update
    (fun entry => { entry with updatedAt := later, lastCompactionAt := some later }) (fun _ => rfl)
    (fun _ => rfl) sessionId other (touchMeta other now store.metas)
  exact compacted.trans (rootOf_touched now other events sequence decisions)

theorem rootOf_insertEvent (row : SessionEventRow) (store : SessionStore Decisions) :
    rootOf (insertEvent config surroundings row store).2 sessionId = rootOf store sessionId := by
  unfold insertEvent
  dsimp only
  split
  · exact rootOf_compacted _ _ _ _ _ _
  · exact rootOf_touched _ _ _ _ _

theorem rootOf_appendOutcome (event : NewSessionEvent) (store : SessionStore Decisions) :
    rootOf (appendOutcome sha256 config surroundings event store).2 sessionId =
      rootOf store sessionId := by
  unfold appendOutcome
  dsimp only
  split
  · rfl
  · split
    · rfl
    split
    · exact rootOf_touched _ _ _ _ _
    split
    · rfl
    · exact rootOf_insertEvent _ store

theorem rootOf_appendEvent (event : NewSessionEvent) (store : SessionStore Decisions) :
    rootOf (appendEvent sha256 config surroundings event store).2 sessionId =
      rootOf store sessionId :=
  rootOf_appendOutcome event store

theorem SeesAlike.offeredRow_eq (alike : SeesAlike event.sessionId left right) :
    offeredRow sha256 surroundings left event = offeredRow sha256 surroundings right event := by
  unfold offeredRow
  rw [payloadText_of_root alike.root, alike.sequence]

theorem SeesAlike.append (alike : SeesAlike sessionId left right)
    (own : event.sessionId = sessionId) :
    SeesAlike sessionId (appendEvent sha256 config surroundings event left).2
      (appendEvent sha256 config surroundings event right).2 := by
  have roots : rootOf (appendEvent sha256 config surroundings event left).2 sessionId =
    rootOf (appendEvent sha256 config surroundings event right).2 sessionId := by
    rw [rootOf_appendEvent, rootOf_appendEvent]
    exact alike.root
  subst own
  have known := alike.root
  have tables : (appendEvent sha256 config surroundings event left).2.events =
    (appendEvent sha256 config surroundings event right).2.events ∧
      (appendEvent sha256 config surroundings event left).2.sequence =
        (appendEvent sha256 config surroundings event right).2.sequence := by
    unfold appendEvent appendOutcome
    simp only [isNone_rootOf, alike.offeredRow_eq, alike.events]
    have named : (offeredRow sha256 surroundings right event).sessionId = event.sessionId := rfl
    rw [named, known]
    split
    · exact ⟨alike.events, alike.sequence⟩
    · split
      · exact ⟨alike.events, alike.sequence⟩
      split
      · exact ⟨rfl, alike.sequence⟩
      split
      · exact ⟨alike.events, alike.sequence⟩
      · unfold insertEvent
        dsimp only
        rw [alike.events]
        exact ⟨rfl, rfl⟩
  exact ⟨tables.1, tables.2, roots⟩

theorem appendEvent_large
    (large : config.maxInlinePayloadBytes < (payloadText surroundings store event).utf8ByteSize) :
    (appendEvent sha256 config surroundings event store).2 = store := by
  have refused : ∃ error, ensurePayloadFits config (payloadText surroundings store event) = .error error := by
    unfold ensurePayloadFits
    rw [if_pos large]
    exact ⟨_, rfl⟩
  obtain ⟨error, refused⟩ := refused
  have text : (offeredRow sha256 surroundings store event).payloadJson = payloadText surroundings store event := rfl
  unfold appendEvent appendOutcome
  dsimp only
  rw [text, refused]

theorem hasKey_of_no_events (none : sessionEvents event.sessionId store.events = []) :
    hasKey SessionEventRow.uniqueKey (offeredRow sha256 surroundings store event).uniqueKey store.events = false := by
  rw [hasKey_eq_false_iff]
  intro row mem same
  have own : row.sessionId = event.sessionId := congrArg Prod.fst same
  have stored := mem_sessionEvents.mpr ⟨mem, own⟩
  rw [none] at stored
  cases stored

theorem appendEvent_unregistered (unknown : getSessionMeta store event.sessionId = none)
    (none : sessionEvents event.sessionId store.events = []) :
    (appendEvent sha256 config surroundings event store).2 = store := by
  have fresh : hasKey SessionEventRow.uniqueKey (offeredRow sha256 surroundings store
    event).uniqueKey store.events = false := hasKey_of_no_events none
  have orphan : (getSessionMeta store (offeredRow sha256 surroundings store event).sessionId).isNone = true := by
    show (getSessionMeta store event.sessionId).isNone = true
    rw [unknown]
    rfl
  unfold appendEvent appendOutcome
  dsimp only
  split
  · rfl
  split
  · rfl
  · simp only [fresh, Bool.false_eq_true, if_false]

theorem appendEvent_first (fits : (payloadText surroundings store event).utf8ByteSize ≤
    config.maxInlinePayloadBytes) (known : (getSessionMeta store event.sessionId).isSome = true)
    (none : sessionEvents event.sessionId store.events = []) :
    (appendEvent sha256 config surroundings event store).2.events = (enforceEventLimit event.sessionId config.maxEventsPerSession
        (store.events ++ [offeredRow sha256 surroundings store event])).2 := by
  have fresh : hasKey SessionEventRow.uniqueKey (offeredRow sha256 surroundings store
    event).uniqueKey store.events = false := hasKey_of_no_events none
  rcases appendOutcome_cases sha256 config surroundings event store with
    ⟨error, ended, why⟩ | ⟨metas, -, wrong⟩ | ⟨found, metas, decisions, ended, -, -⟩
  · exfalso
    rcases why with large | -
    · omega
    · unfold appendOutcome at ended
      have small : ensurePayloadFits config (offeredRow sha256 surroundings store
        event).payloadJson = .ok () := ensurePayloadFits_eq_ok.mpr fits
      have named : (offeredRow sha256 surroundings store event).sessionId = event.sessionId := rfl
      rw [← Option.not_isNone, Bool.not_eq_true'] at known
      simp only [small, fresh, named, known] at ended
      split at ended
      all_goals cases congrArg Prod.fst ended
  · rw [fresh] at wrong
    cases wrong
  · unfold appendEvent
    rw [ended]

theorem sessionEvents_snoc (row : SessionEventRow) (events : List SessionEventRow) :
    sessionEvents row.sessionId (events ++ [row]) =
      sessionEvents row.sessionId events ++ [row] := by
  unfold sessionEvents
  rw [filter_append, filter_singleton, decide_eq_true rfl]
  rfl

theorem appendEvent_first_stays (pos : 0 < config.maxEventsPerSession)
    (fits : (payloadText surroundings store event).utf8ByteSize ≤ config.maxInlinePayloadBytes)
    (known : (getSessionMeta store event.sessionId).isSome = true)
    (none : sessionEvents event.sessionId store.events = []) :
    sessionEvents event.sessionId (appendEvent sha256 config surroundings event store).2.events ≠ [] := by
  have grown : sessionEvents event.sessionId (store.events ++ [offeredRow sha256 surroundings store
    event]) = [offeredRow sha256 surroundings store event] := by
    have snoc := sessionEvents_snoc (offeredRow sha256 surroundings store event) store.events
    have named : (offeredRow sha256 surroundings store event).sessionId = event.sessionId := rfl
    rw [named, none] at snoc
    exact snoc
  rw [appendEvent_first fits known none]
  unfold enforceEventLimit
  rw [grown, if_pos (by rw [length_singleton]; omega), grown]
  exact cons_ne_nil _ _

structure Numbered (store : SessionStore Decisions) : Prop where
  bounded : ∀ row ∈ store.events, row.id ≤ store.sequence
  distinct : (store.events.map (·.id)).Nodup

theorem Numbered.snoc (numbered : Numbered store)
    (sha256 : String → String) (surroundings : Surroundings Decisions) (event : NewSessionEvent) :
    ((store.events ++ [offeredRow sha256 surroundings store event]).map (·.id)).Nodup := by
  rw [map_append, nodup_append]
  refine ⟨numbered.distinct, nodup_singleton _, ?_⟩
  intro left leftIn right rightIn
  obtain ⟨stored, mem, rfl⟩ := mem_map.mp leftIn
  have fresh : right = store.sequence + 1 + surroundings.skippedIds := mem_singleton.mp rightIn
  have bound := numbered.bounded stored mem
  omega

theorem enforceEventLimit_sublist (sessionId : SessionId)
    (limit : Nat) (events : List SessionEventRow) :
    (enforceEventLimit sessionId limit events).2.Sublist events := by
  rw [enforceEventLimit_events]
  exact filter_sublist

theorem Numbered.append (numbered : Numbered store) (event : NewSessionEvent) :
    Numbered (appendEvent sha256 config surroundings event store).2 := by
  unfold appendEvent
  rcases appendOutcome_cases sha256 config surroundings event store with
    ⟨error, ended, -⟩ | ⟨metas, ended, -⟩ | ⟨found, metas, decisions, ended, -, -⟩
  · rw [ended]
    exact numbered
  · rw [ended]
    exact ⟨numbered.bounded, numbered.distinct⟩
  · rw [ended]
    have stays := enforceEventLimit_sublist event.sessionId config.maxEventsPerSession
      (store.events ++ [offeredRow sha256 surroundings store event])
    constructor
    · intro row mem
      have newId : (offeredRow sha256 surroundings store event).id = store.sequence + 1 + surroundings.skippedIds := rfl
      show row.id ≤ (offeredRow sha256 surroundings store event).id
      rcases mem_append.mp (stays.subset mem) with old | new
      · have bound := numbered.bounded row old
        omega
      · rw [mem_singleton.mp new]
    · exact (numbered.snoc sha256 surroundings event).sublist (stays.map _)

theorem length_enforceEventLimit (sessionId : SessionId)
    (limit : Nat) {events : List SessionEventRow} (nodup : (events.map (·.id)).Nodup) :
    (sessionEvents sessionId (enforceEventLimit sessionId limit events).2).length =
      min limit (sessionEvents sessionId events).length := by
  have split := (evictedRows_append_perm sessionId limit nodup).length_eq
  have evicted : (evictedRows sessionId limit events).length = min
    ((sessionEvents sessionId events).length - limit) (sessionEvents sessionId events).length := by
    unfold evictedRows least
    rw [length_take, length_insertionSort]
  rw [length_append] at split
  omega

theorem appendEvent_ne_nil (numbered : Numbered store) (pos : 0 < config.maxEventsPerSession)
    (some_ : sessionEvents event.sessionId store.events ≠ []) :
    sessionEvents event.sessionId (appendEvent sha256 config surroundings event store).2.events ≠ [] := by
  unfold appendEvent
  rcases appendOutcome_cases sha256 config surroundings event store with
    ⟨error, ended, -⟩ | ⟨metas, ended, -⟩ | ⟨found, metas, decisions, ended, -, -⟩
  · rw [ended]
    exact some_
  · rw [ended]
    exact some_
  · rw [ended]
    have kept := length_enforceEventLimit event.sessionId config.maxEventsPerSession (numbered.snoc sha256 surroundings event)
    have snoc := sessionEvents_snoc (offeredRow sha256 surroundings store event) store.events
    have named : (offeredRow sha256 surroundings store event).sessionId = event.sessionId := rfl
    rw [named] at snoc
    rw [snoc, length_append, length_singleton] at kept
    intro empty
    rw [empty, length_nil] at kept
    omega

theorem appendEvent_limit_zero (numbered : Numbered store) (zero : config.maxEventsPerSession = 0)
    (none : sessionEvents event.sessionId store.events = []) :
    sessionEvents event.sessionId (appendEvent sha256 config surroundings event store).2.events = [] := by
  unfold appendEvent
  rcases appendOutcome_cases sha256 config surroundings event store with
    ⟨error, ended, -⟩ | ⟨metas, ended, -⟩ | ⟨found, metas, decisions, ended, -, -⟩
  · rw [ended]
    exact none
  · rw [ended]
    exact none
  · rw [ended]
    have kept := length_enforceEventLimit event.sessionId config.maxEventsPerSession (numbered.snoc sha256 surroundings event)
    rw [zero, Nat.zero_min] at kept
    rw [zero]
    exact length_eq_zero_iff.mp kept

end
end Atlas.Session
