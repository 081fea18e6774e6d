import Atlas.Session.Curation

/-! The global memory of a repository: how often its files and symbols were used. -/
namespace Atlas.Session
open List Function
open Core (Json)
open Sql (insertOrUpdate updateWhere)

structure GlobalAccessEntry where
  (id repoRoot value : String)
  accessCount : Nat
  (lastAccessed firstAccessed : String)

structure GlobalWorkflowPattern where
  (id repoRoot patternJson : String)
  occurrenceCount : Nat
  (lastSeen firstSeen : String)

structure GlobalMemory where
  symbols : List GlobalAccessEntry := []
  files : List GlobalAccessEntry := []
  workflows : List GlobalWorkflowPattern := []

section
variable (sha256 : String → String) (fromStr : String → Option Json)

def makeId (parts : List String) : String := sha256 (String.join (parts.map (· ++ ":")))

def upsertAccess (repoRoot now : String) (entries : List GlobalAccessEntry) (value : String) :
    List GlobalAccessEntry :=
  insertOrUpdate (·.id) (fun entry => { entry with accessCount := entry.accessCount + 1, lastAccessed := now })
    { id := makeId sha256 [repoRoot, value], repoRoot, value, accessCount := 1, lastAccessed := now
      firstAccessed := now } entries

def workflowWindow : Nat := 3
def slidingWindows {Item : Type} (size : Nat) (items : List Item) : List (List Item) :=
  (range (items.length + 1 - size)).map fun start => (items.drop start).take size

def upsertWorkflowPattern (repoRoot now : String)
    (patterns : List GlobalWorkflowPattern) (pattern : List String) : List GlobalWorkflowPattern :=
  let patternJson := String.ofList (Text.print Text.compact 0 (.arr (pattern.map Json.str)))
  insertOrUpdate (·.id) (fun entry => { entry with occurrenceCount := entry.occurrenceCount + 1, lastSeen := now })
    { id := makeId sha256 [repoRoot, patternJson], repoRoot, patternJson, occurrenceCount := 1
      lastSeen := now, firstSeen := now } patterns

def mentionOf (types : List SessionEventType) (keys : List String) (row : SessionEventRow) :
    Option String :=
  if row.eventType ∈ types then (extractStrField fromStr row.payloadJson keys).filter (· ≠ "") else none

def symbolOf : SessionEventRow → Option String :=
  mentionOf fromStr [.contextRequest] ["name", "symbol", "target"]
def fileOf : SessionEventRow → Option String :=
  mentionOf fromStr [.fileRead, .fileWrite] ["path", "file_path", "file"]
def commandOf : SessionEventRow → Option String := mentionOf fromStr [.commandRun] ["command"]

def updateGlobalMemoryFromEvents (repoRoot : String)
    (events : List SessionEventRow) (now : String) (memory : GlobalMemory) : GlobalMemory :=
  { symbols := (events.filterMap (symbolOf fromStr)).foldl (upsertAccess sha256 repoRoot now) memory.symbols
    files := (events.filterMap (fileOf fromStr)).foldl (upsertAccess sha256 repoRoot now) memory.files
    workflows := (slidingWindows workflowWindow (events.filterMap (commandOf fromStr))).foldl
      (upsertWorkflowPattern sha256 repoRoot now) memory.workflows }

def compactSession {Decisions : Type} (sorting : Sorting) (sessionId : SessionId)
    (now : String) (store : SessionStore Decisions) (memory : GlobalMemory) :
    SessionStore Decisions × GlobalMemory :=
  let reached := (compactSessionEvents fromStr sorting sessionId now store).2
  match getSessionMeta reached sessionId with
  | some entry => (reached, updateGlobalMemoryFromEvents sha256 fromStr entry.repoRoot
      (listEvents sessionId store.events) now memory)
  | none => (reached, memory)

inductive MemoryCall (Decisions : Type) where
  | append (call : AppendCall Decisions)
  | compact (sorting : Sorting) (sessionId : SessionId) (now : String)
  | resume (sorting : Sorting) (sessionId : SessionId) (now : String)

structure Remembering (Decisions : Type) where
  ledger : Ledger Decisions
  memory : GlobalMemory
  counted : List Nat

variable {Decisions : Type}

def Remembering.compact (state : Remembering Decisions)
    (sorting : Sorting) (sessionId : SessionId) (now : String) : Remembering Decisions :=
  let (store, memory) := compactSession sha256 fromStr sorting sessionId now state.ledger.store state.memory
  { ledger := { state.ledger with store }, memory
    counted := state.counted ++ (listEvents sessionId state.ledger.store.events).map (·.id) }

def Remembering.step (config : SessionStoreConfig) (state : Remembering Decisions) :
    MemoryCall Decisions → Remembering Decisions
  | .append call => { state with ledger := state.ledger.append sha256 config call }
  | .compact sorting sessionId now => state.compact sha256 fromStr sorting sessionId now
  | .resume sorting sessionId now => state.compact sha256 fromStr sorting sessionId now

def Remembering.Uncounted (state : Remembering Decisions) : MemoryCall Decisions → Prop
  | .append _ => True
  | .compact _ sessionId _ | .resume _ sessionId _ =>
    ∀ row ∈ listEvents sessionId state.ledger.store.events, (fileOf fromStr row).isSome ∨
      (symbolOf fromStr row).isSome → row.id ∉ state.counted

/-- The runs that count no event twice, from an empty ledger and an empty memory. -/
inductive Reached (config : SessionStoreConfig) (metas : List SessionMeta)
    (sequence : Nat) (decisions : Decisions) : Remembering Decisions → Prop where
  | start : Reached config metas sequence decisions ⟨Ledger.empty metas sequence decisions, {}, []⟩
  | step {state : Remembering Decisions} (call : MemoryCall Decisions) (reached :
    Reached config metas sequence decisions state) (uncounted : state.Uncounted fromStr call) :
      Reached config metas sequence decisions (state.step sha256 fromStr config call)

def accesses (mention : SessionEventRow → Option String) (accepted : List SessionEventRow)
    (value : String) : Nat := (accepted.filter fun row => decide (mention row = some value)).length

end

section
variable {sha256 : String → String} {fromStr : String → Option Json} {repo : String}
  {entries : List GlobalAccessEntry} {bound : String → Nat}

def Bounded (sha256 : String → String)
    (repo : String) (bound : String → Nat) (entries : List GlobalAccessEntry) : Prop :=
  ∀ entry ∈ entries, entry.id = makeId sha256 [repo, entry.value] ∧ entry.accessCount ≤ bound entry.value

theorem makeId_inj (collisionFree : Injective sha256) {left right : String}
    (same : makeId sha256 [repo, left] = makeId sha256 [repo, right]) : left = right := by
  have texts := congrArg String.toList (collisionFree same)
  simp only [String.join, map_cons, map_nil, foldl_cons, foldl_nil, String.toList_append,
    append_cancel_left_eq, append_cancel_right_eq] at texts
  exact String.toList_inj.mp texts

theorem Bounded.upsert (collisionFree : Injective sha256)
    (bounded : Bounded sha256 repo bound entries)
    (now value : String) : Bounded sha256 repo (fun other => bound other + [value].count other)
      (upsertAccess sha256 repo now entries value) := by
  unfold upsertAccess insertOrUpdate
  intro entry mem
  split at mem
  · obtain ⟨old, wasIn, rfl⟩ := mem_map.mp mem
    obtain ⟨ownId, fits⟩ := bounded old wasIn
    by_cases own : old.id = makeId sha256 [repo, value]
    · have same := makeId_inj collisionFree (ownId.symm.trans own)
      rw [if_pos (decide_eq_true own)]
      refine ⟨ownId, ?_⟩
      change old.accessCount + 1 ≤ bound old.value + [value].count old.value
      rw [same, count_singleton_self, ← same]
      omega
    · rw [if_neg (by simpa using own)]
      exact ⟨ownId, fits.trans (Nat.le_add_right _ _)⟩
  · rcases mem_append.mp mem with old | new
    · exact ⟨(bounded entry old).1, (bounded entry old).2.trans (Nat.le_add_right _ _)⟩
    · obtain rfl := mem_singleton.mp new
      refine ⟨rfl, ?_⟩
      change 1 ≤ bound value + [value].count value
      rw [count_singleton_self]
      omega

theorem Bounded.upserts (collisionFree : Injective sha256)
    (bounded : Bounded sha256 repo bound entries)
    (now : String) (values : List String) : Bounded sha256 repo (fun other =>
      bound other + values.count other) (values.foldl (upsertAccess sha256 repo now) entries) := by
  induction values generalizing bound entries with
  | nil => simpa using bounded
  | cons value rest ih =>
    have next := ih (bounded.upsert collisionFree now value)
    have sums : (fun other => bound other + [value].count other + rest.count other) = fun other =>
      bound other + (value :: rest).count other := by
      funext other
      rw [Nat.add_assoc, ← count_append, singleton_append]
    exact sums ▸ next

def tallied (mention : SessionEventRow → Option String) (counted : List Nat)
    (accepted : List SessionEventRow) (value : String) : List SessionEventRow :=
  accepted.filter fun row => decide (row.id ∈ counted ∧ mention row = some value)

variable {mention : SessionEventRow → Option String}
  {counted : List Nat} {accepted : List SessionEventRow}

theorem mem_tallied {value : String} {row : SessionEventRow} :
    row ∈ tallied mention counted accepted value ↔
      row ∈ accepted ∧ row.id ∈ counted ∧ mention row = some value := by
  simp [tallied]

theorem tallied_grows
    {listed : List SessionEventRow} (distinct : (accepted.map (·.id)).Nodup)
    (listedDistinct : (listed.map (·.id)).Nodup)
    (origin : ∀ row ∈ listed, ∃ first ∈ accepted, first.id = row.id ∧ mention first = mention row)
    (uncounted : ∀ row ∈ listed, (mention row).isSome → row.id ∉ counted) (value : String) :
    (tallied mention counted accepted value).length + (listed.filterMap mention).count value ≤
      (tallied mention (counted ++ listed.map (·.id)) accepted value).length := by
  let old := (tallied mention counted accepted value).map (·.id)
  let new := (listed.filter fun row => decide (mention row = some value)).map (·.id)
  have apart : (old ++ new).Nodup := by
    refine nodup_append.mpr ⟨distinct.sublist (filter_sublist.map _), listedDistinct.sublist (filter_sublist.map _), ?_⟩
    rintro _ inOld _ inNew rfl
    obtain ⟨row, isOld, rfl⟩ := mem_map.mp inOld
    obtain ⟨other, fresh, same⟩ := mem_map.mp inNew
    obtain ⟨isListed, mentions⟩ := mem_filter.mp fresh
    have none := uncounted other isListed (by rw [of_decide_eq_true mentions]; rfl)
    exact none (same ▸ (mem_tallied.mp isOld).2.1)
  have within : old ++ new ⊆ (tallied mention (counted ++ listed.map (·.id)) accepted value).map (·.id) := by
    intro id mem
    rcases mem_append.mp mem with inOld | inNew
    · obtain ⟨row, isOld, rfl⟩ := mem_map.mp inOld
      obtain ⟨isAccepted, wasCounted, mentions⟩ := mem_tallied.mp isOld
      exact mem_map_of_mem (mem_tallied.mpr ⟨isAccepted, mem_append_left _ wasCounted, mentions⟩)
    · obtain ⟨row, fresh, rfl⟩ := mem_map.mp inNew
      obtain ⟨isListed, mentions⟩ := mem_filter.mp fresh
      obtain ⟨first, isAccepted, sameId, sameMention⟩ := origin row isListed
      refine mem_map.mpr ⟨first, mem_tallied.mpr ⟨isAccepted, ?_, ?_⟩, sameId⟩
      · exact mem_append_right _ (sameId ▸ mem_map_of_mem isListed)
      · exact sameMention.trans (of_decide_eq_true mentions)
  have size := (subperm_of_subset apart within).length_le
  have counts : (listed.filterMap mention).count value = (listed.filter fun row => decide (mention row = some value)).length := by
    rw [count_filterMap, ← countP_eq_length_filter]
    refine countP_congr fun row _ => ?_
    simp
  rw [length_append, length_map, length_map, length_map] at size
  rw [counts]
  exact size

variable {Decisions : Type} {config : SessionStoreConfig} {state : Remembering Decisions}

theorem repos_compactMeta (sessionId : SessionId) (now : String) (metas : List SessionMeta) :
    (compactMeta sessionId now metas).map (·.repoRoot) = metas.map (·.repoRoot) :=
  Sql.map_updateWhere (by intro entry; rfl) metas

theorem appendOutcome_repos (call : AppendCall Decisions) (store : SessionStore Decisions) :
    (appendOutcome sha256 config call.surroundings call.event store).2.metas.map (·.repoRoot) = store.metas.map (·.repoRoot) := by
  have touched : ∀ sessionId now metas, (touchMeta sessionId now metas).map (·.repoRoot) = metas.map
    (·.repoRoot) := fun sessionId now metas => Sql.map_updateWhere (by intro entry; rfl) metas
  unfold appendOutcome
  dsimp only
  split
  · rfl
  · split
    · rfl
    · split
      · exact touched _ _ _
      · split
        · rfl
        · unfold insertEvent
          dsimp only
          split
          · exact (repos_compactMeta _ _ _).trans (touched _ _ _)
          · exact touched _ _ _

structure Accounted (sha256 : String → String)
    (fromStr : String → Option Json) (repo : String) (state : Remembering Decisions) : Prop where
  numbered : ∀ row ∈ state.ledger.accepted, row.id ≤ state.ledger.store.sequence
  distinct : (state.ledger.accepted.map (·.id)).Nodup
  stored : (state.ledger.store.events.map (·.id)).Nodup
  origin : ∀ row ∈ state.ledger.store.events, ∃ first ∈ state.ledger.accepted, ∃ priority, row = { first with priority }
  repos : ∀ root ∈ state.ledger.store.metas.map (·.repoRoot), root = repo
  files : Bounded sha256 repo (fun value =>
    (tallied (fileOf fromStr) state.counted state.ledger.accepted value).length) state.memory.files
  symbols : Bounded sha256 repo (fun value => (tallied (symbolOf fromStr) state.counted
    state.ledger.accepted value).length) state.memory.symbols

theorem Bounded.mono (bounded : Bounded sha256 repo bound entries) {wider : String → Nat}
    (le : ∀ value, bound value ≤ wider value) : Bounded sha256 repo wider entries :=
  fun entry mem => ⟨(bounded entry mem).1, (bounded entry mem).2.trans (le _)⟩

theorem Accounted.append (accounted : Accounted sha256 fromStr repo state)
    (call : AppendCall Decisions) :
    Accounted sha256 fromStr repo { state with ledger := state.ledger.append sha256 config call } := by
  have repos :
    (appendOutcome sha256 config call.surroundings call.event state.ledger.store).2.metas.map
    (·.repoRoot) = state.ledger.store.metas.map (·.repoRoot) := appendOutcome_repos call _
  unfold Ledger.append
  rcases appendOutcome_cases sha256 config call.surroundings call.event state.ledger.store with
    ⟨error, failed, -⟩ | ⟨metas, refused, -⟩ | ⟨found, metas, decisions, inserted, -, -⟩
  · rw [failed]
    exact { accounted with }
  · rw [refused] at repos ⊢
    exact { accounted with repos := repos ▸ accounted.repos }
  · rw [inserted] at repos ⊢
    dsimp only at repos ⊢
    have fresh : ∀ row ∈ state.ledger.accepted, row.id <
      (offeredRow sha256 call.surroundings state.ledger.store call.event).id := by
      intro row mem
      exact Nat.lt_add_right _ (Nat.lt_succ_of_le (accounted.numbered row mem))
    generalize offeredRow sha256 call.surroundings state.ledger.store call.event = row at fresh repos
    have grows : ∀ mention value, (tallied mention state.counted state.ledger.accepted
      value).length ≤ (tallied mention state.counted (row :: state.ledger.accepted) value).length :=
      fun _ _ => ((sublist_cons_self _ _).filter _).length_le
    have known : ∀ old ∈ state.ledger.store.events, old.id < row.id := by
      intro old mem
      obtain ⟨first, isAccepted, _, rfl⟩ := accounted.origin old mem
      exact fresh first isAccepted
    have kept := enforceEventLimit_events call.event.sessionId config.maxEventsPerSession (state.ledger.store.events ++ [row])
    constructor
    case numbered =>
      intro old mem
      rcases mem_cons.mp mem with rfl | before
      · exact le_rfl
      · exact (fresh old before).le
    case distinct =>
      refine nodup_cons.mpr ⟨fun taken => ?_, accounted.distinct⟩
      obtain ⟨old, before, same⟩ := mem_map.mp taken
      exact absurd same (fresh old before).ne
    case stored =>
      dsimp only
      rw [kept]
      refine List.Nodup.sublist (filter_sublist.map _) ?_
      rw [map_append, map_singleton, ← concat_eq_append, nodup_concat]
      refine ⟨fun taken => ?_, accounted.stored⟩
      obtain ⟨old, before, same⟩ := mem_map.mp taken
      exact absurd same (known old before).ne
    case origin =>
      intro old mem
      dsimp only at mem
      rw [kept] at mem
      rcases mem_append.mp (mem_filter.mp mem).1 with before | new
      · obtain ⟨first, isAccepted, same⟩ := accounted.origin old before
        exact ⟨first, .tail _ isAccepted, same⟩
      · exact ⟨row, .head _, row.priority, mem_singleton.mp new⟩
    case repos => exact repos ▸ accounted.repos
    case files => exact accounted.files.mono (grows _)
    case symbols => exact accounted.symbols.mono (grows _)

theorem Accounted.compact (collisionFree : Injective sha256) (accounted :
    Accounted sha256 fromStr repo state) {sorting : Sorting} {sessionId : SessionId} {now : String}
    (uncounted : state.Uncounted fromStr (.compact sorting sessionId now)) :
    Accounted sha256 fromStr repo (state.compact sha256 fromStr sorting sessionId now) := by
  have events := compactSessionEvents_events fromStr sorting sessionId now state.ledger.store
  have repos := repos_compactMeta sessionId now state.ledger.store.metas
  have metas : (compactSessionEvents fromStr sorting sessionId now state.ledger.store).2.metas =
    compactMeta sessionId now state.ledger.store.metas := rfl
  have stored : ((compactSessionEvents fromStr sorting sessionId now state.ledger.store).2.events.map (·.id)).Nodup := by
    have ids : ∀ ids, (fun row : SessionEventRow => row.id) ∘ SessionEventRow.raise ids = (·.id) := by
      intro ids
      funext row
      obtain ⟨_, raised⟩ := raise_cases ids row
      rw [comp_apply, raised]
    rw [events, map_map, ids]
    exact accounted.stored.sublist (filter_sublist.map _)
  have origin :
    ∀ row ∈ (compactSessionEvents fromStr sorting sessionId now state.ledger.store).2.events,
    ∃ first ∈ state.ledger.accepted, ∃ priority, row = { first with priority } := by
    intro row mem
    rw [events] at mem
    obtain ⟨old, kept, rfl⟩ := mem_map.mp mem
    obtain ⟨first, isAccepted, _, rfl⟩ := accounted.origin old (mem_filter.mp kept).1
    obtain ⟨priority, raised⟩ := raise_cases (promoteIds fromStr sorting
      (listEvents sessionId state.ledger.store.events)) { first with priority := _ }
    exact ⟨first, isAccepted, priority, raised⟩
  have grows : ∀ mention : SessionEventRow → Option String,
    (∀ (row : SessionEventRow) (priority : Int), mention row = mention { row with priority }) →
      (∀ row ∈ listEvents sessionId state.ledger.store.events, (mention row).isSome → row.id ∉ state.counted) →
      ∀ value, (tallied mention state.counted state.ledger.accepted value).length +
        ((listEvents sessionId state.ledger.store.events).filterMap mention).count value ≤
        (tallied mention (state.counted ++ (listEvents sessionId state.ledger.store.events).map
          (·.id)) state.ledger.accepted value).length := by
    intro mention same fresh
    refine tallied_grows accounted.distinct (distinct_listEvents accounted.stored) ?_ fresh
    intro row mem
    obtain ⟨first, isAccepted, priority, rfl⟩ := accounted.origin row (mem_listEvents.mp mem).1
    exact ⟨first, isAccepted, rfl, same first priority⟩
  have ofFiles := grows (fileOf fromStr) (fun _ _ => rfl) fun row mem mentions => uncounted row mem (.inl mentions)
  have ofSymbols := grows (symbolOf fromStr) (fun _ _ => rfl) fun row mem mentions => uncounted row mem (.inr mentions)
  unfold Remembering.compact compactSession
  dsimp only
  cases found : getSessionMeta (compactSessionEvents fromStr sorting sessionId now state.ledger.store).2 sessionId with
  | none =>
    exact { numbered := accounted.numbered, distinct := accounted.distinct, stored, origin
            repos := metas ▸ repos ▸ accounted.repos
            files := accounted.files.mono fun value => (Nat.le_add_right _ _).trans (ofFiles value)
            symbols := accounted.symbols.mono fun value => (Nat.le_add_right _ _).trans (ofSymbols value) }
  | some entry =>
    have own : entry.repoRoot = repo := by
      refine accounted.repos _ (repos ▸ mem_map_of_mem ?_)
      exact metas ▸ mem_of_find?_eq_some found
    dsimp only
    rw [own]
    exact { numbered := accounted.numbered, distinct := accounted.distinct, stored, origin
            repos := metas ▸ repos ▸ accounted.repos
            files := (accounted.files.upserts collisionFree now _).mono ofFiles
            symbols := (accounted.symbols.upserts collisionFree now _).mono ofSymbols }

theorem Reached.accounted (collisionFree : Injective sha256) {metas : List SessionMeta}
    (repos : ∀ entry ∈ metas, entry.repoRoot = repo) {sequence : Nat} {decisions : Decisions}
    (reached : Reached sha256 fromStr config metas sequence decisions state) :
    Accounted sha256 fromStr repo state := by
  induction reached with
  | start =>
    refine ⟨nofun, .nil, .nil, nofun, fun root mem => ?_, nofun, nofun⟩
    obtain ⟨entry, isMeta, rfl⟩ := mem_map.mp mem
    exact repos entry isMeta
  | step call _ uncounted ih =>
    cases call with
    | append call => exact ih.append call
    | compact sorting sessionId now | resume sorting sessionId now => exact ih.compact collisionFree uncounted

/-- In a run that counts no event twice, nothing was used more often than accepted events
mention it. -/
theorem Reached.countsAccesses (collisionFree : Injective sha256) {metas : List SessionMeta}
    (repos : ∀ entry ∈ metas, entry.repoRoot = repo) {sequence : Nat} {decisions : Decisions}
    (reached : Reached sha256 fromStr config metas sequence decisions state) :
    (state.ledger.accepted.map (·.id)).Nodup ∧
    (∀ entry ∈ state.memory.files, entry.accessCount ≤ accesses (fileOf fromStr) state.ledger.accepted entry.value) ∧
    ∀ entry ∈ state.memory.symbols, entry.accessCount ≤ accesses (symbolOf fromStr) state.ledger.accepted entry.value := by
  have accounted := reached.accounted collisionFree repos
  have fewer : ∀ mention value, (tallied mention state.counted state.ledger.accepted value).length ≤
    accesses mention state.ledger.accepted value := by
    intro mention value
    unfold tallied accesses
    rw [← countP_eq_length_filter, ← countP_eq_length_filter]
    exact countP_mono_left fun row _ both => decide_eq_true (of_decide_eq_true both).2
  exact ⟨accounted.distinct, fun entry mem => (accounted.files entry mem).2.trans (fewer _ _),
    fun entry mem => (accounted.symbols entry mem).2.trans (fewer _ _)⟩

def readCall : AppendCall Unit :=
  { sampleCall "2026-01-01T00:00:00Z" with
    event :=
      { sessionId := "s", eventType := .fileRead, priority := 0, payload := .obj [("path", .str "a.rs")]
        createdAt := some "2026-01-01T00:00:00Z" } }

def readPath (_ : String) : Option Json := some (.obj [("path", .str "a.rs")])
def readOnce : Remembering Unit := Remembering.step id readPath {}
    ⟨Ledger.empty [⟨"s", "/repo", "0", none⟩] 0 (), {}, []⟩ (.append readCall)
def compacted (state : Remembering Unit) : Remembering Unit :=
  state.step id readPath {} (.compact stableSorting "s" "1")

theorem compacted_countsAccesses : ((compacted readOnce).memory.files.all fun entry => decide
    (entry.accessCount ≤ accesses (fileOf readPath) (compacted readOnce).ledger.accepted entry.value)) = true := by
  have counted : ∀ entry ∈ (compacted readOnce).memory.files, entry.accessCount ≤
      accesses (fileOf readPath) (compacted readOnce).ledger.accepted entry.value := (Reached.countsAccesses Function.injective_id
    (show ∀ entry ∈ [(⟨"s", "/repo", "0", none⟩ : SessionMeta)], entry.repoRoot = "/repo" by simp)
    (.step (.compact stableSorting "s" "1") (.step (.append readCall) .start trivial) fun _ _ _ => not_mem_nil)).2.1
  apply all_eq_true.mpr
  intro entry listed
  exact decide_eq_true (counted entry listed)

theorem compacted_countsTwice : ∃ entry ∈ (compacted (compacted readOnce)).memory.files,
    accesses (fileOf readPath) (compacted (compacted readOnce)).ledger.accepted entry.value < entry.accessCount := by
  have files : (compacted (compacted readOnce)).memory.files = [⟨"/repo:a.rs:", "/repo", "a.rs", 2, "1", "1"⟩] := rfl
  have once : accesses (fileOf readPath) (compacted (compacted readOnce)).ledger.accepted "a.rs" = 1 := rfl
  rw [files]
  exact ⟨_, .head _, once ▸ Nat.lt_succ_self 1⟩

end
end Atlas.Session
