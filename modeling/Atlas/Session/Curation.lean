import Atlas.Session.LedgerProperties
import Atlas.Text.JsonText
import Atlas.Text.Split

/-! The curation of a session's events. `fromStr` stands for the JSON reader. -/
namespace Atlas.Session
open List
open Core (Json)
open Sql (deleteWhere updateWhere)

/-- `sort_unstable_by` on the times, newest first, leaves rows of one time in any order. -/
structure Sorting where
  newest : List SessionEventRow → List SessionEventRow
  perm : ∀ rows, (newest rows).Perm rows
  falling : ∀ rows, (newest rows).Pairwise fun left right => right.createdAt ≤ left.createdAt

structure CurationRule where
  types : List SessionEventType
  key : SessionEventRow → String
  quota : Nat

structure CurationResult where
  (eventsBefore eventsAfter mergedCount decayedCount deduplicatedCount promotedCount : Nat)

def listEvents (sessionId : SessionId) (events : List SessionEventRow) : List SessionEventRow :=
  (sessionEvents sessionId events).insertionSort fun left right =>
    toLex (left.createdAt, left.id) ≤ toLex (right.createdAt, right.id)

section
variable (fromStr : String → Option Json)

def extractStrField (payloadJson : String) (keys : List String) : Option String :=
  match fromStr payloadJson with
  | some (.obj fields) => keys.findSome? fun key =>
    match Json.lookupField fields key with
    | some (.str text) => some text
    | _ => none
  | _ => none

def keyed (keys : List String) (fallback : String) (row : SessionEventRow) : String :=
  (extractStrField fromStr row.payloadJson keys).getD fallback

def readRule : CurationRule :=
  { types := [.fileRead], key := keyed fromStr ["path", "file", "file_path"] "_unknown_", quota := 3 }

def graphRule : CurationRule :=
  { types := [.graphBuild, .graphUpdate], key := fun _ => "", quota := 1 }

def commandRule : CurationRule :=
  { types := [.commandRun], key := keyed fromStr ["command"] "_unknown_", quota := 3 }

def reasoningRule : CurationRule :=
  { types := [.reasoningResult], key := keyed fromStr ["source_id"] "_none_", quota := 1 }

def contextRule : CurationRule :=
  { types := [.contextRequest]
    key := keyed fromStr ["name", "symbol", "query_hint", "file"] "_unknown_"
    quota := 2 }

def CurationRule.groupOf (rule : CurationRule) (name : String) (events : List SessionEventRow) :
    List SessionEventRow :=
  events.filter fun row => decide (row.eventType ∈ rule.types ∧ rule.key row = name)

/-- The ids are sorted later, so that the order of the groups in the map does not matter.
Neither does it matter that some of the loops look at the length of a group first. -/
def CurationRule.excess (rule : CurationRule) (sorting : Sorting) (events : List SessionEventRow) :
    List SessionEventRow :=
  ((events.filter fun row => decide (row.eventType ∈ rule.types)).map rule.key).dedup.flatMap fun name =>
    (sorting.newest (rule.groupOf name events)).drop rule.quota

def promotionPriority : Int := 90
def promotionTypes : List String := ["DECISION", "USER_INTENT", "REASONING_RESULT"]
def unique (ids : List Nat) : List Nat := (ids.insertionSort (· ≤ ·)).destutter (· ≠ ·)

variable (sorting : Sorting)

def decayIds (events : List SessionEventRow) : List Nat :=
  ((readRule fromStr).excess sorting events ++ graphRule.excess sorting events ++
    (contextRule fromStr).excess sorting events).map (·.id)
def mergeIds (events : List SessionEventRow) : List Nat :=
  ((commandRule fromStr).excess sorting events).map (·.id)
def dedupIds (events : List SessionEventRow) : List Nat :=
  ((reasoningRule fromStr).excess sorting events).map (·.id)
def allDelete (events : List SessionEventRow) : List Nat := unique (decayIds fromStr sorting
    events ++ mergeIds fromStr sorting events ++ dedupIds fromStr sorting events)

def promoteIds (events : List SessionEventRow) : List Nat :=
  (events.filter fun row => decide (row.eventType.asStr ∈ promotionTypes ∧
    row.priority < promotionPriority ∧ row.id ∉ allDelete fromStr sorting events)).map (·.id)

def SessionEventRow.promote (row : SessionEventRow) : SessionEventRow :=
  { row with priority := promotionPriority }

/-- `now` is read from the clock. The update of the global memory follows the transaction. -/
def compactSessionEvents {Decisions : Type} (sessionId : SessionId)
    (now : String) (store : SessionStore Decisions) : CurationResult × SessionStore Decisions :=
  let events := listEvents sessionId store.events
  let mergeIds := mergeIds fromStr sorting events
  let dedupIds := dedupIds fromStr sorting events
  let allDelete := allDelete fromStr sorting events
  let promoteIds := promoteIds fromStr sorting events
  let kept := allDelete.foldl (fun rows id => deleteWhere (fun row => decide (row.id = id)) rows) store.events
  let curated := promoteIds.foldl (fun rows id => updateWhere
    (fun row => decide (row.id = id ∧ row.priority < promotionPriority)) SessionEventRow.promote rows) kept
  ({ eventsBefore := events.length
     eventsAfter := events.length - allDelete.length
     mergedCount := mergeIds.length
     decayedCount := ((unique (decayIds fromStr sorting events)).filter fun id =>
       decide (id ∉ mergeIds ∧ id ∉ dedupIds)).length
     deduplicatedCount := dedupIds.length
     promotedCount := promoteIds.length },
    { store with metas := compactMeta sessionId now store.metas, events := curated })

def rules : List CurationRule :=
  [readRule fromStr, graphRule, contextRule fromStr, commandRule fromStr, reasoningRule fromStr]

end

variable {fromStr : String → Option Json} {sorting : Sorting} {rule : CurationRule}
  {events : List SessionEventRow} {row : SessionEventRow}

/-! ## What is deleted -/

theorem mem_unique {ids : List Nat} {id : Nat} :
    id ∈ unique ids ↔ id ∈ ids := Text.mem_destutter_ne.trans (mem_insertionSort _)

theorem unique_perm {ids : List Nat} (nodup : ids.Nodup) : (unique ids).Perm ids := by
  have sorted := perm_insertionSort (· ≤ ·) ids
  have apart : (ids.insertionSort (· ≤ ·)).IsChain (· ≠ ·) := (sorted.nodup_iff.mpr nodup).isChain
  unfold unique
  rw [destutter_of_isChain _ _ apart]
  exact sorted

theorem mem_groupOf {name : String} : row ∈ rule.groupOf name events ↔ row ∈ events ∧
    row.eventType ∈ rule.types ∧ rule.key row = name := by simp [CurationRule.groupOf]
theorem mem_newest {rows : List SessionEventRow} :
    row ∈ sorting.newest rows ↔ row ∈ rows := (sorting.perm rows).mem_iff

theorem mem_excess : row ∈ rule.excess sorting events ↔
    row ∈ (sorting.newest (rule.groupOf (rule.key row) events)).drop rule.quota := by
  unfold CurationRule.excess
  rw [mem_flatMap]
  constructor
  · rintro ⟨name, -, surplus⟩
    have own := (mem_groupOf.mp (mem_newest.mp (drop_subset _ _ surplus))).2.2
    exact own ▸ surplus
  · intro surplus
    obtain ⟨mem, applies, -⟩ := mem_groupOf.mp (mem_newest.mp (drop_subset _ _ surplus))
    refine ⟨rule.key row, mem_dedup.mpr (mem_map_of_mem ?_), surplus⟩
    exact mem_filter.mpr ⟨mem, decide_eq_true applies⟩

theorem of_mem_excess (surplus : row ∈ rule.excess sorting events) :
    row ∈ events ∧ row.eventType ∈ rule.types := by
  have inGroup := mem_groupOf.mp (mem_newest.mp (drop_subset _ _ (mem_excess.mp surplus)))
  exact ⟨inGroup.1, inGroup.2.1⟩

private theorem nodup_excess (nodup : events.Nodup) : (rule.excess sorting events).Nodup := by
  refine nodup_flatMap.mpr ⟨fun name _ => ?_, ?_⟩
  · exact ((sorting.perm _).nodup_iff.mpr (nodup.filter _)).sublist (drop_sublist _ _)
  · refine (nodup_dedup _).imp fun apart row left right => apart ?_
    have leftKey := (mem_groupOf.mp (mem_newest.mp (drop_subset _ _ left))).2.2
    exact leftKey.symm.trans (mem_groupOf.mp (mem_newest.mp (drop_subset _ _ right))).2.2

def surplus (fromStr : String → Option Json) (sorting : Sorting) (events : List SessionEventRow) :
    List SessionEventRow := (rules fromStr).flatMap fun rule => rule.excess sorting events

theorem surplus_ids :
    (surplus fromStr sorting events).map (·.id) = decayIds fromStr sorting events ++
      mergeIds fromStr sorting events ++ dedupIds fromStr sorting events := by
  simp [surplus, rules, decayIds, mergeIds, dedupIds]

theorem rules_apart : (rules fromStr).Pairwise fun left right =>
    ∀ eventType ∈ left.types, eventType ∉ right.types := by
  simp [rules, readRule, graphRule, contextRule, commandRule, reasoningRule]

private theorem rule_eq {left right : CurationRule}
    (isLeft : left ∈ rules fromStr) (isRight : right ∈ rules fromStr)
    {eventType : SessionEventType} (inLeft : eventType ∈ left.types) (inRight : eventType ∈ right.types) :
    left = right := by
  have : Std.Symm fun left right : CurationRule => ∀ eventType ∈ left.types,
    eventType ∉ right.types := ⟨fun _ _ apart _ inRight inLeft => apart _ inLeft inRight⟩
  by_contra different
  exact rules_apart.forall isLeft isRight different _ inLeft inRight

theorem nodup_surplus (nodup : events.Nodup) : (surplus fromStr sorting events).Nodup := by
  refine nodup_flatMap.mpr ⟨fun rule _ => nodup_excess nodup, rules_apart.imp ?_⟩
  intro left right apart row inLeft inRight
  exact apart _ (of_mem_excess inLeft).2 (of_mem_excess inRight).2

theorem surplus_subset : surplus fromStr sorting events ⊆ events := by
  intro row mem
  obtain ⟨rule, _, inExcess⟩ := mem_flatMap.mp mem
  exact (of_mem_excess inExcess).1

private theorem nodup_surplus_ids (distinct : (events.map (·.id)).Nodup) :
    ((surplus fromStr sorting events).map (·.id)).Nodup :=
  (nodup_surplus (distinct.of_map _)).map_on fun _ left _ right same =>
    eq_of_same_id distinct (surplus_subset left) (surplus_subset right) same

theorem mem_allDelete (distinct : (events.map (·.id)).Nodup) (mem : row ∈ events) :
    row.id ∈ allDelete fromStr sorting events ↔ row ∈ surplus fromStr sorting events := by
  unfold allDelete
  rw [mem_unique, ← surplus_ids]
  constructor
  · intro isSurplus
    obtain ⟨other, inSurplus, same⟩ := mem_map.mp isSurplus
    exact eq_of_same_id distinct (surplus_subset inSurplus) mem same ▸ inSurplus
  · exact mem_map_of_mem

private theorem quota_of_surplus (distinct : (events.map (·.id)).Nodup)
    (isSurplus : row ∈ surplus fromStr sorting events) :
    ∃ rule ∈ rules fromStr, row.eventType ∈ rule.types ∧ ∃ others : List SessionEventRow,
      others.Nodup ∧ others.length = rule.quota ∧ ∀ other ∈ others, other ∈ events ∧
        other ∉ surplus fromStr sorting events ∧ other.eventType ∈ rule.types ∧
        rule.key other = rule.key row ∧ row.createdAt ≤ other.createdAt := by
  obtain ⟨rule, isRule, inExcess⟩ := mem_flatMap.mp isSurplus
  have behind := mem_excess.mp inExcess
  have ordered := sorting.falling (rule.groupOf (rule.key row) events)
  have nodup : (sorting.newest (rule.groupOf (rule.key row) events)).Nodup :=
    (sorting.perm _).nodup_iff.mpr ((distinct.of_map _).filter _)
  have sizes := length_pos_of_mem behind
  rw [length_drop] at sizes
  refine ⟨rule, isRule, (of_mem_excess inExcess).2, (sorting.newest (rule.groupOf (rule.key row) events)).take rule.quota,
    nodup.sublist (take_sublist _ _), by rw [length_take]; omega, fun other kept => ?_⟩
  obtain ⟨mem, applies, sameKey⟩ := mem_groupOf.mp (mem_newest.mp (take_subset _ _ kept))
  rw [← take_append_drop rule.quota (sorting.newest _)] at ordered nodup
  refine ⟨mem, fun wrong => ?_, applies, sameKey, (pairwise_append.mp ordered).2.2 other kept row behind⟩
  obtain ⟨rule', isRule', inExcess'⟩ := mem_flatMap.mp wrong
  obtain rfl := rule_eq isRule isRule' applies (of_mem_excess inExcess').2
  have again := mem_excess.mp inExcess'
  rw [sameKey] at again
  exact (nodup_append.mp nodup).2.2 other kept other again rfl

/-! ## What is left -/

def SessionEventRow.raise (ids : List Nat) (row : SessionEventRow) : SessionEventRow :=
  if row.id ∈ ids ∧ row.priority < promotionPriority then row.promote else row

theorem raise_cases (ids : List Nat) (row : SessionEventRow) :
    ∃ priority, row.raise ids = { row with priority } := by
  unfold SessionEventRow.raise
  split
  all_goals exact ⟨_, rfl⟩

private theorem key_priority (isRule : rule ∈ rules fromStr) (row : SessionEventRow) (priority : Int) :
    rule.key { row with priority } = rule.key row := by
  simp only [rules, mem_cons, not_mem_nil, or_false] at isRule
  rcases isRule with rfl | rfl | rfl | rfl | rfl <;> rfl

@[simp] theorem raise_nil : SessionEventRow.raise [] = id := by
  funext row
  simp [SessionEventRow.raise]

private theorem foldl_promote (ids : List Nat) (rows : List SessionEventRow) :
    ids.foldl (fun rows id => updateWhere
      (fun row => decide (row.id = id ∧ row.priority < promotionPriority)) SessionEventRow.promote rows)
      rows = rows.map (SessionEventRow.raise ids) := by
  induction ids generalizing rows with
  | nil => simp
  | cons id ids ih =>
    rw [foldl_cons, ih, updateWhere, map_map]
    refine map_congr_left fun row _ => ?_
    simp only [Function.comp_apply, SessionEventRow.raise, decide_eq_true_eq, mem_cons]
    by_cases own : row.id = id ∧ row.priority < promotionPriority
    · rw [if_pos own, if_neg fun wrong => absurd wrong.2 (lt_irrefl promotionPriority), if_pos ⟨.inl own.1, own.2⟩]
    · rw [if_neg own]
      by_cases later : row.id ∈ ids ∧ row.priority < promotionPriority
      · rw [if_pos later, if_pos ⟨.inr later.1, later.2⟩]
      · rw [if_neg later, if_neg]
        rintro ⟨here | there, low⟩
        · exact own ⟨here, low⟩
        · exact later ⟨there, low⟩

private theorem foldl_delete (ids : List Nat) (rows : List SessionEventRow) :
    ids.foldl (fun rows id => deleteWhere (fun row => decide (row.id = id)) rows) rows =
      rows.filter fun row => decide (row.id ∉ ids) := by
  induction ids generalizing rows with
  | nil => simp
  | cons id ids ih =>
    rw [foldl_cons, ih, deleteWhere, filter_filter]
    refine filter_congr fun row _ => ?_
    simp [Bool.and_comm]

section
variable {Decisions : Type} {store : SessionStore Decisions} {sessionId : SessionId}

theorem mem_listEvents :
    row ∈ listEvents sessionId events ↔ row ∈ events ∧ row.sessionId = sessionId :=
  (mem_insertionSort _).trans mem_sessionEvents
theorem listEvents_perm :
    (listEvents sessionId events).Perm (sessionEvents sessionId events) := perm_insertionSort _ _

theorem distinct_listEvents (distinct : (events.map (·.id)).Nodup) :
    ((listEvents sessionId events).map (·.id)).Nodup :=
  ((listEvents_perm.map _).nodup_iff).mpr (ids_nodup_sessionEvents sessionId distinct)

theorem compactSessionEvents_events (fromStr : String → Option Json)
    (sorting : Sorting) (sessionId : SessionId) (now : String) (store : SessionStore Decisions) :
    (compactSessionEvents fromStr sorting sessionId now store).2.events = (store.events.filter fun row =>
        decide (row.id ∉ allDelete fromStr sorting (listEvents sessionId store.events))).map
        (SessionEventRow.raise (promoteIds fromStr sorting (listEvents sessionId store.events))) := by
  unfold compactSessionEvents
  dsimp only
  rw [foldl_promote, foldl_delete]

theorem mem_compacted_ids (distinct : (store.events.map (·.id)).Nodup)
    (mem : row ∈ store.events) (now : String) :
    row.id ∉ (compactSessionEvents fromStr sorting sessionId now store).2.events.map (·.id) ↔
      row ∈ surplus fromStr sorting (listEvents sessionId store.events) := by
  rw [compactSessionEvents_events, map_map, mem_map]
  have sameId : ∀ other : SessionEventRow, ∀ ids, (other.raise ids).id = other.id := by
    intro other ids
    obtain ⟨_, raised⟩ := raise_cases ids other
    rw [raised]
  constructor
  · intro gone
    by_contra kept
    refine gone ⟨row, mem_filter.mpr ⟨mem, decide_eq_true fun deleted => kept ?_⟩, sameId row _⟩
    unfold allDelete at deleted
    rw [mem_unique, ← surplus_ids] at deleted
    obtain ⟨other, isSurplus, same⟩ := mem_map.mp deleted
    have inStore := (mem_listEvents.mp (surplus_subset isSurplus)).1
    exact eq_of_same_id distinct inStore mem same ▸ isSurplus
  · rintro isSurplus ⟨other, kept, same⟩
    obtain ⟨inStore, stays⟩ := mem_filter.mp kept
    obtain rfl := eq_of_same_id distinct inStore mem ((sameId other _).symm.trans same)
    exact of_decide_eq_true stays ((mem_allDelete (distinct_listEvents distinct) (surplus_subset isSurplus)).mpr isSurplus)

private theorem surplus_compacted (distinct : (store.events.map (·.id)).Nodup)
    (sorting' : Sorting) (now : String) :
    surplus fromStr sorting' (listEvents sessionId (compactSessionEvents fromStr sorting sessionId now store).2.events) = [] := by
  refine flatMap_eq_nil_iff.mpr fun rule isRule => flatMap_eq_nil_iff.mpr fun name _ => ?_
  apply drop_eq_nil_of_le
  let stays := fun row : SessionEventRow =>
    decide (row.id ∉ allDelete fromStr sorting (listEvents sessionId store.events))
  have kept : (rule.groupOf name (listEvents sessionId
    (compactSessionEvents fromStr sorting sessionId now store).2.events)).length =
      (rule.groupOf name (listEvents sessionId store.events)).countP stays := by
    unfold CurationRule.groupOf
    rw [← countP_eq_length_filter, countP_filter, listEvents_perm.countP_eq,
      listEvents_perm.countP_eq, compactSessionEvents_events]
    unfold sessionEvents
    rw [countP_filter, countP_filter, countP_map, countP_filter]
    refine countP_congr fun row _ => ?_
    obtain ⟨_, raised⟩ := raise_cases (promoteIds fromStr sorting (listEvents sessionId store.events)) row
    simp only [Function.comp_apply, raised, key_priority isRule, Bool.and_eq_true, decide_eq_true_eq, stays]
    tauto
  rw [(sorting'.perm _).length_eq, kept, ← (sorting.perm _).countP_eq, ← take_append_drop rule.quota
    (sorting.newest _), countP_append]
  have none : ((sorting.newest (rule.groupOf name (listEvents sessionId store.events))).drop rule.quota).countP stays = 0 := by
    refine countP_eq_zero.mpr fun row behind wrong => of_decide_eq_true wrong ?_
    have own := (mem_groupOf.mp (mem_newest.mp (drop_subset _ _ behind))).2.2
    have inExcess : row ∈ rule.excess sorting (listEvents sessionId store.events) := mem_excess.mpr (own.symm ▸ behind)
    exact (mem_allDelete (distinct_listEvents distinct) (of_mem_excess inExcess).1).mpr (mem_flatMap.mpr ⟨rule, isRule, inExcess⟩)
  rw [none]
  exact countP_le_length.trans (length_take_le _ _)

private theorem promoteIds_compacted (sorting' : Sorting) (now : String) :
    promoteIds fromStr sorting' (listEvents sessionId
      (compactSessionEvents fromStr sorting sessionId now store).2.events) = [] := by
  unfold promoteIds
  rw [map_eq_nil_iff, filter_eq_nil_iff]
  intro row mem eligible
  obtain ⟨promoted, low, _⟩ := of_decide_eq_true eligible
  obtain ⟨inStore, own⟩ := mem_listEvents.mp mem
  rw [compactSessionEvents_events] at inStore
  obtain ⟨old, kept, rfl⟩ := mem_map.mp inStore
  obtain ⟨wasIn, stays⟩ := mem_filter.mp kept
  obtain ⟨_, raised⟩ := raise_cases (promoteIds fromStr sorting (listEvents sessionId store.events)) old
  rw [raised] at promoted own
  unfold SessionEventRow.raise at low
  split at low
  · exact lt_irrefl promotionPriority low
  · next unraised =>
    refine unraised ⟨mem_map_of_mem (mem_filter.mpr ⟨mem_listEvents.mpr ⟨wasIn, own⟩, ?_⟩), low⟩
    exact decide_eq_true ⟨promoted, low, of_decide_eq_true stays⟩

private theorem compactSessionEvents_counts (fromStr : String → Option Json)
    (sorting : Sorting) (now : String) (distinct : (store.events.map (·.id)).Nodup) :
    let result := (compactSessionEvents fromStr sorting sessionId now store).1
    result.eventsBefore - result.eventsAfter = result.mergedCount + result.decayedCount + result.deduplicatedCount := by
  intro result
  let events := listEvents sessionId store.events
  have ids := @nodup_surplus_ids fromStr sorting events (distinct_listEvents distinct)
  have fewer : (surplus fromStr sorting events).length ≤ events.length := (subperm_of_subset
    (nodup_surplus ((distinct_listEvents distinct).of_map _)) surplus_subset).length_le
  have total := congrArg length (@surplus_ids fromStr sorting events)
  have deleted : (allDelete fromStr sorting events).length = (surplus fromStr sorting events).length := by
    unfold allDelete
    rw [← surplus_ids, (unique_perm ids).length_eq, length_map]
  rw [surplus_ids] at ids
  obtain ⟨front, _, apartLast⟩ := nodup_append.mp ids
  obtain ⟨decays, _, apart⟩ := nodup_append.mp front
  have decayed : result.decayedCount = (decayIds fromStr sorting events).length := by
    change ((unique (decayIds fromStr sorting events)).filter _).length = _
    rw [filter_eq_self.mpr, (unique_perm decays).length_eq]
    intro id mem
    have decay := mem_unique.mp mem
    exact decide_eq_true ⟨fun merge => apart id decay id merge rfl,
      fun dedup => apartLast id (mem_append_left _ decay) id dedup rfl⟩
  have before : result.eventsBefore = events.length := rfl
  have after : result.eventsAfter = events.length - (allDelete fromStr sorting events).length := rfl
  have merged : result.mergedCount = (mergeIds fromStr sorting events).length := rfl
  have deduplicated : result.deduplicatedCount = (dedupIds fromStr sorting events).length := rfl
  rw [length_map, length_append, length_append] at total
  omega

/-- Rows without a key share a group, and rows of one time count as new as each other. -/
theorem compactSessionEvents_settles (fromStr : String → Option Json) (sorting sorting' : Sorting)
    (sessionId : SessionId) (now now' : String) (store : SessionStore Decisions)
    (distinct : (store.events.map (·.id)).Nodup) :
    let curated := compactSessionEvents fromStr sorting sessionId now store
    let again := compactSessionEvents fromStr sorting' sessionId now' curated.2
    (∀ row ∈ store.events, row.id ∉ curated.2.events.map (·.id) → row.sessionId = sessionId ∧
      ∃ rule ∈ rules fromStr, row.eventType ∈ rule.types ∧ ∃ others : List SessionEventRow,
        others.Nodup ∧ others.length = rule.quota ∧
          ∀ other ∈ others, other ∈ store.events ∧ other.sessionId = sessionId ∧
          other.id ∈ curated.2.events.map (·.id) ∧ other.eventType ∈ rule.types ∧
          rule.key other = rule.key row ∧ row.createdAt ≤ other.createdAt) ∧
    curated.1.eventsBefore - curated.1.eventsAfter =
      curated.1.mergedCount + curated.1.decayedCount + curated.1.deduplicatedCount ∧
    again.1.eventsAfter = again.1.eventsBefore ∧ again.1.promotedCount = 0 ∧
    again.2.events = curated.2.events := by
  intro curated again
  have settled : surplus fromStr sorting' (listEvents sessionId curated.2.events) = [] := surplus_compacted distinct sorting' now
  have unpromoted : promoteIds fromStr sorting' (listEvents sessionId curated.2.events) = [] := promoteIds_compacted sorting' now
  have undeleted : allDelete fromStr sorting' (listEvents sessionId curated.2.events) = [] := by
    unfold allDelete
    rw [← surplus_ids, settled]
    rfl
  refine ⟨fun row mem gone => ?_, compactSessionEvents_counts fromStr sorting now distinct, ?_, ?_, ?_⟩
  · have isSurplus := (mem_compacted_ids distinct mem now).mp gone
    obtain ⟨rule, isRule, applies, others, nodup, full, kept⟩ := quota_of_surplus (distinct_listEvents distinct) isSurplus
    refine ⟨(mem_listEvents.mp (surplus_subset isSurplus)).2, rule, isRule, applies, others, nodup,
      full, fun other inOthers => ?_⟩
    obtain ⟨listed, stays, rest⟩ := kept other inOthers
    obtain ⟨inStore, own⟩ := mem_listEvents.mp listed
    exact ⟨inStore, own, of_not_not (mt (mem_compacted_ids distinct inStore now).mp stays), rest⟩
  · change (listEvents sessionId curated.2.events).length -
      (allDelete fromStr sorting' (listEvents sessionId curated.2.events)).length = _
    rw [undeleted]
    rfl
  · change (promoteIds fromStr sorting' (listEvents sessionId curated.2.events)).length = 0
    rw [unpromoted]
    rfl
  · have same := compactSessionEvents_events fromStr sorting' sessionId now' curated.2
    rw [undeleted, unpromoted] at same
    refine same.trans ?_
    simp

def keylessRead (id : Nat) (createdAt : String) : SessionEventRow :=
  { id, sessionId := "s", eventType := .fileRead, priority := 0, payloadJson := "\x7b\x7d"
    eventHash := createdAt, createdAt }

def readers : SessionStore Unit :=
  { metas := [], events := [keylessRead 1 "1", keylessRead 2 "2", keylessRead 3 "3", keylessRead 4 "4"]
    sequence := 4, decisions := () }

def stableSorting : Sorting where
  newest rows := rows.insertionSort fun left right => right.createdAt ≤ left.createdAt
  perm rows := perm_insertionSort _ rows
  falling _ :=
    have : Std.Total fun left right : SessionEventRow => right.createdAt ≤ left.createdAt := ⟨fun _ _ => le_total _ _⟩
    have : IsTrans SessionEventRow fun left right => right.createdAt ≤ left.createdAt :=
      ⟨fun _ _ _ first second => second.trans first⟩
    pairwise_insertionSort _ _

def readText (text : String) : Option Json := Text.parse text.toList

/-- The first read has no path, and goes on behalf of three reads of what may be other files. -/
theorem keyless_deleted : ∃ row ∈ readers.events,
    extractStrField readText row.payloadJson ["path", "file", "file_path"] = none ∧
    row.id ∉ (compactSessionEvents readText stableSorting "s" "5" readers).2.events.map (·.id) :=
  ⟨keylessRead 1 "1", .head _, by decide, by decide⟩

theorem compactSessionEvents_settles_readers :
    let curated := compactSessionEvents readText stableSorting "s" "5" readers
    (compactSessionEvents readText stableSorting "s" "6" curated.2).2.events = curated.2.events :=
  (compactSessionEvents_settles readText stableSorting stableSorting "s" "5" "6" readers (by decide)).2.2.2.2

end
end Atlas.Session
