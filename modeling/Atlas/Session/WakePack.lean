import Atlas.Session.Memory
import Atlas.Sql.Like
import Mathlib.Data.List.TakeWhile

/-! The memories of a wake pack: recall by topic, the listing of critical ones, and who may see
what. -/
namespace Atlas.Session
open List Sql

structure MemoryViewer where
  (frontend sessionId : String)

section
variable (viewer : MemoryViewer)

/-- `scope IN ('project', 'global')`, or the scope is that of the viewer. -/
def MemoryViewer.sees (row : MemoryRecord) : Bool :=
  match row.scope with
  | .project => true
  | .global => true
  | .session => decide (row.sessionId = some viewer.sessionId)
  | .frontend => decide (row.frontend = some viewer.frontend)

def isShared (row : MemoryRecord) : Bool := decide (row.scope = .project ∨ row.scope = .global)
def containsText (query text : String) : Bool :=
  like (['%'] ++ escapeLike query.toList ++ ['%']) text.toList

def matchTier (query : String) (row : MemoryRecord) : Nat :=
  if row.topic = query then 0
  else if containsText query row.topic || containsText query row.title then 1
  else 2

/-- `ORDER BY match_tier ASC, importance_rank ASC, superseded_rank ASC, updated_at DESC,
created_at DESC`. Equal rows stay in the order of the table. -/
def recallsBefore (query : String) (left right : MemoryRecord) : Prop :=
  let rank := fun row : MemoryRecord => toLex (matchTier query row,
    toLex (importanceRank row.importance, if row.supersededBy.isNone then 0 else 1))
  rank left < rank right ∨ rank left = rank right ∧ (right.updatedAt < left.updatedAt ∨
    right.updatedAt = left.updatedAt ∧ right.createdAt ≤ left.createdAt)

instance (query : String) : DecidableRel (recallsBefore query) := fun _ _ =>
  inferInstanceAs (Decidable (_ ∨ _ ∧ (_ ∨ _ ∧ _)))

structure MemorySearchHit where
  memory : MemoryRecord
  relevanceScore : Nat

def recallMemories (repoRoot query : String) (filter : MemoryListFilter)
    (sharedOnly : Bool) (limit : Nat) (memories : List MemoryRecord) : List MemorySearchHit :=
  let rows := memories.filter fun row =>
    decide (row.repoRoot = repoRoot) &&
    (containsText query row.topic || containsText query row.title || containsText query row.body) &&
    { filter with includeSuperseded := true }.selects row &&
    (if sharedOnly then isShared row else viewer.sees row)
  ((rows.insertionSort (recallsBefore query)).take limit).map fun row => ⟨row, matchTier query row⟩

end

structure MemoryRef where
  (memoryId topic title : String)
  importance : MemoryImportance
  scope : MemoryScope
  (createdAt updatedAt : String)
  sourceId : Option String
  deriving DecidableEq

def memoryRef (record : MemoryRecord) : MemoryRef where
  memoryId := record.id
  topic := record.topic
  title := record.title
  importance := record.importance
  scope := record.scope
  createdAt := record.createdAt
  updatedAt := record.updatedAt
  sourceId := record.sourceId

structure SavedSource where
  (id label sourceType : String)
  agentId : Option String
  createdAt : String
  deriving DecidableEq

structure SavedSources where
  recentSourceIds : (repoRoot : String) → (limit : Nat) → Except String (List String)
  getSource : String → Except String (Option SavedSource)
  countChunks : String → Except String Nat

structure ArtifactRef where
  source : SavedSource
  chunkCount : Nat
  deriving DecidableEq

def artifactRef (sources : SavedSources) (sourceId : String) : Option ArtifactRef :=
  match sources.getSource sourceId with
  | .ok (some source) =>
    if source.sourceType = "hook_event" then none
    else some ⟨source, (sources.countChunks sourceId).toOption.getD 0⟩
  | _ => none

inductive WakeEntry where
  | memory (ref : MemoryRef)
  | artifact (ref : ArtifactRef)
  deriving DecidableEq

def pushMemories (maxItems : Nat) : List MemoryRecord → List WakeEntry → List WakeEntry
  | [], entries => entries
  | record :: rest, entries =>
    if entries.length ≥ maxItems then entries
    else pushMemories maxItems rest (entries ++ [.memory (memoryRef record)])

def pushArtifacts (sources : SavedSources) (maxItems : Nat) :
    List String → List WakeEntry → List WakeEntry
  | [], entries => entries
  | sourceId :: rest, entries =>
    if entries.length ≥ maxItems then entries
    else
      match artifactRef sources sourceId with
      | some ref => pushArtifacts sources maxItems rest (entries ++ [.artifact ref])
      | none => pushArtifacts sources maxItems rest entries

section
variable (viewer : MemoryViewer) (repoRoot : String)

def wakeMemories (topic : Option String) (maxItems : Nat) (memories : List MemoryRecord) :
    List MemoryRecord :=
  match topic with
  | some topic => (recallMemories viewer repoRoot topic {} false maxItems memories).map MemorySearchHit.memory
  | none => listMemories repoRoot { importance := some .critical } memories

def collectCriticalMemories (store : Option (List MemoryRecord))
    (sources : Option SavedSources) (topic : Option String) (maxItems : Nat) : List WakeEntry :=
  let entries :=
    match store with
    | some memories => pushMemories maxItems (wakeMemories viewer repoRoot topic maxItems memories) []
    | none => []
  let entries :=
    match sources with
    | some sources =>
      if entries.length < maxItems then
        pushArtifacts sources maxItems ((sources.recentSourceIds repoRoot maxItems).toOption.getD []) entries
      else entries
    | none => entries
  entries.take maxItems

end

/-! A wake pack shows a viewer the memories that recall would let the viewer see, given a topic. -/

open Program (filter_insertionSort)

section
variable {viewer : MemoryViewer} {repoRoot : String} {sources : Option SavedSources}
  {topic : Option String} {maxItems : Nat} {memories : List MemoryRecord}

theorem pushMemories_eq (records : List MemoryRecord) (entries : List WakeEntry) :
    pushMemories maxItems records entries =
      entries ++ (records.take (maxItems - entries.length)).map fun row => .memory (memoryRef row) := by
  induction records generalizing entries with
  | nil => simp [pushMemories]
  | cons record rest ih =>
    unfold pushMemories
    by_cases full : entries.length ≥ maxItems
    · rw [if_pos full, Nat.sub_eq_zero_of_le full, take_zero, map_nil, append_nil]
    · have room : maxItems - entries.length = (maxItems - (entries.length + 1)) + 1 := by omega
      rw [if_neg full, ih, length_append, length_singleton, room, take_succ_cons, map_cons, append_assoc, singleton_append]

theorem pushArtifacts_extends (saved : SavedSources)
    (ids : List String) (entries : List WakeEntry) : ∃ added : List ArtifactRef,
      pushArtifacts saved maxItems ids entries = entries ++ added.map .artifact := by
  induction ids generalizing entries with
  | nil => exact ⟨[], (append_nil _).symm⟩
  | cons sourceId rest ih =>
    unfold pushArtifacts
    split
    · exact ⟨[], (append_nil _).symm⟩
    · cases artifactRef saved sourceId with
      | none => exact ih entries
      | some ref =>
        obtain ⟨added, pushed⟩ := ih (entries ++ [.artifact ref])
        exact ⟨ref :: added, by rw [map_cons, append_cons]; exact pushed⟩

theorem collectCriticalMemories_eq : ∃ added : List ArtifactRef,
    collectCriticalMemories viewer repoRoot (some memories) sources topic maxItems =
      (((wakeMemories viewer repoRoot topic maxItems memories).take maxItems).map fun row =>
        .memory (memoryRef row)) ++ added.map .artifact := by
  have pushed := @pushMemories_eq maxItems (wakeMemories viewer repoRoot topic maxItems memories) []
  rw [nil_append, length_nil, Nat.sub_zero] at pushed
  have short : (((wakeMemories viewer repoRoot topic maxItems memories).take maxItems).map fun row =>
      WakeEntry.memory (memoryRef row)).length ≤ maxItems := by
    rw [length_map]
    exact length_take_le _ _
  unfold collectCriticalMemories
  dsimp only
  rw [pushed]
  generalize ((wakeMemories viewer repoRoot topic maxItems memories).take maxItems).map
    (fun row => WakeEntry.memory (memoryRef row)) = entries at short
  cases sources with
  | none => exact ⟨[], by rw [take_of_length_le short, map_nil, append_nil]⟩
  | some saved =>
    dsimp only
    split
    · obtain ⟨added, more⟩ := @pushArtifacts_extends maxItems saved
        ((saved.recentSourceIds repoRoot maxItems).toOption.getD []) entries
      refine ⟨added.take (maxItems - entries.length), ?_⟩
      rw [more, take_append, take_of_length_le short, map_take]
    · exact ⟨[], by rw [take_of_length_le short, map_nil, append_nil]⟩

theorem mem_collectCriticalMemories {ref : MemoryRef} :
    .memory ref ∈ collectCriticalMemories viewer repoRoot (some memories) sources topic maxItems ↔
      ∃ row ∈ (wakeMemories viewer repoRoot topic maxItems memories).take maxItems, memoryRef row = ref := by
  obtain ⟨added, entries⟩ := @collectCriticalMemories_eq viewer repoRoot sources topic maxItems memories
  rw [entries, mem_append, mem_map, mem_map]
  constructor
  · rintro (⟨row, mem, same⟩ | ⟨artifact, _, same⟩)
    · exact ⟨row, mem, WakeEntry.memory.inj same⟩
    · cases same
  · rintro ⟨row, mem, rfl⟩
    exact .inl ⟨row, mem, rfl⟩

theorem collectCriticalMemories_congr {others : List MemoryRecord}
    (same : (wakeMemories viewer repoRoot topic maxItems memories).take maxItems =
      (wakeMemories viewer repoRoot topic maxItems others).take maxItems) :
    collectCriticalMemories viewer repoRoot (some memories) sources topic maxItems =
      collectCriticalMemories viewer repoRoot (some others) sources topic maxItems := by
  have pushed : ∀ rows : List MemoryRecord, pushMemories maxItems rows [] =
    (rows.take maxItems).map fun row => .memory (memoryRef row) := by
    intro rows
    rw [pushMemories_eq, nil_append, length_nil, Nat.sub_zero]
  unfold collectCriticalMemories
  dsimp only
  rw [pushed, pushed, same]

end

section
variable {Row : Type} {keep : Row → Bool} {rows : List Row} {count : Nat}

theorem take_eq_take_filter (all : ∀ row ∈ rows.take count, keep row = true) :
    rows.take count = (rows.filter keep).take count := by
  induction rows generalizing count with
  | nil => rfl
  | cons row rest ih =>
    cases count with
    | zero => rfl
    | succ count =>
      rw [take_succ_cons] at all ⊢
      rw [filter_cons_of_pos (all row mem_cons_self), take_succ_cons, ih fun other mem => all other (mem_cons_of_mem _ mem)]

theorem mem_take_iff_countP {before : Row → Bool}
    {row : Row} (mem : row ∈ rows) (ordered : ∀ earlier later, rows = earlier ++ row :: later →
    (∀ other ∈ earlier, other ≠ row ∧ before other = true) ∧
        before row = false ∧ ∀ other ∈ later, before other = false) :
    row ∈ rows.take count ↔ rows.countP before < count := by
  obtain ⟨earlier, later, split⟩ := append_of_mem mem
  obtain ⟨precede, self, follow⟩ := ordered earlier later split
  have counted : rows.countP before = earlier.length := by
    rw [split, countP_append, countP_cons_of_neg (by simp [self]),
      countP_eq_length.mpr fun other inEarlier => (precede other inEarlier).2,
      countP_eq_zero.mpr fun other inLater => by simp [follow other inLater], Nat.add_zero]
  rw [counted, split]
  constructor
  · intro early
    by_contra far
    rw [take_append_of_le_length (by omega)] at early
    exact (precede row (mem_of_mem_take early)).1 rfl
  · intro near
    rw [take_append]
    refine mem_append_right _ ?_
    obtain ⟨more, isMore⟩ := Nat.exists_eq_add_of_lt near
    rw [isMore, Nat.add_assoc, Nat.add_sub_cancel_left, take_succ_cons]
    exact .head _

end

/-! ## The listing -/

def listingKey (row : MemoryRecord) : Stringᵒᵈ ×ₗ Stringᵒᵈ ×ₗ String :=
  toLex (.toDual row.updatedAt, toLex (.toDual row.createdAt, row.id))

theorem listsBefore_iff_key {left right : MemoryRecord} :
    listsBefore left right ↔ listingKey left ≤ listingKey right := by
  unfold listsBefore listingKey
  rw [Prod.Lex.toLex_le_toLex, Prod.Lex.toLex_le_toLex]
  simp only [OrderDual.toDual_lt_toDual, OrderDual.toDual_inj, eq_comm]

instance : Std.Total listsBefore where
  total left right := by
    rw [listsBefore_iff_key, listsBefore_iff_key]
    exact le_total _ _

instance : IsTrans MemoryRecord listsBefore where
  trans first second third before after := by
    rw [listsBefore_iff_key] at *
    exact before.trans after

theorem listsBefore_antisymm {left right : MemoryRecord}
    (before : listsBefore left right) (after : listsBefore right left) : left.id = right.id := by
  rw [listsBefore_iff_key] at before after
  have same := congrArg (fun key => (ofLex (ofLex key).2).2) (le_antisymm before after)
  exact same

def isCriticalOf (repoRoot : String) (row : MemoryRecord) : Bool :=
  decide (row.repoRoot = repoRoot) && MemoryListFilter.selects { importance := some .critical } row
def outranks (row other : MemoryRecord) : Bool := decide (other.id ≠ row.id ∧ listsBefore other row)

section
variable {viewer : MemoryViewer} {repoRoot : String} {maxItems : Nat} {memories : List MemoryRecord}

theorem mem_take_listMemories (ids : (memories.map MemoryRecord.id).Nodup)
    {row : MemoryRecord} (stored : row ∈ memories) (critical : isCriticalOf repoRoot row = true) :
    row ∈ (listMemories repoRoot { importance := some .critical } memories).take maxItems ↔
      (memories.filter (isCriticalOf repoRoot)).countP (outranks row) < maxItems := by
  have listing : listMemories repoRoot { importance := some .critical } memories =
    (memories.filter (isCriticalOf repoRoot)).insertionSort listsBefore := rfl
  have perm := perm_insertionSort listsBefore (memories.filter (isCriticalOf repoRoot))
  have listed : row ∈ (memories.filter (isCriticalOf repoRoot)).insertionSort listsBefore :=
    perm.mem_iff.mpr (mem_filter.mpr ⟨stored, critical⟩)
  have sorted := pairwise_insertionSort listsBefore (memories.filter (isCriticalOf repoRoot))
  have nodup : (((memories.filter (isCriticalOf repoRoot)).insertionSort listsBefore).map
    MemoryRecord.id).Nodup := (perm.map _).nodup_iff.mpr (ids.sublist (filter_sublist.map _))
  rw [listing, ← perm.countP_eq]
  refine mem_take_iff_countP listed ?_
  intro earlier later split
  rw [split] at sorted nodup
  rw [map_append, map_cons] at nodup
  have apart := nodup_append.mp nodup
  have precedes := (pairwise_append.mp sorted).2.2
  have follows := (pairwise_cons.mp (pairwise_append.mp sorted).2.1).1
  have other_ne : ∀ other ∈ later, other.id ≠ row.id := by
    intro other mem same
    exact (nodup_cons.mp apart.2.1).1 (same ▸ mem_map_of_mem mem)
  refine ⟨?_, ?_, ?_⟩
  · intro other mem
    have differs : other.id ≠ row.id := fun same => apart.2.2 _ (mem_map_of_mem mem) _ (.head _) same
    exact ⟨fun same => differs (congrArg MemoryRecord.id same), decide_eq_true ⟨differs, precedes other mem row (.head _)⟩⟩
  · exact decide_eq_false fun both => both.1 rfl
  · intro other mem
    refine decide_eq_false fun both => other_ne other mem ?_
    exact (listsBefore_antisymm (follows other mem) both.2).symm

def Outranked (viewer : MemoryViewer)
    (repoRoot : String) (maxItems : Nat) (memories : List MemoryRecord) : Prop :=
  ∀ row ∈ memories, isCriticalOf repoRoot row = true → viewer.sees row = false →
    maxItems ≤ (memories.filter (isCriticalOf repoRoot)).countP (outranks row)

theorem outranked_iff (ids : (memories.map MemoryRecord.id).Nodup) :
    Outranked viewer repoRoot maxItems memories ↔
      ∀ row ∈ (listMemories repoRoot { importance := some .critical } memories).take maxItems, viewer.sees row = true := by
  have stored : ∀ row ∈ listMemories repoRoot { importance := some .critical } memories,
    row ∈ memories ∧ isCriticalOf repoRoot row = true := fun row mem =>
    mem_filter.mp ((perm_insertionSort listsBefore _).mem_iff.mp mem)
  constructor
  · intro outranked row mem
    obtain ⟨inStore, critical⟩ := stored row (mem_of_mem_take mem)
    by_contra hidden
    have enough := outranked row inStore critical (Bool.eq_false_iff.mpr hidden)
    exact absurd ((mem_take_listMemories ids inStore critical).mp mem) (by omega)
  · intro visible row inStore critical hidden
    by_contra few
    have mem := (@mem_take_listMemories repoRoot maxItems memories ids row inStore critical).mpr (by omega)
    rw [visible row mem] at hidden
    cases hidden

theorem listMemories_seen {left right : List MemoryRecord}
    {filter : MemoryListFilter} (same : left.filter viewer.sees = right.filter viewer.sees) :
    (listMemories repoRoot filter left).filter viewer.sees = (listMemories repoRoot filter right).filter viewer.sees := by
  have commutes : ∀ rows : List MemoryRecord, (listMemories repoRoot filter rows).filter
    viewer.sees = ((rows.filter viewer.sees).filter fun row =>
        decide (row.repoRoot = repoRoot) && filter.selects row).insertionSort listsBefore := by
    intro rows
    unfold listMemories
    rw [filter_insertionSort, filter_comm]
  rw [commutes, commutes, same]

end

section
variable (viewer : MemoryViewer)
  (repoRoot : String) (sources : Option SavedSources) (topic : Option String) (maxItems : Nat)

/-- What a viewer is shown does not depend on the memories it may not see. -/
structure KeepsPrivate (left right : List MemoryRecord) : Prop where
  shownLeft : ∀ row ∈ left, .memory (memoryRef row) ∈ collectCriticalMemories viewer repoRoot
    (some left) sources topic maxItems → viewer.sees row = true
  shownRight : ∀ row ∈ right, .memory (memoryRef row) ∈ collectCriticalMemories viewer repoRoot
    (some right) sources topic maxItems → viewer.sees row = true
  same : collectCriticalMemories viewer repoRoot (some left) sources topic maxItems =
    collectCriticalMemories viewer repoRoot (some right) sources topic maxItems

end

section
variable {viewer : MemoryViewer} {repoRoot : String} {sources : Option SavedSources}
  {topic : Option String} {maxItems : Nat} {memories left right : List MemoryRecord}

theorem shows_iff (ids : (memories.map MemoryRecord.id).Nodup) :
    (∀ row ∈ memories, .memory (memoryRef row) ∈
        collectCriticalMemories viewer repoRoot (some memories) sources topic maxItems → viewer.sees row = true) ↔
      ∀ row ∈ (wakeMemories viewer repoRoot topic maxItems memories).take maxItems, viewer.sees row = true := by
  have stored : ∀ row ∈ wakeMemories viewer repoRoot topic maxItems memories, row ∈ memories := by
    intro row mem
    cases topic with
    | none => exact mem_of_mem_filter ((perm_insertionSort listsBefore _).mem_iff.mp mem)
    | some topic =>
      obtain ⟨hit, isHit, rfl⟩ := mem_map.mp mem
      obtain ⟨row, isRow, rfl⟩ := mem_map.mp isHit
      exact mem_of_mem_filter ((perm_insertionSort _ _).mem_iff.mp (mem_of_mem_take isRow))
  constructor
  · intro shows row mem
    exact shows row (stored row (mem_of_mem_take mem)) (mem_collectCriticalMemories.mpr ⟨row, mem, rfl⟩)
  · intro visible row mem shown
    obtain ⟨first, isFirst, same⟩ := mem_collectCriticalMemories.mp shown
    have sameRow : first = row := inj_on_of_nodup_map ids (stored first (mem_of_mem_take isFirst))
      mem (congrArg MemoryRef.memoryId same)
    exact sameRow ▸ visible first isFirst

variable {query : String} {filter : MemoryListFilter} {limit : Nat}

theorem recallMemories_seen (same : left.filter viewer.sees = right.filter viewer.sees) :
    recallMemories viewer repoRoot query filter false limit left =
      recallMemories viewer repoRoot query filter false limit right := by
  have narrow : ∀ (rows : List MemoryRecord) (selects : MemoryRecord → Bool),
    (rows.filter fun row => selects row && viewer.sees row) =
        (rows.filter viewer.sees).filter selects := fun rows selects => filter_filter.symm
  unfold recallMemories
  dsimp only
  simp only [Bool.false_eq_true, if_false]
  rw [narrow, narrow, same]

theorem recallMemories_sees
    {row : MemoryRecord} (mem : row ∈ (recallMemories viewer repoRoot query filter false limit
      memories).map MemorySearchHit.memory) :
    viewer.sees row = true := by
  obtain ⟨hit, isHit, rfl⟩ := mem_map.mp mem
  obtain ⟨row, isRow, rfl⟩ := mem_map.mp isHit
  have selected := (mem_filter.mp ((perm_insertionSort _ _).mem_iff.mp (mem_of_mem_take isRow))).2
  exact ((Bool.and_eq_true _ _).mp selected).2

/-- Two stores that differ in what the viewer may not see only: a wake pack keeps it private if a
topic is given, or if all of it that is critical is outranked. -/
theorem collectCriticalMemories_keepsPrivate_iff (leftIds : (left.map MemoryRecord.id).Nodup)
    (rightIds : (right.map MemoryRecord.id).Nodup)
    (same : left.filter viewer.sees = right.filter viewer.sees) :
    KeepsPrivate viewer repoRoot sources topic maxItems left right ↔ topic.isSome = true ∨
      Outranked viewer repoRoot maxItems left ∧ Outranked viewer repoRoot maxItems right := by
  cases topic with
  | some topic =>
    refine ⟨fun _ => .inl rfl, fun _ => ⟨?_, ?_, ?_⟩⟩
    · exact (shows_iff leftIds).mpr fun row mem => recallMemories_sees (mem_of_mem_take mem)
    · exact (shows_iff rightIds).mpr fun row mem => recallMemories_sees (mem_of_mem_take mem)
    · apply collectCriticalMemories_congr
      unfold wakeMemories
      dsimp only
      rw [recallMemories_seen same]
  | none =>
    rw [outranked_iff leftIds, outranked_iff rightIds]
    constructor
    · intro keeps
      exact .inr ⟨(shows_iff leftIds).mp keeps.shownLeft, (shows_iff rightIds).mp keeps.shownRight⟩
    · rintro (given | ⟨leftVisible, rightVisible⟩)
      · cases given
      · refine ⟨(shows_iff leftIds).mpr leftVisible, (shows_iff rightIds).mpr rightVisible, ?_⟩
        apply collectCriticalMemories_congr
        change (listMemories repoRoot _ left).take maxItems = (listMemories repoRoot _ right).take maxItems
        rw [take_eq_take_filter leftVisible, take_eq_take_filter rightVisible, listMemories_seen same]

end

def otherSessionMemory : MemoryRecord where
  id := "m1"
  repoRoot := "/repo"
  sessionId := some "other"
  frontend := none
  scope := .session
  topic := "release"
  title := "credentials"
  body := "kept for one session"
  importance := .critical
  createdAt := "2026-01-01T00:00:00Z"
  updatedAt := "2026-01-01T00:00:00Z"
  lastAccessedAt := "2026-01-01T00:00:00Z"
  sourceId := none
  metadata := .obj []
  supersededBy := none

/-- Recall by topic keeps it from another session. -/
theorem collectCriticalMemories_keepsPrivate_topic :
    KeepsPrivate ⟨"cli", "mine"⟩ "/repo" none (some "release") 5 [otherSessionMemory] [] :=
  (collectCriticalMemories_keepsPrivate_iff (by decide) (by decide) (by decide)).mpr (.inl rfl)

/-- Without a topic it is shown to another session. -/
theorem collectCriticalMemories_shows_other_session :
    [otherSessionMemory].filter (MemoryViewer.sees ⟨"cli", "mine"⟩) = [] ∧
      .memory (memoryRef otherSessionMemory) ∈
        collectCriticalMemories ⟨"cli", "mine"⟩ "/repo" (some [otherSessionMemory]) none none 5 ∧
      ¬ KeepsPrivate ⟨"cli", "mine"⟩ "/repo" none none 5 [otherSessionMemory] [] := by
  refine ⟨by decide, by decide, fun keeps => ?_⟩
  exact absurd keeps.same (by decide)

end Atlas.Session
