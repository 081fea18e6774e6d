import Atlas.Session.MemoryGroups

/-! A link names a stored memory, and the links of a repo end in a memory that is listed,
as long as no operation removes a memory that a remaining one names. -/
namespace Atlas.Session
open List Sql
open Core (Json OffsetDateTime)
open Program (Run)

variable {memories rows : List MemoryRecord} {row record : MemoryRecord} {tables : MemoryTables}
  {lib : MemoryLibrary}

/-- Following the links from a memory ends at one that the listing shows. -/
inductive EndsShown (memories : List MemoryRecord) : MemoryRecord → Prop where
  | shown {row : MemoryRecord} : row ∈ listMemories row.repoRoot {} memories → EndsShown memories row
  | next {row other : MemoryRecord} : row.supersededBy = some other.id → other ∈ memories →
    other.repoRoot = row.repoRoot → EndsShown memories other → EndsShown memories row

structure LinksSound (memories : List MemoryRecord) : Prop where
  linked : ∀ row ∈ memories, ∀ target, row.supersededBy = some target →
    ∃ other ∈ memories, other.id = target ∧ other.repoRoot = row.repoRoot
  ends : ∀ row ∈ memories, EndsShown memories row

variable {repoRoot : String} {keeps : MemoryRecord → Bool} {op : MemoryOp}

theorem mem_listMemories_default : row ∈ listMemories repoRoot {} memories ↔
    row ∈ memories ∧ row.repoRoot = repoRoot ∧ row.supersededBy = none := by
  simp [listMemories, MemoryListFilter.selects, mem_insertionSort]

theorem mem_of_mem_listMemories {filter : MemoryListFilter}
    (listed : row ∈ listMemories repoRoot filter memories) :
    row ∈ memories := (mem_filter.mp ((mem_insertionSort _).mp listed)).1

theorem LinksSound.filter (sound : LinksSound memories)
    (spares : ∀ row ∈ memories, ∀ other ∈ memories, keeps row = true → keeps other = false →
      row.supersededBy ≠ some other.id) : LinksSound (memories.filter keeps) where
  linked := by
    intro row mem target names
    obtain ⟨stored, stays⟩ := mem_filter.mp mem
    obtain ⟨other, otherStored, rfl, repos⟩ := sound.linked row stored target names
    have otherStays : keeps other = true := by
      by_contra goes
      exact spares row stored other otherStored stays (by simpa using goes) names
    exact ⟨other, mem_filter.mpr ⟨otherStored, otherStays⟩, rfl, repos⟩
  ends := by
    intro row mem
    obtain ⟨stored, stays⟩ := mem_filter.mp mem
    have ends := sound.ends row stored
    clear mem
    induction ends with
    | shown listed =>
      obtain ⟨-, -, active⟩ := mem_listMemories_default.mp listed
      exact .shown (mem_listMemories_default.mpr ⟨mem_filter.mpr ⟨stored, stays⟩, rfl, active⟩)
    | @next row other names otherStored repos _ ih =>
      have otherStays : keeps other = true := by
        by_contra goes
        exact spares row stored other otherStored stays (by simpa using goes) names
      exact .next names (mem_filter.mpr ⟨otherStored, otherStays⟩) repos (ih otherStored otherStays)

theorem spares_of_linksSound_filter (distinct : (memories.map (·.id)).Nodup)
    (sound : LinksSound (memories.filter keeps)) :
    ∀ row ∈ memories, ∀ other ∈ memories, keeps row = true → keeps other = false → row.supersededBy ≠ some other.id := by
  intro row stored other otherStored stays goes names
  obtain ⟨found, mem, same, -⟩ := sound.linked row (mem_filter.mpr ⟨stored, stays⟩) other.id names
  obtain ⟨foundStored, foundStays⟩ := mem_filter.mp mem
  have equal : found = other := inj_on_of_nodup_map distinct foundStored otherStored same
  rw [equal, goes] at foundStays
  exact Bool.false_ne_true foundStays

theorem LinksSound.insert (sound : LinksSound memories) (active : record.supersededBy = none) :
    LinksSound (memories ++ [record]) where
  linked := by
    intro row mem target names
    rcases mem_append.mp mem with stored | new
    · obtain ⟨other, otherStored, same, repos⟩ := sound.linked row stored target names
      exact ⟨other, mem_append_left _ otherStored, same, repos⟩
    · rw [mem_singleton.mp new, active] at names
      cases names
  ends := by
    intro row mem
    rcases mem_append.mp mem with stored | new
    · have ends := sound.ends row stored
      clear mem
      induction ends with
      | shown listed =>
        obtain ⟨-, -, open_⟩ := mem_listMemories_default.mp listed
        exact .shown (mem_listMemories_default.mpr ⟨mem_append_left _ stored, rfl, open_⟩)
      | next names otherStored repos _ ih => exact .next names (mem_append_left _ otherStored) repos (ih otherStored)
    · obtain rfl := mem_singleton.mp new
      exact .shown (mem_listMemories_default.mpr ⟨mem, rfl, active⟩)

theorem LinksSound.repoint (sound : LinksSound memories) (stored : record ∈ memories)
    (active : record.supersededBy = none) {memberId now : String} (apart : memberId ≠ record.id) :
    LinksSound (updateWhere (fun row => decide (row.id = memberId ∧ row.repoRoot = record.repoRoot))
      (fun row => { row with supersededBy := some record.id, updatedAt := now }) memories) := by
  let assign : MemoryRecord → MemoryRecord := fun row =>
    if decide (row.id = memberId ∧ row.repoRoot = record.repoRoot) then
      { row with supersededBy := some record.id, updatedAt := now }
    else row
  have ids : ∀ row, (assign row).id = row.id := fun row => by
    simp only [assign]
    split <;> rfl
  have repos : ∀ row, (assign row).repoRoot = row.repoRoot := fun row => by
    simp only [assign]
    split <;> rfl
  have target : assign record = record := by simp [assign, Ne.symm apart]
  have image : ∀ row ∈ memories, assign row ∈ memories.map assign := fun row mem => mem_map_of_mem mem
  have targetStored : record ∈ memories.map assign := target ▸ image record stored
  have targetShown : EndsShown (memories.map assign) record := .shown (mem_listMemories_default.mpr ⟨targetStored, rfl, active⟩)
  show LinksSound (memories.map assign)
  constructor
  · intro row mem goal names
    obtain ⟨old, oldStored, rfl⟩ := mem_map.mp mem
    rw [repos]
    by_cases chosen : old.id = memberId ∧ old.repoRoot = record.repoRoot
    · have names' : record.id = goal := by simpa [assign, chosen] using names
      exact ⟨record, targetStored, names', chosen.2.symm⟩
    · have same : assign old = old := by simp [assign, chosen]
      rw [same] at names
      obtain ⟨other, otherStored, otherId, otherRepo⟩ := sound.linked old oldStored goal names
      exact ⟨assign other, image other otherStored, by rw [ids, otherId], by rw [repos, otherRepo]⟩
  · intro row mem
    obtain ⟨old, oldStored, rfl⟩ := mem_map.mp mem
    have ends := sound.ends old oldStored
    clear mem
    induction ends with
    | @shown old listed =>
      obtain ⟨-, -, open_⟩ := mem_listMemories_default.mp listed
      by_cases chosen : old.id = memberId ∧ old.repoRoot = record.repoRoot
      · exact .next (by simp [assign, chosen]) targetStored (by rw [repos, chosen.2]) targetShown
      · have same : assign old = old := by simp [assign, chosen]
        rw [same]
        exact .shown (mem_listMemories_default.mpr ⟨same ▸ image old oldStored, rfl, open_⟩)
    | @next old other names otherStored otherRepo _ ih =>
      by_cases chosen : old.id = memberId ∧ old.repoRoot = record.repoRoot
      · exact .next (by simp [assign, chosen]) targetStored (by rw [repos, chosen.2]) targetShown
      · have same : assign old = old := by simp [assign, chosen]
        have names' : (assign old).supersededBy = some (assign other).id := by rw [same, names, ids]
        exact .next names' (image other otherStored) (by rw [repos, repos, otherRepo])
          (ih otherStored)

/-! ## Consolidation keeps links -/

/-- Ids are unique, and each chain of superseded memories ends at a listed one. -/
structure MemoryTables.Healthy (tables : MemoryTables) : Prop where
  distinct : (tables.memories.map (·.id)).Nodup
  sound : LinksSound tables.memories

/-- A store that succeeds appends one active row under an unused id; one that fails
writes nothing. -/
theorem storeMemory_meets (lib : MemoryLibrary)
    (input : NewMemory) (first second : OffsetDateTime) (tables : MemoryTables) :
    (storeMemory lib input first second).Meets tables (fun record reached =>
      reached = { tables with memories := tables.memories ++ [record] } ∧
        (∃ now, record = input.record now record.id) ∧ record.id ∉ tables.memories.map (·.id))
      (fun reached => reached = tables) := by
  apply Run.Meets.bind
  apply Run.Meets.ofExcept
  · intro _ _
    apply Run.Meets.bind
    apply Run.Meets.ofExcept
    · intro _ _
      apply Run.Meets.bind
      apply Run.Meets.get
      cases known : hasKey (·.id) (deriveMemoryId lib input.repoRoot input.body first.unixTimestampNanos) tables.memories with
      | true =>
        simp only [if_true]
        exact Run.Meets.ofExcept (fun _ wrong => nomatch wrong) (fun _ _ => rfl)
      | false =>
        simp only [Bool.false_eq_true, if_false]
        apply Run.Meets.bind
        apply Run.Meets.modify
        apply Run.Meets.pure
        have unused := hasKey_eq_false_iff.mp known
        refine ⟨rfl, ⟨_, rfl⟩, ?_⟩
        intro taken
        obtain ⟨row, mem, same⟩ := mem_map.mp taken
        exact unused row mem same
    · intro _ _
      rfl
  · intro _ _
    rfl

theorem Healthy.insert (healthy : tables.Healthy)
    (active : record.supersededBy = none) (unused : record.id ∉ tables.memories.map (·.id)) :
    MemoryTables.Healthy { tables with memories := tables.memories ++ [record] } where
  distinct := by
    rw [map_append, nodup_append]
    refine ⟨healthy.distinct, by simp, ?_⟩
    intro id taken other new same
    obtain rfl : other = record.id := by simpa using new
    exact unused (same ▸ taken)
  sound := healthy.sound.insert active

theorem supersede_meets (stored : record ∈ tables.memories) (active : record.supersededBy = none)
    {mem : MemoryRecord} (apart : mem.id ≠ record.id) (reason now : String) :
    (supersede record.repoRoot record.id reason now mem).Meets tables
      (fun _ reached => (∀ row ∈ tables.memories, row.id ≠ mem.id → row ∈ reached.memories) ∧
        reached.memories.map (·.id) = tables.memories.map (·.id) ∧ (tables.Healthy → reached.Healthy))
      (fun reached => tables.Healthy → reached.Healthy) := by
  have sameIds : (updateWhere (fun row : MemoryRecord => decide (row.id = mem.id ∧ row.repoRoot =
    record.repoRoot)) (fun row => { row with supersededBy := some record.id, updatedAt := now })
      tables.memories).map (·.id) = tables.memories.map (·.id) :=
    map_updateWhere (by
      intro row
      rfl) tables.memories
  have repointed (healthy : tables.Healthy) (links : List MemorySupersession) : MemoryTables.Healthy
    ⟨updateWhere (fun row => decide (row.id = mem.id ∧ row.repoRoot = record.repoRoot))
        (fun row => { row with supersededBy := some record.id, updatedAt := now }) tables.memories, links⟩ := by
    refine ⟨?_, healthy.sound.repoint stored active apart⟩
    rw [sameIds]
    exact healthy.distinct
  apply Run.Meets.bind
  apply Run.Meets.modify
  apply Run.Meets.bind
  apply Run.Meets.get
  dsimp only
  split
  · exact Run.Meets.ofExcept (fun _ wrong => by cases wrong) (fun _ _ healthy => repointed healthy _)
  · apply Run.Meets.modify
    refine ⟨?_, sameIds, fun healthy => repointed healthy _⟩
    intro row rowStored differs
    exact mem_map.mpr ⟨row, rowStored, by simp [differs]⟩

def HoldsIds (rows : List MemoryRecord) (tables : MemoryTables) : Prop :=
  ∀ row ∈ rows, row.id ∈ tables.memories.map (·.id)

def Copied (repoRoot : String)
    (rows : List MemoryRecord) (group : MemoryGroup) (memories : List MemoryRecord) : Prop :=
  ∃ metadata now id, (consolidatedInput repoRoot group metadata).record now id ∈ memories ∧ id ∉ rows.map (·.id)

/-- The group gets a copy under a new id, and only its merged rows change. -/
theorem consolidateGroup_meets (holds : HoldsIds rows tables)
    {group : MemoryGroup} (drawn : ∀ mem ∈ group.merged, mem ∈ rows) (lib : MemoryLibrary)
    (repoRoot now : String) (first second : OffsetDateTime) :
    (consolidateGroup lib repoRoot now first second group).Meets tables
      (fun _ reached => HoldsIds rows reached ∧ Copied repoRoot rows group reached.memories ∧
        (∀ row ∈ tables.memories, (∀ mem ∈ group.merged, row.id ≠ mem.id) → row ∈ reached.memories) ∧
        (tables.Healthy → reached.Healthy))
      (fun reached => tables.Healthy → reached.Healthy) := by
  apply Run.Meets.bind
  refine Run.Meets.ofExcept ?_ (fun _ _ healthy => healthy)
  intro metadata _
  apply Run.Meets.bind
  refine (storeMemory_meets lib (consolidatedInput repoRoot group metadata) first second
    tables).imp ?_ (fun _ same healthy => same ▸ healthy)
  rintro record _ ⟨rfl, ⟨stamp, made⟩, unused⟩
  have active : record.supersededBy = none := made ▸ rfl
  have repo : record.repoRoot = repoRoot := made ▸ rfl
  have apart : ∀ mem ∈ group.merged, mem.id ≠ record.id := fun mem merged same =>
    unused (same ▸ holds mem (drawn mem merged))
  let start : MemoryTables := { tables with memories := tables.memories ++ [record] }
  let Spared (done : List MemoryRecord) (reached : MemoryTables) : Prop :=
    (∀ row ∈ start.memories, (∀ mem ∈ done, row.id ≠ mem.id) → row ∈ reached.memories) ∧
      reached.memories.map (·.id) = start.memories.map (·.id) ∧ (tables.Healthy → reached.Healthy)
  have loop : (Run.forEach (supersede repoRoot record.id (consolidationGroupKey lib group.members) now)
      group.merged).Meets start (fun _ => Spared group.merged) (fun reached => tables.Healthy → reached.Healthy) := by
    refine Run.Meets.forEach Spared group.merged [] ⟨fun row stored _ => stored, rfl,
      fun healthy => Healthy.insert healthy active unused⟩ ?_
    intro before mem after reached split ⟨spared, ids, healthy⟩
    have merged : group.merged = before ++ mem :: after := split
    have stored : record ∈ reached.memories := by
      refine spared record (by simp [start]) fun other early => (apart other ?_).symm
      rw [merged]
      exact mem_append_left _ early
    have memberApart : mem.id ≠ record.id := apart mem (by simp [merged])
    subst repo
    refine (supersede_meets stored active memberApart _ now).imp ?_ fun _ keeps isHealthy => keeps (healthy isHealthy)
    rintro _ next ⟨kept, sameIds, keeps⟩
    refine ⟨fun row rowStored differs => ?_, sameIds.trans ids, fun isHealthy => keeps (healthy isHealthy)⟩
    exact kept row (spared row rowStored fun other early => differs other (mem_append_left _ early))
      (differs mem (mem_append_right _ (.head _)))
  apply Run.Meets.bind
  refine loop.mono ?_
  rintro _ reached ⟨spared, ids, healthy⟩
  apply Run.Meets.pure
  refine ⟨?_, ⟨metadata, stamp, record.id, ?_, ?_⟩, ?_, healthy⟩
  · intro row listed
    rw [ids, map_append]
    exact mem_append_left _ (holds row listed)
  · rw [← made]
    exact spared record (by simp [start]) fun mem merged => (apart mem merged).symm
  · intro known
    obtain ⟨row, listed, same⟩ := mem_map.mp known
    exact unused (same ▸ holds row listed)
  · exact fun row stored differs => spared row (mem_append_left _ stored) differs

theorem consolidateGroups_meets (holds : HoldsIds rows tables)
    {groups : List MemoryGroup} (drawn : ∀ group ∈ groups, ∀ mem ∈ group.merged, mem ∈ rows)
    (lib : MemoryLibrary) (repoRoot now : String) (dryRun : Bool) (clock : Nat → OffsetDateTime) :
    (consolidateGroups lib repoRoot now dryRun groups clock).Meets tables (fun _ reached =>
      (dryRun = false → ∀ group ∈ groups, Copied repoRoot rows group reached.memories) ∧
        (∀ row ∈ tables.memories, (∀ group ∈ groups, ∀ mem ∈ group.merged, row.id ≠ mem.id) →
          row ∈ reached.memories) ∧ (tables.Healthy → reached.Healthy))
      (fun reached => tables.Healthy → reached.Healthy) := by
  induction groups generalizing tables clock with
  | nil => exact ⟨by simp, fun _ stored _ => stored, fun healthy => healthy⟩
  | cons group rest ih =>
    have restDrawn : ∀ group ∈ rest, ∀ mem ∈ group.merged, mem ∈ rows := fun other mem => drawn other (.tail _ mem)
    rw [consolidateGroups]
    apply Run.Meets.bind
    have stepped : (if dryRun = true then pure none
        else consolidateGroup lib repoRoot now (clock 0) (clock 1) group).Meets tables
        (fun _ reached => HoldsIds rows reached ∧ (dryRun = false → Copied repoRoot rows group reached.memories) ∧
          (∀ row ∈ tables.memories, (∀ mem ∈ group.merged, row.id ≠ mem.id) → row ∈ reached.memories) ∧
          (tables.Healthy → reached.Healthy))
        (fun reached => tables.Healthy → reached.Healthy) := by
      split
      · next dry => exact Run.Meets.pure ⟨holds, by simp [dry], fun _ stored _ => stored, fun healthy => healthy⟩
      · refine (consolidateGroup_meets holds (drawn group (.head _)) lib repoRoot now _ _).mono ?_
        exact fun _ _ ⟨still, copied, spared, healthy⟩ => ⟨still, fun _ => copied, spared, healthy⟩
    refine stepped.mono ?_
    rintro _ middle ⟨middleHolds, copied, spared, healthy⟩
    apply Run.Meets.bind
    refine (ih middleHolds restDrawn _).imp ?_ fun _ keeps isHealthy => keeps (healthy isHealthy)
    rintro _ reached ⟨copies, sparedLater, healthyLater⟩
    apply Run.Meets.pure
    refine ⟨fun applied other listed => ?_, ?_, fun isHealthy => healthyLater (healthy isHealthy)⟩
    · rcases mem_cons.mp listed with rfl | later
      · obtain ⟨metadata, stamp, id, stored, fresh⟩ := copied applied
        refine ⟨metadata, stamp, id, sparedLater _ stored fun next isNext mem merged same => fresh ?_, fresh⟩
        exact (show id = mem.id from same) ▸ mem_map_of_mem (restDrawn next isNext mem merged)
      · exact copies applied other later
    · intro row stored differs
      refine sparedLater row (spared row stored (differs group (.head _))) fun next isNext => ?_
      exact differs next (.tail _ isNext)

/-! ## Runs of operations -/

inductive MemoryOp where
  | store (input : NewMemory) (first second : OffsetDateTime)
  | delete (repoRoot memoryId : String) (dryRun : Bool)
  | prune (repoRoot : String) (filter : MemoryListFilter) (policy : MemoryDecayPolicy)
    (now : OffsetDateTime) (dryRun allowCritical : Bool)
  | consolidate (repoRoot : String) (filter : MemoryListFilter) (dryRun : Bool) (clock : Nat → OffsetDateTime)

def MemoryOp.exec (lib : MemoryLibrary) : MemoryOp → MemoryTables → MemoryTables
  | .store input first second, tables => (storeMemory lib input first second tables).2
  | .delete repoRoot memoryId dryRun, tables => (deleteMemory repoRoot memoryId dryRun tables).2
  | .prune repoRoot filter policy now dryRun allowCritical, tables =>
    (pruneMemories lib repoRoot filter policy now dryRun allowCritical tables).2
  | .consolidate repoRoot filter dryRun clock, tables =>
    (consolidationPlan lib repoRoot filter dryRun clock tables).2

def MemoryOp.removes (lib : MemoryLibrary) (tables : MemoryTables) (row : MemoryRecord) :
    MemoryOp → Bool
  | .store .. => false
  | .delete repoRoot memoryId dryRun => !dryRun && decide (row.id = memoryId ∧ row.repoRoot = repoRoot)
  | .prune repoRoot filter policy now dryRun allowCritical =>
    !dryRun && policy.enabled && !(!allowCritical && filter.importance == some .critical) &&
      (pruneCandidates lib repoRoot filter policy now allowCritical tables.memories).any
        fun memory => decide (row.id = memory.id ∧ row.repoRoot = repoRoot)
  | .consolidate .. => false

def MemoryOp.Spares (lib : MemoryLibrary) (op : MemoryOp) (tables : MemoryTables) : Prop :=
  ∀ row ∈ tables.memories, ∀ other ∈ tables.memories,
    op.removes lib tables row = false → op.removes lib tables other = true → row.supersededBy ≠ some other.id

theorem foldl_deleteById (repoRoot : String)
    (candidates : List MemoryRecord) (tables : MemoryTables) :
    (candidates.foldl (fun tables memory => deleteById repoRoot memory.id tables) tables).memories =
      tables.memories.filter fun row =>
        !candidates.any fun memory => decide (row.id = memory.id ∧ row.repoRoot = repoRoot) := by
  induction candidates generalizing tables with
  | nil => simp
  | cons candidate rest ih =>
    rw [foldl_cons, ih]
    simp only [deleteById, deleteWhere, filter_filter]
    apply filter_congr
    intro row _
    rw [any_cons, Bool.not_or, Bool.and_comm]

theorem filter_true : memories = memories.filter fun _ => !false := by simp

theorem exec_memories_of_removing
    (removing : (∃ repoRoot memoryId dryRun, op = .delete repoRoot memoryId dryRun) ∨
      ∃ repoRoot filter policy now dryRun allowCritical, op = .prune repoRoot filter policy now dryRun allowCritical) :
    (op.exec lib tables).memories = tables.memories.filter fun row => !op.removes lib tables row := by
  rcases removing with ⟨repoRoot, memoryId, dryRun, rfl⟩ | ⟨repoRoot, filter, policy, now, dryRun, allowCritical, rfl⟩
  · show (deleteMemory repoRoot memoryId dryRun tables).2.memories = _
    cases dryRun with
    | true =>
      have kept : (deleteMemory repoRoot memoryId true tables).2 = tables := by simp [deleteMemory, Run.get, bind, pure]
      rw [kept]
      exact filter_true
    | false =>
      cases found : tables.memories.any fun row =>
          decide (row.id = memoryId ∧ row.repoRoot = repoRoot) with
      | true =>
        have dropped : (deleteMemory repoRoot memoryId false tables).2 = deleteById repoRoot memoryId tables := by
          simp only [deleteMemory, Run.get, bind, found]
          rfl
        rw [dropped]
        simp [deleteById, deleteWhere, MemoryOp.removes]
      | false =>
        have kept : (deleteMemory repoRoot memoryId false tables).2 = tables := by
          simp only [deleteMemory, Run.get, bind, found]
          rfl
        rw [kept]
        symm
        rw [filter_eq_self]
        intro row mem
        have absent := any_eq_false.mp found row mem
        simp only [MemoryOp.removes, Bool.not_false, Bool.true_and, absent]
  · show (pruneMemories lib repoRoot filter policy now dryRun allowCritical tables).2.memories = _
    by_cases off : policy.enabled = false
    · have kept : (pruneMemories lib repoRoot filter policy now dryRun allowCritical tables).2 =
        tables := by simp [pruneMemories, pure, off]
      rw [kept]
      simp [MemoryOp.removes, off]
    have on : policy.enabled = true := by simpa using off
    cases refused : !allowCritical && filter.importance == some .critical with
    | true =>
      have kept : (pruneMemories lib repoRoot filter policy now dryRun allowCritical tables).2 =
        tables := by simp [pruneMemories, Run.ofExcept, on, refused]
      rw [kept]
      simp [MemoryOp.removes, refused]
    | false =>
      cases dryRun with
      | true =>
        have kept : (pruneMemories lib repoRoot filter policy now true allowCritical tables).2 =
          tables := by simp [pruneMemories, Run.get, bind, pure, on, refused]
        rw [kept]
        exact filter_true
      | false =>
        have dropped : (pruneMemories lib repoRoot filter policy now false allowCritical tables).2 =
          (pruneCandidates lib repoRoot filter policy now allowCritical tables.memories).foldl
                (fun tables memory => deleteById repoRoot memory.id tables) tables := by
          simp [pruneMemories, Run.get, Run.modify, bind, pure, on, refused]
        rw [dropped, foldl_deleteById]
        simp [MemoryOp.removes, on, refused]

theorem exec_healthy_of_adding (healthy : tables.Healthy)
    (adding : (∃ input first second, op = .store input first second) ∨
      ∃ repoRoot filter dryRun clock, op = .consolidate repoRoot filter dryRun clock) :
    (op.exec lib tables).Healthy := by
  rcases adding with ⟨input, first, second, rfl⟩ | ⟨repoRoot, filter, dryRun, clock, rfl⟩
  · have meets : (storeMemory lib input first second).Meets tables (fun _ => MemoryTables.Healthy) MemoryTables.Healthy := by
      refine (storeMemory_meets lib input first second tables).imp ?_ ?_
      · rintro record _ ⟨rfl, ⟨_, made⟩, unused⟩
        exact Healthy.insert healthy (made ▸ rfl) unused
      · rintro _ rfl
        exact healthy
    exact meets.reached
  · have holds : HoldsIds (listMemories repoRoot filter tables.memories) tables := by
      intro row listed
      exact mem_map_of_mem (mem_of_mem_listMemories listed)
    have meets : (consolidationPlan lib repoRoot filter dryRun clock).Meets tables
      (fun _ => MemoryTables.Healthy) MemoryTables.Healthy := by
      apply Run.Meets.bind
      apply Run.Meets.get
      refine (consolidateGroups_meets holds ?_ lib _ _ _ _).imp (fun _ _ kept => kept.2.2 healthy) fun _ keeps => keeps healthy
      exact fun group isGroup mem merged => consolidationGroups_drawn isGroup (.tail _ merged)
    exact meets.reached

theorem exec_step (lib : MemoryLibrary) (op : MemoryOp) (healthy : tables.Healthy) :
    ((op.exec lib tables).memories.map (·.id)).Nodup ∧ (LinksSound (op.exec lib tables).memories ↔ op.Spares lib tables) := by
  have adding : (∀ row, op.removes lib tables row = false) → (op.exec lib tables).Healthy →
      ((op.exec lib tables).memories.map (·.id)).Nodup ∧ (LinksSound (op.exec lib tables).memories ↔ op.Spares lib tables) := by
    intro nothing reached
    refine ⟨reached.distinct, fun _ => ?_, fun _ => reached.sound⟩
    intro row _ other _ _ goes
    rw [nothing other] at goes
    cases goes
  have removing : (op.exec lib tables).memories = tables.memories.filter (fun row => !op.removes lib tables row) →
      ((op.exec lib tables).memories.map (·.id)).Nodup ∧ (LinksSound (op.exec lib tables).memories ↔ op.Spares lib tables) := by
    intro rows
    rw [rows]
    refine ⟨healthy.distinct.sublist (filter_sublist.map _), ?_, ?_⟩
    · intro sound row stored other otherStored stays goes
      exact spares_of_linksSound_filter healthy.distinct sound row stored other otherStored (by simp [stays]) (by simp [goes])
    · intro spares
      apply healthy.sound.filter
      intro row stored other otherStored stays goes
      exact spares row stored other otherStored (by simpa using stays) (by simpa using goes)
  cases op with
  | store input first second => exact adding (fun _ => rfl) (exec_healthy_of_adding healthy (.inl ⟨_, _, _, rfl⟩))
  | delete repoRoot memoryId dryRun => exact removing (exec_memories_of_removing (.inl ⟨_, _, _, rfl⟩))
  | prune repoRoot filter policy now dryRun allowCritical =>
    exact removing (exec_memories_of_removing (.inr ⟨_, _, _, _, _, _, rfl⟩))
  | consolidate repoRoot filter dryRun clock =>
    exact adding (fun _ => rfl) (exec_healthy_of_adding healthy (.inr ⟨_, _, _, _, rfl⟩))

def SoundThroughout (lib : MemoryLibrary) : List MemoryOp → MemoryTables → Prop
  | [], tables => LinksSound tables.memories
  | op :: rest, tables => LinksSound tables.memories ∧ SoundThroughout lib rest (op.exec lib tables)

/-- Each operation of a run, in the state it meets, spares the rows that remaining
rows name. -/
def SparesThroughout (lib : MemoryLibrary) : List MemoryOp → MemoryTables → Prop
  | [], _ => True
  | op :: rest, tables => op.Spares lib tables ∧ SparesThroughout lib rest (op.exec lib tables)

theorem soundThroughout_iff (healthy : tables.Healthy) (ops : List MemoryOp) :
    SoundThroughout lib ops tables ↔ SparesThroughout lib ops tables := by
  induction ops generalizing tables with
  | nil => exact ⟨fun _ => trivial, fun _ => healthy.sound⟩
  | cons op rest ih =>
    obtain ⟨distinct, sound⟩ := exec_step lib op healthy
    constructor
    · rintro ⟨-, later⟩
      have reached : LinksSound (op.exec lib tables).memories := by
        cases rest with
        | nil => exact later
        | cons next rest => exact later.1
      exact ⟨sound.mp reached, (ih ⟨distinct, reached⟩).mp later⟩
    · rintro ⟨spares, later⟩
      have reached := sound.mpr spares
      exact ⟨healthy.sound, (ih ⟨distinct, reached⟩).mpr later⟩

def emptyMemories : MemoryTables := { memories := [], supersessions := [] }

/-- From an empty table on, every link names a stored row of its repo and ends in a
listed row after every operation, exactly when each deletion spares the named rows. -/
theorem run_soundThroughout_iff (lib : MemoryLibrary) (ops : List MemoryOp) :
    SoundThroughout lib ops emptyMemories ↔ SparesThroughout lib ops emptyMemories := by
  have healthy : emptyMemories.Healthy := ⟨nodup_nil, ⟨by simp [emptyMemories], by simp [emptyMemories]⟩⟩
  exact soundThroughout_iff healthy ops

def sampleLibrary : MemoryLibrary where
  sha256 := fun text =>
    if text = "/repo\x00fact\x001700000000000000001" then
      "46837773946ad93d4cbd22809c92f28ca32173af1deff6f64570a432f4790997"
    else if text = "/repo\x00fact\x001700000000000000002" then
      "130d236e66cefdd8a4e392583d5c0d5fbf530552f0b664c653f62fa402ff325b"
    else if text = "/repo\x00fact\x001700000000000000003" then
      "3949bc5a9e74114024fc5a3397a17fedbcdb198a7ba6e14dcd83ae4c32d99022"
    else text
  toLowercase := fun text => text
  parseTimestamp := fun _ => none

def sampleOps : List MemoryOp := [.store { repoRoot := "/repo", body := "fact" }
    (Core.sampleInstant 1 (by decide)) (Core.sampleInstant 1 (by decide)),
    .store { repoRoot := "/repo", body := "fact" } (Core.sampleInstant 2 (by decide))
      (Core.sampleInstant 2 (by decide)),
    .consolidate "/repo" {} false (fun _ => Core.sampleInstant 3 (by decide)),
    .delete "/repo" "3949bc5a9e74114024fc5a3397a17fedbcdb198a7ba6e14dcd83ae4c32d99022" false]

def sampleMemories : List MemoryRecord :=
  (sampleOps.foldl (fun tables op => op.exec sampleLibrary tables) emptyMemories).memories

theorem sampleMemories_dangle : (sampleMemories.any fun row => row.supersededBy ==
    some "3949bc5a9e74114024fc5a3397a17fedbcdb198a7ba6e14dcd83ae4c32d99022") = true ∧
      (sampleMemories.all fun row => row.id != "3949bc5a9e74114024fc5a3397a17fedbcdb198a7ba6e14dcd83ae4c32d99022") = true := by
  decide +kernel

theorem sampleOps_unsound : ¬ SoundThroughout sampleLibrary sampleOps emptyMemories := by
  rintro ⟨-, -, -, -, sound⟩
  have last : LinksSound sampleMemories := sound
  obtain ⟨dangling, absent⟩ := sampleMemories_dangle
  obtain ⟨row, stored, names⟩ := any_eq_true.mp dangling
  obtain ⟨other, otherStored, same, -⟩ := last.linked row stored _ (by simpa using names)
  have differs := all_eq_true.mp absent other otherStored
  rw [same] at differs
  exact absurd differs (by decide)

end Atlas.Session
