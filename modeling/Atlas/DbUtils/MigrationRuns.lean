import Atlas.DbUtils.Migrations

/-! What interrupted migrations leave behind, and which interruptions the next call
repairs. -/
namespace Atlas.DbUtils
open List Sql

variable {db out : Database}
  {migration : Migration} {current target version : Int} {rows : List HistoryRow}

/-! ## Running statements -/

theorem runAll_append {first second : List Statement} : runAll (first ++ second) db = .ok out ↔
    ∃ middle, runAll first db = .ok middle ∧ runAll second middle = .ok out := by
  induction first generalizing db with
  | nil => simp [runAll]
  | cons statement first ih =>
    rw [cons_append]
    simp only [runAll]
    cases applied : statement.apply db with
    | error msg => simp
    | ok next => exact ih

theorem runAll_ddl {Item : Type} (items : List Item)
    (failure : Item → String) (run : Item → UserSchema → Option UserSchema) {db out : Database} :
    runAll (items.map fun item => .ddl (failure item) (run item)) db = .ok out ↔ ∃ schema,
      applyAll (items.map run) db.schema = some schema ∧ out = { db with schema := schema } := by
  induction items generalizing db with
  | nil =>
    simp only [map_nil, runAll, applyAll, foldlM_nil, Except.ok.injEq]
    constructor
    · intro same
      exact ⟨db.schema, rfl, same.symm⟩
    · intro ends
      obtain ⟨schema, same, ends⟩ := ends
      cases same
      exact ends.symm
  | cons item items ih =>
    simp only [map_cons, runAll, Statement.apply, applyAll, foldlM_cons]
    cases ran : run item db.schema with
    | none => simp
    | some schema => exact ih

private theorem runAll_rows {Item : Type} (items : List Item) (row : Item → HistoryRow) (db : Database) :
    runAll (items.map fun item => .recordMigration (row item)) db = .ok { db with history := db.history ++ items.map row } := by
  induction items generalizing db with
  | nil => simp [runAll]
  | cons item items ih =>
    simp only [map_cons, runAll, Statement.apply]
    rw [ih]
    simp

theorem applyAll_append (first second : List (UserSchema → Option UserSchema))
    (schema : UserSchema) :
    applyAll (first ++ second) schema = (applyAll first schema).bind (applyAll second) := by
  unfold applyAll
  rw [foldlM_append]
  rfl

def rowOf (direction : MigrationDirection) (migration : Migration) : HistoryRow :=
  ⟨migration.version, migration.name, direction⟩
def versionAfter (migrations : List Migration) (before : Option Int) : Option Int :=
  migrations.foldl (fun _ migration => some migration.version) before

theorem runAll_up (migrations : List Migration) :
    runAll (migrations.flatMap upStatements) db = .ok out ↔
      ∃ schema, applyAll (migrations.flatMap fun migration => migration.upSql) db.schema = some schema ∧
        out = ⟨schema, versionAfter migrations db.schemaVersion, db.history ++ migrations.map (rowOf .up)⟩ := by
  induction migrations generalizing db with
  | nil =>
    simp only [flatMap_nil, runAll, applyAll, foldlM_nil, Except.ok.injEq, map_nil, append_nil, versionAfter, foldl_nil]
    constructor
    · intro same
      exact ⟨db.schema, rfl, same.symm⟩
    · intro ends
      obtain ⟨schema, same, ends⟩ := ends
      cases same
      exact ends.symm
  | cons migration migrations ih =>
    rw [flatMap_cons, flatMap_cons, runAll_append, applyAll_append]
    have one : ∀ middle, runAll (upStatements migration) db = .ok middle ↔
      ∃ schema, applyAll migration.upSql db.schema = some schema ∧
          middle = ⟨schema, some migration.version, db.history ++ [rowOf .up migration]⟩ := by
      intro middle
      unfold upStatements
      rw [runAll_append]
      have ddl := fun next => @runAll_ddl _ migration.upSql (fun _ =>
        "migration " ++ toString migration.version ++ " (" ++ migration.name ++ "): ") id db next
      simp only [map_id, id] at ddl
      constructor
      · intro ran
        obtain ⟨next, before, after⟩ := ran
        obtain ⟨schema, applied, rfl⟩ := (ddl next).mp before
        cases after
        exact ⟨schema, applied, rfl⟩
      · intro ran
        obtain ⟨schema, applied, rfl⟩ := ran
        exact ⟨{ db with schema := schema }, (ddl _).mpr ⟨schema, applied, rfl⟩, rfl⟩
    constructor
    · intro ran
      obtain ⟨middle, before, after⟩ := ran
      obtain ⟨schema, applied, rfl⟩ := (one middle).mp before
      obtain ⟨last, later, rfl⟩ := ih.mp after
      refine ⟨last, Option.bind_eq_some_iff.mpr ⟨schema, applied, later⟩, ?_⟩
      simp [versionAfter]
    · intro ran
      obtain ⟨last, applied, rfl⟩ := ran
      obtain ⟨schema, first, later⟩ := Option.bind_eq_some_iff.mp applied
      refine ⟨_, (one _).mpr ⟨schema, first, rfl⟩, ih.mpr ⟨last, later, ?_⟩⟩
      simp [versionAfter]

section Numbering
variable {set : MigrationSet}

theorem Numbered.ascending (numbered : Numbered set) :
    set.migrations.Pairwise fun left right => left.version < right.version := by
  have mapped : (set.migrations.map fun migration => migration.version).Pairwise (· < ·) := by
    rw [numbered, pairwise_map]
    exact pairwise_lt_range.imp fun less => by omega
  exact pairwise_map.mp mapped

theorem Numbered.mem_versions (numbered : Numbered set) (version : Int) :
    (∃ migration ∈ set.migrations, migration.version = version) ↔
      1 ≤ version ∧ version ≤ set.migrations.length := by
  rw [← mem_map, numbered, mem_map]
  constructor
  · intro among
    obtain ⟨index, within, rfl⟩ := among
    have within := mem_range.mp within
    omega
  · intro bounds
    refine ⟨(version - 1).toNat, mem_range.mpr ?_, ?_⟩ <;> omega

theorem Numbered.latestVersion_eq (numbered : Numbered set) :
    latestVersion set = set.migrations.length := by
  unfold latestVersion
  rw [← getLast?_map, numbered]
  cases length : set.migrations.length with
  | zero => rfl
  | succ count =>
    rw [range_succ, map_append, map_singleton, getLast?_concat]
    simp

theorem Numbered.bounds (numbered : Numbered set) (mem : migration ∈ set.migrations) :
    1 ≤ migration.version ∧ migration.version ≤ latestVersion set := by
  rw [numbered.latestVersion_eq]
  exact (numbered.mem_versions migration.version).mp ⟨migration, mem, rfl⟩

private theorem filter_upTo {migrations : List Migration} (sorted : migrations.Pairwise fun left right =>
    left.version < right.version) (within : current ≤ target) :
    (migrations.filter fun migration => migration.version ≤ target) = (migrations.filter
      fun migration => migration.version ≤ current) ++ migrations.filter fun migration =>
          migration.version > current ∧ migration.version ≤ target := by
  induction migrations with
  | nil => rfl
  | cons migration migrations ih =>
    obtain ⟨first, sorted⟩ := pairwise_cons.mp sorted
    by_cases early : migration.version ≤ current
    · have notLate : ¬ (migration.version > current ∧ migration.version ≤ target) := by omega
      rw [filter_cons_of_pos (by simpa using early.trans within),
        filter_cons_of_pos (by simpa using early),
        filter_cons_of_neg (by simpa using notLate), ih sorted]
      rfl
    · have later : ∀ other ∈ migration :: migrations, migration.version ≤ other.version := by
        intro other mem
        cases mem_cons.mp mem with
        | inl same => exact same ▸ Int.le_refl _
        | inr behind => exact Int.le_of_lt (first other behind)
      have none : ((migration :: migrations).filter fun migration =>
          migration.version ≤ current) = [] := by
        rw [filter_eq_nil_iff]
        intro other mem
        have := later other mem
        simp only [decide_eq_true_eq]
        omega
      rw [none, nil_append]
      apply filter_congr
      intro other mem
      have := later other mem
      simp only [decide_eq_decide]
      omega

theorem mem_pending : migration ∈ pending set current target ↔
    migration ∈ set.migrations ∧ current < migration.version ∧ migration.version ≤ target := by
  unfold pending
  rw [mem_filter, decide_eq_true_eq]

theorem pending_self (set : MigrationSet) (current : Int) : pending set current current = [] := by
  apply eq_nil_iff_forall_not_mem.mpr
  intro migration mem
  have := mem_pending.mp mem
  omega

theorem pending_zero (numbered : Numbered set) (target : Int) :
    pending set 0 target = set.migrations.filter fun migration => migration.version ≤ target := by
  apply filter_congr
  intro migration mem
  have := (numbered.bounds mem).1
  simp only [decide_eq_decide]
  omega

private theorem schemaAt_step (numbered : Numbered set) (within : current ≤ target) :
    schemaAt set target = (schemaAt set current).bind
      (applyAll ((pending set current target).flatMap fun migration => migration.upSql)) := by
  unfold schemaAt
  rw [filter_upTo numbered.ascending within, flatMap_append, applyAll_append]
  rfl

private theorem versionAfter_upTo (numbered : Numbered set) (zero : 0 ≤ current)
    (within : current < target) (target_le : target ≤ latestVersion set) (before : Option Int) :
    versionAfter (pending set current target) before = some target := by
  rw [numbered.latestVersion_eq] at target_le
  obtain ⟨last, mem, version⟩ := (numbered.mem_versions target).mpr ⟨by omega, target_le⟩
  have listed : last ∈ pending set current target := mem_pending.mpr ⟨mem, by omega, by omega⟩
  obtain ⟨first, rest, split⟩ := append_of_mem listed
  have sorted : (pending set current target).Pairwise fun left right =>
      left.version < right.version :=
    numbered.ascending.filter _
  rw [split] at sorted
  have noneBehind : rest = [] := by
    apply eq_nil_iff_forall_not_mem.mpr
    intro other behind
    have above := (pairwise_cons.mp (pairwise_append.mp sorted).2.1).1 other behind
    have among : other ∈ pending set current target := by
      rw [split]
      simp [behind]
    have bound := mem_pending.mp among
    omega
  rw [split, noneBehind, versionAfter, foldl_append, foldl_cons, foldl_nil, version]

theorem latestDirection_append_of_mem (history : List HistoryRow)
    {direction : MigrationDirection} (alike : ∀ row ∈ rows, row.direction = direction)
    (among : ∃ row ∈ rows, row.version = version) :
    latestDirection (history ++ rows) version = some direction := by
  obtain ⟨row, mem, same⟩ := among
  have listed : row ∈ rows.filter fun row => row.version = version := mem_filter.mpr ⟨mem, decide_eq_true same⟩
  have filled := ne_nil_of_mem listed
  unfold latestDirection
  rw [filter_append, getLast?_append_of_ne_nil _ filled, getLast?_eq_some_getLast filled, Option.map_some]
  exact congrArg some (alike _ (mem_filter.mp (getLast_mem filled)).1)

theorem latestDirection_append_of_not_mem (history : List HistoryRow)
    (absent : ∀ row ∈ rows, row.version ≠ version) :
    latestDirection (history ++ rows) version = latestDirection history version := by
  have none : (rows.filter fun row => row.version = version) = [] := by
    rw [filter_eq_nil_iff]
    intro row mem same
    exact absent row mem (of_decide_eq_true same)
  unfold latestDirection
  rw [filter_append, none, append_nil]

theorem recordedUpTo_nil (numbered : Numbered set) : RecordedUpTo set [] 0 := by
  intro migration mem
  have above := (numbered.bounds mem).1
  constructor
  · intro recorded
    cases recorded
  · intro early
    omega

theorem RecordedUpTo.up {history : List HistoryRow}
    (recorded : RecordedUpTo set history current) (within : current ≤ target) :
    RecordedUpTo set (history ++ (pending set current target).map (rowOf .up)) target := by
  intro migration mem
  by_cases bound : current < migration.version ∧ migration.version ≤ target
  · have alike : ∀ row ∈ (pending set current target).map (rowOf .up), row.direction = .up := by
      intro row listed
      obtain ⟨source, _, rfl⟩ := mem_map.mp listed
      rfl
    have latest : latestDirection (history ++ (pending set current target).map (rowOf .up)) migration.version = some .up :=
      latestDirection_append_of_mem history alike ⟨rowOf .up migration, mem_map_of_mem (mem_pending.mpr ⟨mem, bound⟩), rfl⟩
    exact ⟨fun _ => bound.2, fun _ => latest⟩
  · rw [latestDirection_append_of_not_mem, recorded migration mem]
    · omega
    · intro row listed same
      obtain ⟨source, sourceIn, rfl⟩ := mem_map.mp listed
      have inside := (mem_pending.mp sourceIn).2
      exact bound (same ▸ inside)

theorem mem_undoneVersions :
    version ∈ undoneVersions current target ↔ target < version ∧ version ≤ current := by
  unfold undoneVersions
  rw [mem_map]
  constructor
  · intro listed
    obtain ⟨offset, within, rfl⟩ := listed
    have within := mem_range.mp within
    omega
  · intro bounds
    refine ⟨(current - version).toNat, mem_range.mpr ?_, ?_⟩ <;> omega

private theorem downRow_eq (numbered : Numbered set)
    (low : 1 ≤ version) (high : version ≤ latestVersion set) :
    ∃ migration, migration.version = version ∧ downRow set version = recordMigration migration .down := by
  rw [numbered.latestVersion_eq] at high
  obtain ⟨other, mem, same⟩ := (numbered.mem_versions version).mpr ⟨low, high⟩
  cases found : set.migrations.find? fun migration => migration.version = version with
  | none => exact absurd (decide_eq_true same) (find?_eq_none.mp found other mem)
  | some migration =>
    have hit := find?_some found
    rw [decide_eq_true_eq] at hit
    refine ⟨migration, hit, ?_⟩
    unfold downRow
    rw [found]

private theorem runAll_downRows (numbered : Numbered set) (versions : List Int)
    (known : ∀ version ∈ versions, 1 ≤ version ∧ version ≤ latestVersion set) (db : Database) :
    ∃ rows : List HistoryRow, runAll (versions.map (downRow set)) db = .ok { db with history := db.history ++ rows } ∧
        rows.map (fun row => row.version) = versions ∧ ∀ row ∈ rows, row.direction = .down := by
  induction versions generalizing db with
  | nil => exact ⟨[], by simp [runAll], rfl, by simp⟩
  | cons version versions ih =>
    obtain ⟨low, high⟩ := known version (.head _)
    obtain ⟨migration, same, row⟩ := downRow_eq numbered low high
    have step : runAll (downRow set version :: versions.map (downRow set)) db = runAll (versions.map (downRow set))
          { db with history := db.history ++ [rowOf .down migration] } := by
      rw [row]
      rfl
    obtain ⟨rows, ran, covered, alike⟩ := ih (fun other later => known other (.tail version later))
        { db with history := db.history ++ [rowOf .down migration] }
    refine ⟨rowOf .down migration :: rows, ?_, ?_, ?_⟩
    · rw [map_cons, step, ran]
      simp
    · rw [map_cons, covered]
      exact congrArg (· :: versions) same
    · intro other mem
      cases mem_cons.mp mem with
      | inl same => exact same ▸ rfl
      | inr later => exact alike other later

theorem RecordedUpTo.down {history : List HistoryRow}
    (recorded : RecordedUpTo set history current) (within : target ≤ current)
    (covered : rows.map (fun row => row.version) = undoneVersions current target)
    (alike : ∀ row ∈ rows, row.direction = .down) :
    RecordedUpTo set (history ++ rows) target := by
  intro migration mem
  have listed : ∀ version, (∃ row ∈ rows, row.version = version) ↔ target < version ∧ version ≤ current := by
    intro version
    rw [← mem_undoneVersions, ← covered, mem_map]
  by_cases undone : target < migration.version ∧ migration.version ≤ current
  · rw [latestDirection_append_of_mem history alike ((listed migration.version).mpr undone)]
    constructor
    · intro recordedUp
      cases recordedUp
    · intro early
      omega
  · rw [latestDirection_append_of_not_mem, recorded migration mem]
    · omega
    · intro row present same
      exact undone ((listed migration.version).mp ⟨row, present, same⟩)

/-! ## What each part of a call does -/

/-- The recorded version is the one that the schema has. The only row that may be missing
is the one of migration 1, which the next call adds. -/
structure Consistent (set : MigrationSet) (db : Database) : Prop where
  nonneg : 0 ≤ currentSchemaVersion db
  supported : currentSchemaVersion db ≤ latestVersion set
  schema : schemaAt set (currentSchemaVersion db) = some db.schema
  log : RecordedUpTo set db.history (currentSchemaVersion db) ∨ db.history = [] ∧ currentSchemaVersion db = 1

theorem backfill_fills (numbered : Numbered set) (consistent : Consistent set db) :
    ∃ history, runAll (backfillHistoryIfMissing set (currentSchemaVersion db) db) db =
      .ok { db with history := history } ∧ RecordedUpTo set history (currentSchemaVersion db) := by
  unfold backfillHistoryIfMissing
  split
  · next skipped =>
      refine ⟨db.history, rfl, ?_⟩
      cases consistent.log with
      | inl recorded => exact recorded
      | inr missing =>
        cases skipped with
        | inl filled => exact absurd missing.1 filled
        | inr zero => omega
  · next missing =>
      push Not at missing
      have rows := runAll_rows (set.migrations.filter fun migration =>
        migration.version ≤ currentSchemaVersion db) (rowOf .up) db
      refine ⟨_, rows, ?_⟩
      rw [missing.1]
      rw [← pending_zero numbered]
      exact (recordedUpTo_nil numbered).up consistent.nonneg

theorem up_keeps (numbered : Numbered set) (nonneg : 0 ≤ current) (within : current ≤ target)
    (supported : target ≤ latestVersion set) (recordedVersion : currentSchemaVersion db = current)
    (schema : schemaAt set current = some db.schema) (log : RecordedUpTo set db.history current)
    (ran : runAll (migrateUp set current target) db = .ok out) :
    currentSchemaVersion out = target ∧ Truthful set target out := by
  obtain ⟨next, applied, rfl⟩ := (runAll_up _).mp ran
  refine ⟨?_, ?_, ?_⟩
  · cases Int.lt_or_eq_of_le within with
    | inl less =>
      unfold currentSchemaVersion
      rw [versionAfter_upTo numbered nonneg less supported, Option.getD_some]
    | inr same =>
      rw [← same, pending_self]
      exact recordedVersion
  · rw [schemaAt_step numbered within, schema]
    exact applied
  · exact log.up within

theorem applyAll_drop (objects : List SchemaObject) (schema : UserSchema) :
    applyAll (objects.map fun object current =>
        some (Master.dropIfExists object.kind object.name current)) schema =
      some (Master.dropAll (objects.map fun object => (object.kind, object.name)) schema) := by
  induction objects generalizing schema with
  | nil => rfl
  | cons object objects ih => exact ih (Master.dropIfExists object.kind object.name schema)

theorem applyAll_create (objects : List SchemaObject) (schema : UserSchema) :
    applyAll (objects.map Master.create) schema = Master.createAll objects schema := by
  unfold applyAll Master.createAll
  rw [foldlM_map]

private theorem runAll_new (numbered : Numbered set) {target : Int} :
    (∃ targetConn, runAll (migrateUp set 0 target) .new = .ok targetConn ∧ schemaAt set target =
      some targetConn.schema) ∨
    (∃ msg, runAll (migrateUp set 0 target) .new = .error msg) := by
  cases ran : runAll (migrateUp set 0 target) .new with
  | error msg => exact .inr ⟨msg, rfl⟩
  | ok targetConn =>
    obtain ⟨schema, applied, rfl⟩ := (runAll_up _).mp ran
    refine .inl ⟨_, rfl, ?_⟩
    unfold schemaAt
    rw [← pending_zero numbered]
    exact applied

private theorem runAll_rebuild (target : Int) (next : UserSchema) :
    runAll (dropUserObjects db.schema ++ exportUserSchemaSql target next) db = .ok out ↔
      ∃ schema, Master.rebuild isHidden next db.schema = some schema ∧ out = { db with schema := schema } := by
  unfold dropUserObjects exportUserSchemaSql
  rw [runAll_append]
  constructor
  · intro ran
    obtain ⟨emptied, dropped, created⟩ := ran
    obtain ⟨schema, applied, rfl⟩ := (runAll_ddl _ _ _).mp dropped
    rw [applyAll_drop] at applied
    cases applied
    obtain ⟨schema, applied, rfl⟩ := (runAll_ddl _ _ _).mp created
    rw [applyAll_create] at applied
    exact ⟨schema, applied, rfl⟩
  · intro ran
    obtain ⟨schema, rebuilt, rfl⟩ := ran
    refine ⟨{ db with schema := Master.dropUserObjects isHidden db.schema }, ?_, ?_⟩
    · exact (runAll_ddl _ _ _).mpr ⟨_, applyAll_drop _ _, rfl⟩
    · refine (runAll_ddl _ _ _).mpr ⟨schema, ?_, rfl⟩
      rw [applyAll_create]
      exact rebuilt

/-- Whether the catalogue of version `target` can be rebuilt on this one. -/
def Descends (set : MigrationSet) (target : Int) (schema : UserSchema) : Prop :=
  ∀ next, schemaAt set target = some next → Master.Rebuildable isHidden schema next

private theorem down_keeps (numbered : Numbered set) {filled : Database}
    (nonneg : 0 ≤ target) (within : target ≤ current) (supported : current ≤ latestVersion set)
    (sameSchema : filled.schema = db.schema) (log : RecordedUpTo set filled.history current)
    (ran : runAll (rebuildDown set current target db) filled = .ok out) :
    RecordedUpTo set out.history target ∧ (schemaAt set target = some out.schema ↔ Descends set target db.schema) := by
  unfold rebuildDown at ran
  cases @runAll_new set numbered target with
  | inr failed =>
    obtain ⟨msg, failed⟩ := failed
    rw [failed] at ran
    cases ran
  | inl built =>
    obtain ⟨targetConn, built, goal⟩ := built
    rw [built] at ran
    obtain ⟨middle, rebuilt, recorded⟩ := runAll_append.mp ran
    rw [← sameSchema] at rebuilt ⊢
    obtain ⟨schema, restored, rfl⟩ := (runAll_rebuild target targetConn.schema).mp rebuilt
    have known : ∀ version ∈ undoneVersions current target, 1 ≤ version ∧ version ≤ latestVersion set := by
      intro version undone
      have := mem_undoneVersions.mp undone
      omega
    obtain ⟨rows, written, covered, alike⟩ := runAll_downRows numbered _ known
      { filled with schema := schema }
    cases recorded.symm.trans written
    refine ⟨log.down within covered alike, ?_⟩
    unfold Descends
    constructor
    · intro right next reached
      cases goal.symm.trans right
      cases goal.symm.trans reached
      exact Master.rebuildable_of_rebuild restored
    · intro descends
      cases restored.symm.trans (descends _ goal).rebuilds
      exact goal

private theorem consistent_new (numbered : Numbered set) : Consistent set .new where
  nonneg := Int.le_refl 0
  supported := by
    rw [numbered.latestVersion_eq]
    exact Int.natCast_nonneg _
  schema := by
    unfold schemaAt
    rw [← pending_zero numbered]
    show applyAll ((pending set 0 0).flatMap _) _ = _
    rw [pending_self]
    rfl
  log := .inl (recordedUpTo_nil numbered)

theorem Consistent.finished (numbered : Numbered set)
    (consistent : Consistent set db) (ran : runAll (migrateDatabaseTo set target db) db = .ok out) :
    currentSchemaVersion out = target ∧ 0 ≤ target ∧ target ≤ latestVersion set ∧ RecordedUpTo set out.history target ∧
      (schemaAt set target = some out.schema ↔ (target < currentSchemaVersion db → Descends set target db.schema)) := by
  unfold migrateDatabaseTo at ran
  dsimp only at ran
  by_cases refused : target < 0 ∨ target > latestVersion set
  · rw [if_pos refused] at ran
    cases ran
  · rw [if_neg refused, if_neg (Int.not_lt.mpr consistent.supported), runAll_append] at ran
    push Not at refused
    obtain ⟨before, moved, closed⟩ := ran
    obtain ⟨filled, backfilled, moved⟩ := runAll_append.mp moved
    obtain ⟨history, filledRows, log⟩ := backfill_fills numbered consistent
    cases backfilled.symm.trans filledRows
    cases closed
    refine ⟨rfl, refused.1, refused.2, ?_⟩
    show RecordedUpTo set before.history target ∧ (schemaAt set target = some before.schema ↔ _)
    by_cases up : currentSchemaVersion db < target
    · rw [if_pos up] at moved
      obtain ⟨_, right⟩ := up_keeps numbered consistent.nonneg (Int.le_of_lt up) refused.2
        (rfl : currentSchemaVersion { db with history := history } = _) consistent.schema log moved
      refine ⟨right.log, fun _ down => absurd down (Int.not_lt.mpr (Int.le_of_lt up)), fun _ => right.schema⟩
    · rw [if_neg up] at moved
      by_cases down : target < currentSchemaVersion db
      · rw [if_pos down] at moved
        obtain ⟨recorded, right⟩ := down_keeps numbered refused.1 (Int.le_of_lt down) consistent.supported (by rfl) log moved
        exact ⟨recorded, right.trans ⟨fun descends _ => descends, fun descends => descends down⟩⟩
      · rw [if_neg down] at moved
        cases moved
        have same : currentSchemaVersion db = target := by omega
        rw [← same]
        exact ⟨log, fun _ less => absurd less (Int.lt_irrefl _), fun _ => consistent.schema⟩

inductive Harmless (set : MigrationSet) (target : Int) (db : Database) : List Statement → Prop where
  /-- What was carried out changed nothing. -/
  | idle {done} : runAll done db = .ok db → Harmless set target db done
  /-- What was carried out behind the log row of a migration changed nothing. -/
  | atVersion {version middle rest} : currentSchemaVersion db ≤ version → version ≤ latestVersion set →
      runAll (backfillHistoryIfMissing set (currentSchemaVersion db) db ++
        migrateUp set (currentSchemaVersion db) version) db = .ok middle →
      runAll rest middle = .ok middle →
      Harmless set target db (backfillHistoryIfMissing set (currentSchemaVersion db) db ++
        migrateUp set (currentSchemaVersion db) version ++ rest)
  /-- Only the log row of migration 1 is missing. -/
  | unrecorded {done migration} : db.history = [] → currentSchemaVersion db = 0 → pending set 0 1 =
    [migration] → done ++ [recordMigration migration .up] = upStatements migration →
      Harmless set target db done
  | finished : (target < currentSchemaVersion db → Descends set target db.schema) →
    Harmless set target db (migrateDatabaseTo set target db)

inductive Steady (set : MigrationSet) : Database → Prop where
  | new : Steady set .new
  | call {db after target done rest} : Steady set db → migrateDatabaseTo set target db =
    done ++ rest → Harmless set target db done → runAll done db = .ok after → Steady set after

theorem Consistent.atVersion (numbered : Numbered set)
    {middle : Database} (consistent : Consistent set db)
    (within : currentSchemaVersion db ≤ version) (supported : version ≤ latestVersion set)
    (ran : runAll (backfillHistoryIfMissing set (currentSchemaVersion db) db ++
      migrateUp set (currentSchemaVersion db) version) db = .ok middle) :
    Consistent set middle := by
  obtain ⟨filled, backfilled, moved⟩ := runAll_append.mp ran
  obtain ⟨history, filledRows, log⟩ := backfill_fills numbered consistent
  cases backfilled.symm.trans filledRows
  obtain ⟨same, right⟩ := up_keeps numbered consistent.nonneg within supported
    (rfl : currentSchemaVersion { db with history := history } = _) consistent.schema log moved
  have nonneg := consistent.nonneg
  constructor
  · omega
  · omega
  · rw [same]
    exact right.schema
  · rw [same]
    exact .inl right.log

theorem Consistent.unrecorded (numbered : Numbered set) {after : Database} {done : List Statement}
    (consistent : Consistent set db) (empty : db.history = []) (zero : currentSchemaVersion db = 0)
    (first : pending set 0 1 = [migration])
    (short : done ++ [recordMigration migration .up] = upStatements migration)
    (ran : runAll done db = .ok after) : Consistent set after := by
  have listed : migration ∈ pending set 0 1 := by rw [first]; exact mem_singleton_self _
  obtain ⟨mem, bounds⟩ := mem_pending.mp listed
  have supported := (numbered.bounds mem).2
  have one : migration.version = 1 := by omega
  -- with its log row the migration would be complete
  have complete : runAll (migrateUp set 0 1) db = .ok { after with history := after.history ++ [rowOf .up migration] } := by
    unfold migrateUp
    rw [first, flatMap_singleton, ← short]
    exact runAll_append.mpr ⟨after, ran, rfl⟩
  have recorded : RecordedUpTo set db.history 0 := by
    rw [empty]
    exact recordedUpTo_nil numbered
  have start : schemaAt set 0 = some db.schema := zero ▸ consistent.schema
  obtain ⟨same, right⟩ := up_keeps numbered (Int.le_refl 0) (by decide) (one ▸ supported) zero
    start recorded complete
  obtain ⟨_, _, whole⟩ := (runAll_up _).mp complete
  have history : after.history ++ [rowOf .up migration] = [] ++ [rowOf .up migration] := by
    have rows := congrArg Database.history whole
    rw [first, empty] at rows
    exact rows
  have version : currentSchemaVersion after = 1 := same
  constructor
  · omega
  · omega
  · rw [version]
    exact right.schema
  · exact .inr ⟨append_cancel_right history, version⟩

theorem Consistent.call (numbered : Numbered set) {db after : Database} {target : Int}
    {done : List Statement} (consistent : Consistent set db)
    (harmless : Harmless set target db done) (ran : runAll done db = .ok after) :
    Consistent set after := by
  cases harmless with
  | idle unchanged =>
    cases unchanged.symm.trans ran
    exact consistent
  | atVersion within supported reached unchanged =>
    obtain ⟨middle, before, behind⟩ := runAll_append.mp ran
    cases reached.symm.trans before
    cases unchanged.symm.trans behind
    exact consistent.atVersion numbered within supported reached
  | unrecorded empty zero first short => exact consistent.unrecorded numbered empty zero first short ran
  | finished descends =>
    obtain ⟨same, low, high, log, schema⟩ := consistent.finished numbered ran
    constructor
    · omega
    · omega
    · rw [same]
      exact schema.mpr descends
    · rw [same]
      exact .inl log

theorem Steady.consistent (numbered : Numbered set) (steady : Steady set db) :
    Consistent set db := by
  induction steady with
  | new => exact consistent_new numbered
  | call _ _ harmless ran ih => exact ih.call numbered harmless ran

/-- Behind harmless calls, whatever returns `Ok` tells the truth, downgrades that cannot be
rebuilt apart. -/
theorem migrateDatabaseTo_truthful_iff (numbered : Numbered set)
    {db : Database} (steady : Steady set db)
    {target : Int} {out : Database} (ok : runAll (migrateDatabaseTo set target db) db = .ok out) :
    Truthful set target out ↔ (target < currentSchemaVersion db → Descends set target db.schema) := by
  obtain ⟨_, _, _, log, schema⟩ := (steady.consistent numbered).finished numbered ok
  constructor
  · intro truthful
    exact schema.mp truthful.schema
  · intro descends
    exact ⟨schema.mpr descends, log⟩

end Numbering

def notesTable : SchemaObject := ⟨.table, "notes", "notes", "CREATE TABLE notes(id INTEGER)"⟩
def tagsTable : SchemaObject := ⟨.table, "tags", "tags", "CREATE TABLE tags(id INTEGER)"⟩
def twoTables : MigrationSet :=
  ⟨[⟨1, "initial", [Master.create notesTable, Master.create tagsTable]⟩]⟩

/-- A crash right before the only log row: the next call adds it. -/
theorem twoTables_truthful : ∃ db out, Steady twoTables db ∧
    runAll (migrateDatabaseTo twoTables 1 db) db = .ok out ∧ Truthful twoTables 1 out := by
  have numbered : Numbered twoTables := rfl
  obtain ⟨notes, first, notesOnly⟩ :=
    Master.create_of_creatable (show (Master.empty frameworkTables).Creatable notesTable by decide)
  obtain ⟨both, second, _⟩ := Master.create_of_creatable (show notes.Creatable tagsTable by
      unfold Master.Creatable
      rw [notesOnly]
      decide)
  have ran : runAll [.ddl "migration 1 (initial): " (Master.create notesTable),
    .ddl "migration 1 (initial): " (Master.create tagsTable), .writeSchemaVersion 1] .new =
    .ok ⟨both, some 1, []⟩ := by
    simp only [runAll, Statement.apply, Database.new, first, second]
  have steady : Steady twoTables ⟨both, some 1, []⟩ := by
    refine @Steady.call twoTables .new _ 1 _ [.recordMigration ⟨1, "initial", .up⟩, .writeSchemaVersion 1] .new ?_ ?_ ran
    · rfl
    · exact .unrecorded rfl rfl rfl rfl
  refine ⟨_, ⟨both, some 1, [⟨1, "initial", .up⟩]⟩, steady, rfl, ?_⟩
  exact (migrateDatabaseTo_truthful_iff numbered steady rfl).mpr fun down => absurd down (Int.lt_irrefl 1)

/-- A crash between the two tables of migration 1, and then a call with target 0. -/
theorem twoTables_untruthful : ¬ ∀ set, Numbered set → ∀ db, Reached set db → ∀ target out,
    runAll (migrateDatabaseTo set target db) db = .ok out → Truthful set target out := by
  intro claimed
  obtain ⟨notes, first, notesOnly⟩ :=
    Master.create_of_creatable (show (Master.empty frameworkTables).Creatable notesTable by decide)
  have ran : runAll [.ddl "migration 1 (initial): " (Master.create notesTable)] .new =
    .ok ⟨notes, none, []⟩ := by simp only [runAll, Statement.apply, Database.new, first]
  have reached : Reached twoTables ⟨notes, none, []⟩ := by
    refine @Reached.call twoTables .new _ 1 _ [
      .ddl "migration 1 (initial): " (Master.create tagsTable), .writeSchemaVersion 1,
      .recordMigration ⟨1, "initial", .up⟩, .writeSchemaVersion 1] .new ?_ ran
    rfl
  have truthful := claimed twoTables rfl _ reached 0 ⟨notes, some 0, []⟩ rfl
  have empty : schemaAt twoTables 0 = some (Master.empty frameworkTables) := rfl
  have same := congrArg Master.objects (Option.some.inj (empty.symm.trans truthful.schema))
  rw [notesOnly] at same
  exact Finset.insert_ne_empty _ _ same.symm

end Atlas.DbUtils
