import Atlas.Sql.Like
import Atlas.Sql.Master

/-! Schema migrations of the Atlas stores. A call of `migrate_database_to` is given as the
list of SQL statements that it issues. None of them is inside a transaction, so a call that
stops early has carried out the statements before that point and no other. Statements that
touch neither the user schema nor the version nor the log (provenance, other metadata,
pragmas, the framework tables themselves) are left out, and so is the one index on the
framework tables: a downgrade drops it and creates it again with the user schema, and the
next call creates it where it is missing. -/
namespace Atlas.DbUtils
open Sql

def frameworkTables : List String := ["metadata", "schema_migrations", "atlas_provenance"]
def isFrameworkObject (name : String) : Bool := decide (name ∈ frameworkTables)

/-- What both the export and the drop loop pass over: the underscore of `sqlite_%` is a
wildcard. -/
def isHidden (name : String) : Bool := like "sqlite_%".toList name.toList || isFrameworkObject name

abbrev UserSchema := Master frameworkTables

inductive MigrationDirection where
  | up
  | down
  deriving DecidableEq

structure Migration where
  version : Int
  name : String
  /-- The statements of `up_sql`; one that fails changes nothing. -/
  upSql : List (UserSchema → Option UserSchema)

structure MigrationSet where
  migrations : List Migration

structure HistoryRow where
  version : Int
  name : String
  direction : MigrationDirection

structure Database where
  schema : UserSchema
  /-- The row `schema_version` of `metadata`. -/
  schemaVersion : Option Int
  history : List HistoryRow

def Database.new : Database := ⟨Master.empty frameworkTables, none, []⟩

inductive Statement where
  /-- `failure` is what the error says in front of SQLite's own message. -/
  | ddl (failure : String) (run : UserSchema → Option UserSchema)
  | writeSchemaVersion (version : Int)
  | recordMigration (row : HistoryRow)
  /-- The call returns an error here. -/
  | fail (msg : String)

def Statement.apply : Statement → Database → Except String Database
  | .ddl failure run, db =>
    match run db.schema with
    | none => .error failure
    | some schema => .ok { db with schema := schema }
  | .writeSchemaVersion version, db => .ok { db with schemaVersion := some version }
  | .recordMigration row, db => .ok { db with history := db.history ++ [row] }
  | .fail msg, _ => .error msg

def runAll : List Statement → Database → Except String Database
  | [], db => .ok db
  | statement :: rest, db =>
    match statement.apply db with
    | .error msg => .error msg
    | .ok next => runAll rest next

variable (set : MigrationSet) (current target : Int)

def latestVersion : Int := (set.migrations.getLast?.map fun migration => migration.version).getD 0
def currentSchemaVersion (db : Database) : Int := db.schemaVersion.getD 0
def recordMigration (migration : Migration) (direction : MigrationDirection) : Statement :=
  .recordMigration ⟨migration.version, migration.name, direction⟩

def backfillHistoryIfMissing (db : Database) : List Statement :=
  if db.history ≠ [] ∨ current = 0 then []
  else
    (set.migrations.filter fun migration => migration.version ≤ current).map fun migration =>
      recordMigration migration .up

def upStatements (migration : Migration) : List Statement := migration.upSql.map
    (.ddl ("migration " ++ toString migration.version ++ " (" ++ migration.name ++ "): ")) ++
    [.writeSchemaVersion migration.version, recordMigration migration .up]

def pending : List Migration := set.migrations.filter fun migration =>
    migration.version > current ∧ migration.version ≤ target

def migrateUp : List Statement := (pending set current target).flatMap upStatements
def undoneVersions : List Int :=
  (List.range (current - target).toNat).map fun offset : Nat => current - (offset : Int)

def downRow (version : Int) : Statement :=
  match set.migrations.find? fun migration => migration.version = version with
  | none => .fail ("missing migration definition for version " ++ toString version)
  | some migration => recordMigration migration .down

def exportUserSchemaSql (schema : UserSchema) : List Statement :=
  (Master.userObjects isHidden Master.createOrder schema).map fun object =>
    .ddl ("rebuild schema v" ++ toString target ++ ": ") (Master.create object)

def kindText : ObjectKind → String
  | .table => "table"
  | .index => "index"
  | .view => "view"
  | .trigger => "trigger"

def dropUserObjects (schema : UserSchema) : List Statement :=
  (Master.userObjects isHidden Master.dropOrder schema).map fun object =>
    .ddl ("drop " ++ kindText object.kind ++ " " ++ object.name ++ ": ") fun current =>
      some (Master.dropIfExists object.kind object.name current)

def rebuildDown (db : Database) : List Statement :=
  match runAll (migrateUp set 0 target) Database.new with
  | .error msg => [.fail msg]
  | .ok targetConn =>
    dropUserObjects db.schema ++ exportUserSchemaSql target targetConn.schema ++ (undoneVersions current target).map (downRow set)

def migrateDatabaseTo (db : Database) : List Statement :=
  let latest := latestVersion set
  if target < 0 ∨ target > latest then
    [.fail ("unsupported target schema version " ++ toString target ++ "; latest is " ++ toString latest)]
  else
    let current := currentSchemaVersion db
    if current > latest then
      [.fail ("database schema version " ++ toString current ++ " newer than atlas-supported version " ++ toString latest)]
    else
      backfillHistoryIfMissing set current db ++ (if current < target then migrateUp set current target
         else if target < current then rebuildDown set current target db
         else []) ++
        [.writeSchemaVersion target]

def applyAll (statements : List (UserSchema → Option UserSchema)) (schema : UserSchema) :
    Option UserSchema := statements.foldlM (fun current run => run current) schema

def schemaAt (version : Int) : Option UserSchema :=
  applyAll ((set.migrations.filter fun migration => migration.version ≤ version).flatMap
    fun migration => migration.upSql) (Master.empty frameworkTables)

def latestDirection (history : List HistoryRow) (version : Int) : Option MigrationDirection :=
  (history.filter fun row => row.version = version).getLast?.map fun row => row.direction
def RecordedUpTo (history : List HistoryRow) (target : Int) : Prop := ∀ migration ∈ set.migrations,
    latestDirection history migration.version = some .up ↔ migration.version ≤ target
def Numbered : Prop := set.migrations.map (fun migration => migration.version) =
    (List.range set.migrations.length).map fun index : Nat => (index : Int) + 1

/-- Schema and log say that exactly the migrations up to the target were applied. -/
structure Truthful (set : MigrationSet) (target : Int) (db : Database) : Prop where
  schema : schemaAt set target = some db.schema
  log : RecordedUpTo set db.history target

/-- Databases that any number of calls leave behind. Each call has carried out `done` and
then stopped: it crashed, its next statement failed, or none is left. -/
inductive Reached (set : MigrationSet) : Database → Prop where
  | new : Reached set .new
  | call {db after target done rest} : Reached set db →
    migrateDatabaseTo set target db = done ++ rest → runAll done db = .ok after → Reached set after

end Atlas.DbUtils
