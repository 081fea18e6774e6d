import Mathlib.Data.List.Basic

/-! One database connection with explicit transactions and failing statements.

A transaction body is a list of blocks. A block reads the working copy and
issues its statements in order, so a later block sees what earlier ones wrote.
Which statements fail is a parameter: a fault plan gives every statement position
an optional error message. A failing statement changes nothing by itself and
leaves the transaction open; whether a failing `COMMIT` or `ROLLBACK` does so is
a parameter as well. Rows that a read loses to a dropped error are up to the
block that reads them. -/
namespace Atlas.Sql
open List

variable {Db Error Value : Type}

abbrev Statement (Db : Type) := Db → Db

/-- A read of the working copy followed by the statements it leads to. -/
abbrev Block (Db : Type) := Db → List (Statement Db)

def execAll (statements : List (Statement Db)) (db : Db) : Db :=
  statements.foldl (fun current statement => statement current) db
def runBlocks (blocks : List (Block Db)) (db : Db) : Db :=
  blocks.foldl (fun current block => execAll (block current) current) db

def countStatements : List (Block Db) → Db → Nat
  | [], _ => 0
  | block :: rest, db => (block db).length + countStatements rest (execAll (block db) db)

structure Connection (Db : Type) where
  committed : Db
  pending : Option Db

def Connection.visible (connection : Connection Db) : Db :=
  connection.pending.getD connection.committed

/-- Error messages of the statements that fail, by position in the body, and for
every read that drops its row errors the number of rows delivered before one. -/
structure FaultPlan where
  begins : Option String := none
  statement : Nat → Option String := fun _ => none
  fetches : Nat → Option Nat := fun _ => none
  commits : Option String := none
  rollsBack : Option String := none
  /-- Whether the transaction is still there after its `COMMIT` or `ROLLBACK` has failed. SQLite
  keeps it when the database is busy under a rollback journal, and has rolled it back itself
  after an I/O error or on a full disk. -/
  staysOpen : Bool := false

def FaultPlan.faultless : FaultPlan := {}

/-- The end of a transaction, with its error if there is one, leaves no transaction open. -/
def FaultPlan.Closes (faults : FaultPlan) (failure : Option String) : Prop :=
  failure = none ∨ faults.staysOpen = false

instance (faults : FaultPlan) (failure : Option String) : Decidable (faults.Closes failure) :=
  inferInstanceAs (Decidable (_ ∨ _))

/-- `rows.filter_map(|row| row.ok())`: a read that breaks off is taken for a
complete one. -/
def fetched {Row : Type} : Option Nat → List Row → List Row
  | none, rows => rows
  | some limit, rows => rows.take limit

/-- Runs statements from a position on. The first component is the error of the
statement that failed; the last one is the working copy at that moment. -/
def execUntilFault (faults : Nat → Option String) :
    Nat → List (Statement Db) → Db → Option String × Db
  | _, [], db => (none, db)
  | position, statement :: rest, db =>
    match faults position with
    | some message => (some message, db)
    | none => execUntilFault faults (position + 1) rest (statement db)

def runUntilFault (faults : Nat → Option String) : Nat → List (Block Db) → Db → Option String × Db
  | _, [], db => (none, db)
  | position, block :: rest, db =>
    match execUntilFault faults position (block db) db with
    | (some message, reached) => (some message, reached)
    | (none, reached) => runUntilFault faults (position + (block db).length) rest reached

inductive OnError where
  /-- `let _ = conn.execute_batch("ROLLBACK")`, the original error is returned. -/
  | rollback
  /-- The error is propagated with `?`. -/
  | propagate
  deriving DecidableEq

def transaction (dbError : String → Error)
    (onError : OnError) (faults : FaultPlan) (blocks : List (Block Db))
    (value : Value) (connection : Connection Db) : Except Error Value × Connection Db :=
  match connection.pending with
  | some _ => (.error (dbError "cannot start a transaction within a transaction"), connection)
  | none =>
    match faults.begins with
    | some message => (.error (dbError message), connection)
    | none =>
      match runUntilFault faults.statement 0 blocks connection.committed with
      | (some message, reached) =>
        match onError with
        | .propagate => (.error (dbError message), { connection with pending := some reached })
        | .rollback =>
          if faults.Closes faults.rollsBack then (.error (dbError message), connection)
          else (.error (dbError message), { connection with pending := some reached })
      | (none, reached) =>
        match faults.commits with
        | some message =>
          if faults.Closes faults.commits then (.error (dbError message), connection)
          else (.error (dbError message), { connection with pending := some reached })
        | none => (.ok value, { committed := reached, pending := none })

@[simp] theorem execAll_nil (db : Db) : execAll [] db = db := rfl
@[simp] theorem execAll_cons (statement : Statement Db) (rest : List (Statement Db)) (db : Db) :
    execAll (statement :: rest) db = execAll rest (statement db) := rfl
@[simp] theorem execAll_append (first second : List (Statement Db)) (db : Db) :
    execAll (first ++ second) db = execAll second (execAll first db) := foldl_append
@[simp] theorem runBlocks_nil (db : Db) : runBlocks [] db = db := rfl
@[simp] theorem runBlocks_cons (block : Block Db) (rest : List (Block Db)) (db : Db) :
    runBlocks (block :: rest) db = runBlocks rest (execAll (block db) db) := rfl

variable {statements : List (Statement Db)}
  {position offset : Nat} {connection after : Connection Db}

theorem execUntilFault_clear {faults : Nat → Option String}
    (db : Db) (clear : ∀ offset < statements.length, faults (position + offset) = none) :
    execUntilFault faults position statements db = (none, execAll statements db) := by
  induction statements generalizing position db with
  | nil => rfl
  | cons statement rest ih =>
    have first : faults position = none := by simpa using clear 0 (by simp)
    have later : ∀ offset < rest.length, faults (position + 1 + offset) = none := by
      intro offset bounded
      have shifted := clear (offset + 1) (by simpa using bounded)
      simpa [Nat.add_assoc, Nat.add_comm 1 offset] using shifted
    simpa [execUntilFault, first, execAll] using ih (statement db) later

theorem execUntilFault_struck {faults : Nat → Option String} (db : Db)
    (bounded : offset < statements.length) (struck : (faults (position + offset)).isSome) :
    ∃ message reached, execUntilFault faults position statements db = (some message, reached) := by
  induction statements generalizing position offset db with
  | nil => simp at bounded
  | cons statement rest ih =>
    cases found : faults position with
    | some message => exact ⟨message, db, by simp [execUntilFault, found]⟩
    | none =>
      cases offset with
      | zero => simp [found] at struck
      | succ offset =>
        have shifted : (faults (position + 1 + offset)).isSome := by simpa [Nat.add_assoc, Nat.add_comm 1 offset] using struck
        obtain ⟨message, reached, ran⟩ := ih (statement db) (by simpa using bounded) shifted
        exact ⟨message, reached, by simpa [execUntilFault, found] using ran⟩

variable {db : Db}

theorem execUntilFault_ok {faults : Nat → Option String}
    {reached : Db} (ran : execUntilFault faults position statements db = (none, reached)) :
    reached = execAll statements db := by
  induction statements generalizing position db with
  | nil => exact (Prod.mk.inj ran).2.symm
  | cons statement rest ih =>
    cases found : faults position with
    | some message => simp [execUntilFault, found] at ran
    | none => exact ih (by simpa [execUntilFault, found] using ran)

variable {blocks : List (Block Db)}

theorem runUntilFault_clear {faults : Nat → Option String} (position : Nat)
    (db : Db) (clear : ∀ offset < countStatements blocks db, faults (position + offset) = none) :
    runUntilFault faults position blocks db = (none, runBlocks blocks db) := by
  induction blocks generalizing position db with
  | nil => rfl
  | cons block rest ih =>
    have first : execUntilFault faults position (block db) db = (none, execAll (block db) db) :=
      execUntilFault_clear db fun offset bounded => clear offset (Nat.lt_of_lt_of_le bounded (Nat.le_add_right _ _))
    have later : ∀ offset < countStatements rest (execAll (block db) db),
      faults (position + (block db).length + offset) = none := by
      intro offset bounded
      rw [Nat.add_assoc]
      exact clear _ (Nat.add_lt_add_left bounded _)
    simpa [runUntilFault, first, runBlocks] using ih _ _ later

theorem runUntilFault_struck {faults : Nat → Option String} (position : Nat) (db : Db)
    (bounded : offset < countStatements blocks db) (struck : (faults (position + offset)).isSome) :
    ∃ message reached, runUntilFault faults position blocks db = (some message, reached) := by
  induction blocks generalizing position offset db with
  | nil => simp [countStatements] at bounded
  | cons block rest ih =>
    cases ran : execUntilFault faults position (block db) db with
    | mk failure reached =>
      cases failure with
      | some message => exact ⟨message, reached, by simp [runUntilFault, ran]⟩
      | none =>
        -- The block ran through, so the fault lies beyond it.
        have beyond : (block db).length ≤ offset := by
          by_contra inside
          obtain ⟨message, stopped, failed⟩ := execUntilFault_struck db (Nat.lt_of_not_le inside) struck
          rw [ran] at failed
          cases failed
        have whole := execUntilFault_ok ran
        obtain ⟨rest', split⟩ := Nat.exists_eq_add_of_le beyond
        subst split
        rw [← Nat.add_assoc] at struck
        obtain ⟨message, stopped, failed⟩ := ih _ reached (by subst whole; exact Nat.lt_of_add_lt_add_left bounded) struck
        exact ⟨message, stopped, by rw [runUntilFault, ran]; exact failed⟩

theorem execUntilFault_append (faults : Nat → Option String)
    (position : Nat) (first second : List (Statement Db)) (db : Db) :
    execUntilFault faults position (first ++ second) db =
      match execUntilFault faults position first db with
      | (some message, reached) => (some message, reached)
      | (none, reached) => execUntilFault faults (position + first.length) second reached := by
  induction first generalizing position db with
  | nil => rfl
  | cons statement rest ih =>
    rw [cons_append, execUntilFault, execUntilFault]
    cases faults position with
    | some message => rfl
    | none =>
      dsimp only
      rw [ih, length_cons, Nat.add_assoc, Nat.add_comm 1]

theorem execUntilFault_invariant (Invariant : Db → Prop) {faults : Nat → Option String}
    (kept : ∀ statement ∈ statements, ∀ db, Invariant db → Invariant (statement db))
    (position : Nat) (holds : Invariant db) :
    Invariant (execUntilFault faults position statements db).2 := by
  induction statements generalizing position db with
  | nil => exact holds
  | cons statement rest ih =>
    unfold execUntilFault
    cases faults position with
    | some message => exact holds
    | none => exact ih (fun later mem => kept later (.tail _ mem)) (position + 1) (kept statement (.head _) db holds)

def Keeps (Invariant : Db → Prop) (statements : List (Statement Db)) : Prop :=
  ∀ faults position db, Invariant db → Invariant (execUntilFault faults position statements db).2

namespace Keeps

variable {Invariant : Db → Prop}

theorem of_each {statements : List (Statement Db)}
    (kept : ∀ statement ∈ statements, ∀ db, Invariant db → Invariant (statement db)) :
    Keeps Invariant statements :=
  fun _ position _ holds => execUntilFault_invariant Invariant kept position holds

theorem append {first second : List (Statement Db)} (early : Keeps Invariant first)
    (late : Keeps Invariant second) : Keeps Invariant (first ++ second) := by
  intro faults position db holds
  have reached := early faults position db holds
  rw [execUntilFault_append]
  cases ran : execUntilFault faults position first db with
  | mk failure stopped =>
    rw [ran] at reached
    cases failure with
    | some message => exact reached
    | none => exact late faults _ stopped reached

theorem flatMap {Item : Type} {statements : Item → List (Statement Db)}
    (items : List Item) (kept : ∀ item ∈ items, Keeps Invariant (statements item)) :
    Keeps Invariant (items.flatMap statements) := by
  induction items with
  | nil => exact fun _ _ _ holds => holds
  | cons item rest ih =>
    rw [flatMap_cons]
    exact (kept item (.head _)).append (ih fun later mem => kept later (.tail _ mem))

theorem single {statement : Statement Db} (kept : ∀ db, Invariant db → Invariant (statement db)) :
    Keeps Invariant [statement] := of_each fun _ mem => by rw [mem_singleton.mp mem]; exact kept

theorem pair {first second : Statement Db} (early : ∀ db, Invariant db → Invariant (first db))
    (late : ∀ db, Invariant db → Invariant (second (first db))) :
    Keeps Invariant [first, second] := by
  intro faults position db holds
  unfold execUntilFault
  cases faults position with
  | some message => exact holds
  | none =>
    unfold execUntilFault
    cases faults (position + 1) with
    | some message => exact early db holds
    | none => exact late db holds

end Keeps

theorem runUntilFault_invariant {Invariant : Db → Prop} (faults : Nat → Option String)
    (blocks : List (Block Db)) (kept : ∀ block ∈ blocks, ∀ db, Invariant db →
      Keeps Invariant (block db)) (position : Nat) (holds : Invariant db) :
    Invariant (runUntilFault faults position blocks db).2 := by
  induction blocks generalizing position db with
  | nil => exact holds
  | cons block rest ih =>
    have reached := kept block (.head _) db holds faults position db holds
    unfold runUntilFault
    cases ran : execUntilFault faults position (block db) db with
    | mk failure stopped =>
      rw [ran] at reached
      cases failure with
      | some message => exact reached
      | none => exact ih (fun later mem => kept later (.tail _ mem)) _ reached

variable {faults : FaultPlan} {dbError : String → Error} {onError : OnError} {value : Value}

theorem transaction_invariant {Invariant : Db → Prop} (kept : ∀ block ∈ blocks, ∀ current,
    Invariant current → Keeps Invariant (block current)) (holds : Invariant db) :
    let connection := (transaction dbError onError faults blocks value ⟨db, none⟩).2
    Invariant connection.committed ∧ Invariant connection.visible := by
  have reached := runUntilFault_invariant faults.statement blocks kept 0 holds
  unfold transaction
  cases faults.begins with
  | some message => exact ⟨holds, holds⟩
  | none =>
    cases ran : runUntilFault faults.statement 0 blocks db with
    | mk failure stopped =>
      rw [ran] at reached
      cases failure with
      | none =>
        cases faults.commits with
        | none => exact ⟨reached, reached⟩
        | some message =>
          dsimp only
          split
          · exact ⟨holds, holds⟩
          · exact ⟨holds, reached⟩
      | some message =>
        cases onError with
        | propagate => exact ⟨holds, reached⟩
        | rollback =>
          dsimp only
          split
          · exact ⟨holds, holds⟩
          · exact ⟨holds, reached⟩

def FaultPlan.Strikes (faults : FaultPlan) (blocks : List (Block Db)) (db : Db) : Prop :=
  ∃ position < countStatements blocks db, (faults.statement position).isSome

/-- Either everything is committed, or an error leaves the tables as they were;
in both cases no transaction is open. -/
def AllOrNothing (complete db : Db) (outcome : Except Error Value × Connection Db) : Prop :=
  (∃ value, outcome = (.ok value, ⟨complete, none⟩)) ∨
    (∃ error, outcome = (.error error, ⟨db, none⟩))

/-- The faults a transaction tolerates: a body that reacts to an error needs its own
`ROLLBACK` to close the transaction, a body that propagates it tolerates none, and the final
`COMMIT` must close it too. -/
def FaultPlan.Tolerated (faults : FaultPlan)
    (onError : OnError) (blocks : List (Block Db)) (db : Db) : Prop :=
  faults.begins.isSome ∨ (faults.Strikes blocks db ∧ onError = .rollback ∧ faults.Closes faults.rollsBack) ∨
    (¬ faults.Strikes blocks db ∧ faults.Closes faults.commits)

theorem transaction_of_begin_fault {message : String} (failed : faults.begins = some message) :
    transaction dbError onError faults blocks value ⟨db, none⟩ = (.error (dbError message), ⟨db, none⟩) := by
  simp [transaction, failed]

theorem transaction_of_clear (begun : faults.begins = none) (clear : ¬ faults.Strikes blocks db) :
    transaction dbError onError faults blocks value ⟨db, none⟩ =
      match faults.commits with
      | some message =>
        (.error (dbError message),
          if faults.Closes (some message) then ⟨db, none⟩ else ⟨db, some (runBlocks blocks db)⟩)
      | none => (.ok value, ⟨runBlocks blocks db, none⟩) := by
  have ran : runUntilFault faults.statement 0 blocks db = (none, runBlocks blocks db) := by
    refine runUntilFault_clear 0 db fun offset bounded => ?_
    rw [Nat.zero_add]
    cases found : faults.statement offset with
    | none => rfl
    | some message => exact absurd ⟨offset, bounded, by simp [found]⟩ clear
  unfold transaction
  rw [begun, ran]
  cases faults.commits with
  | none => rfl
  | some message =>
    dsimp only
    split <;> rfl

theorem transaction_of_strikes (dbError : String → Error) (onError : OnError) (value : Value)
    (begun : faults.begins = none) (strikes : faults.Strikes blocks db) :
    ∃ message reached, transaction dbError onError faults blocks value ⟨db, none⟩ = (.error (dbError message),
      if onError = .rollback ∧ faults.Closes faults.rollsBack then ⟨db, none⟩ else ⟨db, some reached⟩) := by
  obtain ⟨position, bounded, struck⟩ := strikes
  obtain ⟨message, reached, ran⟩ := runUntilFault_struck 0 db bounded (by simpa using struck)
  refine ⟨message, reached, ?_⟩
  unfold transaction
  rw [begun, ran]
  cases onError with
  | propagate => rfl
  | rollback =>
    simp only [true_and]
    split <;> rfl

theorem transaction_ok {result : Value}
    (ran : transaction dbError onError faults blocks value connection = (.ok result, after)) :
    connection.pending = none ∧ after = ⟨runBlocks blocks connection.committed, none⟩ := by
  obtain ⟨db, pending⟩ := connection
  cases pending with
  | some working => cases ran
  | none =>
    refine ⟨rfl, ?_⟩
    cases begun : faults.begins with
    | some message =>
      rw [transaction_of_begin_fault begun] at ran
      cases ran
    | none =>
      by_cases strikes : faults.Strikes blocks db
      · obtain ⟨message, reached, failed⟩ := transaction_of_strikes dbError onError value begun strikes
        rw [failed] at ran
        cases ran
      · rw [transaction_of_clear begun strikes] at ran
        cases committed : faults.commits with
        | some message => simp [committed] at ran
        | none =>
          rw [committed] at ran
          cases ran
          rfl

/-- A transaction whose end always closes it leaves the connection as it was when it fails. -/
theorem transaction_error_unchanged {error : Error} (closes : faults.staysOpen = false)
    (failed : transaction dbError .rollback faults blocks value connection = (.error error, after)) :
    after = connection := by
  obtain ⟨db, pending⟩ := connection
  have closing (failure : Option String) : faults.Closes failure := .inr closes
  cases pending with
  | some working =>
    cases failed
    rfl
  | none =>
    cases begun : faults.begins with
    | some message =>
      rw [transaction_of_begin_fault begun] at failed
      cases failed
      rfl
    | none =>
      by_cases strikes : faults.Strikes blocks db
      · obtain ⟨message, reached, ran⟩ := transaction_of_strikes dbError .rollback value begun strikes
        rw [ran, if_pos ⟨rfl, closing _⟩] at failed
        cases failed
        rfl
      · rw [transaction_of_clear begun strikes] at failed
        cases committed : faults.commits with
        | none => simp [committed] at failed
        | some message =>
          rw [committed] at failed
          dsimp only at failed
          rw [if_pos (closing _)] at failed
          cases failed
          rfl

theorem transaction_allOrNothing_iff :
    AllOrNothing (runBlocks blocks db) db (transaction dbError onError faults blocks value ⟨db, none⟩) ↔
      faults.Tolerated onError blocks db := by
  cases begun : faults.begins with
  | some message =>
    rw [transaction_of_begin_fault begun]
    simp [AllOrNothing, FaultPlan.Tolerated, begun]
  | none =>
    by_cases strikes : faults.Strikes blocks db
    · obtain ⟨message, reached, ran⟩ := transaction_of_strikes dbError onError value begun strikes
      rw [ran]
      by_cases undone : onError = .rollback ∧ faults.Closes faults.rollsBack <;>
        simp [AllOrNothing, FaultPlan.Tolerated, begun, strikes, undone]
    · rw [transaction_of_clear begun strikes]
      cases committed : faults.commits with
      | none => simp [AllOrNothing, FaultPlan.Tolerated, begun, strikes, committed, FaultPlan.Closes]
      | some message =>
        by_cases closes : faults.Closes (some message) <;>
          simp [AllOrNothing, FaultPlan.Tolerated, begun, strikes, committed, closes]

end Atlas.Sql
