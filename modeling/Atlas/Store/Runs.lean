import Atlas.Store.Mutation

/-! Runs of the four node mutations from an empty store. Every statement
succeeds; a call whose arguments are rejected changes nothing. -/
namespace Atlas.Store
open Core Sql

inductive Mutation where
  | replaceFileGraph (repo path hash : String) (language : Option String) (size : Option Nat)
    (nodes : List Node) (edges : List Edge)
  | replaceFilesTransactional (repo : String) (files : List ParsedFile)
  | deleteFileGraph (repo path : String)
  | renameFileGraph (repo oldPath newPath : String)

namespace Mutation

variable (nfc : String → String)

def apply (faults : FaultPlan) (connection : Connection Db) : Mutation → Connection Db
  | .replaceFileGraph repo path hash language size nodes edges =>
    (replaceFileGraphForRepo nfc faults repo path hash language size nodes edges connection).2
  | .replaceFilesTransactional repo files => (replaceFilesTransactionalForRepo nfc faults repo files connection).2
  | .deleteFileGraph repo path => (deleteFileGraphForRepo nfc faults repo path connection).2
  | .renameFileGraph repo oldPath newPath => (renameFileGraphForRepo nfc faults repo oldPath newPath connection).2

def commit (mutation : Mutation) (db : Db) : Db :=
  (mutation.apply nfc .faultless ⟨db, none⟩).committed

def body : Mutation → List (Block Db)
  | .replaceFileGraph repo path hash language size nodes edges =>
    match canonicalizeGraphSlice nfc path nodes edges with
    | .error _ => []
    | .ok slice => [doReplaceFileGraph none repo slice.path hash language size slice.nodes slice.edges]
  | .replaceFilesTransactional repo files =>
    match files.mapM (canonicalizeParsedFile nfc) with
    | .error _ => []
    | .ok normal => normal.map (replaceParsedFile none repo)
  | .deleteFileGraph repo path =>
    match canonicalizeRepoPath nfc path with
    | .error _ => []
    | .ok canonical => [Store.deleteFileGraph none repo canonical]
  | .renameFileGraph repo oldPath newPath =>
    match canonicalizeRepoPath nfc oldPath, canonicalizeRepoPath nfc newPath with
    | .ok canonicalOld, .ok canonicalNew =>
      if canonicalOld = canonicalNew then []
      else [Store.renameFileGraph none repo canonicalOld canonicalNew]
    | _, _ => []

end Mutation

def run (nfc : String → String) (mutations : List Mutation) (db : Db) : Db :=
  mutations.foldl (fun current mutation => mutation.commit nfc current) db

theorem transaction_faultless {Value : Type}
    (onError : OnError) (blocks : List (Block Db)) (value : Value) (db : Db) :
    transaction AtlasError.db onError .faultless blocks value ⟨db, none⟩ = (.ok value, ⟨runBlocks blocks db, none⟩) :=
  transaction_of_clear rfl (by simp [FaultPlan.Strikes, FaultPlan.faultless])

theorem mapIdx_replaceParsedFile (repo : String) (files : List ParsedFile) :
    (files.mapIdx fun index file =>
      replaceParsedFile (FaultPlan.faultless.fetches index) repo file) =
      files.map (replaceParsedFile none repo) :=
  List.mapIdx_eq_iff.mpr fun index => by simp [FaultPlan.faultless]

theorem Mutation.commit_eq (nfc : String → String) (mutation : Mutation) (db : Db) :
    mutation.commit nfc db = runBlocks (mutation.body nfc) db := by
  cases mutation with
  | replaceFileGraph repo path hash language size nodes edges =>
    cases accepted : canonicalizeGraphSlice nfc path nodes edges with
    | error error => simp [commit, apply, replaceFileGraphForRepo, body, accepted]
    | ok slice =>
      simp only [commit, apply, replaceFileGraphForRepo, body, accepted, transaction_faultless]
      rfl
  | replaceFilesTransactional repo files =>
    by_cases empty : files = []
    · subst empty
      rfl
    · cases accepted : files.mapM (canonicalizeParsedFile nfc) with
      | error error => simp [commit, apply, replaceFilesTransactionalForRepo, body, empty, accepted]
      | ok normal =>
        simp only [commit, apply, replaceFilesTransactionalForRepo, body, empty, accepted,
          transaction_faultless, mapIdx_replaceParsedFile, if_false]
  | deleteFileGraph repo path =>
    cases accepted : canonicalizeRepoPath nfc path with
    | error error => simp [commit, apply, deleteFileGraphForRepo, body, accepted]
    | ok canonical =>
      simp only [commit, apply, deleteFileGraphForRepo, body, accepted, transaction_faultless]
      rfl
  | renameFileGraph repo oldPath newPath =>
    cases oldAccepted : canonicalizeRepoPath nfc oldPath with
    | error error => simp [commit, apply, renameFileGraphForRepo, body, oldAccepted]
    | ok canonicalOld =>
      cases newAccepted : canonicalizeRepoPath nfc newPath with
      | error error => simp [commit, apply, renameFileGraphForRepo, body, oldAccepted, newAccepted]
      | ok canonicalNew =>
        by_cases same : canonicalOld = canonicalNew
        · simp [commit, apply, renameFileGraphForRepo, body, oldAccepted, newAccepted, same]
        · simp only [commit, apply, renameFileGraphForRepo, body, oldAccepted, newAccepted, same, transaction_faultless, if_false]
          rfl

def functionNode (path name : String) : Node where
  id := 0
  kind := .function
  name := name
  qualifiedName := path ++ "::fn::" ++ name
  filePath := path
  lineStart := 1
  lineEnd := 3
  language := "rust"
  parentName := none
  params := none
  returnType := none
  modifiers := none
  isTest := false
  fileHash := "h"
  extraJson := .null
  repoProvenance := none

def writeFunction (path : String) : Mutation :=
  .replaceFileGraph "repo" path "h" none none [functionNode path "f"] []

/-! Failing statements inside the six hand-written transactions of the store. -/

inductive Call where
  | replaceFileGraph (repo path hash : String) (language : Option String) (size : Option Nat)
    (nodes : List Node) (edges : List Edge)
  | replaceFilesTransactional (repo : String) (files : List ParsedFile)
  | deleteFileGraph (repo path : String)
  | renameFileGraph (repo oldPath newPath : String)
  | rewriteFileEdges (repo path : String) (edges : List Edge)
  | replaceChunks (repo : String) (files : List ParsedFile)

namespace Call

def discard {Value : Type} (outcome : Except AtlasError Value × Connection Db) :
    Except AtlasError Unit × Connection Db := (outcome.1.map fun _ => (), outcome.2)

section
variable (nfc : String → String)

def perform (faults : FaultPlan) (db : Db) : Call → Except AtlasError Unit × Connection Db
  | .replaceFileGraph repo path hash language size nodes edges =>
    replaceFileGraphForRepo nfc faults repo path hash language size nodes edges ⟨db, none⟩
  | .replaceFilesTransactional repo files =>
    discard (replaceFilesTransactionalForRepo nfc faults repo files ⟨db, none⟩)
  | .deleteFileGraph repo path => deleteFileGraphForRepo nfc faults repo path ⟨db, none⟩
  | .renameFileGraph repo oldPath newPath => renameFileGraphForRepo nfc faults repo oldPath newPath ⟨db, none⟩
  | .rewriteFileEdges repo path edges => rewriteFileEdgesForRepo nfc faults repo path edges ⟨db, none⟩
  | .replaceChunks repo files => discard (replaceChunksForParsedFiles faults repo files ⟨db, none⟩)

def complete (call : Call) (db : Db) : Db := (call.perform nfc .faultless db).2.committed

def transaction? : Call → Option (OnError × List (Block Db))
  | .replaceFileGraph repo path hash language size nodes edges =>
    match canonicalizeGraphSlice nfc path nodes edges with
    | .error _ => none
    | .ok slice => some (.rollback,
        [doReplaceFileGraph none repo slice.path hash language size slice.nodes slice.edges])
  | .replaceFilesTransactional repo files =>
    if files = [] then none
    else
      match files.mapM (canonicalizeParsedFile nfc) with
      | .error _ => none
      | .ok normal => some (.rollback, normal.map (replaceParsedFile none repo))
  | .deleteFileGraph repo path =>
    match canonicalizeRepoPath nfc path with
    | .error _ => none
    | .ok canonical => some (.rollback, [Store.deleteFileGraph none repo canonical])
  | .renameFileGraph repo oldPath newPath =>
    match canonicalizeRepoPath nfc oldPath, canonicalizeRepoPath nfc newPath with
    | .ok canonicalOld, .ok canonicalNew =>
      if canonicalOld = canonicalNew then none
      else some (.propagate, [Store.renameFileGraph none repo canonicalOld canonicalNew])
    | _, _ => none
  | .rewriteFileEdges repo path edges =>
    match canonicalizeGraphSlice nfc path [] edges with
    | .error _ => none
    | .ok slice => some (.propagate, [Store.rewriteFileEdges repo slice.path slice.edges])
  | .replaceChunks repo files =>
    if files = [] then none
    else some (.rollback, prepareChunks :: files.map (Store.replaceChunks repo))

/-- The faults under which a call is all-or-nothing: any, if it starts no
transaction, and otherwise those that its transaction tolerates. -/
def Tolerates (faults : FaultPlan) (db : Db) (call : Call) : Prop :=
  match call.transaction? nfc with
  | none => True
  | some (onError, blocks) => faults.Tolerated onError blocks db

end

theorem discard_transaction {Value : Type} (onError : OnError)
    (faults : FaultPlan) (blocks : List (Block Db)) (value : Value) (connection : Connection Db) :
    discard (transaction AtlasError.db onError faults blocks value connection) =
      transaction AtlasError.db onError faults blocks () connection := by
  unfold transaction discard
  split
  · rfl
  · split
    · rfl
    · split
      · cases onError
        · dsimp only
          split <;> rfl
        · rfl
      · split
        · split <;> rfl
        · rfl

theorem mapIdx_replaceParsedFile_of_reads {faults : FaultPlan}
    (reads : ∀ index, faults.fetches index = none) (repo : String) (files : List ParsedFile) :
    (files.mapIdx fun index file => replaceParsedFile (faults.fetches index) repo file) =
      files.map (replaceParsedFile none repo) :=
  List.mapIdx_eq_iff.mpr fun index => by simp [reads]

theorem perform_eq (nfc : String → String)
    (faults : FaultPlan) (db : Db) (call : Call) (reads : ∀ index, faults.fetches index = none) :
    match call.transaction? nfc with
    | none => ∃ result, call.perform nfc faults db = (result, ⟨db, none⟩)
    | some (onError, blocks) =>
      call.perform nfc faults db = transaction AtlasError.db onError faults blocks () ⟨db, none⟩ := by
  cases call with
  | replaceFileGraph repo path hash language size nodes edges =>
    cases accepted : canonicalizeGraphSlice nfc path nodes edges <;>
      simp [transaction?, perform, replaceFileGraphForRepo, accepted, reads]
  | replaceFilesTransactional repo files =>
    by_cases empty : files = []
    · simp [transaction?, perform, replaceFilesTransactionalForRepo, empty, discard]
    · cases accepted : files.mapM (canonicalizeParsedFile nfc) with
      | error error => simp [transaction?, perform, replaceFilesTransactionalForRepo, empty, accepted, discard]
      | ok normal =>
        simp [transaction?, perform, replaceFilesTransactionalForRepo, empty, accepted,
          mapIdx_replaceParsedFile_of_reads reads, discard_transaction]
  | deleteFileGraph repo path =>
    cases accepted : canonicalizeRepoPath nfc path <;>
      simp [transaction?, perform, deleteFileGraphForRepo, accepted, reads]
  | renameFileGraph repo oldPath newPath =>
    cases oldAccepted : canonicalizeRepoPath nfc oldPath with
    | error error => simp [transaction?, perform, renameFileGraphForRepo, oldAccepted]
    | ok canonicalOld =>
      cases newAccepted : canonicalizeRepoPath nfc newPath with
      | error error => simp [transaction?, perform, renameFileGraphForRepo, oldAccepted, newAccepted]
      | ok canonicalNew =>
        by_cases same : canonicalOld = canonicalNew <;>
          simp [transaction?, perform, renameFileGraphForRepo, oldAccepted, newAccepted, same, reads]
  | rewriteFileEdges repo path edges =>
    cases accepted : canonicalizeGraphSlice nfc path [] edges <;>
      simp [transaction?, perform, rewriteFileEdgesForRepo, accepted]
  | replaceChunks repo files =>
    by_cases empty : files = []
    · simp [transaction?, perform, replaceChunksForParsedFiles, empty, discard]
    · simp [transaction?, perform, replaceChunksForParsedFiles, empty, discard_transaction]

theorem complete_eq (nfc : String → String) (db : Db) (call : Call) : call.complete nfc db =
      match call.transaction? nfc with
      | none => db
      | some (_, blocks) => runBlocks blocks db := by
  have performed := call.perform_eq nfc .faultless db fun _ => rfl
  cases started : call.transaction? nfc with
  | none =>
    rw [started] at performed
    obtain ⟨result, ran⟩ := performed
    simp [complete, ran]
  | some body =>
    rw [started] at performed
    simp [complete, performed, transaction_faultless]

/-- For reads that deliver all their rows, a call commits completely or fails
without a trace exactly under the faults it tolerates. -/
theorem allOrNothing_iff (nfc : String → String)
    (faults : FaultPlan) (reads : ∀ index, faults.fetches index = none) (db : Db) (call : Call) :
    AllOrNothing (call.complete nfc db) db (call.perform nfc faults db) ↔ call.Tolerates nfc faults db := by
  have performed := call.perform_eq nfc faults db reads
  rw [complete_eq]
  cases started : call.transaction? nfc with
  | none =>
    rw [started] at performed
    obtain ⟨result, ran⟩ := performed
    rw [ran]
    cases result <;> simp [AllOrNothing, Tolerates, started]
  | some body =>
    obtain ⟨onError, blocks⟩ := body
    rw [started] at performed
    simp only [performed, Tolerates, started]
    exact transaction_allOrNothing_iff

end Call

def failAfterRead : FaultPlan where
  statement position := if position = 1 then some "database disk image is malformed" else none

/-- A deletion that cannot unindex a node rolls back. -/
theorem deleteFileGraph_rolls_back : AllOrNothing ((Call.deleteFileGraph "repo" "a.rs").complete id
    (run id [writeFunction "a.rs"] Db.empty)) (run id [writeFunction "a.rs"] Db.empty)
      ((Call.deleteFileGraph "repo" "a.rs").perform id failAfterRead (run id [writeFunction "a.rs"] Db.empty)) :=
  (Call.allOrNothing_iff id failAfterRead (fun _ => rfl) _ _).mpr (.inr (.inl ⟨⟨1, by decide, by decide⟩, rfl, .inl rfl⟩))

/-- A rename that cannot unindex a node returns with its transaction open. -/
theorem renameFileGraph_leaves_transaction_open :
    ¬ AllOrNothing ((Call.renameFileGraph "repo" "a.rs" "b.rs").complete id
      (run id [writeFunction "a.rs"] Db.empty))
      (run id [writeFunction "a.rs"] Db.empty)
      ((Call.renameFileGraph "repo" "a.rs" "b.rs").perform id failAfterRead (run id [writeFunction "a.rs"] Db.empty)) := by
  have opened : ((Call.renameFileGraph "repo" "a.rs" "b.rs").perform id failAfterRead
    (run id [writeFunction "a.rs"] Db.empty)).2.pending ≠ none := by decide
  rintro (⟨value, ran⟩ | ⟨error, ran⟩)
  all_goals exact opened (by rw [ran])

end Atlas.Store
