import Atlas.History.Runs
import Atlas.Repo.Path

/-! Updating the history of a branch: the walk over its log up to the first indexed
commit, and the build of the commits before it. The lifecycle tables are not part of
the model; only whether their recomputation succeeds is. -/
namespace Atlas.History
open Sql

inductive HistoryError where
  | divergence (message : String)
  | other (message : String)

structure HistoryUpdateSummary where
  (branch headSha : String)
  (indexedBaseSha latestIndexedSha : Option String)
  (commitsFound commitsProcessed : Nat)
  (divergenceDetected repairMode : Bool)
  warnings : List String

structure HistoryGit where
  isShallow : Except String Bool
  revParse : String → Except String String
  log : String → Option Nat → Except String (List GitCommitMeta)
  logOne : String → Except String (List GitCommitMeta)
  during : GitCommitMeta → Git
  faults : GitCommitMeta → CommitFaults := fun _ => {}

def HistoryGit.step (git : HistoryGit) (commit : GitCommitMeta) : CommitStep where
  commit := commit
  git := git.during commit
  faults := git.faults commit

def isHexDigit (c : Char) : Bool :=
  ('0' ≤ c && c ≤ '9') || ('a' ≤ c && c ≤ 'f') || ('A' ≤ c && c ≤ 'F')

def validateSha (sha : String) : Except String Unit :=
  let digits := Repo.trim sha.toList
  if digits.length = 40 ∧ digits.all isHexDigit = true then .ok ()
  else .error ("invalid git SHA (must be 40 hex chars): \"" ++ String.ofList digits ++ "\"")

def logCommit (git : HistoryGit) (sha : String) : Except String GitCommitMeta :=
  match git.logOne sha with
  | .error msg => .error msg
  | .ok [] => .error ("commit not found or not reachable: " ++ sha)
  | .ok (commit :: _) => .ok commit

def resolveExplicit (git : HistoryGit) (shas : List String) :
    Except String (List GitCommitMeta) := do
  let _ ← shas.mapM fun sha => withContext "invalid SHA in explicit list" (validateSha sha)
  shas.mapM (logCommit git)

def missingCommits (db : Db) (repoId : Nat) :
    List GitCommitMeta → List GitCommitMeta × Option String
  | [] => ([], none)
  | commit :: rest =>
    if (findSnapshot db repoId commit.sha).isSome then ([], some commit.sha)
    else
      let (missing, base) := missingCommits db repoId rest
      (commit :: missing, base)

/-- Joined with the commits; `ORDER BY s.snapshot_id DESC LIMIT 1`. -/
def latestCommitSha (db : Db) (repoId : Nat) : Option String :=
  (((db.graphSnapshots.filter fun row => decide (row.repoId = repoId ∧
      ∃ commit ∈ db.commits, commit.key = (row.commitSha, repoId))).insertionSort
    fun left right => right.snapshotId ≤ left.snapshotId).head?).map StoredSnapshot.commitSha

def shallowWarning : String :=
  "shallow clone detected; update only sees fetched ancestry and may require \x60git fetch --unshallow\x60 or deeper history."

def divergenceMessage (branch : String) : String :=
  "indexed history diverged from current " ++ branch ++
    " ancestry; rerun with \x60atlas history update --repair\x60 after verifying force-push or rewritten history"

structure HistoryUpdate where
  outcome : Except HistoryError HistoryUpdateSummary
  steps : List CommitStep := []
  errors : List IngestError := []
  db : Db

def failed (msg : String) (db : Db) : HistoryUpdate := { outcome := .error (.other msg), db := db }

section
variable (registry : ParserRegistry) (git : HistoryGit) (canonical : String)

def buildSteps (repoId : Nat) (branch : String) (steps : List CommitStep) (db : Db) : BuildState :=
  buildCommits ⟨registry, repoId, some branch⟩ steps
    { connection := ⟨upsertRepo canonical db, none⟩ }

def buildMissing (repoId : Nat) (branch : String) (missing : List GitCommitMeta) (db : Db) :
    Except String (List CommitStep × BuildState) :=
  if missing = [] then .ok ([], { connection := ⟨db, none⟩ })
  else
    match withContext "build missing history commits" (withContext "resolve commit selector"
        (resolveExplicit git (missing.reverse.map GitCommitMeta.sha))) with
    | .error msg => .error msg
    | .ok commits =>
      let steps := commits.map git.step
      .ok (steps, buildSteps registry canonical repoId branch steps db)

def updateRegistered (branch : String) (repair : Bool) (maxCommits : Option Nat)
    (lifecycle : Except String Unit) (repoId : Nat) (db : Db) : HistoryUpdate :=
  let isShallow := git.isShallow.toOption.getD false
  match withContext ("resolve branch/ref " ++ branch) (git.revParse branch) with
  | .error msg => failed msg db
  | .ok headSha =>
    let latest := latestCommitSha db repoId
    match withContext ("walk history from " ++ headSha) (git.log headSha maxCommits) with
    | .error msg => failed msg db
    | .ok commits =>
      let (missing, base) := missingCommits db repoId commits
      if isShallow = true ∧ latest.isSome = true ∧ base = none then
        failed ("shallow clone missing indexed base commit " ++ latest.getD "(unknown)" ++
          "; fetch more history or rerun after \x60git fetch --unshallow\x60") db
      else
        let orphaned := (listSnapshotsOrdered db repoId).any fun snapshot =>
          decide (snapshot.commitSha ∉ commits.map GitCommitMeta.sha)
        let diverged := orphaned || (latest.isSome && base.isNone)
        if diverged && !repair then
          { outcome := .error (.divergence (divergenceMessage branch)), db := db }
        else
          match buildMissing registry git canonical repoId branch missing db with
          | .error msg => failed msg db
          | .ok (steps, built) =>
            { outcome :=
                match lifecycle with
                | .error msg => .error (.other msg)
                | .ok () =>
                  .ok { branch := branch
                        headSha := headSha
                        indexedBaseSha := base
                        latestIndexedSha := base <|> latest
                        commitsFound := steps.length
                        commitsProcessed := steps.length
                        divergenceDetected := diverged
                        repairMode := repair
                        warnings := if isShallow then [shallowWarning] else [] }
              steps := steps
              errors := built.errors
              db := built.connection.committed }

def updateHistoricalGraph (branch : Option String) (repair : Bool)
    (maxCommits : Option Nat) (lifecycle : Except String Unit) (db : Db) : HistoryUpdate :=
  match findRepoId db canonical with
  | none => failed "history not initialized; run \x60atlas history build\x60 first" db
  | some repoId =>
    updateRegistered registry git canonical (branch.getD "HEAD") repair maxCommits lifecycle repoId db

end
end Atlas.History
