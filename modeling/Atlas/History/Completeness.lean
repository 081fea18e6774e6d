import Atlas.Program.MapM
import Atlas.History.Update

/-! Whether an update leaves a gap: the walk stops at the first indexed commit of the
log, so everything behind it has to be indexed already. -/
namespace Atlas.History
open List Sql

section
variable (parentsOf : String → List String)

def IsParent (child parent : String) : Prop := parent ∈ parentsOf child
def Reaches : String → String → Prop := Relation.ReflTransGen (IsParent parentsOf)

/-- The listing is the ancestry of the head, each commit once and after its parents. -/
structure ListsAncestry (head : String) (commits : List GitCommitMeta) : Prop where
  exact : ∀ sha, sha ∈ commits.map GitCommitMeta.sha ↔ Reaches parentsOf head sha
  unique : (commits.map GitCommitMeta.sha).Nodup
  ordered : commits.Pairwise fun earlier later => ¬ Reaches parentsOf later.sha earlier.sha

end

section
variable (db : Db) (repoId : Nat)

def Indexed (sha : String) : Prop := (findSnapshot db repoId sha).isSome = true

instance (sha : String) : Decidable (Indexed db repoId sha) :=
  inferInstanceAs (Decidable ((findSnapshot db repoId sha).isSome = true))

def IndexedTail (commits : List GitCommitMeta) : Prop := commits.Pairwise fun earlier later =>
    Indexed db repoId earlier.sha → Indexed db repoId later.sha

end

def CommitsSucceed (env : BuildEnv) : List CommitStep → BuildState → Prop
  | [], _ => True
  | step :: rest, state =>
    (Indexed state.connection.visible env.repoId step.commit.sha ∨
      (processCommit env step.git step.faults step.commit state).1 = .ok ()) ∧
    CommitsSucceed env rest (buildCommit env state step)

section
variable {env : BuildEnv} {step : CommitStep} {state next : BuildState}

private theorem indexed_congr {first second : Db} (same : second.graphSnapshots = first.graphSnapshots)
    (repoId : Nat) (sha : String) : Indexed second repoId sha ↔ Indexed first repoId sha := by
  unfold Indexed findSnapshot
  rw [same]

private theorem processCommit_indexed (ran : processCommit env step.git step.faults step.commit state =
    (.ok (), next)) (sha : String) :
    next.connection.pending = none ∧ (Indexed next.connection.committed env.repoId sha ↔
      sha = step.commit.sha ∨ Indexed state.connection.committed env.repoId sha) := by
  obtain ⟨tracked, cache, classified, _, _, _, _, rfl⟩ := processCommit_ok ran
  refine ⟨rfl, ?_⟩
  simp only [Indexed, findSnapshot, committedState, publishedDb]
  rw [find?_insertOrReplace, (persistAll_snapshots _ _ _).2.2.1]
  by_cases same : sha = step.commit.sha
  · simp [same, snapshotRow, StoredSnapshot.key, storedCommit]
  · simp [same, Ne.symm same, snapshotRow, StoredSnapshot.key, storedCommit]

private theorem buildCommit_indexed (closed : state.connection.pending = none)
    (succeeds : Indexed state.connection.visible env.repoId step.commit.sha ∨
      (processCommit env step.git step.faults step.commit state).1 = .ok ()) (sha : String) :
    (buildCommit env state step).connection.pending = none ∧
      (Indexed (buildCommit env state step).connection.committed env.repoId sha ↔
        sha = step.commit.sha ∨ Indexed state.connection.committed env.repoId sha) := by
  have visible : state.connection.visible = state.connection.committed := by simp [Connection.visible, closed]
  cases found : findSnapshot state.connection.visible env.repoId step.commit.sha with
  | some snapshot =>
    have indexed : Indexed state.connection.committed env.repoId step.commit.sha := by
      rw [← visible, Indexed, found]
      rfl
    simp only [buildCommit, found, Option.isSome_some, if_true]
    refine ⟨closed, .inr, ?_⟩
    intro either
    rcases either with rfl | already
    · exact indexed
    · exact already
  | none =>
    simp only [buildCommit, found, Option.isSome_none, Bool.false_eq_true, if_false]
    cases ran : processCommit env step.git step.faults step.commit state with
    | mk result next =>
      rw [ran] at succeeds
      rcases succeeds with indexed | succeeded
      · simp [Indexed, found] at indexed
      · change result = .ok () at succeeded
        subst succeeded
        exact processCommit_indexed ran sha

private theorem buildCommits_indexed (steps : List CommitStep) {state : BuildState} (closed :
    state.connection.pending = none) (succeed : CommitsSucceed env steps state) (sha : String) :
    Indexed (buildCommits env steps state).connection.committed env.repoId sha ↔ Indexed
      state.connection.committed env.repoId sha ∨ sha ∈ steps.map fun step => step.commit.sha := by
  induction steps generalizing state with
  | nil => simp [buildCommits]
  | cons step rest ih =>
    obtain ⟨here, later⟩ := succeed
    obtain ⟨stillClosed, one⟩ := buildCommit_indexed closed here sha
    change Indexed (buildCommits env rest (buildCommit env state step)).connection.committed env.repoId sha ↔ _
    rw [ih stillClosed later, one, map_cons, mem_cons]
    tauto

end

section
variable {db : Db} {repoId : Nat}

private theorem missingCommits_eq (commits : List GitCommitMeta) :
    (missingCommits db repoId commits).1 = commits.takeWhile fun commit =>
      !decide (Indexed db repoId commit.sha) := by
  induction commits with
  | nil => rfl
  | cons commit rest ih =>
    unfold missingCommits
    cases found : findSnapshot db repoId commit.sha with
    | some snapshot => simp [Indexed, found]
    | none =>
      have unindexed : ¬ Indexed db repoId commit.sha := by simp [Indexed, found]
      simp [unindexed, ih]

private theorem walk_complete_iff (commits : List GitCommitMeta)
    (unique : (commits.map GitCommitMeta.sha).Nodup) :
    (∀ commit ∈ commits, Indexed db repoId commit.sha ∨ commit.sha ∈ (missingCommits db repoId
      commits).1.map GitCommitMeta.sha) ↔ IndexedTail db repoId commits := by
  rw [missingCommits_eq]
  induction commits with
  | nil => simp [IndexedTail]
  | cons commit rest ih =>
    obtain ⟨fresh, restUnique⟩ := nodup_cons.mp unique
    unfold IndexedTail
    rw [pairwise_cons]
    by_cases indexed : Indexed db repoId commit.sha
    · rw [takeWhile_cons_of_neg (by simp [indexed])]
      constructor
      · intro found
        have all : ∀ later ∈ rest, Indexed db repoId later.sha := by
          intro later mem
          simpa using found later (.tail _ mem)
        refine ⟨fun later mem _ => all later mem, ?_⟩
        exact pairwise_of_forall_mem_list fun _ _ later mem _ => all later mem
      · intro ⟨tail, _⟩ other mem
        rcases mem_cons.mp mem with rfl | inRest
        · exact .inl indexed
        · exact .inl (tail other inRest indexed)
    · rw [takeWhile_cons_of_pos (by simp [indexed]), map_cons]
      have others : (∀ later ∈ commit :: rest, Indexed db repoId later.sha ∨
        later.sha ∈ commit.sha :: (rest.takeWhile fun commit =>
            !decide (Indexed db repoId commit.sha)).map GitCommitMeta.sha) ↔
          ∀ later ∈ rest, Indexed db repoId later.sha ∨ later.sha ∈ (rest.takeWhile fun commit =>
              !decide (Indexed db repoId commit.sha)).map GitCommitMeta.sha := by
        constructor
        · intro found later mem
          rcases found later (.tail _ mem) with here | there
          · exact .inl here
          · rcases mem_cons.mp there with same | inside
            · exact absurd (same ▸ mem_map_of_mem mem) fresh
            · exact .inr inside
        · intro found later mem
          rcases mem_cons.mp mem with rfl | inRest
          · exact .inr mem_cons_self
          · exact (found later inRest).imp id (mem_cons_of_mem _)
      rw [others, ih restUnique]
      constructor
      · intro tail
        exact ⟨fun _ _ here => absurd here indexed, tail⟩
      · intro ⟨_, tail⟩
        exact tail

end

section
variable {registry : ParserRegistry} {git : HistoryGit} {canonicalRoot branch : String}
  {repoId : Nat} {db : Db} {shas : List String} {commits : List GitCommitMeta}

private theorem mapM_ok_shas (answers : ∀ sha commit, logCommit git sha = .ok commit → commit.sha = sha)
    (resolved : shas.mapM (logCommit git) = .ok commits) :
    commits.map GitCommitMeta.sha = shas := by
  have related := Program.mapM_ok_iff.mp resolved
  clear resolved
  induction related with
  | nil => rfl
  | cons first _ ih => rw [map_cons, answers _ _ first, ih]

private theorem resolveExplicit_shas
    (answers : ∀ sha commit, logCommit git sha = .ok commit → commit.sha = sha)
    (resolved : resolveExplicit git shas = .ok commits) : commits.map GitCommitMeta.sha = shas := by
  unfold resolveExplicit at resolved
  obtain ⟨_, -, logged⟩ := Program.bind_eq_ok resolved
  exact mapM_ok_shas answers logged

private theorem upsertRepo_snapshots (canonicalRoot : String) (db : Db) :
    (upsertRepo canonicalRoot db).graphSnapshots = db.graphSnapshots := rfl

private theorem buildMissing_indexed {missing : List GitCommitMeta} {steps : List CommitStep}
    {built : BuildState}
    (answers : ∀ sha commit, logCommit git sha = .ok commit → commit.sha = sha)
    (ran : buildMissing registry git canonicalRoot repoId branch missing db = .ok (steps, built))
    (succeed : CommitsSucceed ⟨registry, repoId, some branch⟩ steps
      { connection := ⟨upsertRepo canonicalRoot db, none⟩ }) (sha : String) :
    Indexed built.connection.committed repoId sha ↔ Indexed db repoId sha ∨ sha ∈ missing.map GitCommitMeta.sha := by
  unfold buildMissing at ran
  split at ran
  · next empty =>
      cases ran
      simp [empty]
  · cases resolved : resolveExplicit git (missing.reverse.map GitCommitMeta.sha) with
    | error msg =>
      simp only [resolved, withContext] at ran
      cases ran
    | ok commits =>
      simp only [resolved, withContext, Except.ok.injEq, Prod.mk.injEq] at ran
      obtain ⟨rfl, rfl⟩ := ran
      have shas : (commits.map git.step).map (fun step => step.commit.sha) = missing.reverse.map GitCommitMeta.sha := by
        rw [← resolveExplicit_shas answers resolved, map_map]
        rfl
      have indexed := buildCommits_indexed _ rfl succeed sha
      rw [shas] at indexed
      refine indexed.trans (or_congr ?_ ?_)
      · exact indexed_congr (upsertRepo_snapshots canonicalRoot db) repoId sha
      · simp

private theorem updateRegistered_ok {repair : Bool} {maxCommits : Option Nat}
    {lifecycle : Except String Unit} {summary : HistoryUpdateSummary} {headSha : String}
    (resolves : git.revParse branch = .ok headSha) (logs : git.log headSha maxCommits = .ok commits)
    (succeeds : (updateRegistered registry git canonicalRoot branch repair maxCommits lifecycle
      repoId db).outcome = .ok summary) :
    ∃ built, buildMissing registry git canonicalRoot repoId branch (missingCommits db repoId commits).1 db =
          .ok ((updateRegistered registry git canonicalRoot branch repair maxCommits lifecycle repoId db).steps, built) ∧
      (updateRegistered registry git canonicalRoot branch repair maxCommits lifecycle repoId
        db).db = built.connection.committed := by
  unfold updateRegistered at succeeds ⊢
  simp only [resolves, logs, withContext] at succeeds ⊢
  split at succeeds
  · simp [failed] at succeeds
  · next shallow =>
      rw [if_neg shallow]
      split at succeeds
      · cases succeeds
      · next diverged =>
          rw [if_neg diverged]
          cases ran : buildMissing registry git canonicalRoot repoId branch (missingCommits db repoId commits).1 db with
          | error msg => simp [ran, failed] at succeeds
          | ok result => exact ⟨result.2, rfl, rfl⟩

/-- Whether an update without a limit leaves a snapshot for every commit of the ancestry
depends on the order of the log alone. -/
theorem updateHistoricalGraph_complete_iff {parentsOf : String → List String} {head : String}
    {commits : List GitCommitMeta} {branch : Option String} {repair : Bool}
    {lifecycle : Except String Unit} {summary : HistoryUpdateSummary}
    (registered : findRepoId db canonicalRoot = some repoId)
    (resolves : git.revParse (branch.getD "HEAD") = .ok head)
    (logs : git.log head none = .ok commits) (lists : ListsAncestry parentsOf head commits)
    (answers : ∀ sha commit, logCommit git sha = .ok commit → commit.sha = sha)
    (succeeds : (updateHistoricalGraph registry git canonicalRoot branch repair none lifecycle db).outcome = .ok summary)
    (processed : CommitsSucceed ⟨registry, repoId, some (branch.getD "HEAD")⟩
      (updateHistoricalGraph registry git canonicalRoot branch repair none lifecycle db).steps
      { connection := ⟨upsertRepo canonicalRoot db, none⟩ }) :
    (∀ sha, Reaches parentsOf head sha → Indexed (updateHistoricalGraph registry git canonicalRoot
      branch repair none lifecycle db).db repoId sha) ↔ IndexedTail db repoId commits := by
  unfold updateHistoricalGraph at succeeds processed ⊢
  rw [registered] at succeeds processed ⊢
  obtain ⟨built, ran, tables⟩ := updateRegistered_ok resolves logs succeeds
  have indexed := buildMissing_indexed answers ran processed
  rw [← walk_complete_iff commits lists.unique, tables]
  constructor
  · intro complete commit mem
    have reached := (lists.exact commit.sha).mp (mem_map_of_mem mem)
    exact (indexed commit.sha).mp (complete commit.sha reached)
  · intro walked sha reached
    obtain ⟨commit, mem, rfl⟩ := mem_map.mp ((lists.exact sha).mpr reached)
    exact (indexed commit.sha).mpr (walked commit mem)

end

variable {sha head : String}

private theorem indexed_iff_mem {db : Db} {repoId : Nat} :
    Indexed db repoId sha ↔ (repoId, sha) ∈ db.graphSnapshots.map StoredSnapshot.key := by
  simp [Indexed, findSnapshot]

theorem Reaches.mem {parentsOf : String → List String}
    {shas : List String} (reaches : Reaches parentsOf head sha) (start : head ∈ shas)
    (closed : ∀ child ∈ shas, ∀ parent ∈ parentsOf child, parent ∈ shas) : sha ∈ shas := by
  induction reaches with
  | refl => exact start
  | tail _ isParent ih => exact closed _ ih _ isParent

theorem Reaches.rank {parentsOf : String → List String}
    (rank : String → Nat) (lower : ∀ child, ∀ parent ∈ parentsOf child, rank parent < rank child)
    (reaches : Reaches parentsOf head sha) : head = sha ∨ rank sha < rank head := by
  induction reaches with
  | refl => exact .inl rfl
  | tail _ isParent ih =>
    have below := lower _ _ isParent
    rcases ih with rfl | earlier
    · exact .inr below
    · exact .inr (Nat.lt_trans below earlier)

def digitSha (digit : Char) : String := String.ofList (replicate 40 digit)

def mergeParents (sha : String) : List String :=
  if sha = digitSha 'd' then [digitSha 'b', digitSha 'c']
  else if sha = digitSha 'b' ∨ sha = digitSha 'c' then [digitSha 'a']
  else []

def mergeCommit (sha : String) : GitCommitMeta where
  sha := sha
  parentSha := (mergeParents sha).head?
  authorName := ""
  authorEmail := ""
  authorTime := 0
  committerTime := 0
  subject := ""
  body := ""

def mergeLog : List GitCommitMeta := (['d', 'c', 'b', 'a'].map digitSha).map mergeCommit

def mergeGit : HistoryGit where
  isShallow := .ok false
  revParse := fun _ => .ok (digitSha 'd')
  log := fun _ _ => .ok mergeLog
  logOne := fun sha => .ok [mergeCommit sha]
  during := fun _ =>
    { revParse := fun _ => .ok "root"
      lsTree := fun _ => .ok []
      lsTreePaths := fun _ _ => .ok []
      diffTreeFiles := fun _ _ => .ok []
      showFile := fun _ _ => .ok none
      catFileBlobBatch := fun _ => .ok [] }

def noParser : ParserRegistry where
  supports := fun _ => false
  parse := fun _ _ _ => none

def mergeIndexed (digits : List Char) : Db := buildHistoricalGraph noParser "/repo" none
    (digits.map fun digit => mergeGit.step (mergeCommit (digitSha digit))) Db.empty
def mergeUpdate (digits : List Char) : HistoryUpdate :=
  updateHistoricalGraph noParser mergeGit "/repo" none false none (.ok ()) (mergeIndexed digits)

def mergeRank (sha : String) : Nat :=
  if sha = digitSha 'd' then 2 else if sha = digitSha 'b' ∨ sha = digitSha 'c' then 1 else 0

private theorem mergeRank_lower (child : String) :
    ∀ parent ∈ mergeParents child, mergeRank parent < mergeRank child := by
  intro parent isParent
  unfold mergeParents at isParent
  split at isParent
  · next isMerge =>
      subst isMerge
      simp only [mem_cons, not_mem_nil, or_false] at isParent
      rcases isParent with rfl | rfl <;> decide
  · split at isParent
    · next isMiddle =>
        rw [mem_singleton] at isParent
        rcases isMiddle with rfl | rfl <;> (subst isParent; decide)
    · cases isParent

theorem mergeLog_lists : ListsAncestry mergeParents (digitSha 'd') mergeLog := by
  refine ⟨?_, by decide, ?_⟩
  · intro sha
    constructor
    · intro mem
      have left : IsParent mergeParents (digitSha 'd') (digitSha 'c') := by unfold IsParent; decide
      have right : IsParent mergeParents (digitSha 'd') (digitSha 'b') := by unfold IsParent; decide
      have root : IsParent mergeParents (digitSha 'b') (digitSha 'a') := by unfold IsParent; decide
      have shas : mergeLog.map GitCommitMeta.sha = ['d', 'c', 'b', 'a'].map digitSha := rfl
      rw [shas] at mem
      simp only [map_cons, map_nil, mem_cons, not_mem_nil, or_false] at mem
      rcases mem with rfl | rfl | rfl | rfl
      · exact .refl
      · exact .single left
      · exact .single right
      · exact .tail (.single right) root
    · intro reaches
      refine reaches.mem (by decide) ?_
      decide
  · refine List.Pairwise.imp ?_ (l := mergeLog) (R := fun earlier later =>
      later.sha ≠ earlier.sha ∧ ¬ mergeRank earlier.sha < mergeRank later.sha) (by decide)
    intro earlier later apart reaches
    rcases reaches.rank mergeRank mergeRank_lower with same | below
    · exact apart.1 same
    · exact apart.2 below

/-- With the root indexed, the walk meets the merge and both of its parents first. -/
theorem mergeUpdate_complete :
    (mergeUpdate ['a']).steps.map (·.commit.sha) = ['b', 'c', 'd'].map digitSha ∧ ∀ sha,
      Reaches mergeParents (digitSha 'd') sha → Indexed (mergeUpdate ['a']).db 1 sha := by
  have processed : CommitsSucceed ⟨noParser, 1, some "HEAD"⟩ (mergeUpdate ['a']).steps
      { connection := ⟨upsertRepo "/repo" (mergeIndexed ['a']), none⟩ } :=
    ⟨.inr (by decide), .inr (by decide), .inr (by decide), trivial⟩
  have answers : ∀ sha commit, logCommit mergeGit sha = .ok commit → commit.sha = sha := by
    intro sha commit answered
    cases answered
    rfl
  refine ⟨by decide, (updateHistoricalGraph_complete_iff (by decide) rfl rfl mergeLog_lists
    answers rfl processed).mpr ?_⟩
  unfold IndexedTail
  decide

/-- With the root and one parent of the merge indexed, the other parent is never built. -/
theorem mergeUpdate_leaves_gap : ListsAncestry mergeParents (digitSha 'd') mergeLog ∧
      (∀ sha parent, Indexed (mergeIndexed ['a', 'c']) 1 sha → IsParent mergeParents sha parent →
        Indexed (mergeIndexed ['a', 'c']) 1 parent) ∧
      (∀ sha, Indexed (mergeIndexed ['a', 'c']) 1 sha → Reaches mergeParents (digitSha 'd') sha) ∧
      (mergeUpdate ['a', 'c']).outcome.isOk = true ∧ (mergeUpdate ['a', 'c']).errors = [] ∧
      Reaches mergeParents (digitSha 'd') (digitSha 'b') ∧
      ¬ Indexed (mergeUpdate ['a', 'c']).db 1 (digitSha 'b') := by
  have rows : (mergeIndexed ['a', 'c']).graphSnapshots.map StoredSnapshot.key =
    [(1, digitSha 'a'), (1, digitSha 'c')] := by decide
  have indexed : ∀ sha, Indexed (mergeIndexed ['a', 'c']) 1 sha → sha = digitSha 'a' ∨ sha = digitSha 'c' := by
    intro sha found
    rw [indexed_iff_mem, rows] at found
    simpa using found
  refine ⟨mergeLog_lists, ?_, ?_, by decide, by decide, ?_, by decide⟩
  · intro sha parent found isParent
    rcases indexed sha found with rfl | rfl
    · have isRoot : mergeParents (digitSha 'a') = [] := by decide
      rw [IsParent, isRoot] at isParent
      cases isParent
    · have isRoot : parent = digitSha 'a' := mem_singleton.mp isParent
      subst isRoot
      decide
  · intro sha found
    refine (mergeLog_lists.exact sha).mp ?_
    rcases indexed sha found with rfl | rfl <;> decide
  · exact (mergeLog_lists.exact _).mp (by decide)

end Atlas.History
