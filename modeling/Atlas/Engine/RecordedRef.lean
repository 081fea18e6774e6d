import Atlas.Engine.Freshness

/-! Whether an edit can be lost: a file whose indexed content is stale has to show up in
the difference between the recorded commit and the working tree. -/
namespace Atlas.Engine
open List Core Program Store
open History (Bytes isBinaryBytes)

/-- The scan leaves out ignored, irregular and binary files. -/
def Checkout.isInScope {hashBytes : Bytes → String}
    (checkout : Checkout hashBytes) (path : String) : Bool :=
  match checkout.content path with
  | none => false
  | some bytes => !checkout.ignored path && checkout.isRegular path && !isBinaryBytes bytes

section
variable (env : Env) (treeOf : String → String → Option Bytes) (checkout : Checkout env.hashBytes)

/-- A tracked file of a supported language that can be read. -/
structure Watches (path : String) (bytes : Bytes) : Prop where
  tracked : path ∈ checkout.tracked
  supported : env.registry.supports path = true
  content : checkout.content path = some bytes

/-- Another content is indexed, or none where a build would index one. -/
def Stale (db : Db) (path : String) (bytes : Bytes) : Prop :=
  storedHash env db path ≠ some (env.hashBytes bytes) ∧
    (checkout.isInScope path = true ∨ (storedHash env db path).isSome = true)

def NothingLost (db : Db) : Prop := ∀ commit, lastIndexedRef db env.repoRoot = some commit →
    ∀ path bytes, Watches env checkout path bytes → Stale env checkout db path bytes →
    treeOf commit path ≠ some bytes

def removedPaths (change : ChangedFile) : List String :=
  match change.changeType, change.oldPath with
  | .deleted, _ => [change.path]
  | .renamed, some old => [old]
  | _, _ => []

def Lists (changes : List ChangedFile) (path : String) : Prop :=
  ∃ change ∈ changes, change.path = path ∧ change.changeType ≠ .deleted
def Rewrites (changes : List ChangedFile) (path : String) : Prop := ∃ change ∈ changes,
    change.path = path ∧ change.changeType ≠ .deleted ∧ change.changeType ≠ .renamed

/-- The changes are the difference between the commit and the checkout. -/
structure DiffsExactly (commit : String) (changes : List ChangedFile) : Prop where
  listed : ∀ path bytes, path ∈ checkout.tracked →
    checkout.content path = some bytes → (treeOf commit path ≠ some bytes ↔ Lists changes path)
  removed : ∀ change ∈ changes, ∀ path ∈ removedPaths change, (treeOf commit path).isSome = true ∧ checkout.content path = none
  canonical : ∀ change ∈ changes, Canonical env change.path ∧ ∀ old, change.oldPath = some old → Canonical env old
  sources : (changes.flatMap removedPaths).Nodup

def NoRenameBelow (changes : List ChangedFile) : Prop := ∀ change ∈ changes, ∀ dir ∈ removedPaths
    change, ∀ renamed ∈ changes, renamed.changeType = .renamed → isBelow dir renamed.path = false

/-- A stale file that is as in the new head is among the changes. -/
structure Covers (db : Db) (changes : List ChangedFile) : Prop where
  removed : ∀ change ∈ changes, ∀ path ∈ removedPaths change, checkout.content path = none
  canonical : ∀ change ∈ changes, Canonical env change.path ∧ ∀ old, change.oldPath = some old → Canonical env old
  sources : (changes.flatMap removedPaths).Nodup
  below : ∀ change ∈ changes, ∀ dir ∈ removedPaths change, ∀ path bytes,
    Watches env checkout path bytes → isBelow dir path = true →
    Rewrites changes path ∧ ∀ commit, lastIndexedRef db env.repoRoot = some commit → treeOf commit path ≠ some bytes
  listed : ∀ head, checkout.head = some head → ∀ path bytes, Watches env checkout path bytes →
    treeOf head path = some bytes → Stale env checkout db path bytes → Lists changes path

end

section
variable {env : Env} {checkout : Checkout env.hashBytes} {owners : String → Option PackageOwner}
  {db : Db} {changes : List ChangedFile}

variable (env checkout owners db) in
def fullPlan (changes : List ChangedFile) : Plan :=
  changes.foldl (planChange env checkout owners db) {}

theorem planChange_append (plan : Plan) (change : ChangedFile) :
    planChange env checkout owners db plan change =
      { toDelete := plan.toDelete ++ (planChange env checkout owners db {} change).toDelete
        toParse := plan.toParse ++ (planChange env checkout owners db {} change).toParse
        toRename := plan.toRename ++ (planChange env checkout owners db {} change).toRename } := by
  obtain ⟨path, changeType, oldPath⟩ := change
  cases changeType with
  | renamed =>
    cases oldPath with
    | none => simp [planChange]
    | some old =>
      by_cases stable : isStableRename env checkout owners db old path = true
      all_goals simp [planChange, stable]
  | deleted | added | modified | copied => simp [planChange]

theorem foldl_planChange (changes : List ChangedFile) (plan : Plan) :
    changes.foldl (planChange env checkout owners db) plan =
      { toDelete := plan.toDelete ++
          changes.flatMap fun change => (planChange env checkout owners db {} change).toDelete
        toParse := plan.toParse ++
          changes.flatMap fun change => (planChange env checkout owners db {} change).toParse
        toRename := plan.toRename ++
          changes.flatMap fun change => (planChange env checkout owners db {} change).toRename } := by
  induction changes generalizing plan with
  | nil => simp
  | cons change rest ih =>
    rw [foldl_cons, ih, planChange_append]
    simp

theorem planChanges_isPrefix (changes : List ChangedFile)
    (tracker : BuildBudgetTracker) (plan : Plan) :
    let planned := (planChanges env checkout owners db changes tracker plan).2
    let whole := changes.foldl (planChange env checkout owners db) plan
    planned.toDelete <+: whole.toDelete ∧ planned.toParse <+: whole.toParse ∧ planned.toRename <+: whole.toRename := by
  induction changes generalizing tracker plan with
  | nil => exact ⟨prefix_rfl, prefix_rfl, prefix_rfl⟩
  | cons change rest ih =>
    intro planned whole
    unfold planned planChanges
    cases stopped : tracker.maybeStopForTime with
    | mk decision read =>
      cases decision with
      | degraded =>
        unfold whole
        rw [foldl_planChange]
        exact ⟨prefix_append _ _, prefix_append _ _, prefix_append _ _⟩
      | proceed | blocked => exact ih read _

variable {path : String} {rename : String × String} {treeOf : String → String → Option Bytes}

theorem mem_fullPlan_toDelete (mem : path ∈ (fullPlan env checkout owners db changes).toDelete) :
    ∃ change ∈ changes, path ∈ removedPaths change := by
  rw [fullPlan, foldl_planChange, nil_append] at mem
  obtain ⟨change, inChanges, planned⟩ := mem_flatMap.mp mem
  refine ⟨change, inChanges, ?_⟩
  obtain ⟨target, changeType, oldPath⟩ := change
  cases changeType with
  | deleted => simpa [planChange, removedPaths] using planned
  | renamed =>
    cases oldPath with
    | none => simp [planChange] at planned
    | some old =>
      by_cases stable : isStableRename env checkout owners db old target = true
      · simp [planChange, stable] at planned
      · simpa [planChange, stable, removedPaths] using planned
  | added | modified | copied => simp [planChange] at planned

theorem mem_fullPlan_toParse (mem : path ∈ (fullPlan env checkout owners db changes).toParse) :
    Lists changes path := by
  rw [fullPlan, foldl_planChange] at mem
  simp only [nil_append] at mem
  obtain ⟨change, inChanges, planned⟩ := mem_flatMap.mp mem
  refine ⟨change, inChanges, ?_⟩
  obtain ⟨target, changeType, oldPath⟩ := change
  cases changeType with
  | deleted => simp [planChange] at planned
  | renamed =>
    cases oldPath with
    | none => simpa [planChange, eq_comm] using planned
    | some old =>
      by_cases stable : isStableRename env checkout owners db old target = true
      · simp [planChange, stable] at planned
      · simpa [planChange, stable, eq_comm] using planned
  | added | modified | copied => simpa [planChange, eq_comm] using planned

theorem mem_fullPlan_toRename (mem : rename ∈ (fullPlan env checkout owners db changes).toRename) :
    ∃ change ∈ changes, change.changeType = .renamed ∧ change.oldPath = some rename.1 ∧
      change.path = rename.2 ∧ isStableRename env checkout owners db rename.1 rename.2 = true := by
  rw [fullPlan, foldl_planChange, nil_append] at mem
  obtain ⟨change, inChanges, planned⟩ := mem_flatMap.mp mem
  refine ⟨change, inChanges, ?_⟩
  obtain ⟨target, changeType, oldPath⟩ := change
  cases changeType with
  | renamed =>
    cases oldPath with
    | none => simp [planChange] at planned
    | some old =>
      by_cases stable : isStableRename env checkout owners db old target = true
      · simp only [planChange, stable, if_true, nil_append, mem_singleton] at planned
        subst planned
        exact ⟨rfl, rfl, rfl, stable⟩
      · simp [planChange, stable] at planned
  | deleted | added | modified | copied => simp [planChange] at planned

theorem fullPlan_sources : ((fullPlan env checkout owners db changes).toRename.map Prod.fst).Sublist
    (changes.flatMap removedPaths) := by
  rw [fullPlan, foldl_planChange]
  simp only [nil_append]
  induction changes with
  | nil => exact .slnil
  | cons change rest ih =>
    rw [flatMap_cons, flatMap_cons, map_append]
    refine List.Sublist.append ?_ ih
    obtain ⟨target, changeType, oldPath⟩ := change
    cases changeType with
    | renamed =>
      cases oldPath with
      | none => simp [planChange]
      | some old =>
        by_cases stable : isStableRename env checkout owners db old target = true
        · simp [planChange, stable, removedPaths]
        · simp [planChange, stable]
    | deleted | added | modified | copied => simp [planChange]

theorem fullPlan_lists {path : String} (lists : Lists changes path) :
    path ∈ (fullPlan env checkout owners db changes).toParse ∨
      ∃ old, (old, path) ∈ (fullPlan env checkout owners db changes).toRename := by
  obtain ⟨change, mem, located, stays⟩ := lists
  rw [fullPlan, foldl_planChange]
  simp only [nil_append, mem_flatMap]
  have planned : path ∈ (planChange env checkout owners db {} change).toParse ∨
    ∃ old, (old, path) ∈ (planChange env checkout owners db {} change).toRename := by
    obtain ⟨target, changeType, oldPath⟩ := change
    subst located
    cases changeType with
    | deleted => exact absurd rfl stays
    | renamed =>
      cases oldPath with
      | none => simp [planChange]
      | some old =>
        by_cases stable : isStableRename env checkout owners db old target = true
        all_goals simp [planChange, stable]
    | added | modified | copied => simp [planChange]
  rcases planned with parsed | ⟨old, moved⟩
  · exact .inl ⟨change, mem, parsed⟩
  · exact .inr ⟨old, change, mem, moved⟩

theorem fullPlan_rewrites (rewrites : Rewrites changes path) :
    path ∈ (fullPlan env checkout owners db changes).toParse := by
  obtain ⟨change, mem, located, stays, notMoved⟩ := rewrites
  rw [fullPlan, foldl_planChange]
  simp only [nil_append, mem_flatMap]
  refine ⟨change, mem, ?_⟩
  obtain ⟨target, changeType, oldPath⟩ := change
  subst located
  cases changeType with
  | deleted => exact absurd rfl stays
  | renamed => exact absurd rfl notMoved
  | added | modified | copied => simp [planChange]

theorem isStableRename_content {old new : String} (canonical : Canonical env old)
    (stable : isStableRename env checkout owners db old new = true) :
    ∃ bytes, checkout.content new = some bytes ∧ storedHash env db old = some (env.hashBytes bytes) := by
  unfold isStableRename fileHashForRepo at stable
  unfold Canonical at canonical
  cases hashed : checkout.hashFile new with
  | error msg => simp [hashed] at stable
  | ok newHash =>
    cases stored : (findFile db env.sourceRepoId old).map FileRow.hash with
    | none => simp [hashed, canonical, stored, bind, Except.bind] at stable
    | some oldHash =>
      simp only [hashed, canonical, stored, bind, Except.bind, decide_eq_true_eq] at stable
      have onDisk := checkout.hashFile_eq new newHash hashed
      obtain ⟨bytes, content, sameHash⟩ := Option.map_eq_some_iff.mp onDisk
      exact ⟨bytes, content, by rw [storedHash, stored, sameHash, stable.1]⟩

theorem Covers.stableRename (covers : Covers env treeOf checkout db changes)
    (mem : rename ∈ (fullPlan env checkout owners db changes).toRename) :
    StableRename env checkout db rename := by
  obtain ⟨change, inChanges, isRename, old, new, stable⟩ := mem_fullPlan_toRename mem
  obtain ⟨newCanonical, oldCanonical⟩ := covers.canonical change inChanges
  have gone := covers.removed change inChanges rename.1 (by
    rw [removedPaths, isRename, old]
    exact mem_singleton_self _)
  exact ⟨oldCanonical _ old, new ▸ newCanonical, gone, isStableRename_content (oldCanonical _ old) stable⟩

theorem Covers.deletes (covers : Covers env treeOf checkout db changes)
    (mem : path ∈ (fullPlan env checkout owners db changes).toDelete) :
    Canonical env path ∧ checkout.content path = none := by
  obtain ⟨change, inChanges, removed⟩ := mem_fullPlan_toDelete mem
  refine ⟨?_, covers.removed change inChanges path removed⟩
  obtain ⟨newCanonical, oldCanonical⟩ := covers.canonical change inChanges
  obtain ⟨target, changeType, oldPath⟩ := change
  cases changeType with
  | deleted =>
    rw [mem_singleton.mp removed]
    exact newCanonical
  | renamed =>
    cases oldPath with
    | none => cases removed
    | some old =>
      rw [mem_singleton.mp removed]
      exact oldCanonical old rfl
  | added | modified | copied => cases oldPath <;> cases removed

end

section
variable {env : Env} {checkout : Checkout env.hashBytes} {owners : String → Option PackageOwner}

theorem annotate_path (env : Env) (owner : Option PackageOwner) (file : ParsedFile) :
    (annotate env owner file).path = file.path := by
  unfold annotate annotateParsedFileRepo annotateParsedFileOwner
  cases owner with
  | none | some _ => cases env.namespaceQualifiedNames <;> rfl

theorem annotate_hash (env : Env) (owner : Option PackageOwner) (file : ParsedFile) :
    (annotate env owner file).hash = file.hash := by
  unfold annotate annotateParsedFileRepo annotateParsedFileOwner
  cases owner with
  | none | some _ => cases env.namespaceQualifiedNames <;> rfl

variable {path : String} {file : ParsedFile}

theorem parseHashed_truthful (labels : Labels env)
    {hash : String} (canonical : Canonical env path) (hashed : checkout.hashFile path = .ok hash)
    (outcome : parseHashed env checkout owners path hash = .parsed file) :
    file.path = path ∧ Truthful env checkout file := by
  unfold parseHashed at outcome
  cases read : checkout.readFile path with
  | error msg => simp [read] at outcome
  | ok source =>
    cases parse : env.registry.parse path hash source with
    | none => simp [read, parse] at outcome
    | some parsed =>
      simp only [read, parse, ParseOutcome.parsed.injEq] at outcome
      obtain ⟨samePath, sameHash⟩ := labels path hash source parsed parse
      have located : file.path = path := by rw [← outcome, annotate_path, samePath]
      obtain ⟨bytes, content, isHash⟩ := Option.map_eq_some_iff.mp (checkout.hashFile_eq path hash hashed)
      refine ⟨located, by rw [located]; exact canonical, bytes, by rw [located]; exact content, ?_⟩
      rw [← outcome, annotate_hash, sameHash, isHash]

theorem parsePath_truthful (labels : Labels env)
    (canonical : Canonical env path) (outcome : parsePath env checkout owners path = .parsed file) :
    file.path = path ∧ Truthful env checkout file := by
  unfold parsePath at outcome
  cases hashed : checkout.hashFile path with
  | error msg => simp [hashed] at outcome
  | ok hash =>
    simp only [hashed] at outcome
    exact parseHashed_truthful labels canonical hashed outcome

end

/-- The store has lost nothing against the commit it records. -/
structure Sound (env : Env) (treeOf : String → String → Option Bytes)
    (checkout : Checkout env.hashBytes) (db : Db) : Prop where
  valid : FilesValid env db
  nothingLost : NothingLost env treeOf checkout db
  named : lastIndexedRef db env.repoRoot ≠ some ""

section
variable {env : Env} {treeOf : String → String → Option Bytes} {checkout : Checkout env.hashBytes}
  {db reached : Db} {path : String} {bytes : Bytes}

theorem Current.not_stale (current : Current env checkout db path)
    (watches : Watches env checkout path bytes) : ¬ Stale env checkout db path bytes := by
  obtain ⟨onDisk, content, stored⟩ := current
  rw [watches.content] at content
  cases content
  exact fun stale => stale.1 stored

variable {Lost : String → Prop}

theorem Improves.stale (improves : Improves env checkout Lost db reached)
    (watches : Watches env checkout path bytes) (kept : ¬ Lost path)
    (stale : Stale env checkout reached path bytes) : Stale env checkout db path bytes := by
  rcases improves.hashes path (by rw [watches.content]; rfl) kept with same | current
  · rw [Stale, ← same]
    exact stale
  · exact absurd stale (current.not_stale watches)

theorem Sound.of_improves (sound : Sound env treeOf checkout db)
    (improves : Improves env checkout Lost db reached)
    (differs : ∀ path bytes, Watches env checkout path bytes → Lost path → ∀ commit,
      lastIndexedRef db env.repoRoot = some commit → treeOf commit path ≠ some bytes) :
    Sound env treeOf checkout reached := by
  refine ⟨improves.valid, ?_, by rw [improves.recorded]; exact sound.named⟩
  intro commit recorded path bytes watches stale
  rw [improves.recorded] at recorded
  by_cases lost : Lost path
  · exact differs path bytes watches lost commit recorded
  · exact sound.nothingLost commit recorded path bytes watches (improves.stale watches lost stale)

theorem lastIndexedRef_set (repoRoot repo gitRef : String) (db : Db) :
    lastIndexedRef (setLastIndexedRef repoRoot repo gitRef db) repoRoot = some gitRef := by
  unfold lastIndexedRef setLastIndexedRef
  have found := @Sql.find?_insertOrUpdate _ _ _ BuildStateRow.repoRoot
    (fun row => { row with sourceRepoId := repo, lastIndexedRef := some gitRef }) (fun _ => rfl)
    ⟨repoRoot, repo, some gitRef⟩ db.graphBuildState
  rw [found]
  cases db.graphBuildState.find? fun row => decide (row.repoRoot = repoRoot) <;> rfl

theorem Sound.record {head : String}
    (valid : FilesValid env reached) (isHead : checkout.head = some head)
    (fresh : ∀ path bytes, Watches env checkout path bytes → treeOf head path = some bytes →
      ¬ Stale env checkout reached path bytes) :
    Sound env treeOf checkout (setLastIndexedRef env.repoRoot env.sourceRepoId head reached) := by
  have recorded := lastIndexedRef_set env.repoRoot env.sourceRepoId head reached
  refine ⟨valid.congr rfl rfl, ?_, ?_⟩
  · intro commit isCommit path bytes watches stale same
    rw [recorded] at isCommit
    cases isCommit
    exact fresh path bytes watches same stale
  · rw [recorded]
    exact fun empty => checkout.head_nonempty (isHead.trans empty)

end
end Atlas.Engine
