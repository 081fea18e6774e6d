import Atlas.Engine.RecordedRef

/-! An update whose list of changes covers the stale files loses no edit. -/
namespace Atlas.Engine
open List Core Program Store
open History (Bytes)

section
variable (env : Env) (checkout : Checkout env.hashBytes)

structure Legible : Prop where
  stats : ∀ path bytes, env.registry.supports path = true → checkout.content path = some bytes → (checkout.stat path).isOk = true
  parses : ∀ owners, checkout.owners = .ok owners → Readable env checkout owners

/-- The programs that follow the writes of a run leave the files on disk alone. -/
structure Aftermath : Prop where
  refresh : KeepsFiles env checkout (env.refreshOwnerGraphs checkout)
  reconcile : ∀ paths, KeepsFiles env checkout (env.reconcileCallTargets checkout paths)

def BelowRemoved (changes : List ChangedFile) (path : String) : Prop :=
  ∃ change ∈ changes, ∃ dir ∈ removedPaths change, isBelow dir path = true

end

section
variable {env : Env} {treeOf : String → String → Option Bytes} {checkout : Checkout env.hashBytes}
  {owners : String → Option PackageOwner} {db : Db} {changes : List ChangedFile} {plan : Plan}
  {options : UpdateOptions}

def IsPartOf (plan whole : Plan) : Prop := plan.toDelete <+: whole.toDelete ∧
    plan.toParse <+: whole.toParse ∧ plan.toRename <+: whole.toRename

section
variable (covers : Covers env treeOf checkout db changes)
  (part : IsPartOf plan (fullPlan env checkout owners db changes))
include covers part

theorem renamePlanned_improves (valid : FilesValid env db) :
    (Run.forEach (renameStable env owners) plan.toRename).Meets db
      (fun _ reached => Improves env checkout (fun _ => False) db reached ∧
        ∀ rename ∈ plan.toRename, Current env checkout reached rename.2)
      (Improves env checkout (fun _ => False) db) := by
  obtain ⟨_, _, renames⟩ := part
  refine renames_improve ?_ ?_ valid
  · intro rename mem
    exact covers.stableRename (renames.subset mem)
  · exact (covers.sources.sublist fullPlan_sources).sublist (renames.sublist.map _)

theorem deletePlanned_improves {moved : Db} (valid : FilesValid env moved) :
    (deleteStale env false plan.toDelete).Meets moved
      (fun _ => Improves env checkout (BelowRemoved changes) moved)
      (Improves env checkout (BelowRemoved changes) moved) := by
  obtain ⟨deletes, _, _⟩ := part
  have wider : ∀ path, (∃ dir ∈ plan.toDelete, isBelow dir path = true) → BelowRemoved changes path := by
    intro path ⟨dir, mem, below⟩
    obtain ⟨change, inChanges, removed⟩ := mem_fullPlan_toDelete (deletes.subset mem)
    exact ⟨change, inChanges, dir, removed, below⟩
  unfold deleteStale
  refine Run.Meets.bind (Run.Meets.get ?_)
  refine Run.Meets.bind (Run.Meets.ofExcept ?_ ?_)
  · intro existing found
    have gone : ∀ path ∈ plan.toDelete, Canonical env path ∧ checkout.content path = none :=
      fun path mem => covers.deletes (deletes.subset mem)
    refine Run.Meets.bind ((deletes_improve found gone valid).imp ?_ ?_)
    · intro _ reached improves
      exact improves.mono wider
    · intro reached improves
      exact improves.mono wider
  · intro _ _
    exact .refl valid

end

variable {path statLabel label : String} {paths : List String} {state next : Parsing} {reached : Db}
  {tracker : BuildBudgetTracker}

theorem dependentPaths_canonical (valid : FilesValid env db)
    {oldSignatures : List (String × List (String × String))} {toParse : List String}
    {parsed : List ParsedFile}
    (mem : path ∈ dependentPaths env db oldSignatures toParse parsed) : Canonical env path := by
  unfold dependentPaths findDependentsForQnames at mem
  obtain ⟨found, _⟩ := mem_filter.mp mem
  obtain ⟨edge, isEdge, inRows⟩ := mem_flatMap.mp (mem_dedup.mp (mem_ascending.mp found))
  obtain ⟨row, isRow, rfl⟩ := mem_map.mp inRows
  obtain ⟨inRepo, _⟩ := of_decide_eq_true (mem_filter.mp isEdge).2
  obtain ⟨inNodes, source⟩ := mem_filter.mp isRow
  exact valid.nodes row inNodes ((of_decide_eq_true source).1.trans inRepo)

theorem parsePhase_truthful (labels : Labels env) (readable : Readable env checkout owners)
    (canonical : ∀ path ∈ paths, Canonical env path) (unblocked : state.budgetBlocked = false)
    (ran : parsePhase env checkout options owners statLabel label paths state = .ok next) :
    ∀ file ∈ next.parsed, Truthful env checkout file := by
  obtain ⟨_, _, parsed, _⟩ := parsePhase_ok readable unblocked ran
  intro file mem
  obtain ⟨path, listed, _, outcome⟩ := parsed file mem
  exact (parsePath_truthful labels (canonical path listed) outcome).2

theorem parsePhase_complete (labels : Labels env)
    (legible : Legible env checkout) (owned : checkout.owners = .ok owners)
    (canonical : ∀ path ∈ paths, Canonical env path) (unblocked : state.budgetBlocked = false)
    (ran : parsePhase env checkout options owners statLabel label paths state = .ok next)
    (clear : next.tracker.reports = []) {bytes : Bytes}
    (watches : Watches env checkout path bytes) (listed : path ∈ paths) :
    ∃ file ∈ next.parsed, file.path = path := by
  have readable := legible.parses owners owned
  obtain ⟨_, _, _, complete⟩ := parsePhase_ok readable unblocked ran
  have inspected := legible.stats path bytes watches.supported watches.content
  obtain ⟨file, outcome⟩ := readable path watches.supported inspected
  refine ⟨file, ?_, (parsePath_truthful labels (canonical path listed) outcome).1⟩
  rw [complete clear]
  refine mem_parsedFiles.mpr ⟨path, ?_, outcome⟩
  exact mem_filter.mpr ⟨mem_filter.mpr ⟨listed, watches.supported⟩, inspected⟩

theorem reconcile_improves (aftermath : Aftermath env checkout)
    (dryRun : Bool) (paths : List String) (valid : FilesValid env db) :
    (reconcile env checkout dryRun paths).Meets db (fun _ => Improves env checkout (fun _ => False) db) (fun _ => False) := by
  unfold reconcile
  split
  · exact .refl valid
  · refine Run.Meets.bind (Run.Meets.attempt (((aftermath.reconcile paths).meets valid).imp ?_ ?_))
    · intro _ reached improves
      exact improves
    · intro reached improves _
      exact improves

theorem refresh_improves (aftermath : Aftermath env checkout) (valid : FilesValid env db) :
    ((env.refreshOwnerGraphs checkout).withContext "cannot refresh package/workspace nodes").Meets
      db (fun _ => Improves env checkout (fun _ => False) db)
      (Improves env checkout (fun _ => False) db) :=
  Run.Meets.withContext (aftermath.refresh.meets valid)

structure Updated (env : Env)
    (treeOf : String → String → Option Bytes) (checkout : Checkout env.hashBytes)
    (changes : List ChangedFile) (before : Db) (complete : Prop) (reached : Db) : Prop where
  improves : Improves env checkout (BelowRemoved changes) before reached
  fresh : complete → ∀ head, checkout.head = some head → ∀ path bytes, Watches env checkout path
    bytes → treeOf head path = some bytes → ¬ Stale env checkout reached path bytes

theorem Updated.trans {complete : Prop}
    {later : Db} (updated : Updated env treeOf checkout changes db complete reached)
    (improves : Improves env checkout (fun _ => False) reached later) :
    Updated env treeOf checkout changes db complete later := by
  refine ⟨updated.improves.trans improves.weaken, ?_⟩
  intro isComplete head isHead path bytes watches same stale
  exact updated.fresh isComplete head isHead path bytes watches same (improves.stale watches not_false stale)

theorem Updated.of_current {complete : Prop}
    {moved cleared reached : Db} (covers : Covers env treeOf checkout db changes)
    (renames : Improves env checkout (fun _ => False) db moved)
    (deletes : Improves env checkout (BelowRemoved changes) moved cleared)
    (writes : Improves env checkout (fun _ => False) cleared reached)
    (parsed : complete → ∀ path bytes, Watches env checkout path bytes →
      path ∈ (fullPlan env checkout owners db changes).toParse → Current env checkout reached path)
    (renamed : complete → ∀ rename ∈ (fullPlan env checkout owners db changes).toRename, Current env checkout moved rename.2) :
    Updated env treeOf checkout changes db complete reached := by
  have improves := (renames.weaken.trans deletes).trans writes.weaken
  refine ⟨improves, ?_⟩
  intro isComplete head isHead path bytes watches same stale
  have current : Current env checkout reached path := by
    by_cases lost : BelowRemoved changes path
    · obtain ⟨change, mem, dir, removed, below⟩ := lost
      obtain ⟨rewrites, _⟩ := covers.below change mem dir removed path bytes watches below
      exact parsed isComplete path bytes watches (fullPlan_rewrites rewrites)
    · have listed := covers.listed head isHead path bytes watches same (improves.stale watches lost stale)
      rcases @fullPlan_lists env _ _ _ _ _ listed with inParse | ⟨old, inRename⟩
      · exact parsed isComplete path bytes watches inParse
      · have here := renamed isComplete (old, path) inRename
        exact writes.current not_false (deletes.current lost here)
  exact current.not_stale watches stale

theorem Covers.keeps (covers : Covers env treeOf checkout db changes)
    (sound : Sound env treeOf checkout db)
    (improves : Improves env checkout (BelowRemoved changes) db reached) :
    Sound env treeOf checkout reached := by
  refine sound.of_improves improves ?_
  intro path bytes watches lost commit recorded
  obtain ⟨change, mem, dir, removed, below⟩ := lost
  exact (covers.below change mem dir removed path bytes watches below).2 commit recorded

theorem Updated.recordRef (sound : Sound env treeOf checkout db)
    (covers : Covers env treeOf checkout db changes)
    (updated : Updated env treeOf checkout changes db (tracker.finish.2.isPartial = false) reached)
    (isDegraded : Bool) (degrades : isDegraded = false → tracker.finish.2.isPartial = false) :
    (recordRef env checkout false isDegraded).Meets reached (fun _ => Sound env treeOf checkout) (Sound env treeOf checkout) := by
  have kept := covers.keeps sound updated.improves
  unfold Engine.recordRef
  cases isHead : checkout.head with
  | none => exact kept
  | some head =>
    cases isDegraded with
    | true => exact kept
    | false => exact Sound.record updated.improves.valid isHead (updated.fresh (degrades rfl) head isHead)

theorem withContext_ok {Value : Type} {context : String} {outcome : Except String Value}
    {value : Value} (accepted : History.withContext context outcome = .ok value) :
    outcome = .ok value := by
  cases outcome with
  | ok given => exact accepted
  | error msg => cases accepted

theorem parsePhases_truthful (labels : Labels env)
    (readable : Readable env checkout owners) {dependents : List String}
    {changed : Parsing} (toParse : ∀ path ∈ plan.toParse, Canonical env path)
    (toFollow : ∀ path ∈ dependents, Canonical env path)
    (first : parsePhase env checkout options owners "stat" "processing" plan.toParse
      { tracker := tracker } = .ok changed)
    (second : parsePhase env checkout options owners "stat dependent" "processing dependent" dependents changed = .ok next) :
    Accounts tracker next.tracker ∧ (next.tracker.reports = [] → changed.tracker.reports = []) ∧
      ∀ file ∈ changed.parsed ++ next.parsed, Truthful env checkout file := by
  obtain ⟨unblocked, accounts, _, _⟩ := parsePhase_ok readable rfl first
  obtain ⟨_, moreAccounts, _, _⟩ := parsePhase_ok readable unblocked second
  refine ⟨accounts.trans moreAccounts, moreAccounts.clear, ?_⟩
  intro file mem
  rcases mem_append.mp mem with direct | dependent
  · exact parsePhase_truthful labels readable toParse rfl first file direct
  · exact parsePhase_truthful labels readable toFollow unblocked second file dependent

theorem updateGraph_keeps (labels : Labels env) (legible : Legible env checkout) (aftermath :
    Aftermath env checkout) (sound : Sound env treeOf checkout db) (wet : options.dryRun = false)
    (covered : ∀ changes, detectChanges env checkout options.target db = .ok changes → Covers env treeOf checkout db changes) :
    (updateGraph env checkout options).Meets db (fun _ => Sound env treeOf checkout) (Sound env treeOf checkout) := by
  unfold updateGraph
  refine Run.Meets.bind (Run.Meets.ofExcept ?_ fun _ _ => sound)
  intro owners owned
  have readable := legible.parses owners (withContext_ok owned)
  refine Run.Meets.bind (Run.Meets.get ?_)
  refine Run.Meets.bind (Run.Meets.ofExcept ?_ fun _ _ => sound)
  intro changes detected
  have covers := covered changes detected
  dsimp only
  rw [wet]
  generalize discovered : ({ limits := options.budget, clock := options.clock } :
    BuildBudgetTracker).setFilesDiscovered changes.length = start
  have fresh : start.reports = [] := discovered ▸ rfl
  have part : IsPartOf (planChanges env checkout owners db changes start {}).2
    (fullPlan env checkout owners db changes) := planChanges_isPrefix changes start {}
  have accounts : Accounts start (planChanges env checkout owners db changes start {}).1 := planChanges_accounts changes start {}
  have whole := @planChanges_complete env checkout owners db changes start {}
  generalize planChanges env checkout owners db changes start {} = planned at part accounts whole ⊢
  obtain ⟨tracker, plan⟩ := planned
  have toParse : ∀ path ∈ plan.toParse, Canonical env path := by
    intro path mem
    obtain ⟨change, inChanges, rfl, _⟩ := mem_fullPlan_toParse (part.2.1.subset mem)
    exact (covers.canonical change inChanges).1
  refine Run.Meets.bind ((renamePlanned_improves covers part sound.valid).imp ?_ ?_)
  case refine_2 =>
    intro reached improves
    exact covers.keeps sound improves.weaken
  intro _ moved ⟨renames, renamed⟩
  refine Run.Meets.bind (Run.Meets.get ?_)
  refine Run.Meets.bind ((deletePlanned_improves covers part renames.valid).imp ?_ ?_)
  case refine_2 =>
    intro reached improves
    exact covers.keeps sound (renames.weaken.trans improves)
  intro deleted cleared deletes
  have kept : Sound env treeOf checkout cleared := covers.keeps sound (renames.weaken.trans deletes)
  refine Run.Meets.bind (Run.Meets.ofExcept ?_ fun _ _ => kept)
  intro changed first
  refine Run.Meets.bind (Run.Meets.get ?_)
  refine Run.Meets.bind (Run.Meets.ofExcept ?_ fun _ _ => kept)
  intro dependents second
  obtain ⟨moreAccounts, earlier, truthful⟩ := parsePhases_truthful labels readable toParse
    (fun path => dependentPaths_canonical deletes.valid) first second
  have batched := flatten_chunks options.batchPositive (changed.parsed ++ dependents.parsed)
  refine Run.Meets.bind ((writeParsed_improves wet _ (by rw [batched]; exact truthful) 0 {}
    deletes.valid).imp ?_ ?_)
  case refine_2 =>
    intro reached improves
    exact covers.keeps sound ((renames.weaken.trans deletes).trans improves.weaken)
  intro written reached ⟨writes, current⟩
  rw [batched] at current
  have complete : dependents.tracker.finish.2.isPartial = false → dependents.tracker.reports = [] :=
    (accounts.trans moreAccounts).finish fresh
  have planned : dependents.tracker.finish.2.isPartial = false → plan = fullPlan env checkout owners
    db changes := fun finished => whole (moreAccounts.clear (complete finished))
  have updated : Updated env treeOf checkout changes db (dependents.tracker.finish.2.isPartial = false) reached := by
    refine @Updated.of_current _ _ _ owners _ _ _ _ _ _ covers renames deletes writes ?_ ?_
    · intro finished path bytes watches listed
      rw [← planned finished] at listed
      obtain ⟨file, mem, rfl⟩ := parsePhase_complete labels legible (withContext_ok owned) toParse
        rfl first (earlier (complete finished)) watches listed
      exact current file (mem_append_left _ mem)
    · intro finished rename mem
      rw [← planned finished] at mem
      exact renamed rename mem
  refine Run.Meets.bind ((refresh_improves aftermath updated.improves.valid).imp ?_ ?_)
  case refine_2 =>
    intro failed improves
    exact covers.keeps sound (updated.trans improves).improves
  intro _ refreshed refreshes
  refine Run.Meets.bind ((reconcile_improves aftermath false _ refreshes.valid).imp ?_ fun _ => False.elim)
  intro failures final reconciles
  refine Run.Meets.bind ((((updated.trans refreshes).trans reconciles).recordRef sound covers _
    ?_).mono fun _ _ recorded => recorded)
  intro notDegraded
  unfold UpdateSummary.isDegraded at notDegraded
  rw [Bool.or_eq_false_iff, Bool.or_eq_false_iff] at notDegraded
  exact notDegraded.1.1
def IsTree (treeOf : String → String → Option Bytes) : Prop := ∀ commit dir path,
    (treeOf commit dir).isSome = true → isBelow dir path = true → treeOf commit path = none

theorem DiffsExactly.covers {commit : String} (trees : IsTree treeOf)
    (sound : Sound env treeOf checkout db) (recorded : lastIndexedRef db env.repoRoot = some commit)
    (diffs : DiffsExactly env treeOf checkout commit changes) (flat : NoRenameBelow changes) :
    Covers env treeOf checkout db changes := by
  refine ⟨?_, diffs.canonical, diffs.sources, ?_, ?_⟩
  · intro change mem path removed
    exact (diffs.removed change mem path removed).2
  · intro change mem dir removed path bytes watches below
    have absent := trees commit dir path (diffs.removed change mem dir removed).1 below
    have differs : treeOf commit path ≠ some bytes := by
      rw [absent]
      exact nofun
    obtain ⟨other, inChanges, rfl, stays⟩ := (diffs.listed path bytes watches.tracked watches.content).mp differs
    refine ⟨⟨other, inChanges, rfl, stays, ?_⟩, ?_⟩
    · intro moved
      rw [flat change mem dir removed other inChanges moved] at below
      cases below
    · intro last isLast
      rw [recorded] at isLast
      cases isLast
      exact differs
  · intro head _ path bytes watches _ stale
    exact (diffs.listed path bytes watches.tracked watches.content).mp
      (sound.nothingLost commit recorded path bytes watches stale)

theorem writeParsed_dry (dry : options.dryRun = true)
    (batches : List (List ParsedFile)) (index : Nat) (written : Written) :
    (writeParsed env options owners index batches written).Meets db (fun _ reached => reached = db)
      (fun reached => reached = db) := by
  induction batches generalizing index written with
  | nil => exact Run.Meets.pure rfl
  | cons files rest ih =>
    unfold writeParsed
    rw [dry, if_pos rfl]
    exact ih (index + 1) (countBatch files written)

theorem deleteStale_dry (paths : List String) : (deleteStale env true paths).Meets db
    (fun _ reached => reached = db) (fun reached => reached = db) := by
  unfold deleteStale
  refine Run.Meets.bind (Run.Meets.get ?_)
  refine Run.Meets.bind (Run.Meets.ofExcept ?_ fun _ _ => rfl)
  intro existing _
  exact Run.Meets.bind rfl

theorem reconcile_dry (paths : List String) : (reconcile env checkout true paths).Meets db
    (fun _ reached => reached = db) (fun reached => reached = db) := by
  unfold reconcile
  rw [if_pos (.inr rfl)]
  exact Run.Meets.pure rfl

theorem recordRef_dry (isDegraded : Bool) : (recordRef env checkout true isDegraded).Meets db
    (fun _ reached => reached = db) (fun reached => reached = db) := by
  unfold recordRef
  cases checkout.head with
  | none => rfl
  | some head => rfl

theorem updateGraph_dry (dry : options.dryRun = true) : (updateGraph env checkout options).Meets db
    (fun _ reached => reached = db) (fun reached => reached = db) := by
  unfold updateGraph
  refine Run.Meets.bind (Run.Meets.ofExcept ?_ fun _ _ => rfl)
  intro owners _
  refine Run.Meets.bind (Run.Meets.get ?_)
  refine Run.Meets.bind (Run.Meets.ofExcept ?_ fun _ _ => rfl)
  intro changes _
  dsimp only
  rw [dry]
  refine Run.Meets.bind (Run.Meets.pure ?_)
  refine Run.Meets.bind (Run.Meets.get ?_)
  refine Run.Meets.bind ((deleteStale_dry _).mono ?_)
  rintro deleted _ rfl
  refine Run.Meets.bind (Run.Meets.ofExcept ?_ fun _ _ => rfl)
  intro changed _
  refine Run.Meets.bind (Run.Meets.get ?_)
  refine Run.Meets.bind (Run.Meets.ofExcept ?_ fun _ _ => rfl)
  intro dependents _
  refine Run.Meets.bind ((writeParsed_dry dry _ 0 {}).mono ?_)
  rintro written _ rfl
  refine Run.Meets.bind (Run.Meets.pure ?_)
  refine Run.Meets.bind ((reconcile_dry _).mono ?_)
  rintro failures _ rfl
  exact Run.Meets.bind ((recordRef_dry _).mono fun _ _ same => same)

end
end Atlas.Engine
