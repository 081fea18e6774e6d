import Atlas.Engine.BuildProperties

/-! Runs that interleave work on the tree, builds and updates: under which steps a stale
file stays in the difference between the recorded commit and the working tree. -/
namespace Atlas.Engine
open List Core Program Store
open History (Bytes ParserRegistry)

structure Worktree (env : Env) (treeOf : String → String → Option Bytes) where
  checkout : Checkout env.hashBytes
  diffs : ∀ commit changes, checkout.changedFiles (.baseRef commit) = .ok changes →
    DiffsExactly env treeOf checkout commit changes

structure World (env : Env) (treeOf : String → String → Option Bytes) where
  worktree : Worktree env treeOf
  db : Db

inductive Step (env : Env) (treeOf : String → String → Option Bytes) where
  | outside (after : Worktree env treeOf)
  | build (options : BuildOptions)
  | update (options : UpdateOptions)

section
variable {env : Env} {treeOf : String → String → Option Bytes}

def World.step (world : World env treeOf) : Step env treeOf → World env treeOf
  | .outside after => { world with worktree := after }
  | .build options => { world with db := (buildGraph env world.worktree.checkout options world.db).2 }
  | .update options => { world with db := (updateGraph env world.worktree.checkout options world.db).2 }

def World.run (world : World env treeOf) (steps : List (Step env treeOf)) : World env treeOf :=
  steps.foldl World.step world
def Restores (before after : Checkout env.hashBytes) (path : String) (bytes : Bytes) : Prop :=
  ¬ (Watches env before path bytes ∧ before.isInScope path = after.isInScope path)

def RestoresIndexed (treeOf : String → String → Option Bytes)
    (before after : Checkout env.hashBytes) (db : Db) : Prop :=
  ∀ commit, lastIndexedRef db env.repoRoot = some commit →
    ∀ path bytes, Watches env after path bytes → treeOf commit path = some bytes →
    Restores before after path bytes → ¬ Stale env after db path bytes

/-- An update starts from the recorded commit, or its changes cover the stale files. -/
def UpdateReady (treeOf : String → String → Option Bytes)
    (checkout : Checkout env.hashBytes) (target : UpdateTarget) (db : Db) : Prop :=
  ∀ changes, detectChanges env checkout target db = .ok changes → (target = .workingTree ∧
    (lastIndexedRef db env.repoRoot).isSome = true ∧ NoRenameBelow changes) ∨
    Covers env treeOf checkout db changes

def Step.Admitted (world : World env treeOf) : Step env treeOf → Prop
  | .outside after => RestoresIndexed treeOf world.worktree.checkout after.checkout world.db
  | .build options => options.dryRun = true ∨
      (Legible env world.worktree.checkout ∧ Aftermath env world.worktree.checkout ∧ TracksCanonical
        env world.worktree.checkout ∧ BuildReady env world.worktree.checkout options world.db)
  | .update options => options.dryRun = true ∨
      (Legible env world.worktree.checkout ∧ Aftermath env world.worktree.checkout ∧
        UpdateReady treeOf world.worktree.checkout options.target world.db)

def RunAdmitted : World env treeOf → List (Step env treeOf) → Prop
  | _, [] => True
  | world, step :: rest => step.Admitted world ∧ RunAdmitted (world.step step) rest

variable {db : Db} {world : World env treeOf}

theorem Sound.outside {before after : Checkout env.hashBytes} (sound : Sound env treeOf before db)
    (restores : RestoresIndexed treeOf before after db) : Sound env treeOf after db := by
  refine ⟨sound.valid, ?_, sound.named⟩
  intro commit recorded path bytes watches stale same
  by_cases old : Watches env before path bytes ∧ before.isInScope path = after.isInScope path
  · have staleBefore : Stale env before db path bytes := by
      unfold Stale
      rw [old.2]
      exact stale
    exact sound.nothingLost commit recorded path bytes old.1 staleBefore same
  · exact restores commit recorded path bytes watches same old stale

theorem UpdateReady.covered (trees : IsTree treeOf) {worktree : Worktree env treeOf}
    {target : UpdateTarget} (sound : Sound env treeOf worktree.checkout db)
    (ready : UpdateReady treeOf worktree.checkout target db) :
    ∀ changes, detectChanges env worktree.checkout target db = .ok changes → Covers env treeOf worktree.checkout db changes := by
  intro changes detected
  rcases ready changes detected with ⟨isDefault, isRecorded, flat⟩ | covers
  · obtain ⟨commit, recorded⟩ := Option.isSome_iff_exists.mp isRecorded
    have named : commit ≠ "" := by
      intro empty
      exact sound.named (recorded.trans (by rw [empty]))
    subst isDefault
    unfold detectChanges at detected
    simp only [recorded, named, if_false] at detected
    exact (worktree.diffs commit changes (withContext_ok detected)).covers trees sound recorded flat
  · exact covers

theorem Step.Admitted.keeps (labels : Labels env) (trees : IsTree treeOf)
    {step : Step env treeOf} (admitted : step.Admitted world)
    (sound : Sound env treeOf world.worktree.checkout world.db) :
    Sound env treeOf (world.step step).worktree.checkout (world.step step).db := by
  cases step with
  | outside after => exact sound.outside admitted
  | build options =>
    by_cases dry : options.dryRun = true
    · have same : (buildGraph env world.worktree.checkout options world.db).2 = world.db := Run.Meets.reached (buildGraph_dry dry)
      simpa [World.step, same] using sound
    · obtain ⟨legible, aftermath, tracks, ready⟩ := admitted.resolve_left dry
      exact Run.Meets.reached (buildGraph_keeps labels legible aftermath tracks sound (Bool.eq_false_of_not_eq_true dry) ready)
  | update options =>
    by_cases dry : options.dryRun = true
    · have same : (updateGraph env world.worktree.checkout options world.db).2 = world.db :=
        Run.Meets.reached (updateGraph_dry dry)
      simpa [World.step, same] using sound
    · obtain ⟨legible, aftermath, ready⟩ := admitted.resolve_left dry
      exact Run.Meets.reached (updateGraph_keeps labels legible aftermath sound
        (Bool.eq_false_of_not_eq_true dry) (ready.covered trees sound))

theorem RunAdmitted.sound (labels : Labels env)
    (trees : IsTree treeOf) (steps : List (Step env treeOf)) (admitted : RunAdmitted world steps)
    (sound : Sound env treeOf world.worktree.checkout world.db) :
    Sound env treeOf (world.run steps).worktree.checkout (world.run steps).db := by
  induction steps generalizing world with
  | nil => exact sound
  | cons step rest ih =>
    obtain ⟨first, later⟩ := admitted
    exact ih later (first.keeps labels trees sound)

theorem RunAdmitted.of_isPrefix {reached steps : List (Step env treeOf)}
    (admitted : RunAdmitted world steps) (earlier : reached <+: steps) :
    RunAdmitted world reached := by
  induction reached generalizing world steps with
  | nil => trivial
  | cons step rest ih =>
    obtain ⟨later, rfl⟩ := earlier
    exact ⟨admitted.1, ih admitted.2 (prefix_append rest later)⟩

/-- In a run of admitted steps from an empty store, no state has lost an edit. -/
theorem run_nothingLost (labels : Labels env)
    (trees : IsTree treeOf) (worktree : Worktree env treeOf)
    (steps : List (Step env treeOf)) (admitted : RunAdmitted ⟨worktree, Db.empty⟩ steps) :
    ∀ reached, reached <+: steps → NothingLost env treeOf (World.run ⟨worktree, Db.empty⟩
      reached).worktree.checkout (World.run ⟨worktree, Db.empty⟩ reached).db := by
  intro reached earlier
  have start : Sound env treeOf worktree.checkout Db.empty := .unrecorded .empty rfl
  exact ((admitted.of_isPrefix earlier).sound labels trees reached start).nothingLost

end

def pairContent (a b : Bytes) (path : String) : Option Bytes :=
  if path = "a.rs" then some a else if path = "b.rs" then some b else none

def pairTree (commit path : String) : Option Bytes :=
  if commit = "c1" then pairContent [1] [1] path
  else if commit = "c2" then pairContent [2] [2] path
  else none

def pairEnv : Env where
  nfc := id
  hashBytes := fun bytes => if bytes = [1] then "1" else "2"
  registry :=
    { supports := fun path => decide (path = "a.rs" ∨ path = "b.rs")
      parse := fun path hash _ => some { path := path, hash := hash, nodes := [], edges := [] } }
  repoRoot := "/repo"
  sourceRepoId := "repo"
  repoFingerprint := "fingerprint"
  refreshOwnerGraphs := fun _ => pure ()
  reconcileCallTargets := fun _ _ => pure ()

variable {path : String} {db : Db}

theorem isBelow_pair {dir : String} {a b : Bytes} (below : isBelow dir path = true) :
    pairContent a b path = none := by
  have slash : '/' ∈ path.toList := by
    unfold isBelow startsWith at below
    rw [ isPrefixOf_iff_prefix, String.toList_append] at below
    exact below.subset (mem_append_right _ (by decide))
  unfold pairContent
  by_cases isA : path = "a.rs"
  · subst isA
    exact absurd slash (by decide)
  · by_cases isB : path = "b.rs"
    · subst isB
      exact absurd slash (by decide)
    · rw [if_neg isA, if_neg isB]

private theorem pairContent_some {a b bytes : Bytes} (found : pairContent a b path = some bytes) :
    (path = "a.rs" ∧ bytes = a) ∨ (path = "b.rs" ∧ bytes = b) := by
  unfold pairContent at found
  by_cases isA : path = "a.rs"
  · rw [if_pos isA] at found
    exact .inl ⟨isA, (Option.some.inj found).symm⟩
  · by_cases isB : path = "b.rs"
    · rw [if_neg isA, if_pos isB] at found
      exact .inr ⟨isB, (Option.some.inj found).symm⟩
    · rw [if_neg isA, if_neg isB] at found
      cases found

def pairCheckout (head : String) (named : head ≠ "") (a b : Bytes) :
    Checkout pairEnv.hashBytes where
  tracked := ["a.rs", "b.rs"]
  lsFiles := .ok ["a.rs", "b.rs"]
  content := pairContent a b
  isDirectory := fun _ => false
  ignored := fun _ => false
  isRegular := fun _ => true
  stat := fun path =>
    match pairContent a b path with
    | some bytes => .ok bytes.length
    | none => .error "no such file"
  hashFile := fun path =>
    match pairContent a b path with
    | some bytes => .ok (pairEnv.hashBytes bytes)
    | none => .error "no such file"
  readFile := fun path =>
    match pairContent a b path with
    | some bytes => .ok bytes
    | none => .error "no such file"
  owners := .ok fun _ => none
  head := some head
  changedFiles
    | .baseRef commit => .ok ((["a.rs", "b.rs"].filter fun path =>
      decide (pairTree commit path ≠ pairContent a b path)).map fun path =>
        { path := path, changeType := .modified })
    | _ => .ok []
  normalizeChangePath := fun path => .ok ⟨path, "relative"⟩
  missingChangePathCandidates := fun _ => []
  lsFiles_eq := by
    intro paths listed
    cases listed
    rfl
  stat_eq := by
    intro path size bytes stat content
    simp only [content] at stat
    cases stat
    rfl
  hashFile_eq := by
    intro path hash hashed
    cases content : pairContent a b path with
    | none => simp [content] at hashed
    | some bytes =>
      simp only [content, Except.ok.injEq] at hashed
      rw [Option.map_some, hashed]
  readFile_eq := by
    intro path bytes read
    cases content : pairContent a b path with
    | none => simp [content] at read
    | some found =>
      simp only [content, Except.ok.injEq] at read
      rw [read]
  directories := by
    intro dir path below present
    rw [isBelow_pair below] at present
    cases present
  head_nonempty := fun empty => named (Option.some.inj empty)

section
variable (head : String) (named : head ≠ "") (a b : Bytes)

theorem pairCheckout_modified (target : DiffTarget) (changes : List ChangedFile)
    (answered : (pairCheckout head named a b).changedFiles target = .ok changes) :
    ∀ change ∈ changes, removedPaths change = [] ∧ Canonical pairEnv change.path ∧ change.oldPath = none := by
  intro change mem
  cases target with
  | baseRef commit =>
    cases answered
    obtain ⟨path, listed, rfl⟩ := mem_map.mp mem
    obtain ⟨inPair, _⟩ := mem_filter.mp listed
    refine ⟨rfl, ?_, rfl⟩
    simp only [mem_cons, not_mem_nil, or_false] at inPair
    unfold Canonical
    rcases inPair with rfl | rfl <;> decide
  | staged | workingTree =>
    cases answered
    cases mem

private theorem pairCheckout_diffs (commit : String) (changes : List ChangedFile)
    (answered : (pairCheckout head named a b).changedFiles (.baseRef commit) = .ok changes) :
    DiffsExactly pairEnv pairTree (pairCheckout head named a b) commit changes := by
  have modified := pairCheckout_modified head named a b _ changes answered
  cases answered
  refine ⟨?_, ?_, ?_, ?_⟩
  · intro path bytes tracked content
    have onDisk : pairContent a b path = some bytes := content
    unfold Lists
    constructor
    · intro differs
      refine ⟨_, mem_map_of_mem (mem_filter.mpr ⟨tracked, ?_⟩), rfl, nofun⟩
      rw [onDisk]
      exact decide_eq_true differs
    · intro ⟨change, mem, located, _⟩
      obtain ⟨other, listed, rfl⟩ := mem_map.mp mem
      have differs := of_decide_eq_true (mem_filter.mp listed).2
      have same : other = path := located
      rwa [same, onDisk] at differs
  · intro change mem path removed
    rw [(modified change mem).1] at removed
    cases removed
  · intro change mem
    obtain ⟨_, canonical, noOld⟩ := modified change mem
    refine ⟨canonical, ?_⟩
    intro old isOld
    rw [noOld] at isOld
    cases isOld
  · rw [flatMap_eq_nil_iff.mpr fun change mem => (modified change mem).1]
    exact nodup_nil

def pairWorktree : Worktree pairEnv pairTree where
  checkout := pairCheckout head named a b
  diffs := pairCheckout_diffs head named a b

theorem pairCheckout_legible : Legible pairEnv (pairCheckout head named a b) where
  stats := by
    intro path bytes _ content
    have onDisk : pairContent a b path = some bytes := content
    simp [pairCheckout, onDisk, Except.isOk, Except.toBool]
  parses := by
    intro owners _ path _ inspected
    cases onDisk : pairContent a b path with
    | none => simp [pairCheckout, onDisk, Except.isOk, Except.toBool] at inspected
    | some bytes =>
      refine ⟨annotate pairEnv (owners path)
        { path := path, hash := pairEnv.hashBytes bytes, nodes := [], edges := [] }, ?_⟩
      simp [parsePath, parseHashed, pairCheckout, onDisk, pairEnv]

theorem pairCheckout_aftermath : Aftermath pairEnv (pairCheckout head named a b) where
  refresh := fun _ valid => ⟨valid, rfl, fun _ _ => rfl⟩
  reconcile := fun _ _ valid => ⟨valid, rfl, fun _ _ => rfl⟩

private theorem pairCheckout_tracksCanonical : TracksCanonical pairEnv (pairCheckout head named a b) := by
  intro path tracked _
  have inPair : path ∈ ["a.rs", "b.rs"] := tracked
  simp only [mem_cons, not_mem_nil, or_false] at inPair
  unfold Canonical
  rcases inPair with rfl | rfl <;> decide

end

private theorem pairEnv_labels : Labels pairEnv := by
  intro path hash bytes file parsed
  cases parsed
  exact ⟨rfl, rfl⟩

private theorem pairTree_isTree : IsTree pairTree := by
  intro commit dir path _ below
  unfold pairTree
  rw [isBelow_pair below, isBelow_pair below]
  split
  · rfl
  · split <;> rfl

def pairStart : Worktree pairEnv pairTree := pairWorktree "c1" (by decide) [1] [1]
def pairEdited : Worktree pairEnv pairTree := pairWorktree "c2" (by decide) [2] [2]

private theorem pairEdited_restoresIndexed (recorded : lastIndexedRef db "/repo" = some "c1") :
    RestoresIndexed pairTree pairStart.checkout pairEdited.checkout db := by
  intro commit isCommit path bytes watches same _ _
  have isFirst : commit = "c1" := Option.some.inj (isCommit.symm.trans recorded)
  subst isFirst
  have before : pairContent [1] [1] path = some bytes := same
  have after : pairContent [2] [2] path = some bytes := watches.content
  rcases pairContent_some before with ⟨rfl, rfl⟩ | ⟨rfl, rfl⟩
  all_goals cases after

private theorem pairEdited_updateReady (recorded : lastIndexedRef db "/repo" = some "c1") :
    UpdateReady pairTree pairEdited.checkout .workingTree db := by
  intro changes detected
  refine .inl ⟨rfl, ?_, ?_⟩
  · exact Option.isSome_iff_exists.mpr ⟨"c1", recorded⟩
  · intro change mem dir removed
    have modified := pairCheckout_modified "c2" (by decide) [2] [2] _ changes (withContext_ok detected)
    rw [(modified change mem).1] at removed
    cases removed

private theorem pairStart_build_recorded :
    lastIndexedRef (World.step ⟨pairStart, Db.empty⟩ (.build {})).db "/repo" = some "c1" := by
  decide +kernel

private theorem pairStart_build_admitted : Step.Admitted ⟨pairStart, Db.empty⟩ (.build {}) := by
  exact .inr ⟨pairCheckout_legible "c1" (by decide) [1] [1],
    pairCheckout_aftermath "c1" (by decide) [1] [1],
    pairCheckout_tracksCanonical "c1" (by decide) [1] [1], .inl rfl⟩

private theorem pairRun_admitted :
    RunAdmitted ⟨pairStart, Db.empty⟩ [.build {}, .outside pairEdited, .update {}] := by
  generalize built : World.step ⟨pairStart, Db.empty⟩ (.build {}) = world
  have recorded : lastIndexedRef world.db "/repo" = some "c1" := built ▸ pairStart_build_recorded
  have started : world.worktree = pairStart := built ▸ rfl
  refine ⟨pairStart_build_admitted, ?_, ?_, trivial⟩
  · rw [built]
    unfold Step.Admitted
    rw [started]
    exact pairEdited_restoresIndexed recorded
  · rw [built]
    exact .inr ⟨pairCheckout_legible "c2" (by decide) [2] [2],
      pairCheckout_aftermath "c2" (by decide) [2] [2], pairEdited_updateReady recorded⟩

/-- A build and, after the commit, a default update index both files. -/
theorem pairRun_nothingLost :
    lastIndexedRef (World.run ⟨pairStart, Db.empty⟩ [.build {}, .outside pairEdited, .update {}]).db
      "/repo" = some "c2" ∧
      NothingLost pairEnv pairTree (World.run ⟨pairStart, Db.empty⟩ [.build {}, .outside pairEdited,
        .update {}]).worktree.checkout
        (World.run ⟨pairStart, Db.empty⟩ [.build {}, .outside pairEdited, .update {}]).db := by
  constructor
  · decide +kernel
  · exact run_nothingLost pairEnv_labels pairTree_isTree pairStart _ pairRun_admitted _ prefix_rfl

/-- An update of one of the files records the commit as if it had seen both. -/
theorem pairRun_loses_edit : ¬ NothingLost pairEnv pairTree (World.run ⟨pairStart, Db.empty⟩
    [.build {}, .outside pairEdited, .update { target := .files ["a.rs"] }]).worktree.checkout
      (World.run ⟨pairStart, Db.empty⟩ [.build {}, .outside pairEdited, .update { target := .files ["a.rs"] }]).db := by
  intro nothingLost
  have listed := nothingLost "c2" (by decide +kernel) "b.rs" [2]
    ⟨by decide +kernel, by decide +kernel, by decide +kernel⟩
    ⟨by decide +kernel, .inl (by decide +kernel)⟩
  exact listed rfl

end Atlas.Engine
