import Atlas.Engine.BuildProperties
import Atlas.Engine.SliceMap

/-! What a full build stores for a working tree. -/
namespace Atlas.Engine
open List Core Program Store
open History (Bytes)

def Checkout.tree {hashBytes : Bytes → String} (checkout : Checkout hashBytes) (path : String) :
    Option Bytes :=
  if path ∈ checkout.tracked ∧ checkout.isInScope path = true then checkout.content path else none

section
variable (env : Env)

def Embeds (pathOf : String → String) : Prop := ∀ path hash bytes file, env.registry.parse path hash
    bytes = some file → ∀ name ∈ names (annotate env none file), pathOf name = path

structure Parses (pathOf : String → String) : Prop where
  labels : Labels env
  locates : Locates env
  embeds : Embeds env pathOf

variable (checkout : Checkout env.hashBytes) (owners : String → Option PackageOwner)

structure Indexable : Prop where
  legible : Legible env checkout
  canonical : ∀ path ∈ checkout.tracked, Canonical env path
  owners : checkout.owners = .ok owners

def sliceOf (path : String) : Option Slice :=
  if env.registry.supports path then
    (checkout.tree path).bind fun bytes =>
      (env.registry.parse path (env.hashBytes bytes) bytes).map fun file =>
        ⟨annotate env (owners path) file, ownerColumns (owners path)⟩
  else none

end

section
variable {env : Env} {pathOf : String → String} {checkout : Checkout env.hashBytes}
  {owners : String → Option PackageOwner} {path name : String} {bytes : Bytes} {slice : Slice}
  {file : ParsedFile}

theorem tree_eq_some_iff : checkout.tree path = some bytes ↔ path ∈ checkout.tracked ∧
    checkout.isInScope path = true ∧ checkout.content path = some bytes := by
  unfold Checkout.tree
  split
  · next inside => simp [inside]
  · next outside =>
      constructor
      · nofun
      · intro ⟨tracked, inScope, _⟩
        exact absurd ⟨tracked, inScope⟩ outside

theorem sliceOf_eq_some_iff : sliceOf env checkout owners path = some slice ↔
    env.registry.supports path = true ∧ ∃ bytes parsed, checkout.tree path = some bytes ∧
        env.registry.parse path (env.hashBytes bytes) bytes = some parsed ∧
        ⟨annotate env (owners path) parsed, ownerColumns (owners path)⟩ = slice := by
  unfold sliceOf
  by_cases supported : env.registry.supports path = true
  · simp [supported, Option.bind_eq_some_iff]
  · simp [supported]

theorem annotate_names (owner : Option PackageOwner) (file : ParsedFile) :
    names (annotate env owner file) = names (annotate env none file) := by
  unfold names annotate annotateParsedFileRepo annotateParsedFileOwner namespaceFile
  cases owner with
  | none => rfl
  | some _ => cases env.namespaceQualifiedNames <;> simp

theorem Embeds.pathOf_name (embeds : Embeds env pathOf)
    (mem : name ∈ heldNames (sliceOf env checkout owners path)) : pathOf name = path := by
  cases held : sliceOf env checkout owners path with
  | none =>
    rw [held] at mem
    cases mem
  | some slice =>
    rw [held] at mem
    obtain ⟨_, bytes, parsed, _, parse, rfl⟩ := sliceOf_eq_some_iff.mp held
    refine embeds path _ bytes parsed parse name ?_
    rw [← annotate_names (owners path)]
    exact mem

theorem tracked_of_name (mem : name ∈ heldNames (sliceOf env checkout owners path)) :
    path ∈ checkout.tracked := by
  cases held : sliceOf env checkout owners path with
  | none =>
    rw [held] at mem
    cases mem
  | some slice =>
    obtain ⟨_, bytes, _, inTree, _⟩ := sliceOf_eq_some_iff.mp held
    exact (tree_eq_some_iff.mp inTree).1

theorem parsePath_isTarget (labels : Labels env)
    (supported : env.registry.supports path = true) (inTree : (checkout.tree path).isSome = true)
    (outcome : parsePath env checkout owners path = .parsed file) :
    file.path = path ∧ IsTarget (sliceOf env checkout owners) owners file := by
  obtain ⟨bytes, inTree⟩ := Option.isSome_iff_exists.mp inTree
  have content := (tree_eq_some_iff.mp inTree).2.2
  unfold parsePath parseHashed at outcome
  cases hashed : checkout.hashFile path with
  | error msg => simp [hashed] at outcome
  | ok hash =>
    cases read : checkout.readFile path with
    | error msg => simp [hashed, read] at outcome
    | ok source =>
      have isHash := checkout.hashFile_eq path hash hashed
      have isSource := checkout.readFile_eq path source read
      rw [content, Option.map_some] at isHash
      cases isHash
      cases content.symm.trans isSource
      cases parse : env.registry.parse path (env.hashBytes bytes) bytes with
      | none => simp [hashed, read, parse] at outcome
      | some parsed =>
        simp only [hashed, read, parse, ParseOutcome.parsed.injEq] at outcome
        have located : file.path = path := by
          rw [← outcome, annotate_path]
          exact (labels path _ bytes parsed parse).1
        refine ⟨located, ?_⟩
        rw [IsTarget, located, sliceOf_eq_some_iff]
        exact ⟨supported, bytes, parsed, inTree, parse, by rw [outcome]⟩

theorem sliceOf_wellPlaced (parses : Parses env pathOf) (canonical : ∀ path ∈ checkout.tracked,
    Canonical env path) : WellPlaced env (sliceOf env checkout owners) := by
  refine ⟨?_, ?_, ?_, ?_, ?_⟩
  · intro path slice held
    obtain ⟨_, bytes, _, inTree, _⟩ := sliceOf_eq_some_iff.mp held
    exact canonical path (tree_eq_some_iff.mp inTree).1
  · intro path slice held
    obtain ⟨_, bytes, parsed, _, parse, rfl⟩ := sliceOf_eq_some_iff.mp held
    exact (annotate_path _ _ _).trans (parses.labels path _ bytes parsed parse).1
  · intro path slice held node mem
    obtain ⟨_, bytes, parsed, _, parse, rfl⟩ := sliceOf_eq_some_iff.mp held
    have inMap := mem_map_of_mem (f := Node.filePath) mem
    rw [annotate_nodes] at inMap
    obtain ⟨original, isNode, same⟩ := mem_map.mp inMap
    exact same ▸ (parses.locates path _ bytes parsed parse).1 original isNode
  · intro path slice held edge mem
    obtain ⟨_, bytes, parsed, _, parse, rfl⟩ := sliceOf_eq_some_iff.mp held
    have inMap := mem_map_of_mem (f := Edge.filePath) mem
    rw [annotate_edges] at inMap
    obtain ⟨original, isEdge, same⟩ := mem_map.mp inMap
    exact same ▸ (parses.locates path _ bytes parsed parse).2 original isEdge
  · intro path other differ name here there
    exact differ ((parses.embeds.pathOf_name here).symm.trans (parses.embeds.pathOf_name there))

end

section
variable {env : Env} {pathOf : String → String} {checkout : Checkout env.hashBytes}
  {owners : String → Option PackageOwner} {options : BuildOptions} {gone : List String}
  {target : String → Option Slice} {db : Db}

theorem Fits.overlay {slices : String → Option Slice}
    (placed : WellPlaced env target) (fits : Fits target slices gone) (paths : List String) :
    Fits target (Engine.overlay paths target slices) gone := by
  constructor
  · intro path other differ name mem
    unfold Engine.overlay at mem
    split at mem
    · exact placed.apart other path differ name mem
    · exact fits.apart path other differ name mem
  · intro path isSome name mem absent
    unfold Engine.overlay at mem
    split at mem
    · exact absurd mem absent
    · exact fits.drops path isSome name mem absent

theorem Fits.vacant : Fits target (fun _ => none) gone :=
  ⟨fun _ _ _ _ mem => (by cases mem), fun _ _ _ mem => by cases mem⟩

theorem overlay_append (first second : List String) (target slices : String → Option Slice) :
    overlay (first ++ second) target slices =
      overlay second target (overlay first target slices) := by
  funext path
  unfold overlay
  by_cases later : path ∈ second
  all_goals simp [later]

section
variable (placed : WellPlaced env target)
  (wet : options.dryRun = false) (unfailing : ∀ index, options.chunkFails index = none)
include placed wet unfailing

theorem writeParsedBatch_holds {files : List ParsedFile} (listed : ∀ file ∈ files,
    IsTarget target owners file) {paths : List String} (index : Nat) (written : Written)
    (holds : Holds env (overlay paths target fun _ => none) gone (fun _ => False) db) :
    (writeParsedBatch env options owners index files written).Meets db (fun _ => Holds env
      (overlay (paths ++ files.map ParsedFile.path) target fun _ => none) gone fun _ => False)
      (fun _ => False) := by
  unfold writeParsedBatch
  rw [wet, if_neg Bool.false_ne_true, overlay_append]
  by_cases empty : files = []
  · rw [if_pos empty, empty]
    exact holds
  · rw [if_neg empty, unfailing index]
    exact writeBatch_holds placed files listed (Fits.vacant.overlay placed paths) holds written

theorem buildBatches_holds (batches : List (List (String × String)))
    (parseable : ∀ candidate ∈ batches.flatten, Parseable env checkout owners candidate ∧
      ∀ file, parsePath env checkout owners candidate.1 = .parsed file → file.path = candidate.1 ∧ IsTarget target owners file)
    (index : Nat) (state : Building) (unblocked : state.parsing.budgetBlocked = false)
    (holds : Holds env (overlay state.resolvedPaths target fun _ => none) gone (fun _ => False) db) :
    (buildBatches env checkout options owners index batches state).Meets db (fun built reached =>
        Holds env (overlay built.resolvedPaths target fun _ => none) gone (fun _ => False) reached ∧
        (∀ path ∈ state.resolvedPaths, path ∈ built.resolvedPaths) ∧
        (built.parsing.tracker.reports = [] → ∀ candidate ∈ batches.flatten, candidate.1 ∈ built.resolvedPaths))
      (fun _ => False) := by
  induction batches generalizing index state db with
  | nil => exact ⟨holds, fun _ mem => mem, fun _ _ mem => by cases mem⟩
  | cons batch rest ih =>
    unfold buildBatches
    rcases state.parsing.tracker.maybeStopForTime_cases with
      ⟨decision, reports, limits⟩ | ⟨decision, left⟩
    · rw [← Prod.mk.eta (p := state.parsing.tracker.maybeStopForTime), decision]
      have here : ∀ candidate ∈ batch, Parseable env checkout owners candidate :=
        fun candidate mem => (parseable candidate (mem_append_left _ mem)).1
      obtain ⟨attempted, collected⟩ := collectResults_parseable options.failFast here
        { state.parsing with tracker := state.parsing.tracker.maybeStopForTime.2, parsed := [] } unblocked
      have listed : ∀ file ∈ parsedFiles (parsePath env checkout owners) (batch.map Prod.fst), IsTarget target owners file := by
        intro file mem
        obtain ⟨path, inBatch, outcome⟩ := mem_parsedFiles.mp mem
        obtain ⟨candidate, isCandidate, rfl⟩ := mem_map.mp inBatch
        exact ((parseable candidate (mem_append_left _ isCandidate)).2 file outcome).2
      have covered : ∀ candidate ∈ batch, candidate.1 ∈
        (parsedFiles (parsePath env checkout owners) (batch.map Prod.fst)).map ParsedFile.path := by
        intro candidate mem
        obtain ⟨file, outcome⟩ := (here candidate mem).parses
        have isParsed := mem_parsedFiles.mpr ⟨_, mem_map_of_mem (f := Prod.fst) mem, outcome⟩
        have located := ((parseable candidate (mem_append_left _ mem)).2 file outcome).1
        exact located ▸ mem_map_of_mem isParsed
      refine Run.Meets.bind (Run.Meets.ofExcept ?_ ?_)
      · intro parsing ran
        rw [collected] at ran
        cases ran
        rw [nil_append]
        generalize parsedFiles (parsePath env checkout owners) (batch.map Prod.fst) = files
          at listed covered ⊢
        refine Run.Meets.bind ((writeParsedBatch_holds placed wet unfailing listed index state.written holds).mono ?_)
        intro written between holdsMore
        rw [if_neg (by simp [unblocked])]
        refine Run.Meets.mono (ih (fun candidate mem =>
          parseable candidate (mem_append_right _ mem)) (index + 1) _ unblocked holdsMore) ?_
        rintro built reached ⟨final, grown, complete⟩
        have kept : ∀ path ∈ state.resolvedPaths, path ∈ built.resolvedPaths := fun path mem => grown path (mem_append_left _ mem)
        refine ⟨final, kept, ?_⟩
        intro clear candidate mem
        rcases mem_append.mp mem with inBatch | later
        · exact grown _ (mem_append_right _ (covered candidate inBatch))
        · exact complete clear candidate later
      · intro msg ran
        rw [collected] at ran
        cases ran
    · rw [← Prod.mk.eta (p := state.parsing.tracker.maybeStopForTime), decision]
      exact ⟨holds, fun _ mem => mem, fun clear => absurd clear left.not_clear⟩

end

structure Quiet (env : Env) : Prop where
  refresh : ∀ checkout, env.refreshOwnerGraphs checkout = pure ()
  reconcile : ∀ checkout paths, env.reconcileCallTargets checkout paths = pure ()

theorem Quiet.reconcile_meets (quiet : Quiet env) (paths : List String) :
    (Engine.reconcile env checkout false paths).Meets db (fun _ reached => reached = db)
      (fun _ => False) := by
  unfold Engine.reconcile
  split
  · exact Run.Meets.pure rfl
  · rw [quiet.reconcile]
    exact Run.Meets.bind (Run.Meets.attempt (Run.Meets.pure rfl))

theorem Quiet.refresh_meets (quiet : Quiet env) (context : String) :
    ((env.refreshOwnerGraphs checkout).withContext context).Meets db (fun _ reached => reached = db)
      (fun _ => False) := by
  rw [quiet.refresh]
  exact Run.Meets.withContext (Run.Meets.pure rfl)

theorem recordRef_holds (isDegraded : Bool) :
    (Engine.recordRef env checkout false isDegraded).Meets db
      (fun _ last => ∀ slices gone pending, Holds env slices gone pending db →
        Holds env slices gone pending last) (fun _ => False) := by
  unfold Engine.recordRef
  cases checkout.head with
  | none => exact fun _ _ _ holds => holds
  | some head =>
    cases isDegraded with
    | true => exact fun _ _ _ holds => holds
    | false =>
      exact fun _ _ _ holds => ⟨holds.valid.congr rfl rfl, holds.unique, holds.files, holds.nodes,
        holds.edges, holds.chunks⟩

theorem clearGraphs_empty :
    (clearGraphs env).Meets Db.empty (fun _ reached => reached = Db.empty) (fun _ => False) := by
  unfold clearGraphs
  refine Run.Meets.bind (Run.Meets.get ?_)
  exact Run.Meets.pure rfl

theorem buildGraph_holds (parses : Parses env pathOf)
    (quiet : Quiet env) (indexable : Indexable env checkout owners) (wet : options.dryRun = false)
    (unfailing : ∀ index, options.chunkFails index = none) :
    (buildGraph env checkout options).Meets
      Db.empty (fun summary reached => summary.budget.isPartial = false →
      Holds env (sliceOf env checkout owners) gone (fun _ => False) reached)
      (fun _ => True) := by
  have placed := @sliceOf_wellPlaced _ _ _ owners parses indexable.canonical
  unfold buildGraph
  rw [wet]
  refine Run.Meets.bind (clearGraphs_empty.imp ?_ fun _ => False.elim)
  intro _ cleared isEmpty
  subst isEmpty
  refine Run.Meets.bind (Run.Meets.ofExcept ?_ fun _ _ => trivial)
  intro found isOwned
  cases indexable.owners.symm.trans (withContext_ok isOwned)
  refine Run.Meets.bind (Run.Meets.get ?_)
  refine Run.Meets.bind (Run.Meets.ofExcept ?_ fun _ _ => trivial)
  intro scan isScanned
  have scanned := withContext_ok isScanned
  obtain ⟨selected, selection, selects, inspected⟩ := selectFiles_scanned indexable.legible
    indexable.owners (fun path tracked _ => indexable.canonical path tracked) scanned
  refine Run.Meets.bind (Run.Meets.ofExcept ?_ fun _ _ => trivial)
  intro result isSelected
  cases selection.symm.trans isSelected
  have parseable : ∀ candidate ∈ selected.candidates, Parseable env checkout owners candidate ∧
    ∀ file, parsePath env checkout owners candidate.1 = .parsed file →
        file.path = candidate.1 ∧ IsTarget (sliceOf env checkout owners) owners file := by
    intro candidate mem
    obtain ⟨⟨tracked, isFile⟩, parseable⟩ := inspected candidate mem
    obtain ⟨supported, bytes, content⟩ := isScanned_content isFile
    have inTree := tree_eq_some_iff.mpr ⟨tracked, isScanned_isInScope isFile, content⟩
    exact ⟨parseable, fun file outcome => parsePath_isTarget parses.labels supported (by rw [inTree]; rfl) outcome⟩
  have batched := flatten_chunks options.batchPositive selected.candidates
  have builds := buildBatches_builds parses.labels wet (chunks options.batchSize selected.candidates) (by
      rw [batched]
      exact fun candidate mem => (parseable candidate mem).1) 0
    { parsing :=
        { tracker := selected.tracker
          parseErrors := selected.parseErrors
          skippedUnsupported := scan.skippedUnsupported } } rfl .empty
  have writes := buildBatches_holds placed wet unfailing (chunks options.batchSize selected.candidates) (by
      rw [batched]
      exact parseable) 0
    { parsing :=
        { tracker := selected.tracker
          parseErrors := selected.parseErrors
          skippedUnsupported := scan.skippedUnsupported } } rfl (@Holds.empty env gone)
  refine Run.Meets.bind ((builds.and writes).imp ?_ fun _ _ => trivial)
  intro built reached ⟨builds, holds, _, complete⟩
  rw [batched] at builds complete
  have cleared : Cleared env Db.empty Db.empty := ⟨.empty, rfl, fun _ mem => by cases mem⟩
  have accounts := (Builds.built cleared scanned selects builds).1
  -- Every slice of the tree is that of a candidate.
  have whole : built.parsing.tracker.reports = [] → Holds env (sliceOf env checkout owners) gone (fun _ => False) reached := by
    intro clear
    refine holds.congr fun path => ?_
    rw [overlay]
    split
    · rfl
    · next unresolved =>
        cases held : sliceOf env checkout owners path with
        | none => rfl
        | some slice =>
          obtain ⟨supported, bytes, _, inTree, _⟩ := sliceOf_eq_some_iff.mp held
          obtain ⟨tracked, inScope, _⟩ := tree_eq_some_iff.mp inTree
          obtain ⟨hash, candidate⟩ := selects.inScope scanned (builds.accounts.clear clear) tracked supported inScope
          exact absurd (complete clear _ candidate) unresolved
  refine Run.Meets.bind ((quiet.refresh_meets _).imp ?_ fun _ => False.elim)
  intro _ refreshed same
  subst same
  refine Run.Meets.bind ((quiet.reconcile_meets _).imp ?_ fun _ => False.elim)
  intro failures final same
  subst same
  refine Run.Meets.bind ((recordRef_holds _).imp ?_ fun _ => False.elim)
  intro _ last keeps finished
  exact keeps _ _ _ (whole (accounts.finish rfl finished))

end
end Atlas.Engine
