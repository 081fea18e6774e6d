import Atlas.Refactor.Rollback
import Atlas.Store.BatchContents

/-! What an application that goes through leaves in the graph. Contents that the parser is
not given are written to disk all the same. -/
namespace Atlas.Refactor
open List Core Sql Store

section
variable {File : Type} (machine : Machine File)

def sliceOf (rewrite : Rewrite) : Option ParsedFile :=
  (machine.registry rewrite.path).map fun handler =>
    (handler (machine.sha256 rewrite.new) rewrite.new).1

def Rewrite.Skipped (rewrite : Rewrite) : Prop :=
  rewrite.new = [] ∨ byteLength rewrite.new > defaultMaxFileBytes

instance (rewrite : Rewrite) : Decidable rewrite.Skipped := inferInstanceAs (Decidable (_ ∨ _))

/-- The rows stored for a touched file are those of its new content. -/
def InStep (db : Db) (rewrite : Rewrite) : Prop := ∀ slice, sliceOf machine rewrite = some slice →
    ∃ repo normal, machine.sourceRepoId = some repo ∧
      canonicalizeParsedFile machine.nfc slice = .ok normal ∧ StoredAs repo db normal

def Refreshed (contents : List Rewrite) (written : List ParsedFile) : Prop :=
  (parsedContents machine contents).mapM (canonicalizeParsedFile machine.nfc) = .ok written

/-- What contents and store must be like for one refresh to be enough. -/
structure Suffices (contents : List Rewrite) (db : Db) : Prop where
  /-- No name is defined twice. -/
  named : ∀ written, Refreshed machine contents written → (written.flatMap names).Nodup
  /-- No edge refers to a name that a later slice takes out of the graph. -/
  uncut : ∀ repo written, machine.sourceRepoId = some repo →
    Refreshed machine contents written → Uncut (storedNames repo db) written
  /-- A content that is not parsed changes nothing in the graph. -/
  skipped : ∀ rewrite ∈ contents, rewrite.Skipped → ∀ slice, sliceOf machine rewrite = some slice →
    ∃ repo normal, machine.sourceRepoId = some repo ∧ canonicalizeParsedFile machine.nfc slice =
      .ok normal ∧ ∀ written, Refreshed machine contents written → LeftAs repo db written normal

structure Places (registry : ParserRegistry) : Prop where
  path : ∀ path handler hash source, registry path = some handler → (handler hash source).1.path = path
  edges : ∀ path handler hash source, registry path = some handler → ∀ edge ∈ (handler hash source).1.edges, edge.filePath = path

def OneSpelling (nfc : String → String) (plan : RefactorPlan) : Prop :=
  ∀ edit ∈ plan.edits, ∀ other ∈ plan.edits, ∀ canonical,
    canonicalizeRepoPath nfc edit.filePath = .ok canonical →
      canonicalizeRepoPath nfc other.filePath = .ok canonical → edit.filePath = other.filePath

end

section
variable {File : Type} {machine : Machine File}

/-! ## Paths of the touched files -/

private theorem groupByFile_paths (edits : List RefactorEdit) : ((groupByFile edits).map Prod.fst).Nodup ∧
    ∀ group ∈ groupByFile edits, ∃ edit ∈ edits, edit.filePath = group.1 := by
  induction edits with
  | nil => simp [groupByFile]
  | cons edit rest ih =>
    obtain ⟨nodup, fromEdits⟩ := ih
    rw [groupByFile]
    constructor
    · rw [map_cons, nodup_cons]
      refine ⟨?_, nodup.sublist (filter_sublist.map _)⟩
      intro again
      obtain ⟨group, mem, same⟩ := mem_map.mp again
      have differs := (mem_filter.mp mem).2
      exact of_decide_eq_true differs same
    · intro group mem
      cases mem_cons.mp mem with
      | inl first => exact ⟨edit, .head _, by rw [first]⟩
      | inr later =>
        obtain ⟨other, member, same⟩ := fromEdits group (mem_filter.mp later).1
        exact ⟨other, .tail _ member, same⟩

variable {plan : RefactorPlan} {disk : File → Option Text} {prepared : Preparation}

private theorem prepareFile_paths {next : Preparation} {group : String × List RefactorEdit}
    (done : prepareFile machine plan disk prepared group = some next) :
    next.newContents.map Rewrite.path = prepared.newContents.map Rewrite.path ∨
      next.newContents.map Rewrite.path = prepared.newContents.map Rewrite.path ++ [group.1] := by
  obtain ⟨validation, rfl⟩ | ⟨old, content, read, edited, rfl⟩ := prepareFile_cases done
  · exact .inl rfl
  · exact .inr (by simp [Preparation.rewrite])

private theorem foldlM_prepareFile_paths {groups : List (String × List RefactorEdit)} {final : Preparation}
    (done : groups.foldlM (prepareFile machine plan disk) prepared = some final) :
    ∃ touched, final.newContents.map Rewrite.path =
      prepared.newContents.map Rewrite.path ++ touched ∧ touched.Sublist (groups.map Prod.fst) := by
  induction groups generalizing prepared with
  | nil =>
    cases done
    exact ⟨[], by simp, .refl _⟩
  | cons group rest ih =>
    rw [foldlM_cons] at done
    cases stepped : prepareFile machine plan disk prepared group with
    | none => simp [stepped] at done
    | some next =>
      rw [stepped] at done
      obtain ⟨touched, later, sublist⟩ := ih done
      cases prepareFile_paths stepped with
      | inl same => exact ⟨touched, by rw [later, same], sublist.cons _⟩
      | inr added => exact ⟨group.1 :: touched, by rw [later, added]; simp, sublist.cons_cons _⟩

private theorem prepare_paths (done : prepare machine plan disk = some prepared) :
    (prepared.newContents.map Rewrite.path).Nodup ∧
      ∀ rewrite ∈ prepared.newContents, ∃ edit ∈ plan.edits, edit.filePath = rewrite.path := by
  obtain ⟨touched, paths, sublist⟩ := foldlM_prepareFile_paths done
  obtain ⟨nodup, fromEdits⟩ := groupByFile_paths plan.edits
  rw [map_nil, nil_append] at paths
  have arranged := machine.editOrder.perm (groupByFile plan.edits)
  rw [paths]
  constructor
  · exact ((arranged.map Prod.fst).nodup_iff.mpr nodup).sublist sublist
  · intro rewrite mem
    have listed := mem_map_of_mem (f := Rewrite.path) mem
    rw [paths] at listed
    obtain ⟨group, groupMember, same⟩ := mem_map.mp (sublist.subset listed)
    obtain ⟨edit, member, path⟩ := fromEdits group (arranged.mem_iff.mp groupMember)
    exact ⟨edit, member, path.trans same⟩

/-! ## Slices of the touched files -/

theorem parsedContents_eq (contents : List Rewrite) : parsedContents machine contents =
    (machine.contentOrder.arrange contents).filterMap fun rewrite =>
        if rewrite.Skipped then none else sliceOf machine rewrite := by
  unfold parsedContents
  congr 1
  funext rewrite
  unfold parseFileContent ParserRegistry.supports ParserRegistry.parse sliceOf Rewrite.Skipped
  cases machine.registry rewrite.path with
  | none => simp
  | some handler =>
    by_cases empty : rewrite.new = []
    · simp [empty]
    · by_cases large : byteLength rewrite.new > defaultMaxFileBytes
      all_goals simp [empty, large]

variable {slice : ParsedFile}

theorem mem_parsedContents_iff {contents : List Rewrite} : slice ∈ parsedContents machine contents ↔
    ∃ rewrite ∈ contents, ¬ rewrite.Skipped ∧ sliceOf machine rewrite = some slice := by
  rw [parsedContents_eq, mem_filterMap]
  constructor
  · intro ⟨rewrite, mem, found⟩
    have member := (machine.contentOrder.perm contents).mem_iff.mp mem
    by_cases skips : rewrite.Skipped
    · simp [skips] at found
    · exact ⟨rewrite, member, skips, by simpa [skips] using found⟩
  · intro ⟨rewrite, member, parses, found⟩
    refine ⟨rewrite, (machine.contentOrder.perm contents).mem_iff.mpr member, ?_⟩
    rw [if_neg parses, found]

theorem sliceOf_path (places : Places machine.registry)
    {rewrite : Rewrite} (sliced : sliceOf machine rewrite = some slice) :
    slice.path = rewrite.path ∧ ∀ edge ∈ slice.edges, edge.filePath = rewrite.path := by
  obtain ⟨handler, found, rfl⟩ := Option.map_eq_some_iff.mp sliced
  exact ⟨places.path _ _ _ _ found, places.edges _ _ _ _ found⟩

variable {nfc : String → String} {normal : ParsedFile}

theorem canonicalizeParsedFile_path (accepted : canonicalizeParsedFile nfc slice = .ok normal) :
    canonicalizeRepoPath nfc slice.path = .ok normal.path := by
  obtain ⟨data, sliced, rfl⟩ := canonicalizeParsedFile_ok accepted
  exact (canonicalizeGraphSlice_ok sliced).1

private theorem canonicalizeParsedFile_own (accepted : canonicalizeParsedFile nfc slice = .ok normal)
    (own : ∀ edge ∈ slice.edges, edge.filePath = slice.path) :
    ∀ edge ∈ normal.edges, edge.filePath = normal.path := by
  obtain ⟨data, sliced, rfl⟩ := canonicalizeParsedFile_ok accepted
  obtain ⟨located, _, edgesOk⟩ := canonicalizeGraphSlice_ok sliced
  intro edge mem
  obtain ⟨source, sourceMem, ran⟩ := Program.mapM_ok_mem edgesOk mem
  unfold canonicalizeEdge at ran
  rw [own source sourceMem, located] at ran
  cases ran
  rfl

structure Spelled (machine : Machine File) (contents : List Rewrite) : Prop where
  paths : (contents.map Rewrite.path).Nodup
  apart : ∀ rewrite ∈ contents, ∀ other ∈ contents, ∀ canonical, canonicalizeRepoPath machine.nfc rewrite.path = .ok canonical →
      canonicalizeRepoPath machine.nfc other.path = .ok canonical → rewrite.path = other.path

private theorem prepare_spelled (spelled : OneSpelling machine.nfc plan)
    (done : prepare machine plan disk = some prepared) : Spelled machine prepared.newContents := by
  obtain ⟨paths, fromEdits⟩ := prepare_paths done
  refine ⟨paths, ?_⟩
  intro rewrite mem other otherMem canonical located otherLocated
  obtain ⟨edit, member, same⟩ := fromEdits rewrite mem
  obtain ⟨otherEdit, otherMember, otherSame⟩ := fromEdits other otherMem
  rw [← same] at located
  rw [← otherSame] at otherLocated
  have one := spelled edit member otherEdit otherMember canonical located otherLocated
  rw [← same, one, otherSame]

private theorem filterMap_sublist_map {Item Result Key : Type} {f : Item → Option Result}
    {key : Item → Key} {resultKey : Result → Key} (items : List Item)
    (keeps : ∀ item result, f item = some result → resultKey result = key item) :
    ((items.filterMap f).map resultKey).Sublist (items.map key) := by
  induction items with
  | nil => exact .refl _
  | cons item rest ih =>
    cases found : f item with
    | none =>
      rw [filterMap_cons_none found]
      exact ih.cons _
    | some result =>
      rw [filterMap_cons_some found, map_cons, map_cons, keeps item result found]
      exact ih.cons_cons _

section
variable {contents : List Rewrite} {written : List ParsedFile}

private theorem parsedContents_paths (places : Places machine.registry)
    (spelled : Spelled machine contents) :
    ((parsedContents machine contents).map ParsedFile.path).Nodup := by
  have arranged := machine.contentOrder.perm contents
  have nodup := (arranged.map Rewrite.path).nodup_iff.mpr spelled.paths
  rw [parsedContents_eq]
  refine nodup.sublist (filterMap_sublist_map _ ?_)
  intro rewrite slice found
  by_cases skips : rewrite.Skipped
  · simp [skips] at found
  · rw [if_neg skips] at found
    exact (sliceOf_path places found).1

section
variable (refreshed : Refreshed machine contents written)
include refreshed

theorem Refreshed.mem {file : ParsedFile} (mem : file ∈ written) :
    ∃ rewrite ∈ contents, ¬ rewrite.Skipped ∧ ∃ slice, sliceOf machine rewrite = some slice ∧
      canonicalizeParsedFile machine.nfc slice = .ok file := by
  obtain ⟨slice, sliceMem, accepted⟩ := Program.mapM_ok_mem refreshed mem
  obtain ⟨rewrite, rewriteMember, parses, sliced⟩ := mem_parsedContents_iff.mp sliceMem
  exact ⟨rewrite, rewriteMember, parses, slice, sliced, accepted⟩

theorem Refreshed.own (places : Places machine.registry) : OwnEdges written := by
  intro file member
  obtain ⟨rewrite, _, _, slice, sliced, accepted⟩ := refreshed.mem member
  obtain ⟨path, edges⟩ := sliceOf_path places sliced
  exact canonicalizeParsedFile_own accepted fun edge mem => (edges edge mem).trans path.symm

theorem Refreshed.paths (places : Places machine.registry) (spelled : Spelled machine contents) :
    (written.map ParsedFile.path).Nodup := by
  have canonical : ((parsedContents machine contents).map ParsedFile.path).map
    (canonicalizeRepoPath machine.nfc) = (written.map ParsedFile.path).map .ok := by
    rw [map_map, map_map, ← forall₂_eq_eq_eq, forall₂_map_left_iff, forall₂_map_right_iff]
    exact (Program.mapM_ok_iff.mp refreshed).imp fun _ _ accepted => canonicalizeParsedFile_path accepted
  refine List.Nodup.of_map (.ok : String → Except AtlasError String) ?_
  rw [← canonical]
  refine (parsedContents_paths places spelled).map_on ?_
  intro path mem other otherMem same
  obtain ⟨slice, sliceMem, rfl⟩ := mem_map.mp mem
  obtain ⟨otherSlice, otherMember, rfl⟩ := mem_map.mp otherMem
  obtain ⟨file, _, accepted⟩ := Program.mapM_ok_of_mem refreshed sliceMem
  have located := canonicalizeParsedFile_path accepted
  obtain ⟨rewrite, listed, _, sliced⟩ := mem_parsedContents_iff.mp sliceMem
  obtain ⟨otherRewrite, otherListed, _, otherSliced⟩ := mem_parsedContents_iff.mp otherMember
  rw [(sliceOf_path places sliced).1] at located same ⊢
  rw [(sliceOf_path places otherSliced).1] at same ⊢
  exact spelled.apart rewrite listed otherRewrite otherListed _ located (same ▸ located)

theorem Refreshed.elsewhere
    (places : Places machine.registry) (spelled : Spelled machine contents) {rewrite : Rewrite}
    (listed : rewrite ∈ contents) (skips : rewrite.Skipped) {slice normal : ParsedFile}
    (sliced : sliceOf machine rewrite = some slice)
    (accepted : canonicalizeParsedFile machine.nfc slice = .ok normal) :
    ∀ file ∈ written, file.path ≠ normal.path := by
  intro file mem same
  obtain ⟨other, otherListed, parses, otherSlice, otherSliced, otherAccepted⟩ := refreshed.mem mem
  have located := canonicalizeParsedFile_path accepted
  have otherLocated := canonicalizeParsedFile_path otherAccepted
  rw [(sliceOf_path places sliced).1] at located
  rw [(sliceOf_path places otherSliced).1, same] at otherLocated
  have samePath := spelled.apart rewrite listed other otherListed _ located otherLocated
  have sameRewrite := inj_on_of_nodup_map spelled.paths listed otherListed samePath
  exact parses (sameRewrite ▸ skips)

end

/-! ## The refresh -/

variable {store after : Connection Db}

private theorem refreshGraphSlices_ok (reads : ∀ index, machine.refreshFaults.fetches index = none)
    (ran : refreshGraphSlices machine contents store = (.ok (), after)) :
    ∃ written, Refreshed machine contents written ∧
      (machine.sourceRepoId = none → written = []) ∧ ∀ repo, machine.sourceRepoId = some repo →
      after.visible = batch repo written store.visible := by
  unfold refreshGraphSlices at ran
  cases parsed : parsedContents machine contents with
  | nil =>
    rw [parsed] at ran
    cases ran
    refine ⟨[], ?_, fun _ => rfl, fun _ _ => rfl⟩
    rw [Refreshed, parsed]
    rfl
  | cons first rest =>
    cases root : machine.sourceRepoId with
    | none => simp [parsed, root] at ran
    | some repo =>
      have nonempty : (first :: rest : List ParsedFile) ≠ [] := cons_ne_nil _ _
      simp only [parsed, root, replaceFilesTransactionalForRepo, if_neg nonempty] at ran
      cases accepted : (first :: rest).mapM (canonicalizeParsedFile machine.nfc) with
      | error refused =>
        rw [accepted] at ran
        cases ran
      | ok written =>
        rw [accepted] at ran
        dsimp only at ran
        split at ran
        next => cases ran
        next counts reached finished =>
          cases ran
          obtain ⟨closed, shape⟩ := transaction_ok finished
          refine ⟨written, ?_, fun absent => by simp at absent, ?_⟩
          · rw [Refreshed, parsed, accepted]
          · intro other same
            cases same
            rw [shape, Call.mapIdx_replaceParsedFile_of_reads reads, Connection.visible, Connection.visible, closed]
            rfl

private theorem refreshed_inStep_iff (places : Places machine.registry) (spelled : Spelled machine contents)
    (reads : ∀ index, machine.refreshFaults.fetches index = none)
    (unique : (store.visible.nodes.map NodeRow.key).Nodup)
    (ran : refreshGraphSlices machine contents store = (.ok (), after)) :
    (∀ rewrite ∈ contents, InStep machine after.visible rewrite) ↔ Suffices machine contents store.visible := by
  obtain ⟨written, refreshed, rootless, stored⟩ := refreshGraphSlices_ok reads ran
  have only : ∀ others, Refreshed machine contents others → others = written :=
    fun others again => Except.ok.inj (again.symm.trans refreshed)
  have paths := refreshed.paths places spelled
  have own := refreshed.own places
  have located := mapM_canonicalizeParsedFile_located refreshed
  constructor
  · intro inStep
    have storedAs : ∀ repo, machine.sourceRepoId = some repo →
      ∀ file ∈ written, StoredAs repo (batch repo written store.visible) file := by
      intro repo root file mem
      obtain ⟨rewrite, listed, _, slice, sliced, accepted⟩ := refreshed.mem mem
      obtain ⟨other, normal, sameRoot, sameSlice, rows⟩ := inStep rewrite listed slice sliced
      cases root.symm.trans sameRoot
      cases accepted.symm.trans sameSlice
      rwa [stored repo root] at rows
    have named : (written.flatMap names).Nodup := by
      cases root : machine.sourceRepoId with
      | none =>
        rw [rootless root]
        exact nodup_nil
      | some repo => exact named_of_storedAs (keys_nodup_batch unique) paths (storedAs repo root)
    have distinct : Distinct written := ⟨paths, named, located⟩
    refine ⟨?_, ?_, ?_⟩
    · intro others again
      rw [only others again]
      exact named
    · intro repo others root again
      rw [only others again]
      exact (storedAs_batch_iff distinct own).mp (storedAs repo root)
    · intro rewrite listed skips slice sliced
      obtain ⟨repo, normal, root, accepted, rows⟩ := inStep rewrite listed slice sliced
      refine ⟨repo, normal, root, accepted, ?_⟩
      intro others again
      rw [only others again]
      rw [stored repo root] at rows
      have absent := refreshed.elsewhere places spelled listed skips sliced accepted
      exact (storedAs_batch_absent_iff distinct own absent).mp rows
  · intro enough rewrite listed slice sliced
    have distinct : Distinct written := ⟨paths, enough.named written refreshed, located⟩
    by_cases skips : rewrite.Skipped
    · obtain ⟨repo, normal, root, accepted, left⟩ := enough.skipped rewrite listed skips slice sliced
      have absent := refreshed.elsewhere places spelled listed skips sliced accepted
      refine ⟨repo, normal, root, accepted, ?_⟩
      rw [stored repo root]
      exact (storedAs_batch_absent_iff distinct own absent).mpr (left written refreshed)
    · have parsed := mem_parsedContents_iff.mpr ⟨rewrite, listed, skips, sliced⟩
      obtain ⟨file, mem, accepted⟩ := Program.mapM_ok_of_mem refreshed parsed
      cases root : machine.sourceRepoId with
      | none =>
        rw [rootless root] at mem
        cases mem
      | some repo =>
        refine ⟨repo, file, rfl, accepted, ?_⟩
        rw [stored repo root]
        exact (storedAs_batch_iff distinct own).mpr (enough.uncut repo written root refreshed) file mem

end

/-- An application that goes through leaves the rows of every supported file it touched in
step with the content it wrote exactly if the refresh suffices. -/
theorem applyPlanInternal_inStep_iff [DecidableEq File] {plan : RefactorPlan}
    {validate : RefactorValidationResult → List Rewrite → RefactorValidationResult}
    {world after : World File} {result : RefactorDryRunResult} {prepared : Preparation}
    (places : Places machine.registry) (spelled : OneSpelling machine.nfc plan)
    (reads : ∀ index, machine.refreshFaults.fetches index = none)
    (unique : (world.store.visible.nodes.map NodeRow.key).Nodup)
    (prepares : prepare machine plan world.disk = some prepared)
    (applied : applyPlanInternal machine plan false validate world = some (result, after))
    (valid : result.validation.valid = true) :
    (∀ rewrite ∈ prepared.newContents, InStep machine after.store.visible rewrite) ↔
      Suffices machine prepared.newContents world.store.visible := by
  refine refreshed_inStep_iff places (prepare_spelled spelled prepares) reads unique ?_
  rw [applyPlanInternal, prepares, Option.map_some] at applied
  cases validated : (validate (revalidateParsedFiles machine prepared.validation
    prepared.newContents) prepared.newContents).valid with
  | false =>
    simp only [validated, Bool.and_false, Bool.false_eq_true, if_false] at applied
    cases applied
    exact absurd valid (by simp [validated])
  | true =>
    simp only [validated, Bool.not_false, Bool.and_self, if_true, commitContents] at applied
    cases failed : (writeContents machine (machine.contentOrder.arrange prepared.newContents)
        { disk := world.disk, written := [], failed := none }).failed with
    | some msg =>
      simp only [failed] at applied
      cases applied
      cases valid
    | none =>
      simp only [failed] at applied
      cases refreshed : refreshGraphSlices machine prepared.newContents world.store with
      | mk status store =>
        simp only [refreshed] at applied
        cases status with
        | error error =>
          cases applied
          cases valid
        | ok _ =>
          cases applied
          rfl

end

private theorem commentMachine_places (writeFault : String → Option String) (refreshFaults : FaultPlan) :
    Places (commentMachine writeFault refreshFaults).registry := by
  have handlers : ∀ path handler, (if endsWith path ".rs" then some (commentHandler path)
    else none) = some handler → handler = commentHandler path := by
    intro path handler found
    split at found
    next => exact (Option.some.inj found).symm
    next => cases found
  constructor
  · intro path handler hash source found
    rw [handlers path handler found]
    rfl
  · intro path handler hash source found
    rw [handlers path handler found]
    intro edge mem
    cases mem

theorem commentPlan_inStep : ∃ result after prepared,
    applyPlanInternal (commentMachine (fun _ => none) .faultless) commentPlan false
          (fun validation _ => validation) commentWorld = some (result, after) ∧
        prepare (commentMachine (fun _ => none) .faultless) commentPlan commentWorld.disk = some prepared ∧
        prepared.newContents.map Rewrite.path = ["a.rs", "b.rs"] ∧
        result.validation.valid = true ∧
        ∀ rewrite ∈ prepared.newContents, InStep (commentMachine (fun _ => none) .faultless) after.store.visible rewrite := by
  refine ⟨_, _, _, rfl, rfl, by decide, by decide, ?_⟩
  have written : Refreshed (commentMachine (fun _ => none) .faultless)
    [⟨"a.rs", "// old\n".toList, "// new\n".toList⟩, ⟨"b.rs", "// old\n".toList, "// new\n".toList⟩]
      [(commentHandler "a.rs" "9db8f5acfe6f77600ef4cfc5b761fed55daf71cad6befd07921ab566a60de351" "// new\n".toList).1,
        (commentHandler "b.rs" "9db8f5acfe6f77600ef4cfc5b761fed55daf71cad6befd07921ab566a60de351" "// new\n".toList).1] := by
    unfold Refreshed
    decide
  refine (@applyPlanInternal_inStep_iff _ (commentMachine (fun _ => none) .faultless) _ commentPlan
    (fun validation _ => validation) commentWorld _ _ _ (commentMachine_places _ _) ?_
    (fun _ => rfl) nodup_nil rfl rfl (by decide)).mpr ⟨?_, ?_, ?_⟩
  · have canonical : ∀ edit ∈ commentPlan.edits, canonicalizeRepoPath id edit.filePath = .ok edit.filePath := by decide
    intro edit mem other otherMem path located otherLocated
    have first := Except.ok.inj ((canonical edit mem).symm.trans located)
    have second := Except.ok.inj ((canonical other otherMem).symm.trans otherLocated)
    exact first.trans second.symm
  · intro files refreshed
    rw [Except.ok.inj (refreshed.symm.trans written)]
    decide
  · intro repo files root refreshed before file after split edge mem
    have none : file.edges = [] := by
      rw [Except.ok.inj (refreshed.symm.trans written)] at split
      have all : ∀ file ∈ [(commentHandler "a.rs"
        "9db8f5acfe6f77600ef4cfc5b761fed55daf71cad6befd07921ab566a60de351" "// new\n".toList).1,
        (commentHandler "b.rs" "9db8f5acfe6f77600ef4cfc5b761fed55daf71cad6befd07921ab566a60de351"
          "// new\n".toList).1], file.edges = [] := by decide
      exact all file (by rw [split]; simp)
    rw [none] at mem
    cases mem
  · intro rewrite listed skips
    have parsed : ∀ rewrite ∈ [(⟨"a.rs", "// old\n".toList, "// new\n".toList⟩ : Rewrite),
      ⟨"b.rs", "// old\n".toList, "// new\n".toList⟩], ¬ rewrite.Skipped := by decide
    exact absurd skips (parsed rewrite listed)

def deadSlice : ParsedFile where
  path := "a.rs"
  language := some "rust"
  hash := "6a8ff5ba6c1b7bbcf2cbebb9d38c826db877408a94c8478709e72a200a51db81"
  size := some 9
  nodes := [fileNode "a.rs" "6a8ff5ba6c1b7bbcf2cbebb9d38c826db877408a94c8478709e72a200a51db81" 1
    "rust", { functionNode "a.rs" "f" with lineEnd := 1 }]
  edges := []

def deadWorld : World String where
  disk path := if path = "a.rs" then some "fn f() \x7b\x7d".toList else none
  store := ⟨run id [.replaceFilesTransactional "repo" [deadSlice]] Db.empty, none⟩

def deadPlan : RefactorPlan where
  operation := .removeDeadCode "a.rs::fn::f"
  edits :=
    [{ filePath := "a.rs"
       lineStart := 1
       lineEnd := 1
       oldText := "fn f() \x7b\x7d".toList
       newText := []
       editKind := .removeSpan }]
  manualReview := []

def emptyingMachine : Machine String :=
  { commentMachine (fun _ => none) .faultless with
    sha256 := fun _ => "e3b0c44298fc1c149afbf4c8996fb92427ae41e4649b934ca495991b7852b855" }

/-- The file is emptied, and its function stays in the graph. -/
theorem deadPlan_leaves_function : ∃ result after, applyPlanInternal emptyingMachine deadPlan false
          (fun validation _ => validation.warn "run \x60atlas build\x60 to refresh graph after dead-code removal")
          deadWorld = some (result, after) ∧
        result.validation.valid = true ∧ after.disk "a.rs" = some [] ∧
        after.store.visible.nodes.map NodeRow.qualifiedName = ["a.rs", "a.rs::fn::f"] ∧
        ¬ InStep emptyingMachine after.store.visible ⟨"a.rs", "fn f() \x7b\x7d".toList, []⟩ := by
  refine ⟨_, _, rfl, by decide, by decide, by decide, ?_⟩
  intro inStep
  obtain ⟨repo, normal, root, accepted, stored⟩ := inStep _ rfl
  cases root
  have shape : normal = (commentHandler "a.rs" "e3b0c44298fc1c149afbf4c8996fb92427ae41e4649b934ca495991b7852b855" []).1 := by
    refine Except.ok.inj (accepted.symm.trans ?_)
    decide
  have count := stored.nodes.length_eq
  rw [shape] at count
  revert count
  decide

end Atlas.Refactor
