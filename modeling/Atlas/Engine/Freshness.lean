import Atlas.Engine.ParseProperties
import Atlas.Engine.StoreCalls

/-! Which stored hashes are those of the working tree, and how the stages of a run
bring them there. -/
namespace Atlas.Engine
open List Core Program Sql Store

def Labels (env : Env) : Prop := ∀ path hash bytes file, env.registry.parse path hash bytes =
    some file → file.path = path ∧ file.hash = hash

section
variable (env : Env) (checkout : Checkout env.hashBytes)

def Current (db : Db) (path : String) : Prop :=
  ∃ bytes, checkout.content path = some bytes ∧ storedHash env db path = some (env.hashBytes bytes)

/-- Each readable file has its old hash or its current one, unless it is lost. -/
structure Improves (Lost : String → Prop) (start db : Db) : Prop where
  valid : FilesValid env db
  recorded : lastIndexedRef db env.repoRoot = lastIndexedRef start env.repoRoot
  hashes : ∀ path, (checkout.content path).isSome = true →
    ¬ Lost path → storedHash env db path = storedHash env start path ∨ Current env checkout db path

def KeepsFiles (program : Run Db Unit) : Prop := ∀ db, FilesValid env db → FilesValid env
    (program db).2 ∧ lastIndexedRef (program db).2 env.repoRoot = lastIndexedRef db env.repoRoot ∧
    ∀ path, (checkout.content path).isSome = true → storedHash env (program db).2 path = storedHash env db path

/-- The parsed file carries the hash of the bytes in the checkout. -/
structure Truthful (file : ParsedFile) : Prop where
  canonical : Canonical env file.path
  hash : ∃ bytes, checkout.content file.path = some bytes ∧ file.hash = env.hashBytes bytes

end

section
variable {env : Env} {checkout : Checkout env.hashBytes} {Lost : String → Prop}
  {first second third : Db}

theorem Improves.refl (valid : FilesValid env first) :
    Improves env checkout Lost first first := ⟨valid, rfl, fun _ _ _ => .inl rfl⟩

theorem Current.of_storedHash {path : String} (current : Current env checkout first path)
    (same : storedHash env second path = storedHash env first path) :
    Current env checkout second path := by
  obtain ⟨bytes, onDisk, stored⟩ := current
  exact ⟨bytes, onDisk, same.trans stored⟩

theorem Improves.current {path : String} (improves : Improves env checkout Lost first second)
    (kept : ¬ Lost path) (current : Current env checkout first path) :
    Current env checkout second path := by
  obtain ⟨bytes, onDisk, _⟩ := id current
  rcases improves.hashes path (by rw [onDisk]; rfl) kept with same | now
  · exact current.of_storedHash same
  · exact now

theorem Improves.trans (left : Improves env checkout Lost first second)
    (right : Improves env checkout Lost second third) : Improves env checkout Lost first third := by
  refine ⟨right.valid, right.recorded.trans left.recorded, ?_⟩
  intro path onDisk kept
  rcases left.hashes path onDisk kept with same | current
  · rcases right.hashes path onDisk kept with still | now
    · exact .inl (still.trans same)
    · exact .inr now
  · exact .inr (right.current kept current)

theorem Improves.mono {Wider : String → Prop}
    (wider : ∀ path, Lost path → Wider path) (improves : Improves env checkout Lost first second) :
    Improves env checkout Wider first second :=
  ⟨improves.valid, improves.recorded, fun path onDisk kept => improves.hashes path onDisk fun lost => kept (wider path lost)⟩

theorem Improves.weaken (improves : Improves env checkout (fun _ => False) first second) :
    Improves env checkout Lost first second := improves.mono fun _ never => never.elim

theorem Improves.of_hashes (valid : FilesValid env second)
    (recorded : second.graphBuildState = first.graphBuildState)
    (hashes : ∀ path, storedHash env second path = storedHash env first path) :
    Improves env checkout Lost first second :=
  ⟨valid, by rw [lastIndexedRef, lastIndexedRef, recorded], fun path _ _ => .inl (hashes path)⟩

theorem KeepsFiles.meets {program : Run Db Unit}
    (keeps : KeepsFiles env checkout program) (valid : FilesValid env first) :
    program.Meets first (fun _ => Improves env checkout (fun _ => False) first)
      (Improves env checkout (fun _ => False) first) := by
  obtain ⟨stillValid, recorded, hashes⟩ := keeps first valid
  have improves : Improves env checkout (fun _ => False) first (program first).2 :=
    ⟨stillValid, recorded, fun path onDisk _ => .inl (hashes path onDisk)⟩
  unfold Run.Meets
  cases ran : program first with
  | mk outcome reached =>
    rw [ran] at improves
    cases outcome with
    | ok _ | error _ => exact improves

theorem replaceParsedFile_improves {file : ParsedFile} (truthful : Truthful env checkout file)
    (located : ∀ node ∈ file.nodes, node.filePath = file.path) (valid : FilesValid env first) :
    let after := execAll (replaceParsedFile none env.sourceRepoId file first) first
    Improves env checkout (fun _ => False) first after ∧ Current env checkout after file.path := by
  intro after
  have hashes : ∀ path, storedHash env after path =
      if path = file.path then some file.hash else storedHash env first path :=
    storedHash_replaceParsedFile file first
  obtain ⟨bytes, onDisk, hash⟩ := truthful.hash
  have current : Current env checkout after file.path := ⟨bytes, onDisk, by rw [hashes, if_pos rfl, hash]⟩
  refine ⟨⟨valid.replace truthful.canonical located, ?_, ?_⟩, current⟩
  · obtain ⟨documents, rowid, tables⟩ := doReplaceFileGraph_tables env.sourceRepoId file.path
      file.hash file.language file.size file.nodes file.edges first
    change lastIndexedRef (execAll (replaceParsedFile none env.sourceRepoId file first) first) _ = _
    rw [replaceParsedFile, tables]
    rfl
  · intro path _ _
    by_cases same : path = file.path
    · rw [same]
      exact .inr current
    · rw [hashes, if_neg same]
      exact .inl rfl

theorem replaceParsedFiles_improve (files : List ParsedFile)
    (truthful : ∀ file ∈ files, Truthful env checkout file)
    (located : ∀ file ∈ files, ∀ node ∈ file.nodes, node.filePath = file.path)
    (valid : FilesValid env first) :
    let after := runBlocks (files.map (replaceParsedFile none env.sourceRepoId)) first
    Improves env checkout (fun _ => False) first after ∧ ∀ file ∈ files, Current env checkout after file.path := by
  induction files generalizing first with
  | nil => exact ⟨.refl valid, nofun⟩
  | cons file rest ih =>
    intro after
    obtain ⟨step, current⟩ := replaceParsedFile_improves (truthful file (.head _)) (located file (.head _)) valid
    obtain ⟨later, others⟩ := ih (fun other mem => truthful other (.tail _ mem))
      (fun other mem => located other (.tail _ mem)) step.valid
    refine ⟨step.trans later, ?_⟩
    intro other mem
    rcases mem_cons.mp mem with rfl | inRest
    · exact later.current not_false current
    · exact others other inRest

theorem canonicalize_truthful {file normal : ParsedFile} (truthful : Truthful env checkout file)
    (accepted : canonicalizeParsedFile env.nfc file = .ok normal) :
    Truthful env checkout normal ∧ normal.path = file.path := by
  obtain ⟨slice, sliced, rfl⟩ := canonicalizeParsedFile_ok accepted
  obtain ⟨located, _⟩ := canonicalizeGraphSlice_ok sliced
  have samePath : slice.path = file.path := by
    have canonical := truthful.canonical
    unfold Canonical at canonical
    rw [canonical] at located
    exact (Except.ok.inj located).symm
  exact ⟨⟨by rw [samePath]; exact truthful.canonical, by
    obtain ⟨bytes, onDisk, hash⟩ := truthful.hash
    exact ⟨bytes, by rw [samePath]; exact onDisk, hash⟩⟩, samePath⟩

theorem owners_improve (checkout : Checkout env.hashBytes)
    (owners : String → Option PackageOwner) (files : List ParsedFile)
    (canonical : ∀ file ∈ files, Canonical env file.path) (valid : FilesValid env first) :
    (Run.forEach (fun file => (upsertFileOwner env file.path (owners file.path)).withContext
      ("cannot store owner metadata for " ++ file.path)) files).Meets first
      (fun _ => Improves env checkout (fun _ => False) first)
      (Improves env checkout (fun _ => False) first) := by
  refine Run.Meets.forEach (fun _ => Improves env checkout (fun _ => False) first) files [] (.refl valid) ?_
  intro before file after reached split improves
  refine Run.Meets.withContext (upsertFileOwner_meets (canonical file ?_) ?_)
  · rw [show files = before ++ file :: after from split]
    exact mem_append_right _ (.head _)
  · refine improves.trans (.of_hashes (improves.valid.owner _ _ _) rfl ?_)
    exact storedHash_owner file.path (owners file.path)

variable {owners : String → Option PackageOwner}

theorem writeBatch_improves {chunkFails : Option String} {files : List ParsedFile}
    {written : Written} (truthful : ∀ file ∈ files, Truthful env checkout file)
    (valid : FilesValid env first) :
    (writeBatch env owners chunkFails files written).Meets
      first (fun _ reached => Improves env checkout (fun _ => False) first reached ∧ ∀ file ∈ files,
      Current env checkout reached file.path)
      (Improves env checkout (fun _ => False) first) := by
  unfold writeBatch
  refine Run.Meets.bind (Run.Meets.withContext (replaceFiles_meets ?_ ?_))
  · intro normal counts accepted
    obtain ⟨replaced, current⟩ := replaceParsedFiles_improve normal (fun file mem => by
        obtain ⟨source, sourceMem, ran⟩ := Program.mapM_ok_mem accepted mem
        exact (canonicalize_truthful (truthful source sourceMem) ran).1)
      (mapM_canonicalizeParsedFile_located accepted) valid
    have sourcesCurrent : ∀ file ∈ files, Current env checkout
      (runBlocks (normal.map (replaceParsedFile none env.sourceRepoId)) first) file.path := by
      intro file mem
      obtain ⟨stored, storedMember, ran⟩ := Program.mapM_ok_of_mem accepted mem
      rw [← (canonicalize_truthful (truthful file mem) ran).2]
      exact current stored storedMember
    refine Run.Meets.bind ((owners_improve checkout owners files
      (fun file mem => (truthful file mem).canonical) replaced.valid).imp ?_ ?_)
    · intro _ owned ownedImproves
      have both := replaced.trans ownedImproves
      have chunked : ∀ rows, Improves env checkout (fun _ => False) first
          { owned with retrievalChunks := rows } ∧
          ∀ file ∈ files, Current env checkout { owned with retrievalChunks := rows } file.path := by
        intro rows
        refine ⟨both.trans (.of_hashes (both.valid.congr rfl rfl) rfl fun _ => rfl), ?_⟩
        intro file mem
        exact (ownedImproves.current not_false (sourcesCurrent file mem)).of_storedHash rfl
      refine Run.Meets.bind (Run.Meets.attempt ?_)
      cases chunkFails with
      | some msg => exact fun _ => chunked owned.retrievalChunks
      | none =>
        unfold Run.Meets storeCall replaceChunksForParsedFiles
        by_cases empty : files = []
        · simp only [empty, if_true]
          exact empty ▸ chunked owned.retrievalChunks
        · simp only [empty, if_false, transaction_faultless, runBlocks_replaceChunks]
          exact chunked _
    · intro owned ownedImproves
      exact replaced.trans ownedImproves
  · intro _ _
    exact .refl valid

theorem writeParsed_improves {options : UpdateOptions}
    (wet : options.dryRun = false) (batches : List (List ParsedFile))
    (truthful : ∀ file ∈ batches.flatten, Truthful env checkout file) (index : Nat)
    (written : Written) (valid : FilesValid env first) :
    (writeParsed env options owners index batches written).Meets first
      (fun _ reached => Improves env checkout (fun _ => False) first reached ∧
        ∀ file ∈ batches.flatten, Current env checkout reached file.path)
      (Improves env checkout (fun _ => False) first) := by
  induction batches generalizing first index written with
  | nil => exact ⟨.refl valid, nofun⟩
  | cons files rest ih =>
    unfold writeParsed
    rw [wet, if_neg Bool.false_ne_true]
    refine Run.Meets.bind ((writeBatch_improves (fun file mem => truthful file (mem_append_left _ mem)) valid).mono ?_)
    intro next reached step
    refine (ih (fun file mem => truthful file (mem_append_right _ mem)) (index + 1) next step.1.valid).imp ?_ ?_
    · intro _ final later
      refine ⟨step.1.trans later.1, ?_⟩
      intro file mem
      rcases mem_append.mp mem with here | there
      · exact later.1.current not_false (step.2 file here)
      · exact later.2 file there
    · intro final failed
      exact step.1.trans failed

/-- A rename that the plan found stable: the file is on disk under the new path only,
with the content that is stored under the old one. -/
structure StableRename (env : Env)
    (checkout : Checkout env.hashBytes) (start : Db) (rename : String × String) : Prop where
  oldCanonical : Canonical env rename.1
  newCanonical : Canonical env rename.2
  gone : checkout.content rename.1 = none
  content : ∃ bytes, checkout.content rename.2 = some bytes ∧ storedHash env start rename.1 = some (env.hashBytes bytes)

structure Renamed (env : Env) (checkout : Checkout env.hashBytes)
    (start : Db) (done : List (String × String)) (db : Db) : Prop where
  improves : Improves env checkout (fun _ => False) start db
  waiting : ∀ path, checkout.content path = none → path ∉ done.map Prod.fst → storedHash env db path = storedHash env start path
  current : ∀ rename ∈ done, Current env checkout db rename.2

theorem renameStable_step {done : List (String × String)} {rename : String × String}
    (stable : StableRename env checkout first rename) (fresh : rename.1 ∉ done.map Prod.fst)
    (renamed : Renamed env checkout first done second) :
    (renameStable env owners rename).Meets second (fun _ => Renamed env checkout first
      (done ++ [rename])) (Improves env checkout (fun _ => False) first) := by
  obtain ⟨bytes, onDisk, stored⟩ := stable.content
  have differ : rename.1 ≠ rename.2 := by
    intro same
    rw [← same, stable.gone] at onDisk
    cases onDisk
  unfold renameStable
  refine Run.Meets.bind
    (Run.Meets.withContext (renameGraph_meets stable.oldCanonical stable.newCanonical differ
    (Run.Meets.withContext (upsertFileOwner_meets stable.newCanonical ?_))))
  generalize moves : execAll (renameFileGraph none env.sourceRepoId rename.1 rename.2 second) second = moved
  have hashes : ∀ path, storedHash env (upsertFileOwnerForRepo env.sourceRepoId rename.2 (owners rename.2) moved) path =
        if path = rename.1 then none
        else if path = rename.2 then (storedHash env second rename.1).or (storedHash env second rename.2)
        else storedHash env second path := by
    intro path
    rw [storedHash_owner, ← moves]
    exact storedHash_renameFileGraph renamed.improves.valid.unique path
  have newHash : Current env checkout (upsertFileOwnerForRepo env.sourceRepoId rename.2 (owners rename.2) moved) rename.2 := by
    refine ⟨bytes, onDisk, ?_⟩
    rw [hashes, if_neg differ.symm, if_pos rfl, renamed.waiting _ stable.gone fresh, stored]
    rfl
  have movedValid : FilesValid env moved := moves ▸ renamed.improves.valid.rename env.sourceRepoId rename.1 stable.newCanonical
  have sameState : moved.graphBuildState = second.graphBuildState := by
    obtain ⟨indexed, tables⟩ := renameFileGraph_tables env.sourceRepoId rename.1 rename.2 second
    rw [← moves, tables]
    rfl
  refine ⟨renamed.improves.trans ⟨movedValid.owner _ _ _, ?_, ?_⟩, ?_, ?_⟩
  · change lastIndexedRef moved env.repoRoot = _
    rw [lastIndexedRef, sameState]
    rfl
  · intro path present _
    by_cases isNew : path = rename.2
    · exact .inr (isNew ▸ newHash)
    · have notOld : path ≠ rename.1 := by
        intro same
        rw [same, stable.gone] at present
        cases present
      rw [hashes, if_neg notOld, if_neg isNew]
      exact .inl rfl
  · intro path absent waiting
    rw [map_append, mem_append, not_or] at waiting
    have notOld : path ≠ rename.1 := fun same => waiting.2 (by simp [same])
    have notNew : path ≠ rename.2 := by
      intro same
      rw [same, onDisk] at absent
      cases absent
    rw [hashes, if_neg notOld, if_neg notNew]
    exact renamed.waiting path absent waiting.1
  · intro other mem
    rcases mem_append.mp mem with earlier | here
    · have before := renamed.current other earlier
      by_cases isNew : other.2 = rename.2
      · exact isNew ▸ newHash
      · have notOld : other.2 ≠ rename.1 := by
          intro same
          obtain ⟨_, present, _⟩ := before
          rw [same, stable.gone] at present
          cases present
        exact before.of_storedHash (by rw [hashes, if_neg notOld, if_neg isNew])
    · rw [mem_singleton.mp here]
      exact newHash

theorem renames_improve {renames : List (String × String)}
    (stable : ∀ rename ∈ renames, StableRename env checkout first rename)
    (sources : (renames.map Prod.fst).Nodup) (valid : FilesValid env first) :
    (Run.forEach (renameStable env owners) renames).Meets first
      (fun _ reached => Improves env checkout (fun _ => False) first reached ∧ ∀ rename ∈ renames,
      Current env checkout reached rename.2)
      (Improves env checkout (fun _ => False) first) := by
  have start : Renamed env checkout first [] first := ⟨.refl valid, fun _ _ _ => rfl, nofun⟩
  refine (Run.Meets.forEach (Renamed env checkout first) renames [] start ?_).mono ?_
  · intro before rename after reached split renamed
    have split : renames = before ++ rename :: after := split
    refine renameStable_step (stable rename ?_) ?_ renamed
    · rw [split]
      exact mem_append_right _ (.head _)
    · rw [split, map_append, map_cons] at sources
      exact fun early => (nodup_append.mp sources).2.2 _ early _ (.head _) rfl
  · intro _ reached renamed
    exact ⟨renamed.improves, renamed.current⟩

theorem deletes_improve {paths old : List String}
    (found : existingFileGraphDeletions env first paths = .ok old)
    (gone : ∀ path ∈ paths, Canonical env path ∧ checkout.content path = none)
    (valid : FilesValid env first) :
    (Run.forEach (deleteGraph env) old).Meets first
      (fun _ => Improves env checkout (fun path => ∃ dir ∈ paths, isBelow dir path = true) first)
      (Improves env checkout (fun path => ∃ dir ∈ paths, isBelow dir path = true) first) := by
  refine Run.Meets.forEach (fun _ => Improves env checkout (fun path => ∃ dir ∈ paths,
    isBelow dir path = true) first) old [] (.refl valid) ?_
  intro before target after reached split improves
  have split : old = before ++ target :: after := split
  have mem : target ∈ old := by
    rw [split]
    exact mem_append_right _ (.head _)
  have hit := mem_existingFileGraphDeletions found mem
  have canonical : Canonical env target := by
    rcases hit with listed | ⟨_, _, _, row, rowMem, inRepo, rfl⟩
    · exact (gone target listed).1
    · exact valid.canonical row rowMem inRepo
  refine Run.Meets.withContext (deleteGraph_meets canonical ?_)
  have hashes : ∀ path, storedHash env (execAll (deleteFileGraph none env.sourceRepoId target
    reached) reached) path = if path = target then none else storedHash env reached path := by
    intro path
    unfold storedHash
    rw [findFile_deleteFileGraph]
    split
    all_goals rfl
  refine ⟨improves.valid.delete _ _, ?_, ?_⟩
  · rw [deleteFileGraph_tables]
    exact improves.recorded
  · intro path present kept
    have notTarget : path ≠ target := by
      rintro rfl
      rcases hit with listed | ⟨dir, dirMem, below, _⟩
      · rw [(gone path listed).2] at present
        cases present
      · exact kept ⟨dir, dirMem, below⟩
    have same : storedHash env (execAll (deleteFileGraph none env.sourceRepoId target reached)
      reached) path = storedHash env reached path := by rw [hashes, if_neg notTarget]
    rcases improves.hashes path present kept with unchanged | current
    · exact .inl (same.trans unchanged)
    · exact .inr (current.of_storedHash same)

end
end Atlas.Engine
