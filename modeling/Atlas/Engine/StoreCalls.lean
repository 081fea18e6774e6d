import Atlas.Engine.Build
import Atlas.Store.Runs

/-! What the store calls of a run do to the file rows and to the recorded ref. -/
namespace Atlas.Engine
open List Core Program Sql Store

variable {repo path old new : String} {After : Unit → Db → Prop} {Failed : Db → Prop}

theorem decide_key (repo path : String) :
    (fun row : FileRow => decide (row.sourceRepoId = repo ∧ row.path = path)) = fun row =>
      decide (row.key = (repo, path)) := by
  funext row
  simp [FileRow.key]

theorem findFile_eq_find_key (db : Db) (repo path : String) :
    findFile db repo path = db.files.find? fun row => decide (row.key = (repo, path)) := by
  rw [findFile, decide_key]

theorem find?_deleteFile (rows : List FileRow) (repo path wanted : String) :
    (deleteWhere (fun row => decide (row.sourceRepoId = repo ∧ row.path = path)) rows).find?
        (fun row => decide (row.sourceRepoId = repo ∧ row.path = wanted)) =
      if wanted = path then none
      else rows.find? fun row => decide (row.sourceRepoId = repo ∧ row.path = wanted) := by
  unfold deleteWhere
  rw [find?_filter]
  by_cases same : wanted = path
  · subst same
    rw [if_pos rfl, find?_eq_none]
    intro row _ found
    simp only [Bool.not_eq_true', decide_eq_false_iff_not, decide_eq_true_eq] at found
    exact found.1 found.2
  · rw [if_neg same]
    congr 1
    funext row
    by_cases found : row.sourceRepoId = repo ∧ row.path = wanted
    · simp [found, same]
    · simp [found]

theorem findFile_replaceParsedFile (repo : String) (file : ParsedFile) (db : Db) (path : String) :
    findFile (execAll (replaceParsedFile none repo file db) db) repo path =
      if path = file.path then
        some
          { path := file.path
            language := file.language
            hash := file.hash
            size := file.size
            owner := ((findFile db repo file.path).map FileRow.owner).getD {}
            sourceRepoId := repo }
      else findFile db repo path := by
  obtain ⟨documents, rowid, tables⟩ := doReplaceFileGraph_tables repo file.path file.hash
    file.language file.size file.nodes file.edges db
  rw [replaceParsedFile, tables, findFile_eq_find_key, findFile_eq_find_key, findFile_eq_find_key]
  simp only [Statement.replaceFileRow, find?_insertOrReplace]
  by_cases same : path = file.path
  · simp [FileRow.key, same]
  · simp [FileRow.key, same, Ne.symm same]

theorem replaceParsedFile_rows {file : ParsedFile} {db : Db}
    {row : FileRow} (mem : row ∈ (execAll (replaceParsedFile none repo file db) db).files) :
    row ∈ db.files ∨ row.path = file.path := by
  obtain ⟨documents, rowid, tables⟩ := doReplaceFileGraph_tables repo file.path file.hash
    file.language file.size file.nodes file.edges db
  rw [replaceParsedFile, tables] at mem
  rcases mem_insertOrReplace.mp mem with ⟨old, _⟩ | rfl
  · exact .inl old
  · exact .inr rfl

theorem findFile_deleteFileGraph (repo path : String) (db : Db) (wanted : String) :
    findFile (execAll (deleteFileGraph none repo path db) db) repo wanted =
      if wanted = path then none else findFile db repo wanted := by
  rw [deleteFileGraph_tables]
  exact find?_deleteFile db.files repo path wanted

theorem deleteFileGraph_rows {db : Db} {row : FileRow}
    (mem : row ∈ (execAll (deleteFileGraph none repo path db) db).files) : row ∈ db.files := by
  rw [deleteFileGraph_tables] at mem
  exact (mem_deleteWhere.mp mem).1

theorem execAll_ftsInsert_tables (documents : List FtsDocument) (db : Db) : ∃ indexed,
    execAll (documents.map Statement.ftsInsert) db = { db with nodesFts := indexed } := by
  induction documents generalizing db with
  | nil => exact ⟨db.nodesFts, rfl⟩
  | cons document rest ih =>
    obtain ⟨indexed, ran⟩ := ih (Statement.ftsInsert document db)
    exact ⟨indexed, ran⟩

theorem renameFileGraph_tables (repo old new : String) (db : Db) :
    ∃ indexed, execAll (renameFileGraph none repo old new db) db =
      { moveFile repo old new db with nodesFts := indexed } := by
  rw [renameFileGraph_eq]
  exact execAll_ftsInsert_tables _ _

theorem findFile_renameFileGraph {db : Db} (unique : (db.files.map FileRow.key).Nodup)
    (wanted : String) : findFile (execAll (renameFileGraph none repo old new db) db) repo wanted =
      if wanted = old then none
      else if wanted = new then
        ((findFile db repo old).map fun row => { row with path := new }).or (findFile db repo new)
      else findFile db repo wanted := by
  have moved : (db.files.filter fun row => decide (row.sourceRepoId = repo ∧ row.path = old)) =
    (findFile db repo old).toList := by
    cases found : findFile db repo old with
    | none =>
      rw [Option.toList_none, filter_eq_nil_iff]
      exact find?_eq_none.mp found
    | some row =>
      have key : row.sourceRepoId = repo ∧ row.path = old := by simpa using find?_some found
      rw [Option.toList_some, ← filter_key_eq_of_mem unique (mem_of_find?_eq_some found)]
      refine filter_congr fun other _ => ?_
      simp [FileRow.key, key]
  obtain ⟨indexed, tables⟩ := renameFileGraph_tables repo old new db
  unfold findFile
  rw [tables]
  simp only [moveFile]
  rw [find?_deleteFile, moved]
  by_cases isOld : wanted = old
  · simp [isOld]
  rw [if_neg isOld, if_neg isOld]
  cases found : findFile db repo old with
  | none =>
    unfold findFile at found
    rw [found]
    by_cases isNew : wanted = new
    all_goals simp [isNew]
  | some row =>
    have key : row.sourceRepoId = repo ∧ row.path = old := by simpa using find?_some found
    unfold findFile at found
    rw [Option.toList_some, foldl_cons, foldl_nil, decide_key repo wanted, find?_insertOrReplace, found]
    by_cases isNew : wanted = new
    · simp [FileRow.key, isNew, key]
    · simp [FileRow.key, isNew, Ne.symm isNew]

theorem findFile_owner (repo owned : String) (owner : Option PackageOwner)
    (db : Db) (path : String) : findFile (upsertFileOwnerForRepo repo owned owner db) repo path =
      if path = owned then
        (findFile db repo path).map fun row => { row with owner := ownerColumns owner }
      else findFile db repo path := by
  have found : findFile (upsertFileOwnerForRepo repo owned owner db) repo path = (findFile db repo path).map fun row =>
        if decide (row.sourceRepoId = repo ∧ row.path = owned) then
          { row with owner := ownerColumns owner } else row := by
    refine find?_updateWhere ?_ db.files
    intro row
    rfl
  rw [found]
  cases stored : findFile db repo path with
  | none => simp
  | some row =>
    have key : row.sourceRepoId = repo ∧ row.path = path := by simpa using find?_some stored
    by_cases same : path = owned
    all_goals simp [key, same]

section
variable (env : Env)

def Canonical (path : String) : Prop := canonicalizeRepoPath env.nfc path = .ok path
def storedHash (db : Db) (path : String) : Option String :=
  (findFile db env.sourceRepoId path).map FileRow.hash

structure FilesValid (db : Db) : Prop where
  unique : (db.files.map FileRow.key).Nodup
  canonical : ∀ row ∈ db.files, row.sourceRepoId = env.sourceRepoId → Canonical env row.path
  nodes : ∀ row ∈ db.nodes, row.sourceRepoId = env.sourceRepoId → Canonical env row.filePath

end

section
variable {env : Env} {db : Db}

theorem FilesValid.empty :
    FilesValid env Db.empty := ⟨nodup_nil, by simp [Db.empty], by simp [Db.empty]⟩

theorem FilesValid.congr {other : Db}
    (valid : FilesValid env db) (keys : other.files.map FileRow.key = db.files.map FileRow.key)
    (nodes : other.nodes = db.nodes) : FilesValid env other := by
  refine ⟨by rw [keys]; exact valid.unique, ?_, by rw [nodes]; exact valid.nodes⟩
  · intro row mem inRepo
    have keyMem : row.key ∈ db.files.map FileRow.key := keys ▸ mem_map_of_mem mem
    obtain ⟨old, oldMem, same⟩ := mem_map.mp keyMem
    obtain ⟨sameRepo, samePath⟩ := Prod.ext_iff.mp same
    have canonical := valid.canonical old oldMem (sameRepo.trans inRepo)
    rwa [show old.path = row.path from samePath] at canonical

theorem mem_insertNodeRows (nodes : List Node)
    {rows : List NodeRow} {row : NodeRow} (mem : row ∈ insertNodeRows repo nodes rows) :
    row ∈ rows ∨ ∃ node ∈ nodes, row.filePath = node.filePath := by
  induction nodes generalizing rows with
  | nil => exact .inl mem
  | cons node rest ih =>
    rcases ih mem with before | ⟨other, inRest, same⟩
    · rcases mem_insertOrReplace.mp before with ⟨old, _⟩ | rfl
      · exact .inl old
      · exact .inr ⟨node, .head _, rfl⟩
    · exact .inr ⟨other, .tail _ inRest, same⟩

theorem FilesValid.replace (valid : FilesValid env db) {file : ParsedFile} (canonical :
    Canonical env file.path) (located : ∀ node ∈ file.nodes, node.filePath = file.path) :
    FilesValid env (execAll (replaceParsedFile none env.sourceRepoId file db) db) := by
  obtain ⟨documents, rowid, tables⟩ := doReplaceFileGraph_tables env.sourceRepoId file.path
    file.hash file.language file.size file.nodes file.edges db
  refine ⟨?_, ?_, ?_⟩
  · rw [replaceParsedFile, tables]
    exact keys_nodup_insertOrReplace _ valid.unique
  · intro row mem inRepo
    rcases replaceParsedFile_rows mem with old | same
    · exact valid.canonical row old inRepo
    · rw [same]
      exact canonical
  · rw [replaceParsedFile, tables]
    intro row mem inRepo
    rcases mem_insertNodeRows file.nodes mem with old | ⟨node, inFile, same⟩
    · exact valid.nodes row (mem_deleteWhere.mp old).1 inRepo
    · rw [same, located node inFile]
      exact canonical

theorem FilesValid.delete (valid : FilesValid env db) (repo path : String) :
    FilesValid env (execAll (deleteFileGraph none repo path db) db) := by
  refine ⟨?_, ?_, ?_⟩
  · rw [deleteFileGraph_tables]
    exact valid.unique.sublist (filter_sublist.map _)
  · intro row mem inRepo
    exact valid.canonical row (deleteFileGraph_rows mem) inRepo
  · rw [deleteFileGraph_tables]
    intro row mem inRepo
    exact valid.nodes row (mem_deleteWhere.mp mem).1 inRepo

theorem moved_valid (moved : List FileRow)
    {rows : List FileRow} (unique : (rows.map FileRow.key).Nodup)
    (canonical : ∀ row ∈ rows, row.sourceRepoId = env.sourceRepoId → Canonical env row.path)
    (target : Canonical env new) :
    let after := moved.foldl
      (fun files row => insertOrReplace FileRow.key { row with path := new } files) rows
    (after.map FileRow.key).Nodup ∧ ∀ row ∈ after, row.sourceRepoId = env.sourceRepoId → Canonical env row.path := by
  induction moved generalizing rows with
  | nil => exact ⟨unique, canonical⟩
  | cons row rest ih =>
    refine ih (keys_nodup_insertOrReplace _ unique) ?_
    intro other mem inRepo
    rcases mem_insertOrReplace.mp mem with ⟨old, _⟩ | rfl
    · exact canonical other old inRepo
    · exact target

theorem FilesValid.rename (valid : FilesValid env db)
    (repo old : String) (target : Canonical env new) :
    FilesValid env (execAll (renameFileGraph none repo old new db) db) := by
  obtain ⟨unique, canonical⟩ := moved_valid (db.files.filter fun row =>
    decide (row.sourceRepoId = repo ∧ row.path = old)) valid.unique valid.canonical target
  obtain ⟨indexed, tables⟩ := renameFileGraph_tables repo old new db
  rw [tables]
  refine ⟨unique.sublist (filter_sublist.map _), ?_, ?_⟩
  · intro row mem inRepo
    exact canonical row (mem_deleteWhere.mp mem).1 inRepo
  · intro row mem inRepo
    obtain ⟨before, inNodes, rfl⟩ := mem_map.mp mem
    split
    · exact target
    · next other =>
        rw [if_neg other] at inRepo
        exact valid.nodes before inNodes inRepo

theorem FilesValid.owner (valid : FilesValid env db) (repo path : String)
    (owner : Option PackageOwner) : FilesValid env (upsertFileOwnerForRepo repo path owner db) := by
  refine valid.congr ?_ rfl
  refine map_updateWhere ?_ db.files
  intro row
  rfl

theorem storedHash_replaceParsedFile (file : ParsedFile) (db : Db) (path : String) :
    storedHash env (execAll (replaceParsedFile none env.sourceRepoId file db) db) path =
      if path = file.path then some file.hash else storedHash env db path := by
  rw [storedHash, findFile_replaceParsedFile]
  split
  all_goals rfl

theorem storedHash_renameFileGraph (unique : (db.files.map FileRow.key).Nodup) (wanted : String) :
    storedHash env (execAll (renameFileGraph none env.sourceRepoId old new db) db) wanted =
      if wanted = old then none
      else if wanted = new then (storedHash env db old).or (storedHash env db new)
      else storedHash env db wanted := by
  rw [storedHash, findFile_renameFileGraph unique]
  split
  · rfl
  · split
    · unfold storedHash
      cases findFile db env.sourceRepoId old with
      | none | some row => rfl
    · rfl

theorem storedHash_owner (path : String) (owner : Option PackageOwner) (wanted : String) :
    storedHash env (upsertFileOwnerForRepo env.sourceRepoId path owner db) wanted = storedHash env db wanted := by
  rw [storedHash, findFile_owner]
  split
  · rw [Option.map_map]
    rfl
  · rfl

end

theorem below_of_range (dir path : List Char) (lower : ¬ path < dir ++ ['/'])
    (upper : path < dir ++ ['0']) : ∃ rest, path = dir ++ '/' :: rest := by
  induction dir generalizing path with
  | nil =>
    cases path with
    | nil => exact absurd (nil_lt_cons _ _) lower
    | cons first rest =>
      rw [nil_append, cons_lt_cons_iff] at lower upper
      have below : first < '0' := by
        rcases upper with less | ⟨_, less⟩
        · exact less
        · exact absurd less (not_lt_nil _)
      have slash : first = '/' := by
        have atLeast : ¬ first < '/' := fun less => lower (.inl less)
        have code : first.toNat = '/'.toNat := by
          have low : '/'.toNat ≤ first.toNat := Nat.le_of_not_lt atLeast
          have high : first.toNat < '0'.toNat := below
          have next : '0'.toNat = '/'.toNat + 1 := rfl
          omega
        exact Char.toNat_inj.mp code
      exact ⟨rest, by rw [slash]; rfl⟩
  | cons head tail ih =>
    cases path with
    | nil => exact absurd (nil_lt_cons _ _) lower
    | cons first rest =>
      rw [cons_append, cons_lt_cons_iff] at lower upper
      rcases upper with less | ⟨rfl, upper⟩
      · exact absurd (.inl less) lower
      · obtain ⟨after, rfl⟩ := ih rest (fun less => lower (.inr ⟨rfl, less⟩)) upper
        exact ⟨after, rfl⟩

theorem isBelow_of_range {dir : String} (lower : dir ++ "/" ≤ path) (upper : path < dir ++ "0") :
    isBelow dir path = true := by
  rw [String.lt_iff_toList_lt, String.toList_append] at upper
  rw [← not_lt, String.lt_iff_toList_lt, String.toList_append] at lower
  obtain ⟨rest, split⟩ := below_of_range dir.toList path.toList lower upper
  unfold isBelow startsWith
  rw [split, String.toList_append, isPrefixOf_iff_prefix]
  exact ⟨rest, by simp⟩

theorem mem_ascending {names : List String} {name : String} :
    name ∈ ascending names ↔ name ∈ names := mem_insertionSort _

theorem mem_existingFileGraphDeletions {env : Env} {db : Db} {paths existing : List String}
    (found : existingFileGraphDeletions env db paths = .ok existing) (mem : path ∈ existing) :
    path ∈ paths ∨ ∃ dir ∈ paths, isBelow dir path = true ∧
      ∃ row ∈ db.files, row.sourceRepoId = env.sourceRepoId ∧ row.path = path := by
  unfold existingFileGraphDeletions at found
  obtain ⟨lists, gathered, listed⟩ := Program.bind_eq_ok found
  cases listed
  obtain ⟨list, listMember, inList⟩ := mem_flatten.mp (mem_dedup.mp (mem_ascending.mp mem))
  obtain ⟨dir, dirMem, ran⟩ := Program.mapM_ok_mem gathered listMember
  unfold deletionsOf at ran
  obtain ⟨stored, exact, made⟩ := Program.bind_eq_ok ran
  cases made
  rcases mem_append.mp inList with self | child
  · cases stored with
    | false => cases self
    | true =>
      rw [if_pos rfl, mem_singleton] at self
      exact .inl (self ▸ dirMem)
  · obtain ⟨row, rowMem, rfl⟩ := mem_map.mp (mem_ascending.mp child)
    obtain ⟨inFiles, range⟩ := mem_filter.mp rowMem
    obtain ⟨inRepo, lower, upper⟩ := of_decide_eq_true range
    exact .inr ⟨dir, dirMem, isBelow_of_range lower upper, row, inFiles, inRepo, rfl⟩

section
variable {env : Env} {db : Db}

theorem replaceFiles_meets {files : List ParsedFile} {After : Nat × Nat → Db → Prop}
    (written : ∀ normal counts, files.mapM (canonicalizeParsedFile env.nfc) = .ok normal →
      After counts (runBlocks (normal.map (replaceParsedFile none env.sourceRepoId)) db))
    (rejected : ∀ error, files.mapM (canonicalizeParsedFile env.nfc) = .error error → Failed db) :
    (storeCall (replaceFilesTransactionalForRepo env.nfc .faultless env.sourceRepoId files)).Meets db After Failed := by
  unfold Run.Meets storeCall replaceFilesTransactionalForRepo
  by_cases empty : files = []
  · subst empty
    exact written [] (0, 0) rfl
  · cases accepted : files.mapM (canonicalizeParsedFile env.nfc) with
    | error error =>
      simp only [empty, if_false]
      exact rejected error accepted
    | ok normal =>
      simp only [empty, if_false, transaction_faultless, mapIdx_replaceParsedFile]
      exact written normal _ accepted

theorem deleteGraph_meets {canonical : String}
    (located : canonicalizeRepoPath env.nfc path = .ok canonical)
    (deleted : After () (execAll (deleteFileGraph none env.sourceRepoId canonical db) db)) :
    (storeCall (deleteFileGraphForRepo env.nfc .faultless env.sourceRepoId path)).Meets db After Failed := by
  unfold Run.Meets storeCall deleteFileGraphForRepo
  simp only [located, transaction_faultless]
  exact deleted

theorem renameGraph_meets (oldCanonical : Canonical env old)
    (newCanonical : Canonical env new) (differ : old ≠ new)
    (renamed : After () (execAll (renameFileGraph none env.sourceRepoId old new db) db)) :
    (storeCall (renameFileGraphForRepo env.nfc .faultless env.sourceRepoId old new)).Meets db After Failed := by
  unfold Canonical at oldCanonical newCanonical
  unfold Run.Meets storeCall renameFileGraphForRepo
  simp only [oldCanonical, newCanonical, differ, if_false, transaction_faultless]
  exact renamed

theorem upsertFileOwner_meets {owner : Option PackageOwner} (canonical : Canonical env path)
    (updated : After () (upsertFileOwnerForRepo env.sourceRepoId path owner db)) :
    (upsertFileOwner env path owner).Meets db After Failed := by
  unfold Canonical at canonical
  unfold upsertFileOwner
  simp only [canonical]
  exact updated

end
end Atlas.Engine
