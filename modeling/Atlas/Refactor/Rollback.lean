import Atlas.Refactor.Engine

/-! What an application that does not go through leaves behind. -/
namespace Atlas.Refactor
open List Core Sql Store

section
variable {File : Type} {machine : Machine File}

def ReadFrom (machine : Machine File) (disk : File → Option Text) (contents : List Rewrite) :
    Prop := ∀ rewrite ∈ contents, disk (machine.locate rewrite.path) = some rewrite.old

variable {disk original : File → Option Text}
  {plan : RefactorPlan} {prepared : Preparation} {contents : List Rewrite}

theorem readFileContent_ok {path : String}
    {content : Text} (read : readFileContent machine disk path = .ok content) :
    disk (machine.locate path) = some content := by
  unfold readFileContent at read
  cases fault : machine.readFault path with
  | some reason => simp [fault] at read
  | none =>
    cases found : disk (machine.locate path) with
    | none => simp [fault, found] at read
    | some text => simpa [fault, found] using read

def Preparation.rewrite (prepared : Preparation)
    (plan : RefactorPlan) (path : String) (old content : Text) : Preparation :=
  let new := normalizePostEditContent plan path content
  let diff := unifiedDiffAnnotated path old new
  { prepared with
    patches := if diff = [] then prepared.patches else prepared.patches ++ [⟨path, diff⟩]
    newContents := prepared.newContents ++ [⟨path, old, new⟩] }

theorem prepareFile_cases {next : Preparation} {group : String × List RefactorEdit}
    (done : prepareFile machine plan disk prepared group = some next) :
    (∃ validation, next = { prepared with validation }) ∨ ∃ old content, readFileContent machine disk group.1 = .ok old ∧
      applyEdits old (sortReverse group.2) = .ok content ∧ next = prepared.rewrite plan group.1 old content := by
  unfold prepareFile at done
  cases read : readFileContent machine disk group.1 with
  | error error =>
    simp only [read, Option.some.injEq] at done
    exact .inl ⟨_, done.symm⟩
  | ok old =>
    cases edited : applyEdits old (sortReverse group.2) with
    | error failure =>
      cases failure with
      | panicked => simp [read, edited] at done
      | refused error =>
        simp only [read, edited, Option.some.injEq] at done
        exact .inl ⟨_, done.symm⟩
    | ok content =>
      simp only [read, edited, Option.some.injEq] at done
      exact .inr ⟨old, content, rfl, edited, done.symm⟩

theorem prepareFile_readFrom {next : Preparation} {group : String × List RefactorEdit}
    (done : prepareFile machine plan disk prepared group = some next)
    (before : ReadFrom machine disk prepared.newContents) : ReadFrom machine disk next.newContents := by
  obtain ⟨validation, rfl⟩ | ⟨old, content, read, edited, rfl⟩ := prepareFile_cases done
  · exact before
  · intro rewrite mem
    cases mem_append.mp mem with
    | inl older => exact before rewrite older
    | inr new =>
      rw [mem_singleton.mp new]
      exact readFileContent_ok read

theorem foldlM_some_invariant {State Item : Type} {step : State → Item → Option State}
    (Invariant : State → Prop) {items : List Item} {state final : State}
    (kept : ∀ state, ∀ item ∈ items, ∀ next, step state item = some next → Invariant state → Invariant next)
    (ran : items.foldlM step state = some final) (holds : Invariant state) : Invariant final := by
  induction items generalizing state with
  | nil =>
    cases ran
    exact holds
  | cons item rest ih =>
    rw [foldlM_cons] at ran
    cases stepped : step state item with
    | none => simp [stepped] at ran
    | some next =>
      rw [stepped] at ran
      exact ih (fun state later mem => kept state later (.tail _ mem)) ran (kept state item (.head _) next stepped holds)

theorem prepare_readFrom (done : prepare machine plan disk = some prepared) :
    ReadFrom machine disk prepared.newContents :=
  foldlM_some_invariant (fun prepared => ReadFrom machine disk prepared.newContents)
    (fun _ _ _ _ stepped before => prepareFile_readFrom stepped before) done nofun

variable [DecidableEq File]

def ChangedAt (machine : Machine File) (paths : List String) (before after : File → Option Text) :
    Prop := ∀ file, after file = before file ∨ ∃ path ∈ paths, machine.locate path = file

theorem writeContents_changedAt (contents : List Rewrite)
    (writing : Writing File) (before : ChangedAt machine writing.written original writing.disk) :
    ChangedAt machine (writeContents machine contents writing).written original
      (writeContents machine contents writing).disk := by
  induction contents generalizing writing with
  | nil => exact before
  | cons rewrite rest ih =>
    unfold writeContents writeFile
    cases fault : machine.writeFault rewrite.path with
    | some reason => exact before
    | none =>
      refine ih _ ?_
      intro file
      by_cases here : machine.locate rewrite.path = file
      · exact .inr ⟨rewrite.path, by simp, here⟩
      · cases before file with
        | inl same => exact .inl (by simpa [Function.update_of_ne (Ne.symm here)] using same)
        | inr changed =>
          obtain ⟨path, mem, located⟩ := changed
          exact .inr ⟨path, by simp [mem], located⟩

theorem writeContents_written (contents : List Rewrite) (writing : Writing File) :
    ∀ path ∈ (writeContents machine contents writing).written, path ∈ writing.written ∨
      ∃ rewrite ∈ contents, rewrite.path = path := by
  induction contents generalizing writing with
  | nil => exact fun path mem => .inl mem
  | cons rewrite rest ih =>
    intro path mem
    unfold writeContents writeFile at mem
    cases fault : machine.writeFault rewrite.path with
    | some reason =>
      rw [fault] at mem
      exact .inl mem
    | none =>
      rw [fault] at mem
      cases ih _ path mem with
      | inl earlier =>
        cases mem_append.mp earlier with
        | inl before => exact .inl before
        | inr here => exact .inr ⟨rewrite, .head _, (mem_singleton.mp here).symm⟩
      | inr later =>
        obtain ⟨other, member, same⟩ := later
        exact .inr ⟨other, .tail _ member, same⟩

theorem rollbackWrittenFiles_restores {written : List String} (restores : ∀ path,
    machine.restoreFault path = none) (readFrom : ReadFrom machine original contents)
    (known : ∀ path ∈ written, ∃ rewrite ∈ contents, rewrite.path = path)
    (changed : ChangedAt machine written original disk) :
    rollbackWrittenFiles machine written contents disk = original := by
  induction written generalizing disk with
  | nil =>
    funext file
    cases changed file with
    | inl same => exact same
    | inr wrote =>
      obtain ⟨path, mem, _⟩ := wrote
      cases mem
  | cons path rest ih =>
    obtain ⟨rewrite, member, samePath⟩ := known path (.head _)
    have present : (contents.find? fun rewrite => decide (rewrite.path = path)).isSome := by
      rw [find?_isSome]
      exact ⟨rewrite, member, by simpa using samePath⟩
    obtain ⟨found, lookup⟩ := Option.isSome_iff_exists.mp present
    have foundPath : found.path = path := by simpa using find?_some lookup
    have old := readFrom found (mem_of_find?_eq_some lookup)
    rw [foundPath] at old
    rw [rollbackWrittenFiles, foldl_cons]
    refine ih (fun other mem => known other (.tail _ mem)) ?_
    simp only [lookup, writeFile, restores]
    intro file
    by_cases here : file = machine.locate path
    · subst here
      exact .inl (by rw [Function.update_self, old])
    · rw [Function.update_of_ne here]
      cases changed file with
      | inl same => exact .inl same
      | inr wrote =>
        obtain ⟨other, mem, located⟩ := wrote
        cases mem_cons.mp mem with
        | inl same => exact absurd (same ▸ located.symm) here
        | inr later => exact .inr ⟨other, later, located⟩

theorem rollback_writeContents (restores : ∀ path, machine.restoreFault path = none)
    (readFrom : ReadFrom machine original contents) :
    let writing := writeContents machine (machine.contentOrder.arrange contents)
      { disk := original, written := [], failed := none }
    rollbackWrittenFiles machine writing.written contents writing.disk = original := by
  refine rollbackWrittenFiles_restores restores readFrom ?_ ?_
  · intro path mem
    cases writeContents_written _ _ path mem with
    | inl before => cases before
    | inr wrote =>
      obtain ⟨rewrite, member, same⟩ := wrote
      exact ⟨rewrite, (machine.contentOrder.perm contents).mem_iff.mp member, same⟩
  · exact writeContents_changedAt _ _ fun file => .inl rfl

omit [DecidableEq File] in
theorem refreshGraphSlices_unchanged {store after : Connection Db} {error : AtlasError}
    (closes : machine.refreshFaults.staysOpen = false)
    (failed : refreshGraphSlices machine contents store = (.error error, after)) : after = store := by
  unfold refreshGraphSlices at failed
  cases parsed : parsedContents machine contents with
  | nil => simp [parsed] at failed
  | cons first rest =>
    cases root : machine.sourceRepoId with
    | none =>
      simp only [parsed, root] at failed
      cases failed
      rfl
    | some repo =>
      have nonempty : (first :: rest : List ParsedFile) ≠ [] := cons_ne_nil _ _
      simp only [parsed, root, replaceFilesTransactionalForRepo, if_neg nonempty] at failed
      cases accepted : (first :: rest).mapM (canonicalizeParsedFile machine.nfc) with
      | error refused =>
        rw [accepted] at failed
        cases failed
        rfl
      | ok normal =>
        rw [accepted] at failed
        dsimp only at failed
        split at failed
        next cause reached ran =>
          cases failed
          exact transaction_error_unchanged closes ran
        next => cases failed

end

def fileNode (relPath fileHash : String) (lineEnd : Nat) (language : String) : Node where
  kind := .file
  name := String.ofList ((relPath.toList.splitOn '/').getLast?.getD [])
  qualifiedName := relPath
  filePath := relPath
  lineStart := 1
  lineEnd := lineEnd
  language := language
  fileHash := fileHash

def commentHandler (path hash : String) (source : Text) : ParsedFile × Option Bool :=
  ({ path, language := some "rust", hash, size := some (byteLength source)
     nodes := [fileNode path hash (1 + source.count '\n') "rust"], edges := [] }, some false)

/-- Two Rust files below `/repo`; the digest is that of the one content written. -/
def commentMachine (writeFault : String → Option String) (refreshFaults : FaultPlan) :
    Machine String where
  repoRoot := "/repo"
  sourceRepoId := some "repo"
  locate path := path
  registry path := if endsWith path ".rs" then some (commentHandler path) else none
  sha256 _ := "9db8f5acfe6f77600ef4cfc5b761fed55daf71cad6befd07921ab566a60de351"
  nfc := id
  editOrder := .asGiven
  contentOrder := .asGiven
  readFault _ := none
  writeFault
  restoreFault _ := none
  refreshFaults

def commentEdit (path : String) : RefactorEdit where
  filePath := path
  lineStart := 1
  lineEnd := 1
  oldText := "// old".toList
  newText := "// new".toList
  editKind := .renameOccurrence

def commentPlan : RefactorPlan where
  operation := .renameSymbol "a.rs::fn::old" "new"
  edits := [commentEdit "a.rs", commentEdit "b.rs"]
  manualReview := []

def commentWorld : World String where
  disk path := if path = "a.rs" ∨ path = "b.rs" then some "// old\n".toList else none
  store := ⟨Db.empty, none⟩

def secondWriteFails : String → Option String := fun path =>
  if path = "b.rs" then some "No space left on device (os error 28)" else none

def diskFull : FaultPlan where
  commits := some "database or disk is full"

end Atlas.Refactor
