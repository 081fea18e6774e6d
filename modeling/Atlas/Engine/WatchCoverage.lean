import Atlas.Engine.Watch

/-! Changes of files are made, reported by notify in order, and normalized in two parts. The
change list covers the difference of the trees in every run in which no report is taken
for a duplicate, no removal is overtaken by the next path of its own event, and no entry
that is the only trace of a renamed file is replaced. -/
namespace Atlas.Engine
open List Core Option Function

/-! ## Changes of files and their reports -/

abbrev FileTree (Content : Type) := String → Option Content

structure ReportedFile where
  (absolute relative : String)

inductive FileChange (Content : Type) where
  | create (files : List (ReportedFile × Content))
  | modify (files : List (ReportedFile × Content))
  | remove (files : List ReportedFile)
  | rename (old new : ReportedFile)

/-- What happens at a single path of an event, in the order of `normalize`. -/
inductive PathStep (Content : Type) where
  | flush
  | create (file : ReportedFile) (content : Content)
  | modify (file : ReportedFile) (content : Content)
  | remove (file : ReportedFile)
  | rename (old new : ReportedFile)

section
variable {Content : Type}

def FileChange.event : FileChange Content → Event
  | .create files => ⟨.create, files.map fun file => file.1.absolute⟩
  | .modify files => ⟨.modify, files.map fun file => file.1.absolute⟩
  | .remove files => ⟨.remove, files.map fun file => file.absolute⟩
  | .rename old new => ⟨.renameBoth, [old.absolute, new.absolute]⟩

def FileChange.steps : FileChange Content → List (PathStep Content)
  | .create files => files.map fun file => .create file.1 file.2
  | .modify files => .flush :: files.map fun file => .modify file.1 file.2
  | .remove files => .flush :: files.map fun file => .remove file
  | .rename old new => [.flush, .rename old new]

def PathStep.apply (tree : FileTree Content) : PathStep Content → Option (FileTree Content)
  | .flush => some tree
  | .create file content =>
    if (tree file.relative).isNone then
      some (update tree file.relative (some content))
    else none
  | .modify file content =>
    if (tree file.relative).isSome then
      some (update tree file.relative (some content))
    else none
  | .remove file =>
    if (tree file.relative).isSome then some (update tree file.relative none)
    else none
  | .rename old new =>
    if old.relative = new.relative then none
    else (tree old.relative).map fun content =>
      update (update tree old.relative none) new.relative (some content)

def FileTree.run (tree : FileTree Content) (steps : List (PathStep Content)) :
    Option (FileTree Content) := steps.foldlM PathStep.apply tree
def FileTree.after (tree : FileTree Content) (changes : List (FileChange Content)) :
    Option (FileTree Content) := FileTree.run tree (changes.flatMap FileChange.steps)

def PathStep.files : PathStep Content → List ReportedFile
  | .flush => []
  | .create file _ | .modify file _ | .remove file => [file]
  | .rename old new => [old, new]

def FileWatcher.step (watcher : FileWatcher) (normal : Normalizer) : PathStep Content → Normalizer
  | .flush => normal.flush
  | .create file _ => watcher.createPath normal file.absolute
  | .modify file _ => watcher.modifyPath normal file.absolute
  | .remove file => watcher.removePath normal file.absolute
  | .rename old new => watcher.renamePaths normal [old.absolute, new.absolute]

theorem FileWatcher.handle_event (watcher : FileWatcher)
    (normal : Normalizer) (change : FileChange Content) :
    watcher.handle normal change.event = change.steps.foldl watcher.step normal := by
  cases change with
  | create files => simp only [FileWatcher.handle, FileChange.event, FileChange.steps,
      foldl_map, FileWatcher.step]
  | modify files | remove files => simp only [FileWatcher.handle, FileChange.event, FileChange.steps,
      foldl_map, foldl_cons, FileWatcher.step]
  | rename old new => rfl

def partSteps (changes : List (FileChange Content)) : List (PathStep Content) :=
  changes.flatMap FileChange.steps ++ [.flush]

theorem FileWatcher.normalize_events (watcher : FileWatcher) (changes : List (FileChange Content)) :
    watcher.normalize (changes.map FileChange.event) = ((partSteps changes).foldl watcher.step {}).out := by
  have folded : ∀ normal : Normalizer, (changes.map FileChange.event).foldl watcher.handle normal =
    (changes.flatMap FileChange.steps).foldl watcher.step normal := by
    induction changes with
    | nil =>
      intro normal
      rfl
    | cons change rest ih =>
      intro normal
      rw [map_cons, foldl_cons, flatMap_cons, foldl_append, watcher.handle_event, ih]
  unfold FileWatcher.normalize partSteps
  rw [folded, foldl_append]
  rfl

end

def Presents (change : ChangedFile) (path : String) : Prop :=
  change.path = path ∧ (change.changeType = .modified ∨ change.changeType = .renamed)
def Retracts (change : ChangedFile) (path : String) : Prop := change.path = path ∧
    change.changeType = .deleted ∨ change.changeType = .renamed ∧ change.oldPath = some path
def Listed (path : String) (changes : List ChangedFile) : Prop :=
  ∃ change ∈ changes, Presents change path
def Gone (path : String) (changes : List ChangedFile) : Prop :=
  ∃ change ∈ changes, Retracts change path

section
variable {Content : Type} {origin tree tree' : FileTree Content}

/-- Applied to the first tree, the changes reach all that the second one differs in. -/
structure CoversDifference (origin tree : FileTree Content)
    (changes : List ChangedFile) : Prop where
  changed : ∀ path, tree path ≠ none → tree path ≠ origin path → Listed path changes
  missing : ∀ path, origin path ≠ none → tree path = none → Gone path changes
  notDeleted : ∀ change ∈ changes, change.changeType = .deleted → tree change.path = none
  notOnlyOld : ∀ change ∈ changes, ∀ path, change.oldPath = some path → tree path ≠ none → Listed path changes

def WatchEvent.paths : WatchEvent → List String
  | .created path | .modified path | .deleted path => [path]
  | .renamed old new => [old, new]

def WatchEvent.change : WatchEvent → ChangedFile
  | .created path | .modified path => { path, changeType := .modified, oldPath := none }
  | .deleted path => { path, changeType := .deleted, oldPath := none }
  | .renamed old new => { path := new, changeType := .renamed, oldPath := some old }

theorem mem_apply {changes : ChangeMap} {event : WatchEvent} {change : ChangedFile} :
    change ∈ ChangeMap.apply changes event ↔
      change ∈ changes ∧ change.path ∉ event.paths ∨ change = event.change := by
  cases event with
  | created path | modified path | deleted path => simp [ChangeMap.apply, WatchEvent.paths, WatchEvent.change]
  | renamed old new => simp [ChangeMap.apply, WatchEvent.paths, WatchEvent.change, and_assoc]

theorem Listed.apply {path : String} {changes : ChangeMap} (listed : Listed path changes)
    {event : WatchEvent} (elsewhere : path ∉ event.paths) :
    Listed path (ChangeMap.apply changes event) := by
  obtain ⟨change, mem, lists⟩ := listed
  rw [← lists.1] at elsewhere
  exact ⟨change, mem_apply.mpr (.inl ⟨mem, elsewhere⟩), lists⟩

/-- The tree, the locals of `normalize`, and what the part before it reported. -/
structure Watched (Content : Type) where
  tree : FileTree Content
  normal : Normalizer
  earlier : List WatchEvent

def Watched.changes (watched : Watched Content) : List ChangedFile :=
  eventsToChanges (watched.earlier ++ watched.normal.out)

structure Records (origin tree : FileTree Content)
    (watched : Watched Content) (event : WatchEvent) : Prop where
  fresh : event.key ∉ watched.normal.seen
  keeps : ∀ path, origin path ≠ none →
    tree path = none → Gone path watched.changes → Gone path (ChangeMap.apply watched.changes event)

def creationEvent (pendingRemove : Option String) (path : String) : WatchEvent :=
  match pendingRemove with
  | some old => .renamed old path
  | none => .created path

/-- The condition on a step that leads to `tree`. A repeated modification may well be
taken for a duplicate. -/
def Watched.Faithful (watcher : FileWatcher)
    (origin tree : FileTree Content) (watched : Watched Content) : PathStep Content → Prop
  | .flush => ∀ old, watched.normal.pendingRemove = some old →
      Records origin tree watched (.deleted old)
  | .create file _ =>
    watcher.isDir file.absolute = false ∧ Records origin tree watched (creationEvent watched.normal.pendingRemove file.relative)
  | .modify file _ =>
    watcher.isDir file.absolute = false ∧ ((WatchEvent.modified file.relative).key ∉
      watched.normal.seen → Records origin tree watched (.modified file.relative))
  | .remove _ => ∀ old, watched.normal.pendingRemove = some old →
      origin old = none ∨ Gone old watched.changes
  | .rename old new => Records origin tree watched (.renamed old.relative new.relative)

def Watched.FaithfulThroughout (watcher : FileWatcher) (origin : FileTree Content) :
    Watched Content → List (PathStep Content) → Prop
  | _, [] => True
  | watched, step :: rest =>
    ∀ tree, step.apply watched.tree = some tree → watched.Faithful watcher origin tree step ∧ FaithfulThroughout watcher origin
          { watched with tree, normal := watcher.step watched.normal step } rest

/-! ## The invariant -/

/-- The changes watched so far cover the difference from the origin. -/
structure Tracks (origin : FileTree Content) (watched : Watched Content) : Prop where
  changed : ∀ path, watched.tree path ≠ none → watched.tree path ≠ origin path → Listed path watched.changes
  missing : ∀ path, origin path ≠ none →
    watched.tree path = none → watched.normal.pendingRemove ≠ some path → Gone path watched.changes
  notDeleted : ∀ change ∈ watched.changes, change.changeType = .deleted → watched.tree change.path = none
  notOnlyOld : ∀ change ∈ watched.changes, ∀ path, change.oldPath = some path →
    watched.tree path ≠ none → Listed path watched.changes
  pending : ∀ old, watched.normal.pendingRemove = some old → watched.tree old = none
  /-- A file once reported as modified keeps an entry while it is there. -/
  reported : ∀ path, (WatchEvent.modified path).key ∈ watched.normal.seen → watched.tree path ≠ none → Listed path watched.changes

variable {watched : Watched Content} {event : WatchEvent}

def Watched.record (watched : Watched Content) (tree : FileTree Content)
    (pendingRemove : Option String) (event : WatchEvent) : Watched Content :=
  { watched with
    tree
    normal :=
      { out := watched.normal.out ++ [event]
        seen := event.key :: watched.normal.seen
        pendingRemove } }

@[simp] theorem Watched.record_changes (watched : Watched Content)
    (tree : FileTree Content) (pendingRemove : Option String) (event : WatchEvent) :
    (watched.record tree pendingRemove event).changes = ChangeMap.apply watched.changes event := by
  unfold Watched.changes Watched.record
  rw [← append_assoc, eventsToChanges_append]

theorem Tracks.record (tracks : Tracks origin watched) (records : Records origin tree watched event)
    (agrees : ∀ path, path ∉ event.paths → tree path = watched.tree path)
    (tells : ∀ path ∈ event.paths, tree path ≠ none ∧ Presents event.change path ∨ tree path = none ∧ Retracts event.change path)
    {pendingRemove : Option String}
    (pending : ∀ old, pendingRemove = some old → tree old = none)
    (settles : ∀ old, watched.normal.pendingRemove = some old → pendingRemove = some old ∨ old ∈ event.paths) :
    Tracks origin (watched.record tree pendingRemove event) := by
  have added : event.change ∈ ChangeMap.apply watched.changes event := mem_apply.mpr (.inr rfl)
  have listed : ∀ path ∈ event.paths, tree path ≠ none → Listed path (ChangeMap.apply watched.changes event) := by
    intro path touched present
    rcases tells path touched with ⟨-, lists⟩ | ⟨absent, -⟩
    · exact ⟨_, added, lists⟩
    · exact absurd absent present
  constructor
  case changed =>
    intro path present differs
    rw [Watched.record_changes]
    by_cases touched : path ∈ event.paths
    · exact listed path touched present
    · change tree path ≠ none at present
      change tree path ≠ origin path at differs
      rw [agrees path touched] at present differs
      exact (tracks.changed path present differs).apply touched
  case missing =>
    intro path known absent notPending
    rw [Watched.record_changes]
    by_cases touched : path ∈ event.paths
    · rcases tells path touched with ⟨present, -⟩ | ⟨-, drops⟩
      · exact absurd absent present
      · exact ⟨_, added, drops⟩
    · have before : watched.tree path = none := by
        rw [← agrees path touched]
        exact absent
      have waited : watched.normal.pendingRemove ≠ some path := by
        intro waiting
        rcases settles path waiting with still | inside
        · exact notPending still
        · exact touched inside
      exact records.keeps path known absent (tracks.missing path known before waited)
  case notDeleted =>
    intro change mem deleted
    rw [Watched.record_changes] at mem
    rcases mem_apply.mp mem with ⟨old, elsewhere⟩ | rfl
    · rw [show (watched.record tree pendingRemove event).tree = tree from rfl, agrees _ elsewhere]
      exact tracks.notDeleted change old deleted
    · have touched : event.change.path ∈ event.paths := by
        cases event <;> simp [WatchEvent.change, WatchEvent.paths]
      rcases tells _ touched with ⟨-, -, wrong | wrong⟩ | ⟨absent, -⟩
      · rw [deleted] at wrong
        cases wrong
      · rw [deleted] at wrong
        cases wrong
      · exact absent
  case notOnlyOld =>
    intro change mem path old present
    rw [Watched.record_changes] at mem ⊢
    by_cases touched : path ∈ event.paths
    · exact listed path touched present
    · rcases mem_apply.mp mem with ⟨kept, -⟩ | rfl
      · have before : watched.tree path ≠ none := by
          rw [← agrees path touched]
          exact present
        exact (tracks.notOnlyOld change kept path old before).apply touched
      · cases event with
        | created other | modified other | deleted other => cases old
        | renamed other new =>
          cases old
          exact absurd (.head _) touched
  case pending => exact pending
  case reported =>
    intro path seen present
    rw [Watched.record_changes]
    by_cases touched : path ∈ event.paths
    · exact listed path touched present
    · rcases mem_cons.mp seen with same | earlier
      · rw [WatchEvent.key_eq_modified same.symm] at touched
        exact absurd (.head _) touched
      · have before : watched.tree path ≠ none := by
          rw [← agrees path touched]
          exact present
        exact (tracks.reported path earlier before).apply touched

structure FileWatcher.Sees (watcher : FileWatcher) (file : ReportedFile) : Prop where
  repoRel : watcher.repoRel file.absolute = some file.relative
  notIgnored : watcher.isIgnored file.relative = false

variable {watcher : FileWatcher}

section
variable (tracks : Tracks origin watched)
include tracks

theorem Tracks.flush (faithful : watched.Faithful watcher origin watched.tree .flush) :
    Tracks origin { watched with normal := watched.normal.flush } ∧
      watched.normal.flush.pendingRemove = none := by
  cases pending : watched.normal.pendingRemove with
  | none =>
    have same : watched.normal.flush = watched.normal := by simp [Normalizer.flush, pending]
    rw [same]
    exact ⟨tracks, pending⟩
  | some old =>
    have records := faithful old pending
    have absent := tracks.pending old pending
    have flushed : watched.normal.flush = (watched.record watched.tree none (.deleted old)).normal := by
      unfold Normalizer.flush
      rw [pending]
      exact Normalizer.emit_fresh records.fresh
    rw [flushed]
    refine ⟨?_, rfl⟩
    apply tracks.record records
    · intro path _
      rfl
    · intro path touched
      rw [mem_singleton.mp touched]
      exact .inr ⟨absent, .inl ⟨rfl, rfl⟩⟩
    · intro other none
      cases none
    · intro other waiting
      rw [pending] at waiting
      cases waiting
      exact .inr mem_cons_self

theorem Tracks.create {file : ReportedFile} {content : Content} (sees : watcher.Sees file)
    (faithful : watched.Faithful watcher origin (update watched.tree file.relative (some content)) (.create file content)) :
    Tracks origin { watched with
      tree := update watched.tree file.relative (some content)
      normal := watcher.createPath watched.normal file.absolute } := by
  obtain ⟨notDir, records⟩ := faithful
  have created : watcher.createPath watched.normal file.absolute =
    (watched.record (update watched.tree file.relative (some content)) none
        (creationEvent watched.normal.pendingRemove file.relative)).normal := by
    have fresh := records.fresh
    unfold FileWatcher.createPath
    rw [sees.repoRel]
    simp only [sees.notIgnored, notDir, Bool.or_self, Bool.false_eq_true, if_false]
    cases pending : watched.normal.pendingRemove with
    | none =>
      rw [pending] at fresh
      have kept : watched.normal = { watched.normal with pendingRemove := none } := by rw [← pending]
      exact (Normalizer.emit_fresh fresh).trans (by rw [kept]; rfl)
    | some old =>
      rw [pending] at fresh
      exact Normalizer.emit_fresh fresh
  rw [created]
  cases pending : watched.normal.pendingRemove with
  | none =>
    rw [pending] at records
    apply tracks.record records
    · intro path elsewhere
      exact update_of_ne (by simpa [WatchEvent.paths, creationEvent] using elsewhere) ..
    · intro path touched
      rw [show path = file.relative from mem_singleton.mp touched, update_self]
      exact .inl ⟨some_ne_none content, rfl, .inl rfl⟩
    · intro other none
      cases none
    · intro other waiting
      rw [pending] at waiting
      cases waiting
  | some old =>
    rw [pending] at records
    have absent := tracks.pending old pending
    apply tracks.record records
    · intro path elsewhere
      have apart : path ≠ file.relative := by
        rintro rfl
        exact elsewhere (.tail _ (.head _))
      exact update_of_ne apart ..
    · intro path touched
      by_cases same : path = file.relative
      · rw [same, update_self]
        exact .inl ⟨some_ne_none content, rfl, .inr rfl⟩
      · have isOld : path = old := by
          rcases mem_cons.mp touched with isOld | isNew
          · exact isOld
          · exact absurd (mem_singleton.mp isNew) same
        rw [update_of_ne same, isOld]
        exact .inr ⟨absent, .inr ⟨rfl, rfl⟩⟩
    · intro other none
      cases none
    · intro other waiting
      rw [pending] at waiting
      cases waiting
      exact .inr mem_cons_self

theorem Tracks.modify {file : ReportedFile}
    {content : Content} (sees : watcher.Sees file) (present : watched.tree file.relative ≠ none)
    (faithful : watched.Faithful watcher origin (update watched.tree file.relative (some content)) (.modify file content)) :
    Tracks origin { watched with
      tree := update watched.tree file.relative (some content)
      normal := watcher.modifyPath watched.normal file.absolute } := by
  obtain ⟨notDir, records⟩ := faithful
  have modified : watcher.modifyPath watched.normal file.absolute = watched.normal.emit (.modified file.relative) := by
    unfold FileWatcher.modifyPath
    rw [sees.repoRel]
    simp only [sees.notIgnored, notDir, Bool.or_self, Bool.false_eq_true, if_false]
  have notPending : ∀ old, watched.normal.pendingRemove = some old → old ≠ file.relative := by
    rintro old waiting rfl
    exact present (tracks.pending _ waiting)
  rw [modified]
  by_cases seen : (WatchEvent.modified file.relative).key ∈ watched.normal.seen
  · -- Suppressed: the entry that the first report made is still there.
    rw [show watched.normal.emit (.modified file.relative) = watched.normal from if_pos seen]
    have listed := tracks.reported file.relative seen present
    have before : ∀ path, path ≠ file.relative → update watched.tree file.relative (some content)
      path = watched.tree path := fun path apart => update_of_ne apart ..
    have presentBefore : ∀ path, update watched.tree file.relative (some content) path ≠ none → watched.tree path ≠ none := by
      intro path there
      by_cases same : path = file.relative
      · rw [same]
        exact present
      · rw [before path same] at there
        exact there
    constructor
    case changed =>
      intro path there differs
      by_cases same : path = file.relative
      · rw [same]
        exact listed
      · change update watched.tree file.relative (some content) path ≠ none at there
        change update watched.tree file.relative (some content) path ≠ origin path
          at differs
        rw [before path same] at there differs
        exact tracks.changed path there differs
    case missing =>
      intro path known absent waits
      by_cases same : path = file.relative
      · change update watched.tree file.relative (some content) path = none at absent
        rw [same, update_self] at absent
        cases absent
      · change update watched.tree file.relative (some content) path = none at absent
        rw [before path same] at absent
        exact tracks.missing path known absent waits
    case notDeleted =>
      intro change mem deleted
      have absent := tracks.notDeleted change mem deleted
      have apart : change.path ≠ file.relative := by
        intro same
        rw [same] at absent
        exact present absent
      exact (before _ apart).trans absent
    case notOnlyOld =>
      intro change mem path old there
      exact tracks.notOnlyOld change mem path old (presentBefore path there)
    case pending =>
      intro old waiting
      exact (before old (notPending old waiting)).trans (tracks.pending old waiting)
    case reported =>
      intro path reported there
      exact tracks.reported path reported (presentBefore path there)
  · have recorded : watched.normal.emit (.modified file.relative) =
      (watched.record (update watched.tree file.relative (some content))
          watched.normal.pendingRemove (.modified file.relative)).normal :=
      Normalizer.emit_fresh seen
    rw [recorded]
    apply tracks.record (records seen)
    · intro path elsewhere
      exact update_of_ne (by simpa [WatchEvent.paths] using elsewhere) ..
    · intro path touched
      rw [show path = file.relative from mem_singleton.mp touched, update_self]
      exact .inl ⟨some_ne_none content, rfl, .inl rfl⟩
    · intro old waiting
      rw [update_of_ne (notPending old waiting)]
      exact tracks.pending old waiting
    · intro old waiting
      exact .inl waiting

theorem Tracks.remove {file : ReportedFile} (sees : watcher.Sees file) (faithful :
    watched.Faithful watcher origin (update watched.tree file.relative none) (.remove file)) :
    Tracks origin { watched with
      tree := update watched.tree file.relative none
      normal := watcher.removePath watched.normal file.absolute } := by
  have removed : watcher.removePath watched.normal file.absolute =
      { watched.normal with pendingRemove := some file.relative } := by
    unfold FileWatcher.removePath
    rw [sees.repoRel]
    simp only [sees.notIgnored, Bool.false_eq_true, if_false]
  rw [removed]
  have still : ∀ path, update watched.tree file.relative none path ≠ none →
    path ≠ file.relative ∧ update watched.tree file.relative none path = watched.tree path := by
    intro path there
    have apart : path ≠ file.relative := by
      rintro rfl
      rw [update_self] at there
      exact there rfl
    exact ⟨apart, update_of_ne apart ..⟩
  constructor
  case changed =>
    intro path there differs
    obtain ⟨-, same⟩ := still path there
    change update watched.tree file.relative none path ≠ origin path at differs
    rw [same] at differs
    exact tracks.changed path (same ▸ there) differs
  case missing =>
    intro path known absent waits
    have apart : path ≠ file.relative := by
      rintro rfl
      exact waits rfl
    change update watched.tree file.relative none path = none at absent
    rw [update_of_ne apart] at absent
    by_cases overtaken : watched.normal.pendingRemove = some path
    · rcases faithful path overtaken with unknown | gone
      · exact absurd unknown known
      · exact gone
    · exact tracks.missing path known absent overtaken
  case notDeleted =>
    intro change mem deleted
    by_cases same : change.path = file.relative
    · change update watched.tree file.relative none change.path = none
      rw [same, update_self]
    · change update watched.tree file.relative none change.path = none
      rw [update_of_ne same]
      exact tracks.notDeleted change mem deleted
  case notOnlyOld =>
    intro change mem path old there
    obtain ⟨-, same⟩ := still path there
    exact tracks.notOnlyOld change mem path old (same ▸ there)
  case pending =>
    intro old waiting
    cases waiting
    exact update_self ..
  case reported =>
    intro path reported there
    obtain ⟨-, same⟩ := still path there
    exact tracks.reported path reported (same ▸ there)

theorem Tracks.rename {old new : ReportedFile}
    {content : Content} (seesOld : watcher.Sees old) (seesNew : watcher.Sees new)
    (apart : old.relative ≠ new.relative) (settled : watched.normal.pendingRemove = none)
    (faithful : watched.Faithful watcher origin (update (update watched.tree old.relative none)
      new.relative (some content)) (.rename old new)) :
    Tracks origin { watched with
      tree := update (update watched.tree old.relative none) new.relative
        (some content)
      normal := watcher.renamePaths watched.normal [old.absolute, new.absolute] } := by
  have renamed : watcher.renamePaths watched.normal [old.absolute, new.absolute] =
    (watched.record (update (update watched.tree old.relative none)
        new.relative (some content)) watched.normal.pendingRemove (.renamed old.relative new.relative)).normal := by
    unfold FileWatcher.renamePaths
    dsimp only
    rw [seesOld.repoRel, seesNew.repoRel]
    simp only [seesNew.notIgnored, Bool.false_eq_true, if_false]
    exact Normalizer.emit_fresh faithful.fresh
  rw [renamed]
  apply tracks.record faithful
  · intro path elsewhere
    simp only [WatchEvent.paths, mem_cons, not_mem_nil, or_false, not_or] at elsewhere
    rw [update_of_ne elsewhere.2, update_of_ne elsewhere.1]
  · intro path touched
    rcases mem_cons.mp touched with rfl | isNew
    · rw [update_of_ne apart, update_self]
      exact .inr ⟨rfl, .inr ⟨rfl, rfl⟩⟩
    · rw [mem_singleton.mp isNew, update_self]
      exact .inl ⟨some_ne_none content, rfl, .inr rfl⟩
  all_goals
    intro other waiting
    rw [settled] at waiting
    cases waiting

theorem Tracks.step {step : PathStep Content} (sees : ∀ file ∈ step.files, watcher.Sees file)
    (settled : ∀ old new, step = .rename old new → watched.normal.pendingRemove = none)
    (applied : step.apply watched.tree = some tree)
    (faithful : watched.Faithful watcher origin tree step) :
    Tracks origin { watched with tree, normal := watcher.step watched.normal step } := by
  cases step with
  | flush =>
    cases applied
    exact (tracks.flush faithful).1
  | create file content =>
    obtain ⟨-, reached⟩ := Option.ite_none_right_eq_some.mp applied
    cases reached
    exact tracks.create (sees file (.head _)) faithful
  | modify file content =>
    obtain ⟨present, reached⟩ := Option.ite_none_right_eq_some.mp applied
    cases reached
    exact tracks.modify (sees file (.head _)) (Option.isSome_iff_ne_none.mp present) faithful
  | remove file =>
    obtain ⟨-, reached⟩ := Option.ite_none_right_eq_some.mp applied
    cases reached
    exact tracks.remove (sees file (.head _)) faithful
  | rename old new =>
    obtain ⟨apart, moved⟩ := Option.ite_none_left_eq_some.mp applied
    obtain ⟨content, -, rfl⟩ := Option.map_eq_some_iff.mp moved
    exact tracks.rename (sees old (.head _)) (sees new (.tail _ (.head _))) apart (settled old new rfl) faithful

end

theorem FileTree.run_cons {step : PathStep Content} {steps : List (PathStep Content)} :
    FileTree.run tree (step :: steps) = some tree' ↔
      ∃ between, step.apply tree = some between ∧ FileTree.run between steps = some tree' := by
  unfold FileTree.run
  rw [foldlM_cons]
  exact bind_eq_some_iff

theorem FileTree.run_append {steps steps' : List (PathStep Content)} :
    FileTree.run tree (steps ++ steps') = some tree' ↔
      ∃ between, FileTree.run tree steps = some between ∧ FileTree.run between steps' = some tree' := by
  unfold FileTree.run
  rw [foldlM_append]
  exact bind_eq_some_iff

def Watched.follow (watcher : FileWatcher) (watched : Watched Content)
    (steps : List (PathStep Content)) (tree : FileTree Content) : Watched Content :=
  { watched with tree, normal := steps.foldl watcher.step watched.normal }

theorem Watched.FaithfulThroughout.append {steps steps' : List (PathStep Content)}
    (faithful : watched.FaithfulThroughout watcher origin (steps ++ steps')) :
    watched.FaithfulThroughout watcher origin steps ∧
      ∀ between, FileTree.run watched.tree steps = some between →
      (watched.follow watcher steps between).FaithfulThroughout watcher origin steps' := by
  induction steps generalizing watched with
  | nil =>
    refine ⟨trivial, ?_⟩
    intro between ran
    cases ran
    exact faithful
  | cons step rest ih =>
    constructor
    · intro tree applied
      obtain ⟨now, later⟩ := faithful tree applied
      exact ⟨now, (ih later).1⟩
    · intro between ran
      obtain ⟨tree, applied, rest⟩ := FileTree.run_cons.mp ran
      exact (ih (faithful tree applied).2).2 between rest

theorem Tracks.steps (tracks : Tracks origin watched) {steps : List (PathStep Content)}
    (sees : ∀ step ∈ steps, ∀ file ∈ step.files, watcher.Sees file)
    (plain : ∀ step ∈ steps, ∀ old new, step ≠ .rename old new)
    (ran : FileTree.run watched.tree steps = some tree)
    (faithful : watched.FaithfulThroughout watcher origin steps) :
    Tracks origin (watched.follow watcher steps tree) := by
  induction steps generalizing watched with
  | nil =>
    cases ran
    exact tracks
  | cons step rest ih =>
    obtain ⟨between, applied, later⟩ := FileTree.run_cons.mp ran
    obtain ⟨now, throughout⟩ := faithful between applied
    have next := tracks.step (sees step (.head _)) (fun old new isRename =>
      absurd isRename (plain step (.head _) old new)) applied now
    exact ih next (fun other mem => sees other (.tail _ mem)) (fun other mem => plain other (.tail _ mem)) later throughout

theorem Tracks.change (tracks : Tracks origin watched) {change : FileChange Content}
    (sees : ∀ step ∈ change.steps, ∀ file ∈ step.files, watcher.Sees file)
    (ran : FileTree.run watched.tree change.steps = some tree)
    (faithful : watched.FaithfulThroughout watcher origin change.steps) :
    Tracks origin (watched.follow watcher change.steps tree) := by
  cases change with
  | create files =>
    apply tracks.steps sees _ ran faithful
    rintro step mem old new rfl
    obtain ⟨file, -, wrong⟩ := mem_map.mp mem
    cases wrong
  | modify files | remove files =>
    apply tracks.steps sees _ ran faithful
    rintro step mem old new rfl
    rcases mem_cons.mp mem with wrong | inside
    · cases wrong
    · obtain ⟨file, -, wrong⟩ := mem_map.mp inside
      cases wrong
  | rename old new =>
    -- The flush before it leaves no removal pending.
    obtain ⟨same, flushed, later⟩ := FileTree.run_cons.mp ran
    cases flushed
    obtain ⟨moved, applied, done⟩ := FileTree.run_cons.mp later
    cases done
    obtain ⟨now, throughout⟩ := faithful _ rfl
    obtain ⟨tracksFlushed, settled⟩ := tracks.flush now
    exact tracksFlushed.step (sees _ (.tail _ (.head _))) (fun _ _ _ => settled) applied (throughout _ applied).1

theorem Tracks.changes (tracks : Tracks origin watched) {changes : List (FileChange Content)}
    (sees : ∀ step ∈ changes.flatMap FileChange.steps, ∀ file ∈ step.files, watcher.Sees file)
    (ran : FileTree.after watched.tree changes = some tree)
    (faithful : watched.FaithfulThroughout watcher origin (changes.flatMap FileChange.steps)) :
    Tracks origin (watched.follow watcher (changes.flatMap FileChange.steps) tree) := by
  induction changes generalizing watched with
  | nil =>
    cases ran
    exact tracks
  | cons change rest ih =>
    unfold FileTree.after at ran
    rw [flatMap_cons] at ran sees faithful ⊢
    obtain ⟨between, first, second⟩ := FileTree.run_append.mp ran
    obtain ⟨now, later⟩ := faithful.append
    have next := tracks.change (fun step mem => sees step (mem_append_left _ mem)) first now
    have done := ih next (fun step mem => sees step (mem_append_right _ mem)) second (later between first)
    unfold Watched.follow at done ⊢
    rw [foldl_append]
    exact done

theorem CoversDifference.part {earlier : List WatchEvent} {changes : List (FileChange Content)}
    (covers : CoversDifference origin tree (eventsToChanges earlier))
    (sees : ∀ step ∈ changes.flatMap FileChange.steps, ∀ file ∈ step.files, watcher.Sees file)
    (ran : FileTree.after tree changes = some tree')
    (faithful : Watched.FaithfulThroughout watcher origin ⟨tree, {}, earlier⟩ (partSteps changes)) :
    CoversDifference origin tree' (eventsToChanges (earlier ++ watcher.normalize (changes.map FileChange.event))) := by
  have tracks : Tracks origin ⟨tree, {}, earlier⟩ := by
    have same : Watched.changes ⟨tree, {}, earlier⟩ = eventsToChanges earlier := by simp [Watched.changes]
    constructor
    case changed =>
      rw [same]
      exact covers.changed
    case missing =>
      rw [same]
      exact fun path known absent _ => covers.missing path known absent
    case notDeleted =>
      rw [same]
      exact covers.notDeleted
    case notOnlyOld =>
      rw [same]
      exact covers.notOnlyOld
    case pending =>
      intro old waiting
      cases waiting
    case reported =>
      intro path seen
      cases seen
  obtain ⟨throughout, last⟩ := faithful.append
  have reached := tracks.changes sees ran throughout
  obtain ⟨flushed, settled⟩ := reached.flush ((last tree' ran) _ rfl).1
  rw [watcher.normalize_events, partSteps, foldl_append]
  exact
    { changed := flushed.changed
      missing := fun path known absent => flushed.missing path known absent
        (fun waiting => by rw [settled] at waiting; cases waiting)
      notDeleted := flushed.notDeleted
      notOnlyOld := flushed.notOnlyOld }

/-- In every run of file changes that is reported faithfully, wherever it is cut, the
change list of the batch covers the difference of the trees. -/
theorem batchChanges_covers {watcher later : FileWatcher} {middle : FileTree Content}
    {drained buffered : List (FileChange Content)}
    (sees : ∀ step ∈ drained.flatMap FileChange.steps, ∀ file ∈ step.files, watcher.Sees file)
    (seesLater : ∀ step ∈ buffered.flatMap FileChange.steps, ∀ file ∈ step.files, later.Sees file)
    (first : FileTree.after origin drained = some middle)
    (second : FileTree.after middle buffered = some tree)
    (faithful : Watched.FaithfulThroughout watcher origin ⟨origin, {}, []⟩ (partSteps drained))
    (faithfulLater : Watched.FaithfulThroughout later origin ⟨middle, {},
      watcher.normalize (drained.map FileChange.event)⟩ (partSteps buffered)) :
    CoversDifference origin tree (batchChanges watcher later (drained.map FileChange.event) (buffered.map FileChange.event)) := by
  have start : CoversDifference origin origin (eventsToChanges []) := by
    constructor
    case changed =>
      intro path _ differs
      exact absurd rfl differs
    case missing =>
      intro path known absent
      exact absurd absent known
    case notDeleted =>
      intro change mem
      cases mem
    case notOnlyOld =>
      intro change mem
      cases mem
  have half := start.part sees first faithful
  rw [nil_append] at half
  exact half.part seesLater second faithfulLater

end

def sampleWatcher : FileWatcher where
  repoRel path :=
    if "/repo/".toList.isPrefixOf path.toList then some (String.ofList (path.toList.drop 6))
    else none
  ignorePrefixes := [".git/", ".atlas/", ".git", ".atlas"]
  isDir _ := false

def sampleOld : ReportedFile := ⟨"/repo/old.rs", "old.rs"⟩
def sampleLib : ReportedFile := ⟨"/repo/lib.rs", "lib.rs"⟩

def sampleTree : FileTree Nat := fun path =>
  if path = "old.rs" ∨ path = "lib.rs" then some 0 else none

theorem sampleWatcher_sees_old : sampleWatcher.Sees sampleOld := ⟨by decide, by decide⟩
theorem sampleWatcher_sees_lib : sampleWatcher.Sees sampleLib := ⟨by decide, by decide⟩

/-- A modification that is drained and a removal that arrives during the sleep. -/
theorem sampleChanges_covered :
    CoversDifference sampleTree (update (update sampleTree "lib.rs" (some 1)) "old.rs" none)
      (batchChanges sampleWatcher sampleWatcher [⟨.modify, ["/repo/lib.rs"]⟩] [⟨.remove, ["/repo/old.rs"]⟩]) := by
  apply @batchChanges_covers Nat sampleTree (update (update sampleTree "lib.rs" (some 1)) "old.rs"
    none) sampleWatcher sampleWatcher (update sampleTree "lib.rs" (some 1))
    [.modify [(sampleLib, 1)]] [.remove [sampleOld]]
  case sees =>
    intro step mem file inside
    have isLib : file = sampleLib := by
      simp only [FileChange.steps, flatMap_cons, flatMap_nil, map_cons, map_nil, append_nil,
        mem_cons, not_mem_nil, or_false] at mem
      rcases mem with rfl | rfl
      · cases inside
      · exact mem_singleton.mp inside
    rw [isLib]
    exact sampleWatcher_sees_lib
  case seesLater =>
    intro step mem file inside
    have isOld : file = sampleOld := by
      simp only [FileChange.steps, flatMap_cons, flatMap_nil, map_cons, map_nil, append_nil,
        mem_cons, not_mem_nil, or_false] at mem
      rcases mem with rfl | rfl
      · cases inside
      · exact mem_singleton.mp inside
    rw [isOld]
    exact sampleWatcher_sees_old
  case first => rfl
  case second => rfl
  case faithful =>
    rintro tree ⟨⟩
    refine ⟨(fun old waiting => nomatch waiting), ?_⟩
    rintro tree ⟨⟩
    refine ⟨⟨rfl, fun fresh => ⟨fresh, ?_⟩⟩, ?_⟩
    · rintro path - - ⟨change, mem, -⟩
      cases mem
    · rintro tree ⟨⟩
      exact ⟨(fun old waiting => nomatch waiting), trivial⟩
  case faithfulLater =>
    rintro tree ⟨⟩
    refine ⟨(fun old waiting => nomatch waiting), ?_⟩
    rintro tree ⟨⟩
    refine ⟨(fun old waiting => nomatch waiting), ?_⟩
    rintro tree ⟨⟩
    refine ⟨?_, trivial⟩
    intro old waiting
    refine ⟨?_, ?_⟩
    · intro seen
      cases seen
    · rintro path - - ⟨change, mem, drops⟩
      have isLib : change = { path := "lib.rs", changeType := .modified, oldPath := none } := mem_singleton.mp mem
      rw [isLib] at drops
      rcases drops with ⟨-, wrong⟩ | ⟨wrong, -⟩ <;> cases wrong

/-- Of two files removed in one event, only the last one is reported. -/
theorem sampleRemoval_uncovered : sampleWatcher.Sees sampleOld ∧ sampleWatcher.Sees sampleLib ∧
      FileTree.after sampleTree [.remove [sampleOld, sampleLib]] = some (update (update sampleTree "old.rs" none) "lib.rs" none) ∧
      ¬ CoversDifference sampleTree (update (update sampleTree "old.rs" none) "lib.rs" none)
        (batchChanges sampleWatcher sampleWatcher [⟨.remove, ["/repo/old.rs", "/repo/lib.rs"]⟩] []) := by
  refine ⟨sampleWatcher_sees_old, sampleWatcher_sees_lib, rfl, ?_⟩
  intro covers
  obtain ⟨change, mem, drops⟩ := covers.missing "old.rs" (by decide) (by decide)
  have isLib : change = { path := "lib.rs", changeType := .deleted, oldPath := none } := mem_singleton.mp mem
  rw [isLib] at drops
  rcases drops with ⟨wrong, -⟩ | ⟨wrong, -⟩
  · exact absurd wrong (by decide)
  · cases wrong

end Atlas.Engine
