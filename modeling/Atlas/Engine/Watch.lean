import Atlas.Core.Graph
import Atlas.Repo.Ignore

/-! The path from raw notify events to the change list of one batch. The canonical
repo-relative form of a path and the directory test are questions to the file system,
and are parameters of the watcher. -/
namespace Atlas.Engine
open List Core

inductive EventKind where
  | create
  | modify
  /-- `Modify(Name(Both))`, with the old and the new path. -/
  | renameBoth
  | remove
  /-- Access and all other kinds. -/
  | other

structure Event where
  kind : EventKind
  paths : List String

inductive WatchEvent where
  | created (path : String)
  | modified (path : String)
  | deleted (path : String)
  | renamed (old new : String)

def WatchEvent.key : WatchEvent → String
  | .created path => "C:" ++ path
  | .modified path => "M:" ++ path
  | .deleted path => "D:" ++ path
  | .renamed old new => "R:" ++ old ++ ":" ++ new

structure FileWatcher where
  repoRel : String → Option String
  ignorePrefixes : List String
  isDir : String → Bool

def trimEndSlashes (text : String) : String :=
  String.ofList (text.toList.reverse.dropWhile (· == '/')).reverse

variable (watcher : FileWatcher) (normal : Normalizer)

def FileWatcher.isIgnored (rel : String) : Bool := watcher.ignorePrefixes.any fun ignored =>
    ignored.toList.isPrefixOf rel.toList || rel == trimEndSlashes ignored

structure Normalizer where
  out : List WatchEvent := []
  seen : List String := []
  pendingRemove : Option String := none

def Normalizer.emit (event : WatchEvent) : Normalizer :=
  if event.key ∈ normal.seen then normal
  else { normal with out := normal.out ++ [event], seen := event.key :: normal.seen }

/-- A removal that was not paired with a creation is reported as it is. -/
def Normalizer.flush : Normalizer :=
  match normal.pendingRemove with
  | none => normal
  | some old => { normal with pendingRemove := none }.emit (.deleted old)

def FileWatcher.createPath (path : String) : Normalizer :=
  match watcher.repoRel path with
  | none => normal
  | some rel =>
    if watcher.isIgnored rel || watcher.isDir path then normal
    else
      match normal.pendingRemove with
      | some old => { normal with pendingRemove := none }.emit (.renamed old rel)
      | none => normal.emit (.created rel)

def FileWatcher.modifyPath (path : String) : Normalizer :=
  match watcher.repoRel path with
  | none => normal
  | some rel =>
    if watcher.isIgnored rel || watcher.isDir path then normal
    else normal.emit (.modified rel)

def FileWatcher.removePath (path : String) : Normalizer :=
  match watcher.repoRel path with
  | none => normal
  | some rel =>
    if watcher.isIgnored rel then normal
    else { normal with pendingRemove := some rel }

def FileWatcher.renamePaths : List String → Normalizer
  | oldPath :: newPath :: _ =>
    match watcher.repoRel oldPath, watcher.repoRel newPath with
    | some old, some new => if watcher.isIgnored new then normal else normal.emit (.renamed old new)
    | _, _ => normal
  | _ => normal

def FileWatcher.handle (event : Event) : Normalizer :=
  match event.kind with
  | .create => event.paths.foldl watcher.createPath normal
  | .renameBoth => watcher.renamePaths normal.flush event.paths
  | .modify => event.paths.foldl watcher.modifyPath normal.flush
  | .remove => event.paths.foldl watcher.removePath normal.flush
  | .other => normal

def FileWatcher.normalize (events : List Event) : List WatchEvent :=
  (events.foldl watcher.handle {}).flush.out

abbrev ChangeMap := List ChangedFile

def ChangeMap.remove (changes : ChangeMap) (path : String) : ChangeMap :=
  changes.filter fun change => decide (change.path ≠ path)
def ChangeMap.insert (changes : ChangeMap) (change : ChangedFile) : ChangeMap :=
  ChangeMap.remove changes change.path ++ [change]

def ChangeMap.apply (changes : ChangeMap) : WatchEvent → ChangeMap
  | .created path | .modified path => ChangeMap.insert changes { path, changeType := .modified, oldPath := none }
  | .deleted path => ChangeMap.insert changes { path, changeType := .deleted, oldPath := none }
  | .renamed old new =>
    ChangeMap.insert (ChangeMap.remove changes old)
      { path := new, changeType := .renamed, oldPath := some old }

def eventsToChanges (events : List WatchEvent) : List ChangedFile := events.foldl ChangeMap.apply []
def batchChanges (later : FileWatcher) (drained buffered : List Event) : List ChangedFile :=
  eventsToChanges (watcher.normalize drained ++ later.normalize buffered)

variable {changes : ChangeMap} {path : String} {change : ChangedFile} {event : WatchEvent}

@[simp] theorem ChangeMap.mem_remove :
    change ∈ ChangeMap.remove changes path ↔ change ∈ changes ∧ change.path ≠ path := by
  simp [ChangeMap.remove]

@[simp] theorem ChangeMap.mem_insert {other : ChangedFile} :
    other ∈ ChangeMap.insert changes change ↔
      other ∈ changes ∧ other.path ≠ change.path ∨ other = change := by
  simp [ChangeMap.insert]

theorem eventsToChanges_append (events : List WatchEvent) (event : WatchEvent) :
    eventsToChanges (events ++ [event]) = ChangeMap.apply (eventsToChanges events) event := by
  simp [eventsToChanges]

theorem Normalizer.emit_fresh {normal : Normalizer} (fresh : event.key ∉ normal.seen) :
    normal.emit event =
      { normal with out := normal.out ++ [event], seen := event.key :: normal.seen } :=
  if_neg fresh

theorem WatchEvent.key_eq_modified (same : event.key = (WatchEvent.modified path).key) :
    event = .modified path := by
  have chars := congrArg String.toList same
  cases event with
  | created other => simp [WatchEvent.key] at chars
  | modified other =>
    simp only [WatchEvent.key, String.toList_append, append_cancel_left_eq] at chars
    rw [String.toList_injective chars]
  | deleted other | renamed old new => simp [WatchEvent.key] at chars

/-! What the watcher ignores, beside what a build leaves out. -/

open Repo

def watchExtraIgnore : List String := [".atlas"]

/-- The names with a slash, for what lies below, and the names themselves. -/
def ignorePrefixesWith (extra : List String) : List String :=
  ((defaultIgnorePatterns ++ watchExtraIgnore ++ extra).map fun name => name ++ "/") ++
    (defaultIgnorePatterns ++ watchExtraIgnore ++ extra)

section
variable (repoRel : String → Option String) (isDir : String → Bool)

def FileWatcher.withExtraIgnores (extra : List String) : FileWatcher where
  repoRel := repoRel
  ignorePrefixes := ignorePrefixesWith extra
  isDir := isDir

def FileWatcher.new : FileWatcher := .withExtraIgnores repoRel isDir []
def beginsIgnored (path : String) : Bool :=
  defaultIgnorePatterns.any fun name => name.toList.isPrefixOf path.toList

theorem ignorePrefixes_begin : ∀ ignored ∈ ignorePrefixesWith [], ∃ name ∈ defaultIgnorePatterns,
    name.toList <+: ignored.toList ∧ name.toList <+: (trimEndSlashes ignored).toList := by
  decide

theorem isIgnored_new (path : String) :
    (FileWatcher.new repoRel isDir).isIgnored path = beginsIgnored path := by
  unfold FileWatcher.isIgnored beginsIgnored
  rw [Bool.eq_iff_iff, any_eq_true, any_eq_true]
  constructor
  · rintro ⟨ignored, mem, hit⟩
    obtain ⟨name, inNames, below, whole⟩ := ignorePrefixes_begin ignored mem
    refine ⟨name, inNames, isPrefixOf_iff_prefix.mpr ?_⟩
    rcases (Bool.or_eq_true _ _).mp hit with begins | same
    · exact below.trans ( isPrefixOf_iff_prefix.mp begins)
    · rw [beq_iff_eq.mp same]
      exact whole
  · rintro ⟨name, mem, begins⟩
    refine ⟨name, ?_, (Bool.or_eq_true _ _).mpr (.inl begins)⟩
    exact mem_append_right _ (mem_append_left _ (mem_append_left _ mem))

variable (atlasignore : Option (List Char)) (path : String)

structure WatchesAsBuilt : Prop where
  addsNone : isExcluded atlasignore path = true → (FileWatcher.new repoRel isDir).isIgnored path = true
  losesNone : (FileWatcher.new repoRel isDir).isIgnored path = true → isExcluded atlasignore path = true

/-- A path that begins like an ignored name must have an ignored component or match a pattern of
`.atlasignore`, and another path must have none and match none. -/
theorem watchesAsBuilt_iff : WatchesAsBuilt repoRel isDir atlasignore path ↔
    (beginsIgnored path = true → hasIgnoredComponent path = true ∨
        shouldIgnore path.toList (loadAtlasignore atlasignore) = true) ∧
      (beginsIgnored path = false → hasIgnoredComponent path = false ∧
        shouldIgnore path.toList (loadAtlasignore atlasignore) = false) := by
  have excluded : isExcluded atlasignore path = true ↔ hasIgnoredComponent path = true ∨
    shouldIgnore path.toList (loadAtlasignore atlasignore) = true := by
    unfold isExcluded
    rw [shouldIgnore_defaultPatterns, Bool.or_eq_true]
  have kept : ¬ isExcluded atlasignore path = true ↔ hasIgnoredComponent path = false ∧
    shouldIgnore path.toList (loadAtlasignore atlasignore) = false := by
    rw [excluded, not_or, Bool.not_eq_true, Bool.not_eq_true]
  rw [← excluded, ← kept, ← isIgnored_new repoRel isDir]
  constructor
  · intro agrees
    refine ⟨agrees.losesNone, fun watched exclusion => ?_⟩
    rw [agrees.addsNone exclusion] at watched
    cases watched
  · intro ⟨loses, adds⟩
    refine ⟨fun exclusion => ?_, loses⟩
    by_contra watched
    exact adds (Bool.eq_false_iff.mpr watched) exclusion

end

/-- A source file beside the build directory, a dependency below a package and a file that
`.atlasignore` names. -/
theorem watchesAsBuilt_fails : (canonicalizeRelative id "build.rs" = .ok "build.rs" ∧
    ¬ WatchesAsBuilt some (fun _ => false) none "build.rs") ∧
    (canonicalizeRelative id "web/node_modules/left.js" = .ok "web/node_modules/left.js" ∧
      ¬ WatchesAsBuilt some (fun _ => false) none "web/node_modules/left.js") ∧
    (canonicalizeRelative id "src/api.gen.rs" = .ok "src/api.gen.rs" ∧
      ¬ WatchesAsBuilt some (fun _ => false) (some "*.gen.rs\n".toList) "src/api.gen.rs") := by
  refine ⟨⟨by decide, fun agrees => ?_⟩, ⟨by decide, fun agrees => ?_⟩, by decide, fun agrees => ?_⟩
  · have watched : isExcluded none "build.rs" = true :=
      agrees.losesNone ((isIgnored_new some (fun _ => false) _).trans (by decide))
    exact absurd watched (by decide +kernel)
  all_goals
    have watched := agrees.addsNone (by decide +kernel)
    rw [isIgnored_new] at watched
    exact absurd watched (by decide)

end Atlas.Engine
