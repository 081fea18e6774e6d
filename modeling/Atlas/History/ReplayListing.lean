import Atlas.History.GitTree
import Atlas.History.Replay

/-! The replayed file list of a commit against the full listing of its tree, from what git prints
for the commit. -/
namespace Atlas.History
open List

variable {before after : List TrackedEntry} {changes : List DiffLine} {path hash : String}

/-- The entries show a blob under this name. -/
def Lists (entries : List TreeEntry) (path hash : String) : Prop := ⟨.blob, hash, path⟩ ∈ entries

/-- The lines of a diff that is true of the two trees. -/
structure DiffReports (before after : List TrackedEntry) (changes : List DiffLine) : Prop where
  complete : ∀ entry ∈ after, entry ∉ before →
    ∃ change ∈ changes, change.status ≠ .deleted ∧ change.newPath = entry.path
  arrives : ∀ status score oldPath newPath, .two status score oldPath newPath ∈ changes →
    ∃ entry ∈ after, entry.path = newPath

/-- The paths that a commit with this diff looks up in its tree. -/
def lookedUpPaths (changes : List DiffLine) : List String :=
  changedPaths (changes.map DiffLine.read)

section
variable (accepts : List String → Bool) (selects : String → PrintedPath → Bool)

/-- What git answers for the paths that are looked up: the entries that one of them selects. -/
def answered (after : List TrackedEntry) (paths : List String) : List TrackedEntry :=
  after.filter fun entry => paths.any fun spec => selects spec entry.path

/-- Git prints the tree of the commit, the part of it that a list of pathspecs selects, if it
takes them, and the diff. -/
structure TreeCommands.Print (commands : TreeCommands) (commitSha parentSha : String)
    (after : List TrackedEntry) (changes : List DiffLine) : Prop where
  tree : commands.lsTree commitSha = .ok (printTree after)
  selected : ∀ paths, accepts paths = true →
    commands.lsTreePaths commitSha paths = .ok (printTree (answered selects after paths))
  refused : ∀ paths, accepts paths = false →
    ∃ message, commands.lsTreePaths commitSha paths = .error message
  diff : commands.diffTree commitSha parentSha = .ok (printDiff changes)

/-- The conditions under which the replayed list has what the full listing has. -/
structure ReplayComplete (supports text : String → Bool) (before after : List TrackedEntry)
    (changes : List DiffLine) : Prop where
  /-- No path consists of blanks. -/
  visible : ∀ entry ∈ after, entry.path.Visible
  /-- Git takes the paths that are looked up as pathspecs. -/
  accepted : lookedUpPaths changes ≠ [] → accepts (lookedUpPaths changes) = true
  /-- The last line about a listed path reaches it, and the lookup finds the blob. -/
  found : ∀ path hash, supports path → Lists (after.map TrackedEntry.read) path hash →
    (∃ change ∈ changes, change.read.Touches path) →
      ReachedLast (changes.map DiffLine.read) path ∧
        BlobAt ((answered selects after (lookedUpPaths changes)).map TrackedEntry.read) path hash
  /-- A blob on no line is text. -/
  plain : ∀ path hash, supports path → Lists (after.map TrackedEntry.read) path hash →
    (∀ change ∈ changes, ¬ change.read.Touches path) → text hash
  /-- A stored path that is not listed any more is on a line. -/
  gone : ∀ path hash, supports path → text hash →
    Lists (before.map TrackedEntry.read) path hash →
      (∀ other, ¬ Lists (after.map TrackedEntry.read) path other) →
        ∃ change ∈ changes, change.read.Touches path

end

theorem tracks_listed (entries : List TreeEntry) :
    Tracks (entries.filterMap fun entry =>
      if entry.objectType = .blob then some (trackedFile entry.filePath entry.objectHash none none)
      else none) path hash ↔ Lists entries path hash := by
  constructor
  · rintro ⟨file, mem, rfl, rfl⟩
    obtain ⟨⟨objectType, objectHash, filePath⟩, entryMem, made⟩ := mem_filterMap.mp mem
    obtain ⟨rfl, ⟨⟩⟩ := Option.ite_none_right_eq_some.mp made
    exact entryMem
  · intro listed
    exact ⟨_, mem_filterMap.mpr ⟨_, listed, if_pos rfl⟩, rfl, rfl⟩

theorem BlobAt.lists {entries : List TreeEntry} (blob : BlobAt entries path hash) :
    Lists entries path hash := by
  obtain ⟨⟨objectType, objectHash, filePath⟩, located, rfl, rfl⟩ := blob
  have samePath : filePath = path := of_decide_eq_true (find?_some located :)
  subst samePath
  exact mem_reverse.mp (mem_of_find?_eq_some located)

/-- What no line touches is listed as before. -/
theorem DiffReports.lists_before (reports : DiffReports before after changes)
    (listed : Lists (after.map TrackedEntry.read) path hash)
    (untouched : ∀ change ∈ changes, ¬ change.read.Touches path) :
    Lists (before.map TrackedEntry.read) path hash := by
  obtain ⟨entry, mem, read⟩ := mem_map.mp listed
  have old : entry ∈ before := by
    by_contra new
    obtain ⟨change, isChange, kept, reaches⟩ := reports.complete entry mem new
    have named : entry.path.name = path := congrArg TreeEntry.filePath read
    refine untouched change isChange (.inr ?_)
    cases change with
    | one | two => exact ⟨kept, (congrArg PrintedPath.name reaches).trans named⟩
  exact mem_map.mpr ⟨entry, old, read⟩

section
variable {commands : TreeCommands} {others : Git} {accepts : List String → Bool}
  {selects : String → PrintedPath → Bool} {commit : GitCommitMeta} {parentSha : String}
  {repoId : Nat} {db : Db} {parentSnapshot : StoredSnapshot}

theorem lsTree_git (valid : validateSha commit.sha = .ok ())
    (prints : commands.Print accepts selects commit.sha parentSha after changes) :
    (commands.git others).lsTree commit.sha = parseLsTree (printTree after) := by
  simp [TreeCommands.git, valid, prints.tree, bind, Except.bind]

theorem fullSnapshotFiles_visible (valid : validateSha commit.sha = .ok ())
    (prints : commands.Print accepts selects commit.sha parentSha after changes)
    (visible : ∀ entry ∈ after, entry.path.Visible) :
    ∃ full, fullSnapshotFiles (commands.git others) commit.sha = .ok full ∧
      ∀ path hash, Tracks full path hash ↔ Lists (after.map TrackedEntry.read) path hash := by
  refine ⟨_, ?_, fun path hash => tracks_listed _⟩
  simp [fullSnapshotFiles, lsTree_git valid prints, parseLsTree_printTree visible, withContext,
    bind, Except.bind]

theorem visible_of_full (valid : validateSha commit.sha = .ok ())
    (prints : commands.Print accepts selects commit.sha parentSha after changes)
    {full : List StoredSnapshotFile}
    (listed : fullSnapshotFiles (commands.git others) commit.sha = .ok full) :
    ∀ entry ∈ after, entry.path.Visible := by
  intro entry mem
  by_contra hidden
  obtain ⟨message, failed⟩ := parseLsTree_hidden mem hidden
  simp [fullSnapshotFiles, lsTree_git valid prints, failed, withContext, bind, Except.bind]
    at listed

/-- The answer to the lookup, or its failure. -/
theorem lsTreePaths_git (valid : validateSha commit.sha = .ok ())
    (prints : commands.Print accepts selects commit.sha parentSha after changes)
    (visible : ∀ entry ∈ after, entry.path.Visible) (paths : List String) :
    (paths ≠ [] → accepts paths = true) ∧ (commands.git others).lsTreePaths commit.sha paths =
        .ok ((answered selects after paths).map TrackedEntry.read) ∨
      ¬ (paths ≠ [] → accepts paths = true) ∧
        ∃ message, (commands.git others).lsTreePaths commit.sha paths = .error message := by
  by_cases none : paths = []
  · subst none
    left
    simp [TreeCommands.git, valid, answered, bind, Except.bind, pure, Except.pure]
  · cases accepted : accepts paths with
    | true =>
      left
      have part : ∀ entry ∈ answered selects after paths, entry.path.Visible :=
        fun entry mem => visible entry (mem_of_mem_filter mem)
      simp [TreeCommands.git, valid, none, prints.selected paths accepted,
        parseLsTree_printTree part, bind, Except.bind]
    | false =>
      right
      obtain ⟨message, failed⟩ := prints.refused paths accepted
      simp [TreeCommands.git, valid, none, failed, bind, Except.bind]

theorem diffTreeFiles_git (valid : validateSha commit.sha = .ok ())
    (validParent : validateSha parentSha = .ok ())
    (prints : commands.Print accepts selects commit.sha parentSha after changes)
    (reports : DiffReports before after changes)
    (visible : ∀ entry ∈ after, entry.path.Visible) :
    (commands.git others).diffTreeFiles commit.sha parentSha =
      .ok (changes.map DiffLine.read) := by
  have shown : ∀ change ∈ changes,
      change.newPath.Visible ∨ ∃ status path, change = .one status path := by
    intro change mem
    cases change with
    | one status path => exact .inr ⟨status, path, rfl⟩
    | two status score oldPath newPath =>
      obtain ⟨entry, entryMem, same⟩ := reports.arrives status score oldPath newPath mem
      exact .inl (same ▸ visible entry entryMem)
  simp [TreeCommands.git, valid, validParent, prints.diff, parseDiffTree_printDiff shown, bind,
    Except.bind, pure, Except.pure]

/-- The replayed list, or the failure of the lookup. -/
theorem replaySnapshotFiles_git (isParent : commit.parentSha = some parentSha)
    (stored : findSnapshot db repoId parentSha = some parentSnapshot)
    (valid : validateSha commit.sha = .ok ()) (validParent : validateSha parentSha = .ok ())
    (prints : commands.Print accepts selects commit.sha parentSha after changes)
    (reports : DiffReports before after changes)
    (visible : ∀ entry ∈ after, entry.path.Visible) :
    (lookedUpPaths changes ≠ [] → accepts (lookedUpPaths changes) = true) ∧
        replaySnapshotFiles (commands.git others) {} repoId db commit =
          .ok (some ((changes.map DiffLine.read).foldl
            (replayChange ((answered selects after (lookedUpPaths changes)).map TrackedEntry.read))
            (collectFiles (listSnapshotFiles db parentSnapshot.snapshotId)))) ∨
      ¬ (lookedUpPaths changes ≠ [] → accepts (lookedUpPaths changes) = true) ∧
        ∃ message, replaySnapshotFiles (commands.git others) {} repoId db commit =
          .error message := by
  have diffed := @diffTreeFiles_git before after changes commands others accepts selects commit
    parentSha valid validParent prints reports visible
  by_cases unchanged : changes = []
  · subst unchanged
    left
    refine ⟨fun some => absurd rfl some, ?_⟩
    simp [replaySnapshotFiles, isParent, attempt, stored, diffed, withContext, bind, Except.bind]
  · obtain ⟨accepted, answer⟩ | ⟨refused, message, failed⟩ :=
      @lsTreePaths_git after changes commands others accepts selects commit parentSha valid prints
        visible (lookedUpPaths changes)
    · refine .inl ⟨accepted, ?_⟩
      rw [lookedUpPaths] at answer
      simp [replaySnapshotFiles, isParent, attempt, stored, diffed, withContext, bind,
        Except.bind, unchanged, answer, lookedUpPaths]
    · refine .inr ⟨refused, message, ?_⟩
      rw [lookedUpPaths] at failed
      simp [replaySnapshotFiles, isParent, attempt, stored, diffed, withContext, bind,
        Except.bind, unchanged, failed]

end

/-- For a parent whose supported text files are all indexed, replaying the diff gives the supported
files of the full listing exactly under these conditions on the two trees and the diff. -/
theorem replaySnapshotFiles_eq_full_iff (supports text : String → Bool) (commands : TreeCommands)
    (others : Git) (accepts : List String → Bool) (selects : String → PrintedPath → Bool)
    (repoId : Nat) (db : Db) (commit : GitCommitMeta) (parentSha : String)
    (parentSnapshot : StoredSnapshot) (before after : List TrackedEntry)
    (changes : List DiffLine) (isParent : commit.parentSha = some parentSha)
    (stored : findSnapshot db repoId parentSha = some parentSnapshot)
    (distinct : DistinctPaths (listSnapshotFiles db parentSnapshot.snapshotId))
    (indexed : ∀ path hash, Tracks (listSnapshotFiles db parentSnapshot.snapshotId) path hash ↔
      supports path ∧ text hash ∧ Lists (before.map TrackedEntry.read) path hash)
    (valid : validateSha commit.sha = .ok ()) (validParent : validateSha parentSha = .ok ())
    (prints : commands.Print accepts selects commit.sha parentSha after changes)
    (reports : DiffReports before after changes) :
    (∃ replayed full,
      replaySnapshotFiles (commands.git others) {} repoId db commit = .ok (some replayed) ∧
        fullSnapshotFiles (commands.git others) commit.sha = .ok full ∧
        ∀ path hash, supports path → (Tracks replayed path hash ↔ Tracks full path hash)) ↔
      ReplayComplete accepts selects supports text before after changes := by
  have collected (path hash : String) :
      Tracks (collectFiles (listSnapshotFiles db parentSnapshot.snapshotId)) path hash ↔
        supports path ∧ text hash ∧ Lists (before.map TrackedEntry.read) path hash := by
    rw [tracks_collectFiles distinct, indexed]
  constructor
  · rintro ⟨replayed, full, replayOk, fullOk, agree⟩
    have visible := visible_of_full valid prints fullOk
    obtain ⟨_, listed, fullTracks⟩ :=
      @fullSnapshotFiles_visible after changes commands others accepts selects commit parentSha
        valid prints visible
    obtain rfl := Except.ok.inj (fullOk.symm.trans listed)
    obtain ⟨accepted, ran⟩ | ⟨_, message, failed⟩ :=
      @replaySnapshotFiles_git before after changes commands others accepts selects commit
        parentSha repoId db parentSnapshot isParent stored valid validParent prints reports visible
    · obtain rfl := Option.some.inj (Except.ok.inj (replayOk.symm.trans ran))
      simp only [tracks_replay, fullTracks, collected, forall_mem_map] at agree
      refine ⟨visible, accepted, ?_, ?_, ?_⟩
      · intro path hash supported isListed touched
        obtain last | ⟨untouched, _⟩ := (agree path hash supported).mpr isListed
        · exact last
        · obtain ⟨change, mem, touches⟩ := touched
          exact absurd touches (untouched change mem)
      · intro path hash supported isListed untouched
        obtain ⟨last, _⟩ | ⟨_, old⟩ := (agree path hash supported).mpr isListed
        · obtain ⟨_, readMem, touches⟩ := last.touched
          obtain ⟨change, mem, rfl⟩ := mem_map.mp readMem
          exact absurd touches (untouched change mem)
        · exact old.2.1
      · intro path hash supported isText old unlisted
        by_contra untouched
        refine unlisted hash ((agree path hash supported).mp (.inr ⟨?_, supported, isText, old⟩))
        exact fun change mem touches => untouched ⟨change, mem, touches⟩
    · rw [failed] at replayOk
      cases replayOk
  · intro complete
    obtain ⟨full, fullOk, fullTracks⟩ :=
      @fullSnapshotFiles_visible after changes commands others accepts selects commit parentSha
        valid prints complete.visible
    obtain ⟨_, ran⟩ | ⟨refused, _⟩ :=
      @replaySnapshotFiles_git before after changes commands others accepts selects commit
        parentSha repoId db parentSnapshot isParent stored valid validParent prints reports
        complete.visible
    · refine ⟨_, full, ran, fullOk, fun path hash supported => ?_⟩
      rw [tracks_replay, fullTracks, collected, forall_mem_map]
      constructor
      · rintro (⟨_, blob⟩ | ⟨untouched, _, isText, old⟩)
        · exact (filter_sublist.map _).subset blob.lists
        · by_contra unlisted
          by_cases some : ∃ other, Lists (after.map TrackedEntry.read) path other
          · obtain ⟨other, isListed⟩ := some
            -- The listed blob is the stored one: nothing touched the path.
            have otherText := complete.plain path other supported isListed untouched
            have otherOld := reports.lists_before isListed untouched
            have same := distinct.hash_eq ((indexed path hash).mpr ⟨supported, isText, old⟩)
              ((indexed path other).mpr ⟨supported, otherText, otherOld⟩)
            exact unlisted (same ▸ isListed)
          · obtain ⟨change, mem, touches⟩ :=
              complete.gone path hash supported isText old (not_exists.mp some)
            exact untouched change mem touches
      · intro isListed
        by_cases touched : ∃ change ∈ changes, change.read.Touches path
        · exact .inl (complete.found path hash supported isListed touched)
        · have untouched : ∀ change ∈ changes, ¬ change.read.Touches path :=
            fun change mem touches => touched ⟨change, mem, touches⟩
          exact .inr ⟨untouched, supported, complete.plain path hash supported isListed untouched,
            reports.lists_before isListed untouched⟩
    · exact absurd complete.accepted refused

/-! ## One changed file -/

def plainColumn (text : String) (filled : text.toList ≠ [])
    (solid : (text.toList.all fun c => !Repo.isWhitespace c) = true) : Column :=
  ⟨text.toList, filled, solid_of_all solid⟩

def changedPath : PrintedPath := ⟨"a.rs".toList, by decide, by decide⟩

def trackedBlob (hash : Column) (path : PrintedPath) : TrackedEntry :=
  ⟨plainColumn "100644" (by decide) rfl, hash, .blob, path⟩

/-- A file that every tree has. -/
def keptEntry : TrackedEntry :=
  trackedBlob (plainColumn "kept" (by decide) rfl) ⟨"b.rs".toList, by decide, by decide⟩

def parentTree : List TrackedEntry :=
  [trackedBlob (plainColumn "old" (by decide) rfl) changedPath, keptEntry]

def childTree : List TrackedEntry :=
  [trackedBlob (plainColumn "new" (by decide) rfl) changedPath, keptEntry]

def childDiff (status : ChangeStatus) : List DiffLine := [.one status changedPath]

def parentSha : String := String.ofList (replicate 40 'b')

def childCommit : GitCommitMeta where
  sha := String.ofList (replicate 40 'a')
  parentSha := some parentSha
  authorName := ""
  authorEmail := ""
  authorTime := 0
  committerTime := 0
  subject := ""
  body := ""

/-- A pathspec without a colon or a slash selects the path it spells. -/
def selectsSame (spec : String) (path : PrintedPath) : Bool :=
  decide (spec = String.ofList path.text)

def childCommands (status : ChangeStatus) : TreeCommands where
  lsTree _ := .ok (printTree childTree)
  lsTreePaths _ paths := .ok (printTree (answered selectsSame childTree paths))
  diffTree _ _ := .ok (printDiff (childDiff status))

def otherGit : Git where
  revParse _ := .ok "root"
  lsTree _ := .ok []
  lsTreePaths _ _ := .ok []
  diffTreeFiles _ _ := .ok []
  showFile _ _ := .ok none
  catFileBlobBatch _ := .ok []

def parentSnapshot : StoredSnapshot where
  snapshotId := 1
  repoId := 1
  commitSha := parentSha
  rootTreeHash := none
  nodeCount := 0
  edgeCount := 0
  fileCount := 2
  parseErrorCount := 0

def parentFiles : List StoredSnapshotFile :=
  [⟨1, "a.rs", "old", none, none⟩, ⟨1, "b.rs", "kept", none, none⟩]

def parentDb : Db where
  graphSnapshots := [parentSnapshot]
  snapshotFiles := parentFiles

def supportsRust (path : String) : Bool := decide (path ∈ ["a.rs", "b.rs"])

theorem childDiff_reports {status : ChangeStatus} (kept : status ≠ .deleted) :
    DiffReports parentTree childTree (childDiff status) where
  complete entry mem new := by
    rcases mem_cons.mp mem with rfl | other
    · exact ⟨_, mem_singleton_self _, kept, rfl⟩
    · exact absurd (mem_cons_of_mem _ other) new
  arrives status score oldPath newPath mem := by
    cases mem_singleton.mp mem

theorem childCommands_print (status : ChangeStatus) :
    (childCommands status).Print (fun _ => true) selectsSame childCommit.sha parentSha childTree
      (childDiff status) where
  tree := rfl
  selected _ _ := rfl
  refused _ refused := by cases refused
  diff := rfl

theorem parentDb_indexed (path hash : String) :
    Tracks (listSnapshotFiles parentDb parentSnapshot.snapshotId) path hash ↔
      supportsRust path ∧ (fun _ => true) hash ∧
        Lists (parentTree.map TrackedEntry.read) path hash := by
  have listed : listSnapshotFiles parentDb parentSnapshot.snapshotId = parentFiles := by decide
  have shown : parentTree.map TrackedEntry.read =
      [⟨.blob, "old", "a.rs"⟩, ⟨.blob, "kept", "b.rs"⟩] := by decide
  rw [listed, shown]
  simp [Tracks, Lists, parentFiles, supportsRust]
  grind

/-- A modified file is replayed as the full listing has it. -/
theorem replaySnapshotFiles_modified :
    ∃ replayed full,
      replaySnapshotFiles ((childCommands .modified).git otherGit) {} 1 parentDb childCommit =
        .ok (some replayed) ∧
      fullSnapshotFiles ((childCommands .modified).git otherGit) childCommit.sha = .ok full ∧
      ∀ path hash, supportsRust path → (Tracks replayed path hash ↔ Tracks full path hash) := by
  have shown : childTree.map TrackedEntry.read =
      [⟨.blob, "new", "a.rs"⟩, ⟨.blob, "kept", "b.rs"⟩] := by decide
  have distinct : DistinctPaths (listSnapshotFiles parentDb parentSnapshot.snapshotId) := by
    unfold DistinctPaths
    decide
  have visible : ∀ entry ∈ childTree, entry.path.Visible := by
    intro entry mem
    rcases mem_cons.mp mem with rfl | other
    · exact ⟨'a', by decide, rfl⟩
    · rw [mem_singleton.mp other]
      exact ⟨'b', by decide, rfl⟩
  refine (replaySnapshotFiles_eq_full_iff supportsRust (fun _ => true) (childCommands .modified)
    otherGit (fun _ => true) selectsSame 1 parentDb childCommit parentSha parentSnapshot parentTree
    childTree (childDiff .modified) rfl (by decide) distinct parentDb_indexed (by decide)
    (by decide) (childCommands_print .modified) (childDiff_reports (by decide))).mpr ?_
  refine ⟨visible, fun _ => rfl, ?_, fun _ _ _ _ _ => rfl, ?_⟩
  · intro path hash _ listed touched
    obtain ⟨change, mem, touches⟩ := touched
    rw [mem_singleton.mp mem] at touches
    have same : path = "a.rs" := by
      rcases touches with ⟨removes, _⟩ | ⟨_, reaches⟩
      · simp [DiffLine.read] at removes
      · exact reaches.symm
    subst same
    rw [shown] at listed
    have fresh : hash = "new" := by simpa [Lists] using listed
    subst fresh
    exact ⟨.inr ⟨⟨by decide, rfl⟩, fun _ later => absurd later not_mem_nil⟩, _, rfl, rfl, rfl⟩
  · intro path hash _ _ old unlisted
    have names : parentTree.map TrackedEntry.read =
        [⟨.blob, "old", "a.rs"⟩, ⟨.blob, "kept", "b.rs"⟩] := by decide
    rw [names] at old
    rw [shown] at unlisted
    rcases mem_cons.mp old with changed | kept
    · cases changed
      exact absurd (.head _) (unlisted "new")
    · cases mem_singleton.mp kept
      exact absurd (.tail _ (.head _)) (unlisted "kept")

/-- A regular file that becomes a symbolic link is a blob of the new tree; the replay loses it. -/
theorem replaySnapshotFiles_loses_type_change :
    DiffReports parentTree childTree (childDiff .typeChanged) ∧
      (childCommands .typeChanged).Print (fun _ => true) selectsSame childCommit.sha parentSha
        childTree (childDiff .typeChanged) ∧
      (∀ path hash, Tracks (listSnapshotFiles parentDb parentSnapshot.snapshotId) path hash ↔
        supportsRust path ∧ (fun _ => true) hash ∧
          Lists (parentTree.map TrackedEntry.read) path hash) ∧
      replaySnapshotFiles ((childCommands .typeChanged).git otherGit) {} 1 parentDb childCommit =
        .ok (some [⟨1, "b.rs", "kept", none, none⟩]) ∧
      fullSnapshotFiles ((childCommands .typeChanged).git otherGit) childCommit.sha =
        .ok [trackedFile "a.rs" "new" none none, trackedFile "b.rs" "kept" none none] :=
  ⟨childDiff_reports (by decide), childCommands_print .typeChanged, parentDb_indexed, by decide,
    by decide⟩

end Atlas.History
