import Atlas.History.Schema
import Atlas.Program.MapM
import Mathlib.Data.List.Induction

/-! What a file list tracks when the lines of a diff are replayed over it. -/
namespace Atlas.History
open List

variable {files : List StoredSnapshotFile} {path hash : String} {entries : List TreeEntry}
  {git : Git}

def Tracks (files : List StoredSnapshotFile) (path hash : String) : Prop :=
  ∃ file ∈ files, file.filePath = path ∧ file.fileHash = hash
def BlobAt (entries : List TreeEntry) (path hash : String) : Prop :=
  ∃ entry, entryAt entries path = some entry ∧ entry.objectType = .blob ∧ entry.objectHash = hash

namespace TreeChange

def Removes (change : TreeChange) (path : String) : Prop :=
  (change.status = .deleted ∨ change.status = .renamed) ∧ change.oldPath = path
def Reaches (change : TreeChange) (path : String) : Prop :=
  change.status ≠ .deleted ∧ change.newPath = path
def Touches (change : TreeChange) (path : String) : Prop :=
  change.Removes path ∨ change.Reaches path

end TreeChange

/-- Some line reaches the path, and no line behind it touches the path. -/
def ReachedLast : List TreeChange → String → Prop
  | [], _ => False
  | change :: rest, path =>
      ReachedLast rest path ∨ change.Reaches path ∧ ∀ later ∈ rest, ¬ later.Touches path

/-! ## File lists as maps -/

theorem tracks_removeFile {removed : String} :
    Tracks (removeFile removed files) path hash ↔ path ≠ removed ∧ Tracks files path hash := by
  constructor
  · rintro ⟨file, mem, rfl, rfl⟩
    obtain ⟨mem, kept⟩ := mem_filter.mp mem
    exact ⟨by simpa using kept, file, mem, rfl, rfl⟩
  · rintro ⟨differs, file, mem, rfl, rfl⟩
    exact ⟨file, mem_filter.mpr ⟨mem, by simpa using differs⟩, rfl, rfl⟩

theorem tracks_insertFile {file : StoredSnapshotFile} :
    Tracks (insertFile file files) path hash ↔ (path = file.filePath ∧ hash = file.fileHash) ∨
      (path ≠ file.filePath ∧ Tracks files path hash) := by
  constructor
  · rintro ⟨other, mem, rfl, rfl⟩
    rcases (mem_orderedInsert _).mp mem with rfl | kept
    · exact .inl ⟨rfl, rfl⟩
    · exact .inr (tracks_removeFile.mp ⟨other, kept, rfl, rfl⟩)
  · rintro (⟨rfl, rfl⟩ | kept)
    · exact ⟨file, (mem_orderedInsert _).mpr (.inl rfl), rfl, rfl⟩
    · obtain ⟨other, mem, rfl, rfl⟩ := tracks_removeFile.mpr kept
      exact ⟨other, (mem_orderedInsert _).mpr (.inr mem), rfl, rfl⟩

theorem tracks_applyReplayedEntry {applied : String} :
    Tracks (applyReplayedEntry files entries applied) path hash ↔
      (path = applied ∧ BlobAt entries applied hash) ∨ (path ≠ applied ∧ Tracks files path hash) := by
  unfold applyReplayedEntry BlobAt
  cases found : entryAt entries applied with
  | none => simp [tracks_removeFile]
  | some entry =>
    by_cases isBlob : entry.objectType = .blob
    · have inserted : ∀ language size, Tracks (insertFile (trackedFile applied entry.objectHash language size) files) path hash ↔
            (path = applied ∧ ∃ other, some entry = some other ∧ other.objectType = .blob ∧
              other.objectHash = hash) ∨ (path ≠ applied ∧ Tracks files path hash) := by
        intro language size
        rw [tracks_insertFile]
        simp [trackedFile, isBlob, eq_comm]
      simp only [isBlob, if_true]
      split
      · split <;> exact inserted _ _
      · exact inserted _ _
    · simp [isBlob, tracks_removeFile]

variable {change : TreeChange} {changes : List TreeChange} {commitSha : String} {repoId : Nat}
  {db : Db} {commit : GitCommitMeta}

theorem tracks_replayChange :
    Tracks (replayChange entries files change) path hash ↔
      (change.Reaches path ∧ BlobAt entries path hash) ∨
        (¬ change.Touches path ∧ Tracks files path hash) := by
  unfold TreeChange.Touches TreeChange.Removes TreeChange.Reaches
  cases status : change.status with
  | deleted =>
    simp only [replayChange, status, tracks_removeFile]
    grind
  | renamed =>
    simp only [replayChange, status, tracks_applyReplayedEntry, tracks_removeFile]
    grind
  | added | modified | copied | typeChanged | other =>
    simp only [replayChange, status, tracks_applyReplayedEntry]
    grind

theorem ReachedLast.touched (reached : ReachedLast changes path) :
    ∃ change ∈ changes, change.Touches path := by
  induction changes with
  | nil => exact reached.elim
  | cons change rest ih =>
    obtain later | ⟨reaches, _⟩ := reached
    · obtain ⟨other, mem, touches⟩ := ih later
      exact ⟨other, .tail _ mem, touches⟩
    · exact ⟨change, .head _, .inr reaches⟩

/-- The last line about a path decides; without a line the old file stays. -/
theorem tracks_replay (changes : List TreeChange) (files : List StoredSnapshotFile) :
    Tracks (changes.foldl (replayChange entries) files) path hash ↔
      (ReachedLast changes path ∧ BlobAt entries path hash) ∨
        ((∀ change ∈ changes, ¬ change.Touches path) ∧ Tracks files path hash) := by
  induction changes generalizing files with
  | nil => simp [ReachedLast]
  | cons change rest ih =>
    rw [foldl_cons, ih, tracks_replayChange, ReachedLast, forall_mem_cons]
    have reached := @ReachedLast.touched path rest
    grind

/-! ## Distinct paths -/

def DistinctPaths (files : List StoredSnapshotFile) : Prop :=
  (files.map StoredSnapshotFile.filePath).Nodup

theorem DistinctPaths.removeFile (nodup : DistinctPaths files) (path : String) :
    DistinctPaths (removeFile path files) :=
  List.Nodup.sublist (List.Sublist.map _ filter_sublist) nodup

theorem DistinctPaths.insertFile (nodup : DistinctPaths files) (file : StoredSnapshotFile) :
    DistinctPaths (insertFile file files) := by
  have inserted : ((History.insertFile file files).map StoredSnapshotFile.filePath).Perm
    (file.filePath :: (History.removeFile file.filePath files).map StoredSnapshotFile.filePath) :=
    (perm_orderedInsert _ file _).map _
  refine inserted.nodup_iff.mpr (nodup_cons.mpr ⟨?_, nodup.removeFile _⟩)
  intro mem
  obtain ⟨other, kept, same⟩ := mem_map.mp mem
  have differs := (mem_filter.mp kept).2
  simp [same] at differs

theorem DistinctPaths.collectFiles (files : List StoredSnapshotFile) :
    DistinctPaths (collectFiles files) := by
  induction files using reverseRecOn with
  | nil => exact nodup_nil
  | append_singleton earlier file ih =>
    rw [History.collectFiles, foldl_append]
    exact ih.insertFile file

theorem DistinctPaths.hash_eq {other : String} (nodup : DistinctPaths files)
    (first : Tracks files path hash) (second : Tracks files path other) : hash = other := by
  obtain ⟨left, leftMem, rfl, rfl⟩ := first
  obtain ⟨right, rightMem, same, rfl⟩ := second
  rw [inj_on_of_nodup_map nodup rightMem leftMem same]

theorem tracks_collectFiles (nodup : DistinctPaths files) :
    Tracks (collectFiles files) path hash ↔ Tracks files path hash := by
  induction files using reverseRecOn generalizing path hash with
  | nil => exact Iff.rfl
  | append_singleton earlier file ih =>
    have widen : ∀ {path hash}, Tracks earlier path hash → Tracks (earlier ++ [file]) path hash := by
      rintro path hash ⟨other, mem, rfl, rfl⟩
      exact ⟨other, mem_append_left _ mem, rfl, rfl⟩
    have last : Tracks (earlier ++ [file]) file.filePath file.fileHash := ⟨file, by simp, rfl, rfl⟩
    have front : DistinctPaths earlier :=
      List.Nodup.sublist ((sublist_append_left earlier [file]).map _) nodup
    have earlierIff : ∀ {path hash},
        Tracks (collectFiles earlier) path hash ↔ Tracks earlier path hash := ih front
    rw [History.collectFiles, foldl_append, foldl_cons, foldl_nil, tracks_insertFile]
    constructor
    · rintro (⟨rfl, rfl⟩ | ⟨_, kept⟩)
      · exact last
      · exact widen (earlierIff.mp kept)
    · rintro ⟨other, mem, rfl, rfl⟩
      by_cases same : other.filePath = file.filePath
      · refine .inl ⟨same, ?_⟩
        refine nodup.hash_eq ⟨other, mem, rfl, rfl⟩ ?_
        rw [same]
        exact last
      · refine .inr ⟨same, earlierIff.mpr ?_⟩
        rcases mem_append.mp mem with old | new
        · exact ⟨other, old, rfl, rfl⟩
        · exact absurd (congrArg StoredSnapshotFile.filePath (mem_singleton.mp new)) same

theorem DistinctPaths.applyReplayedEntry (nodup : DistinctPaths files) (entries : List TreeEntry)
    (path : String) : DistinctPaths (applyReplayedEntry files entries path) := by
  unfold History.applyReplayedEntry
  split
  · exact nodup.removeFile path
  · split
    · split
      · split <;> exact nodup.insertFile _
      · exact nodup.insertFile _
    · exact nodup.removeFile path

theorem DistinctPaths.replay (nodup : DistinctPaths files) (entries : List TreeEntry)
    (changes : List TreeChange) : DistinctPaths (changes.foldl (replayChange entries) files) := by
  induction changes generalizing files with
  | nil => exact nodup
  | cons change rest ih =>
    refine ih ?_
    unfold replayChange
    split
    · exact nodup.removeFile _
    · exact (nodup.removeFile _).applyReplayedEntry entries _
    · exact nodup.applyReplayedEntry entries _

theorem replaySnapshotFiles_distinct {faults : ReplayFaults}
    (replayed : replaySnapshotFiles git faults repoId db commit = .ok (some files)) :
    DistinctPaths files := by
  unfold replaySnapshotFiles at replayed
  split at replayed
  · cases replayed
  · obtain ⟨found, -, replayed⟩ := Program.bind_eq_ok replayed
    cases found with
    | none => cases replayed
    | some parentSnapshot =>
      obtain ⟨stored, -, replayed⟩ := Program.bind_eq_ok replayed
      obtain ⟨changes, -, replayed⟩ := Program.bind_eq_ok replayed
      split at replayed
      · cases replayed
        exact .collectFiles _
      · obtain ⟨entries, -, replayed⟩ := Program.bind_eq_ok replayed
        cases replayed
        exact (DistinctPaths.collectFiles _).replay _ _

theorem fullSnapshotFiles_distinct (nodup : ∀ entries, git.lsTree commitSha = .ok entries →
    (entries.map TreeEntry.filePath).Nodup) (listed : fullSnapshotFiles git commitSha = .ok files) :
    DistinctPaths files := by
  cases asked : git.lsTree commitSha with
  | error msg => simp [fullSnapshotFiles, asked, withContext, bind, Except.bind] at listed
  | ok entries =>
    simp only [fullSnapshotFiles, asked, withContext, bind, Except.bind, Except.ok.injEq] at listed
    subst listed
    refine List.Nodup.sublist ?_ (nodup entries asked)
    clear asked nodup
    induction entries with
    | nil => exact .refl _
    | cons entry rest ih =>
      rw [filterMap_cons]
      by_cases isBlob : entry.objectType = .blob
      · simp only [isBlob, if_true]
        exact ih.cons_cons _
      · simp only [isBlob, if_false]
        exact ih.cons _

end Atlas.History
