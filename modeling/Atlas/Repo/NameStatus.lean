import Atlas.Core.Graph
import Atlas.Program.MapM
import Atlas.Repo.Path
import Atlas.Text.Split

/-! The reader of `git diff --name-status -z`, and the records git writes in that format. -/
namespace Atlas.Repo
open List Core Text

inductive DiffError where
  | unexpectedEnd
  | path (error : RepoPathError)

def DiffError.message : DiffError → String
  | .unexpectedEnd => "unexpected end of git diff output"
  | .path error => error.message

abbrev Parts : Type := List (List Char)

def consume : Parts → Except DiffError (List Char × Parts)
  | [] => .error .unexpectedEnd
  | part :: rest => .ok (part, rest)

section
variable (nfc : String → String)

def canonicalGitDiffPath (path : List Char) : Except DiffError String :=
  (canonicalizeRelative nfc (String.ofList path)).mapError .path

def oneChanged (changeType : ChangeType) (parts : Parts) :
    Except DiffError (Option ChangedFile × Parts) := do
  let (raw, rest) ← consume parts
  let path ← canonicalGitDiffPath nfc raw
  .ok (some { path, changeType }, rest)

def moved (changeType : ChangeType) (parts : Parts) :
    Except DiffError (Option ChangedFile × Parts) := do
  let (rawOld, rest) ← consume parts
  let oldPath ← canonicalGitDiffPath nfc rawOld
  let (rawNew, rest) ← consume rest
  let path ← canonicalGitDiffPath nfc rawNew
  .ok (some { path, changeType, oldPath := some oldPath }, rest)

def readRecord (statusField : List Char) (parts : Parts) :
    Except DiffError (Option ChangedFile × Parts) :=
  match statusField.headD ' ' with
  | 'A' => oneChanged nfc .added parts
  | 'M' => oneChanged nfc .modified parts
  | 'D' => oneChanged nfc .deleted parts
  | 'R' => moved nfc .renamed parts
  | 'C' => moved nfc .copied parts
  | _ => .ok (none, parts.tail)

end

variable {nfc : String → String} {parts rest : Parts} {statusField : List Char}

theorem oneChanged_length_le {changeType : ChangeType}
    {change : Option ChangedFile} (read : oneChanged nfc changeType parts = .ok (change, rest)) :
    rest.length ≤ parts.length := by
  cases parts with
  | nil => cases read
  | cons raw others =>
    unfold oneChanged at read
    obtain ⟨_, first, read⟩ := Program.bind_eq_ok read
    cases first
    obtain ⟨_, -, read⟩ := Program.bind_eq_ok read
    cases read
    exact Nat.le_succ _

theorem moved_length_le {changeType : ChangeType}
    {change : Option ChangedFile} (read : moved nfc changeType parts = .ok (change, rest)) :
    rest.length ≤ parts.length := by
  match parts with
  | [] => cases read
  | [rawOld] =>
    unfold moved at read
    obtain ⟨_, first, read⟩ := Program.bind_eq_ok read
    cases first
    obtain ⟨_, -, read⟩ := Program.bind_eq_ok read
    cases read
  | rawOld :: rawNew :: others =>
    unfold moved at read
    obtain ⟨_, first, read⟩ := Program.bind_eq_ok read
    cases first
    obtain ⟨_, -, read⟩ := Program.bind_eq_ok read
    obtain ⟨_, second, read⟩ := Program.bind_eq_ok read
    cases second
    obtain ⟨_, -, read⟩ := Program.bind_eq_ok read
    cases read
    rw [length_cons, length_cons]
    omega

theorem readRecord_length_le
    {change : Option ChangedFile} (read : readRecord nfc statusField parts = .ok (change, rest)) :
    rest.length ≤ parts.length := by
  unfold readRecord at read
  split at read
  · exact oneChanged_length_le read
  · exact oneChanged_length_le read
  · exact oneChanged_length_le read
  · exact moved_length_le read
  · exact moved_length_le read
  · cases read
    rw [length_tail]
    omega

variable (nfc)

def parseParts : Parts → Except DiffError (List ChangedFile)
  | [] => .ok []
  | statusField :: parts =>
    match _read : readRecord nfc statusField parts with
    | .error error => .error error
    | .ok (change, rest) => (parseParts rest).map (change.toList ++ ·)
termination_by parts => parts.length
decreasing_by exact Nat.lt_succ_of_le (readRecord_length_le _read)

theorem parseParts_cons {change : Option ChangedFile}
    (read : readRecord nfc statusField parts = .ok (change, rest)) :
    parseParts nfc (statusField :: parts) = (parseParts nfc rest).map (change.toList ++ ·) := by
  rw [parseParts]
  split
  · next failed => rw [read] at failed; cases failed
  · next other left taken =>
      rw [read] at taken
      obtain ⟨rfl, rfl⟩ := Prod.mk.inj (Except.ok.inj taken)
      rfl

def parseNameStatusZ (raw : String) : Except DiffError (List ChangedFile) :=
  parseParts nfc ((raw.toList.splitOn '\x00').filter (· ≠ []))

/-! The records of `--name-status -z` as git writes them. The reader stays in step with every
sequence of records, and drops the statuses it does not know, type changes among them. -/

structure GitPath (nfc : String → String) where
  raw : List Char
  canonical : String
  noNul : '\x00' ∉ raw
  accepted : canonicalizeRelative nfc (String.ofList raw) = .ok canonical

structure Score where
  text : List Char
  noNul : '\x00' ∉ text

inductive SinglePathStatus where
  | added | modified | deleted | typeChanged | unmerged | unknown | broken
  deriving DecidableEq

def SinglePathStatus.letter : SinglePathStatus → Char
  | .added => 'A'
  | .modified => 'M'
  | .deleted => 'D'
  | .typeChanged => 'T'
  | .unmerged => 'U'
  | .unknown => 'X'
  | .broken => 'B'

def SinglePathStatus.changeType : SinglePathStatus → Option ChangeType
  | .added => some .added
  | .modified => some .modified
  | .deleted => some .deleted
  | _ => none

inductive TwoPathStatus where
  | renamed | copied

def TwoPathStatus.letter : TwoPathStatus → Char
  | .renamed => 'R'
  | .copied => 'C'

def TwoPathStatus.changeType : TwoPathStatus → ChangeType
  | .renamed => .renamed
  | .copied => .copied

variable {nfc : String → String}

inductive StatusRecord (nfc : String → String) where
  | single (status : SinglePathStatus) (score : Score) (path : GitPath nfc)
  | two (status : TwoPathStatus) (score : Score) (oldPath path : GitPath nfc)

namespace StatusRecord

def fields : StatusRecord nfc → List (List Char)
  | .single status score path => [status.letter :: score.text, path.raw]
  | .two status score oldPath path => [status.letter :: score.text, oldPath.raw, path.raw]

/-- The entry of the result for a record with status `A`, `M`, `D`, `R` or `C`. -/
def change : StatusRecord nfc → Option ChangedFile
  | .single status _ path => status.changeType.map fun changeType => { path := path.canonical, changeType }
  | .two status _ oldPath path =>
    some { path := path.canonical, changeType := status.changeType, oldPath := some oldPath.canonical }

end StatusRecord

variable (records : List (StatusRecord nfc)) (path : GitPath nfc)

def diffOutput : String :=
  String.ofList ((records.flatMap StatusRecord.fields).flatMap fun field => field ++ ['\x00'])

theorem GitPath.raw_ne_nil : path.raw ≠ [] := by
  intro empty
  have accepted := path.accepted
  rw [empty] at accepted
  cases accepted

theorem StatusRecord.field_plain {record : StatusRecord nfc}
    {field : List Char} (mem : field ∈ record.fields) : field ≠ [] ∧ '\x00' ∉ field := by
  have status {letter : Char} (score : Score) (visible : letter ≠ '\x00') :
    letter :: score.text ≠ [] ∧ '\x00' ∉ letter :: score.text :=
    ⟨cons_ne_nil _ _, not_mem_cons_of_ne_of_not_mem visible.symm score.noNul⟩
  cases record with
  | single letter score path =>
    simp only [fields, mem_cons, not_mem_nil, or_false] at mem
    rcases mem with rfl | rfl
    · exact status score (by cases letter <;> decide)
    · exact ⟨path.raw_ne_nil, path.noNul⟩
  | two letter score oldPath path =>
    simp only [fields, mem_cons, not_mem_nil, or_false] at mem
    rcases mem with rfl | rfl | rfl
    · exact status score (by cases letter <;> decide)
    · exact ⟨oldPath.raw_ne_nil, oldPath.noNul⟩
    · exact ⟨path.raw_ne_nil, path.noNul⟩

theorem splitOn_terminated {separator : Char}
    {fields : List (List Char)} (plain : ∀ field ∈ fields, separator ∉ field) :
    (fields.flatMap fun field => field ++ [separator]).splitOn separator = fields ++ [[]] := by
  induction fields with
  | nil => simp
  | cons field rest ih =>
    rw [flatMap_cons, append_assoc, splitOn_append_of_not_mem (plain field mem_cons_self),
      singleton_append, splitOn_cons_eq_if_modifyHead, if_pos (beq_self_eq_true separator),
      ih fun other mem => plain other (.tail _ mem)]
    simp

theorem parts_diffOutput : ((diffOutput records).toList.splitOn '\x00').filter (· ≠ []) =
    records.flatMap StatusRecord.fields := by
  have plain : ∀ field ∈ records.flatMap StatusRecord.fields, field ≠ [] ∧ '\x00' ∉ field := by
    intro field mem
    obtain ⟨record, _, inside⟩ := mem_flatMap.mp mem
    exact record.field_plain inside
  rw [diffOutput, String.toList_ofList, splitOn_terminated fun field mem => (plain field mem).2,
    filter_append, filter_eq_self.mpr fun field mem => decide_eq_true (plain field mem).1]
  simp

theorem GitPath.canonicalGitDiffPath_eq :
    canonicalGitDiffPath nfc path.raw = .ok path.canonical := by
  rw [canonicalGitDiffPath, path.accepted]
  rfl

theorem parseParts_fields (record : StatusRecord nfc) (rest : Parts) :
    parseParts nfc (record.fields ++ rest) =
      (parseParts nfc rest).map (record.change.toList ++ ·) := by
  cases record with
  | single status score path =>
    have read : readRecord nfc (status.letter :: score.text) (path.raw :: rest) =
      .ok ((StatusRecord.single status score path).change, rest) := by
      have canonical := path.canonicalGitDiffPath_eq
      cases status <;>
        simp [readRecord, SinglePathStatus.letter, SinglePathStatus.changeType, StatusRecord.change,
          oneChanged, consume, canonical, bind, Except.bind]
    exact parseParts_cons nfc read
  | two status score oldPath path =>
    have read : readRecord nfc (status.letter :: score.text) (oldPath.raw :: path.raw :: rest) =
      .ok ((StatusRecord.two status score oldPath path).change, rest) := by
      have old := oldPath.canonicalGitDiffPath_eq
      have canonical := path.canonicalGitDiffPath_eq
      cases status <;>
        simp [readRecord, TwoPathStatus.letter, TwoPathStatus.changeType, StatusRecord.change,
          moved, consume, old, canonical, bind, Except.bind]
    exact parseParts_cons nfc read

theorem parseNameStatusZ_diffOutput :
    parseNameStatusZ nfc (diffOutput records) = .ok (records.filterMap StatusRecord.change) := by
  rw [parseNameStatusZ, parts_diffOutput]
  induction records with
  | nil => rw [flatMap_nil, parseParts]; rfl
  | cons record rest ih =>
    rw [flatMap_cons, parseParts_fields, ih, filterMap_cons]
    cases record.change with
    | none => rfl
    | some change => rfl

def Mentions (changes : List ChangedFile) (path : String) : Prop :=
  ∃ change ∈ changes, change.path = path ∨ change.oldPath = some path

/-- The changes are those of the records, type changes included. -/
structure FollowsGit (records : List (StatusRecord nfc)) (changes : List ChangedFile) : Prop where
  listed : changes = records.filterMap StatusRecord.change
  typeChanges : ∀ score path, .single .typeChanged score path ∈ records → Mentions changes path.canonical

def NamedByEdit : Prop := ∃ record ∈ records, match record with
    | .single status _ other => status ∈ [.added, .modified, .deleted] ∧ other.canonical = path.canonical
    | .two _ _ oldPath other => other.canonical = path.canonical ∨ oldPath.canonical = path.canonical

theorem mentions_filterMap_iff {records : List (StatusRecord nfc)} {path : GitPath nfc} :
    Mentions (records.filterMap StatusRecord.change) path.canonical ↔ NamedByEdit records path := by
  constructor
  · rintro ⟨change, listed, named⟩
    obtain ⟨record, mem, made⟩ := mem_filterMap.mp listed
    refine ⟨record, mem, ?_⟩
    cases record with
    | single status score other =>
      obtain ⟨changeType, known, rfl⟩ := Option.map_eq_some_iff.mp made
      refine ⟨?_, named.resolve_right nofun⟩
      cases status <;> first | decide | cases known
    | two status score oldPath other =>
      obtain rfl := Option.some.inj made
      exact named.imp_right Option.some.inj
  · rintro ⟨record, mem, named⟩
    cases record with
    | single status score other =>
      obtain ⟨known, same⟩ := named
      obtain ⟨changeType, shown⟩ : ∃ changeType, status.changeType = some changeType := by
        cases status <;> first | exact ⟨_, rfl⟩ | simp at known
      refine ⟨{ path := other.canonical, changeType }, mem_filterMap.mpr ⟨_, mem, ?_⟩, .inl same⟩
      rw [StatusRecord.change, shown, Option.map_some]
    | two status score oldPath other => exact ⟨_, mem_filterMap.mpr ⟨_, mem, rfl⟩, named.imp_right (congrArg some)⟩

/-- The reader never fails on what git writes, and follows git exactly when every path whose type
changed is also reported with an edit. -/
theorem parseNameStatusZ_followsGit_iff (records : List (StatusRecord nfc)) : (∃ changes,
    parseNameStatusZ nfc (diffOutput records) = .ok changes ∧ FollowsGit records changes) ↔
      ∀ score path, .single .typeChanged score path ∈ records → NamedByEdit records path := by
  rw [parseNameStatusZ_diffOutput]
  constructor
  · rintro ⟨changes, read, follows⟩ score path mem
    obtain rfl := Except.ok.inj read
    exact mentions_filterMap_iff.mp (follows.typeChanges score path mem)
  · intro named
    refine ⟨_, rfl, rfl, fun score path mem => ?_⟩
    exact mentions_filterMap_iff.mpr (named score path mem)

def linkPath : GitPath id where
  raw := "link".toList
  canonical := "link"
  noNul := by decide
  accepted := by decide

def typeChange : StatusRecord id := .single .typeChanged ⟨[], by simp⟩ linkPath

theorem parseNameStatusZ_drops_type_change :
    ¬ ∃ changes, parseNameStatusZ id (diffOutput [typeChange]) = .ok changes ∧
      FollowsGit [typeChange] changes := by
  rintro ⟨changes, read, follows⟩
  rw [parseNameStatusZ_diffOutput] at read
  obtain rfl := Except.ok.inj read
  obtain ⟨change, listed, _⟩ := follows.typeChanges ⟨[], by simp⟩ linkPath (.head _)
  cases listed

end Atlas.Repo
