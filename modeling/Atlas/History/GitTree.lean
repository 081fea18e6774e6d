import Atlas.History.Update
import Atlas.Text.Lines
import Atlas.Text.Trim
import Mathlib.Data.List.TakeWhile

/-! `git ls-tree` and `git diff-tree`: the lines git prints, and how they are read. A path stands
here as git prints it, in quotes where it has control characters. Lines are trimmed before they
are cut, so a path loses the white space at its end. -/
namespace Atlas.History
open List
open Repo (isWhitespace splitWhitespace splitWhitespace_solid splitWhitespace_word trim)
open Text (lines lines_flatMap splitn splitn_append splitn_of_not_mem strip stripCr stripEnd)

/-- What git prints for these commands, or the message of one that fails. -/
structure TreeCommands where
  lsTree : String → Except String (List Char)
  lsTreePaths : String → List String → Except String (List Char)
  diffTree : String → String → Except String (List Char)

/-- Nothing tells the other types apart. -/
def objectTypeOf (word : List Char) : ObjectType :=
  if word = "blob".toList then .blob
  else if word = "commit".toList then .commit
  else .tree

def parseEntry (line : List Char) : Except String TreeEntry :=
  match splitn 2 '\t' line with
  | [columns, path] =>
    match splitWhitespace columns with
    | _ :: objectType :: objectHash :: _ =>
        .ok ⟨objectTypeOf objectType, String.ofList objectHash, String.ofList path⟩
    | _ => .error ("malformed ls-tree meta: " ++ String.ofList columns)
  | _ => .error ("malformed ls-tree line: " ++ String.ofList line)

def trimmedLines (raw : List Char) : List (List Char) := ((lines raw).map trim).filter (· ≠ [])

def parseLsTree (raw : List Char) : Except String (List TreeEntry) :=
  (trimmedLines raw).mapM parseEntry

def statusOf : Char → ChangeStatus
  | 'A' => .added
  | 'M' => .modified
  | 'D' => .deleted
  | 'R' => .renamed
  | 'C' => .copied
  | 'T' => .typeChanged
  | _ => .other

def parseChange (line : List Char) : TreeChange :=
  let cols := splitn 3 '\t' line
  let oldPath := cols.getD 1 []
  { oldPath := String.ofList oldPath
    newPath := String.ofList (cols.getD 2 oldPath)
    status := statusOf ((cols.getD 0 []).headD '?') }

def parseDiffTree (raw : List Char) : List TreeChange := (trimmedLines raw).map parseChange

def TreeCommands.git (commands : TreeCommands) (others : Git) : Git :=
  { others with
    lsTree := fun commitSha => do
      validateSha commitSha
      parseLsTree (← commands.lsTree commitSha)
    lsTreePaths := fun commitSha paths => do
      validateSha commitSha
      if paths = [] then return []
      parseLsTree (← commands.lsTreePaths commitSha paths)
    diffTreeFiles := fun commitSha parentSha => do
      validateSha commitSha
      validateSha parentSha
      return parseDiffTree (← commands.diffTree commitSha parentSha) }

/-! ## What git prints -/

structure Column where
  text : List Char
  filled : text ≠ []
  solid : ∀ c ∈ text, isWhitespace c = false

theorem solid_of_all {text : List Char} (all : (text.all fun c => !isWhitespace c) = true) :
    ∀ c ∈ text, isWhitespace c = false := by
  simpa using all

structure PrintedPath where
  text : List Char
  noTab : '\t' ∉ text
  noNewline : '\n' ∉ text

/-- The path as it is read from the end of a line. -/
def PrintedPath.name (path : PrintedPath) : String :=
  String.ofList (stripEnd isWhitespace path.text)

def PrintedPath.Visible (path : PrintedPath) : Prop := ∃ c ∈ path.text, isWhitespace c = false

structure TrackedEntry where
  (mode objectHash : Column)
  objectType : ObjectType
  path : PrintedPath

def ObjectType.column : ObjectType → Column
  | .blob => ⟨"blob".toList, by decide, solid_of_all rfl⟩
  | .commit => ⟨"commit".toList, by decide, solid_of_all rfl⟩
  | .tree => ⟨"tree".toList, by decide, solid_of_all rfl⟩

def TrackedEntry.columns (entry : TrackedEntry) : List Char :=
  entry.mode.text ++ ' ' :: (entry.objectType.column.text ++ ' ' :: entry.objectHash.text)

def TrackedEntry.print (entry : TrackedEntry) : List Char :=
  entry.columns ++ '\t' :: entry.path.text

def TrackedEntry.read (entry : TrackedEntry) : TreeEntry where
  objectType := entry.objectType
  objectHash := String.ofList entry.objectHash.text
  filePath := entry.path.name

def printTree (tree : List TrackedEntry) : List Char :=
  tree.flatMap fun entry => entry.print ++ ['\n']

def ChangeStatus.letter : ChangeStatus → Char
  | .added => 'A'
  | .modified => 'M'
  | .deleted => 'D'
  | .renamed => 'R'
  | .copied => 'C'
  | .typeChanged => 'T'
  | .other => 'X'

/-- A rename and a copy have a score and a second path. -/
inductive DiffLine where
  | one (status : ChangeStatus) (path : PrintedPath)
  | two (status : ChangeStatus) (score : Column) (oldPath newPath : PrintedPath)

def DiffLine.status : DiffLine → ChangeStatus
  | .one status _ | .two status _ _ _ => status

def DiffLine.newPath : DiffLine → PrintedPath
  | .one _ path | .two _ _ _ path => path

def DiffLine.print : DiffLine → List Char
  | .one status path => status.letter :: '\t' :: path.text
  | .two status score oldPath newPath =>
      status.letter :: (score.text ++ '\t' :: (oldPath.text ++ '\t' :: newPath.text))

/-- Only the last column is trimmed. -/
def DiffLine.read : DiffLine → TreeChange
  | .one status path => ⟨path.name, path.name, status⟩
  | .two status _ oldPath newPath => ⟨String.ofList oldPath.text, newPath.name, status⟩

def printDiff (changes : List DiffLine) : List Char :=
  changes.flatMap fun change => change.print ++ ['\n']

/-! ## Trimmed lines -/

variable {front text : List Char} {path : PrintedPath}

theorem trim_stripCr (text : List Char) : trim (stripCr text) = trim text := by
  unfold stripCr
  split
  · next returns =>
    obtain ⟨init, rfl⟩ := getLast?_eq_some_iff.mp returns
    have white : ∀ c ∈ ['\r'], isWhitespace c = true := by simp [isWhitespace]
    rw [dropLast_concat]
    change strip isWhitespace init = strip isWhitespace (init ++ ['\r'])
    by_cases blank : ∀ c ∈ init, isWhitespace c = true
    · rw [Text.strip_eq_nil_iff.mpr blank,
        Text.strip_eq_nil_iff.mpr (forall_mem_append.mpr ⟨blank, white⟩)]
    · obtain ⟨c, inside, solid⟩ := not_forall₂.mp blank
      have kept : (init ++ ['\r']).dropWhile isWhitespace =
          init.dropWhile isWhitespace ++ ['\r'] := by
        rw [dropWhile_append, if_neg]
        intro empty
        exact solid (dropWhile_eq_nil_iff.mp (isEmpty_iff.mp empty) c inside)
      unfold strip
      rw [kept, Text.stripEnd_append_of_all white]
  · rfl

theorem trim_of_front (solid : ∀ c ∈ text.head?, isWhitespace c = false) :
    trim text = stripEnd isWhitespace text := by
  change strip isWhitespace text = _
  unfold strip
  rw [Text.dropWhile_of_front solid]

theorem stripEnd_append_visible (visible : ∃ c ∈ text, isWhitespace c = false) :
    stripEnd isWhitespace (front ++ text) = front ++ stripEnd isWhitespace text := by
  obtain ⟨c, inside, solid⟩ := visible
  unfold stripEnd
  rw [reverse_append, dropWhile_append, if_neg, reverse_append, reverse_reverse]
  intro empty
  have white := dropWhile_eq_nil_iff.mp (isEmpty_iff.mp empty) c (mem_reverse.mpr inside)
  rw [solid] at white
  cases white

theorem trim_visible (solid : ∀ c ∈ front.head?, isWhitespace c = false) (filled : front ≠ [])
    (visible : path.Visible) : trim (front ++ path.text) = front ++ path.name.toList := by
  have first : ∀ c ∈ (front ++ path.text).head?, isWhitespace c = false := by
    rwa [head?_append_of_ne_nil _ filled]
  rw [trim_of_front first, stripEnd_append_visible visible, PrintedPath.name,
    String.toList_ofList]

theorem PrintedPath.blank_of_hidden (hidden : ¬ path.Visible) :
    ∀ c ∈ path.text, isWhitespace c = true := by
  intro c inside
  by_contra solid
  exact hidden ⟨c, inside, (Bool.not_eq_true _).mp solid⟩

theorem trim_hidden (tight : Text.Tight isWhitespace front) (hidden : ¬ path.Visible) :
    trim (front ++ '\t' :: path.text) = front := by
  have blank : ∀ c ∈ '\t' :: path.text, isWhitespace c = true :=
    forall_mem_cons.mpr ⟨rfl, PrintedPath.blank_of_hidden hidden⟩
  exact @Text.strip_pad _ _ _ [] _ tight nofun blank

theorem name_hidden (hidden : ¬ path.Visible) : path.name = "" := by
  have gone := @Text.stripEnd_append_of_all _ isWhitespace [] path.text
    (PrintedPath.blank_of_hidden hidden)
  rw [nil_append] at gone
  rw [PrintedPath.name, gone]
  rfl

theorem Column.noTab (column : Column) : '\t' ∉ column.text := fun inside =>
  absurd (column.solid _ inside) (by decide)

theorem Column.noNewline (column : Column) : '\n' ∉ column.text := fun inside =>
  absurd (column.solid _ inside) (by decide)

theorem PrintedPath.name_noTab (path : PrintedPath) : '\t' ∉ path.name.toList := by
  obtain ⟨behind, whole, _⟩ := Text.exists_stripEnd isWhitespace path.text
  rw [name, String.toList_ofList]
  exact fun inside => path.noTab (whole ▸ mem_append_left _ inside)

/-! ## Reading the lines back -/

variable {entry : TrackedEntry} {tree : List TrackedEntry}

theorem objectTypeOf_column (objectType : ObjectType) :
    objectTypeOf objectType.column.text = objectType := by
  cases objectType <;> rfl

theorem TrackedEntry.columns_tight (entry : TrackedEntry) :
    Text.Tight isWhitespace entry.columns where
  front c first := by
    rw [columns, head?_append_of_ne_nil _ entry.mode.filled] at first
    exact entry.mode.solid c (mem_of_mem_head? first)
  back c last := by
    have filled := entry.objectHash.filled
    rw [columns, ← cons_append, append_cons _ ' ', ← append_assoc,
      getLast?_append_of_ne_nil _ filled] at last
    exact entry.objectHash.solid c (mem_of_mem_getLast? last)

theorem TrackedEntry.splitWhitespace_columns (entry : TrackedEntry) :
    splitWhitespace entry.columns =
      [entry.mode.text, entry.objectType.column.text, entry.objectHash.text] := by
  have space : isWhitespace ' ' = true := by decide
  rw [columns, splitWhitespace_word space entry.mode.solid, if_neg entry.mode.filled,
    splitWhitespace_word space entry.objectType.column.solid, if_neg entry.objectType.column.filled,
    splitWhitespace_solid entry.objectHash.solid, if_neg entry.objectHash.filled]
  rfl

theorem TrackedEntry.columns_noTab (entry : TrackedEntry) : '\t' ∉ entry.columns := by
  simp [columns, entry.mode.noTab, entry.objectType.column.noTab, entry.objectHash.noTab]

theorem TrackedEntry.print_noNewline (entry : TrackedEntry) : '\n' ∉ entry.print := by
  simp [print, columns, entry.mode.noNewline, entry.objectType.column.noNewline,
    entry.objectHash.noNewline, entry.path.noNewline]

theorem TrackedEntry.trim_ne_nil (entry : TrackedEntry) : trim entry.print ≠ [] := by
  obtain ⟨c, rest, starts⟩ := exists_cons_of_ne_nil entry.mode.filled
  have solid := entry.mode.solid c (starts ▸ .head _)
  intro empty
  have white := Text.strip_eq_nil_iff.mp empty c (by simp [print, columns, starts])
  rw [solid] at white
  cases white

theorem parseEntry_visible (visible : entry.path.Visible) :
    parseEntry (trim entry.print) = .ok entry.read := by
  have trimmed : trim entry.print = entry.columns ++ '\t' :: entry.path.name.toList := by
    rw [TrackedEntry.print, append_cons, trim_visible _ (by simp) visible, ← append_cons]
    rw [head?_append_of_ne_nil _ (by simp [TrackedEntry.columns])]
    exact entry.columns_tight.front
  unfold parseEntry
  rw [trimmed, splitn_append entry.columns_noTab, splitn_of_not_mem entry.path.name_noTab]
  simp only [entry.splitWhitespace_columns, objectTypeOf_column]
  rw [String.ofList_toList]
  rfl

theorem parseEntry_hidden (hidden : ¬ entry.path.Visible) :
    ∃ message, parseEntry (trim entry.print) = .error message := by
  unfold parseEntry
  rw [TrackedEntry.print, trim_hidden entry.columns_tight hidden,
    splitn_of_not_mem entry.columns_noTab]
  exact ⟨_, rfl⟩

theorem trimmedLines_printTree (tree : List TrackedEntry) :
    trimmedLines (printTree tree) = tree.map fun entry => trim entry.print := by
  unfold trimmedLines printTree
  rw [lines_flatMap _ fun entry _ => entry.print_noNewline, map_map]
  simp only [Function.comp_def, trim_stripCr]
  refine filter_eq_self.mpr fun line mem => ?_
  obtain ⟨entry, _, rfl⟩ := mem_map.mp mem
  exact decide_eq_true entry.trim_ne_nil

/-- The listing of a tree is read as the entries under their names. -/
theorem parseLsTree_printTree (visible : ∀ entry ∈ tree, entry.path.Visible) :
    parseLsTree (printTree tree) = .ok (tree.map TrackedEntry.read) := by
  unfold parseLsTree
  rw [trimmedLines_printTree]
  induction tree with
  | nil => rfl
  | cons entry rest ih =>
    rw [map_cons, mapM_cons, parseEntry_visible (visible entry (.head _)),
      ih fun other mem => visible other (.tail _ mem)]
    rfl

/-- A path of blanks makes the whole listing fail. -/
theorem parseLsTree_hidden (mem : entry ∈ tree) (hidden : ¬ entry.path.Visible) :
    ∃ message, parseLsTree (printTree tree) = .error message := by
  unfold parseLsTree
  rw [trimmedLines_printTree]
  induction tree with
  | nil => cases mem
  | cons first rest ih =>
    rw [map_cons, mapM_cons]
    by_cases shown : first.path.Visible
    · obtain ⟨message, failed⟩ := ih ((mem_cons.mp mem).resolve_left fun same =>
        hidden (same ▸ shown))
      rw [parseEntry_visible shown, failed]
      exact ⟨message, rfl⟩
    · obtain ⟨message, failed⟩ := parseEntry_hidden shown
      rw [failed]
      exact ⟨message, rfl⟩

variable {change : DiffLine} {changes : List DiffLine}

theorem statusOf_letter (status : ChangeStatus) : statusOf status.letter = status := by
  cases status <;> rfl

theorem letter_solid (status : ChangeStatus) : isWhitespace status.letter = false := by
  cases status <;> decide

theorem letter_noTab (status : ChangeStatus) : '\t' ∉ [status.letter] := by
  cases status <;> decide

theorem DiffLine.print_noNewline (change : DiffLine) : '\n' ∉ change.print := by
  have letter (status : ChangeStatus) : '\n' ≠ status.letter := by cases status <;> decide
  cases change with
  | one status path => simp [print, letter, path.noNewline]
  | two status score oldPath newPath =>
    simp [print, letter, score.noNewline, oldPath.noNewline, newPath.noNewline]

theorem DiffLine.trim_ne_nil (change : DiffLine) : trim change.print ≠ [] := by
  intro empty
  have white := Text.strip_eq_nil_iff.mp empty change.status.letter (by
    cases change <;> exact .head _)
  rw [letter_solid] at white
  cases white

theorem parseChange_print
    (visible : change.newPath.Visible ∨ ∃ status path, change = .one status path) :
    parseChange (trim change.print) = change.read := by
  cases change with
  | one status path =>
    have tight : Text.Tight isWhitespace [status.letter] := by
      constructor <;> rintro c ⟨⟩ <;> exact letter_solid status
    by_cases shown : path.Visible
    · have trimmed : trim (DiffLine.one status path).print =
          [status.letter] ++ '\t' :: path.name.toList := by
        have front : ∀ c ∈ [status.letter, '\t'].head?, isWhitespace c = false := tight.front
        exact trim_visible front (cons_ne_nil _ _) shown
      unfold parseChange
      rw [trimmed, splitn_append (letter_noTab status), splitn_of_not_mem path.name_noTab]
      simp [DiffLine.read, statusOf_letter]
    · have trimmed : trim (DiffLine.one status path).print = [status.letter] :=
        trim_hidden tight shown
      unfold parseChange
      rw [trimmed, splitn_of_not_mem (letter_noTab status)]
      simp [DiffLine.read, statusOf_letter, name_hidden shown]
  | two status score oldPath newPath =>
    have shown : newPath.Visible := visible.resolve_right nofun
    have trimmed : trim (DiffLine.two status score oldPath newPath).print =
        (status.letter :: score.text) ++ '\t' :: (oldPath.text ++ '\t' :: newPath.name.toList) := by
      have whole : (DiffLine.two status score oldPath newPath).print =
          (status.letter :: score.text ++ '\t' :: (oldPath.text ++ ['\t'])) ++ newPath.text := by
        simp [DiffLine.print]
      rw [whole, trim_visible _ (by simp) shown]
      · simp
      · rintro c ⟨⟩
        exact letter_solid status
    have first : '\t' ∉ status.letter :: score.text := by
      rw [mem_cons, not_or]
      exact ⟨fun same => letter_noTab status (mem_singleton.mpr same), score.noTab⟩
    unfold parseChange
    rw [trimmed, splitn_append first, splitn_append oldPath.noTab,
      splitn_of_not_mem newPath.name_noTab]
    simp [DiffLine.read, statusOf_letter]

theorem parseDiffTree_printDiff
    (visible : ∀ change ∈ changes, change.newPath.Visible ∨ ∃ status path, change = .one status path) :
    parseDiffTree (printDiff changes) = changes.map DiffLine.read := by
  unfold parseDiffTree trimmedLines printDiff
  rw [lines_flatMap _ fun change _ => change.print_noNewline, map_map]
  simp only [Function.comp_def, trim_stripCr]
  rw [filter_eq_self.mpr, map_map]
  · exact map_congr_left fun change mem => parseChange_print (visible change mem)
  · intro line mem
    obtain ⟨change, _, rfl⟩ := mem_map.mp mem
    exact decide_eq_true change.trim_ne_nil

end Atlas.History
