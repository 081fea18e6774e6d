import Mathlib.Algebra.Order.Ring.Int
import Mathlib.Data.List.Nodup

/-! The walk of a content search under its limit. The searcher is an external crate: a file
is the calls that its lines mean for the sink, and how far the searcher gets with them. -/
namespace Atlas.Mcp
open List

structure SinkCall where
  line : Nat
  text : String
  /-- Absent for a matching line. -/
  kind : Option String

/-- How the search of a file ends that the sink does not stop: behind the last line, at a NUL byte
(`BinaryDetection::quit`), or with an error of the file system. -/
inductive SearchEnd where
  | whole
  | quits (after : Nat)
  | fails (after : Nat)

structure EligibleFile where
  relPath : String
  calls : List SinkCall
  ends : SearchEnd

structure ContentMatch where
  file : String
  line : Nat
  text : String
  kind : Option String
  deriving DecidableEq

/-- The calls that the searcher makes if the sink takes them all. -/
def EligibleFile.delivered (file : EligibleFile) : List SinkCall :=
  match file.ends with
  | .whole => file.calls
  | .quits after | .fails after => file.calls.take after

def EligibleFile.isFailing (file : EligibleFile) : Bool :=
  match file.ends with
  | .fails _ => true
  | _ => false

/-- The sink takes the lines until it answers that it wants no more. -/
def collectHits (max : Nat) : List SinkCall → List SinkCall → List SinkCall
  | out, [] => out
  | out, call :: rest =>
    if max ≤ out.length then out
    else if out.length + 1 < max then collectHits max (out ++ [call]) rest
    else out ++ [call]

def contentMatch (relPath : String) (call : SinkCall) : ContentMatch :=
  ⟨relPath, call.line, call.text, call.kind⟩

/-- A search that fails before the sink has enough loses what the sink has taken. -/
def searchFile (max : Nat) (file : EligibleFile) : Option (List ContentMatch) :=
  let hits := collectHits max [] file.delivered
  if file.isFailing ∧ hits.length < max then none else some (hits.map (contentMatch file.relPath))

/-- The hits of a file, pushed until the limit is met. -/
def pushHits (maxResults : Nat) :
    List ContentMatch → List ContentMatch → List ContentMatch × Bool
  | shown, [] => (shown, false)
  | shown, hit :: rest =>
    if maxResults ≤ shown.length then (shown, true)
    else pushHits maxResults (shown ++ [hit]) rest

def walkFiles (maxResults : Nat) :
    List ContentMatch → List EligibleFile → List ContentMatch × Bool
  | shown, [] => (shown, false)
  | shown, file :: rest =>
    let remaining := maxResults - shown.length
    if remaining = 0 then (shown, true)
    else
      match searchFile remaining file with
      | none => walkFiles maxResults shown rest
      | some hits =>
        let wouldOverflow := decide (maxResults < shown.length + hits.length)
        let (pushed, full) := pushHits maxResults shown hits
        if full || wouldOverflow then (pushed, true) else walkFiles maxResults pushed rest

/-- The matches and whether they are reported as cut. -/
def searchContent (maxResults : Nat) (files : List EligibleFile) : List ContentMatch × Bool :=
  walkFiles maxResults [] files

/-- Every matching line, and the lines around it that are asked for, read or not. -/
def EligibleFile.matches (file : EligibleFile) : List ContentMatch :=
  file.calls.map (contentMatch file.relPath)

def CutIsReported (maxResults : Nat) (files : List EligibleFile) : Prop :=
  (searchContent maxResults files).2 = false →
    (∀ file ∈ files, ∀ hit ∈ file.matches, hit.kind = none →
      hit ∈ (searchContent maxResults files).1) ∧
    (searchContent maxResults files).1.length ≤ maxResults

/-- How many of its calls a file shows where there is room for so many. -/
def EligibleFile.seen (file : EligibleFile) (room : Nat) : Nat :=
  if file.isFailing ∧ file.delivered.length < room then 0 else min room file.delivered.length

/-- No file delivers as many calls as the readable ones before it leave room for. -/
def LeavesRoom : Nat → List EligibleFile → Prop
  | room, [] => 0 < room
  | room, file :: rest => file.delivered.length < room ∧ LeavesRoom (room - file.seen room) rest

/-- All that a file shows where there is room enough. -/
def EligibleFile.reads (file : EligibleFile) : List ContentMatch :=
  file.matches.take (file.seen (file.delivered.length + 1))

/-- Where the files before the last one leave room, they have no matching line that is not read,
and the last one has none behind the calls that fill the room. -/
def NothingIsLost (maxResults : Nat) (files : List EligibleFile) : Prop :=
  ∀ earlier last, files = earlier ++ [last] → LeavesRoom maxResults earlier →
    (∀ file ∈ earlier, ∀ hit ∈ file.matches.drop (file.seen (file.delivered.length + 1)),
      hit.kind ≠ none) ∧
    ∀ hit ∈ last.matches.drop (last.seen (maxResults - (earlier.flatMap EligibleFile.reads).length)),
      hit.kind ≠ none

section
variable {maxResults room : Nat}
  {shown : List ContentMatch} {files earlier rest : List EligibleFile}
  {file last : EligibleFile}

theorem EligibleFile.delivered_prefix (file : EligibleFile) :
    file.delivered = file.calls.take file.delivered.length := by
  unfold delivered
  cases file.ends with
  | whole => exact take_length.symm
  | quits after | fails after =>
    change file.calls.take after = file.calls.take (file.calls.take after).length
    rw [length_take]
    rcases Nat.le_total after file.calls.length with short | long
    · rw [Nat.min_eq_left short]
    · rw [Nat.min_eq_right long, take_length, take_of_length_le long]

theorem EligibleFile.seen_le (file : EligibleFile) (room : Nat) : file.seen room ≤ room := by
  unfold seen
  split
  · exact Nat.zero_le _
  · exact Nat.min_le_left _ _

theorem EligibleFile.seen_of_room (fits : file.delivered.length < room) :
    file.seen room = file.seen (file.delivered.length + 1) := by
  unfold seen
  rw [Nat.min_eq_right fits.le, Nat.min_eq_right (Nat.le_succ _)]
  simp [fits]

theorem EligibleFile.length_take_seen (file : EligibleFile) (room : Nat) :
    (file.matches.take (file.seen room)).length = file.seen room := by
  have within := congrArg length file.delivered_prefix
  rw [length_take] at within
  rw [length_take, EligibleFile.matches, length_map]
  unfold seen
  split <;> omega

theorem collectHits_eq {max : Nat} (calls out : List SinkCall) (room : out.length < max) :
    collectHits max out calls = (out ++ calls).take max := by
  induction calls generalizing out with
  | nil => rw [collectHits, append_nil, take_of_length_le (by omega)]
  | cons call rest ih =>
    have whole : out ++ call :: rest = (out ++ [call]) ++ rest := by simp
    rw [collectHits, if_neg (by omega), whole]
    by_cases more : out.length + 1 < max
    · rw [if_pos more, ih _ (by simpa using more)]
    · rw [if_neg more, take_left' (by rw [length_append, length_singleton]; omega)]

theorem pushHits_eq (hits shown : List ContentMatch)
    (room : shown.length + hits.length ≤ maxResults) :
    pushHits maxResults shown hits = (shown ++ hits, false) := by
  induction hits generalizing shown with
  | nil => rw [pushHits, append_nil]
  | cons hit rest ih =>
    rw [length_cons] at room
    rw [pushHits, if_neg (by omega), ih _ (by rw [length_append, length_singleton]; omega),
      append_assoc]
    rfl

theorem searchFile_getD (positive : 0 < room) :
    (searchFile room file).getD [] = file.matches.take (file.seen room) := by
  have hits : collectHits room [] file.delivered = file.delivered.take room :=
    collectHits_eq file.delivered [] positive
  have spread : (file.delivered.take room).map (contentMatch file.relPath) =
      file.matches.take (min room file.delivered.length) := by
    rw [EligibleFile.matches, map_take]
    conv_lhs => rw [file.delivered_prefix]
    rw [map_take, take_take]
  have short : (file.delivered.take room).length < room ↔ file.delivered.length < room := by
    rw [length_take]
    omega
  unfold searchFile EligibleFile.seen
  rw [hits]
  simp only [short]
  by_cases fails : file.isFailing ∧ file.delivered.length < room
  · rw [if_pos fails, if_pos fails, take_zero]
    rfl
  · rw [if_neg fails, if_neg fails, spread]
    rfl

/-- A file adds its first hits, as many as there is room for. -/
theorem walkFiles_cons (file : EligibleFile) (rest : List EligibleFile)
    (room : shown.length < maxResults) :
    walkFiles maxResults shown (file :: rest) =
      walkFiles maxResults (shown ++ file.matches.take (file.seen (maxResults - shown.length)))
        rest := by
  have hits := @searchFile_getD (maxResults - shown.length) file (by omega)
  rw [walkFiles, if_neg (by omega)]
  cases found : searchFile (maxResults - shown.length) file with
  | none =>
    rw [found] at hits
    rw [← hits]
    simp
  | some pushed =>
    rw [found, Option.getD_some] at hits
    have small : shown.length + pushed.length ≤ maxResults := by
      rw [hits, file.length_take_seen]
      have least := file.seen_le (maxResults - shown.length)
      omega
    rw [← hits]
    simp only [pushHits_eq _ _ small, Bool.false_or, decide_eq_false (not_lt.mpr small),
      Bool.false_eq_true, if_false]

/-- Files that leave room show all that is read of them. -/
theorem walkFiles_of_leavesRoom (leaves : LeavesRoom (maxResults - shown.length) earlier) :
    walkFiles maxResults shown (earlier ++ rest) =
        walkFiles maxResults (shown ++ earlier.flatMap EligibleFile.reads) rest ∧
      shown.length + (earlier.flatMap EligibleFile.reads).length < maxResults := by
  induction earlier generalizing shown with
  | nil =>
    have room : 0 < maxResults - shown.length := leaves
    exact ⟨by simp, by simpa using Nat.lt_of_sub_pos room⟩
  | cons file others ih =>
    obtain ⟨fits, leaves⟩ := leaves
    have size := file.length_take_seen (maxResults - shown.length)
    have added : maxResults - shown.length - file.seen (maxResults - shown.length) =
        maxResults - (shown ++ file.matches.take (file.seen (maxResults - shown.length))).length := by
      rw [length_append, size]
      omega
    rw [added] at leaves
    obtain ⟨onward, small⟩ := ih leaves
    rw [EligibleFile.seen_of_room fits] at onward small
    have reads : file.matches.take (file.seen (file.delivered.length + 1)) = file.reads := rfl
    rw [reads] at onward small
    rw [cons_append, walkFiles_cons file _ (by omega), EligibleFile.seen_of_room fits, reads, onward,
      flatMap_cons, append_assoc]
    refine ⟨rfl, ?_⟩
    rw [length_append] at small ⊢
    omega

/-- Otherwise the limit is met before the rest, and the head of the loop says so. -/
theorem walkFiles_of_not_leavesRoom (within : shown.length ≤ maxResults) (more : rest ≠ [])
    (fills : ¬ LeavesRoom (maxResults - shown.length) earlier) :
    (walkFiles maxResults shown (earlier ++ rest)).2 = true := by
  have full : ∀ {files : List EligibleFile} {shown : List ContentMatch}, files ≠ [] →
      maxResults ≤ shown.length → (walkFiles maxResults shown files).2 = true := by
    intro files shown filled full
    cases files with
    | nil => exact absurd rfl filled
    | cons file rest => rw [walkFiles, if_pos (by omega)]
  induction earlier generalizing shown with
  | nil => exact full more (Nat.le_of_sub_eq_zero (Nat.eq_zero_of_not_pos fills))
  | cons file others ih =>
    by_cases room : shown.length < maxResults
    · have size := file.length_take_seen (maxResults - shown.length)
      have least := file.seen_le (maxResults - shown.length)
      rw [cons_append, walkFiles_cons file _ room]
      by_cases fits : file.delivered.length < maxResults - shown.length
      · refine ih (by rw [length_append]; omega) fun leaves => fills ⟨fits, ?_⟩
        rw [length_append, size] at leaves
        rwa [show maxResults - (shown.length + file.seen (maxResults - shown.length)) =
          maxResults - shown.length - file.seen (maxResults - shown.length) by omega] at leaves
      · refine full (by simp [more]) ?_
        have all : file.seen (maxResults - shown.length) = maxResults - shown.length := by
          rw [EligibleFile.seen, if_neg (by omega), Nat.min_eq_left (by omega)]
        rw [length_append, size, all]
        omega
    · exact full (by simp) (not_lt.mp room)

/-- What a search shows that ends in the last file without a report. -/
theorem searchContent_snoc (leaves : LeavesRoom maxResults earlier) (last : EligibleFile) :
    searchContent maxResults (earlier ++ [last]) =
        (earlier.flatMap EligibleFile.reads ++ last.matches.take
          (last.seen (maxResults - (earlier.flatMap EligibleFile.reads).length)), false) ∧
      (searchContent maxResults (earlier ++ [last])).1.length ≤ maxResults := by
  obtain ⟨walked, room⟩ := @walkFiles_of_leavesRoom maxResults [] earlier [last] leaves
  rw [length_nil, Nat.zero_add] at room
  have shown : searchContent maxResults (earlier ++ [last]) = _ := walked
  rw [nil_append, walkFiles_cons last [] room, walkFiles] at shown
  refine ⟨shown, ?_⟩
  rw [shown]
  have least := last.seen_le (maxResults - (earlier.flatMap EligibleFile.reads).length)
  rw [length_append, last.length_take_seen]
  omega

/-- A line that is not among the first ones of its file is not shown. -/
theorem not_mem_shown {hit : ContentMatch} {count : Nat} {part : EligibleFile → List ContentMatch}
    (nodup : (files.map EligibleFile.relPath).Nodup)
    (ordered : (file.matches.map ContentMatch.line).Pairwise (· < ·))
    (parts : ∀ other ∈ files, part other ⊆ other.matches) (mem : file ∈ files)
    (own : part file = file.matches.take count) (dropped : hit ∈ file.matches.drop count) :
    hit ∉ files.flatMap part := by
  intro shown
  have named : ∀ {other : EligibleFile} {match' : ContentMatch}, match' ∈ other.matches →
      match'.file = other.relPath := by
    intro other match' mem
    obtain ⟨call, _, rfl⟩ := mem_map.mp mem
    rfl
  obtain ⟨other, otherMem, inPart⟩ := mem_flatMap.mp shown
  have same : other = file := inj_on_of_nodup_map nodup otherMem mem
    ((named (parts other otherMem inPart)).symm.trans (named (mem_of_mem_drop dropped)))
  subst same
  rw [own] at inPart
  have split := pairwise_map.mp ordered
  rw [← take_append_drop count other.matches] at split
  exact Nat.lt_irrefl _ ((pairwise_append.mp split).2.2 hit inPart hit dropped)

end

theorem cutIsReported_iff {maxResults : Nat} {files : List EligibleFile}
    (nodup : (files.map EligibleFile.relPath).Nodup)
    (ordered : ∀ file ∈ files, (file.matches.map ContentMatch.line).Pairwise (· < ·)) :
    CutIsReported maxResults files ↔ NothingIsLost maxResults files := by
  obtain rfl | ⟨earlier, last, rfl⟩ := eq_nil_or_concat files
  · refine iff_of_true (fun _ => ⟨nofun, Nat.zero_le _⟩) fun earlier last whole => ?_
    cases earlier <;> cases whole
  rw [concat_eq_append] at nodup ordered ⊢
  by_cases leaves : LeavesRoom maxResults earlier
  · obtain ⟨shown, small⟩ := searchContent_snoc leaves last
    let part (file : EligibleFile) : List ContentMatch :=
      if file.relPath = last.relPath then file.matches.take
        (file.seen (maxResults - (earlier.flatMap EligibleFile.reads).length))
      else file.reads
    have apart : ∀ file ∈ earlier, file.relPath ≠ last.relPath := by
      intro file mem
      rw [map_append] at nodup
      exact (nodup_append.mp nodup).2.2 file.relPath (mem_map_of_mem mem) last.relPath (.head _)
    have early : ∀ file ∈ earlier, part file = file.reads := fun file mem => if_neg (apart file mem)
    have late : part last = last.matches.take
        (last.seen (maxResults - (earlier.flatMap EligibleFile.reads).length)) := if_pos rfl
    have whole : (searchContent maxResults (earlier ++ [last])).1 =
        (earlier ++ [last]).flatMap part := by
      rw [shown, flatMap_append, flatMap_singleton, late, flatMap_congr early]
    have parts : ∀ other ∈ earlier ++ [last], part other ⊆ other.matches := by
      intro other _
      change (if _ then _ else _) ⊆ other.matches
      split
      · exact take_subset _ _
      · exact take_subset _ _
    rw [CutIsReported, whole]
    constructor
    · intro reported front final split _
      obtain ⟨rfl, same⟩ := append_inj' split rfl
      cases same
      have all := (reported (congrArg Prod.snd shown)).1
      constructor
      · intro file mem hit dropped plain
        have inFiles := mem_append_left [last] mem
        exact not_mem_shown nodup (ordered file inFiles) parts inFiles (early file mem) dropped
          (all file inFiles hit (mem_of_mem_drop dropped) plain)
      · intro hit dropped plain
        have inFiles : last ∈ earlier ++ [last] := mem_append_right _ (.head _)
        exact not_mem_shown nodup (ordered last inFiles) parts inFiles late dropped
          (all last inFiles hit (mem_of_mem_drop dropped) plain)
    · intro nothing _
      obtain ⟨before, behind⟩ := nothing earlier last rfl leaves
      refine ⟨fun file mem hit ofFile plain => mem_flatMap.mpr ⟨file, mem, ?_⟩, whole ▸ small⟩
      rcases mem_append.mp mem with isEarlier | isLast
      · rw [early file isEarlier]
        rw [← take_append_drop (file.seen (file.delivered.length + 1)) file.matches] at ofFile
        exact (mem_append.mp ofFile).resolve_right fun lost => before file isEarlier hit lost plain
      · rw [mem_singleton.mp isLast] at ofFile ⊢
        rw [late]
        rw [← take_append_drop (last.seen _) last.matches] at ofFile
        exact (mem_append.mp ofFile).resolve_right fun lost => behind hit lost plain
  · constructor
    · intro _ front final split room
      obtain ⟨rfl, -⟩ := append_inj' split rfl
      exact absurd room leaves
    · intro _ silent
      have reported : (searchContent maxResults (earlier ++ [last])).2 = true :=
        walkFiles_of_not_leavesRoom (Nat.zero_le _) (cons_ne_nil last []) leaves
      rw [reported] at silent
      cases silent

def twoLines : EligibleFile := ⟨"notes.txt", [⟨1, "todo", none⟩, ⟨2, "todo", none⟩], .whole⟩

theorem cutIsReported_iff_twoLines : CutIsReported 2 [twoLines] ↔ NothingIsLost 2 [twoLines] :=
  cutIsReported_iff (by decide) (by
    intro file mem
    rw [mem_singleton.mp mem]
    decide)

/-- The second line of the only file is cut, and the answer says that nothing was. -/
theorem twoLines_cutSilently : ¬ CutIsReported 1 [twoLines] := by
  intro reported
  have shown := (reported rfl).1 twoLines (.head _) ⟨"notes.txt", 2, "todo", none⟩ (by decide) rfl
  exact absurd shown (by decide)

end Atlas.Mcp
