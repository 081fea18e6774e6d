import Atlas.Content.ByteWindows
import Atlas.Program.MapM
import Atlas.Text.Trim

/-! What a text is cut into before chunks are subdivided, and when every chunk of it fits into
`MAX_CHUNK_BYTES`: long pieces of several lines are only ever cut after 51 lines, and a long
line makes the cut panic unless its windows end in ASCII characters. -/
namespace Atlas.Content
open List Nat
open Refactor (Text)
open Text (lines)
open Repo (trim)

def isBlankLine (line : Text) : Bool := decide (trim line = [])
def isHeading (line : Text) : Bool := (extractHeading line).isSome
def paragraphs (raw : Text) : List Text :=
  (((lines raw).splitOnP isBlankLine).filter (· ≠ [])).map join

def plainPieces (raw : Text) : List Text :=
  if paragraphs raw = [] then (windows lineWindow (lines raw)).map join else paragraphs raw

def sections (raw : Text) : List Text :=
  (((lines raw).splitOnP isHeading).map fun part => trim (join part)).filter (· ≠ [])

def markdownPieces (raw : Text) : List Text :=
  if sections raw = [] then [raw] else sections raw

/-- The values of an object, or the batches of an array, as `serde_json` prints them. -/
def jsonPieces (libraries : Libraries) (raw : Text) : List Text :=
  match libraries.fromStr raw with
  | some (.obj fields) => fields.map fun field => libraries.toStringPretty field.2
  | some (.arr items) => (windows 20 items).map fun batch => libraries.toStringPretty (.arr batch)
  | _ => plainPieces raw

def pieces (libraries : Libraries) (raw : Text) (contentType : String) : List Text :=
  if contentType = "text/markdown" ∨ contentType = "markdown" then markdownPieces raw
  else if contentType = "application/json" ∨ contentType = "json" then jsonPieces libraries raw
  else plainPieces raw

private theorem paragraphsFrom_eq (current remaining : List Text) : paragraphsFrom current remaining =
    ((splitOnPPrepend isBlankLine remaining current.reverse).filter (· ≠ [])).map join := by
  induction remaining generalizing current with
  | nil =>
    rw [paragraphsFrom, splitOnPPrepend_nil, reverse_reverse]
    by_cases empty : current = [] <;> simp [empty]
  | cons line rest ih =>
    rw [paragraphsFrom, splitOnPPrepend_cons_eq_if, isBlankLine]
    by_cases blank : trim line = []
    · rw [if_pos blank, if_pos (decide_eq_true blank), ih, reverse_reverse, reverse_nil, splitOnPPrepend_nil_right]
      by_cases empty : current = [] <;> simp [empty]
    · rw [if_neg blank, if_neg (by simp [blank]), ih, reverse_append, reverse_singleton,
        singleton_append]

private theorem markdownFrom_content (title : Option Text) (collected remaining : List Text) :
    (markdownFrom title collected remaining).map Chunk.content = ((splitOnPPrepend isHeading
      remaining collected.reverse).map fun part => trim (join part)).filter (· ≠ []) := by
  have flushed (part : List Text) (title : Option Text) : (flushTextChunk part title
    "text/markdown").map Chunk.content = [trim (join part)].filter (· ≠ []) := by
    unfold flushTextChunk
    by_cases empty : trim (join part) = [] <;> simp [empty]
  induction remaining generalizing title collected with
  | nil => rw [markdownFrom, flushed, splitOnPPrepend_nil, reverse_reverse, map_singleton]
  | cons line rest ih =>
    rw [markdownFrom, splitOnPPrepend_cons_eq_if, isHeading]
    cases heading : extractHeading line with
    | some text =>
      dsimp only
      rw [map_append, flushed, ih, Option.isSome_some, if_pos rfl, map_cons, reverse_reverse,
        reverse_nil, splitOnPPrepend_nil_right]
      exact (filter_append (p := fun part : Text => decide (part ≠ [])) [_] _).symm
    | none =>
      dsimp only
      rw [ih, Option.isSome_none, if_neg (by decide), reverse_append, reverse_singleton,
        singleton_append]

theorem chunkPlain_content (raw : Text) : (chunkPlain raw).map Chunk.content = plainPieces raw := by
  have same : paragraphsFrom [] (lines raw) = paragraphs raw := paragraphsFrom_eq [] _
  unfold chunkPlain plainPieces
  rw [same]
  cases paragraphs raw with
  | nil =>
    rw [if_pos rfl, lineWindowChunks, map_map]
    rfl
  | cons first others =>
    rw [if_neg (cons_ne_nil _ _), map_map]
    exact map_id _

private theorem chunkMarkdown_content (raw : Text) :
    (chunkMarkdown raw).map Chunk.content = markdownPieces raw := by
  have same : (markdownFrom none [] (lines raw)).map Chunk.content = sections raw := markdownFrom_content none [] _
  unfold chunkMarkdown markdownPieces
  rw [← same]
  cases markdownFrom none [] (lines raw) with
  | nil => rfl
  | cons first others => rw [if_neg (by simp)]

private theorem chunkJson_content (libraries : Libraries) (raw : Text) :
    (chunkJson libraries raw).map Chunk.content = jsonPieces libraries raw := by
  unfold chunkJson jsonPieces
  cases libraries.fromStr raw with
  | none => exact chunkPlain_content raw
  | some value =>
    cases value with
    | obj fields => exact map_map
    | arr items => exact ext_getElem (by simp) (by simp)
    | _ => exact chunkPlain_content raw

theorem baseChunks_content (libraries : Libraries) (raw : Text) (contentType : String) :
    (baseChunks libraries raw contentType).map Chunk.content =
      pieces libraries raw contentType := by
  unfold baseChunks pieces
  split_ifs
  · exact chunkMarkdown_content raw
  · exact chunkJson_content libraries raw
  · exact chunkPlain_content raw

theorem mem_windowsUpTo {Item : Type} {size fuel : Nat} {items window : List Item} (pos : 0 < size)
    (enough : items.length ≤ fuel) : window ∈ windowsUpTo fuel size items ↔
      ∃ index, size * index < items.length ∧ window = (items.drop (size * index)).take size := by
  induction fuel generalizing items with
  | zero =>
    rw [windowsUpTo]
    simp only [not_mem_nil, false_iff, not_exists, not_and]
    intro index inside
    omega
  | succ fuel ih =>
    cases items with
    | nil => simp [windowsUpTo]
    | cons item rest =>
      have shorter : ((item :: rest).drop size).length ≤ fuel := by
        rw [length_drop]
        simp only [length_cons] at enough ⊢
        omega
      rw [windowsUpTo, mem_cons, ih shorter]
      · constructor
        · rintro (rfl | ⟨index, inside, rfl⟩)
          · exact ⟨0, by simp, by simp⟩
          · refine ⟨index + 1, ?_, ?_⟩
            · rw [length_drop] at inside
              rw [mul_succ]
              omega
            · rw [drop_drop, mul_succ, add_comm]
        · rintro ⟨index, inside, rfl⟩
          cases index with
          | zero => exact .inl (by simp)
          | succ index =>
            refine .inr ⟨index, ?_, ?_⟩
            · rw [length_drop]
              rw [mul_succ] at inside
              omega
            · rw [drop_drop, mul_succ, add_comm]
      · simp

theorem byteLength_join (parts : List Text) (filled : parts ≠ []) :
    byteLength (join parts) + 1 = (parts.map fun line => byteLength line + 1).sum := by
  induction parts with
  | nil => exact absurd rfl filled
  | cons first rest ih =>
    cases rest with
    | nil => simp [join]
    | cons second others =>
      have later := ih (cons_ne_nil _ _)
      have newline : byteLength ['\n'] = 1 := by decide
      unfold join at later ⊢
      rw [intercalate_cons_cons, byteLength_append, byteLength_append, newline, map_cons, sum_cons, ← later]
      omega

def linesPerWindow : Nat := max (maxChunkBytes / 80) 10
def LineRunsFit (piece : Text) : Prop :=
  ∀ index, ((((lines piece).drop (linesPerWindow * index)).take linesPerWindow).map fun line =>
    byteLength line + 1).sum ≤ maxChunkBytes + 1

structure Fits (piece : Text) : Prop where
  runs : maxChunkBytes < byteLength piece → 1 < (lines piece).length → LineRunsFit piece
  bytes : maxChunkBytes < byteLength piece → (lines piece).length ≤ 1 → WindowsEndInAscii piece

structure Panics (piece : Text) : Prop where
  long : maxChunkBytes < byteLength piece
  oneLine : (lines piece).length ≤ 1
  wide : ¬ WindowsEndInAscii piece

variable {content : Text} {parent : Option Text} {chunks : List Chunk} {chunk : Chunk}

theorem byteWindows_whole_none_iff {contentType : String} :
    byteWindows content parent contentType (byteLength content) 0 0 = none ↔
      ¬ WindowsEndInAscii content := by
  rw [← restEndsInAscii_iff_windows]
  constructor
  · intro stopped ends
    obtain ⟨chunks, made, _⟩ := @byteWindows_some [] content parent contentType (byteLength content)
      0 (fun _ => Nat.dvd_zero _) le_rfl ends
    rw [nil_append, byteLength_nil, stopped] at made
    cases made
  · intro fails
    rw [← nil_append content]
    exact byteWindows_none (fun _ => Nat.dvd_zero _) le_rfl fails

theorem byteWindows_whole_some {contentType : String}
    (made : byteWindows content parent contentType (byteLength content) 0 0 = some chunks) :
    chunks.flatMap Chunk.content = content ∧ ∀ chunk ∈ chunks, byteLength chunk.content ≤
      maxChunkBytes ∧ ∃ index, chunk.title = partTitle parent index := by
  have ends : WindowsEndInAscii content := by
    by_contra wide
    rw [byteWindows_whole_none_iff.mpr wide] at made
    cases made
  obtain ⟨others, same, flat, each⟩ := @byteWindows_some [] content parent contentType
    (byteLength content) 0 (fun _ => Nat.dvd_zero _) le_rfl (restEndsInAscii_iff_windows.mpr ends)
  rw [nil_append, byteLength_nil, made] at same
  obtain rfl := Option.some.inj same
  exact ⟨flat, each⟩

private theorem subdivideOversized_none_iff : subdivideOversized chunk = none ↔ Panics chunk.content := by
  unfold subdivideOversized subdivide
  split_ifs with short several
  · exact ⟨nofun, fun panics => absurd panics.long (Nat.not_lt.mpr short)⟩
  · exact ⟨nofun, fun panics => absurd panics.oneLine (Nat.not_le.mpr several)⟩
  · rw [byteWindows_whole_none_iff]
    exact ⟨fun wide => ⟨Nat.not_le.mp short, Nat.not_lt.mp several, wide⟩, Panics.wide⟩

private theorem lineRunsFit_iff (piece : Text) : LineRunsFit piece ↔
    ∀ window ∈ windows linesPerWindow (lines piece), byteLength (join window) ≤ maxChunkBytes := by
  have pos : 0 < linesPerWindow := by decide
  unfold LineRunsFit
  constructor
  · intro fit window mem
    obtain ⟨index, inside, rfl⟩ := (mem_windowsUpTo pos le_rfl).mp mem
    have filled : ((lines piece).drop (linesPerWindow * index)).take linesPerWindow ≠ [] := by
      rw [← length_pos_iff, length_take, length_drop]
      omega
    have size := byteLength_join _ filled
    have run := fit index
    omega
  · intro fit index
    by_cases inside : linesPerWindow * index < (lines piece).length
    · have filled : ((lines piece).drop (linesPerWindow * index)).take linesPerWindow ≠ [] := by
        rw [← length_pos_iff, length_take, length_drop]
        omega
      rw [← byteLength_join _ filled]
      exact succ_le_succ (fit _ ((mem_windowsUpTo pos le_rfl).mpr ⟨index, inside, rfl⟩))
    · rw [drop_eq_nil_of_le (Nat.not_lt.mp inside)]
      exact zero_le _

theorem subdivideOversized_bounded_iff : (∃ parts, subdivideOversized chunk = some parts ∧
    ∀ part ∈ parts, byteLength part.content ≤ maxChunkBytes) ↔ Fits chunk.content := by
  unfold subdivideOversized subdivide
  split_ifs with short several
  · refine ⟨fun _ => ⟨fun long => absurd short (Nat.not_le.mpr long),
      fun long => absurd short (Nat.not_le.mpr long)⟩, fun _ => ⟨_, rfl, ?_⟩⟩
    intro part mem
    rw [mem_singleton.mp mem]
    exact short
  · have runs : Fits chunk.content ↔ LineRunsFit chunk.content := ⟨fun fits => fits.runs (Nat.not_le.mp short) several,
        fun fit => ⟨fun _ _ => fit, fun _ oneLine => absurd several (Nat.not_lt.mpr oneLine)⟩⟩
    rw [runs, lineRunsFit_iff]
    constructor
    · rintro ⟨parts, same, bounded⟩ window mem
      obtain rfl := Option.some.inj same
      obtain ⟨index, inside, rfl⟩ := getElem_of_mem mem
      exact bounded _ (mem_mapIdx.mpr ⟨index, inside, rfl⟩)
    · intro bounded
      refine ⟨_, rfl, fun part mem => ?_⟩
      obtain ⟨index, inside, rfl⟩ := mem_mapIdx.mp mem
      exact bounded _ (getElem_mem inside)
  · have windows : Fits chunk.content ↔ WindowsEndInAscii chunk.content :=
      ⟨fun fits => fits.bytes (Nat.not_le.mp short) (Nat.not_lt.mp several),
        fun ends => ⟨fun _ more => absurd more several, fun _ _ => ends⟩⟩
    rw [windows]
    constructor
    · rintro ⟨parts, made, _⟩
      by_contra wide
      rw [byteWindows_whole_none_iff.mpr wide] at made
      cases made
    · intro ends
      cases made : byteWindows chunk.content chunk.title chunk.contentType (byteLength chunk.content) 0 0 with
      | none => exact absurd ends (byteWindows_whole_none_iff.mp made)
      | some parts => exact ⟨parts, rfl, fun part mem => ((byteWindows_whole_some made).2 part mem).1⟩

private theorem mapM_none_iff {Item Result : Type} {f : Item → Option Result} {items : List Item} :
    items.mapM f = none ↔ ∃ item ∈ items, f item = none := by
  induction items with
  | nil => simp
  | cons item rest ih =>
    rw [mapM_cons]
    cases made : f item with
    | none => simp [made]
    | some head => cases later : rest.mapM f <;> simp [made, later, ← ih]

theorem exists_right {Item Result : Type} {related : Item → Result → Prop} {items : List Item}
    {results : List Result} (all : List.Forall₂ related items results) {item : Item}
    (mem : item ∈ items) : ∃ result ∈ results, related item result := by
  induction all with
  | nil => cases mem
  | cons here _ ih =>
    rcases mem_cons.mp mem with rfl | later
    · exact ⟨_, .head _, here⟩
    · obtain ⟨result, inside, made⟩ := ih later
      exact ⟨result, .tail _ inside, made⟩

variable {libraries : Libraries} {sourceId contentType : String} {raw : Text}

theorem chunkText_none_iff : chunkText libraries sourceId raw contentType = none ↔
    ∃ piece ∈ pieces libraries raw contentType, Panics piece := by
  rw [chunkText, Option.map_eq_none_iff, mapM_none_iff, ← baseChunks_content]
  simp only [subdivideOversized_none_iff, mem_map, exists_exists_and_eq_and]

theorem chunkText_parts (cut : chunkText libraries sourceId raw contentType = some chunks) :
    ∃ parts, List.Forall₂ (fun chunk part => subdivideOversized chunk = some part) (baseChunks libraries raw contentType) parts ∧
      chunks.map (fun chunk => (chunk.title, chunk.content)) = parts.flatten.map fun chunk => (chunk.title, chunk.content) := by
  obtain ⟨parts, made, rfl⟩ := Option.map_eq_some_iff.mp cut
  refine ⟨parts, Program.mapM_some_iff.mp made, ?_⟩
  generalize parts.flatten = listed
  exact ext_getElem (by simp) (by simp)

/-- The cut succeeds with numbered chunks under the cap exactly when every piece fits. -/
theorem chunkText_bounded_iff (libraries : Libraries) (sourceId contentType : String) (raw : Text) :
    (∃ chunks, chunkText libraries sourceId raw contentType = some chunks ∧
      chunks.map Chunk.chunkIndex = range chunks.length ∧ ∀ chunk ∈ chunks,
      byteLength chunk.content ≤ maxChunkBytes) ↔
    ∀ piece ∈ pieces libraries raw contentType, Fits piece := by
  rw [← baseChunks_content]
  constructor
  · rintro ⟨chunks, cut, _, bounded⟩ piece mem
    obtain ⟨base, inside, rfl⟩ := mem_map.mp mem
    obtain ⟨parts, related, same⟩ := chunkText_parts cut
    obtain ⟨part, listed, made⟩ := exists_right related inside
    refine subdivideOversized_bounded_iff.mp ⟨part, made, fun sub subMember => ?_⟩
    have kept : (sub.title, sub.content) ∈ chunks.map fun chunk => (chunk.title, chunk.content) := by
      rw [same]
      exact mem_map_of_mem (mem_flatten.mpr ⟨part, listed, subMember⟩)
    obtain ⟨chunk, chunkMem, equal⟩ := mem_map.mp kept
    rw [← (Prod.mk.inj equal).2]
    exact bounded chunk chunkMem
  · intro fits
    cases cut : chunkText libraries sourceId raw contentType with
    | none =>
      obtain ⟨piece, mem, panics⟩ := chunkText_none_iff.mp cut
      rw [← baseChunks_content] at mem
      exact absurd ((fits piece mem).bytes panics.long panics.oneLine) panics.wide
    | some chunks =>
      refine ⟨chunks, rfl, chunkText_index cut, fun chunk mem => ?_⟩
      obtain ⟨parts, related, same⟩ := chunkText_parts cut
      have kept : (chunk.title, chunk.content) ∈ parts.flatten.map fun chunk => (chunk.title, chunk.content) := by
        rw [← same]
        exact mem_map_of_mem mem
      obtain ⟨sub, subMember, equal⟩ := mem_map.mp kept
      obtain ⟨part, listed, inside⟩ := mem_flatten.mp subMember
      obtain ⟨base, baseMember, made⟩ := exists_right related.flip listed
      obtain ⟨others, again, bounded⟩ := subdivideOversized_bounded_iff.mpr (fits _ (mem_map_of_mem baseMember))
      rw [made] at again
      obtain rfl := Option.some.inj again
      rw [← (Prod.mk.inj equal).2]
      exact bounded sub inside

def withoutJson : Libraries where
  sha256 _ := ""
  fromStr _ := none
  toStringPretty _ := []

def wideAfter (count : Nat) : Text := replicate count 'a' ++ ['é']
def wideLine : Text := wideAfter 4095

theorem byteLength_replicate (count : Nat) : byteLength (replicate count 'a') = count := by
  have narrow : 'a'.utf8Size = 1 := by decide
  induction count with
  | zero => rfl
  | succ count ih =>
    rw [replicate_succ, byteLength_cons, ih, narrow]
    omega

theorem byteLength_wideAfter (count : Nat) : byteLength (wideAfter count) = count + 2 := by
  have wide : byteLength ['é'] = 2 := by decide
  rw [wideAfter, byteLength_append, byteLength_replicate, wide]

theorem wideAfter_plain (count : Nat) : '\n' ∉ wideAfter count := by
  intro mem
  rcases mem_append.mp mem with inside | last
  · exact absurd (eq_of_mem_replicate inside) (by decide)
  · exact absurd (mem_singleton.mp last) (by decide)

theorem mem_wideAfter (count : Nat) :
    'é' ∈ wideAfter count := mem_append_right _ (mem_singleton_self _)

private theorem pieces_oneLine {line : Text} (plain : '\n' ∉ line)
    (visible : ∃ c ∈ line, Repo.isWhitespace c = false) : plainPieces line = [line] := by
  obtain ⟨c, mem, solid⟩ := visible
  have filled : line ≠ [] := ne_nil_of_mem mem
  have shown : isBlankLine line = false := by
    refine decide_eq_false fun blank => ?_
    have white := Text.strip_eq_nil_iff.mp blank c mem
    rw [solid] at white
    cases white
  have single : lines line = [line] := by rw [Text.lines_last plain, if_neg filled]
  have whole : paragraphs line = [line] := by
    rw [paragraphs, single, splitOnP_cons_eq_if_modifyHead, shown, if_neg Bool.false_ne_true]
    simp [join]
  rw [plainPieces, whole, if_neg (cons_ne_nil _ _)]

private theorem panics_wideLine : Panics wideLine where
  long := by rw [wideLine, byteLength_wideAfter]; decide
  oneLine := by rw [wideLine, Text.lines_last (wideAfter_plain _), if_neg (ne_nil_of_mem (mem_wideAfter _)), length_singleton]
  wide ends := by
    obtain ⟨before, c, behind, split, size, narrow⟩ :=
      ends 4095 (by rw [wideLine, byteLength_wideAfter]; decide) (.inl (by decide))
    -- the boundary behind that character would lie within the last one
    have outside := @boundary_outside (replicate 4095 'a') [] (before ++ [c]) behind 'é'
      (by rw [append_assoc, singleton_append, ← split, wideLine, wideAfter])
    have wide : 'é'.utf8Size = 2 := by decide
    rw [byteLength_replicate, byteLength_append, byteLength_cons, byteLength_nil, size, narrow, wide]
      at outside
    omega

theorem chunkText_panics_on_wide_line :
    ¬ ∃ chunks, chunkText withoutJson "notes.txt" wideLine "text/plain" = some chunks ∧
      chunks.map Chunk.chunkIndex = range chunks.length ∧
      ∀ chunk ∈ chunks, byteLength chunk.content ≤ maxChunkBytes := by
  rintro ⟨chunks, cut, _⟩
  have panicked : chunkText withoutJson "notes.txt" wideLine "text/plain" = none := by
    refine chunkText_none_iff.mpr ⟨wideLine, ?_, panics_wideLine⟩
    have single := pieces_oneLine (wideAfter_plain 4095) ⟨'é', mem_wideAfter _, by decide⟩
    rw [wideLine, pieces, if_neg (by decide), if_neg (by decide), single]
    exact mem_singleton_self _
  rw [panicked] at cut
  cases cut

end Atlas.Content
