import Atlas.Content.ChunkBounds
import Atlas.Text.InOrder
import Atlas.Text.Split

/-! The lines of a text occur in its chunks in order. White space at the ends of a section is cut
off on purpose, and so is a carriage return that ends up at the end of a window. A heading is
the title of the text below it, and is dropped where there is none. -/
namespace Atlas.Content
open List
open Refactor (Text)
open Text (lines stripCr text_induction lines_last lines_line withoutReturns)
open Repo (trim isWhitespace)
open Text (InOrder Spread)

/-- A line as `str::lines` can give it: not empty and without a line ending. -/
structure IsWord (word : Text) : Prop where
  filled : word ≠ []
  oneLine : '\n' ∉ word
  ended : word.getLast? ≠ some '\r'

variable {words : List Text}

theorem stripCr_pad (piece : Text) : ∃ pad, piece = stripCr piece ++ pad ∧ ∀ c ∈ pad, c = '\r' := by
  unfold stripCr
  split
  · next ended =>
      obtain ⟨init, rfl⟩ := getLast?_eq_some_iff.mp ended
      exact ⟨['\r'], by rw [dropLast_concat], by simp⟩
  · exact ⟨[], (append_nil _).symm, by simp⟩

theorem lines_plain (raw : Text) : ∀ line ∈ lines raw, '\n' ∉ line := by
  induction raw using text_induction with
  | last piece absent =>
    rw [lines_last absent]
    split
    · simp
    · intro line mem
      rw [mem_singleton.mp mem]
      exact absent
  | line piece rest absent ih =>
    rw [lines_line absent]
    intro line mem
    rcases mem_cons.mp mem with rfl | later
    · obtain ⟨pad, whole, _⟩ := stripCr_pad piece
      rw [whole] at absent
      exact fun inside => absent (mem_append_left _ inside)
    · exact ih line later

theorem IsWord.last_not_return {word : Text} (isWord : IsWord word)
    {pad : Text} (returns : ∀ c ∈ pad, c = '\r') : ∃ c ∈ word.getLast?, c ∉ pad := by
  cases last : word.getLast? with
  | none => exact absurd (getLast?_eq_none_iff.mp last) isWord.filled
  | some c =>
    refine ⟨c, rfl, fun mem => isWord.ended ?_⟩
    rw [last, returns c mem]

variable {text line title : Text} {chunk : Chunk} {parts : List Chunk} {part : List Text}

private theorem spread_lines (ordered : InOrder words text) (each : ∀ word ∈ words, IsWord word) :
    Spread words (lines text) := by
  induction text using text_induction generalizing words with
  | last piece absent =>
    rw [lines_last absent]
    split
    · next empty =>
        rw [empty] at ordered
        cases words with
        | nil => exact .nil
        | cons word rest =>
          have inside := ordered.within word (.head _)
          exact absurd (infix_nil.mp inside) (each word (.head _)).filled
    · have spread := Spread.cons ordered .nil
      rwa [append_nil] at spread
  | line piece rest absent ih =>
    rw [lines_line absent]
    obtain ⟨first, second, rfl, here, later⟩ := ordered.split
      (fun word mem => (each word mem).filled) (fun word mem => (each word mem).oneLine)
    obtain ⟨pad, whole, returns⟩ := stripCr_pad piece
    rw [whole] at here
    refine .cons (here.unpad_back fun word mem => ?_) (ih later fun word mem => each word (mem_append_right _ mem))
    exact (each word (mem_append_left _ mem)).last_not_return returns

private theorem inOrder_of_lines (spread : Spread words (lines text)) : InOrder words text := by
  induction text using text_induction generalizing words with
  | last piece absent =>
    rw [lines_last absent] at spread
    split at spread
    · cases spread
      exact .nil _
    · have ordered := spread.flatten
      rwa [flatten_cons, flatten_nil, append_nil] at ordered
  | line piece rest absent ih =>
    rw [lines_line absent] at spread
    cases spread with
    | cons here later =>
      obtain ⟨pad, whole, _⟩ := stripCr_pad piece
      have before : InOrder _ (stripCr piece ++ pad) := here.pad_back
      have after : InOrder _ (['\n'] ++ rest) := (ih later).pad_front
      rw [← whole] at before
      exact before.append after

theorem spread_filter {shown : Text → Bool}
    {cut : Text → Text} (inside : ∀ line, cut line <:+: line) (all : List Text) :
    Spread ((all.filter shown).map cut) all := by
  induction all with
  | nil => exact .nil
  | cons line rest ih =>
    by_cases kept : shown line = true
    · rw [filter_cons_of_pos kept, map_cons, ← singleton_append]
      exact .cons (.of_within (inside line)) ih
    · rw [filter_cons_of_neg kept]
      exact .cons (.nil line) ih

private theorem inOrder_windows {parts : List (List Text)} (spread : Spread words parts.flatten) :
    InOrder words (parts.flatMap join) := by
  induction parts generalizing words with
  | nil => cases spread; exact .nil _
  | cons part rest ih =>
    rw [flatten_cons] at spread
    obtain ⟨first, second, rfl, before, after⟩ := spread.parts
    exact (before.intercalate _).append (ih after)

private theorem subdivideOversized_keeps (made : subdivideOversized chunk = some parts)
    (ordered : InOrder words chunk.content)
    (each : ∀ word ∈ words, IsWord word) : InOrder words (parts.flatMap Chunk.content) := by
  unfold subdivideOversized subdivide at made
  split_ifs at made with short several
  · obtain rfl := Option.some.inj made
    rwa [flatMap_cons, flatMap_nil, append_nil]
  · obtain rfl := Option.some.inj made
    have contents : ∀ cuts : List (List Text), (cuts.mapIdx fun index part =>
        ({ title := partTitle chunk.title index, content := join part
           contentType := chunk.contentType } : Chunk)).map Chunk.content = cuts.map join :=
      fun cuts => ext_getElem (by simp) (by simp)
    rw [flatMap_def, contents, ← flatMap_def]
    refine inOrder_windows ?_
    rw [windows_flatten (by decide)]
    exact spread_lines ordered each
  · rw [(byteWindows_whole_some made).1]
    exact ordered

private theorem inOrder_parts {base : List Chunk} {parts : List (List Chunk)}
    (related : List.Forall₂ (fun chunk part => subdivideOversized chunk = some part) base parts)
    (spread : Spread words (base.map Chunk.content)) (each : ∀ word ∈ words, IsWord word) :
    InOrder words (parts.flatten.flatMap Chunk.content) := by
  induction related generalizing words with
  | nil => cases spread; exact .nil _
  | @cons chunk part base parts made _ ih =>
    rw [map_cons] at spread
    cases spread with
    | cons here later =>
      rw [flatten_cons, flatMap_append]
      exact (subdivideOversized_keeps made here fun word mem => each word (mem_append_left _
        mem)).append (ih later fun word mem => each word (mem_append_right _ mem))

variable {libraries : Libraries} {sourceId contentType : String} {raw : Text} {chunks : List Chunk}

theorem chunkText_keeps (cut : chunkText libraries sourceId raw contentType = some chunks) (spread :
    Spread words (pieces libraries raw contentType)) (each : ∀ word ∈ words, IsWord word) :
    InOrder words (chunks.flatMap Chunk.content) := by
  obtain ⟨parts, related, same⟩ := chunkText_parts cut
  rw [← baseChunks_content] at spread
  have contents := congrArg (map Prod.snd) same
  rw [map_map, map_map] at contents
  have whole : chunks.map Chunk.content = parts.flatten.map Chunk.content := contents
  rw [flatMap_def, whole, ← flatMap_def]
  exact inOrder_parts related spread each

/-! ## The lines of the pieces -/

theorem withoutReturns_within (line : Text) : withoutReturns line <:+: line := by
  obtain ⟨pad, whole, _⟩ := Text.exists_stripEnd (fun c => decide (c = '\r')) line
  exact ⟨[], pad, by rw [nil_append]; exact whole.symm⟩

theorem trim_within (line : Text) : trim line <:+: line := by
  obtain ⟨before, behind, whole, _⟩ := Text.exists_strip isWhitespace line
  exact ⟨before, behind, by rw [append_assoc]; exact whole.symm⟩

theorem trim_tight (line : Text) : Text.Tight isWhitespace (trim line) := Text.strip_tight line

theorem isWord_trim (plain : '\n' ∉ line) (visible : isBlankLine line = false) :
    IsWord (trim line) where
  filled := of_decide_eq_false visible
  oneLine inside := plain ((trim_within line).subset inside)
  ended last := absurd ((trim_tight line).back '\r' last) (by decide)

private theorem isWord_withoutReturns (plain : '\n' ∉ line) (visible : isBlankLine line = false) :
    IsWord (withoutReturns line) where
  filled empty := by
    obtain ⟨pad, whole, returns⟩ := Text.exists_stripEnd (fun c => decide (c = '\r')) line
    rw [← withoutReturns, empty, nil_append] at whole
    refine absurd (Text.strip_eq_nil_iff.mpr fun c mem => ?_) (of_decide_eq_false visible)
    rw [whole] at mem
    rw [of_decide_eq_true (returns c mem)]
    decide
  oneLine inside := plain ((withoutReturns_within line).subset inside)
  ended last := absurd (Text.stripEnd_back line '\r' last) (by decide)

theorem flatten_splitOnP (separates : Text → Bool) (all : List Text) :
    (all.splitOnP separates).flatten = all.filter (!separates ·) := by
  have prepended (held : List Text) :
    (splitOnPPrepend separates all held).flatten = held.reverse ++ all.filter (!separates ·) := by
    induction all generalizing held with
    | nil => simp
    | cons line rest ih =>
      rw [splitOnPPrepend_cons_eq_if]
      cases parts : separates line with
      | true => simp [parts, ← splitOnPPrepend_nil_right, ih]
      | false => simp [parts, ih]
  rw [← splitOnPPrepend_nil_right, prepended]
  rfl

private theorem spread_joined {cut : Text → Text}
    (inside : ∀ line, cut line <:+: line) (cuts : List (List Text)) :
    Spread (cuts.flatten.map cut) ((cuts.filter (· ≠ [])).map join) := by
  induction cuts with
  | nil => exact .nil
  | cons part rest ih =>
    by_cases empty : part = []
    · subst empty
      simpa using ih
    · rw [filter_cons_of_pos (by simpa using empty), map_cons, flatten_cons,
        map_append]
      have whole := @spread_filter (fun _ => true) cut inside part
      rw [filter_true] at whole
      exact .cons (whole.intercalate _) ih

theorem not_blank_of_join (mem : line ∈ part) (visible : isBlankLine line = false) :
    trim (join part) ≠ [] := by
  intro empty
  refine absurd (Text.strip_eq_nil_iff.mpr fun c inside => ?_) (of_decide_eq_false visible)
  exact Text.strip_eq_nil_iff.mp empty c ((Text.infix_intercalate mem).subset inside)

private theorem inOrder_trim_join :
    InOrder ((part.filter (!isBlankLine ·)).map trim) (trim (join part)) := by
  obtain ⟨before, behind, whole, front, back⟩ := Text.exists_strip isWhitespace (join part)
  have spread := @spread_filter (!isBlankLine ·) trim trim_within part
  have ordered : InOrder _ (join part) := spread.intercalate ['\n']
  rw [whole] at ordered
  have solid : ∀ word ∈ (part.filter (!isBlankLine ·)).map trim, word ≠ [] ∧ Text.Tight isWhitespace word := by
    intro word mem
    obtain ⟨line, kept, rfl⟩ := mem_map.mp mem
    have visible : isBlankLine line = false := by simpa using (mem_filter.mp kept).2
    exact ⟨of_decide_eq_false visible, trim_tight line⟩
  refine (ordered.unpad_front fun word mem => ?_).unpad_back fun word mem => ?_
  · obtain ⟨filled, tight⟩ := solid word mem
    obtain ⟨c, rest, rfl⟩ := exists_cons_of_ne_nil filled
    refine ⟨c, rfl, fun inside => ?_⟩
    have white := front c inside
    rw [tight.front c rfl] at white
    cases white
  · obtain ⟨filled, tight⟩ := solid word mem
    have last := getLast?_eq_some_getLast filled
    refine ⟨_, last, fun inside => ?_⟩
    have white := back _ inside
    rw [tight.back _ last] at white
    cases white

theorem spread_sections (cuts : List (List Text)) :
    Spread ((cuts.flatten.filter (!isBlankLine ·)).map trim)
      ((cuts.map fun part => trim (join part)).filter (· ≠ [])) := by
  induction cuts with
  | nil => exact .nil
  | cons part rest ih =>
    rw [flatten_cons, filter_append, map_append, map_cons]
    by_cases empty : trim (join part) = []
    · have none : part.filter (!isBlankLine ·) = [] := by
        refine filter_eq_nil_iff.mpr fun line mem visible => ?_
        exact not_blank_of_join mem (by simpa using visible) empty
      rw [none, filter_cons_of_neg (by simpa using empty)]
      exact ih
    · rw [filter_cons_of_pos (by simpa using empty)]
      exact .cons inOrder_trim_join ih

private theorem spread_plainPieces (raw : Text) :
    Spread (((lines raw).filter (!isBlankLine ·)).map withoutReturns) (plainPieces raw) := by
  have flat := flatten_splitOnP isBlankLine (lines raw)
  unfold plainPieces
  split
  · next none =>
      -- without a paragraph there is no line to be found
      have noCuts : ((lines raw).splitOnP isBlankLine).filter (· ≠ []) = [] := map_eq_nil_iff.mp none
      have empty : (lines raw).filter (!isBlankLine ·) = [] := by
        rw [← flat, flatten_eq_nil_iff]
        intro part mem
        by_contra filled
        exact filter_eq_nil_iff.mp noCuts part mem (decide_eq_true filled)
      rw [empty]
      generalize (windows lineWindow (lines raw)).map join = blanks
      induction blanks with
      | nil => exact .nil
      | cons blank rest ih => exact .cons (.nil blank) ih
  · rw [← flat]
    exact spread_joined withoutReturns_within _

/-! ## Titles -/

def Titled (title : Text) (chunk : Chunk) : Prop :=
  chunk.title = some title ∨ ∃ part, chunk.title = partTitle (some title) part

private theorem exists_section {collected : List Text}
    (visible : ∃ line ∈ collected, isBlankLine line = false) (after : List Text) :
    ∃ chunk ∈ markdownFrom (some title) collected after, chunk.title = some title ∧ chunk.content ≠ [] := by
  have flushed {part : List Text} (visible : ∃ line ∈ part, isBlankLine line = false) :
    ∃ chunk ∈ flushTextChunk part (some title) "text/markdown", chunk.title = some title ∧
    chunk.content ≠ [] := by
    obtain ⟨line, mem, shown⟩ := visible
    have filled := not_blank_of_join mem shown
    unfold flushTextChunk
    rw [if_neg filled]
    exact ⟨_, mem_singleton_self _, rfl, filled⟩
  induction after generalizing collected with
  | nil => exact flushed visible
  | cons line rest ih =>
    rw [markdownFrom]
    cases extractHeading line with
    | some heading =>
      obtain ⟨chunk, mem, titled⟩ := flushed visible
      exact ⟨chunk, mem_append_left _ mem, titled⟩
    | none =>
      obtain ⟨shown, mem, visible⟩ := visible
      exact ih ⟨shown, mem_append_left _ mem, visible⟩

private theorem exists_titled {before body after : List Text} (heading : extractHeading line = some title)
    (within : ∀ other ∈ body, extractHeading other = none)
    (visible : ∃ other ∈ body, isBlankLine other = false) (earlier : Option Text) (collected : List Text) :
    ∃ chunk ∈ markdownFrom earlier collected (before ++ line :: (body ++ after)),
      chunk.title = some title ∧ chunk.content ≠ [] := by
  induction before generalizing earlier collected with
  | nil =>
    rw [nil_append, markdownFrom, heading]
    have below (held : List Text) (parts : List Text) (within : ∀ other ∈ parts,
      extractHeading other = none) (visible : ∃ other ∈ held ++ parts, isBlankLine other = false) :
        ∃ chunk ∈ markdownFrom (some title) held (parts ++ after), chunk.title = some title ∧ chunk.content ≠ [] := by
      induction parts generalizing held with
      | nil =>
        rw [append_nil] at visible
        exact exists_section visible after
      | cons other rest ih =>
        rw [cons_append, markdownFrom, within other mem_cons_self]
        refine ih _ (fun each mem => within each (.tail _ mem)) ?_
        rwa [append_assoc, singleton_append]
    obtain ⟨chunk, mem, titled⟩ := below [] body within visible
    exact ⟨chunk, mem_append_right _ mem, titled⟩
  | cons first rest ih =>
    rw [cons_append, markdownFrom]
    cases extractHeading first with
    | some other =>
      obtain ⟨chunk, mem, titled⟩ := ih (some other) []
      exact ⟨chunk, mem_append_right _ mem, titled⟩
    | none => exact ih earlier (collected ++ [first])

private theorem subdivideOversized_titled (made : subdivideOversized chunk = some parts)
    (titled : chunk.title = some title) (filled : chunk.content ≠ []) :
    ∃ part ∈ parts, Titled title part := by
  unfold subdivideOversized subdivide at made
  split_ifs at made with short several
  · obtain rfl := Option.some.inj made
    exact ⟨chunk, mem_singleton_self _, .inl titled⟩
  · obtain rfl := Option.some.inj made
    cases cuts : windows (max (maxChunkBytes / 80) 10) (lines chunk.content) with
    | nil =>
      have whole := @windows_flatten _ (max (maxChunkBytes / 80) 10) (by decide) (lines chunk.content)
      rw [cuts] at whole
      rw [← whole] at several
      exact absurd several (by decide)
    | cons first rest =>
      rw [mapIdx_cons]
      exact ⟨_, .head _, .inr ⟨0, by rw [titled]⟩⟩
  · obtain ⟨flat, each⟩ := byteWindows_whole_some made
    cases parts with
    | nil => exact absurd flat.symm filled
    | cons part rest =>
      obtain ⟨index, isTitle⟩ := (each part (.head _)).2
      exact ⟨part, .head _, .inr ⟨index, by rw [isTitle, titled]⟩⟩

/-! ## What is kept -/

structure KeepsPlain (raw : Text) (chunks : List Chunk) : Prop where
  lines : InOrder (((lines raw).filter (!isBlankLine ·)).map withoutReturns) (chunks.flatMap Chunk.content)

structure KeepsMarkdown (raw : Text) (chunks : List Chunk) : Prop where
  /-- A visible line that is no heading keeps all but the white space at its ends. -/
  lines : InOrder (((lines raw).filter fun line => !isBlankLine line && !isHeading line).map trim) (chunks.flatMap Chunk.content)
  /-- A heading with a visible line below it, before the next heading, is a title. -/
  titles : ∀ before line body after title, Text.lines raw = before ++ line :: (body ++ after) →
    extractHeading line = some title → (∀ other ∈ body, extractHeading other = none) →
    (∃ other ∈ body, isBlankLine other = false) → ∃ chunk ∈ chunks, Titled title chunk
  /-- A text of headings alone is kept as it is. -/
  headings : (∀ line ∈ Text.lines raw, isHeading line = true ∨ isBlankLine line = true) →
    InOrder (((Text.lines raw).filter (!isBlankLine ·)).map trim) (chunks.flatMap Chunk.content)

def KeepsText (raw : Text) (contentType : String) (chunks : List Chunk) : Prop :=
  if contentType = "text/markdown" ∨ contentType = "markdown" then KeepsMarkdown raw chunks
  else KeepsPlain raw chunks

private theorem sections_eq_nil {raw : Text}
    (only : ∀ line ∈ lines raw, isHeading line = true ∨ isBlankLine line = true) :
    sections raw = [] := by
  have flat := flatten_splitOnP isHeading (lines raw)
  refine filter_eq_nil_iff.mpr fun content mem => ?_
  obtain ⟨part, inside, rfl⟩ := mem_map.mp mem
  have blank : trim (join part) = [] := by
    refine Text.strip_eq_nil_iff.mpr fun c char => ?_
    rcases Text.mem_intercalate char with newline | ⟨line, listed, within⟩
    · rw [mem_singleton.mp newline]
      decide
    · have kept : line ∈ (lines raw).filter (!isHeading ·) := by
        rw [← flat]
        exact mem_flatten.mpr ⟨part, inside, listed⟩
      obtain ⟨isLine, plain⟩ := mem_filter.mp kept
      have white := (only line isLine).resolve_left (by simpa using plain)
      exact Text.strip_eq_nil_iff.mp (of_decide_eq_true white) c within
  simp [blank]

private theorem keepsMarkdown (cut : chunkText libraries sourceId raw contentType = some chunks)
    (markdown : contentType = "text/markdown" ∨ contentType = "markdown") :
    KeepsMarkdown raw chunks where
  lines := by
    refine chunkText_keeps cut ?_ ?_
    · rw [pieces, if_pos markdown, ← filter_filter, ← flatten_splitOnP isHeading]
      unfold markdownPieces
      split
      · next none =>
          have spread := spread_sections ((lines raw).splitOnP isHeading)
          rw [← sections, none] at spread
          generalize map trim (filter _ (flatten _)) = words at spread ⊢
          cases spread
          exact .cons (.nil raw) .nil
      · exact spread_sections _
    · intro word mem
      obtain ⟨line, kept, rfl⟩ := mem_map.mp mem
      obtain ⟨isLine, shown⟩ := mem_filter.mp kept
      rw [Bool.and_eq_true] at shown
      exact isWord_trim (lines_plain raw line isLine) (by simpa using shown.1)
  titles before line body after title whole heading within visible := by
    obtain ⟨chunk, mem, titled, filled⟩ := exists_titled heading within visible none []
    rw [← whole] at mem
    have listed : chunk ∈ baseChunks libraries raw contentType := by
      rw [baseChunks, if_pos markdown]
      unfold chunkMarkdown
      split
      · next empty =>
          rw [empty] at mem
          cases mem
      · exact mem
    obtain ⟨parts, related, same⟩ := chunkText_parts cut
    obtain ⟨part, isPart, made⟩ := exists_right related listed
    obtain ⟨sub, inside, named⟩ := subdivideOversized_titled made titled filled
    have kept : (sub.title, sub.content) ∈ chunks.map fun chunk => (chunk.title, chunk.content) := by
      rw [same]
      exact mem_map_of_mem (mem_flatten.mpr ⟨part, isPart, inside⟩)
    obtain ⟨found, isChunk, equal⟩ := mem_map.mp kept
    refine ⟨found, isChunk, ?_⟩
    unfold Titled
    rw [(Prod.mk.inj equal).1]
    exact named
  headings only := by
    refine chunkText_keeps cut ?_ ?_
    · rw [pieces, if_pos markdown, markdownPieces, if_pos (sections_eq_nil only)]
      have spread := Spread.cons (inOrder_of_lines (@spread_filter (!isBlankLine ·) trim trim_within (lines raw))) .nil
      rwa [append_nil] at spread
    · intro word mem
      obtain ⟨line, kept, rfl⟩ := mem_map.mp mem
      obtain ⟨isLine, shown⟩ := mem_filter.mp kept
      exact isWord_trim (lines_plain raw line isLine) (by simpa using shown)

private theorem keepsPlain (cut : chunkText libraries sourceId raw contentType = some chunks)
    (markdown : ¬ (contentType = "text/markdown" ∨ contentType = "markdown"))
    (json : ¬ (contentType = "application/json" ∨ contentType = "json")) : KeepsPlain raw chunks where
  lines := by
    refine chunkText_keeps cut ?_ ?_
    · rw [pieces, if_neg markdown, if_neg json]
      exact spread_plainPieces raw
    · intro word mem
      obtain ⟨line, kept, rfl⟩ := mem_map.mp mem
      obtain ⟨isLine, shown⟩ := mem_filter.mp kept
      exact isWord_withoutReturns (lines_plain raw line isLine) (by simpa using shown)

theorem chunkText_headings : chunkText withoutJson "notes.md" "# A\n# B\n  c".toList "markdown" =
    some [{ title := some ['B'], content := ['c'], contentType := "text/markdown" }] := by
  decide

end Atlas.Content
