import Atlas.Review.DocsSection

/-! The ranges of sections, the section of a line, and the bytes of an excerpt. -/
namespace Atlas.Review
open List
open Content (byteLength byteLength_append byteLength_cons byteLength_nil takeBytes takeBytes_append eq_append_of_takeBytes join)
open Refactor (Text)
open Text (lines withoutReturns)

section
variable {totalLines : Nat} {heading : IndexedHeading} {headings later : List IndexedHeading}

def Ascending (headings : List IndexedHeading) : Prop :=
  headings.Pairwise fun left right => left.startLine < right.startLine

@[simp] theorem withEnd_startLine :
    (withEnd totalLines heading later).startLine = heading.startLine := rfl

private theorem mem_withEnds : heading ∈ withEnds totalLines headings ↔ ∃ before own after,
    headings = before ++ own :: after ∧ heading = withEnd totalLines own after := by
  induction headings with
  | nil => simp [withEnds]
  | cons first rest ih =>
    rw [withEnds, mem_cons, ih]
    constructor
    · rintro (rfl | ⟨before, own, after, rfl, rfl⟩)
      · exact ⟨[], first, rest, rfl, rfl⟩
      · exact ⟨first :: before, own, after, rfl, rfl⟩
    · rintro ⟨before, own, after, split, rfl⟩
      cases before with
      | nil =>
        obtain ⟨rfl, rfl⟩ := cons.inj split
        exact .inl rfl
      | cons _ before =>
        obtain ⟨rfl, rfl⟩ := cons.inj split
        exact .inr ⟨before, own, after, rfl, rfl⟩

theorem endLine_cases (totalLines : Nat) (ascending : Ascending (heading :: later)) :
    (∀ candidate ∈ later, heading.level < candidate.level) ∧
      (withEnd totalLines heading later).endLine = max totalLines heading.startLine ∨
      ∃ next ∈ later, next.level ≤ heading.level ∧ (withEnd totalLines heading later).endLine + 1 = next.startLine ∧
        ∀ candidate ∈ later, candidate.startLine < next.startLine → heading.level < candidate.level := by
  obtain ⟨above, rest⟩ := pairwise_cons.mp ascending
  unfold withEnd
  cases found : later.find? fun candidate => candidate.level ≤ heading.level with
  | none =>
    refine .inl ⟨fun candidate mem => ?_, rfl⟩
    simpa using find?_eq_none.mp found candidate mem
  | some next =>
    obtain ⟨closes, before, after, rfl, opens⟩ := find?_eq_some_iff_append.mp found
    have start := above next (by simp)
    refine .inr ⟨next, by simp, of_decide_eq_true closes, by dsimp only; omega, ?_⟩
    intro candidate mem starts
    rcases mem_append.mp mem with earlier | onward
    · simpa using opens candidate earlier
    · rcases mem_cons.mp onward with rfl | behind
      · exact absurd starts (Nat.lt_irrefl _)
      · have order := (pairwise_cons.mp (pairwise_append.mp rest).2.1).1 candidate behind
        omega

def Laminar (totalLines : Nat) (left right : IndexedHeading) : Prop := left.endLine <
    right.startLine ∨ left.level < right.level ∧ min right.endLine totalLines ≤ left.endLine

private theorem withEnd_laminar (ascending : Ascending (heading :: later))
    {other : IndexedHeading} (mem : other ∈ withEnds totalLines later) :
    Laminar totalLines (withEnd totalLines heading later) other := by
  obtain ⟨before, own, after, rfl, rfl⟩ := mem_withEnds.mp mem
  obtain ⟨_, rest⟩ := pairwise_cons.mp ascending
  obtain ⟨_, onward, between⟩ := pairwise_append.mp rest
  rcases endLine_cases totalLines ascending with ⟨opens, ends⟩ | ⟨next, inLater, closes, ends, opens⟩
  · refine .inr ⟨opens own (by simp), ?_⟩
    rw [ends]
    omega
  · by_cases apart : next.startLine ≤ own.startLine
    · left
      rw [withEnd_startLine]
      omega
    · have deeper := opens own (by simp) (by omega)
      have behind : next ∈ after := by
        rcases mem_append.mp inLater with earlier | later
        · have order := between next earlier own (.head _)
          omega
        · exact (mem_cons.mp later).resolve_left fun same => apart (by rw [same])
      refine .inr ⟨deeper, ?_⟩
      rcases endLine_cases totalLines onward with ⟨none, _⟩ | ⟨first, _, _, stops, earlier⟩
      · have above := none next behind
        omega
      · have order : first.startLine ≤ next.startLine := by
          by_contra before
          have above := earlier next behind (by omega)
          omega
        omega

theorem withEnds_laminar (ascending : Ascending headings) :
    (withEnds totalLines headings).Pairwise (Laminar totalLines) := by
  induction headings with
  | nil => exact .nil
  | cons heading rest ih => exact .cons (fun other mem => withEnd_laminar ascending mem) (ih (pairwise_cons.mp ascending).2)

theorem map_startLine_withEnds : (withEnds totalLines headings).map IndexedHeading.startLine =
    headings.map IndexedHeading.startLine := by
  induction headings with
  | nil => rfl
  | cons heading rest ih => rw [withEnds, map_cons, map_cons, ih, withEnd_startLine]

private theorem ascending_sortedHeadings (nodup : (headings.map IndexedHeading.startLine).Nodup) :
    Ascending (sortedHeadings headings) := by
  have sorted : (sortedHeadings headings).Pairwise fun left right => left.place ≤ right.place := pairwise_insertionSort _ _
  have apart : (sortedHeadings headings).Pairwise fun left right => left.startLine ≠
    right.startLine := pairwise_map.mp (((perm_insertionSort _ headings).map _).nodup_iff.mpr nodup)
  refine (sorted.and apart).imp fun {left right} order => ?_
  obtain ⟨before, differ⟩ := order
  rcases Prod.Lex.le_iff.mp before with less | ⟨same, _⟩
  · exact less
  · exact absurd same differ

variable {last : IndexedHeading} {line : Nat}

private theorem withEnds_split {before after : List IndexedHeading}
    (split : withEnds totalLines headings = before ++ last :: after) :
    ∃ front own rest, headings = front ++ own :: rest ∧
      last = withEnd totalLines own rest ∧ after = withEnds totalLines rest := by
  induction before generalizing headings with
  | nil =>
    cases headings with
    | nil => cases split
    | cons own rest =>
      obtain ⟨same, others⟩ := cons.inj split
      exact ⟨[], own, rest, rfl, same.symm, others.symm⟩
  | cons _ before ih =>
    cases headings with
    | nil => cases split
    | cons first rest =>
      obtain ⟨front, own, behind, same, isLast, others⟩ := ih (cons.inj split).2
      exact ⟨first :: front, own, behind, by rw [same]; rfl, isLast, others⟩

def IsLastAt (line : Nat) (headings : List IndexedHeading) (last : IndexedHeading) : Prop :=
  ∃ before after, headings = before ++ last :: after ∧ last.startLine ≤ line ∧ ∀ other ∈ after, line < other.startLine

private theorem exists_isLastAt (started : ∃ first ∈ headings, first.startLine ≤ line) :
    ∃ last, IsLastAt line headings last := by
  induction headings with
  | nil => simp at started
  | cons heading rest ih =>
    by_cases later : ∃ first ∈ rest, first.startLine ≤ line
    · obtain ⟨last, before, after, rfl, starts, behind⟩ := ih later
      exact ⟨last, heading :: before, after, rfl, starts, behind⟩
    · have none : ∀ other ∈ rest, line < other.startLine := fun other mem =>
        Nat.lt_of_not_le fun starts => later ⟨other, mem, starts⟩
      rcases started with ⟨first, mem, starts⟩
      rcases mem_cons.mp mem with rfl | inRest
      · exact ⟨first, [], rest, rfl, starts, none⟩
      · exact absurd ⟨first, inRest, starts⟩ later

private theorem headingAtLine_eq (ascending : Ascending headings)
    (inFile : line ≤ totalLines) (isLast : IsLastAt line (withEnds totalLines headings) last) :
    headingAtLine (withEnds totalLines headings) line = some last := by
  obtain ⟨before, after, split, starts, behind⟩ := isLast
  have covers : line ≤ last.endLine := by
    obtain ⟨front, own, rest, rfl, rfl, rfl⟩ := withEnds_split split
    rcases endLine_cases totalLines (pairwise_append.mp ascending).2.1 with
      ⟨_, ends⟩ | ⟨next, inRest, _, ends, _⟩
    · omega
    · have listed : next.startLine ∈ (withEnds totalLines rest).map IndexedHeading.startLine := by
        rw [map_startLine_withEnds]
        exact mem_map_of_mem inRest
      obtain ⟨shown, mem, same⟩ := mem_map.mp listed
      have above := behind shown mem
      omega
  have mem : last ∈ (withEnds totalLines headings).filter fun heading =>
      heading.startLine ≤ line ∧ line ≤ heading.endLine := by
    rw [mem_filter, split]
    exact ⟨by simp, decide_eq_true ⟨starts, covers⟩⟩
  unfold headingAtLine
  cases found : Program.lastGreatest? IndexedHeading.level _ with
  | none => exact absurd (Program.lastGreatest?_eq_none_iff.mp found) (ne_nil_of_mem mem)
  | some greatest =>
    have deepest := Program.le_lastGreatest? found last mem
    obtain ⟨inHeadings, covering⟩ := mem_filter.mp (Program.mem_of_lastGreatest? found)
    obtain ⟨above, below⟩ := of_decide_eq_true covering
    have pairs := @withEnds_laminar totalLines headings ascending
    rw [split] at inHeadings pairs
    rcases mem_append.mp inHeadings with earlier | onward
    · rcases (pairwise_append.mp pairs).2.2 greatest earlier last (.head _) with
        apart | ⟨less, _⟩ <;> omega
    · rcases mem_cons.mp onward with rfl | later
      · rfl
      · have order := behind greatest later
        omega

/-- Two ranges are apart, or nested as far as the file goes with the inner heading deeper,
and a line of the file from the first heading on belongs to the last heading that starts
there or before. -/
theorem sections_laminar (totalLines : Nat)
    (headings : List IndexedHeading) (nodup : (headings.map IndexedHeading.startLine).Nodup) :
    (withEnds totalLines (sortedHeadings headings)).Pairwise (Laminar totalLines) ∧
      ∀ line ≤ totalLines, (∃ first ∈ headings, first.startLine ≤ line) →
        ∃ last, IsLastAt line (withEnds totalLines (sortedHeadings headings)) last ∧
          headingAtLine (withEnds totalLines (sortedHeadings headings)) line = some last := by
  have ascending := ascending_sortedHeadings nodup
  refine ⟨withEnds_laminar ascending, fun line inFile started => ?_⟩
  obtain ⟨first, mem, starts⟩ := started
  have listed : first.startLine ∈ (withEnds totalLines (sortedHeadings headings)).map IndexedHeading.startLine := by
    rw [map_startLine_withEnds]
    exact mem_map_of_mem ((mem_insertionSort _).mpr mem)
  obtain ⟨shown, inEnds, same⟩ := mem_map.mp listed
  have here : shown.startLine ≤ line := by omega
  obtain ⟨last, isLast⟩ := exists_isLastAt ⟨shown, inEnds, here⟩
  exact ⟨last, isLast, headingAtLine_eq ascending inFile isLast⟩

end

def plainHeading (level startLine : Nat) : IndexedHeading :=
  { title := "Notes", path := "document.notes", slug := "notes", level, startLine, endLine := startLine
    fileHash := none }

theorem sections_laminar_pair :
    ([plainHeading 1 1, plainHeading 3 2].map IndexedHeading.startLine).Nodup ∧
      (withEnds 4 (sortedHeadings [plainHeading 1 1, plainHeading 3 2])).Pairwise (Laminar 4) :=
  ⟨by decide, (sections_laminar 4 [plainHeading 1 1, plainHeading 3 2] (by decide)).1⟩

/-- In a file of five lines, the section from line 4 on is closed by a heading of an older text, on
line 9, while the one around it ends with the file. -/
theorem shrunkFile_overlaps :
    ([plainHeading 1 2, plainHeading 2 4, plainHeading 2 9].map IndexedHeading.startLine).Nodup ∧
      ¬ (withEnds 5 (sortedHeadings [plainHeading 1 2, plainHeading 2 4, plainHeading 2 9])).Pairwise
        fun left right => left.endLine < right.startLine ∨ left.level < right.level ∧ right.endLine ≤ left.endLine := by
  decide

/-- The section that a lookup by line returns covers the line, and its text is cut from the range of
the section. -/
theorem lookupDocsSection_covers {nfc : String → String}
    {readToString : String → Option (Except String Text)} {nodesByFile : String → List Core.Node}
    {given : String} {line maxBytes : Nat} {result : DocsSectionLookup}
    (found : lookupDocsSection nfc readToString nodesByFile given (.line line) maxBytes =
      .ok result) :
    ∃ contents heading excerpt, readToString result.file = some (.ok contents) ∧
      result.selected = .inl (heading, excerpt) ∧
      heading.startLine ≤ line ∧ line ≤ heading.endLine ∧
      boundedExcerpt (lines contents) heading.startLine heading.endLine maxBytes =
        some excerpt := by
  unfold lookupDocsSection at found
  obtain ⟨file, -, found⟩ := Program.bind_eq_ok found
  cases read : readToString file with
  | none =>
    rw [read] at found
    cases found
  | some answer =>
    rw [read] at found
    cases answer with
    | error error => cases found
    | ok contents =>
      simp only [Except.mapError, bind, Except.bind] at found
      split_ifs at found
      split at found
      · next heading covering =>
        split at found
        · next excerpt made =>
          cases found
          have chosen := (mem_filter.mp (Program.mem_of_lastGreatest? covering)).2
          obtain ⟨starts, ends⟩ := of_decide_eq_true chosen
          exact ⟨contents, heading, excerpt, read, rfl, starts, ends, made⟩
        · cases found
      · cases found

private theorem lastStart_spec {maxBytes : Nat} {done rest : Text} (stop : Nat) (more : rest ≠ [])
    (within : byteLength done ≤ maxBytes) (large : maxBytes < byteLength (done ++ rest)) :
    ∃ piece c behind, done ++ rest = piece ++ c :: behind ∧ lastStart maxBytes (byteLength done) rest stop = byteLength piece ∧
      byteLength piece ≤ maxBytes ∧ maxBytes < byteLength piece + c.utf8Size := by
  induction rest generalizing done stop with
  | nil => exact absurd rfl more
  | cons c rest ih =>
    rw [lastStart, if_neg (Nat.not_lt.mpr within)]
    by_cases last : maxBytes < byteLength done + c.utf8Size
    · refine ⟨done, c, rest, rfl, ?_, within, last⟩
      cases rest with
      | nil => rfl
      | cons d rest => rw [lastStart, if_pos last]
    · have grown : byteLength (done ++ [c]) = byteLength done + c.utf8Size := by simp
      have onward : rest ≠ [] := by
        rintro rfl
        omega
      have same : done ++ c :: rest = (done ++ [c]) ++ rest := by simp
      rw [same] at large ⊢
      rw [← grown]
      exact ih (byteLength done) onward (by omega) large

theorem truncateToBoundary_spec {maxBytes : Nat}
    {text : Text} (large : maxBytes < byteLength text) :
    ∃ piece c behind, text = piece ++ c :: behind ∧ truncateToBoundary text maxBytes = some piece ∧
      byteLength piece ≤ maxBytes ∧ maxBytes < byteLength piece + c.utf8Size := by
  have more : text ≠ [] := by
    rintro rfl
    simp at large
  obtain ⟨piece, c, behind, rfl, stop, within, last⟩ := @lastStart_spec maxBytes [] text 0 more (Nat.zero_le _) large
  rw [byteLength_nil] at stop
  refine ⟨piece, c, behind, rfl, ?_, within, last⟩
  unfold truncateToBoundary
  rw [if_neg (Nat.not_le.mpr large), stop]
  dsimp only
  rw [if_neg, takeBytes_append]
  -- No character of the text ends at the limit behind an empty piece.
  rintro ⟨empty, pos, taken⟩
  obtain ⟨front, takes⟩ := Option.isSome_iff_exists.mp taken
  obtain ⟨rest, split, size⟩ := eq_append_of_takeBytes takes
  cases piece with
  | nil =>
    cases front with
    | nil =>
      rw [byteLength_nil] at size
      omega
    | cons d front =>
      obtain ⟨rfl, _⟩ := cons.inj split
      rw [byteLength_cons] at size
      rw [byteLength_nil] at last
      omega
  | cons d piece =>
    rw [byteLength_cons] at empty
    have wide := d.utf8Size_pos
    omega

theorem join_cons (first : Text) (others : List Text) :
    join (first :: others) = first ++ others.flatMap fun line => '\n' :: line := by
  induction others generalizing first with
  | nil => simp [join, intercalate]
  | cons second others ih =>
    have split : join (first :: second :: others) = first ++ '\n' :: join (second :: others) := by simp [join, intercalate]
    rw [split, ih, flatMap_cons]
    rfl

section
variable {fileLines : List Text} {maxBytes : Nat} {numbers : List Nat} {state : ExcerptState}

structure Open (maxBytes : Nat) (state : ExcerptState) : Prop where
  used : state.usedBytes = byteLength state.content
  fits : state.usedBytes ≤ maxBytes
  whole : state.truncated = false

structure Cut (maxBytes : Nat) (text content : Text) (truncated : Bool) : Prop where
  bounded : byteLength content ≤ maxBytes
  isPrefix : content <+: text
  truncated_iff : truncated = true ↔ content ≠ text

variable {lineNumber : Nat} {rest : List Nat} {texts : List Text}

theorem sectionLines_nil_of_lineAt (ascending : (lineNumber :: rest).Pairwise (· ≤ ·))
    (beyond : lineAt fileLines lineNumber = none) :
    sectionLines fileLines (lineNumber :: rest) = [] := by
  rw [sectionLines, filterMap_eq_nil_iff]
  intro other mem
  have order : lineNumber ≤ other := by
    rcases mem_cons.mp mem with rfl | later
    · exact le_rfl
    · exact (pairwise_cons.mp ascending).1 other later
  unfold lineAt at beyond ⊢
  rw [getElem?_eq_none_iff] at beyond
  rw [getElem?_eq_none (by omega)]
  rfl

theorem sectionLines_cons {line : Text} (here : lineAt fileLines lineNumber = some line) :
    sectionLines fileLines (lineNumber :: rest) =
      withoutReturns line :: sectionLines fileLines rest := by
  rw [sectionLines, filterMap_cons, here]
  rfl

private theorem excerptLoop_filled (ascending : numbers.Pairwise (· ≤ ·))
    (started : Open maxBytes state) (filled : state.content ≠ []) :
    ∃ reached, excerptLoop fileLines maxBytes numbers state = some reached ∧ state.content <+: reached.content ∧
      Cut maxBytes (state.content ++ (sectionLines fileLines numbers).flatMap fun line =>
        '\n' :: line) reached.content reached.truncated := by
  induction numbers generalizing state with
  | nil =>
    refine ⟨state, rfl, prefix_refl _, started.used ▸ started.fits, ?_, ?_⟩
    · simp [sectionLines]
    · simp [sectionLines, started.whole]
  | cons lineNumber rest ih =>
    unfold excerptLoop
    cases here : lineAt fileLines lineNumber with
    | none =>
      rw [sectionLines_nil_of_lineAt ascending here]
      refine ⟨state, rfl, prefix_refl _, started.used ▸ started.fits, ?_, ?_⟩
      · simp
      · simp [started.whole]
    | some line =>
      rw [sectionLines_cons here, flatMap_cons]
      have mark : separator state.content = ['\n'] := if_neg filled
      have size : byteLength ['\n'] = 1 := by decide
      simp only [mark, size]
      by_cases fits : state.usedBytes + (1 + byteLength (withoutReturns line)) ≤ maxBytes
      · rw [if_pos fits]
        have next : Open maxBytes { state with
            content := state.content ++ ['\n'] ++ withoutReturns line
            usedBytes := state.usedBytes + 1 + byteLength (withoutReturns line)
            outLines := state.outLines ++ [⟨lineNumber, withoutReturns line⟩] } := by
          refine ⟨?_, ?_, started.whole⟩
          · simp only [byteLength_append, size, started.used]
          · dsimp only
            omega
        obtain ⟨reached, ran, grown, cut⟩ := ih (pairwise_cons.mp ascending).2 next (by simp)
        refine ⟨reached, ran, List.IsPrefix.trans ?_ grown, ?_⟩
        · simp [append_assoc]
        · simpa [append_assoc] using cut
      · rw [if_neg fits]
        have used := started.used
        have within := started.fits
        by_cases room : 0 < maxBytes - (state.usedBytes + 1)
        · rw [if_pos room]
          obtain ⟨piece, c, behind, split, cut, bounded, _⟩ := @truncateToBoundary_spec
            (maxBytes - (state.usedBytes + 1)) (withoutReturns line) (by omega)
          rw [cut, split]
          refine ⟨_, rfl, ?_, ?_, ?_, ?_⟩
          · simp [append_assoc]
          · simp only [byteLength_append, size]
            omega
          all_goals simp [append_assoc]
        · rw [if_neg room]
          refine ⟨_, rfl, prefix_refl _, ?_, ?_, ?_⟩
          · dsimp only
            omega
          all_goals simp

theorem Open.untouched (started : Open maxBytes state) (empty : state.content = []) :
    Cut maxBytes [] state.content state.truncated := by
  rw [empty, started.whole]
  exact ⟨Nat.zero_le _, nil_prefix, nofun, fun differ => absurd rfl differ⟩

private theorem excerptLoop_empty (ascending : numbers.Pairwise (· ≤ ·))
    (started : Open maxBytes state) (empty : state.content = []) :
    ∃ reached, excerptLoop fileLines maxBytes numbers state = some reached ∧
      Cut maxBytes (join ((sectionLines fileLines numbers).dropWhile (· = []))) reached.content reached.truncated ∧
      ∀ c rest others, (sectionLines fileLines numbers).dropWhile (· = []) = (c :: rest) :: others →
        (reached.content = [] ↔ maxBytes < c.utf8Size) := by
  have zero : state.usedBytes = 0 := by rw [started.used, empty, byteLength_nil]
  induction numbers generalizing state with
  | nil => exact ⟨state, rfl, started.untouched empty, nofun⟩
  | cons lineNumber rest ih =>
    unfold excerptLoop
    cases here : lineAt fileLines lineNumber with
    | none =>
      rw [sectionLines_nil_of_lineAt ascending here]
      exact ⟨state, rfl, started.untouched empty, nofun⟩
    | some line =>
      have mark : separator [] = [] := rfl
      rw [sectionLines_cons here]
      simp only [mark, empty, byteLength_nil, zero, Nat.zero_add, nil_append]
      cases text : withoutReturns line with
      | nil =>
        rw [byteLength_nil, if_pos (Nat.zero_le _)]
        exact ih (pairwise_cons.mp ascending).2 ⟨rfl, Nat.zero_le _, started.whole⟩ rfl rfl
      | cons c letters =>
        rw [dropWhile_cons_of_neg (by simp), join_cons]
        by_cases fits : byteLength (c :: letters) ≤ maxBytes
        · rw [if_pos fits]
          obtain ⟨reached, ran, grown, cut⟩ := @excerptLoop_filled fileLines maxBytes rest
            { state with
              content := c :: letters
              usedBytes := byteLength (c :: letters)
              outLines := state.outLines ++ [⟨lineNumber, c :: letters⟩] }
            (pairwise_cons.mp ascending).2 ⟨rfl, fits, started.whole⟩ (by simp)
          refine ⟨reached, ran, cut, fun d tail others same => ?_⟩
          obtain ⟨rfl, _⟩ := cons.inj (cons.inj same).1
          rw [byteLength_cons] at fits
          constructor
          · intro none
            rw [none] at grown
            exact absurd (prefix_nil.mp grown) (by simp)
          · intro wide
            omega
        · rw [if_neg fits]
          by_cases room : 0 < maxBytes - 0
          · rw [if_pos room, Nat.sub_zero]
            obtain ⟨piece, d, behind, split, cut, bounded, last⟩ := truncateToBoundary_spec (Nat.lt_of_not_le fits)
            rw [cut, split]
            refine ⟨_, rfl, ⟨bounded, by simp, by simp⟩, fun e tail others same => ?_⟩
            obtain ⟨head, _⟩ := cons.inj same
            dsimp only
            constructor
            · rintro rfl
              obtain ⟨rfl, _⟩ := cons.inj head
              rwa [byteLength_nil, Nat.zero_add] at last
            · intro wide
              cases piece with
              | nil => rfl
              | cons f piece =>
                obtain ⟨rfl, _⟩ := cons.inj head
                rw [byteLength_cons] at bounded
                omega
          · rw [if_neg room]
            refine ⟨_, rfl, ⟨?_, ?_, ?_⟩, fun e tail others _ => ?_⟩
            · simp
            · simp
            · simp
            · have wide := e.utf8Size_pos
              simp only [true_iff]
              omega

structure Exact (maxBytes : Nat) (full : Text) (excerpt : BoundedExcerpt) : Prop where
  bounded : byteLength excerpt.content ≤ maxBytes
  isPrefix : excerpt.content <+: full
  truncated_iff : excerpt.truncated = true ↔ excerpt.content ≠ full
  omitted : byteLength excerpt.content + excerpt.omittedByteCount = byteLength full

def LeadsWithText (texts : List Text) : Prop := texts.length ≤ 1 ∨ texts.head? ≠ some []

/-- The first character behind leading blank lines is wider than the limit. -/
def FirstTooWide (maxBytes : Nat) (texts : List Text) : Prop :=
  ∃ c rest others, texts.dropWhile (· = []) = (c :: rest) :: others ∧ maxBytes < c.utf8Size

theorem join_dropWhile_of_leadsWithText (leads : LeadsWithText texts) :
    join (texts.dropWhile (· = [])) = join texts := by
  cases texts with
  | nil => rfl
  | cons first others =>
    cases first with
    | cons c rest => rw [dropWhile_cons_of_neg (by simp)]
    | nil =>
      have single : others = [] := by
        rcases leads with short | text
        · exact length_eq_zero_iff.mp (by simpa using short)
        · exact absurd rfl text
      subst single
      rfl

theorem join_of_not_leadsWithText (blank : ¬ LeadsWithText texts) :
    ∃ rest, join texts = '\n' :: rest := by
  unfold LeadsWithText at blank
  push Not at blank
  obtain ⟨long, first⟩ := blank
  cases texts with
  | nil => simp at first
  | cons head others =>
    cases others with
    | nil => simp at long
    | cons second others =>
      obtain rfl : head = [] := by simpa using first
      rw [join_cons, nil_append, flatMap_cons]
      exact ⟨_, rfl⟩

/-- An excerpt is exact exactly when the section does not lead with blank lines, or nothing
of it fits. -/
theorem boundedExcerpt_exact_iff (startLine endLine : Nat)
    (plain : ∀ line ∈ fileLines, '\n' ∉ line) :
    (∃ excerpt, boundedExcerpt fileLines startLine endLine maxBytes = some excerpt ∧
      Exact maxBytes (join (sectionLines fileLines (lineNumbers startLine endLine))) excerpt) ↔
      LeadsWithText (sectionLines fileLines (lineNumbers startLine endLine)) ∨
        FirstTooWide maxBytes (sectionLines fileLines (lineNumbers startLine endLine)) := by
  have ascending : (lineNumbers startLine endLine).Pairwise (· ≤ ·) := pairwise_le_range'
  have unbroken : ∀ text ∈ sectionLines fileLines (lineNumbers startLine endLine), '\n' ∉ text := by
    intro text mem
    obtain ⟨number, _, shown⟩ := mem_filterMap.mp mem
    obtain ⟨line, here, rfl⟩ := Option.map_eq_some_iff.mp shown
    intro inside
    have inReverse := (dropWhile_suffix _).mem (mem_reverse.mp inside)
    exact plain line (mem_of_getElem? here) (mem_reverse.mp inReverse)
  obtain ⟨reached, ran, cut, wide⟩ := @excerptLoop_empty fileLines maxBytes _ {} ascending ⟨rfl, Nat.zero_le _, rfl⟩ rfl
  unfold boundedExcerpt
  dsimp only
  rw [ran]
  dsimp only [Option.map_some]
  generalize sectionLines fileLines (lineNumbers startLine endLine) = texts at *
  simp only [Option.some.injEq, exists_eq_left']
  constructor
  · intro exact
    by_contra neither
    push Not at neither
    obtain ⟨blank, fits⟩ := neither
    obtain ⟨tail, full⟩ := join_of_not_leadsWithText blank
    have isPrefix := exact.isPrefix
    have cutShort := exact.truncated_iff
    rw [full] at isPrefix cutShort
    dsimp only at isPrefix cutShort
    cases shown : texts.dropWhile (· = []) with
    | nil =>
      rw [shown] at cut
      have empty := prefix_nil.mp cut.isPrefix
      rw [empty] at cutShort
      exact cut.truncated_iff.mp (cutShort.mpr (by simp)) empty
    | cons first others =>
      have inTexts : first ∈ texts := (dropWhile_suffix _).mem (shown ▸ mem_cons_self)
      have text := head?_dropWhile_not (p := fun line : Text => decide (line = [])) texts
      rw [shown] at text
      cases first with
      | nil => simp at text
      | cons c rest =>
        have kept := mt (wide c rest others shown).mp fun tooWide => fits ⟨c, rest, others, shown, tooWide⟩
        have ownPrefix := cut.isPrefix
        rw [shown, join_cons] at ownPrefix
        cases content : reached.content with
        | nil => exact kept content
        | cons d more =>
          rw [content] at isPrefix ownPrefix
          obtain ⟨rfl, _⟩ := cons_prefix_cons.mp isPrefix
          obtain ⟨rfl, _⟩ := cons_prefix_cons.mp ownPrefix
          exact unbroken _ inTexts (.head _)
  · rintro (leads | tooWide)
    · rw [join_dropWhile_of_leadsWithText leads] at cut
      refine ⟨cut.bounded, cut.isPrefix, cut.truncated_iff, ?_⟩
      obtain ⟨rest, split⟩ := cut.isPrefix
      rw [← split, byteLength_append]
      dsimp only
      omega
    · obtain ⟨c, rest, others, shown, tooWide⟩ := tooWide
      have empty := (wide c rest others shown).mpr tooWide
      have broken := cut.truncated_iff
      rw [shown, join_cons, empty] at broken
      have full : join texts ≠ [] := by
        by_cases leads : LeadsWithText texts
        · rw [← join_dropWhile_of_leadsWithText leads, shown, join_cons]
          simp
        · obtain ⟨tail, same⟩ := join_of_not_leadsWithText leads
          simp [same]
      refine ⟨?_, ?_, ?_, ?_⟩
      · simp [empty]
      · simp [empty]
      · simp [empty, broken.mpr (by simp), full.symm]
      · simp [empty]

end

theorem boundedExcerpt_exact_twoLines : ∃ excerpt, boundedExcerpt [['a'], [], ['b']] 1 3 2 =
    some excerpt ∧ Exact 2 (join (sectionLines [['a'], [], ['b']] (lineNumbers 1 3))) excerpt :=
  (boundedExcerpt_exact_iff 1 3 (by decide)).mpr (.inl (.inr (by decide)))

/-- A section that starts with a blank line loses it, while nothing is reported as truncated. -/
theorem leadingBlankLine_lost : ¬ ∃ excerpt, boundedExcerpt [[], ['a']] 1 2 100 = some excerpt ∧
    Exact 100 (join (sectionLines [[], ['a']] (lineNumbers 1 2))) excerpt := by
  rintro ⟨excerpt, built, exact⟩
  have shown : boundedExcerpt [[], ['a']] 1 2 100 = some ⟨['a'], [⟨1, []⟩, ⟨2, ['a']⟩], false, 1⟩ := rfl
  obtain rfl := Option.some.inj (shown.symm.trans built)
  exact absurd exact.isPrefix (by decide)

end Atlas.Review
