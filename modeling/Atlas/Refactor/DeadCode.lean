import Atlas.Refactor.ImportCleanup
import Atlas.Refactor.RenameProperties
import Atlas.Text.Trim

/-! Planning the removal of a symbol that nothing refers to. -/
namespace Atlas.Refactor
open List Core Search Store
open Text (lines)

def entrypointNames : List String :=
  ["main", "new", "init", "setup", "configure", "run", "start", "handler", "middleware"]
def deadCodeKinds : List String :=
  ["function", "method", "class", "struct", "enum", "trait", "interface", "constant", "variable"]
def nonCodeLanguages : List String := ["toml", "json", "markdown", "html", "css"]

def isDeadCode (db : Db) (row : NodeRow) : Bool :=
  let modifiers := (row.modifiers.getD "").toList
  !row.isTest && decide (row.kind ∈ deadCodeKinds) && row.language.any (fun language => decide (language ∉ nonCodeLanguages)) &&
    !(Sql.like "%pub%".toList modifiers || Sql.like "%export%".toList modifiers || Sql.like "%public%".toList modifiers) &&
    !db.edges.any fun edge => edge.targetQualified =
      row.qualifiedName && edge.kind ∈ ["calls", "references", "imports", "extends", "implements"]

def deadCodeCandidates (db : Db) (limit : Nat) : List Node :=
  (((db.nodes.filter (isDeadCode db)).insertionSort fun left right =>
    left.filePath < right.filePath ∨ left.filePath = right.filePath ∧ left.lineStart ≤ right.lineStart).take limit).map rowToNode

def highConfidence : UInt32 := 0x3f19999a
def isBlocking (edge : Edge) : Bool := (edge.kind = .calls || edge.kind = .imports || edge.kind =
    .references) && !confidenceBelow edge.confidence highConfidence

inductive DeadCodeFailure where
  | refused (error : AtlasError)
  | outsideLines
  | importPanicked

def sliceInclusive (parts : List Text) (first last : Nat) : Option (List Text) :=
  if first ≤ last + 1 ∧ last + 1 ≤ parts.length then some ((parts.take (last + 1)).drop first) else none

section
variable {File : Type}
  (machine : Machine File) (debugNames : List Text → String) (db : Db) (disk : File → Option Text)

def nodeSpan (node : Node) (fileLines : List Text) : Option (List Text) :=
  sliceInclusive fileLines (node.lineStart - 1) (min node.lineEnd fileLines.length - 1)

def removeSpanEdit (node : Node) (span : List Text) : RefactorEdit where
  filePath := node.filePath
  lineStart := node.lineStart
  lineEnd := node.lineEnd
  oldText := ['\n'].intercalate span
  newText := []
  editKind := .removeSpan

def removalReview (qname : String) (inbound : List (Node × Edge)) : List String := ((inbound.filter
    fun reference => confidenceBelow reference.2.confidence highConfidence).map fun reference =>
      "unresolved reference in \x60" ++ reference.1.filePath ++ "\x60 — verify manually") ++
  if ¬ (deadCodeCandidates db 1000).any (fun node => node.qualifiedName = qname) ∧ inbound = [] then
    ["symbol is not in dead-code list; verify it is truly unused"]
  else []

def removalPlan (qname : String) (node : Node) (inbound : List (Node × Edge))
    (span : List Text) (importEdits : List RefactorEdit) : EstimatedPlan where
  operation := .removeDeadCode qname
  edits := sortAndDedup (removeSpanEdit node span :: importEdits)
  manualReview := removalReview db qname inbound
  affectedFiles := [node.filePath]
  estimatedSafety :=
    if inbound.any fun reference => confidenceBelow reference.2.confidence highConfidence then .caution
    else .safe

/-- The symbol, which is no entrypoint and has no blocking reference that the query returns. -/
def removalTarget (qname : String) : Except AtlasError Node :=
  match nodeByQname db qname with
  | none => .error (.other ("symbol not found: \x60" ++ qname ++ "\x60"))
  | some row =>
    if row.name ∈ entrypointNames then
      .error (.other ("refusing to remove \x60" ++ row.name ++ "\x60: entrypoint name protected"))
    else
      let blocking := (inboundEdges db qname edgeQueryLimit).filter fun reference => isBlocking reference.2
      if blocking ≠ [] then
        .error (.other ("\x60" ++ qname ++ "\x60 has " ++ toString blocking.length ++
          " high-confidence inbound reference(s); not removable"))
      else .ok (rowToNode row)

def planDeadCodeRemoval (qname : String) : Except DeadCodeFailure EstimatedPlan :=
  let qname := normalizeQnKindTokens qname
  match removalTarget db qname with
  | .error error => .error (.refused error)
  | .ok node =>
    match readFileContent machine disk node.filePath with
    | .error error => .error (.refused error)
    | .ok content =>
      match nodeSpan node (lines content) with
      | none => .error .outsideLines
      | some span =>
        let inbound := inboundEdges db qname edgeQueryLimit
        match planImportCleanup machine debugNames disk node.filePath with
        | .error .panicked => .error .importPanicked
        | .error (.refused _) => .ok (removalPlan db qname node inbound span [])
        | .ok imports => .ok (removalPlan db qname node inbound span imports.edits)

end

/-! When the removal of a symbol is planned without a panic, and never for a symbol that
something surely refers to. -/

open Repo (trim)

/-! ## The slice between the braces of an import -/

def BracesInOrder (line : Text) : Prop := '{' ∈ line → '}' ∉ line.takeWhile (· ≠ '{')

instance (line : Text) : Decidable (BracesInOrder line) := inferInstanceAs (Decidable (_ → _))

private theorem bracesInOrder_append {before body behind : Text} (frontOpen : '{' ∉ before)
    (frontClosed : '}' ∉ before) (back : '{' ∉ behind) :
    BracesInOrder (before ++ (body ++ behind)) ↔ BracesInOrder body := by
  have clear : ∀ c ∈ before, decide (c ≠ '{') = true := by
    intro c mem
    rw [decide_eq_true_eq]
    rintro rfl
    exact frontOpen mem
  have opens : '{' ∈ before ++ (body ++ behind) ↔ '{' ∈ body := by
    rw [mem_append, mem_append]
    simp [frontOpen, back]
  unfold BracesInOrder
  rw [opens, takeWhile_append_of_pos clear, mem_append]
  refine imp_congr_right fun inside => ?_
  have stops : (body ++ behind).takeWhile (· ≠ '{') = body.takeWhile (· ≠ '{') := by
    rw [takeWhile_append, if_neg]
    intro whole
    have same := (takeWhile_sublist (l := body) (· ≠ '{')).eq_of_length whole
    rw [← same] at inside
    have other := all_eq_true.mp all_takeWhile '{' inside
    simp at other
  rw [stops]
  simp [frontClosed]

private theorem trimStartMatches_use (line : Text) : ∃ before, line =
    before ++ trimStartMatches "use ".toList line ∧ '{' ∉ before ∧ '}' ∉ before := by
  have walk (rounds : Nat) (text : Text) : ∃ before, text =
    before ++ trimStartMatches.strip "use ".toList rounds text ∧ '{' ∉ before ∧ '}' ∉ before := by
    induction rounds generalizing text with
    | zero => exact ⟨[], rfl, not_mem_nil, not_mem_nil⟩
    | succ rounds ih =>
      unfold trimStartMatches.strip
      split
      · next starts =>
          obtain ⟨rest, whole⟩ := isPrefixOf_iff_prefix.mp starts
          obtain ⟨before, same, opened, closed⟩ := ih (text.drop "use ".toList.length)
          refine ⟨"use ".toList ++ before, ?_, ?_, ?_⟩
          · rw [append_assoc, ← same, ← whole, drop_left]
          · rw [mem_append, not_or]
            exact ⟨by decide, opened⟩
          · rw [mem_append, not_or]
            exact ⟨by decide, closed⟩
      · exact ⟨[], rfl, not_mem_nil, not_mem_nil⟩
  exact walk line.length line

private theorem length_takeWhile_lt_iff {line : Text} (inside : '{' ∈ line) :
    (line.takeWhile (· ≠ '{')).length + 1 ≤ (line.takeWhile (· ≠ '}')).length ↔
      '}' ∉ line.takeWhile (· ≠ '{') := by
  induction line with
  | nil => cases inside
  | cons c rest ih =>
    by_cases opens : c = '{'
    · subst opens
      simp
    · have later : '{' ∈ rest := (mem_cons.mp inside).resolve_left (Ne.symm opens)
      by_cases closes : c = '}'
      · subst closes
        simp
      · have same : '}' ≠ c := Ne.symm closes
        have step := ih later
        simp only [ne_eq, decide_not] at step
        simp [opens, closes, same, step]

private theorem isSome_extractRustUseNames_iff (line : Text) :
    (extractRustUseNames line).isSome = true ↔ BracesInOrder line := by
  obtain ⟨before, stripped, opened, closed⟩ := trimStartMatches_use line
  obtain ⟨ended, whole, semicolons⟩ := Text.exists_stripEnd (fun c => decide (c = ';')) (trimStartMatches "use ".toList line)
  obtain ⟨front, back, parts, frontBlank, backBlank⟩ :=
    Text.exists_strip Repo.isWhitespace (trimEndOf ';' (trimStartMatches "use ".toList line))
  have body : line = (before ++ front) ++ (trim (trimEndOf ';' (trimStartMatches "use ".toList line)) ++ (back ++ ended)) := by
    have spelled : trimStartMatches "use ".toList line =
      front ++ (trim (trimEndOf ';' (trimStartMatches "use ".toList line)) ++ back) ++ ended := by
      conv => lhs; rw [whole]
      exact congrArg (· ++ ended) parts
    conv => lhs; rw [stripped, spelled]
    simp only [append_assoc]
  have order : BracesInOrder line ↔ BracesInOrder (trim (trimEndOf ';' (trimStartMatches "use ".toList line))) := by
    conv => lhs; rw [body]
    apply bracesInOrder_append
    · rw [mem_append, not_or]
      exact ⟨opened, fun mem => absurd (frontBlank _ mem) (by decide)⟩
    · rw [mem_append, not_or]
      exact ⟨closed, fun mem => absurd (frontBlank _ mem) (by decide)⟩
    · rw [mem_append, not_or]
      exact ⟨fun mem => absurd (backBlank _ mem) (by decide),
        fun mem => absurd (semicolons _ mem) (by decide)⟩
  rw [order]
  unfold extractRustUseNames BracesInOrder
  dsimp only
  split
  · next inside =>
      rw [← length_takeWhile_lt_iff inside]
      split
      · next fits => exact iff_of_true rfl fun _ => fits
      · next beyond => exact iff_of_false (by simp) fun fits => beyond (fits inside)
  · next outside => exact iff_of_true rfl fun inside => absurd inside outside

def ImportsReadable (path : String) (content : Text) : Prop := detectLanguage path = .rust →
    ∀ line ∈ lines content, isImportLine (trim line) .rust = true → BracesInOrder (trim line)

theorem isSome_findImport_iff (lang : Lang) (entry : Text × Nat) :
    (findImport lang entry).isSome = true ↔
      (lang = .rust → isImportLine (trim entry.1) .rust = true → BracesInOrder (trim entry.1)) := by
  unfold findImport
  cases lang with
  | rust =>
    split
    · next starts =>
        rw [Option.isSome_map, extractNames, isSome_extractRustUseNames_iff]
        exact ⟨fun order _ _ => order, fun order => order rfl starts⟩
    · next other => exact iff_of_true rfl fun _ starts => absurd starts other
  | python | jsTs | go | other =>
    refine iff_of_true ?_ nofun
    split
    all_goals rfl

private theorem isSome_findImports_iff (path : String) (content : Text) :
    (findImports (lines content) (detectLanguage path)).isSome = true ↔
      ImportsReadable path content := by
  have walk (entries : List (Text × Nat)) :
    (entries.mapM (findImport (detectLanguage path))).isSome = true ↔
    ∀ entry ∈ entries, (findImport (detectLanguage path) entry).isSome = true := by
    induction entries with
    | nil => exact iff_of_true rfl fun _ mem => absurd mem not_mem_nil
    | cons entry rest ih =>
      rw [mapM_cons, forall_mem_cons, ← ih]
      cases findImport (detectLanguage path) entry with
      | none => exact iff_of_false Bool.false_ne_true fun both => Bool.false_ne_true both.1
      | some found =>
        cases rest.mapM (findImport (detectLanguage path)) with
        | none => exact iff_of_false Bool.false_ne_true fun both => Bool.false_ne_true both.2
        | some others => exact iff_of_true rfl ⟨rfl, rfl⟩
  unfold findImports ImportsReadable
  rw [Option.isSome_map, walk]
  constructor
  · intro readable rust line mem starts
    obtain ⟨index, bound, rfl⟩ := mem_iff_getElem.mp mem
    have entry : ((lines content)[index], index) ∈ (lines content).zipIdx :=
      mk_mem_zipIdx_iff_getElem?.mpr (getElem?_eq_getElem bound)
    exact (isSome_findImport_iff _ _).mp (readable _ entry) rust starts
  · intro readable entry mem
    have inside : entry.1 ∈ lines content := mem_of_getElem? (mk_mem_zipIdx_iff_getElem?.mp mem)
    exact (isSome_findImport_iff _ _).mpr fun rust => readable rust entry.1 inside

/-- A stored reference of a kind and a confidence that rule the removal out. -/
def Blocks (row : NodeRow × EdgeRow) : Prop := row.2.kind ∈ ["calls", "imports", "references"] ∧
    confidenceBelow row.2.confidence highConfidence = false

private theorem kind_of_blocks : ∀ kind ∈ ["calls", "imports", "references"],
    (decide ((EdgeKind.fromStr? kind).getD .references = .calls) ||
      decide ((EdgeKind.fromStr? kind).getD .references = .imports) ||
        decide ((EdgeKind.fromStr? kind).getD .references = .references)) = true := by decide

private theorem isBlocking_of_row {row : NodeRow × EdgeRow}
    {reference : Node × Edge} (read : rowToNodeAndEdge row = some reference) (blocks : Blocks row) :
    isBlocking reference.2 = true := by
  unfold rowToNodeAndEdge rowToEdge at read
  cases placed : row.2.filePath with
  | none =>
    rw [placed] at read
    cases read
  | some path =>
    rw [placed] at read
    cases read
    have surely : (!confidenceBelow row.2.confidence highConfidence) = true := by
      rw [blocks.2]
      rfl
    exact Bool.and_eq_true_iff.mpr ⟨kind_of_blocks row.2.kind blocks.1, surely⟩

section
variable {File : Type} {machine : Machine File} {debugNames : List Text → String} {db : Db}
  {disk : File → Option Text} {qname : String}

/-- A symbol whose removal nothing refuses that the planner looks at before it slices the
file: neither its name, nor the references that the query returns, nor the file itself. -/
structure Removable (machine : Machine File) (db : Db)
    (disk : File → Option Text) (qname : String) (row : NodeRow) (content : Text) : Prop where
  found : nodeByQname db qname = some row
  ordinary : row.name ∉ entrypointNames
  unblocked : ∀ reference ∈ inboundEdges db qname edgeQueryLimit, isBlocking reference.2 = false
  readable : readFileContent machine disk row.filePath = .ok content

def SpanFits (row : NodeRow) (count : Nat) : Prop :=
  0 < count ∧ row.lineStart ≤ max 1 (min row.lineEnd count) + 1

private theorem removalTarget_eq_ok {node : Node} (accepted : removalTarget db qname = .ok node) :
    ∃ row, nodeByQname db qname = some row ∧ row.name ∉ entrypointNames ∧
      (∀ reference ∈ inboundEdges db qname edgeQueryLimit, isBlocking reference.2 = false) ∧ node = rowToNode row := by
  unfold removalTarget at accepted
  split at accepted
  · cases accepted
  · next row found =>
      split at accepted
      · cases accepted
      · next ordinary =>
          dsimp only at accepted
          split at accepted
          · cases accepted
          · next none' =>
              refine ⟨row, found, ordinary, fun reference mem => ?_, (Except.ok.inj accepted).symm⟩
              rw [not_not] at none'
              exact Bool.eq_false_iff.mpr (filter_eq_nil_iff.mp none' reference mem)

theorem Removable.target {row : NodeRow}
    {content : Text} (removable : Removable machine db disk qname row content) :
    removalTarget db qname = .ok (rowToNode row) := by
  have none' : ((inboundEdges db qname edgeQueryLimit).filter fun reference =>
      isBlocking reference.2) = [] :=
    filter_eq_nil_iff.mpr fun reference mem => Bool.eq_false_iff.mp (removable.unblocked reference mem)
  unfold removalTarget
  rw [removable.found]
  dsimp only
  rw [if_neg removable.ordinary, none']
  exact if_neg (not_not_intro rfl)

theorem Removable.unique {row row' : NodeRow}
    {content content' : Text} (removable : Removable machine db disk qname row content)
    (removable' : Removable machine db disk qname row' content') : row' = row ∧ content' = content := by
  cases removable.found.symm.trans removable'.found
  cases removable.readable.symm.trans removable'.readable
  exact ⟨rfl, rfl⟩

private theorem isSome_sliceInclusive_iff (parts : List Text) (first last : Nat) :
    (sliceInclusive parts first last).isSome = true ↔
      first ≤ last + 1 ∧ last + 1 ≤ parts.length := by
  unfold sliceInclusive
  split
  · next fits => exact iff_of_true rfl fits
  · next beyond => exact iff_of_false Bool.false_ne_true beyond

theorem isSome_nodeSpan_iff (row : NodeRow) (fileLines : List Text) :
    (nodeSpan (rowToNode row) fileLines).isSome = true ↔ SpanFits row fileLines.length := by
  have start : (rowToNode row).lineStart = row.lineStart := rfl
  have stop : (rowToNode row).lineEnd = row.lineEnd := rfl
  unfold nodeSpan SpanFits
  rw [isSome_sliceInclusive_iff, start, stop]
  omega

/-! ## Outcomes -/

private theorem planDeadCodeRemoval_refused (refused : ∀ row content,
    ¬ Removable machine db disk (normalizeQnKindTokens qname) row content) :
    ∃ error, planDeadCodeRemoval machine debugNames db disk qname = .error (.refused error) := by
  unfold planDeadCodeRemoval
  dsimp only
  cases targeted : removalTarget db (normalizeQnKindTokens qname) with
  | error error => exact ⟨error, rfl⟩
  | ok node =>
    obtain ⟨row, found, ordinary, unblocked, rfl⟩ := removalTarget_eq_ok targeted
    dsimp only
    cases read : readFileContent machine disk (rowToNode row).filePath with
    | error error => exact ⟨error, rfl⟩
    | ok content => exact absurd ⟨found, ordinary, unblocked, read⟩ (refused row content)

variable {row : NodeRow} {content : Text}
  (removable : Removable machine db disk (normalizeQnKindTokens qname) row content)

include removable

theorem Removable.outsideLines (beyond : ¬ SpanFits row (lines content).length) :
    planDeadCodeRemoval machine debugNames db disk qname = .error .outsideLines := by
  have cut : nodeSpan (rowToNode row) (lines content) = none := by
    have unsliced := mt (isSome_nodeSpan_iff row (lines content)).mp beyond
    rwa [Option.isSome_iff_ne_none, not_not] at unsliced
  have readable : readFileContent machine disk (rowToNode row).filePath = .ok content := removable.readable
  unfold planDeadCodeRemoval
  dsimp only
  rw [removable.target]
  dsimp only
  rw [readable]
  dsimp only
  rw [cut]

theorem Removable.planned (fits : SpanFits row (lines content).length) :
    (¬ ImportsReadable row.filePath content → planDeadCodeRemoval machine debugNames db disk qname =
      .error .importPanicked) ∧
    (ImportsReadable row.filePath content → ∃ plan, planDeadCodeRemoval machine debugNames db disk qname = .ok plan) := by
  obtain ⟨span, sliced⟩ := Option.isSome_iff_exists.mp ((isSome_nodeSpan_iff row _).mpr fits)
  have readable : readFileContent machine disk (rowToNode row).filePath = .ok content := removable.readable
  unfold planDeadCodeRemoval planImportCleanup
  dsimp only
  rw [removable.target]
  dsimp only
  rw [readable]
  dsimp only
  rw [sliced]
  dsimp only
  rw [← isSome_findImports_iff]
  have path : (rowToNode row).filePath = row.filePath := rfl
  rw [path]
  cases findImports (lines content) (detectLanguage row.filePath) with
  | none => exact ⟨fun _ => rfl, fun read => absurd read Bool.false_ne_true⟩
  | some imports => exact ⟨fun unread => absurd rfl unread, fun _ => ⟨_, rfl⟩⟩

omit removable

/-- The call panics at the lines of the file only for a span that these no longer hold, and it
plans a removal against a blocking reference only if the query left that reference out. The
slice between the braces of an import is the other place that panics. -/
theorem planDeadCodeRemoval_conservative_iff (machine : Machine File)
    (debugNames : List Text → String) (db : Db) (disk : File → Option Text) (qname : String) :
    ((planDeadCodeRemoval machine debugNames db disk qname ≠ .error .outsideLines ∧ ∀ plan,
      planDeadCodeRemoval machine debugNames db disk qname = .ok plan →
          ∀ row ∈ inboundRows db (normalizeQnKindTokens qname), ¬ Blocks row) ↔
      ∀ node content, Removable machine db disk (normalizeQnKindTokens qname) node content →
        SpanFits node (lines content).length ∧ (ImportsReadable node.filePath content → ∀ row,
          LeftOut db (normalizeQnKindTokens qname) row → ¬ Blocks row)) ∧
    ((∀ failure, planDeadCodeRemoval machine debugNames db disk qname = .error failure → ∃ error, failure = .refused error) ↔
      ∀ node content, Removable machine db disk (normalizeQnKindTokens qname) node content →
        SpanFits node (lines content).length ∧ ImportsReadable node.filePath content) := by
  by_cases some' : ∃ node content, Removable machine db disk (normalizeQnKindTokens qname) node content
  · obtain ⟨node, content, removable⟩ := some'
    have whole {holds : NodeRow → Text → Prop} : (∀ node content, Removable machine db disk
      (normalizeQnKindTokens qname) node content → holds node content) ↔ holds node content := by
      refine ⟨fun all => all node content removable, fun here other other' removable' => ?_⟩
      obtain ⟨rfl, rfl⟩ := removable.unique removable'
      exact here
    rw [whole, whole]
    by_cases fits : SpanFits node (lines content).length
    · obtain ⟨unread, read⟩ := @Removable.planned _ _ debugNames _ _ _ _ _ removable fits
      by_cases readable : ImportsReadable node.filePath content
      · obtain ⟨plan, made⟩ := read readable
        rw [made]
        refine ⟨⟨fun ⟨_, conservative⟩ => ⟨fits, fun _ row leftOut =>
          conservative plan rfl row leftOut.1⟩, fun ⟨_, unblocked⟩ => ⟨fun same => (nomatch same), ?_⟩⟩,
          iff_of_true (fun _ same => (nomatch same)) ⟨fits, readable⟩⟩
        intro _ _ row mem blocks
        by_cases leftOut : LeftOut db (normalizeQnKindTokens qname) row
        · exact unblocked readable row leftOut blocks
        · unfold LeftOut at leftOut
          push Not at leftOut
          obtain ⟨reference, listed, same⟩ := leftOut mem
          have blocking := isBlocking_of_row same blocks
          rw [removable.unblocked reference listed] at blocking
          cases blocking
      · rw [unread readable]
        refine ⟨iff_of_true ⟨fun same => (nomatch same), fun _ same => (nomatch same)⟩ ⟨fits,
          fun read => absurd read readable⟩, iff_of_false ?_ fun both => readable both.2⟩
        intro refused
        obtain ⟨error, same⟩ := refused _ rfl
        cases same
    · rw [@Removable.outsideLines _ _ debugNames _ _ _ _ _ removable fits]
      refine ⟨iff_of_false (fun both => both.1 rfl) fun both => fits both.1, iff_of_false ?_ fun both => fits both.1⟩
      intro refused
      obtain ⟨error, same⟩ := refused _ rfl
      cases same
  · have none' : ∀ node content, ¬ Removable machine db disk (normalizeQnKindTokens qname) node
      content := fun node content removable => some' ⟨node, content, removable⟩
    obtain ⟨error, refused⟩ := @planDeadCodeRemoval_refused _ _ debugNames _ _ _ none'
    rw [refused]
    refine ⟨iff_of_true ⟨fun same => (nomatch same), fun _ same => (nomatch same)⟩
      fun node content removable => absurd removable (none' node content), iff_of_true ?_
        fun node content removable => absurd removable (none' node content)⟩
    intro failure same
    exact ⟨error, (Except.error.inj same).symm⟩

end

/-- The stored line of the function is gone. -/
theorem planDeadCodeRemoval_outside_empty_file : ¬ (planDeadCodeRemoval callingMachine (fun _ => "")
    (callingDb 0) (fun _ => some []) "src/lib.rs::fn::old" ≠ .error .outsideLines ∧
        ∀ plan, planDeadCodeRemoval callingMachine (fun _ => "") (callingDb 0) (fun _ => some [])
          "src/lib.rs::fn::old" = .ok plan →
          ∀ row ∈ inboundRows (callingDb 0) (normalizeQnKindTokens "src/lib.rs::fn::old"), ¬ Blocks row) := by
  have outside : planDeadCodeRemoval callingMachine (fun _ => "") (callingDb 0) (fun _ => some [])
    "src/lib.rs::fn::old" = .error .outsideLines := by rfl
  exact fun both => both.1 outside

end Atlas.Refactor
