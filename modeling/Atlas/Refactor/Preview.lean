import Atlas.Refactor.Rollback

/-! What a preview shows of the content that is written. Edits and diff both look at
lines without their ends. -/
namespace Atlas.Refactor
open List
open Text (lines linesOfPieces stripCr)

inductive LineEnd where
  | lf
  | crlf
  deriving DecidableEq

def endOf (piece : Text) : LineEnd := if piece.getLast? = some '\r' then .crlf else .lf

def endsOfPieces : List Text → List LineEnd
  | [] => []
  | [_] => []
  | piece :: next :: rest => endOf piece :: endsOfPieces (next :: rest)

def lineEnds (text : Text) : List LineEnd := endsOfPieces (text.splitOn '\n')

theorem stripCr_append_end {piece : Text} :
    piece = stripCr piece ++ if endOf piece = .crlf then ['\r'] else [] := by
  unfold stripCr endOf
  by_cases returned : piece.getLast? = some '\r'
  · simpa [returned] using (dropLast_append_getLast? '\r' returned).symm
  · simp [returned]

private theorem pieces_ext {first second : List Text} (firstSome : first ≠ [])
    (secondSome : second ≠ []) (sameLines : linesOfPieces first = linesOfPieces second)
    (sameEnds : endsOfPieces first = endsOfPieces second) : first = second := by
  induction first generalizing second with
  | nil => exact absurd rfl firstSome
  | cons piece rest ih =>
    cases second with
    | nil => exact absurd rfl secondSome
    | cons other others =>
      cases rest with
      | nil =>
        cases others with
        | nil =>
          by_cases empty : piece = []
          · by_cases otherEmpty : other = []
            · rw [empty, otherEmpty]
            · simp [linesOfPieces, empty, otherEmpty] at sameLines
          · by_cases otherEmpty : other = []
            · simp [linesOfPieces, empty, otherEmpty] at sameLines
            · simpa [linesOfPieces, empty, otherEmpty] using sameLines
        | cons next others => simp [endsOfPieces] at sameEnds
      | cons next rest =>
        cases others with
        | nil => simp [endsOfPieces] at sameEnds
        | cons otherNext others =>
          simp only [linesOfPieces, cons.injEq] at sameLines
          simp only [endsOfPieces, cons.injEq] at sameEnds
          have here : piece = other := by rw [@stripCr_append_end piece, @stripCr_append_end other, sameLines.1, sameEnds.1]
          rw [here, ih (cons_ne_nil _ _) (cons_ne_nil _ _) sameLines.2 sameEnds.2]

private theorem text_ext_iff {first second : Text} :
    first = second ↔ lines first = lines second ∧ lineEnds first = lineEnds second := by
  constructor
  · intro same
    rw [same]
    exact ⟨rfl, rfl⟩
  · intro ⟨sameLines, sameEnds⟩
    have pieces := pieces_ext (splitOn_ne_nil _ _) (splitOn_ne_nil _ _) sameLines sameEnds
    have joined := congrArg (fun pieces => ['\n'].intercalate pieces) pieces
    simpa only [intercalate_splitOn] using joined

variable (trailingNewline : Bool) (parts : List Text)

def piecesOf : List Text := (if parts = [] then [[]] else parts.flatMap (splitOn '\n')) ++
    if trailingNewline then [[]] else []

private theorem splitOn_intercalate_newline {parts : List Text} (nonempty : parts ≠ []) :
    (['\n'].intercalate parts).splitOn '\n' = parts.flatMap (splitOn '\n') := by
  induction parts with
  | nil => exact absurd rfl nonempty
  | cons part rest ih =>
    cases rest with
    | nil => simp
    | cons next rest =>
      rw [intercalate_cons_cons, append_assoc, singleton_append, splitOn_append_cons_self, ih (cons_ne_nil _ _)]
      rfl

theorem splitOn_joinLines :
    (joinLines trailingNewline parts).splitOn '\n' = piecesOf trailingNewline parts := by
  have body : (['\n'].intercalate parts).splitOn '\n' =
      if parts = [] then [[]] else parts.flatMap (splitOn '\n') := by
    by_cases empty : parts = []
    · rw [empty, if_pos rfl]
      rfl
    · rw [if_neg empty, splitOn_intercalate_newline empty]
  unfold joinLines piecesOf
  rw [← body]
  cases trailingNewline with
  | true => exact splitOn_append_cons_self _ _
  | false => simp

private theorem lines_joinLines :
    lines (joinLines trailingNewline parts) = linesOfPieces (piecesOf trailingNewline parts) := by
  rw [lines, splitOn_joinLines]
private theorem lineEnds_joinLines :
    lineEnds (joinLines trailingNewline parts) = endsOfPieces (piecesOf trailingNewline parts) := by
  rw [lineEnds, splitOn_joinLines]

def laysOutImports (plan : RefactorPlan) (path : String) : Bool :=
  match plan.operation with
  | .cleanImports _ => decide (detectLanguage path ≠ .other)
  | .removeDeadCode _ => decide (detectLanguage path ≠ .other)
  | _ => false

def plannedLines (plan : RefactorPlan) (path : String) (old : Text) (edits : List RefactorEdit) :
    Except EditFailure (Bool × List Text) := (applyEdits old edits).bind fun edited =>
    if laysOutImports plan path then
      .ok (endsWithNewline edited, layoutWithin (detectLanguage path) (lines edited).length (lines edited))
    else (edits.foldlM applyEdit (lines old)).map fun parts => (endsWithNewline old, parts)

/-- Some line reads differently afterwards, or every line keeps its end. -/
def Visible (plan : RefactorPlan) (path : String) (old : Text) (edits : List RefactorEdit) : Prop :=
  ∀ trailingNewline parts, plannedLines plan path old edits = .ok (trailingNewline, parts) →
    linesOfPieces (piecesOf trailingNewline parts) ≠ lines old ∨ endsOfPieces (piecesOf trailingNewline parts) = lineEnds old

private theorem normalizePostEditContent_eq {plan : RefactorPlan} {path : String} {old edited : Text}
    {edits : List RefactorEdit} (applied : applyEdits old edits = .ok edited) :
    ∃ trailingNewline parts, plannedLines plan path old edits = .ok (trailingNewline, parts) ∧
      normalizePostEditContent plan path edited = joinLines trailingNewline parts := by
  have plain : ∃ parts, edits.foldlM applyEdit (lines old) = .ok parts ∧ edited = joinLines (endsWithNewline old) parts := by
    unfold applyEdits at applied
    cases ran : edits.foldlM applyEdit (lines old) with
    | error failure => simp [ran, Except.map] at applied
    | ok parts =>
      rw [ran] at applied
      cases applied
      exact ⟨parts, rfl, rfl⟩
  obtain ⟨parts, ran, shape⟩ := plain
  have bound : plannedLines plan path old edits =
      if laysOutImports plan path then
        .ok (endsWithNewline edited, layoutWithin (detectLanguage path) (lines edited).length (lines edited))
      else .ok (endsWithNewline old, parts) := by
    rw [plannedLines, applied, ran]
    rfl
  have unchanged : laysOutImports plan path = false →
    normalizePostEditContent plan path edited = edited →
    ∃ trailingNewline parts, plannedLines plan path old edits = .ok (trailingNewline, parts) ∧
          normalizePostEditContent plan path edited = joinLines trailingNewline parts := by
    intro without same
    refine ⟨_, _, bound.trans (by rw [without]; rfl), ?_⟩
    rw [same, shape]
  have relaid : laysOutImports plan path = true → normalizePostEditContent plan path edited =
    normalizeImportBlockLayout path edited → detectLanguage path ≠ .other →
          ∃ trailingNewline parts, plannedLines plan path old edits = .ok (trailingNewline, parts) ∧
            normalizePostEditContent plan path edited = joinLines trailingNewline parts := by
    intro lays same known
    refine ⟨_, _, bound.trans (by rw [lays]; rfl), ?_⟩
    rw [same, normalizeImportBlockLayout]
    simp only [if_neg known]
  have imports : laysOutImports plan path = decide (detectLanguage path ≠ .other) →
    normalizePostEditContent plan path edited = normalizeImportBlockLayout path edited →
        ∃ trailingNewline parts, plannedLines plan path old edits = .ok (trailingNewline, parts) ∧
          normalizePostEditContent plan path edited = joinLines trailingNewline parts := by
    intro lays same
    by_cases known : detectLanguage path = .other
    · refine unchanged (by simp [lays, known]) ?_
      rw [same, normalizeImportBlockLayout]
      simp only [if_pos known]
    · exact relaid (by simp [lays, known]) same known
  cases operation : plan.operation with
  | renameSymbol oldQname newName | extractFunctionCandidate filePath lineStart lineEnd =>
    exact unchanged (by simp [laysOutImports, operation])
      (by simp [normalizePostEditContent, operation])
  | removeDeadCode targetQname | cleanImports filePath =>
    exact imports (by simp [laysOutImports, operation])
      (by simp [normalizePostEditContent, operation])

private theorem visible_iff {plan : RefactorPlan} {path : String} {old edited : Text}
    {edits : List RefactorEdit} (applied : applyEdits old edits = .ok edited) :
    (unifiedDiffAnnotated path old (normalizePostEditContent plan path edited) = [] →
      normalizePostEditContent plan path edited = old) ↔ Visible plan path old edits := by
  obtain ⟨trailingNewline, parts, planned, written⟩ := @normalizePostEditContent_eq plan path old edited edits applied
  rw [unifiedDiffAnnotated_eq_nil_iff, text_ext_iff, written, lines_joinLines, lineEnds_joinLines]
  constructor
  · intro shows newline others same
    rw [planned] at same
    cases same
    by_cases changed : linesOfPieces (piecesOf trailingNewline parts) = lines old
    · exact .inr (shows changed.symm).2
    · exact .inl changed
  · intro visible same
    cases visible trailingNewline parts planned with
    | inl changed => exact absurd same.symm changed
    | inr ends => exact ⟨same.symm, ends⟩

section
variable {File : Type} {machine : Machine File}
  {group : String × List RefactorEdit} {plan : RefactorPlan} {disk : File → Option Text}
  {prepared : Preparation}

private theorem mem_groupByFile {edits : List RefactorEdit} (mem : group ∈ groupByFile edits) :
    group.2 = edits.filter fun edit => decide (edit.filePath = group.1) := by
  induction edits with
  | nil => cases mem
  | cons edit rest ih =>
    cases mem_cons.mp mem with
    | inl first =>
      rw [first]
      simp
    | inr later =>
      have ⟨member, other⟩ := mem_filter.mp later
      have differs : edit.filePath ≠ group.1 := by
        intro same
        simp [same] at other
      rw [ih member, filter_cons_of_neg (by simpa using differs)]

structure Previewed (plan : RefactorPlan)
    (patches : List RefactorPatch) (rewrite : Rewrite) : Prop where
  edited : ∃ edited, applyEdits rewrite.old (sortReverse (plan.edits.filter fun edit => decide (edit.filePath = rewrite.path))) =
      .ok edited ∧ rewrite.new = normalizePostEditContent plan rewrite.path edited
  patched : unifiedDiffAnnotated rewrite.path rewrite.old rewrite.new ≠ [] →
    ⟨rewrite.path, unifiedDiffAnnotated rewrite.path rewrite.old rewrite.new⟩ ∈ patches

private theorem prepareFile_previewed
    {next : Preparation}
    (ofPlan : group.2 = plan.edits.filter fun edit => decide (edit.filePath = group.1))
    (done : prepareFile machine plan disk prepared group = some next)
    (before : ∀ rewrite ∈ prepared.newContents, Previewed plan prepared.patches rewrite) :
    ∀ rewrite ∈ next.newContents, Previewed plan next.patches rewrite := by
  obtain ⟨validation, rfl⟩ | ⟨old, content, read, edited, rfl⟩ := prepareFile_cases done
  · exact before
  · intro rewrite mem
    cases mem_append.mp mem with
    | inl older =>
      have previewed := before rewrite older
      refine ⟨previewed.edited, fun shown => ?_⟩
      have patched := previewed.patched shown
      dsimp only [Preparation.rewrite]
      split
      · exact patched
      · exact mem_append_left _ patched
    | inr new =>
      rw [mem_singleton.mp new]
      refine ⟨⟨content, by rw [← ofPlan]; exact edited, rfl⟩, fun shown => ?_⟩
      dsimp only [Preparation.rewrite] at shown ⊢
      rw [if_neg shown]
      exact mem_append_right _ (.head _)

private theorem prepare_previewed (done : prepare machine plan disk = some prepared) :
    ∀ rewrite ∈ prepared.newContents, Previewed plan prepared.patches rewrite := by
  refine foldlM_some_invariant (fun prepared => ∀ rewrite ∈ prepared.newContents,
    Previewed plan prepared.patches rewrite) ?_ done ?_
  · intro current group mem next stepped before
    have member := (machine.editOrder.perm _).mem_iff.mp mem
    exact prepareFile_previewed (mem_groupByFile member) stepped before
  · intro rewrite mem
    cases mem

/-- The preview accounts for a rewritten file exactly when the plan changes a line of it
or leaves all its line ends alone. -/
theorem applyPlanInternal_previews_iff [DecidableEq File] {plan : RefactorPlan} {dryRun : Bool}
    {validate : RefactorValidationResult → List Rewrite → RefactorValidationResult}
    {world after : World File} {result : RefactorDryRunResult} {prepared : Preparation}
    {rewrite : Rewrite}
    (applied : applyPlanInternal machine plan dryRun validate world = some (result, after))
    (done : prepare machine plan world.disk = some prepared)
    (mem : rewrite ∈ prepared.newContents) :
    ((unifiedDiffAnnotated rewrite.path rewrite.old rewrite.new = [] → rewrite.new = rewrite.old) ∧
      (rewrite.new ≠ rewrite.old → ∃ patch ∈ result.patches, patch.filePath = rewrite.path)) ↔
      Visible plan rewrite.path rewrite.old
        (sortReverse (plan.edits.filter fun edit => decide (edit.filePath = rewrite.path))) := by
  have patches : result.patches = prepared.patches := by
    rw [applyPlanInternal, done] at applied
    cases applied
    rfl
  have previewed := prepare_previewed done rewrite mem
  obtain ⟨edited, ran, written⟩ := previewed.edited
  rw [← visible_iff ran, ← written]
  constructor
  · exact fun shown => shown.1
  · intro shown
    refine ⟨shown, fun differs => ?_⟩
    have diff : unifiedDiffAnnotated rewrite.path rewrite.old rewrite.new ≠ [] := fun empty => differs (shown empty)
    rw [patches]
    exact ⟨_, previewed.patched diff, rfl⟩

end

theorem commentPlan_previewed : ∃ result after prepared,
    applyPlanInternal (commentMachine (fun _ => none) .faultless) commentPlan true
          (fun validation _ => validation) commentWorld = some (result, after) ∧
        prepare (commentMachine (fun _ => none) .faultless) commentPlan commentWorld.disk = some prepared ∧
        ⟨"a.rs", "// old\n".toList, "// new\n".toList⟩ ∈ prepared.newContents ∧
        ∃ patch ∈ result.patches, patch.filePath = "a.rs" := by
  refine ⟨_, _, _, rfl, rfl, by decide, ?_⟩
  refine ((@applyPlanInternal_previews_iff _ (commentMachine (fun _ => none) .faultless) _
    commentPlan true (fun validation _ => validation) commentWorld _ _ _
    ⟨"a.rs", "// old\n".toList, "// new\n".toList⟩ rfl rfl (by decide)).mpr ?_).2 (by decide)
  intro trailingNewline parts planned
  have shape : plannedLines commentPlan "a.rs" "// old\n".toList
    (sortReverse (commentPlan.edits.filter fun edit => decide (edit.filePath = "a.rs"))) =
    .ok (true, ["// new".toList]) := by decide
  rw [shape] at planned
  cases planned
  exact .inl (by decide)

/-- A file with CRLF ends, and an edit that writes a line back as it is. -/
def windowsWorld : World String where
  disk path := if path = "a.rs" then some "// old\r\n".toList else none
  store := ⟨Store.Db.empty, none⟩

def idlePlan : RefactorPlan where
  operation := .renameSymbol "a.rs::fn::old" "new"
  edits := [{ commentEdit "a.rs" with newText := "// old".toList }]
  manualReview := []

theorem idlePlan_rewrites_unseen :
    ∃ result after, applyPlanInternal (commentMachine (fun _ => none) .faultless) idlePlan false
      (fun validation _ => validation) windowsWorld = some (result, after) ∧
        result.validation.valid = true ∧ result.patches = [] ∧
        windowsWorld.disk "a.rs" = some "// old\r\n".toList ∧
        after.disk "a.rs" = some "// old\n".toList := by
  refine ⟨_, _, rfl, rfl, ?_, by decide, by decide⟩
  exact if_pos ((unifiedDiffAnnotated_eq_nil_iff _ _ _).mpr (by decide))

end Atlas.Refactor
