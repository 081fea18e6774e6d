import Atlas.Refactor.LineEdits
import Mathlib.Data.List.Pairwise

/-! Edits that do not overlap, applied one after another from the last one on, are one
substitution. The ends of the lines are joined anew, so not every file keeps them. -/
namespace Atlas.Refactor
open List
open Store (AtlasError)
open Text (lines)

/-! ## Accepted spans -/

def Apart (first second : RefactorEdit) : Prop :=
  first.lineEnd < second.lineStart ∨ second.lineEnd < first.lineStart

instance : Std.Symm Apart := ⟨fun _ _ => Or.symm⟩

variable {path : String} {number : Nat} {part parts : List FileLine}

private theorem overlapIn_none {spans : List (Nat × Nat)}
    (ordered : ∀ span ∈ spans, span.1 ≤ span.2) (accepted : overlapIn path spans = none) :
    spans.Pairwise fun first second => first.2 < second.1 := by
  induction spans using overlapIn.induct with
  | case1 => exact List.Pairwise.nil
  | case2 span => exact pairwise_singleton _ _
  | case3 startA endA startB endB rest overlap =>
    unfold overlapIn at accepted
    rw [if_pos overlap] at accepted
    cases accepted
  | case4 startA endA startB endB rest apart ih =>
    unfold overlapIn at accepted
    rw [if_neg apart] at accepted
    have later := ih (fun span mem => ordered span (.tail _ mem)) accepted
    have next := ordered (startB, endB) (.tail _ (.head _))
    refine pairwise_cons.mpr ⟨fun span mem => ?_, later⟩
    rcases mem_cons.mp mem with rfl | behind
    · exact Nat.lt_of_not_le apart
    · have := (pairwise_cons.mp later).1 span behind
      dsimp only at this next ⊢
      omega

private theorem apart_of_accepted {byFile : List String} {edits : List RefactorEdit} (single :
    ∀ edit ∈ edits, edit.filePath = path) (listed : ∀ edit ∈ edits, edit.filePath ∈ byFile)
    (ordered : ∀ edit ∈ edits, edit.lineStart ≤ edit.lineEnd)
    (accepted : checkOverlaps byFile edits = .ok ()) : edits.Pairwise Apart := by
  have whole : edits.filter (fun edit => decide (edit.filePath = path)) = edits :=
    filter_eq_self.mpr fun edit mem => decide_eq_true (single edit mem)
  have spans := perm_insertionSort (fun first second : Nat × Nat => first.1 ≤ second.1)
    (edits.map fun edit => (edit.lineStart, edit.lineEnd))
  have sorted : (sortedSpans path edits).Pairwise fun first second => first.2 < second.1 := by
    cases edits with
    | nil => exact List.Pairwise.nil
    | cons edit rest =>
      have here : path ∈ byFile := single edit (.head _) ▸ listed edit (.head _)
      apply overlapIn_none
      · intro span mem
        unfold sortedSpans at mem
        rw [whole] at mem
        obtain ⟨own, inEdits, rfl⟩ := mem_map.mp (spans.mem_iff.mp mem)
        exact ordered own inEdits
      · unfold checkOverlaps at accepted
        cases found : byFile.findSome? fun path => overlapIn path (sortedSpans path (edit :: rest)) with
        | some error =>
          rw [found] at accepted
          cases accepted
        | none => exact findSome?_eq_none_iff.mp found path here
  unfold sortedSpans at sorted
  rw [whole] at sorted
  have symmetric : (edits.map fun edit => (edit.lineStart, edit.lineEnd)).Pairwise
    fun first second => first.2 < second.1 ∨ second.2 < first.1 := by
    refine (spans.pairwise_iff Or.symm).mp (sorted.imp fun before => .inl before)
  rw [pairwise_map] at symmetric
  exact symmetric

theorem sortReverse_pairwise {edits : List RefactorEdit}
    (apart : edits.Pairwise Apart) (ordered : ∀ edit ∈ edits, edit.lineStart ≤ edit.lineEnd) :
    (sortReverse edits).Pairwise fun first second => second.lineEnd < first.lineStart := by
  have spans := perm_insertionSort (fun first second : RefactorEdit =>
    second.lineStart ≤ first.lineStart) edits
  have sorted : (sortReverse edits).Pairwise fun first second => second.lineStart ≤ first.lineStart := pairwise_insertionSort _ _
  have still : (sortReverse edits).Pairwise Apart := (spans.pairwise_iff Or.symm).mpr apart
  refine (still.and sorted).imp_of_mem ?_
  intro first second inFirst _ ⟨either, above⟩
  have own := ordered first (spans.mem_iff.mp inFirst)
  rcases either with before | after
  · omega
  · exact after

/-! ## Substitution by parts -/

theorem substituteFrom_append (edits : List RefactorEdit)
    (number : Nat) (first second : List FileLine) :
    substituteFrom edits number (first ++ second) =
      substituteFrom edits number first ++ substituteFrom edits (number + first.length) second := by
  induction first generalizing number with
  | nil => rfl
  | cons line rest ih =>
    rw [cons_append, substituteFrom, substituteFrom, ih, append_assoc, length_cons,
      Nat.add_right_comm, Nat.add_assoc]

theorem substituteFrom_congr {edits others : List RefactorEdit} (same : ∀ position, number ≤
    position → position < number + part.length → editOf edits position = editOf others position) :
    substituteFrom edits number part = substituteFrom others number part := by
  induction part generalizing number with
  | nil => rfl
  | cons line rest ih =>
    have here := same number le_rfl (by rw [length_cons]; omega)
    have later := @ih (number + 1) fun position above below => same position (by omega) (by
      rw [length_cons]
      omega)
    unfold substituteFrom substituteLine
    rw [here, later]

theorem editOf_eq_none_iff {edits : List RefactorEdit} : editOf edits number = none ↔
    ∀ edit ∈ edits, ¬ (edit.lineStart ≤ number ∧ number ≤ edit.lineEnd) := by
  unfold editOf
  rw [find?_eq_none]
  simp only [decide_eq_true_eq]

theorem substituteFrom_untouched {edits : List RefactorEdit}
    (outside : ∀ edit ∈ edits, ∀ position, number ≤ position → position < number + part.length →
      ¬ (edit.lineStart ≤ position ∧ position ≤ edit.lineEnd)) :
    substituteFrom edits number part = part := by
  induction part generalizing number with
  | nil => rfl
  | cons line rest ih =>
    have here : editOf edits number = none := editOf_eq_none_iff.mpr fun edit mem => outside edit mem number le_rfl (by
        rw [length_cons]
        omega)
    have later := @ih (number + 1) fun edit mem position above below => outside edit mem position (by omega) (by
      rw [length_cons]
      omega)
    unfold substituteFrom substituteLine
    rw [here, later]
    rfl

private theorem substituteFrom_span {edits : List RefactorEdit} {edit : RefactorEdit}
    {inner : List FileLine} {last : FileLine}
    (within : ∀ position, number ≤ position → position ≤ number + inner.length → editOf edits position = some edit)
    (ends : number + inner.length = edit.lineEnd) :
    substituteFrom edits number (inner ++ [last]) =
      if edit.newText = [] then [] else [{ last with text := edit.newText }] := by
  induction inner generalizing number with
  | nil =>
    have here := within number le_rfl (Nat.le_add_right _ _)
    rw [nil_append, substituteFrom, substituteLine, here]
    have final : number = edit.lineEnd := ends
    by_cases empty : edit.newText = []
    · simp [empty, substituteFrom]
    · simp [empty, final, substituteFrom]
  | cons line rest ih =>
    rw [length_cons] at ends
    have here := within number le_rfl (Nat.le_add_right _ _)
    have early : ¬ (number = edit.lineEnd ∧ edit.newText ≠ []) := fun both => by omega
    have later := @ih (number + 1) (fun position above below => within position (by omega) (by
      rw [length_cons]
      omega)) (by omega)
    rw [cons_append, substituteFrom, substituteLine, here, later]
    dsimp only
    rw [if_neg early, nil_append]

private theorem applyEdit_cut {edit : RefactorEdit}
    {before inside behind : List Text} {head : Text} (starts : before.length = edit.lineStart - 1)
    (ends : before.length + inside.length + 1 = edit.lineEnd) :
    applyEdit (before ++ (head :: inside ++ behind)) edit =
      .ok (before ++ ((if edit.newText = [] then [] else [edit.newText]) ++ behind)) := by
  have last : edit.lineEnd - 1 = before.length + inside.length := by omega
  have fits : ¬ (edit.lineStart - 1 > (before ++ (head :: inside ++ behind)).length ∨
    edit.lineEnd - 1 ≥ (before ++ (head :: inside ++ behind)).length) := by
    rw [last, ← starts]
    simp only [length_append, length_cons]
    omega
  have dropped : (before ++ (head :: inside ++ behind)).drop (before.length + inside.length + 1) = behind := by
    rw [Nat.add_assoc, ← drop_drop, drop_left, cons_append, drop_succ_cons, drop_left]
  unfold applyEdit
  dsimp only
  rw [if_neg fits, last, ← starts]
  by_cases empty : edit.newText = []
  · rw [if_pos empty, if_pos empty, drain, if_pos (by omega), take_left, dropped]
    rfl
  · rw [if_neg empty, if_neg empty]
    have inRange : ¬ before.length = (before ++ (head :: inside ++ behind)).length := by simp
    have placed : (before ++ (head :: inside ++ behind)).set before.length edit.newText =
      before ++ (edit.newText :: inside ++ behind) := by
      rw [set_append_right _ _ le_rfl, Nat.sub_self, cons_append, set_cons_zero, cons_append]
    rw [if_neg inRange, placed]
    cases inside with
    | nil => simp
    | cons next rest =>
      have wide : before.length + (next :: rest).length > before.length := by
        rw [length_cons]
        omega
      have front : (before ++ (edit.newText :: (next :: rest) ++ behind)).take (before.length + 1) =
        before ++ [edit.newText] := by
        rw [take_append, take_of_length_le (Nat.le_succ _), Nat.add_sub_cancel_left]
        simp
      have rear : (before ++ (edit.newText :: (next :: rest) ++ behind)).drop
        (before.length + (next :: rest).length + 1) = behind := by
        rw [Nat.add_assoc, ← drop_drop, drop_left, cons_append, drop_succ_cons, drop_left]
      rw [if_pos wide, drain, if_pos (by rw [length_cons]; omega), front, rear]
      simp

private theorem exists_parts {Item : Type} {items : List Item} {first final : Nat}
    (named : 0 < final) (ordered : first ≤ final) (within : final ≤ items.length) :
    ∃ before inner last behind, items = before ++ (inner ++ [last] ++ behind) ∧
      before.length = first - 1 ∧ before.length + inner.length + 1 = final := by
  have filled : (items.drop (first - 1)).take (final - (first - 1)) ≠ [] := by
    rw [← length_pos_iff, length_take, length_drop]
    omega
  obtain ⟨inner, last, split⟩ := (eq_nil_or_concat _).resolve_left filled
  rw [concat_eq_append] at split
  have size := congrArg length split
  rw [length_take, length_drop, length_append, length_singleton] at size
  refine ⟨items.take (first - 1), inner, last, (items.drop (first - 1)).drop (final - (first - 1)), ?_, ?_, ?_⟩
  · rw [← split, take_append_drop, take_append_drop]
  all_goals
    rw [length_take]
    omega

section
variable {edit : RefactorEdit} {edits done : List RefactorEdit} {file : List FileLine}

private theorem applyEdit_substituted (named : 0 < edit.lineEnd) (ordered : edit.lineStart ≤ edit.lineEnd)
    (within : edit.lineEnd ≤ file.length) (after : ∀ other ∈ done, edit.lineEnd < other.lineStart) :
    applyEdit ((substituteFrom done 1 file).map FileLine.text) edit =
      .ok ((substituteFrom (edit :: done) 1 file).map FileLine.text) := by
  obtain ⟨before, inner, last, behind, rfl, starts, ends⟩ := exists_parts named ordered within
  have spanLength : (inner ++ [last]).length = inner.length + 1 := by simp
  have old : substituteFrom done 1 (before ++ (inner ++ [last] ++ behind)) =
    before ++ (inner ++ [last] ++ substituteFrom done (1 + edit.lineEnd) behind) := by
    have untouched : substituteFrom done 1 (before ++ (inner ++ [last])) = before ++ (inner ++ [last]) := by
      apply substituteFrom_untouched
      intro other mem position _ below
      have := after other mem
      rw [length_append, spanLength] at below
      omega
    have count : 1 + (before ++ (inner ++ [last])).length = 1 + edit.lineEnd := by
      rw [length_append, spanLength]
      omega
    rw [← append_assoc, substituteFrom_append, untouched, count, append_assoc]
  have new : substituteFrom (edit :: done) 1 (before ++ (inner ++ [last] ++ behind)) =
      before ++ ((if edit.newText = [] then [] else [{ last with text := edit.newText }]) ++
        substituteFrom done (1 + edit.lineEnd) behind) := by
    have untouched : substituteFrom (edit :: done) 1 before = before := by
      apply substituteFrom_untouched
      intro other mem position _ below
      rcases mem_cons.mp mem with rfl | earlier
      · omega
      · have := after other earlier
        omega
    have span : substituteFrom (edit :: done) (1 + before.length) (inner ++ [last]) =
        if edit.newText = [] then [] else [{ last with text := edit.newText }] := by
      apply substituteFrom_span
      · intro position above below
        unfold editOf
        rw [find?_cons_of_pos]
        exact decide_eq_true ⟨by omega, by omega⟩
      · omega
    have rest : substituteFrom (edit :: done) (1 + edit.lineEnd) behind = substituteFrom done (1 + edit.lineEnd) behind := by
      apply substituteFrom_congr
      intro position above _
      unfold editOf
      rw [find?_cons_of_neg]
      rw [decide_eq_true_eq]
      omega
    have count : 1 + before.length + (inner ++ [last]).length = 1 + edit.lineEnd := by omega
    rw [substituteFrom_append, untouched, substituteFrom_append, span, count, rest]
  obtain ⟨head, inside, spelled⟩ := exists_cons_of_ne_nil (append_ne_nil_of_right_ne_nil inner (cons_ne_nil last []))
  have size := congrArg length spelled
  rw [spanLength, length_cons] at size
  rw [old, new, spelled]
  simp only [map_append, map_cons]
  rw [applyEdit_cut (by rw [length_map]; exact starts)
    (by rw [length_map, length_map]; omega)]
  split <;> rfl

theorem foldlM_applyEdit
    (descending : edits.Pairwise fun first second => second.lineEnd < first.lineStart)
    (named : ∀ edit ∈ edits, 0 < edit.lineEnd) (ordered : ∀ edit ∈ edits, edit.lineStart ≤ edit.lineEnd)
    (within : ∀ edit ∈ edits, edit.lineEnd ≤ file.length)
    (after : ∀ edit ∈ edits, ∀ other ∈ done, edit.lineEnd < other.lineStart) :
    edits.foldlM applyEdit ((substituteFrom done 1 file).map FileLine.text) =
      .ok ((substituteFrom (edits.reverse ++ done) 1 file).map FileLine.text) := by
  induction edits generalizing done with
  | nil => rfl
  | cons edit rest ih =>
    obtain ⟨first, later⟩ := pairwise_cons.mp descending
    rw [foldlM_cons, applyEdit_substituted (named edit mem_cons_self) (ordered edit mem_cons_self)
      (within edit mem_cons_self) (after edit mem_cons_self)]
    have whole : (edit :: rest).reverse ++ done = rest.reverse ++ (edit :: done) := by simp
    rw [whole]
    apply ih later (fun other mem => named other (.tail _ mem))
      (fun other mem => ordered other (.tail _ mem)) (fun other mem => within other (.tail _ mem))
    intro other mem earlier inDone
    rcases mem_cons.mp inDone with rfl | before
    · exact first other mem
    · exact after other (.tail _ mem) earlier before

theorem editOf_eq_some_iff (apart : edits.Pairwise Apart) {number : Nat} :
    editOf edits number = some edit ↔
      edit ∈ edits ∧ edit.lineStart ≤ number ∧ number ≤ edit.lineEnd := by
  constructor
  · intro found
    have covers := find?_some found
    rw [decide_eq_true_eq] at covers
    exact ⟨mem_of_find?_eq_some found, covers⟩
  · intro ⟨mem, covers⟩
    cases found : editOf edits number with
    | none => exact absurd covers (editOf_eq_none_iff.mp found edit mem)
    | some other =>
      have inList := mem_of_find?_eq_some found
      have otherCovers := find?_some found
      rw [decide_eq_true_eq] at otherCovers
      by_cases same : other = edit
      · rw [same]
      · rcases apart.forall inList mem same with before | behind
        all_goals omega

theorem substituteFrom_perm {others : List RefactorEdit} (same : edits.Perm others)
    (apart : edits.Pairwise Apart) (number : Nat) (part : List FileLine) :
    substituteFrom edits number part = substituteFrom others number part := by
  have otherApart : others.Pairwise Apart := (same.pairwise_iff Or.symm).mp apart
  apply substituteFrom_congr
  intro position _ _
  apply Option.ext
  intro edit
  rw [editOf_eq_some_iff apart, editOf_eq_some_iff otherApart, same.mem_iff]

variable {content : Text}

private theorem length_lines :
    (lines content).length = (fileLines content).length := by rw [← fileLines_map_text, length_map]

private theorem applyEdits_ok (apart : edits.Pairwise Apart) (ordered : ∀ edit ∈ edits,
    edit.lineStart ≤ edit.lineEnd) (named : ∀ edit ∈ edits, 0 < edit.lineEnd)
    (within : ∀ edit ∈ edits, edit.lineEnd ≤ (fileLines content).length) :
    applyEdits content (sortReverse edits) = .ok
      (joinLines (endsWithNewline content) ((substituted content edits).map FileLine.text)) := by
  have same : (sortReverse edits).Perm edits := perm_insertionSort _ _
  have ran := @foldlM_applyEdit (sortReverse edits) [] (fileLines content)
    (sortReverse_pairwise apart ordered) (fun edit mem => named edit (same.mem_iff.mp mem))
    (fun edit mem => ordered edit (same.mem_iff.mp mem))
    (fun edit mem => within edit (same.mem_iff.mp mem)) (fun _ _ _ none' => by cases none')
  have start : substituteFrom [] 1 (fileLines content) = fileLines content :=
    substituteFrom_untouched fun _ none' => by cases none'
  have final : substituteFrom ((sortReverse edits).reverse ++ []) 1 (fileLines content) = substituted content edits := by
    rw [append_nil]
    exact (substituteFrom_perm ((reverse_perm _).trans same).symm apart 1 _).symm
  rw [start, final, fileLines_map_text] at ran
  unfold applyEdits
  rw [ran]
  rfl

theorem applyEdit_refused {parts : List Text} (beyond : parts.length ≤ edit.lineEnd - 1) :
    applyEdit parts edit = .error (.refused (outOfRange edit parts.length)) := by
  unfold applyEdit
  dsimp only
  rw [if_pos (.inr beyond)]

section
variable (apart : edits.Pairwise Apart) (ordered : ∀ edit ∈ edits, edit.lineStart ≤ edit.lineEnd)
include apart ordered

private theorem applyEdits_beyond (mem : edit ∈ edits)
    (beyond : (fileLines content).length < edit.lineEnd) :
    ∃ refused count, applyEdits content (sortReverse edits) = .error (.refused (outOfRange refused count)) := by
  have same : (sortReverse edits).Perm edits := perm_insertionSort _ _
  have descending := sortReverse_pairwise apart ordered
  have listed := same.mem_iff.mpr mem
  unfold applyEdits
  cases sorted : sortReverse edits with
  | nil =>
    rw [sorted] at listed
    cases listed
  | cons first rest =>
    rw [sorted] at listed descending
    have last : edit.lineEnd ≤ first.lineEnd := by
      rcases mem_cons.mp listed with rfl | later
      · exact le_rfl
      · have before := (pairwise_cons.mp descending).1 edit later
        have own := ordered first (same.mem_iff.mp (sorted ▸ mem_cons_self))
        omega
    have refused : applyEdit (lines content) first =
      .error (.refused (outOfRange first (lines content).length)) :=
      applyEdit_refused (by rw [length_lines]; omega)
    rw [foldlM_cons, refused]
    exact ⟨first, _, rfl⟩

private theorem applyEdits_lineZero (within : ∀ edit ∈ edits, edit.lineEnd ≤ (fileLines content).length)
    (mem : edit ∈ edits) (zero : edit.lineEnd = 0) :
    (∃ refused count, applyEdits content (sortReverse edits) =
      .error (.refused (outOfRange refused count))) ↔ substituted content edits = [] := by
  have same : (sortReverse edits).Perm edits := perm_insertionSort _ _
  have descending := sortReverse_pairwise apart ordered
  have start : edit.lineStart = 0 := by
    have := ordered edit mem
    omega
  obtain ⟨others, behind, sorted⟩ := append_of_mem (same.mem_iff.mpr mem)
  rw [sorted] at descending same
  obtain ⟨first, second, across⟩ := pairwise_append.mp descending
  have last : behind = [] := by
    cases behind with
    | nil => rfl
    | cons other rest =>
      have := (pairwise_cons.mp second).1 other (.head _)
      omega
  subst last
  have inEdits {other : RefactorEdit} (inOthers : other ∈ others) : other ∈ edits := same.mem_iff.mp (mem_append_left _ inOthers)
  have ran := @foldlM_applyEdit others [] (fileLines content) first (fun other inOthers => by
      have := across other inOthers edit (.head _)
      have := ordered other (inEdits inOthers)
      omega)
    (fun other inOthers => ordered other (inEdits inOthers))
    (fun other inOthers => within other (inEdits inOthers)) (fun _ _ _ none' => by cases none')
  have begun : substituteFrom [] 1 (fileLines content) = fileLines content :=
    substituteFrom_untouched fun _ none' => by cases none'
  have reached : substituteFrom (others.reverse ++ []) 1 (fileLines content) = substituted content edits := by
    have perm : edits.Perm (edit :: others.reverse) :=
      same.symm.trans (perm_append_comm.trans ((reverse_perm others).symm.cons edit))
    unfold substituted
    rw [substituteFrom_perm perm apart, append_nil]
    apply substituteFrom_congr
    intro position above _
    unfold editOf
    rw [find?_cons_of_neg]
    rw [decide_eq_true_eq]
    omega
  rw [begun, reached, fileLines_map_text] at ran
  have folded : (sortReverse edits).foldlM applyEdit (lines content) =
    applyEdit ((substituted content edits).map FileLine.text) edit := by
    rw [sorted, foldlM_append, ran]
    change (applyEdit _ edit >>= pure) = _
    rw [bind_pure]
  unfold applyEdits
  rw [folded]
  cases left : substituted content edits with
  | nil =>
    rw [map_nil, applyEdit_refused (Nat.zero_le _)]
    exact iff_of_true ⟨edit, _, rfl⟩ rfl
  | cons line rest =>
    refine iff_of_false ?_ (cons_ne_nil _ _)
    rintro ⟨refused, count, same⟩
    unfold applyEdit drain at same
    by_cases empty : edit.newText = [] <;> simp [start, zero, empty, Except.map] at same

end
end

/-! ## Line ends -/

/-- No line that stays ends in CRLF, and the last one ends as the file does. -/
structure KeepsEndings (content : Text) (remaining : List FileLine) : Prop where
  plain : ∀ line ∈ remaining, line.ending ≠ ['\r', '\n']
  nonempty : endsWithNewline content = true → remaining ≠ []
  last : endsWithNewline content = false → ∀ line ∈ remaining.getLast?, line.ending = []

theorem substituteFrom_terminated {edits : List RefactorEdit}
    {number : Nat} {part : List FileLine} (terminated : ∀ line ∈ part, line.Terminated) :
    ∀ line ∈ substituteFrom edits number part, line.Terminated := by
  induction part generalizing number with
  | nil => exact fun _ none' => by cases none'
  | cons head rest ih =>
    intro line mem
    rcases mem_append.mp mem with here | later
    · unfold substituteLine at here
      have own := terminated head (.head _)
      split at here
      · rw [mem_singleton.mp here]
        exact own
      · split at here
        · rw [mem_singleton.mp here]
          exact own
        · cases here
    · exact ih (fun other inRest => terminated other (.tail _ inRest)) line later

private theorem substituted_endings (content : Text) (edits : List RefactorEdit) :
    (∀ line ∈ substituted content edits, line.Terminated) ∨
      endsWithNewline content = false ∧ ∃ init last, substituted content edits = init ++ [last] ∧
        (∀ line ∈ init, line.Terminated) ∧ last.ending = [] := by
  have endings := fileLines_endings content
  cases ends : endsWithNewline content with
  | true =>
    rw [ends, if_pos rfl] at endings
    exact .inl (substituteFrom_terminated endings)
  | false =>
    rw [ends, if_neg Bool.false_ne_true] at endings
    unfold substituted
    rcases endings with none' | ⟨init, last, split, terminated, bare⟩
    · rw [none']
      exact .inl nofun
    · rw [split, substituteFrom_append, substituteFrom, substituteFrom, append_nil]
      have front := @substituteFrom_terminated edits 1 init terminated
      unfold substituteLine
      split
      · exact .inr ⟨rfl, _, _, rfl, front, bare⟩
      · split
        · exact .inr ⟨rfl, _, _, rfl, front, bare⟩
        · rw [append_nil]
          exact .inl front

def FileLine.joined (line : FileLine) : Text := line.text ++ ['\n']

theorem intercalate_newline (parts : List FileLine) (last : FileLine) :
    ['\n'].intercalate ((parts ++ [last]).map FileLine.text) =
      parts.flatMap FileLine.joined ++ last.text := by
  induction parts with
  | nil => simp
  | cons head rest ih =>
    cases rest with
    | nil => simp [FileLine.joined, intercalate_cons_cons]
    | cons next rest =>
      rw [cons_append, map_cons, cons_append, map_cons, intercalate_cons_cons, ← map_cons, ← cons_append, ih]
      simp [FileLine.joined]

theorem flatMap_joined_eq_iff (terminated : ∀ line ∈ parts, line.Terminated) :
    parts.flatMap FileLine.joined = parts.flatMap FileLine.whole ↔
      ∀ line ∈ parts, line.ending ≠ ['\r', '\n'] := by
  induction parts with
  | nil => simp
  | cons head rest ih =>
    have rest' := ih fun line mem => terminated line (.tail _ mem)
    rw [flatMap_cons, flatMap_cons, forall_mem_cons]
    unfold FileLine.joined FileLine.whole at rest' ⊢
    rcases terminated head (.head _) with plain | returned
    · rw [plain, append_cancel_left_eq, rest']
      simp
    · rw [returned, append_assoc, append_assoc, append_cancel_left_eq]
      simp

private theorem length_joined_le (terminated : ∀ line ∈ parts, line.Terminated) :
    (parts.flatMap FileLine.joined).length ≤ (parts.flatMap FileLine.whole).length := by
  induction parts with
  | nil => exact le_rfl
  | cons head rest ih =>
    have rest' := ih fun line mem => terminated line (.tail _ mem)
    rw [flatMap_cons, flatMap_cons, length_append, length_append]
    unfold FileLine.joined FileLine.whole at rest' ⊢
    rcases terminated head (.head _) with plain | returned
    · rw [plain]
      omega
    · rw [returned, length_append, length_append]
      simp only [length_cons, length_nil]
      omega

theorem joinLines_eq_iff (content : Text) (edits : List RefactorEdit) :
    joinLines (endsWithNewline content) ((substituted content edits).map FileLine.text) =
      (substituted content edits).flatMap FileLine.whole ↔
      KeepsEndings content (substituted content edits) := by
  rcases substituted_endings content edits with terminated | ⟨ends, init, last, split, terminated, bare⟩
  · rcases eq_nil_or_concat (substituted content edits) with none' | ⟨init, last, split⟩
    · rw [none']
      cases ends : endsWithNewline content with
      | true => exact iff_of_false (by decide) fun keeps => keeps.nonempty ends rfl
      | false =>
        refine iff_of_true rfl ⟨?_, fun other => absurd (ends.symm.trans other) Bool.false_ne_true, ?_⟩
        · exact nofun
        · exact nofun
    · rw [concat_eq_append] at split
      rw [split] at terminated ⊢
      have front : ∀ line ∈ init, line.Terminated := fun line mem => terminated line (mem_append_left _ mem)
      have own := terminated last (mem_append_right _ (.head _))
      cases ends : endsWithNewline content with
      | true =>
        have joined : joinLines true ((init ++ [last]).map FileLine.text) = (init ++ [last]).flatMap FileLine.joined := by
          unfold joinLines
          rw [intercalate_newline]
          simp [FileLine.joined]
        rw [joined, flatMap_joined_eq_iff terminated]
        refine ⟨fun plain => ⟨plain, ?_, ?_⟩, KeepsEndings.plain⟩
        · exact fun _ => append_ne_nil_of_right_ne_nil _ (cons_ne_nil _ _)
        · intro other
          rw [ends] at other
          cases other
      | false =>
        have filled : last.ending ≠ [] := by
          rcases own with plain | returned
          · rw [plain]
            exact cons_ne_nil _ _
          · rw [returned]
            exact cons_ne_nil _ _
        refine iff_of_false (fun same => ?_) fun keeps => ?_
        · have size := congrArg length same
          have less := length_joined_le front
          have pos := length_pos_iff.mpr filled
          unfold joinLines at size
          rw [intercalate_newline, flatMap_append] at size
          simp only [Bool.false_eq_true, if_false, append_nil, length_append, flatMap_cons,
            flatMap_nil, FileLine.whole] at size less
          omega
        · exact filled (keeps.last ends last (by simp))
  · have joined : joinLines false ((init ++ [last]).map FileLine.text) = init.flatMap FileLine.joined ++ last.text := by
      unfold joinLines
      rw [intercalate_newline]
      simp
    have whole : (init ++ [last]).flatMap FileLine.whole =
      init.flatMap FileLine.whole ++ last.text := by simp [FileLine.whole, bare]
    rw [split, ends, joined, whole, append_cancel_right_eq, flatMap_joined_eq_iff terminated]
    constructor
    · intro plain
      refine ⟨?_, fun other => absurd (ends.symm.trans other) Bool.false_ne_true, ?_⟩
      · intro line mem
        rcases mem_append.mp mem with inInit | own
        · exact plain line inInit
        · rw [mem_singleton.mp own, bare]
          decide
      · intro _ line own
        rw [getLast?_concat] at own
        cases own
        exact bare
    · exact fun keeps line mem => keeps.plain line (mem_append_left _ mem)

/-! ## Line edits as one substitution -/

/-- An edit is reported as out of range, or every span, which lies in the file, is replaced and
every other line is left with its end. -/
def Substitutes (content : Text)
    (edits : List RefactorEdit) (outcome : Except EditFailure Text) : Prop :=
  (∃ refused count, outcome = .error (.refused (outOfRange refused count))) ∨
    outcome = .ok ((substituted content edits).flatMap FileLine.whole) ∧
      ∀ edit ∈ edits, 0 < edit.lineEnd ∧ edit.lineEnd ≤ (fileLines content).length

/-- An edit ends behind the file, or none is of line 0 and the remaining lines keep their ends, or
one is of line 0 and no line remains for it. -/
def Substitutable (content : Text) (edits : List RefactorEdit) : Prop :=
  (∃ edit ∈ edits, (fileLines content).length < edit.lineEnd) ∨
    (∀ edit ∈ edits, 0 < edit.lineEnd) ∧ KeepsEndings content (substituted content edits) ∨
    (∃ edit ∈ edits, edit.lineEnd = 0) ∧ substituted content edits = []

/-- Accepted spans of one file are apart, and the edits, sorted in reverse, are one substitution
exactly where the lines keep their ends. -/
theorem applyEdits_substitutes_iff (byFile : List String) (path : String)
    (content : Text) (edits : List RefactorEdit) (single : ∀ edit ∈ edits, edit.filePath = path)
    (listed : ∀ edit ∈ edits, edit.filePath ∈ byFile)
    (ordered : ∀ edit ∈ edits, edit.lineStart ≤ edit.lineEnd)
    (accepted : checkOverlaps byFile edits = .ok ()) :
    edits.Pairwise Apart ∧ (Substitutes content edits (applyEdits content (sortReverse edits)) ↔
      Substitutable content edits) := by
  have apart := apart_of_accepted single listed ordered accepted
  refine ⟨apart, ?_⟩
  by_cases beyond : ∃ edit ∈ edits, (fileLines content).length < edit.lineEnd
  · obtain ⟨edit, mem, above⟩ := beyond
    exact iff_of_true (.inl (applyEdits_beyond apart ordered mem above)) (.inl ⟨edit, mem, above⟩)
  · have within : ∀ edit ∈ edits, edit.lineEnd ≤ (fileLines content).length := fun edit mem =>
      Nat.le_of_not_lt fun above => beyond ⟨edit, mem, above⟩
    unfold Substitutes Substitutable
    rw [or_iff_right beyond]
    by_cases zero : ∃ edit ∈ edits, edit.lineEnd = 0
    · obtain ⟨edit, mem, none'⟩ := zero
      have unnamed : ¬ ∀ edit ∈ edits, 0 < edit.lineEnd := fun all => by
        have := all edit mem
        omega
      rw [applyEdits_lineZero apart ordered within mem none']
      constructor
      · rintro (empty | ⟨_, named⟩)
        · exact .inr ⟨⟨edit, mem, none'⟩, empty⟩
        · exact absurd (fun other inEdits => (named other inEdits).1) unnamed
      · rintro (⟨named, _⟩ | ⟨_, empty⟩)
        · exact absurd named unnamed
        · exact .inl empty
    · have named : ∀ edit ∈ edits, 0 < edit.lineEnd := fun edit mem =>
        Nat.pos_of_ne_zero fun none' => zero ⟨edit, mem, none'⟩
      rw [applyEdits_ok apart ordered named within]
      constructor
      · rintro (⟨_, _, failed⟩ | ⟨same, _⟩)
        · cases failed
        · exact .inl ⟨named, (joinLines_eq_iff content edits).mp (Except.ok.inj same)⟩
      · rintro (⟨_, keeps⟩ | ⟨impossible, _⟩)
        · exact .inr ⟨congrArg _ ((joinLines_eq_iff content edits).mpr keeps), fun edit mem =>
            ⟨named edit mem, within edit mem⟩⟩
        · exact absurd impossible zero

def lineEdit (first last : Nat) (newText : Text) : RefactorEdit :=
  { filePath := "f.rs", lineStart := first, lineEnd := last, oldText := [], newText := newText,
    editKind := .renameOccurrence }

theorem applyEdits_substitutes_two :
    Substitutes ['a', '\n', 'b', '\n', 'c', '\n'] [lineEdit 1 1 ['x'], lineEdit 2 3 []]
      (applyEdits ['a', '\n', 'b', '\n', 'c', '\n'] (sortReverse [lineEdit 1 1 ['x'], lineEdit 2 3 []])) := by
  have remaining : substituted ['a', '\n', 'b', '\n', 'c', '\n'] [lineEdit 1 1 ['x'],
    lineEdit 2 3 []] = [⟨['x'], ['\n']⟩] := by decide
  refine (applyEdits_substitutes_iff ["f.rs"] "f.rs" _ _ (by decide) (by decide) (by decide) (by decide)).2.mpr
    (.inr (.inl ⟨by decide, ?_⟩))
  rw [remaining]
  exact ⟨by decide, fun _ => cons_ne_nil _ _, fun open' => absurd open' (by decide)⟩

/-- The carriage return of a line that no edit touches is gone. -/
theorem applyEdits_drops_carriageReturn :
    ¬ ∀ (byFile : List String) (path : String) (content : Text) (edits : List RefactorEdit),
      (∀ edit ∈ edits, edit.filePath = path) → (∀ edit ∈ edits, edit.filePath ∈ byFile) →
      (∀ edit ∈ edits, edit.lineStart ≤ edit.lineEnd) → checkOverlaps byFile edits = .ok () →
      edits.Pairwise Apart ∧ Substitutes content edits (applyEdits content (sortReverse edits)) := by
  intro all
  have holds := (all ["f.rs"] "f.rs" ['a', '\r', '\n', 'b', '\r', '\n'] [lineEdit 2 2 ['c']]
    (by decide) (by decide) (by decide) (by decide)).2
  have made : applyEdits ['a', '\r', '\n', 'b', '\r', '\n'] (sortReverse [lineEdit 2 2 ['c']]) =
    .ok ['a', '\n', 'c', '\n'] := by decide
  have right : (substituted ['a', '\r', '\n', 'b', '\r', '\n'] [lineEdit 2 2 ['c']]).flatMap
    FileLine.whole = ['a', '\r', '\n', 'c', '\r', '\n'] := by decide
  rw [made] at holds
  rcases holds with ⟨_, _, failed⟩ | ⟨same, _⟩
  · cases failed
  · rw [right] at same
    exact absurd same (by decide)

end Atlas.Refactor
