import Atlas.Refactor.Patch

/-! The hunks of a diff, applied at the positions of their headers to the old lines,
give the new lines. Positions and widths are natural numbers: the one caller asks for a
context of three lines, and no sum comes near the bound of a machine word. -/
namespace Atlas.Refactor
open List
open Text (lines)

def DiffOp.old? : DiffOp → Option Text
  | .equal line => some line
  | .remove line => some line
  | .insert _ => none

def DiffOp.new? : DiffOp → Option Text
  | .equal line => some line
  | .remove _ => none
  | .insert line => some line

def oldSide (ops : List DiffOp) : List Text := ops.filterMap DiffOp.old?
def newSide (ops : List DiffOp) : List Text := ops.filterMap DiffOp.new?

@[simp] theorem oldSide_append (first second : List DiffOp) :
    oldSide (first ++ second) = oldSide first ++ oldSide second := filterMap_append
@[simp] theorem newSide_append (first second : List DiffOp) :
    newSide (first ++ second) = newSide first ++ newSide second := filterMap_append

theorem oldSide_diffLines (old new : List Text) : oldSide (diffLines old new) = old := by
  induction old, new using diffLines.induct with
  | case1 news | case2 old olds => simp [diffLines, oldSide, DiffOp.old?, Function.comp_def]
  | case3 olds new news ih => simpa [diffLines, oldSide, DiffOp.old?] using ih
  | case4 old olds new news differs longer ih => simpa [diffLines, differs, longer, oldSide, DiffOp.old?] using ih
  | case5 old olds new news differs shorter ih =>
    simp only [diffLines, differs, shorter, if_false]
    exact ih

theorem newSide_diffLines (old new : List Text) : newSide (diffLines old new) = new := by
  induction old, new using diffLines.induct with
  | case1 news => simp [diffLines, newSide, DiffOp.new?, Function.comp_def]
  | case2 old olds => simp [diffLines, newSide, DiffOp.new?]
  | case3 olds new news ih => simpa [diffLines, newSide, DiffOp.new?] using ih
  | case4 old olds new news differs longer ih =>
    simp only [diffLines, differs, longer, if_false, if_true]
    exact ih
  | case5 old olds new news differs shorter ih => simpa [diffLines, differs, shorter, newSide, DiffOp.new?] using ih

variable {ops : List DiffOp} {oldLine newLine index next : Nat}

theorem sides_of_equal (equal : ∀ op ∈ ops, op.isEqual = true) :
    oldSide ops = newSide ops ∧ (oldSide ops).length = ops.length := by
  induction ops with
  | nil => exact ⟨rfl, rfl⟩
  | cons op rest ih =>
    obtain ⟨same, count⟩ := ih fun other mem => equal other (.tail _ mem)
    have head := equal op (.head _)
    cases op with
    | equal line =>
      constructor
      · exact congrArg (line :: ·) same
      · exact congrArg (· + 1) count
    | remove line | insert line => cases head

/-! ## Written hunks -/

structure WrittenHunk where
  (oldStart oldCount newStart newCount : Nat)
  body : List DiffOp

def writtenHunk (hunk : List AnnotatedLine) : WrittenHunk where
  oldStart := (hunk.head?.map (·.oldLine)).getD 1
  oldCount := (hunk.filter fun line => !line.op.isInsert).length
  newStart := (hunk.head?.map (·.newLine)).getD 1
  newCount := (hunk.filter fun line => !line.op.isRemove).length
  body := hunk.map AnnotatedLine.op

def WrittenHunk.render (hunk : WrittenHunk) : Text :=
  ("@@ -" ++ toString hunk.oldStart ++ "," ++ toString hunk.oldCount ++ " +" ++
    toString hunk.newStart ++ "," ++ toString hunk.newCount ++ " @@\n").toList ++
    hunk.body.flatMap DiffOp.render

private theorem renderHunk_eq (hunk : List AnnotatedLine) :
    renderHunk hunk = (writtenHunk hunk).render := by
  unfold renderHunk WrittenHunk.render writtenHunk
  rw [flatMap_map]
  congr 2

def applyHunks (oldLine newLine : Nat) : List WrittenHunk → List Text → Option (List Text)
  | [], rest => some rest
  | hunk :: hunks, rest =>
    let skipped := hunk.oldStart - oldLine
    if oldLine ≤ hunk.oldStart ∧ skipped ≤ rest.length ∧ hunk.newStart = newLine + skipped ∧
      (rest.drop skipped).take hunk.oldCount = oldSide hunk.body ∧
        hunk.newCount = (newSide hunk.body).length then
      (applyHunks (hunk.oldStart + hunk.oldCount) (hunk.newStart + hunk.newCount) hunks
        (rest.drop (skipped + hunk.oldCount))).map fun behind =>
        rest.take skipped ++ newSide hunk.body ++ behind
    else none

/-- The hunks, with the equal lines between them, make up the whole script. -/
inductive Laid : Nat → Nat → List DiffOp → List WrittenHunk → Prop where
  | done {oldLine newLine : Nat} {gap : List DiffOp} : (∀ op ∈ gap, op.isEqual = true) → Laid oldLine newLine gap []
  | hunk {oldLine newLine : Nat} {gap rest : List DiffOp} {hunk : WrittenHunk}
      {hunks : List WrittenHunk} :
      (∀ op ∈ gap, op.isEqual = true) → hunk.body ≠ [] →
      hunk.oldStart = oldLine + gap.length → hunk.newStart = newLine + gap.length →
      hunk.oldCount = (oldSide hunk.body).length → hunk.newCount = (newSide hunk.body).length →
      Laid (hunk.oldStart + hunk.oldCount) (hunk.newStart + hunk.newCount) rest hunks →
      Laid oldLine newLine (gap ++ hunk.body ++ rest) (hunk :: hunks)

theorem Laid.applies {hunks : List WrittenHunk} (laid : Laid oldLine newLine ops hunks) :
    applyHunks oldLine newLine hunks (oldSide ops) = some (newSide ops) := by
  induction laid with
  | done equal => exact congrArg some (sides_of_equal equal).1
  | @hunk oldLine newLine gap rest hunk hunks equal _ oldStart newStart oldCount newCount _ ih =>
    obtain ⟨same, length⟩ := sides_of_equal equal
    have skipped : hunk.oldStart - oldLine = (oldSide gap).length := by omega
    have behind : (oldSide (gap ++ hunk.body ++ rest)).drop (oldSide gap).length = oldSide hunk.body ++ oldSide rest := by simp
    have further : (oldSide (gap ++ hunk.body ++ rest)).drop ((oldSide gap).length +
      hunk.oldCount) = oldSide rest := by rw [← drop_drop, behind, oldCount, drop_left]
    have taken : (oldSide (gap ++ hunk.body ++ rest)).take (oldSide gap).length = newSide gap := by
      rw [oldSide_append, oldSide_append, append_assoc, take_left, same]
    unfold applyHunks
    dsimp only
    rw [skipped, behind, further, taken, ih, if_pos]
    · simp
    · refine ⟨by omega, ?_, by omega, ?_, newCount⟩
      · simp
      · rw [oldCount, take_left]

theorem annotateFrom_map_op (oldLine newLine : Nat) (ops : List DiffOp) :
    (annotateFrom oldLine newLine ops).map AnnotatedLine.op = ops := by
  induction ops generalizing oldLine newLine with
  | nil => rfl
  | cons op rest ih => cases op <;> exact congrArg (_ :: ·) (ih _ _)

theorem annotateFrom_append (oldLine newLine : Nat) (before after : List DiffOp) :
    annotateFrom oldLine newLine (before ++ after) = annotateFrom oldLine newLine before ++
        annotateFrom (oldLine + (oldSide before).length) (newLine + (newSide before).length) after := by
  induction before generalizing oldLine newLine with
  | nil => rfl
  | cons op rest ih =>
    cases op with
    | equal text =>
      have moved := ih (oldLine + 1) (newLine + 1)
      simp only [Nat.add_right_comm _ 1] at moved
      exact congrArg (_ :: ·) moved
    | remove text =>
      have moved := ih (oldLine + 1) newLine
      simp only [Nat.add_right_comm _ 1] at moved
      exact congrArg (_ :: ·) moved
    | insert text =>
      have moved := ih oldLine (newLine + 1)
      simp only [Nat.add_right_comm _ 1] at moved
      exact congrArg (_ :: ·) moved

theorem length_annotateFrom (oldLine newLine : Nat) (ops : List DiffOp) :
    (annotateFrom oldLine newLine ops).length = ops.length := by
  rw [← length_map, annotateFrom_map_op]

private theorem writtenHunk_annotateFrom {body : List DiffOp} (nonempty : body ≠ []) :
    writtenHunk (annotateFrom oldLine newLine body) =
      { oldStart := oldLine, oldCount := (oldSide body).length, newStart := newLine,
        newCount := (newSide body).length, body := body } := by
  have counts (keep : DiffOp → Bool) : ((annotateFrom oldLine newLine body).filter fun line =>
    keep line.op).length = (body.filter keep).length := by
    conv => rhs; rw [← annotateFrom_map_op oldLine newLine body, filter_map, length_map]
    rfl
  have oldCount : (body.filter fun op => !op.isInsert).length = (oldSide body).length := by
    clear nonempty counts
    induction body with
    | nil => rfl
    | cons op rest ih => cases op <;> simp [oldSide, DiffOp.old?, DiffOp.isInsert] <;> exact ih
  have newCount : (body.filter fun op => !op.isRemove).length = (newSide body).length := by
    clear nonempty counts oldCount
    induction body with
    | nil => rfl
    | cons op rest ih => cases op <;> simp [newSide, DiffOp.new?, DiffOp.isRemove] <;> exact ih
  unfold writtenHunk
  rw [counts fun op => !op.isInsert, counts fun op => !op.isRemove, oldCount, newCount, annotateFrom_map_op]
  cases body with
  | nil => exact absurd rfl nonempty
  | cons op rest => rfl

private theorem annotateFrom_cons (oldLine newLine : Nat) (op : DiffOp) (rest : List DiffOp) :
    ∃ nextOld nextNew, annotateFrom oldLine newLine (op :: rest) =
      ⟨op, oldLine, newLine⟩ :: annotateFrom nextOld nextNew rest := by
  cases op <;> exact ⟨_, _, rfl⟩

private theorem mem_changedFrom {start : Nat} :
    index ∈ changedFrom start (annotateFrom oldLine newLine ops) ↔
      start ≤ index ∧ ∃ op, ops[index - start]? = some op ∧ op.isEqual = false := by
  induction ops generalizing start oldLine newLine with
  | nil => simp [annotateFrom, changedFrom]
  | cons op rest ih =>
    obtain ⟨nextOld, nextNew, annotated⟩ := annotateFrom_cons oldLine newLine op rest
    have step : index ∈ changedFrom start (annotateFrom oldLine newLine (op :: rest)) ↔
      index = start ∧ op.isEqual = false ∨
      index ∈ changedFrom (start + 1) (annotateFrom nextOld nextNew rest) := by
      rw [annotated]
      cases equal : op.isEqual <;> simp [changedFrom, equal]
    rw [step, ih]
    rcases Nat.lt_trichotomy index start with below | same | above
    · have early : ¬ start ≤ index ∧ ¬ start + 1 ≤ index ∧ index ≠ start := by omega
      simp [early]
    · simp [same]
    · have late : start ≤ index ∧ start + 1 ≤ index ∧ index ≠ start := by omega
      have shifted : index - start = index - (start + 1) + 1 := by omega
      rw [shifted, getElem?_cons_succ]
      simp [late]

private theorem changedFrom_pairwise (start : Nat) (annotated : List AnnotatedLine) :
    (changedFrom start annotated).Pairwise (· < ·) ∧ ∀ index ∈ changedFrom start annotated,
      start ≤ index := by
  induction annotated generalizing start with
  | nil => exact ⟨List.Pairwise.nil, nofun⟩
  | cons line rest ih =>
    obtain ⟨sorted, above⟩ := ih (start + 1)
    unfold changedFrom
    split
    · exact ⟨sorted, fun index mem => Nat.le_of_succ_le (above index mem)⟩
    · refine ⟨pairwise_cons.mpr ⟨above, sorted⟩, ?_⟩
      intro index mem
      rcases mem_cons.mp mem with same | later
      · exact same.ge
      · exact Nat.le_of_succ_le (above index later)

def Ranged (last : Nat) : Nat → List (Nat × Nat) → Prop
  | _, [] => True
  | next, (first, final) :: rest =>
    next ≤ first ∧ first ≤ final ∧ final ≤ last ∧ Ranged last (final + 1) rest

def Covered (index : Nat) (ranges : List (Nat × Nat)) : Prop :=
  ∃ range ∈ ranges, range.1 ≤ index ∧ index ≤ range.2

theorem Ranged.le {last : Nat} {ranges : List (Nat × Nat)}
    (ranged : Ranged last next ranges) (covered : Covered index ranges) : next ≤ index := by
  induction ranges generalizing next with
  | nil =>
    obtain ⟨range, mem, _⟩ := covered
    cases mem
  | cons head rest ih =>
    obtain ⟨from', ordered, _, later⟩ := ranged
    obtain ⟨range, mem, starts, ends⟩ := covered
    rcases mem_cons.mp mem with rfl | behind
    · exact from'.trans starts
    · have := ih later ⟨range, behind, starts, ends⟩
      omega

section
variable {context last first final : Nat} {changed : List Nat}

private theorem mergeRanges_ranged {next : Nat} (starts : next ≤ first) (ordered : first ≤ final) (ends :
    final ≤ last) (sorted : changed.Pairwise (· < ·)) (above : ∀ index ∈ changed, index ≤ last) :
    Ranged last next (mergeRanges context last first final changed) := by
  induction changed generalizing next first final with
  | nil => exact ⟨starts, ordered, ends, trivial⟩
  | cons index rest ih =>
    have within := above index (.head _)
    have others : ∀ other ∈ rest, other ≤ last := fun other mem => above other (.tail _ mem)
    unfold mergeRanges
    split
    · exact ih starts (by omega) (by omega) (pairwise_cons.mp sorted).2 others
    · next apart =>
        refine ⟨starts, ordered, ends, ?_⟩
        exact ih (by omega) (by omega) (by omega) (pairwise_cons.mp sorted).2 others

variable {index : Nat}

theorem mergeRanges_covers_open (starts : first ≤ index) (ends : index ≤ final) :
    Covered index (mergeRanges context last first final changed) := by
  induction changed generalizing final with
  | nil => exact ⟨_, mem_singleton_self _, starts, ends⟩
  | cons other rest ih =>
    unfold mergeRanges
    split
    · exact ih (by omega)
    · exact ⟨_, .head _, starts, ends⟩

private theorem mergeRanges_covers (sorted : (first :: changed).Pairwise (· ≤ ·))
    (above : ∀ index ∈ changed, index ≤ last) (mem : index ∈ changed) :
    Covered index (mergeRanges context last first final changed) := by
  induction changed generalizing first final with
  | nil => cases mem
  | cons head rest ih =>
    have below := (pairwise_cons.mp sorted).1
    have ordered := (pairwise_cons.mp sorted).2
    have within := above head (.head _)
    have others : ∀ other ∈ rest, other ≤ last := fun other inRest => above other (.tail _ inRest)
    have reached := below head (.head _)
    unfold mergeRanges
    split
    · rcases mem_cons.mp mem with rfl | inRest
      · exact mergeRanges_covers_open reached (by omega)
      · refine ih (pairwise_cons.mpr ⟨?_, (pairwise_cons.mp ordered).2⟩) others inRest
        exact fun other later => below other (.tail _ later)
    · have found : Covered index (mergeRanges context last (head - context) (min (head + context) last) rest) := by
        rcases mem_cons.mp mem with rfl | inRest
        · exact mergeRanges_covers_open (by omega) (by omega)
        · refine ih (pairwise_cons.mpr ⟨?_, (pairwise_cons.mp ordered).2⟩) others inRest
          intro other later
          have := (pairwise_cons.mp ordered).1 other later
          omega
      obtain ⟨range, inRanges, bounds⟩ := found
      exact ⟨range, .tail _ inRanges, bounds⟩

end

/-! ## Hunks -/

private theorem annotateFrom_part (before body rest : List DiffOp) :
    ((annotateFrom 1 1 (before ++ (body ++ rest))).take (before.length + body.length)).drop
      before.length =
        annotateFrom (1 + (oldSide before).length) (1 + (newSide before).length) body := by
  rw [annotateFrom_append, annotateFrom_append, ← append_assoc,
    take_left' (by rw [length_append, length_annotateFrom, length_annotateFrom]),
    drop_left' (length_annotateFrom 1 1 before)]

theorem drop_eq_part_append {first : Nat} (ordered : first ≤ next) (within : next ≤ ops.length) :
    ops.drop first = (ops.take next).drop first ++ ops.drop next := by
  conv => lhs; rw [← take_append_drop next ops]
  apply drop_append_of_le_length
  rw [length_take]
  omega

private theorem laid_of_ranged {ops : List DiffOp} {next : Nat}
    {ranges : List (Nat × Nat)} (ranged : Ranged (ops.length - 1) next ranges) (filled : ops ≠ [])
    (covers : ∀ index op, next ≤ index → ops[index]? = some op → op.isEqual = false → Covered index ranges) :
    Laid (1 + (oldSide (ops.take next)).length) (1 + (newSide (ops.take next)).length) (ops.drop next) (ranges.map fun range =>
        writtenHunk (((annotateFrom 1 1 ops).take (range.2 + 1)).drop range.1)) := by
  induction ranges generalizing next with
  | nil =>
    apply Laid.done
    intro op mem
    obtain ⟨index, found⟩ := mem_iff_getElem?.mp mem
    rw [getElem?_drop] at found
    by_contra changed
    rw [Bool.not_eq_true] at changed
    obtain ⟨range, inRanges, _⟩ := covers _ op (Nat.le_add_right _ _) found changed
    cases inRanges
  | cons range rest ih =>
    obtain ⟨first, final⟩ := range
    obtain ⟨starts, ordered, ends, later⟩ := ranged
    have pos := length_pos_iff.mpr filled
    -- The script before the gap, the gap, the hunk and what follows.
    let gap := (ops.take first).drop next
    let body := (ops.take (final + 1)).drop first
    have before : ops.take first = ops.take next ++ gap := by
      have parts := take_append_drop next (ops.take first)
      rw [take_take, Nat.min_eq_left starts] at parts
      exact parts.symm
    have hunked : ops.take (final + 1) = ops.take first ++ body := by
      have parts := take_append_drop first (ops.take (final + 1))
      rw [take_take, Nat.min_eq_left (by omega)] at parts
      exact parts.symm
    have firstLength : (ops.take first).length = first := by
      rw [length_take]
      omega
    have bodyLength : body.length = final + 1 - first := by
      rw [length_drop, length_take]
      omega
    have nonempty : body ≠ [] := by
      rw [← length_pos_iff, bodyLength]
      omega
    have equal : ∀ op ∈ gap, op.isEqual = true := by
      intro op mem
      obtain ⟨index, found⟩ := mem_iff_getElem?.mp mem
      rw [getElem?_drop] at found
      obtain ⟨inside, _⟩ := List.getElem?_eq_some_iff.mp found
      rw [List.getElem?_take_of_lt (by omega)] at found
      by_contra changed
      rw [Bool.not_eq_true] at changed
      have early := covers _ op (Nat.le_add_right _ _) found changed
      have whole : Ranged (ops.length - 1) first ((first, final) :: rest) := ⟨le_rfl, ordered, ends, later⟩
      have := whole.le early
      omega
    let written : WrittenHunk :=
      { oldStart := 1 + (oldSide (ops.take first)).length
        oldCount := (oldSide body).length
        newStart := 1 + (newSide (ops.take first)).length
        newCount := (newSide body).length
        body := body }
    have hunk : writtenHunk (((annotateFrom 1 1 ops).take (final + 1)).drop first) = written := by
      have part := annotateFrom_part (ops.take first) body (ops.drop (final + 1))
      rw [← append_assoc, ← hunked, take_append_drop, firstLength, bodyLength, Nat.add_sub_cancel' (by omega)] at part
      rw [part]
      exact writtenHunk_annotateFrom nonempty
    obtain ⟨same, length⟩ := sides_of_equal equal
    have oldStart : written.oldStart = 1 + (oldSide (ops.take next)).length + gap.length := by
      change 1 + (oldSide (ops.take first)).length = _
      rw [before, oldSide_append, length_append]
      omega
    have newStart : written.newStart = 1 + (newSide (ops.take next)).length + gap.length := by
      change 1 + (newSide (ops.take first)).length = _
      rw [before, newSide_append, length_append, ← same]
      omega
    have split : ops.drop next = gap ++ body ++ ops.drop (final + 1) := by
      rw [drop_eq_part_append starts (by omega), drop_eq_part_append (Nat.le_succ_of_le ordered)
        (by omega), append_assoc]
    have behind := ih later fun index op behind found changed => by
      obtain ⟨range, mem, bounds⟩ := covers index op (by omega) found changed
      rcases mem_cons.mp mem with rfl | inRest
      · have bound : index ≤ final := bounds.2
        omega
      · exact ⟨range, inRest, bounds⟩
    rw [hunked, oldSide_append, newSide_append, length_append, length_append, ← Nat.add_assoc, ← Nat.add_assoc] at behind
    rw [split, map_cons, hunk]
    exact @Laid.hunk _ _ gap _ written _ equal nonempty oldStart newStart rfl rfl behind

theorem buildHunks_laid (ops : List DiffOp) (context : Nat) :
    Laid 1 1 ops ((buildHunks ops context).map writtenHunk) := by
  cases changed : changedFrom 0 (annotateFrom 1 1 ops) with
  | nil =>
    have none' : buildHunks ops context = [] := by simp [buildHunks, changed]
    rw [none']
    apply Laid.done
    intro op mem
    exact all_eq_true.mp ((changedFrom_eq_nil_iff 0 1 1 ops).mp changed) op mem
  | cons index rest =>
    have positions : ∀ position, position ∈ index :: rest ↔ ∃ op, ops[position]? = some op ∧ op.isEqual = false := by
      intro position
      rw [← changed, mem_changedFrom]
      simp
    have bounded : ∀ position ∈ index :: rest, position ≤ ops.length - 1 := by
      intro position mem
      obtain ⟨op, found, _⟩ := (positions position).mp mem
      obtain ⟨inside, _⟩ := List.getElem?_eq_some_iff.mp found
      omega
    have sorted : (index :: rest).Pairwise (· < ·) := changed ▸ (changedFrom_pairwise 0 _).1
    have first := bounded index (.head _)
    have filled : ops ≠ [] := by
      rintro rfl
      cases changed
    have hunks : (buildHunks ops context).map writtenHunk = (mergeRanges context (ops.length - 1)
      (index - context) (min (index + context) (ops.length - 1)) rest).map fun range =>
            writtenHunk (((annotateFrom 1 1 ops).take (range.2 + 1)).drop range.1) := by
      simp [buildHunks, changed, length_annotateFrom]
    rw [hunks]
    apply @laid_of_ranged ops 0 _ ?_ filled
    · intro position op _ found different
      rcases mem_cons.mp ((positions position).mpr ⟨op, found, different⟩) with rfl | later
      · exact mergeRanges_covers_open (by omega) (by omega)
      · refine mergeRanges_covers ?_ (fun other mem =>
          bounded other (.tail _ mem)) later
        refine pairwise_cons.mpr ⟨fun other mem => ?_, (pairwise_cons.mp sorted).2.imp Nat.le_of_lt⟩
        have := (pairwise_cons.mp sorted).1 other mem
        omega
    · apply mergeRanges_ranged (Nat.zero_le _) (by omega) (by omega)
        (pairwise_cons.mp sorted).2
      exact fun position mem => bounded position (.tail _ mem)

/-! ## The diff of two texts -/

def fileHeader (path : String) : Text :=
  ("--- a/" ++ path ++ "\n").toList ++ ("+++ b/" ++ path ++ "\n").toList

def renderPatch (path : String) : List WrittenHunk → Text
  | [] => []
  | hunk :: hunks => fileHeader path ++ (hunk :: hunks).flatMap WrittenHunk.render

private theorem unifiedDiffAnnotated_eq (path : String) (old new : Text) :
    unifiedDiffAnnotated path old new =
      renderPatch path ((buildHunks (diffLines (lines old) (lines new)) 3).map writtenHunk) := by
  have agree := buildHunks_eq_nil_iff (diffLines (lines old) (lines new)) 3
  unfold unifiedDiffAnnotated
  dsimp only
  cases hunks : buildHunks (diffLines (lines old) (lines new)) 3 with
  | nil =>
    rw [if_pos (agree.mp hunks)]
    rfl
  | cons hunk rest =>
    have changed : ¬ (diffLines (lines old) (lines new)).all DiffOp.isEqual = true := fun equal => by
      rw [agree.mpr equal] at hunks
      cases hunks
    rw [if_neg changed, if_neg (cons_ne_nil _ _)]
    have rendered (parts : List (List AnnotatedLine)) :
      parts.flatMap renderHunk = (parts.map writtenHunk).flatMap WrittenHunk.render := by
      rw [flatMap_map]
      exact congrArg (parts.flatMap ·) (funext renderHunk_eq)
    rw [rendered]
    rfl

end Atlas.Refactor
