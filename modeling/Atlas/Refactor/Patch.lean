import Atlas.Refactor.LineEdits

/-! Unified diffs for refactor previews, from a longest common subsequence of lines. -/
namespace Atlas.Refactor
open Text (lines)

inductive DiffOp where
  | equal (line : Text)
  | remove (line : Text)
  | insert (line : Text)

def DiffOp.isEqual : DiffOp → Bool
  | .equal _ => true
  | _ => false

def DiffOp.isInsert : DiffOp → Bool
  | .insert _ => true
  | _ => false

def DiffOp.isRemove : DiffOp → Bool
  | .remove _ => true
  | _ => false

def lcs : List Text → List Text → Nat
  | [], _ => 0
  | _ :: _, [] => 0
  | old :: olds, new :: news =>
    if old = new then lcs olds news + 1
    else max (lcs olds (new :: news)) (lcs (old :: olds) news)

def diffLines : List Text → List Text → List DiffOp
  | [], news => news.map .insert
  | old :: olds, [] => (old :: olds).map .remove
  | old :: olds, new :: news =>
    if old = new then .equal old :: diffLines olds news
    else if lcs olds (new :: news) ≥ lcs (old :: olds) news then
      .remove old :: diffLines olds (new :: news)
    else .insert new :: diffLines (old :: olds) news

structure AnnotatedLine where
  op : DiffOp
  (oldLine newLine : Nat)

def annotateFrom : Nat → Nat → List DiffOp → List AnnotatedLine
  | _, _, [] => []
  | oldLine, newLine, op :: rest =>
    ⟨op, oldLine, newLine⟩ ::
      match op with
      | .equal _ => annotateFrom (oldLine + 1) (newLine + 1) rest
      | .remove _ => annotateFrom (oldLine + 1) newLine rest
      | .insert _ => annotateFrom oldLine (newLine + 1) rest

def changedFrom : Nat → List AnnotatedLine → List Nat
  | _, [] => []
  | index, line :: rest =>
    if line.op.isEqual then changedFrom (index + 1) rest
    else index :: changedFrom (index + 1) rest

def mergeRanges (context last : Nat) : Nat → Nat → List Nat → List (Nat × Nat)
  | first, final, [] => [(first, final)]
  | first, final, index :: rest =>
    if index - context ≤ final + 1 then
      mergeRanges context last first (max final (min (index + context) last)) rest
    else
      (first, final) :: mergeRanges context last (index - context) (min (index + context) last) rest

/-- The sums of an index and the context are those of the source while they stay below the
bound of a machine word. -/
def buildHunks (ops : List DiffOp) (context : Nat) : List (List AnnotatedLine) :=
  let annotated := annotateFrom 1 1 ops
  match changedFrom 0 annotated with
  | [] => []
  | index :: rest =>
    let last := annotated.length - 1
    (mergeRanges context last (index - context) (min (index + context) last) rest).map
      fun (first, final) => (annotated.take (final + 1)).drop first

def DiffOp.render : DiffOp → Text
  | .equal text => ' ' :: text ++ ['\n']
  | .remove text => '-' :: text ++ ['\n']
  | .insert text => '+' :: text ++ ['\n']

def renderLine (line : AnnotatedLine) : Text := line.op.render

def renderHunk (hunk : List AnnotatedLine) : Text :=
  let oldStart := (hunk.head?.map (·.oldLine)).getD 1
  let newStart := (hunk.head?.map (·.newLine)).getD 1
  let oldCount := (hunk.filter fun line => !line.op.isInsert).length
  let newCount := (hunk.filter fun line => !line.op.isRemove).length
  ("@@ -" ++ toString oldStart ++ "," ++ toString oldCount ++ " +" ++ toString newStart ++ "," ++
    toString newCount ++ " @@\n").toList ++ hunk.flatMap renderLine

def unifiedDiffAnnotated (path : String) (old new : Text) : Text :=
  let ops := diffLines (lines old) (lines new)
  if ops.all DiffOp.isEqual then []
  else
    let hunks := buildHunks ops 3
    if hunks = [] then []
    else
      ("--- a/" ++ path ++ "\n").toList ++ ("+++ b/" ++ path ++ "\n").toList ++
        hunks.flatMap renderHunk

theorem diffLines_all_equal_iff (old new : List Text) :
    (diffLines old new).all DiffOp.isEqual = true ↔ old = new := by
  induction old, new using diffLines.induct with
  | case1 news =>
    cases news with
    | nil => simp [diffLines]
    | cons new news => simp [diffLines, DiffOp.isEqual]
  | case2 old olds => simp [diffLines, DiffOp.isEqual]
  | case3 olds new news ih => simpa [diffLines, DiffOp.isEqual] using ih
  | case4 old olds new news differs longer ih => simp [diffLines, differs, longer, DiffOp.isEqual]
  | case5 old olds new news differs shorter ih => simp [diffLines, differs, shorter, DiffOp.isEqual]

theorem changedFrom_eq_nil_iff (index oldLine newLine : Nat) (ops : List DiffOp) :
    changedFrom index (annotateFrom oldLine newLine ops) = [] ↔ ops.all DiffOp.isEqual = true := by
  induction ops generalizing index oldLine newLine with
  | nil => simp [annotateFrom, changedFrom]
  | cons op rest ih =>
    cases op with
    | equal text => simpa [annotateFrom, changedFrom, DiffOp.isEqual] using ih _ _ _
    | remove text | insert text => simp [annotateFrom, changedFrom, DiffOp.isEqual]

theorem mergeRanges_ne_nil (context last first final : Nat) (changed : List Nat) :
    mergeRanges context last first final changed ≠ [] := by
  induction changed generalizing first final with
  | nil => simp [mergeRanges]
  | cons index rest ih =>
    unfold mergeRanges
    split
    · exact ih _ _
    · exact List.cons_ne_nil _ _

theorem buildHunks_eq_nil_iff (ops : List DiffOp) (context : Nat) :
    buildHunks ops context = [] ↔ ops.all DiffOp.isEqual = true := by
  rw [← changedFrom_eq_nil_iff 0 1 1]
  cases changed : changedFrom 0 (annotateFrom 1 1 ops) with
  | nil => simp [buildHunks, changed]
  | cons index rest => simp [buildHunks, changed, mergeRanges_ne_nil]

theorem unifiedDiffAnnotated_eq_nil_iff (path : String) (old new : Text) :
    unifiedDiffAnnotated path old new = [] ↔ lines old = lines new := by
  rw [← diffLines_all_equal_iff]
  cases same : (diffLines (lines old) (lines new)).all DiffOp.isEqual with
  | true => simp only [unifiedDiffAnnotated, same, if_true]
  | false =>
    have hunks : buildHunks (diffLines (lines old) (lines new)) 3 ≠ [] := by
      rw [Ne, buildHunks_eq_nil_iff, same]
      exact Bool.false_ne_true
    simp only [unifiedDiffAnnotated, same, if_neg hunks, Bool.false_eq_true, if_false, iff_false]
    simp

end Atlas.Refactor
