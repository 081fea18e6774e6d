import Atlas.Text.Split

/-! `str::lines`. -/
namespace Atlas.Text
open List

/-- A carriage return belongs to the line end only in front of a newline. -/
def stripCr (piece : List Char) : List Char :=
  if piece.getLast? = some '\r' then piece.dropLast else piece

def linesOfPieces : List (List Char) → List (List Char)
  | [] => []
  | [last] => if last = [] then [] else [last]
  | piece :: next :: rest => stripCr piece :: linesOfPieces (next :: rest)

def lines (text : List Char) : List (List Char) := linesOfPieces (text.splitOn '\n')

theorem text_induction {holds : List Char → Prop} (last : ∀ piece, '\n' ∉ piece → holds piece)
    (line : ∀ piece rest, '\n' ∉ piece → holds rest → holds (piece ++ '\n' :: rest))
    (content : List Char) : holds content := by
  induction size : content.length using Nat.strong_induction_on generalizing content with
  | _ count ih =>
    by_cases found : '\n' ∈ content
    · obtain ⟨piece, rest, rfl, absent⟩ := eq_append_cons_of_mem found
      refine line piece rest absent (ih rest.length ?_ rest rfl)
      rw [← size, length_append, length_cons]
      omega
    · exact last content found

variable {piece rest : List Char}

theorem lines_last (absent : '\n' ∉ piece) : lines piece = if piece = [] then [] else [piece] := by
  unfold lines
  rw [splitOn_eq_singleton absent]
  rfl

theorem lines_line (absent : '\n' ∉ piece) :
    lines (piece ++ '\n' :: rest) = stripCr piece :: lines rest := by
  unfold lines
  rw [splitOn_append_cons_self_of_not_mem absent]
  cases pieces : rest.splitOn '\n' with
  | nil => exact absurd pieces (splitOn_ne_nil _ _)
  | cons head tail => rfl

/-- What is printed line by line is read as these lines. -/
theorem lines_flatMap {Line : Type} (print : Line → List Char) {printed : List Line}
    (whole : ∀ line ∈ printed, '\n' ∉ print line) :
    lines (printed.flatMap fun line => print line ++ ['\n']) =
      printed.map fun line => stripCr (print line) := by
  induction printed with
  | nil => rfl
  | cons line rest ih =>
    rw [flatMap_cons, append_assoc, singleton_append, lines_line (whole line (.head _)),
      ih fun other mem => whole other (.tail _ mem), map_cons]

end Atlas.Text
