import Mathlib.Algebra.Order.Ring.Int
import Mathlib.Data.List.Destutter
import Mathlib.Data.List.Infix

/-! `splitn` beside `List.splitOn`: where the pieces come from, and how many there are. -/
namespace Atlas.Text
open List

/-- `str::splitn`: the last piece keeps the separators that are left. -/
def splitn : Nat → Char → List Char → List (List Char)
  | 0, _, _ => []
  | 1, _, text => [text]
  | count + 2, separator, text =>
    if separator ∈ text then
      text.takeWhile (· ≠ separator) :: splitn (count + 1) separator (text.dropWhile (· ≠ separator)).tail
    else [text]

variable {separator c : Char} {text left : List Char}

theorem not_mem_of_mem_splitOn : ∀ piece ∈ text.splitOn separator, separator ∉ piece := by
  induction text with
  | nil => simp
  | cons c rest ih =>
    intro piece inside
    rw [splitOn_cons_eq_if_modifyHead] at inside
    by_cases same : (c == separator) = true
    · rw [if_pos same] at inside
      obtain rfl | later := mem_cons.mp inside
      · simp
      · exact ih piece later
    · rw [if_neg same] at inside
      obtain ⟨first, others, split⟩ := exists_cons_of_ne_nil (splitOn_ne_nil separator rest)
      rw [split] at inside ih
      obtain rfl | later := mem_cons.mp inside
      · rw [mem_cons, not_or]
        refine ⟨?_, ih first (.head _)⟩
        rintro rfl
        simp at same
      · exact ih piece (.tail _ later)

theorem mem_intercalate {separator : List Char} {pieces : List (List Char)}
    (inside : c ∈ separator.intercalate pieces) : c ∈ separator ∨ ∃ piece ∈ pieces, c ∈ piece := by
  induction pieces with
  | nil => simp at inside
  | cons first rest ih =>
    cases rest with
    | nil => simpa using Or.inr inside
    | cons next rest =>
      rw [intercalate_cons_cons, mem_append, mem_append] at inside
      obtain (early | between) | late := inside
      · exact .inr ⟨first, .head _, early⟩
      · exact .inl between
      · obtain same | ⟨piece, mem, inside⟩ := ih late
        · exact .inl same
        · exact .inr ⟨piece, .tail _ mem, inside⟩

theorem infix_intercalate {separator piece : List Char} {pieces : List (List Char)}
    (inside : piece ∈ pieces) : piece <:+: separator.intercalate pieces := by
  induction pieces with
  | nil => cases inside
  | cons first rest ih =>
    cases rest with
    | nil => rw [mem_singleton.mp inside, intercalate_singleton]
    | cons next rest =>
      rw [intercalate_cons_cons]
      obtain rfl | later := mem_cons.mp inside
      · rw [append_assoc]
        exact (prefix_append piece _).isInfix
      · exact (ih later).trans (suffix_append _ _).isInfix

theorem infix_of_mem_splitOn {piece : List Char} (inside : piece ∈ text.splitOn separator) :
    piece <:+: text := by
  have whole := @infix_intercalate [separator] _ _ inside
  rwa [intercalate_splitOn] at whole

theorem splitOn_append_of_not_mem (absent : separator ∉ left) (right : List Char) :
    (left ++ right).splitOn separator = (right.splitOn separator).modifyHead (left ++ ·) := by
  induction left with
  | nil =>
    obtain ⟨first, others, split⟩ := exists_cons_of_ne_nil (splitOn_ne_nil separator right)
    rw [nil_append, split]
    rfl
  | cons c left ih =>
    rw [mem_cons, not_or] at absent
    have differs : ¬ (c == separator) = true := by
      rw [beq_iff_eq]
      exact Ne.symm absent.1
    rw [cons_append, splitOn_cons_eq_if_modifyHead, if_neg differs, ih absent.2]
    obtain ⟨first, others, split⟩ := exists_cons_of_ne_nil (splitOn_ne_nil separator right)
    rw [split]
    rfl

theorem splitn_append {right : List Char} (absent : separator ∉ left) (count : Nat) :
    splitn (count + 2) separator (left ++ separator :: right) =
      left :: splitn (count + 1) separator right := by
  have inside : separator ∈ left ++ separator :: right := mem_append_right _ (.head _)
  have differ : ∀ c ∈ left, decide (c ≠ separator) = true := by
    intro c mem
    rw [decide_eq_true_eq]
    rintro rfl
    exact absent mem
  rw [splitn, if_pos inside, takeWhile_append_of_pos differ, dropWhile_append_of_pos differ]
  simp

theorem splitn_of_not_mem (absent : separator ∉ text) (count : Nat) :
    splitn (count + 1) separator text = [text] := by
  cases count with
  | zero => rfl
  | succ count => rw [splitn, if_neg absent]

theorem length_splitn_le (separator : Char) : ∀ (count : Nat) (text : List Char),
    (splitn count separator text).length ≤ text.count separator + 1 := by
  intro count
  induction count with
  | zero =>
    intro text
    exact Nat.zero_le _
  | succ count ih =>
    intro text
    by_cases inside : separator ∈ text
    · cases count with
      | zero =>
        rw [splitn, length_singleton]
        omega
      | succ count =>
        rw [splitn, if_pos inside, length_cons]
        have whole : text = text.takeWhile (· ≠ separator) ++ text.dropWhile (· ≠ separator) := takeWhile_append_dropWhile.symm
        have rest := ih (text.dropWhile (· ≠ separator)).tail
        cases left : text.dropWhile (· ≠ separator) with
        | nil =>
          rw [left, append_nil] at whole
          rw [whole] at inside
          have differs := all_eq_true.mp all_takeWhile separator inside
          simp at differs
        | cons head tail =>
          have first := head?_dropWhile_not (· ≠ separator) text
          rw [left] at first
          have same : head = separator := by simpa using first
          rw [left, tail_cons] at rest
          rw [tail_cons]
          have counted : text.count separator =
            (text.takeWhile (· ≠ separator)).count separator + (tail.count separator + 1) := by
            conv_lhs => rw [whole, left, same]
            rw [count_append, count_cons_self]
          omega
    · rw [splitn_of_not_mem inside, length_singleton]
      omega

theorem mem_of_mem_splitn :
    ∀ {count : Nat} {text piece : List Char}, piece ∈ splitn count separator text →
      c ∈ piece → c ∈ text := by
  intro count
  induction count with
  | zero =>
    intro text piece mem
    cases mem
  | succ count ih =>
    intro text piece mem inside
    by_cases split : separator ∈ text
    · cases count with
      | zero =>
        rw [splitn, mem_singleton] at mem
        exact mem ▸ inside
      | succ count =>
        rw [splitn, if_pos split] at mem
        obtain rfl | later := mem_cons.mp mem
        · exact (takeWhile_sublist _).subset inside
        · exact (dropWhile_sublist _).subset (mem_of_mem_tail (ih later inside))
    · rw [splitn_of_not_mem split, mem_singleton] at mem
      exact mem ▸ inside

theorem mem_destutter_ne {Value : Type} [DecidableEq Value] {values : List Value} {value : Value} :
    value ∈ values.destutter (· ≠ ·) ↔ value ∈ values := by
  constructor
  · exact fun mem => (destutter_sublist _ _).subset mem
  · intro mem
    cases values with
    | nil => exact mem
    | cons first rest =>
      rw [destutter_cons']
      induction rest generalizing first with
      | nil => exact mem
      | cons next rest ih =>
        by_cases same : first = next
        · subst same
          rw [destutter'_cons_neg _ (not_not_intro rfl)]
          rcases mem_cons.mp mem with rfl | behind
          · exact mem_destutter' _ _ _
          · exact ih first behind
        · rw [destutter'_cons_pos _ same]
          rcases mem_cons.mp mem with rfl | behind
          · exact .head _
          · exact .tail _ (ih next behind)

theorem exists_destutter_cons {Value : Type} [DecidableEq Value] (first : Value)
    (rest : List Value) : ∃ others, (first :: rest).destutter (· ≠ ·) = first :: others := by
  rw [destutter_cons']
  induction rest with
  | nil => exact ⟨[], rfl⟩
  | cons next rest ih =>
    by_cases same : first = next
    · subst same
      rw [destutter'_cons_neg _ (not_not_intro rfl)]
      exact ih
    · exact ⟨_, destutter'_cons_pos _ same⟩

end Atlas.Text
