import Mathlib.Data.List.Infix

/-! Texts that occur in a longer one, in order and without overlap. -/
namespace Atlas.Text
open List

section
variable {Letter : Type}

/-- The words stand in the text one after another, gaps between them. -/
inductive InOrder : List (List Letter) → List Letter → Prop where
  | nil (text : List Letter) : InOrder [] text
  | cons (gap word : List Letter) {words : List (List Letter)} {after : List Letter} :
    InOrder words after → InOrder (word :: words) (gap ++ (word ++ after))

inductive Spread : List (List Letter) → List (List Letter) → Prop where
  | nil : Spread [] []
  | cons {words rest : List (List Letter)} {piece : List Letter} {pieces : List (List Letter)} :
    InOrder words piece → Spread rest pieces → Spread (words ++ rest) (piece :: pieces)

variable {words first second : List (List Letter)} {word text left right pad : List Letter}
  {pieces : List (List Letter)}

theorem InOrder.pad_front (ordered : InOrder words text) : InOrder words (pad ++ text) := by
  cases ordered with
  | nil => exact .nil _
  | cons gap word later =>
    rw [← append_assoc]
    exact .cons _ _ later

theorem InOrder.append (before : InOrder first left) (after : InOrder second right) :
    InOrder (first ++ second) (left ++ right) := by
  induction before with
  | nil => exact after.pad_front
  | cons gap word _ ih =>
    rw [append_assoc, append_assoc, cons_append]
    exact .cons _ _ ih

theorem InOrder.pad_back (ordered : InOrder words text) : InOrder words (text ++ pad) := by
  have padded := ordered.append (.nil pad)
  rwa [append_nil] at padded

theorem InOrder.of_within (inside : word <:+: text) : InOrder [word] text := by
  obtain ⟨gap, after, rfl⟩ := inside
  rw [append_assoc]
  exact .cons _ _ (.nil _)

theorem InOrder.within (ordered : InOrder words text) : ∀ word ∈ words, word <:+: text := by
  induction ordered with
  | nil => simp
  | cons gap word _ ih =>
    intro other mem
    rcases mem_cons.mp mem with rfl | later
    · exact ⟨gap, _, append_assoc _ _ _⟩
    · exact (ih other later).trans ((suffix_append _ _).trans (suffix_append _ _)).isInfix

theorem InOrder.unpad_front (ordered : InOrder words (pad ++ text))
    (starts : ∀ word ∈ words, ∃ c ∈ word.head?, c ∉ pad) : InOrder words text := by
  generalize whole : pad ++ text = padded at ordered
  cases ordered with
  | nil => exact .nil _
  | cons gap word later =>
    rcases append_eq_append_iff.mp whole with ⟨more, rfl, rfl⟩ | ⟨cut, rfl, rest⟩
    · exact .cons _ _ later
    · cases cut with
      | nil =>
        rw [nil_append] at rest
        rw [← rest]
        exact .cons [] _ later
      | cons c others =>
        obtain ⟨head, isHead, absent⟩ := starts word (.head _)
        obtain ⟨tail, rfl⟩ := head?_eq_some_iff.mp isHead
        obtain ⟨rfl, _⟩ := cons.inj rest
        exact absurd (mem_append_right _ (.head _)) absent

theorem InOrder.unpad_back (ordered : InOrder words (text ++ pad))
    (stops : ∀ word ∈ words, ∃ c ∈ word.getLast?, c ∉ pad) : InOrder words text := by
  generalize whole : text ++ pad = padded at ordered
  induction ordered generalizing text with
  | nil => exact .nil _
  | @cons gap word rest after later ih =>
    obtain ⟨last, isLast, absent⟩ := stops word (.head _)
    have others : ∀ word ∈ rest, ∃ c ∈ word.getLast?, c ∉ pad := fun other mem =>
      stops other (.tail _ mem)
    rw [← append_assoc] at whole
    rcases append_eq_append_iff.mp whole with ⟨cut, joined, shape⟩ | ⟨more, rfl, rfl⟩
    · -- the word would end within what is taken away
      cases cut using reverseRecOn with
      | nil =>
        rw [append_nil] at joined
        rw [nil_append] at shape
        have kept := InOrder.cons gap word (@ih [] others shape)
        rwa [append_nil, joined] at kept
      | append_singleton others final =>
        obtain ⟨init, rfl⟩ := getLast?_eq_some_iff.mp isLast
        rw [← append_assoc, ← append_assoc] at joined
        obtain rfl := singleton_inj.mp (append_inj_right' joined rfl)
        rw [shape] at absent
        exact absurd (by simp) absent
    · rw [append_assoc]
      exact .cons _ _ (ih others rfl)

theorem InOrder.split {separator : Letter} (ordered : InOrder words (left ++ separator :: right))
    (filled : ∀ word ∈ words, word ≠ []) (absent : ∀ word ∈ words, separator ∉ word) :
    ∃ first second, words = first ++ second ∧ InOrder first left ∧ InOrder second right := by
  generalize whole : left ++ separator :: right = text at ordered
  induction ordered generalizing left with
  | nil => exact ⟨[], [], rfl, .nil _, .nil _⟩
  | @cons gap word rest after later ih =>
    have within := absent word (.head _)
    rcases append_eq_append_iff.mp whole with ⟨more, rfl, shape⟩ | ⟨more, rfl, shape⟩
    · cases more with
      | nil =>
        obtain ⟨head, tail, rfl⟩ := exists_cons_of_ne_nil (filled word (.head _))
        obtain ⟨rfl, _⟩ := cons.inj shape
        exact absurd (.head _) within
      | cons c others =>
        obtain ⟨_, rfl⟩ := cons.inj shape
        exact ⟨[], word :: rest, rfl, .nil _, .cons _ _ later⟩
    · have resume {behind : List Letter} (tail : behind ++ separator :: right = after) :
          ∃ first second, word :: rest = first ++ second ∧ InOrder first (gap ++ (word ++ behind)) ∧ InOrder second right := by
        obtain ⟨first, second, rfl, before, behindIt⟩ := ih (fun other mem =>
          filled other (.tail _ mem)) (fun other mem => absent other (.tail _ mem)) tail
        exact ⟨word :: first, second, rfl, .cons _ _ before, behindIt⟩
      rcases append_eq_append_iff.mp shape with ⟨behind, rfl, tail⟩ | ⟨cut, rfl, tail⟩
      · exact resume tail.symm
      · cases cut with
        | nil => simpa only [append_nil] using @resume [] tail
        | cons c others =>
          obtain ⟨rfl, _⟩ := cons.inj tail
          exact absurd (mem_append_right _ (.head _)) within

theorem Spread.parts {others : List (List Letter)} (spread : Spread words (pieces ++ others)) :
    ∃ first second, words = first ++ second ∧ Spread first pieces ∧ Spread second others := by
  induction pieces generalizing words with
  | nil => exact ⟨[], words, rfl, .nil, spread⟩
  | cons piece pieces ih =>
    cases spread with
    | cons here later =>
      obtain ⟨first, second, rfl, before, after⟩ := ih later
      exact ⟨_ ++ first, second, (append_assoc _ _ _).symm, .cons here before, after⟩

theorem Spread.flatten (spread : Spread words pieces) : InOrder words pieces.flatten := by
  induction spread with
  | nil => exact .nil _
  | cons here _ ih => exact here.append ih

theorem Spread.intercalate (spread : Spread words pieces) (separator : List Letter) :
    InOrder words (separator.intercalate pieces) := by
  induction spread with
  | nil => exact .nil _
  | @cons words rest piece pieces here later ih =>
    cases pieces with
    | nil =>
      cases later
      rw [append_nil, intercalate_singleton]
      exact here
    | cons next others =>
      rw [intercalate_cons_cons, append_assoc]
      exact here.append ih.pad_front

end
end Atlas.Text
