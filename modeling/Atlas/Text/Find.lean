import Mathlib.Data.List.Infix

/-! The first occurrence of a pattern in a text, with the texts before and behind it. -/
namespace Atlas.Text
open List

section
variable {Letter : Type} [DecidableEq Letter]

def cut (pattern : List Letter) : List Letter → Option (List Letter × List Letter)
  | [] => if pattern = [] then some ([], []) else none
  | head :: rest =>
    if pattern <+: head :: rest then some ([], (head :: rest).drop pattern.length)
    else (cut pattern rest).map fun (before, behind) => (head :: before, behind)

variable {pattern text before behind : List Letter}

theorem cut_eq_some (found : cut pattern text = some (before, behind)) :
    text = before ++ (pattern ++ behind) ∧
      ∀ earlier rest, text = earlier ++ (pattern ++ rest) → before.length ≤ earlier.length := by
  induction text generalizing before behind with
  | nil =>
    unfold cut at found
    split at found
    · next empty =>
        cases found
        rw [empty]
        exact ⟨rfl, fun _ _ _ => Nat.zero_le _⟩
    · cases found
  | cons head rest ih =>
    unfold cut at found
    split at found
    · next starts =>
        cases found
        obtain ⟨behind, same⟩ := starts
        rw [← same, drop_left]
        exact ⟨rfl, fun _ _ _ => Nat.zero_le _⟩
    · next starts =>
        obtain ⟨⟨before', behind'⟩, inRest, same⟩ := Option.map_eq_some_iff.mp found
        cases same
        obtain ⟨parts, first⟩ := ih inRest
        refine ⟨by rw [parts, cons_append], ?_⟩
        intro earlier later split
        cases earlier with
        | nil => exact absurd ⟨later, split.symm⟩ starts
        | cons head' earlier' =>
          rw [cons_append, cons.injEq] at split
          exact Nat.succ_le_succ (first earlier' later split.2)

theorem cut_eq_none_iff : cut pattern text = none ↔ ¬ pattern <:+: text := by
  induction text with
  | nil =>
    unfold cut
    rw [infix_nil]
    split
    · next empty =>
        constructor
        · intro absent
          cases absent
        · exact fun filled => absurd empty filled
    · next filled => exact ⟨fun _ => filled, fun _ => rfl⟩
  | cons head rest ih =>
    unfold cut
    rw [infix_cons_iff]
    split
    · next starts =>
        constructor
        · intro absent
          cases absent
        · exact fun absent => absurd (Or.inl starts) absent
    · next starts =>
        rw [Option.map_eq_none_iff, ih, not_or]
        exact ⟨fun absent => ⟨starts, absent⟩, And.right⟩

theorem isSome_cut_iff : (cut pattern text).isSome = true ↔ pattern <:+: text := by
  rw [← Option.not_isNone, Bool.not_eq_true', ← Bool.not_eq_true, Option.isNone_iff_eq_none, cut_eq_none_iff, Decidable.not_not]

theorem exists_cut (occurs : pattern <:+: text) :
    ∃ before behind, cut pattern text = some (before, behind) := by
  obtain ⟨⟨before, behind⟩, found⟩ := Option.isSome_iff_exists.mp (isSome_cut_iff.mpr occurs)
  exact ⟨before, behind, found⟩

theorem cut_append (clear : ¬ pattern <:+: before ++ pattern.dropLast) :
    cut pattern (before ++ (pattern ++ behind)) = some (before, behind) := by
  obtain ⟨earlier, later, found⟩ : ∃ earlier later, cut pattern (before ++ (pattern ++ behind)) =
    some (earlier, later) := exists_cut ⟨before, behind, append_assoc _ _ _⟩
  obtain ⟨parts, first⟩ := cut_eq_some found
  have bound := first before behind rfl
  rcases Nat.lt_or_eq_of_le bound with shorter | level
  · exfalso
    apply clear
    have starts : earlier ++ pattern <+: before ++ (pattern ++ behind) := by
      rw [parts, ← append_assoc]
      exact prefix_append _ _
    have starts' : before ++ pattern.dropLast <+: before ++ (pattern ++ behind) := by
      rw [prefix_append_right_inj]
      exact ( dropLast_prefix pattern).trans (prefix_append _ _)
    have inside : earlier ++ pattern <+: before ++ pattern.dropLast := by
      refine prefix_of_prefix_length_le starts starts' ?_
      rw [length_append, length_append, length_dropLast]
      omega
    exact (suffix_append earlier pattern).isInfix.trans inside.isInfix
  · obtain ⟨same, rest⟩ := append_inj parts level.symm
    rw [found, ← same, ← append_cancel_left rest]

end

section
variable {Letter : Type} {pattern left right : List Letter} {letter : Letter}

theorem prefix_append_cons_iff (absent : letter ∉ pattern) :
    pattern <+: left ++ letter :: right ↔ pattern <+: left := by
  induction left generalizing pattern with
  | nil =>
    cases pattern with
    | nil => exact ⟨fun _ => nil_prefix, fun _ => nil_prefix⟩
    | cons first rest =>
      rw [mem_cons, not_or] at absent
      rw [nil_append, cons_prefix_cons, prefix_nil]
      exact ⟨fun both => absurd both.1.symm absent.1, nofun⟩
  | cons head tail ih =>
    cases pattern with
    | nil => exact ⟨fun _ => nil_prefix, fun _ => nil_prefix⟩
    | cons first rest =>
      rw [mem_cons, not_or] at absent
      rw [cons_append, cons_prefix_cons, cons_prefix_cons, ih absent.2]

theorem infix_append_cons_iff (absent : letter ∉ pattern) :
    pattern <:+: left ++ letter :: right ↔ pattern <:+: left ∨ pattern <:+: right := by
  induction left with
  | nil =>
    have starts : pattern <+: [] ++ letter :: right ↔ pattern <+: [] := prefix_append_cons_iff absent
    rw [nil_append] at starts ⊢
    rw [infix_cons_iff, starts, prefix_nil, infix_nil]
  | cons head rest ih =>
    have starts : pattern <+: (head :: rest) ++ letter :: right ↔ pattern <+: head :: rest := prefix_append_cons_iff absent
    rw [cons_append] at starts ⊢
    rw [infix_cons_iff, infix_cons_iff, starts, ih, or_assoc]

theorem infix_of_append (absent : letter ∉ left) (occurs : letter :: pattern <:+: left ++ right) :
    letter :: pattern <:+: right := by
  induction left with
  | nil => exact occurs
  | cons head rest ih =>
    rw [mem_cons, not_or] at absent
    rw [cons_append, infix_cons_iff, cons_prefix_cons] at occurs
    rcases occurs with here | later
    · exact absurd here.1 absent.1
    · exact ih absent.2 later

theorem infix_append_cons_self (once : letter ∉ pattern)
    (occurs : letter :: pattern <:+: left ++ letter :: right) :
    letter :: pattern <:+: left ∨ letter :: pattern <:+: letter :: right := by
  induction left with
  | nil => exact .inr occurs
  | cons head rest ih =>
    rw [cons_append, infix_cons_iff, cons_prefix_cons, prefix_append_cons_iff once] at occurs
    rw [infix_cons_iff, cons_prefix_cons]
    rcases occurs with here | later
    · exact .inl (.inl here)
    · rcases ih later with inRest | behind
      · exact .inl (.inr inRest)
      · exact .inr behind

theorem separated_inj {separator : Letter} {left right behind behind' : List Letter}
    (leftFree : separator ∉ left) (rightFree : separator ∉ right) :
    left ++ separator :: behind = right ++ separator :: behind' ↔ left = right ∧ behind = behind' := by
  constructor
  · intro same
    induction left generalizing right with
    | nil =>
      cases right with
      | nil => exact ⟨rfl, (cons.inj same).2⟩
      | cons head right =>
        rw [nil_append, cons_append, cons.injEq] at same
        exact absurd (same.1 ▸ mem_cons_self) rightFree
    | cons head left ih =>
      cases right with
      | nil =>
        rw [nil_append, cons_append, cons.injEq] at same
        exact absurd (same.1 ▸ mem_cons_self) leftFree
      | cons head' right =>
        rw [cons_append, cons_append, cons.injEq] at same
        obtain ⟨parts, rests⟩ := ih (not_mem_of_not_mem_cons leftFree) (not_mem_of_not_mem_cons rightFree) same.2
        exact ⟨by rw [same.1, parts], rests⟩
  · rintro ⟨rfl, rfl⟩
    rfl

end
end Atlas.Text
