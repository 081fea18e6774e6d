import Mathlib.Algebra.Order.Ring.Int
import Mathlib.Data.List.Flatten
import Mathlib.Data.List.Pairwise
import Mathlib.Data.List.Perm.Basic

/-! Components that are found while the items stream in: an item makes one class of those it
is related to. -/
namespace Atlas.Program
open List

variable {Item : Type}
  {related : Item → Item → Prop} {items : List Item} {classes : List (List Item)}

def Linked (related : Item → Item → Prop) (items : List Item) : Item → Item → Prop :=
  Relation.ReflTransGen fun left right => left ∈ items ∧ right ∈ items ∧ related left right

/-- The classes are the connected components of the relation. -/
structure PartsInto (related : Item → Item → Prop)
    (items : List Item) (classes : List (List Item)) : Prop where
  perm : classes.flatten.Perm items
  linked : ∀ members ∈ classes, ∀ left ∈ members, ∀ right ∈ members, Linked related items left right
  apart : classes.Pairwise fun first second => ∀ left ∈ first, ∀ right ∈ second, ¬ related left right

theorem Linked.mono {others : List Item} (inside : items ⊆ others) {left right : Item}
    (linked : Linked related items left right) : Linked related others left right :=
  Relation.ReflTransGen.mono (fun _ _ step => ⟨inside step.1, inside step.2.1, step.2.2⟩) _ _ linked

section
variable [Std.Symm related]

instance apartSymm : Std.Symm fun first second : List Item => ∀ left ∈ first, ∀ right ∈ second,
    ¬ related left right where
  symm _ _ apart left isLeft right isRight meets := apart right isRight left isLeft (Std.Symm.symm _ _ meets)

theorem PartsInto.reorder (parts : PartsInto related items classes)
    {others : List (List Item)} (same : classes.Perm others) : PartsInto related items others where
  perm := same.symm.flatten.trans parts.perm
  linked members listed := parts.linked members (same.mem_iff.mpr listed)
  apart := (same.pairwise_iff (Std.Symm.symm _ _)).mp parts.apart

theorem PartsInto.linked_iff (parts : PartsInto related items classes)
    {left right : Item} (isItem : left ∈ items) :
    Linked related items left right ↔ ∃ members ∈ classes, left ∈ members ∧ right ∈ members := by
  constructor
  · intro linked
    obtain ⟨members, isClass, isLeft⟩ := mem_flatten.mp (parts.perm.mem_iff.mpr isItem)
    refine ⟨members, isClass, isLeft, ?_⟩
    induction linked with
    | refl => exact isLeft
    | @tail middle next _ step inside =>
      obtain ⟨others, isOther, isNext⟩ := mem_flatten.mp (parts.perm.mem_iff.mpr step.2.1)
      by_cases same : members = others
      · rwa [same]
      · exact absurd step.2.2 (parts.apart.forall isClass isOther same middle inside next isNext)
  · rintro ⟨members, isClass, isLeft, isRight⟩
    exact parts.linked members isClass left isLeft right isRight

theorem PartsInto.join {taken left : List (List Item)}
    (parts : PartsInto related items (taken ++ left))
    {item : Item} {merged : List Item}
    (meets : ∀ members ∈ taken, ∃ mem ∈ members, related item mem)
    (misses : ∀ members ∈ left, ∀ mem ∈ members, ¬ related item mem)
    (whole : merged.Perm (taken.flatten ++ [item])) : PartsInto related (items ++ [item]) (merged :: left) := by
  have old : items ⊆ items ++ [item] := subset_append_left _ _
  have new : item ∈ items ++ [item] := by simp
  -- Every member of the new class is linked to the item, both ways.
  have around : ∀ mem ∈ merged, Linked related (items ++ [item]) mem item ∧ Linked related (items ++ [item]) item mem := by
    intro mem inside
    rcases mem_append.mp (whole.mem_iff.mp inside) with before | isItem
    · obtain ⟨members, isTaken, inMembers⟩ := mem_flatten.mp before
      have isClass : members ∈ taken ++ left := mem_append_left _ isTaken
      obtain ⟨next, isNext, meet⟩ := meets members isTaken
      have known : next ∈ items := parts.perm.mem_iff.mp (mem_flatten.mpr ⟨members, isClass, isNext⟩)
      have there := (parts.linked members isClass mem inMembers next isNext).mono old
      have back := (parts.linked members isClass next isNext mem inMembers).mono old
      exact ⟨there.tail ⟨old known, new, Std.Symm.symm _ _ meet⟩, .head ⟨new, old known, meet⟩ back⟩
    · obtain rfl := mem_singleton.mp isItem
      exact ⟨.refl, .refl⟩
  refine ⟨?_, ?_, ?_⟩
  · have flat := parts.perm
    rw [flatten_append] at flat
    rw [flatten_cons]
    refine (whole.append_right _).trans (.trans ?_ (flat.append_right [item]))
    rw [append_assoc, append_assoc]
    exact perm_append_comm.append_left _
  · intro members listed first isFirst second isSecond
    rcases mem_cons.mp listed with rfl | isLeft
    · exact (around first isFirst).1.trans (around second isSecond).2
    · exact (parts.linked members (mem_append_right _ isLeft) first isFirst second isSecond).mono old
  · obtain ⟨_, lefts, crossing⟩ := pairwise_append.mp parts.apart
    refine pairwise_cons.mpr ⟨?_, lefts⟩
    intro members isLeft first isFirst second isSecond
    rcases mem_append.mp (whole.mem_iff.mp isFirst) with before | isItem
    · obtain ⟨others, isTaken, inOthers⟩ := mem_flatten.mp before
      exact crossing others isTaken members isLeft first inOthers second isSecond
    · exact mem_singleton.mp isItem ▸ misses members isLeft second isSecond

end
end Atlas.Program
