import Mathlib.Algebra.Order.Ring.Int
import Mathlib.Data.List.Sort
import Mathlib.Data.List.Perm.Basic

/-! A bounded store that drops its least items after each insertion holds the
greatest of everything ever inserted, as long as no two items share a key. -/
namespace Atlas.Program
open List

variable {Item Key : Type} [LinearOrder Key]

def least (key : Item → Key) (count : Nat) (items : List Item) : List Item :=
  (items.insertionSort fun left right => key left ≤ key right).take count

/-- The kept items are the greatest of all, as many as the count allows. -/
structure Greatest (key : Item → Key) (count : Nat) (all kept : List Item) : Prop where
  split : ∃ dropped, (kept ++ dropped).Perm all ∧ ∀ lost ∈ dropped, ∀ item ∈ kept, key lost < key item
  length : kept.length = min count all.length

section
variable {key : Item → Key}

theorem Greatest.nil (count : Nat) : Greatest key count [] [] where
  split := ⟨[], .nil, by simp⟩
  length := by simp

variable {count : Nat} {all kept items : List Item} {item : Item}

theorem Greatest.mem (greatest : Greatest key count all kept) (mem : item ∈ kept) : item ∈ all := by
  obtain ⟨dropped, same, -⟩ := greatest.split
  exact same.subset (mem_append_left dropped mem)

theorem Greatest.perm {kept' : List Item} (greatest : Greatest key count all kept)
    (same : kept'.Perm kept) : Greatest key count all kept' where
  split := by
    obtain ⟨dropped, whole, below⟩ := greatest.split
    exact ⟨dropped, (same.append_right dropped).trans whole, fun lost mem item kept => below lost mem item (same.subset kept)⟩
  length := same.length_eq.trans greatest.length

theorem least_split (key : Item → Key) (count : Nat) (nodup : (items.map key).Nodup) :
    ∃ rest, (least key count items ++ rest).Perm items ∧ rest.length = items.length - count ∧
      ∀ lost ∈ least key count items, ∀ item ∈ rest, key lost < key item := by
  have sorting := perm_insertionSort (fun left right => key left ≤ key right) items
  have ordered : (items.insertionSort fun left right => key left ≤ key right).Pairwise
    fun left right => key left ≤ key right :=
    pairwise_insertionSort (fun left right => key left ≤ key right) items
  have apart : ((items.insertionSort fun left right => key left ≤ key right).map key).Nodup :=
    (sorting.map key).nodup_iff.mpr nodup
  unfold least
  generalize (items.insertionSort fun left right => key left ≤ key right) = sorted at *
  have whole := take_append_drop count sorted
  have strict : sorted.Pairwise fun left right => key left < key right := by
    have unequal := pairwise_map.mp apart
    exact (ordered.and unequal).imp fun both => lt_of_le_of_ne both.1 both.2
  refine ⟨sorted.drop count, ?_, ?_, ?_⟩
  · rw [whole]
    exact sorting
  · rw [length_drop, sorting.length_eq]
  · rw [← whole, pairwise_append] at strict
    intro lost early item late
    exact strict.2.2 lost early item late

theorem Greatest.insert {rest : List Item} (greatest : Greatest key count all kept)
    (grown : items.Perm (item :: kept)) (nodup : (items.map key).Nodup)
    (cut : (least key (items.length - count) items ++ rest).Perm items) :
    Greatest key count (item :: all) rest := by
  obtain ⟨dropped, same, below⟩ := greatest.split
  have size := greatest.length
  have total := same.length_eq
  have more := grown.length_eq
  obtain ⟨rest', cut', length, strict⟩ := least_split key (items.length - count) nodup
  have rests : rest.Perm rest' := (perm_append_left_iff _).mp (cut.trans cut'.symm)
  simp only [length_append, length_cons] at total more
  generalize least key (items.length - count) items = victims at *
  have whole : (rest' ++ (victims ++ dropped)).Perm (item :: all) := by
    -- Everything ever inserted is kept, dropped just now, or dropped before.
    rw [← append_assoc]
    have now : (rest' ++ victims).Perm (item :: kept) := (perm_append_comm.trans cut').trans grown
    exact (now.append_right dropped).trans (same.cons item)
  have lower : ∀ lost ∈ victims ++ dropped, ∀ survivor ∈ rest', key lost < key survivor := by
    intro lost gone survivor stays
    rcases mem_append.mp gone with now | before
    · exact strict lost now survivor stays
    · have survivorIn : survivor ∈ item :: kept := grown.subset (cut'.subset (mem_append_right _ stays))
      rcases mem_cons.mp survivorIn with rfl | old
      · -- Something was dropped before, so the store was full and one item goes now.
        have one : victims.length = 1 := by
          have := length_pos_of_mem before
          have := length_pos_of_mem stays
          have := cut'.length_eq
          simp only [length_append] at this
          omega
        obtain ⟨victim, rfl⟩ := length_eq_one_iff.mp one
        have less := strict victim (mem_singleton_self victim) survivor stays
        have victimIn : victim ∈ survivor :: kept := grown.subset (cut'.subset (mem_append_left _ (mem_singleton_self victim)))
        rcases mem_cons.mp victimIn with rfl | victimOld
        · exact absurd less (lt_irrefl _)
        · exact (below lost before victim victimOld).trans less
      · exact below lost before survivor old
  have count' : rest'.length = min count (item :: all).length := by
    rw [length_cons]
    omega
  exact Greatest.perm ⟨⟨victims ++ dropped, whole, lower⟩, count'⟩ rests

end
end Atlas.Program
