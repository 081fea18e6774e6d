import Mathlib.Algebra.Order.Ring.Int
import Mathlib.Data.List.Perm.Basic

/-! Picking an item of the greatest key by a fold that keeps one of two items at
each step. How ties are broken decides which item it is, never its key. -/
namespace Atlas.Program
open List

variable {Item Key : Type} [LinearOrder Key]

def KeepsGreater (key : Item → Key) (keep : Item → Item → Item) : Prop := ∀ best item,
    (keep best item = best ∧ key item ≤ key best) ∨ (keep best item = item ∧ key best ≤ key item)

section
variable {key : Item → Key} {keep keep' : Item → Item → Item}

theorem mem_foldl_keep (keeps : KeepsGreater key keep) (first : Item) (rest : List Item) :
    rest.foldl keep first ∈ first :: rest := by
  induction rest generalizing first with
  | nil => exact mem_singleton.mpr rfl
  | cons item rest ih =>
    rw [foldl_cons]
    rcases keeps first item with ⟨kept, -⟩ | ⟨kept, -⟩
    · rw [kept]
      rcases mem_cons.mp (ih first) with same | later
      · exact mem_cons.mpr (.inl same)
      · exact .tail _ (.tail _ later)
    · rw [kept]
      exact .tail _ (ih item)

theorem le_foldl_keep (keeps : KeepsGreater key keep) (first : Item) (rest : List Item) :
    ∀ item ∈ first :: rest, key item ≤ key (rest.foldl keep first) := by
  induction rest generalizing first with
  | nil =>
    intro item mem
    rw [mem_singleton.mp mem]
    exact le_refl _
  | cons second rest ih =>
    rw [foldl_cons]
    intro item mem
    rcases keeps first second with ⟨kept, order⟩ | ⟨kept, order⟩
    · rw [kept]
      rcases mem_cons.mp mem with rfl | older
      · exact ih _ _ (.head _)
      · rcases mem_cons.mp older with rfl | later
        · exact order.trans (ih first first (.head _))
        · exact ih first item (.tail _ later)
    · rw [kept]
      rcases mem_cons.mp mem with rfl | older
      · exact order.trans (ih second second (.head _))
      · exact ih second item older

end

def lastGreatest? (key : Item → Key) : List Item → Option Item
  | [] => none
  | first :: rest => some (rest.foldl (fun best item => if key best ≤ key item then item else best) first)

section
variable {key : Item → Key} {items : List Item} {greatest : Item}

theorem keepsGreater_last (key : Item → Key) :
    KeepsGreater key fun best item => if key best ≤ key item then item else best := by
  intro best item
  by_cases order : key best ≤ key item
  · exact .inr ⟨if_pos order, order⟩
  · exact .inl ⟨if_neg order, (not_le.mp order).le⟩

theorem lastGreatest?_eq_none_iff : lastGreatest? key items = none ↔ items = [] := by
  cases items with
  | nil => exact ⟨fun _ => rfl, fun _ => rfl⟩
  | cons first rest => exact ⟨nofun, nofun⟩

section
variable (found : lastGreatest? key items = some greatest)
include found

theorem mem_of_lastGreatest? : greatest ∈ items := by
  cases items with
  | nil => cases found
  | cons first rest =>
    rw [← Option.some.inj found]
    exact mem_foldl_keep (keepsGreater_last key) first rest

theorem le_lastGreatest? : ∀ item ∈ items, key item ≤ key greatest := by
  cases items with
  | nil => cases found
  | cons first rest =>
    rw [← Option.some.inj found]
    exact le_foldl_keep (keepsGreater_last key) first rest

theorem lastGreatest?_split : ∃ before after, items = before ++ greatest :: after ∧
    (∀ item ∈ before, key item ≤ key greatest) ∧ ∀ item ∈ after, key item < key greatest := by
  cases items with
  | nil => cases found
  | cons first rest =>
    rw [← Option.some.inj found]
    clear found
    induction rest generalizing first with
    | nil => exact ⟨[], [], rfl, nofun, nofun⟩
    | cons second rest ih =>
      rw [foldl_cons]
      by_cases order : key first ≤ key second
      · rw [if_pos order]
        obtain ⟨before, after, split, earlier, later⟩ := ih second
        refine ⟨first :: before, after, ?_, ?_, later⟩
        · rw [split, cons_append]
        · intro item mem
          rcases mem_cons.mp mem with rfl | inBefore
          · have bound := le_foldl_keep (keepsGreater_last key) second rest second (.head _)
            exact order.trans bound
          · exact earlier item inBefore
      · rw [if_neg order]
        have smaller := not_le.mp order
        obtain ⟨before, after, split, earlier, later⟩ := ih first
        cases before with
        | nil =>
          rw [nil_append, cons.injEq] at split
          obtain ⟨same, split⟩ := split
          refine ⟨[], second :: after, by rw [nil_append, ← same, ← split], nofun, ?_⟩
          intro item mem
          rcases mem_cons.mp mem with rfl | inAfter
          · rw [← same]
            exact smaller
          · exact later item inAfter
        | cons head before =>
          rw [cons_append, cons.injEq] at split
          obtain ⟨same, split⟩ := split
          refine ⟨first :: second :: before, after, ?_, ?_, later⟩
          · rw [cons_append, cons_append, ← split]
          · intro item mem
            have bound := earlier head (.head _)
            rw [← same] at bound
            rcases mem_cons.mp mem with rfl | older
            · exact bound
            · rcases mem_cons.mp older with rfl | inBefore
              · exact smaller.le.trans bound
              · exact earlier item (.tail _ inBefore)

theorem lastGreatest?_has_iff (Has : Item → Prop) : Has greatest ↔ ∃ before item after, items =
    before ++ item :: after ∧ Has item ∧ (∀ other ∈ before, ¬ Has other → key other ≤ key item) ∧
      ∀ other ∈ after, ¬ Has other → key other < key item := by
  obtain ⟨before, after, split, earlier, later⟩ := lastGreatest?_split found
  constructor
  · intro has
    exact ⟨before, greatest, after, split, has, fun other mem _ => earlier other mem, fun other mem _ => later other mem⟩
  · rintro ⟨before', item, after', split', has, earlier', later'⟩
    by_contra lacks
    have mem : item ∈ items := by
      rw [split']
      exact mem_append_right _ (.head _)
    have bound := le_lastGreatest? found item mem
    rcases append_eq_append_iff.mp (split.symm.trans split') with
      ⟨between, grown, rest⟩ | ⟨between, grown, rest⟩
    · cases between with
      | nil =>
        rw [nil_append, cons.injEq] at rest
        exact lacks (rest.1 ▸ has)
      | cons head between =>
        -- `item` stands behind the chosen one
        rw [cons_append, cons.injEq] at rest
        have behind : item ∈ after := by
          rw [rest.2]
          exact mem_append_right _ (.head _)
        have inBefore : greatest ∈ before' := by
          rw [grown, rest.1]
          exact mem_append_right _ (.head _)
        exact absurd (later item behind) (not_lt.mpr (earlier' greatest inBefore lacks))
    · cases between with
      | nil =>
        rw [nil_append, cons.injEq] at rest
        exact lacks (rest.1 ▸ has)
      | cons head between =>
        rw [cons_append, cons.injEq] at rest
        have inAfter : greatest ∈ after' := by
          rw [rest.2]
          exact mem_append_right _ (.head _)
        exact absurd (later' greatest inAfter lacks) (not_lt.mpr bound)

end
end

end Atlas.Program
