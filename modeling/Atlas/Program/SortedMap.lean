import Mathlib.Data.List.Sort

/-! Ordered sets and maps, as lists that carry their order. -/
namespace Atlas.Program
open List

structure SortedSet (Item : Type) [LinearOrder Item] where
  items : List Item
  ascending : items.Pairwise (· < ·)

structure SortedMap (Key Value : Type) [LinearOrder Key] where
  entries : List (Key × Value)
  ascending : entries.Pairwise fun left right => left.1 < right.1

variable {Key Value Other : Type} [LinearOrder Key]

instance : EmptyCollection (SortedSet Key) := ⟨⟨[], .nil⟩⟩

def insertEntry (key : Key) (value : Value) : List (Key × Value) → List (Key × Value)
  | [] => [(key, value)]
  | head :: rest =>
    if key < head.1 then (key, value) :: head :: rest
    else if key = head.1 then head :: rest
    else head :: insertEntry key value rest

variable {entries : List (Key × Value)}

theorem mem_insertEntry {key : Key} {value : Value}
    {entry : Key × Value} (mem : entry ∈ insertEntry key value entries) :
    entry = (key, value) ∨ entry ∈ entries := by
  induction entries with
  | nil => exact .inl (mem_singleton.mp mem)
  | cons head rest ih =>
    unfold insertEntry at mem
    split at mem
    · exact mem_cons.mp mem
    · split at mem
      · exact .inr mem
      · rcases mem_cons.mp mem with rfl | later
        · exact .inr mem_cons_self
        · exact (ih later).imp_right (mem_cons_of_mem _)

theorem ascending_insertEntry (key : Key)
    (value : Value) (sorted : entries.Pairwise fun left right => left.1 < right.1) :
    (insertEntry key value entries).Pairwise fun left right => left.1 < right.1 := by
  induction entries with
  | nil => exact pairwise_singleton _ _
  | cons head rest ih =>
    have ⟨first, later⟩ := pairwise_cons.mp sorted
    unfold insertEntry
    by_cases before : key < head.1
    · rw [if_pos before]
      refine pairwise_cons.mpr ⟨?_, sorted⟩
      intro other mem
      rcases mem_cons.mp mem with rfl | inRest
      · exact before
      · exact before.trans (first other inRest)
    · rw [if_neg before]
      by_cases same : key = head.1
      · rw [if_pos same]
        exact sorted
      · rw [if_neg same]
        refine pairwise_cons.mpr ⟨?_, ih later⟩
        intro other mem
        rcases mem_insertEntry mem with rfl | inRest
        · exact lt_of_le_of_ne (not_lt.mp before) (Ne.symm same)
        · exact first other inRest

theorem find?_insertEntry {key other : Key}
    {value : Value} (sorted : entries.Pairwise fun left right => left.1 < right.1) :
    (insertEntry other value entries).find? (fun entry => decide (entry.1 = key)) =
      if key = other then
        some ((entries.find? fun entry => decide (entry.1 = other)).getD (other, value))
      else entries.find? fun entry => decide (entry.1 = key) := by
  induction entries with
  | nil =>
    unfold insertEntry
    by_cases same : key = other
    · simp [same]
    · simp [same, Ne.symm same]
  | cons head rest ih =>
    have ⟨first, later⟩ := pairwise_cons.mp sorted
    unfold insertEntry
    by_cases before : other < head.1
    · rw [if_pos before]
      have absent : (head :: rest).find? (fun entry => decide (entry.1 = other)) = none := by
        rw [find?_eq_none]
        intro entry mem
        rw [decide_eq_true_eq]
        rcases mem_cons.mp mem with rfl | inRest
        · exact before.ne'
        · exact (before.trans (first entry inRest)).ne'
      by_cases same : key = other
      · rw [if_pos same, absent, same]
        simp
      · rw [if_neg same, find?_cons_of_neg (by simpa using Ne.symm same)]
    · rw [if_neg before]
      by_cases here : other = head.1
      · rw [if_pos here]
        by_cases same : key = other
        · rw [if_pos same, same, find?_cons_of_pos (by simp [here])]
          rfl
        · rw [if_neg same]
      · rw [if_neg here, find?_cons, ih later, find?_cons, find?_cons]
        by_cases same : key = other
        · simp [same, Ne.symm here]
        · simp [same]

namespace SortedMap

def get? (map : SortedMap Key Value) (key : Key) : Option Value :=
  (map.entries.find? fun entry => decide (entry.1 = key)).map Prod.snd
def keys (map : SortedMap Key Value) : List Key := map.entries.map Prod.fst
def orInsert (map : SortedMap Key Value) (key : Key) (value : Value) : SortedMap Key Value :=
  ⟨insertEntry key value map.entries, ascending_insertEntry key value map.ascending⟩

def modifyOrInsert (map : SortedMap Key Value)
    (key : Key) (change : Value → Value) (value : Value) : SortedMap Key Value :=
  orInsert ⟨map.entries.map fun entry => (entry.1, if entry.1 = key then change entry.2
    else entry.2), pairwise_map.mpr map.ascending⟩ key value

instance : EmptyCollection (SortedMap Key Value) := ⟨⟨[], .nil⟩⟩

def mapValues (change : Value → Other) (map : SortedMap Key Value) : SortedMap Key Other :=
  ⟨map.entries.map fun entry => (entry.1, change entry.2), pairwise_map.mpr map.ascending⟩

variable {map : SortedMap Key Value} {key other : Key} {value : Value}

theorem get?_eq_some_iff : map.get? key = some value ↔ (key, value) ∈ map.entries := by
  unfold get?
  constructor
  · intro found
    obtain ⟨entry, hit, rfl⟩ := Option.map_eq_some_iff.mp found
    have same := find?_some hit
    rw [decide_eq_true_eq] at same
    rw [← same]
    exact mem_of_find?_eq_some hit
  · intro mem
    cases hit : map.entries.find? fun entry => decide (entry.1 = key) with
    | none => exact absurd (find?_eq_none.mp hit _ mem) (by simp)
    | some entry =>
      have same := find?_some hit
      rw [decide_eq_true_eq] at same
      have nodup : (map.entries.map Prod.fst).Nodup := (pairwise_map.mpr map.ascending).imp fun less => less.ne
      have unique := inj_on_of_nodup_map nodup (mem_of_find?_eq_some hit) mem same
      rw [unique]
      rfl

theorem mem_keys_iff : key ∈ map.keys ↔ ∃ value, map.get? key = some value := by
  unfold keys
  rw [mem_map]
  constructor
  · rintro ⟨entry, mem, rfl⟩
    exact ⟨entry.2, get?_eq_some_iff.mpr mem⟩
  · rintro ⟨value, found⟩
    exact ⟨(key, value), get?_eq_some_iff.mp found, rfl⟩

theorem get?_mapValues (change : Value → Other) :
    (map.mapValues change).get? key = (map.get? key).map change := by
  unfold get? mapValues
  rw [find?_map, Option.map_map, Option.map_map]
  rfl

theorem get?_orInsert : (map.orInsert other value).get? key =
      if key = other then some ((map.get? other).getD value) else map.get? key := by
  unfold get? orInsert
  rw [find?_insertEntry map.ascending]
  by_cases same : key = other
  · subst same
    rw [if_pos rfl, if_pos rfl]
    cases map.entries.find? fun entry => decide (entry.1 = key) with
    | none => rfl
    | some entry => rfl
  · rw [if_neg same, if_neg same]

theorem get?_modifyOrInsert (change : Value → Value) :
    (map.modifyOrInsert other change value).get? key =
      if key = other then some (((map.get? other).map change).getD value) else map.get? key := by
  have changed : ∀ wanted : Key, (map.entries.map fun entry =>
      (entry.1, if entry.1 = other then change entry.2 else entry.2)).find? (fun entry => decide (entry.1 = wanted)) =
      (map.entries.find? fun entry => decide (entry.1 = wanted)).map fun entry =>
        (entry.1, if entry.1 = other then change entry.2 else entry.2) := by
    intro wanted
    rw [find?_map]
    rfl
  unfold modifyOrInsert
  rw [get?_orInsert]
  unfold get?
  rw [changed, changed]
  have named : ∀ {wanted : Key} {entry : Key × Value},
    map.entries.find? (fun entry => decide (entry.1 = wanted)) = some entry → entry.1 = wanted := by
    intro wanted entry found
    have same := find?_some found
    rwa [decide_eq_true_eq] at same
  by_cases same : key = other
  · rw [if_pos same, if_pos same]
    cases found : map.entries.find? fun entry => decide (entry.1 = other) with
    | none => rfl
    | some entry => simp [named found]
  · rw [if_neg same, if_neg same]
    cases found : map.entries.find? fun entry => decide (entry.1 = key) with
    | none => rfl
    | some entry => simp [named found, same]

end SortedMap

end Atlas.Program
