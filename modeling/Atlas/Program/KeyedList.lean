import Mathlib.Algebra.Order.Ring.Int
import Mathlib.Data.List.Sort

/-! Lists of rows with a key each, read as finite maps: replacing, keeping the
first row of a key, and equality of sorted lists with the same rows. -/
namespace Atlas.Program
open List

structure HashOrder (Entry : Type) where
  arrange : List Entry → List Entry
  perm : ∀ entries, (arrange entries).Perm entries

def HashOrder.asGiven {Entry : Type} : HashOrder Entry := ⟨id, fun _ => .refl _⟩

section
variable {Row Key : Type} [DecidableEq Key] (key : Row → Key)

def lookup (rows : List Row) (wanted : Key) : Option Row := rows.find? fun row => key row = wanted

def put (row : Row) : List Row → List Row
  | [] => [row]
  | head :: rest => if key head = key row then row :: rest else head :: put row rest

def firsts (seen : List Key) : List Row → List Row
  | [] => []
  | row :: rest => if key row ∈ seen then firsts seen rest else row :: firsts (key row :: seen) rest

variable {key} {rows others : List Row} {row : Row} {wanted : Key}

theorem key_of_lookup (found : lookup key rows wanted = some row) : key row = wanted := by
  have same := find?_some found
  rwa [decide_eq_true_eq] at same

theorem mem_of_lookup (found : lookup key rows wanted = some row) :
    row ∈ rows := mem_of_find?_eq_some found

theorem lookup_cons (row : Row) (rows : List Row) :
    lookup key (row :: rows) wanted = if key row = wanted then some row
      else lookup key rows wanted := by
  unfold lookup
  rw [find?_cons]
  by_cases same : key row = wanted
  · rw [if_pos same, decide_eq_true same]
  · rw [if_neg same, decide_eq_false same]

theorem lookup_isSome_iff : (lookup key rows wanted).isSome = true ↔ wanted ∈ rows.map key := by
  unfold lookup
  rw [find?_isSome, mem_map]
  simp only [decide_eq_true_eq]

theorem lookup_eq_none_iff : lookup key rows wanted = none ↔ wanted ∉ rows.map key := by
  have present : (lookup key rows wanted).isSome = true ↔ wanted ∈ rows.map key := lookup_isSome_iff
  rw [← present, Option.not_isSome_iff_eq_none]

theorem lookup_of_mem (nodup : (rows.map key).Nodup) (mem : row ∈ rows) :
    lookup key rows (key row) = some row := by
  induction rows with
  | nil => cases mem
  | cons head rest ih =>
    rw [map_cons, nodup_cons] at nodup
    rw [lookup_cons]
    rcases mem_cons.mp mem with same | later
    · rw [same, if_pos rfl]
    · rw [if_neg, ih nodup.2 later]
      intro same
      rw [same] at nodup
      exact nodup.1 (mem_map_of_mem later)

theorem mem_iff_lookup (nodup : (rows.map key).Nodup) :
    row ∈ rows ↔ lookup key rows (key row) = some row := ⟨lookup_of_mem nodup, mem_of_lookup⟩

theorem lookup_map {change : Row → Row} (keeps : ∀ row, key (change row) = key row) :
    lookup key (rows.map change) wanted = (lookup key rows wanted).map change := by
  induction rows with
  | nil => rfl
  | cons head rest ih =>
    rw [map_cons, lookup_cons, lookup_cons, keeps, ih]
    split
    all_goals rfl

theorem lookup_put (row : Row) (rows : List Row) :
    lookup key (put key row rows) wanted = if key row = wanted then some row
      else lookup key rows wanted := by
  induction rows with
  | nil => rw [put, lookup_cons]
  | cons head rest ih =>
    unfold put
    by_cases same : key head = key row
    · rw [if_pos same, lookup_cons, lookup_cons, same]
      split
      all_goals rfl
    · rw [if_neg same, lookup_cons, lookup_cons, ih]
      by_cases first : key head = wanted
      · rw [if_pos first, if_pos first, if_neg]
        rw [← first]
        exact fun again => same again.symm
      · rw [if_neg first, if_neg first]

theorem map_key_put (row : Row) (rows : List Row) : (put key row rows).map key =
      if key row ∈ rows.map key then rows.map key else rows.map key ++ [key row] := by
  induction rows with
  | nil => rfl
  | cons head rest ih =>
    unfold put
    by_cases same : key head = key row
    · rw [if_pos same, map_cons, map_cons, same, if_pos mem_cons_self]
    · rw [if_neg same, map_cons, map_cons, ih]
      by_cases inRest : key row ∈ rest.map key
      · rw [if_pos inRest, if_pos (mem_cons_of_mem _ inRest)]
      · rw [if_neg inRest, if_neg, cons_append]
        intro mem
        rcases mem_cons.mp mem with here | later
        · exact same here.symm
        · exact inRest later

theorem nodup_put (nodup : (rows.map key).Nodup) : ((put key row rows).map key).Nodup := by
  rw [map_key_put]
  split
  · exact nodup
  · next fresh =>
      refine nodup_append.mpr ⟨nodup, nodup_singleton _, ?_⟩
      intro old mem new last same
      rw [same, mem_singleton.mp last] at mem
      exact fresh mem

theorem firsts_nodup (seen : List Key) (rows : List Row) :
    ((firsts key seen rows).map key).Nodup ∧ ∀ row ∈ firsts key seen rows, key row ∉ seen := by
  induction rows generalizing seen with
  | nil => exact ⟨nodup_nil, fun row mem => by cases mem⟩
  | cons head rest ih =>
    unfold firsts
    split
    · exact ih seen
    · next fresh =>
        obtain ⟨nodup, apart⟩ := ih (key head :: seen)
        constructor
        · rw [map_cons, nodup_cons]
          refine ⟨fun again => ?_, nodup⟩
          obtain ⟨row, mem, same⟩ := mem_map.mp again
          refine apart row mem ?_
          rw [same]
          exact .head _
        · intro row mem
          rcases mem_cons.mp mem with same | later
          · rw [same]
            exact fresh
          · exact fun old => apart row later (.tail _ old)

theorem firsts_of_nodup {seen : List Key} (nodup : (rows.map key).Nodup)
    (apart : ∀ row ∈ rows, key row ∉ seen) : firsts key seen rows = rows := by
  induction rows generalizing seen with
  | nil => rfl
  | cons head rest ih =>
    rw [map_cons, nodup_cons] at nodup
    rw [firsts, if_neg (apart head mem_cons_self), ih nodup.2]
    intro row mem old
    rcases mem_cons.mp old with same | older
    · rw [← same] at nodup
      exact nodup.1 (mem_map_of_mem mem)
    · exact apart row (.tail _ mem) older

theorem firsts_sublist (seen : List Key) (rows : List Row) :
    (firsts key seen rows).Sublist rows := by
  induction rows generalizing seen with
  | nil => exact .refl _
  | cons head rest ih =>
    unfold firsts
    split
    · exact (ih seen).cons head
    · exact (ih _).cons_cons head

section
variable {View : Type} {view : Row → View} {viewKey : View → Key}

theorem map_put (same : ∀ row, viewKey (view row) = key row) (row : Row) (rows : List Row) :
    (put key row rows).map view = put viewKey (view row) (rows.map view) := by
  induction rows with
  | nil => rfl
  | cons head rest ih =>
    rw [map_cons, put, put, same, same]
    split
    · rfl
    · rw [map_cons, ih]

theorem map_firsts (same : ∀ row, viewKey (view row) = key row) (seen : List Key)
    (rows : List Row) : (firsts key seen rows).map view = firsts viewKey seen (rows.map view) := by
  induction rows generalizing seen with
  | nil => rfl
  | cons head rest ih =>
    rw [map_cons, firsts, firsts, same]
    split
    · exact ih seen
    · rw [map_cons, ih]

end

theorem lookup_perm (same : rows.Perm others) (nodup : (rows.map key).Nodup) :
    lookup key rows wanted = lookup key others wanted := by
  have distinct' : (others.map key).Nodup := (same.map key).nodup_iff.mp nodup
  cases found : lookup key others wanted with
  | none =>
    rw [lookup_eq_none_iff] at found ⊢
    exact fun mem => found ((same.map key).mem_iff.mp mem)
  | some row =>
    have named := key_of_lookup found
    rw [← named]
    exact lookup_of_mem nodup (same.mem_iff.mpr (mem_of_lookup found))

theorem eq_of_lookup {before : Row → Row → Prop}
    (antisymm : ∀ left right, before left right → before right left → key left = key right)
    (sorted : rows.Pairwise before) (sorted' : others.Pairwise before)
    (nodup : (rows.map key).Nodup) (distinct' : (others.map key).Nodup)
    (same : ∀ wanted, lookup key rows wanted = lookup key others wanted) : rows = others := by
  have members : ∀ row, row ∈ rows ↔ row ∈ others := by
    intro row
    rw [mem_iff_lookup nodup, mem_iff_lookup distinct', same]
  have perm : rows.Perm others := (perm_ext_iff_of_nodup nodup.of_map distinct'.of_map).mpr members
  refine perm.eq_of_pairwise ?_ sorted sorted'
  intro left right inRows inOthers forth back
  have named := antisymm left right forth back
  have left' := lookup_of_mem distinct' ((members left).mp inRows)
  rw [named, lookup_of_mem distinct' inOthers] at left'
  cases left'
  rfl

end

/-! Sorting is stable: leaving rows out before or after a sort is the same. -/

section
variable {Row : Type} {before : Row → Row → Prop} [DecidableRel before]

theorem orderedInsert_of_forall {row : Row} {rows : List Row}
    (first : ∀ other ∈ rows, before row other) : rows.orderedInsert before row = row :: rows := by
  cases rows with
  | nil => rfl
  | cons head rest => exact orderedInsert_cons_of_le before rest (first head (.head _))

variable [IsTrans Row before]

theorem filter_orderedInsert (keep : Row → Bool) (row : Row) {rows : List Row}
    (sorted : rows.Pairwise before) : (rows.orderedInsert before row).filter keep =
      if keep row then (rows.filter keep).orderedInsert before row else rows.filter keep := by
  induction rows with
  | nil => cases kept : keep row <;> simp [kept]
  | cons head rest ih =>
    have later := ih (pairwise_cons.mp sorted).2
    by_cases comes : before row head
    · rw [orderedInsert_cons_of_le before rest comes]
      by_cases kept : keep row = true
      · rw [filter_cons_of_pos kept, if_pos kept]
        refine (orderedInsert_of_forall fun other mem => ?_).symm
        rcases mem_cons.mp (mem_of_mem_filter mem) with rfl | inRest
        · exact comes
        · exact IsTrans.trans _ _ _ comes ((pairwise_cons.mp sorted).1 other inRest)
      · rw [filter_cons_of_neg kept, if_neg kept]
    · have follows : (head :: rest).orderedInsert before row = head :: rest.orderedInsert before row := if_neg comes
      rw [follows]
      by_cases headKept : keep head = true
      · rw [filter_cons_of_pos headKept, filter_cons_of_pos headKept, later]
        split
        · exact (if_neg comes).symm
        · rfl
      · rw [filter_cons_of_neg headKept, filter_cons_of_neg headKept, later]

variable [Std.Total before]

theorem filter_insertionSort (keep : Row → Bool) (rows : List Row) :
    (rows.insertionSort before).filter keep = (rows.filter keep).insertionSort before := by
  induction rows with
  | nil => rfl
  | cons row rest ih =>
    rw [insertionSort_cons, filter_orderedInsert keep row (pairwise_insertionSort before rest), ih]
    by_cases kept : keep row = true
    · rw [if_pos kept, filter_cons_of_pos kept, insertionSort_cons]
    · rw [if_neg kept, filter_cons_of_neg kept]

end
end Atlas.Program
