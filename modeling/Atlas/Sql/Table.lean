import Mathlib.Data.List.Dedup

/-! Tables as row lists, with the SQLite statements that change them. A table
constraint is a key function: two rows conflict when their keys are equal. Row
ids are assigned as for an `INTEGER PRIMARY KEY` without `AUTOINCREMENT`. -/
namespace Atlas.Sql
open List

variable {Row Key Shape : Type} [DecidableEq Key]

def deleteWhere (selects : Row → Bool) (rows : List Row) : List Row :=
  rows.filter fun row => !selects row
def updateWhere (selects : Row → Bool) (assign : Row → Row) (rows : List Row) : List Row :=
  rows.map fun row => if selects row then assign row else row
def hasKey (key : Row → Key) (wanted : Key) (rows : List Row) : Bool :=
  rows.any fun row => decide (key row = wanted)

/-- `INSERT OR REPLACE`: every conflicting row is silently removed. -/
def insertOrReplace (key : Row → Key) (row : Row) (rows : List Row) : List Row :=
  deleteWhere (fun other => decide (key other = key row)) rows ++ [row]

def insertOrIgnore (key : Row → Key) (row : Row) (rows : List Row) : List Row :=
  if hasKey key (key row) rows then rows else rows ++ [row]

def insertOrUpdate (key : Row → Key) (assign : Row → Row) (row : Row) (rows : List Row) :
    List Row :=
  if hasKey key (key row) rows then
    updateWhere (fun other => decide (key other = key row)) assign rows
  else rows ++ [row]

def nextRowid (rowid : Row → Nat) (rows : List Row) : Nat :=
  rows.foldr (fun row highest => max (rowid row) highest) 0 + 1

variable {selects : Row → Bool} {rows : List Row} {row : Row}

@[simp] theorem mem_deleteWhere :
    row ∈ deleteWhere selects rows ↔ row ∈ rows ∧ selects row = false := by simp [deleteWhere]

variable {wanted : Key} {assign : Row → Row} {items : List Row}

theorem hasKey_iff {key : Row → Key} :
    hasKey key wanted rows = true ↔ ∃ row ∈ rows, key row = wanted := by simp [hasKey]
theorem hasKey_eq_false_iff {key : Row → Key} :
    hasKey key wanted rows = false ↔ ∀ row ∈ rows, key row ≠ wanted := by simp [hasKey]

theorem insertOrReplace_fresh {key : Row → Key} (fresh : ∀ other ∈ rows, key other ≠ key row) :
    insertOrReplace key row rows = rows ++ [row] := by
  have kept : deleteWhere (fun other => decide (key other = key row)) rows = rows := by
    refine filter_eq_self.mpr fun other mem => ?_
    simpa using fresh other mem
  rw [insertOrReplace, kept]

theorem mem_insertOrReplace {key : Row → Key} {other : Row} :
    other ∈ insertOrReplace key row rows ↔ (other ∈ rows ∧ key other ≠ key row) ∨ other = row := by
  simp [insertOrReplace]

theorem find?_insertOrReplace {key : Row → Key} (row : Row) (rows : List Row) (wanted : Key) :
    (insertOrReplace key row rows).find? (fun other => decide (key other = wanted)) =
      if key row = wanted then some row
      else rows.find? fun other => decide (key other = wanted) := by
  unfold insertOrReplace deleteWhere
  rw [find?_append]
  by_cases same : key row = wanted
  · have gone : (rows.filter fun other => !decide (key other = key row)).find?
      (fun other => decide (key other = wanted)) = none := by
      rw [find?_eq_none]
      intro other mem found
      have differs := (mem_filter.mp mem).2
      simp_all
    rw [gone]
    simp [same]
  · have kept : (rows.filter fun other => !decide (key other = key row)).find? (fun other =>
      decide (key other = wanted)) = rows.find? fun other => decide (key other = wanted) := by
      rw [find?_filter]
      congr 1
      funext other
      by_cases found : key other = wanted
      · simp [found, Ne.symm same]
      · simp [found]
    rw [kept]
    simp [same]

theorem map_updateWhere {selects : Row → Bool} {assign : Row → Row}
    {column : Row → Shape} (keeps : ∀ row, column (assign row) = column row) (rows : List Row) :
    (updateWhere selects assign rows).map column = rows.map column := by
  unfold updateWhere
  rw [map_map]
  refine map_congr_left fun row _ => ?_
  simp only [Function.comp_apply]
  split
  · exact keeps row
  · rfl

theorem find?_updateWhere {wanted : Row → Bool}
    (keeps : ∀ row, wanted (assign row) = wanted row) (rows : List Row) :
    (updateWhere selects assign rows).find? wanted = (rows.find? wanted).map fun row =>
      if selects row then assign row else row := by
  unfold updateWhere
  rw [find?_map]
  congr 1
  congr 1
  funext row
  simp only [Function.comp_apply]
  split
  · exact keeps row
  · rfl

theorem find?_insertOrUpdate {key : Row → Key}
    {assign : Row → Row} (keeps : ∀ row, key (assign row) = key row) (row : Row) (rows : List Row) :
    (insertOrUpdate key assign row rows).find? (fun other => decide (key other = key row)) =
      some (((rows.find? fun other => decide (key other = key row)).map assign).getD row) := by
  unfold insertOrUpdate
  cases found : rows.find? fun other => decide (key other = key row) with
  | none =>
    have absent : hasKey key (key row) rows = false := by
      rw [hasKey_eq_false_iff]
      intro other mem same
      exact absurd (find?_eq_none.mp found other mem) (by simp [same])
    rw [if_neg (by simp [absent]), find?_append, found]
    simp
  | some other =>
    have same : key other = key row := by simpa using find?_some found
    have present : hasKey key (key row) rows = true := hasKey_iff.mpr ⟨other, mem_of_find?_eq_some found, same⟩
    rw [if_pos present, find?_updateWhere (fun other => by rw [keeps]), found]
    simp [same]

/-! ### Rows that a statement does not select -/

theorem filter_deleteWhere {keeps : Row → Bool}
    (apart : ∀ row, keeps row = true → selects row = false) (rows : List Row) :
    (deleteWhere selects rows).filter keeps = rows.filter keeps := by
  unfold deleteWhere
  rw [filter_filter]
  refine filter_congr fun row _ => ?_
  cases kept : keeps row with
  | false => rfl
  | true => simp [apart row kept]

theorem filter_updateWhere {keeps : Row → Bool}
    (apart : ∀ row, selects row = true → keeps row = false ∧ keeps (assign row) = false)
    (rows : List Row) : (updateWhere selects assign rows).filter keeps = rows.filter keeps := by
  unfold updateWhere
  induction rows with
  | nil => rfl
  | cons row rest ih =>
    rw [map_cons, filter_cons, filter_cons, ih]
    cases selected : selects row with
    | false => simp
    | true => simp [apart row selected]

theorem filter_insertOrReplace {key : Row → Key} {keeps : Row → Bool}
    (apart : ∀ other, key other = key row → keeps other = false) (rows : List Row) :
    (insertOrReplace key row rows).filter keeps = rows.filter keeps := by
  unfold insertOrReplace
  rw [filter_append, filter_deleteWhere]
  · simp [apart row rfl]
  · intro other kept
    by_contra same
    have sameKey : key other = key row := by simpa using same
    rw [apart other sameKey] at kept
    cases kept

theorem filter_insertOrUpdate {key : Row → Key} {assign : Row → Row}
    {keeps : Row → Bool} {row : Row} (sameKey : ∀ other, key (assign other) = key other)
    (apart : ∀ other, key other = key row → keeps other = false) (rows : List Row) :
    (insertOrUpdate key assign row rows).filter keeps = rows.filter keeps := by
  unfold insertOrUpdate
  split
  · refine filter_updateWhere ?_ rows
    intro other selected
    have same : key other = key row := by simpa using selected
    exact ⟨apart other same, apart _ ((sameKey other).trans same)⟩
  · rw [filter_append]
    simp [apart row rfl]

theorem filter_insertOrUpdate_fresh {key : Row → Key} {assign : Row → Row} {row : Row}
    (keeps : Row → Bool) {rows : List Row} (fresh : ∀ other ∈ rows, key other ≠ key row) :
    (insertOrUpdate key assign row rows).filter keeps = rows.filter keeps ++ [row].filter keeps := by
  unfold insertOrUpdate
  rw [if_neg, filter_append]
  rw [hasKey_eq_false_iff.mpr fresh]
  exact Bool.false_ne_true

theorem filter_insertOrUpdate_taken {key : Row → Key} {assign : Row → Row} {row : Row}
    {keeps : Row → Bool} (blind : ∀ other, keeps (assign other) = keeps other) {rows : List Row}
    (taken : ∃ other ∈ rows, key other = key row) :
    (insertOrUpdate key assign row rows).filter keeps =
      updateWhere (fun other => decide (key other = key row)) assign (rows.filter keeps) := by
  unfold insertOrUpdate
  rw [if_pos (hasKey_iff.mpr taken)]
  unfold updateWhere
  rw [filter_map]
  congr 1
  apply filter_congr
  intro other _
  rw [Function.comp_apply]
  split
  · exact blind other
  · rfl

theorem keys_nodup_insertOrReplace {key : Row → Key} (row : Row) (unique : (rows.map key).Nodup) :
    ((insertOrReplace key row rows).map key).Nodup := by
  rw [insertOrReplace, map_append]
  refine List.Nodup.append ?_ (nodup_singleton _) ?_
  · exact List.Nodup.sublist (List.Sublist.map _ filter_sublist) unique
  · intro used kept new
    obtain ⟨other, mem, rfl⟩ := mem_map.mp kept
    have differs := (mem_deleteWhere.mp mem).2
    simp only [map_cons, map_nil, mem_singleton] at new
    simp [new] at differs

theorem rowid_lt_nextRowid (rowid : Row → Nat) (mem : row ∈ rows) :
    rowid row < nextRowid rowid rows := by
  have bounded : rowid row ≤ rows.foldr (fun row highest => max (rowid row) highest) 0 := by
    induction rows with
    | nil => cases mem
    | cons head tail ih =>
      simp only [foldr_cons]
      rcases mem_cons.mp mem with rfl | inTail
      · exact Nat.le_max_left _ _
      · exact Nat.le_trans (ih inTail) (Nat.le_max_right _ _)
  exact Nat.lt_succ_of_le bounded

theorem filter_key_eq_of_mem {key : Row → Key} (unique : (rows.map key).Nodup) (mem : row ∈ rows) :
    (rows.filter fun other => decide (key other = key row)) = [row] := by
  induction rows with
  | nil => cases mem
  | cons head tail ih =>
    obtain ⟨notLater, tailUnique⟩ := nodup_cons.mp unique
    rcases mem_cons.mp mem with rfl | inTail
    · rw [filter_cons_of_pos (by simp), filter_eq_nil_iff.mpr]
      intro other otherMem same
      exact notLater (of_decide_eq_true same ▸ mem_map_of_mem otherMem)
    · have differs : key head ≠ key row := by
        intro same
        exact notLater (same ▸ mem_map_of_mem inTail)
      rw [filter_cons_of_neg (by simpa using differs), ih tailUnique inTail]

theorem length_join {Item : Type}
    {key : Row → Key} (unique : (rows.map key).Nodup) (wanted : Item → Key) (items : List Item) :
    (items.flatMap fun item => rows.filter fun row => decide (key row = wanted item)).length ≤ items.length ∧
      ((items.flatMap fun item => rows.filter fun row => decide (key row = wanted item)).length =
        items.length ↔ ∀ item ∈ items, ∃ row ∈ rows, key row = wanted item) := by
  induction items with
  | nil => simp
  | cons item rest ih =>
    obtain ⟨bounded, exactly⟩ := ih
    simp only [flatMap_cons, length_append, length_cons, forall_mem_cons]
    by_cases found : ∃ row ∈ rows, key row = wanted item
    · obtain ⟨row, mem, same⟩ := found
      have one : (rows.filter fun other => decide (key other = wanted item)).length = 1 := by
        rw [← same, filter_key_eq_of_mem unique mem]
        rfl
      rw [one]
      refine ⟨by omega, ?_⟩
      rw [← exactly]
      exact ⟨fun total => ⟨⟨row, mem, same⟩, by omega⟩, fun parts => by omega⟩
    · have none : (rows.filter fun other => decide (key other = wanted item)) = [] := filter_eq_nil_iff.mpr fun row mem same =>
          found ⟨row, mem, of_decide_eq_true same⟩
      rw [none, length_nil]
      refine ⟨by omega, ?_⟩
      exact ⟨fun total => by omega, fun parts => absurd parts.1 found⟩

/-! ## Loops of inserts that ignore conflicts -/

def insertAllOrIgnore (key : Row → Key) (items rows : List Row) : List Row :=
  items.foldl (fun current row => insertOrIgnore key row current) rows

section
variable {key : Row → Key}

@[simp] theorem insertAllOrIgnore_nil (rows : List Row) :
    insertAllOrIgnore key [] rows = rows := rfl

theorem insertAllOrIgnore_cons (item : Row) (rest rows : List Row) :
    insertAllOrIgnore key (item :: rest) rows =
      insertAllOrIgnore key rest (insertOrIgnore key item rows) := rfl
theorem insertAllOrIgnore_append (first second rows : List Row) :
    insertAllOrIgnore key (first ++ second) rows =
      insertAllOrIgnore key second (insertAllOrIgnore key first rows) := foldl_append

theorem exists_insertAllOrIgnore_eq (key : Row → Key) (items rows : List Row) :
    ∃ added, insertAllOrIgnore key items rows = rows ++ added ∧ added.Sublist items ∧
      (added.map key).Nodup ∧ ∀ item ∈ added, ∀ row ∈ rows, key row ≠ key item := by
  induction items generalizing rows with
  | nil => exact ⟨[], by simp, .refl _, nodup_nil, by simp⟩
  | cons item rest ih =>
    rw [insertAllOrIgnore_cons, insertOrIgnore]
    split
    · obtain ⟨added, loop, kept, nodup, fresh⟩ := ih rows
      exact ⟨added, loop, kept.cons item, nodup, fresh⟩
    · next absent =>
        obtain ⟨added, loop, kept, nodup, fresh⟩ := ih (rows ++ [item])
        refine ⟨item :: added, by rw [loop, append_assoc]; rfl, kept.cons_cons item, ?_, ?_⟩
        · refine nodup_cons.mpr ⟨?_, nodup⟩
          intro repeated
          obtain ⟨other, mem, same⟩ := mem_map.mp repeated
          exact fresh other mem item (by simp) same.symm
        · intro other mem row rowMem
          rcases mem_cons.mp mem with rfl | later
          · exact fun same => absent (hasKey_iff.mpr ⟨row, rowMem, same⟩)
          · exact fresh other later row (mem_append_left _ rowMem)

variable {rows : List Row} {items : List Row}

theorem mem_insertAllOrIgnore {row : Row} (mem : row ∈ insertAllOrIgnore key items rows) :
    row ∈ rows ∨ row ∈ items := by
  obtain ⟨added, loop, kept, _⟩ := exists_insertAllOrIgnore_eq key items rows
  rw [loop] at mem
  exact (mem_append.mp mem).imp_right fun new => kept.subset new

theorem mem_insertAllOrIgnore_of_mem {row : Row} (mem : row ∈ rows) :
    row ∈ insertAllOrIgnore key items rows := by
  obtain ⟨added, loop, _⟩ := exists_insertAllOrIgnore_eq key items rows
  rw [loop]
  exact mem_append_left _ mem

theorem key_mem_insertAllOrIgnore {items rows : List Row} {item : Row} (mem : item ∈ items) :
    ∃ row ∈ insertAllOrIgnore key items rows, key row = key item := by
  induction items generalizing rows with
  | nil => cases mem
  | cons head rest ih =>
    rw [insertAllOrIgnore_cons]
    rcases mem_cons.mp mem with rfl | later
    · have taken : ∃ row ∈ insertOrIgnore key item rows, key row = key item := by
        unfold insertOrIgnore
        split
        · next present => exact hasKey_iff.mp present
        · exact ⟨item, by simp, rfl⟩
      obtain ⟨row, rowMem, same⟩ := taken
      exact ⟨row, mem_insertAllOrIgnore_of_mem rowMem, same⟩
    · exact ih later

theorem keys_nodup_insertOrIgnore (row : Row) (unique : (rows.map key).Nodup) :
    ((insertOrIgnore key row rows).map key).Nodup := by
  unfold insertOrIgnore
  split
  · exact unique
  · next absent =>
      rw [map_append]
      refine List.Nodup.append unique (nodup_singleton _) ?_
      intro used old new
      obtain ⟨other, mem, rfl⟩ := mem_map.mp old
      exact absent (hasKey_iff.mpr ⟨other, mem, by simpa using new⟩)

theorem insertAllOrIgnore_fresh (nodup : (items.map key).Nodup)
    (fresh : ∀ item ∈ items, ∀ row ∈ rows, key row ≠ key item) :
    insertAllOrIgnore key items rows = rows ++ items := by
  induction items generalizing rows with
  | nil => simp
  | cons item rest ih =>
    obtain ⟨notLater, restDistinct⟩ := nodup_cons.mp nodup
    have absent : hasKey key (key item) rows = false := hasKey_eq_false_iff.mpr (fresh item (.head _))
    have appended : insertOrIgnore key item rows = rows ++ [item] := by simp [insertOrIgnore, absent]
    rw [insertAllOrIgnore_cons, appended, ih restDistinct]
    · simp
    · intro later mem row rowMem same
      rcases mem_append.mp rowMem with old | new
      · exact fresh later (.tail _ mem) row old same
      · rw [mem_singleton.mp new] at same
        exact notLater (same ▸ mem_map_of_mem mem)

end

/-! ## Loops of replacing inserts -/

def insertAllOrReplace (key : Row → Key) (items rows : List Row) : List Row :=
  items.foldl (fun current row => insertOrReplace key row current) rows

theorem mem_insertAllOrReplace {key : Row → Key} (mem : row ∈ insertAllOrReplace key items rows) :
    row ∈ rows ∨ row ∈ items := by
  induction items generalizing rows with
  | nil => exact .inl mem
  | cons item rest ih =>
    rcases ih mem with before | later
    · rcases mem_insertOrReplace.mp before with ⟨old, _⟩ | rfl
      · exact .inl old
      · exact .inr mem_cons_self
    · exact .inr (.tail _ later)

theorem insertAllOrReplace_fresh {key : Row → Key}
    (nodup : (items.map key).Nodup) (fresh : ∀ item ∈ items, ∀ row ∈ rows, key row ≠ key item) :
    insertAllOrReplace key items rows = rows ++ items := by
  induction items generalizing rows with
  | nil => simp [insertAllOrReplace]
  | cons item rest ih =>
    obtain ⟨notLater, restDistinct⟩ := nodup_cons.mp nodup
    have appended : insertOrReplace key item rows = rows ++ [item] := insertOrReplace_fresh (fresh item (.head _))
    rw [insertAllOrReplace, foldl_cons, appended]
    refine (ih restDistinct ?_).trans (by simp)
    intro later mem row rowMem same
    rcases mem_append.mp rowMem with old | new
    · exact fresh later (.tail _ mem) row old same
    · rw [mem_singleton.mp new] at same
      exact notLater (same ▸ mem_map_of_mem mem)

/-! ## Loops of inserts that merge conflicts

Each item either becomes a new row or is combined into the row that has its key. -/

section
variable {Item : Type} {key : Row → Key} {fresh : Item → Row} {combine : Item → Row → Row}

def mergeAll (key : Row → Key) (fresh : Item → Row)
    (combine : Item → Row → Row) (items : List Item) (rows : List Row) : List Row :=
  items.foldl (fun current item => insertOrUpdate key (combine item) (fresh item) current) rows

theorem mergeAll_cons (item : Item) (rest : List Item) (rows : List Row) :
    mergeAll key fresh combine (item :: rest) rows =
      mergeAll key fresh combine rest (insertOrUpdate key (combine item) (fresh item) rows) := rfl

variable {Good : Row → Prop}

theorem insertOrUpdate_all {assign : Row → Row} {row : Row} {rows : List Row} (new : Good row)
    (old : ∀ other ∈ rows, Good other) (assigned : ∀ other, Good other → Good (assign other)) :
    ∀ other ∈ insertOrUpdate key assign row rows, Good other := by
  intro other mem
  unfold insertOrUpdate at mem
  split at mem
  · obtain ⟨before, beforeMember, rfl⟩ := mem_map.mp mem
    split
    · exact assigned before (old before beforeMember)
    · exact old before beforeMember
  · rcases mem_append.mp mem with before | here
    · exact old other before
    · cases mem_singleton.mp here
      exact new

theorem mergeAll_all {items : List Item}
    {rows : List Row} (old : ∀ row ∈ rows, Good row) (new : ∀ item ∈ items, Good (fresh item))
    (combined : ∀ item ∈ items, ∀ row, Good row → Good (combine item row)) :
    ∀ row ∈ mergeAll key fresh combine items rows, Good row := by
  induction items generalizing rows with
  | nil => exact old
  | cons item rest ih =>
    rw [mergeAll_cons]
    apply ih
    · exact insertOrUpdate_all (new item (.head _)) old (combined item (.head _))
    · exact fun later mem => new later (.tail _ mem)
    · exact fun later mem => combined later (.tail _ mem)

theorem map_key_insertOrUpdate {assign : Row → Row} {row : Row}
    (keeps : ∀ other, key other = key row → key (assign other) = key other) (rows : List Row) :
    (insertOrUpdate key assign row rows).map key =
      if key row ∈ rows.map key then rows.map key else rows.map key ++ [key row] := by
  have present : hasKey key (key row) rows = true ↔ key row ∈ rows.map key := by rw [hasKey_iff, mem_map]
  unfold insertOrUpdate
  by_cases taken : key row ∈ rows.map key
  · rw [if_pos (present.mpr taken), if_pos taken, updateWhere, map_map]
    apply map_congr_left
    intro other _
    simp only [Function.comp_apply]
    split
    · next same => exact keeps other (of_decide_eq_true same)
    · rfl
  · rw [if_neg (fun has => taken (present.mp has)), if_neg taken, map_append]
    rfl

section
variable (keeps : ∀ item row, key row = key (fresh item) → key (combine item row) = key row)

include keeps

theorem keys_nodup_mergeAll (items : List Item) {rows : List Row} (unique : (rows.map key).Nodup) :
    ((mergeAll key fresh combine items rows).map key).Nodup := by
  induction items generalizing rows with
  | nil => exact unique
  | cons item rest ih =>
    rw [mergeAll_cons]
    apply ih
    rw [map_key_insertOrUpdate (keeps item)]
    split
    · exact unique
    · next absent => exact nodup_append_comm.mp (nodup_cons.mpr ⟨absent, unique⟩)

theorem mem_keys_mergeAll {items : List Item} {rows : List Row} {wanted : Key} :
    wanted ∈ (mergeAll key fresh combine items rows).map key ↔
      wanted ∈ rows.map key ∨ ∃ item ∈ items, key (fresh item) = wanted := by
  induction items generalizing rows with
  | nil => simp [mergeAll]
  | cons item rest ih =>
    rw [mergeAll_cons, ih, map_key_insertOrUpdate (keeps item)]
    split
    · next present =>
        constructor
        · rintro (old | ⟨later, mem, same⟩)
          · exact .inl old
          · exact .inr ⟨later, .tail _ mem, same⟩
        · rintro (old | ⟨later, mem, same⟩)
          · exact .inl old
          · rcases mem_cons.mp mem with rfl | inRest
            · exact .inl (same ▸ present)
            · exact .inr ⟨later, inRest, same⟩
    · simp only [mem_append, mem_singleton, exists_mem_cons_iff, or_assoc, eq_comm]

end
end

end Atlas.Sql
