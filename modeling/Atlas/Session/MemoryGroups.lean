import Atlas.Program.Components
import Atlas.Session.Memory

/-! The groups of a consolidation plan are the components of the memories of a topic. -/
namespace Atlas.Session
open List
open Program (PartsInto)

variable {lib : MemoryLibrary}
  {rows : List MemoryRecord} {groups : List MemoryGroup} {row : MemoryRecord}

def Related (lib : MemoryLibrary) (left right : MemoryRecord) : Prop :=
  left.topic = right.topic ∧ (memberKeys lib left).matches (memberKeys lib right) = true

instance : Std.Symm (Related lib) where
  symm := by
    rintro left right ⟨topic, same⟩
    refine ⟨topic.symm, ?_⟩
    simp only [MemberKeys.matches, Bool.or_eq_true, Bool.and_eq_true, beq_iff_eq] at same ⊢
    rcases same with ((⟨some, title⟩ | body) | ⟨some, source⟩) | ⟨some, category⟩
    · exact .inl (.inl (.inl ⟨title ▸ some, title.symm⟩))
    · exact .inl (.inl (.inr body.symm))
    · exact .inl (.inr ⟨source ▸ some, source.symm⟩)
    · exact .inr ⟨category ▸ some, category.symm⟩

structure MemoryGroup.Keyed (lib : MemoryLibrary) (group : MemoryGroup) : Prop where
  keys : group.keys = group.members.map (memberKeys lib)
  topic : ∀ member ∈ group.members, member.topic = group.kept.topic

variable {group : MemoryGroup} {member : MemoryRecord}

theorem MemoryGroup.Keyed.takes_iff (keyed : group.Keyed lib) :
    group.takes (memberKeys lib row) row = true ↔
      ∃ member ∈ group.members, Related lib row member := by
  simp only [MemoryGroup.takes, keyed.keys, Bool.and_eq_true, beq_iff_eq, any_map, any_eq_true]
  constructor
  · rintro ⟨topic, member, inside, same⟩
    exact ⟨member, inside, topic.symm.trans (keyed.topic member inside).symm, same⟩
  · rintro ⟨member, inside, topic, same⟩
    exact ⟨(keyed.topic member inside).symm.trans topic.symm, member, inside, same⟩

/-- The groups that take the row become one, whose members and keys are theirs and the row's. -/
theorem absorbRow_joins (lib : MemoryLibrary) (groups : List MemoryGroup) (row : MemoryRecord) :
    ∃ taken left group, groups.Perm (taken ++ left) ∧ (absorbRow lib groups row).Perm
      (group :: left) ∧ (∀ other ∈ taken, other.takes (memberKeys lib row) row = true) ∧
      (∀ other ∈ left, other.takes (memberKeys lib row) row = false) ∧
      group.members = taken.flatMap MemoryGroup.members ++ [row] ∧
      group.keys = taken.flatMap MemoryGroup.keys ++ [memberKeys lib row] := by
  unfold absorbRow
  simp only [span_eq_takeWhile_dropWhile]
  have whole := takeWhile_append_dropWhile (p := fun group => !group.takes (memberKeys lib row) row) (l := groups)
  have missed : ∀ other ∈ groups.takeWhile fun group => !group.takes (memberKeys lib row) row,
    other.takes (memberKeys lib row) row = false := fun other early => by
    simpa using all_eq_true.mp all_takeWhile other early
  have stopped := head?_dropWhile_not (fun group => !group.takes (memberKeys lib row) row) groups
  generalize groups.takeWhile (fun group => !group.takes (memberKeys lib row) row) = before at *
  cases later : groups.dropWhile fun group => !group.takes (memberKeys lib row) row with
  | nil =>
    rw [later, append_nil] at whole
    subst whole
    exact ⟨[], before, _, .refl _, perm_append_singleton _ _, by simp, missed, rfl, rfl⟩
  | cons first after =>
    rw [later] at whole stopped
    refine ⟨first :: (after.filter fun group => group.takes (memberKeys lib row) row).reverse,
      before ++ after.filter fun group => !group.takes (memberKeys lib row) row, _, ?_, perm_middle,
      ?_, ?_, ?_, ?_⟩
    · rw [← whole, cons_append]
      refine perm_middle.trans (.cons first ?_)
      have parted := filter_append_perm (fun group => group.takes (memberKeys lib row) row) after
      refine (parted.symm.append_left before).trans ?_
      rw [← append_assoc, ← append_assoc]
      exact (perm_append_comm.trans ((reverse_perm _).symm.append_right _)).append_right _
    · intro other listed
      rcases mem_cons.mp listed with rfl | extra
      · simpa using stopped
      · exact (mem_filter.mp (mem_reverse.mp extra)).2
    · intro other listed
      rcases mem_append.mp listed with early | late
      · exact missed other early
      · simpa using (mem_filter.mp late).2
    · simp [MemoryGroup.members]
    · simp
structure Grouped (lib : MemoryLibrary)
    (rows : List MemoryRecord) (groups : List MemoryGroup) : Prop where
  keyed : ∀ group ∈ groups, group.Keyed lib
  parts : PartsInto (Related lib) rows (groups.map MemoryGroup.members)

theorem Grouped.absorbRow (grouped : Grouped lib rows groups) (row : MemoryRecord) :
    Grouped lib (rows ++ [row]) (absorbRow lib groups row) := by
  obtain ⟨taken, left, group, before, after, takes, misses, members, keys⟩ := absorbRow_joins lib groups row
  have keyed : ∀ other ∈ taken ++ left, other.Keyed lib := fun other listed =>
    grouped.keyed other (before.mem_iff.mpr listed)
  have takenKeyed : ∀ other ∈ taken, other.Keyed lib := fun other listed => keyed other (mem_append_left _ listed)
  have leftKeyed : ∀ other ∈ left, other.Keyed lib := fun other listed => keyed other (mem_append_right _ listed)
  have topics : ∀ member ∈ group.members, member.topic = row.topic := by
    intro member inside
    rcases mem_append.mp (members ▸ inside) with old | new
    · obtain ⟨other, isTaken, inOther⟩ := mem_flatMap.mp old
      obtain ⟨near, isNear, topic, _⟩ := (takenKeyed other isTaken).takes_iff.mp (takes other isTaken)
      rw [(takenKeyed other isTaken).topic member inOther, ← (takenKeyed other isTaken).topic near isNear, topic]
    · rw [mem_singleton.mp new]
  constructor
  · intro other listed
    rcases mem_cons.mp (after.mem_iff.mp listed) with rfl | isLeft
    · refine ⟨?_, fun member inside => (topics member inside).trans (topics _ (.head _)).symm⟩
      rw [keys, members, map_append, map_flatMap]
      exact congrArg (· ++ _) (flatMap_congr fun other listed => (takenKeyed other listed).keys)
    · exact leftKeyed other isLeft
  · have parts := grouped.parts.reorder (before.map MemoryGroup.members)
    rw [map_append] at parts
    refine (parts.join ?_ ?_ ?_).reorder (after.map MemoryGroup.members).symm
    · intro listed isTaken
      obtain ⟨other, isOther, rfl⟩ := mem_map.mp isTaken
      exact (takenKeyed other isOther).takes_iff.mp (takes other isOther)
    · intro listed isLeft member inside meets
      obtain ⟨other, isOther, rfl⟩ := mem_map.mp isLeft
      exact Bool.false_ne_true ((misses other isOther).symm.trans
        ((leftKeyed other isOther).takes_iff.mpr ⟨member, inside, meets⟩))
    · rw [members, flatMap_def]

theorem foldl_absorbRow_grouped (lib : MemoryLibrary) (rows : List MemoryRecord) :
    Grouped lib rows (rows.foldl (absorbRow lib) []) := by
  induction rows using reverseRecOn with
  | nil => exact ⟨by simp, .refl _, by simp, .nil⟩
  | append_singleton rows row ih =>
    rw [foldl_append]
    exact ih.absorbRow row

theorem consolidationGroups_parts (lib : MemoryLibrary) (rows : List MemoryRecord) :
    ∃ classes, PartsInto (Related lib) rows classes ∧
      (consolidationGroups lib rows).map MemoryGroup.members = classes.filter (2 ≤ ·.length) := by
  refine ⟨_, (foldl_absorbRow_grouped lib rows).parts, ?_⟩
  rw [filter_map]
  refine congrArg _ (filter_congr fun group _ => ?_)
  cases merged : group.merged <;> simp [MemoryGroup.members, merged]

theorem consolidationGroups_drawn (listed : group ∈ consolidationGroups lib rows)
    (inside : member ∈ group.members) : member ∈ rows := by
  obtain ⟨classes, parts, same⟩ := consolidationGroups_parts lib rows
  have isClass : group.members ∈ classes.filter (2 ≤ ·.length) := same ▸ mem_map_of_mem listed
  exact parts.perm.mem_iff.mp (mem_flatten.mpr ⟨_, (mem_filter.mp isClass).1, inside⟩)

theorem kept_ne_merged (nodup : (rows.map (·.id)).Nodup) {other : MemoryGroup}
    (isGroup : group ∈ consolidationGroups lib rows) (isOther : other ∈ consolidationGroups lib
      rows) (merged : member ∈ other.merged) : group.kept.id ≠ member.id := by
  obtain ⟨classes, parts, same⟩ := consolidationGroups_parts lib rows
  have isClass : ∀ group ∈ consolidationGroups lib rows, group.members ∈ classes := fun group listed =>
    mem_of_mem_filter (same ▸ mem_map_of_mem listed)
  obtain ⟨each, disjoint⟩ := nodup_flatten.mp (parts.perm.nodup_iff.mpr nodup.of_map)
  have inOther : member ∈ other.members := mem_cons_of_mem _ merged
  intro equal
  have sameRow : group.kept = member := inj_on_of_nodup_map nodup
    (consolidationGroups_drawn isGroup (.head _)) (consolidationGroups_drawn isOther inOther) equal
  by_cases sameGroup : group.members = other.members
  · have first : group.kept = other.kept := (cons.inj sameGroup).1
    exact (nodup_cons.mp (each _ (isClass other isOther))).1 (first ▸ sameRow ▸ merged)
  · have : Std.Symm (@List.Disjoint MemoryRecord) := ⟨fun _ _ apart => apart.symm⟩
    exact disjoint.forall (isClass group isGroup) (isClass other isOther) sameGroup (sameRow ▸ mem_cons_self) inOther

theorem exists_group_of_related {left right : MemoryRecord} (isLeft : left ∈ rows)
    (isRight : right ∈ rows) (differ : left ≠ right) (related : Related lib left right) :
    ∃ group ∈ consolidationGroups lib rows, left ∈ group.members ∧ right ∈ group.members := by
  obtain ⟨classes, parts, same⟩ := consolidationGroups_parts lib rows
  obtain ⟨members, isClass, inLeft, inRight⟩ := (parts.linked_iff isLeft).mp (.single ⟨isLeft, isRight, related⟩)
  have long : 2 ≤ members.length := by
    rcases members with - | ⟨first, - | ⟨second, rest⟩⟩
    · cases inLeft
    · exact absurd ((mem_singleton.mp inLeft).trans (mem_singleton.mp inRight).symm) differ
    · simp
  have listed : members ∈ (consolidationGroups lib rows).map MemoryGroup.members :=
    same ▸ mem_filter.mpr ⟨isClass, by simpa using long⟩
  obtain ⟨group, isGroup, rfl⟩ := mem_map.mp listed
  exact ⟨group, isGroup, inLeft, inRight⟩

end Atlas.Session
