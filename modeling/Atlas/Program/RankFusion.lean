import Atlas.Program.KeyedList
import Atlas.Sql.Table
import Mathlib.Algebra.Order.WithTop.Untop0
import Mathlib.Tactic.Positivity

/-! Each key is scored by the sum of its reciprocal ranks, gathered in a hash map and sorted.
What the sort is told about equal scores decides whether the order of the map shows. -/
namespace Atlas.Program
open List Sql

section
variable {Key : Type} [DecidableEq Key]

def place (ranked : List Key) (wanted : Key) : WithTop Nat :=
  if wanted ∈ ranked then WithTop.some (ranked.idxOf wanted) else ⊤

private theorem place_nil (wanted : Key) : place [] wanted = ⊤ := rfl

private theorem place_cons (head : Key) (rest : List Key) (wanted : Key) :
    place (head :: rest) wanted = if head = wanted then 0 else place rest wanted + 1 := by
  unfold place
  by_cases same : head = wanted
  · subst same
    simp
  · have other : wanted ∈ head :: rest ↔ wanted ∈ rest := by
      rw [mem_cons, or_iff_right (Ne.symm same)]
    rw [if_neg same, idxOf_cons_ne rest same]
    by_cases mem : wanted ∈ rest
    · rw [if_pos mem, if_pos (other.mpr mem)]
      rfl
    · rw [if_neg mem, if_neg (fun inside => mem (other.mp inside))]
      rfl

private theorem place_eq_top_iff {ranked : List Key} {wanted : Key} :
    place ranked wanted = ⊤ ↔ wanted ∉ ranked := by
  unfold place
  split <;> simp_all

def reciprocal (k : Nat) : WithTop Nat → ℚ
  | ⊤ => 0
  | (rank : Nat) => 1 / ((k : ℚ) + rank + 1)

theorem reciprocal_top (k : Nat) : reciprocal k ⊤ = 0 := rfl
theorem reciprocal_coe (k rank : Nat) :
    reciprocal k (WithTop.some rank) = 1 / ((k : ℚ) + rank + 1) := rfl

private theorem reciprocal_strictAnti (k : Nat) : StrictAnti (reciprocal k) := by
  intro better worse ahead
  cases better with
  | top => exact absurd ahead not_top_lt
  | coe better =>
    cases worse with
    | top =>
      rw [reciprocal_top, reciprocal_coe]
      positivity
    | coe worse =>
      rw [reciprocal_coe, reciprocal_coe]
      have ranks : (better : ℚ) < worse := Nat.cast_lt.mpr (WithTop.coe_lt_coe.mp ahead)
      apply one_div_lt_one_div_of_lt
      · positivity
      · exact add_lt_add_left (add_lt_add_right ranks _) _

def fusedScore (k : Nat) (first second : List Key) (wanted : Key) : ℚ :=
  reciprocal k (place first wanted) + reciprocal k (place second wanted)

/-- No worse in both lists, and better in one. -/
structure Outranks (first second : List Key) (better worse : Key) : Prop where
  inFirst : place first better ≤ place first worse
  inSecond : place second better ≤ place second worse
  strict : place first better < place first worse ∨ place second better < place second worse

variable {first second : List Key}

theorem Outranks.fusedScore_lt {better worse : Key}
    (k : Nat) (outranks : Outranks first second better worse) :
    fusedScore k first second worse < fusedScore k first second better := by
  have anti := reciprocal_strictAnti k
  rcases outranks.strict with ahead | ahead
  · exact add_lt_add_of_lt_of_le (anti ahead) (anti.antitone outranks.inSecond)
  · exact add_lt_add_of_le_of_lt (anti.antitone outranks.inFirst) (anti ahead)

theorem fusedScore_swapped {left right : Key}
    (k : Nat) (forward : place first left = place second right)
    (back : place second left = place first right) :
    fusedScore k first second left = fusedScore k first second right := by
  unfold fusedScore
  rw [forward, back, add_comm]

def Untied (k : Nat) (first second : List Key) : Prop :=
  ∀ left ∈ first ++ second, ∀ right ∈ first ++ second, left ≠ right →
    fusedScore k first second left ≠ fusedScore k first second right

end

section
variable {Item Row Key : Type} [DecidableEq Key]

structure Accumulates (k : Nat) (name : Item → Key) (key : Row → Key)
    (score : Row → ℚ) (fresh : Item × Nat → Row) (combine : Item × Nat → Row → Row) : Prop where
  freshKey : ∀ entry, key (fresh entry) = name entry.1
  freshScore : ∀ entry, score (fresh entry) = reciprocal k (WithTop.some entry.2)
  combineKey : ∀ entry row, key (combine entry row) = key row
  combineScore : ∀ entry row, score (combine entry row) = score row + reciprocal k (WithTop.some entry.2)

def scoreOf (key : Row → Key) (score : Row → ℚ) (rows : List Row) (wanted : Key) : ℚ :=
  ((lookup key rows wanted).map score).getD 0

variable {k : Nat} {name : Item → Key} {key : Row → Key} {score : Row → ℚ}
  {fresh : Item × Nat → Row} {combine : Item × Nat → Row → Row} {row : Row}

private theorem lookup_insertOrUpdate_ne {assign : Row → Row} {wanted : Key}
    (other : key row ≠ wanted) (keeps : ∀ row, key (assign row) = key row) (rows : List Row) :
    lookup key (insertOrUpdate key assign row rows) wanted = lookup key rows wanted := by
  unfold lookup
  rw [← head?_filter, ← head?_filter, filter_insertOrUpdate keeps]
  intro clash same
  exact decide_eq_false (same ▸ other)

theorem Accumulates.scoreOf_step (accumulates : Accumulates k name key score fresh combine)
    (entry : Item × Nat) (rows : List Row) (wanted : Key) :
    scoreOf key score (insertOrUpdate key (combine entry) (fresh entry) rows) wanted = scoreOf key score rows wanted +
        if name entry.1 = wanted then reciprocal k (WithTop.some entry.2) else 0 := by
  unfold scoreOf
  by_cases same : name entry.1 = wanted
  · subst same
    rw [if_pos rfl, ← accumulates.freshKey entry]
    have found := find?_insertOrUpdate (accumulates.combineKey entry) (fresh entry) rows
    change lookup key _ _ = some (((lookup key rows (key (fresh entry))).map _).getD _) at found
    rw [found]
    cases lookup key rows (key (fresh entry)) with
    | none => simp [accumulates.freshScore]
    | some row => simp [accumulates.combineScore]
  · rw [if_neg same, add_zero, lookup_insertOrUpdate_ne (by rwa [accumulates.freshKey])
      (accumulates.combineKey entry)]

theorem Accumulates.scoreOf_run (accumulates : Accumulates k name key score fresh combine)
    {ranked : List Item} (nodup : (ranked.map name).Nodup) (start : Nat) (rows : List Row)
    (wanted : Key) :
    scoreOf key score (mergeAll key fresh combine (ranked.zipIdx start) rows) wanted = scoreOf key
      score rows wanted + reciprocal k (place (ranked.map name) wanted + WithTop.some start) := by
  induction ranked generalizing start rows with
  | nil =>
    rw [map_nil, place_nil, top_add, reciprocal_top, add_zero]
    rfl
  | cons item rest ih =>
    rw [map_cons, nodup_cons] at nodup
    rw [zipIdx_cons, mergeAll_cons, ih nodup.2, accumulates.scoreOf_step, map_cons, place_cons]
    by_cases same : name item = wanted
    · have later : place (rest.map name) wanted = ⊤ := place_eq_top_iff.mpr (same ▸ nodup.1)
      rw [if_pos same, if_pos same, later, top_add, reciprocal_top, add_zero, zero_add]
    · rw [if_neg same, if_neg same, add_zero, add_assoc, add_comm 1]
      rfl

private theorem scoreOf_row {rows : List Row} (nodup : (rows.map key).Nodup) (mem : row ∈ rows) :
    scoreOf key score rows (key row) = score row := by
  unfold scoreOf
  rw [lookup_of_mem nodup mem]
  rfl

theorem Accumulates.fused (accumulates : Accumulates k name key score fresh combine)
    {first second : List Item} (firstDistinct : (first.map name).Nodup)
    (secondDistinct : (second.map name).Nodup) :
    let rows := mergeAll key fresh combine second.zipIdx
      (mergeAll key fresh combine first.zipIdx [])
    (rows.map key).Nodup ∧
      (∀ wanted, wanted ∈ rows.map key ↔ wanted ∈ first.map name ++ second.map name) ∧ ∀ row ∈ rows,
      score row = fusedScore k (first.map name) (second.map name) (key row) := by
  intro rows
  have keeps : ∀ entry row, key row = key (fresh entry) → key (combine entry row) = key row :=
    fun entry row _ => accumulates.combineKey entry row
  have ranked : ∀ (list : List Item) (wanted : Key),
    (∃ entry ∈ list.zipIdx, key (fresh entry) = wanted) ↔ wanted ∈ list.map name := by
    intro list wanted
    have names : list.map name = list.zipIdx.map fun entry => name entry.1 := by
      rw [← zipIdx_map_fst 0 list, map_map, zipIdx_map_fst]
      rfl
    rw [names, mem_map]
    simp only [accumulates.freshKey]
  have unique : (rows.map key).Nodup := by
    apply keys_nodup_mergeAll keeps
    apply keys_nodup_mergeAll keeps
    exact nodup_nil
  refine ⟨unique, fun wanted => ?_, fun row mem => ?_⟩
  · rw [mem_keys_mergeAll keeps, mem_keys_mergeAll keeps, ranked, ranked, mem_append]
    simp
  · have held : scoreOf key score rows (key row) = score row := scoreOf_row unique mem
    rw [← held, accumulates.scoreOf_run secondDistinct, accumulates.scoreOf_run firstDistinct]
    simp [fusedScore, scoreOf, lookup]

end

section
variable {Row : Type} {rows : List Row} {left right : Row}

theorem pair_sublist_or (leftMem : left ∈ rows) (rightMem : right ∈ rows) (apart : left ≠ right) :
    [left, right].Sublist rows ∨ [right, left].Sublist rows := by
  induction rows with
  | nil => cases leftMem
  | cons head rest ih =>
    rcases mem_cons.mp leftMem with rfl | leftLater
    · rcases mem_cons.mp rightMem with rfl | rightLater
      · exact absurd rfl apart
      · exact .inl ((singleton_sublist.mpr rightLater).cons_cons left)
    · rcases mem_cons.mp rightMem with rfl | rightLater
      · exact .inr ((singleton_sublist.mpr leftLater).cons_cons right)
      · exact (ih leftLater rightLater).imp (fun later => later.cons head) fun later => later.cons head

private theorem ne_reverse_of_nodup (nodup : rows.Nodup) (several : 1 < rows.length) :
    rows ≠ rows.reverse := by
  intro same
  have ends : rows[0] = rows[rows.length - 1] := by
    have first : rows[0]? = rows.reverse[0]? := congrArg (·[0]?) same
    rw [getElem?_reverse (by omega), getElem?_eq_getElem (by omega),
      getElem?_eq_getElem (by omega), Option.some.injEq] at first
    exact first
  have position := (List.Nodup.getElem_inj_iff nodup).mp ends
  omega

variable {before : Row → Row → Prop} [DecidableRel before] [Std.Total before] [IsTrans Row before]

private theorem insertionSort_eq_of_perm {others : List Row} (same : rows.Perm others) (decided :
    ∀ left ∈ rows, ∀ right ∈ rows, before left right → before right left → left = right) :
    rows.insertionSort before = others.insertionSort before := by
  apply List.Perm.eq_of_pairwise _ (pairwise_insertionSort before rows) (pairwise_insertionSort before others)
  · exact (perm_insertionSort before rows).trans (same.trans (perm_insertionSort before others).symm)
  · intro left right leftMem rightMem
    exact decided left ((mem_insertionSort before).mp leftMem) right (same.mem_iff.mpr ((mem_insertionSort before).mp rightMem))

private theorem insertionSort_reverse_ne (nodup : rows.Nodup) (leftMem : left ∈ rows) (rightMem :
    right ∈ rows) (apart : left ≠ right) (ahead : before left right) (behind : before right left) :
    rows.insertionSort before ≠ rows.reverse.insertionSort before := by
  intro same
  let tied : Row → Bool := fun row => decide (before left row) && decide (before row left)
  have stays : ∀ list : List Row, (list.insertionSort before).filter tied = list.filter tied := by
    intro list
    rw [filter_insertionSort]
    apply List.Pairwise.insertionSort_eq
    rw [pairwise_iff_forall_sublist]
    intro one two within
    have tiedOne : tied one = true := (mem_filter.mp (within.subset (.head _))).2
    have tiedTwo : tied two = true := (mem_filter.mp (within.subset (.tail _ (.head _)))).2
    simp only [tied, Bool.and_eq_true, decide_eq_true_eq] at tiedOne tiedTwo
    exact IsTrans.trans _ _ _ tiedOne.2 tiedTwo.1
  have kept := congrArg (filter tied) same
  rw [stays, stays, filter_reverse] at kept
  refine ne_reverse_of_nodup (nodup.filter tied) ?_ kept
  have inside : ∀ row ∈ rows, before left row → before row left → row ∈ rows.filter tied := by
    intro row mem first second
    exact mem_filter.mpr ⟨mem, by simp [tied, first, second]⟩
  have reflexive : before left left := (Std.Total.total (r := before) left left).elim id id
  have both := pair_sublist_or (inside left leftMem reflexive reflexive) (inside right rightMem ahead behind) apart
  rcases both with pair | pair
  all_goals exact pair.length_le

end

section
variable {Body Answer Key Entry : Type} [DecidableEq Key]

structure Fuses (key : Body → Key) (body : Answer → Body)
    (fuse : HashOrder Entry → List Answer) (first second : List Body) : Prop where
  once : ∀ order, ((fuse order).map fun answer => key (body answer)).Nodup
  either : ∀ order wanted, wanted ∈ (fuse order).map (fun answer => key (body answer)) ↔ wanted ∈ first.map key ++ second.map key
  drawn : ∀ order, ∀ answer ∈ fuse order, body answer ∈ first ++ second
  determined : ∀ order other, fuse order = fuse other
  monotone : ∀ order, ∀ better ∈ first.map key ++ second.map key, ∀ worse ∈ first.map key ++ second.map key,
      Outranks (first.map key) (second.map key) better worse →
        [better, worse].Sublist ((fuse order).map fun answer => key (body answer))

structure SortsByScore (k : Nat) (key : Body → Key) (body : Answer → Body)
    (arranged : HashOrder Entry → List Answer) (before : Answer → Answer → Prop)
    (first second : List Body) (gathered : List Answer) : Prop where
  perm : ∀ order, (arranged order).Perm gathered
  unique : (gathered.map fun answer => key (body answer)).Nodup
  names : ∀ wanted, wanted ∈ gathered.map (fun answer => key (body answer)) ↔ wanted ∈ first.map key ++ second.map key
  drawn : ∀ answer ∈ gathered, body answer ∈ first ++ second
  byScore : ∀ left ∈ gathered, ∀ right ∈ gathered, before left right →
    fusedScore k (first.map key) (second.map key) (key (body right)) ≤
      fusedScore k (first.map key) (second.map key) (key (body left))

variable {k : Nat} {key : Body → Key} {body : Answer → Body}
  {arranged : HashOrder Entry → List Answer} {before : Answer → Answer → Prop}
  [DecidableRel before] [Std.Total before] [IsTrans Answer before]
  {first second : List Body} {gathered : List Answer}

section
variable (sorts : SortsByScore k key body arranged before first second gathered)
include sorts

theorem SortsByScore.descending (order : HashOrder Entry) :
    (((arranged order).insertionSort before).map fun answer => key (body answer)).Pairwise
      fun left right => fusedScore k (first.map key) (second.map key) right ≤
        fusedScore k (first.map key) (second.map key) left := by
  have inside : ∀ answer ∈ (arranged order).insertionSort before, answer ∈ gathered :=
    fun answer mem => (sorts.perm order).mem_iff.mp ((mem_insertionSort before).mp mem)
  apply pairwise_map.mpr
  exact (pairwise_insertionSort before (arranged order)).imp_of_mem fun leftMem rightMem =>
    sorts.byScore _ (inside _ leftMem) _ (inside _ rightMem)

theorem SortsByScore.fuses (decided : ∀ left ∈ gathered, ∀ right ∈ gathered, before left right →
    before right left → left = right) :
    Fuses key body (fun order => (arranged order).insertionSort before) first second := by
  have perm : ∀ order, ((arranged order).insertionSort before).Perm gathered :=
    fun order => (perm_insertionSort before _).trans (sorts.perm order)
  have names : ∀ order wanted, wanted ∈ ((arranged order).insertionSort before).map
    (fun answer => key (body answer)) ↔ wanted ∈ first.map key ++ second.map key :=
    fun order wanted => ((perm order).map _).mem_iff.trans (sorts.names wanted)
  refine ⟨fun order => ((perm order).map _).nodup_iff.mpr sorts.unique, names, ?_, ?_, ?_⟩
  · exact fun order answer mem => sorts.drawn answer ((perm order).mem_iff.mp mem)
  · intro order other
    have inside : ∀ answer ∈ arranged order, answer ∈ gathered := fun answer mem => (sorts.perm order).mem_iff.mp mem
    exact insertionSort_eq_of_perm ((sorts.perm order).trans (sorts.perm other).symm) fun left leftMem right rightMem =>
        decided left (inside left leftMem) right (inside right rightMem)
  · intro order better betterMember worse worseMember outranks
    have scores := outranks.fusedScore_lt k
    have apart : better ≠ worse := fun same => absurd scores (same ▸ lt_irrefl _)
    have both := pair_sublist_or ((names order better).mpr betterMember) ((names order worse).mpr worseMember) apart
    refine both.resolve_right fun reversed => ?_
    have wrong := pairwise_iff_forall_sublist.mp (sorts.descending order) reversed
    exact absurd scores (not_lt.mpr wrong)

theorem SortsByScore.fuses_iff (reads : ∃ order, arranged order = gathered)
    (backwards : ∃ order, arranged order = gathered.reverse) :
    Fuses key body (fun order => (arranged order).insertionSort before) first second ↔
      ∀ left ∈ gathered, ∀ right ∈ gathered, before left right →
      before right left → left = right := by
  refine ⟨fun fuses left leftMem right rightMem ahead behind => ?_, sorts.fuses⟩
  by_contra apart
  obtain ⟨order, reads⟩ := reads
  obtain ⟨other, backwards⟩ := backwards
  have same := fuses.determined order other
  simp only [reads, backwards] at same
  exact insertionSort_reverse_ne sorts.unique.of_map leftMem rightMem apart ahead behind same

end
end

end Atlas.Program
