import Atlas.Program.KeyedList
import Mathlib.Data.Finset.Card

/-! `WITH RECURSIVE .. UNION`: rows are taken from a queue one by one, and what the recursive
terms make of a row joins the queue unless it was there before. -/
namespace Atlas.Sql
open List Program

section
variable {Row : Type} [DecidableEq Row] (step : Row → List Row)

def takeRows : Nat → List Row → List Row → Option (List Row)
  | _, taken, [] => some taken
  | 0, _, _ :: _ => none
  | fuel + 1, taken, row :: queue =>
    takeRows fuel (taken ++ [row]) (queue ++ firsts id (taken ++ row :: queue) (step row))

def recursiveUnion (fuel : Nat) (initial : List Row) : Option (List Row) :=
  takeRows step fuel [] (firsts id [] initial)

end

section
variable {Row : Type} [DecidableEq Row] {step : Row → List Row} {initial : List Row} {row : Row}
  {rows taken queue : List Row} {bound : Finset Row} {fuel : Nat}

theorem mem_firsts_id {seen : List Row} : row ∈ firsts id seen rows ↔ row ∈ rows ∧ row ∉ seen := by
  induction rows generalizing seen with
  | nil => simp [firsts]
  | cons head rest ih =>
    unfold firsts
    by_cases old : head ∈ seen
    · rw [id, if_pos old, ih, mem_cons]
      constructor
      · rintro ⟨inRest, fresh⟩
        exact ⟨.inr inRest, fresh⟩
      · rintro ⟨rfl | inRest, fresh⟩
        · exact absurd old fresh
        · exact ⟨inRest, fresh⟩
    · rw [id, if_neg old, mem_cons, ih, mem_cons, mem_cons, not_or]
      constructor
      · rintro (rfl | ⟨inRest, _, fresh⟩)
        · exact ⟨.inl rfl, old⟩
        · exact ⟨.inr inRest, fresh⟩
      · rintro ⟨rfl | inRest, fresh⟩
        · exact .inl rfl
        · by_cases same : row = head
          · exact .inl same
          · exact .inr ⟨inRest, same, fresh⟩

theorem nodup_firsts_id (seen rows : List Row) : (firsts id seen rows).Nodup := by
  have distinct := (@firsts_nodup _ _ _ id seen rows).1
  rwa [map_id] at distinct

def Derived (step : Row → List Row) (initial : List Row) (row : Row) : Prop :=
  ∃ start ∈ initial, Relation.ReflTransGen (fun before after => after ∈ step before) start row

/-- Each row is taken or queued at most once and comes from the initial rows. -/
structure Expanding (step : Row → List Row)
    (initial : List Row) (bound : Finset Row) (taken queue : List Row) : Prop where
  nodup : (taken ++ queue).Nodup
  within : ∀ row ∈ taken ++ queue, row ∈ bound
  derived : ∀ row ∈ taken ++ queue, Derived step initial row
  started : ∀ row ∈ initial, row ∈ taken ++ queue
  closed : ∀ row ∈ taken, ∀ next ∈ step row, next ∈ taken ++ queue

theorem Expanding.begin (inside : ∀ row ∈ initial, row ∈ bound) :
    Expanding step initial bound [] (firsts id [] initial) where
  nodup := nodup_firsts_id [] initial
  within := fun row mem => inside row (mem_firsts_id.mp mem).1
  derived := fun _ mem => ⟨_, (mem_firsts_id.mp mem).1, .refl⟩
  started := fun row mem => mem_firsts_id.mpr ⟨mem, not_mem_nil⟩
  closed := nofun

section
variable (stays : ∀ row ∈ bound, ∀ next ∈ step row, next ∈ bound)
include stays

theorem Expanding.take (expanding : Expanding step initial bound taken (row :: queue)) :
    Expanding step initial bound (taken ++ [row])
      (queue ++ firsts id (taken ++ row :: queue) (step row)) := by
  have shape : taken ++ [row] ++ (queue ++ firsts id (taken ++ row :: queue) (step row)) =
    (taken ++ row :: queue) ++ firsts id (taken ++ row :: queue) (step row) := by
    simp
  have here : row ∈ taken ++ row :: queue := mem_append_right _ (.head _)
  constructor
  · rw [shape, nodup_append]
    refine ⟨expanding.nodup, nodup_firsts_id _ _, ?_⟩
    rintro old isOld _ isNew rfl
    exact (mem_firsts_id.mp isNew).2 isOld
  · intro other mem
    rw [shape, mem_append, mem_firsts_id] at mem
    rcases mem with old | ⟨made, _⟩
    · exact expanding.within other old
    · exact stays row (expanding.within row here) other made
  · intro other mem
    rw [shape, mem_append, mem_firsts_id] at mem
    rcases mem with old | ⟨made, _⟩
    · exact expanding.derived other old
    · obtain ⟨start, isStart, path⟩ := expanding.derived row here
      exact ⟨start, isStart, path.tail made⟩
  · intro other mem
    rw [shape]
    exact mem_append_left _ (expanding.started other mem)
  · intro other mem next made
    rw [shape, mem_append, mem_firsts_id]
    by_cases old : next ∈ taken ++ row :: queue
    · exact .inl old
    · rcases mem_append.mp mem with earlier | last
      · exact absurd (expanding.closed other earlier next made) old
      · rw [mem_singleton.mp last] at made
        exact .inr ⟨made, old⟩

theorem Expanding.ends (expanding : Expanding step initial bound taken queue)
    (enough : bound.card ≤ fuel + taken.length) :
    ∃ rows, takeRows step fuel taken queue = some rows ∧ Expanding step initial bound rows [] := by
  induction fuel generalizing taken queue with
  | zero =>
    cases queue with
    | nil => exact ⟨taken, rfl, expanding⟩
    | cons row queue =>
      have fits : (taken ++ row :: queue).length ≤ bound.card := by
        rw [← toFinset_card_of_nodup expanding.nodup]
        refine Finset.card_le_card fun other mem => ?_
        exact expanding.within other (mem_toFinset.mp mem)
      rw [length_append, length_cons] at fits
      omega
  | succ fuel ih =>
    cases queue with
    | nil => exact ⟨taken, by unfold takeRows; rfl, expanding⟩
    | cons row queue =>
      obtain ⟨rows, ran, expanded⟩ := ih (expanding.take stays) (by
        rw [length_append, length_singleton]
        omega)
      refine ⟨rows, ?_, expanded⟩
      unfold takeRows
      exact ran

theorem recursiveUnion_exact (inside : ∀ row ∈ initial, row ∈ bound) (enough : bound.card ≤ fuel) :
    ∃ rows, recursiveUnion step fuel initial = some rows ∧ rows.Nodup ∧ ∀ row, row ∈ rows ↔ Derived step initial row := by
  obtain ⟨rows, ran, expanded⟩ := (Expanding.begin inside).ends stays (enough.trans (Nat.le_add_right _ _))
  obtain ⟨nodup, _, derived, started, closed⟩ := expanded
  rw [append_nil] at nodup derived started closed
  refine ⟨rows, ran, nodup, fun row => ⟨derived row, ?_⟩⟩
  rintro ⟨start, isStart, path⟩
  induction path with
  | refl => exact started start isStart
  | tail _ made ih => exact closed _ ih _ made

end

theorem firsts_id_prefix (seen rows others : List Row) :
    firsts id seen rows <+: firsts id seen (rows ++ others) := by
  induction rows generalizing seen with
  | nil => exact nil_prefix
  | cons head rest ih =>
    rw [cons_append, firsts, firsts]
    split
    · exact ih seen
    · exact (prefix_cons_inj head).mpr (ih _)

theorem takeRows_prefix (ran : takeRows step fuel taken queue = some rows) :
    taken ++ queue <+: rows := by
  induction fuel generalizing taken queue with
  | zero =>
    cases queue with
    | nil =>
      cases ran
      rw [append_nil]
    | cons row queue => cases ran
  | succ fuel ih =>
    cases queue with
    | nil =>
      unfold takeRows at ran
      cases ran
      rw [append_nil]
    | cons row queue =>
      unfold takeRows at ran
      have later := ih ran
      rw [← append_assoc, append_assoc taken] at later
      exact (prefix_append _ _).trans later

theorem recursiveUnion_prefix (ran : recursiveUnion step fuel initial = some rows) :
    firsts id [] initial <+: rows := takeRows_prefix ran

end
end Atlas.Sql
