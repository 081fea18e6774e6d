import Mathlib.Data.List.Basic

/-! Tables that answer a question the way it was answered first, and rules that do not know how
their questions are answered: what relates the answers relates the results. -/
namespace Atlas.Program
open List

section
variable {Key Value : Type} [BEq Key]

def fetch (filed given : Key → Value) (key : Key) (table : List (Key × Value)) :
    Value × List (Key × Value) :=
  match table.lookup key with
  | some value => (value, table)
  | none => (given key, (key, filed key) :: table)

def Files (filed : Key → Value) (table : List (Key × Value)) : Prop :=
  ∀ entry ∈ table, entry.2 = filed entry.1

variable [LawfulBEq Key] {filed given : Key → Value} {key : Key} {table : List (Key × Value)}

omit [BEq Key] [LawfulBEq Key] in
theorem Files.nil : Files filed [] := by
  intro entry mem
  cases mem

theorem Files.lookup {value : Value}
    (files : Files filed table) (found : table.lookup key = some value) : value = filed key := by
  obtain ⟨before, after, split, _⟩ := lookup_eq_some_iff.mp found
  have entry := files (key, value) (split ▸ mem_append_right before (.head _))
  exact entry

omit [LawfulBEq Key] in
theorem Files.fetch (files : Files filed table) : Files filed (fetch filed given key table).2 := by
  unfold Program.fetch
  cases table.lookup key with
  | some value => exact files
  | none =>
    intro entry mem
    rcases mem_cons.mp mem with rfl | old
    · rfl
    · exact files entry old

theorem fetch_fst (files : Files filed table)
    (same : (table.lookup key).isSome = true → filed key = given key) :
    (fetch filed given key table).1 = given key := by
  unfold Program.fetch
  cases found : table.lookup key with
  | none => rfl
  | some value => exact (files.lookup found).trans (same (by rw [found]; rfl))

theorem isSome_lookup_fetch {other : Key} :
    ((fetch filed given key table).2.lookup other).isSome = true ↔
      (table.lookup other).isSome = true ∨ other = key := by
  unfold Program.fetch
  cases found : table.lookup key with
  | some value =>
    constructor
    · exact .inl
    · rintro (old | rfl)
      · exact old
      · rw [found]
        rfl
  | none =>
    rw [List.lookup_cons]
    by_cases same : other = key
    · simp [same]
    · rw [beq_false_of_ne same]
      simp [same]

end

/-! ## One rule in two monads -/

/-- A relation between the computations of two monads that sequencing keeps. -/
structure Sequential {m n : Type → Type} [Monad m] [Monad n]
    (Rel : ∀ Value : Type, m Value → n Value → Prop) : Prop where
  pure : ∀ {Value : Type} (value : Value), Rel Value (Pure.pure value) (Pure.pure value)
  bind : ∀ {Value Next : Type} {left : m Value} {right : n Value} {leftNext : Value → m Next}
    {rightNext : Value → n Next}, Rel Value left right →
    (∀ value, Rel Next (leftNext value) (rightNext value)) →
    Rel Next (left >>= leftNext) (right >>= rightNext)

section
variable {State Left Right : Type}

/-- The computation in the state has this value wherever it starts. -/
def Yields (Value : Type) (run : StateM State Value) (value : Id Value) : Prop :=
  ∀ state, (run state).1 = value

/-- The property of the state is kept, whatever the other computation does. -/
def Preserves (Holds : State → Prop) (Value : Type) (run _ : StateM State Value) : Prop :=
  ∀ state, Holds state → Holds (run state).2

/-- The reference goes to sound states only from sound ones; if it ends in one, the run has its
value, and the two end in related states. -/
structure Follows (Related : Left → Right → Prop) (Sound : Left → Prop) (Value : Type)
    (reference : StateM Left Value) (run : StateM Right Value) : Prop where
  grows : ∀ state, Sound (reference state).2 → Sound state
  follows : ∀ left right, Related left right → Sound (reference left).2 →
    (run right).1 = (reference left).1 ∧ Related (reference left).2 (run right).2

theorem yields_sequential : Sequential (m := StateM State) Yields where
  pure _ _ := rfl
  bind {_ _ left right leftNext rightNext} first after state := by
    change (leftNext (left state).1 (left state).2).1 = rightNext right
    rw [first state]
    exact after right _

variable {Holds : State → Prop} {Related : Left → Right → Prop} {Sound : Left → Prop}

theorem preserves_sequential : Sequential (Preserves Holds) where
  pure _ _ holds := holds
  bind first after state holds := after _ _ (first state holds)

theorem follows_sequential : Sequential (Follows Related Sound) where
  pure _ := ⟨fun _ sound => sound, fun _ _ related _ => ⟨rfl, related⟩⟩
  bind {_ _ left right leftNext rightNext} first after := by
    refine ⟨fun state sound => first.grows state ((after _).grows _ sound), ?_⟩
    intro start other related sound
    have middle : Sound (left start).2 := (after _).grows _ sound
    obtain ⟨same, between⟩ := first.follows start other related middle
    change (rightNext (right other).1 (right other).2).1 =
        (leftNext (left start).1 (left start).2).1 ∧
      Related (leftNext (left start).1 (left start).2).2 (rightNext (right other).1 (right other).2).2
    rw [same]
    exact (after _).follows _ _ between sound

end
end Atlas.Program
