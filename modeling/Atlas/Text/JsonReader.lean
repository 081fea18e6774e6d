import Atlas.Text.JsonTextProperties

/-! `serde_json::from_str`: the grammar of the parser, the recursion limit of the
library, and numbers read as the machine numbers their texts stand for. A text that
repeats a key is read here by its last value alone. -/
namespace Atlas.Text
open List
open Core (Json)

/-- Arrays and objects one inside the other that are still read; one more is refused. -/
def recursionLimit : Nat := 127

section
/-! `reads` gives the printed form of the number that a text is read as. Without the feature
`float_roundtrip` it need not be the same text, and a text of no number has none. -/
variable (reads : String → Option String)

mutual

def restore : Nat → Json → Option Json
  | _, .null => some .null
  | _, .bool value => some (.bool value)
  | _, .num text => (reads text).map .num
  | _, .str text => some (.str text)
  | 0, .arr _ => none
  | limit + 1, .arr items => (restoreItems limit items).map .arr
  | 0, .obj _ => none
  | limit + 1, .obj fields => (restoreFields limit fields).map .obj

def restoreItems : Nat → List Json → Option (List Json)
  | _, [] => some []
  | limit, item :: rest => do
      let item ← restore limit item
      let rest ← restoreItems limit rest
      some (item :: rest)

def restoreFields : Nat → List (String × Json) → Option (List (String × Json))
  | _, [] => some []
  | limit, (key, value) :: rest => do
      let value ← restore limit value
      let rest ← restoreFields limit rest
      some ((key, value) :: rest)

end

def fromStr (text : List Char) : Option Json := (parse text).bind (restore reads recursionLimit)

end

mutual

def nesting : Json → Nat
  | .arr items => nestingItems items + 1
  | .obj fields => nestingFields fields + 1
  | _ => 0

def nestingItems : List Json → Nat
  | [] => 0
  | item :: rest => max (nesting item) (nestingItems rest)

def nestingFields : List (String × Json) → Nat
  | [] => 0
  | (_, value) :: rest => max (nesting value) (nestingFields rest)

end

mutual

def numbers : Json → List String
  | .num text => [text]
  | .arr items => numbersItems items
  | .obj fields => numbersFields fields
  | _ => []

def numbersItems : List Json → List String
  | [] => []
  | item :: rest => numbers item ++ numbersItems rest

def numbersFields : List (String × Json) → List String
  | [] => []
  | (_, value) :: rest => numbers value ++ numbersFields rest

end

variable {reads : String → Option String} {limit : Nat}

mutual

theorem restore_isSome_iff : ∀ (value : Json) (limit : Nat),
    (restore reads limit value).isSome = true ↔
      nesting value ≤ limit ∧ ∀ number ∈ numbers value, (reads number).isSome = true
  | .null, limit => by simp [restore, nesting, numbers]
  | .bool _, limit => by simp [restore, nesting, numbers]
  | .num text, limit => by simp [restore, nesting, numbers]
  | .str _, limit => by simp [restore, nesting, numbers]
  | .arr _, 0 => by simp [restore, nesting]
  | .arr items, limit + 1 => by
    rw [restore, Option.isSome_map, restoreItems_isSome_iff items limit, nesting, numbers, Nat.add_le_add_iff_right]
  | .obj _, 0 => by simp [restore, nesting]
  | .obj fields, limit + 1 => by
    rw [restore, Option.isSome_map, restoreFields_isSome_iff fields limit, nesting, numbers, Nat.add_le_add_iff_right]

theorem restoreItems_isSome_iff : ∀ (items : List Json) (limit : Nat),
    (restoreItems reads limit items).isSome = true ↔
      nestingItems items ≤ limit ∧ ∀ number ∈ numbersItems items, (reads number).isSome = true
  | [], limit => by simp [restoreItems, nestingItems, numbersItems]
  | item :: rest, limit => by
    have first := restore_isSome_iff item limit
    have later := restoreItems_isSome_iff rest limit
    rw [nestingItems, numbersItems, max_le_iff, forall_mem_append, and_and_and_comm, ← first, ← later, restoreItems]
    cases restore reads limit item <;> cases restoreItems reads limit rest <;> simp

theorem restoreFields_isSome_iff : ∀ (fields : List (String × Json)) (limit : Nat),
    (restoreFields reads limit fields).isSome = true ↔
      nestingFields fields ≤ limit ∧ ∀ number ∈ numbersFields fields, (reads number).isSome = true
  | [], limit => by simp [restoreFields, nestingFields, numbersFields]
  | (key, value) :: rest, limit => by
    have first := restore_isSome_iff value limit
    have later := restoreFields_isSome_iff rest limit
    rw [nestingFields, numbersFields, max_le_iff, forall_mem_append, and_and_and_comm, ← first, ← later, restoreFields]
    cases restore reads limit value <;> cases restoreFields reads limit rest <;> simp

end

mutual

/-- What is shallow enough comes back unchanged if each of its numbers does. -/
theorem restore_eq_self : ∀ (value : Json) (limit : Nat), nesting value ≤ limit →
    (∀ number ∈ numbers value, reads number = some number) → restore reads limit value = some value
  | .null, _, _, _ => rfl
  | .bool _, _, _, _ => rfl
  | .num text, _, _, exact => by rw [restore, exact text (.head _), Option.map_some]
  | .str _, _, _, _ => rfl
  | .arr _, 0, shallow, _ => absurd shallow (Nat.not_succ_le_zero _)
  | .arr items, limit + 1, shallow, exact => by
    rw [restore, restoreItems_eq_self items limit (Nat.le_of_succ_le_succ shallow) exact, Option.map_some]
  | .obj _, 0, shallow, _ => absurd shallow (Nat.not_succ_le_zero _)
  | .obj fields, limit + 1, shallow, exact => by
    rw [restore, restoreFields_eq_self fields limit (Nat.le_of_succ_le_succ shallow) exact, Option.map_some]

theorem restoreItems_eq_self : ∀ (items : List Json) (limit : Nat), nestingItems items ≤ limit →
    (∀ number ∈ numbersItems items, reads number = some number) → restoreItems reads limit items = some items
  | [], _, _, _ => rfl
  | item :: rest, limit, shallow, exact => by
    have both := max_le_iff.mp shallow
    have own := forall_mem_append.mp exact
    rw [restoreItems, restore_eq_self item limit both.1 own.1, restoreItems_eq_self rest limit both.2 own.2]
    rfl

theorem restoreFields_eq_self :
    ∀ (fields : List (String × Json)) (limit : Nat), nestingFields fields ≤ limit →
    (∀ number ∈ numbersFields fields, reads number = some number) → restoreFields reads limit fields = some fields
  | [], _, _, _ => rfl
  | (key, value) :: rest, limit, shallow, exact => by
    have both := max_le_iff.mp shallow
    have own := forall_mem_append.mp exact
    rw [restoreFields, restore_eq_self value limit both.1 own.1, restoreFields_eq_self rest limit both.2 own.2]
    rfl

end

/-- A printed value is read by the limit and the numbers alone. -/
theorem fromStr_print {layout : Layout}
    {value : Json} (depth : Nat) (wellFormed : WellFormed value) :
    fromStr reads (print layout depth value) = restore reads recursionLimit value := by
  rw [fromStr, parse_print layout depth wellFormed, Option.bind_some]

end Atlas.Text
