import Atlas.Program.KeyedList
import Mathlib.Data.String.Basic

/-! The JSON values carried by graph rows. A number is kept by its printed form,
and an object lists its fields in ascending key order, as the sorted map behind
`serde_json::Value` does. Built with the feature `preserve_order` that map lists the same
fields in the order of insertion, and a text printed from it differs in that order only. -/
namespace Atlas.Core
open List

inductive Json where
  | null
  | bool (value : Bool)
  | num (text : String)
  | str (text : String)
  | arr (items : List Json)
  | obj (fields : List (String × Json))

namespace Json

mutual

def same : Json → Json → Bool
  | .null, .null => true
  | .bool left, .bool right => left == right
  | .num left, .num right => left == right
  | .str left, .str right => left == right
  | .arr left, .arr right => sameItems left right
  | .obj left, .obj right => sameFields left right
  | _, _ => false

def sameItems : List Json → List Json → Bool
  | [], [] => true
  | left :: lefts, right :: rights => same left right && sameItems lefts rights
  | _, _ => false

def sameFields : List (String × Json) → List (String × Json) → Bool
  | [], [] => true
  | (leftKey, left) :: lefts, (rightKey, right) :: rights =>
    leftKey == rightKey && same left right && sameFields lefts rights
  | _, _ => false

end

mutual

theorem same_iff : ∀ left right : Json, same left right = true ↔ left = right
  | .null, right => by cases right <;> simp [same]
  | .bool _, right => by cases right <;> simp [same]
  | .num _, right => by cases right <;> simp [same]
  | .str _, right => by cases right <;> simp [same]
  | .arr lefts, right => by
    cases right <;> simp [same]
    exact sameItems_iff lefts _
  | .obj lefts, right => by
    cases right <;> simp [same]
    exact sameFields_iff lefts _

theorem sameItems_iff : ∀ lefts rights : List Json, sameItems lefts rights = true ↔ lefts = rights
  | [], rights => by cases rights <;> simp [sameItems]
  | left :: lefts, [] => by simp [sameItems]
  | left :: lefts, right :: rights => by
    simp [sameItems, same_iff left right, sameItems_iff lefts rights]

theorem sameFields_iff :
    ∀ lefts rights : List (String × Json), sameFields lefts rights = true ↔ lefts = rights
  | [], rights => by cases rights <;> simp [sameFields]
  | (leftKey, left) :: lefts, [] => by simp [sameFields]
  | (leftKey, left) :: lefts, (rightKey, right) :: rights => by
    simp [sameFields, same_iff left right, sameFields_iff lefts rights]

end

instance : DecidableEq Json := fun left right =>
  decidable_of_iff (same left right = true) (same_iff left right)

def fieldsOrDefault : Json → List (String × Json)
  | .obj fields => fields
  | _ => []

/-- `Map::entry(key).or_insert_with(..)`: an existing field keeps its value. -/
def orInsert (key : String) (value : Json) : List (String × Json) → List (String × Json)
  | [] => [(key, value)]
  | (other, held) :: rest =>
    if other = key then (other, held) :: rest
    else if key < other then (key, value) :: (other, held) :: rest
    else (other, held) :: orInsert key value rest

def insertField (key : String) (value : Json) : List (String × Json) → List (String × Json)
  | [] => [(key, value)]
  | (other, held) :: rest =>
    if other = key then (key, value) :: rest
    else if key < other then (key, value) :: (other, held) :: rest
    else (other, held) :: insertField key value rest

def lookupField (fields : List (String × Json)) (key : String) : Option Json :=
  (fields.find? fun field => decide (field.1 = key)).map Prod.snd

variable (key : String) (value : Json)

theorem lookupField_insertField (fields : List (String × Json)) (other : String) :
    lookupField (Json.insertField key value fields) other =
      if key = other then some value else lookupField fields other := by
  unfold lookupField
  induction fields with
  | nil =>
    unfold Json.insertField
    rw [find?_cons]
    by_cases same : key = other
    · rw [if_pos same, decide_eq_true same]
      rfl
    · rw [if_neg same, decide_eq_false same]
  | cons field rest ih =>
    unfold Json.insertField
    by_cases here : field.1 = key
    · rw [if_pos here, find?_cons, find?_cons, here]
      by_cases same : key = other
      · rw [if_pos same, decide_eq_true same]
        rfl
      · rw [if_neg same, decide_eq_false same]
    · rw [if_neg here]
      by_cases before : key < field.1
      · rw [if_pos before, find?_cons]
        by_cases same : key = other
        · rw [if_pos same, decide_eq_true same]
          rfl
        · rw [if_neg same, decide_eq_false same]
      · rw [if_neg before, find?_cons, find?_cons]
        by_cases first : field.1 = other
        · rw [decide_eq_true first, if_neg]
          intro same
          exact here (first.trans same.symm)
        · rw [decide_eq_false first]
          exact ih

theorem lookupField_cons (field : String × Json) (rest : List (String × Json)) (key : String) :
    lookupField (field :: rest) key =
      if field.1 = key then some field.2 else lookupField rest key := by
  unfold lookupField
  rw [find?_cons]
  by_cases same : field.1 = key
  · rw [if_pos same, decide_eq_true same]
    rfl
  · rw [if_neg same, decide_eq_false same]

variable {fields : List (String × Json)}

theorem lookupField_eq_none {key : String} (absent : key ∉ fields.map Prod.fst) :
    lookupField fields key = none := by
  unfold lookupField
  rw [Option.map_eq_none_iff, find?_eq_none]
  intro other mem found
  rw [decide_eq_true_eq] at found
  exact absent (found ▸ mem_map_of_mem mem)

theorem lookupField_foldl (nodup : (fields.map Prod.fst).Nodup)
    (start : List (String × Json)) (key : String) :
    lookupField (fields.foldl (fun held field => insertField field.1 field.2 held) start) key =
      (lookupField fields key).or (lookupField start key) := by
  induction fields generalizing start with
  | nil => rfl
  | cons field rest ih =>
    rw [map_cons, nodup_cons] at nodup
    rw [foldl_cons, ih nodup.2, lookupField_insertField, lookupField_cons]
    by_cases same : field.1 = key
    · rw [if_pos same, if_pos same, lookupField_eq_none (same ▸ nodup.1)]
      rfl
    · rw [if_neg same, if_neg same]

end Json

end Atlas.Core
