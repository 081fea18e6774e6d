import Atlas.Hooks.Payload

/-! What redaction leaves of a JSON value, place by place. -/
namespace Atlas.Hooks
open List
open Core (Json)

/-- The values right below a value, each with the key it stands under in an object. -/
def entries : Json → List (Option String × Json)
  | .obj fields => fields.map fun field => (some field.1, field.2)
  | .arr items => items.map fun item => (none, item)
  | _ => []

def valueAt : Json → List Nat → Option Json
  | value, [] => some value
  | value, place :: path => (entries value)[place]?.bind fun entry => valueAt entry.2 path

def keysAlong : Json → List Nat → List String
  | _, [] => []
  | value, place :: path =>
    match (entries value)[place]? with
    | none => []
    | some entry => entry.1.toList ++ keysAlong entry.2 path

/-- The keys of an object, the length of an array, or a leaf itself. -/
def surface : Json → Json
  | .obj fields => .obj (fields.map fun field => (field.1, .null))
  | .arr items => .arr (items.map fun _ => .null)
  | leaf => leaf

section
variable (rules : RedactionRules)

def isToken : Json → Bool
  | .str text => looksLikeToken rules text
  | _ => false

/-- Hidden keys lose their values, tokens are replaced, the rest stays in place. -/
structure Redacts (before after : Json) : Prop where
  shown : ∀ path value, valueAt before path = some value → (∀ key ∈ keysAlong before path, isHidden rules key = false) →
    ∃ kept, valueAt after path = some kept ∧ surface kept = if isToken rules value then .str redacted else surface value
  hidden : ∀ path holder place key value, valueAt before path = some holder →
    (∀ crossed ∈ keysAlong before path, isHidden rules crossed = false) →
    (entries holder)[place]? = some (some key, value) → isHidden rules key = true →
    valueAt after (path ++ [place]) = some (.str redacted)
  nothingNew : ∀ path, valueAt before path = none → valueAt after path = none

def redactEntry (entry : Option String × Json) : Option String × Json :=
  (entry.1, if entry.1.any (isHidden rules) then .str redacted else redactValue rules entry.2)

theorem redactItems_eq (items : List Json) :
    redactItems rules items = items.map (redactValue rules) := by
  induction items with
  | nil => rfl
  | cons item rest ih => rw [redactItems, ih, map_cons]

theorem redactMap_eq (fields : List (String × Json)) :
    redactMap rules fields = fields.map fun field =>
      (field.1, if isHidden rules field.1 then .str redacted else redactValue rules field.2) := by
  induction fields with
  | nil => rfl
  | cons field rest ih =>
    obtain ⟨key, value⟩ := field
    rw [redactMap, ih, map_cons]

theorem entries_redactValue (value : Json) :
    entries (redactValue rules value) = (entries value).map (redactEntry rules) := by
  cases value with
  | obj fields =>
    rw [redactValue, redactMap_eq, entries, entries, map_map, map_map]
    rfl
  | arr items =>
    rw [redactValue, redactItems_eq, entries, entries, map_map, map_map]
    rfl
  | _ => rfl

theorem surface_redactValue (value : Json) :
    surface (redactValue rules value) = if isToken rules value then .str redacted
      else surface value := by
  cases value with
  | obj fields =>
    rw [redactValue, redactMap_eq, surface, map_map]
    rfl
  | arr items =>
    rw [redactValue, redactItems_eq, surface, map_map]
    rfl
  | str text =>
    change Json.str (if looksLikeToken rules text = true then redacted else text) =
      if looksLikeToken rules text = true then .str redacted else .str text
    split <;> rfl
  | _ => rfl

variable {rules} {value holder child : Json} {path : List Nat} {place : Nat} {key : String}

theorem valueAt_append (before after : List Nat) :
    valueAt value (before ++ after) = (valueAt value before).bind fun reached =>
      valueAt reached after := by
  induction before generalizing value with
  | nil => rfl
  | cons place rest ih =>
    rw [cons_append, valueAt, valueAt]
    cases (entries value)[place]? with
    | none => rfl
    | some entry => exact ih

/-- Where no key on the way is hidden, the same place holds the redacted value. -/
theorem valueAt_redactValue (visible : ∀ key ∈ keysAlong value path, isHidden rules key = false) :
    valueAt (redactValue rules value) path = (valueAt value path).map (redactValue rules) := by
  induction path generalizing value with
  | nil => rfl
  | cons place rest ih =>
    rw [valueAt, valueAt, entries_redactValue, getElem?_map]
    rw [keysAlong] at visible
    cases found : (entries value)[place]? with
    | none => rfl
    | some entry =>
      obtain ⟨label, child⟩ := entry
      simp only [found, mem_append, Option.mem_toList] at visible
      have plain : label.any (isHidden rules) = false := by
        cases label with
        | none => rfl
        | some key => exact visible key (.inl rfl)
      rw [Option.map_some, redactEntry, plain]
      exact ih fun key later => visible key (.inr later)

theorem valueAt_hidden (visible : ∀ crossed ∈ keysAlong value path, isHidden rules crossed = false)
    (reached : valueAt value path = some holder) (entry : (entries holder)[place]? = some (some key, child))
    (secret : isHidden rules key = true) :
    valueAt (redactValue rules value) (path ++ [place]) = some (.str redacted) := by
  rw [valueAt_append, valueAt_redactValue visible, reached]
  change (entries (redactValue rules holder))[place]?.bind (fun entry => valueAt entry.2 []) = _
  rw [entries_redactValue, getElem?_map, entry, Option.map_some, redactEntry]
  change some (if isHidden rules key = true then Json.str redacted else redactValue rules child) = _
  rw [if_pos secret]

theorem valueAt_redactValue_none (missing : valueAt value path = none) :
    valueAt (redactValue rules value) path = none := by
  induction path generalizing value with
  | nil => cases missing
  | cons place rest ih =>
    rw [valueAt] at missing ⊢
    rw [entries_redactValue, getElem?_map]
    cases found : (entries value)[place]? with
    | none => rfl
    | some entry =>
      rw [found] at missing
      rw [Option.map_some, redactEntry, Option.bind_some]
      by_cases secret : entry.1.any (isHidden rules) = true
      · rw [if_pos secret]
        cases rest with
        | nil => cases missing
        | cons next later => rfl
      · rw [if_neg secret]
        exact ih missing

mutual

theorem redactValue_redactValue :
    ∀ value : Json, redactValue rules (redactValue rules value) = redactValue rules value
  | .obj fields => congrArg Json.obj (redactMap_redactMap fields)
  | .arr items => congrArg Json.arr (redactItems_redactItems items)
  | .str text => by
    rw [redactValue]
    by_cases token : looksLikeToken rules text = true
    · rw [if_pos token, redactValue]
      split <;> rfl
    · rw [if_neg token, redactValue, if_neg token]
  | .null => rfl
  | .bool _ => rfl
  | .num _ => rfl

theorem redactItems_redactItems :
    ∀ items : List Json, redactItems rules (redactItems rules items) = redactItems rules items
  | [] => rfl
  | item :: rest => by
    rw [redactItems, redactItems, redactValue_redactValue item, redactItems_redactItems rest]

theorem redactMap_redactMap : ∀ fields : List (String × Json),
    redactMap rules (redactMap rules fields) = redactMap rules fields
  | [] => rfl
  | (key, value) :: rest => by
    rw [redactMap, redactMap, redactMap_redactMap rest]
    by_cases secret : isHidden rules key = true
    · rw [if_pos secret, if_pos secret]
    · rw [if_neg secret, if_neg secret, redactValue_redactValue value]

end
end

theorem redactValue_redacts (rules : RedactionRules) (payload : Json) :
    Redacts rules payload (redactValue rules payload) ∧
      redactValue rules (redactValue rules payload) = redactValue rules payload := by
  refine ⟨⟨?_, ?_, fun _ missing => valueAt_redactValue_none missing⟩, redactValue_redactValue payload⟩
  · intro path value reached visible
    refine ⟨redactValue rules value, ?_, surface_redactValue rules value⟩
    rw [valueAt_redactValue visible, reached, Option.map_some]
  · intro path holder place key value reached visible entry secret
    exact valueAt_hidden visible reached entry secret

end Atlas.Hooks
