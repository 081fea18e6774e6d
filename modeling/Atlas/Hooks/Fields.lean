import Atlas.Hooks.Service

/-! Which field of a payload a hook reads, and whether a tool call refreshes the graph. -/
namespace Atlas.Hooks
open List
open Core (Json)
open Core.Json (lookupField)

def toolNameKeys : List String := ["tool_name", "toolName", "tool"]

def extractToolName : Json → Option String := findFirstStringByKey toolNameKeys

def toolMayChangeFiles (toolName : String) : Bool :=
  ["edit", "write", "multiedit", "bash", "patch", "run_in_terminal", "replace_string_in_file",
    "multi_replace_string_in_file", "create_file", "edit_notebook_file", "create_directory",
    "editfiles", "createfile", "runinterminal"].contains (String.ofList (toAsciiLowercase toolName))

def HookPolicy.graphRefresh (policy : HookPolicy) : Bool := policy.canonicalEvent == "post-tool-use"

inductive GraphRefresh where
  | null
  | skipped (toolName : String)
  /-- The graph is updated, for the changed files or for the working tree when there are none. -/
  | update (toolName : Option String) (changedFiles : List String)
  deriving DecidableEq

def executeGraphRefreshAction (repo : String) (policy : HookPolicy) (payload : Json) :
    GraphRefresh :=
  if policy.graphRefresh then
    let toolName := extractToolName payload
    let changedFiles := extractChangedFiles repo payload
    match toolName with
    | some name =>
      if !toolMayChangeFiles name && changedFiles.isEmpty then .skipped name
      else .update toolName changedFiles
    | none => .update toolName changedFiles
  else .null

/-- Some object at any depth has the text under one of the keys. -/
inductive FoundUnder (keys : List String) : Json → String → Prop where
  | here {fields : List (String × Json)} {key : String} {value : Json} {text : String} :
    key ∈ keys → lookupField fields key = some value → extractStringValue value = some text →
      FoundUnder keys (.obj fields) text
  | inItem {items : List Json} {item : Json} {text : String} :
    item ∈ items → FoundUnder keys item text → FoundUnder keys (.arr items) text
  | inField {fields : List (String × Json)} {key : String} {value : Json} {text : String} :
    (key, value) ∈ fields → FoundUnder keys value text → FoundUnder keys (.obj fields) text

structure ReadsOwnKeys (keys : List String) (payload : Json) : Prop where
  own : ∀ text, findFirstStringByKey keys payload = some text → FoundUnder keys payload text
  finds : ∀ text, FoundUnder keys payload text → (findFirstStringByKey keys payload).isSome

section
variable (keys : List String)

mutual

/-- The texts of a payload in the order in which they are met, with a mark on those that stand under
one of the keys. In an object these come first. -/
def texts : Json → List (Bool × String)
  | .str text => (nonEmptyTrimmed text).toList.map (false, ·)
  | .arr items => textsOfItems items
  | .obj fields =>
    (keys.filterMap fun key => (lookupField fields key).bind extractStringValue).map (true, ·) ++ textsOfFields fields
  | _ => []

def textsOfItems : List Json → List (Bool × String)
  | [] => []
  | item :: rest => texts item ++ textsOfItems rest

def textsOfFields : List (String × Json) → List (Bool × String)
  | [] => []
  | (_, value) :: rest => texts value ++ textsOfFields rest

end

def LedByKeys (payload : Json) : Prop :=
  ∀ first ∈ (texts keys payload).head?, (true, first.2) ∈ texts keys payload

end

variable {keys : List String}

mutual

theorem find_eq_head? :
    ∀ payload : Json, findFirstStringByKey keys payload = (texts keys payload).head?.map Prod.snd
  | .str text => by
    unfold findFirstStringByKey texts
    cases nonEmptyTrimmed text <;> rfl
  | .arr items => findItems_eq_head? items
  | .obj fields => by
    unfold findFirstStringByKey texts
    rw [findFields_eq_head? fields, head?_append, head?_map, head?_filterMap]
    cases keys.findSome? fun key => (lookupField fields key).bind extractStringValue <;> rfl
  | .null => rfl
  | .bool _ => rfl
  | .num _ => rfl

theorem findItems_eq_head? :
    ∀ items : List Json, findFirstOfItems keys items = (textsOfItems keys items).head?.map Prod.snd
  | [] => rfl
  | item :: rest => by
    unfold findFirstOfItems textsOfItems
    rw [find_eq_head? item, findItems_eq_head? rest, head?_append]
    cases (texts keys item).head? <;> rfl

theorem findFields_eq_head? : ∀ fields : List (String × Json), findFirstOfFields keys fields =
    (textsOfFields keys fields).head?.map Prod.snd
  | [] => rfl
  | (_, value) :: rest => by
    unfold findFirstOfFields textsOfFields
    rw [find_eq_head? value, findFields_eq_head? rest, head?_append]
    cases (texts keys value).head? <;> rfl

end

variable {entry : Bool × String} {payload : Json} {text : String}

theorem mem_textsOfItems {items : List Json} :
    entry ∈ textsOfItems keys items ↔ ∃ item ∈ items, entry ∈ texts keys item := by
  induction items with
  | nil => simp [textsOfItems]
  | cons item rest ih => rw [textsOfItems, mem_append, ih, exists_mem_cons_iff]

theorem mem_textsOfFields {fields : List (String × Json)} :
    entry ∈ textsOfFields keys fields ↔ ∃ field ∈ fields, entry ∈ texts keys field.2 := by
  induction fields with
  | nil => simp [textsOfFields]
  | cons field rest ih => rw [textsOfFields, mem_append, ih, exists_mem_cons_iff]

theorem mem_texts_of_foundUnder (found : FoundUnder keys payload text) :
    (true, text) ∈ texts keys payload := by
  induction found with
  | here isKey held read =>
    refine mem_append_left _ (mem_map.mpr ⟨_, mem_filterMap.mpr ⟨_, isKey, ?_⟩, rfl⟩)
    rw [held]
    exact read
  | inItem mem _ ih => exact mem_textsOfItems.mpr ⟨_, mem, ih⟩
  | inField mem _ ih => exact mem_append_right _ (mem_textsOfFields.mpr ⟨_, mem, ih⟩)

mutual

theorem foundUnder_of_mem_texts :
    ∀ {payload : Json} {text : String}, (true, text) ∈ texts keys payload →
      FoundUnder keys payload text
  | .str _, _, mem => by simp [texts] at mem
  | .arr items, _, mem => by
    obtain ⟨item, inItems, found⟩ := foundUnder_of_mem_items mem
    exact .inItem inItems found
  | .obj fields, _, mem => by
    rcases mem_append.mp mem with keyed | below
    · obtain ⟨_, held, same⟩ := mem_map.mp keyed
      obtain ⟨key, isKey, read⟩ := mem_filterMap.mp held
      obtain ⟨value, found, taken⟩ := Option.bind_eq_some_iff.mp read
      exact .here isKey found ((Prod.mk.inj same).2 ▸ taken)
    · obtain ⟨key, value, inFields, found⟩ := foundUnder_of_mem_fields below
      exact .inField inFields found
  | .null, _, mem => by cases mem
  | .bool _, _, mem => by cases mem
  | .num _, _, mem => by cases mem

theorem foundUnder_of_mem_items :
    ∀ {items : List Json} {text : String}, (true, text) ∈ textsOfItems keys items → ∃ item ∈ items,
      FoundUnder keys item text
  | [], _, mem => by cases mem
  | item :: rest, _, mem => by
    rcases mem_append.mp mem with first | later
    · exact ⟨item, .head _, foundUnder_of_mem_texts first⟩
    · obtain ⟨other, inRest, found⟩ := foundUnder_of_mem_items later
      exact ⟨other, .tail _ inRest, found⟩

theorem foundUnder_of_mem_fields :
    ∀ {fields : List (String × Json)} {text : String}, (true, text) ∈ textsOfFields keys fields →
      ∃ key value, (key, value) ∈ fields ∧ FoundUnder keys value text
  | [], _, mem => by cases mem
  | (key, value) :: rest, _, mem => by
    rcases mem_append.mp mem with first | later
    · exact ⟨key, value, .head _, foundUnder_of_mem_texts first⟩
    · obtain ⟨other, held, inRest, found⟩ := foundUnder_of_mem_fields later
      exact ⟨other, held, .tail _ inRest, found⟩

end

theorem foundUnder_iff : FoundUnder keys payload text ↔ (true, text) ∈ texts keys payload :=
  ⟨mem_texts_of_foundUnder, foundUnder_of_mem_texts⟩

theorem readsOwnKeys_iff (payload : Json) : ReadsOwnKeys keys payload ↔ LedByKeys keys payload := by
  constructor
  · intro reads first isFirst
    rw [← foundUnder_iff]
    apply reads.own
    rw [find_eq_head?, Option.mem_def.mp isFirst]
    rfl
  · intro led
    constructor
    · intro text found
      rw [find_eq_head?] at found
      obtain ⟨first, isFirst, rfl⟩ := Option.map_eq_some_iff.mp found
      exact foundUnder_iff.mpr (led first isFirst)
    · intro text found
      rw [find_eq_head?, Option.isSome_map, isSome_head?]
      simp [ne_nil_of_mem (foundUnder_iff.mp found)]

theorem notSkipped_iff {repo : String}
    {policy : HookPolicy} (refreshes : policy.graphRefresh = true) :
    (∀ name, executeGraphRefreshAction repo policy payload ≠ .skipped name) ↔
      (∀ first ∈ (texts toolNameKeys payload).head?, toolMayChangeFiles first.2 = true) ∨
        extractChangedFiles repo payload ≠ [] := by
  unfold executeGraphRefreshAction extractToolName
  rw [if_pos refreshes, find_eq_head?]
  cases first : (texts toolNameKeys payload).head? with
  | none => simp
  | some met =>
    cases changed : extractChangedFiles repo payload with
    | nil => cases may : toolMayChangeFiles met.2 <;> simp [may]
    | cons file rest => simp

/-- A field is read from its own keys exactly when the first text of the payload stands under one of
them, and a call without the name of a tool refreshes the graph exactly when the first text may
stand for such a name or changed files are named. -/
theorem hookFields_own_iff (keys : List String) (payload : Json) :
    (ReadsOwnKeys keys payload ↔ LedByKeys keys payload) ∧
      ∀ repo, ∀ policy ∈ hookPolicies, policy.graphRefresh = true →
        (∀ text, ¬ FoundUnder toolNameKeys payload text) →
        ((∀ name, executeGraphRefreshAction repo policy payload ≠ .skipped name) ↔
          (∀ first ∈ (texts toolNameKeys payload).head?, toolMayChangeFiles first.2 = true) ∨
            extractChangedFiles repo payload ≠ []) :=
  ⟨readsOwnKeys_iff payload, fun _ _ _ refreshes _ => notSkipped_iff refreshes⟩

/-- The directory of a tool call is taken for the name of the tool. -/
theorem workingDirectory_skipsRefresh :
    ¬ ReadsOwnKeys toolNameKeys (.obj [("cwd", .str "/repo"), ("tool_input", .obj [])]) ∧
      ∃ policy ∈ hookPolicies, policy.graphRefresh = true ∧
        executeGraphRefreshAction "/repo" policy (.obj [("cwd", .str "/repo"), ("tool_input", .obj [])]) = .skipped "/repo" := by
  refine ⟨?_, ?_⟩
  · rw [readsOwnKeys_iff]
    intro led
    exact absurd (led (false, "/repo") (by decide)) (by decide)
  · decide

end Atlas.Hooks
