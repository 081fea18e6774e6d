import Atlas.Mcp.RequestState
import Atlas.Session.Event
import Atlas.Text.JsonReader

/-! The canonical text of a payload is the compact text of its canonical form. -/
namespace Atlas.Session
open List
open Core (Json)
open Text (print printItems printFields quote compact nesting nestingItems nestingFields numbers numbersItems
  numbersFields fromStr recursionLimit)
open Mcp (IsValue SameUpToOrder canonicalizeValue canonicalizeItems canonicalizeFields keyLe)

theorem toList_quoteJson (text : String) :
    (quoteJson text).toList = quote text := String.toList_ofList

theorem intercalate_comma (text : List Char) (texts : List (List Char)) :
    [','].intercalate (text :: texts) = text ++ texts.flatMap (',' :: ·) := by
  induction texts generalizing text with
  | nil => simp
  | cons next rest ih => rw [intercalate_cons_cons, ih, flatMap_cons, cons_append, append_assoc, singleton_append]

theorem printItems_compact (depth : Nat) (items : List Json) :
    printItems compact depth items = (items.map (print compact depth)).flatMap (',' :: ·) := by
  induction items with
  | nil => rfl
  | cons item rest ih =>
    rw [printItems, ih]
    rfl

def printField (depth : Nat) (field : String × Json) : List Char :=
  quote field.1 ++ ':' :: print compact depth field.2

theorem printFields_compact (depth : Nat) (fields : List (String × Json)) :
    printFields compact depth fields = (fields.map (printField depth)).flatMap (',' :: ·) := by
  induction fields with
  | nil => rfl
  | cons field rest ih =>
    rw [printFields, ih]
    simp [compact, printField]

theorem print_arr (depth : Nat) (items : List Json) : print compact depth (.arr items) =
    '[' :: ([','].intercalate (items.map (print compact (depth + 1))) ++ [']']) := by
  cases items with
  | nil => rfl
  | cons item rest =>
    rw [print, printItems_compact, map_cons, intercalate_comma]
    simp [compact]

theorem print_obj (depth : Nat) (fields : List (String × Json)) :
    print compact depth (.obj fields) =
      '{' :: ([','].intercalate (fields.map (printField (depth + 1))) ++ ['}']) := by
  cases fields with
  | nil => rfl
  | cons field rest =>
    rw [print, printFields_compact, map_cons, intercalate_comma]
    simp [compact, printField]

mutual

theorem toList_canonicalJson : ∀ (value : Json) (depth : Nat), (canonicalJson value).toList =
    print compact depth (canonicalizeValue value)
  | .null, _ => rfl
  | .bool true, _ => rfl
  | .bool false, _ => rfl
  | .num _, _ => rfl
  | .str text, _ => toList_quoteJson text
  | .arr items, depth => by
    rw [canonicalJson, canonicalizeValue, print_arr, ← toList_canonicalItems items (depth + 1)]
    simp
  | .obj fields, depth => by
    have sorted : ((canonicalizeFields fields).insertionSort keyLe).map (printField (depth + 1)) =
        ((canonicalFields fields).insertionSort fun left right => left.1 ≤ right.1).map fun field =>
          quote field.1 ++ ':' :: field.2.toList := by
      let below (left right : String × List Char) : Prop := left.1 ≤ right.1
      have byKey (left right : String × List Char) : Decidable (below left right) :=
        inferInstanceAs (Decidable (left.1 ≤ right.1))
      have texts := map_insertionSort (fun left right => left.1 ≤ right.1) below
        (fun field => (field.1, field.2.toList)) (canonicalFields fields) fun _ _ _ _ => Iff.rfl
      have prints := map_insertionSort keyLe below (fun field => (field.1,
        print compact (depth + 1) field.2)) (canonicalizeFields fields) fun _ _ _ _ => Iff.rfl
      rw [toList_canonicalFields, ← prints] at texts
      have joined := congrArg (map fun field => quote field.1 ++ ':' :: field.2) texts
      rw [map_map, map_map] at joined
      exact joined.symm
    rw [canonicalJson, canonicalizeValue, print_obj, sorted]
    simp [toList_quoteJson, Function.comp_def]

theorem toList_canonicalItems : ∀ (items : List Json) (depth : Nat),
    (canonicalItems items).map String.toList = (canonicalizeItems items).map (print compact depth)
  | [], _ => rfl
  | item :: rest, depth => congrArg₂ cons (toList_canonicalJson item depth) (toList_canonicalItems rest depth)

theorem toList_canonicalFields : ∀ (fields : List (String × Json)) (depth : Nat),
    (canonicalFields fields).map (fun field => (field.1, field.2.toList)) =
      (canonicalizeFields fields).map fun field => (field.1, print compact depth field.2)
  | [], _ => rfl
  | (key, value) :: rest, depth =>
    congrArg₂ (fun text texts => (key, text) :: texts) (toList_canonicalJson value depth) (toList_canonicalFields rest depth)

end

/-! ## What is read back -/

section
variable {fields others : List (String × Json)}

theorem nestingFields_perm (moved : fields ~ others) :
    nestingFields fields = nestingFields others := by
  induction moved with
  | nil => rfl
  | cons field _ ih => rw [nestingFields, nestingFields, ih]
  | swap first second rest => simp only [nestingFields, max_left_comm]
  | trans _ _ first second => exact first.trans second

theorem mem_numbersFields {number : String} :
    number ∈ numbersFields fields ↔ ∃ field ∈ fields, number ∈ numbers field.2 := by
  induction fields with
  | nil => simp [numbersFields]
  | cons field rest ih => rw [numbersFields, mem_append, ih, exists_mem_cons_iff]

end

mutual

theorem nesting_canonicalizeValue :
    ∀ value : Json, nesting (canonicalizeValue value) = nesting value
  | .null => rfl
  | .bool _ => rfl
  | .num _ => rfl
  | .str _ => rfl
  | .arr items => congrArg (· + 1) (nestingItems_canonicalizeItems items)
  | .obj fields => congrArg (· + 1)
      ((nestingFields_perm (perm_insertionSort keyLe _)).trans (nestingFields_canonicalizeFields fields))

theorem nestingItems_canonicalizeItems : ∀ items : List Json,
    nestingItems (canonicalizeItems items) = nestingItems items
  | [] => rfl
  | item :: rest => congrArg₂ max (nesting_canonicalizeValue item) (nestingItems_canonicalizeItems rest)

theorem nestingFields_canonicalizeFields : ∀ fields : List (String × Json),
    nestingFields (canonicalizeFields fields) = nestingFields fields
  | [] => rfl
  | (_, value) :: rest => congrArg₂ max (nesting_canonicalizeValue value) (nestingFields_canonicalizeFields rest)

end

mutual

theorem mem_numbers_canonicalizeValue (number : String) : ∀ value : Json,
    number ∈ numbers (canonicalizeValue value) ↔ number ∈ numbers value
  | .null => Iff.rfl
  | .bool _ => Iff.rfl
  | .num _ => Iff.rfl
  | .str _ => Iff.rfl
  | .arr items => mem_numbers_canonicalizeItems number items
  | .obj fields => by
    rw [numbers, ← mem_numbers_canonicalizeFields number fields, canonicalizeValue, numbers, mem_numbersFields,
      mem_numbersFields]
    simp only [mem_insertionSort]

theorem mem_numbers_canonicalizeItems (number : String) : ∀ items : List Json,
    number ∈ numbersItems (canonicalizeItems items) ↔ number ∈ numbersItems items
  | [] => Iff.rfl
  | item :: rest => by
    rw [canonicalizeItems, numbersItems, numbersItems, mem_append, mem_append,
      mem_numbers_canonicalizeValue number item, mem_numbers_canonicalizeItems number rest]

theorem mem_numbers_canonicalizeFields (number : String) : ∀ fields : List (String × Json),
    number ∈ numbersFields (canonicalizeFields fields) ↔ number ∈ numbersFields fields
  | [] => Iff.rfl
  | (_, value) :: rest => by
    rw [canonicalizeFields, numbersFields, numbersFields, mem_append, mem_append,
      mem_numbers_canonicalizeValue number value, mem_numbers_canonicalizeFields number rest]

end

variable {reads : String → Option String} {value : Json}

theorem fromStr_canonicalJson (isValue : IsValue value) :
    fromStr reads (canonicalJson value).toList = Text.restore reads recursionLimit (canonicalizeValue value) := by
  rw [toList_canonicalJson value 0]
  exact Text.fromStr_print 0 (Mcp.wellFormed_canonicalizeValue value isValue)

/-- A stored text is refused for its depth or for a number that is out of range. -/
theorem fromStr_canonicalJson_isSome_iff (isValue : IsValue value) :
    (fromStr reads (canonicalJson value).toList).isSome = true ↔
      nesting value ≤ recursionLimit ∧ ∀ number ∈ numbers value, (reads number).isSome = true := by
  rw [fromStr_canonicalJson isValue, Text.restore_isSome_iff, nesting_canonicalizeValue]
  simp only [mem_numbers_canonicalizeValue]

/-- Equal texts are equal values, a text reads back as its value where `serde_json` reads
that deep and each number as it is printed, and the text of an event determines its three
columns. -/
theorem canonicalJson_identifies {left right : Json}
    (leftValue : IsValue left) (rightValue : IsValue right)
    (reads : String → Option String) :
    (canonicalJson left = canonicalJson right ↔ SameUpToOrder left right) ∧
      (nesting left ≤ recursionLimit → (∀ number ∈ numbers left, reads number = some number) →
        ∃ read, fromStr reads (canonicalJson left).toList = some read ∧ SameUpToOrder left read) ∧
      ∀ (eventType otherType : SessionEventType) (priority other : Int) (payload otherPayload : String),
        hashInput eventType priority payload = hashInput otherType other otherPayload ↔
          eventType = otherType ∧ priority = other ∧ payload = otherPayload := by
  have leftFormed := Mcp.wellFormed_canonicalizeValue left leftValue
  refine ⟨?_, fun shallow exact => ⟨canonicalizeValue left, ?_, Mcp.sameUpToOrder_canonicalizeValue left⟩,
    fun _ _ _ _ _ _ => ⟨hashInput_injective, ?_⟩⟩
  · rw [← Mcp.canonicalizeValue_eq_iff leftValue, ← String.toList_inj, toList_canonicalJson left 0, toList_canonicalJson right 0]
    exact ⟨Text.print_injective compact 0 leftFormed
      (Mcp.wellFormed_canonicalizeValue right rightValue), congrArg (print compact 0)⟩
  · rw [fromStr_canonicalJson leftValue]
    refine Text.restore_eq_self _ _ (nesting_canonicalizeValue left ▸ shallow) fun number mem => ?_
    exact exact number ((mem_numbers_canonicalizeValue number left).mp mem)
  · rintro ⟨rfl, rfl, rfl⟩
    rfl

def sampleValue : Json := .obj [("summary", .str "say \"done\""), ("files", .arr [.num "2"])]

theorem canonicalJson_identifies_sample :
    canonicalJson sampleValue = canonicalJson (.obj [("files", .arr [.num "2"]), ("summary", .str "say \"done\"")]) ∧
      ∃ read, fromStr some (canonicalJson sampleValue).toList = some read ∧ SameUpToOrder sampleValue read := by
  have identified := @canonicalJson_identifies sampleValue
    (.obj [("files", .arr [.num "2"]), ("summary", .str "say \"done\"")])
    (by simp [sampleValue, IsValue, Mcp.IsValueFields, Mcp.IsValueItems, Text.isNumberChar])
    (by simp [IsValue, Mcp.IsValueFields, Mcp.IsValueItems, Text.isNumberChar]) some
  exact ⟨identified.1.mpr (.single (.here (.swap _ _ []))), identified.2.1 (by decide) fun _ _ => rfl⟩

/-- `count` arrays around `null`. -/
def nested : Nat → Json
  | 0 => .null
  | count + 1 => .arr [nested count]

theorem nesting_nested (count : Nat) : nesting (nested count) = count := by
  induction count with
  | zero => rfl
  | succ count ih => rw [nested, nesting, nestingItems, nestingItems, ih, Nat.max_zero]

theorem isValue_nested (count : Nat) : IsValue (nested count) := by
  induction count with
  | zero => trivial
  | succ count ih => exact ⟨ih, trivial⟩

theorem fromStr_nested {count : Nat} (deep : recursionLimit < count) :
    fromStr reads (canonicalJson (nested count)).toList = none := by
  refine Option.not_isSome_iff_eq_none.mp fun read => ?_
  have shallow := ((fromStr_canonicalJson_isSome_iff (isValue_nested count)).mp read).1
  rw [nesting_nested] at shallow
  exact absurd deep shallow.not_gt

/-- Even where every number comes back as it is printed, 128 arrays do not. -/
theorem deepValue_is_not_read_back :
    IsValue (nested 128) ∧ fromStr some (canonicalJson (nested 128)).toList = none :=
  ⟨isValue_nested 128, fromStr_nested (by decide)⟩

end Atlas.Session
