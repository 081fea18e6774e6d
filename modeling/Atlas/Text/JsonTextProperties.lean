import Atlas.Text.JsonText
import Mathlib.Data.List.Chain

/-! The parser reads what is printed, and spends a character on each character it reads. -/
namespace Atlas.Text
open List Option
open Core (Json)

variable {c : Char} {value : Json} {rest space token : List Char}

theorem hexValue_hexDigit : ∀ value < 16, hexValue (hexDigit value) = some value := by decide
private theorem toNat_eq {value : Nat} (same : c.toNat = value) :
    c = Char.ofNat value := by rw [← same, Char.ofNat_toNat]

theorem parseString_letter {name : Char} (short : name ≠ 'u') (means : unescape name = some c)
    (rest : List Char) : parseString ('\\' :: name :: rest) = (parseString rest).map fun parsed => (c :: parsed.1, parsed.2) := by
  rw [parseString.eq_3 _ _ (by intro a b c d rest same; exact absurd same short), means]
  cases parseString rest <;> rfl

private theorem parseString_plain (quote : c ≠ '"') (backslash : c ≠ '\\') (printed : ¬ c.toNat < 0x20)
    (rest : List Char) :
    parseString (c :: rest) = (parseString rest).map fun parsed => (c :: parsed.1, parsed.2) := by
  rw [parseString.eq_4 _ _ quote (by intros; contradiction) (by intros; contradiction), if_neg printed]
  cases parseString rest <;> rfl

private theorem parseString_control (control : c.toNat < 0x20) (rest : List Char) :
    parseString ('\\' :: 'u' :: '0' :: '0' :: hexDigit (c.toNat / 16) :: hexDigit c.toNat :: rest) =
      (parseString rest).map fun parsed => (c :: parsed.1, parsed.2) := by
  have zero : hexValue '0' = some 0 := by decide
  have high := hexValue_hexDigit (c.toNat / 16) (by omega)
  have low : hexValue (hexDigit c.toNat) = some (c.toNat % 16) := by
    have reduced := hexValue_hexDigit (c.toNat % 16) (by omega)
    unfold hexDigit at reduced ⊢
    rw [Nat.mod_mod] at reduced
    exact reduced
  have decoded : unescapeHex '0' '0' (hexDigit (c.toNat / 16)) (hexDigit c.toNat) = some c := by
    unfold unescapeHex
    rw [zero, high, low]
    simp only [bind_eq_bind, bind_some]
    rw [show (((0 * 16 + 0) * 16 + c.toNat / 16) * 16 + c.toNat % 16) = c.toNat by omega,
      Char.ofNat_toNat]
  rw [parseString, decoded]
  cases parseString rest <;> rfl

private theorem parseString_escape (c : Char) (rest : List Char) :
    parseString (escape c ++ rest) = (parseString rest).map fun parsed =>
      (c :: parsed.1, parsed.2) := by
  unfold escape
  split
  · rename_i quote
    subst quote
    exact parseString_letter (by decide) rfl rest
  split
  · rename_i backslash
    subst backslash
    exact parseString_letter (by decide) rfl rest
  iterate 5
    split
    · rename_i code
      obtain rfl := toNat_eq code
      exact parseString_letter (by decide) rfl rest
  split
  · rename_i control
    exact parseString_control control rest
  · rename_i quote backslash _ _ _ _ _ printed
    exact parseString_plain quote backslash printed rest

theorem parseString_quoted (text rest : List Char) :
    parseString (text.flatMap escape ++ '"' :: rest) = some (text, rest) := by
  induction text with
  | nil => rfl
  | cons c text ih => rw [flatMap_cons, append_assoc, parseString_escape, ih, map_some]

mutual

def WellFormed : Json → Prop
  | .num text => text.toList ≠ [] ∧ text.toList.all isNumberChar = true
  | .arr items => WellFormedItems items
  | .obj fields => (fields.map Prod.fst).Pairwise (· < ·) ∧ WellFormedFields fields
  | _ => True

def WellFormedItems : List Json → Prop
  | [] => True
  | item :: rest => WellFormed item ∧ WellFormedItems rest

def WellFormedFields : List (String × Json) → Prop
  | [] => True
  | (_, value) :: rest => WellFormed value ∧ WellFormedFields rest

end

mutual

def Numeric : Json → Prop
  | .num text => text.toList ≠ [] ∧ text.toList.all isNumberChar = true
  | .arr items => NumericItems items
  | .obj fields => NumericFields fields
  | _ => True

def NumericItems : List Json → Prop
  | [] => True
  | item :: rest => Numeric item ∧ NumericItems rest

def NumericFields : List (String × Json) → Prop
  | [] => True
  | (_, value) :: rest => Numeric value ∧ NumericFields rest

end

mutual

def collected : Json → Json
  | .arr items => .arr (collectedItems items)
  | .obj fields => .obj (collectFields (collectedFields fields))
  | .null => .null
  | .bool value => .bool value
  | .num text => .num text
  | .str text => .str text

def collectedItems : List Json → List Json
  | [] => []
  | item :: rest => collected item :: collectedItems rest

def collectedFields : List (String × Json) → List (String × Json)
  | [] => []
  | (key, value) :: rest => (key, collected value) :: collectedFields rest

end

mutual

def size : Json → Nat
  | .arr (item :: rest) => 1 + size item + sizeItems rest
  | .obj ((_, value) :: rest) => 2 + size value + sizeFields rest
  | _ => 1

def sizeItems : List Json → Nat
  | [] => 1
  | item :: rest => 1 + size item + sizeItems rest

def sizeFields : List (String × Json) → Nat
  | [] => 1
  | (_, value) :: rest => 2 + size value + sizeFields rest

end

def Stops (rest : List Char) : Prop := ∀ c, rest.head? = some c → isNumberChar c = false

theorem stops_cons (other : isNumberChar c = false) : Stops (c :: rest) := by
  intro first same
  cases same
  exact other

section
variable (spaces : space.all isSpace = true)
include spaces

theorem stops_space (other : isNumberChar c = false) : Stops (space ++ c :: rest) := by
  cases space with
  | nil => exact stops_cons other
  | cons first space =>
    apply stops_cons
    have isSpace := all_eq_true.mp spaces first (.head _)
    unfold Text.isSpace at isSpace
    simp only [Bool.or_eq_true, beq_iff_eq] at isSpace
    rcases isSpace with ((rfl | rfl) | rfl) | rfl <;> decide

theorem dropWhile_space : (space ++ rest).dropWhile isSpace = rest.dropWhile isSpace :=
  dropWhile_append_of_pos (all_eq_true.mp spaces)

theorem parseValue_space (fuel : Nat) : parseValue fuel (space ++ rest) = parseValue fuel rest := by
  cases fuel with
  | zero => rfl
  | succ fuel =>
    unfold parseValue
    rw [dropWhile_space spaces]

theorem parseField_space (fuel : Nat) : parseField fuel (space ++ rest) = parseField fuel rest := by
  cases fuel with
  | zero => rfl
  | succ fuel =>
    unfold parseField
    rw [dropWhile_space spaces]

end

variable {layout : Layout}

private theorem print_head {value : Json} (numeric : Numeric value) (depth : Nat) :
    ∃ c rest, print layout depth value = c :: rest ∧ isSpace c = false ∧ c ≠ ']' := by
  cases value with
  | null => exact ⟨_, _, rfl, by decide, by decide⟩
  | bool value =>
    cases value with
    | true | false => exact ⟨_, _, rfl, by decide, by decide⟩
  | num text =>
    obtain ⟨spelled, numeric⟩ := numeric
    cases chars : text.toList with
    | nil => exact absurd chars spelled
    | cons c rest =>
      rw [chars] at numeric
      have first := all_eq_true.mp numeric c (.head _)
      refine ⟨c, rest, chars, ?_, ?_⟩
      · cases spaced : isSpace c with
        | false => rfl
        | true =>
          unfold isSpace at spaced
          simp only [Bool.or_eq_true, beq_iff_eq] at spaced
          rcases spaced with ((rfl | rfl) | rfl) | rfl <;> exact absurd first (by decide)
      · rintro rfl
        exact absurd first (by decide)
  | str text => exact ⟨_, _, rfl, by decide, by decide⟩
  | arr items =>
    cases items with
    | nil | cons item rest => exact ⟨_, _, rfl, by decide, by decide⟩
  | obj fields =>
    cases fields with
    | nil | cons field rest => exact ⟨_, _, rfl, by decide, by decide⟩

theorem dropWhile_isSpace_cons (printed : isSpace c = false) :
    (c :: rest).dropWhile isSpace = c :: rest := dropWhile_cons_of_neg (by simp [printed])

private theorem insertField_append {collected : List (String × Json)}
    {key : String} (below : ∀ field ∈ collected, field.1 < key) :
    Json.insertField key value collected = collected ++ [(key, value)] := by
  induction collected with
  | nil => rfl
  | cons field rest ih =>
    have less := below field (.head _)
    unfold Json.insertField
    rw [if_neg (ne_of_lt less), if_neg (lt_asymm less), ih fun later mem => below later (mem_cons_of_mem _ mem)]
    rfl

private theorem collectFields_ascending {fields : List (String × Json)}
    (sorted : (fields.map Prod.fst).Pairwise (· < ·)) : collectFields fields = fields := by
  have collects : ∀ collected, ((collected ++ fields).map Prod.fst).Pairwise (· < ·) →
      fields.foldl (fun collected field => Json.insertField field.1 field.2 collected) collected = collected ++ fields := by
    clear sorted
    induction fields with
    | nil =>
      intro collected _
      exact (append_nil _).symm
    | cons field rest ih =>
      intro collected sorted
      rw [map_append, pairwise_append] at sorted
      have below : ∀ other ∈ collected, other.1 < field.1 := fun other mem =>
        sorted.2.2 other.1 (mem_map_of_mem mem) field.1 (mem_map_of_mem (.head _))
      rw [foldl_cons, insertField_append below, ih]
      · rw [append_assoc]
        rfl
      · rw [append_assoc, map_append, pairwise_append]
        exact sorted
  exact collects [] sorted

mutual

theorem numeric_of_wellFormed : ∀ value : Json, WellFormed value → Numeric value
  | .null, _ => trivial
  | .bool _, _ => trivial
  | .num _, formed => formed
  | .str _, _ => trivial
  | .arr items, formed => numericItems_of_wellFormed items formed
  | .obj fields, formed => numericFields_of_wellFormed fields formed.2

theorem numericItems_of_wellFormed : ∀ items : List Json, WellFormedItems items → NumericItems items
  | [], _ => trivial
  | item :: rest, formed => ⟨numeric_of_wellFormed item formed.1, numericItems_of_wellFormed rest formed.2⟩

theorem numericFields_of_wellFormed :
    ∀ fields : List (String × Json), WellFormedFields fields → NumericFields fields
  | [], _ => trivial
  | (_, value) :: rest, formed => ⟨numeric_of_wellFormed value formed.1, numericFields_of_wellFormed rest formed.2⟩

end

mutual

theorem collected_of_wellFormed : ∀ value : Json, WellFormed value → collected value = value
  | .null, _ => rfl
  | .bool _, _ => rfl
  | .num _, _ => rfl
  | .str _, _ => rfl
  | .arr items, formed => by
    rw [collected, collectedItems_of_wellFormed items formed]
  | .obj fields, formed => by
    rw [collected, collectedFields_of_wellFormed fields formed.2, collectFields_ascending formed.1]

theorem collectedItems_of_wellFormed :
    ∀ items : List Json, WellFormedItems items → collectedItems items = items
  | [], _ => rfl
  | item :: rest, formed => by
    rw [collectedItems, collected_of_wellFormed item formed.1, collectedItems_of_wellFormed rest formed.2]

theorem collectedFields_of_wellFormed :
    ∀ fields : List (String × Json), WellFormedFields fields → collectedFields fields = fields
  | [], _ => rfl
  | (key, value) :: rest, formed => by
    rw [collectedFields, collected_of_wellFormed value formed.1, collectedFields_of_wellFormed rest formed.2]

end

theorem quote_append (text : String) (rest : List Char) :
    quote text ++ rest = '"' :: (text.toList.flatMap escape ++ '"' :: rest) := by
  unfold quote
  rw [cons_append, append_assoc]
  rfl

private theorem takeWhile_number (numeric : token.all isNumberChar = true) (stops : Stops rest) :
    (token ++ rest).takeWhile isNumberChar = token := by
  rw [takeWhile_append_of_pos (all_eq_true.mp numeric)]
  cases rest with
  | nil => exact append_nil _
  | cons c rest =>
    rw [takeWhile_cons_of_neg (by simp [stops c rfl])]
    exact append_nil _

private theorem dropWhile_number (numeric : token.all isNumberChar = true) (stops : Stops rest) :
    (token ++ rest).dropWhile isNumberChar = rest := by
  rw [dropWhile_append_of_pos (all_eq_true.mp numeric)]
  cases rest with
  | nil => rfl
  | cons c rest => exact dropWhile_cons_of_neg (by simp [stops c rfl])

private theorem parseValue_number (spelled : token ≠ [])
    (numeric : token.all isNumberChar = true) (stops : Stops rest) (fuel : Nat) :
    parseValue (fuel + 1) (token ++ rest) = some (.num (String.ofList token), rest) := by
  cases token with
  | nil => exact absurd rfl spelled
  | cons c token =>
    have first := all_eq_true.mp numeric c (.head _)
    have differs : ∀ other, isNumberChar other = false → c ≠ other := by
      rintro other refused rfl
      exact absurd first (by rw [refused]; exact Bool.false_ne_true)
    have printed : isSpace c = false := by
      unfold isSpace
      simp only [Bool.or_eq_false_iff, beq_eq_false_iff_ne]
      exact ⟨⟨⟨differs _ (by decide), differs _ (by decide)⟩, differs _ (by decide)⟩,
        differs _ (by decide)⟩
    unfold parseValue
    rw [cons_append, dropWhile_isSpace_cons printed]
    simp only [differs '"' (by decide), differs '[' (by decide), differs '{' (by decide), first,
      if_false, if_true]
    rw [← cons_append, takeWhile_number numeric stops, dropWhile_number numeric stops]

private theorem parseValue_string (text : String) (rest : List Char) (fuel : Nat) :
    parseValue (fuel + 1) (quote text ++ rest) = some (.str text, rest) := by
  unfold parseValue
  rw [quote_append, dropWhile_isSpace_cons (by decide)]
  simp only [if_true, parseString_quoted, bind_eq_bind, bind_some, String.ofList_toList]

section
variable (layout)

mutual

theorem parseValue_print : ∀ (value : Json) (fuel depth : Nat) (rest : List Char), Numeric value →
    size value ≤ fuel → Stops rest →
      parseValue fuel (print layout depth value ++ rest) = some (collected value, rest)
  | value, 0, _, _, _, enough, _ => by
    cases value with
    | arr items => cases items <;> simp [size] at enough
    | obj fields => cases fields <;> simp [size] at enough
    | _ => simp [size] at enough
  | .null, _ + 1, _, _, _, _, _ => rfl
  | .bool true, _ + 1, _, _, _, _, _ => rfl
  | .bool false, _ + 1, _, _, _, _, _ => rfl
  | .num text, fuel + 1, _, rest, numeric, _, stops => by
    rw [print, parseValue_number numeric.1 numeric.2 stops, String.ofList_toList, collected]
  | .str text, fuel + 1, _, rest, _, _, _ => parseValue_string text rest fuel
  | .arr [], _ + 1, _, _, _, _, _ => rfl
  | .arr (item :: items), fuel + 1, depth, rest, numeric, enough, _ => by
    obtain ⟨itemFormed, itemsFormed⟩ := numeric
    have sizes : 1 + size item + sizeItems items ≤ fuel + 1 := enough
    have closes : Stops (printItems layout (depth + 1) items ++ layout.line depth ++ ']' :: rest) := by
      cases items with
      | nil => exact stops_space (layout.line_space depth) (by decide)
      | cons next items => exact stops_cons (by decide)
    have first := parseValue_print item fuel (depth + 1) _ itemFormed (by omega) closes
    have others := parseItems_print items fuel (depth + 1) depth rest itemsFormed (by omega)
    obtain ⟨c, tail, isHead, printed, notClosed⟩ := @print_head layout item itemFormed (depth + 1)
    have spelled : print layout depth (.arr (item :: items)) ++ rest =
      '[' :: (layout.line (depth + 1) ++ (print layout (depth + 1) item ++
          (printItems layout (depth + 1) items ++ layout.line depth ++ ']' :: rest))) := by
      rw [print]
      simp only [cons_append, append_assoc, nil_append]
    have opened : ((layout.line (depth + 1) ++ (print layout (depth + 1) item ++ (printItems layout
      (depth + 1) items ++ layout.line depth ++ ']' :: rest))).dropWhile isSpace).head? =
      some c := by
      rw [dropWhile_space (layout.line_space _), isHead, cons_append, dropWhile_isSpace_cons printed, List.head?_cons]
    unfold parseValue
    rw [spelled, dropWhile_isSpace_cons (by decide)]
    simp only [show ¬ ('[' = '"') by decide, if_false, if_true, opened, Option.some.injEq, notClosed]
    rw [parseValue_space (layout.line_space _), first]
    simp only [bind_eq_bind, bind_some]
    rw [others]
    rfl
  | .obj [], _ + 1, _, _, _, _, _ => rfl
  | .obj ((key, value) :: fields), fuel + 1, depth, rest, numeric, enough, _ => by
    obtain ⟨valueFormed, fieldsFormed⟩ := numeric
    have sizes : 2 + size value + sizeFields fields ≤ fuel + 1 := enough
    have first := parseField_print key value fuel (depth + 1)
      (printFields layout (depth + 1) fields ++ layout.line depth ++ '}' :: rest) valueFormed (by omega) (by
        cases fields with
        | nil => exact stops_space (layout.line_space depth) (by decide)
        | cons next fields => exact stops_cons (by decide))
    have others := parseFields_print fields fuel (depth + 1) depth rest fieldsFormed (by omega)
    have spelled : print layout depth (.obj ((key, value) :: fields)) ++ rest =
        '{' :: (layout.line (depth + 1) ++ (quote key ++ ':' :: (layout.gap ++
          (print layout (depth + 1) value ++ (printFields layout (depth + 1) fields ++
            layout.line depth ++ '}' :: rest))))) := by
      rw [print]
      simp only [cons_append, append_assoc, nil_append]
    have opened : ((layout.line (depth + 1) ++ (quote key ++ ':' ::
      (layout.gap ++ (print layout (depth + 1) value ++ (printFields layout (depth + 1) fields ++
            layout.line depth ++ '}' :: rest))))).dropWhile isSpace).head? = some '"' := by
      rw [dropWhile_space (layout.line_space _), quote_append, dropWhile_isSpace_cons (by decide),
        List.head?_cons]
    unfold parseValue
    rw [spelled, dropWhile_isSpace_cons (by decide)]
    simp only [show ¬ ('{' = '"') by decide, show ¬ ('{' = '[') by decide, if_false, if_true, opened,
      Option.some.injEq, show ¬ ('"' = '}') by decide]
    rw [parseField_space (layout.line_space _), first]
    simp only [bind_eq_bind, bind_some]
    rw [others]
    simp only [bind_some, collected, collectedFields]

theorem parseItems_print : ∀ (items : List Json) (fuel depth outer : Nat) (rest : List Char),
    NumericItems items → sizeItems items ≤ fuel →
      parseItems fuel (printItems layout depth items ++ layout.line outer ++ ']' :: rest) = some (collectedItems items, rest)
  | [], 0, _, _, _, _, enough => by simp [sizeItems] at enough
  | _ :: _, 0, _, _, _, _, enough => by simp [sizeItems] at enough
  | [], fuel + 1, _, outer, rest, _, _ => by
    unfold parseItems
    rw [printItems, nil_append, dropWhile_space (layout.line_space _), dropWhile_isSpace_cons (by decide)]
    rfl
  | item :: items, fuel + 1, depth, outer, rest, numeric, enough => by
    obtain ⟨itemFormed, itemsFormed⟩ := numeric
    have sizes : 1 + size item + sizeItems items ≤ fuel + 1 := enough
    have first := parseValue_print item fuel depth
      (printItems layout depth items ++ layout.line outer ++ ']' :: rest) itemFormed (by omega) (by
        cases items with
        | nil => exact stops_space (layout.line_space outer) (by decide)
        | cons next items => exact stops_cons (by decide))
    have others := parseItems_print items fuel depth outer rest itemsFormed (by omega)
    have spelled : printItems layout depth (item :: items) ++ layout.line outer ++ ']' :: rest =
        ',' :: (layout.line depth ++ (print layout depth item ++
          (printItems layout depth items ++ layout.line outer ++ ']' :: rest))) := by
      rw [printItems]
      simp only [cons_append, append_assoc]
    unfold parseItems
    rw [spelled, dropWhile_isSpace_cons (by decide)]
    simp only [show ¬ (',' = ']') by decide, if_false, if_true]
    rw [parseValue_space (layout.line_space _), first]
    simp only [bind_eq_bind, bind_some]
    rw [others]
    rfl

theorem parseField_print : ∀ (key : String) (value : Json) (fuel depth : Nat) (rest : List Char),
    Numeric value → 1 + size value ≤ fuel → Stops rest →
      parseField fuel (quote key ++ ':' :: (layout.gap ++ (print layout depth value ++ rest))) =
        some ((key, collected value), rest)
  | _, _, 0, _, _, _, enough, _ => by omega
  | key, value, fuel + 1, depth, rest, numeric, enough, stops => by
    have read := parseValue_print value fuel depth rest numeric (by omega) stops
    unfold parseField
    rw [quote_append, dropWhile_isSpace_cons (by decide)]
    simp only [if_true, parseString_quoted, bind_eq_bind, bind_some]
    rw [dropWhile_isSpace_cons (by decide)]
    simp only [if_true]
    rw [parseValue_space layout.gap_space, read]
    simp only [bind_some, String.ofList_toList]

theorem parseFields_print :
    ∀ (fields : List (String × Json)) (fuel depth outer : Nat) (rest : List Char),
      NumericFields fields → sizeFields fields ≤ fuel →
      parseFields fuel (printFields layout depth fields ++ layout.line outer ++ '}' :: rest) =
        some (collectedFields fields, rest)
  | [], 0, _, _, _, _, enough => by simp [sizeFields] at enough
  | (_, _) :: _, 0, _, _, _, _, enough => by simp [sizeFields] at enough
  | [], fuel + 1, _, outer, rest, _, _ => by
    unfold parseFields
    rw [printFields, nil_append, dropWhile_space (layout.line_space _), dropWhile_isSpace_cons (by decide)]
    rfl
  | (key, value) :: fields, fuel + 1, depth, outer, rest, numeric, enough => by
    obtain ⟨valueFormed, fieldsFormed⟩ := numeric
    have sizes : 2 + size value + sizeFields fields ≤ fuel + 1 := enough
    have first := parseField_print key value fuel depth
      (printFields layout depth fields ++ layout.line outer ++ '}' :: rest) valueFormed (by omega) (by
        cases fields with
        | nil => exact stops_space (layout.line_space outer) (by decide)
        | cons next fields => exact stops_cons (by decide))
    have others := parseFields_print fields fuel depth outer rest fieldsFormed (by omega)
    have spelled : printFields layout depth ((key, value) :: fields) ++ layout.line outer ++
        '}' :: rest = ',' :: (layout.line depth ++ (quote key ++ ':' :: (layout.gap ++
          (print layout depth value ++ (printFields layout depth fields ++ layout.line outer ++
            '}' :: rest))))) := by
      rw [printFields]
      simp only [cons_append, append_assoc]
    unfold parseFields
    rw [spelled, dropWhile_isSpace_cons (by decide)]
    simp only [show ¬ (',' = '}') by decide, if_false, if_true]
    rw [parseField_space (layout.line_space _), first]
    simp only [bind_eq_bind, bind_some]
    rw [others]
    rfl

end

mutual

theorem size_le_length :
    ∀ (value : Json) (depth : Nat), Numeric value → size value ≤ (print layout depth value).length
  | .null, _, _ => by simp [size, print]
  | .bool true, _, _ => by simp [size, print]
  | .bool false, _, _ => by simp [size, print]
  | .num text, _, numeric => List.length_pos_iff.mpr numeric.1
  | .str text, _, _ => by simp [size, print, quote]
  | .arr [], _, _ => by simp [size, print]
  | .arr (item :: items), depth, numeric => by
    have first := size_le_length item (depth + 1) numeric.1
    have others := sizeItems_le_length items (depth + 1) numeric.2
    simp only [size, print, length_cons, length_append, length_nil]
    omega
  | .obj [], _, _ => by simp [size, print]
  | .obj ((key, value) :: fields), depth, numeric => by
    have first := size_le_length value (depth + 1) numeric.1
    have others := sizeFields_le_length fields (depth + 1) numeric.2
    simp only [size, print, length_cons, length_append, length_nil]
    omega

theorem sizeItems_le_length : ∀ (items : List Json) (depth : Nat), NumericItems items →
    sizeItems items ≤ (printItems layout depth items).length + 1
  | [], _, _ => by simp [sizeItems]
  | item :: items, depth, numeric => by
    have first := size_le_length item depth numeric.1
    have others := sizeItems_le_length items depth numeric.2
    simp only [sizeItems, printItems, length_cons, length_append]
    omega

theorem sizeFields_le_length :
    ∀ (fields : List (String × Json)) (depth : Nat), NumericFields fields →
      sizeFields fields ≤ (printFields layout depth fields).length + 1
  | [], _, _ => by simp [sizeFields]
  | (key, value) :: fields, depth, numeric => by
    have first := size_le_length value depth numeric.1
    have others := sizeFields_le_length fields depth numeric.2
    simp only [sizeFields, printFields, length_cons, length_append]
    omega

end

theorem parse_print_collected (depth : Nat) (numeric : Numeric value) :
    parse (print layout depth value) = some (collected value) := by
  have fits := size_le_length layout value depth numeric
  have read := parseValue_print layout value ((print layout depth value).length + 1) depth []
    numeric (by omega) (by intro c same; cases same)
  rw [append_nil] at read
  unfold parse
  rw [read]
  rfl

theorem parse_print (depth : Nat) (wellFormed : WellFormed value) :
    parse (print layout depth value) = some value := by
  rw [parse_print_collected layout depth (numeric_of_wellFormed value wellFormed), collected_of_wellFormed value wellFormed]

theorem print_injective (depth : Nat)
    {left right : Json} (leftFormed : WellFormed left) (rightFormed : WellFormed right)
    (same : print layout depth left = print layout depth right) : left = right := by
  have read := parse_print layout depth leftFormed
  rw [same, parse_print layout depth rightFormed] at read
  exact (Option.some.inj read).symm

end

/-! ## The length of a text -/

mutual

def spelled : Json → Nat
  | .str text => text.length
  | .arr items => spelledItems items
  | .obj fields => spelledFields fields
  | _ => 0

def spelledItems : List Json → Nat
  | [] => 0
  | item :: rest => spelled item + spelledItems rest

def spelledFields : List (String × Json) → Nat
  | [] => 0
  | (key, value) :: rest => key.length + spelled value + spelledFields rest

end

theorem parseString_length {text decoded : List Char}
    (read : parseString text = some (decoded, rest)) :
    decoded.length + rest.length ≤ text.length := by
  fun_induction parseString text generalizing decoded rest with
  | case1 rest' =>
    cases read
    simp
  | case2 a b c d rest' ih | case3 c rest' _ ih =>
    simp only [bind_eq_bind, bind_eq_some_iff] at read
    obtain ⟨_, _, ⟨text', after⟩, isRead, same⟩ := read
    cases same
    have shorter := ih isRead
    simp only [length_cons]
    omega
  | case4 => cases read
  | case5 c rest' _ _ _ _ ih =>
    simp only [bind_eq_bind, bind_eq_some_iff] at read
    obtain ⟨⟨text', after⟩, isRead, same⟩ := read
    cases same
    have shorter := ih isRead
    simp only [length_cons]
    omega
  | case6 => cases read

theorem length_of_dropWhile {text : List Char}
    {p : Char → Bool} (reached : text.dropWhile p = c :: rest) : rest.length < text.length := by
  have shorter := (dropWhile_sublist (l := text) p).length_le
  rw [reached] at shorter
  exact shorter

private theorem spelledFields_insertField (key : String) (value : Json) (fields : List (String × Json)) :
    spelledFields (Json.insertField key value fields) ≤ key.length + spelled value + spelledFields fields := by
  induction fields with
  | nil => exact le_refl _
  | cons field rest ih =>
    unfold Json.insertField
    split
    · simp only [spelledFields]
      omega
    · split
      · exact le_refl _
      · simp only [spelledFields]
        omega

private theorem spelledFields_collectFields (fields : List (String × Json)) :
    spelledFields (collectFields fields) ≤ spelledFields fields := by
  have collects : ∀ collected, spelledFields (fields.foldl (fun collected field =>
      Json.insertField field.1 field.2 collected) collected) ≤ spelledFields collected + spelledFields fields := by
    induction fields with
    | nil =>
      intro collected
      exact Nat.le_add_right _ _
    | cons field rest ih =>
      intro collected
      have inserted := spelledFields_insertField field.1 field.2 collected
      have others := ih (Json.insertField field.1 field.2 collected)
      simp only [foldl_cons, spelledFields]
      omega
  exact (collects []).trans (Nat.zero_add _).le

private theorem parseWord_length {text : List Char} (read : parseWord text = some (value, rest)) :
    spelled value + rest.length ≤ text.length := by
  unfold parseWord at read
  split at read
  · cases read
    simp only [spelled, length_cons]
    omega
  · cases read
    simp only [spelled, length_cons]
    omega
  · cases read
    simp only [spelled, length_cons]
    omega
  · cases read

structure Spends (fuel : Nat) : Prop where
  value : ∀ {text value rest}, parseValue fuel text = some (value, rest) → spelled value + rest.length ≤ text.length
  items : ∀ {text items rest}, parseItems fuel text = some (items, rest) → spelledItems items + rest.length ≤ text.length
  field : ∀ {text field rest}, parseField fuel text = some (field, rest) →
    field.1.length + spelled field.2 + rest.length ≤ text.length
  fields : ∀ {text fields rest}, parseFields fuel text = some (fields, rest) → spelledFields fields + rest.length ≤ text.length

theorem Spends.value_succ {fuel : Nat} (spends : Spends fuel)
    {text : List Char} (read : parseValue (fuel + 1) text = some (value, rest)) :
    spelled value + rest.length ≤ text.length := by
  unfold parseValue at read
  split at read
  · cases read
  · rename_i c after reached
    have shorter := length_of_dropWhile reached
    split at read
    · simp only [bind_eq_bind, bind_eq_some_iff] at read
      obtain ⟨⟨decoded, left⟩, isString, same⟩ := read
      cases same
      have string := parseString_length isString
      simp only [spelled, String.length_ofList]
      omega
    split at read
    · split at read
      · cases read
        have dropped := (dropWhile_sublist (l := after) isSpace).length_le
        simp only [spelled, spelledItems, length_tail]
        omega
      · simp only [bind_eq_bind, bind_eq_some_iff] at read
        obtain ⟨⟨item, left⟩, isItem, ⟨items, last⟩, areItems, same⟩ := read
        cases same
        have first := spends.value isItem
        have others := spends.items areItems
        dsimp only at others
        simp only [spelled, spelledItems]
        omega
    split at read
    · split at read
      · cases read
        have dropped := (dropWhile_sublist (l := after) isSpace).length_le
        simp only [spelled, spelledFields, length_tail]
        omega
      · simp only [bind_eq_bind, bind_eq_some_iff] at read
        obtain ⟨⟨field, left⟩, isField, ⟨fields, last⟩, areFields, same⟩ := read
        cases same
        have first := spends.field isField
        have others := spends.fields areFields
        dsimp only at others
        have collected := spelledFields_collectFields (field :: fields)
        simp only [spelled]
        simp only [spelledFields] at collected
        omega
    split at read
    · cases read
      have dropped := (dropWhile_sublist (l := (c :: after)) isNumberChar).length_le
      simp only [spelled, length_cons] at dropped ⊢
      omega
    · have word := parseWord_length read
      rw [length_cons] at word
      omega

theorem Spends.all (fuel : Nat) : Spends fuel := by
  induction fuel with
  | zero => constructor <;> intro text parsed rest read <;> cases read
  | succ fuel spends =>
    refine ⟨spends.value_succ, ?_, ?_, ?_⟩
    · intro text items rest read
      unfold parseItems at read
      split at read
      · cases read
      · rename_i c after reached
        have shorter := length_of_dropWhile reached
        split at read
        · cases read
          simp only [spelledItems]
          omega
        split at read
        · simp only [bind_eq_bind, bind_eq_some_iff] at read
          obtain ⟨⟨item, left⟩, isItem, ⟨others, last⟩, areItems, same⟩ := read
          cases same
          have first := spends.value isItem
          have later := spends.items areItems
          dsimp only at later
          simp only [spelledItems]
          omega
        · cases read
    · intro text field rest read
      unfold parseField at read
      split at read
      · cases read
      · rename_i c after reached
        have shorter := length_of_dropWhile reached
        split at read
        · simp only [bind_eq_bind, bind_eq_some_iff] at read
          obtain ⟨⟨key, left⟩, isKey, read⟩ := read
          have string := parseString_length isKey
          split at read
          · cases read
          · rename_i colon behind colonReached
            have behindShorter := length_of_dropWhile colonReached
            split at read
            · simp only [bind_eq_some_iff] at read
              obtain ⟨⟨value, last⟩, isValue, same⟩ := read
              cases same
              have spent := spends.value isValue
              dsimp only at behindShorter spent
              simp only [String.length_ofList]
              omega
            · cases read
        · cases read
    · intro text fields rest read
      unfold parseFields at read
      split at read
      · cases read
      · rename_i c after reached
        have shorter := length_of_dropWhile reached
        split at read
        · cases read
          simp only [spelledFields]
          omega
        split at read
        · simp only [bind_eq_bind, bind_eq_some_iff] at read
          obtain ⟨⟨field, left⟩, isField, ⟨others, last⟩, areFields, same⟩ := read
          cases same
          have first := spends.field isField
          have later := spends.fields areFields
          dsimp only at later
          simp only [spelledFields]
          omega
        · cases read

theorem spelled_le_of_parse {text : List Char} (read : parse text = some value) :
    spelled value ≤ text.length := by
  unfold parse at read
  split at read
  · rename_i parsed rest isParsed
    split at read
    · cases read
      have spent := (Spends.all _).value isParsed
      omega
    · cases read
  · cases read

/-! ## The lines of a pretty text -/

def NoLineStarts (mark : Char) (text : List Char) : Prop :=
  text.head? ≠ some mark ∧ text.IsChain fun before behind => before = '\n' → behind ≠ mark

section
variable {mark : Char} {left right text : List Char}

theorem NoLineStarts.nil : NoLineStarts mark [] := ⟨by simp, isChain_nil⟩

theorem NoLineStarts.append (leftClear : NoLineStarts mark left)
    (rightClear : NoLineStarts mark right) : NoLineStarts mark (left ++ right) := by
  constructor
  · cases left with
    | nil => exact rightClear.1
    | cons c left => exact leftClear.1
  · refine List.isChain_append.mpr ⟨leftClear.2, rightClear.2, ?_⟩
    intro before _ behind isHead _ same
    rw [mem_def, same] at isHead
    exact rightClear.1 isHead

theorem NoLineStarts.of_line (first : left.head? ≠ some mark) (single : '\n' ∉ left) :
    NoLineStarts mark left := by
  refine ⟨first, ?_⟩
  clear first
  induction left with
  | nil => exact isChain_nil
  | cons c rest ih =>
    rw [mem_cons, not_or] at single
    rw [isChain_cons]
    exact ⟨fun _ _ feed => absurd feed.symm single.1, ih single.2⟩

theorem NoLineStarts.no_pair (clear : NoLineStarts mark text) : ¬ ['\n', mark] <:+: text := by
  rintro ⟨before, behind, rfl⟩
  have chain := clear.2
  rw [append_assoc, isChain_append] at chain
  exact (List.isChain_cons_cons.mp chain.2.1).1 rfl rfl

private theorem newline_not_mem_escape (c : Char) : '\n' ∉ escape c := by
  have digits : ∀ value, hexDigit value ≠ '\n' := by
    intro value
    have bound : value % 16 < 16 := Nat.mod_lt _ (by decide)
    unfold hexDigit
    generalize value % 16 = digit at bound
    revert digit
    decide
  unfold escape
  split
  · decide
  split
  · decide
  split
  · decide
  split
  · decide
  split
  · decide
  split
  · decide
  split
  · decide
  split
  · intro mem
    simp only [mem_cons, not_mem_nil, or_false, (digits _).symm] at mem
    rcases mem with same | same | same | same | same | same <;> exact absurd same (by decide)
  · next feed _ _ _ =>
      intro mem
      rw [mem_singleton] at mem
      rw [← mem] at feed
      exact feed rfl

private theorem newline_not_mem_quote (text : String) : '\n' ∉ quote text := by
  intro mem
  rcases List.mem_cons.mp mem with same | inside
  · exact absurd same (by decide)
  · rcases List.mem_append.mp inside with escaped | last
    · obtain ⟨c, -, inEscape⟩ := List.mem_flatMap.mp escaped
      exact newline_not_mem_escape c inEscape
    · exact absurd (List.mem_singleton.mp last) (by decide)

structure StartsNoPart (mark : Char) : Prop where
  notSpace : isSpace mark = false
  notNumber : isNumberChar mark = false
  notLetter : mark ∉ ['n', 't', 'f', '"', '[', ']', '{', '}', ',', ':']

section
variable (other : StartsNoPart mark)
include other

theorem StartsNoPart.ne
    (starts : c ∈ ['n', 't', 'f', '"', '[', ']', '{', '}', ',', ':']) : c ≠ mark := by
  rintro rfl
  exact other.notLetter starts

theorem NoLineStarts.cons {c : Char} {text : List Char}
    (starts : c ∈ ['n', 't', 'f', '"', '[', ']', '{', '}', ',', ':']) (clear : NoLineStarts mark text) :
    NoLineStarts mark (c :: text) := by
  have first : NoLineStarts mark [c] := by
    refine NoLineStarts.of_line ?_ ?_
    · rw [head?_cons]
      exact fun same => other.ne starts (Option.some.inj same)
    · rw [mem_singleton]
      rintro rfl
      exact absurd starts (by decide)
  exact first.append clear

theorem noLineStarts_spaces (number : Nat) : NoLineStarts mark (replicate number ' ') := by
  refine NoLineStarts.of_line ?_ fun mem => absurd (eq_of_mem_replicate mem) (by decide)
  intro first
  have mem := mem_of_mem_head? first
  have same := eq_of_mem_replicate mem
  have space := other.notSpace
  rw [same] at space
  cases space

theorem noLineStarts_line (depth : Nat) : NoLineStarts mark (pretty.line depth) := by
  have spaces := noLineStarts_spaces other (2 * depth)
  constructor
  · intro first
    have space := other.notSpace
    rw [← Option.some.inj first] at space
    cases space
  · refine isChain_cons.mpr ⟨?_, spaces.2⟩
    intro behind isHead _ same
    rw [same] at isHead
    exact spaces.1 isHead

theorem noLineStarts_quote (text : String) : NoLineStarts mark (quote text) := NoLineStarts.of_line
    (fun first => other.ne (by decide) (Option.some.inj first)) (newline_not_mem_quote text)

theorem noLineStarts_field (depth : Nat) (key : String) (clear : NoLineStarts mark text) :
    NoLineStarts mark (pretty.line depth ++ quote key ++ ':' :: pretty.gap ++ text) := by
  have named := (noLineStarts_line other depth).append (noLineStarts_quote other key)
  have gap : NoLineStarts mark (':' :: pretty.gap) := (noLineStarts_spaces other 1).cons other (by decide)
  exact (named.append gap).append clear

theorem noLineStarts_word {word : List Char}
    (starts : c ∈ ['n', 't', 'f', '"', '[', ']', '{', '}', ',', ':']) (single : '\n' ∉ c :: word) :
    NoLineStarts mark (c :: word) :=
  NoLineStarts.of_line (fun first => other.ne starts (Option.some.inj first)) single

end

mutual

theorem noLineStarts_print (other : StartsNoPart mark) :
    ∀ (depth : Nat) (value : Json), Numeric value → NoLineStarts mark (print pretty depth value)
  | _, .null, _ => by
    rw [print]
    exact noLineStarts_word other (by decide) (by decide)
  | _, .bool true, _ => by
    rw [print]
    exact noLineStarts_word other (by decide) (by decide)
  | _, .bool false, _ => by
    rw [print]
    exact noLineStarts_word other (by decide) (by decide)
  | _, .num text, numeric => by
    have chars := all_eq_true.mp numeric.2
    refine NoLineStarts.of_line ?_ fun mem => absurd (chars _ mem) (by decide)
    intro first
    have number := chars _ (mem_of_mem_head? first)
    rw [other.notNumber] at number
    cases number
  | _, .str text, _ => noLineStarts_quote other text
  | _, .arr [], _ => (NoLineStarts.nil.cons other (by decide)).cons other (by decide)
  | depth, .arr (item :: rest), numeric => by
    have opens := (noLineStarts_line other (depth + 1)).append (noLineStarts_print other (depth + 1) item numeric.1)
    have others := opens.append (noLineStarts_printItems other (depth + 1) rest numeric.2)
    have bracket : NoLineStarts mark [']'] := noLineStarts_word other (by decide) (by decide)
    have closes := (others.append (noLineStarts_line other depth)).append bracket
    rw [print]
    exact closes.cons other (by decide)
  | _, .obj [], _ => (NoLineStarts.nil.cons other (by decide)).cons other (by decide)
  | depth, .obj ((key, value) :: rest), numeric => by
    have opens := noLineStarts_field other (depth + 1) key (noLineStarts_print other (depth + 1) value numeric.1)
    have others := opens.append (noLineStarts_printFields other (depth + 1) rest numeric.2)
    have brace : NoLineStarts mark ['}'] := noLineStarts_word other (by decide) (by decide)
    have closes := (others.append (noLineStarts_line other depth)).append brace
    rw [print]
    exact closes.cons other (by decide)

theorem noLineStarts_printItems (other : StartsNoPart mark) : ∀ (depth : Nat) (items : List Json),
    NumericItems items → NoLineStarts mark (printItems pretty depth items)
  | _, [], _ => NoLineStarts.nil
  | depth, item :: rest, numeric => by
    have opens := (noLineStarts_line other depth).append (noLineStarts_print other depth item numeric.1)
    have others := opens.append (noLineStarts_printItems other depth rest numeric.2)
    rw [printItems]
    exact others.cons other (by decide)

theorem noLineStarts_printFields (other : StartsNoPart mark) :
    ∀ (depth : Nat) (fields : List (String × Json)), NumericFields fields →
      NoLineStarts mark (printFields pretty depth fields)
  | _, [], _ => NoLineStarts.nil
  | depth, (key, value) :: rest, numeric => by
    have opens := noLineStarts_field other depth key (noLineStarts_print other depth value numeric.1)
    have others := opens.append (noLineStarts_printFields other depth rest numeric.2)
    rw [printFields]
    exact others.cons other (by decide)

end
end

end Atlas.Text
