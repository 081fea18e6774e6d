import Atlas.Content.Chunking
import Atlas.Text.JsonText

/-! Redaction of payloads, by the names of their fields and by the look of their strings. -/
namespace Atlas.Hooks
open Core (Json)
open Content (byteLength)

def redacted : String := "[REDACTED]"

structure RedactionRules where
  secretKeyPatterns : List String := ["token", "secret", "password", "passwd", "credential", "api_key", "apikey", "auth",
      "authorization", "private_key", "access_key", "bearer", "refresh_token", "session_token",
      "client_secret"]
  tokenPrefixes : List String := ["bearer ", "sk-", "ghp_", "gho_", "ghs_", "xoxb-", "xoxp-"]
  tokenMinLen : Nat := 16
  hexSecretMinLen : Nat := 32
  base64SecretMinLen : Nat := 40

def isEnvVarKey (key : String) : Bool :=
  decide (2 ≤ byteLength key.toList) && key.toList.all fun c => c.isUpper || c.isDigit || c == '_'
def toAsciiLowercase (text : String) : List Char := text.toList.map Char.toLower
def contains (pattern text : List Char) : Bool := text.tails.any fun rest => pattern.isPrefixOf rest
def isSecretKey (rules : RedactionRules) (key : String) : Bool := rules.secretKeyPatterns.any
    fun pattern => contains (toAsciiLowercase pattern) (toAsciiLowercase key)
def isHidden (rules : RedactionRules) (key : String) : Bool :=
  isEnvVarKey key || isSecretKey rules key
def isHexDigit (c : Char) : Bool :=
  c.isDigit || (decide ('a' ≤ c) && decide (c ≤ 'f')) || (decide ('A' ≤ c) && decide (c ≤ 'F'))
def isBase64Mark (c : Char) : Bool := c == '+' || c == '/' || c == '=' || c == '-' || c == '_'

def looksLikeToken (rules : RedactionRules) (value : String) : Bool :=
  let length := byteLength value.toList
  decide (rules.tokenMinLen ≤ length) && (rules.tokenPrefixes.any
    (fun start => (toAsciiLowercase start).isPrefixOf (toAsciiLowercase value)) ||
      (decide (rules.hexSecretMinLen ≤ length) && value.toList.all isHexDigit) ||
      (decide (rules.base64SecretMinLen ≤ length) && !value.toList.contains ' ' &&
        value.toList.all (fun c => c.isAlphanum || isBase64Mark c) && value.toList.any fun c =>
        c.isDigit || isBase64Mark c))

section
variable (rules : RedactionRules)

mutual

def redactValue : Json → Json
  | .obj fields => .obj (redactMap fields)
  | .arr items => .arr (redactItems items)
  | .str text => .str (if looksLikeToken rules text then redacted else text)
  | .null => .null
  | .bool value => .bool value
  | .num text => .num text

def redactItems : List Json → List Json
  | [] => []
  | item :: rest => redactValue item :: redactItems rest

def redactMap : List (String × Json) → List (String × Json)
  | [] => []
  | (key, value) :: rest => (key, if isHidden rules key then .str redacted else redactValue value) :: redactMap rest

end
end

def redactPayload (payload : Json) : Json := redactValue {} payload

/-! What is read off a hook payload, and what is taken out of it before it is stored. -/

open Core.Json (lookupField)

def nonEmptyTrimmed (text : String) : Option String :=
  let trimmed := Repo.trim text.toList
  if trimmed = [] then none else some (String.ofList trimmed)

def stringValueKeys : List String :=
  ["text", "content", "value", "prompt", "query", "message", "path", "file"]

mutual

def extractStringValue : Json → Option String
  | .str text => nonEmptyTrimmed text
  | .arr items => extractFirstString items
  | .obj fields => stringValueKeys.findSome? fun key =>
    (extractFieldStrings fields).findSome? fun (name, found) => if name = key then found else none
  | _ => none

def extractFirstString : List Json → Option String
  | [] => none
  | item :: rest => (extractStringValue item).or (extractFirstString rest)

def extractFieldStrings : List (String × Json) → List (String × Option String)
  | [] => []
  | (key, value) :: rest => (key, extractStringValue value) :: extractFieldStrings rest

end

section
variable (keys : List String)

mutual

def findFirstStringByKey : Json → Option String
  | .str text => nonEmptyTrimmed text
  | .arr items => findFirstOfItems items
  | .obj fields =>
    (keys.findSome? fun key => (lookupField fields key).bind extractStringValue).or (findFirstOfFields fields)
  | _ => none

def findFirstOfItems : List Json → Option String
  | [] => none
  | item :: rest => (findFirstStringByKey item).or (findFirstOfItems rest)

def findFirstOfFields : List (String × Json) → Option String
  | [] => none
  | (_, value) :: rest => (findFirstStringByKey value).or (findFirstOfFields rest)

end
end

mutual

def collectAllStrings : Json → List String
  | .str text => (nonEmptyTrimmed text).toList
  | .arr items => collectItemStrings items
  | .obj fields => collectFieldStrings fields
  | _ => []

def collectItemStrings : List Json → List String
  | [] => []
  | item :: rest => collectAllStrings item ++ collectItemStrings rest

def collectFieldStrings : List (String × Json) → List String
  | [] => []
  | (_, value) :: rest => collectAllStrings value ++ collectFieldStrings rest

end

section
variable (keys : List String)

mutual

def collectStringsForKeys : Json → List String
  | .arr items => collectForItems items
  | .obj fields =>
    keys.flatMap (fun key => ((lookupField fields key).map collectAllStrings).getD []) ++ collectForFields fields
  | _ => []

def collectForItems : List Json → List String
  | [] => []
  | item :: rest => collectStringsForKeys item ++ collectForItems rest

def collectForFields : List (String × Json) → List String
  | [] => []
  | (_, value) :: rest => collectStringsForKeys value ++ collectForFields rest

end
end

def extractPromptText : Json → Option String :=
  findFirstStringByKey ["prompt", "query", "message", "text", "content", "raw"]

def trimLeft : List Char → List Char
  | '/' :: rest => trimLeft rest
  | ['.'] => []
  | '.' :: '/' :: rest => trimLeft rest
  | text => text

def trimRight (text : List Char) : List Char := (trimLeft text.reverse).reverse
def components (text : List Char) : List (List Char) :=
  (text.splitOn '/').filter fun segment => segment ≠ [] ∧ segment ≠ ['.']

def stripPrefix (root : List (List Char)) (text : List Char) : Option (List Char) :=
  match root with
  | [] => some (trimRight (trimLeft text))
  | segment :: rest =>
    let text := trimLeft text
    if text.takeWhile (· ≠ '/') = segment then stripPrefix rest (text.dropWhile (· ≠ '/')) else none

def trimDotSlash : List Char → List Char
  | '.' :: '/' :: rest => trimDotSlash rest
  | text => text

def trimSlashes (text : List Char) : List Char :=
  ((text.dropWhile (· = '/')).reverse.dropWhile (· = '/')).reverse
def startsWith (start : String) (text : List Char) : Bool := start.toList.isPrefixOf text

def normalizeHookPath (repo candidate : String) : Option String :=
  let trimmed := Repo.trim candidate.toList
  if trimmed = [] ∨ startsWith "http://" trimmed ∨ startsWith "https://" trimmed then none
  else
    let normal? :=
      if trimmed.head? = some '/' then
        if repo.toList.head? = some '/' then stripPrefix (components repo.toList) trimmed else none
      else some (Repo.toForwardSlashes (trimDotSlash trimmed))
    normal?.bind fun normal =>
      let normal := trimSlashes normal
      if normal = [] ∨ startsWith ".atlas/" normal then none else some (String.ofList normal)

def extractChangedFiles (repo : String) (payload : Json) : List String :=
  (((collectStringsForKeys ["files", "paths", "changed_files", "changedFiles", "file", "file_path",
    "filePath", "path", "target_file", "targetPath"] payload).filterMap (normalizeHookPath repo)).dedup).insertionSort (· ≤ ·)

def fileChangedInlineContentKeys : List String := ["after", "before", "content", "contents", "diff",
    "new_content", "old_content", "patch", "raw", "snippet", "text"]

mutual

def stripInlineFileContent : Json → Json
  | .arr items => .arr (stripItems items)
  | .obj fields => .obj (stripFields fields)
  | .null => .null
  | .bool value => .bool value
  | .num text => .num text
  | .str text => .str text

def stripItems : List Json → List Json
  | [] => []
  | item :: rest => stripInlineFileContent item :: stripItems rest

def stripFields : List (String × Json) → List (String × Json)
  | [] => []
  | (key, value) :: rest =>
    if key ∈ fileChangedInlineContentKeys then stripFields rest
    else (key, stripInlineFileContent value) :: stripFields rest

end
end Atlas.Hooks
