import Mathlib.Data.List.Basic

/-! Canonical repo-relative path identity, on a Unix target. Unicode
normalization comes from an external crate and is a parameter. -/
namespace Atlas.Repo

inductive RepoPathError where
  | empty
  | absoluteNotAllowed (path : String)
  | escapesRepoRoot (path : String)
  | trailingSlash (path : String)
  deriving DecidableEq

def RepoPathError.message : RepoPathError → String
  | .empty => "canonical repo path must not be empty"
  | .absoluteNotAllowed path => "repo-relative path '" ++ path ++ "' must not be absolute"
  | .escapesRepoRoot path => "path '" ++ path ++ "' escapes repo root"
  | .trailingSlash path => "path '" ++ path ++ "' must not end with '/'"

def isWhitespace (c : Char) : Bool :=
  let code := c.toNat
  (0x9 ≤ code && code ≤ 0xd) || code == 0x20 || code ==
    0x85 || code == 0xa0 || code == 0x1680 || (0x2000 ≤ code && code ≤ 0x200a) || code == 0x2028 ||
    code == 0x2029 || code == 0x202f || code == 0x205f || code == 0x3000

def trim (text : List Char) : List Char :=
  ((text.dropWhile isWhitespace).reverse.dropWhile isWhitespace).reverse

def splitWhitespace (text : List Char) : List (List Char) :=
  (text.splitOnP isWhitespace).filter (· ≠ [])

section
variable {c : Char} {word rest : List Char}

theorem splitWhitespace_solid (solid : ∀ d ∈ word, isWhitespace d = false) :
    splitWhitespace word = if word = [] then [] else [word] := by
  unfold splitWhitespace
  rw [List.splitOnP_eq_singleton solid, List.filter_cons]
  by_cases empty : word = []
  all_goals simp [empty]

theorem splitWhitespace_word (space : isWhitespace c = true)
    (solid : ∀ d ∈ word, isWhitespace d = false) :
    splitWhitespace (word ++ c :: rest) =
      (if word = [] then [] else [word]) ++ splitWhitespace rest := by
  unfold splitWhitespace
  rw [List.splitOnP_append_cons_of_forall_mem solid c space, List.filter_cons]
  by_cases empty : word = []
  all_goals simp [empty]

end

def toForwardSlashes (text : List Char) : List Char := text.map fun c => if c = '\\' then '/' else c

def pushComponent (slashed : List Char) (parts : List (List Char)) (segment : List Char) :
    Except RepoPathError (List (List Char)) :=
  if segment = [] ∨ segment = ['.'] then .ok parts
  else if segment = ['.', '.'] then
    if parts = [] then .error (.escapesRepoRoot (String.ofList slashed)) else .ok parts.dropLast
  else .ok (parts ++ [segment])

section
variable (nfc : String → String)

def normalizeIdentity (text : List Char) : List Char :=
  (nfc (String.ofList (toForwardSlashes text))).toList

def canonicalizeRelative (raw : String) : Except RepoPathError String :=
  let raw := trim raw.toList
  if raw = [] then .error .empty
  else
    let slashed := normalizeIdentity nfc raw
    if slashed.head? = some '/' then .error (.absoluteNotAllowed (String.ofList slashed))
    else
      match (slashed.splitOn '/').foldlM (pushComponent slashed) [] with
      | .error error => .error error
      | .ok parts =>
        if parts = [] then .error .empty
        else if slashed.getLast? = some '/' then
          .error (.trailingSlash (String.ofList slashed))
        else .ok (String.ofList (['/'].intercalate parts))

end
end Atlas.Repo
