import Atlas.Search.FtsEscape
import Atlas.Sql.Fts5

/-! This escape lists the characters that ask for quotes, and the language refuses more of them and
reads some of the rest as operators. -/
namespace Atlas.Content
open List Sql
open Repo (splitWhitespace)
open Search (isOperator)

def hasMisplacedOperator (input : List Char) : Bool :=
  let tokens := splitWhitespace input
  tokens.zipIdx.any fun (token, index) =>
    isOperator token &&
      (decide (index = 0) || decide (index + 1 = tokens.length) ||
        isOperator (tokens.getD (index - 1) []) || isOperator (tokens.getD (index + 1) []))

def hasSpecial (input : List Char) : Bool :=
  input.any fun c => decide (c ∈ ['"', '(', ')', '^', '-', '*'])

def fts5Escape (input : String) : String :=
  if hasSpecial input.toList || hasMisplacedOperator input.toList then
    String.ofList
      (['"'] ++ input.toList.flatMap (fun c => if c = '"' then ['"', '"'] else [c]) ++ ['"'])
  else input

/-- The columns of `chunks_fts`. -/
def chunkColumns : List String := ["title", "content", "source_id", "content_type"]

/-- The query is put in quotes. -/
def IsQuoted (input : String) : Prop :=
  hasSpecial input.toList = true ∨ hasMisplacedOperator input.toList = true

/-- A filter by title and two phrases joined by a plus pass as they are and are in order. -/
example : Fts5.InOrder chunkColumns "title : one+two OR three".toList :=
  ⟨_, _, rfl, rfl, trivial⟩

end Atlas.Content
