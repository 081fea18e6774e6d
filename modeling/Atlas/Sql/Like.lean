import Mathlib.Data.List.Infix

/-! `value LIKE pattern ESCAPE '\'`. ASCII letters are compared without their case, every
other character as it is. A pattern made of an escaped text and a final `%` tests for a
prefix, up to that case. -/
namespace Atlas.Sql

def sameLetter (left right : Char) : Bool := left.toLower = right.toLower

def likeFrom (escaped : Bool) : List Char → List Char → Bool
  | [], value => !escaped && value.isEmpty
  | c :: pattern, value =>
    if escaped then
      match value with
      | [] => false
      | head :: rest => sameLetter c head && likeFrom false pattern rest
    else if c = '\\' then likeFrom true pattern value
    else if c = '%' then value.tails.any (likeFrom false pattern)
    else
      match value with
      | [] => false
      | head :: rest => (c = '_' || sameLetter c head) && likeFrom false pattern rest

def like (pattern value : List Char) : Bool := likeFrom false pattern value
def escapeLike (text : List Char) : List Char :=
  text.flatMap fun c => if c = '\\' ∨ c = '%' ∨ c = '_' then ['\\', c] else [c]

end Atlas.Sql
