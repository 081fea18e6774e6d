import Atlas.History.GitLogProperties
import Atlas.Text.Utf8
import Mathlib.Data.List.TakeWhile

/-! The objects that `git cat-file --batch` writes, read back by their lengths. -/
namespace Atlas.History
open List

def newline : UInt8 := 10
def fromUtf8 (bytes : Bytes) : Option String := String.fromUTF8? bytes.toByteArray

def parseUsize : LogText → Except String Nat
  | [] => .error "cannot parse integer from empty string"
  | ['+'] => .error "invalid digit found in string"
  | '+' :: digits => readMagnitude (2 ^ 64 - 1) "number too large to fit in target type" 0 digits
  | digits => readMagnitude (2 ^ 64 - 1) "number too large to fit in target type" 0 digits

theorem behind_newline {data : Bytes} (ended : newline ∈ data) :
    (data.dropWhile (· ≠ newline)).tail.length < data.length := by
  have rest := @length_dropWhile_le _ (· ≠ newline) data
  have some := length_pos_of_mem ended
  rw [length_tail]
  omega

/-- The loop of `cat_file_blob_batch` over the bytes from `pos` on. -/
def readBatch (data : Bytes) (result : String → Option Bytes) :
    Except String (String → Option Bytes) :=
  if _ended : newline ∈ data then
    match fromUtf8 (data.takeWhile (· ≠ newline)) with
    | none => .error "non-UTF-8 cat-file --batch header"
    | some header =>
      let rest := (data.dropWhile (· ≠ newline)).tail
      match Text.splitn 3 ' ' header.toList with
      | [hash, objType, size] =>
        if objType = "missing".toList then readBatch rest result
        else
          match withContext ("parse object size for " ++ String.ofList hash) (parseUsize size) with
          | .error msg => .error msg
          | .ok size =>
            if rest.length < size then .error ("truncated content for blob " ++ String.ofList hash)
            else readBatch (rest.drop (size + 1)) (if objType = "blob".toList then Function.update
              result (String.ofList hash) (some (rest.take size)) else result)
      | _ => readBatch rest result
  else .ok result
termination_by data.length
decreasing_by
  · exact behind_newline _ended
  · exact (drop_sublist _ _).length_le.trans_lt (behind_newline _ended)
  · exact behind_newline _ended

/-! ## What git writes -/

structure Word where
  text : LogText
  plain : ' ' ∉ text ∧ '\n' ∉ text

structure GitObject where
  (name type : Word)
  content : Bytes
  present : type.text ≠ "missing".toList
  bounded : content.length < 2 ^ 64

def GitObject.line (object : GitObject) : LogText :=
  object.name.text ++ ' ' :: (object.type.text ++ ' ' :: object.content.length.repr.toList)

inductive BatchEntry where
  | object (held : GitObject)
  | missing (name : Word)

def GitObject.header (object : GitObject) : Bytes := Text.utf8 object.line ++ [newline]

def BatchEntry.bytes : BatchEntry → Bytes
  | .object held => held.header ++ (held.content ++ [newline])
  | .missing name => Text.utf8 (name.text ++ ' ' :: "missing".toList) ++ [newline]

/-- The content of the last blob of a name. -/
def blobOf (entries : List BatchEntry) (hash : String) : Option Bytes :=
  entries.reverse.findSome? fun
  | BatchEntry.object object =>
    if object.type.text = "blob".toList ∧
      String.ofList object.name.text = hash then some object.content else none
  | .missing _ => none

variable {text : LogText}

theorem fromUtf8_utf8 (text : LogText) : fromUtf8 (Text.utf8 text) = some (String.ofList text) :=
  dif_pos (String.ofList text).isValidUTF8

theorem newline_not_mem (line : '\n' ∉ text) : newline ∉ Text.utf8 text := by
  intro mem
  obtain ⟨c, inText, inCode⟩ := mem_flatMap.mp mem
  by_cases ascii : c.utf8Size = 1
  · obtain ⟨byte, code, same⟩ := Text.utf8EncodeChar_ascii ascii
    rw [code] at inCode
    rw [← mem_singleton.mp inCode] at same
    have isLine : c = '\n' := Char.toNat_inj.mp same.symm
    exact line (isLine ▸ inText)
  · exact absurd (Text.le_of_mem_utf8EncodeChar ascii inCode) (by decide)

/-- A line is read as its text, and the reader goes on behind it. -/
theorem line_split (line : '\n' ∉ text) (rest : Bytes) :
    newline ∈ Text.utf8 text ++ newline :: rest ∧
    fromUtf8 ((Text.utf8 text ++ newline :: rest).takeWhile (· ≠ newline)) = some (String.ofList text) ∧
    ((Text.utf8 text ++ newline :: rest).dropWhile (· ≠ newline)).tail = rest := by
  have differ : ∀ byte ∈ Text.utf8 text, decide (byte ≠ newline) = true := by
    intro byte mem
    rw [decide_eq_true_eq]
    rintro rfl
    exact newline_not_mem line mem
  refine ⟨mem_append_right _ (.head _), ?_, ?_⟩
  · rw [takeWhile_append_of_pos differ, takeWhile_cons_of_neg (by simp), append_nil, fromUtf8_utf8]
  · rw [dropWhile_append_of_pos differ, dropWhile_cons_of_neg (by simp), tail_cons]

theorem parseUsize_repr {number : Nat} (bounded : number < 2 ^ 64) :
    parseUsize number.repr.toList = .ok number := by
  have digits : ∀ c ∈ number.repr.toList, c.isDigit = true := fun c mem => Text.isDigit_of_mem_natRepr mem
  unfold parseUsize
  split
  · next none => exact absurd none (natRepr_ne_nil number)
  · next sign => exact absurd (digits '+' (sign ▸ mem_cons_self)) (by decide)
  · next sign => exact absurd (digits '+' (sign ▸ mem_cons_self)) (by decide)
  · rw [readMagnitude_repr, if_pos (by omega)]

theorem line_plain (object : GitObject) : '\n' ∉ object.line := by
  have size : '\n' ∉ object.content.length.repr.toList := fun mem => absurd (Text.isDigit_of_mem_natRepr mem) (by decide)
  rw [GitObject.line, mem_append, mem_cons, mem_append, mem_cons]
  rintro (inName | wrong | inType | wrong | inSize)
  · exact object.name.plain.2 inName
  · cases wrong
  · exact object.type.plain.2 inType
  · cases wrong
  · exact size inSize

theorem readBatch_missing (name : Word) (rest : Bytes) (result : String → Option Bytes) :
    readBatch (BatchEntry.bytes (.missing name) ++ rest) result = readBatch rest result := by
  have line : '\n' ∉ name.text ++ ' ' :: "missing".toList := by
    rw [mem_append, not_or]
    exact ⟨name.plain.2, by decide⟩
  obtain ⟨ended, read, behind⟩ := line_split line rest
  rw [BatchEntry.bytes, append_assoc, singleton_append, readBatch, dif_pos ended, read]
  dsimp only
  rw [behind, String.toList_ofList, Text.splitn_append name.plain.1, Text.splitn_of_not_mem (by decide)]

theorem readBatch_object (object : GitObject) (behind : Bytes) (result : String → Option Bytes) :
    readBatch (object.header ++ behind) result =
      if behind.length < object.content.length then .error ("truncated content for blob " ++ String.ofList object.name.text)
      else readBatch (behind.drop (object.content.length + 1))
        (if object.type.text = "blob".toList then Function.update result
          (String.ofList object.name.text) (some (behind.take object.content.length))
        else result) := by
  obtain ⟨ended, read, rest⟩ := line_split (line_plain object) behind
  rw [GitObject.header, append_assoc, singleton_append, readBatch, dif_pos ended, read]
  dsimp only
  rw [rest, String.toList_ofList, GitObject.line, Text.splitn_append object.name.plain.1, Text.splitn_append object.type.plain.1]
  dsimp only [Text.splitn]
  rw [if_neg object.present, parseUsize_repr object.bounded]
  rfl

theorem blobOf_cons (entry : BatchEntry) (later : List BatchEntry) (hash : String) :
    blobOf (entry :: later) hash = (blobOf later hash).or (blobOf [entry] hash) := by
  rw [blobOf, reverse_cons, findSome?_append]
  rfl

theorem readBatch_entries (entries : List BatchEntry)
    (rest : Bytes) (result : String → Option Bytes) :
    readBatch (entries.flatMap BatchEntry.bytes ++ rest) result = readBatch rest fun hash =>
      (blobOf entries hash).or (result hash) := by
  induction entries generalizing result with
  | nil => rfl
  | cons entry later ih =>
    simp only [blobOf_cons entry later]
    rw [flatMap_cons, append_assoc]
    cases entry with
    | missing name =>
      rw [readBatch_missing, ih]
      simp [blobOf]
    | object found =>
      rw [BatchEntry.bytes, append_assoc, readBatch_object, append_assoc, if_neg (by simp),
        take_left, ← append_assoc found.content,
        drop_left' (by simp), ih]
      congr 1
      funext hash
      rw [Option.or_assoc]
      congr 1
      split
      · next isBlob =>
        by_cases same : String.ofList found.name.text = hash
        · subst same
          simp [blobOf, isBlob]
        · simp [blobOf, isBlob, same, Function.update_of_ne (Ne.symm same)]
      · next other =>
        unfold blobOf
        rw [reverse_singleton, findSome?_cons]
        simp only [other, false_and, if_false]
        rfl

/-- The whole stream gives the blobs; one that ends within a content is refused. -/
theorem readBatch_inverts (entries : List BatchEntry) :
    readBatch (entries.flatMap BatchEntry.bytes) (fun _ => none) = .ok (blobOf entries) ∧
      ∀ (object : GitObject) (content : Bytes), content <+: object.content →
        content ≠ object.content →
        readBatch (entries.flatMap BatchEntry.bytes ++ object.header ++ content) (fun _ => none) =
          .error ("truncated content for blob " ++ String.ofList object.name.text) := by
  constructor
  · have whole := readBatch_entries entries [] fun _ => none
    rw [append_nil] at whole
    rw [whole, readBatch, dif_neg not_mem_nil]
    simp
  · intro object content cut short
    have fewer : content.length < object.content.length := lt_of_le_of_ne cut.length_le fun same => short (cut.eq_of_length same)
    rw [append_assoc, readBatch_entries, readBatch_object, if_pos fewer]

end Atlas.History
