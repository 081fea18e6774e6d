import Atlas.Content.Chunking
import Atlas.Text.Utf8

/-! Whole words in a line, looked up and replaced byte by byte. -/
namespace Atlas.Refactor
open List
open Content (dropBytes)
open Text

def isIdentByte (byte : UInt8) : Bool :=
  decide (48 ≤ byte ∧ byte ≤ 57 ∨ 65 ≤ byte ∧ byte ≤ 90 ∨ 97 ≤ byte ∧ byte ≤ 122 ∨ byte = 95)
def wordAt (bytes word : List UInt8) (pos : Nat) : Bool :=
  word.isPrefixOf (bytes.drop pos) && (decide (pos = 0) || !(bytes[pos - 1]?.any isIdentByte)) &&
    !(bytes[pos + word.length]?.any isIdentByte)

/-- The loop of `replace_identifier`. The slice behind it panics within a character. -/
def replaceFrom (line : Text) (word : List UInt8)
    (filled : word ≠ []) (new : Text) (pos : Nat) (result : Text) : Option Text :=
  if pos + word.length ≤ (utf8 line).length then
    if wordAt (utf8 line) word pos then
      replaceFrom line word filled new (pos + word.length) (result ++ new)
    else
      -- A byte is pushed as the character of that number.
      replaceFrom line word filled new (pos + 1) (result ++ [Char.ofNat ((utf8 line).getD pos 0).toNat])
  else (dropBytes pos line).map fun tail => result ++ tail
termination_by (utf8 line).length - pos
decreasing_by
  all_goals
    have := length_pos_iff.mpr filled
    omega

/-- `none` is a panic. -/
def replaceIdentifier (line old new : Text) : Option Text :=
  if filled : utf8 old = [] then some line else replaceFrom line (utf8 old) filled new 0 []

def containsWord (line word : Text) : Bool :=
  (range ((utf8 line).length + 1 - (utf8 word).length)).any (wordAt (utf8 line) (utf8 word))

/-! ## Words by characters -/

def isIdentChar (c : Char) : Bool := c.isAlphanum || c == '_'

theorem isIdentChar_iff (c : Char) : isIdentChar c = true ↔ 48 ≤ c.toNat ∧ c.toNat ≤ 57 ∨
    65 ≤ c.toNat ∧ c.toNat ≤ 90 ∨ 97 ≤ c.toNat ∧ c.toNat ≤ 122 ∨ c.toNat = 95 := by
  have value : c.val.toNat = c.toNat := rfl
  have underscore : c = '_' ↔ c.toNat = 95 := by
    rw [← Char.toNat_inj]
    exact Iff.rfl
  delta isIdentChar Char.isAlphanum Char.isAlpha Char.isUpper Char.isLower Char.isDigit
  simp [UInt32.le_iff_toNat_le, value, underscore]
  omega

theorem isIdentByte_iff (byte : UInt8) :
    isIdentByte byte = true ↔ 48 ≤ byte.toNat ∧ byte.toNat ≤ 57 ∨
      65 ≤ byte.toNat ∧ byte.toNat ≤ 90 ∨ 97 ≤ byte.toNat ∧ byte.toNat ≤ 122 ∨ byte.toNat = 95 := by
  unfold isIdentByte
  simp [UInt8.le_iff_toNat_le, ← UInt8.toNat_inj]

theorem isIdentByte_of_mem {c : Char} {byte : UInt8} (mem : byte ∈ String.utf8EncodeChar c) :
    isIdentByte byte = isIdentChar c := by
  rw [Bool.eq_iff_iff, isIdentByte_iff, isIdentChar_iff]
  by_cases ascii : c.utf8Size = 1
  · obtain ⟨own, encoded, same⟩ := utf8EncodeChar_ascii ascii
    rw [encoded, mem_singleton] at mem
    rw [mem, same]
  · have large := le_of_mem_utf8EncodeChar ascii mem
    have wide := mt utf8Size_eq_one_iff.mpr ascii
    constructor <;> omega

def standsAlone (word : Text) (previous : Option Char) (text : Text) : Bool := word.isPrefixOf
    text && !previous.any isIdentChar && !(text.drop word.length).head?.any isIdentChar

inductive Piece where
  | word
  | letter (c : Char)

def pieces (word : Text) (previous : Option Char) : Text → List Piece
  | [] => []
  | c :: rest =>
    if standsAlone word previous (c :: rest) then
      .word :: pieces word word.getLast? (rest.drop (word.length - 1))
    else .letter c :: pieces word (some c) rest
termination_by text => text.length
decreasing_by
  · rw [length_drop, length_cons]
    omega
  · exact Nat.lt_succ_self _

def Piece.spell (word : Text) : Piece → Text
  | .word => word
  | .letter c => [c]

def spell (word : Text) (parts : List Piece) : Text := parts.flatMap (Piece.spell word)
def replaceWords (line old new : Text) : Text := spell new (pieces old none line)

section
variable {word : Text}

theorem standsAlone_take {previous : Option Char}
    {text : Text} (alone : standsAlone word previous text = true) : word <+: text := by
  unfold standsAlone at alone
  rw [Bool.and_eq_true, Bool.and_eq_true] at alone
  exact isPrefixOf_iff_prefix.mp alone.1.1

theorem cons_eq_append_drop {c : Char} {rest : Text} (filled : word ≠ [])
    (starts : word <+: c :: rest) : c :: rest = word ++ rest.drop (word.length - 1) := by
  obtain ⟨behind, whole⟩ := starts
  cases word with
  | nil => exact absurd rfl filled
  | cons head tail =>
    obtain ⟨rfl, rfl⟩ := cons.inj whole
    simp

theorem spell_pieces (filled : word ≠ []) (previous : Option Char) (text : Text) :
    spell word (pieces word previous text) = text := by
  induction previous, text using pieces.induct word with
  | case1 previous => rw [pieces]; rfl
  | case2 previous c rest alone ih =>
    rw [pieces, if_pos alone]
    exact (congrArg (word ++ ·) ih).trans (cons_eq_append_drop filled (standsAlone_take alone)).symm
  | case3 previous c rest other ih =>
    rw [pieces, if_neg other]
    exact congrArg (c :: ·) ih

end

/-! When the replacement by bytes replaces whole words and nothing else. -/

theorem dropBytes_utf8 (before suffix : Text) :
    dropBytes (utf8 before).length (before ++ suffix) = some suffix := by
  induction before with
  | nil => cases suffix <;> rfl
  | cons c rest ih =>
    have positive := c.utf8Size_pos
    have size : (utf8 (c :: rest)).length = (utf8 rest).length + (c.utf8Size - 1) + 1 := by
      rw [utf8_cons, length_append, String.length_utf8EncodeChar]
      omega
    rw [size, cons_append, dropBytes, if_pos (by omega)]
    have left : (utf8 rest).length + (c.utf8Size - 1) + 1 - c.utf8Size = (utf8 rest).length := by omega
    rw [left, ih]

theorem dropBytes_within (before : Text) {c : Char} (rest : Text) {count : Nat} (inside : 0 < count)
    (short : count < c.utf8Size) : dropBytes ((utf8 before).length + count) (before ++ c :: rest) = none := by
  induction before with
  | nil =>
    obtain ⟨less, rfl⟩ := Nat.exists_eq_succ_of_ne_zero inside.ne'
    rw [utf8_nil, length_nil, Nat.zero_add, nil_append, dropBytes, if_neg (by omega)]
  | cons other tail ih =>
    have positive := other.utf8Size_pos
    have size : (utf8 (other :: tail)).length + count = (utf8 tail).length + (other.utf8Size - 1) + count + 1 - 1 + 1 := by
      rw [utf8_cons, length_append, String.length_utf8EncodeChar]
      omega
    rw [size, cons_append, dropBytes, if_pos (by omega)]
    have left : (utf8 tail).length + (other.utf8Size - 1) + count + 1 - 1 + 1 - other.utf8Size =
      (utf8 tail).length + count := by omega
    rw [left, ih]

theorem wordAt_boundary (before suffix word : Text) :
    wordAt (utf8 (before ++ suffix)) (utf8 word) (utf8 before).length =
      standsAlone word before.getLast? suffix := by
  have behind : (utf8 (before ++ suffix)).drop (utf8 before).length = utf8 suffix := by rw [utf8_append, drop_left]
  have starts : (utf8 word).isPrefixOf (utf8 suffix) = word.isPrefixOf suffix := by
    rw [Bool.eq_iff_iff, isPrefixOf_iff_prefix, isPrefixOf_iff_prefix, utf8_prefix_iff]
  have front : (decide ((utf8 before).length = 0) ||
    !((utf8 (before ++ suffix))[(utf8 before).length - 1]?.any isIdentByte)) =
    !before.getLast?.any isIdentChar := by
    rcases eq_nil_or_concat before with rfl | ⟨init, last, rfl⟩
    · rfl
    · obtain ⟨first, others, encoded, _⟩ := utf8EncodeChar_cons last
      have bytes : utf8 ((init ++ [last]) ++ suffix) = utf8 init ++ (first :: others ++ utf8 suffix) := by
        rw [utf8_append, utf8_append, utf8_cons, encoded]
        simp
      have size : (utf8 (init ++ [last])).length = (utf8 init).length + others.length + 1 := by
        rw [utf8_append, utf8_cons, encoded]
        simp
        omega
      have final : (utf8 ((init ++ [last]) ++ suffix))[(utf8 init).length + others.length]? =
        some ((first :: others).getLast (cons_ne_nil first others)) := by
        rw [bytes, getElem?_append_right (Nat.le_add_right _ _), Nat.add_sub_cancel_left,
          getElem?_append_left (by simp), getLast_eq_getElem]
        simp
      have belongs : (first :: others).getLast (cons_ne_nil first others) ∈ String.utf8EncodeChar last := by
        rw [encoded]
        exact getLast_mem _
      rw [concat_eq_append, size, Nat.add_sub_cancel, final, getLast?_concat, Option.any_some,
        Option.any_some, isIdentByte_of_mem belongs]
      simp
  unfold wordAt standsAlone
  rw [behind, starts, front]
  cases isStart : word.isPrefixOf suffix with
  | false => rfl
  | true =>
    obtain ⟨rest, rfl⟩ := isPrefixOf_iff_prefix.mp isStart
    have next : (utf8 (before ++ (word ++ rest)))[(utf8 before).length + (utf8 word).length]?.any
      isIdentByte = rest.head?.any isIdentChar := by
      rw [← append_assoc, utf8_append, utf8_append, ← length_append, getElem?_append_right le_rfl, Nat.sub_self]
      cases rest with
      | nil => rfl
      | cons c tail =>
        obtain ⟨first, others, encoded, _⟩ := utf8EncodeChar_cons c
        rw [utf8_cons, encoded]
        exact isIdentByte_of_mem (encoded ▸ mem_cons_self)
    rw [next, drop_left]

theorem wordAt_within {bytes rest : List UInt8} {byte : UInt8} {word : Text} {pos : Nat}
    (filled : word ≠ []) (here : bytes.drop pos = byte :: rest) (within : ¬ byte.IsUTF8FirstByte) :
    wordAt bytes (utf8 word) pos = false := by
  have apart : (utf8 word).isPrefixOf (byte :: rest) = false := by
    rw [← Bool.not_eq_true, isPrefixOf_iff_prefix]
    exact not_utf8_prefix_of_continuation filled within
  unfold wordAt
  rw [here, apart]
  rfl

theorem utf8_ne_nil {word : Text} (filled : word ≠ []) : utf8 word ≠ [] := by
  cases word with
  | nil => exact absurd rfl filled
  | cons c rest =>
    obtain ⟨first, others, encoded, _⟩ := utf8EncodeChar_cons c
    rw [utf8_cons, encoded]
    exact cons_ne_nil _ _

section
variable {word new : Text} (filled : word ≠ [])

theorem replaceFrom_within (before rest : Text) {c : Char} {front back : List UInt8}
    (encoded : String.utf8EncodeChar c = front ++ back) (inside : front ≠ []) (result : Text) :
    replaceFrom (before ++ c :: rest) (utf8 word) (utf8_ne_nil filled) new ((utf8 before).length + front.length) result = none ∨
      ∃ pushed : Text, pushed.length = back.length ∧ replaceFrom (before ++ c :: rest) (utf8 word)
        (utf8_ne_nil filled) new ((utf8 before).length + front.length) result =
        replaceFrom (before ++ c :: rest) (utf8 word) (utf8_ne_nil filled) new
          ((utf8 before).length + c.utf8Size) (result ++ pushed) := by
  have size : front.length + back.length = c.utf8Size := by rw [← String.length_utf8EncodeChar, encoded, length_append]
  induction back generalizing front result with
  | nil =>
    refine .inr ⟨[], rfl, ?_⟩
    rw [append_nil, ← size, length_nil, Nat.add_zero]
  | cons byte others ih =>
    have positive := length_pos_iff.mpr inside
    have short : front.length < c.utf8Size := by
      rw [← size, length_cons]
      omega
    rw [replaceFrom]
    split
    · have here : (utf8 (before ++ c :: rest)).drop ((utf8 before).length + front.length) = byte :: (others ++ utf8 rest) := by
        rw [utf8_append, ← drop_drop, drop_left, utf8_cons, encoded, append_assoc, drop_left, cons_append]
      have within : ¬ byte.IsUTF8FirstByte := by
        obtain ⟨first, later, whole, _, continued⟩ := utf8EncodeChar_cons c
        apply continued
        rw [encoded] at whole
        cases front with
        | nil => exact absurd rfl inside
        | cons head tail =>
          rw [← (cons.inj whole).2]
          exact mem_append_right _ (.head _)
      rw [if_neg (by rw [wordAt_within filled here within]; exact Bool.false_ne_true)]
      have moved : front.length + 1 = (front ++ [byte]).length := by simp
      have next : String.utf8EncodeChar c = (front ++ [byte]) ++ others := by
        rw [encoded, append_assoc]
        rfl
      have whole : (front ++ [byte]).length + others.length = c.utf8Size := by
        rw [← length_append, ← next, String.length_utf8EncodeChar]
      let own := Char.ofNat ((utf8 (before ++ c :: rest)).getD
        ((utf8 before).length + front.length) 0).toNat
      rw [Nat.add_assoc, moved]
      rcases ih next (by simp) (result ++ [own]) whole with stuck | ⟨pushed, count, further⟩
      · exact .inl stuck
      · refine .inr ⟨own :: pushed, congrArg (· + 1) count, ?_⟩
        rw [further, append_assoc, singleton_append]
    · left
      rw [dropBytes_within before rest positive short]
      rfl

/-! ## Clean lines -/

def Clean (word : Text) (parts : List Piece) : Prop :=
  ∀ before c after, parts = before ++ .letter c :: after →
    c.utf8Size = 1 ∨ (utf8 (spell word (.letter c :: after))).length < (utf8 word).length

variable {parts : List Piece} {c : Char} {before result rest : Text}

theorem Clean.of_short (short : (utf8 (spell word parts)).length < (utf8 word).length) :
    Clean word parts := by
  rintro before c after rfl
  right
  refine Nat.lt_of_le_of_lt ?_ short
  unfold spell
  rw [flatMap_append, utf8_append, length_append]
  exact Nat.le_add_left _ _

theorem clean_word_iff : Clean word (.word :: parts) ↔ Clean word parts := by
  constructor
  · intro clean before c after split
    exact clean (.word :: before) c after (congrArg (Piece.word :: ·) split)
  · intro clean before c after split
    cases before with
    | nil => cases split
    | cons head tail =>
      obtain ⟨_, rest⟩ := cons.inj split
      exact clean tail c after rest

theorem clean_letter_iff : Clean word (.letter c :: parts) ↔ (c.utf8Size = 1 ∨
    (utf8 (spell word (.letter c :: parts))).length < (utf8 word).length) ∧ Clean word parts := by
  constructor
  · intro clean
    refine ⟨clean [] c parts rfl, fun before other after split => ?_⟩
    exact clean (.letter c :: before) other after (congrArg (Piece.letter c :: ·) split)
  · rintro ⟨first, clean⟩ before other after split
    cases before with
    | nil =>
      cases split
      exact first
    | cons head tail =>
      obtain ⟨_, rest⟩ := cons.inj split
      exact clean tail other after rest

theorem spell_pieces_short {previous : Option Char}
    {text : Text} (short : (utf8 text).length < (utf8 word).length) :
    spell new (pieces word previous text) = text := by
  induction text generalizing previous with
  | nil =>
    rw [pieces]
    rfl
  | cons c rest ih =>
    have other : ¬ standsAlone word previous (c :: rest) = true := fun alone => by
      have fits := (utf8_prefix_iff.mpr (standsAlone_take alone)).length_le
      omega
    rw [pieces, if_neg other]
    refine congrArg (c :: ·) (ih (Nat.lt_of_le_of_lt ?_ short))
    rw [utf8_cons, length_append]
    exact Nat.le_add_left _ _

/-- What the loop makes of the rest of a line, from the start of a character on: the words are
replaced where the rest is clean, and elsewhere a returned text is too long. -/
structure Rewrites (before suffix result : Text) : Prop where
  clean : Clean word (pieces word before.getLast? suffix) → replaceFrom (before ++ suffix)
    (utf8 word) (utf8_ne_nil filled) new (utf8 before).length result =
      some (result ++ spell new (pieces word before.getLast? suffix))
  length : ∀ text, replaceFrom (before ++ suffix) (utf8 word) (utf8_ne_nil filled) new (utf8 before).length result = some text →
    (result ++ spell new (pieces word before.getLast? suffix)).length ≤ text.length ∧
      (¬ Clean word (pieces word before.getLast? suffix) →
        (result ++ spell new (pieces word before.getLast? suffix)).length < text.length)

theorem Rewrites.short {suffix : Text} (short : (utf8 suffix).length < (utf8 word).length) :
    @Rewrites word new filled before suffix result := by
  have ends : replaceFrom (before ++ suffix) (utf8 word) (utf8_ne_nil filled) new
    (utf8 before).length result = some (result ++ suffix) := by
    rw [replaceFrom, if_neg, dropBytes_utf8, Option.map_some]
    rw [utf8_append, length_append]
    omega
  have clean : Clean word (pieces word before.getLast? suffix) := by
    apply Clean.of_short
    rwa [spell_pieces filled]
  constructor
  · rw [ends, spell_pieces_short short]
    exact fun _ => rfl
  · rw [ends, spell_pieces_short short]
    intro text same
    obtain rfl := Option.some.inj same
    exact ⟨le_rfl, fun unclean => absurd clean unclean⟩

theorem Rewrites.wholeWord (fits : ¬ (utf8 (c :: rest)).length < (utf8 word).length)
    (alone : standsAlone word before.getLast? (c :: rest) = true)
    (later : @Rewrites word new filled (before ++ word) (rest.drop (word.length - 1)) (result ++ new)) :
    @Rewrites word new filled before (c :: rest) result := by
  have split := cons_eq_append_drop filled (standsAlone_take alone)
  have line : (before ++ word) ++ rest.drop (word.length - 1) = before ++ c :: rest := by rw [append_assoc, ← split]
  have last : (before ++ word).getLast? = word.getLast? := by
    rw [getLast?_append, getLast?_eq_some_getLast filled, Option.some_or]
  have position : (utf8 (before ++ word)).length = (utf8 before).length + (utf8 word).length := by rw [utf8_append, length_append]
  have parts : pieces word before.getLast? (c :: rest) =
    .word :: pieces word word.getLast? (rest.drop (word.length - 1)) := by rw [pieces, if_pos alone]
  have step : replaceFrom (before ++ c :: rest) (utf8 word) (utf8_ne_nil filled) new
    (utf8 before).length result = replaceFrom (before ++ c :: rest) (utf8 word)
        (utf8_ne_nil filled) new ((utf8 before).length + (utf8 word).length) (result ++ new) := by
    rw [replaceFrom, if_pos, wordAt_boundary, if_pos alone]
    rw [utf8_append, length_append]
    omega
  obtain ⟨clean, length⟩ := later
  rw [line, last, position] at clean length
  have spelled :
    result ++ spell new (.word :: pieces word word.getLast? (rest.drop (word.length - 1))) =
    result ++ new ++ spell new (pieces word word.getLast? (rest.drop (word.length - 1))) := by
    rw [append_assoc]
    rfl
  constructor
  · rw [parts, clean_word_iff, step, spelled]
    exact clean
  · rw [parts, clean_word_iff, step, spelled]
    exact length

theorem Rewrites.letter (fits : ¬ (utf8 (c :: rest)).length < (utf8 word).length)
    (other : ¬ standsAlone word before.getLast? (c :: rest) = true)
    (later : ∀ pushed, @Rewrites word new filled (before ++ [c]) rest (result ++ pushed)) :
    @Rewrites word new filled before (c :: rest) result := by
  have line : (before ++ [c]) ++ rest = before ++ c :: rest := by simp
  have position : (utf8 (before ++ [c])).length = (utf8 before).length + c.utf8Size := by simp
  have parts : pieces word before.getLast? (c :: rest) = .letter c :: pieces word (some c) rest := by rw [pieces, if_neg other]
  have cleaned : Clean word (.letter c :: pieces word (some c) rest) ↔
    c.utf8Size = 1 ∧ Clean word (pieces word (some c) rest) := by
    have whole : spell word (.letter c :: pieces word (some c) rest) = c :: rest := by rw [← parts, spell_pieces filled]
    rw [clean_letter_iff, whole, or_iff_left fits]
  obtain ⟨first, others, encoded, _⟩ := utf8EncodeChar_cons c
  have here : (utf8 (before ++ c :: rest)).getD (utf8 before).length 0 = first := by
    rw [utf8_append, utf8_cons, encoded, getD_eq_getElem?_getD, getElem?_append_right le_rfl, Nat.sub_self]
    rfl
  have step : replaceFrom (before ++ c :: rest) (utf8 word) (utf8_ne_nil filled) new
    (utf8 before).length result = replaceFrom (before ++ c :: rest) (utf8 word)
        (utf8_ne_nil filled) new ((utf8 before).length + 1) (result ++ [Char.ofNat first.toNat]) := by
    rw [replaceFrom, if_pos, wordAt_boundary, if_neg other, here]
    rw [utf8_append, length_append]
    omega
  have size : others.length + 1 = c.utf8Size := by rw [← String.length_utf8EncodeChar, encoded, length_cons]
  have spelled (front : Text) (tail : List Piece) : (front ++
    spell new (.letter c :: tail)).length = front.length + 1 + (spell new tail).length := by
    unfold spell
    rw [flatMap_cons, length_append, length_append]
    simp only [Piece.spell, length_singleton]
    omega
  by_cases ascii : c.utf8Size = 1
  · have own : Char.ofNat first.toNat = c := by
      obtain ⟨byte, single, same⟩ := utf8EncodeChar_ascii ascii
      rw [encoded] at single
      rw [(cons.inj single).1, same, Char.ofNat_toNat]
    obtain ⟨clean, length⟩ := later [c]
    rw [line, getLast?_concat, position, ascii] at clean length
    have joined : result ++ spell new (.letter c :: pieces word (some c) rest) =
      result ++ [c] ++ spell new (pieces word (some c) rest) := by
      rw [append_assoc]
      rfl
    constructor
    · rw [parts, cleaned, and_iff_right ascii, step, own, joined]
      exact clean
    · rw [parts, cleaned, and_iff_right ascii, step, own, joined]
      exact length
  · have long : 1 < c.utf8Size := by
      have := c.utf8Size_pos
      omega
    constructor
    · rw [parts, cleaned]
      exact fun clean => absurd clean.1 ascii
    · rw [parts, cleaned, step]
      have moved := @replaceFrom_within word new filled before rest c [first] others encoded
        (cons_ne_nil _ _) (result ++ [Char.ofNat first.toNat])
      intro text returned
      rcases moved with stuck | ⟨pushed, count, further⟩
      · rw [length_singleton, returned] at stuck
        cases stuck
      · have reached := (later (Char.ofNat first.toNat :: pushed)).length text
        rw [line, getLast?_concat, position] at reached
        rw [length_singleton, returned, append_assoc, singleton_append] at further
        have bound := (reached further.symm).1
        simp only [length_append, length_cons] at bound
        rw [spelled]
        constructor
        · omega
        · intro _
          omega

theorem rewrites (before suffix result : Text) :
    @Rewrites word new filled before suffix result := by
  induction size : suffix.length using Nat.strong_induction_on generalizing before suffix result with
  | _ count ih =>
    by_cases short : (utf8 suffix).length < (utf8 word).length
    · exact Rewrites.short filled short
    · cases suffix with
      | nil => exact absurd (length_pos_iff.mpr (utf8_ne_nil filled)) short
      | cons c rest =>
        rw [length_cons] at size
        by_cases alone : standsAlone word before.getLast? (c :: rest) = true
        · refine Rewrites.wholeWord filled short alone (ih _ ?_ _ _ _ rfl)
          rw [length_drop]
          omega
        · exact Rewrites.letter filled short alone fun pushed => ih _ (by omega) _ _ _ rfl

end

/-- The replacement neither panics nor touches anything but whole words, if and only if the
letters outside of these are ASCII as far as the word could still fit. -/
theorem replaceIdentifier_exact_iff (line old new : Text) (filled : old ≠ []) :
    replaceIdentifier line old new = some (replaceWords line old new) ↔
      Clean old (pieces old none line) := by
  have whole := @rewrites old new filled [] line []
  have started : replaceIdentifier line old new = replaceFrom line (utf8 old) (utf8_ne_nil filled) new 0 [] := by
    unfold replaceIdentifier
    rw [dif_neg (utf8_ne_nil filled)]
  rw [started]
  constructor
  · intro exact'
    by_contra unclean
    exact absurd ((whole.length _ exact').2 unclean) (Nat.lt_irrefl _)
  · exact whole.clean

theorem pieces_accent :
    pieces ['f', 'o', 'o'] none ['f', 'o', 'o', ' ', 'é'] = [.word, .letter ' ', .letter 'é'] := by
  simp [pieces, standsAlone, isIdentChar]

theorem replaceIdentifier_exact_accent :
    replaceIdentifier ['f', 'o', 'o', ' ', 'é'] ['f', 'o', 'o'] ['b', 'a', 'r'] =
      some ['b', 'a', 'r', ' ', 'é'] := by
  have exact' := replaceIdentifier_exact_iff ['f', 'o', 'o', ' ', 'é'] ['f', 'o', 'o'] ['b', 'a', 'r'] (cons_ne_nil _ _)
  unfold replaceWords at exact'
  rw [pieces_accent, clean_word_iff, clean_letter_iff] at exact'
  exact exact'.mpr ⟨.inl rfl, Clean.of_short (by decide)⟩

/-- The two bytes of one letter become two letters. -/
theorem replaceIdentifier_splits_letter : ¬ ∀ line old new : Text, old ≠ [] →
    replaceIdentifier line old new = some (replaceWords line old new) := by
  intro all
  have same := all ['é', ' ', 'x'] ['x'] ['y'] (cons_ne_nil _ _)
  have made : replaceIdentifier ['é', ' ', 'x'] ['x'] ['y'] = some ['Ã', '©', ' ', 'y'] := by
    unfold replaceIdentifier
    rw [dif_neg (by decide), replaceFrom, if_pos (by decide), if_neg (by decide),
      replaceFrom, if_pos (by decide), if_neg (by decide),
      replaceFrom, if_pos (by decide), if_neg (by decide),
      replaceFrom, if_pos (by decide), if_pos (by decide),
      replaceFrom, if_neg (by decide)]
    rfl
  have right : replaceWords ['é', ' ', 'x'] ['x'] ['y'] = ['é', ' ', 'y'] := by
    simp [replaceWords, pieces, standsAlone, isIdentChar, spell, Piece.spell]
  rw [made, right] at same
  exact absurd same (by decide)

end Atlas.Refactor
