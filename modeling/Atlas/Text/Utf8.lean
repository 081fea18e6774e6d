import Mathlib.Algebra.Order.Ring.Int
import Mathlib.Data.Char
import Mathlib.Data.List.Infix
import Mathlib.Data.List.Lex
import Mathlib.Order.Cover

/-! Texts as the bytes of their UTF-8 encoding. -/
namespace Atlas.Text
open List

def utf8 (text : List Char) : List UInt8 := text.flatMap String.utf8EncodeChar

@[simp] theorem utf8_nil : utf8 [] = [] := rfl
@[simp] theorem utf8_cons (c : Char) (rest : List Char) :
    utf8 (c :: rest) = String.utf8EncodeChar c ++ utf8 rest := flatMap_cons
@[simp] theorem utf8_append (first second : List Char) :
    utf8 (first ++ second) = utf8 first ++ utf8 second := flatMap_append

variable {c : Char} {byte : UInt8}

theorem utf8EncodeChar_cons (c : Char) : ∃ first others, String.utf8EncodeChar c = first :: others ∧
    first.IsUTF8FirstByte ∧ ∀ other ∈ others, ¬ other.IsUTF8FirstByte := by
  have starts {index : Nat} {inside : index < (String.utf8EncodeChar c).length} :=
    @UInt8.isUTF8FirstByte_getElem_utf8EncodeChar c index inside
  cases encoded : String.utf8EncodeChar c with
  | nil => exact absurd encoded String.utf8EncodeChar_ne_nil
  | cons first others =>
    simp only [encoded] at starts
    refine ⟨first, others, rfl, (@starts 0 (Nat.succ_pos _)).mpr rfl, ?_⟩
    intro other mem
    obtain ⟨index, inside, found⟩ := getElem_of_mem mem
    have later := @starts (index + 1) (Nat.succ_lt_succ inside)
    rw [getElem_cons_succ, found] at later
    exact fun first => absurd (later.mp first) (Nat.succ_ne_zero _)

theorem utf8Size_eq_one_iff : c.utf8Size = 1 ↔ c.toNat < 128 := by
  rw [Char.utf8Size_eq_one_iff, UInt32.le_iff_toNat_le]
  exact Nat.lt_succ_iff.symm

theorem utf8EncodeChar_ascii (ascii : c.utf8Size = 1) :
    ∃ byte, String.utf8EncodeChar c = [byte] ∧ byte.toNat = c.toNat := by
  refine ⟨_, String.utf8EncodeChar_eq_singleton ascii, ?_⟩
  have small := utf8Size_eq_one_iff.mp ascii
  have value : c.val.toNat = c.toNat := rfl
  rw [UInt32.toNat_toUInt8, value]
  omega

theorem le_of_mem_utf8EncodeChar (long : c.utf8Size ≠ 1) (mem : byte ∈ String.utf8EncodeChar c) :
    128 ≤ byte.toNat := by
  have marked (low high : UInt8) (top : 128 ≤ high.toNat) : 128 ≤ (low ||| high).toNat := by
    rw [UInt8.toNat_or]
    exact top.trans Nat.right_le_or
  have sizes : c.utf8Size = 2 ∨ c.utf8Size = 3 ∨ c.utf8Size = 4 := by
    have least := c.utf8Size_pos
    have most := c.utf8Size_le_four
    omega
  rcases sizes with two | three | four
  · rw [String.utf8EncodeChar_eq_cons_cons two] at mem
    simp only [mem_cons, not_mem_nil, or_false] at mem
    rcases mem with rfl | rfl <;> exact marked _ _ (by decide)
  · rw [String.utf8EncodeChar_eq_cons_cons_cons three] at mem
    simp only [mem_cons, not_mem_nil, or_false] at mem
    rcases mem with rfl | rfl | rfl <;> exact marked _ _ (by decide)
  · rw [String.utf8EncodeChar_eq_cons_cons_cons_cons four] at mem
    simp only [mem_cons, not_mem_nil, or_false] at mem
    rcases mem with rfl | rfl | rfl | rfl <;> exact marked _ _ (by decide)

theorem utf8EncodeChar_append_inj {first second : Char} {before behind : List UInt8}
    (same : String.utf8EncodeChar first ++ before = String.utf8EncodeChar second ++ behind) :
    first = second := by
  have decoded := congrArg (fun bytes => (toByteArray bytes).utf8DecodeChar? 0) same
  simp only [toByteArray_append, ByteArray.utf8DecodeChar?_utf8EncodeChar_append, Option.some.injEq] at decoded
  exact decoded

theorem utf8_prefix_iff {pattern text : List Char} :
    utf8 pattern <+: utf8 text ↔ pattern <+: text := by
  constructor
  · intro starts
    induction pattern generalizing text with
    | nil => exact nil_prefix
    | cons head rest ih =>
      obtain ⟨behind, whole⟩ := starts
      rw [utf8_cons, append_assoc] at whole
      cases text with
      | nil =>
        obtain ⟨byte, others, encoded, _⟩ := utf8EncodeChar_cons head
        rw [encoded] at whole
        cases whole
      | cons other tail =>
        rw [utf8_cons] at whole
        obtain rfl := utf8EncodeChar_append_inj whole
        exact cons_prefix_cons.mpr ⟨rfl, ih ⟨behind, append_cancel_left whole⟩⟩
  · rintro ⟨behind, rfl⟩
    rw [utf8_append]
    exact prefix_append _ _

theorem not_utf8_prefix_of_continuation {pattern : List Char}
    {rest : List UInt8} (filled : pattern ≠ []) (within : ¬ byte.IsUTF8FirstByte) :
    ¬ utf8 pattern <+: byte :: rest := by
  intro ⟨behind, whole⟩
  cases pattern with
  | nil => exact filled rfl
  | cons head tail =>
    obtain ⟨first, others, encoded, starts, _⟩ := utf8EncodeChar_cons head
    rw [utf8_cons, encoded] at whole
    obtain ⟨rfl, _⟩ := cons.inj whole
    exact within starts

/-! The order of texts by their bytes, and the texts with a given start as a range of it. -/

theorem digit_mod {value : Nat} (base bound : Nat) (fits : bound + base ≤ 256) (pos : 0 < bound) :
    (value % bound + base) % 2 ^ 8 = value % bound + base := by
  have small := Nat.mod_lt value pos
  exact Nat.mod_eq_of_lt (by omega)

theorem utf8EncodeChar_append_lt {lower upper : Char}
    (below : lower < upper) (left right : List UInt8) :
    String.utf8EncodeChar lower ++ left < String.utf8EncodeChar upper ++ right := by
  have values : lower.val.toNat < upper.val.toNat := UInt32.lt_iff_toNat_lt.mp below
  have top : upper.val.toNat < 1114112 := upper.valid.elim (fun low => low.trans (by decide)) (fun high => high.2)
  -- the digits to the base 64, each taken from the quotient before it
  have second (value : Nat) : value / 4096 = value / 64 / 64 := by omega
  have third (value : Nat) : value / 262144 = value / 64 / 64 / 64 := by omega
  unfold String.utf8EncodeChar
  dsimp only
  split_ifs <;>
    simp only [cons_append, nil_append, cons_lt_cons_iff, UInt8.lt_iff_toNat_lt, ← UInt8.toNat_inj,
      UInt8.toNat_ofNat', digit_mod, second, third, Nat.reduceAdd, Nat.reduceLT,
      Nat.reduceLeDiff] <;>
    omega

theorem utf8_lt_of_lt {first second : List Char} (before : first < second) :
    utf8 first < utf8 second := by
  induction first generalizing second with
  | nil =>
    cases second with
    | nil => cases before
    | cons head tail =>
      obtain ⟨byte, others, encoded, _⟩ := utf8EncodeChar_cons head
      rw [utf8_nil, utf8_cons, encoded]
      exact nil_lt_cons _ _
  | cons head tail ih =>
    cases second with
    | nil => cases before
    | cons other rest =>
      rw [utf8_cons, utf8_cons]
      rcases cons_lt_cons_iff.mp before with below | ⟨rfl, later⟩
      · exact utf8EncodeChar_append_lt below _ _
      · exact append_left_lt (ih later)

theorem utf8_lt_iff {first second : List Char} : utf8 first < utf8 second ↔ first < second := by
  constructor
  · intro before
    rcases lt_trichotomy first second with ordered | rfl | reversed
    · exact ordered
    · exact absurd before (List.lt_irrefl _)
    · exact absurd before (List.lt_asymm (utf8_lt_of_lt reversed))
  · exact utf8_lt_of_lt

/-! ## Ranges

The texts that start with a given one are those from it up to the text in which the last letter
that has one is replaced by its successor. -/

section
variable {α : Type} [LinearOrder α]

theorem prefix_of_le_of_top {start text : List α}
    (greatest : ∀ letter ∈ start, ∀ other, other ≤ letter) (reaches : ¬ text < start) :
    start <+: text := by
  induction start generalizing text with
  | nil => exact nil_prefix
  | cons letter rest ih =>
    cases text with
    | nil => exact absurd (nil_lt_cons _ _) reaches
    | cons other tail =>
      rw [cons_lt_cons_iff, not_or, not_and] at reaches
      obtain rfl : other = letter := le_antisymm (greatest letter (.head _) other) (not_lt.mp reaches.1)
      exact cons_prefix_cons.mpr ⟨rfl, ih (fun each mem => greatest each (.tail _ mem)) (reaches.2 rfl)⟩

theorem prefix_iff_between {before rest text : List α}
    {letter next : α} (cover : letter ⋖ next) (greatest : ∀ each ∈ rest, ∀ other, other ≤ each) :
    before ++ letter :: rest <+: text ↔ ¬ text < before ++ letter :: rest ∧ text < before ++ [next] := by
  constructor
  · rintro ⟨behind, rfl⟩
    constructor
    · exact le_append_left
    · rw [append_assoc]
      exact append_left_lt (cons_lt_cons_iff.mpr (.inl cover.lt))
  · intro ⟨reaches, below⟩
    induction before generalizing text with
    | nil =>
      cases text with
      | nil => exact absurd (nil_lt_cons _ _) reaches
      | cons other tail =>
        rw [nil_append, cons_lt_cons_iff, not_or, not_and] at reaches
        rw [nil_append, cons_lt_cons_iff] at below
        obtain less | ⟨_, within⟩ := below
        · obtain rfl : other = letter := le_antisymm (cover.le_of_lt less) (not_lt.mp reaches.1)
          exact cons_prefix_cons.mpr ⟨rfl, prefix_of_le_of_top greatest (reaches.2 rfl)⟩
        · cases within
    | cons head earlier ih =>
      cases text with
      | nil => exact absurd (nil_lt_cons _ _) reaches
      | cons other tail =>
        rw [cons_append, cons_lt_cons_iff, not_or, not_and] at reaches
        rw [cons_append, cons_lt_cons_iff] at below
        obtain less | ⟨rfl, within⟩ := below
        · exact absurd less reaches.1
        · exact cons_prefix_cons.mpr ⟨rfl, ih (reaches.2 rfl) within⟩

end
end Atlas.Text
