import Mathlib.Algebra.Order.Ring.Int
import Atlas.Text.Find

/-! Numerals of a fixed width sort as the numbers they stand for. A fraction printed
without its trailing zeros does so only up to the weight of its last digit. -/
namespace Atlas.Text
open List Nat

variable {left right number width number' : Nat}

theorem append_lt_append_iff {α : Type} [LT α] [Std.Irrefl (· < · : α → α → Prop)]
    {left right : List α} (width : left.length = right.length) (leftRest rightRest : List α) :
    left ++ leftRest < right ++ rightRest ↔ left < right ∨ left = right ∧ leftRest < rightRest := by
  induction left generalizing right with
  | nil =>
    cases right with
    | nil => simp
    | cons head tail => simp at width
  | cons head tail ih =>
    cases right with
    | nil => simp at width
    | cons head' tail' =>
      have widths : tail.length = tail'.length := by simpa using width
      simp only [cons_append, cons_lt_cons_iff, ih widths, cons.injEq]
      constructor
      · rintro (smaller | ⟨rfl, smaller | ⟨rfl, rest⟩⟩)
        · exact .inl (.inl smaller)
        · exact .inl (.inr ⟨rfl, smaller⟩)
        · exact .inr ⟨⟨rfl, rfl⟩, rest⟩
      · rintro ((smaller | ⟨rfl, smaller⟩) | ⟨⟨rfl, rfl⟩, rest⟩)
        · exact .inl smaller
        · exact .inr ⟨rfl, .inl smaller⟩
        · exact .inr ⟨rfl, .inr ⟨rfl, rest⟩⟩

theorem radix_lt_iff {radix low low' : Nat}
    (high high' : Nat) (bound : low < radix) (bound' : low' < radix) :
    high * radix + low < high' * radix + low' ↔ high < high' ∨ high = high' ∧ low < low' := by
  constructor
  · intro smaller
    rcases lt_trichotomy high high' with less | rfl | greater
    · exact .inl less
    · exact .inr ⟨rfl, by omega⟩
    · have step : (high' + 1) * radix ≤ high * radix := mul_le_mul_right radix greater
      rw [add_mul] at step
      omega
  · rintro (less | ⟨rfl, less⟩)
    · have step : (high + 1) * radix ≤ high' * radix := mul_le_mul_right radix less
      rw [add_mul] at step
      omega
    · omega

theorem natRepr_injective (same : left.repr = right.repr) : left = right := by
  have digits : Nat.toDigits 10 left = Nat.toDigits 10 right := by simpa only [toList_repr] using congrArg String.toList same
  calc
    left = Nat.ofDigitChars 10 (Nat.toDigits 10 left) 0 := Nat.ofDigitChars_ten_toDigits.symm
    _ = Nat.ofDigitChars 10 (Nat.toDigits 10 right) 0 := by rw [digits]
    _ = right := ofDigitChars_ten_toDigits

theorem isDigit_of_mem_natRepr {c : Char} (mem : c ∈ number.repr.toList) : c.isDigit = true := by
  rw [toList_repr] at mem
  exact isDigit_of_mem_toDigits (by decide) (by decide) mem

theorem append_separator_inj {α : Type} {separator : α}
    {left right last last' : List α} (absent : separator ∉ last) (absent' : separator ∉ last')
    (same : left ++ separator :: last = right ++ separator :: last') :
    left = right ∧ last = last' := by
  have back := congrArg reverse same
  simp only [reverse_append, reverse_cons, append_assoc, singleton_append] at back
  obtain ⟨lasts, fronts⟩ := (separated_inj (mt mem_reverse.mp absent) (mt mem_reverse.mp absent')).mp back
  exact ⟨reverse_injective fronts, reverse_injective lasts⟩

theorem intRepr_injective {left right : Int} (same : left.repr = right.repr) : left = right := by
  have unsigned : ∀ plain signed : Nat, plain.repr ≠ "-" ++ signed.repr := by
    intro plain signed equal
    have minus : '-' ∈ plain.repr.toList := by
      rw [equal, String.toList_append]
      exact mem_append_left _ (by decide)
    exact absurd (isDigit_of_mem_natRepr minus) (by decide)
  cases left with
  | ofNat left =>
    cases right with
    | ofNat right => exact congrArg Int.ofNat (natRepr_injective same)
    | negSucc right => exact absurd same (unsigned left _)
  | negSucc left =>
    cases right with
    | ofNat right => exact absurd same.symm (unsigned right _)
    | negSucc right =>
      have tails : left.succ.repr = right.succ.repr := by
        have chars := congrArg String.toList same
        simp only [Int.repr, String.toList_append, append_cancel_left_eq] at chars
        exact String.toList_injective chars
      exact congrArg Int.negSucc (Nat.succ.inj (natRepr_injective tails))

theorem digitChar_lt_iff (leftDigit : left < 10) (rightDigit : right < 10) :
    Nat.digitChar left < Nat.digitChar right ↔ left < right := by
  have codes : Nat.digitChar left < Nat.digitChar right ↔
    (Nat.digitChar left).toNat < (Nat.digitChar right).toNat := UInt32.lt_iff_toNat_lt
  rw [codes, toNat_digitChar_of_lt_ten leftDigit, toNat_digitChar_of_lt_ten rightDigit]
  omega

theorem digitChar_eq_iff (leftDigit : left < 10) (rightDigit : right < 10) :
    Nat.digitChar left = Nat.digitChar right ↔ left = right := by
  constructor
  · intro same
    have codes := congrArg Char.toNat same
    rw [toNat_digitChar_of_lt_ten leftDigit, toNat_digitChar_of_lt_ten rightDigit] at codes
    omega
  · rintro rfl
    rfl

def padZero : Nat → Nat → List Char
  | 0, _ => []
  | width + 1, number => Nat.digitChar (number / 10 ^ width % 10) :: padZero width (number % 10 ^ width)

@[simp] theorem padZero_length (width number : Nat) : (padZero width number).length = width := by
  induction width generalizing number with
  | zero => rfl
  | succ width ih => simp [padZero, ih]

theorem leading_digit (bound : number < 10 ^ (width + 1)) : number / 10 ^ width < 10 := by
  apply Nat.div_lt_of_lt_mul
  simpa [Nat.pow_succ] using bound

theorem split_digit (width number : Nat) :
    number = number / 10 ^ width * 10 ^ width + number % 10 ^ width := by
  rw [mul_comm]
  exact (div_add_mod number (10 ^ width)).symm

theorem padZero_lt_iff (bound : number < 10 ^ width) (bound' : number' < 10 ^ width) :
    padZero width number < padZero width number' ↔ number < number' := by
  induction width generalizing number number' with
  | zero =>
    have zero : number = 0 := by simpa using bound
    have zero' : number' = 0 := by simpa using bound'
    simp [zero, zero', padZero]
  | succ width ih =>
    have digit := leading_digit bound
    have digit' := leading_digit bound'
    have pos : 0 < 10 ^ width := Nat.pow_pos (by decide)
    have low := Nat.mod_lt number pos
    have low' := Nat.mod_lt number' pos
    rw [padZero, padZero, mod_eq_of_lt digit, mod_eq_of_lt digit', cons_lt_cons_iff,
      digitChar_lt_iff digit digit', digitChar_eq_iff digit digit',
      ih low low', ← radix_lt_iff _ _ low low', ← split_digit, ← split_digit]

theorem padZero_eq_iff (bound : number < 10 ^ width) (bound' : number' < 10 ^ width) :
    padZero width number = padZero width number' ↔ number = number' := by
  constructor
  · intro same
    have notLess : ¬ number < number' := by
      rw [← padZero_lt_iff bound bound', same]
      exact List.lt_irrefl _
    have notGreater : ¬ number' < number := by
      rw [← padZero_lt_iff bound' bound, same]
      exact List.lt_irrefl _
    omega
  · rintro rfl
    rfl

/-- The digits of a fraction of `width` places, printed until what is left is zero. -/
def fraction : Nat → Nat → List Char
  | 0, _ => []
  | width + 1, number =>
    if number = 0 then []
    else Nat.digitChar (number / 10 ^ width % 10) :: fraction width (number % 10 ^ width)

theorem fraction_inj (bound : number < 10 ^ width) (bound' : number' < 10 ^ width)
    (same : fraction width number = fraction width number') : number = number' := by
  induction width generalizing number number' with
  | zero => omega
  | succ width ih =>
    rw [fraction, fraction] at same
    by_cases zero : number = 0
    · by_cases zero' : number' = 0
      · rw [zero, zero']
      · rw [if_pos zero, if_neg zero'] at same
        cases same
    · by_cases zero' : number' = 0
      · rw [if_neg zero, if_pos zero'] at same
        cases same
      · have digit := leading_digit bound
        have digit' := leading_digit bound'
        have pos : 0 < 10 ^ width := Nat.pow_pos (by decide)
        rw [if_neg zero, if_neg zero', mod_eq_of_lt digit, mod_eq_of_lt digit'] at same
        obtain ⟨first, others⟩ := cons.inj same
        have high := (digitChar_eq_iff digit digit').mp first
        have low := ih (Nat.mod_lt number pos) (Nat.mod_lt number' pos) others
        rw [split_digit width number, split_digit width number', high, low]

/-- The weight of the last digit that `fraction` prints, or of the whole when it
prints none. -/
def lastUnit : Nat → Nat → Nat
  | 0, _ => 1
  | width + 1, number => if number = 0 then 10 ^ (width + 1) else lastUnit width (number % 10 ^ width)

theorem lastUnit_fits (bound : number < 10 ^ width) :
    number + lastUnit width number ≤ 10 ^ width := by
  induction width generalizing number with
  | zero =>
    have zero : number = 0 := by simpa using bound
    simp [zero, lastUnit]
  | succ width ih =>
    by_cases zero : number = 0
    · simp [zero, lastUnit]
    · have digit := leading_digit bound
      have rest := ih (Nat.mod_lt number (Nat.pow_pos (by decide)))
      have whole := split_digit width number
      have step : (number / 10 ^ width + 1) * 10 ^ width ≤ 10 * 10 ^ width := mul_le_mul_right _ digit
      rw [add_mul] at step
      rw [lastUnit, if_neg zero, Nat.pow_succ]
      omega

/-- A fraction, closed by a letter above the digits, sorts below another exactly
when the other lies a whole unit of its last printed digit further. -/
theorem fraction_lt_iff {close : Char} (less : number < number')
    (bound' : number' < 10 ^ width) (high : ∀ digit < 10, Nat.digitChar digit < close) :
    fraction width number ++ [close] < fraction width number' ++ [close] ↔ number + lastUnit width number ≤ number' := by
  induction width generalizing number number' with
  | zero =>
    have zero' : number' = 0 := by simpa using bound'
    omega
  | succ width ih =>
    have digit' := leading_digit bound'
    have whole' := split_digit width number'
    have nonzero' : number' ≠ 0 := by omega
    have pos : 0 < 10 ^ width := Nat.pow_pos (by decide)
    have low' := Nat.mod_lt number' pos
    rw [fraction, fraction, if_neg nonzero', mod_eq_of_lt digit', lastUnit]
    by_cases zero : number = 0
    · -- The shorter text ends here: its closing letter meets a digit.
      rw [if_pos zero, if_pos zero]
      have after := high _ digit'
      have notLess : ¬ close < Nat.digitChar (number' / 10 ^ width) := fun later => Char.lt_irrefl _ (Char.lt_trans after later)
      have differ : close ≠ Nat.digitChar (number' / 10 ^ width) := by
        intro same
        rw [same] at after
        exact Char.lt_irrefl _ after
      simp only [nil_append, cons_append, cons_lt_cons_iff]
      constructor
      · rintro (smaller | ⟨same, -⟩)
        · exact absurd smaller notLess
        · exact absurd same differ
      · intro far
        omega
    · have bound : number < 10 ^ (width + 1) := lt_trans less bound'
      have digit := leading_digit bound
      have whole := split_digit width number
      have low := Nat.mod_lt number pos
      rw [if_neg zero, if_neg zero, mod_eq_of_lt digit]
      simp only [cons_append, cons_lt_cons_iff]
      rw [digitChar_lt_iff digit digit', digitChar_eq_iff digit digit']
      have parts : number / 10 ^ width < number' / 10 ^ width ∨ number / 10 ^ width =
        number' / 10 ^ width ∧ number % 10 ^ width < number' % 10 ^ width := by
        rw [← radix_lt_iff _ _ low low', ← split_digit, ← split_digit]
        exact less
      rcases parts with smaller | ⟨same, smaller⟩
      · -- The first digits differ, and the unit stays within the first digit's place.
        have room := lastUnit_fits low
        have step : (number / 10 ^ width + 1) * 10 ^ width ≤ number' / 10 ^ width * 10 ^ width := mul_le_mul_right _ smaller
        rw [add_mul] at step
        constructor
        · intro _
          omega
        · intro _
          exact .inl smaller
      · have rest := ih smaller low'
        rw [same] at whole
        constructor
        · rintro (wrong | ⟨-, later⟩)
          · omega
          · have far := rest.mp later
            omega
        · intro far
          exact .inr ⟨same, rest.mpr (by omega)⟩

end Atlas.Text
