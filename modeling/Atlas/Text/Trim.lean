import Mathlib.Data.List.Infix

/-! Texts without the blanks at their ends. -/
namespace Atlas.Text
open List

section
variable {Letter : Type} {blank : Letter → Bool} {text before behind : List Letter}

def stripEnd (blank : Letter → Bool) (text : List Letter) : List Letter :=
  (text.reverse.dropWhile blank).reverse
def strip (blank : Letter → Bool) (text : List Letter) : List Letter :=
  stripEnd blank (text.dropWhile blank)

/-- There is nothing to trim at either end. -/
structure Tight (blank : Letter → Bool) (text : List Letter) : Prop where
  front : ∀ c ∈ text.head?, blank c = false
  back : ∀ c ∈ text.getLast?, blank c = false

theorem Tight.nil : Tight blank [] := by
  constructor <;> intro c mem <;> cases mem

theorem dropWhile_append_of_all (blanks : ∀ c ∈ before, blank c = true) :
    (before ++ text).dropWhile blank = text.dropWhile blank := by
  induction before with
  | nil => rfl
  | cons c rest ih =>
    rw [cons_append, dropWhile_cons_of_pos (blanks c mem_cons_self)]
    exact ih fun other mem => blanks other (.tail _ mem)

theorem dropWhile_of_front (front : ∀ c ∈ text.head?, blank c = false) :
    text.dropWhile blank = text := by
  cases text with
  | nil => rfl
  | cons c rest => exact dropWhile_cons_of_neg (by rw [front c rfl]; exact Bool.false_ne_true)

theorem stripEnd_append_of_all (blanks : ∀ c ∈ behind, blank c = true) :
    stripEnd blank (text ++ behind) = stripEnd blank text := by
  unfold stripEnd
  rw [reverse_append, dropWhile_append_of_all fun c mem => blanks c (mem_reverse.mp mem)]

theorem stripEnd_of_back (back : ∀ c ∈ text.getLast?, blank c = false) :
    stripEnd blank text = text := by
  unfold stripEnd
  rw [dropWhile_of_front fun c mem => back c (head?_reverse ▸ mem), reverse_reverse]

theorem strip_append_of_all (blanks : ∀ c ∈ before, blank c = true) :
    strip blank (before ++ text) = strip blank text := by
  unfold strip
  rw [dropWhile_append_of_all blanks]

theorem strip_pad (tight : Tight blank text) (front : ∀ c ∈ before, blank c = true)
    (back : ∀ c ∈ behind, blank c = true) : strip blank (before ++ (text ++ behind)) = text := by
  rw [strip_append_of_all front]
  unfold strip
  cases text with
  | nil =>
    have gone : behind.dropWhile blank = [] := by
      have dropped := @dropWhile_append_of_all _ blank [] behind back
      rwa [append_nil] at dropped
    rw [nil_append, gone]
    rfl
  | cons c rest =>
    have kept : (c :: rest ++ behind).dropWhile blank = c :: rest ++ behind := by
      apply dropWhile_of_front
      intro other first
      exact tight.front other first
    rw [kept, stripEnd_append_of_all back, stripEnd_of_back tight.back]

theorem exists_stripEnd (blank : Letter → Bool) (text : List Letter) :
    ∃ behind, text = stripEnd blank text ++ behind ∧ ∀ c ∈ behind, blank c = true := by
  refine ⟨(text.reverse.takeWhile blank).reverse, ?_, ?_⟩
  · unfold stripEnd
    rw [← reverse_append, takeWhile_append_dropWhile, reverse_reverse]
  · intro c mem
    exact all_eq_true.mp all_takeWhile c (mem_reverse.mp mem)

theorem exists_strip (blank : Letter → Bool) (text : List Letter) :
    ∃ before behind, text = before ++ (strip blank text ++ behind) ∧
      (∀ c ∈ before, blank c = true) ∧ ∀ c ∈ behind, blank c = true := by
  obtain ⟨behind, rest, back⟩ := exists_stripEnd blank (text.dropWhile blank)
  refine ⟨text.takeWhile blank, behind, ?_, fun c => all_eq_true.mp all_takeWhile c, back⟩
  unfold strip
  rw [← rest, takeWhile_append_dropWhile]

theorem dropWhile_front (text : List Letter) :
    ∀ c ∈ (text.dropWhile blank).head?, blank c = false := by
  intro c first
  have solid := head?_dropWhile_not blank text
  rwa [Option.mem_def.mp first] at solid

theorem stripEnd_back (text : List Letter) :
    ∀ c ∈ (stripEnd blank text).getLast?, blank c = false := by
  unfold stripEnd
  rw [getLast?_reverse]
  exact dropWhile_front _

theorem strip_tight (text : List Letter) : Tight blank (strip blank text) where
  front c first := by
    obtain ⟨behind, whole, _⟩ := exists_stripEnd blank (text.dropWhile blank)
    refine dropWhile_front text c ?_
    rw [whole, head?_append]
    exact Option.mem_def.mpr (by rw [← strip, Option.mem_def.mp first]; rfl)
  back := stripEnd_back _

theorem strip_eq_nil_iff : strip blank text = [] ↔ ∀ c ∈ text, blank c = true := by
  constructor
  · intro empty c mem
    obtain ⟨before, behind, whole, front, back⟩ := exists_strip blank text
    rw [empty, nil_append] at whole
    rw [whole] at mem
    exact (mem_append.mp mem).elim (front c) (back c)
  · intro blanks
    have padded : strip blank (text ++ ([] ++ [])) = [] := strip_pad Tight.nil blanks nofun
    rwa [nil_append, append_nil] at padded

end

/-- `trim_end_matches('\r')`. -/
def withoutReturns (line : List Char) : List Char := stripEnd (fun c => decide (c = '\r')) line

end Atlas.Text
