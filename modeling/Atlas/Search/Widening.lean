import Atlas.Search.Filters
import Atlas.Search.FtsEscape
import Atlas.Text.Split
import Atlas.Text.Trim

/-! An expanded query is a text of its own and passes the same check as the text it was made
from. Three places decide the check character by character: in a gap, in the stem of a
term and behind its star. The parts of a text that passes begin at such a place too. -/
namespace Atlas.Search
open List Sql
open Repo (isWhitespace splitWhitespace)

inductive LetterKind where
  | space
  | stem
  | star
  | other
  deriving DecidableEq

inductive TermPlace where
  | gap
  | stem
  | starred

def TermPlace.next : TermPlace → LetterKind → Option TermPlace
  | _, .space => some .gap
  | .gap, .stem => some .stem
  | .stem, .stem => some .stem
  | .stem, .star => some .starred
  | _, _ => none

def TermPlace.run (place : TermPlace) (kinds : List LetterKind) : Option TermPlace :=
  kinds.foldlM TermPlace.next place

@[simp] theorem TermPlace.run_nil (place : TermPlace) : place.run [] = some place := rfl
@[simp] theorem TermPlace.run_cons (place : TermPlace)
    (kind : LetterKind) (rest : List LetterKind) :
    place.run (kind :: rest) = (place.next kind).bind fun next => next.run rest := rfl

theorem TermPlace.run_append (place : TermPlace) (left right : List LetterKind) :
    place.run (left ++ right) = (place.run left).bind fun next => next.run right := foldlM_append

variable {kinds : List LetterKind}

theorem TermPlace.run_other (inside : .other ∈ kinds) :
    ∀ place : TermPlace, place.run kinds = none := by
  induction kinds with
  | nil => cases inside
  | cons kind rest ih =>
    intro place
    rw [run_cons]
    rcases mem_cons.mp inside with rfl | behind
    · cases place <;> rfl
    · cases place.next kind with
      | none => rfl
      | some next => exact ih behind next

theorem TermPlace.run_stems (filled : kinds ≠ []) (stems : ∀ kind ∈ kinds, kind = .stem)
    (place : TermPlace) : place.run kinds = place.next .stem := by
  induction kinds generalizing place with
  | nil => exact absurd rfl filled
  | cons kind rest ih =>
    obtain rfl := stems kind (.head _)
    rw [run_cons]
    by_cases empty : rest = []
    · subst empty
      cases place <;> rfl
    · have onward := ih empty fun kind mem => stems kind (.tail _ mem)
      cases place with
      | gap | stem => exact onward .stem
      | starred => rfl

theorem TermPlace.run_gap {kinds : List LetterKind} {place : TermPlace}
    (runs : (place.run kinds).isSome = true) (first : kinds.head? ≠ some .star) :
    (TermPlace.gap.run kinds).isSome = true := by
  cases kinds with
  | nil => rfl
  | cons kind rest =>
    rw [run_cons] at runs ⊢
    cases kind with
    | space => cases place <;> exact runs
    | stem =>
      cases place with
      | gap | stem => exact runs
      | starred => cases runs
    | star => exact absurd rfl first
    | other => cases place <;> cases runs

theorem TermPlace.run_part {before part behind : List LetterKind}
    (runs : (TermPlace.gap.run (before ++ part ++ behind)).isSome = true)
    (first : part.head? ≠ some .star) : (TermPlace.gap.run part).isSome = true := by
  rw [run_append, run_append] at runs
  cases reached : TermPlace.gap.run before with
  | none =>
    rw [reached] at runs
    cases runs
  | some place =>
    rw [reached, Option.bind_some] at runs
    refine @TermPlace.run_gap _ place ?_ first
    cases ran : place.run part with
    | none =>
      rw [ran] at runs
      cases runs
    | some next => rfl

def TermPlace.Reached (kinds : List LetterKind) : TermPlace → Prop
  | .gap => kinds = []
  | .stem => kinds ≠ [] ∧ ∀ kind ∈ kinds, kind = .stem
  | .starred => ∃ stem, kinds = stem ++ [.star] ∧ stem ≠ [] ∧ ∀ kind ∈ stem, kind = .stem

theorem TermPlace.reached_of_run (solid : .space ∉ kinds) :
    ∀ {place : TermPlace}, TermPlace.gap.run kinds = some place → place.Reached kinds := by
  induction kinds using reverseRecOn with
  | nil =>
    intro place ran
    cases ran
    rfl
  | append_singleton kinds kind ih =>
    intro place ran
    rw [mem_append, not_or] at solid
    rw [TermPlace.run_append] at ran
    obtain ⟨middle, before, step⟩ := Option.bind_eq_some_iff.mp ran
    rw [TermPlace.run_cons] at step
    obtain ⟨next, stepped, same⟩ := Option.bind_eq_some_iff.mp step
    cases same
    have reached := ih solid.1 before
    cases kind with
    | space => exact absurd (mem_singleton_self _) solid.2
    | other => cases middle <;> cases stepped
    | star =>
      cases middle with
      | gap | starred => cases stepped
      | stem =>
        cases stepped
        exact ⟨kinds, rfl, reached.1, reached.2⟩
    | stem =>
      cases middle with
      | starred => cases stepped
      | gap =>
        cases stepped
        obtain rfl : kinds = [] := reached
        exact ⟨cons_ne_nil _ _, fun kind mem => mem_singleton.mp mem⟩
      | stem =>
        cases stepped
        refine ⟨by simp, fun kind mem => ?_⟩
        rcases mem_append.mp mem with mem | mem
        · exact reached.2 kind mem
        · exact mem_singleton.mp mem

/-! ## Words of a text -/

section
variable {kindOf : Char → LetterKind} {text : List Char} {tokens : List (List Char)}

theorem Spaced.eq_nil_iff (spaced : Spaced text tokens) :
    tokens = [] ↔ ∀ c ∈ text, isWhitespace c = true := by
  induction spaced with
  | nil => simp
  | @space c rest tokens space _ ih => simp [ih, space]
  | @last word filled solid =>
    refine iff_of_false (cons_ne_nil _ _) fun blank => ?_
    obtain ⟨c, rest, rfl⟩ := exists_cons_of_ne_nil filled
    have white := blank c (.head _)
    rw [solid c mem_cons_self] at white
    cases white
  | @word word c rest tokens filled solid _ _ _ =>
    refine iff_of_false (cons_ne_nil _ _) fun blank => ?_
    obtain ⟨d, others, rfl⟩ := exists_cons_of_ne_nil filled
    have white := blank d (.head _)
    rw [solid d mem_cons_self] at white
    cases white

theorem Spaced.run (spaces : ∀ c, kindOf c = .space ↔ isWhitespace c = true)
    (spaced : Spaced text tokens) :
    (∀ word ∈ tokens, (TermPlace.gap.run (word.map kindOf)).isSome = true) ↔
      (TermPlace.gap.run (text.map kindOf)).isSome = true := by
  induction spaced with
  | nil => simp
  | @space c rest tokens space _ ih =>
    rw [ih, map_cons, (spaces c).mpr space]
    rfl
  | last _ _ => simp
  | @word word c rest tokens _ _ space _ ih =>
    rw [forall_mem_cons, ih, map_append, map_cons, (spaces c).mpr space, TermPlace.run_append]
    cases TermPlace.gap.run (word.map kindOf) with
    | none => simp
    | some place =>
      rw [Option.bind_some, TermPlace.run_cons]
      cases place <;> simp [TermPlace.next]

end

def isStem (c : Char) : Bool := c.isAlphanum || decide (c = '_')

def letterKind (c : Char) : LetterKind :=
  if isWhitespace c then .space
  else if c = '*' then .star
  else if isStem c then .stem
  else .other

theorem letterKind_eq_space_iff (c : Char) : letterKind c = .space ↔ isWhitespace c = true := by
  unfold letterKind
  split_ifs <;> simp_all

private theorem not_isWhitespace_of_isStem {c : Char} (stem : isStem c = true) :
    isWhitespace c = false := by
  cases space : isWhitespace c with
  | false => rfl
  | true =>
    have bare : isBareword c = true := isBareword_of_letter (by simpa [isStem] using stem)
    rcases isWhitespace_cases space with narrow | rfl | rfl | wide
    · rw [not_isBareword_of_isFtsSpace narrow] at bare
      cases bare
    · exact absurd stem (by decide)
    · exact absurd stem (by decide)
    · have narrow : c.toNat < 0x80 := by
        rcases Bool.or_eq_true_iff.mp stem with letter | line
        · delta Char.isAlphanum Char.isAlpha Char.isUpper Char.isLower Char.isDigit at letter
          simp only [Bool.or_eq_true, Bool.and_eq_true, decide_eq_true_eq, UInt32.le_iff_toNat_le,
            ge_iff_le, Char.reduceVal, UInt32.reduceToNat] at letter
          change c.val.toNat < 0x80
          omega
        · rw [of_decide_eq_true line]
          decide
      omega

theorem letterKind_eq_stem_iff (c : Char) : letterKind c = .stem ↔ isStem c = true := by
  unfold letterKind
  by_cases stem : isStem c = true
  · have notStar : c ≠ '*' := by
      rintro rfl
      exact absurd stem (by decide)
    rw [if_neg (by rw [not_isWhitespace_of_isStem stem]; exact Bool.false_ne_true), if_neg notStar,
      if_pos stem]
    exact iff_of_true rfl stem
  · rw [if_neg stem]
    refine iff_of_false ?_ stem
    split_ifs <;> decide

private theorem letterKind_eq_star_iff (c : Char) : letterKind c = .star ↔ c = '*' := by
  constructor
  · intro star
    unfold letterKind at star
    split_ifs at star with space isStar
    exact isStar
  · rintro rfl
    decide

private theorem looksLikeSafeFtsTerm_iff_run {word : List Char}
    (filled : word ≠ []) (solid : ∀ c ∈ word, isWhitespace c = false) :
    looksLikeSafeFtsTerm word = true ↔ (TermPlace.gap.run (word.map letterKind)).isSome = true := by
  constructor
  · intro safe
    obtain ⟨stem, stemFilled, letters, shape⟩ := looksLikeSafeFtsTerm_cases safe
    have kinds : ∀ kind ∈ stem.map letterKind, kind = .stem := by
      intro kind mem
      obtain ⟨c, inside, rfl⟩ := mem_map.mp mem
      exact (letterKind_eq_stem_iff c).mpr (by simpa [isStem] using letters c inside)
    have ran := TermPlace.run_stems (by simpa using stemFilled) kinds .gap
    rcases shape with rfl | rfl
    · rw [ran]
      rfl
    · rw [map_append, TermPlace.run_append, ran]
      rfl
  · intro runs
    obtain ⟨place, ran⟩ := Option.isSome_iff_exists.mp runs
    have clear : .space ∉ word.map letterKind := by
      intro mem
      obtain ⟨c, inside, space⟩ := mem_map.mp mem
      rw [letterKind_eq_space_iff, solid c inside] at space
      cases space
    have reached := TermPlace.reached_of_run clear ran
    have stemOf : ∀ stem : List Char, (∀ kind ∈ stem.map letterKind, kind = .stem) → ∀ c ∈ stem,
      (c.isAlphanum || decide (c = '_')) = true := fun stem kinds c inside =>
      (letterKind_eq_stem_iff c).mp (kinds _ (mem_map_of_mem inside))
    cases place with
    | gap => exact absurd (map_eq_nil_iff.mp reached) filled
    | stem =>
      have letters := stemOf word reached.2
      have noStar : word.getLast? ≠ some '*' := fun last => absurd (letters '*' (mem_of_getLast? last)) (by decide)
      simp [looksLikeSafeFtsTerm, if_neg noStar, filled, all_eq_true.mpr letters]
    | starred =>
      obtain ⟨kinds, whole, kindsFilled, stems⟩ := reached
      obtain ⟨stem, tail, rfl, rfl, last⟩ := map_eq_append_iff.mp whole
      obtain ⟨c, rest, rfl, star, none'⟩ := map_eq_cons_iff.mp last
      obtain rfl := (letterKind_eq_star_iff c).mp star
      obtain rfl := map_eq_nil_iff.mp none'
      have letters := all_eq_true.mpr (stemOf stem stems)
      have stemFilled : stem ≠ [] := fun empty => kindsFilled (by rw [empty]; rfl)
      unfold looksLikeSafeFtsTerm
      rw [if_pos getLast?_concat, dropLast_concat]
      dsimp only
      rw [letters]
      simpa using stemFilled

/-! ## Lowering -/

def foldSigma (c : Char) : Char := if c = 'ς' then 'σ' else c

/-- What the standard library says of cases: every character is lowered to a text of its
own, but for the form of a sigma, and an upper-case character is a letter. -/
structure CaseRules {Score Embedding : Type} (lib : Library Score Embedding) : Prop where
  append : ∀ left right, (lib.toLowercase (left ++ right)).map foldSigma =
    (lib.toLowercase left ++ lib.toLowercase right).map foldSigma
  ascii : ∀ c : Char, c.toNat < 0x80 → lib.toLowercase [c] = [c.toLower]
  space : ∀ c, isWhitespace c = true → lib.toLowercase [c] = [c]
  wide : ∀ c : Char, 0x80 ≤ c.toNat → isWhitespace c = false → lib.toLowercase [c] ≠ [] ∧
    ∀ d ∈ lib.toLowercase [c], isWhitespace d = false ∧ (d.toNat < 0x80 → d.isLower = true)
  upper : ∀ c, lib.isUppercase c = true → isWhitespace c = false ∧ c ≠ '*'

section
variable {Score Embedding : Type} {lib : Library Score Embedding} {c : Char}

theorem eq_of_foldSigma {d : Char} (same : foldSigma c = foldSigma d) (narrow : d.toNat < 0x80) :
    c = d := by
  have plain : foldSigma d = d := if_neg fun sigma => by
    subst sigma
    exact absurd narrow (by decide)
  rw [plain] at same
  unfold foldSigma at same
  split_ifs at same with final
  · subst same
    exact absurd narrow (by decide)
  · exact same

theorem toNat_lt_of_isUpper (upper : c.isUpper = true) : c.toNat < 0x80 := by
  delta Char.isUpper at upper
  simp only [decide_eq_true_eq, UInt32.le_iff_toNat_le, ge_iff_le, Char.reduceVal, UInt32.reduceToNat] at upper
  change c.val.toNat < 0x80
  omega

theorem ascii_cases {P : Char → Prop}
    (holds : ∀ code < 0x80, P (Char.ofNat code)) (c : Char) (narrow : c.toNat < 0x80) : P c := by
  have found := holds c.toNat narrow
  rwa [Char.ofNat_toNat] at found

namespace CaseRules

variable (rules : CaseRules lib)

include rules

private theorem lower_nil : lib.toLowercase [] = [] := by
  have twice := congrArg length (rules.append [] [])
  rw [nil_append, length_map, length_map, length_append] at twice
  exact eq_nil_of_length_eq_zero (by omega)

theorem lower_eq (text : List Char) : (lib.toLowercase text).map foldSigma = text.flatMap fun c =>
    (lib.toLowercase [c]).map foldSigma := by
  induction text with
  | nil =>
    rw [rules.lower_nil]
    rfl
  | cons c rest ih =>
    have first := rules.append [c] rest
    rw [singleton_append, map_append, ih] at first
    rw [first, flatMap_cons]

variable {d : Char}

theorem mem_lower {text : List Char} (mem : d ∈ lib.toLowercase text) :
    ∃ c ∈ text, ∃ e ∈ lib.toLowercase [c], foldSigma e = foldSigma d := by
  have folded := mem_map_of_mem (f := foldSigma) mem
  rw [rules.lower_eq, mem_flatMap] at folded
  obtain ⟨c, inside, made⟩ := folded
  exact ⟨c, inside, mem_map.mp made⟩

theorem lower_append_length (left right : List Char) : (lib.toLowercase (left ++ right)).length =
    (lib.toLowercase left).length + (lib.toLowercase right).length := by
  have lengths := congrArg length (rules.append left right)
  rwa [length_map, length_map, length_append] at lengths

theorem lower_single_ne_nil (c : Char) : lib.toLowercase [c] ≠ [] := by
  cases space : isWhitespace c with
  | true =>
    rw [rules.space c space]
    exact cons_ne_nil _ _
  | false =>
    by_cases narrow : c.toNat < 0x80
    · rw [rules.ascii c narrow]
      exact cons_ne_nil _ _
    · exact (rules.wide c (by omega) space).1

theorem lower_ne_nil {text : List Char} (filled : text ≠ []) : lib.toLowercase text ≠ [] := by
  obtain ⟨c, rest, rfl⟩ := exists_cons_of_ne_nil filled
  intro empty
  have lengths := rules.lower_append_length [c] rest
  rw [singleton_append, empty] at lengths
  exact rules.lower_single_ne_nil c (eq_nil_of_length_eq_zero (by simp at lengths; omega))

theorem lower_single_solid {c : Char}
    (solid : isWhitespace c = false) (mem : d ∈ lib.toLowercase [c]) : isWhitespace d = false := by
  by_cases narrow : c.toNat < 0x80
  · rw [rules.ascii c narrow] at mem
    obtain rfl := mem_singleton.mp mem
    revert solid
    exact ascii_cases (P := fun c => isWhitespace c = false → isWhitespace c.toLower = false) (by decide) c narrow
  · exact ((rules.wide c (by omega) solid).2 d mem).1

theorem lower_small (text : List Char) : ∀ d ∈ lib.toLowercase text, d.isUpper = false := by
  intro d mem
  by_contra upper
  rw [Bool.not_eq_false] at upper
  obtain ⟨c, _, e, made, same⟩ := rules.mem_lower mem
  obtain rfl := eq_of_foldSigma same (toNat_lt_of_isUpper upper)
  by_cases narrow : c.toNat < 0x80
  · rw [rules.ascii c narrow] at made
    obtain rfl := mem_singleton.mp made
    have small := ascii_cases (P := fun c => c.toLower.isUpper = false) (by decide) c narrow
    rw [upper] at small
    cases small
  · have narrow' := toNat_lt_of_isUpper upper
    cases space : isWhitespace c with
    | true =>
      rw [rules.space c space] at made
      obtain rfl := mem_singleton.mp made
      exact narrow narrow'
    | false =>
      have lower := ((rules.wide c (by omega) space).2 e made).2 narrow'
      revert upper lower
      exact ascii_cases (P := fun c => c.isUpper = true → c.isLower = true → False) (by decide) e narrow'

theorem mem_lower_iff {text : List Char} (space : isWhitespace d = true) (narrow : d.toNat < 0x80) :
    d ∈ lib.toLowercase text ↔ d ∈ text := by
  constructor
  · intro mem
    obtain ⟨c, inside, e, made, same⟩ := rules.mem_lower mem
    obtain rfl := eq_of_foldSigma same narrow
    cases white : isWhitespace c with
    | true =>
      rw [rules.space c white] at made
      rwa [mem_singleton.mp made]
    | false =>
      rw [rules.lower_single_solid white made] at space
      cases space
  · intro mem
    have made : foldSigma d ∈ text.flatMap fun c => (lib.toLowercase [c]).map foldSigma := by
      refine mem_flatMap.mpr ⟨d, mem, ?_⟩
      rw [rules.space d space]
      exact mem_singleton_self _
    rw [← rules.lower_eq] at made
    obtain ⟨e, inside, same⟩ := mem_map.mp made
    rwa [← eq_of_foldSigma same narrow]

end CaseRules

/-! ## The check of a lowered text -/

def lowerKind (lib : Library Score Embedding) (c : Char) : LetterKind :=
  if isWhitespace c then .space
  else if c = '*' then .star
  else if (lib.toLowercase [c]).all isStem then .stem
  else .other

private theorem lowerKind_eq_space_iff (lib : Library Score Embedding) (c : Char) :
    lowerKind lib c = .space ↔ isWhitespace c = true := by
  unfold lowerKind
  split_ifs <;> simp_all

theorem letterKind_foldSigma (c : Char) : letterKind (foldSigma c) = letterKind c := by
  unfold foldSigma
  split_ifs with final
  · subst final
    decide
  · rfl

theorem CaseRules.kinds_lower (rules : CaseRules lib) (text : List Char) :
    (lib.toLowercase text).map letterKind = text.flatMap fun c =>
      (lib.toLowercase [c]).map letterKind := by
  have folded := congrArg (map letterKind) (rules.lower_eq text)
  have forget : letterKind ∘ foldSigma = letterKind := funext letterKind_foldSigma
  rw [map_map, forget, map_flatMap] at folded
  rw [folded]
  simp only [map_map, forget]

theorem CaseRules.run_lower_single (rules : CaseRules lib) (c : Char) (place : TermPlace) :
    place.run ((lib.toLowercase [c]).map letterKind) = place.next (lowerKind lib c) := by
  unfold lowerKind
  by_cases space : isWhitespace c = true
  · rw [if_pos space, rules.space c space, map_singleton, (letterKind_eq_space_iff c).mpr space]
    cases place <;> rfl
  · rw [if_neg space]
    rw [Bool.not_eq_true] at space
    by_cases star : c = '*'
    · subst star
      rw [if_pos rfl, rules.ascii '*' (by decide)]
      cases place <;> rfl
    · rw [if_neg star]
      by_cases stems : (lib.toLowercase [c]).all isStem = true
      · rw [if_pos stems]
        refine TermPlace.run_stems (by simpa using rules.lower_single_ne_nil c) ?_ place
        intro kind mem
        obtain ⟨d, made, rfl⟩ := mem_map.mp mem
        exact (letterKind_eq_stem_iff d).mpr (all_eq_true.mp stems d made)
      · rw [if_neg stems]
        -- the character that is no stem is neither a space nor a star
        obtain ⟨d, made, stray⟩ : ∃ d ∈ lib.toLowercase [c], isStem d = false := by simpa using stems
        have notStar : d ≠ '*' := by
          rintro rfl
          by_cases narrow : c.toNat < 0x80
          · rw [rules.ascii c narrow] at made
            have same := (mem_singleton.mp made).symm
            revert star same
            exact ascii_cases (P := fun c => c ≠ '*' → c.toLower ≠ '*') (by decide) c narrow
          · exact absurd (((rules.wide c (by omega) space).2 _ made).2 (by decide)) (by decide)
        have other : letterKind d = .other := by
          rw [letterKind, if_neg (by rw [rules.lower_single_solid space made]; exact Bool.false_ne_true),
            if_neg notStar, if_neg (by rw [stray]; exact Bool.false_ne_true)]
        rw [TermPlace.run_other (other ▸ mem_map_of_mem made)]
        cases place <;> rfl

theorem CaseRules.run_lower (rules : CaseRules lib) (text : List Char) : ∀ place : TermPlace,
    place.run ((lib.toLowercase text).map letterKind) = place.run (text.map (lowerKind lib)) := by
  rw [rules.kinds_lower]
  induction text with
  | nil => exact fun _ => rfl
  | cons c rest ih =>
    intro place
    rw [flatMap_cons, TermPlace.run_append, rules.run_lower_single, map_cons, TermPlace.run_cons]
    exact congrArg _ (funext ih)

theorem not_isOperator_of_small {token : List Char} (small : ∀ c ∈ token, c.isUpper = false) :
    isOperator token = false := by
  cases operator : isOperator token with
  | false => rfl
  | true =>
    obtain ⟨which, isKeyword⟩ := isOperator_iff.mp operator
    have word := barewordToken_of_small small
    rw [barewordToken, isKeyword] at word
    cases word

variable {text : List Char}

theorem mem_of_mem_splitWhitespace {word : List Char} (mem : word ∈ splitWhitespace text) :
    word ≠ [] ∧ (∀ c ∈ word, isWhitespace c = false) ∧ word <:+: text := by
  have spaced := spaced_splitWhitespace text
  generalize splitWhitespace text = tokens at spaced mem
  induction spaced with
  | nil => cases mem
  | space _ _ ih =>
    obtain ⟨filled, solid, inside⟩ := ih mem
    exact ⟨filled, solid, inside.trans (suffix_cons _ _).isInfix⟩
  | last filled solid =>
    obtain rfl := mem_singleton.mp mem
    exact ⟨filled, solid, infix_rfl⟩
  | word filled solid _ _ ih =>
    rcases mem_cons.mp mem with rfl | behind
    · exact ⟨filled, solid, (prefix_append _ _).isInfix⟩
    · obtain ⟨filled, solid, inside⟩ := ih behind
      rw [append_cons]
      exact ⟨filled, solid, inside.trans (suffix_append _ _).isInfix⟩

theorem safeTokens_operands {tokens : List (List Char)}
    (operands : ∀ token ∈ tokens, isOperator token = false) (before : Option (List Char)) :
    safeTokens before tokens = tokens.all looksLikeSafeFtsTerm := by
  induction tokens generalizing before with
  | nil => rfl
  | cons token rest ih =>
    rw [safeTokens, operands token mem_cons_self, if_neg Bool.false_ne_true, all_cons,
      ih fun other mem => operands other (mem_cons_of_mem _ mem)]

theorem operands_of_small (small : ∀ c ∈ text, c.isUpper = false) :
    ∀ token ∈ splitWhitespace text, isOperator token = false := fun _ mem =>
  not_isOperator_of_small fun c inside => small c ((mem_of_mem_splitWhitespace mem).2.2.subset inside)

private theorem looksLikeSafeFtsQuery_small_iff (small : ∀ c ∈ text, c.isUpper = false) :
    looksLikeSafeFtsQuery text = true ↔ (∃ c ∈ text, isWhitespace c = false) ∧
      (TermPlace.gap.run (text.map letterKind)).isSome = true := by
  have words : splitWhitespace text ≠ [] ↔ ∃ c ∈ text, isWhitespace c = false := by
    rw [ne_eq, (spaced_splitWhitespace text).eq_nil_iff]
    simp
  rw [looksLikeSafeFtsQuery_iff, words, safeTokens_operands (operands_of_small small),
    all_eq_true, ← (spaced_splitWhitespace text).run letterKind_eq_space_iff]
  refine and_congr_right fun _ => forall₂_congr fun word mem => ?_
  obtain ⟨filled, solid, _⟩ := mem_of_mem_splitWhitespace mem
  exact looksLikeSafeFtsTerm_iff_run filled solid

theorem CaseRules.safe_lower_iff (rules : CaseRules lib) (text : List Char) :
    looksLikeSafeFtsQuery (lib.toLowercase text) = true ↔ (∃ c ∈ text, isWhitespace c = false) ∧
      (TermPlace.gap.run (text.map (lowerKind lib))).isSome = true := by
  rw [looksLikeSafeFtsQuery_small_iff (rules.lower_small text), rules.run_lower]
  refine and_congr_left fun _ => ⟨?_, ?_⟩
  · rintro ⟨d, mem, solid⟩
    by_contra blank
    push Not at blank
    obtain ⟨c, inside, e, made, same⟩ := rules.mem_lower mem
    have white : isWhitespace c = true := by simpa using blank c inside
    rw [rules.space c white] at made
    obtain rfl := mem_singleton.mp made
    have kinds := congrArg letterKind same
    rw [letterKind_foldSigma, letterKind_foldSigma, (letterKind_eq_space_iff e).mpr white] at kinds
    rw [(letterKind_eq_space_iff d).mp kinds.symm] at solid
    cases solid
  · rintro ⟨c, inside, solid⟩
    obtain ⟨e, others, made⟩ := exists_cons_of_ne_nil (rules.lower_single_ne_nil c)
    have mem : letterKind e ∈ (lib.toLowercase text).map letterKind := by
      rw [rules.kinds_lower]
      refine mem_flatMap.mpr ⟨c, inside, ?_⟩
      rw [made]
      exact .head _
    obtain ⟨d, found, same⟩ := mem_map.mp mem
    refine ⟨d, found, ?_⟩
    have solid' := rules.lower_single_solid solid (made ▸ mem_cons_self (a := e))
    cases white : isWhitespace d with
    | false => rfl
    | true =>
      rw [(letterKind_eq_space_iff d).mpr white] at same
      rw [(letterKind_eq_space_iff e).mp same.symm] at solid'
      cases solid'

/-! ## Parts of a text -/

private theorem splitCamelFrom_flatten (before : Option Char) (current text : List Char) :
    (splitCamelFrom lib before current text).flatten = current ++ text := by
  induction text generalizing before current with
  | nil =>
    rw [splitCamelFrom]
    cases current <;> simp
  | cons c rest ih =>
    rw [splitCamelFrom]
    split
    · rw [flatten_cons, ih]
      rfl
    · rw [ih, ← append_cons]

variable {part : List Char}

theorem mem_splitCamelFrom {before : Option Char}
    {current : List Char} (mem : part ∈ splitCamelFrom lib before current text) :
    part ≠ [] ∧ ∃ left right, current ++ text = left ++ part ++ right ∧
      (left = [] ∨ ∃ c, part.head? = some c ∧ lib.isUppercase c = true) := by
  induction text generalizing before current with
  | nil =>
    rw [splitCamelFrom] at mem
    split at mem
    · cases mem
    · rename_i filled
      obtain rfl := mem_singleton.mp mem
      exact ⟨by simpa using filled, [], [], by simp, .inl rfl⟩
  | cons c rest ih =>
    rw [splitCamelFrom] at mem
    split at mem
    · rename_i starts
      simp only [Bool.and_eq_true] at starts
      obtain ⟨⟨⟨upper, _⟩, _⟩, filled⟩ := starts
      rcases mem_cons.mp mem with rfl | behind
      · exact ⟨by simpa using filled, [], c :: rest, by simp, .inl rfl⟩
      · obtain ⟨partFilled, left, right, whole, start⟩ := ih behind
        refine ⟨partFilled, current ++ left, right, ?_, .inr ?_⟩
        · rw [← singleton_append, whole, append_assoc, append_assoc, append_assoc]
        · rcases start with rfl | start
          · obtain ⟨d, others, rfl⟩ := exists_cons_of_ne_nil partFilled
            rw [nil_append, singleton_append, cons_append] at whole
            obtain ⟨rfl, _⟩ := cons.inj whole
            exact ⟨c, rfl, upper⟩
          · exact start
    · obtain ⟨partFilled, left, right, whole, start⟩ := ih mem
      exact ⟨partFilled, left, right, by rw [append_cons, whole], start⟩

theorem mem_splitSnake (mem : part ∈ splitSnake text) :
    part ≠ [] ∧ part <:+: text ∧ '_' ∉ part := by
  obtain ⟨piece, filled⟩ := mem_filter.mp mem
  exact ⟨of_decide_eq_true filled, Text.infix_of_mem_splitOn piece, Text.not_mem_of_mem_splitOn part piece⟩

variable {variant : List Char} {texts : List (List Char)}

theorem mem_severalParts {parts : List (List Char)} : variant ∈ severalParts lib parts ↔
    1 < parts.length ∧ ∃ part ∈ parts, lib.toLowercase part = variant := by
  unfold severalParts
  split_ifs with several
  · rw [mem_map]
    exact ⟨fun found => ⟨several, found⟩, fun found => found.2⟩
  · exact iff_of_false not_mem_nil fun found => several found.1

def SnakeReady (text : List Char) : Prop := 1 < (splitSnake text).length → ∀ part ∈ splitSnake text,
    (∃ c ∈ part, isWhitespace c = false) ∧ part.head? ≠ some '*'

theorem lowerKind_eq_star_iff : lowerKind lib c = .star ↔ c = '*' := by
  constructor
  · intro star
    unfold lowerKind at star
    split_ifs at star with space isStar
    exact isStar
  · rintro rfl
    rfl

theorem CaseRules.safe_part (rules : CaseRules lib)
    (safe : looksLikeSafeFtsQuery (lib.toLowercase text) = true) (within : part <:+: text)
    (visible : ∃ c ∈ part, isWhitespace c = false) (first : part.head? ≠ some '*') :
    looksLikeSafeFtsQuery (lib.toLowercase part) = true := by
  obtain ⟨left, right, rfl⟩ := within
  have runs := ((rules.safe_lower_iff _).mp safe).2
  rw [map_append, map_append] at runs
  refine (rules.safe_lower_iff part).mpr ⟨visible, TermPlace.run_part runs ?_⟩
  rw [head?_map]
  intro star
  obtain ⟨c, head, kind⟩ := Option.map_eq_some_iff.mp star
  rw [head, lowerKind_eq_star_iff.mp kind] at first
  exact first rfl

theorem CaseRules.variants_safe_iff (rules : CaseRules lib)
    (tidy : ∃ c, text.head? = some c ∧ isWhitespace c = false) :
    (∀ variant ∈ tokenVariants lib text, looksLikeSafeFtsQuery variant = true) ↔
      looksLikeSafeFtsQuery (lib.toLowercase text) = true ∧ SnakeReady text := by
  unfold tokenVariants
  constructor
  · intro all
    refine ⟨all _ (by simp), fun several part mem => ?_⟩
    have safe := all (lib.toLowercase part) (by
      simp only [mem_append, mem_singleton, mem_severalParts]
      exact .inl (.inr ⟨several, part, mem, rfl⟩))
    obtain ⟨visible, runs⟩ := (rules.safe_lower_iff part).mp safe
    refine ⟨visible, fun star => ?_⟩
    obtain ⟨rest, rfl⟩ : ∃ rest, part = '*' :: rest := by
      cases part with
      | nil => cases star
      | cons c rest =>
        cases star
        exact ⟨rest, rfl⟩
    rw [map_cons, lowerKind_eq_star_iff.mpr rfl] at runs
    cases runs
  · rintro ⟨safe, ready⟩ variant mem
    simp only [mem_append, mem_singleton, mem_severalParts] at mem
    rcases mem with ((rfl | ⟨_, part, isPart, rfl⟩) | ⟨several, part, isPart, rfl⟩) | ⟨_, part, isPart, rfl⟩
    · exact safe
    · obtain ⟨filled, left, right, whole, start⟩ := mem_splitCamelFrom isPart
      rw [nil_append] at whole
      have within : part <:+: text := ⟨left, right, whole.symm⟩
      obtain ⟨c, rest, rfl⟩ := exists_cons_of_ne_nil filled
      rcases start with rfl | ⟨d, head, upper⟩
      · obtain ⟨d, head, solid⟩ := tidy
        have runs := ((rules.safe_lower_iff _).mp safe).2
        rw [whole, nil_append, cons_append] at head runs
        cases head
        refine rules.safe_part safe within ⟨c, .head _, solid⟩ fun star => ?_
        cases star
        rw [map_cons, lowerKind_eq_star_iff.mpr rfl] at runs
        cases runs
      · cases head
        obtain ⟨solid, notStar⟩ := rules.upper c upper
        exact rules.safe_part safe within ⟨c, .head _, solid⟩ fun star => notStar (Option.some.inj star)
    · obtain ⟨visible, first⟩ := ready several part isPart
      exact rules.safe_part safe (mem_splitSnake isPart).2.1 visible first
    · obtain ⟨filled, solid, _⟩ := mem_of_mem_splitWhitespace isPart
      obtain ⟨c, rest, rfl⟩ := exists_cons_of_ne_nil filled
      refine (rules.safe_lower_iff _).mpr ⟨⟨c, .head _, solid c mem_cons_self⟩, ?_⟩
      exact ((spaced_splitWhitespace text).run (lowerKind_eq_space_iff lib)).mpr ((rules.safe_lower_iff text).mp safe).2 _ isPart

/-! ## Texts joined by `OR` -/

theorem joined_cons (first next : List Char) (others : List (List Char)) :
    " OR ".toList.intercalate (first :: next :: others) =
      first ++ ' ' :: (['O', 'R'] ++ ' ' :: " OR ".toList.intercalate (next :: others)) := by
  simp [intercalate]

theorem splitWhitespace_append_space {left right : List Char} (space : isWhitespace c = true) :
    splitWhitespace (left ++ c :: right) = splitWhitespace left ++ splitWhitespace right := by
  unfold splitWhitespace
  rw [splitOnP_append_cons _ _ space, filter_append]

private theorem safeTokens_append_operands {left : List (List Char)} (operands : ∀ token ∈ left,
    isOperator token = false) (before : Option (List Char)) (right : List (List Char)) :
    safeTokens before (left ++ right) = (left.all looksLikeSafeFtsTerm && safeTokens (left.getLast?.or before) right) := by
  induction left generalizing before with
  | nil => simp
  | cons token rest ih =>
    have operand := operands token (.head _)
    rw [cons_append, safeTokens, operand, if_neg Bool.false_ne_true, all_cons,
      ih (fun other mem => operands other (mem_cons_of_mem _ mem)), Bool.and_assoc]
    cases rest <;> simp [getLast?_cons]

private theorem passes_joined_iff (filled : texts ≠ [])
    (small : ∀ text ∈ texts, ∀ c ∈ text, c.isUpper = false) :
    ∀ {before : Option (List Char)}, behindOperand before = false → ((splitWhitespace (" OR ".toList.intercalate texts) ≠ [] ∧
          safeTokens before (splitWhitespace (" OR ".toList.intercalate texts)) = true) ↔
        ∀ text ∈ texts, looksLikeSafeFtsQuery text = true) := by
  have alone : ∀ {text : List Char} (before : Option (List Char)), (∀ c ∈ text, c.isUpper = false) →
      ((splitWhitespace text ≠ [] ∧ (splitWhitespace text).all looksLikeSafeFtsTerm = true) ↔
        looksLikeSafeFtsQuery text = true) := by
    intro text before small
    rw [looksLikeSafeFtsQuery_iff, safeTokens_operands (operands_of_small small)]
  induction texts with
  | nil =>
    intro _ _
    exact absurd rfl filled
  | cons first others ih =>
    intro before edge
    have firstSmall := small first (.head _)
    cases others with
    | nil =>
      have whole : " OR ".toList.intercalate [first] = first := by simp [intercalate]
      rw [whole, safeTokens_operands (operands_of_small firstSmall), alone before firstSmall]
      simp
    | cons next others =>
      have behind : behindOperand (some ['O', 'R']) = false := by decide
      have rest := ih (cons_ne_nil _ _) (fun text mem => small text (.tail _ mem)) behind
      have or : splitWhitespace ['O', 'R'] = [['O', 'R']] := by decide
      rw [joined_cons, splitWhitespace_append_space (by decide), splitWhitespace_append_space (by decide),
        or, safeTokens_append_operands (operands_of_small firstSmall), forall_mem_cons, ← rest,
        ← alone before firstSmall]
      generalize splitWhitespace (" OR ".toList.intercalate (next :: others)) = tokens
      have operator : isOperator ['O', 'R'] = true := by decide
      rw [singleton_append, safeTokens, operator, if_pos rfl]
      constructor
      · rintro ⟨_, safe⟩
        obtain ⟨firstSafe, placed⟩ := Bool.and_eq_true_iff.mp safe
        obtain ⟨sides, more⟩ := Bool.and_eq_true_iff.mp placed
        obtain ⟨left, right⟩ := Bool.and_eq_true_iff.mp sides
        refine ⟨⟨fun empty => ?_, firstSafe⟩, fun empty => ?_, more⟩
        · rw [empty, getLast?_nil, Option.none_or] at left
          unfold behindOperand at edge
          rw [edge] at left
          cases left
        · rw [empty] at right
          cases right
      · rintro ⟨⟨firstFilled, firstSafe⟩, restFilled, more⟩
        refine ⟨by simp, ?_⟩
        rw [firstSafe, more, Bool.true_and, Bool.and_true, Bool.and_eq_true]
        constructor
        · obtain ⟨last, isLast⟩ := Option.ne_none_iff_exists'.mp (fun none' => firstFilled (getLast?_eq_none_iff.mp none'))
          have operand := operands_of_small firstSmall last (mem_of_getLast? isLast)
          rw [isLast, Option.some_or, Option.any_some, operand]
          rfl
        · obtain ⟨head, tail, rfl⟩ := exists_cons_of_ne_nil restFilled
          obtain ⟨_, ⟨_, placed, _⟩ | ⟨operand, _⟩⟩ := safeTokens_cons more
          · rw [behind] at placed
            cases placed
          · rw [head?_cons, Option.any_some, operand]
            rfl

theorem safe_joined_iff (filled : texts ≠ [])
    (small : ∀ text ∈ texts, ∀ c ∈ text, c.isUpper = false) :
    looksLikeSafeFtsQuery (" OR ".toList.intercalate texts) = true ↔ ∀ text ∈ texts, looksLikeSafeFtsQuery text = true := by
  rw [looksLikeSafeFtsQuery_iff]
  exact passes_joined_iff filled small rfl

theorem not_mem_quote_of_safe (safe : looksLikeSafeFtsQuery text = true) : '"' ∉ text :=
  not_mem_quote_of_spaced (spaced_splitWhitespace text) (looksLikeSafeFtsQuery_iff.mp safe).2

variable {tokenizer : FtsTokenizer} {columns : List (List (List Char))}

private theorem ftsMatches_joined {first : List Char} {others : List (List Char)} (safe : ∀ text ∈ first ::
    others, looksLikeSafeFtsQuery text = true ∧ (∀ c ∈ text, c.isUpper = false) ∧ FtsAccepts text) :
    FtsAccepts (" OR ".toList.intercalate (first :: others)) ∧ (FtsMatches tokenizer columns first →
      FtsMatches tokenizer columns (" OR ".toList.intercalate (first :: others))) := by
  induction others generalizing first with
  | nil =>
    have whole : " OR ".toList.intercalate [first] = first := by simp [List.intercalate]
    rw [whole]
    exact ⟨(safe first (.head _)).2.2, id⟩
  | cons next others ih =>
    obtain ⟨firstSafe, small, lexed, made, expr⟩ := safe first (.head _)
    obtain ⟨⟨more, read, moreExpr⟩, _⟩ := ih fun text mem => safe text (.tail _ mem)
    have unquoted := not_mem_quote_of_safe firstSafe
    have plain : FtsMode.between.Plain := trivial
    have space : isFtsSpace ' ' = true := by decide
    have or : ftsLex .between ['O', 'R'] = some [.operator .or] := by decide
    have whole : ftsLex .between (" OR ".toList.intercalate (first :: next :: others)) =
      some (lexed ++ .operator .or :: more) := by
      rw [joined_cons, ftsLex_append_space space unquoted plain, made, Option.bind_some,
        ftsLex_append_space space (by decide) plain, or, read]
      rfl
    refine ⟨⟨_, whole, .joined .or expr moreExpr⟩, ?_⟩
    rintro ⟨tokens, other, _, hits⟩
    obtain rfl := Option.some.inj (made.symm.trans other)
    refine ⟨_, whole, .joined .or expr moreExpr, ?_⟩
    rw [ftsHits_or more (operands_of_ftsLex unquoted plain small made), hits, Bool.true_or]

theorem ftsAccepts_small_iff (safe : looksLikeSafeFtsQuery text = true)
    (small : ∀ c ∈ text, c.isUpper = false) : FtsAccepts text ↔ '\x0b' ∉ text ∧ '\x0c' ∉ text := by
  have plain : ¬ StarredOperator text := by
    rintro ⟨left, token, right, rfl, operator, _⟩
    rw [not_isOperator_of_small fun c inside =>
      small c (mem_append_right _ (mem_append_left _ inside))] at operator
    cases operator
  rw [ftsAccepts_iff_of_safe safe]
  simp [plain]

theorem fts5Escape_safe (safe : looksLikeSafeFtsQuery text = true) :
    (fts5Escape (String.ofList text)).toList = text := by
  rw [fts5Escape, String.toList_ofList, if_pos safe, String.toList_ofList]

theorem fts5Escape_quoted (unsafe' : ¬ looksLikeSafeFtsQuery text = true) :
    (fts5Escape (String.ofList text)).toList = '"' :: (quotedText text ++ ['"']) := by
  rw [fts5Escape, String.toList_ofList, if_neg unsafe', String.toList_ofList]
  rfl

def Unsplit (lib : Library Score Embedding) (text : List Char) : Prop :=
  (splitCamel lib text).length ≤ 1 ∧
    (splitSnake text).length ≤ 1 ∧ (splitWhitespace text).length ≤ 1

theorem CaseRules.lower_ne_of_part (rules : CaseRules lib) (within : part <:+: text)
    (shorter : part ≠ text) : lib.toLowercase part ≠ lib.toLowercase text := by
  obtain ⟨left, right, rfl⟩ := within
  intro same
  have lengths := congrArg List.length same
  rw [rules.lower_append_length, rules.lower_append_length] at lengths
  by_cases leftEmpty : left = []
  · by_cases rightEmpty : right = []
    · subst leftEmpty rightEmpty
      simp at shorter
    · have more := length_pos_of_ne_nil (rules.lower_ne_nil rightEmpty)
      omega
  · have more := length_pos_of_ne_nil (rules.lower_ne_nil leftEmpty)
    omega

private theorem splitCamel_shorter (several : 1 < (splitCamel lib text).length) :
    ∃ part ∈ splitCamel lib text, part <:+: text ∧ part ≠ text := by
  have whole : (splitCamel lib text).flatten = text := splitCamelFrom_flatten none [] text
  have filled : ∀ part ∈ splitCamel lib text, part ≠ [] := fun part mem => (mem_splitCamelFrom mem).1
  generalize splitCamel lib text = parts at several whole filled
  obtain ⟨first, others, rfl⟩ := exists_cons_of_length_pos (Nat.lt_of_succ_lt several)
  obtain ⟨next, others, rfl⟩ := exists_cons_of_length_pos (Nat.lt_of_succ_lt_succ several)
  refine ⟨first, .head _, ⟨[], _, whole⟩, fun same => ?_⟩
  have more := length_pos_of_ne_nil (filled next (.tail _ (.head _)))
  have lengths := congrArg List.length whole
  rw [flatten_cons, flatten_cons, same, length_append, length_append] at lengths
  omega

private theorem splitSnake_shorter (several : 1 < (splitSnake text).length) :
    ∃ part ∈ splitSnake text, part <:+: text ∧ part ≠ text := by
  obtain ⟨part, mem⟩ := exists_mem_of_length_pos (Nat.lt_of_succ_lt several)
  obtain ⟨_, within, clear⟩ := mem_splitSnake mem
  refine ⟨part, mem, within, fun same => ?_⟩
  have alone : splitSnake text = [text].filter (· ≠ []) := by
    unfold splitSnake
    rw [splitOn_eq_singleton (same ▸ clear)]
  have few := length_filter_le (fun piece : List Char => decide (piece ≠ [])) [text]
  rw [← alone] at few
  exact absurd several (Nat.not_lt.mpr few)

private theorem splitWhitespace_shorter (several : 1 < (splitWhitespace text).length) :
    ∃ part ∈ splitWhitespace text, part <:+: text ∧ part ≠ text := by
  obtain ⟨part, mem⟩ := exists_mem_of_length_pos (Nat.lt_of_succ_lt several)
  obtain ⟨_, solid, within⟩ := mem_of_mem_splitWhitespace mem
  refine ⟨part, mem, within, fun same => ?_⟩
  have alone : splitWhitespace text = [text].filter (· ≠ []) := by
    unfold splitWhitespace
    rw [splitOnP_eq_singleton (same ▸ solid)]
  have few := length_filter_le (fun piece : List Char => decide (piece ≠ [])) [text]
  rw [← alone] at few
  exact absurd several (Nat.not_lt.mpr few)

theorem CaseRules.variants_same_iff (rules : CaseRules lib) :
    (∀ variant ∈ tokenVariants lib text, variant = lib.toLowercase text) ↔ Unsplit lib text := by
  have alone : ∀ {parts : List (List Char)}, (1 < parts.length → ∃ part ∈ parts, part <:+: text ∧ part ≠ text) →
      ((∀ variant ∈ severalParts lib parts, variant = lib.toLowercase text) ↔ parts.length ≤ 1) := by
    intro parts shorter
    constructor
    · intro same
      by_contra several
      rw [Nat.not_le] at several
      obtain ⟨part, mem, within, other⟩ := shorter several
      exact rules.lower_ne_of_part within other (same _ (mem_severalParts.mpr ⟨several, part, mem, rfl⟩))
    · intro few variant mem
      exact absurd (mem_severalParts.mp mem).1 (Nat.not_lt.mpr few)
  unfold tokenVariants Unsplit
  rw [← alone splitCamel_shorter, ← alone splitSnake_shorter, ← alone splitWhitespace_shorter]
  simp only [mem_append, mem_singleton, or_imp, forall_and, forall_eq, true_and, and_assoc]

/-- The expansion adds nothing, or all of it passes the check, or the text alone finds
nothing: the language refuses its white space, or it has no tokens. -/
def Widens (lib : Library Score Embedding) (tokenizer : FtsTokenizer) (text : List Char) : Prop :=
  Unsplit lib text ∨
    looksLikeSafeFtsQuery (lib.toLowercase text) = true ∧ ('\x0b' ∈ text ∨ '\x0c' ∈ text ∨ SnakeReady text) ∨
    tokenizer.tokens (lib.toLowercase text) = []

private theorem buildFtsQuery_cases {text : String} (visible : trimmed text ≠ []) :
    ∃ others, buildFtsQuery lib text =
      String.ofList (" OR ".toList.intercalate (lib.toLowercase (trimmed text) :: others)) ∧
      (∀ variant, variant ∈ lib.toLowercase (trimmed text) :: others ↔ variant ∈ tokenVariants lib (trimmed text)) ∧
      (others = [] ↔ ∀ variant ∈ tokenVariants lib (trimmed text), variant = lib.toLowercase (trimmed text)) := by
  have filled : ¬ (trimmed text).isEmpty = true := by simpa using visible
  obtain ⟨others, cut⟩ : ∃ others, (tokenVariants lib (trimmed text)).destutter (· ≠ ·) =
    lib.toLowercase (trimmed text) :: others := Text.exists_destutter_cons _ _
  have members : ∀ variant, variant ∈ lib.toLowercase (trimmed text) :: others ↔ variant ∈ tokenVariants lib (trimmed text) := by
    intro variant
    rw [← cut, Text.mem_destutter_ne]
  refine ⟨others, ?_, members, ?_⟩
  · rw [buildFtsQuery, if_neg filled, joinOr, cut]
  · constructor
    · rintro rfl variant mem
      exact List.mem_singleton.mp ((members variant).mpr mem)
    · intro same
      cases others with
      | nil => rfl
      | cons next others =>
        have chain := isChain_destutter (· ≠ ·) (tokenVariants lib (trimmed text))
        rw [cut, isChain_cons_cons] at chain
        have mem := (members next).mp (.tail _ (.head _))
        exact absurd (same next mem).symm chain.1

theorem FtsTokenizer.joined_longer (tokenizer : FtsTokenizer) {first : List Char}
    {others : List (List Char)} (more : others ≠ []) :
    (tokenizer.tokens first).length < (tokenizer.tokens (" OR ".toList.intercalate (first :: others))).length := by
  obtain ⟨next, others, rfl⟩ := exists_cons_of_ne_nil more
  have or := length_pos_of_ne_nil (tokenizer.word (cons_ne_nil 'O' ['R']) (List.all_eq_true.mp rfl))
  have bare : isBareword ' ' = false := by decide
  rw [joined_cons, tokenizer.separates bare, tokenizer.separates bare, length_append, length_append]
  omega

theorem ftsMatches_escaped_self (small : ∀ c ∈ text, c.isUpper = false) (accepted :
    looksLikeSafeFtsQuery text = true → FtsAccepts text) (counts : tokenizer.tokens text ≠ []) :
    FtsMatches tokenizer [tokenizer.tokens text] (fts5Escape (String.ofList text)).toList := by
  by_cases safe : looksLikeSafeFtsQuery text = true
  · rw [fts5Escape_safe safe]
    exact ftsMatches_self (not_mem_quote_of_safe safe) small (accepted safe) counts
  · rw [fts5Escape_quoted safe, ftsMatches_quoted_iff]
    exact ⟨counts, List.any_eq_true.mpr ⟨_, mem_singleton_self _, phraseIn_of_within false infix_rfl⟩⟩

private theorem trimmed_tidy {text : String} (visible : ∃ c ∈ text.toList, isWhitespace c = false) :
    ∃ c, (trimmed text).head? = some c ∧ isWhitespace c = false := by
  change ∃ c, (Text.strip isWhitespace text.toList).head? = some c ∧ _
  cases stripped : Text.strip isWhitespace text.toList with
  | nil =>
    obtain ⟨c, inside, solid⟩ := visible
    rw [Text.strip_eq_nil_iff.mp stripped c inside] at solid
    cases solid
  | cons c rest =>
    have tight : Text.Tight isWhitespace (Text.strip isWhitespace text.toList) := Text.strip_tight text.toList
    exact ⟨c, rfl, tight.front c (by rw [stripped]; rfl)⟩

theorem mem_tokenVariants (mem : variant ∈ tokenVariants lib text) :
    ∃ part, part <:+: text ∧ lib.toLowercase part = variant := by
  simp only [tokenVariants, mem_append, mem_singleton, mem_severalParts] at mem
  rcases mem with ((rfl | ⟨_, part, isPart, rfl⟩) | ⟨_, part, isPart, rfl⟩) | ⟨_, part, isPart, rfl⟩
  · exact ⟨text, infix_rfl, rfl⟩
  · obtain ⟨_, left, right, whole, _⟩ := mem_splitCamelFrom isPart
    exact ⟨part, ⟨left, right, whole.symm⟩, rfl⟩
  · exact ⟨part, (mem_splitSnake isPart).2.1, rfl⟩
  · exact ⟨part, (mem_of_mem_splitWhitespace isPart).2.2, rfl⟩

/-- Every row that the lowered text finds is found by the expanded text, exactly when the
expansion adds nothing, passes the check, or has nothing to lose. -/
theorem buildFtsQuery_widens_iff (lib : Library Score Embedding)
    (rules : CaseRules lib) (tokenizer : FtsTokenizer)
    (text : String) (visible : ∃ c ∈ text.toList, isWhitespace c = false) :
    (∀ columns, FtsMatches
      tokenizer columns (fts5Escape (String.ofList (lib.toLowercase (trimmed text)))).toList →
      FtsMatches tokenizer columns (fts5Escape (buildFtsQuery lib text)).toList) ↔
      Widens lib tokenizer (trimmed text) := by
  have tidy := trimmed_tidy visible
  have filled : trimmed text ≠ [] := by
    intro empty
    obtain ⟨c, head, _⟩ := tidy
    rw [empty] at head
    cases head
  obtain ⟨others, built, members, alone⟩ := @buildFtsQuery_cases _ _ lib text filled
  rw [rules.variants_same_iff] at alone
  have small : ∀ variant ∈ lib.toLowercase (trimmed text) :: others, ∀ c ∈ variant, c.isUpper = false := by
    intro variant mem
    obtain ⟨part, _, rfl⟩ := mem_tokenVariants ((members variant).mp mem)
    exact rules.lower_small part
  have directSmall := small _ (.head _)
  have joinedSafe := safe_joined_iff (cons_ne_nil _ _) small
  simp only [members] at joinedSafe
  rw [rules.variants_safe_iff tidy] at joinedSafe
  have tab : '\x0b' ∈ lib.toLowercase (trimmed text) ↔ '\x0b' ∈ trimmed text := rules.mem_lower_iff (by decide) (by decide)
  have feed : '\x0c' ∈ lib.toLowercase (trimmed text) ↔ '\x0c' ∈ trimmed text := rules.mem_lower_iff (by decide) (by decide)
  rw [built]
  unfold Widens
  by_cases unsplit : Unsplit lib (trimmed text)
  · obtain rfl := alone.mpr unsplit
    have same : " OR ".toList.intercalate [lib.toLowercase (trimmed text)] =
      lib.toLowercase (trimmed text) := by simp [List.intercalate]
    rw [same]
    exact iff_of_true (fun _ found => found) (.inl unsplit)
  have longer := @FtsTokenizer.joined_longer tokenizer (lib.toLowercase (trimmed text)) others
    fun empty => unsplit (alone.mp empty)
  by_cases empty : tokenizer.tokens (lib.toLowercase (trimmed text)) = []
  · refine iff_of_true (fun columns found => ?_) (.inr (.inr empty))
    by_cases safe : looksLikeSafeFtsQuery (lib.toLowercase (trimmed text)) = true
    · rw [fts5Escape_safe safe] at found
      exact absurd found (not_ftsMatches_of_empty (not_mem_quote_of_safe safe) directSmall empty)
    · rw [fts5Escape_quoted safe, ftsMatches_quoted_iff] at found
      exact absurd empty found.1
  -- a quoted expansion asks for more tokens in a row than the row of the text itself has
  have hidden : ¬ (looksLikeSafeFtsQuery (lib.toLowercase (trimmed text)) = true ∧ SnakeReady (trimmed text)) →
      ¬ FtsMatches tokenizer
        [tokenizer.tokens (lib.toLowercase (trimmed text))] (fts5Escape (String.ofList
        (" OR ".toList.intercalate (lib.toLowercase (trimmed text) :: others)))).toList := by
    intro notReady found
    rw [fts5Escape_quoted fun safe => notReady (joinedSafe.mp safe), ftsMatches_quoted_iff] at found
    obtain ⟨column, mem, phrase⟩ := List.any_eq_true.mp found.2
    obtain rfl := List.mem_singleton.mp mem
    exact absurd (length_le_of_phraseIn phrase) (Nat.not_le.mpr longer)
  by_cases safe : looksLikeSafeFtsQuery (lib.toLowercase (trimmed text)) = true
  · have accepts := ftsAccepts_small_iff safe directSmall
    rw [tab, feed] at accepts
    by_cases refused : '\x0b' ∈ trimmed text ∨ '\x0c' ∈ trimmed text
    · refine iff_of_true (fun columns found => ?_) (.inr (.inl ⟨safe, ?_⟩))
      · rw [fts5Escape_safe safe] at found
        obtain ⟨tokens, lexed, expr, _⟩ := found
        obtain ⟨noTab, noFeed⟩ := accepts.mp ⟨tokens, lexed, expr⟩
        exact (refused.elim noTab noFeed).elim
      · rcases refused with refused | refused
        · exact .inl refused
        · exact .inr (.inl refused)
    rw [not_or] at refused
    by_cases ready : SnakeReady (trimmed text)
    · refine iff_of_true (fun columns found => ?_) (.inr (.inl ⟨safe, .inr (.inr ready)⟩))
      have joined := joinedSafe.mpr ⟨safe, ready⟩
      have every := (safe_joined_iff (cons_ne_nil _ _) small).mp joined
      rw [fts5Escape_safe safe] at found
      rw [fts5Escape_safe joined]
      refine (ftsMatches_joined fun variant mem => ?_).2 found
      refine ⟨every variant mem, small variant mem, ?_⟩
      obtain ⟨part, within, rfl⟩ := mem_tokenVariants ((members variant).mp mem)
      rw [ftsAccepts_small_iff (every _ mem) (small _ mem),
        rules.mem_lower_iff (by decide) (by decide), rules.mem_lower_iff (by decide) (by decide)]
      exact ⟨fun inside => refused.1 (within.subset inside), fun inside => refused.2 (within.subset inside)⟩
    · refine iff_of_false (fun widens => ?_) ?_
      · exact hidden (fun both => ready both.2)
          (widens _ (ftsMatches_escaped_self directSmall (fun _ => accepts.mpr refused) empty))
      · simp [unsplit, safe, refused.1, refused.2, ready, empty]
  · refine iff_of_false (fun widens => ?_) ?_
    · exact hidden (fun both => safe both.1)
        (widens _ (ftsMatches_escaped_self directSmall (fun passed => absurd passed safe) empty))
    · simp [unsplit, safe, empty]

end

theorem toLower_of_wide {c : Char} (wide : 0x80 ≤ c.toNat) : c.toLower = c := by
  unfold Char.toLower
  rw [dif_neg]
  intro upper
  have narrow := toNat_lt_of_isUpper (c := c) (decide_eq_true upper)
  omega

private theorem sampleLibrary_rules : CaseRules sampleLibrary where
  append _ _ := congrArg (List.map foldSigma) map_append
  ascii _ _ := rfl
  space c space := by
    change [c.toLower] = [c]
    by_cases narrow : c.toNat < 0x80
    · revert space
      exact ascii_cases (P := fun c => isWhitespace c = true → [c.toLower] = [c]) (by decide) c narrow
    · rw [toLower_of_wide (by omega)]
  wide c wide space := by
    change [c.toLower] ≠ [] ∧ ∀ d ∈ [c.toLower], _
    rw [toLower_of_wide wide]
    refine ⟨cons_ne_nil _ _, fun d mem => ?_⟩
    obtain rfl := List.mem_singleton.mp mem
    exact ⟨space, fun narrow => by omega⟩
  upper c upper := by
    have narrow := toNat_lt_of_isUpper upper
    revert upper
    exact ascii_cases (P := fun c => c.isUpper = true → isWhitespace c = false ∧ c ≠ '*') (by decide) c narrow

def asciiTokenizer : FtsTokenizer where
  tokens text := ((text.splitOnP (!·.isAlphanum)).filter (· ≠ [])).map (List.map Char.toLower)
  empty := rfl
  separates {left right c} stray := by
    have ends : (fun c : Char => !c.isAlphanum) c = true := by
      simp only [isBareword, Bool.or_eq_false_iff] at stray
      simp [stray.1.1]
    rw [splitOnP_append_cons left right ends, filter_append, map_append]
  word {word} filled letters := by
    rw [splitOnP_eq_singleton fun c inside => by rw [letters c inside]; rfl,
      filter_cons_of_pos (by simpa using filled)]
    exact cons_ne_nil _ _

/-- A camel-case name finds what its lowered text finds. -/
theorem buildFtsQuery_widens_fooBar : Widens sampleLibrary asciiTokenizer (trimmed "fooBar") ∧
      ∀ columns, FtsMatches asciiTokenizer columns
        (fts5Escape (String.ofList (sampleLibrary.toLowercase (trimmed "fooBar")))).toList →
        FtsMatches asciiTokenizer columns (fts5Escape (buildFtsQuery sampleLibrary "fooBar")).toList := by
  have widens : Widens sampleLibrary asciiTokenizer (trimmed "fooBar") :=
    .inr (.inl ⟨by decide, .inr (.inr fun several => absurd several (by decide))⟩)
  exact ⟨widens, (buildFtsQuery_widens_iff sampleLibrary sampleLibrary_rules asciiTokenizer "fooBar"
    ⟨'f', by decide, by decide⟩).mpr widens⟩

/-- A file name beside a word: the expansion is quoted as one phrase, operators and all. -/
theorem buildFtsQuery_hides_libMain :
    ¬ ∀ text : String, (∃ c ∈ text.toList, isWhitespace c = false) → ∀ columns,
        FtsMatches asciiTokenizer columns (fts5Escape (String.ofList (sampleLibrary.toLowercase (trimmed text)))).toList →
        FtsMatches asciiTokenizer columns (fts5Escape (buildFtsQuery sampleLibrary text)).toList := by
  intro always
  have direct : fts5Escape (String.ofList (sampleLibrary.toLowercase (trimmed "lib.rs main"))) = "\"lib.rs main\"" := by decide
  have expanded : fts5Escape (buildFtsQuery sampleLibrary "lib.rs main") = "\"lib.rs main OR lib.rs OR main\"" := by decide
  have found := always "lib.rs main" ⟨'l', by decide, by decide⟩
    [["lib".toList, "rs".toList, "main".toList]]
  rw [direct, expanded] at found
  have hidden := found ((@ftsMatches_quoted_iff asciiTokenizer
    [["lib".toList, "rs".toList, "main".toList]] "lib.rs main".toList).mpr (by decide))
  have phrase := (@ftsMatches_quoted_iff _ _ "lib.rs main OR lib.rs OR main".toList).mp hidden
  exact absurd phrase.2 (by decide)

end Atlas.Search
