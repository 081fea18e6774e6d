import Mathlib.Data.List.Infix

/-! The fragment of the FTS5 query language without column filters, `+`, `^`, `NEAR` and
groups. Words and quoted strings, a star that makes a phrase a match on initial letters, and the
operators `AND`, `OR` and `NOT`. The lexer reads one character at a time and keeps what is
unfinished in its mode. An accepted query is a nonempty list of expressions joined by
operators, which a three-place automaton over the tokens decides. -/
namespace Atlas.Sql
open List

inductive FtsOperator where
  | and
  | or
  | not
  deriving DecidableEq

inductive FtsToken where
  | string (text : List Char)
  | star
  | operator (which : FtsOperator)
  deriving DecidableEq

def isFtsSpace (c : Char) : Bool := decide (c = ' ' ∨ c = '\t' ∨ c = '\n' ∨ c = '\r')
def isBareword (c : Char) : Bool := c.isAlphanum || decide (c = '_') || decide (0x80 ≤ c.toNat)

def keyword (word : List Char) : Option FtsOperator :=
  if word = ['A', 'N', 'D'] then some .and
  else if word = ['O', 'R'] then some .or
  else if word = ['N', 'O', 'T'] then some .not
  else none

def barewordToken (word : List Char) : FtsToken :=
  match keyword word with
  | some which => .operator which
  | none => .string word

/-- `closing` is set behind a quote inside a string, which ends it unless a second quote
follows. -/
inductive FtsMode where
  | between
  | bareword (word : List Char)
  | quoted (text : List Char)
  | closing (text : List Char)

def FtsMode.enter (c : Char) : Option (List FtsToken × FtsMode) :=
  if isFtsSpace c then some ([], .between)
  else if c = '*' then some ([.star], .between)
  else if c = '"' then some ([], .quoted [])
  else if isBareword c then some ([], .bareword [c])
  else none

def FtsMode.after (token : FtsToken) (c : Char) : Option (List FtsToken × FtsMode) :=
  (FtsMode.enter c).map fun (made, mode) => (token :: made, mode)

def FtsMode.step : FtsMode → Char → Option (List FtsToken × FtsMode)
  | .between, c => enter c
  | .bareword word, c => if isBareword c then some ([], .bareword (word ++ [c])) else after (barewordToken word) c
  | .quoted text, c =>
    if c = '"' then some ([], .closing text) else some ([], .quoted (text ++ [c]))
  | .closing text, c => if c = '"' then some ([], .quoted (text ++ ['"'])) else after (.string text) c

def FtsMode.finish : FtsMode → Option (List FtsToken)
  | .between => some []
  | .bareword word => some [barewordToken word]
  | .quoted _ => none
  | .closing text => some [.string text]

def ftsLex : FtsMode → List Char → Option (List FtsToken)
  | mode, [] => mode.finish
  | mode, c :: rest => (mode.step c).bind fun (made, next) => (ftsLex next rest).map fun more => made ++ more

inductive FtsPhrase : List FtsToken → Prop where
  | plain (text : List Char) : FtsPhrase [.string text]
  | starred (text : List Char) : FtsPhrase [.string text, .star]

inductive FtsExpr : List FtsToken → Prop where
  | phrase {phrase} : FtsPhrase phrase → FtsExpr phrase
  | beside {left phrase} : FtsExpr left → FtsPhrase phrase → FtsExpr (left ++ phrase)
  | joined {left right} (which : FtsOperator) : FtsExpr left → FtsExpr right → FtsExpr (left ++ .operator which :: right)

def FtsAccepts (query : List Char) : Prop :=
  ∃ tokens, ftsLex .between query = some tokens ∧ FtsExpr tokens

/-! ## Automaton -/

inductive FtsPlace where
  | operand
  | phrase
  | starred
  deriving DecidableEq

def FtsPlace.next : FtsPlace → FtsToken → Option FtsPlace
  | _, .string _ => some .phrase
  | .phrase, .star => some .starred
  | .phrase, .operator _ => some .operand
  | .starred, .operator _ => some .operand
  | _, _ => none

def FtsPlace.run (place : FtsPlace) (tokens : List FtsToken) : Option FtsPlace :=
  tokens.foldlM FtsPlace.next place

@[simp] theorem FtsPlace.run_nil (place : FtsPlace) : place.run [] = some place := rfl
@[simp] theorem FtsPlace.run_cons (place : FtsPlace) (token : FtsToken) (rest : List FtsToken) :
    place.run (token :: rest) = (place.next token).bind fun next => next.run rest := rfl

theorem FtsPlace.run_append (place : FtsPlace) (left right : List FtsToken) :
    place.run (left ++ right) = (place.run left).bind fun next => next.run right := foldlM_append

variable {place : FtsPlace}

theorem FtsPlace.next_operator (ready : place ≠ .operand) (which : FtsOperator) :
    place.next (.operator which) = some .operand := by
  cases place with
  | operand => exact absurd rfl ready
  | phrase => rfl
  | starred => rfl

variable {tokens : List FtsToken}

theorem FtsExpr.run (expr : FtsExpr tokens) :
    ∀ place : FtsPlace, ∃ last, place.run tokens = some last ∧ last ≠ .operand := by
  have ofPhrase : ∀ {phrase : List FtsToken}, FtsPhrase phrase →
    ∀ place : FtsPlace, ∃ last, place.run phrase = some last ∧ last ≠ .operand := by
    intro phrase isPhrase place
    cases isPhrase with
    | plain text => exact ⟨.phrase, by cases place <;> rfl, by decide⟩
    | starred text => exact ⟨.starred, by cases place <;> rfl, by decide⟩
  induction expr with
  | phrase isPhrase => exact ofPhrase isPhrase
  | beside _ isPhrase ih =>
    intro place
    obtain ⟨middle, leftRun, _⟩ := ih place
    obtain ⟨last, phraseRun, ready⟩ := ofPhrase isPhrase middle
    exact ⟨last, by rw [FtsPlace.run_append, leftRun, Option.bind_some, phraseRun], ready⟩
  | joined which _ _ leftIH rightIH =>
    intro place
    obtain ⟨middle, leftRun, leftReady⟩ := leftIH place
    obtain ⟨last, rightRun, ready⟩ := rightIH .operand
    refine ⟨last, ?_, ready⟩
    rw [FtsPlace.run_append, leftRun, Option.bind_some, FtsPlace.run_cons,
      FtsPlace.next_operator leftReady, Option.bind_some, rightRun]

def FtsPlace.Reached (tokens : List FtsToken) : FtsPlace → Prop
  | .operand => tokens = [] ∨ ∃ left which, FtsExpr left ∧ tokens = left ++ [.operator which]
  | .phrase => FtsExpr tokens ∧ FtsExpr (tokens ++ [.star])
  | .starred => FtsExpr tokens

theorem FtsPlace.Reached.expr (reached : place.Reached tokens) (ready : place ≠ .operand) :
    FtsExpr tokens := by
  cases place with
  | operand => exact absurd rfl ready
  | phrase => exact reached.1
  | starred => exact reached

theorem FtsPlace.Reached.beside {phrase : List FtsToken} (reached : place.Reached tokens)
    (isPhrase : FtsPhrase phrase) : FtsExpr (tokens ++ phrase) := by
  cases place with
  | operand =>
    obtain rfl | ⟨left, which, expr, rfl⟩ := reached
    · exact .phrase isPhrase
    · have joined := FtsExpr.joined which expr (.phrase isPhrase)
      rwa [append_cons] at joined
  | phrase => exact reached.1.beside isPhrase
  | starred => exact FtsExpr.beside reached isPhrase

theorem FtsPlace.reached_of_run :
    ∀ {place : FtsPlace}, FtsPlace.run .operand tokens = some place → place.Reached tokens := by
  induction tokens using reverseRecOn with
  | nil =>
    intro place ran
    cases ran
    exact .inl rfl
  | append_singleton tokens token ih =>
    intro place ran
    rw [FtsPlace.run_append] at ran
    obtain ⟨middle, before, step⟩ := Option.bind_eq_some_iff.mp ran
    rw [FtsPlace.run_cons] at step
    obtain ⟨next, stepped, same⟩ := Option.bind_eq_some_iff.mp step
    cases same
    have reached := ih before
    cases token with
    | string text =>
      cases stepped
      refine ⟨reached.beside (.plain text), ?_⟩
      rw [append_assoc]
      exact reached.beside (.starred text)
    | star =>
      cases middle with
      | phrase =>
        cases stepped
        exact reached.2
      | operand | starred => cases stepped
    | operator which =>
      cases middle with
      | operand => cases stepped
      | phrase =>
        cases stepped
        exact .inr ⟨tokens, which, reached.1, rfl⟩
      | starred =>
        cases stepped
        exact .inr ⟨tokens, which, reached, rfl⟩

theorem ftsExpr_iff :
    FtsExpr tokens ↔ ∃ last, FtsPlace.run .operand tokens = some last ∧ last ≠ .operand := by
  constructor
  · intro expr
    exact expr.run .operand
  · rintro ⟨last, ran, ready⟩
    exact (FtsPlace.reached_of_run ran).expr ready

instance (tokens : List FtsToken) : Decidable (FtsExpr tokens) :=
  match ran : FtsPlace.run .operand tokens with
  | none => .isFalse fun expr => by
    obtain ⟨last, other, _⟩ := ftsExpr_iff.mp expr
    rw [ran] at other
    cases other
  | some last =>
    if ready : last = .operand then .isFalse fun expr => by
      obtain ⟨_, other, isReady⟩ := ftsExpr_iff.mp expr
      rw [ran] at other
      cases other
      exact isReady ready
    else .isTrue (ftsExpr_iff.mpr ⟨last, ran, ready⟩)

def FtsReads (mode : FtsMode) (place : FtsPlace) (rest : List Char) : Prop :=
  ∃ tokens, ftsLex mode rest = some tokens ∧ ∃ last, place.run tokens = some last ∧ last ≠ .operand

theorem ftsAccepts_iff {query : List Char} :
    FtsAccepts query ↔ FtsReads .between .operand query := by
  unfold FtsAccepts FtsReads
  simp only [ftsExpr_iff]

variable {mode : FtsMode}

theorem ftsReads_nil {last : FtsPlace} (finished : mode.finish = some tokens)
    (ran : place.run tokens = some last) (ready : last ≠ .operand) : FtsReads mode place [] :=
  ⟨tokens, finished, last, ran, ready⟩

variable {made : List FtsToken} {c : Char} {rest : List Char}

theorem ftsReads_cons {next : FtsMode} {middle : FtsPlace}
    (step : mode.step c = some (made, next)) (ran : place.run made = some middle) :
    FtsReads mode place (c :: rest) ↔ FtsReads next middle rest := by
  unfold FtsReads
  simp only [ftsLex, step, Option.bind_some, Option.map_eq_some_iff]
  constructor
  · rintro ⟨tokens, ⟨more, lexed, rfl⟩, last, wholeRun, ready⟩
    rw [FtsPlace.run_append, ran, Option.bind_some] at wholeRun
    exact ⟨more, lexed, last, wholeRun, ready⟩
  · rintro ⟨more, lexed, last, moreRun, ready⟩
    refine ⟨made ++ more, ⟨more, lexed, rfl⟩, last, ?_, ready⟩
    rw [FtsPlace.run_append, ran, Option.bind_some, moreRun]

theorem not_ftsReads_cons (refused : mode.step c = none) : ¬ FtsReads mode place (c :: rest) := by
  rintro ⟨tokens, lexed, _⟩
  simp only [ftsLex, refused, Option.bind_none] at lexed
  cases lexed

theorem not_ftsReads_of_run {next : FtsMode} (step : mode.step c = some (made, next))
    (refused : place.run made = none) : ¬ FtsReads mode place (c :: rest) := by
  rintro ⟨tokens, lexed, last, ran, _⟩
  simp only [ftsLex, step, Option.bind_some, Option.map_eq_some_iff] at lexed
  obtain ⟨more, _, rfl⟩ := lexed
  rw [FtsPlace.run_append, refused, Option.bind_none] at ran
  cases ran

/-! ## Outside strings -/

def FtsMode.Plain : FtsMode → Prop
  | .between => True
  | .bareword _ => True
  | .quoted _ => False
  | .closing _ => False

theorem not_isBareword_of_isFtsSpace (space : isFtsSpace c = true) : isBareword c = false := by
  obtain rfl | rfl | rfl | rfl := of_decide_eq_true space <;> decide

theorem FtsMode.enter_space (space : isFtsSpace c = true) :
    FtsMode.enter c = some ([], .between) := by rw [enter, if_pos space]

theorem FtsMode.enter_bareword (bare : isBareword c = true) :
    FtsMode.enter c = some ([], .bareword [c]) := by
  have notSpace : ¬ isFtsSpace c = true := fun space => by
    rw [not_isBareword_of_isFtsSpace space] at bare
    cases bare
  have notStar : c ≠ '*' := fun same => by
    subst same
    exact absurd bare (by decide)
  have notQuote : c ≠ '"' := fun same => by
    subst same
    exact absurd bare (by decide)
  rw [enter, if_neg notSpace, if_neg notStar, if_neg notQuote, if_pos bare]

theorem FtsMode.enter_plain {next : FtsMode} (unquoted : c ≠ '"')
    (entered : FtsMode.enter c = some (made, next)) :
    next.Plain ∧ (isFtsSpace c = true → next = .between) := by
  unfold enter at entered
  split at entered
  · cases entered
    exact ⟨trivial, fun _ => rfl⟩
  · rename_i notSpace
    refine ⟨?_, fun space => absurd space notSpace⟩
    split at entered
    · cases entered
      exact trivial
    · split at entered
      · cases entered
        exact trivial
      · cases entered

theorem FtsMode.step_plain {next : FtsMode} (plain : mode.Plain) (unquoted : c ≠ '"')
    (step : mode.step c = some (made, next)) :
    next.Plain ∧ (isFtsSpace c = true → next = .between) := by
  cases mode with
  | between => exact enter_plain unquoted step
  | bareword word =>
    simp only [FtsMode.step] at step
    split at step
    · rename_i bare
      cases step
      refine ⟨trivial, fun space => ?_⟩
      rw [not_isBareword_of_isFtsSpace space] at bare
      cases bare
    · obtain ⟨⟨more, after⟩, entered, same⟩ := Option.map_eq_some_iff.mp step
      cases same
      exact enter_plain unquoted entered
  | quoted text | closing text => exact plain.elim

theorem not_ftsReads_of_stray (stray : FtsMode.enter c = none) :
    ∀ {text : List Char}, c ∈ text → '"' ∉ text → ∀ {mode : FtsMode}, mode.Plain →
      ∀ {place : FtsPlace}, ¬ FtsReads mode place text := by
  have notBare : isBareword c = false := by
    cases bare : isBareword c with
    | false => rfl
    | true =>
      rw [FtsMode.enter_bareword bare] at stray
      cases stray
  intro text
  induction text with
  | nil => intro inside; cases inside
  | cons head rest ih =>
    intro inside unquoted mode plain place
    rw [mem_cons, not_or] at unquoted
    cases step : mode.step head with
    | none => exact not_ftsReads_cons step
    | some result =>
      obtain ⟨made, next⟩ := result
      obtain rfl | inside := mem_cons.mp inside
      · cases mode with
        | between =>
          rw [FtsMode.step, stray] at step
          cases step
        | bareword word => simp [FtsMode.step, FtsMode.after, notBare, stray] at step
        | quoted text | closing text => exact plain.elim
      · cases ran : place.run made with
        | none => exact not_ftsReads_of_run step ran
        | some middle =>
          rw [ftsReads_cons step ran]
          exact ih inside unquoted.2 (FtsMode.step_plain plain (Ne.symm unquoted.1) step).1

theorem ftsReads_held :
    ∀ {word : List Char}, (∀ c ∈ word, isBareword c = true) → ∀ held : List Char,
      FtsReads (.bareword held) place (word ++ rest) ↔ FtsReads (.bareword (held ++ word)) place rest := by
  intro word
  induction word with
  | nil =>
    intro _ held
    rw [nil_append, append_nil]
  | cons c word ih =>
    intro bare held
    have step : (FtsMode.bareword held).step c = some ([], .bareword (held ++ [c])) := by
      rw [FtsMode.step, if_pos (bare c mem_cons_self)]
    rw [cons_append, ftsReads_cons step (FtsPlace.run_nil place),
      ih (fun d inside => bare d (mem_cons_of_mem _ inside)), ← append_cons]

variable {word : List Char}

theorem ftsReads_word (nonempty : word ≠ []) (bare : ∀ c ∈ word, isBareword c = true) :
    FtsReads .between place (word ++ rest) ↔ FtsReads (.bareword word) place rest := by
  cases word with
  | nil => exact absurd rfl nonempty
  | cons c word =>
    have step : FtsMode.between.step c = some ([], .bareword [c]) := FtsMode.enter_bareword (bare c (.head _))
    rw [cons_append, ftsReads_cons step (FtsPlace.run_nil place), ftsReads_held fun d inside => bare d (mem_cons_of_mem _ inside)]
    rfl

variable {which : FtsOperator}
  {right : List Char} {starred : Bool} {phrase column : List (List Char)}

theorem isBareword_of_keyword (isKeyword : keyword word = some which) :
    word ≠ [] ∧ ∀ c ∈ word, isBareword c = true := by
  unfold keyword at isKeyword
  split at isKeyword
  · subst word
    exact ⟨cons_ne_nil _ _, all_eq_true.mp rfl⟩
  · split at isKeyword
    · subst word
      exact ⟨cons_ne_nil _ _, all_eq_true.mp rfl⟩
    · split at isKeyword
      · subst word
        exact ⟨cons_ne_nil _ _, all_eq_true.mp rfl⟩
      · cases isKeyword

theorem not_ftsReads_of_starred (isKeyword : keyword word = some which) :
    ∀ {left : List Char}, (∀ c ∈ left.getLast?, isFtsSpace c = true) → '"' ∉ left →
      ∀ {mode : FtsMode}, mode.Plain → (left = [] → mode = .between) →
        ∀ {place : FtsPlace}, ¬ FtsReads mode place (left ++ (word ++ '*' :: right)) := by
  intro left
  induction left with
  | nil =>
    intro _ _ mode _ fresh place
    obtain ⟨nonempty, bare⟩ := isBareword_of_keyword isKeyword
    have step : (FtsMode.bareword word).step '*' = some ([.operator which, .star], .between) := by
      simp only [FtsMode.step, FtsMode.after, barewordToken, isKeyword]
      rfl
    rw [fresh rfl, nil_append, ftsReads_word nonempty bare]
    refine not_ftsReads_of_run step ?_
    cases place <;> rfl
  | cons c left ih =>
    intro spaced unquoted mode plain _ place
    rw [mem_cons, not_or] at unquoted
    cases step : mode.step c with
    | none => exact not_ftsReads_cons step
    | some result =>
      obtain ⟨made, next⟩ := result
      obtain ⟨nextPlain, fresh⟩ := FtsMode.step_plain plain (Ne.symm unquoted.1) step
      cases ran : place.run made with
      | none => exact not_ftsReads_of_run step ran
      | some middle =>
        rw [cons_append, ftsReads_cons step ran]
        refine ih (fun d final => ?_) unquoted.2 nextPlain fun empty => ?_
        · cases left with
          | nil => cases final
          | cons _ _ => exact spaced d (by rwa [List.getLast?_cons_cons])
        · subst empty
          exact fresh (spaced c rfl)

def quotedText (text : List Char) : List Char :=
  text.flatMap fun c => if c = '"' then ['"', '"'] else [c]

theorem ftsLex_quoted (text : List Char) : ∀ held : List Char,
    ftsLex (.quoted held) (quotedText text ++ ['"']) = some [.string (held ++ text)] := by
  induction text with
  | nil =>
    intro held
    simp [quotedText, ftsLex, FtsMode.step, FtsMode.finish]
  | cons c text ih =>
    intro held
    have rest := ih (held ++ [c])
    unfold quotedText at rest ⊢
    rw [append_assoc, singleton_append] at rest
    by_cases quote : c = '"'
    · subst quote
      simp only [flatMap_cons, if_pos, cons_append, nil_append, ftsLex, FtsMode.step, Option.bind_some, Option.map_some, rest]
    · simp only [flatMap_cons, if_neg quote, cons_append, nil_append, ftsLex, FtsMode.step,
        Option.bind_some, Option.map_some, rest]

theorem ftsAccepts_quoted (text : List Char) : FtsAccepts ('"' :: (quotedText text ++ ['"'])) := by
  refine ⟨[.string text], ?_, .phrase (.plain text)⟩
  have entered : FtsMode.between.step '"' = some ([], .quoted []) := rfl
  simp only [ftsLex, entered, Option.bind_some, ftsLex_quoted]
  rfl

/-! ## Matching -/

/-- How an index cuts a text into tokens, as far as ASCII decides it. -/
structure FtsTokenizer where
  tokens : List Char → List (List Char)
  empty : tokens [] = []
  /-- What is not part of a bareword ends a token. -/
  separates : ∀ {left right : List Char} {c : Char}, isBareword c = false →
    tokens (left ++ c :: right) = tokens left ++ tokens right
  word : ∀ {word : List Char}, word ≠ [] → (∀ c ∈ word, c.isAlphanum = true) → tokens word ≠ []

def phraseAt (starred : Bool) : List (List Char) → List (List Char) → Bool
  | [], _ => true
  | [last], other :: _ => if starred then last.isPrefixOf other else decide (last = other)
  | token :: next :: rest, other :: others => decide (token = other) && phraseAt starred (next :: rest) others
  | _ :: _, [] => false

def phraseIn (starred : Bool) (phrase column : List (List Char)) : Bool :=
  column.tails.any (phraseAt starred phrase)

def ftsPhrases : List FtsToken → List (List Char × Bool)
  | [] => []
  | .string text :: .star :: rest => (text, true) :: ftsPhrases rest
  | .string text :: rest => (text, false) :: ftsPhrases rest
  | _ :: rest => ftsPhrases rest

section
variable (tokenizer : FtsTokenizer) (columns : List (List (List Char)))

def besideHits (tokens : List FtsToken) : Bool :=
  let phrases := ((ftsPhrases tokens).map fun (text, starred) =>
    (tokenizer.tokens text, starred)).filter (·.1 ≠ [])
  !phrases.isEmpty && phrases.all fun (phrase, starred) => columns.any (phraseIn starred phrase)

def exceptHits (tokens : List FtsToken) : Bool :=
  match tokens.splitOnP (· = .operator .not) with
  | [] => false
  | first :: others =>
    besideHits tokenizer columns first && others.all fun other => !besideHits tokenizer columns other

def ftsHits (tokens : List FtsToken) : Bool := (tokens.splitOnP (· = .operator .or)).any fun part =>
    (part.splitOnP (· = .operator .and)).all (exceptHits tokenizer columns)

def FtsMatches (query : List Char) : Prop := ∃ tokens, ftsLex .between query = some tokens ∧
    FtsExpr tokens ∧ ftsHits tokenizer columns tokens = true

end

variable {tokenizer : FtsTokenizer} {columns : List (List (List Char))}

theorem length_le_of_phraseAt (hit : phraseAt starred phrase column = true) :
    phrase.length ≤ column.length := by
  induction phrase generalizing column with
  | nil => exact Nat.zero_le _
  | cons token rest ih =>
    cases column with
    | nil =>
      cases rest with
      | nil | cons next rest => cases hit
    | cons other others =>
      cases rest with
      | nil => exact Nat.succ_le_succ (Nat.zero_le _)
      | cons next rest => exact Nat.succ_le_succ (ih (Bool.and_eq_true_iff.mp hit).2)

theorem length_le_of_phraseIn (hit : phraseIn starred phrase column = true) :
    phrase.length ≤ column.length := by
  obtain ⟨tail, mem, found⟩ := List.any_eq_true.mp hit
  exact (length_le_of_phraseAt found).trans ((mem_tails _ _).mp mem).length_le

theorem phraseAt_self (starred : Bool) (behind : List (List Char)) :
    ∀ phrase : List (List Char), phraseAt starred phrase (phrase ++ behind) = true
  | [] => by simp [phraseAt]
  | [last] => by simp [phraseAt]
  | token :: next :: rest => by
    have others := phraseAt_self starred behind (next :: rest)
    rw [cons_append] at others
    simp [phraseAt, others]

theorem phraseIn_of_within (starred : Bool) (within : phrase <:+: column) :
    phraseIn starred phrase column = true := by
  obtain ⟨before, behind, rfl⟩ := within
  refine List.any_eq_true.mpr ⟨phrase ++ behind, (mem_tails _ _).mpr ?_, phraseAt_self starred behind phrase⟩
  rw [append_assoc]
  exact suffix_append _ _

theorem ftsHits_operands (operands : ∀ which, .operator which ∉ tokens) :
    ftsHits tokenizer columns tokens = besideHits tokenizer columns tokens := by
  have alone : ∀ which, tokens.splitOnP (· = .operator which) = [tokens] := fun which =>
    splitOnP_eq_singleton fun token mem => decide_eq_false fun same => operands which (same ▸ mem)
  rw [ftsHits, alone, any_cons, any_nil, Bool.or_false, alone, all_cons, all_nil, Bool.and_true, exceptHits, alone]
  exact Bool.and_true _

theorem ftsHits_or {left : List FtsToken}
    (right : List FtsToken) (operands : ∀ which, .operator which ∉ left) :
    ftsHits tokenizer columns (left ++ .operator .or :: right) =
      (ftsHits tokenizer columns left || ftsHits tokenizer columns right) := by
  have clear : ∀ token ∈ left, decide (token = .operator .or) = false := fun token mem =>
    decide_eq_false fun same => operands .or (same ▸ mem)
  rw [ftsHits, splitOnP_append_cons_of_forall_mem clear _ (decide_eq_true rfl), any_cons, ftsHits_operands operands]
  congr 1
  have alone := splitOnP_eq_singleton clear
  rw [← ftsHits_operands operands, ftsHits, alone, any_cons, any_nil, Bool.or_false]

theorem ftsMatches_quoted_iff {text : List Char} :
    FtsMatches tokenizer columns ('"' :: (quotedText text ++ ['"'])) ↔
      tokenizer.tokens text ≠ [] ∧ columns.any (phraseIn false (tokenizer.tokens text)) = true := by
  have lexed : ftsLex .between ('"' :: (quotedText text ++ ['"'])) = some [.string text] := by
    have entered : FtsMode.between.step '"' = some ([], .quoted []) := rfl
    simp only [ftsLex, entered, Option.bind_some, ftsLex_quoted]
    rfl
  have hits : ftsHits tokenizer columns [.string text] = true ↔
    tokenizer.tokens text ≠ [] ∧ columns.any (phraseIn false (tokenizer.tokens text)) = true := by
    rw [ftsHits_operands (by simp), besideHits]
    by_cases empty : tokenizer.tokens text = []
    all_goals simp [ftsPhrases, empty]
  rw [← hits]
  constructor
  · rintro ⟨tokens, made, _, found⟩
    rw [lexed] at made
    cases made
    exact found
  · exact fun found => ⟨_, lexed, .phrase (.plain text), found⟩

/-! ## Texts outside strings -/

def FtsToken.spelled : FtsToken → List Char
  | .string text => text
  | .star => []
  | .operator .and => ['A', 'N', 'D']
  | .operator .or => ['O', 'R']
  | .operator .not => ['N', 'O', 'T']

theorem spelled_barewordToken (word : List Char) : (barewordToken word).spelled = word := by
  unfold barewordToken
  cases isKeyword : keyword word with
  | none => rfl
  | some which =>
    unfold keyword at isKeyword
    split_ifs at isKeyword with isAnd isOr isNot <;> cases isKeyword
    · exact isAnd.symm
    · exact isOr.symm
    · exact isNot.symm

def FtsMode.held : FtsMode → List Char
  | .bareword word => word
  | _ => []

theorem FtsMode.enter_cases {next : FtsMode} (unquoted : c ≠ '"')
    (entered : FtsMode.enter c = some (made, next)) :
    isBareword c = true ∧ made = [] ∧ next = .bareword [c] ∨
      isBareword c = false ∧ next = .between ∧ (made = [] ∨ made = [.star]) := by
  unfold enter at entered
  split at entered
  · rename_i space
    cases entered
    exact .inr ⟨not_isBareword_of_isFtsSpace space, rfl, .inl rfl⟩
  · split at entered
    · rename_i star
      cases entered
      exact .inr ⟨by rw [star]; decide, rfl, .inr rfl⟩
    · split at entered
      · rename_i bare
        cases entered
        exact .inl ⟨bare, rfl, rfl⟩
      · cases entered

theorem FtsMode.step_cases {next : FtsMode} (plain : mode.Plain) (unquoted : c ≠ '"')
    (step : mode.step c = some (made, next)) :
    made = [] ∧ next = .bareword (mode.held ++ [c]) ∨ isBareword c = false ∧
      next = .between ∧ ∃ signs, (signs = [] ∨ signs = [.star]) ∧ (mode = .between ∧ made = signs ∨
            mode = .bareword mode.held ∧ made = barewordToken mode.held :: signs) := by
  cases mode with
  | between =>
    obtain ⟨_, rfl, rfl⟩ | ⟨solid, rfl, signs⟩ := enter_cases unquoted step
    · exact .inl ⟨rfl, rfl⟩
    · exact .inr ⟨solid, rfl, made, signs, .inl ⟨rfl, rfl⟩⟩
  | bareword word =>
    simp only [FtsMode.step] at step
    split at step
    · cases step
      exact .inl ⟨rfl, rfl⟩
    · rename_i notBare
      obtain ⟨⟨signs, after⟩, entered, same⟩ := Option.map_eq_some_iff.mp step
      cases same
      obtain ⟨bare, _⟩ | ⟨solid, rfl, signs⟩ := enter_cases unquoted entered
      · exact absurd bare notBare
      · exact .inr ⟨solid, rfl, _, signs, .inr ⟨rfl, rfl⟩⟩
  | quoted text | closing text => exact plain.elim

theorem FtsTokenizer.signs (tokenizer : FtsTokenizer)
    {signs : List FtsToken} (either : signs = [] ∨ signs = [.star]) :
    signs.flatMap (fun token => tokenizer.tokens token.spelled) = [] := by
  rcases either with rfl | rfl
  · rfl
  · exact append_eq_nil_iff.mpr ⟨tokenizer.empty, rfl⟩

theorem tokens_of_ftsLex {text : List Char} (unquoted : '"' ∉ text) :
    ∀ {mode : FtsMode} {lexed : List FtsToken}, mode.Plain →
      ftsLex mode text = some lexed → lexed.flatMap (fun token => tokenizer.tokens token.spelled) =
      tokenizer.tokens (mode.held ++ text) := by
  induction text with
  | nil =>
    intro mode lexed plain made
    rw [append_nil]
    cases mode with
    | between =>
      cases made
      exact tokenizer.empty.symm
    | bareword word =>
      cases made
      rw [flatMap_cons, spelled_barewordToken, flatMap_nil, append_nil]
      rfl
    | quoted text | closing text => exact plain.elim
  | cons c rest ih =>
    intro mode lexed plain made
    rw [mem_cons, not_or] at unquoted
    obtain ⟨⟨first, next⟩, step, others⟩ := Option.bind_eq_some_iff.mp made
    obtain ⟨more, read, rfl⟩ := Option.map_eq_some_iff.mp others
    have later := ih unquoted.2 (FtsMode.step_plain plain (Ne.symm unquoted.1) step).1 read
    rw [flatMap_append, later]
    obtain ⟨rfl, rfl⟩ | ⟨solid, rfl, signs, either, ⟨rfl, rfl⟩ | ⟨held, rfl⟩⟩ :=
      FtsMode.step_cases plain (Ne.symm unquoted.1) step
    · rw [flatMap_nil, nil_append, FtsMode.held, ← append_cons]
    · rw [tokenizer.signs either, tokenizer.separates solid]
      exact congrArg (· ++ _) tokenizer.empty.symm
    · rw [flatMap_cons, spelled_barewordToken, tokenizer.signs either, append_nil, tokenizer.separates solid]
      rfl

theorem ftsLex_append_space {left : List Char} (space : isFtsSpace c = true)
    (unquoted : '"' ∉ left) : ∀ {mode : FtsMode}, mode.Plain →
      ftsLex mode (left ++ c :: right) = (ftsLex mode left).bind fun before =>
        (ftsLex .between right).map fun after => before ++ after := by
  induction left with
  | nil =>
    intro mode plain
    have notBare : ¬ isBareword c = true := by
      rw [not_isBareword_of_isFtsSpace space]
      exact Bool.false_ne_true
    cases mode with
    | between =>
      have step : FtsMode.between.step c = some ([], .between) := FtsMode.enter_space space
      change ((_ : FtsMode).step c).bind _ = _
      rw [step]
      rfl
    | bareword word =>
      have step : (FtsMode.bareword word).step c = some ([barewordToken word], .between) := by
        rw [FtsMode.step, if_neg notBare, FtsMode.after, FtsMode.enter_space space]
        rfl
      change ((_ : FtsMode).step c).bind _ = _
      rw [step]
      rfl
    | quoted text | closing text => exact plain.elim
  | cons d left ih =>
    intro mode plain
    rw [mem_cons, not_or] at unquoted
    rw [cons_append, ftsLex, ftsLex]
    cases step : mode.step d with
    | none => rfl
    | some result =>
      obtain ⟨made, next⟩ := result
      dsimp only [Option.bind_some]
      rw [ih unquoted.2 (FtsMode.step_plain plain (Ne.symm unquoted.1) step).1]
      cases ftsLex next left with
      | none => rfl
      | some before =>
        cases ftsLex .between right with
        | none => rfl
        | some after => simp

theorem barewordToken_of_small (small : ∀ c ∈ word, c.isUpper = false) :
    barewordToken word = .string word := by
  unfold barewordToken
  cases isKeyword : keyword word with
  | none => rfl
  | some which =>
    unfold keyword at isKeyword
    split_ifs at isKeyword with isAnd isOr isNot
    · exact absurd (small 'A' (isAnd ▸ mem_cons_self)) (by decide)
    · exact absurd (small 'O' (isOr ▸ mem_cons_self)) (by decide)
    · exact absurd (small 'N' (isNot ▸ mem_cons_self)) (by decide)

variable {text : List Char}

theorem operands_of_ftsLex (unquoted : '"' ∉ text) :
    ∀ {mode : FtsMode} {lexed : List FtsToken}, mode.Plain → (∀ c ∈ mode.held ++ text,
      c.isUpper = false) → ftsLex mode text = some lexed → ∀ which, .operator which ∉ lexed := by
  induction text with
  | nil =>
    intro mode lexed plain small made
    rw [append_nil] at small
    cases mode with
    | between =>
      cases made
      simp
    | bareword word =>
      cases made
      have word' : barewordToken word = .string word := barewordToken_of_small small
      rw [word']
      simp
    | quoted text | closing text => exact plain.elim
  | cons c rest ih =>
    intro mode lexed plain small made which
    rw [mem_cons, not_or] at unquoted
    obtain ⟨⟨first, next⟩, step, others⟩ := Option.bind_eq_some_iff.mp made
    obtain ⟨more, read, rfl⟩ := Option.map_eq_some_iff.mp others
    have onward := @ih unquoted.2 next more (FtsMode.step_plain plain (Ne.symm unquoted.1) step).1
    have signless : ∀ {signs : List FtsToken}, signs = [] ∨ signs = [.star] → .operator which ∉ signs := by
      rintro signs (rfl | rfl) <;> simp
    rw [mem_append, not_or]
    obtain ⟨rfl, rfl⟩ | ⟨_, rfl, signs, either, ⟨rfl, rfl⟩ | ⟨_, rfl⟩⟩ := FtsMode.step_cases plain (Ne.symm unquoted.1) step
    · refine ⟨not_mem_nil, onward (fun d mem => small d ?_) read which⟩
      rwa [append_cons]
    · refine ⟨signless either, onward (fun d mem => small d ?_) read which⟩
      exact .tail _ mem
    · refine ⟨?_, onward (fun d mem => small d ?_) read which⟩
      · rw [barewordToken_of_small fun d mem => small d (mem_append_left _ mem)]
        simpa using signless either
      · exact mem_append_right _ (.tail _ mem)

theorem mem_ftsPhrases (mem : (text, starred) ∈ ftsPhrases tokens) : .string text ∈ tokens := by
  induction tokens using ftsPhrases.induct with
  | case1 => cases mem
  | case2 other rest ih =>
    rw [ftsPhrases] at mem
    rcases List.mem_cons.mp mem with same | behind
    · cases same
      exact .head _
    · exact .tail _ (.tail _ (ih behind))
  | case3 other rest notStar ih =>
    rw [ftsPhrases] at mem
    · rcases List.mem_cons.mp mem with same | behind
      · cases same
        exact .head _
      · exact .tail _ (ih behind)
    · exact notStar
  | case4 token rest _ notString ih =>
    rw [ftsPhrases] at mem
    · exact .tail _ (ih mem)
    all_goals assumption

theorem exists_ftsPhrases (mem : .string text ∈ tokens) :
    ∃ starred, (text, starred) ∈ ftsPhrases tokens := by
  induction tokens using ftsPhrases.induct with
  | case1 => cases mem
  | case2 other rest ih =>
    rw [ftsPhrases]
    rcases List.mem_cons.mp mem with same | behind
    · cases same
      exact ⟨true, .head _⟩
    · rcases List.mem_cons.mp behind with same | behind
      · cases same
      · obtain ⟨starred, found⟩ := ih behind
        exact ⟨starred, .tail _ found⟩
  | case3 other rest notStar ih =>
    rw [ftsPhrases]
    · rcases List.mem_cons.mp mem with same | behind
      · cases same
        exact ⟨false, .head _⟩
      · obtain ⟨starred, found⟩ := ih behind
        exact ⟨starred, .tail _ found⟩
    · exact notStar
  | case4 token rest _ notString ih =>
    rw [ftsPhrases]
    · rcases List.mem_cons.mp mem with same | behind
      · exact absurd same.symm (notString text)
      · exact ih behind
    all_goals assumption

theorem ftsMatches_self (unquoted : '"' ∉ text) (small : ∀ c ∈ text, c.isUpper = false)
    (accepted : FtsAccepts text) (filled : tokenizer.tokens text ≠ []) :
    FtsMatches tokenizer [tokenizer.tokens text] text := by
  obtain ⟨lexed, made, expr⟩ := accepted
  have plain : FtsMode.between.Plain := trivial
  have operands := operands_of_ftsLex unquoted plain small made
  have spread := @tokens_of_ftsLex tokenizer _ unquoted _ _ plain made
  refine ⟨lexed, made, expr, ?_⟩
  rw [ftsHits_operands operands]
  obtain ⟨token, mem, counts⟩ : ∃ token ∈ lexed, tokenizer.tokens token.spelled ≠ [] := by
    by_contra none'
    push Not at none'
    rw [flatMap_eq_nil_iff.mpr none'] at spread
    exact filled spread.symm
  obtain ⟨word, rfl⟩ : ∃ word, token = .string word := by
    cases token with
    | string word => exact ⟨word, rfl⟩
    | star => exact absurd tokenizer.empty counts
    | operator which => exact absurd mem (operands which)
  obtain ⟨starred, found⟩ := exists_ftsPhrases mem
  rw [besideHits, Bool.and_eq_true]
  constructor
  · have kept : (tokenizer.tokens word, starred) ∈ ((ftsPhrases lexed).map fun (text, starred) =>
        (tokenizer.tokens text, starred)).filter (·.1 ≠ []) :=
      mem_filter.mpr ⟨mem_map.mpr ⟨_, found, rfl⟩, decide_eq_true counts⟩
    simpa using ne_nil_of_mem kept
  · rw [all_eq_true]
    rintro ⟨phrase, starred⟩ asked
    obtain ⟨⟨text, _⟩, listed, same⟩ := mem_map.mp (mem_filter.mp asked).1
    cases same
    refine any_eq_true.mpr ⟨_, mem_singleton_self _, phraseIn_of_within _ ?_⟩
    have part := mem_map_of_mem (f := fun token : FtsToken => tokenizer.tokens token.spelled) (mem_ftsPhrases listed)
    have within := infix_of_mem_flatten part
    rw [← flatMap_def, spread] at within
    exact within

theorem not_ftsMatches_of_empty (unquoted : '"' ∉ text) (small : ∀ c ∈ text, c.isUpper = false)
    (empty : tokenizer.tokens text = []) :
    ¬ FtsMatches tokenizer columns text := by
  rintro ⟨lexed, made, _, hits⟩
  have plain : FtsMode.between.Plain := trivial
  have spread := @tokens_of_ftsLex tokenizer _ unquoted _ _ plain made
  have nothing := flatMap_eq_nil_iff.mp (spread.trans empty)
  rw [ftsHits_operands (operands_of_ftsLex unquoted plain small made), besideHits] at hits
  have none' : ((ftsPhrases lexed).map fun (text, starred) =>
      (tokenizer.tokens text, starred)).filter (·.1 ≠ []) = [] := by
    rw [filter_eq_nil_iff]
    intro phrase listed counts
    obtain ⟨⟨word, starred⟩, found, rfl⟩ := mem_map.mp listed
    exact of_decide_eq_true counts (nothing _ (mem_ftsPhrases found))
  rw [none'] at hits
  cases hits

end Atlas.Sql
