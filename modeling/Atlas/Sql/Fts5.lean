import Atlas.Sql.FullText

/-! The query language of FTS5 with all its signs. A query ends at its first NUL. What has neither
quotes nor brackets is decided by an automaton over its tokens. -/
namespace Atlas.Sql.Fts5
open List

inductive Sign where
  | leftParen
  | rightParen
  | leftBrace
  | rightBrace
  | colon
  | comma
  | plus
  | star
  | minus
  | caret
  deriving DecidableEq

inductive Token where
  | word (text : List Char)
  | quoted (text : List Char)
  | operator (which : FtsOperator)
  | sign (which : Sign)
  deriving DecidableEq

def signOf (c : Char) : Option Sign :=
  if c = '(' then some .leftParen
  else if c = ')' then some .rightParen
  else if c = '{' then some .leftBrace
  else if c = '}' then some .rightBrace
  else if c = ':' then some .colon
  else if c = ',' then some .comma
  else if c = '+' then some .plus
  else if c = '*' then some .star
  else if c = '-' then some .minus
  else if c = '^' then some .caret
  else none

/-- `sqlite3Fts5IsBareword` also takes the substitute character. -/
def isWordChar (c : Char) : Bool := isBareword c || decide (c.toNat = 0x1a)

def wordToken (word : List Char) : Token :=
  match keyword word with
  | some which => .operator which
  | none => .word word

def enter (c : Char) : Option (List Token × FtsMode) :=
  if isFtsSpace c then some ([], .between)
  else if c = '"' then some ([], .quoted [])
  else if isWordChar c then some ([], .bareword [c])
  else (signOf c).map fun which => ([.sign which], .between)

def after (token : Token) (c : Char) : Option (List Token × FtsMode) :=
  (enter c).map fun (made, mode) => (token :: made, mode)

def step : FtsMode → Char → Option (List Token × FtsMode)
  | .between, c => enter c
  | .bareword word, c => if isWordChar c then some ([], .bareword (word ++ [c])) else after (wordToken word) c
  | .quoted text, c => if c = '"' then some ([], .closing text) else some ([], .quoted (text ++ [c]))
  | .closing text, c => if c = '"' then some ([], .quoted (text ++ ['"'])) else after (.quoted text) c

def finish : FtsMode → Option (List Token)
  | .between => some []
  | .bareword word => some [wordToken word]
  | .quoted _ => none
  | .closing text => some [.quoted text]

def lex : FtsMode → List Char → Option (List Token)
  | mode, [] => finish mode
  | mode, c :: rest => (step mode c).bind fun (made, next) => (lex next rest).map fun more => made ++ more

def beforeNul (query : List Char) : List Char := query.takeWhile fun c => decide (c ≠ '\x00')

/-! ## Grammar -/

section
variable (columns : List String)

/-- `sqlite3_stricmp` with the name of a column. -/
def isColumn (text : List Char) : Bool :=
  columns.any fun name => decide (name.toList.map Char.toLower = text.map Char.toLower)

inductive IsString : Token → List Char → Prop where
  | word (text : List Char) : IsString (.word text) text
  | quoted (text : List Char) : IsString (.quoted text) text

/-- Strings joined by `+`, with an optional star at the end. -/
inductive Phrase : List Token → Prop where
  | string {token text} : IsString token text → Phrase [token]
  | starred {token text} : IsString token text → Phrase [token, .sign .star]
  | plus {left token text} : Phrase left → IsString token text → Phrase (left ++ [.sign .plus, token])
  | plusStarred {left token text} : Phrase left → IsString token text →
      Phrase (left ++ [.sign .plus, token, .sign .star])

inductive ColumnList : List Token → Prop where
  | one {token text} : IsString token text → isColumn columns text = true → ColumnList [token]
  | more {left token text} : ColumnList left → IsString token text → isColumn columns text = true →
      ColumnList (left ++ [token])

/-- One column or a group of them in braces, with an optional minus in front. -/
inductive ColumnSet : List Token → Prop where
  | one {token text} : IsString token text → isColumn columns text = true → ColumnSet [token]
  | group {names} : ColumnList columns names → ColumnSet (.sign .leftBrace :: names ++ [.sign .rightBrace])
  | minus {set} : ColumnSet set → set.head? ≠ some (.sign .minus) → ColumnSet (.sign .minus :: set)

inductive Phrases : List Token → Prop where
  | one {phrase} : Phrase phrase → Phrases phrase
  | more {left phrase} : Phrases left → Phrase phrase → Phrases (left ++ phrase)

inductive Distance : List Token → Prop where
  | absent : Distance []
  | number {digits : List Char} : digits.all Char.isDigit = true → Distance [.sign .comma, .word digits]

/-- A phrase, one bound to the start of a column, or a NEAR group. -/
inductive NearSet : List Token → Prop where
  | phrase {phrase} : Phrase phrase → NearSet phrase
  | caret {phrase} : Phrase phrase → NearSet (.sign .caret :: phrase)
  | near {phrases distance} : Phrases phrases → Distance distance →
      NearSet (.word ['N', 'E', 'A', 'R'] :: .sign .leftParen :: phrases ++ distance ++ [.sign .rightParen])

inductive Filtered : List Token → Prop where
  | anywhere {near} : NearSet near → Filtered near
  | within {set near} : ColumnSet columns set → NearSet near → Filtered (set ++ .sign .colon :: near)

inductive FilteredList : List Token → Prop where
  | one {filtered} : Filtered columns filtered → FilteredList filtered
  | beside {left filtered} : FilteredList left → Filtered columns filtered → FilteredList (left ++ filtered)

/-- What the FTS5 grammar accepts, its rules applied bottom up. -/
inductive Expr : List Token → Prop where
  | list {list} : FilteredList columns list → Expr list
  | joined {left right} (which : FtsOperator) : Expr left → Expr right → Expr (left ++ .operator which :: right)
  | group {inner} : Expr inner → Expr (.sign .leftParen :: inner ++ [.sign .rightParen])
  | within {set inner} : ColumnSet columns set → Expr inner →
      Expr (set ++ [.sign .colon, .sign .leftParen] ++ inner ++ [.sign .rightParen])

/-- A text that can stand behind `MATCH` for a table with these columns. -/
def Accepts (query : List Char) : Prop :=
  ∃ tokens, lex .between (beforeNul query) = some tokens ∧ Expr columns tokens

/-! ## Automaton -/

/-- Where the reader of a query without quotes and brackets is: before an operand, behind a
word that may be the name of a column, behind a plus, behind a phrase that cannot be a name,
behind the colon of a filter, and before, in and behind the names of a group. -/
inductive Place where
  | operand
  | word (text : List Char)
  | plus
  | phrase
  | colon
  | opened
  | names
  | closed

def Place.next : Place → Token → Option Place
  | .operand, .word text => some (.word text)
  | .operand, .sign .leftBrace => some .opened
  | .word _, .word text => some (.word text)
  | .word _, .operator _ => some .operand
  | .word _, .sign .plus => some .plus
  | .word text, .sign .colon => if isColumn columns text then some .colon else none
  | .word _, .sign .leftBrace => some .opened
  | .plus, .word _ => some .phrase
  | .phrase, .word text => some (.word text)
  | .phrase, .operator _ => some .operand
  | .phrase, .sign .plus => some .plus
  | .phrase, .sign .leftBrace => some .opened
  | .colon, .word _ => some .phrase
  | .opened, .word text => if isColumn columns text then some .names else none
  | .names, .word text => if isColumn columns text then some .names else none
  | .names, .sign .rightBrace => some .closed
  | .closed, .sign .colon => some .colon
  | _, _ => none

def Place.run (place : Place) (tokens : List Token) : Option Place :=
  tokens.foldlM (Place.next columns) place

/-- An operand has just ended. -/
def Place.Ends : Place → Prop
  | .word _ | .phrase => True
  | _ => False

/-- The words and signs of the query are in order. -/
def InOrder (query : List Char) : Prop :=
  ∃ tokens last, lex .between (beforeNul query) = some tokens ∧ Place.run columns .operand tokens = some last ∧ last.Ends

def Token.isPlain : Token → Bool
  | .word _ | .operator _ => true
  | .sign .leftBrace | .sign .rightBrace | .sign .colon | .sign .comma | .sign .plus => true
  | _ => false

variable {columns} {place last : Place} {tokens left filtered : List Token}

@[simp] theorem Place.run_nil (place : Place) : place.run columns [] = some place := rfl

@[simp] theorem Place.run_cons (place : Place) (token : Token) (rest : List Token) :
    place.run columns (token :: rest) = (place.next columns token).bind fun next => next.run columns rest := rfl

theorem Place.run_append (place : Place) (first second : List Token) :
    place.run columns (first ++ second) = (place.run columns first).bind fun next => next.run columns second :=
  foldlM_append

/-! ### What the grammar accepts is in order -/

/-- An operand with or without a filter may begin here. -/
def Place.Opens : Place → Prop
  | .operand | .word _ | .phrase => True
  | _ => False

theorem Place.Ends.opens (ends : place.Ends) : place.Opens := by
  cases place with
  | word _ | phrase => trivial
  | operand | plus | colon | opened | names | closed => exact ends.elim

theorem IsString.word_of_plain {token : Token} {text : List Char} (string : IsString token text)
    (plain : token.isPlain = true) : token = .word text := by
  cases string with
  | word => rfl
  | quoted => cases plain

theorem Phrase.run {phrase : List Token}
    (isPhrase : Phrase phrase) (plain : ∀ token ∈ phrase, token.isPlain = true)
    (ready : place.Opens ∨ place = .colon) : ∃ last, place.run columns phrase = some last ∧ last.Ends := by
  induction isPhrase with
  | string string =>
    rw [string.word_of_plain (plain _ (.head _))]
    rcases ready with opens | rfl
    · cases place with
      | operand | word _ | phrase => exact ⟨_, rfl, trivial⟩
      | plus | colon | opened | names | closed => exact opens.elim
    · exact ⟨_, rfl, trivial⟩
  | starred => exact absurd (plain (.sign .star) (by simp)) nofun
  | plusStarred => exact absurd (plain (.sign .star) (by simp)) nofun
  | plus _ string ih =>
    obtain ⟨middle, ran, ends⟩ := ih fun token mem => plain token (mem_append_left _ mem)
    rw [string.word_of_plain (plain _ (by simp))]
    refine ⟨.phrase, ?_, trivial⟩
    rw [Place.run_append, ran]
    cases middle with
    | word _ | phrase => rfl
    | operand | plus | colon | opened | names | closed => exact ends.elim

theorem ColumnList.run {names : List Token} (list : ColumnList columns names)
    (plain : ∀ token ∈ names, token.isPlain = true) : Place.opened.run columns names = some .names := by
  induction list with
  | one string named =>
    rw [string.word_of_plain (plain _ (.head _)), Place.run_cons, Place.next, if_pos named]
    rfl
  | more _ string named ih =>
    rw [string.word_of_plain (plain _ (by simp)), Place.run_append,
      ih fun token mem => plain token (mem_append_left _ mem), Option.bind_some, Place.run_cons, Place.next, if_pos named]
    rfl

theorem ColumnSet.run {set : List Token} (isSet : ColumnSet columns set)
    (plain : ∀ token ∈ set, token.isPlain = true) (opens : place.Opens) :
    place.run columns (set ++ [.sign .colon]) = some .colon := by
  cases isSet with
  | @one token text string named =>
    rw [string.word_of_plain (plain _ (.head _))]
    have begins : place.next columns (.word text) = some (.word text) := by
      cases place with
      | operand | word _ | phrase => rfl
      | plus | colon | opened | names | closed => exact opens.elim
    rw [singleton_append, Place.run_cons, begins, Option.bind_some, Place.run_cons, Place.next, if_pos named]
    rfl
  | group list =>
    have inside := list.run fun token mem => plain token (mem_append_left _ (.tail _ mem))
    have opened : place.next columns (.sign .leftBrace) = some .opened := by
      cases place with
      | operand | word _ | phrase => rfl
      | plus | colon | opened | names | closed => exact opens.elim
    rw [cons_append, cons_append, append_assoc, Place.run_cons, opened, Option.bind_some, Place.run_append, inside]
    rfl
  | minus => exact absurd (plain (.sign .minus) (.head _)) nofun

theorem NearSet.phrase_of_plain {near : List Token} (isNear : NearSet near)
    (plain : ∀ token ∈ near, token.isPlain = true) : Phrase near := by
  cases isNear with
  | phrase isPhrase => exact isPhrase
  | caret => exact absurd (plain (.sign .caret) (.head _)) nofun
  | near => exact absurd (plain (.sign .leftParen) (by simp)) nofun

theorem Filtered.run (isFiltered : Filtered columns filtered)
    (plain : ∀ token ∈ filtered, token.isPlain = true)
    (opens : place.Opens) : ∃ last, place.run columns filtered = some last ∧ last.Ends := by
  cases isFiltered with
  | anywhere near => exact (near.phrase_of_plain plain).run plain (.inl opens)
  | @within set near isSet isNear =>
    have own : ∀ token ∈ near, token.isPlain = true := fun token mem => plain token (mem_append_right _ (.tail _ mem))
    have ⟨last, (ran : Place.run columns .colon _ = _), ends⟩ :=
      (isNear.phrase_of_plain own).run own (.inr rfl)
    refine ⟨last, ?_, ends⟩
    rw [append_cons, Place.run_append, isSet.run (fun token mem => plain token (mem_append_left _ mem)) opens]
    exact ran

theorem FilteredList.run {list : List Token} (isList : FilteredList columns list)
    (plain : ∀ token ∈ list, token.isPlain = true) (opens : place.Opens) :
    ∃ last, place.run columns list = some last ∧ last.Ends := by
  induction isList with
  | one isFiltered => exact isFiltered.run plain opens
  | beside _ isFiltered ih =>
    obtain ⟨middle, ran, ends⟩ := ih fun token mem => plain token (mem_append_left _ mem)
    obtain ⟨last, more, stops⟩ := isFiltered.run (fun token mem => plain token (mem_append_right _ mem)) ends.opens
    exact ⟨last, by rw [Place.run_append, ran, Option.bind_some, more], stops⟩

theorem Expr.run (expr : Expr columns tokens)
    (plain : ∀ token ∈ tokens, token.isPlain = true) (opens : place.Opens) :
    ∃ last, place.run columns tokens = some last ∧ last.Ends := by
  induction expr generalizing place with
  | list isList => exact isList.run plain opens
  | joined which _ _ leftIH rightIH =>
    obtain ⟨middle, ran, ends⟩ := leftIH (fun token mem => plain token (mem_append_left _ mem)) opens
    obtain ⟨last, more, stops⟩ :=
      @rightIH .operand (fun token mem => plain token (mem_append_right _ (.tail _ mem))) trivial
    refine ⟨last, ?_, stops⟩
    have joins : middle.next columns (.operator which) = some .operand := by
      cases middle with
      | word _ | phrase => rfl
      | operand | plus | colon | opened | names | closed => exact ends.elim
    rw [Place.run_append, ran, Option.bind_some, Place.run_cons, joins, Option.bind_some, more]
  | group => exact absurd (plain (.sign .leftParen) (.head _)) nofun
  | within => exact absurd (plain (.sign .leftParen) (by simp)) nofun

/-! ### What is in order is accepted by the grammar -/

theorem Expr.beside (expr : Expr columns tokens) (plain : ∀ token ∈ tokens, token.isPlain = true)
    (isFiltered : Filtered columns filtered) : Expr columns (tokens ++ filtered) := by
  induction expr with
  | list isList => exact .list (isList.beside isFiltered)
  | joined which first _ _ rightIH =>
    have joined := Expr.joined which first (rightIH fun token mem => plain token (mem_append_right _ (.tail _ mem)))
    rwa [append_assoc]
  | group => exact absurd (plain (.sign .leftParen) (.head _)) nofun
  | within => exact absurd (plain (.sign .leftParen) (by simp)) nofun

variable (columns)

/-- Nothing yet, or an operator that needs an operand. -/
def Pending (tokens : List Token) : Prop :=
  tokens = [] ∨ ∃ left which, Expr columns left ∧ tokens = left ++ [.operator which]

/-- An operand may follow. -/
def Before (tokens : List Token) : Prop := Pending columns tokens ∨ Expr columns tokens

def Filter (tokens : List Token) : Prop :=
  tokens = [] ∨ ∃ set, ColumnSet columns set ∧ tokens = set ++ [.sign .colon]

def Place.Reached (tokens : List Token) : Place → Prop
  | .operand => Pending columns tokens
  | .word text => ∃ before, Before columns before ∧ tokens = before ++ [.word text]
  | .plus => ∃ before filter phrase, Before columns before ∧ Filter columns filter ∧ Phrase phrase ∧
      tokens = before ++ (filter ++ phrase) ++ [.sign .plus]
  | .phrase => ∃ before filter phrase, Before columns before ∧ Filter columns filter ∧ Phrase phrase ∧
      tokens = before ++ (filter ++ phrase)
  | .colon => ∃ before set, Before columns before ∧ ColumnSet columns set ∧ tokens = before ++ (set ++ [.sign .colon])
  | .opened => ∃ before, Before columns before ∧ tokens = before ++ [.sign .leftBrace]
  | .names => ∃ before list, Before columns before ∧ ColumnList columns list ∧
      tokens = before ++ .sign .leftBrace :: list
  | .closed => ∃ before list, Before columns before ∧ ColumnList columns list ∧
      tokens = before ++ (.sign .leftBrace :: list ++ [.sign .rightBrace])

variable {columns}

theorem Filter.withPhrase {filter phrase : List Token}
    (isFilter : Filter columns filter) (isPhrase : Phrase phrase) :
    Filtered columns (filter ++ phrase) := by
  obtain rfl | ⟨set, isSet, rfl⟩ := isFilter
  · exact .anywhere (.phrase isPhrase)
  · rw [append_assoc, singleton_append]
    exact .within isSet (.phrase isPhrase)

theorem Before.expr {before : List Token} (ready : Before columns before)
    (plain : ∀ token ∈ before, token.isPlain = true) (isFiltered : Filtered columns filtered) :
    Expr columns (before ++ filtered) := by
  obtain (rfl | ⟨left, which, expr, rfl⟩) | expr := ready
  · exact .list (.one isFiltered)
  · have joined := Expr.joined which expr (.list (.one isFiltered))
    rwa [append_cons] at joined
  · exact expr.beside plain isFiltered

theorem Place.Reached.expr (reached : place.Reached columns tokens)
    (plain : ∀ token ∈ tokens, token.isPlain = true)
    (ends : place.Ends) : Expr columns tokens := by
  cases place with
  | word text =>
    obtain ⟨before, ready, rfl⟩ := reached
    exact ready.expr (fun token mem => plain token (mem_append_left _ mem)) (.anywhere (.phrase (.string (.word text))))
  | phrase =>
    obtain ⟨before, filter, phrase, ready, isFilter, isPhrase, rfl⟩ := reached
    exact ready.expr (fun token mem => plain token (mem_append_left _ mem)) (isFilter.withPhrase isPhrase)
  | operand | plus | colon | opened | names | closed => exact ends.elim

theorem Place.Reached.before (reached : place.Reached columns tokens)
    (plain : ∀ token ∈ tokens, token.isPlain = true)
    (opens : place.Opens) : Before columns tokens := by
  cases place with
  | operand => exact .inl reached
  | word _ | phrase => exact .inr (reached.expr plain trivial)
  | plus | colon | opened | names | closed => exact opens.elim

theorem Place.Reached.next {token : Token} {next : Place} (reached : place.Reached columns tokens)
    (plain : ∀ token ∈ tokens, token.isPlain = true) (step : place.next columns token = some next) :
    next.Reached columns (tokens ++ [token]) := by
  have before := reached.before plain
  cases place with
  | operand =>
    cases token with
    | word text =>
      cases step
      exact ⟨tokens, before trivial, rfl⟩
    | sign which =>
      cases which with
      | leftBrace =>
        cases step
        exact ⟨tokens, before trivial, rfl⟩
      | _ => cases step
    | quoted _ | operator _ => cases step
  | word text =>
    cases token with
    | word text =>
      cases step
      exact ⟨tokens, before trivial, rfl⟩
    | operator which =>
      cases step
      exact .inr ⟨tokens, which, reached.expr plain trivial, rfl⟩
    | sign which =>
      cases which with
      | leftBrace =>
        cases step
        exact ⟨tokens, before trivial, rfl⟩
      | plus =>
        cases step
        obtain ⟨early, ready, rfl⟩ := reached
        exact ⟨early, [], [.word text], ready, .inl rfl, .string (.word text), rfl⟩
      | colon =>
        obtain ⟨named, ⟨⟩⟩ := Option.ite_none_right_eq_some.mp step
        obtain ⟨early, ready, rfl⟩ := reached
        exact ⟨early, [.word text], ready, .one (.word text) named, by simp⟩
      | _ => cases step
    | quoted _ => cases step
  | plus =>
    cases token with
    | word text =>
      cases step
      obtain ⟨early, filter, phrase, ready, isFilter, isPhrase, rfl⟩ := reached
      exact ⟨early, filter, phrase ++ [.sign .plus, .word text], ready, isFilter, .plus isPhrase (.word text), by simp⟩
    | quoted _ | operator _ | sign _ => cases step
  | phrase =>
    cases token with
    | word text =>
      cases step
      exact ⟨tokens, before trivial, rfl⟩
    | operator which =>
      cases step
      exact .inr ⟨tokens, which, reached.expr plain trivial, rfl⟩
    | sign which =>
      cases which with
      | leftBrace =>
        cases step
        exact ⟨tokens, before trivial, rfl⟩
      | plus =>
        cases step
        obtain ⟨early, filter, phrase, ready, isFilter, isPhrase, rfl⟩ := reached
        exact ⟨early, filter, phrase, ready, isFilter, isPhrase, rfl⟩
      | _ => cases step
    | quoted _ => cases step
  | colon =>
    cases token with
    | word text =>
      cases step
      obtain ⟨early, set, ready, isSet, rfl⟩ := reached
      exact ⟨early, set ++ [.sign .colon], [.word text], ready, .inr ⟨set, isSet, rfl⟩, .string (.word text), by simp⟩
    | quoted _ | operator _ | sign _ => cases step
  | opened =>
    cases token with
    | word text =>
      obtain ⟨named, ⟨⟩⟩ := Option.ite_none_right_eq_some.mp step
      obtain ⟨early, ready, rfl⟩ := reached
      exact ⟨early, [.word text], ready, .one (.word text) named, by simp⟩
    | quoted _ | operator _ | sign _ => cases step
  | names =>
    obtain ⟨early, list, ready, isList, rfl⟩ := reached
    cases token with
    | word text =>
      obtain ⟨named, ⟨⟩⟩ := Option.ite_none_right_eq_some.mp step
      exact ⟨early, list ++ [.word text], ready, .more isList (.word text) named, by simp⟩
    | sign which =>
      cases which with
      | rightBrace =>
        cases step
        exact ⟨early, list, ready, isList, by simp⟩
      | _ => cases step
    | quoted _ | operator _ => cases step
  | closed =>
    cases token with
    | sign which =>
      cases which with
      | colon =>
        cases step
        obtain ⟨early, list, ready, isList, rfl⟩ := reached
        exact ⟨early, .sign .leftBrace :: list ++ [.sign .rightBrace], ready, .group isList, by simp⟩
      | _ => cases step
    | word _ | quoted _ | operator _ => cases step

theorem Place.reached_of_run (plain : ∀ token ∈ tokens, token.isPlain = true) :
    ∀ {last : Place}, Place.operand.run columns tokens = some last → last.Reached columns tokens := by
  induction tokens using reverseRecOn with
  | nil =>
    intro last ran
    cases ran
    exact .inl rfl
  | append_singleton tokens token ih =>
    intro last ran
    have front : ∀ token ∈ tokens, token.isPlain = true := fun token mem => plain token (mem_append_left _ mem)
    rw [Place.run_append] at ran
    obtain ⟨middle, early, late⟩ := Option.bind_eq_some_iff.mp ran
    obtain ⟨next, step, same⟩ := Option.bind_eq_some_iff.mp late
    cases same
    exact (ih front early).next front step

/-- Outside quotes and brackets the grammar is the automaton. -/
theorem expr_iff (plain : ∀ token ∈ tokens, token.isPlain = true) :
    Expr columns tokens ↔ ∃ last, Place.operand.run columns tokens = some last ∧ last.Ends := by
  constructor
  · intro expr
    exact expr.run plain trivial
  · rintro ⟨last, ran, ends⟩
    exact (Place.reached_of_run plain ran).expr plain ends

end

/-! ## Texts without quotes and brackets, and quoted texts -/

/-- What makes a text more than words, operators, column filters and phrases joined by a plus. -/
def isMark (c : Char) : Bool := decide (c ∈ ['"', '(', ')', '^', '-', '*'])

variable {c : Char} {text : List Char} {made : List Token} {mode next : FtsMode}

theorem signOf_plain {which : Sign} (ordinary : isMark c = false) (sign : signOf c = some which) :
    (Token.sign which).isPlain = true := by
  have apart := of_decide_eq_false ordinary
  simp only [mem_cons, not_mem_nil, or_false, not_or] at apart
  obtain ⟨-, leftParen, rightParen, caret, minus, star⟩ := apart
  rw [signOf, if_neg leftParen, if_neg rightParen] at sign
  split_ifs at sign
  all_goals
    cases sign
    rfl

theorem wordToken_plain (word : List Char) : (wordToken word).isPlain = true := by
  unfold wordToken
  cases keyword word with
  | none | some _ => rfl

theorem enter_plain (ordinary : isMark c = false) (entered : enter c = some (made, next)) :
    (∀ token ∈ made, token.isPlain = true) ∧ next.Plain := by
  unfold enter at entered
  split_ifs at entered with space quote word
  · cases entered
    exact ⟨nofun, trivial⟩
  · exact absurd (quote ▸ ordinary) (by decide)
  · cases entered
    exact ⟨nofun, trivial⟩
  · obtain ⟨which, sign, same⟩ := Option.map_eq_some_iff.mp entered
    cases same
    exact ⟨fun token mem => mem_singleton.mp mem ▸ signOf_plain ordinary sign, trivial⟩

theorem step_plain (ordinary : isMark c = false)
    (plain : mode.Plain) (stepped : step mode c = some (made, next)) :
    (∀ token ∈ made, token.isPlain = true) ∧ next.Plain := by
  cases mode with
  | between => exact enter_plain ordinary stepped
  | bareword word =>
    rw [step] at stepped
    split_ifs at stepped with more
    · cases stepped
      exact ⟨nofun, trivial⟩
    · obtain ⟨⟨first, mode⟩, entered, same⟩ := Option.map_eq_some_iff.mp stepped
      cases same
      have rest := enter_plain ordinary entered
      exact ⟨forall_mem_cons.mpr ⟨wordToken_plain word, rest.1⟩, rest.2⟩
  | quoted _ | closing _ => exact plain.elim

theorem lex_plain (ordinary : ∀ c ∈ text, isMark c = false) :
    ∀ {mode : FtsMode} {tokens : List Token}, mode.Plain → lex mode text = some tokens →
      ∀ token ∈ tokens, token.isPlain = true := by
  induction text with
  | nil =>
    intro mode tokens plain lexed
    cases mode with
    | between =>
      cases lexed
      exact nofun
    | bareword word =>
      cases lexed
      exact fun token mem => mem_singleton.mp mem ▸ wordToken_plain word
    | quoted _ | closing _ => exact plain.elim
  | cons c rest ih =>
    intro mode tokens plain lexed
    obtain ⟨⟨made, next⟩, stepped, others⟩ := Option.bind_eq_some_iff.mp lexed
    obtain ⟨more, read, rfl⟩ := Option.map_eq_some_iff.mp others
    have first := step_plain (ordinary c (.head _)) plain stepped
    exact forall_mem_append.mpr ⟨first.1, ih (fun d mem => ordinary d (.tail _ mem)) first.2 read⟩

theorem accepts_iff_inOrder {columns : List String}
    {query : List Char} (ordinary : ∀ c ∈ query, isMark c = false) :
    Accepts columns query ↔ InOrder columns query := by
  have front : ∀ c ∈ beforeNul query, isMark c = false := fun c mem => ordinary c (takeWhile_subset _ mem)
  have between : FtsMode.between.Plain := trivial
  constructor
  · rintro ⟨tokens, lexed, expr⟩
    obtain ⟨last, ran, ends⟩ := (expr_iff (lex_plain front between lexed)).mp expr
    exact ⟨tokens, last, lexed, ran, ends⟩
  · rintro ⟨tokens, last, lexed, ran, ends⟩
    exact ⟨tokens, lexed, (expr_iff (lex_plain front between lexed)).mpr ⟨last, ran, ends⟩⟩

def double (c : Char) : List Char := if c = '"' then ['"', '"'] else [c]

theorem lex_doubled (text rest held : List Char) :
    lex (.quoted held) (text.flatMap double ++ rest) = lex (.quoted (held ++ text)) rest := by
  induction text generalizing held with
  | nil => rw [flatMap_nil, nil_append, append_nil]
  | cons c text ih =>
    have one : lex (.quoted held) (double c ++ (text.flatMap double ++ rest)) =
        lex (.quoted (held ++ [c])) (text.flatMap double ++ rest) := by
      unfold double
      by_cases quote : c = '"'
      · subst quote
        simp [lex, step, Function.comp_def]
      · rw [if_neg quote, singleton_append, lex, step, if_neg quote]
        simp
    rw [flatMap_cons, append_assoc, one, ih, append_assoc, singleton_append]

theorem beforeNul_doubled (text rest : List Char) : beforeNul (text.flatMap double ++ rest) =
    (beforeNul text).flatMap double ++ (if '\x00' ∈ text then [] else beforeNul rest) := by
  induction text with
  | nil => simp [beforeNul]
  | cons c text ih =>
    unfold beforeNul at ih ⊢
    by_cases nul : c = '\x00'
    · subst nul
      simp [double]
    · have stays : ∀ d ∈ double c, d ≠ '\x00' := by
        intro d mem
        unfold double at mem
        split at mem
        · simp only [mem_cons, not_mem_nil, or_false, or_self] at mem
          exact mem ▸ by decide
        · exact mem_singleton.mp mem ▸ nul
      rw [flatMap_cons, append_assoc, takeWhile_append_of_pos fun d mem => decide_eq_true (stays d mem), ih]
      simp [nul, Ne.symm nul]

/-- A quoted text is a phrase, unless a NUL ends the query inside it. -/
theorem accepts_quoted_iff (columns : List String) (text : List Char) :
    Accepts columns ('"' :: (text.flatMap double ++ ['"'])) ↔ '\x00' ∉ text := by
  have cut : beforeNul ('"' :: (text.flatMap double ++ ['"'])) =
      '"' :: ((beforeNul text).flatMap double ++ if '\x00' ∈ text then [] else ['"']) :=
    congrArg ('"' :: ·) (beforeNul_doubled text ['"'])
  have entered (rest : List Char) : lex .between ('"' :: rest) = lex (.quoted []) rest := by
    rw [lex]
    change ((lex (.quoted []) rest).map fun more => [] ++ more) = _
    simp
  unfold Accepts
  rw [cut, entered, lex_doubled, nil_append]
  by_cases nul : '\x00' ∈ text
  · rw [if_pos nul]
    refine iff_of_false ?_ (not_not_intro nul)
    rintro ⟨tokens, lexed, _⟩
    cases lexed
  · rw [if_neg nul]
    exact iff_of_true ⟨_, rfl, .list (.one (.anywhere (.phrase (.string (.quoted _)))))⟩ nul

end Atlas.Sql.Fts5
