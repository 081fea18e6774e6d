import Atlas.Search.Store
import Atlas.Sql.FullText

/-! A text that passes through is cut at Unicode whitespace here and at four ASCII characters
by the full-text query language. Where the two agree on every word, the placement of the
operators that is checked here is the one the language asks for. -/
namespace Atlas.Search
open List Sql
open Repo (isWhitespace splitWhitespace splitWhitespace_solid splitWhitespace_word)

inductive Spaced : List Char → List (List Char) → Prop where
  | nil : Spaced [] []
  | space {c rest tokens} : isWhitespace c = true → Spaced rest tokens → Spaced (c :: rest) tokens
  | last {word} : word ≠ [] → (∀ c ∈ word, isWhitespace c = false) → Spaced word [word]
  | word {word c rest tokens} : word ≠ [] → (∀ d ∈ word, isWhitespace d = false) →
    isWhitespace c = true → Spaced rest tokens → Spaced (word ++ c :: rest) (word :: tokens)

variable {c : Char} {word consumed : List Char} {tokens : List (List Char)}

theorem spaced_splitWhitespace (text : List Char) : Spaced text (splitWhitespace text) := by
  induction bound : text.length using Nat.strong_induction_on generalizing text with
  | _ size ih =>
    let word := text.takeWhile fun c => !isWhitespace c
    have whole : word ++ text.dropWhile (fun c => !isWhitespace c) = text := takeWhile_append_dropWhile
    have solid : ∀ d ∈ word, isWhitespace d = false := by
      intro d inside
      simpa using all_eq_true.mp (all_takeWhile) d inside
    cases left : text.dropWhile fun c => !isWhitespace c with
    | nil =>
      rw [left, append_nil] at whole
      rw [← whole]
      rw [splitWhitespace_solid solid]
      by_cases empty : word = []
      · rw [if_pos empty, empty]
        exact .nil
      · rw [if_neg empty]
        exact .last empty solid
    | cons c rest =>
      have space : isWhitespace c = true := by
        have first := head?_dropWhile_not (fun c => !isWhitespace c) text
        rw [left] at first
        simpa using first
      rw [left] at whole
      have shorter : rest.length < size := by
        rw [← bound, ← whole, length_append, length_cons]
        omega
      have tail := ih rest.length shorter rest rfl
      rw [← whole, splitWhitespace_word space solid]
      by_cases empty : word = []
      · rw [if_pos empty, empty]
        exact .space space tail
      · rw [if_neg empty]
        exact .word empty solid space tail

/-! ## Tokens on both sides -/

variable {token : List Char}

theorem isOperator_iff : isOperator token = true ↔ ∃ which, keyword token = some which := by
  unfold isOperator
  rw [decide_eq_true_eq]
  change token ∈ [['A', 'N', 'D'], ['O', 'R'], ['N', 'O', 'T']] ↔ _
  constructor
  · intro inside
    simp only [mem_cons, not_mem_nil, or_false] at inside
    obtain rfl | rfl | rfl := inside
    · exact ⟨.and, rfl⟩
    · exact ⟨.or, rfl⟩
    · exact ⟨.not, rfl⟩
  · rintro ⟨which, isKeyword⟩
    unfold keyword at isKeyword
    split at isKeyword
    · subst token
      decide
    · split at isKeyword
      · subst token
        decide
      · split at isKeyword
        · subst token
          decide
        · cases isKeyword

theorem keyword_eq_none (term : isOperator token = false) : keyword token = none := by
  cases isKeyword : keyword token with
  | none => rfl
  | some which =>
    rw [isOperator_iff.mpr ⟨which, isKeyword⟩] at term
    cases term

theorem keyword_eq_none_of_wide (inside : c ∈ word) (wide : 0x80 ≤ c.toNat) :
    keyword word = none := by
  cases isKeyword : keyword word with
  | none => rfl
  | some which =>
    have narrow : ∀ d ∈ word, decide (d.toNat < 0x80) = true := by
      have mem := isOperator_iff.mpr ⟨which, isKeyword⟩
      unfold isOperator at mem
      rw [decide_eq_true_eq] at mem
      change word ∈ [['A', 'N', 'D'], ['O', 'R'], ['N', 'O', 'T']] at mem
      simp only [mem_cons, not_mem_nil, or_false] at mem
      obtain rfl | rfl | rfl := mem
      · exact all_eq_true.mp rfl
      all_goals exact all_eq_true.mp rfl
    exact absurd (of_decide_eq_true (narrow c inside)) (by omega)

theorem looksLikeSafeFtsTerm_cases (safe : looksLikeSafeFtsTerm token = true) : ∃ stem, stem ≠ [] ∧
    (∀ c ∈ stem, c.isAlphanum = true ∨ c = '_') ∧ (token = stem ∨ token = stem ++ ['*']) := by
  unfold looksLikeSafeFtsTerm at safe
  dsimp only at safe
  rw [Bool.and_eq_true, all_eq_true] at safe
  obtain ⟨nonempty, letters⟩ := safe
  have spelled : ∀ c ∈ (if token.getLast? = some '*' then token.dropLast else token), c.isAlphanum = true ∨ c = '_' := by
    intro c inside
    simpa using letters c inside
  by_cases starred : token.getLast? = some '*'
  · rw [if_pos starred] at nonempty spelled
    refine ⟨token.dropLast, by simpa using nonempty, spelled, .inr ?_⟩
    exact (dropLast_append_getLast? '*' starred).symm
  · rw [if_neg starred] at nonempty spelled
    exact ⟨token, by simpa using nonempty, spelled, .inl rfl⟩

theorem isBareword_of_letter (letter : c.isAlphanum = true ∨ c = '_') : isBareword c = true := by
  unfold isBareword
  obtain letter | rfl := letter
  · rw [letter]
    rfl
  · decide

theorem isWhitespace_cases (space : isWhitespace c = true) :
    isFtsSpace c = true ∨ c = '\x0b' ∨ c = '\x0c' ∨ 0x80 ≤ c.toNat := by
  by_cases wide : 0x80 ≤ c.toNat
  · exact .inr (.inr (.inr wide))
  · have code : c.toNat = 0x9 ∨ c.toNat = 0xa ∨ c.toNat = 0xb ∨ c.toNat = 0xc ∨ c.toNat = 0xd ∨ c.toNat = 0x20 := by
      simp only [isWhitespace, Bool.or_eq_true, Bool.and_eq_true, decide_eq_true_eq, beq_iff_eq] at space
      omega
    have back : Char.ofNat c.toNat = c := Char.ofNat_toNat c
    obtain code | code | code | code | code | code := code <;> rw [code] at back <;> subst back
    · exact .inl (by decide)
    · exact .inl (by decide)
    · exact .inr (.inl (by decide))
    · exact .inr (.inr (.inl (by decide)))
    all_goals exact .inl (by decide)

/-! ## The two readings side by side -/

def behindOperand (before : Option (List Char)) : Bool := before.any fun left => !isOperator left

/-- The lexer where a word may start: behind nothing or an ASCII space, or inside a word
of its own that can no longer become a keyword. -/
inductive Boundary (before : Option (List Char)) (consumed : List Char) :
    FtsMode → FtsPlace → Prop where
  | between {place} : (behindOperand before = true → place ≠ .operand) →
    (∀ c ∈ consumed.getLast?, isFtsSpace c = true) → Boundary before consumed .between place
  | glued {held place c} : c ∈ held → 0x80 ≤ c.toNat → Boundary before consumed (.bareword held) place

inductive Settled (before : Option (List Char)) : FtsMode → FtsPlace → Prop where
  | between {place} : (behindOperand before = true → place ≠ .operand) → Settled before .between place
  | held {held place} : keyword held = none → Settled before (.bareword held) place
  | operator {held place which} : keyword held = some which →
    place ≠ .operand → behindOperand before = false → Settled before (.bareword held) place

variable {before : Option (List Char)} {mode : FtsMode} {place : FtsPlace}

theorem Boundary.settled (boundary : Boundary before consumed mode place) :
    Settled before mode place := by
  cases boundary with
  | between ready spaced => exact .between ready
  | glued inside wide => exact .held (keyword_eq_none_of_wide inside wide)

theorem Settled.finish (settled : Settled before mode place)
    (operand : behindOperand before = true) : FtsReads mode place [] := by
  cases settled with
  | between ready => exact ftsReads_nil rfl rfl (ready operand)
  | @held held place word =>
    have finished : (FtsMode.bareword held).finish = some [.string held] := by rw [FtsMode.finish, barewordToken, word]
    have ready : FtsPlace.phrase ≠ .operand := by decide
    exact ftsReads_nil finished (by cases place <;> rfl) ready
  | operator isKeyword ready behind =>
    rw [behind] at operand
    cases operand

theorem Settled.gap (settled : Settled before mode place) (consumed : List Char)
    (space : isWhitespace c = true) (notTab : c ≠ '\x0b') (notFeed : c ≠ '\x0c') :
    ∃ next middle, Boundary before (consumed ++ [c]) next middle ∧
      ∀ rest, FtsReads next middle rest → FtsReads mode place (c :: rest) := by
  have spaced : isFtsSpace c = true → ∀ d ∈ (consumed ++ [c]).getLast?, isFtsSpace d = true := by
    intro narrow d last
    rw [getLast?_concat, Option.mem_some_iff] at last
    exact last ▸ narrow
  have narrow_or_wide : isFtsSpace c = true ∨ 0x80 ≤ c.toNat := by
    obtain narrow | same | same | wide := isWhitespace_cases space
    · exact .inl narrow
    · exact absurd same notTab
    · exact absurd same notFeed
    · exact .inr wide
  have bare : 0x80 ≤ c.toNat → isBareword c = true := by
    intro wide
    simp [isBareword, wide]
  obtain narrow | wide := narrow_or_wide
  · have notBare : ¬ isBareword c = true := by
      rw [not_isBareword_of_isFtsSpace narrow]
      exact Bool.false_ne_true
    cases settled with
    | between ready =>
      refine ⟨.between, place, .between ready (spaced narrow), fun rest reads => ?_⟩
      have step : FtsMode.between.step c = some ([], .between) := FtsMode.enter_space narrow
      exact (ftsReads_cons step rfl).mpr reads
    | @held held place word =>
      refine ⟨.between, .phrase, .between (fun _ => by decide) (spaced narrow),
        fun rest reads => ?_⟩
      have step : (FtsMode.bareword held).step c = some ([.string held], .between) := by
        rw [FtsMode.step, if_neg notBare, FtsMode.after, FtsMode.enter_space narrow, barewordToken, word]
        rfl
      exact (ftsReads_cons step (by cases place <;> rfl)).mpr reads
    | @operator held place which isKeyword ready behind =>
      refine ⟨.between, .operand, .between (fun operand => ?_) (spaced narrow), fun rest reads => ?_⟩
      · rw [behind] at operand
        cases operand
      · have step : (FtsMode.bareword held).step c = some ([.operator which], .between) := by
          rw [FtsMode.step, if_neg notBare, FtsMode.after, FtsMode.enter_space narrow, barewordToken, isKeyword]
          rfl
        have ran : place.run [.operator which] = some .operand :=
          congrArg (·.bind fun next => next.run []) (FtsPlace.next_operator ready which)
        exact (ftsReads_cons step ran).mpr reads
  · have glue : ∀ held : List Char, c ∈ held ++ [c] := fun held => mem_append_right _ (.head _)
    have stay : ∀ held : List Char, (FtsMode.bareword held).step c = some ([], .bareword (held ++ [c])) := by
      intro held
      rw [FtsMode.step, if_pos (bare wide)]
    cases settled with
    | between ready =>
      refine ⟨.bareword [c], place, .glued (.head _) wide, fun rest reads => ?_⟩
      have step : FtsMode.between.step c = some ([], .bareword [c]) := FtsMode.enter_bareword (bare wide)
      exact (ftsReads_cons step rfl).mpr reads
    | held word | operator isKeyword ready behind =>
      exact ⟨_, place, .glued (glue _) wide, fun rest reads =>
        (ftsReads_cons (stay _) rfl).mpr reads⟩

theorem behindOperand_some (token : List Char) :
    behindOperand (some token) = !isOperator token := rfl

def StarredOperator (text : List Char) : Prop := ∃ left token right, text = left ++
    (token ++ '*' :: right) ∧ isOperator token = true ∧ ∀ c ∈ left.getLast?, isFtsSpace c = true

theorem Boundary.operator {before : Option (List Char)} {consumed token : List Char}
    {mode : FtsMode} {place : FtsPlace} (boundary : Boundary before consumed mode place)
    (operator : isOperator token = true) (operand : behindOperand before = true) :
    ∃ next middle, Settled (some token) next middle ∧ ∀ rest, FtsReads next middle rest →
      FtsReads mode place (token ++ rest) := by
  obtain ⟨which, isKeyword⟩ := isOperator_iff.mp operator
  obtain ⟨nonempty, bare⟩ := isBareword_of_keyword isKeyword
  have behind : behindOperand (some token) = false := by
    rw [behindOperand_some, operator]
    rfl
  cases boundary with
  | between ready spaced =>
    refine ⟨.bareword token, place, .operator isKeyword (ready operand) behind, fun rest reads => ?_⟩
    exact (ftsReads_word nonempty bare).mpr reads
  | @glued held place c inside wide =>
    have word := keyword_eq_none_of_wide (mem_append_left token inside) wide
    exact ⟨.bareword (held ++ token), place, .held word, fun rest reads =>
      (ftsReads_held bare held).mpr reads⟩

theorem Boundary.stem {stem : List Char} (boundary : Boundary before consumed mode place)
    (nonempty : stem ≠ []) (bare : ∀ c ∈ stem, isBareword c = true)
    (plain : (∀ c ∈ consumed.getLast?, isFtsSpace c = true) → isOperator stem = false) :
    ∃ held, keyword held = none ∧ ∀ rest, FtsReads (.bareword held) place rest → FtsReads mode place (stem ++ rest) := by
  cases boundary with
  | between ready spaced =>
    exact ⟨stem, keyword_eq_none (plain spaced), fun rest reads =>
      (ftsReads_word nonempty bare).mpr reads⟩
  | @glued held place c inside wide =>
    have word := keyword_eq_none_of_wide (mem_append_left stem inside) wide
    exact ⟨held ++ stem, word, fun rest reads => (ftsReads_held bare held).mpr reads⟩

theorem Boundary.term {after : List Char} (boundary : Boundary before consumed mode place)
    (term : isOperator token = false) (safe : looksLikeSafeFtsTerm token = true)
    (harmless : ¬ StarredOperator (consumed ++ (token ++ after))) :
    ∃ next middle, Settled (some token) next middle ∧ ∀ rest, FtsReads next middle rest →
      FtsReads mode place (token ++ rest) := by
  obtain ⟨stem, nonempty, letters, rfl | rfl⟩ := looksLikeSafeFtsTerm_cases safe
  · obtain ⟨held, word, reads⟩ := boundary.stem nonempty (fun c inside => isBareword_of_letter (letters c inside)) (fun _ => term)
    exact ⟨.bareword held, place, .held word, reads⟩
  · have plain : (∀ c ∈ consumed.getLast?, isFtsSpace c = true) → isOperator stem = false := by
      intro spaced
      cases operator : isOperator stem with
      | false => rfl
      | true =>
        refine absurd ⟨consumed, stem, after, ?_, operator, spaced⟩ harmless
        rw [append_assoc, singleton_append]
    obtain ⟨held, word, reads⟩ := boundary.stem nonempty (fun c inside => isBareword_of_letter (letters c inside)) plain
    have step : (FtsMode.bareword held).step '*' = some ([.string held, .star], .between) := by
      rw [FtsMode.step, if_neg (by decide), FtsMode.after, barewordToken, word]
      rfl
    have ran : place.run [.string held, .star] = some .starred := by cases place <;> rfl
    refine ⟨.between, .starred, .between (fun _ => by decide), fun rest more => ?_⟩
    rw [append_assoc, singleton_append]
    exact reads _ ((ftsReads_cons step ran).mpr more)

theorem safeTokens_cons {rest : List (List Char)}
    (safe : safeTokens before (token :: rest) = true) :
    safeTokens (some token) rest = true ∧ (isOperator token = true ∧ behindOperand before = true ∧
      rest.head?.any (fun right => !isOperator right) = true ∨
        isOperator token = false ∧ looksLikeSafeFtsTerm token = true) := by
  rw [safeTokens, Bool.and_eq_true] at safe
  refine ⟨safe.2, ?_⟩
  cases operator : isOperator token with
  | true =>
    rw [operator, if_pos rfl, Bool.and_eq_true] at safe
    exact .inl ⟨rfl, safe.1.1, safe.1.2⟩
  | false =>
    rw [operator, if_neg Bool.false_ne_true] at safe
    exact .inr ⟨rfl, safe.1⟩

variable {text : List Char}

theorem reads_of_spaced (spaced : Spaced text tokens) :
    ∀ {before : Option (List Char)} {consumed : List Char} {mode : FtsMode} {place : FtsPlace},
      safeTokens before tokens = true →
      (behindOperand before = true ∨ tokens.head?.any (fun right => !isOperator right) = true) →
      Boundary before consumed mode place → ¬ StarredOperator (consumed ++ text) →
      '\x0b' ∉ text → '\x0c' ∉ text → FtsReads mode place text := by
  -- One word is read at a time; the whitespace behind it leads to the next boundary.
  have atWord : ∀ {before : Option (List Char)} {consumed word after : List Char}
      {rest : List (List Char)} {mode : FtsMode} {place : FtsPlace},
      safeTokens before (word :: rest) = true → Boundary before consumed mode place →
      ¬ StarredOperator (consumed ++ (word ++ after)) →
      ∃ next middle, Settled (some word) next middle ∧ ∀ rest, FtsReads next middle rest →
        FtsReads mode place (word ++ rest) := by
    intro before consumed word after rest mode place safe boundary harmless
    obtain ⟨_, ⟨operator, operand, _⟩ | ⟨term, spelled⟩⟩ := safeTokens_cons safe
    · exact boundary.operator operator operand
    · exact boundary.term term spelled harmless
  induction spaced with
  | nil =>
    intro before consumed mode place _ operand boundary _ _ _
    refine boundary.settled.finish ?_
    obtain operand | head := operand
    · exact operand
    · cases head
  | @space c rest tokens space _ ih =>
    intro before consumed mode place safe operand boundary harmless noTab noFeed
    rw [mem_cons, not_or] at noTab noFeed
    obtain ⟨next, middle, following, reads⟩ := boundary.settled.gap consumed space (Ne.symm noTab.1) (Ne.symm noFeed.1)
    rw [append_cons] at harmless
    exact reads _ (ih safe operand following harmless noTab.2 noFeed.2)
  | @last word nonempty solid =>
    intro before consumed mode place safe _ boundary harmless _ _
    rw [← append_nil word] at harmless
    obtain ⟨next, middle, settled, reads⟩ := atWord safe boundary harmless
    have operand : behindOperand (some word) = true := by
      obtain ⟨_, ⟨_, _, head⟩ | ⟨term, _⟩⟩ := safeTokens_cons safe
      · cases head
      · rw [behindOperand_some, term]
        rfl
    rw [← append_nil word]
    exact reads _ (settled.finish operand)
  | @word word c rest tokens nonempty solid space _ ih =>
    intro before consumed mode place safe _ boundary harmless noTab noFeed
    obtain ⟨next, middle, settled, reads⟩ := atWord safe boundary harmless
    rw [mem_append, mem_cons, not_or, not_or] at noTab noFeed
    obtain ⟨final, last, following, more⟩ := settled.gap (consumed ++ word) space (Ne.symm noTab.2.1) (Ne.symm noFeed.2.1)
    have operand : behindOperand (some word) = true ∨ tokens.head?.any (fun right => !isOperator right) = true := by
      obtain ⟨_, ⟨_, _, head⟩ | ⟨term, _⟩⟩ := safeTokens_cons safe
      · exact .inr head
      · exact .inl (by rw [behindOperand_some, term]; rfl)
    rw [← append_assoc, append_cons] at harmless
    exact reads _ (more _ (ih (safeTokens_cons safe).1 operand following harmless noTab.2.2 noFeed.2.2))

/-! ## Passed and quoted texts -/

theorem not_mem_quote_of_term (safe : looksLikeSafeFtsTerm token = true) : '"' ∉ token := by
  obtain ⟨stem, _, letters, shape⟩ := looksLikeSafeFtsTerm_cases safe
  have unquoted : '"' ∉ stem := by
    intro inside
    exact absurd (letters _ inside) (by decide)
  obtain rfl | rfl := shape
  · exact unquoted
  · intro inside
    obtain inside | inside := mem_append.mp inside
    · exact unquoted inside
    · exact absurd inside (by decide)

theorem not_mem_quote_of_spaced (spaced : Spaced text tokens) :
    ∀ {before : Option (List Char)}, safeTokens before tokens = true → '"' ∉ text := by
  have atWord : ∀ {before : Option (List Char)} {word : List Char} {rest : List (List Char)},
      safeTokens before (word :: rest) = true → '"' ∉ word := by
    intro before word rest safe
    obtain ⟨_, ⟨operator, _⟩ | ⟨_, term⟩⟩ := safeTokens_cons safe
    · obtain ⟨which, isKeyword⟩ := isOperator_iff.mp operator
      intro inside
      exact absurd ((isBareword_of_keyword isKeyword).2 _ inside) (by decide)
    · exact not_mem_quote_of_term term
  have notSpace : ∀ {c : Char}, isWhitespace c = true → '"' ≠ c := by
    rintro c space rfl
    exact absurd space (by decide)
  induction spaced with
  | nil =>
    intro before _ inside
    cases inside
  | space space _ ih =>
    intro before safe
    rw [List.mem_cons, not_or]
    exact ⟨notSpace space, ih safe⟩
  | last _ _ =>
    intro before safe
    exact atWord safe
  | word _ _ space _ ih =>
    intro before safe
    rw [List.mem_append, List.mem_cons, not_or, not_or]
    exact ⟨atWord safe, notSpace space, ih (safeTokens_cons safe).1⟩

theorem looksLikeSafeFtsQuery_iff : looksLikeSafeFtsQuery text = true ↔
    splitWhitespace text ≠ [] ∧ safeTokens none (splitWhitespace text) = true := by
  unfold looksLikeSafeFtsQuery
  simp

theorem ftsAccepts_iff_of_safe (safe : looksLikeSafeFtsQuery text = true) :
    FtsAccepts text ↔ '\x0b' ∉ text ∧ '\x0c' ∉ text ∧ ¬ StarredOperator text := by
  obtain ⟨nonempty, tokens⟩ := looksLikeSafeFtsQuery_iff.mp safe
  have spaced := spaced_splitWhitespace text
  have unquoted := not_mem_quote_of_spaced spaced tokens
  rw [ftsAccepts_iff]
  constructor
  · intro reads
    have plain : FtsMode.between.Plain := trivial
    have stray : ∀ c, FtsMode.enter c = none → c ∉ text := fun c refused inside =>
      not_ftsReads_of_stray refused inside unquoted plain reads
    refine ⟨stray _ (by decide), stray _ (by decide), ?_⟩
    rintro ⟨left, token, right, rfl, operator, behind⟩
    obtain ⟨which, isKeyword⟩ := isOperator_iff.mp operator
    have leftUnquoted : '"' ∉ left := fun inside => unquoted (mem_append_left _ inside)
    exact not_ftsReads_of_starred isKeyword behind leftUnquoted plain (fun _ => rfl) reads
  · rintro ⟨noTab, noFeed, harmless⟩
    have head : (splitWhitespace text).head?.any (fun right => !isOperator right) = true := by
      cases cut : splitWhitespace text with
      | nil => exact absurd cut nonempty
      | cons token rest =>
        rw [cut] at tokens
        obtain ⟨_, ⟨_, operand, _⟩ | ⟨term, _⟩⟩ := safeTokens_cons tokens
        · cases operand
        · simp [term]
    have start : Boundary none [] .between .operand := .between nofun (fun c last => by cases last)
    exact reads_of_spaced spaced tokens (.inr head) start harmless noTab noFeed

/-- The escaped text is a valid query exactly when the text is quoted, or has no vertical
tab, no form feed and no starred operator at a place where the query language sees one. -/
theorem fts5Escape_accepted_iff (input : String) :
    FtsAccepts (fts5Escape input).toList ↔ (looksLikeSafeFtsQuery input.toList = true →
        '\x0b' ∉ input.toList ∧ '\x0c' ∉ input.toList ∧ ¬ StarredOperator input.toList) := by
  unfold fts5Escape
  by_cases safe : looksLikeSafeFtsQuery input.toList = true
  · rw [if_pos safe, ftsAccepts_iff_of_safe safe]
    exact ⟨fun accepted _ => accepted, fun accepted => accepted safe⟩
  · rw [if_neg safe, String.toList_ofList]
    exact iff_of_true (ftsAccepts_quoted input.toList) fun passed => absurd passed safe

/-- `AND*` passes as a term, and the query language reads an operator there. -/
theorem fts5Escape_refused_andStar :
    ¬ ∀ input : String, (∃ c ∈ input.toList, isWhitespace c = false) →
      FtsAccepts (fts5Escape input).toList := by
  intro always
  have text : (fts5Escape "AND*").toList = ['A', 'N', 'D', '*'] := by decide
  obtain ⟨tokens, lexed, expr⟩ := always "AND*" ⟨'A', by decide, by decide⟩
  rw [text] at lexed
  have made : ftsLex .between ['A', 'N', 'D', '*'] = some [.operator .and, .star] := rfl
  rw [made] at lexed
  cases lexed
  exact absurd expr (by decide)

end Atlas.Search
