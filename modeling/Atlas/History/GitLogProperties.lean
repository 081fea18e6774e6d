import Atlas.History.GitLog
import Atlas.Program.MapM
import Atlas.Repo.PathProperties
import Atlas.Text.Numeral

/-! A record separator inside a name, an address or a subject cuts the record there. The
piece before the cut has too few fields, or loses the rest of its subject, and what is
behind the cut has too few fields as well. -/
namespace Atlas.History
open List
open Repo (trim isWhitespace)

theorem trim_eq_trimEnd (text : LogText) : trim text = trimEnd (text.dropWhile isWhitespace) := rfl

variable {left right text : LogText} {c : Char}

theorem trimEnd_append (visible : isWhitespace c = false) :
    trimEnd (left ++ c :: right) = left ++ c :: trimEnd right := by
  unfold trimEnd
  rw [reverse_append, reverse_cons, append_assoc, dropWhile_append]
  split
  · rename_i blank
    rw [List.isEmpty_iff] at blank
    rw [blank, List.singleton_append, List.dropWhile_cons, visible]
    simp
  · simp

private theorem trim_append {first : Char} (start : left.head? = some first)
    (solid : isWhitespace first = false) (visible : isWhitespace c = false) :
    trim (left ++ c :: right) = left ++ c :: trimEnd right := by
  have kept : (left ++ c :: right).dropWhile isWhitespace = left ++ c :: right := by
    cases left with
    | nil => cases start
    | cons head rest =>
      cases start
      rw [cons_append, dropWhile_cons, solid]
      rfl
  rw [trim_eq_trimEnd, kept, trimEnd_append visible]

private theorem trimEnd_sublist (text : LogText) : (trimEnd text).Sublist text := by
  have inner := (dropWhile_sublist (p := isWhitespace) (l := text.reverse)).reverse
  rwa [reverse_reverse] at inner

theorem trimEnd_prefix (text : LogText) : trimEnd text <+: text := by
  have suffix := dropWhile_suffix (l := text.reverse) isWhitespace
  rwa [← reverse_prefix, reverse_reverse] at suffix

private theorem mem_trim (visible : isWhitespace c = false) (inside : c ∈ text) : c ∈ trim text := by
  have kept : ∀ {text : LogText}, c ∈ text → c ∈ text.dropWhile isWhitespace := by
    intro text inside
    rw [← takeWhile_append_dropWhile (p := isWhitespace) (l := text)] at inside
    obtain blank | kept := mem_append.mp inside
    · have space := all_eq_true.mp all_takeWhile c blank
      rw [visible] at space
      cases space
    · exact kept
  unfold trim
  rw [mem_reverse]
  exact kept (mem_reverse.mpr (kept inside))

theorem trim_of_solid (solid : ∀ c ∈ text, isWhitespace c = false) : trim text = text :=
  Repo.trim_eq_self_iff.mpr ⟨fun c first => solid c (mem_of_mem_head? first), fun c last => solid c (mem_of_mem_getLast? last)⟩

theorem trim_trim (text : LogText) : trim (trim text) = trim text := by
  have ends : ∀ text : LogText, ∀ c ∈ (text.dropWhile isWhitespace).head?, isWhitespace c = false := by
    intro text c first
    have stopped := head?_dropWhile_not isWhitespace text
    rw [Option.mem_def.mp first] at stopped
    simpa using stopped
  refine Repo.trim_eq_self_iff.mpr ⟨?_, ?_⟩
  · intro c first
    rw [trim_eq_trimEnd] at first
    obtain ⟨tail, whole⟩ := trimEnd_prefix (text.dropWhile isWhitespace)
    refine ends text c ?_
    rw [← whole, Option.mem_def, head?_append, Option.mem_def.mp first]
    rfl
  · intro c last
    unfold trim at last
    rw [getLast?_reverse] at last
    exact ends _ c last

/-! ## Times -/

private theorem readMagnitude_eq {limit : Nat} {overflow : String} :
    ∀ {digits : LogText}, (∀ c ∈ digits, c.isDigit = true) →
      ∀ value : Nat, value ≤ limit → readMagnitude limit overflow value digits =
        if Nat.ofDigitChars 10 digits value ≤ limit then
          .ok (Nat.ofDigitChars 10 digits value)
        else .error overflow := by
  intro digits
  induction digits with
  | nil =>
    intro _ value bound
    rw [Nat.ofDigitChars_nil, if_pos bound]
    rfl
  | cons c digits ih =>
    intro decimal value _
    have rest : ∀ d ∈ digits, d.isDigit = true := fun d inside => decimal d (.tail _ inside)
    rw [readMagnitude, if_pos (decimal c mem_cons_self), Nat.ofDigitChars_cons, Nat.mul_comm 10 value]
    dsimp only
    by_cases bound : value * 10 + (c.toNat - '0'.toNat) ≤ limit
    · rw [if_pos bound, ih rest _ bound]
    · have grown : ∀ start : Nat, start ≤ Nat.ofDigitChars 10 digits start := by
        clear ih decimal bound
        induction digits with
        | nil => exact fun _ => le_rfl
        | cons d digits ih =>
          intro start
          rw [Nat.ofDigitChars_cons]
          have more := ih (fun e inside => rest e (.tail _ inside)) (10 * start + (d.toNat - '0'.toNat))
          omega
      have large := grown (value * 10 + (c.toNat - '0'.toNat))
      rw [if_neg bound, if_neg (by omega)]

theorem readMagnitude_repr (limit : Nat) (overflow : String) (number : Nat) :
    readMagnitude limit overflow 0 number.repr.toList =
      if number ≤ limit then .ok number else .error overflow := by
  rw [readMagnitude_eq (fun c inside => Text.isDigit_of_mem_natRepr inside) 0 (Nat.zero_le _),
    Nat.toList_repr, Nat.ofDigitChars_ten_toDigits]

theorem natRepr_ne_nil (number : Nat) : number.repr.toList ≠ [] := by
  rw [Nat.toList_repr]
  exact Nat.toDigits_ne_nil

theorem toList_repr_negSucc (number : Nat) :
    (Int.negSucc number).repr.toList = '-' :: (number + 1).repr.toList := by
  change ("-" ++ (number + 1).repr).toList = _
  rw [String.toList_append]
  rfl

private theorem parseI64_digits {digits : LogText}
    (nonempty : digits ≠ []) (decimal : ∀ c ∈ digits, c.isDigit = true) : parseI64 digits =
      (readMagnitude (2 ^ 63 - 1) "number too large to fit in target type" 0 digits).map fun value => (value : Int) := by
  unfold parseI64
  split
  · exact absurd rfl nonempty
  · exact absurd (decimal '-' mem_cons_self) (by decide)
  · exact absurd (decimal '+' mem_cons_self) (by decide)
  · rfl

theorem parseI64_repr_cases (value : Int) :
    (FitsI64 value ∧ parseI64 value.repr.toList = .ok value) ∨
      (¬ FitsI64 value ∧ ∃ msg, parseI64 value.repr.toList = .error msg) := by
  cases value with
  | ofNat number =>
    have spelled : (Int.ofNat number).repr.toList = number.repr.toList := rfl
    rw [spelled, parseI64_digits (natRepr_ne_nil number) (fun c inside => Text.isDigit_of_mem_natRepr inside), readMagnitude_repr]
    have same : Int.ofNat number = (number : Int) := rfl
    by_cases bound : number ≤ 2 ^ 63 - 1
    · rw [if_pos bound]
      refine .inl ⟨?_, rfl⟩
      unfold FitsI64 i64Min i64Max
      omega
    · rw [if_neg bound]
      refine .inr ⟨?_, _, rfl⟩
      unfold FitsI64 i64Min i64Max
      omega
  | negSucc number =>
    rw [toList_repr_negSucc, parseI64, if_neg (natRepr_ne_nil (number + 1)), readMagnitude_repr]
    by_cases bound : number + 1 ≤ 2 ^ 63
    · rw [if_pos bound]
      refine .inl ⟨?_, ?_⟩
      · unfold FitsI64 i64Min i64Max
        omega
      · have same : -((number + 1 : Nat) : Int) = Int.negSucc number := by omega
        exact congrArg Except.ok same
    · rw [if_neg bound]
      refine .inr ⟨?_, _, rfl⟩
      unfold FitsI64 i64Min i64Max
      omega

/-! ## Text of a commit -/

theorem isWhitespace_hex (hex : isHexDigit c = true) : isWhitespace c = false := by
  have code : (48 ≤ c.toNat ∧ c.toNat ≤ 57) ∨ (97 ≤ c.toNat ∧ c.toNat ≤ 102) ∨ (65 ≤ c.toNat ∧ c.toNat ≤ 70) := by
    simpa [isHexDigit, Char.le_def, UInt32.le_iff_toNat_le, or_assoc] using hex
  cases blank : isWhitespace c with
  | false => rfl
  | true =>
    simp only [isWhitespace, Bool.or_eq_true, Bool.and_eq_true, decide_eq_true_eq, beq_iff_eq] at blank
    omega

theorem not_mem_hex (hex : ∀ d ∈ text, isHexDigit d = true) (other : isHexDigit c = false) :
    c ∉ text := by
  intro inside
  rw [hex c inside] at other
  cases other

theorem mem_intRepr {value : Int} (inside : c ∈ value.repr.toList) :
    c.isDigit = true ∨ c = '-' := by
  cases value with
  | ofNat number => exact .inl (Text.isDigit_of_mem_natRepr inside)
  | negSucc number =>
    rw [toList_repr_negSucc] at inside
    obtain same | digit := mem_cons.mp inside
    · exact .inr same
    · exact .inl (Text.isDigit_of_mem_natRepr digit)

section
variable (commit : LoggedCommit)

def LoggedCommit.parentsText : LogText := [' '].intercalate commit.parents
def LoggedCommit.message : LogText := commit.subject ++ nul :: (commit.body ++ ['\n'])

def LoggedCommit.fields (last : LogText) : LogText :=
  commit.sha ++ nul :: (commit.parentsText ++ nul :: (commit.authorName ++ nul ::
    (commit.authorEmail ++ nul :: (commit.authorTime.repr.toList ++ nul :: (commit.committerTime.repr.toList ++ nul :: last)))))

private theorem gitLog_cons (rest : List LoggedCommit) :
    gitLog (commit :: rest) = recordSeparator :: (commit.fields commit.message ++ gitLog rest) := by
  simp [gitLog, logFormat, Placeholder.expand, LoggedCommit.fields, LoggedCommit.message, LoggedCommit.parentsText]

variable {commit} {c : Char}

theorem LoggedCommit.not_mem_sha (other : isHexDigit c = false) :
    c ∉ commit.sha := not_mem_hex (commit.named commit.sha (.head _)).2 other

theorem LoggedCommit.not_mem_parents (other : isHexDigit c = false) (notSpace : c ≠ ' ') :
    c ∉ commit.parentsText := by
  intro inside
  obtain space | ⟨parent, mem, inside⟩ := Text.mem_intercalate inside
  · exact notSpace (mem_singleton.mp space)
  · exact not_mem_hex (commit.named parent (.tail _ mem)).2 other inside

theorem not_mem_intRepr {value : Int} (notDigit : c.isDigit = false) (notMinus : c ≠ '-') :
    c ∉ value.repr.toList := by
  intro inside
  obtain digit | minus := mem_intRepr inside
  · rw [digit] at notDigit
    cases notDigit
  · exact notMinus minus

theorem LoggedCommit.nul_not_mem : nul ∉ commit.authorName ∧
    nul ∉ commit.authorEmail ∧ nul ∉ commit.subject ∧ nul ∉ commit.body := by
  refine ⟨?_, ?_, ?_, ?_⟩ <;> exact commit.noNul _ (by simp)

theorem LoggedCommit.count_message : commit.message.count nul = 1 := by
  obtain ⟨_, _, subject, body⟩ := commit.nul_not_mem
  rw [message, count_append, count_cons_self, count_append, count_eq_zero_of_not_mem subject, count_eq_zero_of_not_mem body]
  rfl

/-! ## Records that are read -/

private theorem parseRecord_of_few {raw : LogText} (few : raw.count nul < 6) :
    parseRecord raw = .ok none := by
  have shorter := List.Sublist.count_le nul (Repo.trim_sublist raw)
  have pieces := Text.length_splitn_le nul 8 (trim raw)
  unfold parseRecord
  dsimp only
  split
  · rfl
  · split
    · rename_i split
      rw [split] at pieces
      simp only [length_cons] at pieces
      omega
    · rfl

theorem parseRecords_of_few {pieces : List LogText} (few : ∀ piece ∈ pieces, piece.count nul < 6) :
    parseRecords pieces = .ok [] := by
  induction pieces with
  | nil => rfl
  | cons piece rest ih =>
    rw [parseRecords, parseRecord_of_few (few piece mem_cons_self), ih fun other inside => few other (mem_cons_of_mem _ inside)]
    rfl

theorem parseRecords_append (left right : List LogText) : parseRecords (left ++ right) = do
      let first ← parseRecords left
      let second ← parseRecords right
      return first ++ second := by
  induction left with
  | nil =>
    rw [nil_append, parseRecords]
    cases parseRecords right with
    | error msg => rfl
    | ok commits => rfl
  | cons record rest ih =>
    rw [cons_append, parseRecords, parseRecords, ih]
    cases parseRecord record with
    | error msg => rfl
    | ok parsed =>
      cases parseRecords rest with
      | error msg => rfl
      | ok first =>
        cases parseRecords right with
        | error msg => rfl
        | ok second => simp [bind, Except.bind, pure, Except.pure]

private theorem trim_fields (last : LogText) :
    trim (commit.fields last) = commit.fields (trimEnd last) := by
  obtain ⟨nonempty, hex⟩ := commit.named commit.sha (.head _)
  have visible : isWhitespace nul = false := by decide
  obtain ⟨first, rest, spelled⟩ := exists_cons_of_ne_nil nonempty
  have start : commit.sha.head? = some first := by rw [spelled]; rfl
  have solid := isWhitespace_hex (hex first (spelled ▸ mem_cons_self))
  unfold LoggedCommit.fields
  simp only [trim_append start solid visible, trimEnd_append visible]

theorem LoggedCommit.nul_not_mem_fields :
    nul ∉ commit.sha ∧ nul ∉ commit.parentsText ∧ nul ∉ commit.authorName ∧
    nul ∉ commit.authorEmail ∧ nul ∉ commit.authorTime.repr.toList ∧ nul ∉ commit.committerTime.repr.toList :=
  ⟨not_mem_sha (by decide), not_mem_parents (by decide) (by decide), commit.nul_not_mem.1, commit.nul_not_mem.2.1,
    not_mem_intRepr (by decide) (by decide), not_mem_intRepr (by decide) (by decide)⟩

theorem parseRecord_fields (last : LogText) : parseRecord (commit.fields last) =
      match Text.splitn 2 nul (trimEnd last) with
      | subjectField :: rest =>
        readRecord commit.sha commit.parentsText commit.authorName commit.authorEmail
          commit.authorTime.repr.toList commit.committerTime.repr.toList subjectField rest
      | [] => .ok none := by
  obtain ⟨sha, parents, name, email, authorTime, committerTime⟩ := commit.nul_not_mem_fields
  have nonempty : commit.fields (trimEnd last) ≠ [] := by
    unfold LoggedCommit.fields
    simp
  have split : Text.splitn 8 nul (commit.fields (trimEnd last)) =
    commit.sha :: commit.parentsText :: commit.authorName :: commit.authorEmail ::
        commit.authorTime.repr.toList :: commit.committerTime.repr.toList :: Text.splitn 2 nul (trimEnd last) := by
    unfold LoggedCommit.fields
    rw [Text.splitn_append sha, Text.splitn_append parents, Text.splitn_append name,
      Text.splitn_append email, Text.splitn_append authorTime, Text.splitn_append committerTime]
  unfold parseRecord
  dsimp only
  rw [trim_fields, if_neg nonempty, split]
  cases Text.splitn 2 nul (trimEnd last) with
  | nil => rfl
  | cons subjectField rest => rfl

/-! ## Fields of a record -/

theorem LoggedCommit.solid_sha : ∀ c ∈ commit.sha, isWhitespace c = false := fun c inside =>
  isWhitespace_hex ((commit.named commit.sha (.head _)).2 c inside)

private theorem isHexDigit_of_isDigit (digit : c.isDigit = true) : isHexDigit c = true := by
  simp only [Char.isDigit, Bool.and_eq_true, decide_eq_true_eq] at digit
  simp only [isHexDigit, Bool.or_eq_true, Bool.and_eq_true, decide_eq_true_eq]
  exact .inl (.inl digit)

theorem trim_intRepr (value : Int) : trim value.repr.toList = value.repr.toList := by
  apply trim_of_solid
  intro c inside
  obtain digit | rfl := mem_intRepr inside
  · exact isWhitespace_hex (isHexDigit_of_isDigit digit)
  · decide

theorem firstWord_append {word rest : LogText} (nonempty : word ≠ [])
    (solid : ∀ c ∈ word, isWhitespace c = false) (stop : ∀ c ∈ rest.head?, isWhitespace c = true) :
    firstWord (word ++ rest) = some word := by
  have kept : (word ++ rest).dropWhile isWhitespace = word ++ rest := by
    cases word with
    | nil => exact absurd rfl nonempty
    | cons head tail =>
      rw [cons_append, dropWhile_cons, solid head mem_cons_self]
      rfl
  have taken : (word ++ rest).takeWhile (fun c => !isWhitespace c) = word := by
    rw [takeWhile_append_of_pos fun c inside => by rw [solid c inside]; rfl]
    cases rest with
    | nil => simp
    | cons c rest =>
      rw [takeWhile_cons, stop c rfl]
      simp
  unfold firstWord
  dsimp only
  rw [kept, taken, if_neg nonempty]

private theorem firstWord_parents : firstWord (trim commit.parentsText) = commit.parents.head? := by
  unfold LoggedCommit.parentsText
  have named : ∀ parent ∈ commit.parents, parent ≠ [] ∧ ∀ c ∈ parent, isHexDigit c = true := fun parent mem =>
    commit.named parent (.tail _ mem)
  generalize commit.parents = parents at named
  cases parents with
  | nil => rfl
  | cons parent rest =>
    obtain ⟨nonempty, hex⟩ := named parent (.head _)
    have solid : ∀ c ∈ parent, isWhitespace c = false := fun c inside => isWhitespace_hex (hex c inside)
    cases rest with
    | nil =>
      have alone := @firstWord_append parent [] nonempty solid (fun c first => by cases first)
      rw [append_nil] at alone
      rw [intercalate_singleton, trim_of_solid solid, alone]
      rfl
    | cons next rest =>
      have ends : ∃ body last, parent = body ++ [last] :=
        ⟨parent.dropLast, parent.getLast nonempty, (dropLast_append_getLast nonempty).symm⟩
      obtain ⟨body, last, spelled⟩ := ends
      obtain ⟨first, tail, start⟩ := exists_cons_of_ne_nil nonempty
      have visible : isWhitespace last = false := solid last (spelled ▸ mem_append_right _ (.head _))
      have front : ∀ right : LogText, (parent ++ right).dropWhile isWhitespace = parent ++ right := by
        intro right
        rw [start, cons_append, dropWhile_cons, solid first (start ▸ mem_cons_self)]
        rfl
      have trimmed : trim ([' '].intercalate (parent :: next :: rest)) =
        parent ++ trimEnd (' ' :: [' '].intercalate (next :: rest)) := by
        rw [trim_eq_trimEnd, intercalate_cons_cons, append_assoc, front, singleton_append, spelled,
          append_assoc, singleton_append, trimEnd_append visible, append_assoc, singleton_append]
      rw [trimmed]
      refine firstWord_append nonempty solid fun c inside => ?_
      obtain ⟨dropped, whole⟩ := trimEnd_prefix (' ' :: [' '].intercalate (next :: rest))
      cases left : trimEnd (' ' :: [' '].intercalate (next :: rest)) with
      | nil =>
        rw [left] at inside
        cases inside
      | cons head tail =>
        rw [left] at inside whole
        cases inside
        rw [cons_append, cons.injEq] at whole
        rw [whole.1]
        decide

structure LoggedCommit.Readable (commit : LoggedCommit) : Prop where
  sha : commit.sha.length = 40
  authorTime : FitsI64 commit.authorTime
  committerTime : FitsI64 commit.committerTime

def LoggedCommit.record (commit : LoggedCommit) (subjectField : LogText) (rest : List LogText) :
    GitCommitMeta where
  sha := String.ofList commit.sha
  parentSha := commit.parents.head?.map String.ofList
  authorName := String.ofList (trim commit.authorName)
  authorEmail := String.ofList (trim commit.authorEmail)
  authorTime := commit.authorTime
  committerTime := commit.committerTime
  subject := String.ofList (trim subjectField)
  body := match rest with
    | [] => ""
    | body :: _ => String.ofList (trimEnd body)

private theorem validateSha_commit_cases :
    (commit.sha.length = 40 ∧ validateSha (String.ofList commit.sha) = .ok ()) ∨
      (commit.sha.length ≠ 40 ∧ ∃ msg, validateSha (String.ofList commit.sha) = .error msg) := by
  have hex : commit.sha.all isHexDigit = true := all_eq_true.mpr (commit.named commit.sha (.head _)).2
  unfold validateSha
  dsimp only
  rw [String.toList_ofList, trim_of_solid LoggedCommit.solid_sha]
  by_cases forty : commit.sha.length = 40
  · exact .inl ⟨forty, if_pos ⟨forty, hex⟩⟩
  · exact .inr ⟨forty, _, if_neg fun both => forty both.1⟩

theorem readRecord_commit (subjectField : LogText) (rest : List LogText) :
    (commit.Readable ∧ readRecord commit.sha commit.parentsText commit.authorName
        commit.authorEmail commit.authorTime.repr.toList commit.committerTime.repr.toList
        subjectField rest = .ok (some (commit.record subjectField rest))) ∨
      (¬ commit.Readable ∧ ∃ msg, readRecord commit.sha commit.parentsText commit.authorName
        commit.authorEmail commit.authorTime.repr.toList commit.committerTime.repr.toList
        subjectField rest = .error msg) := by
  have nonempty : String.ofList commit.sha ≠ "" := by
    intro empty
    have letters := congrArg String.toList empty
    rw [String.toList_ofList] at letters
    exact (commit.named commit.sha (.head _)).1 letters
  unfold readRecord
  dsimp only
  rw [trim_of_solid LoggedCommit.solid_sha, if_neg nonempty, trim_intRepr, trim_intRepr, firstWord_parents]
  obtain ⟨forty, valid⟩ | ⟨other, msg, refused⟩ := @validateSha_commit_cases commit
  · rw [valid]
    obtain ⟨authorFits, authorRead⟩ | ⟨wide, msg, refused⟩ := parseI64_repr_cases commit.authorTime
    · rw [authorRead]
      obtain ⟨committerFits, committerRead⟩ | ⟨wide, msg, refused⟩ := parseI64_repr_cases commit.committerTime
      · rw [committerRead]
        exact .inl ⟨⟨forty, authorFits, committerFits⟩, rfl⟩
      · rw [refused]
        exact .inr ⟨fun readable => wide readable.committerTime, _, rfl⟩
    · rw [refused]
      exact .inr ⟨fun readable => wide readable.authorTime, _, rfl⟩
  · rw [refused]
    exact .inr ⟨fun readable => other readable.sha, _, rfl⟩

/-! ## Records that survive -/

structure Recorded (commit : LoggedCommit) (record : GitCommitMeta) : Prop where
  sha : record.sha.toList = commit.sha
  parentSha : record.parentSha.map String.toList = commit.parents.head?
  authorName : trim record.authorName.toList = trim commit.authorName
  authorEmail : trim record.authorEmail.toList = trim commit.authorEmail
  authorTime : record.authorTime = commit.authorTime
  committerTime : record.committerTime = commit.committerTime
  subject : trim record.subject.toList = trim commit.subject

/-- No text of the commit holds the separator of the records. -/
structure LoggedCommit.Uncut (commit : LoggedCommit) : Prop where
  authorName : recordSeparator ∉ commit.authorName
  authorEmail : recordSeparator ∉ commit.authorEmail
  subject : recordSeparator ∉ commit.subject

theorem recorded_record {subjectField : LogText} {rest : List LogText} :
    Recorded commit (commit.record subjectField rest) ↔
      trim subjectField = trim commit.subject := by
  have spelled : (commit.record subjectField rest).subject.toList = trim subjectField := String.toList_ofList
  constructor
  · intro recorded
    have same := recorded.subject
    rwa [spelled, trim_trim] at same
  · intro same
    exact {
      sha := String.toList_ofList
      parentSha := by
        change (commit.parents.head?.map String.ofList).map String.toList = _
        rw [Option.map_map]
        cases commit.parents.head? with
        | none => rfl
        | some parent => exact congrArg some String.toList_ofList
      authorName := by
        change trim (String.ofList _).toList = _
        rw [String.toList_ofList, trim_trim]
      authorEmail := by
        change trim (String.ofList _).toList = _
        rw [String.toList_ofList, trim_trim]
      authorTime := rfl
      committerTime := rfl
      subject := by rw [spelled, trim_trim, same] }

variable (commit) in
def LoggedCommit.pieces : List LogText := (commit.fields commit.message).splitOn recordSeparator

private theorem pieces_of_uncut_author (name : recordSeparator ∉ commit.authorName)
    (email : recordSeparator ∉ commit.authorEmail) :
    commit.pieces = (commit.message.splitOn recordSeparator).modifyHead commit.fields := by
  have sha : recordSeparator ∉ commit.sha := LoggedCommit.not_mem_sha (by decide)
  have parents : recordSeparator ∉ commit.parentsText := LoggedCommit.not_mem_parents (by decide) (by decide)
  have authorTime : recordSeparator ∉ commit.authorTime.repr.toList := not_mem_intRepr (by decide) (by decide)
  have committerTime : recordSeparator ∉ commit.committerTime.repr.toList := not_mem_intRepr (by decide) (by decide)
  have absent : recordSeparator ∉ commit.fields [] := by
    unfold LoggedCommit.fields
    simp only [mem_append, mem_cons, not_mem_nil, not_or]
    exact ⟨sha, by decide, parents, by decide, name, by decide, email, by decide, authorTime,
      by decide, committerTime, by decide, not_false⟩
  have joined : ∀ last : LogText, commit.fields last = commit.fields [] ++ last := by
    intro last
    simp [LoggedCommit.fields]
  unfold LoggedCommit.pieces
  rw [joined, Text.splitOn_append_of_not_mem absent]
  congr 1
  funext last
  exact (joined last).symm

theorem few_of_mem_splitOn {text piece : LogText} {bound : Nat} (few : text.count nul < bound)
    (inside : piece ∈ text.splitOn recordSeparator) : piece.count nul < bound :=
  Nat.lt_of_le_of_lt ((Text.infix_of_mem_splitOn inside).sublist.count_le nul) few

theorem parseRecords_cut_author
    (cut : recordSeparator ∈ commit.authorName ∨ recordSeparator ∈ commit.authorEmail) :
    parseRecords commit.pieces = .ok [] := by
  obtain ⟨sha, parents, name, email, authorTime, committerTime⟩ := commit.nul_not_mem_fields
  have zero : ∀ {text : LogText}, nul ∉ text → text.count nul = 0 := fun absent => count_eq_zero_of_not_mem absent
  have splits : ∀ {left right : LogText}, commit.fields commit.message = left ++ recordSeparator ::
    right → left.count nul < 6 → right.count nul < 6 → parseRecords commit.pieces = .ok [] := by
    intro left right whole fewLeft fewRight
    unfold LoggedCommit.pieces
    rw [whole, splitOn_append_cons_self]
    refine parseRecords_of_few fun piece inside => ?_
    obtain inside | inside := mem_append.mp inside
    · exact few_of_mem_splitOn fewLeft inside
    · exact few_of_mem_splitOn fewRight inside
  obtain cut | cut := cut
  · obtain ⟨before, after, spelled⟩ := append_of_mem cut
    rw [spelled, mem_append, mem_cons, not_or, not_or] at name
    refine @splits (commit.sha ++ nul :: (commit.parentsText ++ nul :: before))
      (after ++ nul :: (commit.authorEmail ++ nul :: (commit.authorTime.repr.toList ++ nul ::
        (commit.committerTime.repr.toList ++ nul :: commit.message)))) ?_ ?_ ?_
    · simp [LoggedCommit.fields, spelled]
    · simp [count_append, zero sha, zero parents, zero name.1]
    · simp [count_append, zero name.2.2, zero email, zero authorTime, zero committerTime, LoggedCommit.count_message]
  · obtain ⟨before, after, spelled⟩ := append_of_mem cut
    rw [spelled, mem_append, mem_cons, not_or, not_or] at email
    refine @splits (commit.sha ++ nul :: (commit.parentsText ++ nul :: (commit.authorName ++ nul :: before)))
      (after ++ nul :: (commit.authorTime.repr.toList ++ nul ::
        (commit.committerTime.repr.toList ++ nul :: commit.message))) ?_ ?_ ?_
    · simp [LoggedCommit.fields, spelled]
    · simp [count_append, zero sha, zero parents, zero name, zero email.1]
    · simp [count_append, zero email.2.2, zero authorTime, zero committerTime, LoggedCommit.count_message]

theorem parseRecords_pieces {first : LogText} {others : List LogText}
    (name : recordSeparator ∉ commit.authorName) (email : recordSeparator ∉ commit.authorEmail)
    (split : commit.message.splitOn recordSeparator = first :: others) :
    parseRecords commit.pieces = (parseRecord (commit.fields first)).map Option.toList := by
  have skipped : parseRecords others = .ok [] := by
    refine parseRecords_of_few fun piece inside => ?_
    have few : commit.message.count nul < 6 := by
      rw [LoggedCommit.count_message]
      decide
    exact few_of_mem_splitOn few (split ▸ mem_cons_of_mem _ inside)
  rw [pieces_of_uncut_author name email, split, modifyHead_cons, parseRecords, skipped]
  cases parseRecord (commit.fields first) with
  | error msg => rfl
  | ok parsed => exact congrArg Except.ok (append_nil _)

private theorem parseRecords_of_survives (uncut : commit.Uncut) (readable : commit.Readable) :
    ∃ record, parseRecords commit.pieces = .ok [record] ∧ Recorded commit record := by
  obtain ⟨_, _, subject, _⟩ := commit.nul_not_mem
  have absent : recordSeparator ∉ commit.subject ++ [nul] := by
    rw [mem_append, not_or]
    exact ⟨uncut.subject, by decide⟩
  obtain ⟨body, others, split⟩ := exists_cons_of_ne_nil (splitOn_ne_nil recordSeparator (commit.body ++ ['\n']))
  have msg : commit.message.splitOn recordSeparator = (commit.subject ++ nul :: body) :: others := by
    rw [LoggedCommit.message, append_cons, Text.splitOn_append_of_not_mem absent, split, modifyHead_cons, ← append_cons]
  have fields : Text.splitn 2 nul (trimEnd (commit.subject ++ nul :: body)) = [commit.subject, trimEnd body] := by
    rw [trimEnd_append (by decide), Text.splitn_append subject]
    rfl
  rw [parseRecords_pieces uncut.authorName uncut.authorEmail msg, parseRecord_fields, fields]
  dsimp only
  obtain ⟨_, read⟩ | ⟨unreadable, _⟩ := readRecord_commit commit.subject [trimEnd body]
  · rw [read]
    exact ⟨_, rfl, recorded_record.mpr rfl⟩
  · exact absurd readable unreadable

theorem parseRecords_of_ok {records : List GitCommitMeta}
    (parsed : parseRecords commit.pieces = .ok records) :
    records = [] ∨ ∃ record, records = [record] ∧ (Recorded commit record → commit.Uncut ∧ commit.Readable) := by
  by_cases cut : recordSeparator ∈ commit.authorName ∨ recordSeparator ∈ commit.authorEmail
  · rw [parseRecords_cut_author cut] at parsed
    cases parsed
    exact .inl rfl
  · rw [not_or] at cut
    obtain ⟨first, others, split⟩ := exists_cons_of_ne_nil (splitOn_ne_nil recordSeparator commit.message)
    rw [parseRecords_pieces cut.1 cut.2 split, parseRecord_fields] at parsed
    cases fields : Text.splitn 2 nul (trimEnd first) with
    | nil =>
      rw [fields] at parsed
      cases parsed
      exact .inl rfl
    | cons subjectField rest =>
      rw [fields] at parsed
      dsimp only at parsed
      obtain ⟨readable, read⟩ | ⟨_, msg, refused⟩ := readRecord_commit subjectField rest
      · rw [read] at parsed
        cases parsed
        refine .inr ⟨_, rfl, fun recorded => ⟨⟨cut.1, cut.2, fun inside => ?_⟩, readable⟩⟩
        -- The separator would be left of the subject, and no piece holds one.
        have kept := mem_trim (by decide) inside
        rw [← recorded_record.mp recorded] at kept
        have mem : recordSeparator ∈ first := (trimEnd_sublist first).subset (Text.mem_of_mem_splitn
          (fields ▸ mem_cons_self) ((Repo.trim_sublist subjectField).subset kept))
        exact Text.not_mem_of_mem_splitOn first (split ▸ mem_cons_self) mem
      · rw [refused] at parsed
        cases parsed

end

private theorem splitOn_gitLog (commits : List LoggedCommit) :
    ∀ before : LogText, (before ++ gitLog commits).splitOn recordSeparator =
      before.splitOn recordSeparator ++ commits.flatMap LoggedCommit.pieces := by
  induction commits with
  | nil =>
    intro before
    simp [gitLog]
  | cons commit rest ih =>
    intro before
    rw [gitLog_cons, splitOn_append_cons_self, ih, flatMap_cons]
    rfl

theorem parseLogOutput_gitLog (commits : List LoggedCommit) :
    parseLogOutput (gitLog commits) = parseRecords (commits.flatMap LoggedCommit.pieces) := by
  have split := splitOn_gitLog commits []
  rw [nil_append] at split
  have blank : parseRecord [] = .ok none := rfl
  rw [parseLogOutput, split, splitOn_nil, singleton_append, parseRecords, blank]
  cases parseRecords (commits.flatMap LoggedCommit.pieces) with
  | error msg => rfl
  | ok records => rfl

theorem parseRecords_cons_ok {commit : LoggedCommit} {rest : List LoggedCommit}
    {records : List GitCommitMeta}
    (parsed : parseRecords ((commit :: rest).flatMap LoggedCommit.pieces) = .ok records) :
    ∃ first second, parseRecords commit.pieces = .ok first ∧
      parseRecords (rest.flatMap LoggedCommit.pieces) = .ok second ∧ records = first ++ second := by
  rw [flatMap_cons, parseRecords_append] at parsed
  obtain ⟨first, one, parsed⟩ := Program.bind_eq_ok parsed
  obtain ⟨second, others, parsed⟩ := Program.bind_eq_ok parsed
  cases parsed
  exact ⟨first, second, one, others, rfl⟩

private theorem length_parseRecords_le {commits : List LoggedCommit} : ∀ {records : List GitCommitMeta},
    parseRecords (commits.flatMap LoggedCommit.pieces) = .ok records →
      records.length ≤ commits.length := by
  induction commits with
  | nil =>
    intro records parsed
    cases parsed
    exact le_rfl
  | cons commit rest ih =>
    intro records parsed
    obtain ⟨first, second, one, others, rfl⟩ := parseRecords_cons_ok parsed
    have shorter := ih others
    rw [length_append, length_cons]
    obtain rfl | ⟨record, rfl, _⟩ := parseRecords_of_ok one
    · rw [length_nil]
      omega
    · rw [length_singleton]
      omega

/-- The log is read back commit by commit exactly when every sha has 40 digits, every time
fits an `i64`, and no name, address or subject holds the record separator. -/
theorem parseLogOutput_gitLog_iff (commits : List LoggedCommit) : (∃ records,
    parseLogOutput (gitLog commits) = .ok records ∧ List.Forall₂ Recorded commits records) ↔
      ∀ commit ∈ commits, commit.Uncut ∧ commit.Readable := by
  rw [parseLogOutput_gitLog]
  constructor
  · rintro ⟨records, parsed, matched⟩
    induction matched with
    | nil =>
      intro commit inside
      cases inside
    | @cons commit record rest records recorded matched ih =>
      obtain ⟨first, second, one, others, whole⟩ := parseRecords_cons_ok parsed
      have bound := length_parseRecords_le others
      have same := matched.length_eq
      obtain rfl | ⟨other, rfl, survives⟩ := parseRecords_of_ok one
      · have lengths := congrArg length whole
        rw [nil_append, length_cons] at lengths
        omega
      · rw [singleton_append, cons.injEq] at whole
        obtain ⟨rfl, rfl⟩ := whole
        intro mem inside
        obtain rfl | inside := mem_cons.mp inside
        · exact survives recorded
        · exact ih others mem inside
  · intro survives
    induction commits with
    | nil => exact ⟨[], rfl, .nil⟩
    | cons commit rest ih =>
      obtain ⟨uncut, readable⟩ := survives commit (.head _)
      obtain ⟨record, one, recorded⟩ := parseRecords_of_survives uncut readable
      obtain ⟨records, others, matched⟩ := ih fun other inside => survives other (.tail _ inside)
      refine ⟨record :: records, ?_, .cons recorded matched⟩
      rw [flatMap_cons, parseRecords_append, one, others]
      rfl

def separatedAuthor : LoggedCommit where
  sha := replicate 40 'a'
  parents := []
  authorName := ['A', recordSeparator, 'B']
  authorEmail := ['a', '@', 'b']
  authorTime := 0
  committerTime := 0
  subject := ['s']
  body := []
  named := by
    intro name mem
    rw [mem_singleton.mp mem]
    refine ⟨by decide, fun c inside => ?_⟩
    rw [eq_of_mem_replicate inside]
    decide
  noNul := by decide

/-- Its log is read without an error, and the commit is not there. -/
theorem parseLogOutput_drops_separatedAuthor : parseLogOutput (gitLog [separatedAuthor]) = .ok [] ∧
      ¬ ∃ records, parseLogOutput (gitLog [separatedAuthor]) = .ok records ∧ List.Forall₂ Recorded [separatedAuthor] records := by
  have lost : parseLogOutput (gitLog [separatedAuthor]) = .ok [] := by
    rw [parseLogOutput_gitLog, flatMap_singleton]
    exact parseRecords_cut_author (.inl (by decide))
  refine ⟨lost, ?_⟩
  rintro ⟨records, parsed, matched⟩
  rw [lost] at parsed
  cases parsed
  cases matched

end Atlas.History
