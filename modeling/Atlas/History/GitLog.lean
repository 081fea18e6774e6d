import Atlas.History.Update
import Atlas.Text.Split

/-! The format of `log_commits`, what git prints for it, and `parse_log_output`. A record
starts with a record separator, its fields are separated by NUL, and git ends each record
with a newline. -/
namespace Atlas.History

abbrev LogText := List Char

def nul : Char := '\x00'
def recordSeparator : Char := '\x1e'

structure LoggedCommit where
  sha : LogText
  parents : List LogText
  (authorName authorEmail : LogText)
  (authorTime committerTime : Int)
  (subject body : LogText)
  named : ∀ name ∈ sha :: parents, name ≠ [] ∧ ∀ c ∈ name, isHexDigit c = true
  noNul : ∀ text ∈ [authorName, authorEmail, subject, body], nul ∉ text

/-- The placeholders of the format: `%xNN`, `%H`, `%P`, `%an`, `%ae`, `%at`, `%ct`, `%s`
and `%b`. -/
inductive Placeholder where
  | byte (code : Char)
  | hash
  | parents
  | authorName
  | authorEmail
  | authorTime
  | committerTime
  | subject
  | body

def Placeholder.expand (commit : LoggedCommit) : Placeholder → LogText
  | .byte code => [code]
  | .hash => commit.sha
  | .parents => [' '].intercalate commit.parents
  | .authorName => commit.authorName
  | .authorEmail => commit.authorEmail
  | .authorTime => commit.authorTime.repr.toList
  | .committerTime => commit.committerTime.repr.toList
  | .subject => commit.subject
  | .body => commit.body

/-- `--format=%x1e%H%x00%P%x00%an%x00%ae%x00%at%x00%ct%x00%s%x00%b`. -/
def logFormat : List Placeholder :=
  [.byte recordSeparator, .hash, .byte nul, .parents, .byte nul, .authorName, .byte nul,
    .authorEmail, .byte nul, .authorTime, .byte nul, .committerTime, .byte nul, .subject,
    .byte nul, .body]

def gitLog (commits : List LoggedCommit) : LogText :=
  commits.flatMap fun commit => logFormat.flatMap (Placeholder.expand commit) ++ ['\n']
def trimEnd (text : LogText) : LogText := (text.reverse.dropWhile Repo.isWhitespace).reverse

def firstWord (text : LogText) : Option LogText :=
  let word := (text.dropWhile Repo.isWhitespace).takeWhile fun c => !Repo.isWhitespace c
  if word = [] then none else some word

/-- The digits of an `i64` without their sign, refused where the value leaves its range. -/
def readMagnitude (limit : Nat) (overflow : String) : Nat → LogText → Except String Nat
  | value, [] => .ok value
  | value, c :: rest =>
    if c.isDigit then
      let next := value * 10 + (c.toNat - '0'.toNat)
      if next ≤ limit then readMagnitude limit overflow next rest else .error overflow
    else .error "invalid digit found in string"

def parseI64 : LogText → Except String Int
  | [] => .error "cannot parse integer from empty string"
  | '-' :: digits =>
    if digits = [] then .error "invalid digit found in string"
    else (readMagnitude (2 ^ 63) "number too small to fit in target type" 0 digits).map fun value => -(value : Int)
  | '+' :: digits =>
    if digits = [] then .error "invalid digit found in string"
    else (readMagnitude (2 ^ 63 - 1) "number too large to fit in target type" 0 digits).map fun value => (value : Int)
  | digits =>
    (readMagnitude (2 ^ 63 - 1) "number too large to fit in target type" 0 digits).map fun value => (value : Int)

def readRecord (shaField parentsField nameField emailField authorField committerField subjectField :
    LogText) (rest : List LogText) : Except String (Option GitCommitMeta) :=
  let sha := String.ofList (Repo.trim shaField)
  if sha = "" then .ok none
  else do
    withContext ("invalid SHA in log output: " ++ sha) (validateSha sha)
    let authorTime ← withContext ("bad author_time for " ++ sha) (parseI64 (Repo.trim authorField))
    let committerTime ← withContext ("bad committer_time for " ++ sha)
      (parseI64 (Repo.trim committerField))
    return some {
      sha
      parentSha := (firstWord (Repo.trim parentsField)).map String.ofList
      authorName := String.ofList (Repo.trim nameField)
      authorEmail := String.ofList (Repo.trim emailField)
      authorTime
      committerTime
      subject := String.ofList (Repo.trim subjectField)
      body := match rest with
        | [] => ""
        | body :: _ => String.ofList (trimEnd body) }

def parseRecord (raw : LogText) : Except String (Option GitCommitMeta) :=
  let record := Repo.trim raw
  if record = [] then .ok none
  else
    match Text.splitn 8 nul record with
    | shaField :: parentsField :: nameField :: emailField :: authorField :: committerField :: subjectField :: rest =>
        readRecord shaField parentsField nameField emailField authorField committerField subjectField rest
    | _ => .ok none

def parseRecords : List LogText → Except String (List GitCommitMeta)
  | [] => .ok []
  | record :: rest => do
      let parsed ← parseRecord record
      let commits ← parseRecords rest
      return parsed.toList ++ commits

def parseLogOutput (raw : LogText) :
    Except String (List GitCommitMeta) := parseRecords (raw.splitOn recordSeparator)

end Atlas.History
