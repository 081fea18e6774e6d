import Atlas.Core.Json
import Atlas.Repo.Path
import Atlas.Text.JsonText
import Atlas.Text.Numeral

/-! Session events, their canonical payload text and the hash that identifies them. -/
namespace Atlas.Session
open List
open Core (Json)

abbrev SessionId := String

inductive SessionEventType where
  | fileRead
  | fileWrite
  | commandRun
  | commandFail
  | graphBuild
  | graphUpdate
  | reviewContext
  | impactAnalysis
  | contextRequest
  | reasoningResult
  | userIntent
  | decision
  | ruleInstruction
  | error
  | sessionStart
  | sessionResume
  deriving DecidableEq

def SessionEventType.asStr : SessionEventType → String
  | .fileRead => "FILE_READ"
  | .fileWrite => "FILE_WRITE"
  | .commandRun => "COMMAND_RUN"
  | .commandFail => "COMMAND_FAIL"
  | .graphBuild => "GRAPH_BUILD"
  | .graphUpdate => "GRAPH_UPDATE"
  | .reviewContext => "REVIEW_CONTEXT"
  | .impactAnalysis => "IMPACT_ANALYSIS"
  | .contextRequest => "CONTEXT_REQUEST"
  | .reasoningResult => "REASONING_RESULT"
  | .userIntent => "USER_INTENT"
  | .decision => "DECISION"
  | .ruleInstruction => "RULE_INSTRUCTION"
  | .error => "ERROR"
  | .sessionStart => "SESSION_START"
  | .sessionResume => "SESSION_RESUME"

structure NewSessionEvent where
  sessionId : SessionId
  eventType : SessionEventType
  priority : Int
  payload : Json
  createdAt : Option String

structure SessionEventRow where
  id : Nat
  sessionId : SessionId
  eventType : SessionEventType
  priority : Int
  (payloadJson eventHash createdAt : String)
  deriving DecidableEq

/-- `serde_json::to_string` of a string. -/
def quoteJson (text : String) : String := String.ofList (Text.quote text)

mutual

def canonicalJson : Json → String
  | .null => "null"
  | .bool value => if value then "true" else "false"
  | .num text => text
  | .str text => quoteJson text
  | .arr items => "[" ++ String.intercalate "," (canonicalItems items) ++ "]"
  | .obj fields =>
    "\x7b" ++ String.intercalate "," (((canonicalFields fields).insertionSort fun left right =>
      left.1 ≤ right.1).map fun (key, text) => quoteJson key ++ ":" ++ text) ++ "\x7d"

def canonicalItems : List Json → List String
  | [] => []
  | item :: rest => canonicalJson item :: canonicalItems rest

def canonicalFields : List (String × Json) → List (String × String)
  | [] => []
  | (key, value) :: rest => (key, canonicalJson value) :: canonicalFields rest

end

def isRepoPathKey (key : String) : Bool := ["file", "filePath", "file_path", "files", "path",
    "paths", "changed_files", "changedFiles", "target_file", "targetPath"].contains key

/-! `CanonicalRepoPath::from_cli_argument` resolves links on the file system and is a
parameter here. -/

section
variable (fromCliArgument : String → String → Option String)

def normalizeRepoPathString (repoRoot candidate : String) : Option String :=
  let trimmed := Repo.trim candidate.toList
  if trimmed = [] then none else fromCliArgument repoRoot (String.ofList trimmed)

mutual

def normalizePaths (repoRoot : String) (underPathKey : Bool) : Json → Json
  | .str text =>
    if underPathKey then
      .str ((normalizeRepoPathString fromCliArgument repoRoot text).getD text)
    else .str text
  | .arr items => .arr (normalizeItems repoRoot underPathKey items)
  | .obj fields => .obj (normalizeFields repoRoot fields)
  | .null => .null
  | .bool value => .bool value
  | .num text => .num text

def normalizeItems (repoRoot : String) (underPathKey : Bool) : List Json → List Json
  | [] => []
  | item :: rest => normalizePaths repoRoot underPathKey item ::
      normalizeItems repoRoot underPathKey rest

def normalizeFields (repoRoot : String) : List (String × Json) → List (String × Json)
  | [] => []
  | (key, value) :: rest => (key, normalizePaths repoRoot (isRepoPathKey key) value) ::
      normalizeFields repoRoot rest

end

def normalizeEventPayloadPaths (repoRoot : String) (payload : Json) : Json :=
  normalizePaths fromCliArgument repoRoot false payload

end

def hashInput (eventType : SessionEventType) (priority : Int) (payloadJson : String) : String :=
  eventType.asStr ++ "\x00" ++ toString priority ++ "\x00" ++ payloadJson

/-- The digest in hexadecimal of the three columns, with a zero byte between them. -/
def hashEvent (sha256 : String → String) (eventType : SessionEventType) (priority : Int)
    (payloadJson : String) : String := sha256 (hashInput eventType priority payloadJson)

theorem SessionEventType.asStr_injective {left right : SessionEventType}
    (same : left.asStr = right.asStr) : left = right := by
  cases left <;> cases right <;> first | rfl | exact absurd same (by decide)

theorem SessionEventType.asStr_no_nul (eventType : SessionEventType) :
    '\x00' ∉ eventType.asStr.toList := by
  cases eventType <;> decide

theorem priority_no_nul (priority : Int) : '\x00' ∉ (toString priority).toList := by
  have digits : ∀ number : Nat, '\x00' ∉ number.repr.toList := by
    intro number mem
    exact absurd (Text.isDigit_of_mem_natRepr mem) (by decide)
  cases priority with
  | ofNat number => exact digits number
  | negSucc number =>
    have minus : toString (Int.negSucc number) = "-" ++ number.succ.repr := rfl
    rw [minus, String.toList_append]
    intro mem
    rcases mem_append.mp mem with sign | rest
    · exact absurd sign (by decide)
    · exact digits _ rest

variable {leftType rightType : SessionEventType}
  {left right : Int} {leftPayload rightPayload : String}

theorem hashInput_injective
    (same : hashInput leftType left leftPayload = hashInput rightType right rightPayload) :
    leftType = rightType ∧ left = right ∧ leftPayload = rightPayload := by
  have chars := congrArg String.toList same
  have nul : ("\x00" : String).toList = ['\x00'] := rfl
  simp only [hashInput, String.toList_append, nul, append_assoc, cons_append, nil_append] at chars
  obtain ⟨types, rest⟩ := (Text.separated_inj leftType.asStr_no_nul rightType.asStr_no_nul).mp chars
  obtain ⟨priorities, payloads⟩ := (Text.separated_inj (priority_no_nul left) (priority_no_nul right)).mp rest
  exact ⟨SessionEventType.asStr_injective (String.toList_injective types),
    Text.intRepr_injective (String.toList_injective priorities), String.toList_injective payloads⟩

theorem hashEvent_eq_iff {sha256 : String → String} (collisionFree : Function.Injective sha256) :
    hashEvent sha256 leftType left leftPayload = hashEvent sha256 rightType right rightPayload ↔
      leftType = rightType ∧ left = right ∧ leftPayload = rightPayload := by
  constructor
  · intro same
    exact hashInput_injective (collisionFree same)
  · rintro ⟨rfl, rfl, rfl⟩
    rfl

end Atlas.Session
