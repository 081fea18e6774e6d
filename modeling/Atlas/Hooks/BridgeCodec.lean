import Atlas.Hooks.Bridge
import Atlas.Text.JsonTextProperties

/-! The text of a bridge file gives its envelope back, unless the header holds a fence of
its own. -/
namespace Atlas.Hooks
open List
open Core (Json)
open Session (SessionId)
open Text (cut cut_append cut_eq_some exists_cut infix_append_cons_iff infix_append_cons_self
  infix_of_append Numeric NumericItems isNumberChar)

def backtick : Char := Char.ofNat 0x60

variable {number : Nat} {c : Char} {sid fe tsStr : String}

private theorem isDigit_of_mem_padded {width : Nat} (mem : c ∈ padded width number) : c.isDigit = true := by
  unfold padded leftpad at mem
  rcases mem_append.mp mem with pad | digit
  · rw [eq_of_mem_replicate pad]
    rfl
  · exact Nat.isDigit_of_mem_toDigits (by decide) (by decide) digit

private theorem backtick_not_mem_formatNow (secs : Nat) : backtick ∉ formatNowRfc3339 secs := by
  have digits : ∀ width number, backtick ∉ padded width number := by
    intro width number mem
    exact absurd (isDigit_of_mem_padded mem) (by decide)
  unfold formatNowRfc3339
  dsimp only
  simp only [mem_append, mem_cons, not_mem_nil, digits, false_or, or_false, not_or]
  decide

theorem openingFence_eq : openingFence = backtick :: "``json\n".toList := by decide
theorem closingFence_eq : closingFence = '\n' :: "```".toList := by decide

theorem not_infix_of_no_backtick {text : Text} (plain : backtick ∉ text) :
    ¬ openingFence <:+: text := by
  intro occurs
  rw [openingFence_eq] at occurs
  exact plain (occurs.subset (.head _))

private theorem header_clear (sidClear : ¬ openingFence <:+: sid.toList)
    (feClear : ¬ openingFence <:+: fe.toList) (plain : backtick ∉ tsStr.toList) :
    ¬ openingFence <:+: bridgeHeader sid fe tsStr ++ ['\n', '\n'] ++ openingFence.dropLast := by
  have space : ' ' ∉ openingFence := by decide
  have start : ("# Atlas Session Bridge\n\n" ++ "> Generated by Atlas when direct hook payload transport was unavailable.\n" ++
      "> session_id: ").toList = ("# Atlas Session Bridge\n\n" ++
      "> Generated by Atlas when direct hook payload transport was unavailable.\n" ++
      "> session_id:").toList ++ [' '] := by decide +kernel
  have second : "  frontend: ".toList = ' ' :: (" frontend:".toList ++ [' ']) := by decide
  have third : "  created_at: ".toList = ' ' :: (" created_at:".toList ++ [' ']) := by decide
  unfold bridgeHeader
  rw [start, second, third]
  simp only [append_assoc, cons_append, nil_append]
  simp only [infix_append_cons_iff space, not_or]
  refine ⟨not_infix_of_no_backtick (by decide +kernel), sidClear, not_infix_of_no_backtick (by decide),
    feClear, not_infix_of_no_backtick (by decide), ?_⟩
  intro occurs
  have plainLine : backtick ∉ tsStr.toList ++ ['\n', '\n'] := by
    rw [mem_append, not_or]
    exact ⟨plain, by decide⟩
  have occursBehind : openingFence <:+: (tsStr.toList ++ ['\n', '\n']) ++ openingFence.dropLast := by
    rw [append_assoc]
    exact occurs
  rw [openingFence_eq] at occursBehind
  exact absurd (infix_of_append plainLine occursBehind).length_le (by decide)

private theorem json_clear {json : Text} (clear : ¬ ['\n', backtick] <:+: json) :
    ¬ closingFence <:+: json ++ closingFence.dropLast := by
  intro occurs
  have last : closingFence.dropLast = '\n' :: "``".toList := by decide
  have begins : ['\n', backtick] <:+: closingFence := by decide
  rw [last, closingFence_eq] at occurs
  rcases infix_append_cons_self (by decide) occurs with inJson | behind
  · rw [← closingFence_eq] at inJson
    exact clear (begins.trans inJson)
  · exact absurd behind.length_le (by decide)

private theorem cut_content (sidClear : ¬ openingFence <:+: sid.toList)
    (feClear : ¬ openingFence <:+: fe.toList) (plain : backtick ∉ tsStr.toList) (json : Text) :
    cut openingFence (bridgeContent sid fe tsStr json) =
      some (bridgeHeader sid fe tsStr ++ ['\n', '\n'], json ++ (closingFence ++ ['\n'])) := by
  have spelled : bridgeContent sid fe tsStr json = (bridgeHeader sid fe tsStr ++ ['\n', '\n']) ++
    (openingFence ++ (json ++ (closingFence ++ ['\n']))) := by
    unfold bridgeContent
    rw [append_assoc]
    rfl
  rw [spelled]
  exact cut_append (header_clear sidClear feClear plain)

theorem isNumberChar_of_mem_natRepr (mem : c ∈ number.repr.toList) : isNumberChar c = true := by
  unfold isNumberChar
  simp only [Text.isDigit_of_mem_natRepr mem, Bool.true_or]

private theorem numeric_int (number : Int) : Numeric (.num (toString number)) := by
  cases number with
  | ofNat number =>
    refine ⟨?_, all_eq_true.mpr fun c mem => isNumberChar_of_mem_natRepr mem⟩
    show number.repr.toList ≠ []
    rw [Nat.toList_repr]
    exact Nat.toDigits_ne_nil
  | negSucc number =>
    have minus : toString (Int.negSucc number) = "-" ++ number.succ.repr := rfl
    rw [minus]
    refine ⟨by rw [String.toList_append]; exact cons_ne_nil _ _, ?_⟩
    rw [String.toList_append, all_append, Bool.and_eq_true]
    exact ⟨by decide, all_eq_true.mpr fun c mem => isNumberChar_of_mem_natRepr mem⟩

private theorem numeric_events (events : List BridgeEvent) :
    NumericItems (events.map BridgeEvent.toJson) := by
  induction events with
  | nil => trivial
  | cons event rest ih => exact ⟨⟨trivial, numeric_int _, trivial, trivial, trivial⟩, ih⟩

theorem numeric_envelope (envelope : BridgeEnvelope) :
    Numeric envelope.toJson := ⟨trivial, trivial, trivial, trivial, numeric_events _, trivial⟩
private theorem startsNoPart_backtick : Text.StartsNoPart backtick := ⟨by decide, by decide, by decide⟩

private theorem cut_serializePretty (envelope : BridgeEnvelope) :
    cut closingFence (serializePretty envelope.toJson ++ (closingFence ++ ['\n'])) =
      some (serializePretty envelope.toJson, ['\n']) :=
  cut_append (json_clear (Text.noLineStarts_print startsNoPart_backtick 0 _ (numeric_envelope envelope)).no_pair)

section
variable {Decisions Content : Type} {setting : BridgeSetting Decisions Content}

structure BridgeSetting.Lawful (setting : BridgeSetting Decisions Content) : Prop where
  reads : ∀ envelope : BridgeEnvelope, setting.readEnvelope (serializePretty envelope.toJson) = some envelope
  spends : ∀ text envelope, setting.readEnvelope text = some envelope →
    envelope.schema.length + envelope.sessionId.length + envelope.frontend.length +
    envelope.createdAt.length + 8 ≤ text.length

variable {secs : Nat} {sessionId : SessionId} {frontend : String} {events : List BridgeEvent}

private theorem backtick_not_mem_createdAt :
    backtick ∉ (bridgeEnvelope setting secs sessionId frontend events).createdAt.toList := by
  unfold bridgeEnvelope
  rw [String.toList_ofList]
  exact backtick_not_mem_formatNow secs

theorem parse_bridgeText (lawful : setting.Lawful) (sidClear : ¬ openingFence <:+: sessionId.toList)
    (feClear : ¬ openingFence <:+: frontend.toList) :
    parseBridgeEnvelope setting (bridgeText setting secs sessionId frontend events) =
      some (bridgeEnvelope setting secs sessionId frontend events) := by
  unfold parseBridgeEnvelope bridgeText
  dsimp only
  rw [cut_content sidClear feClear backtick_not_mem_createdAt]
  simp only [Option.bind_eq_bind, Option.bind_some]
  rw [cut_serializePretty]
  exact lawful.reads _

variable {before behind : Text}

private theorem cut_header {header tail : Text} (occurs : openingFence <:+: header)
    (found : cut openingFence (header ++ tail) = some (before, behind)) :
    ∃ rest, header = before ++ (openingFence ++ rest) ∧ behind = rest ++ tail := by
  obtain ⟨inner, outer, inHeader⟩ := exists_cut occurs
  obtain ⟨parts, -⟩ := cut_eq_some inHeader
  obtain ⟨whole, first⟩ := cut_eq_some found
  have bound := first inner (outer ++ tail) (by rw [parts]; simp only [append_assoc])
  have lengths := congrArg length parts
  rw [length_append, length_append] at lengths
  have starts : before ++ openingFence <+: header ++ tail := ⟨behind, by rw [whole, append_assoc]⟩
  have inside : before ++ openingFence <+: header := by
    refine prefix_of_prefix_length_le starts (prefix_append _ _) ?_
    rw [length_append]
    omega
  obtain ⟨rest, same⟩ := inside
  refine ⟨rest, by rw [← same, append_assoc], ?_⟩
  rw [← same, append_assoc, append_assoc] at whole
  exact (append_cancel_left (append_cancel_left whole)).symm

private theorem length_le_of_fence {start rest : Text} (plain : backtick ∉ start)
    (same : start ++ rest = before ++ (openingFence ++ behind)) : start.length ≤ before.length := by
  rcases append_eq_append_iff.mp same with ⟨middle, longer, -⟩ | ⟨middle, shorter, fence⟩
  · rw [longer, length_append]
    omega
  · cases middle with
    | nil => rw [shorter, append_nil]
    | cons first middle =>
      rw [openingFence_eq, cons_append, cons_append, cons.injEq] at fence
      rw [shorter, ← fence.1] at plain
      exact absurd (mem_append_right _ (.head _)) plain

private theorem headerStart_plain :
    backtick ∉ ("# Atlas Session Bridge\n\n" ++
      "> Generated by Atlas when direct hook payload transport was unavailable.\n" ++
      "> session_id: ").toList := by decide +kernel

private theorem header_of_fenced {sid fe tsStr : String}
    (fenced : openingFence <:+: sid.toList ∨ openingFence <:+: fe.toList) :
    openingFence <:+: bridgeHeader sid fe tsStr := by
  unfold bridgeHeader
  rcases fenced with inSid | inFe
  · exact inSid.trans ((prefix_append _ _).isInfix.trans (suffix_append _ _).isInfix)
  · have inRest : openingFence <:+: fe.toList ++ ("  created_at: ".toList ++ tsStr.toList) :=
      inFe.trans (prefix_append _ _).isInfix
    have inBehind := inRest.trans (suffix_append "  frontend: ".toList _).isInfix
    exact (inBehind.trans (suffix_append sid.toList _).isInfix).trans (suffix_append _ _).isInfix

theorem parse_fenced (lawful : setting.Lawful)
    (fenced : openingFence <:+: sessionId.toList ∨ openingFence <:+: frontend.toList) :
    parseBridgeEnvelope setting (bridgeText setting secs sessionId frontend events) ≠
      some (bridgeEnvelope setting secs sessionId frontend events) := by
  intro parsed
  unfold parseBridgeEnvelope bridgeText at parsed
  dsimp only at parsed
  simp only [Option.bind_eq_bind, Option.bind_eq_some_iff, Prod.exists] at parsed
  obtain ⟨before, behind, opened, json, last, closed, read⟩ := parsed
  generalize isEnvelope : bridgeEnvelope setting secs sessionId frontend events = envelope at *
  obtain ⟨rest, header, tail⟩ := cut_header (header_of_fenced fenced) opened
  have early := length_le_of_fence headerStart_plain header
  have bound := (cut_eq_some closed).2 (rest ++ ['\n'])
    (openingFence.tail.drop 2 ++ (serializePretty envelope.toJson ++ (closingFence ++ ['\n']))) (by
      rw [tail]
      simp only [append_assoc]
      rfl)
  have spent := lawful.spends _ _ read
  have lengths := congrArg length header
  unfold bridgeHeader at lengths
  simp only [length_append, length_cons, length_nil, String.length_toList] at lengths bound
  have fields : envelope.schema = "atlas-bridge-v1" ∧ envelope.sessionId = sessionId ∧ envelope.frontend = frontend := by
    rw [← isEnvelope]
    exact ⟨rfl, rfl, rfl⟩
  obtain ⟨schema, sid, fe⟩ := fields
  have schemaLength : ("atlas-bridge-v1").length = 15 := by decide
  have fence : openingFence.length = 8 := by decide
  have second : ("  frontend: ").length = 12 := by decide
  have third : ("  created_at: ").length = 14 := by decide
  rw [String.length_toList] at early
  rw [schema, sid, fe, schemaLength] at spent
  omega

end

/-! A reader of envelopes over the parser of values, which gives the bridge all that it
relies on. -/

open Core.Json (lookupField lookupField_foldl lookupField_insertField)
open Text (spelled spelledFields collected collectedItems collectedFields collectFields)

def readInt (text : Text) : Int :=
  match text with
  | '-' :: digits => -(Nat.ofDigitChars 10 digits 0 : Int)
  | digits => (Nat.ofDigitChars 10 digits 0 : Int)

def readPriority (text : String) : Option Int32 :=
  let value := readInt text.toList
  if toString value = text ∧ (Int32.ofInt value).toInt = value then some (Int32.ofInt value) else none

def stringField (fields : List (String × Json)) (key : String) : Option String :=
  match lookupField fields key with
  | some (.str text) => some text
  | _ => none

def readBridgeEvent (value : Json) : Option BridgeEvent :=
  match value with
  | .obj fields => do
      let eventType ← stringField fields "event_type"
      let priority ← match lookupField fields "priority" with
        | some (.num text) => readPriority text
        | _ => none
      let payloadJson ← stringField fields "payload_json"
      let createdAt ← stringField fields "created_at"
      some { eventType, priority, payloadJson, createdAt }
  | _ => none

def readBridgeEnvelope (value : Json) : Option BridgeEnvelope :=
  match value with
  | .obj fields => do
      let schema ← stringField fields "schema"
      let sessionId ← stringField fields "session_id"
      let frontend ← stringField fields "frontend"
      let createdAt ← stringField fields "created_at"
      let events ← match lookupField fields "events" with
        | some (.arr items) => items.mapM readBridgeEvent
        | _ => none
      some { schema, sessionId, frontend, createdAt, events }
  | _ => none

def envelopeOfText (text : Text) : Option BridgeEnvelope :=
  (Text.parse text).bind readBridgeEnvelope

private theorem readInt_toString (value : Int) : readInt (toString value).toList = value := by
  have digits : ∀ number : Nat, (Nat.ofDigitChars 10 number.repr.toList 0 : Int) = number := by
    intro number
    rw [Nat.toList_repr, Nat.ofDigitChars_ten_toDigits]
  cases value with
  | ofNat number =>
    show readInt number.repr.toList = number
    unfold readInt
    split
    · next rest starts =>
        have minus : '-' ∈ number.repr.toList := by
          rw [starts]
          exact .head _
        exact absurd (Text.isDigit_of_mem_natRepr minus) (by decide)
    · exact digits number
  | negSucc number =>
    have minus : toString (Int.negSucc number) = "-" ++ number.succ.repr := rfl
    rw [minus, String.toList_append]
    show -(Nat.ofDigitChars 10 number.succ.repr.toList 0 : Int) = Int.negSucc number
    rw [digits]
    rfl

private theorem readPriority_toString (priority : Int32) :
    readPriority (toString priority.toInt) = some priority := by
  unfold readPriority
  dsimp only
  have back : Int32.ofInt priority.toInt = priority := by
    apply Int32.toBitVec.inj
    simp
  rw [readInt_toString, back, if_pos ⟨rfl, rfl⟩]

theorem lookupField_collectFields {fields : List (String × Json)}
    (nodup : (fields.map Prod.fst).Nodup) (key : String) :
    lookupField (collectFields fields) key = lookupField fields key :=
  (lookupField_foldl nodup [] key).trans Option.or_none

theorem map_fst_collectedFields (fields : List (String × Json)) :
    (collectedFields fields).map Prod.fst = fields.map Prod.fst := by
  induction fields with
  | nil => rfl
  | cons field rest ih =>
    obtain ⟨key, value⟩ := field
    rw [collectedFields, map_cons, map_cons, ih]

private theorem readBridgeEvent_toJson (event : BridgeEvent) :
    readBridgeEvent (collected event.toJson) = some event := by
  have nodup : (["event_type", "priority", "payload_json", "created_at"] : List String).Nodup := by decide
  have found := fun key => @lookupField_collectFields (collectedFields [("event_type", .str event.eventType),
    ("priority", .num (toString event.priority.toInt)), ("payload_json", .str event.payloadJson),
    ("created_at", .str event.createdAt)]) (by rw [map_fst_collectedFields]; exact nodup) key
  have priority : readPriority event.priority.toInt.repr = some event.priority := readPriority_toString event.priority
  simp only [collectedFields, collected] at found
  unfold BridgeEvent.toJson collected readBridgeEvent
  simp only [stringField, collectedFields, collected, found]
  simp [lookupField, priority]

private theorem readBridgeEvents_toJson (events : List BridgeEvent) :
    (collectedItems (events.map BridgeEvent.toJson)).mapM readBridgeEvent = some events := by
  induction events with
  | nil => rfl
  | cons event rest ih =>
    rw [map_cons, collectedItems, mapM_cons, readBridgeEvent_toJson, ih]
    rfl

private theorem readBridgeEnvelope_toJson (envelope : BridgeEnvelope) :
    readBridgeEnvelope (collected envelope.toJson) = some envelope := by
  have nodup : (["schema", "session_id", "frontend", "created_at", "events"] : List String).Nodup := by decide
  have found :=
    fun key => @lookupField_collectFields (collectedFields [("schema", .str envelope.schema),
      ("session_id", .str envelope.sessionId), ("frontend", .str envelope.frontend),
    ("created_at", .str envelope.createdAt), ("events", .arr (envelope.events.map BridgeEvent.toJson))])
    (by rw [map_fst_collectedFields]; exact nodup) key
  have events := readBridgeEvents_toJson envelope.events
  simp only [collectedFields, collected] at found
  unfold BridgeEnvelope.toJson collected readBridgeEnvelope
  simp only [stringField, collectedFields, collected, found]
  simp [lookupField, events]

variable {fields : List (String × Json)} {key : String} {value : Json} {envelope : BridgeEnvelope}

theorem spelledFields_lookup (found : lookupField fields key = some value) :
    key.length + spelled value + spelledFields (fields.eraseP fun field => decide (field.1 = key)) =
      spelledFields fields := by
  unfold lookupField at found
  induction fields with
  | nil => cases found
  | cons field rest ih =>
    obtain ⟨name, held⟩ := field
    rw [find?_cons] at found
    rw [eraseP_cons]
    by_cases same : name = key
    · rw [decide_eq_true same] at found ⊢
      cases found
      rw [same]
      rfl
    · rw [decide_eq_false same] at found ⊢
      have later := ih found
      show _ + spelledFields ((name, held) :: _) = spelledFields ((name, held) :: rest)
      simp only [spelledFields]
      omega

theorem lookupField_eraseP (key : String) {other : String} (apart : other ≠ key) :
    lookupField (fields.eraseP fun field => decide (field.1 = key)) other =
      lookupField fields other := by
  unfold lookupField
  induction fields with
  | nil => rfl
  | cons field rest ih =>
    rw [eraseP_cons, find?_cons]
    by_cases same : field.1 = key
    · rw [decide_eq_true same, decide_eq_false]
      · rfl
      · rw [same]
        exact fun again => apart again.symm
    · rw [decide_eq_false same]
      show ((field :: _).find? _).map Prod.snd = _
      rw [find?_cons]
      split
      · rfl
      · exact ih

theorem lookupField_of_stringField {text : String} (found : stringField fields key = some text) :
    lookupField fields key = some (.str text) := by
  unfold stringField at found
  split at found
  · next held =>
      cases found
      exact held
  · cases found

private theorem spelled_of_readBridgeEnvelope (read : readBridgeEnvelope value = some envelope) :
    envelope.schema.length + envelope.sessionId.length + envelope.frontend.length +
      envelope.createdAt.length + 8 ≤ spelled value := by
  unfold readBridgeEnvelope at read
  split at read
  · next fields =>
      simp only [Option.bind_eq_bind, Option.bind_eq_some_iff] at read
      obtain ⟨schema, isSchema, sessionId, isSessionId, frontend, isFrontend, createdAt, isCreatedAt, rest⟩ := read
      have strings : envelope.schema = schema ∧ envelope.sessionId = sessionId ∧
        envelope.frontend = frontend ∧ envelope.createdAt = createdAt := by
        split at rest
        · obtain ⟨events, -, same⟩ := Option.bind_eq_some_iff.mp rest
          cases same
          exact ⟨rfl, rfl, rfl, rfl⟩
        · cases rest
      obtain ⟨rfl, rfl, rfl, rfl⟩ := strings
      have first := spelledFields_lookup (lookupField_of_stringField isSchema)
      have second := spelledFields_lookup
        ((lookupField_eraseP "schema" (by decide)).trans (lookupField_of_stringField isSessionId))
      have third := spelledFields_lookup ((lookupField_eraseP "session_id" (by decide)).trans
          ((lookupField_eraseP "schema" (by decide)).trans (lookupField_of_stringField isFrontend)))
      have fourth := spelledFields_lookup ((lookupField_eraseP "frontend" (by decide)).trans
          ((lookupField_eraseP "session_id" (by decide)).trans
            ((lookupField_eraseP "schema" (by decide)).trans
              (lookupField_of_stringField isCreatedAt))))
      have sixLetters : ("schema").length = 6 := by decide
      have tenLetters : ("session_id").length = 10 := by decide
      simp only [spelled] at first second third fourth ⊢
      omega
  · cases read

private theorem readBridgeEnvelope_spends {text : Text} (read : envelopeOfText text = some envelope) :
    envelope.schema.length + envelope.sessionId.length + envelope.frontend.length +
      envelope.createdAt.length + 8 ≤ text.length := by
  obtain ⟨value, isValue, isEnvelope⟩ := Option.bind_eq_some_iff.mp read
  exact (spelled_of_readBridgeEnvelope isEnvelope).trans (Text.spelled_le_of_parse isValue)

private theorem envelopeOfText_serializePretty (envelope : BridgeEnvelope) :
    envelopeOfText (serializePretty envelope.toJson) = some envelope := by
  unfold envelopeOfText serializePretty
  rw [Text.parse_print_collected Text.pretty 0 (numeric_envelope envelope), Option.bind_some, readBridgeEnvelope_toJson]

theorem lawful_of_envelopeOfText {Decisions Content : Type}
    {setting : BridgeSetting Decisions Content} (reads : setting.readEnvelope = envelopeOfText) :
    setting.Lawful := by
  constructor
  · intro envelope
    rw [reads]
    exact envelopeOfText_serializePretty envelope
  · intro text envelope read
    rw [reads] at read
    exact readBridgeEnvelope_spends read

end Atlas.Hooks
