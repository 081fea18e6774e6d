import Atlas.Hooks.Service
import Atlas.Text.JsonTextProperties

/-! Which secrets of a hook payload reach the session event and the content store. -/
namespace Atlas.Hooks
open List
open Core (Json)
open Core.Json (lookupField)
open Session (SessionId)
open Text (WellFormed WellFormedItems WellFormedFields)

mutual

def blank : Json → Json
  | .arr items => .arr (blankItems items)
  | .obj fields => .obj (blankFields fields)
  | .null => .null
  | .bool value => .bool value
  | .num text => .num text
  | .str text => .str text

def blankItems : List Json → List Json
  | [] => []
  | item :: rest => blank item :: blankItems rest

def blankFields : List (String × Json) → List (String × Json)
  | [] => []
  | (key, value) :: rest => (key, if isHidden {} key then .null else blank value) :: blankFields rest

end

mutual

def secrets : Json → List Json
  | .arr items => secretsOfItems items
  | .obj fields => secretsOfFields fields
  | _ => []

def secretsOfItems : List Json → List Json
  | [] => []
  | item :: rest => secrets item ++ secretsOfItems rest

def secretsOfFields : List (String × Json) → List Json
  | [] => []
  | (key, value) :: rest => (if isHidden {} key then [value] else secrets value) ++ secretsOfFields rest

end

structure Aligned {Shape : Type}
    (left right : Shape) (leftSecrets rightSecrets : List Json) : Prop where
  length : leftSecrets.length = rightSecrets.length
  equal : leftSecrets = rightSecrets → left = right

mutual

theorem aligned_of_blank : ∀ {left right : Json}, blank left = blank right →
    Aligned left right (secrets left) (secrets right)
  | .arr lefts, right, same => by
    cases right with
    | arr rights =>
      obtain ⟨length, equal⟩ := aligned_items (Json.arr.inj same)
      exact ⟨length, fun secrets => congrArg Json.arr (equal secrets)⟩
    | _ => simp [blank] at same
  | .obj lefts, right, same => by
    cases right with
    | obj rights =>
      obtain ⟨length, equal⟩ := aligned_fields (Json.obj.inj same)
      exact ⟨length, fun secrets => congrArg Json.obj (equal secrets)⟩
    | _ => simp [blank] at same
  | .null, right, same => by
    cases right with
    | null => exact ⟨rfl, fun _ => rfl⟩
    | _ => simp [blank] at same
  | .bool left, right, same => by
    cases right with
    | bool right => exact ⟨rfl, fun _ => same⟩
    | _ => simp [blank] at same
  | .num left, right, same => by
    cases right with
    | num right => exact ⟨rfl, fun _ => same⟩
    | _ => simp [blank] at same
  | .str left, right, same => by
    cases right with
    | str right => exact ⟨rfl, fun _ => same⟩
    | _ => simp [blank] at same

theorem aligned_items : ∀ {lefts rights : List Json}, blankItems lefts = blankItems rights →
    Aligned lefts rights (secretsOfItems lefts) (secretsOfItems rights)
  | [], [], _ => ⟨rfl, fun _ => rfl⟩
  | left :: lefts, right :: rights, same => by
    obtain ⟨firstSame, othersSame⟩ := cons.inj same
    have first := aligned_of_blank firstSame
    have others := aligned_items othersSame
    unfold secretsOfItems
    refine ⟨?_, fun secrets => ?_⟩
    · rw [length_append, length_append, first.length, others.length]
    · obtain ⟨firstSecrets, otherSecrets⟩ := append_inj secrets first.length
      rw [first.equal firstSecrets, others.equal otherSecrets]
  | [], _ :: _, same => by simp [blankItems] at same
  | _ :: _, [], same => by simp [blankItems] at same

theorem aligned_fields :
    ∀ {lefts rights : List (String × Json)}, blankFields lefts = blankFields rights →
      Aligned lefts rights (secretsOfFields lefts) (secretsOfFields rights)
  | [], [], _ => ⟨rfl, fun _ => rfl⟩
  | (leftKey, left) :: lefts, (rightKey, right) :: rights, same => by
    obtain ⟨firstSame, othersSame⟩ := cons.inj same
    obtain ⟨rfl, valueSame⟩ := Prod.mk.inj firstSame
    have others := aligned_fields othersSame
    unfold secretsOfFields
    cases hidden : isHidden {} leftKey with
    | true =>
      refine ⟨?_, fun secrets => ?_⟩
      · simp only [if_true, length_append, length_singleton, others.length]
      · obtain ⟨firstSecret, otherSecrets⟩ := cons.inj secrets
        rw [firstSecret, others.equal otherSecrets]
    | false =>
      rw [hidden] at valueSame
      have first := aligned_of_blank valueSame
      refine ⟨?_, fun secrets => ?_⟩
      · simp only [Bool.false_eq_true, if_false, length_append, first.length, others.length]
      · obtain ⟨firstSecrets, otherSecrets⟩ := append_inj secrets first.length
        rw [first.equal firstSecrets, others.equal otherSecrets]
  | [], (_, _) :: _, same => by simp [blankFields] at same
  | (_, _) :: _, [], same => by simp [blankFields] at same

end

mutual

theorem blank_strip : ∀ payload : Json, blank (stripInlineFileContent payload) =
    stripInlineFileContent (blank payload)
  | .arr items => congrArg Json.arr (blank_stripItems items)
  | .obj fields => congrArg Json.obj (blank_stripFields fields)
  | .null => rfl
  | .bool _ => rfl
  | .num _ => rfl
  | .str _ => rfl

theorem blank_stripItems :
    ∀ items : List Json, blankItems (stripItems items) = stripItems (blankItems items)
  | [] => rfl
  | item :: rest => by
    simp only [stripItems, blankItems]
    rw [blank_strip item, blank_stripItems rest]

theorem blank_stripFields : ∀ fields : List (String × Json), blankFields (stripFields fields) =
    stripFields (blankFields fields)
  | [] => rfl
  | (key, value) :: rest => by
    simp only [stripFields, blankFields]
    split
    · exact blank_stripFields rest
    · simp only [blankFields]
      rw [blank_stripFields rest]
      split
      · rfl
      · rw [blank_strip value]

end

theorem keys_stripFields (fields : List (String × Json)) :
    ((stripFields fields).map Prod.fst).Sublist (fields.map Prod.fst) := by
  induction fields with
  | nil => exact .refl _
  | cons field rest ih =>
    unfold stripFields
    split
    · exact ih.cons _
    · exact ih.cons_cons _

mutual

theorem wellFormed_strip :
    ∀ {payload : Json}, WellFormed payload → WellFormed (stripInlineFileContent payload)
  | .arr _, formed => wellFormed_stripItems formed
  | .obj fields, ⟨sorted, formed⟩ => ⟨sorted.sublist (keys_stripFields fields), wellFormed_stripFields formed⟩
  | .null, _ => trivial
  | .bool _, _ => trivial
  | .num _, formed => formed
  | .str _, _ => trivial

theorem wellFormed_stripItems :
    ∀ {items : List Json}, WellFormedItems items → WellFormedItems (stripItems items)
  | [], _ => trivial
  | _ :: _, ⟨first, others⟩ => ⟨wellFormed_strip first, wellFormed_stripItems others⟩

theorem wellFormed_stripFields : ∀ {fields : List (String × Json)}, WellFormedFields fields →
    WellFormedFields (stripFields fields)
  | [], _ => trivial
  | (key, value) :: rest, ⟨first, others⟩ => by
    unfold stripFields
    split
    · exact wellFormed_stripFields others
    · exact ⟨wellFormed_strip first, wellFormed_stripFields others⟩

end

section
variable {stores : HookStores} {context : PersistEventContext} {sessionId : SessionId}
  {policy : HookPolicy} {left right : Json}

theorem wellFormed_sanitize (formed : WellFormed left) :
    WellFormed (sanitizePayloadForStorage policy left) := by
  unfold sanitizePayloadForStorage
  split
  · exact wellFormed_strip formed
  · exact formed

theorem blank_sanitize (same : blank left = blank right) :
    blank (sanitizePayloadForStorage policy left) =
      blank (sanitizePayloadForStorage policy right) := by
  unfold sanitizePayloadForStorage
  split
  · rw [blank_strip, blank_strip, same]
  · exact same

def routedText (stores : HookStores) (context : PersistEventContext)
    (sessionId : SessionId) (policy : HookPolicy) (payload : Json) : Option Text :=
  (routeHookPayload stores context sessionId policy (sanitizePayloadForStorage policy payload)).2.map Prod.snd

theorem routedText_eq (payload : Json) : routedText stores context sessionId policy payload =
    if sanitizePayloadForStorage policy payload = .null then none
    else some (serialize (sanitizePayloadForStorage policy payload)) := by
  unfold routedText routeHookPayload
  split
  all_goals rfl

theorem sanitize_of_routedText (leftFormed : WellFormed left) (rightFormed : WellFormed right)
    (same : routedText stores context sessionId policy left = routedText stores context sessionId policy right) :
    sanitizePayloadForStorage policy left = sanitizePayloadForStorage policy right := by
  rw [routedText_eq, routedText_eq] at same
  split at same
  · rename_i leftNull
    split at same
    · rename_i rightNull
      rw [leftNull, rightNull]
    · cases same
  · split at same
    · cases same
    · exact Text.print_injective Text.compact 0 (wellFormed_sanitize leftFormed)
        (wellFormed_sanitize rightFormed) (Option.some.inj same)

theorem persistHookEvent_of_sanitize (resolved : resolveHookPolicy context.event = .ok policy)
    (same : sanitizePayloadForStorage policy left = sanitizePayloadForStorage policy right) :
    persistHookEventWithSession stores context sessionId left = persistHookEventWithSession stores context sessionId right := by
  unfold persistHookEventWithSession
  rw [resolved]
  simp only [bind, Except.bind]
  rw [same]

/-- Two payloads that differ in secrets only store the same exactly when no secret differs that the
sanitizing leaves in. -/
theorem persistHookEvent_same_iff (resolved : resolveHookPolicy context.event = .ok policy)
    (leftFormed : WellFormed left)
    (rightFormed : WellFormed right) (alike : blank left = blank right) :
    (persistHookEventWithSession stores context sessionId left = persistHookEventWithSession stores context sessionId right ∧
      routedText stores context sessionId policy left = routedText stores context sessionId policy right) ↔
      secrets (sanitizePayloadForStorage policy left) = secrets (sanitizePayloadForStorage policy right) := by
  constructor
  · rintro ⟨_, texts⟩
    rw [sanitize_of_routedText leftFormed rightFormed texts]
  · intro same
    have sanitized := (aligned_of_blank (blank_sanitize alike)).equal same
    refine ⟨persistHookEvent_of_sanitize resolved sanitized, ?_⟩
    rw [routedText_eq, routedText_eq, sanitized]

end

def bareStores : HookStores where
  resumeSnapshot := none
  smallOutputBytes := 512
  previewThresholdBytes := 4096
  generateSourceId kind value _ := kind ++ ":" ++ value
  parseQuery promptText := ⟨.symbolName promptText, .str "symbol", .null⟩
  searchWithFallback _ _ := []
  getSource _ _ := none

def hookContext (event : String) : PersistEventContext :=
  ⟨"/repo", "cli", event, "mcp_fallback", none⟩
def tokenPayload (token : String) : Json := .obj [("token", .str token)]
def writtenFile (token : String) : Json :=
  .obj [("content", tokenPayload token), ("path", .str "a.rs")]

theorem tokenPayload_wellFormed (token : String) :
    WellFormed (tokenPayload token) := ⟨pairwise_singleton _ _, trivial, trivial⟩

theorem writtenFile_wellFormed (token : String) :
    WellFormed (writtenFile token) := ⟨pairwise_cons.mpr ⟨fun field found => by
      rw [mem_singleton.mp found]
      show "content" < "path"
      decide, pairwise_singleton _ _⟩, tokenPayload_wellFormed token, trivial, trivial⟩

def policyOf (event : String) : HookPolicy :=
  match resolveHookPolicy event with
  | .ok policy => policy
  | .error _ => { canonicalEvent := event, aliases := [], eventType := .error, priority := 0
                  storage := .sessionOnly }

/-- A token in the content of a changed file is not stored. -/
theorem persistHookEvent_same_fileChanged :
    persistHookEventWithSession bareStores (hookContext "file-changed") "s" (writtenFile "abc") =
      persistHookEventWithSession bareStores (hookContext "file-changed") "s" (writtenFile "def") :=
  ((@persistHookEvent_same_iff bareStores (hookContext "file-changed") "s"
    (policyOf "file-changed") _ _ (by decide) (writtenFile_wellFormed "abc")
    (writtenFile_wellFormed "def") (by decide)).mpr
      (by decide)).1

/-- A token of a stop event is in the session event and in the routed text. -/
theorem persistHookEvent_stores_token :
    blank (tokenPayload "abc") = blank (tokenPayload "def") ∧ ((persistHookEventWithSession
      bareStores (hookContext "stop") "s" (tokenPayload "abc")).toOption.map
          fun writes => lookupField (Json.fieldsOrDefault writes.event.payload) "payload") =
        some (some (tokenPayload "abc")) ∧
      routedText bareStores (hookContext "stop") "s" (policyOf "stop") (tokenPayload "abc") =
        some "\x7b\"token\":\"abc\"\x7d".toList ∧
      routedText bareStores (hookContext "stop") "s" (policyOf "stop") (tokenPayload "abc") ≠
        routedText bareStores (hookContext "stop") "s" (policyOf "stop") (tokenPayload "def") ∧
      persistHookEventWithSession bareStores (hookContext "stop") "s" (tokenPayload "abc") ≠
        persistHookEventWithSession bareStores (hookContext "stop") "s" (tokenPayload "def") := by
  have abc : ((persistHookEventWithSession bareStores (hookContext "stop") "s" (tokenPayload "abc")).toOption.map fun writes =>
        lookupField (Json.fieldsOrDefault writes.event.payload) "payload") =
      some (some (tokenPayload "abc")) := by decide +kernel
  refine ⟨by decide, abc, by decide +kernel, by decide +kernel, fun same => ?_⟩
  rw [same] at abc
  exact absurd abc (by decide +kernel)

end Atlas.Hooks
