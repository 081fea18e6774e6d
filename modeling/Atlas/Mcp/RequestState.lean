import Atlas.Text.JsonTextProperties

/-! A confirmation's request state is sealed under the request that asks for it, and opens for that
request alone, until its lifetime is over. -/
namespace Atlas.Mcp
open List
open Core (Json)

/-! ## Canonical arguments -/

def keyLe (left right : String × Json) : Prop := left.1 ≤ right.1

instance : DecidableRel keyLe := fun left right => inferInstanceAs (Decidable (left.1 ≤ right.1))

mutual

def canonicalizeValue : Json → Json
  | .obj fields => .obj ((canonicalizeFields fields).insertionSort keyLe)
  | .arr items => .arr (canonicalizeItems items)
  | .null => .null
  | .bool value => .bool value
  | .num text => .num text
  | .str text => .str text

def canonicalizeItems : List Json → List Json
  | [] => []
  | item :: rest => canonicalizeValue item :: canonicalizeItems rest

def canonicalizeFields : List (String × Json) → List (String × Json)
  | [] => []
  | (key, value) :: rest => (key, canonicalizeValue value) :: canonicalizeFields rest

end

mutual

/-- What a `serde_json::Value` holds: numbers are numbers, and a map has each key once. -/
def IsValue : Json → Prop
  | .num text => text.toList ≠ [] ∧ text.toList.all Text.isNumberChar = true
  | .arr items => IsValueItems items
  | .obj fields => (fields.map Prod.fst).Nodup ∧ IsValueFields fields
  | _ => True

def IsValueItems : List Json → Prop
  | [] => True
  | item :: rest => IsValue item ∧ IsValueItems rest

def IsValueFields : List (String × Json) → Prop
  | [] => True
  | (_, value) :: rest => IsValue value ∧ IsValueFields rest

end

/-- The fields of one object, at any depth, change places. -/
inductive Reordered : Json → Json → Prop
  | here {left right : List (String × Json)} (moved : left ~ right) : Reordered (.obj left) (.obj right)
  | item {old new : Json} (before after : List Json) (inside : Reordered old new) :
    Reordered (.arr (before ++ old :: after)) (.arr (before ++ new :: after))
  | field {old new : Json} (before after : List (String × Json)) (key : String)
    (inside : Reordered old new) :
    Reordered (.obj (before ++ (key, old) :: after)) (.obj (before ++ (key, new) :: after))

/-- Equal as JSON values up to the order of the keys. -/
def SameUpToOrder : Json → Json → Prop := Relation.ReflTransGen Reordered

section
variable {fields : List (String × Json)} {left right value old new : Json}

theorem Reordered.symm (moved : Reordered left right) : Reordered right left := by
  induction moved with
  | here moved => exact .here moved.symm
  | item before after _ ih => exact .item before after ih
  | field before after key _ ih => exact .field before after key ih

theorem SameUpToOrder.symm (same : SameUpToOrder left right) : SameUpToOrder right left := by
  have : Std.Symm Reordered := ⟨fun _ _ => Reordered.symm⟩
  exact Std.Symm.symm (r := Relation.ReflTransGen Reordered) _ _ same

theorem SameUpToOrder.item (before after : List Json) (same : SameUpToOrder old new) :
    SameUpToOrder (.arr (before ++ old :: after)) (.arr (before ++ new :: after)) :=
  same.lift (fun value => Json.arr (before ++ value :: after)) fun _ _ => Reordered.item before after

theorem SameUpToOrder.field (before after : List (String × Json))
    (key : String) (same : SameUpToOrder old new) :
    SameUpToOrder (.obj (before ++ (key, old) :: after)) (.obj (before ++ (key, new) :: after)) :=
  same.lift (fun value => Json.obj (before ++ (key, value) :: after)) fun _ _ => Reordered.field before after key

mutual

theorem sameUpToOrder_canonicalizeValue :
    ∀ value : Json, SameUpToOrder value (canonicalizeValue value)
  | .null => .refl
  | .bool _ => .refl
  | .num _ => .refl
  | .str _ => .refl
  | .arr items => sameUpToOrder_canonicalizeItems [] items
  | .obj fields => (sameUpToOrder_canonicalizeFields [] fields).tail (.here (perm_insertionSort keyLe _).symm)

theorem sameUpToOrder_canonicalizeItems : ∀ before items : List Json,
    SameUpToOrder (.arr (before ++ items)) (.arr (before ++ canonicalizeItems items))
  | _, [] => .refl
  | before, item :: rest => by
    have later := sameUpToOrder_canonicalizeItems (before ++ [canonicalizeValue item]) rest
    rw [append_assoc, append_assoc] at later
    exact ((sameUpToOrder_canonicalizeValue item).item before rest).trans later

theorem sameUpToOrder_canonicalizeFields : ∀ before fields : List (String × Json),
    SameUpToOrder (.obj (before ++ fields)) (.obj (before ++ canonicalizeFields fields))
  | _, [] => .refl
  | before, (key, value) :: rest => by
    have later := sameUpToOrder_canonicalizeFields (before ++ [(key, canonicalizeValue value)]) rest
    rw [append_assoc, append_assoc] at later
    exact ((sameUpToOrder_canonicalizeValue value).field before rest key).trans later

end

theorem canonicalizeFields_eq (fields : List (String × Json)) :
    canonicalizeFields fields = fields.map fun field => (field.1, canonicalizeValue field.2) := by
  induction fields with
  | nil => rfl
  | cons field rest ih => rw [canonicalizeFields, ih, map_cons]

theorem canonicalizeItems_eq (items : List Json) :
    canonicalizeItems items = items.map canonicalizeValue := by
  induction items with
  | nil => rfl
  | cons item rest ih => rw [canonicalizeItems, ih, map_cons]

theorem isValueFields_iff (fields : List (String × Json)) :
    IsValueFields fields ↔ ∀ field ∈ fields, IsValue field.2 := by
  induction fields with
  | nil => simp [IsValueFields]
  | cons field rest ih => rw [IsValueFields, ih, forall_mem_cons]

theorem isValueItems_iff (items : List Json) :
    IsValueItems items ↔ ∀ item ∈ items, IsValue item := by
  induction items with
  | nil => simp [IsValueItems]
  | cons item rest ih => rw [IsValueItems, ih, forall_mem_cons]

theorem wellFormedFields_iff (fields : List (String × Json)) :
    Text.WellFormedFields fields ↔ ∀ field ∈ fields, Text.WellFormed field.2 := by
  induction fields with
  | nil => simp [Text.WellFormedFields]
  | cons field rest ih => rw [Text.WellFormedFields, ih, forall_mem_cons]

/-- A map sorted by its keys, each there once, ascends strictly. -/
theorem ascending_insertionSort (distinct : (fields.map Prod.fst).Nodup) :
    (fields.insertionSort keyLe).Pairwise fun left right => left.1 < right.1 := by
  have : Std.Total keyLe := ⟨fun left right => le_total left.1 right.1⟩
  have : IsTrans (String × Json) keyLe := ⟨fun _ _ _ => le_trans⟩
  have apart := pairwise_map.mp (((perm_insertionSort keyLe fields).map Prod.fst).nodup_iff.mpr distinct)
  exact ((pairwise_insertionSort keyLe fields).and apart).imp fun both => lt_of_le_of_ne both.1 both.2

theorem keys_canonicalizeFields (fields : List (String × Json)) :
    (canonicalizeFields fields).map Prod.fst = fields.map Prod.fst := by
  rw [canonicalizeFields_eq, map_map]
  rfl

mutual

theorem wellFormed_canonicalizeValue :
    ∀ value : Json, IsValue value → Text.WellFormed (canonicalizeValue value)
  | .null, _ => trivial
  | .bool _, _ => trivial
  | .num _, isValue => isValue
  | .str _, _ => trivial
  | .arr items, isValue => wellFormed_canonicalizeItems items isValue
  | .obj fields, isValue => by
    refine ⟨pairwise_map.mpr (ascending_insertionSort (keys_canonicalizeFields fields ▸ isValue.1)), ?_⟩
    rw [wellFormedFields_iff]
    intro field mem
    exact (wellFormedFields_iff _).mp (wellFormed_canonicalizeFields fields isValue.2) field ((mem_insertionSort keyLe).mp mem)

theorem wellFormed_canonicalizeItems :
    ∀ items : List Json, IsValueItems items → Text.WellFormedItems (canonicalizeItems items)
  | [], _ => trivial
  | item :: rest, isValue =>
    ⟨wellFormed_canonicalizeValue item isValue.1, wellFormed_canonicalizeItems rest isValue.2⟩

theorem wellFormed_canonicalizeFields : ∀ fields : List (String × Json), IsValueFields fields →
    Text.WellFormedFields (canonicalizeFields fields)
  | [], _ => trivial
  | (_, value) :: rest, isValue =>
    ⟨wellFormed_canonicalizeValue value isValue.1, wellFormed_canonicalizeFields rest isValue.2⟩

end

theorem Reordered.canonicalizeValue_eq (moved : Reordered left right) (isValue : IsValue left) :
    IsValue right ∧ canonicalizeValue left = canonicalizeValue right := by
  induction moved with
  | @here before after moved =>
    have distinct := (moved.map Prod.fst).nodup_iff.mp isValue.1
    refine ⟨⟨distinct, (isValueFields_iff _).mpr fun field mem =>
      (isValueFields_iff _).mp isValue.2 field (moved.mem_iff.mpr mem)⟩, ?_⟩
    have same : (canonicalizeFields before).insertionSort keyLe ~ (canonicalizeFields after).insertionSort keyLe := by
      refine (perm_insertionSort keyLe _).trans (.trans ?_ (perm_insertionSort keyLe _).symm)
      rw [canonicalizeFields_eq, canonicalizeFields_eq]
      exact moved.map _
    exact congrArg Json.obj (Perm.eq_of_pairwise (fun _ _ _ _ less more => absurd more
      (lt_asymm less)) (ascending_insertionSort (keys_canonicalizeFields before ▸ isValue.1))
      (ascending_insertionSort (keys_canonicalizeFields after ▸ distinct)) same)
  | item before after _ ih =>
    simp only [IsValue, isValueItems_iff, forall_mem_append, forall_mem_cons] at isValue ⊢
    have inside := ih isValue.2.1
    refine ⟨⟨isValue.1, inside.1, isValue.2.2⟩, ?_⟩
    rw [canonicalizeValue, canonicalizeValue, canonicalizeItems_eq, canonicalizeItems_eq,
      map_append, map_append, map_cons, map_cons, inside.2]
  | field before after key _ ih =>
    simp only [IsValue, isValueFields_iff, forall_mem_append, forall_mem_cons, map_append, map_cons] at isValue ⊢
    have inside := ih isValue.2.2.1
    refine ⟨⟨isValue.1, isValue.2.1, inside.1, isValue.2.2.2⟩, ?_⟩
    rw [canonicalizeValue, canonicalizeValue, canonicalizeFields_eq, canonicalizeFields_eq,
      map_append, map_append, map_cons, map_cons, inside.2]

theorem SameUpToOrder.canonicalizeValue_eq (same : SameUpToOrder left right)
    (isValue : IsValue left) : canonicalizeValue left = canonicalizeValue right := by
  induction same using Relation.ReflTransGen.head_induction_on with
  | refl => rfl
  | head moved _ ih =>
    have step := moved.canonicalizeValue_eq isValue
    exact step.2.trans (ih step.1)

/-- The canonical form forgets the order of the keys and nothing else. -/
theorem canonicalizeValue_eq_iff (isValue : IsValue left) :
    canonicalizeValue left = canonicalizeValue right ↔ SameUpToOrder left right := by
  refine ⟨fun same => ?_, fun same => same.canonicalizeValue_eq isValue⟩
  have halfway := sameUpToOrder_canonicalizeValue left
  rw [same] at halfway
  exact halfway.trans (sameUpToOrder_canonicalizeValue right).symm

end

/-! ## The sealed state -/

def hexEncode (bytes : List UInt8) : String := String.ofList
    (bytes.flatMap fun byte => [Text.hexDigit (byte.toNat / 16), Text.hexDigit byte.toNat])

structure RequestStateBinding where
  (method tool : String)
  arguments : Option Json
  principal : Option String

structure RequestStatePayload where
  (version issuedAtUnixMs expiresAtUnixMs : Nat)
  nonce : String

inductive RequestStateError where
  | integrityCheckFailed
  | expired
  | other (error : String)

/-- The codec under the secret of the process: authenticated encryption with associated data. -/
structure RequestStateCodec (Sealed : Type) where
  sealJson : RequestStatePayload → String → Except RequestStateError Sealed
  openJson : Sealed → String → Except RequestStateError RequestStatePayload
  open_same : ∀ {payload data state}, sealJson payload data = .ok state → openJson state data = .ok payload
  open_other : ∀ {payload data other state}, sealJson payload data = .ok state →
    other ≠ data → openJson state other = .error .integrityCheckFailed

structure Process (Sealed : Type) where
  id : Nat
  sha256Bytes : String → List UInt8
  sha256_injective : Function.Injective sha256Bytes
  requestStateCodec : Except String (RequestStateCodec Sealed)

section
variable {Sealed : Type} (process : Process Sealed)

def argsDigest (arguments : Option Json) : String := hexEncode (process.sha256Bytes
    (String.ofList (Text.print Text.compact 0 (canonicalizeValue (arguments.getD .null)))))

def associatedData (binding : RequestStateBinding) : List (String × Json) :=
  [("method", .str binding.method), ("tool", .str binding.tool),
    ("argsDigest", .str (argsDigest process binding.arguments)), ("principal", binding.principal.elim .null .str)]

def requestStateAssociatedDataBytes (binding : RequestStateBinding) : String :=
  String.ofList (Text.print Text.compact 0 (.obj (associatedData process binding)))

def mapRequestStateCodecError : RequestStateError → String
  | .integrityCheckFailed => "requestState signature mismatch"
  | .expired => "requestState expired"
  | .other error => "requestState must be valid sealed JSON: " ++ error

/-- `Duration::as_millis() as u64` of a number of nanoseconds. -/
def asMillis (nanos : Nat) : Nat := nanos / 1000000 % 2 ^ 64

/-- The milliseconds of a clock that counts nanoseconds from 1970. -/
def unixMs (now : Int) : Except String Nat :=
  if now < 0 then .error "system clock before UNIX_EPOCH: second time provided was later than self"
  else .ok (asMillis now.toNat)

def requestStateVersion : Nat := 1

def issueRequestStateWithClock (binding : RequestStateBinding)
    (now : Int) (ttl counter : Nat) : Except String Sealed := do
  let issuedAtUnixMs ← unixMs now
  let payload : RequestStatePayload := {
    version := requestStateVersion
    issuedAtUnixMs
    expiresAtUnixMs := min (issuedAtUnixMs + asMillis ttl) (2 ^ 64 - 1)
    nonce := s!"{process.id}-{counter + 1}"
  }
  let codec ← process.requestStateCodec
  (codec.sealJson payload (requestStateAssociatedDataBytes process binding)).mapError mapRequestStateCodecError

def validateRequestStateWithClock (requestState : Sealed)
    (binding : RequestStateBinding) (now : Int) : Except String Unit := do
  let codec ← process.requestStateCodec
  let payload ← (codec.openJson requestState (requestStateAssociatedDataBytes process binding)).mapError
    mapRequestStateCodecError
  if payload.version ≠ requestStateVersion then
    .error s!"requestState version mismatch: expected {requestStateVersion}, got {payload.version}"
  else do
    let nowUnixMs ← unixMs now
    if payload.expiresAtUnixMs < nowUnixMs then .error "requestState expired" else .ok ()

def defaultRequestStateTtl : Nat := 10 * 60 * 1000000000
def issueRequestState (binding : RequestStateBinding)
    (now : Int) (counter : Nat) : Except String Sealed :=
  issueRequestStateWithClock process binding now defaultRequestStateTtl counter
def validateRequestState (requestState : Sealed) (binding : RequestStateBinding) (now : Int) :
    Except String Unit := validateRequestStateWithClock process requestState binding now

theorem hexEncode_injective {left right : List UInt8} (same : hexEncode left = hexEncode right) :
    left = right := by
  have digits := String.ofList_inj.mp same
  clear same
  induction left generalizing right with
  | nil => cases right with
    | nil => rfl
    | cons byte rest => cases digits
  | cons byte rest ih =>
    cases right with
    | nil => cases digits
    | cons other later =>
      rw [flatMap_cons, flatMap_cons] at digits
      obtain ⟨high, digits⟩ := cons.inj digits
      obtain ⟨low, digits⟩ := cons.inj digits
      have value (digit : Nat) : Text.hexValue (Text.hexDigit digit) = some (digit % 16) := by
        rw [← Text.hexValue_hexDigit (digit % 16) (Nat.mod_lt _ (by decide)), Text.hexDigit, Text.hexDigit, Nat.mod_mod]
      have highs := congrArg Text.hexValue high
      have lows := congrArg Text.hexValue low
      rw [value, value, Option.some_inj] at highs lows
      have small := byte.toNat_lt
      have otherSmall := other.toNat_lt
      rw [ih digits, UInt8.toNat_inj.mp (by omega : byte.toNat = other.toNat)]

theorem argsDigest_eq_iff {left right : Option Json}
    (isValue : IsValue (left.getD .null)) (other : IsValue (right.getD .null)) :
    argsDigest process left = argsDigest process right ↔ SameUpToOrder (left.getD .null) (right.getD .null) := by
  rw [← canonicalizeValue_eq_iff isValue]
  refine ⟨fun same => ?_, fun same => by rw [argsDigest, argsDigest, same]⟩
  exact Text.print_injective
    Text.compact 0 (wellFormed_canonicalizeValue _ isValue) (wellFormed_canonicalizeValue _ other)
    (String.ofList_inj.mp (process.sha256_injective (hexEncode_injective same)))

theorem requestStateAssociatedDataBytes_eq_iff {left right : RequestStateBinding} :
    requestStateAssociatedDataBytes process left = requestStateAssociatedDataBytes process right ↔
      left.method = right.method ∧ left.tool = right.tool ∧
        argsDigest process left.arguments = argsDigest process right.arguments ∧ left.principal = right.principal := by
  have numeric (binding : RequestStateBinding) : Text.Numeric (.obj (associatedData process binding)) := by
    cases shown : binding.principal <;> simp [associatedData, shown, Text.Numeric, Text.NumericFields]
  have scalar (principal : Option String) : Text.collected (principal.elim .null .str) = principal.elim .null .str := by
    cases principal <;> rfl
  constructor
  · intro same
    have read := Text.parse_print_collected Text.compact 0 (numeric left)
    rw [String.ofList_inj.mp same, Text.parse_print_collected Text.compact 0 (numeric right), Option.some_inj] at read
    have looked (key : String) : Json.lookupField (associatedData process right) key =
      Json.lookupField (associatedData process left) key := by
      have found := congrArg (Json.lookupField · key) (Json.obj.inj read)
      simp only [associatedData, Text.collectedFields, Text.collected, scalar, Text.collectFields] at found
      rw [Json.lookupField_foldl (by simp), Json.lookupField_foldl (by simp)] at found
      simpa [associatedData, Json.lookupField] using found
    have principal := looked "principal"
    simp only [associatedData, Json.lookupField_cons] at looked principal
    refine ⟨by simpa using (looked "method").symm, by simpa using (looked "tool").symm,
      by simpa using (looked "argsDigest").symm, ?_⟩
    cases told : left.principal <;> cases known : right.principal <;> simp_all
  · rintro ⟨method, tool, digest, principal⟩
    rw [requestStateAssociatedDataBytes, requestStateAssociatedDataBytes, associatedData,
      associatedData, method, tool, digest, principal]

variable {binding other : RequestStateBinding}
  {now later : Int} {ttl counter : Nat} {state : Sealed}

theorem issued_cases
    (issued : issueRequestStateWithClock process binding now ttl counter = .ok state) :
    ∃ payload codec, process.requestStateCodec = .ok codec ∧
      codec.sealJson payload (requestStateAssociatedDataBytes process binding) = .ok state ∧
      payload.version = requestStateVersion ∧
      payload.expiresAtUnixMs = min (asMillis now.toNat + asMillis ttl) (2 ^ 64 - 1) := by
  unfold issueRequestStateWithClock unixMs at issued
  split at issued
  · cases issued
  · cases opened : process.requestStateCodec with
    | error error =>
      rw [opened] at issued
      cases issued
    | ok codec =>
      rw [opened] at issued
      dsimp only [bind, Except.bind] at issued
      unfold Except.mapError at issued
      split at issued
      · cases issued
      · next shut =>
        cases issued
        exact ⟨_, codec, rfl, shut, rfl, rfl⟩

/-- A state is good for the request it was issued for, its keys in any order, until its
lifetime is over. -/
theorem validateRequestState_iff
    (issued : issueRequestStateWithClock process binding now ttl counter = .ok state)
    (isValue : IsValue (binding.arguments.getD .null)) (otherValue : IsValue (other.arguments.getD .null))
    (after1970 : 0 ≤ later) :
    validateRequestStateWithClock process state other later = .ok () ↔ binding.method =
      other.method ∧ binding.tool = other.tool ∧ binding.principal = other.principal ∧
        SameUpToOrder (binding.arguments.getD .null) (other.arguments.getD .null) ∧
        asMillis later.toNat ≤ asMillis now.toNat + asMillis ttl := by
  obtain ⟨payload, codec, opened, shut, version, expires⟩ := issued_cases process issued
  have bound : binding.method = other.method ∧ binding.tool = other.tool ∧ binding.principal =
    other.principal ∧ SameUpToOrder (binding.arguments.getD .null) (other.arguments.getD .null) ↔
      requestStateAssociatedDataBytes process other = requestStateAssociatedDataBytes process binding := by
    rw [@eq_comm String (requestStateAssociatedDataBytes process other),
      requestStateAssociatedDataBytes_eq_iff, argsDigest_eq_iff process isValue otherValue]
    tauto
  have small : asMillis later.toNat < 2 ^ 64 := Nat.mod_lt _ (by decide)
  unfold validateRequestStateWithClock
  rw [opened]
  by_cases same : requestStateAssociatedDataBytes process other = requestStateAssociatedDataBytes process binding
  · obtain ⟨method, tool, principal, arguments⟩ := bound.mpr same
    simp only [method, tool, principal, arguments, true_and]
    rw [same]
    change (Except.mapError _ (codec.openJson state _) >>= _) = _ ↔ _
    rw [codec.open_same shut]
    change (if payload.version ≠ requestStateVersion then _ else _) = _ ↔ _
    rw [if_neg (not_not_intro version), unixMs, if_neg (not_lt.mpr after1970)]
    change (if payload.expiresAtUnixMs < asMillis later.toNat then _ else _) = _ ↔ _
    rw [expires]
    split
    all_goals
      simp
      omega
  · refine iff_of_false (fun accepted => ?_) fun holds => same (bound.mp ⟨holds.1, holds.2.1, holds.2.2.1, holds.2.2.2.1⟩)
    change (Except.mapError _ (codec.openJson state _) >>= _) = _ at accepted
    rw [codec.open_other shut same] at accepted
    cases accepted

end

theorem toByteArray_toList_injective :
    Function.Injective fun text : String => text.toByteArray.data.toList := by
  intro left right same
  exact String.toByteArray_inj.mp (ByteArray.ext (Array.toList_inj.mp same))

/-- A codec that keeps the payload and its data in the open. -/
def openCodec : RequestStateCodec (RequestStatePayload × String) where
  sealJson payload data := .ok (payload, data)
  openJson state data := if data = state.2 then .ok state.1 else .error .integrityCheckFailed
  open_same made := by
    cases made
    exact if_pos rfl
  open_other made other := by
    cases made
    exact if_neg other

def openProcess : Process (RequestStatePayload × String) :=
  ⟨7, fun text => text.toByteArray.data.toList, toByteArray_toList_injective, .ok openCodec⟩
def purgeBinding (arguments : List (String × Json)) : RequestStateBinding :=
  ⟨"tools/call", "purge_saved_context", some (.obj arguments), some "session-123"⟩
def keepMonth : String × Json := ("keep_days", .num "30")
def keepFiles : String × Json := ("purge_bridge_files", .bool false)

theorem validateRequestState_iff_swapped :
    ∃ state, issueRequestState openProcess (purgeBinding [keepMonth, keepFiles]) 1700000000000000000
      0 = .ok state ∧
      validateRequestState openProcess state (purgeBinding [keepFiles, keepMonth]) 1700000030000000000 = .ok () :=
  ⟨_, rfl, (@validateRequestState_iff _ openProcess (purgeBinding [keepMonth, keepFiles])
    (purgeBinding [keepFiles, keepMonth]) 1700000000000000000 _ defaultRequestStateTtl 0 _ rfl
    (by simp [purgeBinding, keepMonth, keepFiles, IsValue, IsValueFields, Text.isNumberChar])
    (by simp [purgeBinding, keepMonth, keepFiles, IsValue, IsValueFields, Text.isNumberChar]) (by decide)).mpr
    ⟨rfl, rfl, rfl, .single (.here (.swap _ _ [])), by decide⟩⟩

/-- Half a millisecond too late is not late. -/
theorem lateWithinMillisecond_accepted :
    ∃ state, issueRequestState openProcess (purgeBinding []) 1700000000000000000 0 = .ok state ∧
      (1700000000000000000 + defaultRequestStateTtl : Int) < 1700000600000500000 ∧
      validateRequestState openProcess state (purgeBinding []) 1700000600000500000 = .ok () := by
  refine ⟨_, rfl, by decide, ?_⟩
  simp [validateRequestState, validateRequestStateWithClock, openProcess, openCodec,
    Except.mapError, unixMs, asMillis, requestStateVersion, defaultRequestStateTtl, bind,
    Except.bind]

end Atlas.Mcp
