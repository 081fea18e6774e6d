import Atlas.Repo.Path
import Atlas.Text.Lines

/-! Which paths a scan of the repository leaves out: the default patterns and `.atlasignore`. -/
namespace Atlas.Repo
open List

def defaultIgnorePatterns : List String := [".atlas", ".git", "node_modules", "vendor", "dist",
    "build", ".next", "target", ".venv", "__pycache__"]
def utf8 (text : List Char) : List UInt8 := text.flatMap String.utf8EncodeChar

def globMatchInner : List UInt8 → List UInt8 → Bool
  | [], [] => true
  | [], _ :: _ => false
  | 63 :: pattern, text =>
    match text with
    | [] => false
    | byte :: rest => byte != 47 && globMatchInner pattern rest
  | 42 :: 42 :: 47 :: pattern, text => (range (text.length + 1)).any fun i => globMatchInner pattern (text.drop i)
  | 42 :: 42 :: pattern, text => (range (text.length + 1)).any fun i => globMatchInner pattern (text.drop i)
  | 42 :: pattern, text =>
    ((range (text.length + 1)).takeWhile fun i => !(text.take i).contains 47).any fun i =>
      globMatchInner pattern (text.drop i)
  | expected :: pattern, text =>
    match text with
    | [] => false
    | byte :: rest => expected == byte && globMatchInner pattern rest

def globMatch (pattern text : List Char) : Bool := globMatchInner (utf8 pattern) (utf8 text)
def trimEndSlash (text : List Char) : List Char := (text.reverse.dropWhile (· == '/')).reverse

def matchesPattern (path pattern : List Char) : Bool :=
  let pat := trimEndSlash pattern
  let trailingSlash := decide (pattern.getLast? = some '/')
  if '/' ∉ pat then
    globMatch pat path || (path.splitOn '/').any fun component => globMatch pat component
  else if trailingSlash then (pat ++ ['/']).isPrefixOf path || globMatch pat path
  else globMatch pat path

def shouldIgnore (path : List Char) (patterns : List (List Char)) : Bool :=
  patterns.any fun pattern => matchesPattern path pattern

def loadAtlasignore (content : Option (List Char)) : List (List Char) :=
  match content with
  | none => []
  | some text => ((Text.lines text).map trim).filter fun line => !line.isEmpty && line.head? != some '#'

def defaultPatterns : List (List Char) := defaultIgnorePatterns.map fun name => (name ++ "/").toList

/-- The filters by pattern of `collect_supported_files_with_stats`. -/
def isExcluded (atlasignore : Option (List Char)) (path : String) : Bool :=
  shouldIgnore path.toList defaultPatterns || shouldIgnore path.toList (loadAtlasignore atlasignore)

theorem utf8_injective {left right : List Char} (same : utf8 left = utf8 right) : left = right := by
  have encoded : left.utf8Encode = right.utf8Encode := congrArg toByteArray same
  exact String.ofList_injective (String.toByteArray_inj.mp encoded)

theorem globMatchInner_literal {pattern : List UInt8} (plain : 42 ∉ pattern ∧ 63 ∉ pattern)
    (text : List UInt8) : globMatchInner pattern text = decide (pattern = text) := by
  induction pattern generalizing text with
  | nil =>
    cases text with
    | nil => rfl
    | cons byte rest => rfl
  | cons expected pattern ih =>
    have notStar : expected ≠ 42 := fun star => plain.1 (star ▸ mem_cons_self)
    have notAny : expected ≠ 63 := fun any => plain.2 (any ▸ mem_cons_self)
    have later := ih ⟨fun star => plain.1 (.tail _ star), fun any => plain.2 (.tail _ any)⟩
    unfold globMatchInner
    split
    · next isNil => cases isNil
    · next isNil => cases isNil
    · next isAny => exact absurd (cons.inj isAny).1 notAny
    · next isStar => exact absurd (cons.inj isStar).1 notStar
    · next isStar => exact absurd (cons.inj isStar).1 notStar
    · next isStar => exact absurd (cons.inj isStar).1 notStar
    · next text _ _ _ _ _ _ _ _ same =>
        obtain ⟨rfl, rfl⟩ := cons.inj same
        cases text with
        | nil => rfl
        | cons byte rest =>
          rw [Bool.eq_iff_iff, Bool.and_eq_true, beq_iff_eq, later, decide_eq_true_iff,
            decide_eq_true_iff, cons.injEq]

theorem globMatch_literal {pattern : List Char} (plain : 42 ∉ utf8 pattern ∧ 63 ∉ utf8 pattern)
    (text : List Char) : globMatch pattern text = decide (pattern = text) := by
  unfold globMatch
  rw [globMatchInner_literal plain, decide_eq_decide]
  exact ⟨utf8_injective, fun same => congrArg utf8 same⟩

def hasIgnoredComponent (path : String) : Bool := (path.toList.splitOn '/').any fun component =>
    defaultIgnorePatterns.any fun name => decide (name.toList = component)

theorem defaultIgnorePatterns_plain : ∀ name ∈ defaultIgnorePatterns,
    (42 ∉ utf8 name.toList ∧ 63 ∉ utf8 name.toList) ∧ '/' ∉ name.toList ∧ name.toList.splitOn '/' =
      [name.toList] ∧ trimEndSlash (name ++ "/").toList = name.toList := by
  decide

theorem shouldIgnore_defaultPatterns (path : String) :
    shouldIgnore path.toList defaultPatterns = hasIgnoredComponent path := by
  unfold shouldIgnore defaultPatterns hasIgnoredComponent
  rw [any_map, Bool.eq_iff_iff, any_eq_true, any_eq_true]
  have matched : ∀ name ∈ defaultIgnorePatterns, (matchesPattern path.toList (name ++ "/").toList =
    true ↔ name.toList ∈ path.toList.splitOn '/') := by
    intro name mem
    obtain ⟨plain, noSlash, single, trimmed⟩ := defaultIgnorePatterns_plain name mem
    unfold matchesPattern
    rw [trimmed, if_pos noSlash, Bool.or_eq_true, any_eq_true, globMatch_literal plain, decide_eq_true_iff]
    constructor
    · rintro (whole | ⟨component, inPath, same⟩)
      · rw [← whole, single]
        exact mem_singleton_self _
      · rw [globMatch_literal plain, decide_eq_true_iff] at same
        exact same ▸ inPath
    · intro inPath
      exact .inr ⟨_, inPath, by rw [globMatch_literal plain, decide_eq_true_iff]⟩
  constructor
  · rintro ⟨name, mem, hit⟩
    refine ⟨_, (matched name mem).mp hit, ?_⟩
    exact any_eq_true.mpr ⟨name, mem, decide_eq_true rfl⟩
  · rintro ⟨component, inPath, named⟩
    obtain ⟨name, mem, same⟩ := any_eq_true.mp named
    exact ⟨name, mem, (matched name mem).mpr (of_decide_eq_true same ▸ inPath)⟩

end Atlas.Repo
