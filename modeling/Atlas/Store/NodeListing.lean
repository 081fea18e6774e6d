import Atlas.Search.Store
import Atlas.Store.Helpers
import Atlas.Text.Utf8
import Mathlib

/-! `list_nodes` turns the start of a path into a range of the index on paths. SQLite compares
the bytes of the texts; the upper end is found over code points. -/
namespace Atlas.Store
open List Atlas.Core Text
open Search (normalizeKindAlias sqlLimit)

/-- The first of the code points from `candidate` on that `char::from_u32` accepts. -/
def nextScalar (candidate : Nat) : Option Char :=
  if candidate ≤ 0x10FFFF then
    if scalar : candidate.isValidChar then some (Char.ofNatAux candidate scalar)
    else nextScalar (candidate + 1)
  else none
termination_by 0x110000 - candidate

def upperBoundOf : List Char → Option (List Char)
  | [] => none
  | last :: before =>
    match nextScalar (last.toNat + 1) with
    | some next => some (next :: before).reverse
    | none => upperBoundOf before

def prefixUpperBound (start : String) : Option String :=
  (upperBoundOf start.toList.reverse).map String.ofList

variable {candidate : Nat} {next last : Char} {before : List Char} {start upper : String}

private theorem nextScalar_eq_some (found : nextScalar candidate = some next) :
    candidate ≤ next.toNat ∧ ∀ other : Char, candidate ≤ other.toNat →
      next.toNat ≤ other.toNat := by
  fun_induction nextScalar candidate with
  | case1 candidate _ scalar =>
    obtain rfl := Option.some.inj found
    exact ⟨le_rfl, fun _ above => above⟩
  | case2 candidate _ gap ih =>
    obtain ⟨reached, least⟩ := ih found
    refine ⟨Nat.le_of_succ_le reached, fun other above => least other ?_⟩
    -- a code point that is no scalar value is no character
    have apart : candidate ≠ other.toNat := fun same => gap (same ▸ other.valid)
    exact Nat.lt_of_le_of_ne above apart
  | case3 => cases found

private theorem nextScalar_eq_none (missed : nextScalar candidate = none) (other : Char) :
    other.toNat < candidate := by
  fun_induction nextScalar candidate with
  | case1 => cases missed
  | case2 candidate _ gap ih =>
    have apart : candidate ≠ other.toNat := fun same => gap (same ▸ other.valid)
    exact Nat.lt_of_le_of_ne (Nat.lt_succ_iff.mp (ih missed)) apart.symm
  | case3 candidate above =>
    have top : other.toNat < 0x110000 := other.valid.elim (fun low => low.trans (by decide)) And.right
    omega

theorem char_lt_iff {left right : Char} :
    left < right ↔ left.toNat < right.toNat := UInt32.lt_iff_toNat_lt

private theorem covBy_of_nextScalar (found : nextScalar (last.toNat + 1) = some next) : last ⋖ next := by
  obtain ⟨above, least⟩ := nextScalar_eq_some found
  refine ⟨char_lt_iff.mpr above, fun between after before => ?_⟩
  have reached := least between (char_lt_iff.mp after)
  exact absurd (char_lt_iff.mp before) (Nat.not_lt.mpr reached)

theorem greatest_of_nextScalar (missed : nextScalar (last.toNat + 1) = none) (other : Char) :
    other ≤ last :=
  not_lt.mp fun above => absurd (nextScalar_eq_none missed other) (Nat.not_lt.mpr (char_lt_iff.mp above))

private theorem upperBoundOf_eq_some {upper : List Char}
    (found : upperBoundOf before.reverse = some upper) :
    ∃ earlier letter rest next, before = earlier ++ letter :: rest ∧
      upper = earlier ++ [next] ∧ letter ⋖ next ∧ ∀ each ∈ rest, ∀ other, other ≤ each := by
  induction before using reverseRecOn with
  | nil => cases found
  | append_singleton earlier last ih =>
    rw [reverse_append, reverse_singleton, singleton_append, upperBoundOf] at found
    cases next : nextScalar (last.toNat + 1) with
    | some successor =>
      simp only [next, reverse_cons, reverse_reverse, Option.some.injEq] at found
      exact ⟨earlier, last, [], successor, rfl, found.symm, covBy_of_nextScalar next, by simp⟩
    | none =>
      simp only [next] at found
      obtain ⟨shorter, letter, rest, successor, rfl, made, covers, greatest⟩ := ih found
      refine ⟨shorter, letter, rest ++ [last], successor, by simp, made, covers, ?_⟩
      intro each mem
      rcases mem_append.mp mem with inside | final
      · exact greatest each inside
      · obtain rfl := mem_singleton.mp final
        exact greatest_of_nextScalar next

private theorem greatest_of_upperBoundOf (missed : upperBoundOf before = none) :
    ∀ each ∈ before, ∀ other, other ≤ each := by
  induction before with
  | nil => simp
  | cons last earlier ih =>
    rw [upperBoundOf] at missed
    cases next : nextScalar (last.toNat + 1) with
    | some successor => simp [next] at missed
    | none =>
      simp only [next] at missed
      intro each mem
      rcases mem_cons.mp mem with rfl | inside
      · exact greatest_of_nextScalar next
      · exact ih missed each inside

def maxNodeListLimit : Nat := 10000

structure NodeListFilter where
  kind : Option String := none
  language : Option String := none
  subpath : Option String := none
  repoId : Option String := none

structure NodeListPage where
  nodes : List Node
  (total limit offset : Nat)

def clampedLimit (limit : Nat) : Nat := max 1 (min limit maxNodeListLimit)

/-- `OFFSET offset as i64`: SQLite reads a negative offset as none. -/
def sqlOffset {Row : Type} (offset : Nat) (rows : List Row) : List Row :=
  if offset < 2 ^ 63 then rows.drop offset else rows

def bytesOf (text : String) : List UInt8 := utf8 text.toList

/-- What `length` and `substr` read of a text: it ends at the first NUL. -/
def untilNul (text : String) : List Char := text.toList.takeWhile (· ≠ '\x00')
def substrIs (start text : String) : Bool :=
  decide ((untilNul text).take (untilNul start).length = start.toList)

def inRange (start : String) (upper : Option String) (path : String) : Bool :=
  match upper with
  | some upper => decide (bytesOf start ≤ bytesOf path ∧ bytesOf path < bytesOf upper)
  | none => substrIs start path

def NodeListFilter.passesOthers (filter : NodeListFilter) (row : NodeRow) : Bool :=
  filter.kind.all (fun kind => decide (row.kind = normalizeKindAlias kind)) &&
  filter.language.all (fun language => decide (row.language = some language)) &&
  filter.repoId.all (fun repoId => decide (row.sourceRepoId = repoId))

def NodeListFilter.passes
    (filter : NodeListFilter) (row : NodeRow) : Bool := filter.passesOthers row &&
    filter.subpath.all (fun subpath => inRange subpath (prefixUpperBound subpath) row.filePath)
def listingKey (row : NodeRow) : String ×ₗ Nat ×ₗ String :=
  toLex (row.filePath, toLex (row.lineStart, row.qualifiedName))
def listedBefore (left right : NodeRow) : Prop := listingKey left ≤ listingKey right

instance : DecidableRel listedBefore := fun left right =>
  LinearOrder.toDecidableLE (listingKey left) (listingKey right)

/-- `ORDER BY file_path, line_start, qualified_name`; code points order texts as bytes do. -/
def listed (rows : List NodeRow) : List NodeRow := rows.insertionSort listedBefore

def listNodes (db : Db) (filter : NodeListFilter) (limit offset : Nat) : NodeListPage :=
  let matching := db.nodes.filter filter.passes
  { nodes := (sqlLimit (clampedLimit limit) (sqlOffset offset (listed matching))).map rowToNode
    total := matching.length
    limit := clampedLimit limit
    offset := offset }

theorem startsWith_iff {text : String} :
    startsWith text start = true ↔ start.toList <+: text.toList := isPrefixOf_iff_prefix

private theorem prefixUpperBound_eq_some (found : prefixUpperBound start = some upper) :
    ∃ earlier letter rest next, start.toList = earlier ++ letter :: rest ∧
      upper.toList = earlier ++ [next] ∧ letter ⋖ next ∧ ∀ each ∈ rest, ∀ other, other ≤ each := by
  obtain ⟨characters, made, rfl⟩ := Option.map_eq_some_iff.mp found
  rw [String.toList_ofList]
  exact upperBoundOf_eq_some made

theorem greatest_of_prefixUpperBound (missed : prefixUpperBound start = none) :
    ∀ each ∈ start.toList, ∀ other, other ≤ each := fun each mem =>
  greatest_of_upperBoundOf (Option.map_eq_none_iff.mp missed) each (mem_reverse.mpr mem)

theorem startsWith_iff_between (found : prefixUpperBound start = some upper) (text : String) :
    startsWith text start = true ↔ bytesOf start ≤ bytesOf text ∧ bytesOf text < bytesOf upper := by
  obtain ⟨earlier, letter, rest, next, startIs, upperIs, covers, greatest⟩ := prefixUpperBound_eq_some found
  rw [startsWith_iff, bytesOf, bytesOf, bytesOf, ← List.not_lt, utf8_lt_iff, utf8_lt_iff, startIs, upperIs]
  exact prefix_iff_between covers greatest

theorem toNat_of_greatest {letter : Char} (greatest : ∀ other, other ≤ letter) :
    letter.toNat = 0x10FFFF := by
  have top : letter.toNat < 0x110000 := letter.valid.elim (fun low => low.trans (by decide)) And.right
  have reached : ¬ letter.toNat < (Char.ofNat 0x10FFFF).toNat :=
    fun below => absurd (char_lt_iff.mpr below) (not_lt.mpr (greatest _))
  have value : (Char.ofNat 0x10FFFF).toNat = 0x10FFFF := by decide
  omega

private theorem substrIs_eq_startsWith (plain : ∀ each ∈ start.toList, each ≠ '\x00') (text : String) :
    substrIs start text = startsWith text start := by
  have whole : untilNul start = start.toList := by
    have kept := @takeWhile_append_of_pos _ (· ≠ '\x00') start.toList [] (fun each mem => decide_eq_true (plain each mem))
    rwa [append_nil, takeWhile_nil, append_nil] at kept
  rw [Bool.eq_iff_iff, startsWith_iff, substrIs, decide_eq_true_iff, whole]
  constructor
  · intro taken
    rw [← taken]
    exact ( take_prefix _ _).trans ( takeWhile_prefix _)
  · rintro ⟨behind, joined⟩
    rw [untilNul, ← joined, takeWhile_append_of_pos fun each mem => decide_eq_true (plain each mem)]
    exact take_left

private theorem inRange_eq_startsWith (start path : String) :
    inRange start (prefixUpperBound start) path = startsWith path start := by
  cases found : prefixUpperBound start with
  | some upper => rw [Bool.eq_iff_iff, startsWith_iff_between found, inRange, decide_eq_true_iff]
  | none =>
    refine substrIs_eq_startsWith (fun each mem nul => ?_) path
    have greatest := toNat_of_greatest (greatest_of_prefixUpperBound found each mem)
    rw [nul] at greatest
    exact absurd greatest (by decide)

def ExactBound (start : String) : Option String → Prop
  | some upper => ∀ text, startsWith text start = true ↔
      bytesOf start ≤ bytesOf text ∧ bytesOf text < bytesOf upper
  | none => ∀ each ∈ start.toList, each.toNat = 0x10FFFF

private theorem prefixUpperBound_exact (start : String) : ExactBound start (prefixUpperBound start) := by
  cases found : prefixUpperBound start with
  | some upper => exact startsWith_iff_between found
  | none => exact fun each mem => toNat_of_greatest (greatest_of_prefixUpperBound found each mem)

end Atlas.Store
