import Atlas.Repo.Path
import Atlas.Text.Split
import Mathlib.Algebra.Order.BigOperators.Group.List
import Mathlib.Algebra.Order.Group.Nat

/-! When a canonical path is its own canonical form. -/
namespace Atlas.Repo
open List

variable {text : List Char} {segments : List (List Char)} {nfc : String → String} {raw : String}

theorem dropWhile_eq_self_iff_head {keeps : Char → Bool} :
    text.dropWhile keeps = text ↔ ∀ c ∈ text.head?, keeps c = false := by
  cases text with
  | nil => simp
  | cons first rest =>
    cases kept : keeps first with
    | false => simp [kept]
    | true =>
      simp only [dropWhile_cons, kept, if_true, head?_cons, Option.mem_def, Option.some.injEq,
        forall_eq', Bool.true_eq_false, iff_false]
      intro same
      have shorter := (dropWhile_sublist (p := keeps) (l := rest)).length_le
      rw [same, length_cons] at shorter
      omega

theorem trim_sublist (text : List Char) : (trim text).Sublist text := by
  unfold trim
  have inner := (dropWhile_sublist (p := isWhitespace) (l := (text.dropWhile isWhitespace).reverse)).reverse
  rw [reverse_reverse] at inner
  exact inner.trans (dropWhile_sublist _)

theorem trim_eq_self_iff : trim text = text ↔
    (∀ c ∈ text.head?, isWhitespace c = false) ∧ ∀ c ∈ text.getLast?, isWhitespace c = false := by
  have last : text.reverse.dropWhile isWhitespace = text.reverse ↔
    ∀ c ∈ text.getLast?, isWhitespace c = false := by rw [dropWhile_eq_self_iff_head, head?_reverse]
  constructor
  · intro same
    have early : text.dropWhile isWhitespace = text := by
      refine (dropWhile_sublist _).eq_of_length_le ?_
      have inner := (dropWhile_sublist (p := isWhitespace) (l := (text.dropWhile isWhitespace).reverse)).length_le
      have whole : (trim text).length = text.length := by rw [same]
      rw [trim, length_reverse] at whole
      rw [length_reverse] at inner
      omega
    refine ⟨dropWhile_eq_self_iff_head.mp early, last.mp ?_⟩
    rw [trim, early] at same
    have flipped := congrArg reverse same
    rwa [reverse_reverse] at flipped
  · intro ⟨early, late⟩
    rw [trim, dropWhile_eq_self_iff_head.mpr early, last.mpr late, reverse_reverse]

theorem trim_isInfix (text : List Char) : trim text <:+: text := by
  have suffix := dropWhile_suffix (l := text) isWhitespace
  have inner := dropWhile_suffix (l := (text.dropWhile isWhitespace).reverse) isWhitespace
  rw [← reverse_prefix, reverse_reverse] at inner
  exact inner.isInfix.trans suffix.isInfix

def IsNormal (segment : List Char) : Prop := segment ≠ [] ∧ segment ≠ ['.'] ∧ segment ≠ ['.', '.']

/-- The segments that no `..` takes back, read from the end of the path: the
number of `..` still waiting for a name on their left, and the names kept. -/
def remaining : List (List Char) → Nat × List (List Char)
  | [] => (0, [])
  | segment :: rest =>
    let (pending, kept) := remaining rest
    if segment = [] ∨ segment = ['.'] then (pending, kept)
    else if segment = ['.', '.'] then (pending + 1, kept)
    else if pending = 0 then (0, segment :: kept)
    else (pending - 1, kept)

theorem foldlM_pushComponent {slashed : List Char} :
    ∀ {parts result : List (List Char)}, segments.foldlM (pushComponent slashed) parts =
      .ok result → (remaining segments).1 ≤ parts.length ∧
          result = parts.take (parts.length - (remaining segments).1) ++ (remaining segments).2 := by
  induction segments with
  | nil =>
    intro parts result done
    cases done
    simp [remaining]
  | cons segment rest ih =>
    intro parts result done
    simp only [foldlM_cons, pushComponent] at done
    by_cases skipped : segment = [] ∨ segment = ['.']
    · rw [if_pos skipped] at done
      simpa [remaining, skipped] using ih done
    rw [if_neg skipped] at done
    by_cases parent : segment = ['.', '.']
    · rw [if_pos parent] at done
      by_cases root : parts = []
      · rw [if_pos root] at done
        cases done
      rw [if_neg root] at done
      have ⟨bound, shape⟩ := ih done
      have nonempty := length_pos_of_ne_nil root
      rw [length_dropLast] at bound
      have taken : (parts.length - 1) - (remaining rest).1 = parts.length - ((remaining rest).1 + 1) := by omega
      rw [length_dropLast, taken, dropLast_eq_take, take_take, Nat.min_eq_left (by omega)] at shape
      simp only [remaining, if_neg skipped, if_pos parent]
      exact ⟨by omega, shape⟩
    · rw [if_neg parent] at done
      have ⟨bound, shape⟩ := ih done
      simp only [remaining, if_neg skipped, if_neg parent]
      rw [length_append, length_singleton] at bound shape
      by_cases settled : (remaining rest).1 = 0
      · rw [if_pos settled]
        rw [settled, Nat.sub_zero, take_of_length_le (by simp), append_assoc] at shape
        simpa using shape
      · rw [if_neg settled]
        have taken : parts.length + 1 - (remaining rest).1 = parts.length - ((remaining rest).1 - 1) := by omega
        rw [taken, take_append_of_le_length (by omega)] at shape
        exact ⟨by simp only; omega, shape⟩

theorem remaining_normal :
    ∀ segment ∈ (remaining segments).2, segment ∈ segments ∧ IsNormal segment := by
  induction segments with
  | nil => simp [remaining]
  | cons first rest ih =>
    intro segment mem
    simp only [remaining] at mem
    have older : segment ∈ (remaining rest).2 → segment ∈ first :: rest ∧ IsNormal segment :=
      fun kept => ⟨.tail _ (ih segment kept).1, (ih segment kept).2⟩
    by_cases skipped : first = [] ∨ first = ['.']
    · rw [if_pos skipped] at mem
      exact older mem
    rw [if_neg skipped] at mem
    by_cases parent : first = ['.', '.']
    · rw [if_pos parent] at mem
      exact older mem
    rw [if_neg parent] at mem
    by_cases settled : (remaining rest).1 = 0
    · rw [if_pos settled] at mem
      cases mem_cons.mp mem with
      | inl same =>
        subst same
        have ⟨empty, dot⟩ := not_or.mp skipped
        exact ⟨.head _, empty, dot, parent⟩
      | inr kept => exact older kept
    · rw [if_neg settled] at mem
      exact older mem

theorem remaining_sublist (segments : List (List Char)) :
    (remaining segments).2.Sublist segments := by
  induction segments with
  | nil => exact .refl _
  | cons first rest ih =>
    simp only [remaining]
    split
    · exact ih.cons first
    split
    · exact ih.cons first
    split
    · exact ih.cons_cons first
    · exact ih.cons first

theorem foldlM_pushComponent_normal {slashed : List Char}
    (normal : ∀ segment ∈ segments, IsNormal segment) :
    ∀ parts, segments.foldlM (pushComponent slashed) parts = .ok (parts ++ segments) := by
  induction segments with
  | nil => intro parts; simp; rfl
  | cons first rest ih =>
    intro parts
    have ⟨empty, dot, parent⟩ := normal first (.head _)
    have pushed : pushComponent slashed parts first = .ok (parts ++ [first]) := by
      rw [pushComponent, if_neg (not_or.mpr ⟨empty, dot⟩), if_neg parent]
    rw [foldlM_cons, pushed]
    have next := ih (fun segment mem => normal segment (.tail _ mem)) (parts ++ [first])
    rw [append_assoc] at next
    exact next

theorem intercalate_head? {first : List Char} (rest : List (List Char)) (nonempty : first ≠ []) :
    (['/'].intercalate (first :: rest)).head? = first.head? := by
  cases rest with
  | nil => simp
  | cons second rest => simp [head?_append_of_ne_nil _ nonempty]

theorem intercalate_getLast? (nonempty : ∀ segment ∈ segments, segment ≠ []) :
    (['/'].intercalate segments).getLast? = segments.getLast?.bind getLast? := by
  induction segments with
  | nil => rfl
  | cons first rest ih =>
    have tail := ih fun segment mem => nonempty segment (.tail _ mem)
    cases rest with
    | nil => simp
    | cons second rest =>
      have last : (second :: rest).getLast? = some ((second :: rest).getLast (by simp)) :=
        getLast?_eq_some_getLast _
      have present := nonempty _ (.tail first (getLast_mem (by simp)))
      rw [intercalate_cons_cons, getLast?_append, tail, getLast?_cons_cons, last, Option.bind_some,
        getLast?_eq_some_getLast present, Option.some_or]

theorem intercalate_length (nonempty : segments ≠ []) : (['/'].intercalate segments).length + 1 =
    (segments.map fun segment => segment.length + 1).sum := by
  induction segments with
  | nil => exact absurd rfl nonempty
  | cons first rest ih =>
    cases rest with
    | nil => simp
    | cons second rest =>
      have tail := ih (cons_ne_nil _ _)
      rw [intercalate_cons_cons, map_cons, sum_cons, ← tail, length_append, length_append, length_singleton]
      omega

/-- What the paths rely on of Unicode normalization form C: it is idempotent,
its normal forms are closed under substrings, `/` is a boundary that neither
side combines with, and no character maps to a backslash. -/
structure IsNormalization (nfc : String → String) : Prop where
  idempotent : ∀ text, nfc (nfc text) = nfc text
  substring : ∀ {text part : List Char}, part <:+: text →
    nfc (String.ofList text) = String.ofList text → nfc (String.ofList part) = String.ofList part
  boundary : ∀ {left right : List Char}, nfc (String.ofList left) = String.ofList left →
    nfc (String.ofList right) = String.ofList right →
        nfc (String.ofList (left ++ '/' :: right)) = String.ofList (left ++ '/' :: right)
  backslash : ∀ text, '\\' ∈ (nfc text).toList → '\\' ∈ text.toList

structure IsCanonical (path : List Char) : Prop where
  nonempty : path ≠ []
  noLeadingSlash : path.head? ≠ some '/'
  noTrailingSlash : path.getLast? ≠ some '/'
  segments : ∀ segment ∈ path.splitOn '/', IsNormal segment
  noBackslash : '\\' ∉ path

def survivingSegments (nfc : String → String) (raw : String) : List (List Char) :=
  (remaining ((normalizeIdentity nfc (trim raw.toList)).splitOn '/')).2

/-- No whitespace where a second pass would trim. -/
def EdgesClear (segments : List (List Char)) : Prop :=
  (∀ first ∈ segments.head?, ∀ c ∈ first.head?, isWhitespace c = false) ∧
    ∀ last ∈ segments.getLast?, ∀ c ∈ last.getLast?, isWhitespace c = false

theorem canonicalizeRelative_ok {canonical : String}
    (accepted : canonicalizeRelative nfc raw = .ok canonical) :
    survivingSegments nfc raw ≠ [] ∧ canonical = String.ofList (['/'].intercalate (survivingSegments nfc raw)) := by
  simp only [canonicalizeRelative] at accepted
  split at accepted
  · cases accepted
  split at accepted
  · cases accepted
  split at accepted
  · cases accepted
  next parts resolved =>
    have ⟨_, shape⟩ := foldlM_pushComponent resolved
    rw [take_nil, nil_append] at shape
    split at accepted
    · cases accepted
    next kept =>
      split at accepted
      · cases accepted
      · cases accepted
        rw [shape] at kept ⊢
        exact ⟨kept, rfl⟩

theorem survivingSegments_mem {segment : List Char} (mem : segment ∈ survivingSegments nfc raw) :
    IsNormal segment ∧ '/' ∉ segment ∧ segment <:+: normalizeIdentity nfc (trim raw.toList) := by
  have ⟨member, normal⟩ := remaining_normal segment mem
  exact ⟨normal, Text.not_mem_of_mem_splitOn segment member, Text.infix_of_mem_splitOn member⟩

theorem IsNormalization.join (law : IsNormalization nfc) (nonempty : segments ≠ [])
    (fixed : ∀ segment ∈ segments, nfc (String.ofList segment) = String.ofList segment) :
    nfc (String.ofList (['/'].intercalate segments)) = String.ofList (['/'].intercalate segments) := by
  induction segments with
  | nil => exact absurd rfl nonempty
  | cons first rest ih =>
    have head := fixed first (.head _)
    cases rest with
    | nil => simpa using head
    | cons second rest =>
      have tail := ih (cons_ne_nil _ _) fun segment mem => fixed segment (.tail _ mem)
      rw [intercalate_cons_cons, append_assoc, singleton_append]
      exact law.boundary head tail

theorem toForwardSlashes_eq_self (clean : '\\' ∉ text) : toForwardSlashes text = text := by
  have fixes : ∀ c ∈ text, (if c = '\\' then '/' else c) = id c := by
    intro c mem
    refine if_neg ?_
    intro same
    rw [same] at mem
    exact clean mem
  rw [toForwardSlashes, map_congr_left fixes, map_id]

theorem backslash_not_mem_toForwardSlashes (text : List Char) : '\\' ∉ toForwardSlashes text := by
  intro mem
  obtain ⟨c, _, same⟩ := mem_map.mp mem
  by_cases slash : c = '\\'
  · rw [if_pos slash] at same
    cases same
  · rw [if_neg slash] at same
    exact slash same

theorem IsNormalization.normalizeIdentity_clean (law : IsNormalization nfc) (text : List Char) :
    '\\' ∉ normalizeIdentity nfc text := by
  intro mem
  have source := law.backslash _ mem
  rw [String.toList_ofList] at source
  exact backslash_not_mem_toForwardSlashes text source

/-- The keys a first pass gives are already separated and normalized: only
trimming can act on them again. -/
structure IsSettled (nfc : String → String) (segments : List (List Char)) : Prop where
  nonempty : segments ≠ []
  normal : ∀ segment ∈ segments, IsNormal segment
  noSlash : ∀ segment ∈ segments, '/' ∉ segment
  noBackslash : ∀ segment ∈ segments, '\\' ∉ segment
  fixed : ∀ segment ∈ segments, nfc (String.ofList segment) = String.ofList segment

theorem canonicalizeRelative_isSettled (law : IsNormalization nfc)
    {canonical : String} (accepted : canonicalizeRelative nfc raw = .ok canonical) :
    IsSettled nfc (survivingSegments nfc raw) where
  nonempty := (canonicalizeRelative_ok accepted).1
  normal segment mem := (survivingSegments_mem mem).1
  noSlash segment mem := (survivingSegments_mem mem).2.1
  noBackslash segment mem inside := law.normalizeIdentity_clean _ ((survivingSegments_mem mem).2.2.subset inside)
  fixed segment mem := by
    refine law.substring (survivingSegments_mem mem).2.2 ?_
    rw [normalizeIdentity, String.ofList_toList]
    exact law.idempotent _

section
variable (settled : IsSettled nfc segments)
include settled

theorem IsSettled.splitOn : (['/'].intercalate segments).splitOn '/' = segments :=
  splitOn_intercalate '/' settled.noSlash settled.nonempty

theorem IsSettled.edges :
    (∃ first ∈ segments.head?, (['/'].intercalate segments).head? = first.head?) ∧
      ∃ last ∈ segments.getLast?, (['/'].intercalate segments).getLast? = last.getLast? := by
  have present : ∀ segment ∈ segments, segment ≠ [] := fun segment mem => (settled.normal segment mem).1
  constructor
  · cases segments with
    | nil => exact absurd rfl settled.nonempty
    | cons first rest => exact ⟨first, rfl, intercalate_head? rest (present first (.head _))⟩
  · have last := getLast?_eq_some_getLast settled.nonempty
    refine ⟨_, last, ?_⟩
    rw [intercalate_getLast? present, last, Option.bind_some]

theorem IsSettled.isCanonical : IsCanonical (['/'].intercalate segments) where
  nonempty empty := by
    have ⟨⟨first, mem, head⟩, _⟩ := settled.edges
    rw [empty] at head
    have present := (settled.normal first (mem_of_mem_head? mem)).1
    exact present (head?_eq_none_iff.mp head.symm)
  noLeadingSlash slash := by
    have ⟨⟨first, mem, head⟩, _⟩ := settled.edges
    rw [head] at slash
    exact settled.noSlash first (mem_of_mem_head? mem) (mem_of_mem_head? slash)
  noTrailingSlash slash := by
    have ⟨_, last, mem, tail⟩ := settled.edges
    rw [tail] at slash
    exact settled.noSlash last (mem_of_mem_getLast? mem) (mem_of_mem_getLast? slash)
  segments segment mem := by
    rw [settled.splitOn] at mem
    exact settled.normal segment mem
  noBackslash mem := by
    obtain same | ⟨segment, member, inside⟩ := Text.mem_intercalate mem
    · cases mem_singleton.mp same
    · exact settled.noBackslash segment member inside

theorem IsSettled.trim_eq_self_iff_edgesClear :
    trim (['/'].intercalate segments) = ['/'].intercalate segments ↔ EdgesClear segments := by
  obtain ⟨⟨first, head, sameHead⟩, last, tail, sameLast⟩ := settled.edges
  rw [trim_eq_self_iff, sameHead, sameLast, EdgesClear, Option.mem_def.mp head, Option.mem_def.mp tail]
  simp

theorem IsSettled.normalizeIdentity_eq (law : IsNormalization nfc)
    (part : text <:+: ['/'].intercalate segments) : normalizeIdentity nfc text = text := by
  have clean : '\\' ∉ text := fun mem => settled.isCanonical.noBackslash (part.subset mem)
  have fixed := law.substring part (law.join settled.nonempty settled.fixed)
  rw [normalizeIdentity, toForwardSlashes_eq_self clean, fixed, String.toList_ofList]

theorem IsSettled.canonicalizeRelative_eq (law : IsNormalization nfc)
    (clear : EdgesClear segments) :
    canonicalizeRelative nfc (String.ofList (['/'].intercalate segments)) = .ok (String.ofList (['/'].intercalate segments)) := by
  have shape := settled.isCanonical
  simp only [canonicalizeRelative, String.toList_ofList]
  rw [settled.trim_eq_self_iff_edgesClear.mpr clear, if_neg shape.nonempty,
    settled.normalizeIdentity_eq law (infix_refl _), if_neg shape.noLeadingSlash,
    settled.splitOn, foldlM_pushComponent_normal settled.normal [], nil_append]
  simp only [if_neg settled.nonempty, if_neg shape.noTrailingSlash]

end

theorem survivingSegments_length (nonempty : survivingSegments nfc raw ≠ []) :
    (['/'].intercalate (survivingSegments nfc raw)).length ≤
      (normalizeIdentity nfc (trim raw.toList)).length := by
  have kept := intercalate_length nonempty
  have whole := intercalate_length (splitOn_ne_nil '/' (normalizeIdentity nfc (trim raw.toList)))
  rw [intercalate_splitOn] at whole
  have fewer := ((remaining_sublist ((normalizeIdentity nfc (trim raw.toList)).splitOn '/')).map
    fun segment => segment.length + 1).sum_le_sum (fun _ _ => Nat.zero_le _)
  rw [← whole] at fewer
  rw [survivingSegments] at kept ⊢
  omega

/-- A path read back in its canonical form is trimmed once more, so a key is
stable exactly when the names left at its two ends carry no whitespace there. -/
theorem canonicalizeRelative_stable_iff {nfc : String → String} (law : IsNormalization nfc)
    {raw canonical : String} (accepted : canonicalizeRelative nfc raw = .ok canonical) :
    (IsCanonical canonical.toList ∧ canonicalizeRelative nfc canonical = .ok canonical) ↔
      EdgesClear (survivingSegments nfc raw) := by
  have settled := canonicalizeRelative_isSettled law accepted
  have ⟨_, spelled⟩ := canonicalizeRelative_ok accepted
  constructor
  · intro ⟨_, again⟩
    rw [← settled.trim_eq_self_iff_edgesClear]
    -- A second pass that trims gives back something shorter.
    have ⟨kept, respelled⟩ := canonicalizeRelative_ok again
    have bound := survivingSegments_length kept
    rw [← String.toList_inj, String.toList_ofList] at spelled respelled
    rw [← respelled, spelled, settled.normalizeIdentity_eq law (trim_isInfix _)] at bound
    exact (trim_sublist _).eq_of_length_le bound
  · intro clear
    rw [spelled, String.toList_ofList]
    exact ⟨settled.isCanonical, settled.canonicalizeRelative_eq law clear⟩

theorem isNormalization_id : IsNormalization id where
  idempotent _ := rfl
  substring _ _ := rfl
  boundary _ _ := rfl
  backslash _ mem := mem

theorem canonicalizeRelative_stable_sample :
    canonicalizeRelative id "./src//x/../lib rs" = .ok "src/lib rs" ∧
      IsCanonical "src/lib rs".toList ∧ canonicalizeRelative id "src/lib rs" = .ok "src/lib rs" := by
  have accepted : canonicalizeRelative id "./src//x/../lib rs" = .ok "src/lib rs" := by decide
  have clear : EdgesClear (survivingSegments id "./src//x/../lib rs") := by
    have kept : survivingSegments id "./src//x/../lib rs" = [['s', 'r', 'c'], ['l', 'i', 'b', ' ', 'r', 's']] := by decide
    rw [kept]
    constructor
    · intro first isFirst c inside
      cases isFirst
      cases inside
      decide
    · intro last isLast c inside
      cases isLast
      cases inside
      decide
  exact ⟨accepted, (canonicalizeRelative_stable_iff isNormalization_id accepted).mpr clear⟩

theorem canonicalizeRelative_trims_again :
    canonicalizeRelative id "./ a" = .ok " a" ∧ canonicalizeRelative id " a" = .ok "a" := by decide

end Atlas.Repo
