import Atlas.Refactor.PatchProperties
import Mathlib.Data.List.Infix
import Mathlib.Order.Bounds.Basic

/-! The table of the line diff holds the longest common subsequences of the suffixes, and
the walk back keeps one. -/
namespace Atlas.Refactor
open List

/-! ## The table -/

/-- A row from its last column on; `below` is the row of the next old line. -/
def dpRow (old : Text) : List Text → List Nat → List Nat
  | [], _ => [0]
  | new :: news, below =>
    let row := dpRow old news below.tail
    (if old = new then below.tail.headD 0 + 1 else max (below.headD 0) (row.headD 0)) :: row

def dpTable : List Text → List Text → List (List Nat)
  | [], new => [replicate (new.length + 1) 0]
  | old :: olds, new => dpRow old new ((dpTable olds new).headD []) :: dpTable olds new

def dpCell (dp : List (List Nat)) (i j : Nat) : Nat := (dp[i]?.getD [])[j]?.getD 0

/-- The walk at `i` and `j`, with the lines from there on. -/
def traceback (dp : List (List Nat)) : Nat → Nat → List Text → List Text → List DiffOp
  | _, _, [], new => new.map .insert
  | _, _, old :: olds, [] => (old :: olds).map .remove
  | i, j, old :: olds, new :: news =>
    if old = new then .equal old :: traceback dp (i + 1) (j + 1) olds news
    else if dpCell dp (i + 1) j ≥ dpCell dp i (j + 1) then .remove old :: traceback dp (i + 1) j olds (new :: news)
    else .insert new :: traceback dp i (j + 1) (old :: olds) news
termination_by _ _ old new => old.length + new.length

theorem dpRow_eq (old : Text) (olds new : List Text) :
    dpRow old new (new.tails.map (lcs olds)) = new.tails.map (lcs (old :: olds)) := by
  induction new with
  | nil => simp [dpRow, lcs]
  | cons new news ih =>
    rw [tails_cons, map_cons, map_cons, dpRow, tail_cons, ih, headD_cons]
    have first (lines : List Text) : (news.tails.map (lcs lines)).headD 0 = lcs lines news := by cases news <;> rfl
    rw [first, first, lcs]

theorem dpTable_eq (old new : List Text) :
    dpTable old new = old.tails.map fun olds => new.tails.map (lcs olds) := by
  induction old with
  | nil =>
    have zero : lcs [] = fun _ => 0 := funext fun new => by rw [lcs]
    rw [dpTable, tails, map_singleton, zero, map_const', length_tails]
  | cons old olds ih =>
    have first : (olds.tails.map fun lines => new.tails.map (lcs lines)).headD [] =
      new.tails.map (lcs olds) := by cases olds <;> rfl
    rw [dpTable, ih, first, dpRow_eq, tails_cons, map_cons]

theorem dpCell_dpTable {old new : List Text} {i j : Nat} (row : i ≤ old.length)
    (column : j ≤ new.length) : dpCell (dpTable old new) i j = lcs (old.drop i) (new.drop j) := by
  have tail {lines : List Text} {i : Nat} (inside : i ≤ lines.length) : lines.tails[i]? = some (lines.drop i) := by
    rw [getElem?_eq_getElem (by rw [length_tails]; omega), getElem_tails]
  rw [dpCell, dpTable_eq, getElem?_map, tail row, Option.map_some, Option.getD_some, getElem?_map, tail column]
  rfl

theorem drop_succ_of_cons {lines rest : List Text} {line : Text} {i : Nat}
    (here : lines.drop i = line :: rest) : i + 1 ≤ lines.length ∧ lines.drop (i + 1) = rest := by
  have room := congrArg length here
  rw [length_drop, length_cons] at room
  refine ⟨by omega, ?_⟩
  rw [drop_add_one_eq_tail_drop, here, tail_cons]

theorem traceback_dpTable {old new olds news : List Text}
    {i j : Nat} (row : i ≤ old.length) (column : j ≤ new.length)
    (fromOld : old.drop i = olds) (fromNew : new.drop j = news) :
      traceback (dpTable old new) i j olds news = diffLines olds news := by
  induction olds, news using diffLines.induct generalizing i j with
  | case1 news => rw [traceback, diffLines]
  | case2 head olds => rw [traceback, diffLines]
  | case3 olds head news ih =>
    obtain ⟨below, nextOld⟩ := drop_succ_of_cons fromOld
    obtain ⟨right, nextNew⟩ := drop_succ_of_cons fromNew
    rw [traceback, diffLines, if_pos rfl, if_pos rfl, ih below right nextOld nextNew]
  | case4 head olds new' news differs longer ih =>
    obtain ⟨below, nextOld⟩ := drop_succ_of_cons fromOld
    obtain ⟨right, nextNew⟩ := drop_succ_of_cons fromNew
    rw [traceback, diffLines, if_neg differs, if_neg differs, dpCell_dpTable below column, dpCell_dpTable row right,
      nextOld, nextNew, fromOld, fromNew, if_pos longer, if_pos longer, ih below column nextOld fromNew]
  | case5 head olds new' news differs shorter ih =>
    obtain ⟨below, nextOld⟩ := drop_succ_of_cons fromOld
    obtain ⟨right, nextNew⟩ := drop_succ_of_cons fromNew
    rw [traceback, diffLines, if_neg differs, if_neg differs, dpCell_dpTable below column, dpCell_dpTable row right,
      nextOld, nextNew, fromOld, fromNew, if_neg shorter, if_neg shorter, ih row right fromOld nextNew]

/-! ## What is kept -/

def DiffOp.kept? : DiffOp → Option Text
  | .equal line => some line
  | _ => none

theorem countP_isEqual (ops : List DiffOp) :
    ops.countP DiffOp.isEqual = (ops.filterMap DiffOp.kept?).length := by
  induction ops with
  | nil => rfl
  | cons op rest ih =>
    rw [countP_cons, ih]
    cases op with
    | equal line => rfl
    | remove line => rfl
    | insert line => rfl

theorem kept_sublist (ops : List DiffOp) :
    ops.filterMap DiffOp.kept? <+ oldSide ops ∧ ops.filterMap DiffOp.kept? <+ newSide ops := by
  induction ops with
  | nil => exact ⟨.slnil, .slnil⟩
  | cons op rest ih =>
    cases op with
    | equal line => exact ⟨ih.1.cons_cons line, ih.2.cons_cons line⟩
    | remove line => exact ⟨ih.1.cons line, ih.2⟩
    | insert line => exact ⟨ih.1, ih.2.cons line⟩

theorem countP_diffLines (old new : List Text) :
    (diffLines old new).countP DiffOp.isEqual = lcs old new := by
  induction old, new using diffLines.induct with
  | case1 news => simp [diffLines, lcs, DiffOp.isEqual]
  | case2 old olds => simp [diffLines, lcs, DiffOp.isEqual]
  | case3 olds new news ih => rw [diffLines, lcs, if_pos rfl, if_pos rfl, countP_cons_of_pos rfl, ih]
  | case4 old olds new news differs longer ih =>
    rw [diffLines, lcs, if_neg differs, if_neg differs, if_pos longer,
      countP_cons_of_neg (by simp [DiffOp.isEqual]), ih, max_eq_left longer]
  | case5 old olds new news differs shorter ih =>
    rw [diffLines, lcs, if_neg differs, if_neg differs, if_neg shorter, countP_cons_of_neg (by simp [DiffOp.isEqual]), ih,
      max_eq_right (not_le.mp shorter).le]

theorem length_le_lcs {common old new : List Text} (inOld : common <+ old) (inNew : common <+ new) :
    common.length ≤ lcs old new := by
  induction old, new using lcs.induct generalizing common with
  | case1 new => simp [sublist_nil.mp inOld]
  | case2 old olds => simp [sublist_nil.mp inNew]
  | case3 olds new news ih =>
    have rest := ih inOld.tail inNew.tail
    rw [lcs, if_pos rfl]
    rw [length_tail] at rest
    omega
  | case4 old olds new news differs fewer other =>
    rw [lcs, if_neg differs]
    cases inOld with
    | cons _ later => exact (fewer later inNew).trans (le_max_left _ _)
    | cons_cons _ later =>
      cases inNew with
      | cons _ further => exact (other (later.cons_cons old) further).trans (le_max_right _ _)
      | cons_cons _ _ => exact absurd rfl differs

/-- The preview keeps as many lines as any common subsequence has. -/
theorem diffLines_keeps_longest (old new : List Text) :
    traceback (dpTable old new) 0 0 old new = diffLines old new ∧
      IsGreatest {kept | ∃ common : List Text, common <+ old ∧ common <+ new ∧ common.length = kept}
        ((diffLines old new).countP DiffOp.isEqual) := by
  refine ⟨traceback_dpTable (Nat.zero_le _) (Nat.zero_le _) rfl rfl,
    ⟨(diffLines old new).filterMap DiffOp.kept?, ?_, ?_, (countP_isEqual _).symm⟩, ?_⟩
  · have kept := (kept_sublist (diffLines old new)).1
    rwa [oldSide_diffLines] at kept
  · have kept := (kept_sublist (diffLines old new)).2
    rwa [newSide_diffLines] at kept
  · rintro _ ⟨common, inOld, inNew, rfl⟩
    rw [countP_diffLines]
    exact length_le_lcs inOld inNew

theorem length_sides (ops : List DiffOp) : (oldSide ops).length + (newSide ops).length =
    2 * ops.countP DiffOp.isEqual + ops.countP (!DiffOp.isEqual ·) := by
  induction ops with
  | nil => rfl
  | cons op rest ih =>
    rw [countP_cons, countP_cons]
    cases op <;> simp [oldSide, newSide, filterMap_cons, DiffOp.old?, DiffOp.new?, DiffOp.isEqual] at ih ⊢ <;> omega

/-- The script leads from the one text to the other, and no script that does changes fewer lines. -/
theorem diffLines_shortest (old new : List Text) :
    oldSide (diffLines old new) = old ∧ newSide (diffLines old new) = new ∧
      ∀ ops, oldSide ops = old → newSide ops = new →
        (diffLines old new).countP (!DiffOp.isEqual ·) ≤ ops.countP (!DiffOp.isEqual ·) := by
  refine ⟨oldSide_diffLines old new, newSide_diffLines old new, ?_⟩
  rintro ops rfl rfl
  have most := length_le_lcs (kept_sublist ops).1 (kept_sublist ops).2
  rw [← countP_isEqual, ← countP_diffLines] at most
  have shown := length_sides (diffLines (oldSide ops) (newSide ops))
  rw [oldSide_diffLines, newSide_diffLines, length_sides] at shown
  omega

end Atlas.Refactor
