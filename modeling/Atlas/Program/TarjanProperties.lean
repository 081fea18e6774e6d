import Atlas.Program.Tarjan

/-! Every call of the search keeps the invariant, and with fuel for every node it ends. -/
namespace Atlas.Program.Tarjan
open List Nat Function

section
variable {Node : Type} {emit : Node → List Node → List (List Node)} {next : Node → List Node}
  {nodes : Finset Node} {openNodes : List Node} {state before after : State Node} {node other : Node}
  {index : Nat}

theorem visited_iff :
    Visited state node ↔ ∃ index, state.indices node = some index := Option.isSome_iff_exists

theorem rank_eq (entry : state.indices node = some index) : rank state node = index := by
  rw [rank, entry]
  rfl

theorem Extends.refl (state : State Node) : Extends state state := fun _ _ => ⟨rfl, rfl⟩

theorem Extends.visited (extend : Extends before after) (seen : Visited before node) :
    Visited after node := by
  rw [Visited, (extend node seen).1]
  exact seen

theorem Extends.rank (extend : Extends before after) (seen : Visited before node) :
    rank after node = rank before node := by
  rw [Tarjan.rank, (extend node seen).1]
  rfl

theorem Extends.trans {last : State Node}
    (extend : Extends before after) (later : Extends after last) : Extends before last := by
  intro node seen
  have again := later node (extend.visited seen)
  have once := extend node seen
  exact ⟨again.1.trans once.1, again.2.trans once.2⟩

theorem Valid.nodup (valid : Valid emit next nodes openNodes state) : state.stack.Nodup := by
  refine valid.descending.imp ?_
  intro upper lower less same
  rw [same] at less
  exact absurd less (lt_irrefl _)

theorem Valid.of_lowlink (valid : Valid emit next nodes openNodes state)
    (lowlink : Node → Option Nat) :
    Valid emit next nodes openNodes { state with lowlink := lowlink } := by
  obtain ⟨pops, collected⟩ := valid.collected
  exact
    { numbered := valid.numbered
      stacked := valid.stacked
      descending := valid.descending
      marked := valid.marked
      pending := valid.pending
      seen := valid.seen
      settled := valid.settled
      upward := valid.upward
      downward := valid.downward
      collected := ⟨pops, collected.components, collected.complete, collected.rooted,
        collected.distinct, collected.members⟩ }

variable {done : List Node} {target : Node}

theorem Scanning.visited (scanning : Scanning emit next nodes openNodes node before done state) :
    Visited state node := visited_iff.mpr ⟨_, scanning.own⟩

theorem Scanning.skip (scanning : Scanning emit next nodes openNodes node before done state)
    (seen : Visited state target) (offStack : target ∉ state.stack) :
    Scanning emit next nodes openNodes node before (done ++ [target]) state := by
  obtain ⟨fresh, low, stack, entry, bounded, lowest, edges, finished⟩ := scanning.result
  refine ⟨scanning.valid, scanning.kept, scanning.entered, scanning.own, fresh, low, stack, entry, bounded, lowest, edges, ?_⟩
  intro other isDone
  rcases mem_append.mp isDone with earlier | last
  · exact finished other earlier
  · cases mem_singleton.mp last
    refine ⟨seen, fun inBefore => absurd ?_ offStack⟩
    rw [stack]
    exact mem_append_right _ (.tail _ inBefore)

/-! ## Entering a node -/

section
variable [DecidableEq Node]

theorem visited_enter : Visited (enter node state) other ↔ other = node ∨ Visited state other := by
  unfold Visited enter
  by_cases same : other = node
  all_goals simp [same]

theorem rank_enter_self : rank (enter node state) node = state.index := rank_eq (update_self ..)

theorem extends_enter (fresh : ¬ Visited state node) : Extends state (enter node state) := by
  intro other seen
  have differ : other ≠ node := by
    rintro rfl
    exact fresh seen
  exact ⟨update_of_ne differ .., update_of_ne differ ..⟩

section
variable (valid : Valid emit next nodes openNodes state) (fresh : ¬ Visited state node)
  (inside : node ∈ nodes) (reached : ∀ opened ∈ openNodes, Reaches next opened node)
include valid fresh inside reached

theorem Valid.enter : Valid emit next nodes (node :: openNodes) (enter node state) := by
  have kept := extends_enter fresh
  have below : ∀ lower ∈ state.stack, rank (Tarjan.enter node state) lower < rank (Tarjan.enter node state) node := by
    intro lower onStack
    rw [rank_enter_self, kept.rank (valid.stacked lower onStack)]
    exact (valid.numbered lower (valid.stacked lower onStack)).1
  have offStack : node ∉ state.stack := fun onStack => fresh (valid.stacked node onStack)
  constructor
  · intro other seen
    rcases visited_enter.mp seen with rfl | old
    · rw [rank_enter_self]
      exact ⟨lt_succ_self _, inside⟩
    · rw [kept.rank old]
      exact ⟨lt_succ_of_lt (valid.numbered other old).1, (valid.numbered other old).2⟩
  · intro other onStack
    rw [visited_enter]
    exact (mem_cons.mp onStack).imp_right (valid.stacked other)
  · refine pairwise_cons.mpr ⟨below, valid.descending.imp_of_mem ?_⟩
    intro upper lower inUpper inLower less
    rwa [kept.rank (valid.stacked upper inUpper), kept.rank (valid.stacked lower inLower)]
  · intro other
    change update state.onStack node true other = true ↔ other ∈ node :: state.stack
    by_cases same : other = node
    · simp [same]
    · simp [same, valid.marked]
  · intro other opened
    exact mem_cons.mpr ((mem_cons.mp opened).imp_right (valid.pending other))
  · intro other seen closed neighbor edge
    rw [mem_cons, not_or] at closed
    have old := (visited_enter.mp seen).resolve_left closed.1
    exact visited_enter.mpr (.inr (valid.seen other old closed.2 neighbor edge))
  · intro other seen popped neighbor edge
    have popped : other ∉ node :: state.stack := popped
    rw [mem_cons, not_or] at popped
    have old := (visited_enter.mp seen).resolve_left popped.1
    change neighbor ∉ node :: state.stack
    rw [mem_cons, not_or]
    refine ⟨?_, valid.settled other old popped.2 neighbor edge⟩
    rintro rfl
    exact fresh (valid.seen other old (fun opened => popped.2 (valid.pending other opened)) _ edge)
  · refine pairwise_cons.mpr ⟨?_, valid.upward⟩
    intro lower onStack
    obtain ⟨opened, isOpen, _, down⟩ := valid.downward lower onStack
    exact down.trans (reached opened isOpen)
  · intro other onStack
    rcases mem_cons.mp onStack with rfl | old
    · exact ⟨other, .head _, le_rfl, .refl⟩
    · obtain ⟨opened, isOpen, lower, down⟩ := valid.downward other old
      refine ⟨opened, .tail _ isOpen, ?_, down⟩
      rwa [kept.rank (valid.stacked other old), kept.rank (valid.stacked opened (valid.pending opened isOpen))]
  · obtain ⟨pops, collected⟩ := valid.collected
    refine ⟨pops, collected.components, collected.complete, collected.rooted, collected.distinct, ?_⟩
    intro other
    rw [collected.members, visited_enter]
    change _ ↔ _ ∧ other ∉ node :: state.stack
    rw [mem_cons, not_or]
    constructor
    · intro ⟨seen, popped⟩
      refine ⟨.inr seen, ?_, popped⟩
      rintro rfl
      exact fresh seen
    · intro ⟨seen, differ, popped⟩
      exact ⟨seen.resolve_left differ, popped⟩

theorem Scanning.enter : Scanning emit next nodes openNodes node state [] (enter node state) where
  valid := valid.enter fresh inside reached
  kept := extends_enter fresh
  entered := fresh
  own := update_self ..
  result := ⟨[], state.index, rfl, update_self .., le_rfl, ⟨node, .head _, rank_enter_self, .refl⟩, by simp, by simp⟩

end

/-! ## Going through the neighbours -/

theorem lower_eq {low bound : Nat} (entry : state.lowlink node = some low) :
    lower node bound state =
      some { state with lowlink := update state.lowlink node (some (min low bound)) } := by
  unfold lower
  rw [entry]
  rfl

theorem Scanning.lower (scanning : Scanning emit next nodes openNodes node before done state)
    (seen : Visited state target) (onStack : target ∈ state.stack) (edge : target ∈ next node) :
    ∃ after, lower node (rank state target) state = some after ∧
      Scanning emit next nodes openNodes node before (done ++ [target]) after := by
  obtain ⟨fresh, low, stack, entry, bounded, ⟨lowest, lowestOn, lowestRank, lowestReached⟩, edges, finished⟩ := scanning.result
  refine ⟨_, lower_eq entry, scanning.valid.of_lowlink _, ?_, scanning.entered, scanning.own, fresh,
    min low (rank state target), stack, update_self .., ?_, ?_, ?_, ?_⟩
  · intro other old
    have differ : other ≠ node := by
      rintro rfl
      exact scanning.entered old
    exact ⟨(scanning.kept other old).1, (update_of_ne differ ..).trans (scanning.kept other old).2⟩
  · exact (min_le_left _ _).trans bounded
  · rcases le_total low (rank state target) with first | second
    · rw [min_eq_left first]
      exact ⟨lowest, lowestOn, lowestRank, lowestReached⟩
    · rw [min_eq_right second]
      exact ⟨target, onStack, rfl, .single edge⟩
  · intro source isFresh other leaves inBefore
    exact (min_le_left _ _).trans (edges source isFresh other leaves inBefore)
  · intro other isDone
    rcases mem_append.mp isDone with earlier | last
    · exact ⟨(finished other earlier).1, fun inBefore =>
        (min_le_left _ _).trans ((finished other earlier).2 inBefore)⟩
    · cases mem_singleton.mp last
      exact ⟨seen, fun _ => min_le_right _ _⟩

theorem Scanning.descend {returned : State Node}
    (scanning : Scanning emit next nodes openNodes node before done state)
    (edge : target ∈ next node) (new : ¬ Visited state target)
    (connected : Connected emit next nodes (node :: openNodes) target state returned) :
    ∃ low after, returned.lowlink target = some low ∧ Tarjan.lower node low returned = some after ∧
      Scanning emit next nodes openNodes node before (done ++ [target]) after := by
  obtain ⟨fresh, low, stack, entry, bounded, ⟨lowest, lowestOn, lowestRank, lowestReached⟩, edges, finished⟩ := scanning.result
  obtain ⟨deeper, handed, deeperStack, handedEntry, handedLow, deeperEdges⟩ := connected.result
  have ownEntry : returned.lowlink node = some low := by rw [(connected.kept node scanning.visited).2, entry]
  have sameRank : ∀ {other : Node}, Visited state other → rank returned other = rank state other :=
    fun seen => connected.kept.rank seen
  refine ⟨handed, _, handedEntry, lower_eq ownEntry, connected.valid.of_lowlink _, ?_,
    scanning.entered, ?_, deeper ++ fresh, min low handed, ?_, update_self .., ?_, ?_, ?_, ?_⟩
  · intro other old
    have differ : other ≠ node := by
      rintro rfl
      exact scanning.entered old
    have both := (scanning.kept.trans connected.kept) other old
    exact ⟨both.1, (update_of_ne differ ..).trans both.2⟩
  · exact (connected.kept node scanning.visited).1.trans scanning.own
  · change returned.stack = _
    rw [deeperStack, stack, append_assoc]
  · exact (min_le_left _ _).trans bounded
  · -- The low link of a popped neighbour is above that of the open node.
    have kept : ∃ other ∈ returned.stack, rank returned other = low ∧ Reaches next node other := by
      refine ⟨lowest, ?_, ?_, lowestReached⟩
      · rw [deeperStack]
        exact mem_append_right _ lowestOn
      · rw [sameRank (scanning.valid.stacked lowest lowestOn), lowestRank]
    rcases handedLow with above | ⟨other, onStack, otherRank, reaches⟩
    · have ownRank := (scanning.valid.numbered node scanning.visited).1
      rw [rank_eq scanning.own] at ownRank
      rw [min_eq_left (by omega)]
      exact kept
    · rcases le_total low handed with first | second
      · rw [min_eq_left first]
        exact kept
      · rw [min_eq_right second]
        exact ⟨other, onStack, otherRank, .head edge reaches⟩
  · intro source isFresh other leaves inBefore
    have stays : other ∈ state.stack := by
      rw [stack]
      exact mem_append_right _ (.tail _ inBefore)
    rcases mem_append.mp isFresh with inDeeper | inFresh
    · exact (min_le_right _ _).trans (deeperEdges source inDeeper other leaves stays)
    · refine (min_le_left _ _).trans ((edges source inFresh other leaves inBefore).trans ?_)
      exact (sameRank (scanning.valid.stacked other stays)).symm.le
  · intro other isDone
    rcases mem_append.mp isDone with earlier | last
    · obtain ⟨seen, bound⟩ := finished other earlier
      refine ⟨connected.kept.visited seen, fun inBefore => ?_⟩
      exact (min_le_left _ _).trans ((bound inBefore).trans (sameRank seen).symm.le)
    · cases mem_singleton.mp last
      refine ⟨connected.visited, fun inBefore => absurd (scanning.valid.stacked target ?_) new⟩
      rw [stack]
      exact mem_append_right _ (.tail _ inBefore)

end

/-! ## Leaving the node -/

structure Closing (emit : Node → List Node → List (List Node)) (next : Node → List Node)
    (nodes : Finset Node) (openNodes : List Node) (node : Node) (before : State Node)
    (fresh : List Node) (low : Nat) (state : State Node) : Prop where
  valid : Valid emit next nodes (node :: openNodes) state
  kept : Extends before state
  own : state.indices node = some before.index
  stack : state.stack = fresh ++ node :: before.stack
  entry : state.lowlink node = some low
  bounded : low ≤ before.index
  witness : ∃ target ∈ state.stack, rank state target = low ∧ Reaches next node target
  edges : ∀ source ∈ fresh ++ [node], ∀ target ∈ next source, target ∈ before.stack → low ≤ rank state target
  finished : ∀ target ∈ next node, Visited state target
  pending : ∀ opened ∈ openNodes, opened ∈ before.stack
  reached : ∀ opened ∈ openNodes, Reaches next opened node

namespace Closing

variable {fresh : List Node}
  {low : Nat} (closing : Closing emit next nodes openNodes node before fresh low state)

include closing

theorem mem_stack : other ∈ state.stack ↔ other ∈ fresh ++ [node] ∨ other ∈ before.stack := by
  rw [closing.stack]
  simp [or_assoc]

theorem parted : node ∉ fresh ∧ node ∉ before.stack ∧ ∀ source ∈ fresh, source ∉ before.stack := by
  have distinct := closing.valid.nodup
  rw [closing.stack, nodup_append] at distinct
  obtain ⟨_, below, apart⟩ := distinct
  refine ⟨fun inFresh => apart node inFresh node (.head _) rfl, (nodup_cons.mp below).1, ?_⟩
  intro source inFresh inBefore
  exact apart source inFresh source (.tail _ inBefore) rfl

theorem rank_lt (inBefore : other ∈ before.stack) : rank state other < before.index := by
  have ordered := closing.valid.descending
  rw [closing.stack] at ordered
  have below := (pairwise_cons.mp (pairwise_append.mp ordered).2.1).1 other inBefore
  rwa [rank_eq closing.own] at below

theorem linked (inFresh : other ∈ fresh ++ [node]) :
    Reaches next node other ∧ Reaches next other node := by
  constructor
  · rcases mem_append.mp inFresh with above | self
    · have ordered := closing.valid.upward
      rw [closing.stack] at ordered
      exact (pairwise_append.mp ordered).2.2 other above node (.head _)
    · rw [mem_singleton.mp self]
      exact .refl
  · obtain ⟨opened, isOpen, _, down⟩ := closing.valid.downward other (closing.mem_stack.mpr (.inl inFresh))
    rcases mem_cons.mp isOpen with rfl | below
    · exact down
    · exact down.trans (closing.reached opened below)

theorem seen (visited : Visited state other) (closed : other ∉ openNodes) :
    ∀ neighbor ∈ next other, Visited state neighbor := by
  by_cases self : other = node
  · subst self
    exact closing.finished
  · exact closing.valid.seen other visited (by simp [self, closed])

theorem apart (root : low = before.index) (visited : Visited state other)
    (off : other ∉ before.stack) {neighbor : Node} (edge : neighbor ∈ next other) :
    Visited state neighbor ∧ neighbor ∉ before.stack := by
  have closed : other ∉ openNodes := fun opened => off (closing.pending other opened)
  refine ⟨closing.seen visited closed neighbor edge, fun inBefore => ?_⟩
  by_cases onStack : other ∈ state.stack
  · have inFresh := (closing.mem_stack.mp onStack).resolve_right off
    have bound := closing.edges other inFresh neighbor edge inBefore
    have below := closing.rank_lt inBefore
    omega
  · exact closing.valid.settled other visited onStack neighbor edge (closing.mem_stack.mpr (.inr inBefore))

theorem component (root : low = before.index) : IsComponent next node (fresh ++ [node]) := by
  intro other
  constructor
  · exact closing.linked
  · intro ⟨reached, back⟩
    have inNode : Visited state node ∧ node ∉ before.stack := ⟨visited_iff.mpr ⟨_, closing.own⟩, closing.parted.2.1⟩
    obtain ⟨visited, off⟩ :=
      @Reaches.closed _ _ (fun other => Visited state other ∧ other ∉ before.stack)
        (fun _ inside _ edge => closing.apart root inside.1 inside.2 edge) _ _ reached inNode
    by_contra absent
    -- A popped node would keep the node off the stack as well.
    have popped : other ∉ state.stack := by
      rw [closing.mem_stack]
      exact fun onStack => onStack.elim absent off
    have gone := @Reaches.closed _ _ (fun other => Visited state other ∧ other ∉ state.stack)
      (fun inner inside neighbor edge => ⟨closing.valid.seen inner inside.1
        (fun opened => inside.2 (closing.valid.pending inner opened)) neighbor edge,
        closing.valid.settled inner inside.1 inside.2 neighbor edge⟩) _ _ back ⟨visited, popped⟩
    exact gone.2 (closing.mem_stack.mpr (.inl (by simp)))

theorem stay (lower : low ≠ before.index) : Valid emit next nodes openNodes state := by
  obtain ⟨target, onStack, targetRank, reaches⟩ := closing.witness
  -- The low link is that of a node further down, which reaches an open one.
  have below : ∃ opened ∈ openNodes, rank state opened < before.index ∧ Reaches next node opened := by
    obtain ⟨opened, isOpen, atMost, down⟩ := closing.valid.downward target onStack
    have bounded := closing.bounded
    rcases mem_cons.mp isOpen with rfl | inOpen
    · rw [rank_eq closing.own] at atMost
      omega
    · exact ⟨opened, inOpen, by omega, reaches.trans down⟩
  obtain ⟨floor, isFloor, floorRank, reachesFloor⟩ := below
  have valid := closing.valid
  refine ⟨valid.numbered, valid.stacked, valid.descending, valid.marked, ?_, ?_, valid.settled, valid.upward, ?_, valid.collected⟩
  · exact fun opened isOpen => closing.mem_stack.mpr (.inr (closing.pending opened isOpen))
  · exact fun other visited closed => closing.seen visited closed
  · intro other inStack
    obtain ⟨opened, isOpen, atMost, down⟩ := valid.downward other inStack
    rcases mem_cons.mp isOpen with rfl | inOpen
    · rw [rank_eq closing.own] at atMost
      exact ⟨floor, isFloor, by omega, down.trans reachesFloor⟩
    · exact ⟨opened, inOpen, atMost, down⟩

variable [DecidableEq Node]

omit closing in
theorem popThrough_eq {fresh rest : List Node} (apart : node ∉ fresh) :
    popThrough node (fresh ++ node :: rest) = (fresh ++ [node], rest) := by
  induction fresh with
  | nil =>
    rw [nil_append, popThrough, if_pos rfl]
    rfl
  | cons item fresh ih =>
    rw [mem_cons, not_or] at apart
    rw [cons_append, popThrough, if_neg (Ne.symm apart.1), ih apart.2]
    rfl

theorem pop (root : low = before.index) : Valid emit next nodes openNodes
      { state with
        stack := before.stack
        onStack := fun other => state.onStack other && decide (other ∉ fresh ++ [node])
        components := state.components ++ emit node (fresh ++ [node]) } := by
  have lowerStack : before.stack.Sublist state.stack := by
    rw [closing.stack]
    exact (sublist_cons_self _ _).trans (sublist_append_right _ _)
  have ⟨own, ownOff, freshOff⟩ := closing.parted
  have off : ∀ other ∈ fresh ++ [node], other ∉ before.stack := by
    intro other inFresh
    rcases mem_append.mp inFresh with above | self
    · exact freshOff other above
    · rw [mem_singleton.mp self]
      exact ownOff
  constructor
  · exact closing.valid.numbered
  · exact fun other inBefore => closing.valid.stacked other (lowerStack.subset inBefore)
  · exact closing.valid.descending.sublist lowerStack
  · intro other
    rw [Bool.and_eq_true, closing.valid.marked, closing.mem_stack, decide_eq_true_eq]
    constructor
    · intro ⟨onStack, kept⟩
      exact onStack.resolve_left kept
    · intro inBefore
      exact ⟨.inr inBefore, fun inFresh => off other inFresh inBefore⟩
  · exact closing.pending
  · exact fun other visited closed => closing.seen visited closed
  · exact fun other visited popped neighbor edge => (closing.apart root visited popped edge).2
  · exact closing.valid.upward.sublist lowerStack
  · intro other inBefore
    obtain ⟨opened, isOpen, lower, down⟩ := closing.valid.downward other (lowerStack.subset inBefore)
    rcases mem_cons.mp isOpen with rfl | below
    · have less := closing.rank_lt inBefore
      rw [rank_eq closing.own] at lower
      omega
    · exact ⟨opened, below, lower, down⟩
  · obtain ⟨pops, collected⟩ := closing.valid.collected
    have flat : (pops ++ [(node, fresh ++ [node])]).flatMap Prod.snd =
      pops.flatMap Prod.snd ++ (fresh ++ [node]) := by rw [flatMap_append, flatMap_singleton]
    refine ⟨pops ++ [(node, fresh ++ [node])], ?_, ?_, ?_, ?_, ?_⟩
    · rw [flatMap_append, flatMap_singleton, ← collected.components]
    · intro pop mem
      rcases mem_append.mp mem with earlier | last
      · exact collected.complete pop earlier
      · rw [mem_singleton.mp last]
        exact closing.component root
    · intro pop mem
      rcases mem_append.mp mem with earlier | last
      · exact collected.rooted pop earlier
      · rw [mem_singleton.mp last]
        simp
    · rw [flat, nodup_append]
      refine ⟨collected.distinct, ?_, ?_⟩
      · have distinct := closing.valid.nodup
        rw [closing.stack] at distinct
        exact distinct.sublist (List.Sublist.append_left (singleton_sublist.mpr (.head _)) _)
      · rintro other popped _ inFresh rfl
        exact ((collected.members other).mp popped).2 (closing.mem_stack.mpr (.inl inFresh))
    · intro other
      rw [flat, mem_append, collected.members, closing.mem_stack, not_or]
      constructor
      · rintro (⟨visited, _, popped⟩ | inFresh)
        · exact ⟨visited, popped⟩
        · exact ⟨closing.valid.stacked other (closing.mem_stack.mpr (.inl inFresh)), off other inFresh⟩
      · intro ⟨visited, popped⟩
        by_cases inFresh : other ∈ fresh ++ [node]
        · exact .inr inFresh
        · exact .inl ⟨visited, inFresh, popped⟩

theorem leave : ∃ after, leave emit node state = some after ∧
    Connected emit next nodes openNodes node before after := by
  have visited : Visited state node := visited_iff.mpr ⟨_, closing.own⟩
  unfold Tarjan.leave
  rw [closing.entry, closing.own]
  by_cases root : low = before.index
  · refine ⟨_, if_pos root, ?_⟩
    rw [closing.stack, popThrough_eq closing.parted.1]
    exact ⟨closing.pop root, closing.kept, visited, [], low, rfl, closing.entry, .inl root.symm.le,
      by simp⟩
  · refine ⟨_, if_neg root, closing.stay root, closing.kept, visited, fresh ++ [node], low, ?_,
      closing.entry, .inr closing.witness, closing.edges⟩
    rw [closing.stack, append_assoc]
    rfl

end Closing

theorem Scanning.closing
    (scanning : Scanning emit next nodes openNodes node before (next node) state)
    (valid : Valid emit next nodes openNodes before)
    (reached : ∀ opened ∈ openNodes, Reaches next opened node) :
    ∃ fresh low, Closing emit next nodes openNodes node before fresh low state := by
  obtain ⟨fresh, low, stack, entry, bounded, witness, edges, finished⟩ := scanning.result
  refine ⟨fresh, low, scanning.valid, scanning.kept, scanning.own, stack, entry, bounded, witness,
    ?_, fun target edge => (finished target edge).1, valid.pending, reached⟩
  intro source inFresh target edge inBefore
  rcases mem_append.mp inFresh with above | self
  · exact edges source above target edge inBefore
  · rw [mem_singleton.mp self] at edge
    exact (finished target edge).2 inBefore

def unvisited (nodes : Finset Node) (state : State Node) : Finset Node :=
  nodes.filter fun node => state.indices node = none

theorem mem_unvisited : other ∈ unvisited nodes state ↔ other ∈ nodes ∧ ¬ Visited state other := by
  unfold unvisited Visited
  rw [Finset.mem_filter, Bool.not_eq_true, Option.isSome_eq_false_iff, Option.isNone_iff_eq_none]

theorem Valid.initial : Valid emit next nodes [] ({} : State Node) where
  numbered := nofun
  stacked := nofun
  descending := .nil
  marked := fun _ => by simp
  pending := nofun
  seen := nofun
  settled := nofun
  upward := .nil
  downward := nofun
  collected := ⟨[], rfl, by simp, by simp, nodup_nil, by simp [Visited]⟩

theorem Valid.stack_eq_nil (valid : Valid emit next nodes [] state) : state.stack = [] := by
  rw [eq_nil_iff_forall_not_mem]
  intro node onStack
  obtain ⟨_, isOpen, _⟩ := valid.downward node onStack
  cases isOpen

section
variable [DecidableEq Node] {connect : Node → State Node → Option (State Node)}

theorem Scanning.visit (scanning : Scanning emit next nodes openNodes node before done state)
    (edge : target ∈ next node)
    (connects : ¬ Visited state target → ∃ after, connect target state = some after ∧
      Connected emit next nodes (node :: openNodes) target state after) :
    ∃ after, visit connect node state target = some after ∧
      Scanning emit next nodes openNodes node before (done ++ [target]) after := by
  unfold Tarjan.visit
  cases entry : state.indices target with
  | none =>
    have new : ¬ Visited state target := by simp [Visited, entry]
    obtain ⟨returned, called, connected⟩ := connects new
    obtain ⟨low, after, handed, lowered, scanned⟩ := scanning.descend edge new connected
    refine ⟨after, ?_, scanned⟩
    rw [called, Option.bind_eq_bind, Option.bind_some, handed]
    exact lowered
  | some index =>
    have seen : Visited state target := visited_iff.mpr ⟨index, entry⟩
    by_cases onStack : target ∈ state.stack
    · rw [← rank_eq entry]
      simp only [(scanning.valid.marked target).mpr onStack, if_true]
      exact scanning.lower seen onStack edge
    · have off : state.onStack target = false := by
        rw [← Bool.not_eq_true, scanning.valid.marked]
        exact onStack
      simp only [off, Bool.false_eq_true, if_false]
      exact ⟨state, rfl, scanning.skip seen onStack⟩

theorem Scanning.visitAll {todo : List Node}
    (scanning : Scanning emit next nodes openNodes node before done state)
    (split : done ++ todo = next node)
    (connects : ∀ done current target, Scanning emit next nodes openNodes node before done current →
      target ∈ next node → ¬ Visited current target → ∃ after, connect target current = some after ∧
        Connected emit next nodes (node :: openNodes) target current after) :
    ∃ after, todo.foldlM (Tarjan.visit connect node) state = some after ∧
      Scanning emit next nodes openNodes node before (next node) after := by
  induction todo generalizing done state with
  | nil =>
    rw [append_nil] at split
    rw [← split]
    exact ⟨state, rfl, scanning⟩
  | cons target rest ih =>
    have edge : target ∈ next node := by
      rw [← split]
      exact mem_append_right _ (.head _)
    obtain ⟨middle, visited, reached⟩ := scanning.visit edge fun new => connects done state target scanning edge new
    obtain ⟨after, ran, scanned⟩ := ih reached (by rw [append_assoc]; exact split)
    refine ⟨after, ?_, scanned⟩
    rw [foldlM_cons, visited]
    exact ran

section
variable (closed : ∀ node ∈ nodes, ∀ neighbor ∈ next node, neighbor ∈ nodes)
include closed

theorem strongConnect_connects (fuel : Nat)
    (valid : Valid emit next nodes openNodes state) (new : ¬ Visited state node)
    (inside : node ∈ nodes) (reached : ∀ opened ∈ openNodes, Reaches next opened node)
    (enough : (unvisited nodes state).card ≤ fuel) :
    ∃ after, strongConnect emit next fuel node state = some after ∧ Connected emit next nodes openNodes node state after := by
  induction fuel generalizing openNodes state node with
  | zero =>
    rw [le_zero, Finset.card_eq_zero] at enough
    have mem := mem_unvisited.mpr ⟨inside, new⟩
    rw [enough] at mem
    cases mem
  | succ fuel ih =>
    have opened := Scanning.enter valid new inside reached
    -- A nested call has one new node less.
    have connects : ∀ done current target, Scanning emit next nodes openNodes node state done
      current → target ∈ next node → ¬ Visited current target →
        ∃ after, strongConnect emit next fuel target current = some after ∧
          Connected emit next nodes (node :: openNodes) target current after := by
      intro done current target scanning edge fresh
      refine ih scanning.valid fresh (closed node inside target edge) ?_ ?_
      · intro other isOpen
        rcases mem_cons.mp isOpen with rfl | below
        · exact .single edge
        · exact (reached other below).tail edge
      · have fewer : (unvisited nodes current).card < (unvisited nodes state).card := by
          refine Finset.card_lt_card (Finset.ssubset_iff_of_subset ?_ |>.mpr ⟨node, mem_unvisited.mpr ⟨inside, new⟩, fun still =>
              (mem_unvisited.mp still).2 scanning.visited⟩)
          intro other still
          have ⟨inNodes, notYet⟩ := mem_unvisited.mp still
          exact mem_unvisited.mpr ⟨inNodes, fun before => notYet (scanning.kept.visited before)⟩
        omega
    obtain ⟨scanned, ran, scanning⟩ := opened.visitAll (nil_append _) connects
    obtain ⟨fresh, low, closing⟩ := scanning.closing valid reached
    obtain ⟨after, left, connected⟩ := closing.leave
    refine ⟨after, ?_, connected⟩
    rw [strongConnect, ran]
    exact left

theorem connectAll_visits
    {fuel : Nat} (enough : nodes.card ≤ fuel) {roots : List Node} (inside : ∀ root ∈ roots, root ∈ nodes)
    (valid : Valid emit next nodes [] state) :
    ∃ after, connectAll emit next fuel roots state = some after ∧ Valid emit next nodes [] after ∧
      Extends state after ∧ ∀ root ∈ roots, Visited after root := by
  induction roots generalizing state with
  | nil => exact ⟨state, rfl, valid, .refl state, by simp⟩
  | cons root rest ih =>
    have later := fun current => @ih current fun other mem => inside other (.tail _ mem)
    unfold connectAll
    rw [foldlM_cons]
    cases entry : state.indices root with
    | none =>
      have new : ¬ Visited state root := by simp [Visited, entry]
      obtain ⟨middle, called, connected⟩ := strongConnect_connects closed fuel valid new (inside root (.head _)) nofun
        ((Finset.card_filter_le _ _).trans enough)
      obtain ⟨after, ran, validAfter, kept, visited⟩ := later middle connected.valid
      refine ⟨after, ?_, validAfter, connected.kept.trans kept, ?_⟩
      · rw [called]
        exact ran
      · intro other mem
        rcases mem_cons.mp mem with rfl | inRest
        · exact kept.visited connected.visited
        · exact visited other inRest
    | some index =>
      obtain ⟨after, ran, validAfter, kept, visited⟩ := later state valid
      refine ⟨after, ran, validAfter, kept, ?_⟩
      intro other mem
      rcases mem_cons.mp mem with rfl | inRest
      · exact kept.visited (visited_iff.mpr ⟨index, entry⟩)
      · exact visited other inRest

theorem connectAll_components
    {fuel : Nat} (enough : nodes.card ≤ fuel) {roots : List Node} (inside : ∀ root ∈ roots, root ∈ nodes)
    (leads : ∀ node ∈ nodes, node ∈ roots ∨ ∃ root ∈ roots, node ∈ next root) :
    ∃ (after : State Node) (pops : List (Node × List Node)), connectAll emit next fuel roots {} =
      some after ∧ after.components = pops.flatMap (fun pop => emit pop.1 pop.2) ∧
      (∀ pop ∈ pops, pop.1 ∈ pop.2 ∧ IsComponent next pop.1 pop.2) ∧
      (pops.flatMap Prod.snd).Nodup ∧ ∀ node, node ∈ pops.flatMap Prod.snd ↔ node ∈ nodes := by
  obtain ⟨after, ran, valid, _, visited⟩ := connectAll_visits closed enough inside (@Valid.initial Node emit next nodes)
  obtain ⟨pops, collected⟩ := valid.collected
  refine ⟨after, pops, ran, collected.components,
    fun pop mem => ⟨collected.rooted pop mem, collected.complete pop mem⟩, collected.distinct, ?_⟩
  intro node
  rw [collected.members, valid.stack_eq_nil]
  constructor
  · intro ⟨seen, _⟩
    exact (valid.numbered node seen).2
  · intro inNodes
    refine ⟨?_, not_mem_nil⟩
    rcases leads node inNodes with isRoot | ⟨root, isRoot, edge⟩
    · exact visited node isRoot
    · exact valid.seen root (visited root isRoot) not_mem_nil node edge

end
end

end
end Atlas.Program.Tarjan
