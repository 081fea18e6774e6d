import Mathlib.Data.Finset.Basic

/-! Walks of a counted length, and the nodes within a distance. -/
namespace Atlas.Program
open List

inductive Walk {Node : Type} (step : Node → Node → Prop) : Nat → Node → Node → Prop where
  | nil (node : Node) : Walk step 0 node node
  | snoc {length : Nat} {start middle last : Node} (walk : Walk step length start middle) (edge :
    step middle last) : Walk step (length + 1) start last

def Within {Node : Type} (step : Node → Node → Prop) (sources : Node → Prop) (radius : Nat) (node :
    Node) : Prop := ∃ source length, sources source ∧ length ≤ radius ∧ Walk step length source node

/-! Breadth-first search from several sources at once. A node gets an entry when it is first
reached, which keeps the round and the source that reached it. -/

structure Explorer (Node Item Entry : Type) where
  around : Node → List Item
  node : Item → Node
  make : Item → Nat → Node → Entry
  key : Entry → Node
  round : Entry → Nat
  source : Entry → Node
  key_make : ∀ item round source, key (make item round source) = node item
  round_make : ∀ item hop source, round (make item hop source) = hop
  source_make : ∀ item round start, source (make item round start) = start

namespace Explorer

section
variable {Node Item Entry : Type} [DecidableEq Node] (explorer : Explorer Node Item Entry)

def visit (round : Nat) (source : Node) (state : List Entry × List (Node × Node)) (item : Item) :
    List Entry × List (Node × Node) :=
  if explorer.node item ∈ state.1.map explorer.key then state
  else (state.1 ++ [explorer.make item round source], state.2 ++ [(explorer.node item, source)])

def expand (round : Nat) (state : List Entry × List (Node × Node)) (entry : Node × Node) :
    List Entry × List (Node × Node) :=
  (explorer.around entry.1).foldl (explorer.visit round entry.2) state
def sweep (round : Nat) (frontier : List (Node × Node)) (results : List Entry) :
    List Entry × List (Node × Node) := frontier.foldl (explorer.expand round) (results, [])

def search (full : List Entry → Bool) : Nat → Nat → List (Node × Node) → List Entry → List Entry
  | _, 0, _, results => results
  | round, rounds + 1, frontier, results =>
    if frontier.isEmpty || full results then results
    else
      let swept := explorer.sweep round frontier results
      search full (round + 1) rounds swept.2 swept.1

def Step (before after : Node) : Prop := ∃ item ∈ explorer.around before, explorer.node item = after

structure Added (round : Nat) (part : List (Node × Node))
    (before after : List Entry × List (Node × Node)) (added : List Entry) : Prop where
  results : after.1 = before.1 ++ added
  frontier : after.2 = before.2 ++ added.map fun entry => (explorer.key entry, explorer.source entry)
  made : ∀ entry ∈ added, ∃ front ∈ part, ∃ item ∈ explorer.around front.1, entry = explorer.make item round front.2
  distinct : (before.1.map explorer.key).Nodup → (after.1.map explorer.key).Nodup
  fresh : ∀ entry ∈ added, explorer.key entry ∉ before.1.map explorer.key

variable {explorer} {round : Nat} {before middle after : List Entry × List (Node × Node)}
  {part others : List (Node × Node)}

omit [DecidableEq Node] in
theorem Added.nothing : explorer.Added round part before before [] where
  results := (append_nil _).symm
  frontier := (append_nil _).symm
  made := nofun
  distinct := id
  fresh := nofun

omit [DecidableEq Node] in
theorem Added.append {first second : List Entry}
    (left : explorer.Added round part before middle first)
    (right : explorer.Added round others middle after second) :
    explorer.Added round (part ++ others) before after (first ++ second) where
  results := by rw [right.results, left.results, append_assoc]
  frontier := by rw [right.frontier, left.frontier, map_append, append_assoc]
  made entry mem := by
    rcases mem_append.mp mem with old | new
    · obtain ⟨front, isFront, made⟩ := left.made entry old
      exact ⟨front, mem_append_left _ isFront, made⟩
    · obtain ⟨front, isFront, made⟩ := right.made entry new
      exact ⟨front, mem_append_right _ isFront, made⟩
  distinct start := right.distinct (left.distinct start)
  fresh entry mem := by
    rcases mem_append.mp mem with old | new
    · exact left.fresh entry old
    · intro known
      refine right.fresh entry new ?_
      rw [left.results, map_append]
      exact mem_append_left _ known

omit [DecidableEq Node] in
theorem Added.keys_subset {added : List Entry}
    (step : explorer.Added round part before after added) :
    before.1.map explorer.key ⊆ after.1.map explorer.key := by
  rw [step.results, map_append]
  exact subset_append_left _ _

theorem visit_added {entry : Node × Node} {item : Item}
    (inside : item ∈ explorer.around entry.1) (state : List Entry × List (Node × Node)) :
    (∃ added, explorer.Added round [entry] state (explorer.visit round entry.2 state item) added) ∧
      explorer.node item ∈ (explorer.visit round entry.2 state item).1.map explorer.key := by
  unfold visit
  split
  · rename_i known
    exact ⟨⟨[], .nothing⟩, known⟩
  · rename_i new
    have key := explorer.key_make item round entry.2
    refine ⟨⟨[explorer.make item round entry.2], rfl, ?_, ?_, ?_, ?_⟩, ?_⟩
    · rw [map_singleton, key, explorer.source_make]
    · intro made mem
      exact ⟨entry, mem_singleton_self _, item, inside, mem_singleton.mp mem⟩
    · intro distinct
      rw [map_append, map_singleton, key, nodup_append]
      refine ⟨distinct, nodup_singleton _, ?_⟩
      rintro old isOld _ isNew rfl
      exact new (mem_singleton.mp isNew ▸ isOld)
    · intro made mem
      obtain rfl := mem_singleton.mp mem
      rwa [key]
    · rw [map_append, map_singleton, key]
      exact mem_append_right _ (mem_singleton_self _)

theorem expand_added (state : List Entry × List (Node × Node)) (entry : Node × Node) :
    (∃ added, explorer.Added round [entry] state (explorer.expand round state entry) added) ∧
      ∀ node, explorer.Step entry.1 node →
      node ∈ (explorer.expand round state entry).1.map explorer.key := by
  have visits : ∀ (items : List Item), (∀ item ∈ items, item ∈ explorer.around entry.1) →
      ∀ state, (∃ added, explorer.Added round [entry] state (items.foldl (explorer.visit round entry.2) state) added) ∧
        ∀ item ∈ items, explorer.node item ∈ (items.foldl (explorer.visit round entry.2) state).1.map explorer.key := by
    intro items
    induction items with
    | nil => exact fun _ state => ⟨⟨[], .nothing⟩, nofun⟩
    | cons item rest ih =>
      intro inside state
      obtain ⟨⟨first, left⟩, known⟩ := @visit_added _ _ _ _ explorer round entry item (inside item (.head _)) state
      obtain ⟨⟨second, right⟩, others⟩ :=
        ih (fun other mem => inside other (.tail _ mem)) (explorer.visit round entry.2 state item)
      obtain ⟨added, both⟩ : ∃ added, explorer.Added round ([entry] ++ [entry]) state
        ((item :: rest).foldl (explorer.visit round entry.2) state) added := ⟨_, left.append right⟩
      refine ⟨⟨added, both.results, both.frontier, ?_, both.distinct, both.fresh⟩, ?_⟩
      · intro made mem
        obtain ⟨front, isFront, built⟩ := both.made made mem
        refine ⟨front, ?_, built⟩
        rcases mem_append.mp isFront with one | one <;> exact one
      · intro other mem
        rcases mem_cons.mp mem with rfl | behind
        · exact right.keys_subset known
        · exact others other behind
  obtain ⟨added, known⟩ := visits (explorer.around entry.1) (fun _ mem => mem) state
  refine ⟨added, ?_⟩
  rintro node ⟨item, inside, rfl⟩
  exact known item inside

theorem sweep_added (frontier : List (Node × Node)) (results : List Entry) : (∃ added,
    explorer.Added round frontier (results, []) (explorer.sweep round frontier results) added) ∧
      ∀ entry ∈ frontier, ∀ node, explorer.Step entry.1 node →
        node ∈ (explorer.sweep round frontier results).1.map explorer.key := by
  have sweeps : ∀ (frontier : List (Node × Node)) (state : List Entry × List (Node × Node)),
    (∃ added,
    explorer.Added round frontier state (frontier.foldl (explorer.expand round) state) added) ∧
        ∀ entry ∈ frontier, ∀ node, explorer.Step entry.1 node →
          node ∈ (frontier.foldl (explorer.expand round) state).1.map explorer.key := by
    intro frontier
    induction frontier with
    | nil => exact fun state => ⟨⟨[], .nothing⟩, nofun⟩
    | cons entry rest ih =>
      intro state
      obtain ⟨⟨first, left⟩, known⟩ := @expand_added _ _ _ _ explorer round state entry
      obtain ⟨⟨second, right⟩, others⟩ := ih (explorer.expand round state entry)
      refine ⟨⟨first ++ second, left.append right⟩, ?_⟩
      intro front mem node step
      rcases mem_cons.mp mem with rfl | behind
      · exact right.keys_subset (known node step)
      · exact others front behind node step
  exact sweeps frontier (results, [])

/-- Exactly the nodes within the radius, each once and with its distance. -/
structure Exact (explorer : Explorer Node Item Entry)
    (sources : Node → Prop) (radius : Nat) (results : List Entry) : Prop where
  distinct : (results.map explorer.key).Nodup
  reached : ∀ entry ∈ results, explorer.round entry ≤ radius ∧ sources (explorer.source entry) ∧
    Walk explorer.Step (explorer.round entry) (explorer.source entry) (explorer.key entry)
  least : ∀ entry ∈ results, ∀ length source, sources source →
    Walk explorer.Step length source (explorer.key entry) → explorer.round entry ≤ length
  complete : ∀ node, Within explorer.Step sources radius node → node ∈ results.map explorer.key

structure Layered (explorer : Explorer Node Item Entry) (sources : Node → Prop)
    (radius : Nat) (results : List Entry) (frontier : List (Node × Node)) : Prop
    extends Exact explorer sources radius results where
  outer : ∀ entry ∈ results, explorer.round entry = radius → (explorer.key entry, explorer.source entry) ∈ frontier
  front : ∀ entry ∈ frontier, sources entry.2 ∧ Walk explorer.Step radius entry.2 entry.1

variable {sources : Node → Prop}
  {radius limit : Nat} {results : List Entry} {frontier : List (Node × Node)}

omit [DecidableEq Node] in
theorem Exact.within_iff (exact' : Exact explorer sources radius results) {node : Node} :
    node ∈ results.map explorer.key ↔ Within explorer.Step sources radius node := by
  refine ⟨fun mem => ?_, exact'.complete node⟩
  obtain ⟨entry, isEntry, rfl⟩ := mem_map.mp mem
  obtain ⟨bounded, isSource, walk⟩ := exact'.reached entry isEntry
  exact ⟨_, _, isSource, bounded, walk⟩

theorem Layered.sweep (layered : Layered explorer sources radius results frontier) :
    Layered explorer sources (radius + 1) (explorer.sweep (radius + 1) frontier results).1
      (explorer.sweep (radius + 1) frontier results).2 := by
  obtain ⟨⟨added, swept⟩, covered⟩ := @sweep_added _ _ _ _ explorer (radius + 1) frontier results
  generalize explorer.sweep (radius + 1) frontier results = state at swept covered ⊢
  have shape : state.1 = results ++ added := swept.results
  have next : state.2 = added.map fun entry => (explorer.key entry, explorer.source entry) := by rw [swept.frontier, nil_append]
  have walks : ∀ entry ∈ added, explorer.round entry = radius + 1 ∧ sources (explorer.source
    entry) ∧ Walk explorer.Step (radius + 1) (explorer.source entry) (explorer.key entry) := by
    intro entry mem
    obtain ⟨front, isFront, item, inside, rfl⟩ := swept.made entry mem
    obtain ⟨isSource, walk⟩ := layered.front front isFront
    rw [explorer.source_make, explorer.key_make]
    exact ⟨explorer.round_make _ _ _, isSource, walk.snoc ⟨item, inside, rfl⟩⟩
  constructor
  · constructor
    · exact swept.distinct layered.distinct
    · intro entry mem
      rw [shape] at mem
      rcases mem_append.mp mem with old | new
      · obtain ⟨bounded, isSource, walk⟩ := layered.reached entry old
        exact ⟨Nat.le_succ_of_le bounded, isSource, walk⟩
      · obtain ⟨same, isSource, walk⟩ := walks entry new
        rw [same]
        exact ⟨le_rfl, isSource, walk⟩
    · intro entry mem length source isSource walk
      rw [shape] at mem
      rcases mem_append.mp mem with old | new
      · exact layered.least entry old length source isSource walk
      · rw [(walks entry new).1]
        by_contra shorter
        refine swept.fresh entry new (layered.complete _ ⟨source, length, isSource, ?_, walk⟩)
        omega
    · rintro node ⟨source, length, isSource, bounded, walk⟩
      by_cases near : length ≤ radius
      · exact swept.keys_subset (layered.complete node ⟨source, length, isSource, near, walk⟩)
      · obtain rfl : length = radius + 1 := by omega
        cases walk with
        | @snoc _ _ middle _ walk step =>
          -- the node before is in some layer: the outermost one, or one whose steps stay inside
          have inner := layered.complete middle ⟨source, radius, isSource, le_rfl, walk⟩
          obtain ⟨entry, isEntry, rfl⟩ := mem_map.mp inner
          obtain ⟨below, entrySource, entryWalk⟩ := layered.reached entry isEntry
          by_cases edge : explorer.round entry = radius
          · exact covered _ (layered.outer entry isEntry edge) node step
          · refine swept.keys_subset (layered.complete node ⟨_, _, entrySource, ?_, entryWalk.snoc step⟩)
            omega
  · intro entry mem edge
    rw [shape] at mem
    rcases mem_append.mp mem with old | new
    · have bounded := (layered.reached entry old).1
      omega
    · rw [next]
      exact mem_map_of_mem new
  · intro front mem
    rw [next] at mem
    obtain ⟨entry, isEntry, rfl⟩ := mem_map.mp mem
    exact (walks entry isEntry).2

theorem Layered.exhausted (layered : Layered explorer sources radius results []) (rounds : Nat) :
    Exact explorer sources (radius + rounds) results := by
  induction rounds generalizing radius with
  | zero => exact layered.toExact
  | succ rounds ih =>
    have further := ih layered.sweep
    rwa [Nat.add_assoc, Nat.add_comm 1 rounds] at further

def Fits (limit : Nat) (P : Node → Prop) : Prop :=
  ∀ nodes : List Node, nodes.Nodup → (∀ node ∈ nodes, P node) → nodes.length ≤ limit

omit [DecidableEq Node] in
theorem fits_of_forall_mem {P : Node → Prop}
    {nodes : List Node} (inside : ∀ node, P node → node ∈ nodes) (few : nodes.length ≤ limit) :
    Fits limit P := fun _ distinct all =>
  (distinct.length_le_of_subset fun node mem => inside node (all node mem)).trans few

theorem Exact.full {larger : Nat} (exact' : Exact explorer sources radius results)
    (further : radius ≤ larger) (fits : Fits limit (Within explorer.Step sources larger))
    (full : limit ≤ results.length) : Exact explorer sources larger results where
  distinct := exact'.distinct
  reached entry mem := by
    obtain ⟨bounded, rest⟩ := exact'.reached entry mem
    exact ⟨bounded.trans further, rest⟩
  least := exact'.least
  complete node near := by
    by_contra missing
    have more := fits (node :: results.map explorer.key) (nodup_cons.mpr ⟨missing, exact'.distinct⟩) (by
      intro other mem
      rcases mem_cons.mp mem with rfl | inside
      · exact near
      · obtain ⟨source, length, isSource, bounded, walk⟩ := exact'.within_iff.mp inside
        exact ⟨source, length, isSource, bounded.trans further, walk⟩)
    rw [length_cons, length_map] at more
    omega

theorem Layered.search {rounds : Nat} (layered : Layered explorer sources radius results frontier)
    (fits : Fits limit (Within explorer.Step sources (radius + rounds))) :
    Exact explorer sources (radius + rounds) (explorer.search
      (fun found => decide (limit ≤ found.length)) (radius + 1) rounds frontier results) := by
  induction rounds generalizing radius results frontier with
  | zero => exact layered.toExact
  | succ rounds ih =>
    rw [Explorer.search]
    split
    · rename_i stops
      rcases Bool.or_eq_true_iff.mp stops with empty | full
      · obtain rfl := isEmpty_iff.mp empty
        exact layered.exhausted (rounds + 1)
      · exact layered.toExact.full (Nat.le_add_right _ _) fits (of_decide_eq_true full)
    · rw [← Nat.add_assoc, Nat.add_right_comm] at fits ⊢
      exact ih layered.sweep fits

theorem mem_search {full : List Entry → Bool} {rounds : Nat}
    {entry : Entry} (mem : entry ∈ explorer.search full round rounds frontier results) :
    entry ∈ results ∨ ∃ front item hop source, item ∈ explorer.around front ∧ entry = explorer.make item hop source := by
  induction rounds generalizing round results frontier with
  | zero => exact .inl mem
  | succ rounds ih =>
    rw [Explorer.search] at mem
    split at mem
    · exact .inl mem
    · rcases ih mem with old | made
      · obtain ⟨⟨added, swept⟩, _⟩ := @sweep_added _ _ _ _ explorer round frontier results
        rw [swept.results] at old
        rcases mem_append.mp old with old | new
        · exact .inl old
        · obtain ⟨front, _, item, inside, made⟩ := swept.made entry new
          exact .inr ⟨front.1, item, round, front.2, inside, made⟩
      · exact .inr made

end
end Explorer

end Atlas.Program
