import Atlas.Search.Filters
import Atlas.Store.Traversal

/-! `graph_expand` with the evidence it leaves on each result: the number of edges to the
nearest seed, and the seed. Names stand for nodes here, in the results and in the edges. -/
namespace Atlas.Search
open List Program Store Sql

variable {Score Embedding : Type}

structure GraphExpansionEvidence where
  hopDistance : Nat
  seedQualifiedName : Option String

structure SeededNode (Score : Type) where
  result : ScoredNode Score
  graphExpansion : Option GraphExpansionEvidence

def SeededNode.qualifiedName (seeded : SeededNode Score) : String := seeded.result.qualifiedName

def annotateGraphSeed (result : ScoredNode Score) (hopDistance : Nat) (seedQualifiedName : String) :
    SeededNode Score :=
  { result, graphExpansion := some { hopDistance, seedQualifiedName := some seedQualifiedName } }

section
variable (lib : Library Score Embedding) (db : Db)

def expansion (seeds : List Score) : Explorer String NodeRow (SeededNode Score) where
  around := fun qname => nodesConnectedTo db [qname]
  node := NodeRow.qualifiedName
  make := fun row hop seed => annotateGraphSeed { row, score := lib.hopScore seeds hop } hop seed
  key := SeededNode.qualifiedName
  round := fun seeded => (seeded.graphExpansion.map GraphExpansionEvidence.hopDistance).getD 0
  source := fun seeded => (seeded.graphExpansion.bind GraphExpansionEvidence.seedQualifiedName).getD ""
  key_make := fun _ _ _ => rfl
  round_make := fun _ _ _ => rfl
  source_make := fun _ _ _ => rfl

def sortSeededNodes (results : List (SeededNode Score)) : List (SeededNode Score) :=
  results.insertionSort fun left right =>
    lib.exceeds left.result.score right.result.score = true ∨ lib.exceeds right.result.score
      left.result.score = false ∧ left.qualifiedName ≤ right.qualifiedName

def graphExpandSeeded (seeds : List (ScoredNode Score)) (maxHops limit : Nat) :
    List (SeededNode Score) :=
  let start := insertAllOrIgnore SeededNode.qualifiedName
    (seeds.map fun seed => annotateGraphSeed seed 0 seed.qualifiedName) []
  let frontier := seeds.map fun seed => (seed.qualifiedName, seed.qualifiedName)
  (sortSeededNodes lib ((expansion lib db (seeds.map ScoredNode.score)).search
    (fun results => decide (limit ≤ results.length)) 1 maxHops frontier start)).take limit

end

/-- Two different names at the ends of an edge, in either order. A node bears the second. -/
def Adjacent (db : Db) (left right : String) : Prop :=
  left ≠ right ∧ (∃ row ∈ db.nodes, row.qualifiedName = right) ∧
    ∃ edge ∈ db.edges, edge.sourceQualified = left ∧ edge.targetQualified = right ∨
      edge.targetQualified = left ∧ edge.sourceQualified = right

/-- The source with the shortest walk to the name, and the length of that walk. -/
structure Nearest (db : Db)
    (sources : List String) (name : String) (distance : Nat) (source : String) : Prop where
  isSource : source ∈ sources
  walk : Walk (Adjacent db) distance source name
  least : ∀ other ∈ sources, ∀ length, Walk (Adjacent db) length other name → distance ≤ length

section
variable {lib : Library Score Embedding} {db : Db}

theorem step_expansion (scores : List Score) : (expansion lib db scores).Step = Adjacent db := by
  funext left right
  unfold Explorer.Step Adjacent
  rw [eq_iff_iff]
  change (∃ row ∈ nodesConnectedTo db [left], row.qualifiedName = right) ↔ _
  unfold nodesConnectedTo
  simp only [mem_filter, decide_eq_true_eq, mem_singleton]
  constructor
  · rintro ⟨row, ⟨mem, edge, other⟩, rfl⟩
    exact ⟨fun same => other same.symm, ⟨row, mem, rfl⟩, edge⟩
  · rintro ⟨other, ⟨row, mem, rfl⟩, edge⟩
    exact ⟨row, ⟨mem, edge, fun same => other same.symm⟩, rfl⟩

def seededStart (seeds : List (ScoredNode Score)) : List (SeededNode Score) := insertAllOrIgnore
    SeededNode.qualifiedName (seeds.map fun seed => annotateGraphSeed seed 0 seed.qualifiedName) []

theorem mem_seededStart {seeds : List (ScoredNode Score)}
    {seeded : SeededNode Score} (mem : seeded ∈ seededStart seeds) :
    ∃ seed ∈ seeds, seeded = annotateGraphSeed seed 0 seed.qualifiedName := by
  rcases mem_insertAllOrIgnore mem with old | new
  · cases old
  · obtain ⟨seed, isSeed, same⟩ := mem_map.mp new
    exact ⟨seed, isSeed, same.symm⟩

theorem layered_start (seeds : List (ScoredNode Score)) :
    Explorer.Layered (expansion lib db (seeds.map ScoredNode.score))
      (· ∈ seeds.map ScoredNode.qualifiedName) 0 (seededStart seeds)
      (seeds.map fun seed => (seed.qualifiedName, seed.qualifiedName)) := by
  constructor
  · constructor
    · obtain ⟨added, loop, _, nodup, _⟩ := exists_insertAllOrIgnore_eq SeededNode.qualifiedName
        (seeds.map fun seed => annotateGraphSeed seed 0 seed.qualifiedName) []
      unfold seededStart
      rw [loop]
      exact nodup
    · intro seeded mem
      obtain ⟨seed, isSeed, rfl⟩ := mem_seededStart mem
      exact ⟨le_rfl, mem_map_of_mem isSeed, .nil _⟩
    · intro seeded mem _ _ _ _
      obtain ⟨seed, _, rfl⟩ := mem_seededStart mem
      exact Nat.zero_le _
    · rintro name ⟨source, length, isSource, bounded, walk⟩
      obtain rfl := Nat.le_zero.mp bounded
      cases walk
      obtain ⟨seed, isSeed, rfl⟩ := mem_map.mp isSource
      have offered : annotateGraphSeed seed 0 seed.qualifiedName ∈ seeds.map fun seed =>
        annotateGraphSeed seed 0 seed.qualifiedName := mem_map.mpr ⟨seed, isSeed, rfl⟩
      obtain ⟨seeded, taken, same⟩ := @key_mem_insertAllOrIgnore _ _ _ SeededNode.qualifiedName _ [] _ offered
      exact mem_map.mpr ⟨seeded, taken, same⟩
  · intro seeded mem _
    obtain ⟨seed, isSeed, rfl⟩ := mem_seededStart mem
    exact mem_map.mpr ⟨seed, isSeed, rfl⟩
  · intro front mem
    obtain ⟨seed, isSeed, rfl⟩ := mem_map.mp mem
    exact ⟨mem_map_of_mem isSeed, .nil _⟩

def expandedNodes (lib : Library Score Embedding)
    (db : Db) (seeds : List (ScoredNode Score)) (maxHops limit : Nat) : List (SeededNode Score) :=
  (expansion lib db (seeds.map ScoredNode.score)).search
    (fun results => decide (limit ≤ results.length)) 1 maxHops (seeds.map fun seed =>
    (seed.qualifiedName, seed.qualifiedName)) (seededStart seeds)

variable {seeds : List (ScoredNode Score)} {maxHops limit : Nat}

section
variable (fits :
    Explorer.Fits limit (Within (Adjacent db) (· ∈ seeds.map ScoredNode.qualifiedName) maxHops))
include fits

theorem expandedNodes_exact : Explorer.Exact (expansion lib db (seeds.map ScoredNode.score)) (· ∈
    seeds.map ScoredNode.qualifiedName) maxHops (expandedNodes lib db seeds maxHops limit) := by
  rw [← Nat.zero_add maxHops, ← @step_expansion _ _ lib db (seeds.map ScoredNode.score)] at fits
  have found := (layered_start seeds).search fits
  rwa [Nat.zero_add] at found

theorem expandedNodes_within {name : String} :
    name ∈ (expandedNodes lib db seeds maxHops limit).map SeededNode.qualifiedName ↔
      Within (Adjacent db) (· ∈ seeds.map ScoredNode.qualifiedName) maxHops name := by
  rw [← @step_expansion _ _ lib db (seeds.map ScoredNode.score)]
  exact (expandedNodes_exact fits).within_iff

theorem graphExpandSeeded_perm : (graphExpandSeeded lib db seeds maxHops limit).Perm
    (expandedNodes lib db seeds maxHops limit) := by
  have sorted : (sortSeededNodes lib (expandedNodes lib db seeds maxHops limit)).Perm
    (expandedNodes lib db seeds maxHops limit) := perm_insertionSort _ _
  have few : (sortSeededNodes lib (expandedNodes lib db seeds maxHops limit)).length ≤ limit := by
    rw [sorted.length_eq, ← length_map]
    exact fits _ (expandedNodes_exact fits).distinct fun name mem => (expandedNodes_within fits).mp mem
  have whole : graphExpandSeeded lib db seeds maxHops limit =
    sortSeededNodes lib (expandedNodes lib db seeds maxHops limit) := take_of_length_le few
  rw [whole]
  exact sorted

end

theorem expandedNodes_annotated {seeded : SeededNode Score}
    (mem : seeded ∈ expandedNodes lib db seeds maxHops limit) :
    (seeded.result ∈ seeds ∨ seeded.result.row ∈ db.nodes) ∧
      ∃ distance source, seeded.graphExpansion = some ⟨distance, some source⟩ := by
  rcases Explorer.mem_search mem with start | ⟨front, row, hop, source, inside, rfl⟩
  · obtain ⟨seed, isSeed, rfl⟩ := mem_seededStart start
    exact ⟨.inl isSeed, _, _, rfl⟩
  · exact ⟨.inr (mem_filter.mp inside).1, _, _, rfl⟩

/-- Where the limit fits the names within reach, each of them has one result, with its distance
to the nearest seed and a seed so near. -/
theorem graphExpandSeeded_exact (lib : Library Score Embedding)
    (db : Db) (seeds : List (ScoredNode Score)) (maxHops limit : Nat)
    (fits : Explorer.Fits limit (Within (Adjacent db) (· ∈ seeds.map ScoredNode.qualifiedName) maxHops)) :
    ((graphExpandSeeded lib db seeds maxHops limit).map SeededNode.qualifiedName).Nodup ∧
      (∀ name, name ∈ (graphExpandSeeded lib db seeds maxHops limit).map SeededNode.qualifiedName ↔
        Within (Adjacent db) (· ∈ seeds.map ScoredNode.qualifiedName) maxHops name) ∧
      ∀ seeded ∈ graphExpandSeeded lib db seeds maxHops limit,
        (seeded.result ∈ seeds ∨ seeded.result.row ∈ db.nodes) ∧ ∃ distance source,
        seeded.graphExpansion = some ⟨distance, some source⟩ ∧
          Nearest db (seeds.map ScoredNode.qualifiedName) seeded.qualifiedName distance source := by
  have same := @graphExpandSeeded_perm _ _ lib db _ _ _ fits
  have exact' := @expandedNodes_exact _ _ lib db _ _ _ fits
  refine ⟨(same.map _).nodup_iff.mpr exact'.distinct, fun name => ?_, fun seeded mem => ?_⟩
  · rw [(same.map _).mem_iff]
    exact expandedNodes_within fits
  · rw [same.mem_iff] at mem
    obtain ⟨stored, distance, source, evidence⟩ := expandedNodes_annotated mem
    refine ⟨stored, distance, source, evidence, ?_⟩
    obtain ⟨_, isSource, walk⟩ := exact'.reached seeded mem
    have least := exact'.least seeded mem
    rw [step_expansion] at walk least
    have distanceRead : (expansion lib db (seeds.map ScoredNode.score)).round seeded = distance := by
      change (seeded.graphExpansion.map GraphExpansionEvidence.hopDistance).getD 0 = distance
      rw [evidence]
      rfl
    have sourceRead : (expansion lib db (seeds.map ScoredNode.score)).source seeded = source := by
      change (seeded.graphExpansion.bind GraphExpansionEvidence.seedQualifiedName).getD "" = source
      rw [evidence]
      rfl
    rw [distanceRead, sourceRead] at walk
    rw [sourceRead] at isSource
    rw [distanceRead] at least
    exact ⟨isSource, walk, fun other isOther length path => least length other isOther path⟩

theorem mem_of_within {sources : List String}
    {radius : Nat} {name : String} (near : Within (Adjacent db) (· ∈ sources) radius name) :
    name ∈ sources ++ db.nodes.map NodeRow.qualifiedName := by
  obtain ⟨source, length, isSource, _, walk⟩ := near
  cases walk with
  | nil => exact mem_append_left _ isSource
  | snoc _ edge =>
    obtain ⟨_, ⟨row, mem, rfl⟩, _⟩ := edge
    exact mem_append_right _ (mem_map_of_mem mem)

def sharedCallee : Db where
  nodes := [functionRow 1 "a.rs" "f", functionRow 2 "b.rs" "g", functionRow 3 "c.rs" "h",
    { functionRow 4 "b.rs" "g" with sourceRepoId := "other" }]
  edges := [callRow 1 "a.rs" "a.rs::fn::f" "b.rs::fn::g", callRow 2 "c.rs" "c.rs::fn::h" "b.rs::fn::g"]

def callerSeed : ScoredNode Nat where
  row := functionRow 1 "a.rs" "f"
  score := 5

theorem sharedCallee_expanded : ((graphExpandSeeded sampleLibrary sharedCallee [callerSeed] 2 9).map
    SeededNode.qualifiedName).Nodup ∧
      (∀ name, name ∈ (graphExpandSeeded sampleLibrary sharedCallee [callerSeed] 2 9).map SeededNode.qualifiedName ↔
        Within (Adjacent sharedCallee) (· ∈ [callerSeed].map ScoredNode.qualifiedName) 2 name) ∧
      ∀ seeded ∈ graphExpandSeeded sampleLibrary sharedCallee [callerSeed] 2 9,
        (seeded.result ∈ [callerSeed] ∨ seeded.result.row ∈ sharedCallee.nodes) ∧
        ∃ distance source, seeded.graphExpansion = some ⟨distance, some source⟩ ∧
          Nearest sharedCallee ([callerSeed].map ScoredNode.qualifiedName) seeded.qualifiedName
          distance source :=
  graphExpandSeeded_exact sampleLibrary sharedCallee [callerSeed] 2 9
    (Explorer.fits_of_forall_mem (fun _ near => mem_of_within near) (by decide))

/-- Of two nodes with one name only the first is returned. -/
theorem sharedCallee_twin_left_out :
    ¬ ∀ (db : Db) (seeds : List (ScoredNode Nat)) (maxHops limit : Nat), seeds ≠ [] →
      seeds.length + db.nodes.length ≤ limit →
        ∀ row ∈ db.nodes, Within (Adjacent db) (· ∈ seeds.map ScoredNode.qualifiedName) maxHops row.qualifiedName →
          ∃ seeded ∈ graphExpandSeeded sampleLibrary db seeds maxHops limit, seeded.result.row = row := by
  intro always
  have called : Adjacent sharedCallee "a.rs::fn::f" "b.rs::fn::g" := by
    unfold Adjacent
    decide
  obtain ⟨seeded, mem, same⟩ := always sharedCallee [callerSeed] 1 9 (by decide) (by decide)
    { functionRow 4 "b.rs" "g" with sourceRepoId := "other" } (by decide)
    ⟨"a.rs::fn::f", 1, by decide, le_rfl, .snoc (.nil _) called⟩
  have ids : (graphExpandSeeded sampleLibrary sharedCallee [callerSeed] 1 9).map
    (fun seeded => seeded.result.row.id) = [1, 2] := by decide
  have listed : seeded.result.row.id ∈ [1, 2] := ids ▸ mem_map_of_mem mem
  rw [same] at listed
  exact absurd listed (by decide)

end
end Atlas.Search
