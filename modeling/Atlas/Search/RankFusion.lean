import Atlas.Content.Artifact
import Atlas.Program.RankFusion
import Atlas.Search.Filters

/-! `reciprocal_rank_fusion` breaks ties by the qualified name and `rrf_merge` does not, so the
order of a hash map shows in what the content store returns. -/
namespace Atlas.Search
open Program Sql Store
open Content.Artifact (ChunkResult rankScores rrfK rrfMerge)

private theorem rankScores_accumulates : Accumulates rrfK ChunkResult.chunkId Prod.fst Prod.snd
    (fun entry : ChunkResult × Nat => (entry.1.chunkId, 0 + 1 / ((rrfK : ℚ) + entry.2 + 1)))
      fun entry old => (old.1, old.2 + 1 / ((rrfK : ℚ) + entry.2 + 1)) where
  freshKey _ := rfl
  freshScore _ := zero_add _
  combineKey _ _ := rfl
  combineScore _ _ := rfl

section
variable {listA listB : List ChunkResult}

def heldItems (listA listB : List ChunkResult) : List ChunkResult :=
  insertAllOrIgnore ChunkResult.chunkId listB (insertAllOrIgnore ChunkResult.chunkId listA [])

private theorem mem_of_held {chunk : ChunkResult} (held : chunk ∈ heldItems listA listB) :
    chunk ∈ listA ++ listB := by
  apply List.mem_append.mpr
  rcases mem_insertAllOrIgnore held with first | second
  · rcases mem_insertAllOrIgnore first with none | first
    · cases none
    · exact .inl first
  · exact .inr second

private theorem held_of_ranked {wanted : String}
    (ranked : wanted ∈ listA.map ChunkResult.chunkId ++ listB.map ChunkResult.chunkId) :
    ∃ chunk, lookup ChunkResult.chunkId (heldItems listA listB) wanted = some chunk := by
  apply Option.isSome_iff_exists.mp
  rw [lookup_isSome_iff, List.mem_map]
  rw [← List.map_append] at ranked
  obtain ⟨chunk, mem, rfl⟩ := List.mem_map.mp ranked
  rcases List.mem_append.mp mem with first | second
  · obtain ⟨row, inside, same⟩ := @key_mem_insertAllOrIgnore _ _ _ ChunkResult.chunkId listA [] chunk first
    exact ⟨row, mem_insertAllOrIgnore_of_mem inside, same⟩
  · exact key_mem_insertAllOrIgnore second

def readChunks (listA listB : List ChunkResult) (entries : List (String × ℚ)) : List ChunkResult :=
  entries.filterMap fun entry => lookup ChunkResult.chunkId (heldItems listA listB) entry.1

private theorem map_chunkId_readChunks {entries : List (String × ℚ)} (ranked : ∀ entry ∈ entries,
    entry.1 ∈ listA.map ChunkResult.chunkId ++ listB.map ChunkResult.chunkId) :
    (readChunks listA listB entries).map ChunkResult.chunkId = entries.map Prod.fst := by
  induction entries with
  | nil => rfl
  | cons entry rest ih =>
    obtain ⟨chunk, found⟩ := held_of_ranked (ranked entry List.mem_cons_self)
    unfold readChunks at ih ⊢
    rw [List.filterMap_cons, found]
    rw [List.map_cons, List.map_cons, key_of_lookup found, ih fun later mem => ranked later (List.mem_cons_of_mem _ mem)]

def chunkScore (listA listB : List ChunkResult) (chunk : ChunkResult) : ℚ :=
  fusedScore rrfK (listA.map ChunkResult.chunkId) (listB.map ChunkResult.chunkId) chunk.chunkId

private theorem scored_readChunks {entries : List (String × ℚ)} (scores : ∀ entry ∈ entries, entry.2 =
    fusedScore rrfK (listA.map ChunkResult.chunkId) (listB.map ChunkResult.chunkId) entry.1) :
    (entries.filterMap fun entry =>
      (lookup ChunkResult.chunkId (heldItems listA listB) entry.1).map fun chunk => (chunk, entry.2)) =
      (readChunks listA listB entries).map fun chunk => (chunk, chunkScore listA listB chunk) := by
  unfold readChunks
  rw [List.map_filterMap]
  apply List.filterMap_congr
  intro entry mem
  cases found : lookup ChunkResult.chunkId (heldItems listA listB) entry.1 with
  | none => rfl
  | some chunk =>
    have same := key_of_lookup found
    simp only [Option.map_some, chunkScore, same, scores entry mem]

instance byScore_total {Row : Type} (score : Row → ℚ) :
    Std.Total fun left right : Row => score right ≤ score left :=
  ⟨fun left right => le_total (score right) (score left)⟩

instance byScore_trans {Row : Type} (score : Row → ℚ) :
    IsTrans Row fun left right => score right ≤ score left :=
  ⟨fun _ _ _ first second => second.trans first⟩

section
variable (distinctA : (listA.map ChunkResult.chunkId).Nodup)
  (distinctB : (listB.map ChunkResult.chunkId).Nodup)

include distinctA distinctB

theorem rankScores_fused :
    let scores := rankScores listB (rankScores listA [])
    (scores.map Prod.fst).Nodup ∧ (∀ wanted, wanted ∈ scores.map Prod.fst ↔
      wanted ∈ listA.map ChunkResult.chunkId ++ listB.map ChunkResult.chunkId) ∧
      ∀ entry ∈ scores, entry.2 = fusedScore rrfK (listA.map ChunkResult.chunkId) (listB.map ChunkResult.chunkId) entry.1 :=
  rankScores_accumulates.fused distinctA distinctB

private theorem rrfMerge_eq (order : HashOrder (String × ℚ)) :
    rrfMerge order listA listB = (readChunks listA listB
        (order.arrange (rankScores listB (rankScores listA [])))).insertionSort fun left right =>
          chunkScore listA listB right ≤ chunkScore listA listB left := by
  obtain ⟨_, _, scores⟩ := rankScores_fused distinctA distinctB
  have arranged := scored_readChunks fun entry mem => scores entry ((order.perm _).mem_iff.mp mem)
  calc
    rrfMerge order listA listB = ((List.filterMap (fun entry : String × ℚ =>
          (lookup ChunkResult.chunkId (heldItems listA listB) entry.1).map fun chunk => (chunk, entry.2))
          (order.arrange (rankScores listB (rankScores listA [])))).insertionSort fun left right =>
            right.2 ≤ left.2).map Prod.fst := rfl
    _ = _ := by
        rw [arranged, ← List.map_insertionSort (fun left right => chunkScore listA listB right ≤
          chunkScore listA listB left) _ _ _ (fun _ _ _ _ => Iff.rfl), List.map_map]
        exact List.map_id _

private theorem readChunks_sortsByScore : SortsByScore rrfK ChunkResult.chunkId id
    (fun order => readChunks listA listB (order.arrange (rankScores listB (rankScores listA []))))
      (fun left right => chunkScore listA listB right ≤ chunkScore listA listB left) listA listB
      (readChunks listA listB (rankScores listB (rankScores listA []))) := by
  obtain ⟨unique, names, _⟩ := rankScores_fused distinctA distinctB
  have ids := map_chunkId_readChunks fun entry mem => (names entry.1).mp (List.mem_map_of_mem mem)
  constructor
  · exact fun order => (order.perm _).filterMap _
  · exact ids ▸ unique
  · intro wanted
    exact ids ▸ names wanted
  · intro chunk mem
    obtain ⟨entry, _, found⟩ := List.mem_filterMap.mp mem
    exact mem_of_held (mem_of_lookup found)
  · exact fun _ _ _ _ ahead => ahead

theorem rrfMerge_fuses_iff :
    Fuses ChunkResult.chunkId id (fun order => rrfMerge order listA listB) listA listB ↔
      Untied rrfK (listA.map ChunkResult.chunkId) (listB.map ChunkResult.chunkId) := by
  have sorts := readChunks_sortsByScore distinctA distinctB
  have merged : (fun order => rrfMerge order listA listB) = _ := funext (rrfMerge_eq distinctA distinctB)
  rw [merged, sorts.fuses_iff ⟨⟨id, List.Perm.refl⟩, rfl⟩ ⟨⟨List.reverse, List.reverse_perm⟩, List.filterMap_reverse⟩]
  constructor
  · intro decided left leftMem right rightMem apart same
    obtain ⟨one, oneMember, rfl⟩ := List.mem_map.mp ((sorts.names left).mpr leftMem)
    obtain ⟨two, twoMember, rfl⟩ := List.mem_map.mp ((sorts.names right).mpr rightMem)
    exact apart (congrArg ChunkResult.chunkId (decided one oneMember two twoMember (ge_of_eq same) (le_of_eq same)))
  · intro untied left leftMem right rightMem ahead behind
    by_contra apart
    have ids : left.chunkId ≠ right.chunkId := fun same =>
      apart (List.inj_on_of_nodup_map sorts.unique leftMem rightMem same)
    exact untied left.chunkId ((sorts.names _).mp (List.mem_map_of_mem leftMem)) right.chunkId
      ((sorts.names _).mp (List.mem_map_of_mem rightMem)) ids (le_antisymm behind ahead)

end
end

structure ExactScores {Embedding : Type} (lib : Library ℚ Embedding) : Prop where
  zero : lib.whole 0 = 0
  add : ∀ left right, lib.add left right = left + right
  exceeds : ∀ left right, lib.exceeds left right = decide (right < left)
  rankContribution : ∀ k rank, lib.rankContribution k rank = 1 / ((k : ℚ) + rank + 1)

def reciprocalRankFusionIn {Score Embedding : Type} (order : HashOrder (ScoredNode Score))
    (lib : Library Score Embedding) (fts vector : List (ScoredNode Score)) (k : Nat) :
    List (ScoredNode Score) :=
  sortScoredNodes lib (order.arrange (fuseRanks lib k vector (fuseRanks lib k fts [])))

section
variable {Embedding : Type} {lib : Library ℚ Embedding} (exactly : ExactScores lib)

include exactly

private theorem fuseRanks_accumulates (k : Nat) :
    Accumulates k ScoredNode.qualifiedName ScoredNode.qualifiedName ScoredNode.score
      (fun entry : ScoredNode ℚ × Nat => { entry.1 with
        score := lib.add (lib.whole 0) (lib.rankContribution k entry.2) })
      fun entry old => { old with
        score := lib.add old.score (lib.rankContribution k entry.2) } where
  freshKey _ := rfl
  freshScore entry := by
    dsimp only
    rw [exactly.add, exactly.zero, exactly.rankContribution, zero_add, reciprocal_coe]
  combineKey _ _ := rfl
  combineScore entry old := by
    dsimp only
    rw [exactly.add, exactly.rankContribution, reciprocal_coe]

theorem scoredBefore_iff {left right : ScoredNode ℚ} : (lib.exceeds left.score right.score = true ∨
    lib.exceeds right.score left.score = false ∧ left.qualifiedName ≤ right.qualifiedName) ↔
      right.score < left.score ∨ right.score = left.score ∧ left.qualifiedName ≤ right.qualifiedName := by
  rw [exactly.exceeds, exactly.exceeds, decide_eq_true_eq, decide_eq_false_iff_not, not_lt]
  constructor
  · rintro (ahead | ⟨atLeast, name⟩)
    · exact .inl ahead
    · exact atLeast.lt_or_eq.imp_right fun same => ⟨same, name⟩
  · rintro (ahead | ⟨same, name⟩)
    · exact .inl ahead
    · exact .inr ⟨same.le, name⟩

private theorem scoredBefore_total :
    Std.Total fun left right : ScoredNode ℚ => lib.exceeds left.score right.score = true ∨
      lib.exceeds right.score left.score = false ∧ left.qualifiedName ≤ right.qualifiedName := by
  constructor
  intro left right
  rw [scoredBefore_iff exactly, scoredBefore_iff exactly]
  rcases lt_trichotomy left.score right.score with ahead | same | ahead
  · exact .inr (.inl ahead)
  · exact (String.le_total left.qualifiedName right.qualifiedName).imp
      (fun name => .inr ⟨same.symm, name⟩) fun name => .inr ⟨same, name⟩
  · exact .inl (.inl ahead)

private theorem scoredBefore_trans :
    IsTrans (ScoredNode ℚ) fun left right => lib.exceeds left.score right.score = true ∨
      lib.exceeds right.score left.score = false ∧ left.qualifiedName ≤ right.qualifiedName := by
  constructor
  intro one two three
  rw [scoredBefore_iff exactly, scoredBefore_iff exactly, scoredBefore_iff exactly]
  rintro (first | ⟨first, name⟩) (second | ⟨second, later⟩)
  · exact .inl (second.trans first)
  · exact .inl (second ▸ first)
  · exact .inl (first ▸ second)
  · exact .inr ⟨second.trans first, String.le_trans name later⟩

section
variable {fts vector : List (ScoredNode ℚ)}
  (k : Nat) (distinctFts : (fts.map ScoredNode.qualifiedName).Nodup)
  (distinctVector : (vector.map ScoredNode.qualifiedName).Nodup)

include distinctFts distinctVector

private theorem fuseRanks_sortsByScore : SortsByScore k NodeRow.qualifiedName ScoredNode.row
    (fun order => order.arrange (fuseRanks lib k vector (fuseRanks lib k fts [])))
      (fun left right => lib.exceeds left.score right.score = true ∨
        lib.exceeds right.score left.score = false ∧ left.qualifiedName ≤ right.qualifiedName)
      (fts.map ScoredNode.row) (vector.map ScoredNode.row)
      (fuseRanks lib k vector (fuseRanks lib k fts [])) := by
  obtain ⟨unique, names, scores⟩ := (fuseRanks_accumulates exactly k).fused distinctFts distinctVector
  have start : Gathers ([] : List NodeRow) ([] : List (ScoredNode ℚ)) := ⟨by simp, by simp, List.nodup_nil⟩
  have gathers := fuseRanks_gathers lib k vector (fuseRanks_gathers lib k fts start)
  have ranked : ∀ list : List (ScoredNode ℚ), (list.map ScoredNode.row).map NodeRow.qualifiedName =
    list.map ScoredNode.qualifiedName := fun list => List.map_map
  constructor
  · exact fun order => order.perm _
  · exact unique
  · intro wanted
    rw [ranked, ranked]
    exact names wanted
  · exact gathers.rows
  · intro left leftMem right rightMem ahead
    rw [ranked, ranked]
    rw [scoredBefore_iff exactly] at ahead
    have leftScore := scores left leftMem
    have rightScore := scores right rightMem
    exact (leftScore ▸ rightScore ▸ ahead.elim le_of_lt fun same => same.1.le)

private theorem reciprocalRankFusionIn_fuses : Fuses NodeRow.qualifiedName ScoredNode.row
    (fun order => reciprocalRankFusionIn order lib fts vector k)
      (fts.map ScoredNode.row) (vector.map ScoredNode.row) := by
  have total := scoredBefore_total exactly
  have trans := scoredBefore_trans exactly
  have sorts := fuseRanks_sortsByScore exactly k distinctFts distinctVector
  apply sorts.fuses
  intro left leftMem right rightMem ahead behind
  rw [scoredBefore_iff exactly] at ahead behind
  apply List.inj_on_of_nodup_map sorts.unique leftMem rightMem
  rcases ahead with ahead | ⟨same, name⟩
  · rcases behind with behind | ⟨same, _⟩
    · exact absurd (ahead.trans behind) (lt_irrefl _)
    · exact absurd (same ▸ ahead) (lt_irrefl _)
  · rcases behind with behind | ⟨_, later⟩
    · exact absurd (same ▸ behind) (lt_irrefl _)
    · exact String.le_antisymm name later

end

/-- The search engine always fuses well, and the content store exactly when no two chunks
are tied. -/
theorem rankFusion_fuses_iff (k : Nat)
    {fts vector : List (ScoredNode ℚ)} (distinctFts : (fts.map ScoredNode.qualifiedName).Nodup)
    (distinctVector : (vector.map ScoredNode.qualifiedName).Nodup)
    {listA listB : List ChunkResult} (distinctA : (listA.map ChunkResult.chunkId).Nodup)
    (distinctB : (listB.map ChunkResult.chunkId).Nodup) :
    Fuses NodeRow.qualifiedName ScoredNode.row (fun order => reciprocalRankFusionIn order lib fts
      vector k) (fts.map ScoredNode.row) (vector.map ScoredNode.row) ∧
      Fuses ChunkResult.chunkId id (fun order => rrfMerge order listA listB) listA listB ↔
      Untied rrfK (listA.map ChunkResult.chunkId) (listB.map ChunkResult.chunkId) := by
  rw [rrfMerge_fuses_iff distinctA distinctB, and_iff_right]
  exact reciprocalRankFusionIn_fuses exactly k distinctFts distinctVector

end

def exactLibrary : Library ℚ Unit where
  toLowercase := sampleLibrary.toLowercase
  isUppercase := sampleLibrary.isUppercase
  isLowercase := sampleLibrary.isLowercase
  levenshtein := sampleLibrary.levenshtein
  compileRegex := sampleLibrary.compileRegex
  whole count := count
  add left right := left + right
  exceeds left right := decide (right < left)
  ftsMatches := sampleLibrary.ftsMatches
  negatedBm25 _ _ _ := 1
  cosineSimilarity _ _ := 0
  rankContribution k rank := 1 / ((k : ℚ) + rank + 1)
  hopScore seeds hop := seeds.foldl max 1 / (hop + 1)
  recentlyIndexedFiles := sampleLibrary.recentlyIndexedFiles

private theorem exactLibrary_exact : ExactScores exactLibrary where
  zero := Nat.cast_zero
  add _ _ := rfl
  exceeds _ _ := rfl
  rankContribution _ _ := rfl

def rankedChunk (chunkId content : String) : ChunkResult where
  sourceId := "s1"
  chunkId := chunkId
  chunkIndex := 0
  title := none
  content := content.toList
  contentType := "text/plain"

/-- A chunk of both lists stands before a chunk of one. -/
theorem rankFusion_fuses_alpha : Fuses NodeRow.qualifiedName ScoredNode.row (fun order =>
    reciprocalRankFusionIn order exactLibrary [⟨greetRow 1 "app", 0⟩] [⟨greetRow 2 "lib", 0⟩] 60)
        [greetRow 1 "app"] [greetRow 2 "lib"] ∧
      Fuses ChunkResult.chunkId id (fun order => rrfMerge order [rankedChunk "chunk-alpha" "alpha",
        rankedChunk "chunk-beta" "beta"] [rankedChunk "chunk-alpha" "alpha moved"])
        [rankedChunk "chunk-alpha" "alpha", rankedChunk "chunk-beta" "beta"]
        [rankedChunk "chunk-alpha" "alpha moved"] := by
  refine (rankFusion_fuses_iff exactLibrary_exact 60 (by decide) (by decide) (by decide)
    (by decide)).mpr ?_
  have outranks : Outranks ["chunk-alpha", "chunk-beta"] ["chunk-alpha"] "chunk-alpha"
    "chunk-beta" := ⟨by decide, by decide, .inl (by decide)⟩
  have scores := outranks.fusedScore_lt rrfK
  have names : ∀ name ∈ ["chunk-alpha", "chunk-beta"] ++ ["chunk-alpha"], name = "chunk-alpha" ∨ name = "chunk-beta" := by decide
  intro left leftMem right rightMem apart
  rcases names left leftMem with rfl | rfl
  · rcases names right rightMem with rfl | rfl
    · exact absurd rfl apart
    · exact scores.ne'
  · rcases names right rightMem with rfl | rfl
    · exact scores.ne
    · exact absurd rfl apart

/-- The lists of the source's own test: `chunk-beta` and `chunk-gamma` are second in one
list each. -/
theorem rrfMerge_tied_betaGamma : ¬ Fuses ChunkResult.chunkId id (fun order =>
    rrfMerge order [rankedChunk "chunk-alpha" "alpha", rankedChunk "chunk-beta" "beta"]
        [rankedChunk "chunk-alpha" "alpha moved", rankedChunk "chunk-gamma" "gamma"])
      [rankedChunk "chunk-alpha" "alpha", rankedChunk "chunk-beta" "beta"]
      [rankedChunk "chunk-alpha" "alpha moved", rankedChunk "chunk-gamma" "gamma"] := by
  rw [rrfMerge_fuses_iff (by decide) (by decide)]
  intro untied
  exact untied "chunk-beta" (by decide) "chunk-gamma" (by decide) (by decide)
    (fusedScore_swapped rrfK (by decide) (by decide))

end Atlas.Search
