import Atlas.Program.BestWalks
import Atlas.Store.ImpactRadius
import Atlas.Text.Find

/-! The scores that `score_nodes` passes on from the changed nodes, over exact rationals: each is
the score of a best walk, whatever the order of the nodes and the edges. -/
namespace Atlas.Impact
open List
open Core (Node NodeKind Edge EdgeKind)
open Store (ImpactResult)
open Program.BestWalks (Walk Fading drain start drain_best)

def hopDecay : ℚ := 1 / 4

def baseScoreForKind : NodeKind → ℚ
  | .function | .method => 1
  | .class | .struct | .enum | .trait | .interface => 6 / 5
  | .module | .package => 4 / 5
  | .constant | .variable => 1 / 2
  | .test => 2 / 5
  | _ => 3 / 5

def apiMultiplier (node : Node) : ℚ :=
  if (Text.cut "pub".toList (node.modifiers.getD "").toList).isSome then 3 / 2 else 1

def traversalWeight : EdgeKind → ℚ
  | .calls => 3
  | .implements | .extends => 5 / 2
  | .imports => 2
  | .defines | .contains => 3 / 2
  | .tests | .testedBy => 3 / 2
  | .references => 1

/-- The number that the bits of a finite `f32` stand for. -/
def ofBits (bits : UInt32) : ℚ :=
  let exponent := bits.toNat / 2 ^ 23 % 256
  let fraction := bits.toNat % 2 ^ 23
  (if bits.toNat < 2 ^ 31 then 1 else -1) * ((if exponent = 0 then fraction else fraction + 2 ^ 23 :
    Nat) : ℚ) * 2 ^ (((max exponent 1 : Nat) : Int) - 150)

section
variable (base : ImpactResult)

def seeds : List (String × ℚ) := base.changedNodes.map fun node =>
    (node.qualifiedName, baseScoreForKind node.kind * apiMultiplier node)
def weight (edge : Edge) : ℚ := traversalWeight edge.kind * ofBits edge.confidence

def adj (qn : String) : List (String × ℚ) := base.relevantEdges.flatMap fun edge =>
    (if edge.sourceQn = qn then [(edge.targetQn, weight edge)] else []) ++
    if edge.targetQn = qn then [(edge.sourceQn, weight edge)] else []

def hops (qn : String) : List (String × ℚ) :=
  (adj base qn).map fun neighbour => (neighbour.1, hopDecay * neighbour.2)

/-- The seeds and the work list of `score_nodes`, for so many turns at most. -/
def scores (fuel : Nat) : Option (String → Option ℚ) := drain (hops base) fuel (start (seeds base))

end

def Confident (base : ImpactResult) : Prop :=
  ∀ edge ∈ base.relevantEdges, 0 ≤ ofBits edge.confidence ∧ ofBits edge.confidence ≤ 1

variable {base other : ImpactResult}

theorem traversalWeight_bounds (kind : EdgeKind) :
    0 ≤ traversalWeight kind ∧ traversalWeight kind ≤ 3 := by
  cases kind <;> norm_num [traversalWeight]

theorem baseScore_nonneg (node : Node) : 0 ≤ baseScoreForKind node.kind * apiMultiplier node := by
  have kinds : 0 ≤ baseScoreForKind node.kind := by cases node.kind <;> norm_num [baseScoreForKind]
  have multiplier : 0 ≤ apiMultiplier node := by
    unfold apiMultiplier
    split <;> norm_num
  exact mul_nonneg kinds multiplier

theorem mem_hops {qn : String} {hop : String × ℚ} (mem : hop ∈ hops base qn) :
    ∃ edge ∈ base.relevantEdges, hop.2 = hopDecay * weight edge ∧
      (hop.1 = edge.targetQn ∨ hop.1 = edge.sourceQn) := by
  obtain ⟨neighbour, inAdj, rfl⟩ := mem_map.mp mem
  obtain ⟨edge, relevant, here⟩ := mem_flatMap.mp inAdj
  refine ⟨edge, relevant, ?_⟩
  rcases mem_append.mp here with out | back
  · split at out
    · rw [mem_singleton.mp out]
      exact ⟨rfl, .inl rfl⟩
    · cases out
  · split at back
    · rw [mem_singleton.mp back]
      exact ⟨rfl, .inr rfl⟩
    · cases back

def fading (confident : Confident base) : Fading String where
  seeds := seeds base
  hops := hops base
  places := base.changedNodes.map Node.qualifiedName ++ base.relevantEdges.flatMap fun edge => [edge.targetQn, edge.sourceQn]
  factors := base.relevantEdges.map fun edge => hopDecay * weight edge
  seeds_mem seed mem := by
    obtain ⟨node, changed, rfl⟩ := mem_map.mp mem
    exact ⟨mem_append_left _ (mem_map_of_mem changed), baseScore_nonneg node⟩
  hops_mem qn hop mem := by
    obtain ⟨edge, relevant, factor, target⟩ := mem_hops mem
    obtain ⟨least, most⟩ := traversalWeight_bounds edge.kind
    obtain ⟨nonneg, atMost⟩ := confident edge relevant
    have product : weight edge ≤ 3 * 1 := mul_le_mul most atMost nonneg (by norm_num)
    have pos : 0 ≤ weight edge := mul_nonneg least nonneg
    refine ⟨mem_append_right _ (mem_flatMap.mpr ⟨edge, relevant, by simpa using target⟩),
      factor ▸ mem_map_of_mem relevant, ?_⟩
    rw [factor, hopDecay]
    constructor <;> linarith

theorem Walk.reorder {name : String} {score : ℚ} (nodes : other.changedNodes ~ base.changedNodes)
    (edges : other.relevantEdges ~ base.relevantEdges) (walk : Walk (seeds other) (hops other) name score) :
    Walk (seeds base) (hops base) name score :=
  walk.mono (nodes.map _).subset fun _ => ((edges.flatMap_right _).map _).subset

/-- More changed nodes and more edges lower no score. -/
theorem scores_grow (distinct : (base.changedNodes.map Node.qualifiedName).Nodup)
    (confident : Confident base) (nodes : other.changedNodes <+ base.changedNodes)
    (edges : other.relevantEdges <+ base.relevantEdges) : ∃ fewer found enough,
      (∀ fuel, enough ≤ fuel → scores other fuel = some fewer ∧ scores base fuel = some found) ∧
      ∀ name, (fewer name).getD 0 ≤ (found name).getD 0 := by
  obtain ⟨found, enough, drained, best, bound⟩ :=
    @drain_best _ (fading confident) _ (by simpa [fading, seeds, Function.comp_def] using distinct)
  obtain ⟨fewer, later, otherDrained, otherBest, _⟩ :=
    @drain_best _ (fading fun edge relevant => confident edge (edges.subset relevant)) _
      (by simpa [fading, seeds, Function.comp_def] using distinct.sublist (nodes.map _))
  refine ⟨fewer, found, enough + later, fun fuel le => ⟨otherDrained fuel (by omega), drained fuel (by omega)⟩, fun name => ?_⟩
  cases held : fewer name with
  | some score =>
    exact (bound name score ((otherBest name score held).1.mono (nodes.map _).subset fun _ =>
      ((edges.flatMap _).map _).subset)).2
  | none =>
    cases grown : found name with
    | none => rfl
    | some score => exact (bound name score (best name score grown).1).1

/-- A changed function that calls another one. -/
def callImpact : ImpactResult := {
  changedNodes := [{
    kind := .function, name := "main", qualifiedName := "a::main", filePath := "a.rs", lineStart := 1, lineEnd := 2,
    language := "rust", fileHash := "h" }]
  impactedNodes := []
  impactedFiles := []
  relevantEdges := [{ kind := .calls, sourceQn := "a::main", targetQn := "b::run", filePath := "a.rs" }]
  traversalBudget := none
  budget := .withinBudget "nodes" 200 1 }

theorem confident_callImpact : Confident callImpact := by
  intro edge relevant
  have certain : ofBits 0x3f800000 = 1 := by
    have bits : UInt32.toNat 0x3f800000 = 1065353216 := rfl
    unfold ofBits
    rw [bits]
    norm_num
  cases mem_singleton.mp relevant
  exact ⟨certain.symm ▸ zero_le_one, certain.le⟩

theorem scores_grow_call :
    ∃ fewer found enough, (∀ fuel, enough ≤ fuel → scores { callImpact with relevantEdges := [] }
      fuel = some fewer ∧ scores callImpact fuel = some found) ∧
    ∀ name, (fewer name).getD 0 ≤ (found name).getD 0 :=
  scores_grow (by simp [callImpact]) confident_callImpact (.refl _) (nil_sublist _)

end Atlas.Impact
