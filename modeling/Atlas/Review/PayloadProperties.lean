import Mathlib.Data.List.Perm.Basic
import Atlas.Review.Payload

/-! Trimming bounds the numbers of items, and the payload budgets only take further items
away: never a direct target while another node is left, and never so that an edge loses
an end. -/
namespace Atlas.Review
open List Core Nat
open Program

section
variable {Score : Type} {scoring : Scoring Score}

/-! ## The next item to drop -/

variable {index : Nat} {candidates : List (DropCandidate Score)} {nodes : List (SelectedNode Score)}
  {before after : ContextResult Score}

private theorem selectBestDrop_mem (selected : selectBestDrop scoring candidates = some index) :
    ∃ candidate ∈ candidates, candidate.index = index := by
  cases candidates with
  | nil => cases selected
  | cons first rest =>
    have best : ∀ (others : List (DropCandidate Score)) (start : DropCandidate Score), others.foldl (fun best candidate =>
          if compareDropCandidates scoring best candidate = .gt then candidate else best) start
          ∈ start :: others := by
      intro others
      induction others with
      | nil =>
        intro start
        exact .head _
      | cons next others ih =>
        intro start
        rw [foldl_cons]
        split
        · exact .tail _ (ih next)
        · rcases mem_cons.mp (ih start) with same | later
          · rw [same]
            exact .head _
          · exact .tail _ (.tail _ later)
    exact ⟨_, best rest first, Option.some.inj selected⟩

private theorem selectBestDrop_eq_none (nothing : selectBestDrop scoring candidates = none) :
    candidates = [] := by
  cases candidates with
  | nil => rfl
  | cons first rest => cases nothing

section
variable {Item : Type} {droppable : Item → Bool} {candidate : Nat → Item → DropCandidate Score}
  {items : List Item}

theorem select_some (indexed : ∀ index item, (candidate index item).index = index) {index : Nat}
    (selected : selectBestDrop scoring (dropCandidates droppable candidate items) = some index) :
    ∃ item, items[index]? = some item ∧ droppable item = true := by
  obtain ⟨chosen, mem, rfl⟩ := selectBestDrop_mem selected
  obtain ⟨⟨item, place⟩, inside, rfl⟩ := mem_map.mp mem
  obtain ⟨there, allowed⟩ := mem_filter.mp inside
  rw [indexed]
  exact ⟨item, mem_zipIdx_iff_getElem?.mp there, allowed⟩

theorem select_none (nothing : selectBestDrop scoring (dropCandidates droppable candidate items) =
    none) : ∀ item ∈ items, droppable item = false := by
  intro item mem
  have empty := selectBestDrop_eq_none nothing
  rw [dropCandidates, map_eq_nil_iff, filter_eq_nil_iff] at empty
  obtain ⟨index, found⟩ := mem_iff_getElem?.mp mem
  have notAllowed := empty (item, index) (mem_zipIdx_iff_getElem?.mpr found)
  simpa using notAllowed

theorem select_none_of_targetsLast {isTarget : Item → Bool} (nothing : selectBestDrop scoring
    (dropCandidates (fun item => !(items.any fun other => !isTarget other) || !isTarget item)
      candidate items) = none) : items = [] := by
  have kept := select_none nothing
  by_cases mixed : ∃ item ∈ items, isTarget item = false
  · obtain ⟨item, mem, other⟩ := mixed
    have wrong := kept item mem
    simp [other] at wrong
  · push Not at mixed
    cases items with
    | nil => rfl
    | cons first rest =>
      have wrong := kept first (.head _)
      have allTargets : ((first :: rest).any fun other => !isTarget other) = false := by
        rw [any_eq_false]
        intro other inside
        simpa using mixed other inside
      rw [allTargets] at wrong
      cases wrong

end

private theorem selectNodeDropIndex_none (nothing : selectNodeDropIndex scoring nodes = none) :
    nodes.length ≤ 1 := by
  unfold selectNodeDropIndex at nothing
  split at nothing
  · assumption
  · rw [select_none_of_targetsLast nothing]
    exact zero_le 1

theorem selectNodeDropIndex_some (chosen : selectNodeDropIndex scoring nodes = some index) :
    ∃ removed, nodes[index]? = some removed ∧ (removed.isTarget = true → ∀ selected ∈ nodes, selected.isTarget = true) := by
  unfold selectNodeDropIndex at chosen
  split at chosen
  · cases chosen
  · obtain ⟨removed, found, allowed⟩ := select_some (fun _ _ => rfl) chosen
    refine ⟨removed, found, ?_⟩
    intro target selected mem
    rw [target] at allowed
    have none_ : nodes.any (fun selected => !selected.isTarget) = false := by simpa using allowed
    simpa using any_eq_false.mp none_ selected mem

/-! ## What dropping does to a context -/

def Closed (result : ContextResult Score) : Prop :=
  ∀ selected ∈ result.edges, selected.edge.sourceQn ∈ qualifiedNames result.nodes ∧
    selected.edge.targetQn ∈ qualifiedNames result.nodes
def targetCount (nodes : List (SelectedNode Score)) : Nat := nodes.countP (·.isTarget)
def otherCount (nodes : List (SelectedNode Score)) : Nat :=
  nodes.countP fun selected => !selected.isTarget

/-- Items were only dropped, targets last, and no edge has lost an end. -/
structure Trims (before after : ContextResult Score) : Prop where
  request : after.request = before.request
  truncation : after.truncation = before.truncation
  contentAssets : after.contentAssets = before.contentAssets
  nodes : after.nodes.Sublist before.nodes
  edges : after.edges.Sublist before.edges
  files : after.files.length ≤ before.files.length
  closed : Closed before → Closed after
  targets : targetCount after.nodes = targetCount before.nodes ∨ otherCount after.nodes = 0

theorem Trims.refl (result : ContextResult Score) : Trims result result where
  request := rfl
  truncation := rfl
  contentAssets := rfl
  nodes := .refl _
  edges := .refl _
  files := le_refl _
  closed := id
  targets := .inl rfl

theorem Trims.trans {first second third : ContextResult Score}
    (one : Trims first second) (two : Trims second third) : Trims first third where
  request := two.request.trans one.request
  truncation := two.truncation.trans one.truncation
  contentAssets := two.contentAssets.trans one.contentAssets
  nodes := two.nodes.trans one.nodes
  edges := two.edges.trans one.edges
  files := le_trans two.files one.files
  closed := two.closed ∘ one.closed
  targets := by
    rcases two.targets with same | none_
    · rcases one.targets with same' | none_'
      · exact .inl (same.trans same')
      · have fewer : otherCount third.nodes ≤ otherCount second.nodes := two.nodes.countP_le
        exact .inr (by omega)
    · exact .inr none_

theorem Trims.of_same (request : after.request = before.request)
    (truncation : after.truncation = before.truncation)
    (contentAssets : after.contentAssets = before.contentAssets)
    (nodes : after.nodes = before.nodes) (edges : after.edges = before.edges)
    (files : after.files.length ≤ before.files.length) : Trims before after where
  request := request
  truncation := truncation
  contentAssets := contentAssets
  nodes := nodes ▸ .refl _
  edges := edges ▸ .refl _
  files := files
  closed := by
    unfold Closed
    rw [nodes, edges]
    exact id
  targets := .inl (by rw [nodes])

theorem eraseIdx_perm {Item : Type} {items : List Item} {item : Item}
    (found : items[index]? = some item) : items.Perm (item :: items.eraseIdx index) := by
  obtain ⟨bound, rfl⟩ := List.getElem?_eq_some_iff.mp found
  exact (List.getElem_cons_eraseIdx_perm bound).symm

theorem Trims.dropEdge (result : ContextResult Score) (index : Nat) :
    Trims result { result with edges := result.edges.eraseIdx index } where
  request := rfl
  truncation := rfl
  contentAssets := rfl
  nodes := .refl _
  edges := eraseIdx_sublist ..
  files := le_refl _
  closed := fun closed selected mem => closed selected ((eraseIdx_sublist ..).subset mem)
  targets := .inl rfl

variable {result : ContextResult Score}

theorem Trims.dropNode (chosen : selectNodeDropIndex scoring result.nodes = some index) :
    Trims result (dropNode result index) := by
  obtain ⟨removed, found, lastTargets⟩ := selectNodeDropIndex_some chosen
  have perm := eraseIdx_perm found
  unfold Review.dropNode
  rw [found]
  constructor
  case request => rfl
  case truncation => rfl
  case contentAssets => rfl
  case nodes => exact eraseIdx_sublist ..
  case edges => exact filter_sublist
  case files => exact le_refl _
  case closed =>
    intro closed selected mem
    obtain ⟨inside, apart⟩ := mem_filter.mp mem
    simp only [Bool.and_eq_true, decide_eq_true_eq] at apart
    have still : ∀ name, name ∈ qualifiedNames result.nodes →
      name ≠ removed.node.qualifiedName → name ∈ qualifiedNames (result.nodes.eraseIdx index) := by
      intro name known other
      obtain ⟨holder, there, rfl⟩ := mem_map.mp known
      rcases mem_cons.mp (perm.mem_iff.mp there) with rfl | kept
      · exact absurd rfl other
      · exact mem_map.mpr ⟨holder, kept, rfl⟩
    obtain ⟨source, target⟩ := closed selected inside
    exact ⟨still _ source apart.1, still _ target apart.2⟩
  case targets =>
    cases isTarget : removed.isTarget with
    | true =>
      right
      apply countP_eq_zero.mpr
      intro selected mem
      have target := lastTargets isTarget selected ((eraseIdx_sublist ..).subset mem)
      simp [target]
    | false =>
      left
      have counted := perm.countP_eq (·.isTarget)
      rw [countP_cons_of_neg (by simp [isTarget])] at counted
      exact counted.symm

/-! ## One unit of the payload -/

inductive DropsUnit (scoring : Scoring Score) (result : ContextResult Score) :
    ContextResult Score → Prop where
  | savedSource {index : Nat} {source : SavedContextSource Score} (found :
    result.savedContextSources[index]? = some source) : DropsUnit scoring result
        { result with savedContextSources := result.savedContextSources.eraseIdx index }
  | workflow {before after : WorkflowSummary} (present : result.workflow = some before) (trimmed :
    trimWorkflow before = some after) :
    DropsUnit scoring result { result with workflow := some after }
  | ambiguity {before after : AmbiguityMeta} (present : result.ambiguity = some before) (trimmed :
    trimAmbiguity before = some after) :
    DropsUnit scoring result { result with ambiguity := some after }
  | file {index : Nat} {file : SelectedFile} (found : result.files[index]? = some file) :
    DropsUnit scoring result { result with files := result.files.eraseIdx index }
  | edge {index : Nat} {edge : SelectedEdge Score} (found : result.edges[index]? = some edge) :
    DropsUnit scoring result { result with edges := result.edges.eraseIdx index }
  | node {index : Nat} (chosen : selectNodeDropIndex scoring result.nodes = some index) :
    DropsUnit scoring result (dropNode result index)

variable {next : ContextResult Score}

theorem trimOnePayloadUnit_cases (dropped : trimOnePayloadUnit scoring result = some next) :
    DropsUnit scoring result next := by
  unfold trimOnePayloadUnit at dropped
  split at dropped
  · next index chosen =>
      cases dropped
      obtain ⟨source, found, -⟩ := select_some (fun _ _ => rfl) chosen
      exact .savedSource found
  · split at dropped
    · next workflow trimmed =>
        cases dropped
        obtain ⟨before, present, fewer⟩ := Option.bind_eq_some_iff.mp trimmed
        exact .workflow present fewer
    · split at dropped
      · next ambiguity trimmed =>
          cases dropped
          obtain ⟨before, present, fewer⟩ := Option.bind_eq_some_iff.mp trimmed
          exact .ambiguity present fewer
      · split at dropped
        · next index chosen =>
            cases dropped
            obtain ⟨file, found, -⟩ := select_some (fun _ _ => rfl) chosen
            exact .file found
        · split at dropped
          · next index chosen =>
              cases dropped
              obtain ⟨edge, found, -⟩ := select_some (fun _ _ => rfl) chosen
              exact .edge found
          · obtain ⟨index, chosen, rfl⟩ := Option.map_eq_some_iff.mp dropped
            exact .node chosen

theorem Trims.ofUnit (dropped : trimOnePayloadUnit scoring result = some next) :
    Trims result next := by
  cases trimOnePayloadUnit_cases dropped with
  | savedSource | workflow | ambiguity => exact .of_same rfl rfl rfl rfl rfl (le_refl _)
  | file => exact .of_same rfl rfl rfl rfl rfl (length_eraseIdx_le ..)
  | edge => exact .dropEdge ..
  | node chosen => exact .dropNode chosen

private theorem trimWorkflow_units {workflow trimmed : WorkflowSummary}
    (dropped : trimWorkflow workflow = some trimmed) :
    workflowUnits trimmed < workflowUnits workflow := by
  have shorter : ∀ {Item : Type} (items : List Item), items ≠ [] → items.dropLast.length < items.length := by
    intro Item items some_
    have pos := length_pos_iff.mpr some_
    rw [length_dropLast]
    omega
  unfold trimWorkflow at dropped
  unfold workflowUnits
  split at dropped
  · rename_i some_
    cases dropped
    have less := shorter workflow.callChains some_
    dsimp only
    omega
  · split at dropped
    · rename_i some_
      cases dropped
      have less := shorter workflow.rippleEffects some_
      dsimp only
      omega
    · split at dropped
      · rename_i some_
        cases dropped
        have less := shorter workflow.impactedComponents some_
        dsimp only
        omega
      · split at dropped
        · rename_i several
          cases dropped
          dsimp only
          rw [length_dropLast]
          omega
        · cases dropped

theorem length_eraseIdx_lt {Item : Type} {items : List Item} {item : Item}
    (found : items[index]? = some item) : (items.eraseIdx index).length < items.length := by
  have lengths := (eraseIdx_perm found).length_eq
  rw [length_cons] at lengths
  omega

private theorem trimAmbiguity_units {before after : AmbiguityMeta}
    (trimmed : trimAmbiguity before = some after) :
    after.candidates.length - 1 < before.candidates.length - 1 := by
  unfold trimAmbiguity at trimmed
  split at trimmed
  · cases trimmed
    simp only [length_dropLast]
    omega
  · cases trimmed

private theorem dropNode_units (chosen : selectNodeDropIndex scoring result.nodes = some index) :
    payloadUnits (dropNode result index) < payloadUnits result := by
  obtain ⟨removed, found, -⟩ := selectNodeDropIndex_some chosen
  have less := length_eraseIdx_lt found
  have several : ¬ result.nodes.length ≤ 1 := by
    intro few
    rw [selectNodeDropIndex, if_pos few] at chosen
    cases chosen
  have fewer : ∀ keeps : SelectedEdge Score → Bool, (result.edges.filter keeps).length ≤
    result.edges.length := fun keeps => length_filter_le keeps _
  unfold Review.dropNode payloadUnits
  rw [found]
  dsimp only
  have edges := fewer fun selected =>
    selected.edge.sourceQn ≠ removed.node.qualifiedName && selected.edge.targetQn ≠ removed.node.qualifiedName
  omega

private theorem trimOnePayloadUnit_units (dropped : trimOnePayloadUnit scoring result = some next) :
    payloadUnits next < payloadUnits result := by
  cases trimOnePayloadUnit_cases dropped with
  | savedSource found =>
    have less := length_eraseIdx_lt found
    simp only [payloadUnits]
    omega
  | workflow present trimmed =>
    have less := trimWorkflow_units trimmed
    simp only [payloadUnits, present, Option.map_some, Option.getD_some]
    omega
  | ambiguity present trimmed =>
    have less := trimAmbiguity_units trimmed
    simp only [payloadUnits, present, Option.map_some, Option.getD_some]
    omega
  | file found | edge found =>
    have less := length_eraseIdx_lt found
    simp only [payloadUnits]
    omega
  | node chosen => exact dropNode_units chosen

/-- Nothing is left to drop but one node. -/
structure Exhausted (result : ContextResult Score) : Prop where
  savedContextSources : result.savedContextSources = []
  files : result.files = []
  edges : result.edges = []
  nodes : result.nodes.length ≤ 1

theorem Exhausted.of_unit (nothing : trimOnePayloadUnit scoring result = none) :
    Exhausted result := by
  unfold trimOnePayloadUnit at nothing
  split at nothing
  · cases nothing
  · rename_i noSource
    split at nothing
    · cases nothing
    · split at nothing
      · cases nothing
      · split at nothing
        · cases nothing
        · rename_i noFile
          split at nothing
          · cases nothing
          · rename_i noEdge
            constructor
            case savedContextSources =>
              apply eq_nil_iff_forall_not_mem.mpr
              intro source mem
              exact absurd (select_none noSource source mem) (by decide)
            case files => exact select_none_of_targetsLast noFile
            case edges =>
              apply eq_nil_iff_forall_not_mem.mpr
              intro edge mem
              exact absurd (select_none noEdge edge mem) (by decide)
            case nodes => exact selectNodeDropIndex_none (Option.map_eq_none_iff.mp nothing)

variable {measures : Measures Score} {policy : PayloadPolicy}

theorem Trims.loop {exceeds : ContextResult Score → Bool}
    {drop : ContextResult Score → Option (ContextResult Score)} {fuel : Nat}
    (unit : ∀ result next, drop result = some next → Trims result next)
    (result : ContextResult Score) : Trims result (dropWhileOver exceeds drop fuel result) :=
  dropWhileOver_invariant (fun current next trims dropped => trims.trans (unit current next dropped)) (Trims.refl result)

theorem Trims.ofExcerpt (dropped : dropExcerpt scoring result = some next) : Trims result next := by
  obtain ⟨index, -, rfl⟩ := Option.map_eq_some_iff.mp dropped
  exact .of_same rfl rfl rfl rfl rfl (le_of_eq (length_modify ..))

theorem Trims.ofSavedSource (dropped : dropSavedSource scoring result = some next) :
    Trims result next := by
  obtain ⟨index, -, rfl⟩ := Option.map_eq_some_iff.mp dropped
  exact .of_same rfl rfl rfl rfl rfl (le_refl _)

theorem Trims.ofFile (dropped : dropFile scoring result = some next) : Trims result next := by
  obtain ⟨index, -, rfl⟩ := Option.map_eq_some_iff.mp dropped
  exact .of_same rfl rfl rfl rfl rfl (length_eraseIdx_le ..)

theorem trimPayload_trims (result : ContextResult Score) :
    Trims result (trimPayload scoring measures policy result) :=
  (Trims.loop (fun _ _ => Trims.ofExcerpt) result).trans ((Trims.loop (fun _ _ => Trims.ofSavedSource) _).trans
      ((Trims.loop (fun _ _ => Trims.ofFile) _).trans (Trims.loop (fun _ _ => Trims.ofUnit) _)))

def Fits (measures : Measures Score)
    (policy : PayloadPolicy) (result : ContextResult Score) : Prop :=
  (measurePayload measures result).bytes ≤ policy.contextPayloadBytes.defaultLimit ∧
    (measurePayload measures result).tokens ≤ effectiveTokenLimit policy result.request

private theorem trimPayload_fits (result : ContextResult Score) :
    Fits measures policy (trimPayload scoring measures policy result) ∨
      Exhausted (trimPayload scoring measures policy result) := by
  have done := @dropWhileOver_done _ (overPayload measures policy) (trimOnePayloadUnit scoring) _
    (trimReviewSourceBytes scoring measures policy (trimSavedContextBytes scoring measures policy
      (trimFileExcerptBytes scoring measures policy result))) payloadUnits
    (fun _ _ => trimOnePayloadUnit_units) (le_refl _)
  rcases done with within | nothing
  · left
    unfold overPayload at within
    rw [Bool.or_eq_false_iff, decide_eq_false_iff_not, decide_eq_false_iff_not, not_lt, not_lt] at within
    exact within
  · exact .inr (.of_unit nothing)

/-! ## Trimming to the caps -/

variable (request : ContextRequest)

def reservedPlaces : Nat :=
  if request.intent = .review ∧ request.nodeLimit > 1 then 1 else 0

def fileTargetCount (files : List SelectedFile) : Nat := files.countP (·.isTarget)

private theorem trimNodes_length (nodes : List (SelectedNode Score)) :
    (trimNodes request nodes).length ≤ request.nodeLimit := by
  unfold trimNodes
  split
  · dsimp only
    rw [length_append, length_take, length_take]
    omega
  · omega

private theorem trimEdges_length (names : List String) (edges : List (SelectedEdge Score)) :
    (trimEdges request names edges).length ≤ request.edgeLimit := length_take_le ..

private theorem trimFiles_length (files : List SelectedFile) :
    (trimFiles request files).length ≤ max request.fileLimit (fileTargetCount files) := by
  unfold trimFiles
  split
  · dsimp only
    rw [length_append, length_take, ← countP_eq_length_filter, fileTargetCount]
    omega
  · omega

private theorem trimContext_closed (result : ContextResult Score) : Closed (trimContext result) := by
  intro selected mem
  have inside := (mem_filter.mp (mem_of_mem_take mem)).2
  rw [Bool.and_eq_true, decide_eq_true_eq, decide_eq_true_eq] at inside
  exact inside

private theorem trimNodes_targets (nodes : List (SelectedNode Score)) :
    targetCount (trimNodes request nodes) = targetCount nodes ∨
      otherCount (trimNodes request nodes) ≤ reservedPlaces request := by
  unfold trimNodes
  split
  case isFalse => exact .inl rfl
  case isTrue =>
    dsimp only
    generalize places : (if request.intent = .review ∧ request.nodeLimit > 1 ∧
      (nodes.filter fun selected => !selected.isTarget) ≠ [] ∧
      (nodes.filter (·.isTarget)).length ≥ request.nodeLimit then 1 else 0) = reserved
    have within : reserved ≤ reservedPlaces request ∧ reserved ≤ request.nodeLimit := by
      rw [← places]
      unfold reservedPlaces
      split
      · rename_i reserves
        rw [if_pos ⟨reserves.1, reserves.2.1⟩]
        exact ⟨le_refl 1, by omega⟩
      · exact ⟨zero_le _, zero_le _⟩
    have noTarget : ∀ count, targetCount ((nodes.filter fun selected => !selected.isTarget).take count) = 0 := by
      intro count
      apply countP_eq_zero.mpr
      intro selected mem
      have other := (mem_filter.mp (mem_of_mem_take mem)).2
      simpa using other
    have noOther : ∀ count, otherCount ((nodes.filter (·.isTarget)).take count) = 0 := by
      intro count
      apply countP_eq_zero.mpr
      intro selected mem
      have target := (mem_filter.mp (mem_of_mem_take mem)).2
      simpa using target
    by_cases roomy : (nodes.filter (·.isTarget)).length ≤ request.nodeLimit - reserved
    · left
      rw [take_of_length_le roomy, targetCount, countP_append, countP_filter]
      have none_ := noTarget (request.nodeLimit - (nodes.filter (·.isTarget)).length)
      unfold targetCount at none_ ⊢
      rw [none_]
      simp
    · right
      have kept : ((nodes.filter (·.isTarget)).take (request.nodeLimit - reserved)).length = request.nodeLimit - reserved := by
        rw [length_take]
        omega
      have none_ := noOther (request.nodeLimit - reserved)
      have few : otherCount ((nodes.filter fun selected => !selected.isTarget).take
        (request.nodeLimit - (request.nodeLimit - reserved))) ≤
        request.nodeLimit - (request.nodeLimit - reserved) :=
        le_trans countP_le_length (length_take_le ..)
      unfold otherCount at none_ few ⊢
      rw [countP_append, none_, kept]
      omega

structure Assembled (selected assembled : ContextResult Score) : Prop where
  request : assembled.request = selected.request
  nodes : assembled.nodes = (trimContext selected).nodes
  edges : assembled.edges = (trimContext selected).edges
  files : assembled.files.length = (trimContext selected).files.length
  truncation : assembled.truncation = (trimContext selected).truncation

variable {focus : FocusScores Score} {buildWorkflowSummary : ContextResult Score → WorkflowSummary}
  {selected assembled : ContextResult Score}

theorem Assembled.finish (selected : ContextResult Score)
    (savedContextSources : List (SavedContextSource Score)) (contentAssets : List Json) :
    Assembled selected { finishContext buildWorkflowSummary selected with
      savedContextSources, contentAssets } := by
  unfold finishContext
  dsimp only
  split
  · constructor
    case request => rfl
    case nodes => rfl
    case edges => rfl
    case files => simp [applyCodeSpans, updateFileNodeCounts]
    case truncation => rfl
  · constructor
    case request => rfl
    case nodes => rfl
    case edges => rfl
    case files => simp [updateFileNodeCounts]
    case truncation => rfl

theorem Built.isAssembled (built : Built scoring focus buildWorkflowSummary selected assembled) :
    Assembled selected assembled := by
  cases built with
  | symbol db request seed savedContextSources contentAssets =>
    rw [buildSymbolContext_eq]
    exact .finish _ _ _
  | review impact request savedContextSources contentAssets => exact .finish _ _ _

/-- What the engine returns for a selected context. Its payload is measured before the
node counts of files and the drop counts are brought up to date. -/
structure Bounded (scoring : Scoring Score) (measures : Measures Score)
    (policy : PayloadPolicy) (selected assembled result : ContextResult Score) : Prop where
  nodes : result.nodes.length ≤ selected.request.nodeLimit
  edges : result.edges.length ≤ selected.request.edgeLimit
  files : result.files.length ≤ max selected.request.fileLimit (fileTargetCount selected.files)
  closed : Closed result
  fits : Fits measures policy (trimPayload scoring measures policy assembled) ∨ Exhausted result
  /-- A direct target is missing only where no other node is left, but for the place
  that a review reserves. -/
  targets : targetCount result.nodes = targetCount selected.nodes ∨ otherCount result.nodes ≤ reservedPlaces selected.request
  truncated : (result.nodes.length < selected.nodes.length ∨ result.edges.length <
    selected.edges.length ∨ result.files.length < selected.files.length) →
    result.truncation.truncated = true ∨
      (tokenBudgetApplied policy selected.request).isSome = true ∧
      result.nodes.length = assembled.nodes.length ∧ result.edges.length = assembled.edges.length ∧
        result.files.length = assembled.files.length

private theorem applyPayloadBudgets_items (result : ContextResult Score) :
    (applyPayloadBudgets scoring measures policy result).nodes =
      (trimPayload scoring measures policy result).nodes ∧
      (applyPayloadBudgets scoring measures policy result).edges = (trimPayload scoring measures policy result).edges ∧
      (applyPayloadBudgets scoring measures policy result).savedContextSources =
        (trimPayload scoring measures policy result).savedContextSources ∧
      (applyPayloadBudgets scoring measures policy result).files =
        (updateFileNodeCounts (trimPayload scoring measures policy result)).files := by
  unfold applyPayloadBudgets
  dsimp only
  generalize trimPayload scoring measures policy result = trimmed
  split
  all_goals exact ⟨rfl, rfl, rfl, rfl⟩

private theorem updateFileNodeCounts_length (result : ContextResult Score) :
    (updateFileNodeCounts result).files.length = result.files.length := by
  simp [updateFileNodeCounts]

theorem DropCounts.any_eq_false {dropped : DropCounts} (nothing : dropped.any = false) :
    dropped.nodes = 0 ∧ dropped.edges = 0 ∧ dropped.files = 0 := by
  unfold DropCounts.any at nothing
  simp only [Bool.or_eq_false_iff, decide_eq_false_iff_not] at nothing
  omega

def SameCounts (before after : ContextResult Score) : Prop :=
  after.nodes.length = before.nodes.length ∧
    after.edges.length = before.edges.length ∧ after.files.length = before.files.length

private theorem sameCounts_of_any_eq_false (trims : Trims before after)
    (nothing : (dropCounts measures before after).any = false) : SameCounts before after := by
  obtain ⟨noNodes, noEdges, noFiles⟩ := DropCounts.any_eq_false nothing
  have nodes := trims.nodes.length_le
  have edges := trims.edges.length_le
  have files := trims.files
  change before.nodes.length - after.nodes.length = 0 at noNodes
  change before.edges.length - after.edges.length = 0 at noEdges
  change before.files.length - after.files.length = 0 at noFiles
  exact ⟨by omega, by omega, by omega⟩

private theorem applyPayloadBudgets_truncated (result : ContextResult Score) :
    (applyPayloadBudgets scoring measures policy result).truncation =
      (trimPayload scoring measures policy result).truncation ∧
      SameCounts result (trimPayload scoring measures policy result) ∨
    (applyPayloadBudgets scoring measures policy result).truncation.truncated = true ∨
    (tokenBudgetApplied policy result.request).isSome = true ∧
      SameCounts result (trimPayload scoring measures policy result) := by
  have trims : Trims result (trimPayload scoring measures policy result) := trimPayload_trims result
  unfold applyPayloadBudgets
  dsimp only
  generalize trimPayload scoring measures policy result = trimmed at trims ⊢
  cases any : (dropCounts measures result trimmed).any with
  | true =>
    rw [if_pos (Bool.true_or _)]
    exact .inr (.inl any)
  | false =>
    have same := sameCounts_of_any_eq_false trims any
    cases applied : (tokenBudgetApplied policy result.request).isSome with
    | true => exact .inr (.inr ⟨rfl, same⟩)
    | false =>
      rw [if_neg (by decide)]
      exact .inl ⟨rfl, same⟩

/-- Whatever was selected, and whatever the measures and limits, the returned context is
bounded. -/
theorem applyPayloadBudgets_bounded
    (built : Built scoring focus buildWorkflowSummary selected assembled) :
    Bounded scoring measures policy selected assembled (applyPayloadBudgets scoring measures policy assembled) := by
  have whole := built.isAssembled
  have trims : Trims assembled (trimPayload scoring measures policy assembled) := trimPayload_trims assembled
  obtain ⟨nodes, edges, sources, files⟩ := @applyPayloadBudgets_items Score scoring measures policy assembled
  have fileCount : (applyPayloadBudgets scoring measures policy assembled).files.length =
    (trimPayload scoring measures policy assembled).files.length := by
    rw [files, updateFileNodeCounts_length]
  constructor
  case nodes =>
    rw [nodes]
    calc
      (trimPayload scoring measures policy assembled).nodes.length ≤ assembled.nodes.length := trims.nodes.length_le
      _ = (trimNodes selected.request selected.nodes).length := by
        rw [whole.nodes]
        rfl
      _ ≤ selected.request.nodeLimit := trimNodes_length ..
  case edges =>
    rw [edges]
    calc
      (trimPayload scoring measures policy assembled).edges.length ≤ assembled.edges.length := trims.edges.length_le
      _ = (trimContext selected).edges.length := by rw [whole.edges]
      _ ≤ selected.request.edgeLimit := trimEdges_length ..
  case files =>
    rw [fileCount]
    calc
      (trimPayload scoring measures policy assembled).files.length ≤ assembled.files.length := trims.files
      _ = (trimFiles selected.request selected.files).length := whole.files
      _ ≤ _ := trimFiles_length ..
  case closed =>
    have start : Closed assembled := by
      unfold Closed
      rw [whole.nodes, whole.edges]
      exact trimContext_closed selected
    have kept := trims.closed start
    unfold Closed at kept ⊢
    rw [nodes, edges]
    exact kept
  case fits =>
    rcases trimPayload_fits assembled with fits | exhausted
    · exact .inl fits
    · right
      constructor
      case savedContextSources => rw [sources, exhausted.savedContextSources]
      case files => rw [files, updateFileNodeCounts, exhausted.files, map_nil]
      case edges => rw [edges, exhausted.edges]
      case nodes =>
        rw [nodes]
        exact exhausted.nodes
  case targets =>
    rw [nodes]
    have cut := trimNodes_targets selected.request selected.nodes
    have start : assembled.nodes = trimNodes selected.request selected.nodes := whole.nodes
    have fewer : otherCount (trimPayload scoring measures policy assembled).nodes ≤
      otherCount assembled.nodes := trims.nodes.countP_le
    rw [← start] at cut
    rcases trims.targets with same | none_
    · rcases cut with all | reserved
      · exact .inl (same.trans all)
      · exact .inr (le_trans fewer reserved)
    · exact .inr (by omega)
  case truncated =>
    intro missing
    rw [nodes, edges, fileCount] at missing ⊢
    rw [← whole.request]
    rcases @applyPayloadBudgets_truncated Score scoring measures policy assembled with
      ⟨kept, sameNodes, sameEdges, sameFiles⟩ | flagged | ⟨applied, same⟩
    · left
      have flag : (trimContext selected).truncation.truncated =
        (decide (selected.nodes.length - (trimContext selected).nodes.length > 0) ||
            decide (selected.edges.length - (trimContext selected).edges.length > 0) ||
            decide (selected.files.length - (trimContext selected).files.length > 0)) := rfl
      rw [sameNodes, sameEdges, sameFiles, whole.nodes, whole.edges, whole.files] at missing
      rw [kept, trims.truncation, whole.truncation, flag]
      simp only [Bool.or_eq_true, decide_eq_true_eq]
      omega
    · exact .inl flagged
    · exact .inr ⟨applied, same⟩

end

def sampleImpact : ImpactResult where
  changedNodes := [Store.rowToNode (sampleNode "app" "a.rs::fn::run" "a.rs" none),
    Store.rowToNode (sampleNode "app" "b.rs::fn::run" "b.rs" none)]
  impactedNodes := [Store.rowToNode (sampleNode "app" "c.rs::fn::run" "c.rs" none)]
  relevantEdges := []

def sampleReviewRequest : ContextRequest where
  intent := .review
  maxNodes := some 2
  maxFiles := some 1

def sampleFocus : FocusScores Int where
  node _ score := score
  edge _ _ score := score

/-- Every item of a result counts as much as another one. -/
def sampleMeasures : Measures Int where
  payload result := ⟨200 * (result.nodes.length + result.edges.length + result.files.length +
    result.savedContextSources.length), 0⟩
  lineRanges ranges := 10 * ranges.flatten.length
  savedSources sources := 400 * sources.length
  files files := 200 * files.length

def samplePolicy : PayloadPolicy where
  contextPayloadBytes := ⟨1000, 1000⟩
  contextTokensEstimate := ⟨1000, 1000⟩
  fileExcerptBytes := ⟨1000, 1000⟩
  savedContextBytes := ⟨1000, 1000⟩
  reviewSourceBytes := ⟨1000, 1000⟩

def sampleSource (sourceId : String) (relevanceScore : Int) : SavedContextSource Int where
  sourceId
  relevanceScore
  rest := .null

def sampleSources : List (SavedContextSource Int) :=
  [sampleSource "log" 3, sampleSource "trace" 1, sampleSource "notes" 2]

def sampleSelection : ContextResult Int :=
  selectReviewContext sampleScoring sampleFocus sampleImpact sampleReviewRequest

def sampleReview : ContextResult Int :=
  { buildReviewContext sampleScoring sampleFocus sampleSummary sampleImpact sampleReviewRequest with
    savedContextSources := sampleSources }

def sampleBudgeted : ContextResult Int :=
  applyPayloadBudgets sampleScoring sampleMeasures samplePolicy sampleReview

theorem sampleReview_built :
    Built sampleScoring sampleFocus sampleSummary sampleSelection sampleReview :=
  .review sampleImpact sampleReviewRequest sampleSources []

/-- The artifacts alone are over their limit, and with one less the payload still is: of
three artifacts the highest ranked one remains. -/
theorem sampleReview_bounded :
    Bounded sampleScoring sampleMeasures samplePolicy sampleSelection sampleReview sampleBudgeted ∧
      sampleBudgeted.savedContextSources.map (·.sourceId) = ["log"] ∧
      sampleBudgeted.truncation.truncated = true :=
  ⟨applyPayloadBudgets_bounded sampleReview_built, by decide +kernel⟩

/-- Both files of the changed nodes are kept over the cap of one file, and one of the
changed nodes makes way for a neighbour. -/
theorem sampleReview_over_cap :
    Built sampleScoring sampleFocus sampleSummary sampleSelection sampleReview ∧
      sampleReviewRequest.fileLimit = 1 ∧
      (applyPayloadBudgets sampleScoring sampleMeasures samplePolicy sampleReview).files.length = 2 ∧
      targetCount sampleSelection.nodes = 2 ∧
      (applyPayloadBudgets sampleScoring sampleMeasures samplePolicy sampleReview).nodes.map
          (fun selected => (selected.node.qualifiedName, selected.selectionReason)) =
        [("a.rs::fn::run", SelectionReason.directTarget),
          ("c.rs::fn::run", SelectionReason.impactNeighbor)] := by
  refine ⟨sampleReview_built, rfl, ?_⟩
  decide +kernel

end Atlas.Review
