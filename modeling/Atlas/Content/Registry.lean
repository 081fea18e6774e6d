import Atlas.Store.Schema

/-! The embedding dimension registry of the content store, shared by any number of
handles. A call is cut at its SQL statements: between two of them every other handle
may run statements of its own. -/
namespace Atlas.Content
open List Sql Function
open Store (AtlasError)

structure DimensionMismatchError where
  (providerName modelName : String)
  (expectedDimension actualDimension : UInt32)

def DimensionMismatchError.toString (error : DimensionMismatchError) : String :=
  "embedding dimension mismatch for " ++ error.providerName ++ "/" ++ error.modelName ++
    ": expected " ++ ToString.toString error.expectedDimension.toNat ++
    " got " ++ ToString.toString error.actualDimension.toNat ++
    "; rebuild embeddings or switch provider/model"

structure EmbeddingProviderEntry where
  (providerName modelName : String)
  dimension : UInt32
  discoveredAt : String
  indexSchemaVersion : Nat

abbrev ProviderModel := String × String

def EmbeddingProviderEntry.pair (entry : EmbeddingProviderEntry) : ProviderModel :=
  (entry.providerName, entry.modelName)
def persistedDimension (registry : List EmbeddingProviderEntry) (pair : ProviderModel) :
    Option UInt32 := (registry.find? fun entry => decide (entry.pair = pair)).map (·.dimension)

inductive Operation where
  | registerEmbeddingDimension
  | checkEmbeddingDimension

structure Call where
  operation : Operation
  (providerName modelName : String)
  dimension : UInt32

def Call.pair (call : Call) : ProviderModel := (call.providerName, call.modelName)

def Call.mismatch (call : Call) (expected : UInt32) : AtlasError :=
  .other (DimensionMismatchError.toString
    { providerName := call.providerName
      modelName := call.modelName
      expectedDimension := expected
      actualDimension := call.dimension })

inductive Phase where
  | idle
  /-- The `SELECT` has been read. -/
  | selected (call : Call) (old : Option UInt32)
  /-- The `INSERT` has been executed. -/
  | inserted (call : Call)

structure Handle where
  dimCache : ProviderModel → Option UInt32
  phase : Phase

def Handle.opened : Handle := { dimCache := fun _ => none, phase := .idle }

structure Returned (Process : Type) where
  process : Process
  call : Call
  outcome : Except AtlasError Unit

section
variable {Process : Type} [DecidableEq Process]

structure State (Process : Type) where
  registry : List EmbeddingProviderEntry
  handles : Process → Handle
  returned : List (Returned Process)

def State.opened (registry : List EmbeddingProviderEntry) : State Process :=
  { registry, handles := fun _ => Handle.opened, returned := [] }

def State.setHandle (state : State Process) (process : Process) (handle : Handle) : State Process :=
  { state with handles := update state.handles process handle }

def State.giveBack (state : State Process)
    (process : Process) (call : Call) (outcome : Except AtlasError Unit) : State Process :=
  { state.setHandle process { state.handles process with phase := .idle } with
    returned := ⟨process, call, outcome⟩ :: state.returned }

def State.recordDimensionInCache (state : State Process) (process : Process) (call : Call) :
    State Process :=
  let handle := state.handles process
  state.setHandle process
    { handle with dimCache := update handle.dimCache call.pair (some call.dimension) }

/-- The statement at which a step stops the handle, with the error SQLite reports. -/
abbrev Fault := Option String

inductive Step (Process : Type) where
  /-- Start of a call, up to and with its `SELECT`. -/
  | select (process : Process) (call : Call) (fault : Fault)
  /-- The `INSERT` of a call that read no row. -/
  | insert (process : Process) (now : String) (fault : Fault)
  /-- The rest of a call, from its last SQL statement on. -/
  | finish (process : Process)

def selectDimension (state : State Process) (process : Process) (call : Call) :
    Fault → State Process
  | some msg => state.giveBack process call (.error (.db msg))
  | none =>
    state.setHandle process
      { state.handles process with
        phase := .selected call (persistedDimension state.registry call.pair) }

/-- `check_embedding_dimension` answers from the cache where it can. -/
def start (state : State Process) (process : Process) (call : Call) (fault : Fault) :
    State Process :=
  match call.operation with
  | .registerEmbeddingDimension => selectDimension state process call fault
  | .checkEmbeddingDimension =>
    match (state.handles process).dimCache call.pair with
    | some cached =>
      if cached ≠ call.dimension then
        state.giveBack process call (.error (call.mismatch cached))
      else state.giveBack process call (.ok ())
    | none => selectDimension state process call fault

def insertDimension (state : State Process) (process : Process) (call : Call) (now : String) :
    Fault → State Process
  | some msg => state.giveBack process call (.error (.db msg))
  | none =>
    if call.dimension = 0 then
      state.giveBack process call (.error (.db "CHECK constraint failed: dimension > 0"))
    else
      { state.setHandle process { state.handles process with phase := .inserted call } with
        registry := insertOrIgnore EmbeddingProviderEntry.pair
          { providerName := call.providerName
            modelName := call.modelName
            dimension := call.dimension
            discoveredAt := now
            indexSchemaVersion := 1 } state.registry }

def finish (state : State Process) (process : Process) : State Process :=
  match (state.handles process).phase with
  | .selected call (some stored) =>
    if stored ≠ call.dimension then
      state.giveBack process call (.error (call.mismatch stored))
    else (state.recordDimensionInCache process call).giveBack process call (.ok ())
  | .inserted call => (state.recordDimensionInCache process call).giveBack process call (.ok ())
  | _ => state

def step (state : State Process) : Step Process → State Process
  | .select process call fault =>
    match (state.handles process).phase with
    | .idle => start state process call fault
    | _ => state
  | .insert process now fault =>
    match (state.handles process).phase with
    | .selected call none => insertDimension state process call now fault
    | _ => state
  | .finish process => finish state process

def run (state : State Process) (steps : List (Step Process)) : State Process :=
  steps.foldl step state

end

/-! Which interleavings keep one dimension for every provider and model. -/

section
variable {Process : Type} {state : State Process}

structure Agreed (state : State Process) : Prop where
  calls : ∀ first ∈ state.returned, ∀ second ∈ state.returned, first.outcome = .ok () →
    second.outcome = .ok () →
    first.call.pair = second.call.pair → first.call.dimension = second.call.dimension
  caches : ∀ process pair dimension, (state.handles process).dimCache pair = some dimension →
    persistedDimension state.registry pair = some dimension

def NoLostInsert (state : State Process) : Step Process → Prop
  | .insert process _ _ =>
    match (state.handles process).phase with
    | .selected call none =>
      ∀ stored, persistedDimension state.registry call.pair = some stored → stored = call.dimension
    | _ => True
  | _ => True

def Phase.Recorded (registry : List EmbeddingProviderEntry) : Phase → Prop
  | .idle => True
  | .selected call old => ∀ stored, old = some stored → persistedDimension registry call.pair = some stored
  | .inserted call => persistedDimension registry call.pair = some call.dimension

structure Recorded (state : State Process) : Prop where
  phases : ∀ process, (state.handles process).phase.Recorded state.registry
  caches : ∀ process pair dimension, (state.handles process).dimCache pair = some dimension →
    persistedDimension state.registry pair = some dimension
  calls : ∀ result ∈ state.returned, result.outcome = .ok () →
    persistedDimension state.registry result.call.pair = some result.call.dimension

theorem Recorded.agreed (recorded : Recorded state) : Agreed state where
  calls first firstMem second secondMem firstOk secondOk same := by
    have one := recorded.calls first firstMem firstOk
    have other := recorded.calls second secondMem secondOk
    rw [same, other] at one
    exact (Option.some.inj one).symm
  caches := recorded.caches

theorem recorded_opened (registry : List EmbeddingProviderEntry) :
    Recorded (State.opened registry : State Process) where
  phases _ := trivial
  caches _ _ _ cached := by cases cached
  calls _ mem := by cases mem

theorem persistedDimension_insertOrIgnore (entry : EmbeddingProviderEntry)
    (registry : List EmbeddingProviderEntry) (pair : ProviderModel) :
    persistedDimension (insertOrIgnore EmbeddingProviderEntry.pair entry registry) pair =
      (persistedDimension registry pair).or (if entry.pair = pair then some entry.dimension
      else none) := by
  unfold insertOrIgnore persistedDimension
  split
  next present =>
    obtain ⟨row, mem, same⟩ := hasKey_iff.mp present
    split
    next samePair =>
      cases found : registry.find? fun entry => decide (entry.pair = pair) with
      | none =>
        have differs := find?_eq_none.mp found row mem
        rw [same, samePair] at differs
        simp at differs
      | some row => rfl
    next => simp
  next =>
    rw [find?_append]
    by_cases samePair : entry.pair = pair
    · cases registry.find? fun entry => decide (entry.pair = pair) <;> simp [samePair]
    · simp [samePair]

theorem Recorded.setRegistry (recorded : Recorded state) (registry : List EmbeddingProviderEntry)
    (keeps : ∀ pair dimension, persistedDimension state.registry pair = some dimension →
      persistedDimension registry pair = some dimension) :
    Recorded { state with registry } where
  phases process := by
    have before := recorded.phases process
    show (state.handles process).phase.Recorded registry
    cases phase : (state.handles process).phase with
    | idle => trivial
    | selected call old =>
      rw [phase] at before
      exact fun stored found => keeps _ _ (before stored found)
    | inserted call =>
      rw [phase] at before
      exact keeps _ _ before
  caches process pair dimension cached := keeps _ _ (recorded.caches process pair dimension cached)
  calls result mem succeeded := keeps _ _ (recorded.calls result mem succeeded)

variable [DecidableEq Process]

section
variable (recorded : Recorded state)
include recorded

theorem Recorded.setPhase (process : Process)
    {phase : Phase} (holds : phase.Recorded state.registry) :
    Recorded (state.setHandle process { state.handles process with phase := phase }) where
  phases other := by
    by_cases same : other = process
    · subst same
      simpa [State.setHandle] using holds
    · simpa [State.setHandle, same] using recorded.phases other
  caches other pair dimension cached := by
    by_cases same : other = process
    · subst same
      exact recorded.caches other pair dimension (by simpa [State.setHandle] using cached)
    · exact recorded.caches other pair dimension (by simpa [State.setHandle, same] using cached)
  calls := recorded.calls

theorem Recorded.giveBack (process : Process) (call : Call)
    {outcome : Except Store.AtlasError Unit}
    (holds : outcome = .ok () → persistedDimension state.registry call.pair = some call.dimension) :
    Recorded (state.giveBack process call outcome) := by
  have idle := @Recorded.setPhase _ _ _ recorded process .idle trivial
  refine ⟨idle.phases, idle.caches, ?_⟩
  intro result mem
  cases mem_cons.mp mem with
  | inl same =>
    rw [same]
    exact holds
  | inr older => exact recorded.calls result older

theorem Recorded.recordDimensionInCache (process : Process)
    {call : Call} (holds : persistedDimension state.registry call.pair = some call.dimension) :
    Recorded (state.recordDimensionInCache process call) where
  phases other := by
    by_cases same : other = process
    · subst same
      simpa [State.recordDimensionInCache, State.setHandle] using recorded.phases other
    · simpa [State.recordDimensionInCache, State.setHandle, same] using recorded.phases other
  caches other pair dimension cached := by
    by_cases same : other = process
    · subst same
      simp only [State.recordDimensionInCache, State.setHandle, update_self] at cached
      by_cases samePair : pair = call.pair
      · subst samePair
        rw [update_self] at cached
        rw [← cached]
        exact holds
      · rw [update_of_ne samePair] at cached
        exact recorded.caches other pair dimension cached
    · simp only [State.recordDimensionInCache, State.setHandle, update_of_ne same] at cached
      exact recorded.caches other pair dimension cached
  calls := recorded.calls

theorem Recorded.selectDimension (process : Process) (call : Call) (fault : Fault) :
    Recorded (selectDimension state process call fault) := by
  cases fault with
  | some msg => exact recorded.giveBack process call nofun
  | none => exact recorded.setPhase process fun stored found => found

theorem Recorded.start (process : Process) (call : Call) (fault : Fault) :
    Recorded (start state process call fault) := by
  unfold Content.start
  cases call.operation with
  | registerEmbeddingDimension => exact recorded.selectDimension process call fault
  | checkEmbeddingDimension =>
    cases cached : (state.handles process).dimCache call.pair with
    | none => exact recorded.selectDimension process call fault
    | some dimension =>
      have stored := recorded.caches process call.pair dimension cached
      by_cases differs : dimension ≠ call.dimension
      · simp only [if_pos differs]
        exact recorded.giveBack process call nofun
      · simp only [if_neg differs]
        refine recorded.giveBack process call fun _ => ?_
        rw [stored, not_not.mp differs]

theorem Recorded.insertDimension (process : Process) {call : Call} (now : String) (fault : Fault)
    (kept : ∀ stored, persistedDimension state.registry call.pair = some stored → stored = call.dimension) :
    Recorded (insertDimension state process call now fault) := by
  cases fault with
  | some msg => exact recorded.giveBack process call nofun
  | none =>
    unfold Content.insertDimension
    by_cases zero : call.dimension = 0
    · simp only [if_pos zero]
      exact recorded.giveBack process call nofun
    simp only [if_neg zero]
    -- The write comes first: the phase speaks about the table it leaves.
    have written := recorded.setRegistry (insertOrIgnore EmbeddingProviderEntry.pair
      { providerName := call.providerName, modelName := call.modelName
        dimension := call.dimension, discoveredAt := now, indexSchemaVersion := 1 }
      state.registry) fun pair dimension found => by
        rw [persistedDimension_insertOrIgnore, found, Option.some_or]
    refine written.setPhase process ?_
    show persistedDimension (insertOrIgnore _ _ _) call.pair = some call.dimension
    rw [persistedDimension_insertOrIgnore]
    cases found : persistedDimension state.registry call.pair with
    | none => exact if_pos rfl
    | some stored => rw [Option.some_or, kept stored found]

theorem Recorded.finish (process : Process) : Recorded (finish state process) := by
  have phases := recorded.phases process
  unfold Content.finish
  cases phase : (state.handles process).phase with
  | idle => exact recorded
  | inserted call =>
    rw [phase] at phases
    exact (recorded.recordDimensionInCache process phases).giveBack process call fun _ => phases
  | selected call old =>
    rw [phase] at phases
    cases old with
    | none => exact recorded
    | some stored =>
      have persisted := phases stored rfl
      by_cases differs : stored ≠ call.dimension
      · simp only [if_pos differs]
        exact recorded.giveBack process call nofun
      · simp only [if_neg differs]
        rw [not_not.mp differs] at persisted
        exact (recorded.recordDimensionInCache process persisted).giveBack process call fun _ => persisted

theorem Recorded.step {next : Step Process} (kept : NoLostInsert state next) :
    Recorded (step state next) := by
  cases next with
  | select process call fault =>
    cases phase : (state.handles process).phase with
    | idle =>
      simp only [Content.step, phase]
      exact recorded.start process call fault
    | selected _ _ | inserted _ => simpa only [Content.step, phase] using recorded
  | insert process now fault =>
    cases phase : (state.handles process).phase with
    | idle | inserted _ => simpa only [Content.step, phase] using recorded
    | selected call old =>
      cases old with
      | some stored => simpa only [Content.step, phase] using recorded
      | none =>
        simp only [NoLostInsert, phase] at kept
        simp only [Content.step, phase]
        exact recorded.insertDimension process now fault kept
  | finish process => exact recorded.finish process

end

def NoneLost : State Process → List (Step Process) → Prop
  | _, [] => True
  | state, next :: rest => NoLostInsert state next ∧ NoneLost (step state next) rest

theorem Recorded.run (recorded : Recorded state)
    {steps : List (Step Process)} (kept : NoneLost state steps) : Recorded (run state steps) := by
  induction steps generalizing state with
  | nil => exact recorded
  | cons next rest ih => exact ih (recorded.step kept.1) kept.2

theorem NoneLost.of_append {first second : List (Step Process)}
    (kept : NoneLost state (first ++ second)) : NoneLost state first := by
  induction first generalizing state with
  | nil => trivial
  | cons next rest ih => exact ⟨kept.1, ih kept.2⟩

/-- In a run from freshly opened handles in which no insert meets a row of another
dimension, every state on the way is agreed. -/
theorem run_agreed (registry : List EmbeddingProviderEntry) {steps taken : List (Step Process)}
    (kept : NoneLost (State.opened registry) steps) (reached : taken <+: steps) :
    Agreed (run (State.opened registry) taken) := by
  obtain ⟨rest, rfl⟩ := reached
  exact ((recorded_opened registry).run kept.of_append).agreed

def ollama (operation : Operation) (dimension : UInt32) : Call :=
  { operation, providerName := "ollama", modelName := "nomic-embed-text", dimension }

/-- Two handles, one after the other, the second of which then reads its cache. -/
def turns : List (Step Bool) :=
  [.select true (ollama .registerEmbeddingDimension 768) none, .insert true "t0" none, .finish true,
    .select false (ollama .checkEmbeddingDimension 768) none, .finish false,
    .select false (ollama .checkEmbeddingDimension 768) none]

theorem turns_agreed :
    Agreed (run (State.opened []) turns) ∧ (run (State.opened []) turns).returned.length = 3 := by
  have fresh : NoLostInsert (run (State.opened []) (turns.take 1)) (.insert true "t0" none) := by
    intro stored found
    cases found
  have kept : NoneLost (State.opened []) turns := And.intro trivial (And.intro fresh
    (And.intro trivial (And.intro trivial (And.intro trivial (And.intro trivial trivial)))))
  exact ⟨run_agreed [] kept (prefix_refl _), rfl⟩

def race : List (Step Bool) := [.select true (ollama .registerEmbeddingDimension 768) none,
    .select false (ollama .checkEmbeddingDimension 1024) none,
    .insert true "t0" none, .finish true, .insert false "t1" none, .finish false]

theorem race_disagrees : ((run (State.opened []) race).returned.map fun result =>
        (result.call.dimension, match result.outcome with | .ok _ => true | .error _ => false)) =
        [(1024, true), (768, true)] ∧
      persistedDimension (run (State.opened []) race).registry ("ollama", "nomic-embed-text") = some 768 ∧
      ((run (State.opened []) race).handles false).dimCache ("ollama", "nomic-embed-text") =
        some 1024 ∧ ¬ Agreed (run (State.opened []) race) := by
  refine ⟨by decide, by decide, by decide, ?_⟩
  intro agreed
  have same := agreed.caches false ("ollama", "nomic-embed-text") 1024 (by decide)
  revert same
  decide

end
end Atlas.Content
