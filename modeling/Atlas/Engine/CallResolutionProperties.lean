import Atlas.Engine.CallResolution
import Atlas.Engine.Freshness

/-! Repository and package boundaries of late call resolution, and its independence of order. -/
namespace Atlas.Engine
open List Core Program Repo Sql Store

variable {nodes : List Node}
  {node : Node} {ctx : ResolutionContext} {resolved : Resolved} {call : CallMeta}
  {bindings : List ImportBinding} {path language : String} {start : Db}

/-! ## The rules over two kinds of lookups -/

section
variable {m n : Type → Type} [Monad m] [Monad n] {Rel : ∀ Value : Type, m Value → n Value → Prop}
  {left : Lookups m} {right : Lookups n}

structure Lookups.Related (Rel : ∀ Value : Type, m Value → n Value → Prop) (left : Lookups m)
    (right : Lookups n) : Prop where
  candidates : ∀ language name,
    Rel _ (left.callableCandidates language name) (right.callableCandidates language name)
  owners : ∀ path, Rel _ (left.ownerId path) (right.ownerId path)

section
variable (sequential : Sequential Rel) (lookups : left.Related Rel right)
include sequential lookups

private theorem tryOptions_related (ctx : ResolutionContext) (options : List (List String × String)) :
    Rel _ (tryOptions left ctx options) (tryOptions right ctx options) := by
  induction options with
  | nil => exact sequential.pure _
  | cons option rest ih =>
    refine sequential.bind (lookups.candidates _ _) fun candidates => ?_
    cases uniqueNode (candidates.filter fun node => node.filePath ∈ option.1) with
    | some node => exact sequential.pure _
    | none => exact ih

private theorem tryBindings_related (ctx : ResolutionContext) (call : CallMeta)
    (bindings : List ImportBinding) :
    Rel _ (tryBindings left ctx call bindings) (tryBindings right ctx call bindings) := by
  induction bindings with
  | nil => exact sequential.pure _
  | cons binding rest ih =>
    unfold tryBindings
    cases (importedSymbolName binding call).bind
        (importResolutionOptions ctx.config ctx.tree ctx.path ctx.language binding) with
    | none => exact sequential.pure _
    | some options =>
      refine sequential.bind (tryOptions_related sequential lookups ctx options) fun found => ?_
      cases found with
      | some resolved => exact sequential.pure _
      | none => exact ih

private theorem keepOwned_related (owner : String) (nodes : List Node) :
    Rel _ (keepOwned left owner nodes) (keepOwned right owner nodes) := by
  induction nodes with
  | nil => exact sequential.pure _
  | cons node rest ih =>
    exact sequential.bind (lookups.owners _) fun found =>
      sequential.bind ih fun kept => sequential.pure _

private theorem chooseInPackage_related (ctx : ResolutionContext) (nodes : List Node) :
    Rel _ (chooseInPackage left ctx nodes) (chooseInPackage right ctx nodes) := by
  refine sequential.bind (lookups.owners _) fun owner => ?_
  cases owner with
  | none => exact sequential.pure _
  | some owner =>
    exact sequential.bind (keepOwned_related sequential lookups owner nodes) fun kept =>
      sequential.pure _

/-- The rules do not know how they are answered. -/
theorem resolveCall_related (ctx : ResolutionContext) (bindings : List ImportBinding)
    (call : CallMeta) :
    Rel _ (resolveCall left ctx bindings call) (resolveCall right ctx bindings call) := by
  refine sequential.bind (tryBindings_related sequential lookups ctx call _) fun found => ?_
  cases found with
  | some resolved => exact sequential.pure _
  | none =>
    exact sequential.bind (lookups.candidates _ _) fun candidates =>
      chooseInPackage_related sequential lookups ctx _

end
end

/-! ## The caches of a call -/

section
variable (nfc : String → String) (db : Db) (sourceRepoId : String) (allowed : List String)

/-- A cached answer is what the store would answer. -/
structure Caches.Filled (caches : Caches) : Prop where
  candidates : Files (callable db) caches.candidates
  owners : Files (ownerIdOf nfc db sourceRepoId) caches.owners

/-- The caches have been asked for these names since. -/
structure Caches.After (before : Caches) (asked : List (String × String)) (caches : Caches) :
    Prop where
  filled : caches.Filled nfc db sourceRepoId
  keys : ∀ key, (caches.candidates.lookup key).isSome = true ↔
    (before.candidates.lookup key).isSome = true ∨ key ∈ asked

/-- A name that is in the candidate cache when it is asked for, at the start or because it has been
asked for before, has callable nodes of allowed repos only. -/
def ReusesAllowed (before : Caches) (asked : List (String × String)) : Prop :=
  ∀ key ∈ asked, (before.candidates.lookup key).isSome = true ∨ 2 ≤ asked.count key →
    ∀ node ∈ callable db key, isAllowed allowed node = true

variable {nfc db sourceRepoId allowed} {before caches : Caches} {asked : List (String × String)}

theorem Caches.Filled.empty : Caches.Filled nfc db sourceRepoId {} := ⟨Files.nil, Files.nil⟩

theorem Caches.Filled.after (filled : caches.Filled nfc db sourceRepoId) :
    caches.After nfc db sourceRepoId [] caches := ⟨filled, fun _ => by simp⟩

theorem ReusesAllowed.of_cons {key : String × String}
    (reuses : ReusesAllowed db allowed before (key :: asked)) :
    ReusesAllowed db allowed before asked := by
  intro other mem again
  refine reuses other (.tail _ mem) (again.imp_right fun twice => ?_)
  exact twice.trans count_le_count_cons

theorem ReusesAllowed.empty (reuses : ReusesAllowed db allowed before asked) :
    ReusesAllowed db allowed {} asked := by
  intro key mem again
  refine reuses key mem (again.imp_left ?_)
  intro held
  cases held

private theorem cachedCandidates_follows (language name : String) :
    Program.Follows (before.After nfc db sourceRepoId) (ReusesAllowed db allowed before) _
      ((askingLookups nfc db sourceRepoId allowed).callableCandidates language name)
      (cachedCandidates db allowed language name) := by
  refine ⟨fun asked reuses => reuses.of_cons, ?_⟩
  intro asked caches after reuses
  have agrees : (caches.candidates.lookup (language, name)).isSome = true →
      callable db (language, name) = allowedCallable db allowed (language, name) := by
    intro hit
    refine (filter_eq_self.mpr (reuses (language, name) (.head _) ?_)).symm
    refine ((after.keys _).mp hit).imp_right fun earlier => ?_
    change 2 ≤ count (language, name) ((language, name) :: asked)
    rw [count_cons_self]
    exact Nat.succ_le_succ (count_pos_iff.mpr earlier)
  refine ⟨fetch_fst after.filled.candidates agrees, ?_, ?_⟩
  · exact ⟨after.filled.candidates.fetch, after.filled.owners⟩
  · intro key
    refine isSome_lookup_fetch.trans ?_
    change _ ↔ _ ∨ key ∈ (language, name) :: asked
    rw [after.keys, or_assoc, @or_comm (key ∈ asked), mem_cons]

private theorem cachedOwnerId_follows (path : String) :
    Program.Follows (before.After nfc db sourceRepoId) (ReusesAllowed db allowed before) _
      ((askingLookups nfc db sourceRepoId allowed).ownerId path)
      (cachedOwnerId nfc db sourceRepoId path) := by
  refine ⟨fun asked reuses => reuses, ?_⟩
  intro asked caches after _
  refine ⟨fetch_fst after.filled.owners fun _ => rfl, ?_, after.keys⟩
  exact ⟨after.filled.candidates, after.filled.owners.fetch⟩

private theorem cachedLookups_follow (before : Caches) :
    (askingLookups nfc db sourceRepoId allowed).Related
      (Program.Follows (before.After nfc db sourceRepoId) (ReusesAllowed db allowed before))
      (cachedLookups nfc db sourceRepoId allowed) where
  candidates := cachedCandidates_follows
  owners := cachedOwnerId_follows

private theorem askingLookups_yield :
    (askingLookups nfc db sourceRepoId allowed).Related Yields
      (plainLookups nfc db sourceRepoId allowed) where
  candidates _ _ _ := rfl
  owners _ _ := rfl

private theorem cachedLookups_preserve :
    (cachedLookups nfc db sourceRepoId allowed).Related
      (Preserves (Caches.Filled nfc db sourceRepoId))
      (cachedLookups nfc db sourceRepoId allowed) where
  candidates _ _ _ filled := ⟨filled.candidates.fetch, filled.owners⟩
  owners _ _ filled := ⟨filled.candidates, filled.owners.fetch⟩

/-- From filled caches that answer nothing wrong, the choice is the one without caches. -/
theorem resolveCall_cached (filled : caches.Filled nfc db sourceRepoId)
    (reuses : ReusesAllowed db allowed caches
      (resolveCall (askingLookups nfc db sourceRepoId allowed) ctx bindings call []).2) :
    (resolveCall (cachedLookups nfc db sourceRepoId allowed) ctx bindings call caches).1 =
      resolveCall (plainLookups nfc db sourceRepoId allowed) ctx bindings call := by
  have follows := resolveCall_related follows_sequential
    (@cachedLookups_follow nfc db sourceRepoId allowed caches) ctx bindings call
  have yields := resolveCall_related yields_sequential
    (@askingLookups_yield nfc db sourceRepoId allowed) ctx bindings call
  exact (follows.follows [] caches filled.after reuses).1.trans (yields [])

private theorem cachedLookups_congr {other : Db}
    (nodes : other.nodes = db.nodes) (files : other.files = db.files) :
    cachedLookups nfc other sourceRepoId allowed = cachedLookups nfc db sourceRepoId allowed := by
  have candidates : callable other = callable db := by
    funext key
    unfold callable callableNodesByName
    rw [nodes]
  have owners : ownerIdOf nfc other sourceRepoId = ownerIdOf nfc db sourceRepoId := by
    funext path
    unfold ownerIdOf fileOwnerIdForRepo findFile
    rw [files]
  unfold cachedLookups cachedCandidates cachedOwnerId allowedCallable
  rw [candidates, owners]

end

/-! ## What the rules choose without caches -/

section
variable (nfc : String → String) (db : Db) (sourceRepoId : String) (allowed : List String)

def SamePackage (path other : String) : Prop :=
  match ownerIdOf nfc db sourceRepoId path with
  | some owner => ownerIdOf nfc db sourceRepoId other = some owner
  | none => inSameDir path other = true

instance (path other : String) : Decidable (SamePackage nfc db sourceRepoId path other) := by
  unfold SamePackage
  cases ownerIdOf nfc db sourceRepoId path with
  | some owner | none => exact inferInstanceAs (Decidable (_ = _))

def packageMatches (path language : String) (call : CallMeta) : List Node :=
  (preferReceiver call (allowedCallable db allowed (language, call.calleeName))).filter
    fun node => decide (node.filePath ≠ path ∧ SamePackage nfc db sourceRepoId path node.filePath)

variable {nfc db sourceRepoId allowed}

theorem uniqueNode_mem (unique : uniqueNode nodes = some node) : node ∈ nodes := by
  unfold uniqueNode at unique
  split at unique
  · cases unique
    exact mem_singleton.mpr rfl
  · cases unique

private theorem preferReceiver_subset (call : CallMeta) (candidates : List Node) :
    preferReceiver call candidates ⊆ candidates := by
  unfold preferReceiver
  cases receiverHint call with
  | none => exact List.Subset.refl _
  | some hint =>
    dsimp only
    split
    · exact List.Subset.refl _
    · exact filter_subset_self _

def resolvedOr (found : Option Node) (later : Option Resolved) : Option Resolved :=
  match found with
  | some node => some (importsTarget node)
  | none => later

private theorem keepOwned_plain (plain : Lookups Id) (owner : String) (nodes : List Node) :
    keepOwned plain owner nodes =
      nodes.filter fun node => decide ((plain.ownerId node.filePath).run = some owner) := by
  induction nodes with
  | nil => rfl
  | cons node rest ih =>
    have unfolds : keepOwned plain owner (node :: rest) =
        if (plain.ownerId node.filePath).run = some owner then node :: keepOwned plain owner rest
        else keepOwned plain owner rest := rfl
    rw [unfolds, ih, filter_cons]
    by_cases owned : (plain.ownerId node.filePath).run = some owner
    · rw [if_pos owned, if_pos (decide_eq_true owned)]
    · rw [if_neg owned, if_neg (by simpa using owned)]

private theorem tryOptions_plain {options : List (List String × String)}
    (found : tryOptions (plainLookups nfc db sourceRepoId allowed) ctx options = some resolved) :
    ∃ key, ∃ node ∈ allowedCallable db allowed key, resolved = importsTarget node := by
  induction options with
  | nil => cases found
  | cons option rest ih =>
    obtain ⟨files, name⟩ := option
    have unfolds : tryOptions (plainLookups nfc db sourceRepoId allowed) ctx ((files, name) :: rest) =
        resolvedOr (uniqueNode ((allowedCallable db allowed (ctx.language, name)).filter fun node =>
          node.filePath ∈ files))
          (tryOptions (plainLookups nfc db sourceRepoId allowed) ctx rest) := rfl
    rw [unfolds] at found
    cases unique : uniqueNode ((allowedCallable db allowed (ctx.language, name)).filter fun node => node.filePath ∈ files) with
    | none =>
      rw [unique] at found
      exact ih found
    | some node =>
      rw [unique] at found
      cases found
      exact ⟨_, node, (mem_filter.mp (uniqueNode_mem unique)).1, rfl⟩

private theorem tryBindings_plain (found :
    tryBindings (plainLookups nfc db sourceRepoId allowed) ctx call bindings = some resolved) :
    ∃ key, ∃ node ∈ allowedCallable db allowed key, resolved = importsTarget node := by
  induction bindings with
  | nil => cases found
  | cons binding rest ih =>
    unfold tryBindings at found
    cases options : (importedSymbolName binding call).bind
      (importResolutionOptions ctx.config ctx.tree ctx.path ctx.language binding) with
    | none =>
      rw [options] at found
      cases found
    | some options' =>
      rw [options] at found
      change (match tryOptions (plainLookups nfc db sourceRepoId allowed) ctx options' with
        | some resolved => some resolved
        | none => tryBindings (plainLookups nfc db sourceRepoId allowed) ctx call rest) =
          some resolved at found
      cases first : tryOptions (plainLookups nfc db sourceRepoId allowed) ctx options' with
      | none =>
        rw [first] at found
        exact ih found
      | some other =>
        rw [first] at found
        cases found
        exact tryOptions_plain first

private theorem chooseInPackage_plain
    (found : chooseInPackage (plainLookups nfc db sourceRepoId allowed) ctx nodes = some resolved) :
    ∃ node ∈ nodes, SamePackage nfc db sourceRepoId ctx.path node.filePath ∧ resolved = samePackageTarget node := by
  unfold chooseInPackage at found
  change (match ownerIdOf nfc db sourceRepoId ctx.path with
    | some owner =>
      (((uniqueNode (keepOwned (plainLookups nfc db sourceRepoId allowed) owner nodes)).or
        (uniqueNode ((keepOwned (plainLookups nfc db sourceRepoId allowed) owner nodes).filter
          fun node => inSameDir ctx.path node.filePath))).map samePackageTarget)
    | none => (uniqueNode (nodes.filter fun node =>
      inSameDir ctx.path node.filePath)).map samePackageTarget) = some resolved at found
  unfold SamePackage
  cases owned : ownerIdOf nfc db sourceRepoId ctx.path with
  | none =>
    rw [owned] at found
    obtain ⟨node, unique, rfl⟩ := Option.map_eq_some_iff.mp found
    obtain ⟨mem, same⟩ := mem_filter.mp (uniqueNode_mem unique)
    exact ⟨node, mem, same, rfl⟩
  | some owner =>
    rw [owned] at found
    dsimp only at found
    rw [keepOwned_plain] at found
    obtain ⟨node, unique, rfl⟩ := Option.map_eq_some_iff.mp found
    have kept : node ∈ nodes.filter fun node =>
        decide (ownerIdOf nfc db sourceRepoId node.filePath = some owner) := by
      rcases Option.or_eq_some_iff.mp unique with first | ⟨_, second⟩
      · exact uniqueNode_mem first
      · exact (mem_filter.mp (uniqueNode_mem second)).1
    obtain ⟨mem, same⟩ := mem_filter.mp kept
    exact ⟨node, mem, of_decide_eq_true same, rfl⟩

private theorem resolveCall_plain (found :
    resolveCall (plainLookups nfc db sourceRepoId allowed) ctx bindings call = some resolved) :
    (∃ key, ∃ node ∈ allowedCallable db allowed key, resolved = importsTarget node) ∨
      resolveImportTarget (plainLookups nfc db sourceRepoId allowed) ctx bindings call = none ∧
        ∃ node ∈ packageMatches nfc db sourceRepoId allowed ctx.path ctx.language call, resolved = samePackageTarget node := by
  change (match resolveImportTarget (plainLookups nfc db sourceRepoId allowed) ctx bindings call with
    | some resolved => some resolved
    | none => chooseInPackage (plainLookups nfc db sourceRepoId allowed) ctx
        ((preferReceiver call (allowedCallable db allowed (ctx.language, call.calleeName))).filter
          fun node => node.filePath ≠ ctx.path)) = some resolved at found
  cases imported : resolveImportTarget (plainLookups nfc db sourceRepoId allowed) ctx bindings call with
  | some other =>
    rw [imported] at found
    cases found
    exact .inl (tryBindings_plain imported)
  | none =>
    rw [imported] at found
    obtain ⟨node, mem, same, rfl⟩ := chooseInPackage_plain found
    obtain ⟨candidate, elsewhere⟩ := mem_filter.mp mem
    refine .inr ⟨rfl, node, ?_, rfl⟩
    exact mem_filter.mpr ⟨candidate, decide_eq_true ⟨of_decide_eq_true elsewhere, same⟩⟩

end

/-! ## One call over its files -/

section
variable (scope : ReconcileScope) (db : Db)

def ReconcileScope.plain : Lookups Id := plainLookups scope.nfc db scope.sourceRepoId scope.allowed

def ReconcileScope.asking : Lookups (StateM (List (String × String))) :=
  askingLookups scope.nfc db scope.sourceRepoId scope.allowed

def ReconcileScope.cached : Lookups (StateM Caches) :=
  cachedLookups scope.nfc db scope.sourceRepoId scope.allowed

def Decision.context (decision : Decision) : ResolutionContext :=
  scope.context decision.path decision.language

/-- The names that the rules ask for when the store answers. -/
def Decision.asked (decision : Decision) : List (String × String) :=
  (resolveCall (scope.asking db) (decision.context scope) decision.bindings decision.call []).2

def Decision.ReusesAllowed (decision : Decision) : Prop :=
  Engine.ReusesAllowed db scope.allowed decision.before (decision.asked scope db)

/-- Where no import means a target, the nodes in the package of the file are of the source repo. -/
def Decision.ComparesOwn (decision : Decision) : Prop := resolveImportTarget (scope.plain db)
    (decision.context scope) decision.bindings decision.call = none →
    ∀ node ∈ packageMatches scope.nfc db scope.sourceRepoId scope.allowed decision.path
      decision.language decision.call, targetRepo scope.sourceRepoId node = scope.sourceRepoId

structure Decision.Bounded (decision : Decision) : Prop where
  allowed : ∀ resolved, decision.target = some resolved → targetRepo scope.sourceRepoId resolved.node ∈ scope.allowed
  package : ∀ resolved, decision.target = some resolved → resolved.tier = "same_package" →
    targetRepo scope.sourceRepoId resolved.node = scope.sourceRepoId ∧
      SamePackage scope.nfc db scope.sourceRepoId decision.path resolved.node.filePath
  alone : decision.target = (resolveCall (scope.cached db) (decision.context scope) decision.bindings decision.call {}).1

variable {scope db}

private theorem sourceRepoId_mem_allowed : scope.sourceRepoId ∈ scope.allowed := by
  unfold ReconcileScope.allowed allowedRepoIds
  cases scope.registry with
  | none => exact mem_singleton.mpr rfl
  | some registry => exact mem_eraseDups.mpr (.head _)

theorem targetRepo_mem_allowed (passes : isAllowed scope.allowed node = true) :
    targetRepo scope.sourceRepoId node ∈ scope.allowed := by
  unfold isAllowed at passes
  unfold targetRepo
  cases labelled : nodeRepoId node with
  | none => exact sourceRepoId_mem_allowed
  | some repoId =>
    rw [labelled] at passes
    exact of_decide_eq_true passes

theorem packageMatches_allowed
    (mem : node ∈ packageMatches scope.nfc db scope.sourceRepoId scope.allowed path language call) :
    isAllowed scope.allowed node = true ∧ SamePackage scope.nfc db scope.sourceRepoId path node.filePath := by
  obtain ⟨candidate, _, same⟩ : node ∈ preferReceiver call _ ∧ _ ∧ _ := by
    obtain ⟨candidate, elsewhere⟩ := mem_filter.mp mem
    exact ⟨candidate, of_decide_eq_true elsewhere⟩
  exact ⟨(mem_filter.mp (preferReceiver_subset call _ candidate)).2, same⟩

/-- What holds of every decision of a call. -/
structure Decision.Made (scope : ReconcileScope) (db : Db) (decision : Decision) : Prop where
  filled : decision.before.Filled scope.nfc db scope.sourceRepoId
  target : decision.target = (resolveCall (scope.cached db) (decision.context scope)
    decision.bindings decision.call decision.before).1

theorem Decision.Made.bounded {decision : Decision} (made : decision.Made scope db)
    (reuses : decision.ReusesAllowed scope db) (own : decision.ComparesOwn scope db) :
    decision.Bounded scope db := by
  have plain : decision.target = resolveCall (scope.plain db) (decision.context scope)
      decision.bindings decision.call := made.target.trans (resolveCall_cached made.filled reuses)
  have alone : (resolveCall (scope.cached db) (decision.context scope) decision.bindings
      decision.call {}).1 = resolveCall (scope.plain db) (decision.context scope)
        decision.bindings decision.call := resolveCall_cached .empty reuses.empty
  have chosen : ∀ resolved, decision.target = some resolved →
      (∃ key, ∃ node ∈ allowedCallable db scope.allowed key, resolved = importsTarget node) ∨
        resolveImportTarget (scope.plain db) (decision.context scope) decision.bindings
            decision.call = none ∧
          ∃ node ∈ packageMatches scope.nfc db scope.sourceRepoId scope.allowed decision.path
            decision.language decision.call, resolved = samePackageTarget node :=
    fun resolved found => resolveCall_plain (plain.symm.trans found)
  refine ⟨?_, ?_, plain.trans alone.symm⟩
  · intro resolved found
    rcases chosen resolved found with ⟨key, node, mem, rfl⟩ | ⟨_, node, mem, rfl⟩
    · exact targetRepo_mem_allowed (mem_filter.mp mem).2
    · exact targetRepo_mem_allowed (packageMatches_allowed mem).1
  · intro resolved found tier
    rcases chosen resolved found with ⟨key, node, mem, rfl⟩ | ⟨missing, node, mem, rfl⟩
    · change "imports" = "same_package" at tier
      exact absurd tier (by decide)
    · exact ⟨own missing node mem, (packageMatches_allowed mem).2⟩

variable {edges : List Edge} {repo : String} {state : Reconciling}

private theorem reconcileEdges_cons {lookups : Lookups (StateM Caches)} {edge : Edge} {rest : List Edge}
    (opened : openCall edge = some call) (caches : Caches) :
    reconcileEdges lookups ctx bindings (edge :: rest) caches =
      let (target, middle) := resolveCall lookups ctx bindings call caches
      let decision : Decision :=
        ⟨ctx.path, ctx.language, bindings, call, edge, caches, target⟩
      let ((edges, decisions), last) := reconcileEdges lookups ctx bindings rest middle
      ((decision.apply ctx :: edges, decision :: decisions), last) := by
  rw [reconcileEdges, opened]
  rfl

private theorem reconcileEdges_made {caches : Caches}
    (filled : caches.Filled scope.nfc db scope.sourceRepoId) :
    (reconcileEdges (scope.cached db) (scope.context path language) bindings edges caches).2.Filled
        scope.nfc db scope.sourceRepoId ∧
      ∀ decision ∈ (reconcileEdges (scope.cached db) (scope.context path language) bindings edges
        caches).1.2, decision.Made scope db := by
  induction edges generalizing caches with
  | nil => exact ⟨filled, fun decision mem => by cases mem⟩
  | cons edge rest ih =>
    cases opened : openCall edge with
    | none =>
      rw [reconcileEdges, opened]
      exact ih filled
    | some call =>
      rw [reconcileEdges_cons opened]
      have kept := resolveCall_related preserves_sequential
        (@cachedLookups_preserve scope.nfc db scope.sourceRepoId scope.allowed)
        (scope.context path language) bindings call caches filled
      obtain ⟨ends, made⟩ := ih kept
      exact ⟨ends, forall_mem_cons.mpr ⟨⟨filled, rfl⟩, made⟩⟩

def EdgesOnly (start db : Db) : Prop := db = { start with edges := db.edges }

theorem EdgesOnly.deleteEdges {db : Db} (only : EdgesOnly start db) :
    EdgesOnly start (Statement.deleteEdgesOfFile repo path db) := by
  unfold EdgesOnly Statement.deleteEdgesOfFile
  rw [only]

theorem EdgesOnly.insertEdge {db : Db}
    {extraJson : Json} {edge : Edge} (only : EdgesOnly start db) :
    EdgesOnly start (Statement.insertEdge repo extraJson edge db) := by
  unfold EdgesOnly Statement.insertEdge
  rw [only]

private theorem storeCall_rewriteFileEdges (nfc : String → String) (repo path : String) (edges : List Edge)
    {db : Db} (only : EdgesOnly start db) :
    EdgesOnly start (storeCall (rewriteFileEdgesForRepo nfc .faultless repo path edges) db).2 := by
  unfold storeCall rewriteFileEdgesForRepo
  cases canonicalizeGraphSlice nfc path [] edges with
  | error error => exact only
  | ok normal =>
    have kept : EdgesOnly start (transaction AtlasError.db .propagate .faultless
      [rewriteFileEdges repo normal.path normal.edges] () ⟨db, none⟩).2.committed := by
      refine (transaction_invariant ?_ only).1
      intro block mem current holds
      rw [mem_singleton.mp mem]
      refine Keeps.of_each ?_
      intro statement issued other within
      rcases mem_append.mp issued with first | later
      · rw [mem_singleton.mp first]
        exact within.deleteEdges
      · obtain ⟨edge, _, rfl⟩ := mem_map.mp later
        exact within.insertEdge
    dsimp only
    cases ran : transaction AtlasError.db .propagate .faultless
      [rewriteFileEdges repo normal.path normal.edges] () ⟨db, none⟩ with
    | mk outcome conn =>
      rw [ran] at kept
      cases outcome with
      | ok value | error error => exact kept

/-- What holds of a call at any time: only edge rows have changed. -/
structure Reconciling.Within (scope : ReconcileScope) (db : Db) (state : Reconciling) : Prop where
  tables : EdgesOnly db state.db
  filled : state.caches.Filled scope.nfc db scope.sourceRepoId
  made : ∀ decision ∈ state.decisions, decision.Made scope db

private theorem resolveFile_within (within : state.Within scope db) :
    (resolveFile scope path language nodes edges).Meets state
      (fun _ reached => reached.Within scope db) (fun reached => reached.Within scope db) := by
  have same : cachedLookups scope.nfc state.db scope.sourceRepoId scope.allowed =
      scope.cached db := by
    refine cachedLookups_congr ?_ ?_
    all_goals rw [within.tables]
  unfold Run.Meets resolveFile
  rw [same]
  obtain ⟨filled, made⟩ := @reconcileEdges_made (collectImportBindings nodes) path language scope db
    edges state.caches within.filled
  exact ⟨within.tables, filled, forall_mem_append.mpr ⟨within.made, made⟩⟩

private theorem reconcileFile_within (path : String) (within : state.Within scope db) :
    (reconcileFile scope path).Meets state
      (fun _ reached => reached.Within scope db) (fun reached => reached.Within scope db) := by
  unfold reconcileFile
  refine Run.Meets.bind (Run.Meets.get ?_)
  split
  · exact Run.Meets.pure within
  refine Run.Meets.bind (Run.Meets.modify ?_)
  have marked : Reconciling.Within scope db { state with seen := path :: state.seen } :=
    ⟨within.tables, within.filled, within.made⟩
  refine Run.Meets.bind (Run.Meets.ofExcept (fun nodes _ => ?_) fun _ _ => marked)
  split
  · exact Run.Meets.pure marked
  refine Run.Meets.bind (Run.Meets.ofExcept (fun edges _ => ?_) fun _ _ => marked)
  refine Run.Meets.bind ((resolveFile_within marked).mono ?_)
  intro ⟨edges, decisions⟩ resolved holds
  dsimp only
  split
  · have stored : Reconciling.Within scope db { resolved with
        db := (storeCall (rewriteFileEdgesForRepo scope.nfc .faultless scope.sourceRepoId path edges)
          resolved.db).2 } :=
      ⟨storeCall_rewriteFileEdges _ _ _ _ holds.tables, holds.filled, holds.made⟩
    refine Run.Meets.bind ?_
    unfold Run.Meets onStore
    cases (storeCall (rewriteFileEdgesForRepo scope.nfc .faultless scope.sourceRepoId path edges) resolved.db).1 with
    | error msg => exact stored
    | ok value => exact ⟨stored.tables, stored.filled, stored.made⟩
  · exact Run.Meets.pure holds

private theorem reconcileFiles_within (filePaths : List String) :
    Reconciling.Within scope db (reconcileFiles scope filePaths { db }).2 := by
  have start : Reconciling.Within scope db { db } :=
    ⟨rfl, .empty, fun decision mem => by cases mem⟩
  have meets : (reconcileFiles scope filePaths).Meets { db }
    (fun _ reached => reached.Within scope db) (fun reached => reached.Within scope db) := by
    refine Run.Meets.forEach (fun _ (state : Reconciling) => state.Within scope db) filePaths [] start ?_
    intro _ path _ state _ within
    exact reconcileFile_within path within
  exact meets.reached

end

section
def rustNode (repo kind name path : String) : NodeRow where
  id := 1
  kind := kind
  name := name
  qualifiedName := path ++ "::" ++ name
  filePath := path
  lineStart := 1
  lineEnd := 9
  language := some "rust"
  parentName := none
  params := none
  returnType := none
  modifiers := none
  isTest := false
  fileHash := some "h"
  extraJson := .obj [("repo_id", .str repo)]
  sourceRepoId := repo

def helperCall (id line : Nat) : EdgeRow where
  id := id
  kind := "calls"
  sourceQualified := "src/a.rs::run"
  targetQualified := "helper"
  filePath := some "src/a.rs"
  line := some line
  confidence := 0
  confidenceTier := none
  extraJson := .obj [("callee_name", .str "helper")]
  sourceRepoId := "app"

def helperIn (repo : String) : Db where
  nodes := [rustNode "app" "function" "run" "src/a.rs", rustNode repo "function" "helper" "src/h.rs"]
  edges := [helperCall 1 3, helperCall 2 4]

def appScope : ReconcileScope where
  nfc := id
  sourceRepoId := "app"
  registry := none
  config := ⟨[], none⟩
  tree := ⟨fun _ => false, fun _ => none, fun _ => none⟩

end
end Atlas.Engine
