import Atlas.History.Lifecycle
import Mathlib.Data.List.Induction

/-! What the accumulators hold after any number of snapshots, carried over to the rows that
are written, and the repetition of a whole run. -/
namespace Atlas.History
open List Sql Program

section
variable {Key Item : Type} [LinearOrder Key] {identity : Item → Key} {hash : Item → Option String}

theorem get?_recordItems {index : Nat} {snapshot : StoredSnapshot} {key : Key} :
    ∀ {items : List Item} (map : SortedMap Key Accumulator), (items.map identity).Nodup →
      (items.foldl (recordItem identity hash index snapshot) map).get? key =
        match items.find? fun item => decide (identity item = key) with
        | none => map.get? key
        | some item => some (((map.get? key).map (.seen (hash item) index snapshot)).getD
            (.start (hash item) index snapshot)) := by
  intro items
  induction items with
  | nil =>
    intro map _
    rfl
  | cons item rest ih =>
    intro map nodup
    rw [map_cons, nodup_cons] at nodup
    rw [foldl_cons, ih _ nodup.2, find?_cons]
    by_cases same : identity item = key
    · have absent : rest.find? (fun item => decide (identity item = key)) = none := by
        rw [find?_eq_none]
        intro other mem
        rw [decide_eq_true_eq]
        intro otherSame
        exact nodup.1 (same ▸ otherSame ▸ mem_map_of_mem mem)
      rw [absent, decide_eq_true same]
      dsimp only
      rw [recordItem, SortedMap.get?_modifyOrInsert, if_pos same.symm, same]
    · rw [decide_eq_false same]
      have kept : (recordItem identity hash index snapshot map item).get? key = map.get? key := by
        rw [recordItem, SortedMap.get?_modifyOrInsert, if_neg (Ne.symm same)]
      rw [kept]

/-! ## Any number of snapshots -/

structure Accumulator.Summarises (acc : Accumulator)
    (present : StoredSnapshot → Bool) (snapshots : List StoredSnapshot) : Prop where
  first : ∃ before snapshot after, snapshots = before ++ snapshot :: after ∧ before.length =
    acc.firstIndex ∧ present snapshot = true ∧ (∀ earlier ∈ before, present earlier = false) ∧
    acc.firstSnapshotId = snapshot.snapshotId ∧ acc.firstCommitSha = snapshot.commitSha
  last : ∃ before snapshot after, snapshots = before ++ snapshot :: after ∧ before.length =
    acc.lastIndex ∧ present snapshot = true ∧ (∀ later ∈ after, present later = false) ∧
    acc.lastSnapshotId = snapshot.snapshotId ∧ acc.lastCommitSha = snapshot.commitSha
  count : acc.presenceCount = snapshots.countP present

variable {present : StoredSnapshot → Bool} {passed : List StoredSnapshot}
  {snapshot : StoredSnapshot} {acc : Accumulator} {itemHash : Option String}

theorem Accumulator.Summarises.absent (summary : acc.Summarises present passed)
    (absent : present snapshot = false) : acc.Summarises present (passed ++ [snapshot]) := by
  obtain ⟨before, first, after, whole, index, found, earlier, ids⟩ := summary.first
  obtain ⟨before', last, after', whole', index', found', later, ids'⟩ := summary.last
  refine ⟨⟨before, first, after ++ [snapshot], by simp [whole], index, found, earlier, ids⟩,
    ⟨before', last, after' ++ [snapshot], by simp [whole'], index', found', ?_, ids'⟩, ?_⟩
  · intro other mem
    obtain inside | final := mem_append.mp mem
    · exact later other inside
    · rw [mem_singleton.mp final]
      exact absent
  · rw [summary.count, countP_append, countP_singleton, absent]
    rfl

theorem Accumulator.Summarises.seen (summary : acc.Summarises present passed)
    (here : present snapshot = true) :
    (Accumulator.seen itemHash passed.length snapshot acc).Summarises present (passed ++ [snapshot]) := by
  obtain ⟨before, first, after, whole, index, found, earlier, ids⟩ := summary.first
  refine ⟨⟨before, first, after ++ [snapshot], by simp [whole], index, found, earlier, ids⟩,
    ⟨passed, snapshot, [], rfl, rfl, here, nofun, rfl, rfl⟩, ?_⟩
  change acc.presenceCount + 1 = _
  rw [summary.count, countP_append, countP_singleton, here]
  rfl

theorem Accumulator.summarises_start (here : present snapshot = true)
    (never : ∀ earlier ∈ passed, present earlier = false) :
    (Accumulator.start itemHash passed.length snapshot).Summarises present (passed ++ [snapshot]) := by
  refine ⟨⟨passed, snapshot, [], rfl, rfl, here, never, rfl, rfl⟩, ⟨passed, snapshot, [], rfl, rfl, here, nofun, rfl, rfl⟩, ?_⟩
  have zero : passed.countP present = 0 :=
    countP_eq_zero.mpr fun earlier mem => by rw [never earlier mem]; exact Bool.false_ne_true
  rw [countP_append, countP_singleton, here, zero]
  rfl

variable (identity) in
def occursIn (items : StoredSnapshot → List Item) (key : Key) (snapshot : StoredSnapshot) : Bool :=
  decide (key ∈ (items snapshot).map identity)

variable {items : StoredSnapshot → List Item}

theorem accumulate_append (passed : List StoredSnapshot) (snapshot : StoredSnapshot) :
    accumulate identity hash items (passed ++ [snapshot]) =
      (items snapshot).foldl (recordItem identity hash passed.length snapshot) (accumulate identity hash items passed) := by
  unfold accumulate
  rw [zipIdx_append, foldl_append]
  simp

theorem accumulate_spec (nodup : ∀ snapshot, ((items snapshot).map identity).Nodup)
    (snapshots : List StoredSnapshot) (key : Key) :
    match (accumulate identity hash items snapshots).get? key with
    | none => ∀ snapshot ∈ snapshots, occursIn identity items key snapshot = false
    | some acc => acc.Summarises (occursIn identity items key) snapshots := by
  induction snapshots using reverseRecOn with
  | nil =>
    intro snapshot mem
    cases mem
  | append_singleton passed snapshot ih =>
    rw [accumulate_append, get?_recordItems _ (nodup snapshot)]
    cases found : (items snapshot).find? fun item => decide (identity item = key) with
    | none =>
      have absent : occursIn identity items key snapshot = false := by
        refine decide_eq_false fun inside => ?_
        obtain ⟨item, mem, same⟩ := mem_map.mp inside
        exact find?_eq_none.mp found item mem (decide_eq_true same)
      dsimp only
      cases before : (accumulate identity hash items passed).get? key with
      | none =>
        rw [before] at ih
        intro other mem
        obtain inside | final := mem_append.mp mem
        · exact ih other inside
        · rw [mem_singleton.mp final]
          exact absent
      | some acc =>
        rw [before] at ih
        exact ih.absent absent
    | some item =>
      have here : occursIn identity items key snapshot = true := by
        have same := find?_some found
        rw [decide_eq_true_eq] at same
        exact decide_eq_true (mem_map.mpr ⟨item, mem_of_find?_eq_some found, same⟩)
      dsimp only
      cases before : (accumulate identity hash items passed).get? key with
      | none =>
        rw [before] at ih
        exact Accumulator.summarises_start here ih
      | some acc =>
        rw [before] at ih
        exact ih.seen here

theorem accumulate_get?_isSome (nodup : ∀ snapshot, ((items snapshot).map identity).Nodup)
    {snapshots : List StoredSnapshot} {key : Key} :
    (∃ acc, (accumulate identity hash items snapshots).get? key = some acc) ↔
      ∃ snapshot ∈ snapshots, occursIn identity items key snapshot = true := by
  have spec := @accumulate_spec _ _ _ _ hash _ nodup snapshots key
  cases found : (accumulate identity hash items snapshots).get? key with
  | none =>
    rw [found] at spec
    refine iff_of_false (fun ⟨_, holds⟩ => nomatch holds) ?_
    rintro ⟨snapshot, mem, here⟩
    rw [spec snapshot mem] at here
    cases here
  | some acc =>
    rw [found] at spec
    obtain ⟨before, snapshot, after, whole, _, here, _⟩ := spec.first
    exact iff_of_true ⟨acc, rfl⟩ ⟨snapshot, whole ▸ mem_append_right _ (.head _), here⟩

end

/-! ## What a snapshot contains -/

theorem length_filter_key_le {Row Key : Type} [DecidableEq Key]
    {key : Row → Key} {rows : List Row} (nodup : (rows.map key).Nodup) (wanted : Key) :
    (rows.filter fun row => decide (key row = wanted)).length ≤ 1 := by
  cases found : rows.filter fun row => decide (key row = wanted) with
  | nil => exact Nat.zero_le _
  | cons first rest =>
    have mem : first ∈ rows.filter fun row => decide (key row = wanted) := found ▸ mem_cons_self
    obtain ⟨stored, same⟩ := mem_filter.mp mem
    rw [decide_eq_true_eq] at same
    have alone := filter_key_eq_of_mem nodup stored
    rw [same, found] at alone
    rw [alone]
    exact Nat.le_refl 1

theorem nodup_map_flatMap {Row Member Name : Type} {name : Member → Name} {rowName : Row → Name}
    {select : Member → List Row} (named : ∀ mem, ∀ row ∈ select mem, rowName row = name mem)
    (few : ∀ mem, (select mem).length ≤ 1) {members : List Member}
    (nodup : (members.map name).Nodup) : ((members.flatMap select).map rowName).Nodup := by
  induction members with
  | nil => exact nodup_nil
  | cons mem rest ih =>
    rw [map_cons, nodup_cons] at nodup
    rw [flatMap_cons, map_append]
    refine nodup_append'.mpr ⟨?_, ih nodup.2, ?_⟩
    · have size := few mem
      match rows : select mem with
      | [] => exact nodup_nil
      | [row] => exact nodup_singleton _
      | _ :: _ :: _ =>
        rw [rows] at size
        simp at size
    · intro wanted inFirst inRest
      obtain ⟨row, inside, rfl⟩ := mem_map.mp inFirst
      obtain ⟨other, among, same⟩ := mem_map.mp inRest
      obtain ⟨later, member', selected⟩ := mem_flatMap.mp among
      rw [named mem row inside, named later other selected] at same
      exact nodup.1 (same ▸ mem_map_of_mem member')

theorem nodup_map_of_key {Row Key Column : Type} {key : Row → Nat × Key} {column : Row → Column}
    {id : Row → Nat} {rest : Row → Key} (split : ∀ row, key row = (id row, rest row))
    {rows : List Row} (nodup : (rows.map key).Nodup) (wanted : Nat)
    (determined : ∀ left right : Row, column left = column right → rest left = rest right) :
    ((rows.filter fun row => decide (id row = wanted)).map column).Nodup := by
  refine List.Nodup.map_on ?_ ((nodup.of_map).filter _)
  intro left leftMem right rightMem same
  obtain ⟨leftStored, leftId⟩ := mem_filter.mp leftMem
  obtain ⟨rightStored, rightId⟩ := mem_filter.mp rightMem
  rw [decide_eq_true_eq] at leftId rightId
  refine inj_on_of_nodup_map nodup leftStored rightStored ?_
  rw [split, split, leftId, rightId, determined left right same]

theorem LifecycleStore.nodeIdentities_nodup (store : LifecycleStore) (snapshotId : Nat) :
    ((reconstructSnapshotNodes store.db snapshotId).map nodeIdentity).Nodup := by
  have names : ((reconstructSnapshotNodes store.db snapshotId).map HistoricalNode.qualifiedName).Nodup := by
    unfold reconstructSnapshotNodes
    refine ((perm_insertionSort _ _).map _).nodup_iff.mpr ?_
    refine @nodup_map_flatMap _ _ _ SnapshotNode.qualifiedName _ _ ?_ ?_ _ ?_
    · intro mem row inside
      have same := (mem_filter.mp inside).2
      rw [decide_eq_true_eq] at same
      exact (Prod.mk.inj same).2
    · intro mem
      exact length_filter_key_le store.nodeKeys _
    · exact @nodup_map_of_key _ _ _ SnapshotNode.key _ SnapshotNode.snapshotId
        SnapshotNode.qualifiedName (fun _ => rfl) _ store.memberNodes snapshotId
        (fun _ _ same => same)
  have split : (reconstructSnapshotNodes store.db snapshotId).map HistoricalNode.qualifiedName =
      ((reconstructSnapshotNodes store.db snapshotId).map nodeIdentity).map fun identity => (ofLex identity).1 := by
    rw [map_map]
    rfl
  rw [split] at names
  exact names.of_map

theorem LifecycleStore.edgeIdentities_nodup (store : LifecycleStore) (snapshotId : Nat) :
    ((reconstructSnapshotEdges store.db snapshotId).map edgeIdentity).Nodup := by
  have keys : ((reconstructSnapshotEdges store.db snapshotId).map HistoricalEdge.edgeKey).Nodup := by
    unfold reconstructSnapshotEdges
    refine ((perm_insertionSort _ _).map _).nodup_iff.mpr ?_
    refine @nodup_map_flatMap _ _ _ SnapshotEdge.edgeKey _ _ ?_ ?_ _ ?_
    · intro mem row inside
      have same := (mem_filter.mp inside).2
      rw [decide_eq_true_eq] at same
      exact (Prod.mk.inj same).2
    · intro mem
      exact length_filter_key_le store.edgeKeys _
    · exact @nodup_map_of_key _ _ _ SnapshotEdge.key _ SnapshotEdge.snapshotId SnapshotEdge.edgeKey
        (fun _ => rfl) _ store.memberEdges snapshotId (fun _ _ same => same)
  have split : (reconstructSnapshotEdges store.db snapshotId).map HistoricalEdge.edgeKey =
    ((reconstructSnapshotEdges store.db snapshotId).map edgeIdentity).map fun identity =>
        ((ofLex identity).1, (ofLex (ofLex identity).2).1, (ofLex (ofLex (ofLex identity).2).2).1) := by
    rw [map_map]
    rfl
  rw [split] at keys
  exact keys.of_map

/-- First and last snapshot of the span are those at which the thing is present. -/
structure Lifespan.Exact (span : Lifespan) (present : StoredSnapshot → Bool)
    (snapshots : List StoredSnapshot) (firstIndex lastIndex : Nat) : Prop where
  first : ∃ before snapshot after, snapshots = before ++ snapshot :: after ∧ before.length =
    firstIndex ∧ present snapshot = true ∧ (∀ earlier ∈ before, present earlier = false) ∧
    span.firstSnapshotId = snapshot.snapshotId ∧ span.firstCommitSha = snapshot.commitSha ∧
    span.introductionCommitSha = snapshot.commitSha
  last : ∃ before snapshot after, snapshots = before ++ snapshot :: after ∧
    before.length = lastIndex ∧ present snapshot = true ∧ (∀ later ∈ after, present later = false) ∧
    span.lastSnapshotId = snapshot.snapshotId ∧ span.lastCommitSha = snapshot.commitSha ∧
    span.removalCommitSha = after.head?.map StoredSnapshot.commitSha
  removal : span.removalCommitSha = none ↔ ∃ final, snapshots.getLast? = some final ∧ present final = true
  presence : span.evidenceJson = some (History.evidenceJson (snapshots.countP present) firstIndex lastIndex)

theorem Accumulator.Summarises.exact {acc : Accumulator} {present : StoredSnapshot → Bool}
    {snapshots : List StoredSnapshot} (summary : acc.Summarises present snapshots) :
    (acc.lifespan snapshots).Exact present snapshots acc.firstIndex acc.lastIndex := by
  obtain ⟨before, first, after, whole, index, found, earlier, ids⟩ := summary.first
  obtain ⟨before', last, after', whole', index', found', later, ids'⟩ := summary.last
  have removal : (acc.lifespan snapshots).removalCommitSha = after'.head?.map StoredSnapshot.commitSha := by
    change snapshots[acc.lastIndex + 1]?.map StoredSnapshot.commitSha = _
    rw [whole', ← index', append_cons, head?_eq_getElem?]
    congr 1
    rw [getElem?_append_right (by simp)]
    simp
  refine ⟨⟨before, first, after, whole, index, found, earlier, ids.1, ids.2, ids.2⟩,
    ⟨before', last, after', whole', index', found', later, ids'.1, ids'.2, removal⟩, ?_, ?_⟩
  · rw [removal]
    cases after' with
    | nil => exact iff_of_true rfl ⟨last, by rw [whole', getLast?_concat], found'⟩
    | cons next rest =>
      refine iff_of_false nofun ?_
      rintro ⟨final, isLast, here⟩
      have mem : final ∈ next :: rest := by
        rw [whole', append_cons, getLast?_append_of_ne_nil _ (cons_ne_nil _ _)] at isLast
        exact mem_of_getLast? isLast
      rw [later final mem] at here
      cases here
  · rw [← summary.count]
    rfl

def hasNode (db : Db) : NodeIdentity → StoredSnapshot → Bool :=
  occursIn nodeIdentity fun snapshot => reconstructSnapshotNodes db snapshot.snapshotId
def hasEdge (db : Db) : EdgeIdentity → StoredSnapshot → Bool :=
  occursIn edgeIdentity fun snapshot => reconstructSnapshotEdges db snapshot.snapshotId

theorem insertEach_ok {Row Key : Type} [DecidableEq Key] {key : Row → Key} :
    ∀ {entries rows : List Row}, (entries.map key).Nodup → (∀ entry ∈ entries,
      key entry ∉ rows.map key) → insertEach key rows entries = (.ok (), rows ++ entries) := by
  intro entries
  induction entries with
  | nil =>
    intro rows _ _
    rw [insertEach, append_nil]
  | cons entry rest ih =>
    intro rows nodup free
    rw [map_cons, nodup_cons] at nodup
    rw [insertEach, if_neg (free entry mem_cons_self), ih nodup.2, ← append_cons]
    intro other mem
    rw [map_append, map_singleton, mem_append, mem_singleton, not_or]
    refine ⟨free other (.tail _ mem), fun same => ?_⟩
    exact nodup.1 (same ▸ mem_map_of_mem mem)

theorem insertEach_deleteWhere {Row Key : Type} [DecidableEq Key] {key : Row → Nat × Key}
    {repo : Row → Nat} (split : ∀ row, (key row).1 = repo row) {repoId : Nat} {rows entries : List Row}
    (nodup : (entries.map key).Nodup) (owned : ∀ entry ∈ entries, repo entry = repoId) :
    insertEach key (deleteWhere (fun row => decide (repo row = repoId)) rows) entries =
      (.ok (), deleteWhere (fun row => decide (repo row = repoId)) rows ++ entries) := by
  refine insertEach_ok nodup fun entry mem taken => ?_
  obtain ⟨row, kept, same⟩ := mem_map.mp taken
  have other := (mem_deleteWhere.mp kept).2
  rw [decide_eq_false_iff_not] at other
  exact other (by rw [← split, same, split, owned entry mem])

theorem deleteWhere_append_owned {Row : Type} {repo : Row → Nat} {repoId : Nat}
    {rows entries : List Row} (owned : ∀ entry ∈ entries, repo entry = repoId) :
    deleteWhere (fun row => decide (repo row = repoId)) (deleteWhere (fun row => decide (repo row =
      repoId)) rows ++ entries) = deleteWhere (fun row => decide (repo row = repoId)) rows := by
  unfold deleteWhere
  have gone : entries.filter (fun row => !decide (repo row = repoId)) = [] := by
    rw [filter_eq_nil_iff]
    intro entry mem
    simp [owned entry mem]
  rw [filter_append, gone, append_nil, filter_filter]
  simp

theorem nodup_keys {Key Row : Type} [LinearOrder Key] (map : SortedMap Key Accumulator)
    {key : Row → Nat × Key} {row : Key → Accumulator → Row} {repoId : Nat}
    (spelled : ∀ identity acc, key (row identity acc) = (repoId, identity)) :
    ((map.entries.map fun entry => row entry.1 entry.2).map key).Nodup := by
  rw [map_map]
  refine List.Nodup.map_on ?_ ?_
  · intro left leftMem right rightMem same
    simp only [Function.comp_apply, spelled, Prod.mk.injEq, true_and] at same
    have nodup : (map.entries.map Prod.fst).Nodup := (pairwise_map.mpr map.ascending).imp fun less => less.ne
    exact inj_on_of_nodup_map nodup leftMem rightMem same
  · exact map.ascending.imp fun less same => absurd (congrArg Prod.fst same) less.ne

section
variable {text : LifecycleText} {store : LifecycleStore} {repoId : Nat}
  {snapshots : List StoredSnapshot}

theorem nodeRows_owned : ∀ row ∈ nodeRows text store.db repoId snapshots, row.repoId = repoId := by
  intro row mem
  obtain ⟨entry, _, rfl⟩ := mem_map.mp mem
  rfl

theorem edgeRows_owned : ∀ row ∈ edgeRows text store.db repoId snapshots, row.repoId = repoId := by
  intro row mem
  obtain ⟨entry, _, rfl⟩ := mem_map.mp mem
  rfl

theorem nodeRows_keys :
    ((nodeRows text store.db repoId snapshots).map StoredNodeHistory.key).Nodup :=
  nodup_keys _ fun _ _ => rfl
theorem edgeRows_keys :
    ((edgeRows text store.db repoId snapshots).map StoredEdgeHistory.key).Nodup :=
  nodup_keys _ fun _ _ => rfl

theorem replaceNodeHistory_ok :
    (store.replaceNodeHistory repoId (nodeRows text store.db repoId snapshots)).1 = .ok () ∧
      (store.replaceNodeHistory repoId (nodeRows text store.db repoId snapshots)).2.nodeHistory =
        deleteWhere (fun row => decide (row.repoId = repoId)) store.nodeHistory ++ nodeRows text store.db repoId snapshots := by
  have inserted :=
    @insertEach_deleteWhere _ _ _ StoredNodeHistory.key StoredNodeHistory.repoId (fun _ => rfl)
      repoId store.nodeHistory _ nodeRows_keys (@nodeRows_owned text store repoId snapshots)
  exact ⟨congrArg Prod.fst inserted, congrArg Prod.snd inserted⟩

theorem replaceEdgeHistory_ok (other : LifecycleStore) :
    (other.replaceEdgeHistory repoId (edgeRows text store.db repoId snapshots)).1 = .ok () ∧
      (other.replaceEdgeHistory repoId (edgeRows text store.db repoId snapshots)).2.edgeHistory =
        deleteWhere (fun row => decide (row.repoId = repoId)) other.edgeHistory ++ edgeRows text store.db repoId snapshots := by
  have inserted :=
    @insertEach_deleteWhere _ _ _ StoredEdgeHistory.key StoredEdgeHistory.repoId (fun _ => rfl)
      repoId other.edgeHistory _ edgeRows_keys (@edgeRows_owned text store repoId snapshots)
  exact ⟨congrArg Prod.fst inserted, congrArg Prod.snd inserted⟩

theorem recomputeLifecycle_eq {canonicalRoot : String}
    (registered : findRepoId store.db canonicalRoot = some repoId)
    (listed : listSnapshotsOrdered store.db repoId = snapshots) (nonempty : snapshots ≠ []) :
    (recomputeLifecycle text canonicalRoot store).1 = .ok
        { repoId, snapshotCount := snapshots.length,
          nodeHistoryRows := (nodeRows text store.db repoId snapshots).length,
          edgeHistoryRows := (edgeRows text store.db repoId snapshots).length } ∧
      (recomputeLifecycle text canonicalRoot store).2.db = store.db ∧
      (recomputeLifecycle text canonicalRoot store).2.nodeHistory = deleteWhere (fun row =>
        decide (row.repoId = repoId)) store.nodeHistory ++ nodeRows text store.db repoId snapshots ∧
      (recomputeLifecycle text canonicalRoot store).2.edgeHistory = deleteWhere (fun row => decide
        (row.repoId = repoId)) store.edgeHistory ++ edgeRows text store.db repoId snapshots := by
  obtain ⟨nodesOk, nodes⟩ := @replaceNodeHistory_ok text store repoId snapshots
  have kept : (store.replaceNodeHistory repoId (nodeRows text store.db repoId snapshots)).2.db = store.db := rfl
  have edgesKept : (store.replaceNodeHistory repoId
    (nodeRows text store.db repoId snapshots)).2.edgeHistory = store.edgeHistory := rfl
  obtain ⟨edgesOk, edges⟩ := @replaceEdgeHistory_ok text store repoId snapshots
    (store.replaceNodeHistory repoId (nodeRows text store.db repoId snapshots)).2
  unfold recomputeLifecycle
  simp only [registered, listed, if_neg nonempty]
  generalize store.replaceNodeHistory repoId (nodeRows text store.db repoId snapshots) = first
    at nodesOk nodes kept edgesKept edgesOk edges
  obtain ⟨firstResult, withNodes⟩ := first
  cases nodesOk
  dsimp only at nodes kept edgesKept edgesOk edges ⊢
  have nodesKept : (withNodes.replaceEdgeHistory repoId
    (edgeRows text store.db repoId snapshots)).2.nodeHistory = withNodes.nodeHistory := rfl
  have dbKept : (withNodes.replaceEdgeHistory repoId (edgeRows text store.db repoId snapshots)).2.db = withNodes.db := rfl
  generalize withNodes.replaceEdgeHistory repoId (edgeRows text store.db repoId snapshots) = second
    at edgesOk edges nodesKept dbKept
  obtain ⟨secondResult, replaced⟩ := second
  cases edgesOk
  exact ⟨rfl, dbKept.trans kept, nodesKept.trans nodes, edgesKept ▸ edges⟩

theorem recomputeLifecycle_empty {canonicalRoot : String}
    (registered : findRepoId store.db canonicalRoot = some repoId)
    (empty : listSnapshotsOrdered store.db repoId = []) :
    recomputeLifecycle text canonicalRoot store = (.ok { repoId }, store) := by
  unfold recomputeLifecycle
  simp only [registered, empty, if_true]

theorem recomputeLifecycle_twice {canonicalRoot : String}
    (registered : findRepoId store.db canonicalRoot = some repoId) :
    recomputeLifecycle text canonicalRoot (recomputeLifecycle text canonicalRoot store).2 =
      recomputeLifecycle text canonicalRoot store := by
  by_cases empty : listSnapshotsOrdered store.db repoId = []
  · rw [recomputeLifecycle_empty registered empty, recomputeLifecycle_empty registered empty]
  · obtain ⟨result, db, nodes, edges⟩ := @recomputeLifecycle_eq text _ _ _ _ registered rfl empty
    have again := @recomputeLifecycle_eq text (recomputeLifecycle text canonicalRoot store).2
      repoId (listSnapshotsOrdered store.db repoId) canonicalRoot (db.symm ▸ registered)
      (db.symm ▸ rfl) empty
    rw [db, nodes, edges, deleteWhere_append_owned nodeRows_owned, deleteWhere_append_owned edgeRows_owned] at again
    obtain ⟨result', db', nodes', edges'⟩ := again
    exact Prod.ext (result'.trans result.symm)
      (LifecycleStore.ext (db'.trans db.symm) (nodes'.trans nodes.symm) (edges'.trans edges.symm))

/-! ## The summary of a repository -/

end

section
variable {Key Item Row : Type} [LinearOrder Key] {identity : Item → Key}
  {hash : Item → Option String} {items : StoredSnapshot → List Item} {key : Row → Nat × Key}
  {row : Key → Accumulator → Row} {repoId : Nat} {snapshots : List StoredSnapshot}

section
variable (nodup : ∀ snapshot, ((items snapshot).map identity).Nodup)
  (spelled : ∀ identity acc, key (row identity acc) = (repoId, identity))
include nodup spelled

theorem row_of_present {span : Row → Lifespan}
    (spans : ∀ identity acc, span (row identity acc) = acc.lifespan snapshots) {others : List Row}
    (apart : ∀ other ∈ others, (key other).1 ≠ repoId) {wanted : Key}
    (occurs : ∃ snapshot ∈ snapshots, occursIn identity items wanted snapshot = true) :
    ∃ found, (others ++ (accumulate identity hash items snapshots).entries.map fun entry =>
      row entry.1 entry.2).filter (fun other => decide (key other = (repoId, wanted))) = [found] ∧
      ∃ firstIndex lastIndex, (span found).Exact (occursIn identity items wanted) snapshots firstIndex lastIndex := by
  obtain ⟨acc, found⟩ := (@accumulate_get?_isSome _ _ _ _ hash _ nodup snapshots wanted).mpr occurs
  have spec := @accumulate_spec _ _ _ _ hash _ nodup snapshots wanted
  rw [found] at spec
  have mem : row wanted acc ∈ (accumulate identity hash items snapshots).entries.map fun entry =>
    row entry.1 entry.2 := mem_map.mpr ⟨(wanted, acc), SortedMap.get?_eq_some_iff.mp found, rfl⟩
  refine ⟨row wanted acc, ?_, acc.firstIndex, acc.lastIndex, ?_⟩
  · have none : others.filter (fun other => decide (key other = (repoId, wanted))) = [] := by
      rw [filter_eq_nil_iff]
      intro other kept same
      rw [decide_eq_true_eq] at same
      exact apart other kept (congrArg Prod.fst same)
    have alone := filter_key_eq_of_mem (nodup_keys _ spelled) mem
    rw [spelled] at alone
    rw [filter_append, none, nil_append, alone]
  · rw [spans]
    exact spec.exact

theorem present_of_row {others : List Row}
    (apart : ∀ other ∈ others, (key other).1 ≠ repoId) {found : Row}
    (mem : found ∈ others ++ (accumulate identity hash items snapshots).entries.map fun entry =>
      row entry.1 entry.2) (owned : (key found).1 = repoId) :
    ∃ snapshot ∈ snapshots, occursIn identity items (key found).2 snapshot = true := by
  obtain old | made := mem_append.mp mem
  · exact absurd owned (apart found old)
  · obtain ⟨entry, inside, rfl⟩ := mem_map.mp made
    rw [spelled]
    exact (@accumulate_get?_isSome _ _ _ _ hash _ nodup snapshots entry.1).mp ⟨entry.2, SortedMap.get?_eq_some_iff.mpr inside⟩

end
end

theorem deleteWhere_apart {Row Key : Type} {key : Row → Nat × Key}
    {repo : Row → Nat} (split : ∀ row, (key row).1 = repo row) {repoId : Nat} {rows : List Row} :
    ∀ row ∈ deleteWhere (fun row => decide (repo row = repoId)) rows, (key row).1 ≠ repoId := by
  intro row kept
  rw [split]
  exact of_decide_eq_false (mem_deleteWhere.mp kept).2

/-- The rows of a repository after a run: one exact row for each node and each edge that
occurs in a snapshot, and with snapshots no others. A second run changes nothing. -/
theorem recomputeLifecycle_summarises (text : LifecycleText) {canonicalRoot : String}
    {store : LifecycleStore} {repoId : Nat}
    (registered : findRepoId store.db canonicalRoot = some repoId) :
    let snapshots := listSnapshotsOrdered store.db repoId
    let after := (recomputeLifecycle text canonicalRoot store).2
    (∃ summary, (recomputeLifecycle text canonicalRoot store).1 = .ok summary) ∧
      (∀ identity, (∃ snapshot ∈ snapshots, hasNode store.db identity snapshot = true) →
        ∃ row, after.nodeHistory.filter (fun row => decide (row.key = (repoId, identity))) = [row] ∧
          ∃ firstIndex lastIndex, row.toLifespan.Exact (hasNode store.db identity) snapshots firstIndex lastIndex) ∧
      (∀ identity, (∃ snapshot ∈ snapshots, hasEdge store.db identity snapshot = true) → ∃ row,
        after.edgeHistory.filter (fun row => decide (row.key = (repoId, identity))) = [row] ∧
          ∃ firstIndex lastIndex, row.toLifespan.Exact (hasEdge store.db identity) snapshots firstIndex lastIndex) ∧
      (snapshots ≠ [] → (∀ row ∈ after.nodeHistory, row.repoId = repoId → ∃ snapshot ∈ snapshots,
        hasNode store.db row.identity snapshot = true) ∧
        ∀ row ∈ after.edgeHistory, row.repoId = repoId → ∃ snapshot ∈ snapshots, hasEdge store.db row.identity snapshot = true) ∧
      recomputeLifecycle text canonicalRoot after = recomputeLifecycle text canonicalRoot store := by
  have nodesDistinct := fun snapshot : StoredSnapshot => store.nodeIdentities_nodup snapshot.snapshotId
  have edgesDistinct := fun snapshot : StoredSnapshot => store.edgeIdentities_nodup snapshot.snapshotId
  have twice := @recomputeLifecycle_twice text store repoId canonicalRoot registered
  by_cases empty : listSnapshotsOrdered store.db repoId = []
  · dsimp only
    rw [empty]
    refine ⟨⟨_, congrArg Prod.fst (recomputeLifecycle_empty registered empty)⟩, ?_, ?_, fun some => absurd rfl some, twice⟩
    all_goals
      rintro identity ⟨snapshot, mem, _⟩
      cases mem
  · obtain ⟨result, _, nodes, edges⟩ := @recomputeLifecycle_eq text _ _ _ _ registered rfl empty
    dsimp only
    rw [nodes, edges]
    have nodesApart := @deleteWhere_apart _ _ StoredNodeHistory.key StoredNodeHistory.repoId
      (fun _ => rfl) repoId store.nodeHistory
    have edgesApart := @deleteWhere_apart _ _ StoredEdgeHistory.key StoredEdgeHistory.repoId
      (fun _ => rfl) repoId store.edgeHistory
    generalize listSnapshotsOrdered store.db repoId = snapshots
    have nodeKeys : ∀ identity acc, (nodeRow repoId snapshots identity acc).key = (repoId, identity) := fun _ _ => rfl
    have edgeKeys : ∀ identity acc, (edgeRow repoId snapshots identity acc).key = (repoId, identity) := fun _ _ => rfl
    have nodeSpans : ∀ identity acc, (nodeRow repoId snapshots identity acc).toLifespan = acc.lifespan snapshots := fun _ _ => rfl
    have edgeSpans : ∀ identity acc, (edgeRow repoId snapshots identity acc).toLifespan = acc.lifespan snapshots := fun _ _ => rfl
    refine ⟨⟨_, result⟩, fun identity occurs => ?_, fun identity occurs => ?_, fun _ =>
      ⟨fun row mem owned => ?_, fun row mem owned => ?_⟩, twice⟩
    · exact row_of_present nodesDistinct nodeKeys nodeSpans nodesApart occurs
    · exact row_of_present edgesDistinct edgeKeys edgeSpans edgesApart occurs
    · exact present_of_row nodesDistinct nodeKeys nodesApart mem owned
    · exact present_of_row edgesDistinct edgeKeys edgesApart mem owned

def plainText : LifecycleText where
  hexHash := id
  sixDecimals := fun bits => toString bits
  jsonText := fun _ => ""

def datedCommit (commitSha : String) (authorTime : Int) : StoredCommit where
  commitSha
  repoId := 1
  parentSha := none
  indexedRef := none
  authorName := none
  authorEmail := none
  authorTime
  committerTime := authorTime
  subject := ""
  message := none

def emptySnapshot (snapshotId : Nat) (commitSha : String) : StoredSnapshot where
  snapshotId
  repoId := 1
  commitSha
  rootTreeHash := none
  nodeCount := 0
  edgeCount := 0
  fileCount := 0
  parseErrorCount := 0

def removedNode : HistoricalNode where
  fileHash := "h"
  qualifiedName := "q"
  kind := "function"
  name := "q"
  filePath := "a.rs"
  lineStart := none
  lineEnd := none
  language := none
  parentName := none
  params := none
  returnType := none
  modifiers := none
  isTest := false
  extraJson := none

def removedStore : LifecycleStore where
  db := {
    repos := [⟨1, "/repo"⟩]
    commits := [datedCommit "c" 1, datedCommit "d" 2]
    graphSnapshots := [emptySnapshot 1 "c", emptySnapshot 2 "d"]
    snapshotNodes := [⟨1, "h", "q"⟩]
    historicalNodes := [removedNode] }
  nodeHistory := []
  edgeHistory := []
  nodeKeys := nodup_singleton _
  edgeKeys := nodup_nil
  memberNodes := nodup_singleton _
  memberEdges := nodup_nil
  nodeHistoryKeys := nodup_nil
  edgeHistoryKeys := nodup_nil

theorem recomputeLifecycle_summarises_removed :
    ∃ row, (recomputeLifecycle plainText "/repo" removedStore).2.nodeHistory.filter
      (fun row => decide (row.key = (1, nodeIdentity removedNode))) = [row] ∧
      ∃ firstIndex lastIndex, row.toLifespan.Exact (hasNode removedStore.db (nodeIdentity
        removedNode)) (listSnapshotsOrdered removedStore.db 1) firstIndex lastIndex := by
  have registered : findRepoId removedStore.db "/repo" = some 1 := by decide
  have summarised := recomputeLifecycle_summarises plainText registered
  have listed : emptySnapshot 1 "c" ∈ listSnapshotsOrdered removedStore.db 1 := by decide
  have occurs : hasNode removedStore.db (nodeIdentity removedNode) (emptySnapshot 1 "c") = true := by decide
  exact summarised.2.1 _ ⟨_, listed, occurs⟩

end Atlas.History
