import Mathlib.Algebra.Order.Ring.Int
import Mathlib.Data.Finset.Sort
import Mathlib.Data.Prod.Lex
import Mathlib.Data.String.Basic

/-! The catalogue of a database: what `sqlite_master` says of tables, indexes, views and
triggers. A row stands for its companions too: the automatic indexes of a table and the
shadow tables of a virtual one come and go with it, and SQLite's own tables are not listed.
Tables under the names in `base` exist beside the catalogue. Names are compared without the
case of ASCII letters. -/
namespace Atlas.Sql
open List Finset

inductive ObjectKind where
  | table
  | index
  | view
  | trigger
  deriving DecidableEq

structure SchemaObject where
  kind : ObjectKind
  name : String
  /-- The table or view that an index or a trigger belongs to. -/
  (table sql : String)
  deriving DecidableEq

def foldName (name : String) : List Char := name.toList.map Char.toLower

def ObjectKind.position : ObjectKind → Nat
  | .table => 0
  | .index => 1
  | .view => 2
  | .trigger => 3

theorem ObjectKind.position_injective : Function.Injective ObjectKind.position := by
  intro left right same
  cases left <;> cases right <;> first | rfl | exact absurd same (by decide)

/-- Rows are compared by name first, so rows of one kind are sorted by name. -/
instance : LinearOrder SchemaObject := LinearOrder.lift' (fun object =>
    toLex (object.name, toLex (object.table, toLex (object.sql, object.kind.position)))) (by
      intro left right same
      cases left
      cases right
      simp only [toLex_inj, Prod.mk.injEq] at same
      obtain ⟨names, tables, texts, kinds⟩ := same
      have kinds := ObjectKind.position_injective kinds
      subst names tables texts kinds
      rfl)

/-- Tables, indexes and views share their names; triggers have names of their own. -/
def SameSlot (left right : SchemaObject) : Prop :=
  (left.kind = .trigger ↔ right.kind = .trigger) ∧ foldName left.name = foldName right.name

instance (left right : SchemaObject) :
    Decidable (SameSlot left right) := inferInstanceAs (Decidable (_ ∧ _))

theorem SameSlot.symm {left right : SchemaObject} (same : SameSlot left right) :
    SameSlot right left := ⟨Iff.symm same.1, Eq.symm same.2⟩

def ObjectKind.standsOn : ObjectKind → ObjectKind → Bool
  | .index, .table => true
  | .trigger, .table => true
  | .trigger, .view => true
  | _, _ => false

def DependsOn (object below : SchemaObject) : Prop :=
  object.kind.standsOn below.kind = true ∧ foldName object.table = foldName below.name

instance (object below : SchemaObject) :
    Decidable (DependsOn object below) := inferInstanceAs (Decidable (_ ∧ _))

theorem DependsOn.not_dependsOn {object below other : SchemaObject}
    (depends : DependsOn object below) : ¬ DependsOn below other := by
  intro further
  have first := depends.1
  have second := further.1
  cases kind : below.kind <;> rw [kind] at first second <;> cases object.kind <;> cases other.kind <;>
      simp [ObjectKind.standsOn] at first second

def ObjectKind.needsBase : ObjectKind → Bool
  | .index | .trigger => true
  | .table | .view => false

def Founded (base : List String) (objects : Finset SchemaObject) (object : SchemaObject) : Prop :=
  object.kind.needsBase = true →
    (∃ name ∈ base, foldName object.table = foldName name) ∨ ∃ below ∈ objects, DependsOn object below

instance (base : List String) (objects : Finset SchemaObject) (object : SchemaObject) :
    Decidable (Founded base objects object) := inferInstanceAs (Decidable (_ → _))

theorem Founded.mono {base : List String} {objects more : Finset SchemaObject}
    {object : SchemaObject} (within : objects ⊆ more)
    (founded : Founded base objects object) : Founded base more object := by
  intro needs
  cases founded needs with
  | inl onBase => exact .inl onBase
  | inr below =>
    obtain ⟨below, present, depends⟩ := below
    exact .inr ⟨below, within present, depends⟩

def OwnName (base : List String) (object : SchemaObject) : Prop :=
  object.kind ≠ .trigger → ∀ name ∈ base, foldName object.name ≠ foldName name

instance (base : List String) (object : SchemaObject) :
    Decidable (OwnName base object) := inferInstanceAs (Decidable (_ → _))

structure Master (base : List String) where
  objects : Finset SchemaObject
  distinct : ∀ left ∈ objects, ∀ right ∈ objects, SameSlot left right → left = right
  founded : ∀ object ∈ objects, Founded base objects object
  ownName : ∀ object ∈ objects, OwnName base object

variable {base : List String}

namespace Master

@[ext] theorem ext {left right : Master base} (same : left.objects = right.objects) :
    left = right := by
  cases left
  cases right
  cases same
  rfl

def empty (base : List String) : Master base where
  objects := ∅
  distinct := fun left present => absurd present (notMem_empty left)
  founded := fun object present => absurd present (notMem_empty object)
  ownName := fun object present => absurd present (notMem_empty object)

/-! ## CREATE -/

def Creatable (master : Master base) (object : SchemaObject) : Prop := Founded base master.objects
    object ∧ (∀ present ∈ master.objects, ¬ SameSlot present object) ∧ OwnName base object

instance (master : Master base) (object : SchemaObject) :
    Decidable (master.Creatable object) := inferInstanceAs (Decidable (_ ∧ _))

/-- Runs the text of `object`. The name must be free and the table it is made on present. -/
def create (object : SchemaObject) (master : Master base) : Option (Master base) :=
  if creatable : master.Creatable object then
    some {
      objects := insert object master.objects
      distinct := by
        intro left leftIn right rightIn same
        rw [mem_insert] at leftIn rightIn
        cases leftIn with
        | inl new =>
          subst new
          cases rightIn with
          | inl new => exact new.symm
          | inr old => exact absurd same.symm (creatable.2.1 right old)
        | inr old =>
          cases rightIn with
          | inl new => exact absurd (new ▸ same) (creatable.2.1 left old)
          | inr older => exact master.distinct left old right older same
      founded := by
        intro other present
        apply Founded.mono (subset_insert object master.objects)
        cases Finset.mem_insert.mp present with
        | inl new => exact new ▸ creatable.1
        | inr old => exact master.founded other old
      ownName := by
        intro other present
        cases Finset.mem_insert.mp present with
        | inl new => exact new ▸ creatable.2.2
        | inr old => exact master.ownName other old }
  else none

variable {object : SchemaObject} {master : Master base}

theorem create_of_creatable (creatable : master.Creatable object) :
    ∃ made, create object master = some made ∧ made.objects = insert object master.objects := by
  unfold create
  rw [dif_pos creatable]
  exact ⟨_, rfl, rfl⟩

variable {made : Master base} {kind : ObjectKind} {name : String} {kinds : List ObjectKind}

theorem creatable_of_create (ran : create object master = some made) : master.Creatable object := by
  by_contra blocked
  unfold create at ran
  rw [dif_neg blocked] at ran
  cases ran

def createAll (objects : List SchemaObject) (master : Master base) : Option (Master base) :=
  objects.foldlM (fun current object => create object current) master

private theorem createAll_within {whole : Master base} (objects : List SchemaObject)
    (below : master.objects ⊆ whole.objects) (added : ∀ object ∈ objects, object ∈ whole.objects)
    (fresh : ∀ object ∈ objects, object ∉ master.objects) (once : objects.Nodup)
    (ordered : ∀ first object rest, objects = first ++ object :: rest → Founded base (master.objects ∪ first.toFinset) object) :
    ∃ made, createAll objects master = some made ∧ made.objects = master.objects ∪ objects.toFinset := by
  induction objects generalizing master with
  | nil => exact ⟨master, rfl, by simp⟩
  | cons object objects ih =>
    have mem : object ∈ whole.objects := added object (.head _)
    have founded : Founded base master.objects object := by
      have first := ordered [] object objects rfl
      simpa using first
    have free : ∀ present ∈ master.objects, ¬ SameSlot present object := by
      intro present old same
      have equal := whole.distinct present (below old) object mem same
      exact fresh object (.head _) (equal ▸ old)
    obtain ⟨next, made, nextObjects⟩ := create_of_creatable (show master.Creatable object from
        ⟨founded, free, whole.ownName object mem⟩)
    have once := nodup_cons.mp once
    have rest : ∃ made, createAll objects next = some made ∧ made.objects = next.objects ∪ objects.toFinset := by
      apply ih
      · rw [nextObjects]
        exact insert_subset mem below
      · intro other later
        exact added other (.tail object later)
      · intro other later present
        rw [nextObjects, mem_insert] at present
        cases present with
        | inl same => exact once.1 (same ▸ later)
        | inr old => exact fresh other (.tail object later) old
      · exact once.2
      · intro first other last split
        have earlier := ordered (object :: first) other last (by rw [split]; rfl)
        rw [nextObjects]
        apply Founded.mono _ earlier
        intro present mem
        simp only [toFinset_cons, mem_union, mem_insert] at mem ⊢
        tauto
    obtain ⟨final, ran, finalObjects⟩ := rest
    refine ⟨final, ?_, ?_⟩
    · unfold createAll at ran ⊢
      rw [foldlM_cons, made]
      exact ran
    · rw [finalObjects, nextObjects, toFinset_cons, insert_union, union_insert]

/-! ## DROP -/

def Named (kind : ObjectKind) (name : String) (object : SchemaObject) : Prop :=
  object.kind = kind ∧ foldName object.name = foldName name

instance (kind : ObjectKind) (name : String) (object : SchemaObject) :
    Decidable (Named kind name object) := inferInstanceAs (Decidable (_ ∧ _))

def Gone (objects : Finset SchemaObject)
    (kind : ObjectKind) (name : String) (object : SchemaObject) : Prop :=
  ∃ dropped ∈ objects, Named kind name dropped ∧ (object = dropped ∨ DependsOn object dropped)

instance (objects : Finset SchemaObject) (kind : ObjectKind)
    (name : String) (object : SchemaObject) : Decidable (Gone objects kind name object) :=
  inferInstanceAs (Decidable (∃ dropped ∈ objects, _))

/-- `DROP … IF EXISTS` takes the indexes and triggers of a table along, and the triggers of
a view. -/
def dropIfExists (kind : ObjectKind) (name : String) (master : Master base) : Master base where
  objects := master.objects.filter fun object => ¬ Gone master.objects kind name object
  distinct := by
    intro left leftIn right rightIn same
    exact master.distinct left (Finset.mem_filter.mp leftIn).1 right (Finset.mem_filter.mp rightIn).1 same
  founded := by
    intro object kept needs
    obtain ⟨present, stays⟩ := Finset.mem_filter.mp kept
    cases master.founded object present needs with
    | inl onBase => exact .inl onBase
    | inr below =>
      obtain ⟨below, belowIn, depends⟩ := below
      refine .inr ⟨below, Finset.mem_filter.mpr ⟨belowIn, ?_⟩, depends⟩
      intro gone
      obtain ⟨dropped, droppedIn, named, how⟩ := gone
      cases how with
      | inl same =>
        subst same
        exact stays ⟨below, droppedIn, named, .inr depends⟩
      | inr further => exact depends.not_dependsOn further
  ownName := fun object kept => master.ownName object (Finset.mem_filter.mp kept).1

theorem mem_dropIfExists : object ∈ (dropIfExists kind name master).objects ↔
    object ∈ master.objects ∧ ¬ Gone master.objects kind name object := Finset.mem_filter

theorem gone_after_drop {other : ObjectKind}
    {next : String} (kept : object ∈ (dropIfExists kind name master).objects) :
    Gone (dropIfExists kind name master).objects other next object ↔ Gone master.objects other next object := by
  constructor
  · intro gone
    obtain ⟨dropped, droppedIn, named, how⟩ := gone
    exact ⟨dropped, (mem_dropIfExists.mp droppedIn).1, named, how⟩
  · intro gone
    obtain ⟨dropped, droppedIn, named, how⟩ := gone
    refine ⟨dropped, mem_dropIfExists.mpr ⟨droppedIn, ?_⟩, named, how⟩
    intro goneBefore
    obtain ⟨first, firstIn, firstNamed, firstHow⟩ := goneBefore
    obtain ⟨_, stays⟩ := mem_dropIfExists.mp kept
    cases how with
    | inl same =>
      subst same
      exact stays ⟨first, firstIn, firstNamed, firstHow⟩
    | inr depends =>
      cases firstHow with
      | inl same =>
        subst same
        exact stays ⟨dropped, firstIn, firstNamed, .inr depends⟩
      | inr further => exact depends.not_dependsOn further

def dropAll (names : List (ObjectKind × String)) (master : Master base) : Master base :=
  names.foldl (fun current entry => dropIfExists entry.1 entry.2 current) master

private theorem mem_dropAll (names : List (ObjectKind × String)) : object ∈ (dropAll names master).objects ↔
    object ∈ master.objects ∧ ∀ entry ∈ names, ¬ Gone master.objects entry.1 entry.2 object := by
  induction names generalizing master with
  | nil => simp [dropAll]
  | cons entry names ih =>
    have step : dropAll (entry :: names) master = dropAll names (dropIfExists entry.1 entry.2 master) := rfl
    rw [step, ih]
    constructor
    · intro kept
      obtain ⟨present, survives⟩ := kept
      obtain ⟨before, stays⟩ := mem_dropIfExists.mp present
      refine ⟨before, ?_⟩
      intro other mem
      cases mem_cons.mp mem with
      | inl same => exact same ▸ stays
      | inr later => exact fun gone => survives other later ((gone_after_drop present).mpr gone)
    · intro kept
      obtain ⟨before, survives⟩ := kept
      have present : object ∈ (dropIfExists entry.1 entry.2 master).objects :=
        mem_dropIfExists.mpr ⟨before, survives entry (.head _)⟩
      refine ⟨present, ?_⟩
      intro other later gone
      exact survives other (.tail entry later) ((gone_after_drop present).mp gone)

def listing (kinds : List ObjectKind) (master : Master base) : List SchemaObject :=
  kinds.flatMap fun kind => (master.objects.filter fun object => object.kind = kind).sort (· ≤ ·)

private theorem mem_listing :
    object ∈ listing kinds master ↔ object ∈ master.objects ∧ object.kind ∈ kinds := by
  simp only [listing, mem_flatMap, Finset.mem_sort, Finset.mem_filter]
  constructor
  · intro listed
    obtain ⟨kind, among, present, same⟩ := listed
    exact ⟨present, same ▸ among⟩
  · intro listed
    exact ⟨object.kind, listed.2, listed.1, rfl⟩

private theorem nodup_listing (once : kinds.Nodup) (master : Master base) :
    (listing kinds master).Nodup := by
  unfold listing
  rw [nodup_flatMap]
  refine ⟨fun kind _ => sort_nodup _ _, ?_⟩
  apply once.imp
  intro left right differ object inLeft inRight
  simp only [Finset.mem_sort, Finset.mem_filter] at inLeft inRight
  exact differ (inLeft.2.symm.trans inRight.2)

private theorem pairwise_listing {before : ObjectKind → ObjectKind → Prop}
    (self : ∀ kind, before kind kind) (ordered : kinds.Pairwise before) (master : Master base) :
    (listing kinds master).Pairwise fun left right => before left.kind right.kind := by
  unfold listing
  rw [pairwise_flatMap]
  constructor
  · intro kind _
    apply pairwise_of_forall_mem_list
    intro left leftIn right rightIn
    simp only [Finset.mem_sort, Finset.mem_filter] at leftIn rightIn
    rw [leftIn.2, rightIn.2]
    exact self kind
  · apply ordered.imp
    intro first second holds left leftIn right rightIn
    simp only [Finset.mem_sort, Finset.mem_filter] at leftIn rightIn
    rw [leftIn.2, rightIn.2]
    exact holds

theorem createAll_objects (objects : List SchemaObject)
    (ran : createAll objects master = some made) :
    made.objects = master.objects ∪ objects.toFinset := by
  induction objects generalizing master with
  | nil =>
    cases ran
    simp
  | cons object objects ih =>
    unfold createAll at ran
    rw [foldlM_cons] at ran
    obtain ⟨next, step, rest⟩ := Option.bind_eq_some_iff.mp ran
    obtain ⟨_, created, nextObjects⟩ := create_of_creatable (creatable_of_create step)
    cases step.symm.trans created
    rw [ih rest, nextObjects, toFinset_cons, insert_union, union_insert]

private theorem founded_of_createAll {first rest : List SchemaObject}
    (ran : createAll (first ++ object :: rest) master = some made) :
    Founded base (master.objects ∪ first.toFinset) object := by
  unfold createAll at ran
  rw [foldlM_append] at ran
  obtain ⟨middle, before, after⟩ := Option.bind_eq_some_iff.mp ran
  rw [foldlM_cons] at after
  obtain ⟨next, step, _⟩ := Option.bind_eq_some_iff.mp after
  rw [← createAll_objects first before]
  exact (creatable_of_create step).1

/-! ## Rebuilding one catalogue from another -/

section Rebuild
variable (hidden : String → Bool)

def userObjects (kinds : List ObjectKind) (master : Master base) : List SchemaObject :=
  (listing kinds master).filter fun object => !hidden object.name
def dropOrder : List ObjectKind := [.trigger, .index, .view, .table]
def createOrder : List ObjectKind := [.table, .index, .trigger, .view]
def dropUserObjects (master : Master base) : Master base := dropAll
    ((userObjects hidden dropOrder master).map fun object => (object.kind, object.name)) master
def rebuild (next master : Master base) : Option (Master base) :=
  createAll (userObjects hidden createOrder next) (dropUserObjects hidden master)

/-- A hidden object that stands on hidden objects only. -/
structure Survives (master : Master base) (object : SchemaObject) : Prop where
  present : object ∈ master.objects
  unseen : hidden object.name = true
  kept : ∀ below ∈ master.objects, DependsOn object below → hidden below.name = true

structure Rebuildable (master next : Master base) : Prop where
  kept : ∀ object, Survives hidden master object ↔ object ∈ next.objects ∧ hidden object.name = true
  onTables : ∀ object ∈ next.objects, object.kind = .trigger → hidden object.name = false →
    ∀ below ∈ next.objects, DependsOn object below → below.kind = .view → hidden below.name = true

variable {hidden} {master : Master base} {object : SchemaObject}

theorem mem_userObjects {kinds : List ObjectKind} (every : ∀ kind, kind ∈ kinds) :
    object ∈ userObjects hidden kinds master ↔
      object ∈ master.objects ∧ hidden object.name = false := by
  unfold userObjects
  rw [mem_filter, mem_listing, Bool.not_eq_true']
  constructor
  · exact fun seen => ⟨seen.1.1, seen.2⟩
  · exact fun seen => ⟨⟨seen.1, every object.kind⟩, seen.2⟩

theorem mem_dropOrder (kind : ObjectKind) : kind ∈ dropOrder := by
  cases kind <;> decide

theorem mem_createOrder (kind : ObjectKind) : kind ∈ createOrder := by
  cases kind <;> decide

private theorem eq_of_named {dropped : SchemaObject} (present : object ∈ master.objects)
    (droppedIn : dropped ∈ master.objects) (named : Named object.kind object.name dropped) :
    dropped = object := by
  apply master.distinct dropped droppedIn object present
  exact ⟨by rw [named.1], named.2⟩

theorem mem_dropUserObjects :
    object ∈ (dropUserObjects hidden master).objects ↔ Survives hidden master object := by
  unfold dropUserObjects
  rw [mem_dropAll]
  constructor
  · intro kept
    obtain ⟨present, stays⟩ := kept
    have seen : ∀ below ∈ master.objects, object = below ∨ DependsOn object below → hidden below.name = true := by
      intro below belowIn touched
      cases view : hidden below.name with
      | true => rfl
      | false =>
        have listed := (mem_userObjects mem_dropOrder).mpr ⟨belowIn, view⟩
        exact absurd ⟨below, belowIn, ⟨rfl, rfl⟩, touched⟩ (stays (below.kind, below.name) (mem_map.mpr ⟨below, listed, rfl⟩))
    exact ⟨present, seen object present (.inl rfl), fun below belowIn depends => seen below belowIn (.inr depends)⟩
  · intro survives
    refine ⟨survives.present, ?_⟩
    intro entry listed gone
    obtain ⟨source, mem, rfl⟩ := mem_map.mp listed
    obtain ⟨sourceIn, seen⟩ := (mem_userObjects mem_dropOrder).mp mem
    obtain ⟨dropped, droppedIn, named, how⟩ := gone
    have same := eq_of_named sourceIn droppedIn named
    subst same
    cases how with
    | inl same =>
      subst same
      exact absurd survives.unseen (by simp [seen])
    | inr depends => exact absurd (survives.kept dropped droppedIn depends) (by simp [seen])

def createBefore (left right : ObjectKind) : Prop :=
  createOrder.idxOf left ≤ createOrder.idxOf right

theorem userObjects_ordered (master : Master base) :
    (userObjects hidden createOrder master).Pairwise fun left right =>
      createBefore left.kind right.kind := by
  apply List.Pairwise.filter
  apply pairwise_listing
  · exact fun kind => Nat.le_refl _
  · unfold createBefore
    decide

private theorem nodup_userObjects (master : Master base) :
    (userObjects hidden createOrder master).Nodup := (nodup_listing (by decide) master).filter _

private theorem mem_first_of_before {first rest : List SchemaObject}
    {below : SchemaObject} (split : userObjects hidden createOrder master = first ++ object :: rest)
    (listed : below ∈ userObjects hidden createOrder master)
    (before : ¬ createBefore object.kind below.kind) : below ∈ first := by
  have ordered := @userObjects_ordered base hidden master
  rw [split] at listed ordered
  have later := (pairwise_cons.mp (pairwise_append.mp ordered).2.1).1
  cases mem_append.mp listed with
  | inl earlier => exact earlier
  | inr other =>
    cases mem_cons.mp other with
    | inl same => exact absurd (same ▸ Nat.le_refl _) before
    | inr behind => exact absurd (later below behind) before

variable {next : Master base}

theorem Rebuildable.rebuilds (rebuildable : Rebuildable hidden master next) :
    rebuild hidden next master = some next := by
  have below : (dropUserObjects hidden master).objects ⊆ next.objects := by
    intro object kept
    exact ((rebuildable.kept object).mp (mem_dropUserObjects.mp kept)).1
  have listed : ∀ {object}, object ∈ userObjects hidden createOrder next ↔
    object ∈ next.objects ∧ hidden object.name = false := mem_userObjects mem_createOrder
  have fresh : ∀ object ∈ userObjects hidden createOrder next, object ∉ (dropUserObjects hidden master).objects := by
    intro object mem kept
    exact absurd (mem_dropUserObjects.mp kept).unseen (by simp [(listed.mp mem).2])
  have ordered : ∀ first object rest, userObjects hidden createOrder next = first ++ object ::
    rest → Founded base ((dropUserObjects hidden master).objects ∪ first.toFinset) object := by
    intro first object rest split needs
    obtain ⟨mem, seen⟩ := listed.mp (by rw [split]; simp : object ∈ _)
    cases next.founded object mem needs with
    | inl onBase => exact .inl onBase
    | inr found =>
      obtain ⟨found, foundIn, depends⟩ := found
      refine .inr ⟨found, ?_, depends⟩
      rw [mem_union, mem_toFinset]
      cases view : hidden found.name with
      | true => exact .inl (mem_dropUserObjects.mpr ((rebuildable.kept found).mpr ⟨foundIn, view⟩))
      | false =>
        refine .inr (mem_first_of_before split (listed.mpr ⟨foundIn, view⟩) ?_)
        -- a table precedes its indexes and triggers; a trigger on a view is excluded
        have noView : object.kind = .trigger → found.kind ≠ .view := by
          intro isTrigger isView
          have unseen := rebuildable.onTables object mem isTrigger seen found foundIn depends isView
          rw [view] at unseen
          cases unseen
        have stands := depends.1
        unfold createBefore
        revert stands noView
        cases object.kind <;> cases found.kind <;>
          simp [ObjectKind.standsOn, createOrder]
  obtain ⟨made, ran, objects⟩ := createAll_within _ below (fun object mem => (listed.mp mem).1)
    fresh (nodup_userObjects next) ordered
  have same : made = next := by
    ext object
    rw [objects, mem_union, mem_toFinset, mem_dropUserObjects, rebuildable.kept, listed]
    cases hidden object.name <;> simp
  exact same ▸ ran

theorem rebuildable_of_rebuild (ran : rebuild hidden next master = some next) :
    Rebuildable hidden master next := by
  have objects := createAll_objects _ ran
  have listed : ∀ {object}, object ∈ userObjects hidden createOrder next ↔
    object ∈ next.objects ∧ hidden object.name = false := mem_userObjects mem_createOrder
  constructor
  · intro object
    constructor
    · intro survives
      refine ⟨?_, survives.unseen⟩
      rw [objects]
      exact mem_union_left _ (mem_dropUserObjects.mpr survives)
    · intro unseen
      obtain ⟨mem, unseen⟩ := unseen
      rw [objects, mem_union, mem_toFinset] at mem
      cases mem with
      | inl kept => exact mem_dropUserObjects.mp kept
      | inr made => exact absurd (listed.mp made).2 (by simp [unseen])
  · intro object mem isTrigger seen below belowIn depends isView
    cases view : hidden below.name with
    | true => rfl
    | false =>
      obtain ⟨first, rest, split⟩ := append_of_mem (listed.mpr ⟨mem, seen⟩)
      have founded : Founded base ((dropUserObjects hidden master).objects ∪ first.toFinset) object := by
        apply founded_of_createAll
        rw [← split]
        exact ran
      cases founded (by rw [isTrigger]; rfl) with
      | inl onBase =>
        obtain ⟨name, onBase, same⟩ := onBase
        exact absurd (depends.2.symm.trans same) (next.ownName below belowIn (by rw [isView]; decide) name onBase)
      | inr found =>
        obtain ⟨found, foundIn, alsoDepends⟩ := found
        have foundNext : found ∈ next.objects := by
          rw [objects]
          rw [mem_union, mem_toFinset] at foundIn ⊢
          refine foundIn.imp_right fun earlier => ?_
          rw [split]
          exact mem_append_left _ earlier
        have slot : SameSlot found below := by
          refine ⟨?_, alsoDepends.2.symm.trans depends.2⟩
          have stands := alsoDepends.1
          rw [isView]
          cases kind : found.kind <;> rw [kind, isTrigger] at stands <;>
            simp [ObjectKind.standsOn] at stands ⊢
        have same := next.distinct found foundNext below belowIn slot
        subst same
        cases Finset.mem_union.mp foundIn with
        | inl kept => exact absurd (mem_dropUserObjects.mp kept).unseen (by simp [view])
        | inr earlier =>
          have ordered := @userObjects_ordered base hidden next
          rw [split] at ordered
          have before := (pairwise_append.mp ordered).2.2 found (mem_toFinset.mp earlier) object (.head _)
          rw [isView, isTrigger] at before
          exact absurd before (by unfold createBefore; decide)

end Rebuild

end Master

end Atlas.Sql
