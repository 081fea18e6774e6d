import Mathlib.Data.List.Sort

/-! Pages of a changing table, each below the key of the last row of the page before it. An
item that cannot be decoded is left out after the page is cut, so that a page with such an
item is the last one. -/
namespace Atlas.Program
open List

variable {Item Row Key : Type}
  [LinearOrder Key] (key : Item → Key) (rowKey : Row → Key) (decode : Item → Option Row)

def descending (items : List Item) : List Item :=
  items.insertionSort fun left right => key right ≤ key left

def below : Option Key → List Item → List Item
  | none, items => items
  | some bound, items => items.filter fun item => key item < bound

/-- One item more than the page holds, to see whether another page follows. -/
def selected (limit : Nat) (bound : Option Key) (items : List Item) : List Item :=
  (descending key (below key bound items)).take (limit + 1)

def page (limit : Nat) (bound : Option Key) (items : List Item) : List Row × Option Key :=
  let rows := (selected key limit bound items).filterMap decode
  if limit < rows.length then (rows.dropLast, rows.dropLast.getLast?.map rowKey) else (rows, none)

def pages : Option Key → List (Nat × List Item) → List (List Row) × Bool
  | _, [] => ([], false)
  | bound, (limit, items) :: rest =>
    match page key rowKey decode limit bound items with
    | (rows, none) => ([rows], true)
    | (rows, some next) => (rows :: (pages (some next) rest).1, (pages (some next) rest).2)

/-- Every item that is selected on the way is decoded. -/
def AllDecoded : Option Key → List (Nat × List Item) → Prop
  | _, [] => True
  | bound, (limit, items) :: rest =>
    (∀ item ∈ selected key limit bound items, (decode item).isSome = true) ∧
      ∀ next ∈ (page key rowKey decode limit bound items).2, AllDecoded (some next) rest

variable {key} {rowKey} {decode} {limit : Nat} {bound : Option Key} {items : List Item}

def IsBelow {Item : Type} (key : Item → Key) (bound : Option Key) (item : Item) : Prop :=
  ∀ top ∈ bound, key item < top

theorem mem_below {item : Item} :
    item ∈ below key bound items ↔ item ∈ items ∧ IsBelow key bound item := by
  cases bound with
  | none | some top => simp [below, IsBelow]

theorem mem_selected {item : Item} (mem : item ∈ selected key limit bound items) : item ∈ items :=
  (mem_below.mp ((mem_insertionSort _).mp (mem_of_mem_take mem))).1

theorem allDecoded_of_all {requests : List (Nat × List Item)}
    (decodes : ∀ request ∈ requests, ∀ item ∈ request.2, (decode item).isSome = true) :
    AllDecoded key rowKey decode bound requests := by
  induction requests generalizing bound with
  | nil => trivial
  | cons request rest ih =>
    exact ⟨fun item mem => decodes _ (.head _) item (mem_selected mem),
      fun _ _ => ih fun other mem => decodes other (.tail _ mem)⟩

structure IsPage (key : Item → Key) (rowKey : Row → Key) (decode : Item → Option Row) (limit : Nat)
    (bound : Option Key) (items : List Item) (rows : List Row) (next : Option Key) : Prop where
  sorted : rows.Pairwise fun left right => rowKey right < rowKey left
  drawn : ∀ row ∈ rows, IsBelow rowKey bound row
  last : ∀ rest ∈ next, ∃ row ∈ rows, rowKey row = rest
  above : ∀ rest ∈ next, ∀ row ∈ rows, rest ≤ rowKey row
  left : (∀ item ∈ selected key limit bound items, (decode item).isSome = true) → ∀ item ∈ items, IsBelow key bound item →
    (∃ row ∈ rows, decode item = some row) ∨ ∃ rest ∈ next, key item < rest

theorem descending_pairwise (nodup : (items.map key).Nodup) :
    (descending key items).Pairwise fun left right => key right < key left := by
  have ordered : (descending key items).Pairwise fun left right => key right ≤ key left :=
    have : Std.Total fun left right : Item => key right ≤ key left := ⟨fun _ _ => le_total _ _⟩
    have : IsTrans Item fun left right => key right ≤ key left := ⟨fun _ _ _ first second => second.trans first⟩
    pairwise_insertionSort _ _
  have apart : (descending key items).Pairwise fun left right => key left ≠ key right :=
    pairwise_map.mp (((perm_insertionSort _ items).map key).nodup_iff.mpr nodup)
  exact (ordered.and apart).imp fun order => lt_of_le_of_ne order.1 order.2.symm

variable (keeps : ∀ {item row}, decode item = some row → rowKey row = key item)
include keeps

theorem filterMap_pairwise {selected : List Item}
    (ordered : selected.Pairwise fun left right => key right < key left) :
    (selected.filterMap decode).Pairwise fun left right => rowKey right < rowKey left := by
  refine pairwise_filterMap.mpr (ordered.imp fun less row read other also => ?_)
  rw [keeps read, keeps also]
  exact less

theorem page_spec (nodup : (items.map key).Nodup) (pos : 0 < limit) :
    IsPage key rowKey decode limit bound items (page key rowKey decode limit bound items).1
      (page key rowKey decode limit bound items).2 := by
  have listed : ∀ item, item ∈ descending key (below key bound items) ↔ item ∈ items ∧ IsBelow key bound item :=
    fun item => (mem_insertionSort _).trans mem_below
  have ordered : (descending key (below key bound items)).Pairwise fun left right => key right < key left := by
    apply descending_pairwise
    cases bound with
    | none => exact nodup
    | some top => exact nodup.sublist (filter_sublist.map key)
  unfold page
  have isFront : selected key limit bound items = (descending key (below key bound items)).take (limit + 1) := rfl
  generalize isTop : selected key limit bound items = top at isFront
  generalize descending key (below key bound items) = all at listed ordered isFront
  dsimp only
  have split := take_append_drop (limit + 1) all
  have short := length_take_le (limit + 1) all
  have cut : (all.take (limit + 1)).length ≤ limit → all.drop (limit + 1) = [] := by
    intro small
    rw [length_take] at small
    exact drop_of_length_le (by omega)
  rw [← isFront] at split short cut
  generalize all.drop (limit + 1) = behind at split cut
  subst split
  obtain ⟨falling, _, between⟩ := pairwise_append.mp ordered
  have sorted := filterMap_pairwise keeps falling
  have shown : ∀ row ∈ top.filterMap decode, IsBelow rowKey bound row := by
    intro row mem
    obtain ⟨item, inTop, read⟩ := mem_filterMap.mp mem
    intro most isMost
    rw [keeps read]
    exact ((listed item).mp (mem_append_left _ inTop)).2 most isMost
  have fewer := @length_filterMap_le _ _ decode top
  by_cases more : limit < (top.filterMap decode).length
  · rw [if_pos more]
    -- the page is full, and the row that is popped lies below all the others
    have filled : top.filterMap decode ≠ [] := ne_nil_of_length_pos (by omega)
    obtain ⟨init, extra, shape⟩ := (eq_nil_or_concat (top.filterMap decode)).resolve_left filled
    rw [concat_eq_append] at shape
    have nonempty : init ≠ [] := by
      have size := congrArg length shape
      rw [length_append, length_singleton] at size
      exact ne_nil_of_length_pos (by omega)
    obtain ⟨front, last, inner⟩ := (eq_nil_or_concat init).resolve_left nonempty
    rw [concat_eq_append] at inner
    rw [shape] at sorted shown ⊢
    rw [dropLast_concat]
    obtain ⟨initSorted, _, lower⟩ := pairwise_append.mp sorted
    have isNext : ∀ rest, rest ∈ (init.getLast?.map rowKey) ↔ rowKey last = rest := by
      intro rest
      simp [inner]
    have inLast : last ∈ init := by simp [inner]
    refine ⟨initSorted, fun row mem => shown row (mem_append_left _ mem), ?_, ?_, ?_⟩
    · intro rest next
      exact ⟨last, inLast, (isNext rest).mp next⟩
    · intro rest next row mem
      rw [← (isNext rest).mp next]
      rw [inner] at mem initSorted
      rcases mem_append.mp mem with earlier | same
      · exact ((pairwise_append.mp initSorted).2.2 row earlier last (.head _)).le
      · rw [mem_singleton.mp same]
    · intro decodes item inItems isBelow
      rw [isTop] at decodes
      rcases mem_append.mp ((listed item).mpr ⟨inItems, isBelow⟩) with inTop | later
      · obtain ⟨row, read⟩ := Option.isSome_iff_exists.mp (decodes item inTop)
        have mem : row ∈ top.filterMap decode := mem_filterMap.mpr ⟨item, inTop, read⟩
        rw [shape] at mem
        rcases mem_append.mp mem with onPage | popped
        · exact .inl ⟨row, onPage, read⟩
        · refine .inr ⟨rowKey last, (isNext _).mpr rfl, ?_⟩
          rw [← keeps read, mem_singleton.mp popped]
          exact lower last inLast extra (.head _)
      · have onTop : last ∈ top.filterMap decode := shape ▸ mem_append_left _ inLast
        obtain ⟨other, inTop, read⟩ := mem_filterMap.mp onTop
        refine .inr ⟨rowKey last, (isNext _).mpr rfl, ?_⟩
        rw [keeps read]
        exact between other inTop item later
  · rw [if_neg more]
    refine ⟨sorted, shown, nofun, nofun, fun decodes item inItems isBelow => .inl ?_⟩
    rw [isTop] at decodes
    have all : (top.filterMap decode).length = top.length := by
      rw [length_filterMap_eq_countP, countP_eq_length]
      exact decodes
    rw [cut (by omega), append_nil] at listed
    have inTop := (listed item).mpr ⟨inItems, isBelow⟩
    obtain ⟨row, read⟩ := Option.isSome_iff_exists.mp (decodes item inTop)
    exact ⟨row, mem_filterMap.mpr ⟨item, inTop, read⟩, read⟩

variable {requests : List (Nat × List Item)}

section
variable (nodup : ∀ request ∈ requests, (request.2.map key).Nodup)
  (pos : ∀ request ∈ requests, 0 < request.1)
include nodup pos

theorem pages_falling :
    (pages key rowKey decode bound requests).1.flatten.Pairwise (fun left right => rowKey right < rowKey left) ∧
      ∀ row ∈ (pages key rowKey decode bound requests).1.flatten, IsBelow rowKey bound row := by
  induction requests generalizing bound with
  | nil => exact ⟨.nil, nofun⟩
  | cons request rest ih =>
    obtain ⟨limit, items⟩ := request
    have isPage := @page_spec _ _ _ _ key rowKey decode limit bound items keeps (nodup _ (.head _)) (pos _ (.head _))
    unfold pages
    revert isPage
    obtain ⟨rows, next⟩ := page key rowKey decode limit bound items
    intro isPage
    cases next with
    | none =>
      dsimp only
      rw [flatten_singleton]
      exact ⟨isPage.sorted, isPage.drawn⟩
    | some next =>
      obtain ⟨sorted, isBelow⟩ :=
        @ih (some next) (fun other mem => nodup other (.tail _ mem)) fun other mem => pos other (.tail _ mem)
      dsimp only
      rw [flatten_cons]
      have lower : ∀ row ∈ (pages key rowKey decode (some next) rest).1.flatten, rowKey row < next :=
        fun row mem => isBelow row mem next rfl
      refine ⟨pairwise_append.mpr ⟨isPage.sorted, sorted, ?_⟩, ?_⟩
      · intro left first right later
        exact (lower right later).trans_le (isPage.above next rfl left first)
      · intro row mem
        rcases mem_append.mp mem with first | later
        · exact isPage.drawn row first
        · obtain ⟨last, onPage, same⟩ := isPage.last next rfl
          intro top isTop
          exact ((lower row later).trans_eq same.symm).trans (isPage.drawn last onPage top isTop)

theorem mem_pages (decodes : AllDecoded key rowKey decode bound requests)
    (ended : (pages key rowKey decode bound requests).2 = true)
    {item : Item} (isBelow : IsBelow key bound item)
    (held : ∀ request ∈ requests.take (pages key rowKey decode bound requests).1.length, item ∈ request.2) :
    ∃ row ∈ (pages key rowKey decode bound requests).1.flatten, decode item = some row := by
  induction requests generalizing bound with
  | nil => cases ended
  | cons request rest ih =>
    obtain ⟨limit, items⟩ := request
    have isPage := @page_spec _ _ _ _ key rowKey decode limit bound items keeps (nodup _ (.head _)) (pos _ (.head _))
    unfold pages at ended held ⊢
    obtain ⟨readable, later⟩ := decodes
    revert isPage ended held later
    obtain ⟨rows, next⟩ := page key rowKey decode limit bound items
    intro isPage ended held decodesRest
    have here := isPage.left readable item
    cases next with
    | none =>
      dsimp only at held ⊢
      rw [flatten_singleton]
      obtain onPage | ⟨_, isNext, _⟩ := here (held _ (.head _)) isBelow
      · exact onPage
      · cases isNext
    | some next =>
      dsimp only at held ended ⊢
      rw [flatten_cons]
      obtain ⟨row, onPage, read⟩ | ⟨_, isNext, lower⟩ := here (held _ (.head _)) isBelow
      · exact ⟨row, mem_append_left _ onPage, read⟩
      · cases isNext
        have still : ∀ request ∈ rest.take (pages key rowKey decode (some next) rest).1.length, item ∈ request.2 := by
          intro other mem
          refine held other ?_
          rw [length_cons, take_succ_cons]
          exact .tail _ mem
        obtain ⟨row, later, read⟩ := ih (fun other mem => nodup other (.tail _ mem))
          (fun other mem => pos other (.tail _ mem)) (decodesRest next rfl) ended
          (fun top isTop => by cases isTop; exact lower) still
        exact ⟨row, mem_append_right _ later, read⟩

end
end Atlas.Program
