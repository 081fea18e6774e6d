import Atlas.Program.KeyedList
import Mathlib.Algebra.Order.BigOperators.Group.List
import Mathlib.Tactic.Linarith

/-! A work list that leaves at every place the best score of a walk to it. Each hop of a walk
multiplies the score by a factor below one, so that a better score never comes around a cycle. -/
namespace Atlas.Program.BestWalks
open List

variable {Place : Type}

structure State (Place : Type) where
  scores : Place → Option ℚ
  queue : List Place

def State.value (state : State Place) (place : Place) : ℚ := (state.scores place).getD 0

/-- A neighbour takes the score that is passed on to it if it is better, and is queued again. -/
def relax [DecidableEq Place] (current : ℚ) (state : State Place) (hop : Place × ℚ) : State Place :=
  let propagated := current * hop.2
  let entry := state.value hop.1
  if entry < propagated then
    { scores := Function.update state.scores hop.1 (some propagated), queue := state.queue ++ [hop.1] }
  else { state with scores := Function.update state.scores hop.1 (some entry) }

/-- Of several seeds for one place the last stays. -/
def start [DecidableEq Place] (seeds : List (Place × ℚ)) : State Place where
  scores place := (lookup Prod.fst seeds.reverse place).map Prod.snd
  queue := seeds.map Prod.fst

def drain [DecidableEq Place] (hops : Place → List (Place × ℚ)) :
    Nat → State Place → Option (Place → Option ℚ)
  | _, ⟨scores, []⟩ => some scores
  | 0, ⟨_, _ :: _⟩ => none
  | fuel + 1, ⟨scores, place :: rest⟩ =>
    match scores place with
    | none => drain hops fuel ⟨scores, rest⟩
    | some current => drain hops fuel ((hops place).foldl (relax current) ⟨scores, rest⟩)

/-- A walk from a seed, whose score is multiplied at each hop. -/
inductive Walk (seeds : List (Place × ℚ)) (hops : Place → List (Place × ℚ)) : Place → ℚ → Prop
  | seed {place : Place} {score : ℚ} (mem : (place, score) ∈ seeds) : Walk seeds hops place score
  | hop {place next : Place} {score factor : ℚ} (walk : Walk seeds hops place score)
    (mem : (next, factor) ∈ hops place) : Walk seeds hops next (score * factor)

/-- All hops stay among the places and shrink the score by one of the factors. -/
structure Fading (Place : Type) where
  seeds : List (Place × ℚ)
  hops : Place → List (Place × ℚ)
  places : List Place
  factors : List ℚ
  seeds_mem : ∀ seed ∈ seeds, seed.1 ∈ places ∧ 0 ≤ seed.2
  hops_mem : ∀ place, ∀ hop ∈ hops place, hop.1 ∈ places ∧ hop.2 ∈ factors ∧ 0 ≤ hop.2 ∧ hop.2 < 1

section
variable (fading : Fading Place)

/-- The scores of walks of at most so many hops are among these. -/
def products : Nat → List ℚ
  | 0 => fading.seeds.map Prod.snd
  | number + 1 => products number ++ (products number).flatMap fun score => fading.factors.map (score * ·)

def above (bound : ℚ) (scores : List ℚ) : Nat := scores.countP fun score => decide (bound < score)

/-- What is left to improve, with the places that wait. -/
def room (state : State Place) : Nat := 2 * (fading.places.map fun place =>
    above (state.value place) (products fading fading.places.length)).sum + state.queue.length

/-- A score made by some hops: more places than hops have at least as much. -/
def Shallow (value : Place → ℚ) (score : ℚ) : Prop := ∃ number, score ∈ products fading number ∧
    number < fading.places.countP fun place => decide (score ≤ value place)

structure Good (state : State Place) : Prop where
  walks : ∀ place score, state.scores place = some score → Walk fading.seeds fading.hops place score
  shallow : ∀ place, 0 < state.value place → Shallow fading state.value (state.value place)

structure Grows (before after : State Place) : Prop where
  value_le : ∀ place, before.value place ≤ after.value place
  queue_mem : ∀ place ∈ before.queue, place ∈ after.queue
  queued : ∀ place, after.value place ≠ before.value place → place ∈ after.queue
  room_le : room fading after ≤ room fading before

/-- A place that does not wait has passed its score on. -/
structure Settled (state : State Place) : Prop where
  good : Good fading state
  seeded : ∀ seed ∈ fading.seeds, seed.2 ≤ state.value seed.1
  passed : ∀ place, place ∈ state.queue ∨ ∀ hop ∈ fading.hops place, state.value place * hop.2 ≤ state.value hop.1

end

variable {fading : Fading Place} {seeds : List (Place × ℚ)} {hops : Place → List (Place × ℚ)}
  {value more : Place → ℚ} {place : Place} {score current : ℚ} {state before after : State Place}
  {scores : Place → Option ℚ} {rest : List Place} {hop : Place × ℚ}

theorem countP_lt_countP {Item : Type}
    {p q : Item → Bool} {items : List Item} (imp : ∀ item, p item = true → q item = true)
    {item : Item} (mem : item ∈ items) (fails : p item = false) (holds : q item = true) : items.countP p < items.countP q := by
  obtain ⟨front, back, rfl⟩ := append_of_mem mem
  have fronts : front.countP p ≤ front.countP q := countP_mono_left fun item _ => imp item
  have backs : back.countP p ≤ back.countP q := countP_mono_left fun item _ => imp item
  rw [countP_append, countP_append, countP_cons_of_neg (by simp [fails]), countP_cons_of_pos holds]
  omega

theorem Shallow.mono (shallow : Shallow fading value score)
    (le : ∀ place, value place ≤ more place) : Shallow fading more score := by
  obtain ⟨number, product, less⟩ := shallow
  refine ⟨number, product, less.trans_le (countP_mono_left fun place _ held => ?_)⟩
  exact decide_eq_true ((of_decide_eq_true held).trans (le place))

theorem products_subset {low high : Nat} (le : low ≤ high) :
    products fading low ⊆ products fading high := by
  induction high, le using Nat.le_induction with
  | base => exact fun _ mem => mem
  | succ number _ ih => exact fun _ mem => mem_append_left _ (ih mem)

theorem Shallow.mem_products (shallow : Shallow fading value score) :
    score ∈ products fading fading.places.length := by
  obtain ⟨number, product, less⟩ := shallow
  exact products_subset (less.le.trans countP_le_length) product

/-- A score that came around a cycle would be below the one it started from. -/
theorem Shallow.deepen (shallow : Shallow fading value current)
    (pos : 0 < current) (mem : hop ∈ fading.hops place) (better : value hop.1 < current * hop.2)
    (le : ∀ place, value place ≤ more place) (held : current * hop.2 ≤ more hop.1) :
    Shallow fading more (current * hop.2) := by
  obtain ⟨number, product, less⟩ := shallow
  obtain ⟨known, listed, -, small⟩ := fading.hops_mem place _ mem
  have shrinks : current * hop.2 < current := mul_lt_of_lt_one_right pos small
  refine ⟨number + 1, mem_append_right _ (mem_flatMap.mpr ⟨current, product, mem_map_of_mem listed⟩), ?_⟩
  have grows := countP_lt_countP (p := fun place => decide (current ≤ value place))
    (q := fun place => decide (current * hop.2 ≤ more place))
    (fun place above => decide_eq_true (shrinks.le.trans ((of_decide_eq_true above).trans (le place)))) known
    (decide_eq_false (better.trans shrinks).not_ge) (decide_eq_true held)
  omega

theorem Walk.mono {other : List (Place × ℚ)}
    {ways : Place → List (Place × ℚ)} (walk : Walk seeds hops place score)
    (seedsIn : seeds ⊆ other) (hopsIn : ∀ place, hops place ⊆ ways place) : Walk other ways place score := by
  induction walk with
  | seed mem => exact .seed (seedsIn mem)
  | hop _ mem ih => exact .hop ih (hopsIn _ mem)

theorem Walk.nonneg (walk : Walk fading.seeds fading.hops place score) : 0 ≤ score := by
  induction walk with
  | seed mem => exact (fading.seeds_mem _ mem).2
  | hop _ mem ih => exact mul_nonneg ih (fading.hops_mem _ _ mem).2.2.1

theorem Good.nonneg (good : Good fading state) (place : Place) : 0 ≤ state.value place := by
  unfold State.value
  cases held : state.scores place with
  | none => exact le_rfl
  | some score => exact (good.walks place score held).nonneg

theorem Grows.trans (first : Grows fading before state) (second : Grows fading state after) :
    Grows fading before after where
  value_le place := (first.value_le place).trans (second.value_le place)
  queue_mem place mem := second.queue_mem place (first.queue_mem place mem)
  queued place changed := by
    by_cases same : after.value place = state.value place
    · exact second.queue_mem place (first.queued place (same ▸ changed))
    · exact second.queued place same
  room_le := second.room_le.trans first.room_le

theorem Settled.drop (settled : Settled fading ⟨scores, place :: rest⟩)
    (absent : scores place = none) : Settled fading ⟨scores, rest⟩ where
  good := ⟨settled.good.walks, settled.good.shallow⟩
  seeded := settled.seeded
  passed other := by
    rcases settled.passed other with waits | passed
    · rcases mem_cons.mp waits with rfl | later
      · refine .inr fun hop _ => ?_
        have nothing : State.value ⟨scores, rest⟩ other = 0 := by simp only [State.value, absent, Option.getD_none]
        rw [nothing, zero_mul]
        exact settled.good.nonneg hop.1
      · exact .inl later
    · exact .inr passed

theorem Walk.le_value (settled : Settled fading ⟨scores, []⟩)
    (walk : Walk fading.seeds fading.hops place score) : score ≤ (scores place).getD 0 := by
  induction walk with
  | seed mem => exact settled.seeded _ mem
  | @hop place next score factor _ mem ih =>
    rcases settled.passed place with waits | passed
    · cases waits
    · exact (mul_le_mul_of_nonneg_right ih (fading.hops_mem place _ mem).2.2.1).trans (passed _ mem)

variable [DecidableEq Place]

theorem relax_scores (current : ℚ) (state : State Place) (hop : Place × ℚ) :
    (relax current state hop).scores =
    Function.update state.scores hop.1 (some (max (state.value hop.1) (current * hop.2))) := by
  unfold relax
  dsimp only
  split
  · next better => rw [max_eq_right better.le]
  · next worse => rw [max_eq_left (not_lt.mp worse)]

theorem relax_value (current : ℚ) (state : State Place) (hop : Place × ℚ) (place : Place) :
    (relax current state hop).value place =
    if place = hop.1 then max (state.value hop.1) (current * hop.2) else state.value place := by
  rw [State.value, relax_scores, Function.update_apply]
  split
  all_goals rfl

theorem relax_queue (current : ℚ) (state : State Place) (hop : Place × ℚ) :
    (relax current state hop).queue =
    if state.value hop.1 < current * hop.2 then state.queue ++ [hop.1] else state.queue := by
  unfold relax
  dsimp only
  split
  all_goals rfl

theorem value_le_relax (current : ℚ) (state : State Place) (hop : Place × ℚ) (place : Place) :
    state.value place ≤ (relax current state hop).value place := by
  rw [relax_value]
  split
  · next same => exact same ▸ le_max_left _ _
  · exact le_rfl

theorem room_relax (known : hop.1 ∈ fading.places) (product : state.value hop.1 < current * hop.2 →
    current * hop.2 ∈ products fading fading.places.length) :
    room fading (relax current state hop) ≤ room fading state := by
  have less {low high : ℚ} (le : low ≤ high) (score : ℚ) (higher : decide (high < score) = true) :
    decide (low < score) = true := decide_eq_true (le.trans_lt (of_decide_eq_true higher))
  have kept (place : Place) : above ((relax current state hop).value place) (products fading
    fading.places.length) ≤ above (state.value place) (products fading fading.places.length) :=
    countP_mono_left fun score _ => less (value_le_relax current state hop place) score
  unfold room
  rw [relax_queue]
  split
  · next better =>
    have same : (relax current state hop).value hop.1 = current * hop.2 := by rw [relax_value, if_pos rfl, max_eq_right better.le]
    have improved := countP_lt_countP (less better.le) (product better) (decide_eq_false (lt_irrefl _)) (decide_eq_true better)
    have sums := sum_lt_sum _ _ (fun place _ => kept place) ⟨hop.1, known, same ▸ improved⟩
    rw [length_append, length_singleton]
    omega
  · have sums := sum_le_sum fun place (_ : place ∈ fading.places) => kept place
    omega

theorem relax_spec (good : Good fading state) (walk : Walk fading.seeds fading.hops place current)
    (shallow : 0 < current → Shallow fading state.value current) (mem : hop ∈ fading.hops place) :
    Good fading (relax current state hop) ∧ Grows fading state (relax current state hop) := by
  obtain ⟨known, -, least, -⟩ := fading.hops_mem place _ mem
  have nonneg := walk.nonneg
  have le := value_le_relax current state hop
  have deeper (better : state.value hop.1 < current * hop.2) :
    Shallow fading (relax current state hop).value (current * hop.2) := by
    have pos : 0 < current := by
      by_contra zero
      rw [le_antisymm (not_lt.mp zero) nonneg, zero_mul] at better
      exact absurd (good.nonneg hop.1) (not_le.mpr better)
    refine (shallow pos).deepen pos mem better le ?_
    rw [relax_value, if_pos rfl]
    exact le_max_right _ _
  refine ⟨⟨fun other score held => ?_, fun other above => ?_⟩, le, fun other mem => ?_,
    fun other changed => ?_, room_relax known fun better => (deeper better).mem_products⟩
  · rw [relax_scores, Function.update_apply] at held
    split at held
    · next same =>
      subst same
      cases held
      rcases lt_or_ge (state.value hop.1) (current * hop.2) with better | worse
      · rw [max_eq_right better.le]
        exact walk.hop mem
      · rw [max_eq_left worse]
        unfold State.value at worse ⊢
        cases held : state.scores hop.1 with
        | some score => exact good.walks _ _ held
        | none =>
          rw [held] at worse
          exact le_antisymm worse (mul_nonneg nonneg least) ▸ walk.hop mem
    · exact good.walks other score held
  · rw [relax_value] at above ⊢
    split at above
    · next same =>
      rw [if_pos same]
      rcases lt_or_ge (state.value hop.1) (current * hop.2) with better | worse
      · rw [max_eq_right better.le]
        exact deeper better
      · rw [max_eq_left worse] at above ⊢
        exact (good.shallow _ above).mono le
    · next apart =>
      rw [if_neg apart]
      exact (good.shallow other above).mono le
  · rw [relax_queue]
    split
    · exact mem_append_left _ mem
    · exact mem
  · rw [relax_value] at changed
    rw [relax_queue]
    split at changed
    · next same =>
      subst same
      rw [if_pos (not_le.mp fun worse => changed (max_eq_left worse))]
      exact mem_append_right _ (.head _)
    · exact absurd rfl changed

theorem relax_all (walk : Walk fading.seeds fading.hops place current)
    {part : List (Place × ℚ)} (inHops : part ⊆ fading.hops place) (good : Good fading state)
    (shallow : 0 < current → Shallow fading state.value current) :
    Good fading (part.foldl (relax current) state) ∧ Grows fading state (part.foldl (relax current)
      state) ∧ ∀ hop ∈ part, current * hop.2 ≤ (part.foldl (relax current) state).value hop.1 := by
  induction part generalizing state with
  | nil =>
    exact ⟨good, ⟨fun _ => le_rfl, fun _ mem => mem, fun _ changed => absurd rfl changed, le_rfl⟩,
      fun _ mem => absurd mem not_mem_nil⟩
  | cons hop rest ih =>
    obtain ⟨firstMem, restMem⟩ := cons_subset.mp inHops
    obtain ⟨firstGood, firstGrows⟩ := relax_spec good walk shallow firstMem
    obtain ⟨lastGood, lastGrows, relaxed⟩ := ih restMem firstGood fun pos => (shallow pos).mono firstGrows.value_le
    refine ⟨lastGood, firstGrows.trans lastGrows, forall_mem_cons.mpr ⟨?_, relaxed⟩⟩
    refine le_trans ?_ (lastGrows.value_le hop.1)
    rw [relax_value, if_pos rfl]
    exact le_max_right _ _

theorem Settled.relax (settled : Settled fading ⟨scores, place :: rest⟩)
    (held : scores place = some current) :
    Settled fading ((fading.hops place).foldl (relax current) ⟨scores, rest⟩) ∧
      room fading ((fading.hops place).foldl (BestWalks.relax current) ⟨scores, rest⟩) < room fading ⟨scores, place :: rest⟩ := by
  have value : State.value ⟨scores, rest⟩ place = current := by simp only [State.value, held, Option.getD_some]
  have popped : Good fading ⟨scores, rest⟩ := ⟨settled.good.walks, settled.good.shallow⟩
  obtain ⟨good, grows, relaxed⟩ := relax_all (settled.good.walks place current held) (Subset.refl _) popped fun pos =>
    value ▸ settled.good.shallow place (value ▸ pos)
  refine ⟨⟨good, fun seed mem => (settled.seeded seed mem).trans (grows.value_le _),
    fun other => ?_⟩, lt_of_le_of_lt grows.room_le (Nat.lt_succ_self _)⟩
  by_cases same : ((fading.hops place).foldl (BestWalks.relax current) ⟨scores, rest⟩).value other =
    State.value ⟨scores, rest⟩ other
  · rw [same]
    rcases settled.passed other with waits | passed
    · rcases mem_cons.mp waits with rfl | later
      · exact .inr fun hop mem => value ▸ relaxed hop mem
      · exact .inl (grows.queue_mem other later)
    · exact .inr fun hop mem => (passed hop mem).trans (grows.value_le _)
  · exact .inl (grows.queued other same)

theorem drain_settled (settled : Settled fading state) :
    ∃ scores, Settled fading ⟨scores, []⟩ ∧ ∀ fuel, room fading state ≤ fuel →
      drain fading.hops fuel state = some scores := by
  induction number : room fading state using Nat.strong_induction_on generalizing state with
  | _ number ih =>
    subst number
    obtain ⟨scores, _ | ⟨place, rest⟩⟩ := state
    · exact ⟨scores, settled, fun fuel _ => by cases fuel <;> rfl⟩
    · have next : ∃ state, Settled fading state ∧ room fading state < room fading ⟨scores, place :: rest⟩ ∧
          ∀ fuel, drain fading.hops (fuel + 1) ⟨scores, place :: rest⟩ = drain fading.hops fuel state := by
        cases held : scores place with
        | none => exact ⟨_, settled.drop held, Nat.lt_succ_self _, fun fuel => by rw [drain, held]⟩
        | some current =>
          obtain ⟨relaxed, less⟩ := settled.relax held
          exact ⟨_, relaxed, less, fun fuel => by rw [drain, held]⟩
      obtain ⟨state, relaxed, less, steps⟩ := next
      obtain ⟨final, done, drained⟩ := ih _ less relaxed rfl
      refine ⟨final, done, fun fuel enough => ?_⟩
      obtain ⟨fuel, rfl⟩ := Nat.exists_eq_succ_of_ne_zero (by omega : fuel ≠ 0)
      rw [steps]
      exact drained fuel (by omega)

theorem settled_start (nodup : (fading.seeds.map Prod.fst).Nodup) :
    Settled fading (start fading.seeds) := by
  have listed {place : Place} {score : ℚ} (held : (start fading.seeds).scores place = some score) :
    (place, score) ∈ fading.seeds := by
    obtain ⟨seed, found, rfl⟩ := Option.map_eq_some_iff.mp held
    exact key_of_lookup found ▸ mem_reverse.mp (mem_of_lookup found)
  have value {place : Place} {score : ℚ} (held : (start fading.seeds).scores place = some score) :
    (start fading.seeds).value place = score := by
    rw [State.value, held, Option.getD_some]
  have nothing {place : Place} (absent : (start fading.seeds).scores place = none) :
    (start fading.seeds).value place = 0 := by rw [State.value, absent, Option.getD_none]
  have good : Good fading (start fading.seeds) := by
    refine ⟨fun place score held => .seed (listed held), fun place pos => ?_⟩
    cases held : (start fading.seeds).scores place with
    | none => exact absurd pos (nothing held).not_gt
    | some score =>
      exact ⟨0, value held ▸ mem_map_of_mem (f := Prod.snd) (listed held),
        countP_pos_iff.mpr ⟨place, (fading.seeds_mem _ (listed held)).1, decide_eq_true le_rfl⟩⟩
  refine ⟨good, fun seed mem => ?_, fun place => ?_⟩
  · have reversed : (fading.seeds.reverse.map Prod.fst).Nodup := by
      rw [map_reverse]
      exact nodup_reverse.mpr nodup
    have held : (start fading.seeds).scores seed.1 = some seed.2 := by
      simp only [start, lookup_of_mem reversed (mem_reverse.mpr mem), Option.map_some]
    exact (value held).ge
  · cases held : (start fading.seeds).scores place with
    | none =>
      refine .inr fun hop _ => ?_
      rw [nothing held, zero_mul]
      exact good.nonneg hop.1
    | some score => exact .inl (mem_map_of_mem (f := Prod.fst) (listed held))

/-- The work list ends, and what it leaves at a place is the score of a best walk to it. -/
theorem drain_best (nodup : (fading.seeds.map Prod.fst).Nodup) : ∃ scores enough,
    (∀ fuel, enough ≤ fuel → drain fading.hops fuel (start fading.seeds) = some scores) ∧
      (∀ place score, scores place = some score → IsGreatest {walked | Walk fading.seeds fading.hops place walked} score) ∧
      ∀ place walked, Walk fading.seeds fading.hops place walked → 0 ≤ walked ∧ walked ≤ (scores place).getD 0 := by
  obtain ⟨scores, settled, drained⟩ := drain_settled (settled_start nodup)
  have bound {place : Place} {walked : ℚ} (walk : Walk fading.seeds fading.hops place walked) := walk.le_value settled
  refine ⟨scores, _, drained, fun place score held => ⟨settled.good.walks place score held,
    fun walked walk => ?_⟩, fun place walked walk => ⟨walk.nonneg, bound walk⟩⟩
  have under := bound walk
  rwa [held, Option.getD_some] at under

end Atlas.Program.BestWalks
