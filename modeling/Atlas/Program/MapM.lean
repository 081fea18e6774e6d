import Mathlib.Data.List.Perm.Basic

/-! Results of functions that may fail, and lists of them. -/
namespace Atlas.Program
open List

theorem bind_eq_ok {Failure Value Next : Type} {first : Except Failure Value}
    {later : Value → Except Failure Next} {result : Next} (ran : first >>= later = .ok result) :
    ∃ value, first = .ok value ∧ later value = .ok result := by
  cases first with
  | error failure => cases ran
  | ok value => exact ⟨value, rfl, ran⟩

section
variable {Item Result Error : Type} {f : Item → Except Error Result} {items : List Item}
  {results : List Result}

theorem mapM_ok_iff : items.mapM f = .ok results ↔
    List.Forall₂ (fun item result => f item = .ok result) items results := by
  induction items generalizing results with
  | nil =>
    rw [forall₂_nil_left_iff]
    exact ⟨fun ran => (Except.ok.inj ran).symm, fun empty => by rw [empty]; rfl⟩
  | cons item rest ih =>
    rw [mapM_cons, forall₂_cons_left_iff]
    cases first : f item with
    | error error => simp [bind, Except.bind]
    | ok head =>
      cases later : rest.mapM f with
      | error error =>
        have none : ∀ tail, ¬ List.Forall₂ (fun item result => f item = .ok result) rest tail := by
          intro tail related
          rw [← ih, later] at related
          cases related
        simp [bind, Except.bind, none]
      | ok tail =>
        simp only [bind, Except.bind, pure, Except.pure, Except.ok.injEq]
        constructor
        · intro same
          exact ⟨head, tail, rfl, ih.mp later, same.symm⟩
        · intro ⟨result, others, same, related, shape⟩
          have tails := ih.mpr related
          rw [later] at tails
          rw [shape, same, Except.ok.inj tails]

theorem exists_related {Left Right : Type} {relation : Left → Right → Prop} {lefts : List Left}
    {rights : List Right} (related : List.Forall₂ relation lefts rights) {left : Left}
    (mem : left ∈ lefts) : ∃ right ∈ rights, relation left right := by
  induction related with
  | nil => cases mem
  | cons same _ ih =>
    rcases mem_cons.mp mem with rfl | later
    · exact ⟨_, .head _, same⟩
    · obtain ⟨right, inRest, holds⟩ := ih later
      exact ⟨right, .tail _ inRest, holds⟩

theorem mapM_ok_mem (accepted : items.mapM f = .ok results)
    {result : Result} (mem : result ∈ results) :
    ∃ item ∈ items, f item = .ok result := exists_related (mapM_ok_iff.mp accepted).flip mem
theorem mapM_ok_of_mem (accepted : items.mapM f = .ok results) {item : Item} (mem : item ∈ items) :
    ∃ result ∈ results, f item = .ok result := exists_related (mapM_ok_iff.mp accepted) mem
theorem mapM_ok_self {f : Item → Except Error Item} (same : ∀ item ∈ items, f item = .ok item) :
    items.mapM f = .ok items := mapM_ok_iff.mpr (forall₂_same.mpr same)

theorem mapM_ok_of_forall (accepted : ∀ item ∈ items, ∃ result, f item = .ok result) :
    ∃ results, items.mapM f = .ok results := by
  induction items with
  | nil => exact ⟨[], rfl⟩
  | cons item rest ih =>
    obtain ⟨head, first⟩ := accepted item (.head _)
    obtain ⟨tail, later⟩ := ih fun other mem => accepted other (.tail _ mem)
    exact ⟨head :: tail, mapM_ok_iff.mpr (.cons first (mapM_ok_iff.mp later))⟩

theorem mapM_ok_perm {others : List Item}
    (ran : items.mapM f = .ok results) (perm : others.Perm items) :
    ∃ arranged, others.mapM f = .ok arranged ∧ arranged.Perm results := by
  obtain ⟨arranged, related, same⟩ := perm_comp_forall₂ perm (mapM_ok_iff.mp ran)
  exact ⟨arranged, mapM_ok_iff.mpr related, same⟩

theorem mapM_ok_perm_results {arranged : List Result}
    (ran : items.mapM f = .ok results) (perm : arranged.Perm results) :
    ∃ others : List Item, others.Perm items ∧ others.mapM f = .ok arranged := by
  have related := (mapM_ok_iff.mp ran).flip
  obtain ⟨others, back, same⟩ := perm_comp_forall₂ perm related
  exact ⟨others, same, mapM_ok_iff.mpr back.flip⟩

end

theorem mapM_some_iff {Item Result : Type} {f : Item → Option Result} {items : List Item}
    {results : List Result} : items.mapM f = some results ↔ Forall₂ (fun item result => f item = some result) items results := by
  induction items generalizing results with
  | nil =>
    rw [forall₂_nil_left_iff, mapM_nil]
    exact ⟨fun same => (Option.some.inj same).symm, fun same => same ▸ rfl⟩
  | cons item rest ih =>
    rw [mapM_cons, forall₂_cons_left_iff]
    simp only [Option.bind_eq_bind, Option.pure_def, Option.bind_eq_some_iff, Option.some.injEq, ih]
    constructor
    · rintro ⟨head, made, tail, others, rfl⟩
      exact ⟨head, tail, made, others, rfl⟩
    · rintro ⟨head, tail, made, others, rfl⟩
      exact ⟨head, made, tail, others, rfl⟩

end Atlas.Program
