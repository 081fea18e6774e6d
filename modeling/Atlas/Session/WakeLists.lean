import Atlas.Core.Json

/-! The lists of a wake pack that its budget cuts. -/
namespace Atlas.Session
open List
open Core (Json)

def field (entry : Json) (key : String) : Option Json := Json.lookupField entry.fieldsOrDefault key

def textOf : Json → Option String
  | .str text => some text
  | _ => none

def summaryOf (entry : Json) : Option String := (field entry "summary").bind textOf

structure DecisionHit where
  (decisionId summary : String)
  rationale : Option String
  sourceIds : List String

def normalizeDecision (summary rationale at' : Option Json)
    (decisionId : Option String) (sourceIds : List String) : Json :=
  .obj [("at", at'.getD .null), ("decision_id", decisionId.elim .null .str), ("rationale", rationale.getD .null),
    ("source_ids", .arr (sourceIds.map .str)), ("summary", summary.getD .null)]

def normalizeDecisionHits (hits : List DecisionHit) : List Json := hits.map fun hit =>
  normalizeDecision (some (.str hit.summary)) (hit.rationale.map .str) none (some hit.decisionId) hit.sourceIds

def pushHits (maxItems : Nat) : List Json → List Json → List Json
  | merged, [] => merged
  | merged, hit :: rest =>
    let alreadyPresent := (summaryOf hit).any fun summary => merged.any fun entry => decide (summaryOf entry = some summary)
    let merged := if alreadyPresent then merged else merged ++ [hit]
    if merged.length ≥ maxItems then merged else pushHits maxItems merged rest

def mergeDecisions (snapshotEntries topicHits : List Json) (maxItems : Nat) : List Json :=
  (pushHits maxItems snapshotEntries topicHits).take maxItems

def entriesOf (view : Option Json) (key : String) : List Json :=
  match view.bind (field · key) with
  | some (.arr entries) => entries
  | _ => []

def filesOf (view : Option Json) : List String := (entriesOf view "changed_files").filterMap textOf

def snapshotDecisions (view : Option Json) : List Json :=
  (entriesOf view "recent_decisions").map fun entry =>
  normalizeDecision (field entry "summary") (field entry "rationale") (field entry "at") none []

def keepItems {Item : Type} (maxItems : Nat) (entries : List Item) : List Item :=
  entries.take maxItems

structure WakeLists where
  (reasoning recentDecisions retrievalHints : List Json)
  changedFiles : List String

def reasoningLine (entry : Json) : Json :=
  .obj (["at", "source_id", "summary"].map fun key => (key, (field entry key).getD .null))

def wakeLists (view : Option Json) (topicHits : Option (List DecisionHit)) (maxItems : Nat) :
    WakeLists where
  reasoning := (keepItems maxItems (entriesOf view "recent_reasoning")).map reasoningLine
  recentDecisions := mergeDecisions (snapshotDecisions view) (normalizeDecisionHits (topicHits.getD [])) maxItems
  retrievalHints := keepItems maxItems (entriesOf view "retrieval_hints")
  changedFiles := keepItems maxItems (filesOf view)

/-! ## What a pack should keep -/

/-- The list shows the last entries. Entries are told apart by their places, so equal ones do not
stand for each other. -/
structure KeepsRecent {Item Shown : Type} (shows : Item → Shown) (maxItems : Nat)
    (entries : List Item) (kept : List Shown) : Prop where
  shown : kept = (entries.drop (entries.length - maxItems)).map shows
  places : keepItems maxItems entries.zipIdx = entries.zipIdx.drop (entries.length - maxItems)

def Topical (hits : List DecisionHit) (entry : Json) : Prop :=
  ∃ hit ∈ hits, summaryOf entry = some hit.summary

/-- The decisions on the topic come first, and none of them is missing while another
decision is kept. -/
def TopicLed (hits : List DecisionHit) (kept : List Json) : Prop :=
  (kept.Pairwise fun earlier later => Topical hits later → Topical hits earlier) ∧
  ((∀ entry ∈ kept, Topical hits entry) ∨ ∀ hit ∈ hits, some hit.summary ∈ kept.map summaryOf)

section
variable (view : Option Json) (topicHits : Option (List DecisionHit)) (maxItems : Nat)

structure RelevantAndRecent : Prop where
  bounded : (wakeLists view topicHits maxItems).recentDecisions.length ≤ maxItems
  distinct : ((wakeLists view topicHits maxItems).recentDecisions.map summaryOf).Nodup
  topicLed : ∀ hits ∈ topicHits, TopicLed hits (wakeLists view topicHits maxItems).recentDecisions
  reasoning : KeepsRecent reasoningLine maxItems (entriesOf view "recent_reasoning")
    (wakeLists view topicHits maxItems).reasoning
  changedFiles : KeepsRecent id maxItems (filesOf view)
    (wakeLists view topicHits maxItems).changedFiles
  retrievalHints : KeepsRecent id maxItems (entriesOf view "retrieval_hints")
    (wakeLists view topicHits maxItems).retrievalHints

end

theorem keepsRecent_iff {Item Shown : Type} {shows : Item → Shown} {maxItems : Nat}
    {entries : List Item} :
    KeepsRecent shows maxItems entries ((keepItems maxItems entries).map shows) ↔
      entries.length ≤ maxItems ∨ maxItems = 0 := by
  unfold keepItems
  constructor
  · rintro ⟨-, same⟩
    by_contra! cut
    have first := congrArg (fun kept => kept[0]?.map Prod.snd) same
    simp only [keepItems, getElem?_take_of_lt (Nat.pos_of_ne_zero cut.2), getElem?_drop,
      getElem?_zipIdx] at first
    rw [getElem?_eq_getElem (by omega), getElem?_eq_getElem (by omega)] at first
    simp at first
    omega
  · rintro (fits | rfl)
    · have none : entries.length - maxItems = 0 := Nat.sub_eq_zero_of_le fits
      constructor
      · rw [none, drop_zero, take_of_length_le fits]
      · rw [keepItems, none, drop_zero, take_of_length_le (by rwa [length_zipIdx])]
    · constructor
      · rw [take_zero, Nat.sub_zero, drop_length]
      · rw [keepItems, take_zero, Nat.sub_zero, drop_eq_nil_of_le (by rw [length_zipIdx])]

theorem keepsRecent_id_iff {Item : Type} {maxItems : Nat} {entries : List Item} :
    KeepsRecent id maxItems entries (keepItems maxItems entries) ↔
      entries.length ≤ maxItems ∨ maxItems = 0 := by
  rw [← @keepsRecent_iff _ _ id, map_id]

structure Fresh (hits : List DecisionHit) (front fresh : List Json) : Prop where
  topical : ∀ entry ∈ fresh, Topical hits entry
  distinct : (fresh.map summaryOf).Nodup
  apart : ∀ entry ∈ fresh, summaryOf entry ∉ front.map summaryOf

theorem pushHits_fresh (maxItems : Nat) (hits : List DecisionHit) (merged : List Json) :
    ∃ fresh, pushHits maxItems merged (normalizeDecisionHits hits) = merged ++ fresh ∧ Fresh hits merged fresh := by
  induction hits generalizing merged with
  | nil => exact ⟨[], (append_nil _).symm, by simp, nodup_nil, by simp⟩
  | cons hit rest ih =>
    have wider : ∀ entry, Topical rest entry → Topical (hit :: rest) entry :=
      fun entry ⟨other, mem, same⟩ => ⟨other, .tail _ mem, same⟩
    obtain ⟨entry, made, text⟩ : ∃ entry, normalizeDecisionHits (hit :: rest) =
      entry :: normalizeDecisionHits rest ∧ summaryOf entry = some hit.summary :=
      ⟨_, rfl, rfl⟩
    have topical : Topical (hit :: rest) entry := ⟨hit, .head _, text⟩
    rw [made, pushHits, text, Option.any_some]
    by_cases present : merged.any (fun entry => decide (summaryOf entry = some hit.summary)) = true
    · rw [if_pos present]
      split
      · exact ⟨[], (append_nil _).symm, by simp, nodup_nil, by simp⟩
      · obtain ⟨fresh, pushed, others, distinct, apart⟩ := ih merged
        exact ⟨fresh, pushed, fun other mem => wider other (others other mem), distinct, apart⟩
    · rw [if_neg present]
      have new : summaryOf entry ∉ merged.map summaryOf := by simpa [text] using present
      split
      · exact ⟨[entry], rfl, by simpa using topical, by simp, by simpa using new⟩
      · obtain ⟨fresh, pushed, others, distinct, apart⟩ := ih (merged ++ [entry])
        rw [map_append] at apart
        refine ⟨entry :: fresh, by rw [pushed, append_assoc, singleton_append], ?_, ?_, ?_⟩
        · exact forall_mem_cons.mpr ⟨topical, fun other mem => wider other (others other mem)⟩
        · rw [map_cons, nodup_cons]
          refine ⟨fun again => ?_, distinct⟩
          obtain ⟨other, mem, same⟩ := mem_map.mp again
          exact apart other mem (mem_append_right _ (same ▸ .head _))
        · exact forall_mem_cons.mpr ⟨new, fun other mem here => apart other mem (mem_append_left _ here)⟩

theorem Fresh.topicLed_iff {hits : List DecisionHit} {front fresh : List Json}
    (added : Fresh hits front fresh) : TopicLed hits (front ++ fresh) ↔ TopicLed hits front := by
  by_cases all : ∀ entry ∈ front, Topical hits entry
  · have led {kept : List Json} (each : ∀ entry ∈ kept, Topical hits entry) : TopicLed hits kept :=
      ⟨Pairwise.imp_of_mem (fun mem _ _ _ => each _ mem) (pairwise_of_forall fun _ _ => trivial), .inl each⟩
    exact iff_of_true (led (forall_mem_append.mpr ⟨all, added.topical⟩)) (led all)
  · cases fresh with
    | nil => rw [append_nil]
    | cons entry rest =>
      refine iff_of_false (fun led => all fun other mem => ?_) fun led => ?_
      · exact (pairwise_append.mp led.1).2.2 other mem entry (.head _) (added.topical entry (.head _))
      · obtain ⟨hit, isHit, same⟩ := added.topical entry (.head _)
        exact added.apart entry (.head _) (same ▸ led.2.resolve_left all hit isHit)

theorem mergeDecisions_fresh (snapshot : List Json) (hits : List DecisionHit) (maxItems : Nat) :
    ∃ fresh, mergeDecisions snapshot (normalizeDecisionHits hits) maxItems =
      snapshot.take maxItems ++ fresh ∧ Fresh hits (snapshot.take maxItems) fresh := by
  obtain ⟨fresh, pushed, topical, distinct, apart⟩ := pushHits_fresh maxItems hits snapshot
  refine ⟨fresh.take (maxItems - snapshot.length), by rw [mergeDecisions, pushed, take_append],
    fun entry mem => topical entry (mem_of_mem_take mem),
    distinct.sublist ((take_sublist _ _).map _), fun entry mem again =>
      apart entry (mem_of_mem_take mem) (((take_sublist _ _).map _).subset again)⟩

/-- The first decisions of the view stay in front, and every list keeps its oldest entries. -/
theorem wakeLists_relevantAndRecent_iff (view : Option Json)
    (topicHits : Option (List DecisionHit)) (maxItems : Nat) :
    RelevantAndRecent view topicHits maxItems ↔ (((snapshotDecisions view).take maxItems).map summaryOf).Nodup ∧
      (∀ hits ∈ topicHits, TopicLed hits ((snapshotDecisions view).take maxItems)) ∧
      (maxItems = 0 ∨ (entriesOf view "recent_reasoning").length ≤ maxItems ∧ (filesOf view).length ≤ maxItems ∧
        (entriesOf view "retrieval_hints").length ≤ maxItems) := by
  obtain ⟨fresh, kept, added⟩ := mergeDecisions_fresh (snapshotDecisions view) (topicHits.getD []) maxItems
  replace kept : (wakeLists view topicHits maxItems).recentDecisions = _ := kept
  have led (hits : List DecisionHit) (given : hits ∈ topicHits) :
      TopicLed hits (wakeLists view topicHits maxItems).recentDecisions ↔
        TopicLed hits ((snapshotDecisions view).take maxItems) := by
    rw [Option.mem_def.mp given, Option.getD_some] at added
    rw [kept, added.topicLed_iff]
  constructor
  · rintro ⟨-, unique, topic, reasoning, files, hints⟩
    replace reasoning := keepsRecent_iff.mp reasoning
    replace files := keepsRecent_id_iff.mp files
    replace hints := keepsRecent_id_iff.mp hints
    rw [kept, map_append] at unique
    exact ⟨unique.of_append_left, fun hits given => (led hits given).mp (topic hits given), by omega⟩
  · rintro ⟨unique, topic, cut⟩
    refine ⟨length_take_le _ _, ?_, fun hits given => (led hits given).mpr (topic hits given), ?_, ?_, ?_⟩
    · rw [kept, map_append, nodup_append]
      refine ⟨unique, added.distinct, ?_⟩
      rintro text inFront _ inFresh rfl
      obtain ⟨entry, mem, rfl⟩ := mem_map.mp inFresh
      exact added.apart entry mem inFront
    · exact keepsRecent_iff.mpr (by omega)
    · exact keepsRecent_id_iff.mpr (by omega)
    · exact keepsRecent_id_iff.mpr (by omega)

def releaseHit : DecisionHit := ⟨"d2", "freeze the release branch", none, []⟩
def plainView : Json :=
  .obj [("recent_decisions", .arr [.obj [("summary", .str "rename the helper")]]),
    ("retrieval_hints", .arr [.num "1", .num "2"])]

/-- The one place goes to a decision that has nothing to do with the topic, and the older
hint is kept. -/
theorem releaseHit_cut :
    (wakeLists (some plainView) (some [releaseHit]) 1).recentDecisions.map summaryOf =
      [some "rename the helper"] ∧
    (wakeLists (some plainView) (some [releaseHit]) 1).retrievalHints = [.num "1"] ∧
      ¬ RelevantAndRecent (some plainView) (some [releaseHit]) 1 :=
  ⟨by decide, by decide, fun holds => absurd holds.retrievalHints.shown (by decide)⟩

end Atlas.Session
