import Atlas.Refactor.Rename
import Atlas.Text.Split

/-! Which references a rename plan that calls itself safe carries an edit for. Every reference
that the query returned has one; the query returns at most 500 of them. -/
namespace Atlas.Refactor
open List Core Store
open Program (HashOrder)
open Text (lines lines_line)

abbrev Site := String × Nat

def RefactorEdit.site (edit : RefactorEdit) : Site := (edit.filePath, edit.lineStart)
def referenceSite (reference : Node × Edge) : Site :=
  (reference.1.filePath, referenceLine reference)

/-- Where a stored reference stands: in the file of its source, on the line of the edge or, if
it has none, where its source starts. -/
def rowSite (row : NodeRow × EdgeRow) : Site := (row.1.filePath, row.2.line.getD row.1.lineStart)

private theorem mem_sites_sortAndDedup {edits : List RefactorEdit} {site : Site} :
    site ∈ (sortAndDedup edits).map RefactorEdit.site ↔ site ∈ edits.map RefactorEdit.site := by
  have mapped : (sortAndDedup edits).map RefactorEdit.site =
    ((edits.insertionSort editBefore).map RefactorEdit.site).destutter (· ≠ ·) := by
    apply map_destutter
    intro first _ second _
    unfold RefactorEdit.site
    rw [ne_eq, ne_eq, ne_eq, Prod.mk.injEq, not_and_or]
  rw [mapped, Text.mem_destutter_ne]
  exact ((perm_insertionSort _ _).map _).mem_iff

section
variable {File : Type} {machine : Machine File} {fileOrder : HashOrder String}
  {db : Db} {disk : File → Option Text} {oldName newName qname : String} {target : Node}
  {draft next : RenameDraft}

/-! ## Drafts that leave nothing to review -/

def RenameDraft.Clear (draft : RenameDraft) : Prop := draft.risky = false ∧ draft.manualReview = []

theorem renamePlan_safe_iff :
    (renamePlan qname newName draft).estimatedSafety = .safe ↔ draft.Clear := by
  unfold renamePlan RenameDraft.Clear
  dsimp only
  split
  · next unclear =>
      refine iff_of_false nofun fun ⟨calm, reviewed⟩ => ?_
      rcases unclear with risky | filled
      · rw [calm] at risky
        cases risky
      · exact filled reviewed
  · next clear =>
      rw [not_or, Bool.not_eq_true, not_not] at clear
      exact iff_of_true rfl clear

theorem RenameDraft.not_clear_review {message : String} : ¬ (draft.review message).Clear :=
  fun clear => append_ne_nil_of_right_ne_nil _ (cons_ne_nil _ _) clear.2

variable {reference : Node × Edge} {path oldQname : String} {plan : EstimatedPlan}

private theorem renameReference_clear (ran : renameReference machine disk oldName newName draft reference =
    .ok next) (clear : next.Clear) :
    draft.Clear ∧ next.edits.map RefactorEdit.site = draft.edits.map RefactorEdit.site ++
      if referenceLine reference = 0 then [] else [referenceSite reference] := by
  unfold renameReference at ran
  dsimp only at ran
  split at ran
  · next skipped =>
      cases ran
      exact ⟨clear, by rw [if_pos skipped, append_nil]⟩
  · next counted =>
      rw [if_neg counted]
      split at ran
      · cases ran
        cases clear.1
      · cases renamed : renamedLine machine disk reference.1.filePath (referenceLine reference) oldName newName with
        | error failure =>
          rw [renamed] at ran
          cases ran
        | ok texts =>
          rw [renamed] at ran
          have made := Except.ok.inj ran
          dsimp only at made
          split at made
          · subst made
            exact absurd clear RenameDraft.not_clear_review
          · subst made
            exact ⟨clear, map_append⟩

private theorem renameReferences_clear {references : List (Node × Edge)}
    (ran : references.foldlM (renameReference machine disk oldName newName) draft = .ok next)
    (clear : next.Clear) :
    draft.Clear ∧ next.edits.map RefactorEdit.site = draft.edits.map RefactorEdit.site ++
      (references.filter fun reference => referenceLine reference ≠ 0).map referenceSite := by
  induction references generalizing draft with
  | nil =>
    cases ran
    exact ⟨clear, (append_nil _).symm⟩
  | cons reference rest ih =>
    rw [foldlM_cons] at ran
    obtain ⟨between, stepped, ran⟩ := Program.bind_eq_ok ran
    obtain ⟨betweenClear, sites⟩ := ih ran
    obtain ⟨draftClear, first⟩ := renameReference_clear stepped betweenClear
    refine ⟨draftClear, ?_⟩
    rw [sites, first, append_assoc]
    by_cases skipped : referenceLine reference = 0
    · rw [if_pos skipped, filter_cons_of_neg (by simpa using skipped), nil_append]
    · rw [if_neg skipped, filter_cons_of_pos (by simpa using skipped), map_cons,
        singleton_append]

private theorem reviewNode_clear {node : Node} (clear : (reviewNode path newName draft node).Clear) :
    reviewNode path newName draft node = draft := by
  unfold reviewNode at clear ⊢
  split
  · next collides =>
      rw [if_pos collides] at clear
      cases clear.1
  · rfl

private theorem reviewNodes_clear {nodes : List Node}
    (clear : (nodes.foldl (reviewNode path newName) draft).Clear) :
    nodes.foldl (reviewNode path newName) draft = draft := by
  induction nodes generalizing draft with
  | nil => rfl
  | cons node rest ih =>
    rw [foldl_cons] at clear ⊢
    have later := ih clear
    rw [later] at clear ⊢
    exact reviewNode_clear clear

private theorem reviewFile_clear (ran : reviewFile machine db target newName draft path = .ok next)
    (clear : next.Clear) : next = draft := by
  unfold reviewFile at ran
  split at ran
  · exact (Except.ok.inj ran).symm
  · split at ran
    · cases ran
    · obtain ⟨rfl⟩ := Except.ok.inj ran
      exact reviewNodes_clear clear

private theorem reviewFiles_clear {paths : List String}
    (ran : paths.foldlM (reviewFile machine db target newName) draft = .ok next)
    (clear : next.Clear) : next = draft := by
  induction paths generalizing draft with
  | nil => exact (Except.ok.inj ran).symm
  | cons path rest ih =>
    rw [foldlM_cons] at ran
    obtain ⟨between, stepped, ran⟩ := Program.bind_eq_ok ran
    have same := ih ran
    subst same
    exact reviewFile_clear stepped clear

private theorem inboundRows_eq : inboundRows db qname = joinNodes (fun edge node =>
    EdgeDirection.inbound.filtered edge = qname && (!false || edge.kind = "calls") &&
      node.qualifiedName = EdgeDirection.inbound.joined edge) db := by
  unfold inboundRows EdgeDirection.filtered EdgeDirection.joined
  simp only [Bool.not_false, Bool.true_or, Bool.and_true]

def rankedRows (db : Db) (qname : String) : List (NodeRow × EdgeRow) :=
  (inboundRows db qname).insertionSort fun left right =>
    confidenceKey right.2.confidence < confidenceKey left.2.confidence ∨
      confidenceKey right.2.confidence = confidenceKey left.2.confidence ∧
      left.2.sourceQualified ≤ right.2.sourceQualified

theorem inboundEdges_eq (limit : Nat) : inboundEdges db qname limit =
    ((rankedRows db qname).take limit).filterMap rowToNodeAndEdge := by
  unfold inboundEdges directedEdges rankedRows
  rw [inboundRows_eq]
  rfl

theorem referenceSite_of_row {row : NodeRow × EdgeRow}
    (read : rowToNodeAndEdge row = some reference) : referenceSite reference = rowSite row := by
  unfold rowToNodeAndEdge rowToEdge at read
  cases placed : row.2.filePath with
  | none =>
    rw [placed] at read
    cases read
  | some path =>
    rw [placed] at read
    cases read
    rfl

def LeftOut (db : Db) (qname : String) (row : NodeRow × EdgeRow) : Prop :=
  row ∈ inboundRows db qname ∧ ∀ reference ∈ inboundEdges db qname edgeQueryLimit,
    rowToNodeAndEdge row ≠ some reference

private theorem not_leftOut_of_few (few : (inboundRows db qname).length ≤ edgeQueryLimit)
    (placed : ∀ row ∈ inboundRows db qname, row.2.filePath.isSome) (row : NodeRow × EdgeRow) :
    ¬ LeftOut db qname row := by
  intro ⟨mem, unread⟩
  have whole : (rankedRows db qname).take edgeQueryLimit = rankedRows db qname := by
    apply take_of_length_le
    unfold rankedRows
    rw [length_insertionSort]
    exact few
  obtain ⟨path, named⟩ := Option.isSome_iff_exists.mp (placed row mem)
  have read : ∃ reference, rowToNodeAndEdge row = some reference := by
    unfold rowToNodeAndEdge rowToEdge
    rw [named]
    exact ⟨_, rfl⟩
  obtain ⟨reference, read⟩ := read
  refine unread reference ?_ read
  rw [inboundEdges_eq, whole]
  exact mem_filterMap.mpr ⟨row, (mem_insertionSort _).mpr mem, read⟩

def DefinitionEdited (machine : Machine File)
    (disk : File → Option Text) (target : Node) (newName : String) : Prop :=
  ∃ text renamed, renamedLine machine disk target.filePath target.lineStart target.name newName =
    .ok (text, renamed) ∧ renamed ≠ text

private theorem renameDefinition_sites {site : Site}
    (ran : renameDefinition machine disk target newName = .ok draft) :
    site ∈ draft.edits.map RefactorEdit.site ↔ DefinitionEdited machine disk target newName ∧
      site = (target.filePath, target.lineStart) := by
  unfold renameDefinition at ran
  unfold DefinitionEdited
  cases renamed : renamedLine machine disk target.filePath target.lineStart target.name newName with
  | error failure =>
    rw [renamed] at ran
    cases ran
  | ok texts =>
    obtain ⟨text, new⟩ := texts
    rw [renamed] at ran
    have made := Except.ok.inj ran
    dsimp only at made
    split at made
    · next changed =>
        subst made
        have planned : (({} : RenameDraft).push (renameEdit target.filePath target.lineStart text
          new)).edits.map RefactorEdit.site = [(target.filePath, target.lineStart)] := rfl
        rw [planned, mem_singleton]
        exact ⟨fun same => ⟨⟨text, new, rfl, changed⟩, same⟩, And.right⟩
    · next same =>
        subst made
        refine iff_of_false not_mem_nil fun ⟨⟨text', new', read, changed⟩, _⟩ => ?_
        cases read
        exact changed (not_not.mp same)

private theorem collectDraft_clear (ran : collectDraft machine fileOrder db disk target qname newName =
    .ok draft) (clear : draft.Clear) :
    ∃ first, renameDefinition machine disk target newName = .ok first ∧
      draft.edits.map RefactorEdit.site = first.edits.map RefactorEdit.site ++
        ((inboundEdges db qname edgeQueryLimit).filter fun reference =>
          referenceLine reference ≠ 0).map referenceSite := by
  obtain ⟨first, defined, ran⟩ := Program.bind_eq_ok ran
  obtain ⟨second, collected, reviewed⟩ := Program.bind_eq_ok ran
  obtain rfl := reviewFiles_clear reviewed clear
  exact ⟨first, defined, (renameReferences_clear collected clear).2⟩

private theorem planRename_eq_ok
    (planned : planRename machine fileOrder db disk oldQname newName = .ok plan) :
    ∃ target draft, renameTarget machine db (normalizeQnKindTokens oldQname) newName = .ok target ∧
      collectDraft machine fileOrder db disk target (normalizeQnKindTokens oldQname) newName = .ok draft ∧
      plan = renamePlan (normalizeQnKindTokens oldQname) newName draft := by
  unfold planRename at planned
  split at planned
  · cases planned
  · dsimp only at planned
    split at planned
    · cases planned
    · next target resolved =>
        obtain ⟨draft, collected, planned⟩ := Program.bind_eq_ok planned
        exact ⟨target, draft, resolved, collected, (Except.ok.inj planned).symm⟩

theorem planRename_sites (site : Site)
    (planned : planRename machine fileOrder db disk oldQname newName = .ok plan)
    (safe : plan.estimatedSafety = .safe) :
    ∃ target, renameTarget machine db (normalizeQnKindTokens oldQname) newName = .ok target ∧
      (site ∈ plan.edits.map RefactorEdit.site ↔ (DefinitionEdited machine disk target newName ∧
        site = (target.filePath, target.lineStart)) ∨
        ∃ reference ∈ inboundEdges db (normalizeQnKindTokens oldQname) edgeQueryLimit,
          referenceLine reference ≠ 0 ∧ referenceSite reference = site) := by
  obtain ⟨target, draft, resolved, collected, rfl⟩ := planRename_eq_ok planned
  obtain ⟨first, defined, sites⟩ := collectDraft_clear collected (renamePlan_safe_iff.mp safe)
  refine ⟨target, resolved, ?_⟩
  unfold renamePlan
  rw [mem_sites_sortAndDedup, sites, mem_append, renameDefinition_sites defined, mem_map]
  simp only [mem_filter, decide_eq_true_eq, and_assoc]

/-- A safe plan covers every stored reference exactly if the query did, up to references on a
line that is edited anyway. -/
theorem planRename_complete_iff {oldQname : String} {plan : EstimatedPlan}
    (planned : planRename machine fileOrder db disk oldQname newName = .ok plan)
    (safe : plan.estimatedSafety = .safe) :
    (∀ row ∈ inboundRows db (normalizeQnKindTokens oldQname), (rowSite row).2 ≠ 0 →
      ∃ edit ∈ plan.edits, edit.site = rowSite row) ↔
    ∀ row, LeftOut db (normalizeQnKindTokens oldQname) row → (rowSite row).2 ≠ 0 →
      (∃ reference ∈ inboundEdges db (normalizeQnKindTokens oldQname) edgeQueryLimit, referenceSite reference = rowSite row) ∨
      ∃ target, renameTarget machine db (normalizeQnKindTokens oldQname) newName = .ok target ∧
        DefinitionEdited machine disk target newName ∧
        rowSite row = (target.filePath, target.lineStart) := by
  constructor
  · intro complete row leftOut counted
    obtain ⟨edit, mem, same⟩ := complete row leftOut.1 counted
    obtain ⟨target, resolved, sites⟩ := planRename_sites (rowSite row) planned safe
    rcases sites.mp (mem_map.mpr ⟨edit, mem, same⟩) with defined | ⟨reference, read, _, same⟩
    · exact .inr ⟨target, resolved, defined⟩
    · exact .inl ⟨reference, read, same⟩
  · intro covered row mem counted
    obtain ⟨target, resolved, sites⟩ := planRename_sites (rowSite row) planned safe
    apply mem_map.mp
    apply sites.mpr
    have counted' : ∀ reference, referenceSite reference = rowSite row →
      referenceLine reference ≠ 0 := fun reference same => by rwa [← same] at counted
    by_cases leftOut : LeftOut db (normalizeQnKindTokens oldQname) row
    · rcases covered row leftOut counted with ⟨reference, read, same⟩ | ⟨target', resolved', defined⟩
      · exact .inr ⟨reference, read, counted' reference same, same⟩
      · cases resolved.symm.trans resolved'
        exact .inl defined
    · unfold LeftOut at leftOut
      push Not at leftOut
      obtain ⟨reference, read, same⟩ := leftOut mem
      have site := referenceSite_of_row same
      exact .inr ⟨reference, read, counted' reference site, site⟩

end

/-! ## One function called many times -/

def callingText : Text := "fn old(){}\n".toList ++ (replicate 600 "old();\n".toList).flatten

def callingMachine : Machine Unit where
  repoRoot := "/repo"
  sourceRepoId := some "repo"
  locate _ := ()
  registry _ := none
  sha256 _ := ""
  nfc := id
  editOrder := .asGiven
  contentOrder := .asGiven
  readFault _ := none
  writeFault _ := none
  restoreFault _ := none
  refreshFaults := .faultless

def callingNode (name : String) (line : Nat) : NodeRow where
  id := line
  kind := "function"
  name
  qualifiedName := "src/lib.rs::fn::" ++ name
  filePath := "src/lib.rs"
  lineStart := line
  lineEnd := line
  language := some "rust"
  parentName := none
  params := none
  returnType := none
  modifiers := none
  isTest := false
  fileHash := none
  extraJson := .null
  sourceRepoId := "repo"

def callingEdge (index : Nat) : EdgeRow where
  id := index
  kind := "calls"
  sourceQualified := "src/lib.rs::fn::user"
  targetQualified := "src/lib.rs::fn::old"
  filePath := some "src/lib.rs"
  line := some (index + 2)
  confidence := 0x3f800000
  confidenceTier := none
  extraJson := .null
  sourceRepoId := "repo"

def callingDb (count : Nat) : Db where
  nodes := [callingNode "old" 1, callingNode "user" 2]
  edges := (range count).map callingEdge

def setOrder : HashOrder String := .asGiven

theorem lines_callingText :
    lines callingText = "fn old(){}".toList :: replicate 600 "old();".toList := by
  have body (count : Nat) : lines (replicate count "old();\n".toList).flatten = replicate count "old();".toList := by
    induction count with
    | zero => rfl
    | succ count ih =>
      have first : (replicate (count + 1) "old();\n".toList).flatten =
        "old();".toList ++ '\n' :: (replicate count "old();\n".toList).flatten := rfl
      rw [first, lines_line (by decide), ih]
      rfl
  have first : callingText = "fn old(){}".toList ++ '\n' :: (replicate 600 "old();\n".toList).flatten := rfl
  rw [first, lines_line (by decide), body]
  rfl

private theorem renamedLine_definition :
    renamedLine callingMachine (fun _ => some callingText) "src/lib.rs" 1 "old" "fresh" =
      .ok ("fn old(){}".toList, "fn fresh(){}".toList) := by
  have read : readLine callingMachine (fun _ => some callingText) "src/lib.rs" 1 = .ok "fn old(){}".toList := by
    unfold readLine readFileContent
    dsimp only [callingMachine]
    rw [lines_callingText]
    rfl
  have made : replaceIdentifier "fn old(){}".toList "old".toList "fresh".toList = some "fn fresh(){}".toList := by
    unfold replaceIdentifier
    rw [dif_neg (by decide), replaceFrom, if_pos (by decide), if_neg (by decide),
      replaceFrom, if_pos (by decide), if_neg (by decide),
      replaceFrom, if_pos (by decide), if_neg (by decide),
      replaceFrom, if_pos (by decide), if_pos (by decide),
      replaceFrom, if_pos (by decide), if_neg (by decide),
      replaceFrom, if_pos (by decide), if_neg (by decide),
      replaceFrom, if_neg (by decide)]
    rfl
  unfold renamedLine
  rw [read]
  dsimp only
  rw [made]

variable {index : Nat}

private theorem renamedLine_call (within : index < 600) :
    renamedLine callingMachine (fun _ => some callingText) "src/lib.rs" (index + 2) "old" "fresh" =
      .ok ("old();".toList, "fresh();".toList) := by
  have here : (lines callingText)[index + 2 - 1]? = some "old();".toList := by
    rw [lines_callingText]
    exact getElem?_replicate_of_lt within
  have read : readLine callingMachine (fun _ => some callingText) "src/lib.rs" (index + 2) = .ok "old();".toList := by
    unfold readLine readFileContent
    dsimp only [callingMachine]
    rw [here]
  have made : replaceIdentifier "old();".toList "old".toList "fresh".toList = some "fresh();".toList := by
    unfold replaceIdentifier
    rw [dif_neg (by decide), replaceFrom, if_pos (by decide), if_pos (by decide),
      replaceFrom, if_pos (by decide), if_neg (by decide),
      replaceFrom, if_neg (by decide)]
    rfl
  unfold renamedLine
  rw [read]
  dsimp only
  rw [made]

theorem inboundRows_callingDb (count : Nat) :
    inboundRows (callingDb count) "src/lib.rs::fn::old" = (range count).map fun index =>
      (callingNode "user" 2, callingEdge index) := by
  unfold inboundRows joinNodes callingDb
  rw [flatMap_map]
  exact map_eq_flatMap.symm

theorem inboundEdges_callingDb (count : Nat) :
    inboundEdges (callingDb count) "src/lib.rs::fn::old" edgeQueryLimit =
      ((range count).take edgeQueryLimit).filterMap fun index =>
      rowToNodeAndEdge (callingNode "user" 2, callingEdge index) := by
  have ranked : rankedRows (callingDb count) "src/lib.rs::fn::old" = (range count).map fun index =>
    (callingNode "user" 2, callingEdge index) := by
    unfold rankedRows
    rw [inboundRows_callingDb]
    apply List.Pairwise.insertionSort_eq
    rw [pairwise_map]
    exact pairwise_of_forall fun _ _ => .inr ⟨rfl, String.le_refl _⟩
  rw [inboundEdges_eq, ranked, ← map_take, filterMap_map]
  rfl

theorem lt_of_mem_take_range {count limit : Nat} (mem : index ∈ (range count).take limit) :
    index < limit := by
  obtain ⟨position, bound, rfl⟩ := mem_iff_getElem.mp mem
  rw [length_take] at bound
  rw [getElem_take, getElem_range]
  omega

def Calm (draft : RenameDraft) : Prop :=
  draft.Clear ∧ ∀ path ∈ draft.affectedFiles, path = "src/lib.rs"

theorem Calm.push {draft : RenameDraft} (calm : Calm draft) (line : Nat) (old new : Text) :
    Calm (draft.push (renameEdit "src/lib.rs" line old new)) := by
  refine ⟨calm.1, fun path mem => ?_⟩
  rcases mem_insert_iff.mp mem with same | before
  · exact same
  · exact calm.2 path before

private theorem renameCalls {indices : List Nat} (within : ∀ index ∈ indices, index < 600)
    {draft : RenameDraft} (calm : Calm draft) : ∃ next, (indices.filterMap fun index =>
        rowToNodeAndEdge (callingNode "user" 2, callingEdge index)).foldlM
      (renameReference callingMachine (fun _ => some callingText) "old" "fresh") draft = .ok next ∧ Calm next := by
  induction indices generalizing draft with
  | nil => exact ⟨draft, rfl, calm⟩
  | cons index rest ih =>
    have stepped : renameReference callingMachine (fun _ => some callingText) "old" "fresh" draft
      (rowToNode (callingNode "user" 2), ⟨index, .calls, "src/lib.rs::fn::user",
          "src/lib.rs::fn::old", "src/lib.rs", some (index + 2), 0x3f800000, none, .null, none⟩) =
        .ok (draft.push (renameEdit "src/lib.rs" (index + 2) "old();".toList "fresh();".toList)) := by
      unfold renameReference
      dsimp only [referenceLine, Option.getD, rowToNode, callingNode]
      rw [if_neg (Nat.succ_ne_zero _), if_neg (by decide),
        renamedLine_call (within index (.head _))]
      rfl
    obtain ⟨next, ran, calm'⟩ := ih (fun other mem => within other (.tail _ mem))
      (calm.push (index + 2) "old();".toList "fresh();".toList)
    refine ⟨next, ?_, calm'⟩
    rw [← ran]
    rw [filterMap_cons]
    change foldlM _ draft ((_, _) :: _) = _
    rw [foldlM_cons]
    exact congrArg (· >>= _) stepped

theorem normalizeQnKindTokens_callingNode :
    normalizeQnKindTokens "src/lib.rs::fn::old" = "src/lib.rs::fn::old" := by decide

theorem planRename_callingDb (count : Nat) :
    ∃ plan, planRename callingMachine setOrder (callingDb count) (fun _ => some callingText)
      "src/lib.rs::fn::old" "fresh" = .ok plan ∧ plan.estimatedSafety = .safe := by
  have resolved : renameTarget callingMachine (callingDb count) "src/lib.rs::fn::old" "fresh" =
    .ok (rowToNode (callingNode "old" 1)) := by rfl
  have defined : renameDefinition callingMachine (fun _ => some callingText)
    (rowToNode (callingNode "old" 1)) "fresh" = .ok (({} : RenameDraft).push
        (renameEdit "src/lib.rs" 1 "fn old(){}".toList "fn fresh(){}".toList)) := by
    unfold renameDefinition
    dsimp only [rowToNode, callingNode]
    rw [renamedLine_definition]
    rfl
  have start : Calm {} := ⟨⟨rfl, rfl⟩, fun _ mem => absurd mem not_mem_nil⟩
  have within : ∀ index ∈ (range count).take edgeQueryLimit, index < 600 :=
    fun index mem => Nat.lt_trans (lt_of_mem_take_range mem) (by decide)
  obtain ⟨draft, ran, calm⟩ := renameCalls within (start.push 1 "fn old(){}".toList "fn fresh(){}".toList)
  have reviewed : draft.affectedFiles.foldlM (reviewFile callingMachine (callingDb count)
    (rowToNode (callingNode "old" 1)) "fresh") draft = .ok draft := by
    have own := calm.2
    generalize draft.affectedFiles = paths at own
    induction paths with
    | nil => rfl
    | cons path rest ih =>
      rw [foldlM_cons]
      have first : reviewFile callingMachine (callingDb count) (rowToNode (callingNode "old" 1))
        "fresh" draft path = .ok draft := by
        unfold reviewFile
        exact if_pos (own path (.head _))
      rw [first]
      exact ih fun other mem => own other (.tail _ mem)
  refine ⟨renamePlan "src/lib.rs::fn::old" "fresh" draft, ?_, renamePlan_safe_iff.mpr calm.1⟩
  have collected : collectDraft callingMachine setOrder (callingDb count) (fun _ => some
    callingText) (rowToNode (callingNode "old" 1)) "src/lib.rs::fn::old" "fresh" = .ok draft := by
    unfold collectDraft
    rw [defined, inboundEdges_callingDb]
    have name : (rowToNode (callingNode "old" 1)).name = "old" := rfl
    dsimp only [bind, Except.bind]
    rw [name, ran]
    exact reviewed
  unfold planRename
  rw [show validateIdentifier "fresh" = .ok () by decide]
  dsimp only
  rw [normalizeQnKindTokens_callingNode, resolved]
  dsimp only
  rw [collected]
  rfl

/-- With the one call read, the plan is complete. -/
theorem planRename_complete_one_call :
    ∃ plan, planRename callingMachine setOrder (callingDb 1) (fun _ => some callingText)
      "src/lib.rs::fn::old" "fresh" = .ok plan ∧ plan.estimatedSafety = .safe ∧
    ∀ row ∈ inboundRows (callingDb 1) (normalizeQnKindTokens "src/lib.rs::fn::old"),
      (rowSite row).2 ≠ 0 → ∃ edit ∈ plan.edits, edit.site = rowSite row := by
  obtain ⟨plan, planned, safe⟩ := planRename_callingDb 1
  refine ⟨plan, planned, safe, (planRename_complete_iff planned safe).mpr fun row leftOut => ?_⟩
  have rows : inboundRows (callingDb 1) (normalizeQnKindTokens "src/lib.rs::fn::old") =
    [(callingNode "user" 2, callingEdge 0)] := by
    rw [normalizeQnKindTokens_callingNode, inboundRows_callingDb]
    rfl
  refine absurd leftOut (not_leftOut_of_few ?_ ?_ row)
  · rw [rows]
    decide
  · intro other mem
    rw [rows, mem_singleton] at mem
    rw [mem]
    rfl

/-- The 501st call is left out, and the plan calls itself safe. -/
theorem planRename_misses_call :
    ∃ plan, planRename callingMachine setOrder (callingDb 501) (fun _ => some callingText)
      "src/lib.rs::fn::old" "fresh" = .ok plan ∧ plan.estimatedSafety = .safe ∧
    ¬ ∀ row ∈ inboundRows (callingDb 501) (normalizeQnKindTokens "src/lib.rs::fn::old"),
      (rowSite row).2 ≠ 0 → ∃ edit ∈ plan.edits, edit.site = rowSite row := by
  obtain ⟨plan, planned, safe⟩ := planRename_callingDb 501
  refine ⟨plan, planned, safe, fun complete => ?_⟩
  rw [normalizeQnKindTokens_callingNode, inboundRows_callingDb] at complete
  have last := complete (callingNode "user" 2, callingEdge 500) (mem_map.mpr ⟨500, mem_range.mpr (by decide), rfl⟩) (by decide)
  have site : rowSite (callingNode "user" 2, callingEdge 500) = ("src/lib.rs", 502) := rfl
  rw [site] at last
  obtain ⟨target, resolved, sites⟩ := planRename_sites ("src/lib.rs", 502) planned safe
  rw [normalizeQnKindTokens_callingNode, inboundEdges_callingDb] at sites
  rcases sites.mp (mem_map.mpr last) with ⟨_, defined⟩ | ⟨reference, read, _, same⟩
  · have own : target = rowToNode (callingNode "old" 1) := by
      rw [normalizeQnKindTokens_callingNode] at resolved
      exact (Except.ok.inj resolved).symm
    rw [own] at defined
    cases defined
  · obtain ⟨index, mem, made⟩ := mem_filterMap.mp read
    have early := lt_of_mem_take_range mem
    rw [referenceSite_of_row made] at same
    have line : index + 2 = 502 := congrArg Prod.snd same
    unfold edgeQueryLimit at early
    omega

end Atlas.Refactor
