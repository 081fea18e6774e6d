import Atlas.Engine.Update
import Atlas.Store.BatchContents
import Atlas.Text.Find

/-! A signature is one text for the five fields of a symbol's interface. The kind and
the test flag can be read back from it; the three free texts between them cannot,
since each may contain the separator. -/
namespace Atlas.Engine
open List Core Sql Store

/-- The fields that a signature is about; a missing text is the empty one. -/
def interfaceOf (node : Node) : NodeKind × String × String × String × Bool :=
  (node.kind, node.params.getD "", node.returnType.getD "", node.modifiers.getD "", node.isTest)
def joinedTexts (node : Node) : String :=
  node.params.getD "" ++ "|" ++ node.returnType.getD "" ++ "|" ++ node.modifiers.getD ""

/-- Another kind, another test flag, or free texts that join to another text. -/
def ToldApart (before after : Node) : Prop :=
  before.kind ≠ after.kind ∨ before.isTest ≠ after.isTest ∨ joinedTexts before ≠ joinedTexts after

def InterfaceChanged (old new : List Node) (name : String) : Prop :=
  (name ∈ old.map Node.qualifiedName ∧ name ∉ new.map Node.qualifiedName) ∨
    (name ∈ new.map Node.qualifiedName ∧ name ∉ old.map Node.qualifiedName) ∨
    ∃ before ∈ old, ∃ after ∈ new, before.qualifiedName = name ∧
      after.qualifiedName = name ∧ interfaceOf before ≠ interfaceOf after

theorem bar_not_mem_asStr (kind : NodeKind) : '|' ∉ kind.asStr.toList := by
  cases kind <;> decide

theorem asStr_injective {left right : NodeKind} (same : left.asStr = right.asStr) :
    left = right := by
  have parsed := congrArg NodeKind.fromStr? same
  rw [NodeKind.fromStr?_asStr, NodeKind.fromStr?_asStr] at parsed
  exact Option.some.inj parsed

theorem flag_injective {left right : Bool}
    (same : ['|', if left then '1' else '0'] = ['|', if right then '1' else '0']) :
    left = right := by
  revert left right
  decide

theorem nodeSignature_toList (node : Node) : (nodeSignature node).toList = node.kind.asStr.toList ++
    '|' :: ((joinedTexts node).toList ++ ['|', if node.isTest then '1' else '0']) := by
  have bar : "|".toList = ['|'] := by decide
  have digit : (if node.isTest then "1" else "0").toList = [if node.isTest then '1' else '0'] := by
    cases node.isTest <;> decide
  unfold nodeSignature signature joinedTexts
  simp only [String.toList_append, bar, digit, append_assoc, cons_append, nil_append]

variable {left right : Node} {entries : List (String × String)} {name : String}

theorem nodeSignature_eq_iff : nodeSignature left = nodeSignature right ↔
    left.kind = right.kind ∧ left.isTest = right.isTest ∧ joinedTexts left = joinedTexts right := by
  rw [← String.toList_inj, nodeSignature_toList, nodeSignature_toList,
    Text.separated_inj (bar_not_mem_asStr _) (bar_not_mem_asStr _)]
  constructor
  · rintro ⟨kinds, texts⟩
    obtain ⟨joined, flags⟩ := append_inj' texts rfl
    exact ⟨asStr_injective (String.toList_inj.mp kinds), flag_injective flags, String.toList_inj.mp joined⟩
  · rintro ⟨kinds, flags, joined⟩
    rw [kinds, flags, joined]
    exact ⟨rfl, rfl⟩

theorem nodeSignature_ne_iff : nodeSignature left ≠ nodeSignature right ↔ ToldApart left right := by
  unfold ToldApart
  rw [ne_eq, nodeSignature_eq_iff, not_and_or, not_and_or]

theorem interfaceOf_ne_of_toldApart (apart : ToldApart left right) :
    interfaceOf left ≠ interfaceOf right := by
  intro same
  unfold interfaceOf at same
  simp only [Prod.mk.injEq] at same
  obtain ⟨kinds, params, returns, modifiers, flags⟩ := same
  rcases apart with kind | flag | joined
  · exact kind kinds
  · exact flag flags
  · apply joined
    unfold joinedTexts
    rw [params, returns, modifiers]

theorem lookup_eq_some_iff {text : String} (nodup : (entries.map Prod.fst).Nodup) :
    entries.lookup name = some text ↔ (name, text) ∈ entries := by
  induction entries with
  | nil => exact ⟨nofun, nofun⟩
  | cons entry rest ih =>
    obtain ⟨notLater, restDistinct⟩ := nodup_cons.mp nodup
    rw [lookup_cons, mem_cons]
    by_cases here : name = entry.1
    · subst here
      rw [beq_self_eq_true]
      constructor
      · intro found
        rw [← Option.some.inj found]
        exact .inl rfl
      · rintro (same | later)
        · rw [← same]
        · exact absurd (mem_map_of_mem later) notLater
    · rw [beq_eq_false_iff_ne.mpr here]
      constructor
      · exact fun found => .inr ((ih restDistinct).mp found)
      · rintro (same | later)
        · exact absurd (congrArg Prod.fst same) here
        · exact (ih restDistinct).mpr later

theorem mem_changedQnames {parsed : List Node} (nodup : (entries.map Prod.fst).Nodup) :
    name ∈ changedQnames entries parsed ↔ (∃ node ∈ parsed, node.qualifiedName = name ∧ (name, nodeSignature node) ∉ entries) ∨
        (name ∈ entries.map Prod.fst ∧ name ∉ parsed.map Node.qualifiedName) := by
  unfold changedQnames
  rw [mem_append, mem_map, mem_filter, decide_eq_true_eq]
  apply or_congr_left
  constructor
  · rintro ⟨node, mem, rfl⟩
    obtain ⟨inParsed, differs⟩ := mem_filter.mp mem
    rw [decide_eq_true_eq, ne_eq, lookup_eq_some_iff nodup] at differs
    exact ⟨node, inParsed, rfl, differs⟩
  · rintro ⟨node, mem, rfl, differs⟩
    refine ⟨node, mem_filter.mpr ⟨mem, ?_⟩, rfl⟩
    rw [decide_eq_true_eq, ne_eq, lookup_eq_some_iff nodup]
    exact differs

section
variable {nfc : String → String} {limit : Option Nat} {repo hash : String}
  {language : Option String} {size : Option Nat} {db : Db}

theorem nodes_doReplaceFileGraph (path : String) (nodes : List Node) (edges : List Edge) :
    (execAll (doReplaceFileGraph limit repo path hash language size nodes edges db) db).nodes =
      insertNodeRows repo nodes (deleteWhere (NodeRow.inFile repo path) db.nodes) := by
  simp only [doReplaceFileGraph, execAll_append, execAll_cons, execAll_nil, execAll_unindex,
    execAll_deleteEdgesTouching, execAll_deleteChunksOfSymbol]
  rw [← insertNodeStatements]
  obtain ⟨documents, rowid, ran⟩ := execAll_insertNodeStatements repo nodes _
  rw [ran]
  have inserted := execAll_insertEdge repo (edgeProvenanceJson repo) edges
  unfold edgeProvenanceJson at inserted
  rw [inserted]
  rfl

theorem columns_inserted_inFile {path : String} {nodes : List Node} (rows : List NodeRow) (nodup :
    (nodes.map Node.qualifiedName).Nodup) (located : ∀ node ∈ nodes, node.filePath = path) :
    (((insertNodeRows repo nodes (deleteWhere (NodeRow.inFile repo path) rows)).filter
      (NodeRow.inFile repo path)).map NodeRow.columns).Perm (nodes.map (nodeRow repo 0)) := by
  rw [map_columns_filter_nodes _ fun _ => rfl]
  refine ((insertNodeRows_columns nodes _ nodup).filter _).trans ?_
  rw [filter_append, ← map_columns_filter_nodes _ fun _ => rfl]
  have gone : ((deleteWhere (NodeRow.inFile repo path) rows).filter fun row =>
      decide (∀ node ∈ nodes, row.key ≠ (repo, node.qualifiedName))).filter (NodeRow.inFile repo path) = [] := by
    rw [filter_eq_nil_iff]
    intro row mem
    have left := (mem_deleteWhere.mp (mem_filter.mp mem).1).2
    rw [left]
    exact Bool.false_ne_true
  have kept : (nodes.map (nodeRow repo 0)).filter (NodeRow.inFile repo path) = nodes.map (nodeRow repo 0) := by
    rw [filter_eq_self]
    intro row mem
    obtain ⟨node, inNodes, rfl⟩ := mem_map.mp mem
    exact decide_eq_true ⟨rfl, located node inNodes⟩
  rw [gone, kept]
  exact .refl _

variable {path file : String} {nodes : List Node} {edges : List Edge}
  {slice : CanonicalizedGraphData} {stored : List (String × String)}

theorem storedSignatures_perm (sliced : canonicalizeGraphSlice nfc path nodes edges = .ok slice)
    (nodup : (slice.nodes.map Node.qualifiedName).Nodup)
    (same : canonicalizeRepoPath nfc file = .ok slice.path)
    (read : nodeSignaturesByFileForRepo nfc (execAll (doReplaceFileGraph limit repo slice.path hash
      language size slice.nodes slice.edges db) db) repo file = .ok stored) :
    stored.Perm (slice.nodes.map fun node => (node.qualifiedName, nodeSignature node)) := by
  unfold nodeSignaturesByFileForRepo at read
  rw [same] at read
  rw [← Except.ok.inj read, nodes_doReplaceFileGraph]
  have rows := (@columns_inserted_inFile repo _ _ db.nodes nodup
    (canonicalizeGraphSlice_located sliced)).map fun row => (row.qualifiedName,
      signature row.kind row.params row.returnType row.modifiers row.isTest)
  rw [map_map, map_map] at rows
  exact rows

/-- The names that the comparison reports are those whose interface changed, as long as every
name with a changed interface has a new node that its signature tells apart. -/
theorem changedQnames_exact_iff (sliced : canonicalizeGraphSlice nfc path nodes edges = .ok slice)
    (nodup : (slice.nodes.map Node.qualifiedName).Nodup)
    (same : canonicalizeRepoPath nfc file = .ok slice.path)
    (read : nodeSignaturesByFileForRepo nfc (execAll (doReplaceFileGraph limit repo slice.path hash
      language size slice.nodes slice.edges db) db) repo file = .ok stored) (parsed : List Node) :
    (∀ name, name ∈ changedQnames stored parsed ↔ InterfaceChanged slice.nodes parsed name) ↔
      ∀ before ∈ slice.nodes, ∀ after ∈ parsed, before.qualifiedName = after.qualifiedName →
        interfaceOf before ≠ interfaceOf after →
          ∃ other ∈ parsed, other.qualifiedName = before.qualifiedName ∧ ToldApart before other := by
  have perm := storedSignatures_perm sliced nodup same read
  have keys : (stored.map Prod.fst).Perm (slice.nodes.map Node.qualifiedName) := by
    have mapped := perm.map Prod.fst
    rwa [map_map] at mapped
  have recorded : ∀ node, (node.qualifiedName, nodeSignature node) ∉ stored ↔
    ∀ before ∈ slice.nodes, before.qualifiedName = node.qualifiedName → ToldApart before node := by
    intro node
    rw [perm.mem_iff, mem_map]
    constructor
    · intro absent before mem sameName
      rw [← nodeSignature_ne_iff]
      intro sameText
      exact absent ⟨before, mem, Prod.ext sameName sameText⟩
    · rintro apart ⟨before, mem, both⟩
      obtain ⟨sameName, sameText⟩ := Prod.mk.inj both
      exact nodeSignature_ne_iff.mpr (apart before mem sameName) sameText
  have changed : ∀ name, name ∈ changedQnames stored parsed ↔ (∃ node ∈ parsed, node.qualifiedName =
    name ∧ ∀ before ∈ slice.nodes, before.qualifiedName = name → ToldApart before node) ∨
      (name ∈ slice.nodes.map Node.qualifiedName ∧ name ∉ parsed.map Node.qualifiedName) := by
    intro name
    rw [mem_changedQnames (keys.nodup_iff.mpr nodup), keys.mem_iff]
    apply or_congr_left
    constructor
    · rintro ⟨node, mem, rfl, absent⟩
      exact ⟨node, mem, rfl, (recorded node).mp absent⟩
    · rintro ⟨node, mem, rfl, apart⟩
      exact ⟨node, mem, rfl, (recorded node).mpr apart⟩
  constructor
  · intro exactly before stays after inParsed sameName differ
    have reported := (exactly before.qualifiedName).mpr (.inr (.inr ⟨before, stays, after, inParsed, rfl, sameName.symm, differ⟩))
    rcases (changed _).mp reported with ⟨node, mem, sameNode, apart⟩ | ⟨-, missing⟩
    · exact ⟨node, mem, sameNode, apart before stays rfl⟩
    · exact absurd (mem_map.mpr ⟨after, inParsed, sameName.symm⟩) missing
  · intro told name
    rw [changed]
    constructor
    · rintro (⟨node, mem, rfl, apart⟩ | gone)
      · by_cases before : node.qualifiedName ∈ slice.nodes.map Node.qualifiedName
        · obtain ⟨old, stays, sameName⟩ := mem_map.mp before
          exact .inr (.inr ⟨old, stays, node, mem, sameName, rfl, interfaceOf_ne_of_toldApart (apart old stays sameName)⟩)
        · exact .inr (.inl ⟨mem_map_of_mem mem, before⟩)
      · exact .inl gone
    · rintro (gone | ⟨new, absent⟩ | ⟨before, stays, after, inParsed, rfl, sameName, differ⟩)
      · exact .inr gone
      · obtain ⟨node, mem, rfl⟩ := mem_map.mp new
        exact .inl ⟨node, mem, rfl, fun before stays sameName =>
          absurd (mem_map.mpr ⟨before, stays, sameName⟩) absent⟩
      · obtain ⟨other, mem, sameOther, apart⟩ := told before stays after inParsed sameName.symm differ
        refine .inl ⟨other, mem, sameOther, fun old alsoStays sameOld => ?_⟩
        rw [inj_on_of_nodup_map nodup alsoStays stays sameOld]
        exact apart

end

def unionNode (params returnType : String) : Node where
  kind := .function
  name := "f"
  qualifiedName := "src/a.py::fn::f"
  filePath := "src/a.py"
  lineStart := 1
  lineEnd := 2
  language := "python"
  params := some params
  returnType := some returnType
  fileHash := "h"

def unionStored : Db := execAll (doReplaceFileGraph none "app" "src/a.py" "h" (some "python") none
    [unionNode "x: int|str" "None"] [] Db.empty) Db.empty

theorem unionStored_exact :
    ∃ stored, nodeSignaturesByFileForRepo id unionStored "app" "src/a.py" = .ok stored ∧
      ∀ name, name ∈ changedQnames stored [unionNode "x: int|str" "bool"] ↔
        InterfaceChanged [unionNode "x: int|str" "None"] [unionNode "x: int|str" "bool"] name := by
  refine ⟨[("src/a.py::fn::f", "function|x: int|str|None||0")], by decide +kernel, ?_⟩
  have sliced : canonicalizeGraphSlice id "src/a.py" [unionNode "x: int|str" "None"] [] =
    .ok ⟨"src/a.py", [unionNode "x: int|str" "None"], []⟩ := by decide +kernel
  have read : nodeSignaturesByFileForRepo id unionStored "app" "src/a.py" =
    .ok [("src/a.py::fn::f", "function|x: int|str|None||0")] := by decide +kernel
  refine (changedQnames_exact_iff sliced (by decide) (by decide +kernel) read _).mpr ?_
  intro before stays after inParsed _ _
  rw [mem_singleton.mp stays]
  exact ⟨_, mem_singleton_self _, rfl, .inr (.inr (by decide))⟩

/-- The type moves from the parameter to the result and no name is reported. -/
theorem unionStored_unnoticed :
    ∃ stored, nodeSignaturesByFileForRepo id unionStored "app" "src/a.py" = .ok stored ∧
      ¬ ∀ name, name ∈ changedQnames stored [unionNode "x: int" "str|None"] ↔
        InterfaceChanged [unionNode "x: int|str" "None"] [unionNode "x: int" "str|None"] name := by
  refine ⟨[("src/a.py::fn::f", "function|x: int|str|None||0")], by decide +kernel, ?_⟩
  intro exactly
  have reported := (exactly "src/a.py::fn::f").mpr
    (.inr (.inr ⟨_, mem_singleton_self _, _, mem_singleton_self _, rfl, rfl, by decide⟩))
  have silent : changedQnames [("src/a.py::fn::f", "function|x: int|str|None||0")]
    [unionNode "x: int" "str|None"] = [] := by decide +kernel
  rw [silent] at reported
  cases reported

end Atlas.Engine
