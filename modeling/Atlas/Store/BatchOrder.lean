import Atlas.Store.Batch

/-! When the order of a batch does not matter. A file's step removes what hangs on the
names it drops, wherever it is stored, so the order decides for a name that moves from one
file of the batch to another, and for an edge that a later step cuts off again. -/
namespace Atlas.Store
open List Core Sql

variable {first second source target file other : ParsedFile}
  {name : String} {earlier : List String}
  {row : EdgeRow}

/-- The same nodes, edges and chunks, but for the row ids. -/
structure SameGraph (first second : Db) : Prop where
  nodes : (first.nodes.map NodeRow.columns).Perm (second.nodes.map NodeRow.columns)
  edges : (first.edges.map EdgeRow.columns).Perm (second.edges.map EdgeRow.columns)
  chunks : (first.retrievalChunks.map ChunkRow.columns).Perm (second.retrievalChunks.map ChunkRow.columns)

theorem SameGraph.symm {first second : Db} (same : SameGraph first second) :
    SameGraph second first := ⟨same.nodes.symm, same.edges.symm, same.chunks.symm⟩

theorem SameGraph.trans {first second third : Db}
    (same : SameGraph first second) (next : SameGraph second third) : SameGraph first third :=
  ⟨same.nodes.trans next.nodes, same.edges.trans next.edges, same.chunks.trans next.chunks⟩

section
variable (stored : String → List String) (files : List ParsedFile)

/-- One file of the batch drops the name and another one writes it. -/
structure Moves (name : String) (source target : ParsedFile) : Prop where
  sourceMember : source ∈ files
  targetMember : target ∈ files
  apart : source ≠ target
  held : name ∈ stored source.path
  written : name ∈ names target

def Vanishes (name : String) : Prop :=
  (∃ file ∈ files, name ∈ stored file.path) ∧ name ∉ files.flatMap names

/-- The file and the names of an edge row settle whether it goes with the batch, in any
order: one of its names vanishes, or two files swap its two names. -/
def EdgeRow.Doomed (row : EdgeRow) : Prop :=
  Vanishes stored files row.sourceQualified ∨ Vanishes stored files row.targetQualified ∨
    ∃ first second, Moves stored files row.sourceQualified first second ∧ Moves stored files row.targetQualified second first

structure Orderless (repo : String) (db : Db) : Prop where
  /-- No file has an edge to a name that another file of the batch drops. -/
  edges : ∀ file ∈ files, ∀ other ∈ files, file ≠ other → ∀ edge ∈ file.edges, ∀ name ∈ stored
    other.path, name ∉ names other → name ∉ names file → edge.sourceQn ≠ name ∧ edge.targetQn ≠ name
  /-- A stored edge of another file that ends in a moving name goes anyway. -/
  outside : ∀ row ∈ db.edges, row.sourceRepoId = repo → (∀ file ∈ files, row.filePath ≠ some file.path) →
      ∀ name source target, Moves stored files name source target →
        row.sourceQualified = name ∨ row.targetQualified = name → row.Doomed stored files
  /-- A moving name has no chunk. -/
  chunks : ∀ row ∈ db.retrievalChunks, row.sourceRepoId = repo → ∀ source target, ¬ Moves stored files row.nodeQn source target

end

/-! ## Which names go -/

def Precedes (files : List ParsedFile) (first second : ParsedFile) : Prop :=
  ∃ before after, files = before ++ first :: after ∧ second ∈ after

theorem precedes_total {files : List ParsedFile} (apart : first ≠ second) (firstMem : first ∈ files)
    (secondMem : second ∈ files) : Precedes files first second ∨ Precedes files second first := by
  obtain ⟨before, after, split⟩ := append_of_mem firstMem
  rw [split, mem_append, mem_cons] at secondMem
  obtain early | same | late := secondMem
  · obtain ⟨left, right, splitBefore⟩ := append_of_mem early
    exact .inr ⟨left, right ++ first :: after, by rw [split, splitBefore]; simp, by simp⟩
  · exact absurd same.symm apart
  · exact .inl ⟨before, after, split, late⟩

section
variable {stored : String → List String} {files : List ParsedFile}

theorem Distinct.nodup (distinct : Distinct files) :
    files.Nodup := List.Nodup.of_map _ distinct.paths

theorem Distinct.eq_of_path (distinct : Distinct files) (firstMem : first ∈ files)
    (secondMem : second ∈ files) (same : first.path = second.path) : first = second :=
  inj_on_of_nodup_map distinct.paths firstMem secondMem same

theorem Precedes.names_disjoint (precedes : Precedes files first second)
    (distinct : Distinct files) (inFirst : name ∈ names first) : name ∉ names second := by
  obtain ⟨before, after, split, later⟩ := precedes
  have named := distinct.named
  rw [split, flatMap_append, flatMap_cons] at named
  have apart := (nodup_append.mp (nodup_append.mp named).2.1).2.2
  intro inSecond
  exact apart name inFirst name (mem_flatMap.mpr ⟨second, later, inSecond⟩) rfl

theorem Distinct.eq_of_name (distinct : Distinct files) (firstMem : first ∈ files)
    (secondMem : second ∈ files) (inFirst : name ∈ names first) (inSecond : name ∈ names second) :
    first = second := by
  by_contra apart
  cases precedes_total apart firstMem secondMem with
  | inl precedes => exact precedes.names_disjoint distinct inFirst inSecond
  | inr precedes => exact precedes.names_disjoint distinct inSecond inFirst

theorem Distinct.mem_kills_iff (distinct : Distinct files) :
    name ∈ kills stored [] files ↔ Vanishes stored files name ∨
        ∃ source target, Moves stored files name source target ∧ Precedes files source target := by
  rw [Store.mem_kills_iff]
  constructor
  · intro ⟨before, file, after, split, held, _, notBefore, notKept⟩
    have mem : file ∈ files := by rw [split]; simp
    by_cases written : name ∈ files.flatMap names
    · obtain ⟨target, targetMem, inTarget⟩ := mem_flatMap.mp written
      have later : target ∈ after := by
        rw [split, mem_append, mem_cons] at targetMem
        obtain early | same | late := targetMem
        · exact absurd (mem_flatMap.mpr ⟨target, early, inTarget⟩) notBefore
        · exact absurd (same ▸ inTarget) notKept
        · exact late
      refine .inr ⟨file, target, ⟨mem, targetMem, ?_, held, inTarget⟩, before, after, split, later⟩
      intro same
      exact notKept (same ▸ inTarget)
    · exact .inl ⟨⟨file, mem, held⟩, written⟩
  · intro gone
    cases gone with
    | inl vanishes =>
      obtain ⟨⟨file, mem, held⟩, unwritten⟩ := vanishes
      obtain ⟨before, after, split⟩ := append_of_mem mem
      rw [split, flatMap_append, flatMap_cons, mem_append, mem_append, not_or, not_or] at unwritten
      exact ⟨before, file, after, split, held, by simp, unwritten.1, unwritten.2.1⟩
    | inr moves =>
      obtain ⟨source, target, moves, before, after, split, later⟩ := moves
      refine ⟨before, source, after, split, moves.held, by simp, ?_, ?_⟩
      · intro early
        obtain ⟨file, fileMem, inFile⟩ := mem_flatMap.mp early
        have same := distinct.eq_of_name (by rw [split]; simp [fileMem]) moves.targetMember
          inFile moves.written
        have apart := (nodup_append.mp (split ▸ distinct.nodup)).2.2
        exact apart file fileMem target (.tail _ later) same
      · intro kept
        exact moves.apart (distinct.eq_of_name moves.sourceMember moves.targetMember kept moves.written)

variable {others : List ParsedFile}

theorem Moves.perm (perm : others.Perm files) :
    Moves stored others name source target ↔ Moves stored files name source target :=
  ⟨fun moves => ⟨perm.mem_iff.mp moves.sourceMember, perm.mem_iff.mp moves.targetMember, moves.apart, moves.held, moves.written⟩,
    fun moves => ⟨perm.mem_iff.mpr moves.sourceMember, perm.mem_iff.mpr moves.targetMember,
      moves.apart, moves.held, moves.written⟩⟩

theorem Vanishes.perm (perm : others.Perm files) :
    Vanishes stored others name ↔ Vanishes stored files name := by
  have written := @List.Perm.mem_iff _ name _ _ (perm.flatMap_right names)
  have held : (∃ file ∈ others, name ∈ stored file.path) ↔ ∃ file ∈ files, name ∈ stored file.path :=
    ⟨fun ⟨file, mem, held⟩ => ⟨file, perm.mem_iff.mp mem, held⟩, fun ⟨file, mem, held⟩ => ⟨file, perm.mem_iff.mpr mem, held⟩⟩
  rw [Vanishes, Vanishes, written, held]

end

/-! ## The condition is enough -/

section
variable {repo : String} {stored : String → List String} {files others : List ParsedFile} {db : Db}

def edgeRows (repo : String) (file : ParsedFile) : List EdgeRow :=
  file.edges.map fun edge => edgeRow repo 0 (edgeProvenanceJson repo edge) edge
def OwnEdges (files : List ParsedFile) : Prop :=
  ∀ file ∈ files, ∀ edge ∈ file.edges, edge.filePath = file.path

private theorem survivors_eq
    (kept : ∀ before file after, files = before ++ file :: after → ∀ row ∈ edgeRows repo file,
      row.goneWith repo (after.map ParsedFile.path)
        (kills stored (earlier ++ before.flatMap names ++ names file) after) = false) :
    survivors repo stored earlier files = files.flatMap (edgeRows repo) := by
  induction files generalizing earlier with
  | nil => rfl
  | cons file rest ih =>
    rw [survivors, flatMap_cons]
    congr 1
    · refine filter_eq_self.mpr fun row mem => ?_
      have stays := kept [] file rest rfl row mem
      rw [flatMap_nil, append_nil] at stays
      rw [stays]
      rfl
    · refine ih fun before later after split row mem => ?_
      have stays := kept (file :: before) later after (by rw [split]; rfl) row mem
      rwa [flatMap_cons, ← append_assoc] at stays

theorem survivors_all (own : OwnEdges files)
    (distinct : Distinct files) (orderless : Orderless stored files repo db) :
    survivors repo stored [] files = files.flatMap (edgeRows repo) := by
  refine survivors_eq fun before file after split row mem => ?_
  obtain ⟨edge, edgeMem, rfl⟩ := mem_map.mp mem
  have member : file ∈ files := by rw [split]; simp
  have ownPath := own file member edge edgeMem
  have otherPath : ¬ ∃ path ∈ after.map ParsedFile.path, some edge.filePath = some path := by
    rintro ⟨path, pathMem, same⟩
    obtain ⟨later, laterMem, rfl⟩ := mem_map.mp pathMem
    have samePath : file.path = later.path := ownPath.symm.trans (Option.some.inj same)
    have apart := (nodup_append.mp (split ▸ distinct.nodup)).2.1
    have same := distinct.eq_of_path member (by rw [split]; simp [laterMem]) samePath
    exact (nodup_cons.mp apart).1 (same ▸ laterMem)
  have untouched : ∀ name ∈ kills stored ([] ++ before.flatMap names ++ names file) after,
    edge.sourceQn ≠ name ∧ edge.targetQn ≠ name := by
    intro name killed
    obtain ⟨between, other, rest, splitAfter, held, notEarlier, _, notKept⟩ := Store.mem_kills_iff stored |>.mp killed
    have laterMem : other ∈ after := by rw [splitAfter]; simp
    have apart : file ≠ other := by
      intro same
      have nodup := (nodup_append.mp (split ▸ distinct.nodup)).2.1
      exact (nodup_cons.mp nodup).1 (same ▸ laterMem)
    refine orderless.edges file member other (by rw [split]; simp [laterMem]) apart edge
      edgeMem name held notKept ?_
    intro kept
    exact notEarlier (mem_append_right _ kept)
  have noSource : edge.sourceQn ∉ kills stored ([] ++ before.flatMap names ++ names file) after :=
    fun killed => (untouched _ killed).1 rfl
  have noTarget : edge.targetQn ∉ kills stored ([] ++ before.flatMap names ++ names file) after :=
    fun killed => (untouched _ killed).2 rfl
  simp only [EdgeRow.goneWith, EdgeRow.touches, edgeRow, otherPath, noSource, noTarget, or_self,
    and_false, decide_false, Bool.or_self]

theorem EdgeRow.Doomed.perm (perm : others.Perm files) :
    row.Doomed stored others ↔ row.Doomed stored files := by
  unfold EdgeRow.Doomed
  rw [Vanishes.perm perm, Vanishes.perm perm]
  simp only [Moves.perm perm]

theorem Orderless.perm (perm : others.Perm files) (orderless : Orderless stored files repo db) :
    Orderless stored others repo db where
  edges file mem other otherMem := orderless.edges file (perm.mem_iff.mp mem) other (perm.mem_iff.mp otherMem)
  outside row mem inRepo elsewhere name source target moves touched :=
    (EdgeRow.Doomed.perm perm).mpr (orderless.outside row mem inRepo
      (fun file fileMem => elsewhere file (perm.mem_iff.mpr fileMem)) name source target
      ((Moves.perm perm).mp moves) touched)
  chunks row mem inRepo source target moves := orderless.chunks row mem inRepo source target ((Moves.perm perm).mp moves)

theorem EdgeRow.Doomed.touches (distinct : Distinct files) (doomed : row.Doomed stored files) :
    row.sourceQualified ∈ kills stored [] files ∨ row.targetQualified ∈ kills stored [] files := by
  obtain source | target | ⟨first, second, moves, back⟩ := doomed
  · exact .inl (distinct.mem_kills_iff.mpr (.inl source))
  · exact .inr (distinct.mem_kills_iff.mpr (.inl target))
  · cases precedes_total moves.apart moves.sourceMember moves.targetMember with
    | inl precedes => exact .inl (distinct.mem_kills_iff.mpr (.inr ⟨first, second, moves, precedes⟩))
    | inr precedes => exact .inr (distinct.mem_kills_iff.mpr (.inr ⟨second, first, back, precedes⟩))

theorem Orderless.goneWith_iff (orderless : Orderless stored files repo db)
    (distinct : Distinct files) (mem : row ∈ db.edges) :
    row.columns.goneWith repo (files.map ParsedFile.path) (kills stored [] files) = true ↔
      row.sourceRepoId = repo ∧
      ((∃ file ∈ files, row.filePath = some file.path) ∨ row.Doomed stored files) := by
  have spelled : row.columns.goneWith repo (files.map ParsedFile.path) (kills stored [] files) =
    true ↔ row.sourceRepoId = repo ∧ ((∃ file ∈ files, row.filePath = some file.path) ∨
        row.sourceQualified ∈ kills stored [] files ∨ row.targetQualified ∈ kills stored [] files) := by
    simp [EdgeRow.goneWith, EdgeRow.touches, EdgeRow.columns, and_or_left]
  rw [spelled]
  refine and_congr_right fun inRepo => ?_
  by_cases inside : ∃ file ∈ files, row.filePath = some file.path
  · exact iff_of_true (.inl inside) (.inl inside)
  have elsewhere : ∀ file ∈ files, row.filePath ≠ some file.path := fun file member same => inside ⟨file, member, same⟩
  -- A touched name vanishes or moves; a moving one means the row is doomed anyway.
  have settled : ∀ name ∈ kills stored [] files, row.sourceQualified = name ∨
    row.targetQualified = name → (row.sourceQualified = name ∧ Vanishes stored files name) ∨
          (row.targetQualified = name ∧ Vanishes stored files name) ∨ row.Doomed stored files := by
    intro name killed touched
    cases distinct.mem_kills_iff.mp killed with
    | inl vanishes =>
      cases touched with
      | inl source => exact .inl ⟨source, vanishes⟩
      | inr target => exact .inr (.inl ⟨target, vanishes⟩)
    | inr moving =>
      obtain ⟨source, target, moves, _⟩ := moving
      exact .inr (.inr (orderless.outside row mem inRepo elsewhere name source target moves touched))
  refine or_congr_right ⟨fun touched => ?_, fun doomed => doomed.touches distinct⟩
  cases touched with
  | inl source =>
    obtain ⟨_, vanishes⟩ | ⟨_, vanishes⟩ | doomed := settled _ source (.inl rfl)
    · exact .inl vanishes
    · exact .inl vanishes
    · exact doomed
  | inr target =>
    obtain ⟨_, vanishes⟩ | ⟨_, vanishes⟩ | doomed := settled _ target (.inr rfl)
    · exact .inr (.inl vanishes)
    · exact .inr (.inl vanishes)
    · exact doomed

theorem Orderless.isOf_iff (orderless : Orderless stored files repo db)
    (distinct : Distinct files) {row : ChunkRow} (mem : row ∈ db.retrievalChunks) :
    row.isOf repo (kills stored [] files) = true ↔ row.sourceRepoId = repo ∧ Vanishes stored files row.nodeQn := by
  rw [ChunkRow.isOf, decide_eq_true_iff]
  refine and_congr_right fun inRepo => ?_
  rw [distinct.mem_kills_iff]
  constructor
  · intro gone
    cases gone with
    | inl vanishes => exact vanishes
    | inr moving =>
      obtain ⟨source, target, moves, _⟩ := moving
      exact absurd moves (orderless.chunks row mem inRepo source target)
  · exact .inl

private theorem batch_nodes_perm (distinct : Distinct files) (perm : others.Perm files) :
    ((batch repo others db).nodes.map NodeRow.columns).Perm
      ((batch repo files db).nodes.map NodeRow.columns) := by
  refine (batch_nodes (distinct.perm perm) db).trans (List.Perm.trans ?_ (batch_nodes distinct db).symm)
  refine List.Perm.append ?_ (perm.flatMap_right _)
  have same : ∀ row : NodeRow, row.goneWith repo (others.map ParsedFile.path) (others.flatMap
    names) = row.goneWith repo (files.map ParsedFile.path) (files.flatMap names) := by
    intro row
    simp only [NodeRow.goneWith, (perm.map ParsedFile.path).mem_iff, (perm.flatMap_right names).mem_iff]
  simp only [same]
  exact .refl _

private theorem sameGraph_of_orderless (distinct : Distinct files) (own : OwnEdges files)
    (orderless : Orderless (storedNames repo db) files repo db) (perm : others.Perm files) :
    SameGraph (batch repo others db) (batch repo files db) := by
  have otherDistinct := distinct.perm perm
  have otherOrderless := orderless.perm perm
  have otherOwn : OwnEdges others := fun file mem => own file (perm.mem_iff.mp mem)
  refine ⟨batch_nodes_perm distinct perm, ?_, ?_⟩
  · rw [batch_edges otherDistinct (Tracks.initial repo others db), batch_edges distinct (Tracks.initial repo files db),
      survivors_all otherOwn otherDistinct otherOrderless, survivors_all own distinct orderless]
    refine List.Perm.append ?_ (perm.flatMap_right _)
    refine List.Perm.of_eq (filter_congr fun row mem => ?_)
    obtain ⟨original, originalMember, rfl⟩ := mem_map.mp mem
    rw [Bool.not_inj_iff, Bool.eq_iff_iff, otherOrderless.goneWith_iff otherDistinct originalMember,
      orderless.goneWith_iff distinct originalMember, EdgeRow.Doomed.perm perm]
    simp only [perm.mem_iff]
  · rw [batch_retrievalChunks otherDistinct (Tracks.initial repo others db),
      batch_retrievalChunks distinct (Tracks.initial repo files db)]
    refine List.Perm.map _ (List.Perm.of_eq (filter_congr fun row mem => ?_))
    rw [Bool.not_inj_iff, Bool.eq_iff_iff, otherOrderless.isOf_iff otherDistinct mem,
      orderless.isOf_iff distinct mem, Vanishes.perm perm]

end

/-! ## The condition is needed -/

private theorem storedNames_path_unique {repo : String}
    {db : Db} (unique : (db.nodes.map NodeRow.key).Nodup) {first second : String}
    (inFirst : name ∈ storedNames repo db first) (inSecond : name ∈ storedNames repo db second) :
    first = second := by
  obtain ⟨row, mem, rfl⟩ := mem_map.mp inFirst
  obtain ⟨other, otherMem, same⟩ := mem_map.mp inSecond
  obtain ⟨rowMem, inFile⟩ := mem_filter.mp mem
  obtain ⟨otherRowMember, otherInFile⟩ := mem_filter.mp otherMem
  have ⟨repoOf, pathOf⟩ : row.sourceRepoId = repo ∧ row.filePath = first := of_decide_eq_true inFile
  have ⟨otherRepo, otherPath⟩ : other.sourceRepoId = repo ∧ other.filePath = second := of_decide_eq_true otherInFile
  have key : other.key = row.key := Prod.ext (otherRepo.trans repoOf.symm) same
  have equal := inj_on_of_nodup_map unique otherRowMember rowMem key
  rw [← pathOf, ← otherPath, equal]

theorem precedes_cons_iff {rest : List ParsedFile} : Precedes (file :: rest) first second ↔
    (first = file ∧ second ∈ rest) ∨ Precedes rest first second := by
  constructor
  · intro ⟨before, after, split, later⟩
    cases before with
    | nil =>
      cases split
      exact .inl ⟨rfl, later⟩
    | cons head before =>
      cases split
      exact .inr ⟨before, after, rfl, later⟩
  · intro either
    cases either with
    | inl here => exact ⟨[], rest, by rw [here.1]; rfl, here.2⟩
    | inr there =>
      obtain ⟨before, after, split, later⟩ := there
      exact ⟨file :: before, after, by rw [split]; rfl, later⟩

theorem Precedes.mem {files : List ParsedFile} (precedes : Precedes files first second) :
    first ∈ files ∧ second ∈ files := by
  obtain ⟨before, after, rfl, later⟩ := precedes
  simp [later]

theorem Precedes.asymm {files : List ParsedFile} (nodup : files.Nodup)
    (precedes : Precedes files first second) : ¬ Precedes files second first := by
  induction files with
  | nil => simpa using precedes.mem.1
  | cons file rest ih =>
    obtain ⟨notLater, restNodup⟩ := nodup_cons.mp nodup
    intro back
    cases precedes_cons_iff.mp precedes with
    | inl here =>
      cases precedes_cons_iff.mp back with
      | inl backHere => exact notLater (here.1 ▸ backHere.2)
      | inr backThere => exact notLater (here.1 ▸ backThere.mem.2)
    | inr there =>
      cases precedes_cons_iff.mp back with
      | inl backHere => exact notLater (backHere.1 ▸ there.mem.2)
      | inr backThere => exact ih restNodup there backThere

theorem exists_perm_cons_cons {files : List ParsedFile}
    (apart : first ≠ second) (firstMem : first ∈ files) (secondMem : second ∈ files) :
    ∃ rest, (first :: second :: rest).Perm files := by
  have outer := perm_cons_erase firstMem
  have inner := perm_cons_erase ((mem_erase_of_ne apart.symm).mpr secondMem)
  exact ⟨_, ((inner.cons first).symm.trans outer.symm)⟩

theorem exists_perm_precedes {files : List ParsedFile} {destination : ParsedFile}
    (sourceMem : source ∈ files) (targetMem : target ∈ files) (otherMem : other ∈ files)
    (destinationMember : destination ∈ files) (apart : source ≠ target)
    (otherApart : other ≠ destination) (noSwap : ¬ (target = other ∧ destination = source)) :
    ∃ arranged, arranged.Perm files ∧ Precedes arranged target source ∧ Precedes arranged destination other := by
  by_cases chained : destination = source
  · have differs : target ≠ other := fun same => noSwap ⟨same, chained⟩
    obtain ⟨rest, perm⟩ := exists_perm_cons_cons apart.symm targetMem sourceMem
    refine ⟨_, perm, ⟨[], _, rfl, .head _⟩, [target], rest, by rw [chained]; rfl, ?_⟩
    have mem := perm.mem_iff.mpr otherMem
    rw [mem_cons, mem_cons] at mem
    obtain same | same | later := mem
    · exact absurd same.symm differs
    · exact absurd (same.trans chained.symm) otherApart
    · exact later
  · by_cases joined : destination = target
    · have outer := (perm_cons_erase targetMem).symm
      refine ⟨_, outer, ⟨[], _, rfl, ?_⟩, ⟨[], _, by rw [joined]; rfl, ?_⟩⟩
      · exact (mem_erase_of_ne apart).mpr sourceMem
      · exact (mem_erase_of_ne (joined ▸ otherApart)).mpr otherMem
    · obtain ⟨rest, perm⟩ := exists_perm_cons_cons joined destinationMember targetMem
      refine ⟨_, perm, ⟨[destination], rest, rfl, ?_⟩, ⟨[], _, rfl, ?_⟩⟩
      · have mem := perm.mem_iff.mpr sourceMem
        rw [mem_cons, mem_cons] at mem
        obtain same | same | later := mem
        · exact absurd same.symm chained
        · exact absurd same apart
        · exact later
      · have mem := perm.mem_iff.mpr otherMem
        rw [mem_cons] at mem
        cases mem with
        | inl same => exact absurd same otherApart
        | inr later => exact later

section
variable {repo : String} {files : List ParsedFile} {db : Db}

theorem Moves.unique (unique : (db.nodes.map NodeRow.key).Nodup) (distinct : Distinct files)
    {destination : ParsedFile} (moves : Moves (storedNames repo db) files name source target)
    (again : Moves (storedNames repo db) files name other destination) :
    other = source ∧ destination = target :=
  ⟨distinct.eq_of_path again.sourceMember moves.sourceMember (storedNames_path_unique unique again.held moves.held),
    distinct.eq_of_name again.targetMember moves.targetMember again.written moves.written⟩

theorem Moves.not_mem_kills (unique : (db.nodes.map NodeRow.key).Nodup)
    (distinct : Distinct files) (moves : Moves (storedNames repo db) files name source target)
    (precedes : Precedes files target source) : name ∉ kills (storedNames repo db) [] files := by
  intro killed
  cases distinct.mem_kills_iff.mp killed with
  | inl vanishes => exact vanishes.2 (mem_flatMap.mpr ⟨target, moves.targetMember, moves.written⟩)
  | inr moving =>
    obtain ⟨other, destination, again, back⟩ := moving
    obtain ⟨rfl, rfl⟩ := moves.unique unique distinct again
    exact precedes.asymm distinct.nodup back

private theorem chunks_of_orderIndependent (unique : (db.nodes.map NodeRow.key).Nodup)
    (distinct : Distinct files)
    (independent : ∀ others, others.Perm files → SameGraph (batch repo others db) (batch repo files db))
    {row : ChunkRow} (mem : row ∈ db.retrievalChunks) (inRepo : row.sourceRepoId = repo)
    (source target : ParsedFile) :
    ¬ Moves (storedNames repo db) files row.nodeQn source target := by
  intro moves
  obtain ⟨rest, early⟩ := exists_perm_cons_cons moves.apart moves.sourceMember moves.targetMember
  obtain ⟨rest', late⟩ := exists_perm_cons_cons (Ne.symm moves.apart) moves.targetMember moves.sourceMember
  have same := ((independent _ late).trans (independent _ early).symm).chunks
  rw [batch_retrievalChunks (distinct.perm late) (Tracks.initial repo _ db),
    batch_retrievalChunks (distinct.perm early) (Tracks.initial repo _ db)] at same
  have kept := ((Moves.perm late).mpr moves).not_mem_kills unique (distinct.perm late) ⟨[], _, rfl, .head _⟩
  have stays : row.columns ∈ (deleteWhere (ChunkRow.isOf repo (kills (storedNames repo db) []
    (target :: source :: rest'))) db.retrievalChunks).map ChunkRow.columns :=
    mem_map_of_mem (mem_deleteWhere.mpr ⟨mem, by simp [ChunkRow.isOf, kept]⟩)
  obtain ⟨other, otherMem, sameColumns⟩ := mem_map.mp (same.mem_iff.mp stays)
  have gone := (mem_deleteWhere.mp otherMem).2
  have sameName : other.columns.nodeQn = row.columns.nodeQn := by rw [sameColumns]
  have sameRepo : other.columns.sourceRepoId = row.columns.sourceRepoId := by rw [sameColumns]
  have killed : row.nodeQn ∈ kills (storedNames repo db) [] (source :: target :: rest) :=
    (distinct.perm early).mem_kills_iff.mpr (.inr ⟨source, target, (Moves.perm early).mpr moves, [], _, rfl, .head _⟩)
  simp only [ChunkRow.columns] at sameName sameRepo
  simp [ChunkRow.isOf, sameName, sameRepo, inRepo, killed] at gone

variable {stored : String → List String}

theorem mem_survivors (mem : row ∈ survivors repo stored earlier files) :
    ∃ file ∈ files, row ∈ edgeRows repo file := by
  induction files generalizing earlier with
  | nil => cases mem
  | cons file rest ih =>
    rw [survivors, mem_append] at mem
    cases mem with
    | inl here => exact ⟨file, .head _, (mem_filter.mp here).1⟩
    | inr later =>
      obtain ⟨other, member, found⟩ := ih later
      exact ⟨other, .tail _ member, found⟩

theorem edgeRows_inFile (own : ∀ edge ∈ file.edges, edge.filePath = file.path)
    (mem : row ∈ edgeRows repo file) : row.sourceRepoId = repo ∧ row.filePath = some file.path := by
  obtain ⟨edge, edgeMem, rfl⟩ := mem_map.mp mem
  exact ⟨rfl, congrArg some (own edge edgeMem)⟩

private theorem mem_batch_edges_iff (distinct : Distinct files)
    (own : OwnEdges files) (mem : row ∈ db.edges)
    (inRepo : row.sourceRepoId = repo) (elsewhere : ∀ file ∈ files, row.filePath ≠ some file.path) :
    row.columns ∈ (batch repo files db).edges.map EdgeRow.columns ↔
      row.sourceQualified ∉ kills (storedNames repo db) [] files ∧
      row.targetQualified ∉ kills (storedNames repo db) [] files := by
  rw [batch_edges distinct (Tracks.initial repo files db), mem_append]
  have foreign : row.columns ∉ survivors repo (storedNames repo db) [] files := by
    intro inserted
    obtain ⟨file, member, found⟩ := mem_survivors inserted
    exact elsewhere file member (edgeRows_inFile (own file member) found).2
  have outside : ¬ ∃ path ∈ files.map ParsedFile.path, row.filePath = some path := by
    rintro ⟨path, pathMem, same⟩
    obtain ⟨file, member, rfl⟩ := mem_map.mp pathMem
    exact elsewhere file member same
  have gone : row.columns.goneWith repo (files.map ParsedFile.path) (kills (storedNames repo db) [] files) = false ↔
      row.sourceQualified ∉ kills (storedNames repo db) [] files ∧
        row.targetQualified ∉ kills (storedNames repo db) [] files := by
    simp only [EdgeRow.goneWith, EdgeRow.touches, EdgeRow.columns, inRepo, true_and, outside,
      decide_false, Bool.false_or, decide_eq_false_iff_not, not_or]
  rw [← gone, mem_filter]
  constructor
  · intro either
    cases either with
    | inl kept => simpa using kept.2
    | inr inserted => exact absurd inserted foreign
  · intro kept
    exact .inl ⟨mem_map_of_mem mem, by rw [kept]; rfl⟩

private theorem exists_perm_keeping (unique : (db.nodes.map NodeRow.key).Nodup)
    (distinct : Distinct files) (safe : ¬ row.Doomed (storedNames repo db) files)
    (moves : Moves (storedNames repo db) files name source target)
    (touched : row.sourceQualified = name ∨ row.targetQualified = name) :
    ∃ arranged, arranged.Perm files ∧ row.sourceQualified ∉ kills (storedNames repo db) []
      arranged ∧ row.targetQualified ∉ kills (storedNames repo db) [] arranged := by
  simp only [EdgeRow.Doomed, not_or] at safe
  obtain ⟨sourceStays, targetStays, noSwap⟩ := safe
  -- A name that neither vanishes nor moves is never dropped.
  have still : ∀ other arranged, arranged.Perm files → ¬ Vanishes (storedNames repo db) files other →
        (∀ origin goal, ¬ Moves (storedNames repo db) files other origin goal) →
          other ∉ kills (storedNames repo db) [] arranged := by
    intro other arranged perm stays fixed killed
    cases (distinct.perm perm).mem_kills_iff.mp killed with
    | inl vanishes => exact stays ((Vanishes.perm perm).mp vanishes)
    | inr moving =>
      obtain ⟨origin, goal, again, _⟩ := moving
      exact fixed origin goal ((Moves.perm perm).mp again)
  have kept : ∀ other arranged (perm : arranged.Perm files) origin goal,
      Moves (storedNames repo db) files other origin goal →
        Precedes arranged goal origin → other ∉ kills (storedNames repo db) [] arranged := by
    intro other arranged perm origin goal again precedes
    exact ((Moves.perm perm).mpr again).not_mem_kills unique (distinct.perm perm) precedes
  have alone : ∃ arranged, arranged.Perm files ∧ Precedes arranged target source := by
    obtain ⟨arranged, perm, precedes, _⟩ := exists_perm_precedes moves.sourceMember
      moves.targetMember moves.sourceMember moves.targetMember moves.apart moves.apart
      (fun both => moves.apart both.1.symm)
    exact ⟨arranged, perm, precedes⟩
  by_cases sourceMoves : ∃ origin goal, Moves (storedNames repo db) files row.sourceQualified origin goal
  · obtain ⟨origin, goal, sourceMove⟩ := sourceMoves
    by_cases targetMoves : ∃ origin goal, Moves (storedNames repo db) files row.targetQualified origin goal
    · obtain ⟨start, finish, targetMove⟩ := targetMoves
      obtain ⟨arranged, perm, first, second⟩ := exists_perm_precedes sourceMove.sourceMember
        sourceMove.targetMember targetMove.sourceMember targetMove.targetMember sourceMove.apart
        targetMove.apart (fun both => noSwap ⟨origin, goal, sourceMove, by
          rw [both.1, ← both.2]
          exact targetMove⟩)
      exact ⟨arranged, perm, kept _ arranged perm _ _ sourceMove first, kept _ arranged perm _ _ targetMove second⟩
    · have fixed : ∀ start finish, ¬ Moves (storedNames repo db) files row.targetQualified start
        finish := fun start finish again => targetMoves ⟨start, finish, again⟩
      have same : row.sourceQualified = name := by
        cases touched with
        | inl here => exact here
        | inr there => exact absurd (there ▸ moves) (fixed source target)
      obtain ⟨arranged, perm, precedes⟩ := alone
      exact ⟨arranged, perm, kept _ arranged perm _ _ (same ▸ moves) precedes, still _ arranged perm targetStays fixed⟩
  · have fixed : ∀ start finish, ¬ Moves (storedNames repo db) files row.sourceQualified start
      finish := fun start finish again => sourceMoves ⟨start, finish, again⟩
    have same : row.targetQualified = name := by
      cases touched with
      | inl here => exact absurd (here ▸ moves) (fixed source target)
      | inr there => exact there
    obtain ⟨arranged, perm, precedes⟩ := alone
    exact ⟨arranged, perm, still _ arranged perm sourceStays fixed, kept _ arranged perm _ _ (same ▸ moves) precedes⟩

private theorem outside_of_orderIndependent (unique : (db.nodes.map NodeRow.key).Nodup)
    (distinct : Distinct files) (own : OwnEdges files) (independent : ∀ others, others.Perm files →
      SameGraph (batch repo others db) (batch repo files db)) (mem : row ∈ db.edges)
    (inRepo : row.sourceRepoId = repo) (elsewhere : ∀ file ∈ files, row.filePath ≠ some file.path)
    (moves : Moves (storedNames repo db) files name source target)
    (touched : row.sourceQualified = name ∨ row.targetQualified = name) :
    row.Doomed (storedNames repo db) files := by
  by_contra safe
  have present : ∀ others, others.Perm files → (row.columns ∈ (batch repo others db).edges.map EdgeRow.columns ↔
        row.sourceQualified ∉ kills (storedNames repo db) [] others ∧
          row.targetQualified ∉ kills (storedNames repo db) [] others) := by
    intro others perm
    exact mem_batch_edges_iff (distinct.perm perm) (fun file member => own file (perm.mem_iff.mp
      member)) mem inRepo (fun file member => elsewhere file (perm.mem_iff.mp member))
  obtain ⟨arranged, keeping, kept⟩ := exists_perm_keeping unique distinct safe moves touched
  obtain ⟨rest, early⟩ := exists_perm_cons_cons moves.apart moves.sourceMember moves.targetMember
  have same := ((independent _ keeping).trans (independent _ early).symm).edges
  have killed : name ∈ kills (storedNames repo db) [] (source :: target :: rest) :=
    (distinct.perm early).mem_kills_iff.mpr (.inr ⟨source, target, (Moves.perm early).mpr moves, [], _, rfl, .head _⟩)
  have stays := (present _ early).mp (same.mem_iff.mp ((present _ keeping).mpr kept))
  cases touched with
  | inl here => exact stays.1 (here ▸ killed)
  | inr there => exact stays.2 (there ▸ killed)

/-! ### Edges of a file of the batch, counted -/

theorem countP_survivors_absent {path : String}
    (own : OwnEdges files) (absent : ∀ file ∈ files, file.path ≠ path) :
    (survivors repo stored earlier files).countP (EdgeRow.inFile repo path) = 0 := by
  rw [countP_eq_zero]
  intro row mem inFile
  obtain ⟨file, member, found⟩ := mem_survivors mem
  have placed := (edgeRows_inFile (own file member) found).2
  have here : row.filePath = some path := (of_decide_eq_true inFile).2
  exact absent file member (Option.some.inj (placed.symm.trans here))

private theorem countP_edgeRows (own : ∀ edge ∈ file.edges, edge.filePath = file.path) :
    (edgeRows repo file).countP (EdgeRow.inFile repo file.path) = (edgeRows repo file).length := by
  rw [countP_eq_length]
  intro row mem
  exact decide_eq_true (edgeRows_inFile own mem)

private theorem countP_survivors_last (own : OwnEdges (files ++ [file]))
    (absent : ∀ other ∈ files, other.path ≠ file.path) :
    (survivors repo stored earlier (files ++ [file])).countP (EdgeRow.inFile repo file.path) = (edgeRows repo file).length := by
  induction files generalizing earlier with
  | nil =>
    have all : survivors repo stored earlier [file] = edgeRows repo file := by
      simp [survivors, kills, EdgeRow.goneWith, EdgeRow.touches, edgeRows]
    rw [nil_append, all]
    exact countP_edgeRows (own file (by simp))
  | cons first rest ih =>
    have others := @ih (earlier ++ names first) (fun later member => own later (.tail _ member))
      (fun later member => absent later (.tail _ member))
    rw [cons_append, survivors, countP_append, others]
    have foreign : ((edgeRows repo first).filter fun row =>
        !row.goneWith repo ((rest ++ [file]).map ParsedFile.path) (kills stored (earlier ++
          names first) (rest ++ [file]))).countP (EdgeRow.inFile repo file.path) = 0 := by
      rw [countP_eq_zero]
      intro row mem inFile
      have placed := (edgeRows_inFile (own first (.head _)) (mem_filter.mp mem).1).2
      have here : row.filePath = some file.path := (of_decide_eq_true inFile).2
      exact absent first (.head _) (Option.some.inj (placed.symm.trans here))
    rw [edgeRows] at foreign
    rw [foreign, Nat.zero_add]

theorem countP_batch_edges (distinct : Distinct files) (member : file ∈ files) :
    ((batch repo files db).edges.map EdgeRow.columns).countP (EdgeRow.inFile repo file.path) =
      (survivors repo (storedNames repo db) [] files).countP (EdgeRow.inFile repo file.path) := by
  rw [batch_edges distinct (Tracks.initial repo files db), countP_append]
  have none : (((db.edges.map EdgeRow.columns).filter fun row =>
      !row.goneWith repo (files.map ParsedFile.path) (kills (storedNames repo db) [] files)).countP
        (EdgeRow.inFile repo file.path)) = 0 := by
    rw [countP_eq_zero]
    intro row mem inFile
    have stays := (mem_filter.mp mem).2
    have ⟨inRepo, here⟩ : row.sourceRepoId = repo ∧ row.filePath = some file.path := of_decide_eq_true inFile
    have gone : row.goneWith repo (files.map ParsedFile.path) (kills (storedNames repo db) [] files) = true := by
      rw [EdgeRow.goneWith, Bool.or_eq_true]
      exact .inl (decide_eq_true ⟨inRepo, file.path, mem_map_of_mem member, here⟩)
    rw [gone] at stays
    cases stays
  rw [none, Nat.zero_add]

private theorem edges_of_orderIndependent (distinct : Distinct files)
    (own : OwnEdges files) (independent : ∀ others, others.Perm files →
      SameGraph (batch repo others db) (batch repo files db)) (mem : file ∈ files)
    (otherMem : other ∈ files) (apart : file ≠ other) {edge : Edge}
    (edgeMem : edge ∈ file.edges) (held : name ∈ storedNames repo db other.path)
    (notKept : name ∉ names other) (notTaken : name ∉ names file) :
    edge.sourceQn ≠ name ∧ edge.targetQn ≠ name := by
  rw [← not_or]
  intro touched
  obtain ⟨rest, early⟩ := exists_perm_cons_cons apart mem otherMem
  have late : ((other :: rest) ++ [file]).Perm files := (perm_append_singleton file (other :: rest)).trans early
  have otherPaths : ∀ later ∈ other :: rest, later.path ≠ file.path := (distinct.perm early).head.2.1
  have ownOf : ∀ {arranged : List ParsedFile}, arranged.Perm files → OwnEdges arranged :=
    fun perm later laterMem => own later (perm.mem_iff.mp laterMem)
  have same := (((independent _ late).trans (independent _ early).symm).edges).countP_eq (EdgeRow.inFile repo file.path)
  rw [countP_batch_edges (distinct.perm late) (by simp),
    countP_batch_edges (distinct.perm early) (.head _),
    countP_survivors_last (ownOf late) otherPaths, survivors, countP_append,
    countP_survivors_absent (fun later laterMem => ownOf early later (.tail _ laterMem)) otherPaths, Nat.add_zero] at same
  have killed : name ∈ kills (storedNames repo db) ([] ++ names file) (other :: rest) := by
    rw [kills, mem_append]
    exact .inl (mem_filter.mpr ⟨held, decide_eq_true ⟨by simpa using notTaken, notKept⟩⟩)
  have gone : (edgeRow repo 0 (edgeProvenanceJson repo edge) edge).goneWith
    repo ((other :: rest).map ParsedFile.path)
    (kills (storedNames repo db) ([] ++ names file) (other :: rest)) = true := by
    rw [EdgeRow.goneWith, Bool.or_eq_true]
    refine .inr (decide_eq_true ⟨rfl, ?_⟩)
    cases touched with
    | inl source =>
      rw [← source] at killed
      exact .inl killed
    | inr target =>
      rw [← target] at killed
      exact .inr killed
  have fewer : ((edgeRows repo file).filter fun row =>
      !row.goneWith repo ((other :: rest).map ParsedFile.path)
        (kills (storedNames repo db) ([] ++ names file) (other :: rest))).length <
      (edgeRows repo file).length := by
    refine length_filter_lt_length_iff_exists.mpr ⟨_, mem_map_of_mem edgeMem, ?_⟩
    rw [gone]
    simp
  have bound := @countP_le_length _ (EdgeRow.inFile repo file.path) ((edgeRows repo file).filter fun row =>
      !row.goneWith repo ((other :: rest).map ParsedFile.path) (kills (storedNames repo db) ([] ++ names file) (other :: rest)))
  rw [edgeRows] at same fewer bound
  omega

private theorem orderless_of_orderIndependent (unique : (db.nodes.map NodeRow.key).Nodup)
    (distinct : Distinct files) (own : OwnEdges files)
    (independent : ∀ others, others.Perm files → SameGraph (batch repo others db) (batch repo files db)) :
    Orderless (storedNames repo db) files repo db where
  edges _ member _ otherMem apart _ edgeMem _ held notKept notTaken := edges_of_orderIndependent
    distinct own independent member otherMem apart edgeMem held notKept notTaken
  outside _ mem inRepo elsewhere _ _ _ moves touched :=
    outside_of_orderIndependent unique distinct own independent mem inRepo elsewhere moves touched
  chunks _ mem inRepo source target := chunks_of_orderIndependent unique distinct independent mem inRepo source target

end

/-! ## Batches as the store runs them -/

section
variable {nfc : String → String} {repo : String} {files normal : List ParsedFile} {db : Db}

def afterBatch (nfc : String → String) (repo : String) (files : List ParsedFile) (db : Db) : Db :=
  (replaceFilesTransactionalForRepo nfc .faultless repo files ⟨db, none⟩).2.committed

theorem afterBatch_ok (accepted : files.mapM (canonicalizeParsedFile nfc) = .ok normal) :
    afterBatch nfc repo files db = batch repo normal db := by
  by_cases empty : files = []
  · subst empty
    cases accepted
    rfl
  · simp only [afterBatch, replaceFilesTransactionalForRepo, if_neg empty, accepted,
      mapIdx_replaceParsedFile, transaction_faultless]
    rfl

theorem afterBatch_error {error : AtlasError}
    (rejected : files.mapM (canonicalizeParsedFile nfc) = .error error) :
    afterBatch nfc repo files db = db := by
  by_cases empty : files = []
  · subst empty
    rfl
  · simp only [afterBatch, replaceFilesTransactionalForRepo, if_neg empty, rejected]

/-- For files with distinct canonical paths and names, the order of a batch does not matter
exactly when no file's step undoes what another one leaves. -/
theorem afterBatch_orderless_iff (nfc : String → String)
    (repo : String) (files : List ParsedFile) (db : Db) (unique : (db.nodes.map NodeRow.key).Nodup)
    (distinct : ∀ normal, files.mapM (canonicalizeParsedFile nfc) = .ok normal →
      (normal.map ParsedFile.path).Nodup ∧ (normal.flatMap names).Nodup)
    (own : ∀ normal, files.mapM (canonicalizeParsedFile nfc) = .ok normal → OwnEdges normal) :
    (∀ others, others.Perm files → SameGraph (afterBatch nfc repo others db) (afterBatch nfc repo files db)) ↔
      ∀ normal, files.mapM (canonicalizeParsedFile nfc) = .ok normal → Orderless (storedNames repo db) normal repo db := by
  constructor
  · intro independent normal accepted
    have separate : Distinct normal := ⟨(distinct normal accepted).1, (distinct normal accepted).2,
      mapM_canonicalizeParsedFile_located accepted⟩
    refine orderless_of_orderIndependent unique separate (own normal accepted) ?_
    intro arranged perm
    obtain ⟨others, same, ran⟩ := Program.mapM_ok_perm_results accepted perm
    have graph := independent others same
    rwa [afterBatch_ok ran, afterBatch_ok accepted] at graph
  · intro orderless others perm
    cases accepted : files.mapM (canonicalizeParsedFile nfc) with
    | ok normal =>
      have separate : Distinct normal := ⟨(distinct normal accepted).1,
        (distinct normal accepted).2, mapM_canonicalizeParsedFile_located accepted⟩
      obtain ⟨arranged, ran, same⟩ := Program.mapM_ok_perm accepted perm
      rw [afterBatch_ok ran, afterBatch_ok accepted]
      exact sameGraph_of_orderless separate (own normal accepted) (orderless normal accepted) same
    | error error =>
      cases ran : others.mapM (canonicalizeParsedFile nfc) with
      | error other =>
        rw [afterBatch_error ran, afterBatch_error accepted]
        exact ⟨.refl _, .refl _, .refl _⟩
      | ok arranged =>
        obtain ⟨results, done, _⟩ := Program.mapM_ok_perm ran perm.symm
        rw [accepted] at done
        cases done

end

def functionFile (path : String) (edges : List Edge) : ParsedFile where
  path := path
  hash := "h"
  nodes := [functionNode path "f"]
  edges := edges

def callFrom : Edge where
  kind := .calls
  sourceQn := "c.rs::fn::f"
  targetQn := "a.rs::fn::f"
  filePath := "c.rs"

def calledStore : Db := run id [writeFunction "a.rs",
    .replaceFilesTransactional "repo" [functionFile "c.rs" [callFrom]]] Db.empty

theorem calledStore_orderless : SameGraph
    (afterBatch id "repo" [functionFile "c.rs" [callFrom], functionFile "a.rs" []] calledStore)
      (afterBatch id "repo" [functionFile "a.rs" [], functionFile "c.rs" [callFrom]] calledStore) := by
  have accepted : [functionFile "a.rs" [], functionFile "c.rs" [callFrom]].mapM
    (canonicalizeParsedFile id) = .ok [functionFile "a.rs" [], functionFile "c.rs" [callFrom]] := by
    decide
  have only : ∀ normal, [functionFile "a.rs" [], functionFile "c.rs" [callFrom]].mapM
    (canonicalizeParsedFile id) = .ok normal →
    normal = [functionFile "a.rs" [], functionFile "c.rs" [callFrom]] := by
    intro normal ran
    rw [accepted] at ran
    exact (Except.ok.inj ran).symm
  have separate : Distinct [functionFile "a.rs" [], functionFile "c.rs" [callFrom]] := ⟨by decide, by decide, by decide⟩
  have keeps : ∀ file ∈ [functionFile "a.rs" [], functionFile "c.rs" [callFrom]],
    ∀ name ∈ storedNames "repo" calledStore file.path, name ∈ names file := by decide
  have fixed : ∀ name source target, ¬ Moves (storedNames "repo" calledStore)
    [functionFile "a.rs" [], functionFile "c.rs" [callFrom]] name source target := by
    intro name source target moves
    exact moves.apart (separate.eq_of_name moves.sourceMember moves.targetMember
      (keeps source moves.sourceMember name moves.held) moves.written)
  refine (afterBatch_orderless_iff id "repo" [functionFile "a.rs" [],
    functionFile "c.rs" [callFrom]] calledStore (by decide) ?_ ?_).mpr ?_ _ (List.Perm.swap _ _ _)
  · intro normal ran
    rw [only normal ran]
    decide
  · intro normal ran
    rw [only normal ran]
    unfold OwnEdges
    decide
  · intro normal ran
    rw [only normal ran]
    exact
      { edges := fun file _ other otherMem _ _ _ name held notKept _ =>
          absurd (keeps other otherMem name held) notKept
        outside := fun _ _ _ _ name source target moves _ => absurd moves (fixed name source target)
        chunks := fun row _ _ source target => fixed row.nodeQn source target }

/-- After a rename `b.rs` holds the name `a.rs::fn::f`, which a new `a.rs` takes over. -/
def renamedStore : Db := run id [.renameFileGraph "repo" "a.rs" "b.rs"] calledStore

/-- The call in `c.rs` survives only if `a.rs` goes first. -/
theorem renamedStore_order_matters :
    ((afterBatch id "repo" [functionFile "a.rs" [], functionFile "b.rs" []] renamedStore).edges.map
      EdgeRow.targetQualified) = ["a.rs::fn::f"] ∧
      (afterBatch id "repo" [functionFile "b.rs" [], functionFile "a.rs" []] renamedStore).edges = [] ∧
      ¬ SameGraph
        (afterBatch id "repo" [functionFile "a.rs" [], functionFile "b.rs" []] renamedStore)
        (afterBatch id "repo" [functionFile "b.rs" [], functionFile "a.rs" []] renamedStore) := by
  refine ⟨by decide, by decide, fun same => ?_⟩
  have count := same.edges.length_eq
  revert count
  decide

end Atlas.Store
