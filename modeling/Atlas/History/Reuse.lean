import Atlas.History.Snapshot

/-! Reused blob graphs against a fresh parse of every file of the snapshot. -/
namespace Atlas.History
open List Core Sql

structure NodeFact where
  (qualifiedName kind filePath : String)
  (lineStart lineEnd : Option Nat)
  deriving DecidableEq

def HistoricalNode.fact (row : HistoricalNode) : NodeFact where
  qualifiedName := row.qualifiedName
  kind := row.kind
  filePath := row.filePath
  lineStart := row.lineStart
  lineEnd := row.lineEnd

def parsedFacts (registry : ParserRegistry)
    (content : String → Bytes) (filePath fileHash : String) : List NodeFact :=
  match registry.parse filePath fileHash (content fileHash) with
  | none => []
  | some parsed => (persistedNodes fileHash filePath parsed).map HistoricalNode.fact

def SnapshotAgrees (registry : ParserRegistry)
    (content : String → Bytes) (db : Db) (snapshotId : Nat) : Prop :=
  ∀ fact, (∃ row ∈ reconstructSnapshotNodes db snapshotId, row.fact = fact) ↔
    ∃ file ∈ listSnapshotFiles db snapshotId, fact ∈
    parsedFacts registry content file.filePath file.fileHash

section
variable {registry : ParserRegistry} {content : String → Bytes}

theorem parsedFacts_filePath {filePath fileHash : String} {fact : NodeFact}
    (mem : fact ∈ parsedFacts registry content filePath fileHash) : fact.filePath = filePath := by
  unfold parsedFacts at mem
  split at mem
  · cases mem
  · obtain ⟨row, rowMem, rfl⟩ := mem_map.mp mem
    obtain ⟨node, _, rfl⟩ := mem_map.mp rowMem
    rfl

variable {snapshotId : Nat} {db : Db} {collected : Collected} {commitRow : StoredCommit}
  {rootTreeHash : Option String}

theorem SnapshotAgrees.of_sameContents {before after : Db}
    (same : SameContents before after snapshotId)
    (agrees : SnapshotAgrees registry content before snapshotId) :
    SnapshotAgrees registry content after snapshotId := by
  unfold SnapshotAgrees
  rw [same.nodes, same.files]
  exact agrees

/-! ## Reading the attached nodes of one snapshot -/

theorem mem_reconstructSnapshotNodes {row : HistoricalNode} :
    row ∈ reconstructSnapshotNodes db snapshotId ↔
      row ∈ db.historicalNodes ∧ ∃ mem ∈ db.snapshotNodes, mem.snapshotId = snapshotId ∧
        row.key = (mem.fileHash, mem.qualifiedName) := by
  simp only [reconstructSnapshotNodes, mem_insertionSort, mem_flatMap, mem_filter, decide_eq_true_eq]
  constructor
  · rintro ⟨mem, ⟨attached, owned⟩, stored, same⟩
    exact ⟨stored, mem, attached, owned, same⟩
  · rintro ⟨stored, mem, attached, owned, same⟩
    exact ⟨mem, ⟨attached, owned⟩, stored, same⟩

structure Labelled (registry : ParserRegistry)
    (content : String → Bytes) (db : Db) (collected : Collected) : Prop where
  /-- Every attached name has its blob row. -/
  stored : ∀ member ∈ collected.fileMemberships, ∀ name ∈ member.qualifiedNames,
    ∃ row ∈ db.historicalNodes, row.key = (member.fileHash, name)
  /-- The row is what the parser gives for some file of the snapshot. -/
  parsed : ∀ member ∈ collected.fileMemberships, ∀ name ∈ member.qualifiedNames,
    ∀ row ∈ db.historicalNodes, row.key = (member.fileHash, name) →
    ∃ file ∈ collected.snapshotFiles,
        row.fact ∈ parsedFacts registry content file.filePath file.fileHash
  /-- Everything the parser gives for a file is attached. -/
  covered : ∀ file ∈ collected.snapshotFiles, ∀ fact ∈ parsedFacts registry content file.filePath file.fileHash,
      ∃ member ∈ collected.fileMemberships, fact.qualifiedName ∈ member.qualifiedNames
  /-- A name means one thing within the commit. -/
  agree : ∀ first ∈ collected.snapshotFiles, ∀ second ∈ collected.snapshotFiles,
    ∀ fact ∈ parsedFacts registry content first.filePath first.fileHash,
    ∀ other ∈ parsedFacts registry content second.filePath second.fileHash,
      fact.qualifiedName = other.qualifiedName → fact = other

theorem exists_listSnapshotFiles_published (valid : db.Valid)
    (paths : (collected.snapshotFiles.map StoredSnapshotFile.filePath).Nodup)
    (holds : String → String → Prop) :
    (∃ file ∈ listSnapshotFiles (publishedDb commitRow rootTreeHash collected db)
      (nextSnapshotId db), holds file.filePath file.fileHash) ↔
      ∃ file ∈ collected.snapshotFiles, holds file.filePath file.fileHash := by
  have listed : (listSnapshotFiles (publishedDb commitRow rootTreeHash collected db)
    (nextSnapshotId db)).Perm _ := listSnapshotFiles_published valid paths
  constructor
  · rintro ⟨file, mem, found⟩
    obtain ⟨tracked, trackedMember, rfl⟩ := mem_map.mp (listed.mem_iff.mp mem)
    exact ⟨tracked, trackedMember, found⟩
  · rintro ⟨file, mem, found⟩
    exact ⟨_, listed.mem_iff.mpr (mem_map_of_mem mem), found⟩

theorem snapshotAgrees_published (valid : db.Valid)
    (labelled : Labelled registry content db collected)
    (paths : (collected.snapshotFiles.map StoredSnapshotFile.filePath).Nodup) :
    SnapshotAgrees registry content (publishedDb commitRow rootTreeHash collected db) (nextSnapshotId db) := by
  have fresh : ∀ row ∈ db.snapshotNodes, row.snapshotId ≠ nextSnapshotId db := by
    intro row mem same
    exact Db.Valid.nextSnapshotId_fresh db (same ▸ valid.nodes row mem)
  have attachedItem : ∀ mem ∈ (publishedDb commitRow rootTreeHash collected db).snapshotNodes,
      mem.snapshotId = nextSnapshotId db → ∃ member ∈ collected.fileMemberships,
        mem.fileHash = member.fileHash ∧ mem.qualifiedName ∈ member.qualifiedNames := by
    intro mem attached owned
    rcases mem_insertAllOrIgnore attached with old | new
    · exact absurd owned (fresh mem old)
    · obtain ⟨member, membershipMember, named⟩ := mem_flatMap.mp new
      obtain ⟨name, nameMem, rfl⟩ := mem_map.mp named
      exact ⟨member, membershipMember, rfl, nameMem⟩
  intro fact
  rw [exists_listSnapshotFiles_published valid paths fun filePath fileHash =>
    fact ∈ parsedFacts registry content filePath fileHash]
  constructor
  · rintro ⟨row, reconstructed, rfl⟩
    obtain ⟨stored, mem, attached, owned, same⟩ := mem_reconstructSnapshotNodes.mp reconstructed
    obtain ⟨member, membershipMember, sameHash, named⟩ := attachedItem mem attached owned
    rw [sameHash] at same
    exact labelled.parsed member membershipMember _ named row stored same
  · rintro ⟨file, tracked, parsed⟩
    obtain ⟨member, membershipMember, named⟩ := labelled.covered file tracked fact parsed
    -- Another membership may have attached the name first; its row is the same fact.
    have item : (⟨nextSnapshotId db, member.fileHash, fact.qualifiedName⟩ : SnapshotNode) ∈
      collected.fileMemberships.flatMap (membershipNodes (nextSnapshotId db)) :=
      mem_flatMap.mpr ⟨member, membershipMember, mem_map_of_mem named⟩
    obtain ⟨mem, attached, sameKey⟩ :
      ∃ mem ∈ (publishedDb commitRow rootTreeHash collected db).snapshotNodes,
      mem.key = (nextSnapshotId db, fact.qualifiedName) := key_mem_insertAllOrIgnore item
    have owned : mem.snapshotId = nextSnapshotId db := congrArg Prod.fst sameKey
    have sameName : mem.qualifiedName = fact.qualifiedName := congrArg Prod.snd sameKey
    obtain ⟨attacher, attacherMember, attacherHash, attacherNames⟩ := attachedItem mem attached owned
    obtain ⟨row, stored, rowKey⟩ := labelled.stored attacher attacherMember mem.qualifiedName attacherNames
    obtain ⟨other, otherTracked, otherParsed⟩ := labelled.parsed attacher attacherMember _ attacherNames row stored rowKey
    have sameFact : row.fact = fact := by
      refine labelled.agree other otherTracked file tracked _ otherParsed _ parsed ?_
      exact (congrArg Prod.snd rowKey).trans sameName
    refine ⟨row, mem_reconstructSnapshotNodes.mpr ⟨stored, mem, attached, owned, ?_⟩, sameFact⟩
    rw [rowKey, attacherHash]

def ParseWork.Parses (registry : ParserRegistry) (work : ParseWork) (parsed : ParsedFile) : Prop :=
  registry.parse work.relPath work.fileHash work.bytes = some parsed

theorem foldl_persistClean_rows (batch : List ParseWork) (state : Persisted) :
    ∀ row ∈ (batch.foldl (persistClean registry) state).db.historicalNodes,
      row ∈ state.db.historicalNodes ∨ ∃ work ∈ batch, ∃ parsed, work.Parses registry parsed ∧
        row ∈ persistedNodes work.fileHash work.relPath parsed := by
  induction batch generalizing state with
  | nil => exact fun row mem => .inl mem
  | cons work rest ih =>
    intro row mem
    rcases ih _ row mem with before | ⟨later, laterMem, parsed, parses, made⟩
    · unfold persistClean at before
      cases parses : registry.parse work.relPath work.fileHash work.bytes with
      | none =>
        simp only [parses] at before
        exact .inl before
      | some parsed =>
        simp only [parses] at before
        rw [execAll_persistParsedFile] at before
        rcases mem_insertAllOrIgnore before with old | new
        · exact .inl old
        · exact .inr ⟨work, .head _, parsed, parses, new⟩
    · exact .inr ⟨later, .tail _ laterMem, parsed, parses, made⟩

theorem foldl_persistClean_graphs (batch : List ParseWork) (state : Persisted) (hash : String) :
    (batch.foldl (persistClean registry) state).cache.blobGraphs hash =
      state.cache.blobGraphs hash ∧
        (∀ work ∈ batch, ∀ parsed, work.Parses registry parsed → work.fileHash ≠ hash) ∨
      ∃ work ∈ batch, ∃ parsed, work.Parses registry parsed ∧
        work.fileHash = hash ∧ (batch.foldl (persistClean registry) state).cache.blobGraphs hash =
        some (parsedFileGraph work parsed) := by
  induction batch generalizing state with
  | nil => exact .inl ⟨rfl, by simp⟩
  | cons work rest ih =>
    rcases ih (persistClean registry state work) with ⟨same, others⟩ | ⟨later, laterMem, parsed, parses, sameHash, cached⟩
    · cases parses : registry.parse work.relPath work.fileHash work.bytes with
      | none =>
        have skipped : persistClean registry state work = state := by simp only [persistClean, parses]
        refine .inl ⟨?_, ?_⟩
        · rw [foldl_cons, same, skipped]
        · intro other mem parsed otherParses
          rcases mem_cons.mp mem with rfl | later
          · rw [ParseWork.Parses, parses] at otherParses
            cases otherParses
          · exact others other later parsed otherParses
      | some parsed =>
        have inserted : (persistClean registry state work).cache.blobGraphs =
          insertAt work.fileHash (parsedFileGraph work parsed) state.cache.blobGraphs := by
          simp only [persistClean, parses]
        by_cases sameHash : work.fileHash = hash
        · refine .inr ⟨work, .head _, parsed, parses, sameHash, ?_⟩
          rw [foldl_cons, same, inserted]
          simp [insertAt, sameHash]
        · refine .inl ⟨?_, ?_⟩
          · rw [foldl_cons, same, inserted]
            simp [insertAt, Ne.symm sameHash]
          · intro other mem otherParsed otherParses
            rcases mem_cons.mp mem with rfl | later
            · exact sameHash
            · exact others other later otherParsed otherParses
    · exact .inr ⟨later, .tail _ laterMem, parsed, parses, sameHash, cached⟩

end

/-! ## The reuse condition of a commit -/

section
variable (registry : ParserRegistry)
  (content : String → Bytes) (db : Db) (cache : BuildRunCache) (tracked : List StoredSnapshotFile)

def GoesIn (file : StoredSnapshotFile) : Prop :=
  isReused registry db file = true ∨ (needsParse registry content db file = true ∧
    ∃ parsed, registry.parse file.filePath file.fileHash (content file.fileHash) = some parsed)

def ReusedRow (row : HistoricalNode) : Prop :=
  row ∈ db.historicalNodes ∧ row.qualifiedName ∈ (knownGraph db cache row.fileHash).qualifiedNames

/-- The rows that are reused for a stored blob come from exactly the paths at which the
commit has the blob, and a name means one thing over all files of the commit. -/
structure ReuseFits : Prop where
  elsewhere : ∀ file ∈ tracked, isReused registry db file = true → ∀ row, ReusedRow db cache row → row.fileHash = file.fileHash →
      ∃ other ∈ tracked, isReused registry db other = true ∧ other.fileHash = file.fileHash ∧ other.filePath = row.filePath
  own : ∀ file ∈ tracked, isReused registry db file = true → parsedFacts registry content file.filePath file.fileHash ≠ [] →
      ∃ row, ReusedRow db cache row ∧ row.fileHash = file.fileHash ∧ row.filePath = file.filePath
  names : ∀ first ∈ tracked, ∀ second ∈ tracked, GoesIn registry content db first → GoesIn registry
    content db second → ∀ fact ∈ parsedFacts registry content first.filePath first.fileHash,
    ∀ other ∈ parsedFacts registry content second.filePath second.fileHash,
      fact.qualifiedName = other.qualifiedName → fact = other

structure StoredFromParser : Prop where
  rows : ∀ row ∈ db.historicalNodes, row.fact ∈ parsedFacts registry content row.filePath row.fileHash
  complete : ∀ row ∈ db.historicalNodes, ∀ fact ∈ parsedFacts registry content row.filePath
    row.fileHash, ∃ other ∈ db.historicalNodes, other.fileHash = row.fileHash ∧ other.fact = fact

structure GraphsFit : Prop where
  named : ∀ hash, hasHistoricalFileGraph db hash = true → ∀ name ∈ (knownGraph db cache
    hash).qualifiedNames, ∃ row ∈ db.historicalNodes, row.key = (hash, name)
  closed : ∀ row, ReusedRow db cache row → ∀ other ∈ db.historicalNodes,
    other.fileHash = row.fileHash → other.filePath = row.filePath → ReusedRow db cache other

end

section
variable {registry : ParserRegistry} {content : String → Bytes} {db : Db}
  {before cache : BuildRunCache} {tracked : List StoredSnapshotFile} {errors : List IngestError}
  {row : HistoricalNode} {file : StoredSnapshotFile} {filePath fileHash hash : String} {parsed : ParsedFile}

theorem persistedCleanly_rows
    (mem : row ∈ (persistedCleanly registry content db cache tracked errors).db.historicalNodes) :
    row ∈ db.historicalNodes ∨ ∃ file ∈ tracked, needsParse registry content db file = true ∧
      ∃ parsed, registry.parse file.filePath file.fileHash (content file.fileHash) = some parsed ∧
        row ∈ persistedNodes file.fileHash file.filePath parsed := by
  rcases foldl_persistClean_rows _ _ row mem with old | ⟨work, batched, parsed, parses, made⟩
  · exact .inl old
  · obtain ⟨file, fileMem, needs, sameHash, samePath, sameBytes⟩ := mem_parseWorks batched
    rw [ParseWork.Parses, sameHash, samePath, sameBytes] at parses
    rw [sameHash, samePath] at made
    exact .inr ⟨file, fileMem, needs, parsed, parses, made⟩

theorem mem_contributions {member : SnapshotFileMembership} :
    member ∈ contributions registry content db before tracked ↔
      (∃ file ∈ tracked, isReused registry db file = true ∧ member = membershipOf file (knownGraph db before file.fileHash)) ∨
      ∃ file ∈ tracked, needsParse registry content db file = true ∧
        ∃ parsed, registry.parse file.filePath file.fileHash (content file.fileHash) = some parsed ∧
          member = parsedMembership file.fileHash file.filePath parsed := by
  simp only [contributions, reusedMemberships, parsedMemberships, mem_append, mem_map, mem_filter,
    mem_filterMap, Option.map_eq_some_iff]
  constructor
  · rintro (⟨file, ⟨mem, reused⟩, rfl⟩ | ⟨file, ⟨mem, parses⟩, parsed, found, rfl⟩)
    · exact .inl ⟨file, mem, reused, rfl⟩
    · exact .inr ⟨file, mem, parses, parsed, found, rfl⟩
  · rintro (⟨file, mem, reused, rfl⟩ | ⟨file, mem, parses, parsed, found, rfl⟩)
    · exact .inl ⟨file, ⟨mem, reused⟩, rfl⟩
    · exact .inr ⟨file, ⟨mem, parses⟩, parsed, found, rfl⟩

theorem exists_snapshotFiles_iff {persisted : Persisted}
    (contributes : persisted.Contributes content registry db before tracked)
    (counts : persisted.collected.Counts) (holds : String → String → Prop) :
    (∃ file ∈ persisted.collected.snapshotFiles, holds file.filePath file.fileHash) ↔
      ∃ file ∈ tracked, GoesIn registry content db file ∧ holds file.filePath file.fileHash := by
  have paired : (∃ file ∈ persisted.collected.snapshotFiles, holds file.filePath file.fileHash) ↔
      ∃ member ∈ contributions registry content db before tracked, holds member.filePath member.fileHash := by
    have pairs := counts.files
    rw [contributes.memberships] at pairs
    constructor
    · rintro ⟨file, mem, found⟩
      have paired : (file.filePath, file.fileHash) ∈ persisted.collected.snapshotFiles.map
        fun file => (file.filePath, file.fileHash) := mem_map_of_mem mem
      rw [pairs] at paired
      obtain ⟨member, membershipMember, same⟩ := mem_map.mp paired
      rw [Prod.mk.injEq] at same
      exact ⟨member, membershipMember, by rw [same.1, same.2]; exact found⟩
    · rintro ⟨member, mem, found⟩
      have paired : (member.filePath, member.fileHash) ∈ (contributions registry content db before tracked).map fun member =>
            (member.filePath, member.fileHash) :=
        mem_map_of_mem mem
      rw [← pairs] at paired
      obtain ⟨file, fileMem, same⟩ := mem_map.mp paired
      rw [Prod.mk.injEq] at same
      exact ⟨file, fileMem, by rw [same.1, same.2]; exact found⟩
  rw [paired]
  constructor
  · rintro ⟨member, mem, found⟩
    rcases mem_contributions.mp mem with ⟨file, fileMem, reused, rfl⟩ | ⟨file, fileMem, parses, parsed, parsedOk, rfl⟩
    · exact ⟨file, fileMem, .inl reused, found⟩
    · exact ⟨file, fileMem, .inr ⟨parses, parsed, parsedOk⟩, found⟩
  · rintro ⟨file, fileMem, reused | ⟨parses, parsed, parsedOk⟩, found⟩
    · exact ⟨_, mem_contributions.mpr (.inl ⟨file, fileMem, reused, rfl⟩), found⟩
    · exact ⟨_, mem_contributions.mpr (.inr ⟨file, fileMem, parses, parsed, parsedOk, rfl⟩), found⟩

theorem stored_of_isReused (reused : isReused registry db file = true) :
    hasHistoricalFileGraph db file.fileHash = true := by
  simp only [isReused, Bool.and_eq_true] at reused
  exact reused.2

theorem fact_of_persistedNodes (parses : registry.parse filePath fileHash (content fileHash) =
    some parsed) (made : row ∈ persistedNodes fileHash filePath parsed) :
    row.fileHash = fileHash ∧ row.fact ∈ parsedFacts registry content filePath fileHash := by
  refine ⟨?_, ?_⟩
  · obtain ⟨node, _, rfl⟩ := mem_map.mp made
    rfl
  · unfold parsedFacts
    rw [parses]
    exact mem_map_of_mem made

theorem mem_parsedNames_iff {name : String}
    (parses : registry.parse filePath fileHash (content fileHash) = some parsed) :
    name ∈ parsedNames parsed ↔ ∃ fact ∈ parsedFacts registry content filePath fileHash, fact.qualifiedName = name := by
  unfold parsedFacts parsedNames persistedNodes
  rw [parses]
  simp only [mem_map, exists_exists_and_eq_and]
  rfl

theorem persistedCleanly_new_row
    (mem : row ∈ (persistedCleanly registry content db cache tracked errors).db.historicalNodes)
    (unstored : hasHistoricalFileGraph db row.fileHash = false) :
    ∃ file ∈ tracked, GoesIn registry content db file ∧
      needsParse registry content db file = true ∧ file.fileHash = row.fileHash ∧
      row.fact ∈ parsedFacts registry content file.filePath file.fileHash := by
  rcases persistedCleanly_rows mem with old | ⟨file, fileMem, needs, parsed, parses, made⟩
  · rw [hasHistoricalFileGraph_iff.mpr ⟨row, old, rfl⟩] at unstored
    cases unstored
  · obtain ⟨sameHash, fact⟩ := fact_of_persistedNodes parses made
    exact ⟨file, fileMem, .inr ⟨needs, parsed, parses⟩, needs, sameHash.symm, fact⟩

section
variable (fits : ReuseFits registry content db before tracked)
include fits

theorem persistedCleanly_parsed_row (contributes : (persistedCleanly registry content db cache
    tracked errors).Contributes content registry db before tracked) (fileMem : file ∈ tracked)
    (needs : needsParse registry content db file = true)
    (parses : registry.parse file.filePath file.fileHash (content file.fileHash) = some parsed)
    {fact : NodeFact} (made : fact ∈ parsedFacts registry content file.filePath file.fileHash) :
    ∃ row ∈ (persistedCleanly registry content db cache tracked errors).db.historicalNodes,
      row.fileHash = file.fileHash ∧ row.fact = fact := by
  have member : parsedMembership file.fileHash file.filePath parsed ∈ parsedMemberships registry content db tracked := by
    refine mem_filterMap.mpr ⟨file, mem_filter.mpr ⟨fileMem, needs⟩, ?_⟩
    rw [parses]
    rfl
  have named : fact.qualifiedName ∈ parsedNames parsed := (mem_parsedNames_iff parses).mpr ⟨fact, made, rfl⟩
  obtain ⟨row, rowMem, rowKey⟩ := contributes.names _ member _ named
  have sameHash : row.fileHash = file.fileHash := congrArg Prod.fst rowKey
  have unstored : hasHistoricalFileGraph db row.fileHash = false := by
    rw [sameHash]
    exact unstored_of_needsParse needs
  obtain ⟨other, otherMem, otherGoesIn, _, _, otherFact⟩ := persistedCleanly_new_row rowMem unstored
  refine ⟨row, rowMem, sameHash, ?_⟩
  exact fits.names other otherMem file fileMem otherGoesIn (.inr ⟨needs, parsed, parses⟩) _
    otherFact _ made (congrArg Prod.snd rowKey)

theorem labelled_of_fits (fromParser : StoredFromParser registry content db)
    (graphs : GraphsFit db before)
    (atop : (persistedCleanly registry content db cache tracked errors).Over db)
    (contributes : (persistedCleanly registry content db cache tracked errors).Contributes content registry db before tracked) :
    Labelled registry content (persistedCleanly registry content db cache tracked errors).db
      (persistedCleanly registry content db cache tracked errors).collected where
  stored := by
    rw [contributes.names_stored_iff atop]
    intro member reused name named
    obtain ⟨file, mem, rfl⟩ := mem_map.mp reused
    exact graphs.named file.fileHash (stored_of_isReused (mem_filter.mp mem).2) name named
  parsed := by
    rw [contributes.memberships]
    intro member mem name named row rowMem rowKey
    rw [exists_snapshotFiles_iff contributes atop.sound.counts fun filePath fileHash =>
      row.fact ∈ parsedFacts registry content filePath fileHash]
    have sameHash : row.fileHash = member.fileHash := congrArg Prod.fst rowKey
    have sameName : row.qualifiedName = name := congrArg Prod.snd rowKey
    rcases mem_contributions.mp mem with ⟨file, fileMem, reused, rfl⟩ | ⟨file, fileMem, needs, parsed, _, rfl⟩
    · have stored : hasHistoricalFileGraph db row.fileHash = true := by
        rw [sameHash]
        exact stored_of_isReused reused
      have old := atop.grown.node_of_stored rowMem stored
      have reusedRow : ReusedRow db before row := by
        refine ⟨old, ?_⟩
        rw [sameHash, sameName]
        exact named
      obtain ⟨other, otherMem, otherReused, otherHash, otherPath⟩ := fits.elsewhere file fileMem reused row reusedRow sameHash
      refine ⟨other, otherMem, .inl otherReused, ?_⟩
      have sameBlob : other.fileHash = row.fileHash := otherHash.trans sameHash.symm
      rw [otherPath, sameBlob]
      exact fromParser.rows row old
    · have unstored : hasHistoricalFileGraph db row.fileHash = false := by
        rw [sameHash]
        exact unstored_of_needsParse needs
      obtain ⟨other, otherMem, goesIn, _, _, fact⟩ := persistedCleanly_new_row rowMem unstored
      exact ⟨other, otherMem, goesIn, fact⟩
  covered := by
    intro listed listedMember fact made
    rw [contributes.memberships]
    obtain ⟨file, fileMem, goesIn, made⟩ := (exists_snapshotFiles_iff contributes atop.sound.counts fun filePath fileHash =>
        fact ∈ parsedFacts registry content filePath fileHash).mp ⟨listed, listedMember, made⟩
    rcases goesIn with reused | ⟨needs, parsed, parses⟩
    · refine ⟨_, mem_contributions.mpr (.inl ⟨file, fileMem, reused, rfl⟩), ?_⟩
      obtain ⟨row, reusedRow, sameHash, samePath⟩ := fits.own file fileMem reused (ne_nil_of_mem made)
      rw [← samePath, ← sameHash] at made
      obtain ⟨other, otherMem, otherHash, rfl⟩ := fromParser.complete row reusedRow.1 fact made
      have otherPath : other.filePath = row.filePath := parsedFacts_filePath made
      have known := (graphs.closed row reusedRow other otherMem otherHash otherPath).2
      rw [otherHash, sameHash] at known
      exact known
    · refine ⟨_, mem_contributions.mpr (.inr ⟨file, fileMem, needs, parsed, parses, rfl⟩), ?_⟩
      exact (mem_parsedNames_iff parses).mpr ⟨fact, made, rfl⟩
  agree := by
    intro first firstMem second secondMem fact made other otherMade sameName
    obtain ⟨firstFile, firstTracked, firstGoesIn, made⟩ :=
      (exists_snapshotFiles_iff contributes atop.sound.counts fun filePath fileHash =>
        fact ∈ parsedFacts registry content filePath fileHash).mp ⟨first, firstMem, made⟩
    obtain ⟨secondFile, secondTracked, secondGoesIn, otherMade⟩ :=
      (exists_snapshotFiles_iff contributes atop.sound.counts fun filePath fileHash =>
        other ∈ parsedFacts registry content filePath fileHash).mp ⟨second, secondMem, otherMade⟩
    exact fits.names firstFile firstTracked secondFile secondTracked firstGoesIn secondGoesIn fact made other otherMade sameName

theorem StoredFromParser.persistedCleanly (fromParser : StoredFromParser registry content db)
    (atop : (persistedCleanly registry content db cache tracked errors).Over db)
    (contributes : (persistedCleanly registry content db cache tracked errors).Contributes content registry db before tracked) :
    StoredFromParser registry content (persistedCleanly registry content db cache tracked errors).db where
  rows row mem := by
    rcases persistedCleanly_rows mem with old | ⟨file, _, _, parsed, parses, made⟩
    · exact fromParser.rows row old
    · obtain ⟨sameHash, fact⟩ := fact_of_persistedNodes parses made
      have samePath : row.filePath = file.filePath := parsedFacts_filePath fact
      rw [samePath, sameHash]
      exact fact
  complete row mem fact made := by
    rcases persistedCleanly_rows mem with old | ⟨file, fileMem, needs, parsed, parses, rowMade⟩
    · obtain ⟨other, otherMem, facts⟩ := fromParser.complete row old fact made
      exact ⟨other, atop.grown.node_mem otherMem, facts⟩
    · obtain ⟨sameHash, rowFact⟩ := fact_of_persistedNodes parses rowMade
      have samePath : row.filePath = file.filePath := parsedFacts_filePath rowFact
      rw [samePath, sameHash] at made
      rw [sameHash]
      exact persistedCleanly_parsed_row fits contributes fileMem needs parses made

end

theorem storedFileGraph_grown {larger : Db}
    (grown : db.GrownFrom larger) (stored : hasHistoricalFileGraph db hash = true) :
    storedFileGraph larger hash = storedFileGraph db hash := by
  have nodes : nodesOfHash larger hash = nodesOfHash db hash := by
    obtain ⟨added, appended, fresh⟩ := grown.nodes
    unfold nodesOfHash
    rw [appended, filter_append, append_right_eq_self, filter_eq_nil_iff]
    intro row mem same
    have unstored := fresh row mem
    rw [of_decide_eq_true same, stored] at unstored
    cases unstored
  have edges : edgesOfHash larger hash = edgesOfHash db hash := by
    obtain ⟨added, appended, fresh⟩ := grown.edges
    unfold edgesOfHash
    rw [appended, filter_append, append_right_eq_self, filter_eq_nil_iff]
    intro row mem same
    have unstored := (fresh row mem).1
    rw [of_decide_eq_true same, stored] at unstored
    cases unstored
  simp only [storedFileGraph, getHistoricalFileLanguage, countHistoricalNodes, countHistoricalEdges,
    listHistoricalNodeQns, listHistoricalEdgeKeys, nodes, edges]

theorem persistedCleanly_grown (registry : ParserRegistry) (content : String → Bytes) (db : Db)
    (cache : BuildRunCache) (tracked : List StoredSnapshotFile) (errors : List IngestError) :
    db.GrownFrom (persistedCleanly registry content db cache tracked errors).db := by
  let classified : Classified :=
    { cache := cache, collected := collectReused registry db cache tracked {},
      parseBatch := parseWorks registry content db 1 tracked }
  have same : persistAll registry {} "" db errors classified = persistedCleanly registry content db cache tracked errors := by
    unfold persistAll persistedCleanly
    congr 1
    funext state work
    exact persistWork_of_clear state work fun _ => rfl
  rw [← same]
  refine persistAll_grown errors ?_
  intro work batched
  obtain ⟨file, _, needs, sameHash, _⟩ := mem_parseWorks batched
  rw [sameHash]
  exact unstored_of_needsParse needs

theorem knownGraph_persistedCleanly (extended : CacheExtends db before cache)
    (present : hasHistoricalFileGraph (persistedCleanly registry content db cache tracked errors).db
    hash = true) :
    let after := persistedCleanly registry content db cache tracked errors
    (hasHistoricalFileGraph db hash = true ∧ knownGraph after.db after.cache hash = knownGraph db before hash) ∨
      (hasHistoricalFileGraph db hash = false ∧ ∃ file ∈ tracked,
        needsParse registry content db file = true ∧ file.fileHash = hash ∧ ∃ parsed,
          registry.parse file.filePath file.fileHash (content file.fileHash) = some parsed ∧
            (knownGraph after.db after.cache hash).qualifiedNames = parsedNames parsed) := by
  intro after
  rcases foldl_persistClean_graphs (parseWorks registry content db 1 tracked)
    { db := db, cache := cache, collected := collectReused registry db cache tracked {},
      errors := errors } hash with ⟨same, others⟩ | ⟨work, batched, parsed, parses, sameHash, cached⟩
  · have stored : hasHistoricalFileGraph db hash = true := by
      obtain ⟨row, mem, rowHash⟩ := hasHistoricalFileGraph_iff.mp present
      rcases foldl_persistClean_rows _ _ row mem with old | ⟨work, batched, parsed, parses, made⟩
      · exact hasHistoricalFileGraph_iff.mpr ⟨row, old, rowHash⟩
      · obtain ⟨node, _, rfl⟩ := mem_map.mp made
        exact absurd rowHash (others work batched parsed parses)
    refine .inl ⟨stored, ?_⟩
    have unchanged : after.cache.blobGraphs hash = cache.blobGraphs hash := same
    rw [← extended.knownGraph_eq hash]
    unfold knownGraph
    rw [unchanged, storedFileGraph_grown (persistedCleanly_grown _ _ _ _ _ _) stored]
  · obtain ⟨file, fileMem, needs, workHash, workPath, workBytes⟩ := mem_parseWorks batched
    rw [ParseWork.Parses, workHash, workPath, workBytes] at parses
    rw [workHash] at sameHash
    refine .inr ⟨?_, file, fileMem, needs, sameHash, parsed, parses, ?_⟩
    · rw [← sameHash]
      exact unstored_of_needsParse needs
    · have graph : after.cache.blobGraphs hash = some (parsedFileGraph work parsed) := cached
      unfold knownGraph
      rw [graph]
      rfl

theorem GraphsFit.persistedCleanly (fits : ReuseFits registry content db before tracked)
    (graphs : GraphsFit db before) (extended : CacheExtends db before cache)
    (atop : (persistedCleanly registry content db cache tracked errors).Over db)
    (contributes : (persistedCleanly registry content db cache tracked errors).Contributes content registry db before tracked) :
    GraphsFit (persistedCleanly registry content db cache tracked errors).db
      (persistedCleanly registry content db cache tracked errors).cache where
  named hash present name known := by
    rcases knownGraph_persistedCleanly extended present with ⟨stored, same⟩ | ⟨_, file, fileMem,
      needs, rfl, parsed, parses, names⟩
    · rw [same] at known
      obtain ⟨row, mem, rowKey⟩ := graphs.named hash stored name known
      exact ⟨row, atop.grown.node_mem mem, rowKey⟩
    · rw [names] at known
      obtain ⟨fact, made, rfl⟩ := (mem_parsedNames_iff parses).mp known
      obtain ⟨row, mem, sameHash, rfl⟩ := persistedCleanly_parsed_row fits contributes fileMem needs parses made
      exact ⟨row, mem, Prod.ext sameHash rfl⟩
  closed row reused other mem sameHash samePath := by
    refine ⟨mem, ?_⟩
    have present := hasHistoricalFileGraph_iff.mpr ⟨row, reused.1, rfl⟩
    have known := reused.2
    rw [sameHash]
    rcases knownGraph_persistedCleanly extended present with ⟨stored, same⟩ | ⟨unstored, file,
      fileMem, needs, fileHash, parsed, parses, names⟩
    · rw [same] at known ⊢
      have oldRow := atop.grown.node_of_stored reused.1 stored
      have oldOther := atop.grown.node_of_stored mem (sameHash ▸ stored)
      have closed := (graphs.closed row ⟨oldRow, known⟩ other oldOther sameHash samePath).2
      rwa [sameHash] at closed
    · rw [names] at known ⊢
      obtain ⟨fact, made, factName⟩ := (mem_parsedNames_iff parses).mp known
      obtain ⟨rowFile, rowFileMember, rowGoesIn, _, rowFileHash, rowFact⟩ := persistedCleanly_new_row reused.1 unstored
      have sameFact : fact = row.fact := fits.names file fileMem rowFile rowFileMember
        (.inr ⟨needs, parsed, parses⟩) rowGoesIn fact made _ rowFact factName
      have rowPath : row.filePath = file.filePath := by
        have path := parsedFacts_filePath made
        rwa [sameFact] at path
      obtain ⟨otherFile, _, _, _, otherFileHash, otherFact⟩ := persistedCleanly_new_row mem (sameHash ▸ unstored)
      have otherPath : otherFile.filePath = file.filePath := by
        rw [← parsedFacts_filePath otherFact]
        exact samePath.trans rowPath
      have otherBlob : otherFile.fileHash = file.fileHash := by rw [otherFileHash, sameHash, fileHash]
      rw [otherPath, otherBlob] at otherFact
      exact (mem_parsedNames_iff parses).mpr ⟨_, otherFact, rfl⟩

end
end Atlas.History
