import Atlas.Program.MapM
import Atlas.Search.Query

/-! Which rows each path of a search can fetch. Only the SQL of the full-text search applies
all filters, and it compares the subpath without the case of ASCII letters. The exact
lookups apply the exclusion of files and the trimmed subpath; the vector search applies the
exclusion of files alone. -/
namespace Atlas.Search
open List Core Store Sql

variable {Score Embedding : Type}

structure HonoursColumns (lib : Library Score Embedding)
    (query : SearchQuery) (row : NodeRow) : Prop where
  repoIds : query.repoIds ≠ [] → row.sourceRepoId ∈ query.repoIds
  kind : ∀ kind, query.kind = some kind → row.kind = normalizeKindAlias kind
  language : ∀ language, query.language = some language → row.language = some language
  filePath : ∀ filePath, query.filePath = some filePath → row.filePath = filePath
  isTest : ∀ isTest, query.isTest = some isTest → row.isTest = isTest
  regex : ∀ pattern, query.regexPattern = some pattern → ∃ isMatch, lib.compileRegex pattern =
    .ok isMatch ∧ (isMatch row.name = true ∨ isMatch row.qualifiedName = true)

def UnderSubpath (query : SearchQuery) (row : NodeRow) : Prop :=
  ∀ subpath, query.subpath = some subpath → subpath.toList <+: row.filePath.toList
def Listed (query : SearchQuery) (row : NodeRow) : Prop :=
  query.includeFiles = true ∨ row.kind ≠ "file"

structure Honours (lib : Library Score Embedding) (query : SearchQuery) (row : NodeRow) :
    Prop extends HonoursColumns lib query row where
  subpath : UnderSubpath query row
  files : Listed query row

structure NamedExactly (query : SearchQuery) (row : NodeRow) : Prop where
  text : trimmed query.text ≠ []
  named : row.qualifiedName.toList = trimmed query.text ∨
    (trimmed query.text).any Repo.isWhitespace = false ∧ row.name.toList = trimmed query.text
  subpath : matchesSubpath row.filePath query.subpath = true

def MatchesText (lib : Library Score Embedding)
    (db : Db) (query : SearchQuery) (row : NodeRow) : Prop :=
  trimmed query.text = [] ∨ ∃ document ∈ db.nodesFts, document.rowid = row.id ∧
    lib.ftsMatches (fts5Escape query.text) document = true

structure FoundInStore (lib : Library Score Embedding)
    (db : Db) (query : SearchQuery) (row : NodeRow) : Prop where
  matchesText : MatchesText lib db query row
  passes : ∃ regex, compileRegex lib query.regexPattern = .ok regex ∧ passesFilters regex query row = true

def Embedded (db : Db) (row : NodeRow) : Prop :=
  ∃ chunk ∈ db.retrievalChunks, chunk.nodeQn = row.qualifiedName ∧ chunk.embedding.isSome = true

/-- A row that some branch of the search may return. -/
inductive Candidate (lib : Library Score Embedding) (db : Db) (query : SearchQuery) :
    Bool → NodeRow → Prop where
  | exact {row : NodeRow} : NamedExactly query row → Candidate lib db query false row
  | text {hybrid : Bool} {row : NodeRow} : FoundInStore lib db
    { query with text := buildFtsQuery lib query.text } row → Candidate lib db query hybrid row
  | relaxed {row : NodeRow} :
    relaxes lib query = true → FoundInStore lib db (relaxedQuery lib query) row →
    isFuzzyHit lib query row = true → Candidate lib db query false row
  | vector {row : NodeRow} : Embedded db row → Candidate lib db query true row

section
variable {lib : Library Score Embedding} {db : Db} {query : SearchQuery} {row : NodeRow}

theorem rowToNode_kind_ne_file : (rowToNode row).kind ≠ .file ↔ row.kind ≠ "file" := by
  have reads : NodeKind.fromStr? row.kind = some .file ↔ row.kind = "file" := by simp [NodeKind.fromStr?, ite_eq_iff]
  rw [not_iff_not, ← reads]
  unfold rowToNode
  cases NodeKind.fromStr? row.kind with
  | none => simp
  | some kind => simp

variable {limit : Nat}

theorem mem_sqlLimit {Row : Type} {rows : List Row} {row : Row} (mem : row ∈ sqlLimit limit rows) :
    row ∈ rows := by
  unfold sqlLimit at mem
  split at mem
  · exact mem_of_mem_take mem
  · exact mem

theorem sqlLimit_eq_self {Row : Type} {rows : List Row} (fits : rows.length ≤ limit) :
    sqlLimit limit rows = rows := by
  unfold sqlLimit
  split
  · exact take_of_length_le fits
  · rfl

/-! ## The full-text search -/

variable {hit : ScoredNode Score}
  {results fts : List (ScoredNode Score)} {ftsQuery : String} {text : List Char} {embedding : Embedding}
  {embedText : String → Except String Embedding} {hybrid : Bool}

theorem mem_byScore : hit ∈ byScore lib results ↔ hit ∈ results := mem_insertionSort _

private theorem mem_ftsRows (mem : hit ∈ ftsRows lib db ftsQuery) :
    hit.row ∈ db.nodes ∧ ∃ document ∈ db.nodesFts, document.rowid = hit.row.id ∧
      lib.ftsMatches ftsQuery document = true := by
  obtain ⟨document, matched, joined⟩ := mem_flatMap.mp mem
  obtain ⟨row, rowJoined, rfl⟩ := mem_map.mp joined
  obtain ⟨rowMem, same⟩ := mem_filter.mp rowJoined
  obtain ⟨documentMem, isMatch⟩ := mem_filter.mp matched
  exact ⟨rowMem, document, documentMem, (of_decide_eq_true same).symm, isMatch⟩

private theorem exists_mem_ftsRows {document : FtsDocument} (rowMem : row ∈ db.nodes)
    (documentMem : document ∈ db.nodesFts) (same : document.rowid = row.id)
    (isMatch : lib.ftsMatches ftsQuery document = true) :
    ∃ hit ∈ ftsRows lib db ftsQuery, hit.row = row := by
  refine ⟨_, mem_flatMap.mpr ⟨document, mem_filter.mpr ⟨documentMem, isMatch⟩,
    mem_map.mpr ⟨row, mem_filter.mpr ⟨rowMem, ?_⟩, rfl⟩⟩, rfl⟩
  exact decide_eq_true same.symm

variable (lib) in
private theorem ftsRows_length_le (ids : (db.nodes.map NodeRow.id).Nodup) (ftsQuery : String) :
    (ftsRows lib db ftsQuery).length ≤ db.nodesFts.length := by
  have joined := (length_join ids FtsDocument.rowid (db.nodesFts.filter (lib.ftsMatches ftsQuery))).1
  have matched : (db.nodesFts.filter (lib.ftsMatches ftsQuery)).length ≤ db.nodesFts.length := length_filter_le _ _
  have unscored : (ftsRows lib db ftsQuery).length = ((db.nodesFts.filter (lib.ftsMatches ftsQuery)).flatMap fun document =>
        db.nodes.filter fun row => decide (row.id = document.rowid)).length := by
    simp [ftsRows, length_flatMap]
  omega

variable {hits : List (ScoredNode Score)}

section
variable (answered : searchStore lib db query = .ok hits)
include answered

theorem searchStore_ok : ∃ regex, compileRegex lib query.regexPattern = .ok regex ∧
      (trimmed query.text = [] ∧ hits = structuralScan lib db regex query ∨ trimmed query.text ≠
        [] ∧ hits = fullTextScan lib db regex query) := by
  unfold searchStore at answered
  obtain ⟨regex, compiled, answered⟩ := Program.bind_eq_ok answered
  refine ⟨regex, compiled, ?_⟩
  simp only [List.isEmpty_iff] at answered
  split at answered
  · next blank =>
      split at answered
      · cases answered
      · cases answered
        exact .inl ⟨blank, rfl⟩
  · next given =>
      cases answered
      exact .inr ⟨given, rfl⟩

theorem searchStore_sound (mem : hit ∈ hits) :
    hit.row ∈ db.nodes ∧ FoundInStore lib db query hit.row := by
  obtain ⟨regex, compiled, ⟨blank, rfl⟩ | ⟨_, rfl⟩⟩ := searchStore_ok answered
  · obtain ⟨row, kept, rfl⟩ := mem_map.mp mem
    obtain ⟨sorted, passes⟩ := mem_filter.mp (mem_sqlLimit kept)
    exact ⟨(mem_insertionSort _).mp sorted, .inl blank, regex, compiled, passes⟩
  · obtain ⟨joined, passes⟩ := mem_filter.mp (mem_byScore.mp (mem_sqlLimit mem))
    obtain ⟨rowMem, matched⟩ := mem_ftsRows joined
    exact ⟨rowMem, .inr matched, regex, compiled, passes⟩

theorem searchStore_complete (ids : (db.nodes.map NodeRow.id).Nodup)
    (nodesFit : db.nodes.length ≤ query.limit)
    (documentsFit : db.nodesFts.length ≤ query.limit) (rowMem : row ∈ db.nodes)
    (found : FoundInStore lib db query row) : ∃ hit ∈ hits, hit.row = row := by
  obtain ⟨regex, compiled, passes⟩ := found.passes
  obtain ⟨used, usedCompiled, answer⟩ := searchStore_ok answered
  rw [compiled] at usedCompiled
  cases usedCompiled
  rcases answer with ⟨_, rfl⟩ | ⟨given, rfl⟩
  · have fits : ((db.nodes.insertionSort fun left right => left.id ≤ right.id).filter
      (passesFilters regex query)).length ≤ query.limit :=
      (length_filter_le _ _).trans ((length_insertionSort _ _).trans_le nodesFit)
    refine ⟨_, mem_map.mpr ⟨row, ?_, rfl⟩, rfl⟩
    rw [sqlLimit_eq_self fits]
    exact mem_filter.mpr ⟨(mem_insertionSort _).mpr rowMem, passes⟩
  · rcases found.matchesText with blank | ⟨document, documentMem, same, isMatch⟩
    · exact absurd blank given
    · obtain ⟨hit, joined, rfl⟩ := exists_mem_ftsRows rowMem documentMem same isMatch
      have fits : (byScore lib ((ftsRows lib db (fts5Escape query.text)).filter fun result =>
          passesFilters regex query result.row)).length ≤ query.limit := by
        unfold byScore
        rw [length_insertionSort]
        have joinedFit := ftsRows_length_le lib ids (fts5Escape query.text)
        have filtered := length_filter_le (fun result => passesFilters regex query result.row)
          (ftsRows lib db (fts5Escape query.text))
        omega
      refine ⟨hit, ?_, rfl⟩
      unfold fullTextScan
      rw [sqlLimit_eq_self fits]
      exact mem_byScore.mpr (mem_filter.mpr ⟨joined, passes⟩)

end

/-! ## The exact lookups -/

theorem admitsExact_iff : admitsExact query row = true ↔
    Listed query row ∧ matchesSubpath row.filePath query.subpath = true := by
  unfold admitsExact Listed
  rw [Bool.and_eq_true, Bool.or_eq_true, decide_eq_true_eq, rowToNode_kind_ne_file]

private theorem nodeByQname_some (found : nodeByQname db (String.ofList text) = some row) :
    row ∈ db.nodes ∧ row.qualifiedName.toList = text := by
  unfold nodeByQname at found
  have same : row.qualifiedName = String.ofList text := by simpa using find?_some found
  exact ⟨mem_of_find?_eq_some found, by rw [same, String.toList_ofList]⟩

private theorem mem_nodesByName (mem : row ∈ nodesByName db (String.ofList text) limit) :
    row ∈ db.nodes ∧ row.name.toList = text := by
  obtain ⟨rowMem, same⟩ := mem_filter.mp ((mem_insertionSort _).mp (mem_sqlLimit mem))
  exact ⟨rowMem, by rw [of_decide_eq_true same, String.toList_ofList]⟩

theorem exactSymbolHits_sound (mem : hit ∈ exactSymbolHits lib db query) :
    hit.row ∈ db.nodes ∧ Listed query hit.row ∧ NamedExactly query hit.row := by
  unfold exactSymbolHits at mem
  simp only [List.isEmpty_iff] at mem
  split at mem
  · cases mem
  · next given =>
      rcases mem_insertAllOrIgnore mem with byQname | byName
      · obtain ⟨row, kept, rfl⟩ := mem_map.mp byQname
        obtain ⟨found, admits⟩ := mem_filter.mp kept
        obtain ⟨listed, subpath⟩ := admitsExact_iff.mp admits
        obtain ⟨rowMem, same⟩ := nodeByQname_some (Option.mem_toList.mp found)
        exact ⟨rowMem, listed, given, .inl same, subpath⟩
      · obtain ⟨row, kept, rfl⟩ := List.mem_map.mp byName
        split at kept
        · cases kept
        · next oneWord =>
            obtain ⟨found, admits⟩ := mem_filter.mp kept
            obtain ⟨listed, subpath⟩ := admitsExact_iff.mp admits
            obtain ⟨rowMem, same⟩ := mem_nodesByName found
            exact ⟨rowMem, listed, given, .inr ⟨Bool.eq_false_iff.mpr oneWord, same⟩, subpath⟩

private theorem nodeByQname_of_mem (names : (db.nodes.map NodeRow.qualifiedName).Nodup)
    (rowMem : row ∈ db.nodes) : nodeByQname db row.qualifiedName = some row := by
  unfold nodeByQname
  rw [← head?_filter, filter_key_eq_of_mem names rowMem]
  rfl

private theorem mem_nodesByName_of_mem (fits : db.nodes.length ≤ limit) (rowMem : row ∈ db.nodes) :
    row ∈ nodesByName db row.name limit := by
  unfold nodesByName
  rw [sqlLimit_eq_self]
  · exact (mem_insertionSort _).mpr (mem_filter.mpr ⟨rowMem, decide_eq_true rfl⟩)
  · rw [length_insertionSort]
    exact (length_filter_le _ _).trans fits

private theorem exactSymbolHits_complete (names : (db.nodes.map NodeRow.qualifiedName).Nodup)
    (fits : db.nodes.length ≤ query.limit) (rowMem : row ∈ db.nodes) (listed : Listed query row)
    (named : NamedExactly query row) :
    ∃ hit ∈ exactSymbolHits lib db query, hit.row = row := by
  have admits : admitsExact query row = true := admitsExact_iff.mpr ⟨listed, named.subpath⟩
  suffices sameName : ∃ hit ∈ exactSymbolHits lib db query, hit.qualifiedName = row.qualifiedName by
    obtain ⟨hit, mem, same⟩ := sameName
    have stored := (exactSymbolHits_sound mem).1
    exact ⟨hit, mem, inj_on_of_nodup_map names stored rowMem same⟩
  unfold exactSymbolHits
  simp only [List.isEmpty_iff, if_neg named.text]
  rcases named.named with byQname | ⟨oneWord, byName⟩
  · refine ⟨{ row, score := lib.whole 100 }, mem_insertAllOrIgnore_of_mem ?_, rfl⟩
    rw [← byQname, String.ofList_toList, nodeByQname_of_mem names rowMem]
    simp [admits]
  · have found := mem_nodesByName_of_mem (fits.trans (Nat.le_max_left query.limit 25)) rowMem
    have fetched : row ∈ (nodesByName db (String.ofList (trimmed query.text))
      (max query.limit 25)).filter (admitsExact query) := by
      rw [← byName, String.ofList_toList]
      exact mem_filter.mpr ⟨found, admits⟩
    simp only [oneWord, Bool.false_eq_true, if_false]
    exact key_mem_insertAllOrIgnore (List.mem_map_of_mem fetched)

private theorem mem_vectorCandidates {candidate : String × Score}
    (mem : candidate ∈ vectorCandidates lib db embedding limit) :
    ∃ chunk ∈ db.retrievalChunks, chunk.nodeQn = candidate.1 ∧ chunk.embedding.isSome = true := by
  have sorted := (mem_insertionSort _).mp (mem_of_mem_take mem)
  obtain ⟨chunk, chunkMem, scored⟩ := mem_filterMap.mp sorted
  obtain ⟨blob, stored, rfl⟩ := Option.map_eq_some_iff.mp scored
  exact ⟨chunk, chunkMem, rfl, by rw [stored]; rfl⟩

private theorem nodesByVectorSimilarity_sound (mem : hit ∈ nodesByVectorSimilarity lib db embedding limit) :
    hit.row ∈ db.nodes ∧ Embedded db hit.row := by
  obtain ⟨row, fetched, rfl⟩ := mem_map.mp (mem_byScore.mp mem)
  obtain ⟨rowMem, named⟩ := mem_filter.mp fetched
  obtain ⟨candidate, candidateMember, same⟩ := mem_map.mp (of_decide_eq_true named)
  obtain ⟨chunk, chunkMem, chunkName, stored⟩ := mem_vectorCandidates candidateMember
  exact ⟨rowMem, chunk, chunkMem, chunkName.trans same, stored⟩

variable (lib) in
private theorem nodesByVectorSimilarity_complete (embedding : Embedding)
    (fits : db.retrievalChunks.length ≤ limit)
    (rowMem : row ∈ db.nodes) (embedded : Embedded db row) :
    ∃ hit ∈ nodesByVectorSimilarity lib db embedding limit, hit.row = row := by
  obtain ⟨chunk, chunkMem, same, stored⟩ := embedded
  obtain ⟨blob, stored⟩ := Option.isSome_iff_exists.mp stored
  have scored : (row.qualifiedName, lib.cosineSimilarity embedding blob) ∈ vectorCandidates lib db embedding limit := by
    unfold vectorCandidates
    rw [take_of_length_le]
    · apply (mem_insertionSort _).mpr
      exact mem_filterMap.mpr ⟨chunk, chunkMem, by rw [stored, same]; rfl⟩
    · rw [length_insertionSort]
      exact (length_filterMap_le _ _).trans fits
  have fetched : row ∈ nodesByQualifiedNames db ((vectorCandidates lib db embedding limit).map
    Prod.fst) := mem_filter.mpr ⟨rowMem, decide_eq_true (mem_map_of_mem scored)⟩
  exact ⟨_, mem_byScore.mpr (mem_map_of_mem fetched), rfl⟩

/-- The merged hits are the rows found, each name once. -/
structure Gathers (found : List NodeRow) (merged : List (ScoredNode Score)) : Prop where
  rows : ∀ hit ∈ merged, hit.row ∈ found
  names : ∀ row ∈ found, row.qualifiedName ∈ merged.map ScoredNode.qualifiedName
  distinct : (merged.map ScoredNode.qualifiedName).Nodup

variable {found : List NodeRow} {merged : List (ScoredNode Score)}

theorem Gathers.of_perm {sorted : List (ScoredNode Score)} (gathers : Gathers found merged)
    (same : (sorted.map ScoredNode.row).Perm (merged.map ScoredNode.row)) :
    Gathers found sorted := by
  have names : (sorted.map ScoredNode.qualifiedName).Perm (merged.map ScoredNode.qualifiedName) := by
    have mapped := same.map NodeRow.qualifiedName
    rw [map_map, map_map] at mapped
    exact mapped
  constructor
  · intro hit mem
    obtain ⟨other, otherMem, sameRow⟩ := mem_map.mp (same.mem_iff.mp (mem_map_of_mem mem))
    exact sameRow ▸ gathers.rows other otherMem
  · intro row mem
    exact names.mem_iff.mpr (gathers.names row mem)
  · exact names.nodup_iff.mpr gathers.distinct

theorem Gathers.of_mem_iff {other : List NodeRow} (gathers : Gathers found merged)
    (same : ∀ row, row ∈ other ↔ row ∈ found) : Gathers other merged :=
  ⟨fun hit mem => (same hit.row).mpr (gathers.rows hit mem),
    fun row mem => gathers.names row ((same row).mp mem), gathers.distinct⟩

theorem Gathers.trans {first inner : List NodeRow} {middle : List (ScoredNode Score)}
    (gathers : Gathers (first ++ middle.map ScoredNode.row) merged)
    (gathered : Gathers inner middle) : Gathers (first ++ inner) merged := by
  constructor
  · intro hit mem
    rcases mem_append.mp (gathers.rows hit mem) with before | later
    · exact mem_append_left _ before
    · obtain ⟨other, otherMem, same⟩ := mem_map.mp later
      exact mem_append_right _ (same ▸ gathered.rows other otherMem)
  · intro row mem
    rcases mem_append.mp mem with before | later
    · exact gathers.names row (mem_append_left _ before)
    · obtain ⟨other, otherMem, same⟩ := mem_map.mp (gathered.names row later)
      have named := gathers.names other.row (mem_append_right _ (mem_map_of_mem otherMem))
      exact same ▸ named
  · exact gathers.distinct

theorem mergeScoredNodes_gathers (primary secondary : List (ScoredNode Score)) :
    Gathers (primary.map ScoredNode.row ++ secondary.map ScoredNode.row)
      (mergeScoredNodes lib primary secondary) := by
  have keeps : ∀ result old : ScoredNode Score, old.qualifiedName = (id result).qualifiedName →
    (if lib.exceeds result.score old.score then result else old).qualifiedName =
    old.qualifiedName := by
    intro result old same
    split
    · exact same.symm
    · rfl
  rw [← map_append]
  constructor
  · apply mergeAll_all
    · intro row mem
      cases mem
    · intro result mem
      exact mem_map_of_mem mem
    · intro result mem old origin
      split
      · exact mem_map_of_mem mem
      · exact origin
  · intro row mem
    obtain ⟨result, resultMem, rfl⟩ := mem_map.mp mem
    exact (mem_keys_mergeAll keeps).mpr (.inr ⟨result, resultMem, rfl⟩)
  · exact keys_nodup_mergeAll keeps _ nodup_nil

variable (lib) in
theorem fuseRanks_gathers (k : Nat)
    (ranked : List (ScoredNode Score)) (gathers : Gathers found merged) :
    Gathers (found ++ ranked.map ScoredNode.row) (fuseRanks lib k ranked merged) := by
  have keeps : ∀ (entry : ScoredNode Score × Nat) (old : ScoredNode Score),
      old.qualifiedName = ScoredNode.qualifiedName { entry.1 with
        score := lib.add (lib.whole 0) (lib.rankContribution k entry.2) } →
      ScoredNode.qualifiedName { old with
        score := lib.add old.score (lib.rankContribution k entry.2) } =
        old.qualifiedName := fun _ _ _ => rfl
  constructor
  · apply mergeAll_all
    · intro hit mem
      exact mem_append_left _ (gathers.rows hit mem)
    · intro entry mem
      have origin := fst_mem_of_mem_zipIdx mem
      exact mem_append_right _ (mem_map.mpr ⟨entry.1, origin, rfl⟩)
    · intro entry _ old origin
      exact origin
  · intro row mem
    apply (mem_keys_mergeAll keeps).mpr
    rcases mem_append.mp mem with before | here
    · exact .inl (gathers.names row before)
    · obtain ⟨result, resultMem, rfl⟩ := mem_map.mp here
      obtain ⟨rank, bound, same⟩ := mem_iff_getElem.mp resultMem
      exact .inr ⟨(result, rank), by
        rw [mk_mem_zipIdx_iff_getElem?, getElem?_eq_getElem bound, same], rfl⟩
  · exact keys_nodup_mergeAll keeps _ gathers.distinct

variable (lib) in
theorem sortScoredNodes_perm (results : List (ScoredNode Score)) :
    (sortScoredNodes lib results).Perm results := perm_insertionSort _ _

theorem applyRankingBoosts_rows (recent : List String) (results : List (ScoredNode Score)) :
    ((applyRankingBoosts lib query recent results).map ScoredNode.row).Perm
      (results.map ScoredNode.row) := by
  unfold applyRankingBoosts
  have sorted := (sortScoredNodes_perm lib (results.map fun result => { result with
    score := lib.add result.score
      (lib.whole (rankingBoost lib query recent result.node)) })).map ScoredNode.row
  rw [map_map] at sorted
  exact sorted

private theorem reciprocalRankFusion_gathers (fts vector : List (ScoredNode Score)) (k : Nat) :
    Gathers (fts.map ScoredNode.row ++ vector.map ScoredNode.row)
      (reciprocalRankFusion lib fts vector k) := by
  have start : Gathers ([] : List NodeRow) ([] : List (ScoredNode Score)) := ⟨by simp, by simp, nodup_nil⟩
  have fused := fuseRanks_gathers lib k vector (fuseRanks_gathers lib k fts start)
  rw [nil_append] at fused
  exact fused.of_perm ((sortScoredNodes_perm lib _).map _)

theorem maybeExcludeFileNodes_length (results : List (ScoredNode Score))
    (includeFiles : Bool) (limit : Nat) :
    (maybeExcludeFileNodes results includeFiles limit).length ≤ limit := length_take_le _ _

theorem mem_maybeExcludeFileNodes
    (mem : hit ∈ maybeExcludeFileNodes results query.includeFiles limit) :
    hit ∈ results ∧ Listed query hit.row := by
  have kept := mem_of_mem_take mem
  split at kept
  · next included => exact ⟨kept, .inl included⟩
  · obtain ⟨resultMem, notFile⟩ := mem_filter.mp kept
    exact ⟨resultMem, .inr (rowToNode_kind_ne_file.mp (of_decide_eq_true notFile))⟩

theorem mem_maybeExcludeFileNodes_of_mem (fits : results.length ≤ limit)
    (mem : hit ∈ results) (listed : Listed query hit.row) :
    hit ∈ maybeExcludeFileNodes results query.includeFiles limit := by
  unfold maybeExcludeFileNodes
  split
  · rw [take_of_length_le fits]
    exact mem
  · next excluded =>
      rw [take_of_length_le ((length_filter_le _ _).trans fits)]
      have notFile := listed.resolve_left excluded
      exact mem_filter.mpr ⟨mem, decide_eq_true (rowToNode_kind_ne_file.mpr notFile)⟩

theorem Gathers.returned (gathers : Gathers found merged) (stored : ∀ row ∈ found, row ∈ db.nodes)
    (names : (db.nodes.map NodeRow.qualifiedName).Nodup) (fits : db.nodes.length ≤ query.limit)
    (mem : row ∈ found) (listed : Listed query row) :
    ∃ hit ∈ maybeExcludeFileNodes merged query.includeFiles query.limit, hit.row = row := by
  obtain ⟨hit, hitMember, sameName⟩ := mem_map.mp (gathers.names row mem)
  have sameRow : hit.row = row := inj_on_of_nodup_map names (stored _ (gathers.rows hit hitMember)) (stored row mem) sameName
  have subset : merged.map ScoredNode.qualifiedName ⊆ db.nodes.map NodeRow.qualifiedName := by
    intro name nameMem
    obtain ⟨other, otherMem, rfl⟩ := mem_map.mp nameMem
    exact mem_map_of_mem (stored _ (gathers.rows other otherMem))
  have bounded := (subperm_of_subset gathers.distinct subset).length_le
  rw [length_map, length_map] at bounded
  exact ⟨hit, mem_maybeExcludeFileNodes_of_mem (bounded.trans fits) hitMember (sameRow.symm ▸ listed), sameRow⟩

/-! ## The text path -/

variable {relaxed : List (ScoredNode Score)}

theorem relaxedHits_ok (answered : relaxedHits lib db query = .ok relaxed) : (relaxes lib query =
    true ∧ ∃ results, searchStore lib db (relaxedQuery lib query) = .ok results ∧
      relaxed = results.filter fun result => isFuzzyHit lib query result.row) ∨
    relaxes lib query = false ∧ relaxed = [] := by
  unfold relaxedHits at answered
  cases relaxing : relaxes lib query with
  | false =>
    rw [if_neg (by simp [relaxing])] at answered
    cases answered
    exact .inr ⟨rfl, rfl⟩
  | true =>
    rw [if_pos relaxing] at answered
    obtain ⟨results, searched, answered⟩ := Program.bind_eq_ok answered
    cases answered
    exact .inl ⟨rfl, results, searched, rfl⟩

private theorem relaxedHits_sound (answered : relaxedHits lib db query = .ok relaxed)
    (mem : hit ∈ relaxed) :
    hit.row ∈ db.nodes ∧ relaxes lib query = true ∧ FoundInStore lib db (relaxedQuery lib query)
      hit.row ∧ isFuzzyHit lib query hit.row = true := by
  rcases relaxedHits_ok answered with ⟨relaxing, results, searched, rfl⟩ | ⟨_, rfl⟩
  · obtain ⟨resultMem, close⟩ := mem_filter.mp mem
    obtain ⟨stored, inStore⟩ := searchStore_sound searched resultMem
    exact ⟨stored, relaxing, inStore, close⟩
  · cases mem

theorem searchText_ok (flat : query.graphExpand = false)
    (answered : searchText lib db query = .ok hits) :
    ∃ fts relaxed boosted, searchStore lib db { query with text := buildFtsQuery lib query.text } =
      .ok fts ∧ relaxedHits lib db query = .ok relaxed ∧
      Gathers ((exactSymbolHits lib db query).map ScoredNode.row ++
        (fts.map ScoredNode.row ++ relaxed.map ScoredNode.row)) boosted ∧
      hits = maybeExcludeFileNodes boosted query.includeFiles query.limit := by
  unfold searchText at answered
  obtain ⟨fts, searched, answered⟩ := Program.bind_eq_ok answered
  obtain ⟨relaxed, loosened, answered⟩ := Program.bind_eq_ok answered
  simp only [flat, Bool.false_and, Bool.false_eq_true, if_false] at answered
  cases answered
  refine ⟨fts, relaxed, _, searched, loosened, ?_, rfl⟩
  apply Gathers.of_perm _ (applyRankingBoosts_rows _ _)
  rcases relaxedHits_ok loosened with ⟨relaxing, _⟩ | ⟨plain, rfl⟩
  · rw [if_pos relaxing]
    exact (mergeScoredNodes_gathers _ _).trans (mergeScoredNodes_gathers _ _)
  · rw [if_neg (by simp [plain]), map_nil, append_nil]
    exact mergeScoredNodes_gathers _ _

theorem textSources_sound (searched : searchStore lib db
      { query with text := buildFtsQuery lib query.text } = .ok fts)
    (loosened : relaxedHits lib db query = .ok relaxed) :
    ∀ row ∈ (exactSymbolHits lib db query).map ScoredNode.row ++ (fts.map ScoredNode.row ++
      relaxed.map ScoredNode.row), row ∈ db.nodes ∧ Candidate lib db query false row := by
  intro row found
  rcases mem_append.mp found with byName | found
  · obtain ⟨origin, originMem, rfl⟩ := mem_map.mp byName
    obtain ⟨stored, _, named⟩ := exactSymbolHits_sound originMem
    exact ⟨stored, .exact named⟩
  · rcases mem_append.mp found with byText | byPrefix
    · obtain ⟨origin, originMem, rfl⟩ := mem_map.mp byText
      obtain ⟨stored, inStore⟩ := searchStore_sound searched originMem
      exact ⟨stored, .text inStore⟩
    · obtain ⟨origin, originMem, rfl⟩ := mem_map.mp byPrefix
      obtain ⟨stored, relaxing, inStore, close⟩ := relaxedHits_sound loosened originMem
      exact ⟨stored, .relaxed relaxing inStore close⟩

private theorem searchText_sound (flat : query.graphExpand = false)
    (answered : searchText lib db query = .ok hits) (mem : hit ∈ hits) :
    hit.row ∈ db.nodes ∧ Listed query hit.row ∧ Candidate lib db query false hit.row := by
  obtain ⟨fts, relaxed, boosted, searched, loosened, gathers, rfl⟩ := searchText_ok flat answered
  obtain ⟨ranked, listed⟩ := mem_maybeExcludeFileNodes mem
  obtain ⟨stored, candidate⟩ := textSources_sound searched loosened _ (gathers.rows hit ranked)
  exact ⟨stored, listed, candidate⟩

structure Roomy (db : Db) (query : SearchQuery) : Prop where
  names : (db.nodes.map NodeRow.qualifiedName).Nodup
  ids : (db.nodes.map NodeRow.id).Nodup
  /-- A `usize`. -/
  word : query.limit < 2 ^ 64
  nodes : db.nodes.length ≤ query.limit ∧ db.nodes.length ≤ query.topKFts ∧ db.nodes.length ≤ query.topKVector
  documents : db.nodesFts.length ≤ query.limit ∧ db.nodesFts.length ≤ query.topKFts
  chunks : db.retrievalChunks.length ≤ query.topKVector

variable (lib) in
private theorem limit_le_relaxedQuery (word : query.limit < 2 ^ 64) :
    query.limit ≤ (relaxedQuery lib query).limit := by
  simp only [relaxedQuery]
  omega

private theorem textSources_complete (roomy : Roomy db query) (searched : searchStore lib db
      { query with text := buildFtsQuery lib query.text } = .ok fts)
    (loosened : relaxedHits lib db query = .ok relaxed) (stored : row ∈ db.nodes)
    (listed : Listed query row) (candidate : Candidate lib db query false row) :
    row ∈ (exactSymbolHits lib db query).map ScoredNode.row ++ (fts.map ScoredNode.row ++ relaxed.map ScoredNode.row) := by
  simp only [mem_append, mem_map]
  cases candidate with
  | exact named => exact .inl (exactSymbolHits_complete roomy.names roomy.nodes.1 stored listed named)
  | text inStore => exact .inr (.inl (searchStore_complete searched roomy.ids roomy.nodes.1 roomy.documents.1 stored inStore))
  | relaxed relaxing inStore close =>
    rcases relaxedHits_ok loosened with ⟨_, results, searched, rfl⟩ | ⟨plain, _⟩
    · have wider := limit_le_relaxedQuery lib roomy.word
      obtain ⟨hit, mem, rfl⟩ := searchStore_complete searched roomy.ids (roomy.nodes.1.trans wider)
        (roomy.documents.1.trans wider) stored inStore
      exact .inr (.inr ⟨hit, mem_filter.mpr ⟨mem, close⟩, rfl⟩)
    · rw [relaxing] at plain
      cases plain

private theorem searchText_complete (roomy : Roomy db query) (flat : query.graphExpand = false)
    (answered : searchText lib db query = .ok hits) (stored : row ∈ db.nodes)
    (listed : Listed query row) (candidate : Candidate lib db query false row) :
    ∃ hit ∈ hits, hit.row = row := by
  obtain ⟨fts, relaxed, boosted, searched, loosened, gathers, rfl⟩ := searchText_ok flat answered
  have allStored := fun row found => (textSources_sound searched loosened row found).1
  exact gathers.returned allStored roomy.names roomy.nodes.1
    (textSources_complete roomy searched loosened stored listed candidate) listed

/-! ## The hybrid path -/

theorem searchHybrid_ok (answered : searchHybrid lib db query embedText = .ok hits) :
    ∃ fts embedding merged,
      searchStore lib db { query with
        text := buildFtsQuery lib query.text, limit := query.topKFts } = .ok fts ∧
      Gathers (fts.map ScoredNode.row ++
        (maybeExcludeFileNodes (nodesByVectorSimilarity lib db embedding query.topKVector)
        query.includeFiles query.topKVector).map ScoredNode.row) merged ∧
      hits = maybeExcludeFileNodes merged query.includeFiles query.limit := by
  unfold searchHybrid at answered
  obtain ⟨fts, searched, answered⟩ := Program.bind_eq_ok answered
  cases embedded : embedText query.text with
  | error msg =>
    rw [embedded] at answered
    cases answered
  | ok embedding =>
    rw [embedded] at answered
    cases answered
    refine ⟨fts, embedding, _, searched, ?_, rfl⟩
    apply (reciprocalRankFusion_gathers _ _ _).of_mem_iff
    intro row
    rw [mem_append, mem_append, (applyRankingBoosts_rows _ _).mem_iff]

theorem hybridSources_sound (embedding : Embedding)
    (searched : searchStore lib db { query with
      text := buildFtsQuery lib query.text, limit := query.topKFts } = .ok fts) :
    ∀ row ∈ fts.map ScoredNode.row ++ (maybeExcludeFileNodes (nodesByVectorSimilarity lib db
      embedding query.topKVector) query.includeFiles query.topKVector).map ScoredNode.row,
      row ∈ db.nodes ∧ Candidate lib db query true row := by
  intro row found
  rcases mem_append.mp found with byText | byVector
  · obtain ⟨origin, originMem, rfl⟩ := mem_map.mp byText
    obtain ⟨stored, inStore⟩ := searchStore_sound searched originMem
    exact ⟨stored, .text ⟨inStore.matchesText, inStore.passes⟩⟩
  · obtain ⟨origin, originMem, rfl⟩ := mem_map.mp byVector
    obtain ⟨stored, embedded⟩ := nodesByVectorSimilarity_sound (mem_maybeExcludeFileNodes originMem).1
    exact ⟨stored, .vector embedded⟩

private theorem searchHybrid_sound (answered : searchHybrid lib db query embedText = .ok hits)
    (mem : hit ∈ hits) :
    hit.row ∈ db.nodes ∧ Listed query hit.row ∧ Candidate lib db query true hit.row := by
  obtain ⟨fts, embedding, merged, searched, gathers, rfl⟩ := searchHybrid_ok answered
  obtain ⟨ranked, listed⟩ := mem_maybeExcludeFileNodes mem
  obtain ⟨stored, candidate⟩ := hybridSources_sound embedding searched _ (gathers.rows hit ranked)
  exact ⟨stored, listed, candidate⟩

variable (lib db) in
private theorem nodesByVectorSimilarity_length (embedding : Embedding) (limit : Nat) :
    (nodesByVectorSimilarity lib db embedding limit).length ≤ db.nodes.length := by
  unfold nodesByVectorSimilarity byScore
  rw [length_insertionSort, length_map]
  exact length_filter_le _ _

private theorem searchHybrid_complete (roomy : Roomy db query)
    (answered : searchHybrid lib db query embedText = .ok hits) (stored : row ∈ db.nodes)
    (listed : Listed query row) (candidate : Candidate lib db query true row) :
    ∃ hit ∈ hits, hit.row = row := by
  obtain ⟨fts, embedding, merged, searched, gathers, rfl⟩ := searchHybrid_ok answered
  have allStored := fun row found => (hybridSources_sound embedding searched row found).1
  apply gathers.returned allStored roomy.names roomy.nodes.1 _ listed
  simp only [mem_append, mem_map]
  cases candidate with
  | text inStore =>
    exact .inl (searchStore_complete searched roomy.ids roomy.nodes.2.1 roomy.documents.2 stored
      ⟨inStore.matchesText, inStore.passes⟩)
  | vector embedded =>
    obtain ⟨hit, mem, rfl⟩ := nodesByVectorSimilarity_complete lib embedding roomy.chunks stored embedded
    have fits := (nodesByVectorSimilarity_length lib db embedding query.topKVector).trans roomy.nodes.2.2
    exact .inr ⟨hit, mem_maybeExcludeFileNodes_of_mem fits mem listed, rfl⟩

/-- The row satisfies the filters that the paths able to fetch it leave out. The SQL
leaves out the case of the subpath's letters only. -/
structure Covered (lib : Library Score Embedding)
    (db : Db) (query : SearchQuery) (hybrid : Bool) (row : NodeRow) : Prop where
  exact : hybrid = false → NamedExactly query row → HonoursColumns lib query row ∧ UnderSubpath query row
  text : FoundInStore lib db { query with text := buildFtsQuery lib query.text } row → UnderSubpath query row
  relaxed : hybrid = false → relaxes lib query = true → FoundInStore lib db (relaxedQuery lib query)
    row → isFuzzyHit lib query row = true → UnderSubpath query row
  vector : hybrid = true → Embedded db row → HonoursColumns lib query row ∧ UnderSubpath query row

def FiltersCovered (lib : Library Score Embedding) (db : Db) (query : SearchQuery)
    (hybrid : Bool) : Prop := ∀ row ∈ db.nodes, Listed query row → Covered lib db query hybrid row
def takesHybridPath (query : SearchQuery) (embedText : Option (String → Except String Embedding)) :
    Bool := query.hybrid && embedText.isSome

private theorem compileRegex_some {pattern : String}
    {regex : Option (String → Bool)} (compiled : compileRegex lib (some pattern) = .ok regex) :
    ∃ isMatch, lib.compileRegex pattern = .ok isMatch ∧ regex = some isMatch := by
  simp only [compileRegex] at compiled
  cases parsed : lib.compileRegex pattern with
  | error msg =>
    rw [parsed] at compiled
    cases compiled
  | ok isMatch =>
    rw [parsed] at compiled
    cases compiled
    exact ⟨isMatch, rfl, rfl⟩

theorem FoundInStore.honoursColumns (found : FoundInStore lib db query row) :
    HonoursColumns lib query row := by
  obtain ⟨regex, compiled, passes⟩ := found.passes
  simp only [passesFilters, Bool.and_eq_true] at passes
  obtain ⟨⟨⟨⟨⟨⟨repo, kind⟩, language⟩, filePath⟩, isTest⟩, _⟩, regexPasses⟩ := passes
  constructor
  · intro given
    simpa [given] using repo
  · intro wanted asked
    simpa [asked] using kind
  · intro wanted asked
    simpa [asked] using language
  · intro wanted asked
    simpa [asked] using filePath
  · intro wanted asked
    simpa [asked] using isTest
  · intro pattern asked
    rw [asked] at compiled
    obtain ⟨isMatch, parsed, rfl⟩ := compileRegex_some compiled
    exact ⟨isMatch, parsed, by simpa using regexPasses⟩

theorem HonoursColumns.of_text {text : String}
    (honours : HonoursColumns lib { query with text, limit } row) : HonoursColumns lib query row :=
  ⟨honours.repoIds, honours.kind, honours.language, honours.filePath, honours.isTest, honours.regex⟩

theorem Covered.honours (covered : Covered lib db query hybrid row) (listed : Listed query row)
    (candidate : Candidate lib db query hybrid row) : Honours lib query row := by
  cases candidate with
  | exact named =>
    obtain ⟨columns, subpath⟩ := covered.exact rfl named
    exact ⟨columns, subpath, listed⟩
  | text inStore => exact ⟨inStore.honoursColumns.of_text, covered.text inStore, listed⟩
  | relaxed relaxing inStore close => exact ⟨inStore.honoursColumns.of_text, covered.relaxed rfl relaxing inStore close, listed⟩
  | vector embedded =>
    obtain ⟨columns, subpath⟩ := covered.vector rfl embedded
    exact ⟨columns, subpath, listed⟩

theorem Covered.of_honours (honours : Candidate lib db query hybrid row → Honours lib query row) :
    Covered lib db query hybrid row := by
  constructor
  · rintro rfl named
    have all := honours (.exact named)
    exact ⟨all.toHonoursColumns, all.subpath⟩
  · intro inStore
    exact (honours (.text inStore)).subpath
  · rintro rfl relaxing inStore close
    exact (honours (.relaxed relaxing inStore close)).subpath
  · rintro rfl embedded
    have all := honours (.vector embedded)
    exact ⟨all.toHonoursColumns, all.subpath⟩

theorem searchWithEmbedding_paths (lib : Library Score Embedding)
    (db : Db) (query : SearchQuery) (embedText : Option (String → Except String Embedding)) :
    (takesHybridPath query embedText = true ∧ ∃ embed, searchWithEmbedding lib db query embedText =
      searchHybrid lib db query embed) ∨
    takesHybridPath query embedText = false ∧ searchWithEmbedding lib db query embedText = searchText lib db query := by
  unfold takesHybridPath searchWithEmbedding
  cases query.hybrid with
  | false => exact .inr ⟨rfl, rfl⟩
  | true =>
    cases embedText with
    | none => exact .inr ⟨rfl, rfl⟩
    | some embed => exact .inl ⟨rfl, embed, rfl⟩

private theorem searchWithEmbedding_sound {embedText : Option (String → Except String Embedding)}
    (flat : query.graphExpand = false)
    (answered : searchWithEmbedding lib db query embedText = .ok hits) (mem : hit ∈ hits) :
    hit.row ∈ db.nodes ∧ Listed query hit.row ∧ Candidate lib db query (takesHybridPath query embedText) hit.row := by
  rcases searchWithEmbedding_paths lib db query embedText with ⟨path, embed, runs⟩ | ⟨path, runs⟩
  · rw [path]
    exact searchHybrid_sound (runs ▸ answered) mem
  · rw [path]
    exact searchText_sound flat (runs ▸ answered) mem

private theorem searchWithEmbedding_complete {embedText : Option (String → Except String Embedding)}
    (roomy : Roomy db query) (flat : query.graphExpand = false)
    (answered : searchWithEmbedding lib db query embedText = .ok hits) (stored : row ∈ db.nodes)
    (listed : Listed query row)
    (candidate : Candidate lib db query (takesHybridPath query embedText) row) :
    ∃ hit ∈ hits, hit.row = row := by
  rcases searchWithEmbedding_paths lib db query embedText with ⟨path, embed, runs⟩ | ⟨path, runs⟩
  · rw [path] at candidate
    exact searchHybrid_complete roomy (runs ▸ answered) stored listed candidate
  · rw [path] at candidate
    exact searchText_complete roomy flat (runs ▸ answered) stored listed candidate

private theorem searchWithEmbedding_length {embedText : Option (String → Except String Embedding)} (flat :
    query.graphExpand = false) (answered : searchWithEmbedding lib db query embedText = .ok hits) :
    hits.length ≤ query.limit := by
  rcases searchWithEmbedding_paths lib db query embedText with ⟨_, embed, runs⟩ | ⟨_, runs⟩
  · obtain ⟨_, _, merged, _, _, rfl⟩ := searchHybrid_ok (runs ▸ answered)
    exact maybeExcludeFileNodes_length _ _ _
  · obtain ⟨_, _, boosted, _, _, _, rfl⟩ := searchText_ok flat (runs ▸ answered)
    exact maybeExcludeFileNodes_length _ _ _

/-- The limit always holds. The filters hold where every row satisfies those that the
paths able to fetch it leave out, and, as long as nothing is cut off or displaced by a
row of the same name, only there. -/
theorem searchWithEmbedding_filters (lib : Library Score Embedding)
    (db : Db) (query : SearchQuery) (embedText : Option (String → Except String Embedding))
    (flat : query.graphExpand = false) (hits : List (ScoredNode Score))
    (answered : searchWithEmbedding lib db query embedText = .ok hits) :
    hits.length ≤ query.limit ∧
    (FiltersCovered lib db query (takesHybridPath query embedText) → ∀ hit ∈ hits, Honours lib query hit.row) ∧
    (Roomy db query → (∀ hit ∈ hits, Honours lib query hit.row) →
      FiltersCovered lib db query (takesHybridPath query embedText)) := by
  refine ⟨searchWithEmbedding_length flat answered, ?_, ?_⟩
  · intro covered hit mem
    obtain ⟨stored, listed, candidate⟩ := searchWithEmbedding_sound flat answered mem
    exact (covered hit.row stored listed).honours listed candidate
  · intro roomy honours row stored listed
    apply Covered.of_honours
    intro candidate
    obtain ⟨hit, mem, rfl⟩ := searchWithEmbedding_complete roomy flat answered stored listed candidate
    exact honours hit mem

end

/-- Whole numbers for scores, and an index that matches a name it is asked for. -/
def sampleLibrary : Library Nat Unit where
  toLowercase := map Char.toLower
  isUppercase := Char.isUpper
  isLowercase := Char.isLower
  levenshtein := fun left right => max left.length right.length
  compileRegex := fun _ => .error "unsupported"
  whole := id
  add := fun left right => left + right
  exceeds := fun left right => decide (right < left)
  ftsMatches := fun query document => decide (document.name = query)
  negatedBm25 := fun _ _ _ => 1
  cosineSimilarity := fun _ _ => 0
  rankContribution := fun k rank => 1000 / (k + rank + 1)
  hopScore := fun seeds hop => seeds.foldl max 1 / (hop + 1)
  recentlyIndexedFiles := fun db count => (db.files.map FileRow.path).take count

def greetRow (id : Nat) (repo : String) : NodeRow where
  id := id
  kind := "function"
  name := "greet"
  qualifiedName := repo ++ "/lib.rs::fn::greet"
  filePath := repo ++ "/lib.rs"
  lineStart := 1
  lineEnd := 3
  language := some "rust"
  parentName := none
  params := none
  returnType := none
  modifiers := none
  isTest := false
  fileHash := none
  extraJson := .null
  sourceRepoId := repo

def greetStore (rows : List NodeRow) : Db :=
  { Db.empty with nodes := rows, nodesFts := rows.map NodeRow.document }

def greetQuery : SearchQuery := { text := "greet", repoIds := ["app"] }

private theorem greetStore_covered : FiltersCovered sampleLibrary (greetStore [greetRow 1 "app"]) greetQuery
    (takesHybridPath greetQuery (none : Option (String → Except String Unit))) := by
  intro row stored _
  cases mem_singleton.mp stored
  apply Covered.of_honours
  intro _
  refine ⟨⟨fun _ => mem_singleton_self _, ?_, ?_, ?_, ?_, ?_⟩, ?_, .inr (by decide)⟩
  all_goals
    intro wanted asked
    cases asked

theorem searchWithEmbedding_filters_greet :
    searchWithEmbedding sampleLibrary (greetStore [greetRow 1 "app"]) greetQuery none =
      .ok [{ row := greetRow 1 "app", score := 103 }] ∧
      Honours sampleLibrary greetQuery (greetRow 1 "app") := by
  have answered : searchWithEmbedding sampleLibrary (greetStore [greetRow 1 "app"]) greetQuery
    none = .ok [{ row := greetRow 1 "app", score := 103 }] := by decide +kernel
  have filters := searchWithEmbedding_filters sampleLibrary _ greetQuery none rfl _ answered
  exact ⟨answered, filters.2.1 greetStore_covered _ (mem_singleton_self _)⟩

/-- The exact lookup by name answers with a row of a repository the query excludes. -/
theorem searchWithEmbedding_leaks_foreign_repo :
    ¬ ∀ (db : Db) (query : SearchQuery) (hits : List (ScoredNode Nat)), query.graphExpand = false →
      searchWithEmbedding sampleLibrary db query none = .ok hits →
      (∀ hit ∈ hits, Honours sampleLibrary query hit.row) ∧ hits.length ≤ query.limit := by
  intro honoured
  have answered : searchWithEmbedding sampleLibrary (greetStore [greetRow 1 "app", greetRow 2 "vendor"]) greetQuery none =
      .ok [{ row := greetRow 1 "app", score := 103 }, { row := greetRow 2 "vendor", score := 103 }] := by
    decide +kernel
  have foreign := (honoured _ greetQuery _ rfl answered).1
    { row := greetRow 2 "vendor", score := 103 } (by simp)
  have excluded : "vendor" ∈ ["app"] := foreign.repoIds (by decide)
  exact absurd excluded (by decide)

end Atlas.Search
