import Atlas.Content.Artifact
import Atlas.Content.ChunkBounds

/-! Reading a saved artifact, and following its continuation offsets page by page. -/
namespace Atlas.Mcp
open List
open Content (byteLength join byteLength_join)
open Content.Artifact (ChunkResult)
open Refactor (Text)

structure SavedContext where
  content : Text
  contentFormat : String
  (byteCount chunkCount chunkOffset : Nat)
  lastIncludedChunk : Option Nat
  lastIncludedChunkId : Option String
  returnedChunkIds : List String
  nextChunkOffset : Option Nat
  nextChunkId : Option String
  truncated : Bool

/-- The chunks that a response includes, and the first one that did not fit. -/
def includeChunks (maxBytes : Nat) : Nat → List ChunkResult → List ChunkResult × Option ChunkResult
  | _, [] => ([], none)
  | bytesUsed, chunk :: rest =>
    if maxBytes < bytesUsed + byteLength chunk.content then ([], some chunk)
    else
      let (included, next) := includeChunks maxBytes (bytesUsed + byteLength chunk.content) rest
      (chunk :: included, next)

def readSavedContext (allChunks : List ChunkResult) (chunkOffset maxBytes : Nat) : SavedContext :=
  let remaining := allChunks.filter fun chunk => decide (chunkOffset ≤ chunk.chunkIndex)
  let (included, next) := includeChunks maxBytes 0 remaining
  { content := join (included.map ChunkResult.content)
    contentFormat := (allChunks.head?.map ChunkResult.contentType).getD "text/plain"
    byteCount := (remaining.map fun chunk => byteLength chunk.content).sum
    chunkCount := allChunks.length
    chunkOffset := chunkOffset
    lastIncludedChunk := included.getLast?.map ChunkResult.chunkIndex
    lastIncludedChunkId := included.getLast?.map ChunkResult.chunkId
    returnedChunkIds := included.map ChunkResult.chunkId
    nextChunkOffset := next.map ChunkResult.chunkIndex
    nextChunkId := next.map ChunkResult.chunkId
    truncated := next.isSome }

/-- A caller that follows `next_chunk_offset` for at most `calls` calls. -/
def followOffsets (allChunks : List ChunkResult) (maxBytes : Nat) :
    Nat → Nat → Option (List SavedContext)
  | 0, _ => none
  | calls + 1, chunkOffset =>
    let response := readSavedContext allChunks chunkOffset maxBytes
    match response.nextChunkOffset with
    | none => some [response]
    | some next => (followOffsets allChunks maxBytes calls next).map (response :: ·)

/-- The pages hold every chunk once and in order, no page over the limit. -/
structure Delivers (allChunks : List ChunkResult)
    (maxBytes : Nat) (responses : List SavedContext) : Prop where
  everyChunk : ∃ pages : List (List ChunkResult), pages.flatten = allChunks ∧
    responses.map SavedContext.content = pages.map fun page => join (page.map ChunkResult.content)
  within : ∀ response ∈ responses, byteLength response.content ≤ maxBytes

def Readable (allChunks : List ChunkResult) (maxBytes : Nat) : Prop :=
  ∃ calls responses, followOffsets allChunks maxBytes calls 0 = some responses ∧
    Delivers allChunks maxBytes responses
def totalBytes (chunks : List ChunkResult) : Nat :=
  (chunks.map fun chunk => byteLength chunk.content).sum

/-- Chunks cut where the next one would take the bytes of a page over the limit, each
page with something on it and within the limit once its line breaks are counted. -/
inductive Paged (maxBytes : Nat) : List ChunkResult → Prop where
  | last {page : List ChunkResult} (fits : byteLength (join (page.map ChunkResult.content)) ≤ maxBytes) : Paged maxBytes page
  | next {page : List ChunkResult} {first : ChunkResult} {rest : List ChunkResult} (filled :
    page ≠ []) (fits : byteLength (join (page.map ChunkResult.content)) ≤ maxBytes)
      (full : maxBytes < totalBytes page + byteLength first.content)
      (others : Paged maxBytes (first :: rest)) : Paged maxBytes (page ++ first :: rest)

section
variable {allChunks page rest : List ChunkResult} {maxBytes bytesUsed calls chunkOffset : Nat}
  {first : ChunkResult} {responses : List SavedContext}

theorem totalBytes_cons (chunk : ChunkResult) :
    totalBytes (chunk :: rest) = byteLength chunk.content + totalBytes rest := by
  rw [totalBytes, map_cons, sum_cons, totalBytes]

theorem totalBytes_le (page : List ChunkResult) :
    totalBytes page ≤ byteLength (join (page.map ChunkResult.content)) := by
  cases page with
  | nil => exact Nat.zero_le _
  | cons first rest =>
    have joined := byteLength_join ((first :: rest).map ChunkResult.content) (by simp)
    have shorter : ∀ chunks : List ChunkResult, totalBytes chunks ≤
      ((chunks.map ChunkResult.content).map fun line => byteLength line + 1).sum := by
      intro chunks
      induction chunks with
      | nil => exact le_rfl
      | cons chunk others ih =>
        rw [totalBytes_cons, map_cons, map_cons, sum_cons]
        omega
    have others := shorter rest
    rw [map_cons, map_cons, sum_cons] at joined
    rw [totalBytes_cons, map_cons]
    omega

theorem includeChunks_append (fits : bytesUsed + totalBytes page ≤ maxBytes) :
    includeChunks maxBytes bytesUsed (page ++ rest) =
      (page ++ (includeChunks maxBytes (bytesUsed + totalBytes page) rest).1,
        (includeChunks maxBytes (bytesUsed + totalBytes page) rest).2) := by
  induction page generalizing bytesUsed with
  | nil => rfl
  | cons chunk others ih =>
    rw [totalBytes_cons, ← Nat.add_assoc] at fits ⊢
    rw [cons_append, includeChunks, if_neg (by omega), ih fits]
    rfl

theorem includeChunks_spec (maxBytes bytesUsed : Nat) (chunks : List ChunkResult) : ∃ page rest,
    chunks = page ++ rest ∧ includeChunks maxBytes bytesUsed chunks = (page, rest.head?) ∧
      ∀ first ∈ rest.head?, maxBytes < bytesUsed + totalBytes page + byteLength first.content := by
  induction chunks generalizing bytesUsed with
  | nil => exact ⟨[], [], rfl, rfl, nofun⟩
  | cons chunk others ih =>
    rw [includeChunks]
    by_cases full : maxBytes < bytesUsed + byteLength chunk.content
    · rw [if_pos full]
      refine ⟨[], chunk :: others, rfl, rfl, ?_⟩
      rintro _ ⟨⟩
      exact full
    · obtain ⟨page, rest, split, included, excess⟩ := ih (bytesUsed + byteLength chunk.content)
      rw [if_neg full, included]
      refine ⟨chunk :: page, rest, by rw [split, cons_append], rfl, fun first isFirst => ?_⟩
      rw [totalBytes_cons, ← Nat.add_assoc]
      exact excess first isFirst

section
variable (sorted : (allChunks.map ChunkResult.chunkIndex).Pairwise (· < ·))
include sorted

/-- What is left from an offset on, when the page before it is taken away. -/
theorem remaining_next (remaining : allChunks.filter
    (fun chunk => decide (chunkOffset ≤ chunk.chunkIndex)) = page ++ first :: rest) :
    allChunks.filter (fun chunk => decide (first.chunkIndex ≤ chunk.chunkIndex)) = first :: rest := by
  have inside : first ∈ allChunks.filter fun chunk => decide (chunkOffset ≤ chunk.chunkIndex) := by
    rw [remaining]
    exact mem_append_right _ (.head _)
  have from_offset : chunkOffset ≤ first.chunkIndex := of_decide_eq_true (mem_filter.mp inside).2
  have again : allChunks.filter (fun chunk => decide (first.chunkIndex ≤ chunk.chunkIndex)) =
    (allChunks.filter fun chunk => decide (chunkOffset ≤ chunk.chunkIndex)).filter fun chunk =>
        decide (first.chunkIndex ≤ chunk.chunkIndex) := by
    rw [filter_filter]
    refine filter_congr fun chunk _ => ?_
    rw [← Bool.decide_and, decide_eq_decide]
    omega
  have ordered := (pairwise_map.mp sorted).sublist (filter_sublist (p := fun chunk => decide (chunkOffset ≤ chunk.chunkIndex)))
  rw [remaining] at ordered again
  obtain ⟨_, tailOrdered, before⟩ := pairwise_append.mp ordered
  have dropped : page.filter (fun chunk => decide (first.chunkIndex ≤ chunk.chunkIndex)) = [] := by
    refine filter_eq_nil_iff.mpr fun chunk mem => ?_
    have lower := before chunk mem first (.head _)
    rw [decide_eq_true_eq]
    omega
  have kept : (first :: rest).filter (fun chunk => decide (first.chunkIndex ≤ chunk.chunkIndex)) = first :: rest := by
    refine filter_eq_self.mpr fun chunk mem => decide_eq_true ?_
    rcases mem_cons.mp mem with rfl | later
    · exact le_rfl
    · exact ((pairwise_cons.mp tailOrdered).1 chunk later).le
  rw [again, filter_append, dropped, kept, nil_append]

theorem paged_of_followOffsets
    (remaining : allChunks.filter (fun chunk => decide (chunkOffset ≤ chunk.chunkIndex)) = rest)
    (followed : followOffsets allChunks maxBytes calls chunkOffset = some responses)
    (within : ∀ response ∈ responses, byteLength response.content ≤ maxBytes) : Paged maxBytes rest := by
  induction calls generalizing chunkOffset rest responses with
  | zero => cases followed
  | succ calls ih =>
    obtain ⟨page, tail, split, included, excess⟩ := includeChunks_spec maxBytes 0 rest
    simp only [followOffsets, readSavedContext, remaining, included] at followed
    cases tail with
    | nil =>
      cases followed
      rw [split, append_nil]
      exact .last (within _ (.head _))
    | cons first later =>
      obtain ⟨others, followedOn, rfl⟩ := Option.map_eq_some_iff.mp followed
      rw [split] at remaining ⊢
      have pagedOn := ih (remaining_next sorted remaining) followedOn fun response mem =>
        within response (.tail _ mem)
      cases page with
      | nil => exact pagedOn
      | cons chunk more =>
        refine .next (cons_ne_nil _ _) (within _ (.head _)) ?_ pagedOn
        rw [← Nat.zero_add (totalBytes _)]
        exact excess first rfl

theorem followOffsets_of_paged (paged : Paged maxBytes rest)
    (remaining : allChunks.filter (fun chunk => decide (chunkOffset ≤ chunk.chunkIndex)) = rest) :
    ∃ calls responses, followOffsets allChunks maxBytes calls chunkOffset = some responses ∧
      Delivers rest maxBytes responses := by
  induction paged generalizing chunkOffset with
  | @last page fits =>
    have included := @includeChunks_append page [] maxBytes 0 (by
      have := totalBytes_le page
      omega)
    rw [append_nil, includeChunks, append_nil] at included
    refine ⟨1, [readSavedContext allChunks chunkOffset maxBytes], ?_, ⟨[page], by simp, ?_⟩, ?_⟩
    · simp only [followOffsets, readSavedContext, remaining, included]
      rfl
    · simp only [readSavedContext, remaining, included, map_cons, map_nil]
    · intro response mem
      rw [mem_singleton.mp mem]
      simp only [readSavedContext, remaining, included]
      exact fits
  | @next page first rest filled fits full others ih =>
    obtain ⟨calls, responses, followed, ⟨pages, flat, contents⟩, within⟩ := ih (remaining_next sorted remaining)
    have included := @includeChunks_append page (first :: rest) maxBytes 0 (by
      have := totalBytes_le page
      omega)
    rw [includeChunks, Nat.zero_add, if_pos full, append_nil] at included
    refine ⟨calls + 1, readSavedContext allChunks chunkOffset maxBytes :: responses, ?_,
      ⟨page :: pages, by rw [flatten_cons, flat], ?_⟩, ?_⟩
    · have next : (readSavedContext allChunks chunkOffset maxBytes).nextChunkOffset = some first.chunkIndex := by
        simp only [readSavedContext, remaining, included]
        rfl
      rw [followOffsets]
      simp only [next, followed, Option.map_some]
    · rw [map_cons, map_cons, contents]
      simp only [readSavedContext, remaining, included]
    · intro response mem
      rcases mem_cons.mp mem with rfl | later
      · simp only [readSavedContext, remaining, included]
        exact fits
      · exact within response later

end
end

theorem readable_iff_paged {allChunks : List ChunkResult}
    {maxBytes : Nat} (sorted : (allChunks.map ChunkResult.chunkIndex).Pairwise (· < ·)) :
    Readable allChunks maxBytes ↔ Paged maxBytes allChunks := by
  have remaining : allChunks.filter (fun chunk => decide (0 ≤ chunk.chunkIndex)) = allChunks :=
    filter_eq_self.mpr fun chunk _ => decide_eq_true (Nat.zero_le _)
  constructor
  · rintro ⟨calls, responses, followed, delivers⟩
    exact paged_of_followOffsets sorted remaining followed delivers.within
  · exact fun paged => followOffsets_of_paged sorted paged remaining

def sampleChunk (index : Nat) (content : Text) : ChunkResult :=
  ⟨"report", "chunk", index, none, content, "text/plain"⟩

theorem readable_iff_paged_sample : Readable [sampleChunk 0 ['a'], sampleChunk 1 ['b']] 1 ↔
    Paged 1 [sampleChunk 0 ['a'], sampleChunk 1 ['b']] := readable_iff_paged (by decide)

/-- A chunk of two bytes, read with a limit of one: each response is empty and names the
same offset. -/
theorem long_chunk_unread : ¬ Readable [sampleChunk 0 ['a', 'b']] 1 := by
  rintro ⟨calls, responses, followed, -⟩
  have stuck : ∀ calls, followOffsets [sampleChunk 0 ['a', 'b']] 1 calls 0 = none := by
    intro calls
    induction calls with
    | zero => rfl
    | succ calls ih =>
      change (followOffsets [sampleChunk 0 ['a', 'b']] 1 calls 0).map _ = none
      rw [ih, Option.map_none]
  rw [stuck calls] at followed
  cases followed

end Atlas.Mcp
