import Atlas.Content.Chunking

/-! A window is as good as the byte before its end: the loop that looks for a character boundary
reads that byte, and stops one byte into the character it belongs to. -/
namespace Atlas.Content
open List Nat
open Refactor (Text)

@[simp] theorem byteLength_nil : byteLength [] = 0 := rfl
@[simp] theorem byteLength_append (left right : Text) :
    byteLength (left ++ right) = byteLength left + byteLength right := by
  simp [byteLength, continuations]

@[simp] theorem byteLength_cons (c : Char) (rest : Text) :
    byteLength (c :: rest) = c.utf8Size + byteLength rest := by
  have pos := c.utf8Size_pos
  simp only [byteLength, continuations, flatMap_cons, length_append, length_cons, length_replicate]
  omega

theorem dropBytes_append {done rest : Text} :
    dropBytes (byteLength done) (done ++ rest) = some rest := by
  induction done with
  | nil => cases rest <;> rfl
  | cons c done ih =>
    have pos := c.utf8Size_pos
    obtain ⟨count, size⟩ : ∃ count, byteLength (c :: done) = count + 1 :=
      ⟨c.utf8Size + byteLength done - 1, by rw [byteLength_cons]; omega⟩
    rw [byteLength_cons] at size
    rw [byteLength_cons, size, cons_append, dropBytes, if_pos (by omega), ← ih]
    congr 1
    omega

theorem takeBytes_append {piece rest : Text} :
    takeBytes (byteLength piece) (piece ++ rest) = some piece := by
  induction piece with
  | nil => cases rest <;> rfl
  | cons c piece ih =>
    have pos := c.utf8Size_pos
    obtain ⟨count, size⟩ : ∃ count, byteLength (c :: piece) = count + 1 :=
      ⟨c.utf8Size + byteLength piece - 1, by rw [byteLength_cons]; omega⟩
    rw [byteLength_cons] at size
    rw [byteLength_cons, size, cons_append, takeBytes, if_pos (by omega)]
    have left : count + 1 - c.utf8Size = byteLength piece := by omega
    rw [left, ih, Option.map_some]

theorem eq_append_of_takeBytes {count : Nat}
    {text piece : Text} (taken : takeBytes count text = some piece) :
    ∃ rest, text = piece ++ rest ∧ byteLength piece = count := by
  induction text generalizing count piece with
  | nil =>
    cases count with
    | zero =>
      cases taken
      exact ⟨[], rfl, rfl⟩
    | succ count => cases taken
  | cons c text ih =>
    cases count with
    | zero =>
      cases taken
      exact ⟨c :: text, rfl, rfl⟩
    | succ count =>
      unfold takeBytes at taken
      by_cases fits : c.utf8Size ≤ count + 1
      · rw [if_pos fits] at taken
        obtain ⟨others, later, rfl⟩ := Option.map_eq_some_iff.mp taken
        obtain ⟨rest, rfl, size⟩ := ih later
        refine ⟨rest, rfl, ?_⟩
        rw [byteLength_cons]
        omega
      · rw [if_neg fits] at taken
        cases taken

theorem slice_eq_some_iff {done rest piece : Text} {last : Nat} :
    slice (done ++ rest) (byteLength done) last = some piece ↔
      ∃ behind, rest = piece ++ behind ∧ byteLength piece = last - byteLength done := by
  rw [slice, dropBytes_append, Option.bind_some]
  constructor
  · exact eq_append_of_takeBytes
  · rintro ⟨behind, rfl, size⟩
    rw [← size, takeBytes_append]

theorem exists_char_at {text : Text} {position : Nat} (inside : position < byteLength text) :
    ∃ before c behind, text = before ++ c :: behind ∧
      byteLength before ≤ position ∧ position < byteLength before + c.utf8Size := by
  induction text generalizing position with
  | nil => cases inside
  | cons c text ih =>
    rw [byteLength_cons] at inside
    by_cases first : position < c.utf8Size
    · refine ⟨[], c, text, rfl, zero_le _, ?_⟩
      rwa [byteLength_nil, zero_add]
    · obtain ⟨before, other, behind, rfl, low, high⟩ := @ih (position - c.utf8Size) (by omega)
      refine ⟨c :: before, other, behind, rfl, ?_, ?_⟩ <;>
        rw [byteLength_cons] <;> omega

def AsciiAt (text : Text) (position : Nat) : Prop :=
  ∃ before c behind, text = before ++ c :: behind ∧ byteLength before = position ∧ c.utf8Size = 1

theorem continuations_append (left right : Text) :
    continuations (left ++ right) = continuations left ++ continuations right := flatMap_append

theorem continuations_at {before behind : Text}
    {c : Char} {offset : Nat} (inside : offset < c.utf8Size) :
    (continuations (before ++ c :: behind))[byteLength before + offset]? = some (decide (0 < offset)) := by
  have whole : (false :: replicate (c.utf8Size - 1) true).length = c.utf8Size := by
    rw [length_cons, length_replicate]
    omega
  have beyond : (continuations before).length ≤ byteLength before + offset := le_add_right _ _
  have left : byteLength before + offset - (continuations before).length = offset := Nat.add_sub_cancel_left _ _
  rw [continuations_append, getElem?_append_right beyond, left, continuations, flatMap_cons, getElem?_append_left (by omega)]
  cases offset with
  | zero => rfl
  | succ offset => simp [show offset < c.utf8Size - 1 by omega]

theorem snapUtf8_eq {before behind : Text}
    {c : Char} {offset : Nat} (inside : offset < c.utf8Size) :
    snapUtf8 (continuations (before ++ c :: behind)) (byteLength before + offset + 1) = byteLength before + 1 := by
  induction offset with
  | zero =>
    have lead := @continuations_at before behind c 0 inside
    rw [Nat.add_zero] at lead
    rw [Nat.add_zero, snapUtf8, lead, if_neg (by decide)]
  | succ offset ih =>
    rw [snapUtf8, if_pos]
    · exact ih (lt_of_succ_lt inside)
    · exact continuations_at inside

theorem boundary_outside {before behind left right : Text}
    {c : Char} (cut : before ++ c :: behind = left ++ right) :
    byteLength left ≤ byteLength before ∨ byteLength before + c.utf8Size ≤ byteLength left := by
  rcases append_eq_append_iff.mp cut with ⟨between, rfl, rest⟩ | ⟨between, rfl, rest⟩
  · cases between with
    | nil => exact .inl (by simp)
    | cons first others =>
      obtain ⟨rfl, _⟩ := cons.inj rest
      exact .inr (by simp only [byteLength_append, byteLength_cons]; omega)
  · exact .inl (by simp)

section
variable {done rest : Text} {last : Nat}

theorem slice_of_asciiAt (after : byteLength done < last)
    (ascii : AsciiAt (done ++ rest) (last - 1)) :
    snapUtf8 (continuations (done ++ rest)) last = last ∧
      ∃ piece behind, rest = piece ++ behind ∧ byteLength (done ++ piece) = last ∧
      slice (done ++ rest) (byteLength done) last = some piece := by
  obtain ⟨before, c, behind, split, size, narrow⟩ := ascii
  have snapped := @snapUtf8_eq before behind c 0 (by omega)
  rw [Nat.add_zero, size, ← split, Nat.sub_add_cancel (by omega)] at snapped
  refine ⟨snapped, ?_⟩
  have cut : done ++ rest = (before ++ [c]) ++ behind := by rw [split, append_assoc, singleton_append]
  have width : byteLength (before ++ [c]) = last := by
    rw [byteLength_append, byteLength_cons, byteLength_nil, size]
    omega
  rcases append_eq_append_iff.mp cut with ⟨piece, joined, rfl⟩ | ⟨between, joined, later⟩
  · refine ⟨piece, behind, rfl, by rw [← joined, width], slice_eq_some_iff.mpr ⟨behind, rfl, ?_⟩⟩
    rw [← width, joined, byteLength_append]
    omega
  · rw [joined, byteLength_append, width] at after
    omega

theorem slice_of_not_asciiAt (after : byteLength done < last)
    (inside : last ≤ byteLength (done ++ rest)) (wide : ¬ AsciiAt (done ++ rest) (last - 1)) :
    slice (done ++ rest) (byteLength done) (snapUtf8 (continuations (done ++ rest)) last) = none := by
  obtain ⟨before, c, behind, split, low, high⟩ := @exists_char_at (done ++ rest) (last - 1) (by omega)
  obtain ⟨offset, place⟩ : ∃ offset, last = byteLength before + offset + 1 := ⟨last - 1 - byteLength before, by omega⟩
  have snapped := @snapUtf8_eq before behind c offset (by omega)
  rw [← split, ← place] at snapped
  -- a character of one byte would have been an ASCII character at that place
  have broad : c.utf8Size ≠ 1 := fun narrow => wide ⟨before, c, behind, split, by omega, narrow⟩
  rw [snapped]
  refine Option.eq_none_iff_forall_ne_some.mpr fun piece found => ?_
  obtain ⟨others, rfl, size⟩ := slice_eq_some_iff.mp found
  have reached := boundary_outside split.symm
  have ended : byteLength (done ++ piece) ≤ byteLength before ∨ byteLength before + c.utf8Size ≤
    byteLength (done ++ piece) := boundary_outside (by rw [← split, append_assoc])
  rw [byteLength_append] at ended
  omega

theorem byteLength_eq_zero_iff {text : Text} : byteLength text = 0 ↔ text = [] := by
  cases text with
  | nil => simp
  | cons c text =>
    have pos := c.utf8Size_pos
    simp only [byteLength_cons, reduceCtorEq, iff_false]
    omega

variable {parent : Option Text} {contentType : String} {fuel part : Nat}

def windowEnd (done rest : Text) : Nat :=
  min (byteLength done + maxChunkBytes) (byteLength (done ++ rest))

theorem byteWindows_step (more : rest ≠ [])
    (ascii : AsciiAt (done ++ rest) (windowEnd done rest - 1)) :
    ∃ piece behind, rest = piece ++ behind ∧ byteLength (done ++ piece) = windowEnd done rest ∧
      byteWindows (done ++ rest) parent contentType (fuel + 1) (byteLength done) part = (byteWindows
        (done ++ rest) parent contentType fuel (byteLength (done ++ piece)) (part + 1)).map
          ({ title := partTitle parent part, content := piece, contentType } :: ·) := by
  have size : 0 < byteLength rest := pos_of_ne_zero (byteLength_eq_zero_iff.not.mpr more)
  have whole := byteLength_append done rest
  have after : byteLength done < windowEnd done rest := by
    simp only [windowEnd, maxChunkBytes]
    omega
  obtain ⟨snapped, piece, behind, split, width, cut⟩ := slice_of_asciiAt after ascii
  refine ⟨piece, behind, split, width, ?_⟩
  rw [byteWindows, if_pos (by omega)]
  dsimp only
  unfold windowEnd at snapped cut width
  rw [snapped, cut, Option.bind_some, width]

theorem byteWindows_panic (more : rest ≠ [])
    (wide : ¬ AsciiAt (done ++ rest) (windowEnd done rest - 1)) :
    byteWindows (done ++ rest) parent contentType (fuel + 1) (byteLength done) part = none := by
  have size : 0 < byteLength rest := pos_of_ne_zero (byteLength_eq_zero_iff.not.mpr more)
  have whole := byteLength_append done rest
  have after : byteLength done < windowEnd done rest := by
    simp only [windowEnd, maxChunkBytes]
    omega
  have cut := slice_of_not_asciiAt after (min_le_right _ _) wide
  rw [byteWindows, if_pos (by omega)]
  dsimp only
  unfold windowEnd at cut
  rw [cut, Option.bind_none]

/-- Every window of the text ends with an ASCII character: the bytes in front of a multiple of
the window's size, and the last byte. -/
def WindowsEndInAscii (text : Text) : Prop := ∀ position < byteLength text,
    maxChunkBytes ∣ position + 1 ∨ position + 1 = byteLength text → AsciiAt text position

def RestEndsInAscii (done rest : Text) : Prop := ∀ position < byteLength (done ++ rest), byteLength
    done ≤ position → maxChunkBytes ∣ position + 1 ∨ position + 1 = byteLength (done ++ rest) →
    AsciiAt (done ++ rest) position

theorem restEndsInAscii_iff (aligned : maxChunkBytes ∣ byteLength done) (more : rest ≠ [])
    {piece behind : Text} (split : rest = piece ++ behind)
    (width : byteLength (done ++ piece) = windowEnd done rest) :
    RestEndsInAscii done rest ↔ AsciiAt (done ++ rest) (windowEnd done rest - 1) ∧ RestEndsInAscii (done ++ piece) behind := by
  have size : 0 < byteLength rest := pos_of_ne_zero (byteLength_eq_zero_iff.not.mpr more)
  have whole := byteLength_append done rest
  have joined : done ++ piece ++ behind = done ++ rest := by rw [split, append_assoc]
  obtain ⟨count, aligned⟩ := aligned
  unfold RestEndsInAscii
  rw [joined, width]
  simp only [windowEnd, maxChunkBytes] at *
  constructor
  · intro ends
    refine ⟨ends _ (by omega) (by omega) (by omega), fun position inside reached => ?_⟩
    exact ends position inside (by omega)
  · intro ⟨here, later⟩ position inside reached final
    by_cases past : min (byteLength done + 4096) (byteLength (done ++ rest)) ≤ position
    · exact later position inside past final
    · have same : position = min (byteLength done + 4096) (byteLength (done ++ rest)) - 1 := by
        omega
      rw [same]
      exact here

theorem byteWindows_nil :
    byteWindows done parent contentType fuel (byteLength done) part = some [] := by
  cases fuel with
  | zero => rfl
  | succ fuel => rw [byteWindows, if_neg (lt_irrefl _)]

theorem restEndsInAscii_nil : RestEndsInAscii done [] := by
  intro position inside reached
  rw [append_nil] at inside
  omega

theorem aligned_next (aligned : maxChunkBytes ∣ byteLength done) {piece behind : Text}
    (split : rest = piece ++ behind) (width : byteLength (done ++ piece) = windowEnd done rest)
    (more : behind ≠ []) : maxChunkBytes ∣ byteLength (done ++ piece) := by
  have size : 0 < byteLength behind := pos_of_ne_zero (byteLength_eq_zero_iff.not.mpr more)
  simp only [windowEnd, maxChunkBytes, split, byteLength_append] at *
  omega

section
variable (aligned : rest ≠ [] → maxChunkBytes ∣ byteLength done) (enough : byteLength rest ≤ fuel)
include aligned enough

theorem byteWindows_some (ends : RestEndsInAscii done rest) :
    ∃ chunks, byteWindows (done ++ rest) parent contentType fuel (byteLength done) part =
      some chunks ∧ chunks.flatMap Chunk.content = rest ∧
      ∀ chunk ∈ chunks, byteLength chunk.content ≤ maxChunkBytes ∧ ∃ index, chunk.title = partTitle parent index := by
  induction fuel generalizing done rest part with
  | zero =>
    obtain rfl := byteLength_eq_zero_iff.mp (Nat.le_zero.mp enough)
    exact ⟨[], rfl, rfl, by simp⟩
  | succ fuel ih =>
    by_cases none : rest = []
    · subst none
      rw [append_nil]
      exact ⟨[], byteWindows_nil, rfl, by simp⟩
    · have start := aligned none
      have size : 0 < byteLength rest := pos_of_ne_zero (byteLength_eq_zero_iff.not.mpr none)
      have here : AsciiAt (done ++ rest) (windowEnd done rest - 1) := by
        have whole := byteLength_append done rest
        obtain ⟨count, multiple⟩ := start
        apply ends <;> simp only [windowEnd, maxChunkBytes] at * <;> omega
      obtain ⟨piece, behind, split, width, run⟩ := @byteWindows_step done rest parent contentType fuel part none here
      have later := ((restEndsInAscii_iff start none split width).mp ends).2
      have bounded : byteLength piece ≤ maxChunkBytes := by
        rw [byteLength_append] at width
        simp only [windowEnd] at width
        omega
      have filled : 0 < byteLength piece := by
        simp only [windowEnd, maxChunkBytes, byteLength_append] at width
        omega
      have shorter : byteLength behind ≤ fuel := by
        rw [split, byteLength_append] at enough
        omega
      obtain ⟨chunks, made, flat, each⟩ := @ih (done ++ piece) behind (part + 1) (aligned_next start split width) shorter later
      have joined : done ++ piece ++ behind = done ++ rest := by rw [split, append_assoc]
      rw [joined] at made
      refine ⟨_, by rw [run, made, Option.map_some], ?_, ?_⟩
      · rw [flatMap_cons, flat, split]
      · intro chunk mem
        rcases mem_cons.mp mem with rfl | inside
        · exact ⟨bounded, part, rfl⟩
        · exact each chunk inside

theorem byteWindows_none (fails : ¬ RestEndsInAscii done rest) :
    byteWindows (done ++ rest) parent contentType fuel (byteLength done) part = none := by
  induction fuel generalizing done rest part with
  | zero =>
    obtain rfl := byteLength_eq_zero_iff.mp (Nat.le_zero.mp enough)
    exact absurd restEndsInAscii_nil fails
  | succ fuel ih =>
    by_cases none : rest = []
    · subst none
      exact absurd restEndsInAscii_nil fails
    · by_cases here : AsciiAt (done ++ rest) (windowEnd done rest - 1)
      · obtain ⟨piece, behind, split, width, run⟩ := @byteWindows_step done rest parent contentType fuel part none here
        have later : ¬ RestEndsInAscii (done ++ piece) behind := fun ends =>
          fails ((restEndsInAscii_iff (aligned none) none split width).mpr ⟨here, ends⟩)
        have size : 0 < byteLength rest := pos_of_ne_zero (byteLength_eq_zero_iff.not.mpr none)
        have shorter : byteLength behind ≤ fuel := by
          simp only [windowEnd, maxChunkBytes, split, byteLength_append] at width enough size
          omega
        have stopped := @ih (done ++ piece) behind (part + 1) (aligned_next (aligned none) split width) shorter later
        have joined : done ++ piece ++ behind = done ++ rest := by rw [split, append_assoc]
        rw [joined] at stopped
        rw [run, stopped, Option.map_none]
      · exact byteWindows_panic none here

end

theorem restEndsInAscii_iff_windows {text : Text} :
    RestEndsInAscii [] text ↔ WindowsEndInAscii text := by
  unfold RestEndsInAscii WindowsEndInAscii
  simp

end
end Atlas.Content
