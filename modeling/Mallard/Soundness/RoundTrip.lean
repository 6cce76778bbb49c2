import Mallard.Proofs.Writing
import Mallard.Model.Medlin.Commands

/-! # Saving and loading on the plain path

Writing joins lines and leaves the last one open; reading takes an empty text behind the last
terminator for no line. The two conventions disagree about a last line that is empty: it is written
as nothing and not read back. Everything else survives, in either direction.
-/

namespace Mallard

open LineTerminators

/-- The terminator of the line grammar that a `--line-ending` choice writes. -/
def LineEnding.ending : LineEnding → Ending
  | .lf => .lf
  | .crlf => .crlf
  | .cr => .cr

theorem LineEnding.toList_asStr (choice : LineEnding) : choice.asStr.toList = choice.ending.symbols '\r' '\n' := by
  cases choice <;> decide

theorem LineEnding.ending_ne_eof (choice : LineEnding) : choice.ending ≠ .eof := by
  cases choice <;> decide

namespace LineBuffer

section Reloading

variable [Digests]

/-- Both loaders, given the text or its bytes, return a buffer with exactly these lines. -/
def Reloads (bytes : List UInt8) (lines : List String) : Prop :=
  (∃ text, fromUtf8 bytes = some text ∧ ∀ heap, ∃ heap' reloaded,
    fromStr heap text none = .ok (.ok (heap', reloaded)) ∧ reloaded.iterLines heap' = .ok lines ∧
      reloaded.lineCount = lines.length) ∧
  ∀ heap, ∃ heap' reloaded,
    fromReader heap (.ok bytes) none = .ok (.ok (heap', reloaded)) ∧ reloaded.iterLines heap' = .ok lines ∧
      reloaded.lineCount = lines.length

/-- The buffer written with the line ending and loaded back has these lines. -/
def RoundTrips (heap : Heap) (buffer : LineBuffer) (choice : LineEnding) (lines : List String) : Prop :=
  ∃ bytes, buffer.writeLines heap vecWriter [] choice.asStr = .ok (.ok (), bytes) ∧ Reloads bytes lines

/-- A text with at most `2 ^ 32` distinct lines loads as its lines, from either loader. -/
theorem reloads_iff {text : String} (few : (textLines text).toFinset.card ≤ idCount) (lines : List String) :
    Reloads (asBytes text) lines ↔ textLines text = lines := by
  have accepted : ∀ line ∈ textLines text, Accepts none line := fun line _ => accepts_none line
  have holds (heap : Heap) := loaded_holds_of_few heap none few
  constructor
  · rintro ⟨⟨found, decoded, reload⟩, _⟩
    rw [fromUtf8_asBytes] at decoded
    cases decoded
    obtain ⟨heap', reloaded, returned, read, _⟩ := reload Heap.empty
    rw [fromStr_eq_ok accepted] at returned
    cases returned
    exact Except.ok.inj ((holds Heap.empty).iterLines.symm.trans read)
  · rintro rfl
    refine ⟨⟨text, fromUtf8_asBytes text, fun heap => ?_⟩, fun heap => ?_⟩
    · exact ⟨_, _, fromStr_eq_ok accepted heap, (holds heap).iterLines, (holds heap).lineCount⟩
    · refine ⟨_, _, ?_, (holds heap).iterLines, (holds heap).lineCount⟩
      rw [fromReader_asBytes, fromStr_eq_ok accepted]
      rfl

omit [Digests] in
/-- The lines of a joined text are the joined lines without a last one that is empty. -/
theorem textLines_join (choice : LineEnding) {lines : List String} (bare : ∀ line ∈ lines, BareText line) :
    textLines (String.ofList (choice.asStr.toList.intercalate (lines.map String.toList))) =
      if lines.getLast? = some "" then lines.dropLast else lines := by
  have bare' : ∀ chars ∈ lines.map String.toList, Bare '\r' '\n' chars := by
    intro chars member
    obtain ⟨line, present, rfl⟩ := List.mem_map.mp member
    exact bare line present
  have back (kept : List String) : (kept.map String.toList).map String.ofList = kept := by
    simp only [List.map_map, Function.comp_def, String.ofList_toList, List.map_id']
  have last : (lines.map String.toList).getLast? = some [] ↔ lines.getLast? = some "" := by
    rw [List.getLast?_map, Option.map_eq_some_iff]
    simp only [String.toList_eq_nil_iff, exists_eq_right]
  rw [textLines, String.toList_ofList, choice.toList_asStr,
    lines_intercalate choice.ending_ne_eof cr_ne_lf bare']
  by_cases empty : lines.getLast? = some ""
  · rw [if_pos (last.mpr empty), if_pos empty, List.map_dropLast, back]
  · rw [if_neg (mt last.mp empty), if_neg empty, back]

/-- The round trip gives the lines back without a last one that is empty. -/
theorem roundTrips_iff_eq {heap : Heap} {buffer : LineBuffer} {lines : List String}
    (shown : buffer.iterLines heap = .ok lines) (bare : ∀ line ∈ lines, BareText line)
    (choice : LineEnding) (back : List String) :
    RoundTrips heap buffer choice back ↔
      (if lines.getLast? = some "" then lines.dropLast else lines) = back := by
  have denote := iterLines_eq_ok.mp shown
  have written := writeLines_vec denote choice.asStr
  have text := textLines_join choice bare
  rw [← asBytes_ofList] at written
  have few : (textLines (String.ofList (choice.asStr.toList.intercalate (lines.map String.toList)))).toFinset.card
      ≤ idCount := by
    have fewer : (if lines.getLast? = some "" then lines.dropLast else lines).toFinset ⊆ lines.toFinset := by
      intro line member
      rw [List.mem_toFinset] at member ⊢
      split at member
      · exact List.mem_of_mem_dropLast member
      · exact member
    rw [text]
    exact (Finset.card_le_card fewer).trans denote.card_le
  rw [RoundTrips, written, ← text, ← reloads_iff few]
  constructor
  · rintro ⟨bytes, same, reloads⟩
    cases same
    exact reloads
  · exact fun reloads => ⟨_, rfl, reloads⟩

/-- Saving a buffer and loading the result gives its lines back exactly when its last line, if there
is one, is not empty. -/
theorem roundTrips_iff {heap : Heap} {buffer : LineBuffer} {lines : List String}
    (shown : buffer.iterLines heap = .ok lines)
    (bare : ∀ line ∈ lines, '\r' ∉ line.toList ∧ '\n' ∉ line.toList) (choice : LineEnding) :
    RoundTrips heap buffer choice lines ↔ lines.getLast? ≠ some "" := by
  rw [roundTrips_iff_eq shown bare]
  split
  · next empty =>
    refine iff_of_false (fun same => ?_) (fun differs => differs empty)
    have shorter := congrArg List.length same
    have nonempty : lines ≠ [] := by
      rintro rfl
      contradiction
    have positive := List.length_pos_iff.mpr nonempty
    rw [List.length_dropLast] at shorter
    omega
  · next nonempty => exact iff_of_true rfl nonempty

end Reloading

section Samples

attribute [local instance] sampleDigests

theorem sample_loaded (text : String) (few : (textLines text).toFinset.card ≤ idCount) :
    ∃ heap buffer, fromStr Heap.empty text none = .ok (.ok (heap, buffer)) ∧
      buffer.iterLines heap = .ok (textLines text) :=
  ⟨_, _, fromStr_eq_ok (fun line _ => accepts_none line) Heap.empty, (loaded_holds_of_few _ none few).iterLines⟩

/-- Two lines written with CRLF and loaded back. -/
theorem two_lines_round_trip : ∃ heap buffer, fromStr Heap.empty "a\nb" none = .ok (.ok (heap, buffer)) ∧
    buffer.iterLines heap = .ok ["a", "b"] ∧ RoundTrips heap buffer .crlf ["a", "b"] := by
  have shape : textLines "a\nb" = ["a", "b"] := by decide
  obtain ⟨heap, buffer, loaded, shown⟩ := sample_loaded "a\nb" (by rw [shape]; decide)
  rw [shape] at shown
  have bare : ∀ line ∈ ["a", "b"], '\r' ∉ line.toList ∧ '\n' ∉ line.toList := by decide
  exact ⟨heap, buffer, loaded, shown, (roundTrips_iff shown bare .crlf).mpr (by decide)⟩

/-- Of three empty lines, two come back. -/
theorem three_empty_lines_lost : ∃ heap buffer, fromStr Heap.empty "\n\n\n" none = .ok (.ok (heap, buffer)) ∧
    buffer.iterLines heap = .ok ["", "", ""] ∧ ¬ RoundTrips heap buffer .lf ["", "", ""] ∧
      RoundTrips heap buffer .lf ["", ""] := by
  have shape : textLines "\n\n\n" = ["", "", ""] := by decide
  obtain ⟨heap, buffer, loaded, shown⟩ := sample_loaded "\n\n\n" (by rw [shape]; decide)
  rw [shape] at shown
  have bare : ∀ line ∈ ["", "", ""], BareText line := by simp [BareText]
  refine ⟨heap, buffer, loaded, shown, ?_, ?_⟩
  · rw [roundTrips_iff_eq shown bare]
    decide
  · rw [roundTrips_iff_eq shown bare]
    decide

end Samples

/-- The text with every terminator replaced, and without one final terminator if it ended in one. -/
def reterminate (terminator text : List Char) : List Char :=
  if text.getLast? = some '\r' ∨ text.getLast? = some '\n' then
    (respell '\r' '\n' terminator text).rdrop terminator.length
  else respell '\r' '\n' terminator text

theorem intercalate_textLines (terminator : List Char) (text : String) :
    terminator.intercalate ((textLines text).map String.toList) = reterminate terminator text.toList := by
  have chars : (textLines text).map String.toList = lines '\r' '\n' text.toList := by
    simp only [textLines, List.map_map, Function.comp_def, String.toList_ofList, List.map_id']
  rw [chars, intercalate_lines cr_ne_lf, reterminate]
  by_cases terminated : text.toList.getLast? = some '\r' ∨ text.toList.getLast? = some '\n'
  · rw [if_pos (lastText_eq_nil.mpr (.inr terminated)), if_pos terminated]
  · rw [if_neg terminated]
    split
    · next closed =>
      rcases lastText_eq_nil.mp closed with empty | terminated'
      · simp [empty, respell]
      · exact absurd terminated' terminated
    · rfl

section Rewriting

variable [Digests]

/-- Writing a freshly loaded text changes nothing but its terminators. -/
theorem writeLines_fromStr (heap : Heap) (text : String) (choice : LineEnding)
    (few : (textLines text).toFinset.card ≤ idCount) :
    ∃ heap' buffer, fromStr heap text none = .ok (.ok (heap', buffer)) ∧
      buffer.writeLines heap' vecWriter [] choice.asStr =
        .ok (.ok (), asBytes (String.ofList (reterminate choice.asStr.toList text.toList))) := by
  have accepted : ∀ line ∈ textLines text, Accepts none line := fun line _ => accepts_none line
  refine ⟨_, _, fromStr_eq_ok accepted heap, ?_⟩
  rw [asBytes_ofList, ← intercalate_textLines]
  exact writeLines_vec (loaded_holds_of_few heap none few).present choice.asStr

end Rewriting

section Samples

attribute [local instance] sampleDigests

/-- A CRLF, an LF at the end, and CR to write. -/
theorem mixed_text_rewritten : ∃ heap buffer, fromStr Heap.empty "a\r\nb\n" none = .ok (.ok (heap, buffer)) ∧
    buffer.writeLines heap vecWriter [] "\r" = .ok (.ok (), asBytes "a\rb") := by
  have shape : textLines "a\r\nb\n" = ["a", "b"] := by decide
  have rewritten : String.ofList (reterminate ['\r'] "a\r\nb\n".toList) = "a\rb" := by decide
  obtain ⟨heap, buffer, loaded, written⟩ :=
    writeLines_fromStr Heap.empty "a\r\nb\n" .cr (by rw [shape]; decide)
  exact ⟨heap, buffer, loaded, rewritten ▸ written⟩

end Samples

end LineBuffer

end Mallard
