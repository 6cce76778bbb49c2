import Mallard.Proofs.Splitting

/-! # Splitting parses the line grammar

A decomposition of a text lists its lines with the characters of the terminator behind each. The
decompositions of a text are the derivations of the line grammar with their endings spelled out, so
there is exactly one, and the splitting loop returns its lines.
-/

namespace Mallard

open LineTerminators

/-- The text is the lines with their terminators, and every terminator is taken whole. -/
structure Decomposes (text : List Char) (parts : List (List Char × List Char)) : Prop where
  whole : text = parts.flatMap fun part => part.1 ++ part.2
  bare : ∀ part ∈ parts, '\r' ∉ part.1 ∧ '\n' ∉ part.1
  /-- Only the last terminator may be missing, and then its line is not empty. -/
  terminated : ∀ before part after, parts = before ++ part :: after →
    part.2 ∈ [['\n'], ['\r', '\n'], ['\r']] ∨ part.2 = [] ∧ after = [] ∧ part.1 ≠ []
  /-- A bare CR does not cut a CRLF in two. -/
  uncut : ∀ before part after, parts = before ++ part :: after → part.2 = ['\r'] →
    (after.flatMap fun part => part.1 ++ part.2).head? ≠ some '\n'

/-- A line with its ending spelled out. -/
def spell (piece : List Char × Ending) : List Char × List Char := (piece.1, piece.2.symbols '\r' '\n')

/-- Without its first line, a decomposition decomposes the rest of the text. -/
theorem Decomposes.tail {text : List Char} {part : List Char × List Char}
    {parts : List (List Char × List Char)} (decomposes : Decomposes text (part :: parts)) :
    Decomposes (parts.flatMap fun part => part.1 ++ part.2) parts where
  whole := rfl
  bare other member := decomposes.bare other (List.mem_cons_of_mem _ member)
  terminated before other after split := decomposes.terminated (part :: before) other after (split ▸ rfl)
  uncut before other after split := decomposes.uncut (part :: before) other after (split ▸ rfl)

/-- Every decomposition comes from a derivation. -/
theorem Decomposes.derives {text : List Char} {parts : List (List Char × List Char)}
    (decomposes : Decomposes text parts) :
    ∃ pieces, Derives '\r' '\n' text pieces ∧ parts = pieces.map spell := by
  induction parts generalizing text with
  | nil =>
    obtain rfl := decomposes.whole
    exact ⟨[], .nil, rfl⟩
  | cons part parts ih =>
    obtain ⟨line, terminator⟩ := part
    obtain ⟨pieces, rest, rfl⟩ := ih decomposes.tail
    have whole := decomposes.whole
    rw [List.flatMap_cons, List.append_assoc] at whole
    have bare : Bare '\r' '\n' line := decomposes.bare _ List.mem_cons_self
    have closed (ending : Ending) (spelled : terminator = ending.symbols '\r' '\n')
        (fits : ending.Fits '\n' ((pieces.map spell).flatMap fun part => part.1 ++ part.2)) :
        ∃ found, Derives '\r' '\n' text found ∧ (line, terminator) :: pieces.map spell = found.map spell := by
      subst spelled
      exact ⟨(line, ending) :: pieces, whole ▸ .cons bare fits rest, rfl⟩
    rcases decomposes.terminated [] (line, terminator) _ rfl with terminated | ⟨missing, last, nonempty⟩
    · simp only [List.mem_cons, List.not_mem_nil, or_false] at terminated
      rcases terminated with spelled | spelled | spelled
      · exact closed .lf spelled ⟨by decide, by simp⟩
      · exact closed .crlf spelled ⟨by decide, by simp⟩
      · exact closed .cr spelled ⟨by decide, fun _ => decomposes.uncut [] _ _ rfl spelled⟩
    · obtain rfl := List.map_eq_nil_iff.mp last
      obtain rfl : terminator = [] := missing
      refine ⟨[(line, .eof)], ?_, rfl⟩
      rw [whole]
      simpa using Derives.tail bare nonempty

/-- A line with its terminator in front of a decomposed text. -/
theorem Decomposes.cons {line terminator rest : List Char} {parts : List (List Char × List Char)}
    (bare : Bare '\r' '\n' line)
    (terminated : terminator ∈ [['\n'], ['\r', '\n'], ['\r']] ∨ terminator = [] ∧ parts = [] ∧ line ≠ [])
    (uncut : terminator = ['\r'] → rest.head? ≠ some '\n') (decomposes : Decomposes rest parts) :
    Decomposes (line ++ (terminator ++ rest)) ((line, terminator) :: parts) := by
  refine ⟨?_, ?_, ?_, ?_⟩
  · rw [List.flatMap_cons, ← decomposes.whole, List.append_assoc]
  · exact List.forall_mem_cons.mpr ⟨bare, decomposes.bare⟩
  · intro before part after split
    cases before with
    | nil =>
      obtain ⟨rfl, rfl⟩ := List.cons.inj split
      exact terminated
    | cons first before => exact decomposes.terminated before part after (List.cons.inj split).2
  · intro before part after split
    cases before with
    | nil =>
      obtain ⟨rfl, rfl⟩ := List.cons.inj split
      rw [← decomposes.whole]
      exact uncut
    | cons first before => exact decomposes.uncut before part after (List.cons.inj split).2

theorem decomposes_nil : Decomposes [] [] := by
  refine ⟨rfl, ?_, ?_, ?_⟩
  · simp
  · simp
  · simp

/-- Every derivation, spelled out, is a decomposition. -/
theorem decomposes_of_derives {text : List Char} {pieces : List (List Char × Ending)}
    (derives : Derives '\r' '\n' text pieces) : Decomposes text (pieces.map spell) := by
  induction derives with
  | nil => exact decomposes_nil
  | @tail line bare nonempty =>
    have single : Decomposes (line ++ ([] ++ [])) [(line, [])] :=
      .cons bare (.inr ⟨rfl, rfl, nonempty⟩) (by simp) decomposes_nil
    rwa [List.append_nil, List.append_nil] at single
  | @cons line rest ending pieces bare fits _ ih =>
    refine .cons bare ?_ ?_ ih
    · cases ending with
      | eof => exact absurd rfl fits.1
      | lf | crlf | cr => exact .inl (by decide)
    · cases ending with
      | cr => exact fun _ => fits.2 rfl
      | lf | crlf | eof => exact fun same => absurd same (by decide)

/-- Every text has exactly one decomposition, and splitting returns its lines: as many as there are
terminators, and one more for a text behind the last of them. -/
theorem splitOnLineEndings_parses (text : String) :
    ∃ parts, (∀ other, Decomposes text.toList other ↔ other = parts) ∧
      splitOnLineEndings text = .ok (parts.map fun part => String.ofList part.1) ∧
      parts.length = terminatorCount '\r' '\n' text.toList +
        if lastText '\r' '\n' text.toList = [] then 0 else 1 := by
  refine ⟨(pieces '\r' '\n' text.toList).map spell, ?_, ?_, ?_⟩
  · intro other
    constructor
    · intro decomposes
      obtain ⟨found, derives, rfl⟩ := decomposes.derives
      rw [derives.eq_pieces cr_ne_lf]
    · rintro rfl
      exact decomposes_of_derives (derives_pieces cr_ne_lf _)
  · rw [splitOnLineEndings_eq, textLines, lines, List.map_map, List.map_map]
    rfl
  · have count := length_lines cr_ne_lf text.toList
    rw [lines, List.length_map] at count
    rw [List.length_map, count]

end Mallard
