import Mallard.Soundness.LoaderEquivalence
import Mallard.Soundness.ValidatorPolicy
import Mallard.Soundness.RoundTrip

/-! # Files of seven bits

The ASCII validator judges one decoded line at a time, and the bytes of a file are never looked at.
All the same it keeps a file 7-bit: a reader is loaded exactly when every byte it delivers is below
`0x80`, and whatever happens to the buffer and to the branches forked from it, it is saved as such
bytes. A load that is refused names the first character of the file above U+007F, and its line.
-/

namespace Mallard

open LineTerminators

section SevenBit

variable {debug : Char → String}

/-- The search of `AsciiValidator`. -/
def aboveAscii (ch : Char) : Bool := '\u007F' < ch

theorem aboveAscii_eq_false {ch : Char} : aboveAscii ch = false ↔ ch.toNat < 128 := by
  rw [aboveAscii, decide_eq_false_iff_not, Char.not_lt]
  exact Nat.lt_succ_iff.symm

/-- What `AsciiValidator` reports of a character in a line. -/
def notAscii (debug : Char → String) (line : String) (ch : Char) : EncodingError :=
  ⟨line, s!"character {debug ch} (U+{upperHex 4 ch.toNat}) is not ASCII (above U+007F)"⟩

theorem checkLine_ascii_error {line : String} {ch : Char} (found : line.toList.find? aboveAscii = some ch) :
    checkLine (some (asciiValidator debug)) line = .error (notAscii debug line ch) := by
  simp only [checkLine, asciiValidator]
  rw [show line.toList.find? (fun ch => '\u007F' < ch) = some ch from found]
  rfl

theorem accepts_ascii_iff {line : String} :
    Accepts (some (asciiValidator debug)) line ↔ line.toList.find? aboveAscii = none := by
  cases found : line.toList.find? aboveAscii with
  | some ch => simp [Accepts, checkLine_ascii_error found]
  | none =>
    simp only [Accepts, checkLine, asciiValidator, iff_true]
    rw [show line.toList.find? (fun ch => '\u007F' < ch) = none from found]

theorem accepts_ascii_iff_forall {line : String} :
    Accepts (some (asciiValidator debug)) line ↔ ∀ ch ∈ line.toList, ch.toNat < 128 := by
  simp only [accepts_ascii_iff, List.find?_eq_none, Bool.not_eq_true, aboveAscii_eq_false]

/-- The first character of a text above U+007F is the first one of its first line that has any. -/
theorem find?_textLines (text : String) :
    ((textLines text).findSome? fun line => line.toList.find? aboveAscii) = text.toList.find? aboveAscii := by
  rw [textLines, List.findSome?_map, ← find?_lines cr_ne_lf (by decide) (by decide) text.toList]
  simp only [Function.comp_def, String.toList_ofList]

theorem accepts_textLines_iff (text : String) :
    (∀ line ∈ textLines text, Accepts (some (asciiValidator debug)) line) ↔ ∀ byte ∈ asBytes text, byte < 0x80 := by
  have lines := find?_textLines text
  rw [asBytes_eq, utf8_ascii_iff]
  have clean : (∀ ch ∈ text.toList, ch.toNat < 128) ↔ text.toList.find? aboveAscii = none := by
    simp only [List.find?_eq_none, Bool.not_eq_true, aboveAscii_eq_false]
  rw [clean, ← lines, List.findSome?_eq_none_iff]
  simp only [accepts_ascii_iff]

/-- A text with a character above U+007F has a first line with one, and finds there its first. -/
theorem exists_first_aboveAscii {text : String} {ch : Char} (found : text.toList.find? aboveAscii = some ch) :
    ∃ before line after, textLines text = before ++ line :: after ∧ line.toList.find? aboveAscii = some ch ∧
      ∀ other ∈ before, Accepts (some (asciiValidator debug)) other := by
  rw [← find?_textLines] at found
  obtain ⟨before, line, after, split, here, clean⟩ := List.findSome?_eq_some_iff.mp found
  exact ⟨before, line, after, split, here, fun other member => accepts_ascii_iff.mpr (clean other member)⟩

variable [Digests]

/-- Reading bytes under the ASCII validator. -/
structure LoadsAscii (heap : Heap) (debug : Char → String) (bytes : List UInt8) : Prop where
  /-- A buffer is returned exactly for 7-bit input. -/
  admitted : (∃ result, LineBuffer.fromReader heap (.ok bytes) (some (asciiValidator debug)) = .ok (.ok result)) ↔
    ∀ byte ∈ bytes, byte < 0x80
  /-- It shows the lines of the characters that the bytes number. -/
  shown : (∀ byte ∈ bytes, byte < 0x80) → (textLines (.ofList (bytes.map Char.ofUInt8))).toFinset.card ≤ idCount →
    ∃ heap' buffer, LineBuffer.fromReader heap (.ok bytes) (some (asciiValidator debug)) = .ok (.ok (heap', buffer)) ∧
      buffer.iterLines heap' = .ok (textLines (.ofList (bytes.map Char.ofUInt8)))
  /-- Other UTF-8 is refused with the first character above U+007F and the line it stands in. -/
  refused : ∀ text ch, fromUtf8 bytes = some text → text.toList.find? aboveAscii = some ch →
    ∃ before line after, textLines text = before ++ line :: after ∧ line.toList.find? aboveAscii = some ch ∧
      (∀ other ∈ before, ∀ c ∈ other.toList, c.toNat < 128) ∧
      LineBuffer.fromReader heap (.ok bytes) (some (asciiValidator debug)) =
        .ok (.error (.invalidData (notAscii debug line ch)))
  /-- The validator is not asked about bytes that are not UTF-8. -/
  undecoded : fromUtf8 bytes = none →
    LineBuffer.fromReader heap (.ok bytes) (some (asciiValidator debug)) = .ok (.error .invalidUtf8)

/-- Every input whose bytes are ASCII is loaded, as its lines. -/
theorem fromReader_ascii_ok (heap : Heap) {bytes : List UInt8} (ascii : ∀ byte ∈ bytes, byte < 0x80) :
    LineBuffer.fromReader heap (.ok bytes) (some (asciiValidator debug)) =
      .ok (.ok (LineBuffer.loaded heap (some (asciiValidator debug))
        (textLines (.ofList (bytes.map Char.ofUInt8))))) := by
  have spelled : bytes = asBytes (.ofList (bytes.map Char.ofUInt8)) := by
    rw [asBytes_ofList, utf8_map_ofUInt8 ascii]
  have accepted := (@accepts_textLines_iff debug _).mpr (spelled ▸ ascii)
  conv_lhs => rw [spelled]
  rw [LineBuffer.fromReader_asBytes, LineBuffer.fromStr_eq_ok accepted]
  rfl

/-- Nothing else is loaded. -/
theorem ascii_of_fromReader {heap : Heap} {bytes : List UInt8} {result : Heap × LineBuffer}
    (returned : LineBuffer.fromReader heap (.ok bytes) (some (asciiValidator debug)) = .ok (.ok result)) :
    ∀ byte ∈ bytes, byte < 0x80 := by
  cases decoded : fromUtf8 bytes with
  | none =>
    rw [LineBuffer.fromReader, decoded] at returned
    cases returned
  | some text =>
    obtain rfl := asBytes_of_fromUtf8 decoded
    refine (@accepts_textLines_iff debug text).mp ?_
    by_contra rejected
    obtain ⟨error, failed⟩ := LineBuffer.fromStr_eq_error rejected heap
    rw [LineBuffer.fromReader_asBytes, failed] at returned
    cases returned

/-- Reading under the ASCII validator, for every input. -/
theorem fromReader_ascii (heap : Heap) (debug : Char → String) (bytes : List UInt8) : LoadsAscii heap debug bytes where
  admitted := by
    constructor
    · rintro ⟨result, returned⟩
      exact ascii_of_fromReader returned
    · exact fun ascii => ⟨_, fromReader_ascii_ok heap ascii⟩
  shown := by
    intro ascii few
    exact ⟨_, _, fromReader_ascii_ok heap ascii, (LineBuffer.loaded_holds_of_few heap _ few).iterLines⟩
  refused := by
    intro text ch decoded found
    obtain ⟨before, line, after, split, here, accepted⟩ := @exists_first_aboveAscii debug _ _ found
    refine ⟨before, line, after, split, here, fun other member => accepts_ascii_iff_forall.mp (accepted other member), ?_⟩
    obtain rfl := asBytes_of_fromUtf8 decoded
    rw [LineBuffer.fromReader_asBytes, LineBuffer.fromStr_rejected heap accepted (checkLine_ascii_error here) split]
    rfl
  undecoded := by
    intro invalid
    simp only [LineBuffer.fromReader, invalid]
    rfl

omit [Digests] in
/-- Joined by a line ending, lines of ASCII characters are ASCII. -/
theorem ascii_join (choice : LineEnding) {lines : List String}
    (accepted : ∀ line ∈ lines, Accepts (some (asciiValidator debug)) line) :
    ∀ byte ∈ utf8 (choice.asStr.toList.intercalate (lines.map String.toList)), byte < 0x80 := by
  rw [utf8_ascii_iff]
  intro ch member
  rcases mem_or_mem_of_mem_intercalate member with terminates | ⟨chars, joined, within⟩
  · rw [choice.toList_asStr] at terminates
    have endings : ∀ c ∈ choice.ending.symbols '\r' '\n', c.toNat < 128 := by
      cases choice <;> simp [LineEnding.ending, Ending.symbols]
    exact endings ch terminates
  · obtain ⟨line, listed, rfl⟩ := List.mem_map.mp joined
    exact accepts_ascii_iff_forall.mp (accepted line listed) ch within

/-- What the ASCII validator makes of saving. -/
def World.SavesAscii (debug : Char → String) (world : World) : Prop :=
  ∀ choice : LineEnding, ∃ bytes, world.buffer.writeLines world.heap vecWriter [] choice.asStr = .ok (.ok (), bytes) ∧
    (∀ byte ∈ bytes, byte < 0x80) ∧
    ∀ heap, ∃ result, LineBuffer.fromReader heap (.ok bytes) (some (asciiValidator debug)) = .ok (.ok result)

/-- In every world reached from a buffer with the ASCII validator, the buffer is saved as a 7-bit file
that the validator lets in again, whatever the branches forked from it stored in its pool. -/
theorem World.run_ascii {heap heap' : Heap} {buffer : LineBuffer}
    (obtained : Obtained heap (some (asciiValidator debug)) (heap', buffer)) (ops : List WorldOp) :
    ∃ world, World.run ⟨heap', buffer, []⟩ ops = .ok world ∧
      ((world.heap.lock buffer.pool).len ≤ idCount → world.SavesAscii debug) := by
  obtain ⟨world, ran, governed⟩ := obtained.governed.run ops
  refine ⟨world, ran, fun fits choice => ?_⟩
  obtain ⟨texts, holds, accepted⟩ := governed.buffer
  have lines := accepted fits texts.present (Timeline.mem_snapshots.mpr (.inr (.inl rfl)))
  have ascii := ascii_join choice lines
  have written := LineBuffer.writeLines_vec (LineBuffer.iterLines_eq_ok.mp holds.iterLines) choice.asStr
  exact ⟨_, written, ascii, fun later => ⟨_, fromReader_ascii_ok later ascii⟩⟩

end SevenBit

section Samples

attribute [local instance] sampleDigests

def sampleDebug (ch : Char) : String := s!"'{ch}'"

/-- A fork brings a line above ASCII into the pool of a buffer that refuses the same line. -/
theorem sample_ascii : ∃ world,
    World.run ⟨(LineBuffer.new Heap.empty (some (asciiValidator sampleDebug))).1,
        (LineBuffer.new Heap.empty (some (asciiValidator sampleDebug))).2, []⟩
        [.call (.insertLine 0 "a"), .branch, .edit 0 (.insertLine 0 "é" none), .call (.insertLine 1 "é")] = .ok world ∧
      world.SavesAscii sampleDebug := by
  have start : Obtained Heap.empty (some (asciiValidator sampleDebug))
      (LineBuffer.new Heap.empty (some (asciiValidator sampleDebug))) := .new
  obtain ⟨world, ran, saves⟩ := World.run_ascii start
    [.call (.insertLine 0 "a"), .branch, .edit 0 (.insertLine 0 "é" none), .call (.insertLine 1 "é")]
  have few : (world.heap.lock 0).len ≤ idCount := by
    obtain rfl := Except.ok.inj ran
    decide
  exact ⟨world, ran, saves few⟩

end Samples

end Mallard
