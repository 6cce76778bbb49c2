import Mallard.Soundness.RoundTrip
import Mallard.Soundness.ValidatorVerdict

/-! # Saving and loading with a forced encoding

A forced save ends every line with the chosen terminator, and a forced load cuts the decoded text with
`str::lines`, to which a lone CR is no terminator. So the lines come back when they were all encoded
and end with LF or CRLF; ended with CR they come back as one.
-/

namespace Mallard

open LineTerminators

/-- The bytes begin with a byte-order mark of UTF-8 or UTF-16. -/
def StartsWithBom (bytes : List UInt8) : Prop :=
  [0xEF, 0xBB, 0xBF] <+: bytes ∨ [0xFF, 0xFE] <+: bytes ∨ [0xFE, 0xFF] <+: bytes

/-- Texts encoded one by one are decoded together, without errors, unless they look marked. -/
def Encoding.DecodesChunks (encoding : Encoding) : Prop :=
  ∀ texts : List String, (∀ text ∈ texts, encoding.Encodes text) →
    ¬ StartsWithBom (texts.flatMap fun text => (encoding.encodeAll text).2) →
      encoding.decode (texts.flatMap fun text => (encoding.encodeAll text).2) =
        (String.ofList (texts.flatMap String.toList), false)

/-- The text of lines that are each followed by the chosen terminator. -/
def terminated (choice : LineEnding) (lines : List String) : String :=
  String.ofList ((lines.map (· ++ choice.asStr)).flatMap String.toList)

theorem toList_terminated (choice : LineEnding) (lines : List String) :
    (terminated choice lines).toList =
      (lines.map String.toList).flatMap fun chars => chars ++ choice.ending.symbols '\r' '\n' := by
  rw [terminated, String.toList_ofList, List.flatMap_map, List.flatMap_map]
  simp only [String.toList_append, choice.toList_asStr]

theorem bare_map_toList {lines : List String} (bare : ∀ line ∈ lines, BareText line) :
    ∀ chars ∈ lines.map String.toList, Bare '\r' '\n' chars := by
  intro chars member
  obtain ⟨line, present, rfl⟩ := List.mem_map.mp member
  exact bare line present

/-- Lines that end with LF or CRLF are read back. -/
theorem strLines_terminated {choice : LineEnding} (notCr : choice ≠ .cr) {lines : List String}
    (bare : ∀ line ∈ lines, BareText line) : strLines (terminated choice lines) = lines := by
  have paired : choice.ending ≠ .cr := by
    cases choice with
    | cr => exact absurd rfl notCr
    | lf | crlf => decide
  rw [strLines, toList_terminated, lfLines_flatMap cr_ne_lf choice.ending_ne_eof paired (bare_map_toList bare)]
  simp only [List.map_map, Function.comp_def, String.ofList_toList, List.map_id']

/-- Lines that end with CR are read back as one, if there are any. -/
theorem strLines_terminated_cr {lines : List String} (nonempty : lines ≠ []) (bare : ∀ line ∈ lines, BareText line) :
    strLines (terminated .cr lines) = [terminated .cr lines] := by
  have single : lfLines '\r' '\n' (terminated .cr lines).toList = [(terminated .cr lines).toList] := by
    rw [toList_terminated]
    exact lfLines_flatMap_cr cr_ne_lf (mt List.map_eq_nil_iff.mp nonempty) (bare_map_toList bare)
  rw [strLines, single, List.map_singleton, String.ofList_toList]

theorem cr_mem_terminated {lines : List String} (nonempty : lines ≠ []) : '\r' ∈ (terminated .cr lines).toList := by
  obtain ⟨line, rest, rfl⟩ := List.exists_cons_of_ne_nil nonempty
  rw [toList_terminated]
  exact List.mem_flatMap.mpr ⟨line.toList, List.mem_cons_self, List.mem_append_right _ List.mem_cons_self⟩

/-- No lines come up that were not there. -/
theorem length_strLines_terminated {choice : LineEnding} {lines : List String} (bare : ∀ line ∈ lines, BareText line) :
    (strLines (terminated choice lines)).length ≤ lines.length := by
  by_cases notCr : choice = .cr
  · subst notCr
    by_cases nonempty : lines = []
    · subst nonempty
      exact le_rfl
    · rw [strLines_terminated_cr nonempty bare]
      exact List.length_pos_iff.mpr nonempty
  · rw [strLines_terminated notCr bare]

section Buffers

variable [Digests] {encoding : Encoding} {heap : Heap} {buffer : LineBuffer} {choice : LineEnding} {disk : Disk}
  {path : String} {lines : List String}

/-- What a load shows are lines that it was given. -/
theorem mem_of_mem_shownLines {line : String} (member : line ∈ LineBuffer.shownLines lines) : line ∈ lines := by
  have denote : (GreenPool.new.internAll lines).2.DenoteAll (GreenPool.new.internAll lines).1
      (LineBuffer.shownLines lines) := GreenPool.wellFormed_new.internAll_text? lines
  have listed := denote.mem_contents line member
  rwa [GreenPool.contents_run, List.mem_inventory] at listed

/-- Saving with the encoding, loading and saving again gives the lines and the bytes once more. -/
def ReloadsForced (encoding : Encoding) (choice : LineEnding) (disk : Disk) (path : String) (heap : Heap)
    (buffer : LineBuffer) (lines : List String) : Prop :=
  ∃ result disk', save disk heap buffer path choice.asStr (some encoding) = .ok (result, disk') ∧
    ∀ other : Heap, ∃ reports heap' reloaded result' disk'',
      loadFile disk' other path (some encoding) = .ok (reports, heap', reloaded) ∧
      reloaded.iterLines heap' = .ok lines ∧
      save disk' heap' reloaded path choice.asStr (some encoding) = .ok (result', disk'') ∧
      disk''.contents path = disk'.contents path

omit [Digests] in
theorem Disk.read_put (readable : disk.readError path = none) (bytes : List UInt8) :
    (disk.put path bytes).read path = .ok bytes := by
  have still : (disk.put path bytes).readError path = none := readable
  rw [Disk.read, still, Disk.contents_put]

omit [Digests] in
/-- The lines in front of the first one that cannot be encoded are decoded from the saved file. -/
theorem decodedLines_saved (decodes : encoding.DecodesChunks) (readable : disk.readError path = none)
    (unmarked : ¬ StartsWithBom (savedChunks choice.asStr lines (some encoding)).flatten) :
    decodedLines (disk.put path (savedChunks choice.asStr lines (some encoding)).flatten) path (some encoding) =
      some (strLines (terminated choice (encodableLines encoding choice.asStr lines))) := by
  have chunks : (savedChunks choice.asStr lines (some encoding)).flatten =
      ((encodableLines encoding choice.asStr lines).map (· ++ choice.asStr)).flatMap
        fun text => (encoding.encodeAll text).2 := by
    rw [savedChunks, encodedChunks, List.flatMap_map, List.flatMap_def]
  have encodes : ∀ text ∈ (encodableLines encoding choice.asStr lines).map (· ++ choice.asStr), encoding.Encodes text := by
    intro text member
    obtain ⟨line, kept, rfl⟩ := List.mem_map.mp member
    exact of_decide_eq_true (List.mem_takeWhile_imp (p := fun line => encoding.Encodes (line ++ choice.asStr)) kept)
  rw [chunks] at unmarked ⊢
  simp only [decodedLines, Disk.read_put readable, decodes _ encodes unmarked, terminated]
  rfl

/-- The accepted ones of the lines read back are all lines exactly when there are none, or every line was
encoded and ended with LF or CRLF. -/
theorem reloaded_eq_iff (bare : ∀ line ∈ lines, BareText line)
    (accepted : ∀ line ∈ lines, Accepts (some (forcedEncodingValidator encoding)) line)
    (few : lines.toFinset.card ≤ idCount) :
    LineBuffer.shownLines ((strLines (terminated choice (encodableLines encoding choice.asStr lines))).filter
        fun line => Accepts (some (forcedEncodingValidator encoding)) line) = lines ↔
      lines = [] ∨ (choice ≠ .cr ∧ ∀ line ∈ lines, encoding.Encodes (line ++ choice.asStr)) := by
  have prefix_ : encodableLines encoding choice.asStr lines <+: lines := List.takeWhile_prefix _
  have bareKept : ∀ line ∈ encodableLines encoding choice.asStr lines, BareText line :=
    fun line member => bare line (prefix_.subset member)
  constructor
  · intro same
    by_cases empty : lines = []
    · exact .inl empty
    have enough : lines.length ≤ (encodableLines encoding choice.asStr lines).length :=
      calc
        lines.length = _ := (congrArg List.length same).symm
        _ = _ := List.length_map _
        _ ≤ _ := List.length_filter_le _ _
        _ ≤ _ := length_strLines_terminated bareKept
    have whole : encodableLines encoding choice.asStr lines = lines :=
      prefix_.eq_of_length (le_antisymm prefix_.length_le enough)
    have encodes : ∀ line ∈ lines, encoding.Encodes (line ++ choice.asStr) :=
      fun line member => of_decide_eq_true (List.takeWhile_eq_self_iff.mp whole line member)
    refine .inr ⟨?_, encodes⟩
    rintro rfl
    obtain ⟨line, member⟩ := List.exists_mem_of_ne_nil lines empty
    rw [whole, strLines_terminated_cr empty bare] at same
    have among := List.mem_of_mem_filter (mem_of_mem_shownLines (same ▸ member))
    exact (bare line member).1 (List.mem_singleton.mp among ▸ cr_mem_terminated empty)
  · rintro (rfl | ⟨notCr, encodes⟩)
    · cases choice <;> rfl
    · have whole : encodableLines encoding choice.asStr lines = lines :=
        List.takeWhile_eq_self_iff.mpr fun line member => decide_eq_true (encodes line member)
      have kept : lines.filter (fun line => Accepts (some (forcedEncodingValidator encoding)) line) = lines :=
        List.filter_eq_self.mpr fun line member => decide_eq_true (accepted line member)
      rw [whole, strLines_terminated notCr bare, kept, LineBuffer.shownLines_of_few few]

/-- A forced save can be reloaded exactly when there is nothing to save, or every line was encoded and
ended with LF or CRLF. -/
theorem forced_reload_iff (decodes : encoding.DecodesChunks) {result : Heap × LineBuffer}
    (forced : Forced encoding result) {ops : List BufferOp} {replies : List Reply}
    (ran : result.2.run result.1 ops = .ok (replies, heap, buffer)) (shown : buffer.iterLines heap = .ok lines)
    (bare : ∀ line ∈ lines, BareText line) (choice : LineEnding) (opened : disk.createError path = none)
    (readable : disk.readError path = none) (unlimited : disk.room path = none)
    (unmarked : ¬ StartsWithBom (savedChunks choice.asStr lines (some encoding)).flatten) :
    ReloadsForced encoding choice disk path heap buffer lines ↔
      lines = [] ∨ (choice ≠ .cr ∧ ∀ line ∈ lines, encoding.Encodes (line ++ choice.asStr)) := by
  obtain ⟨_, _, _, reached, vetted⟩ := forced.vetted.run ops
  cases ran.symm.trans reached
  obtain ⟨texts, holds⟩ := vetted.holds
  obtain rfl : texts.present = lines := Except.ok.inj (holds.iterLines.symm.trans shown)
  have accepted : ∀ line ∈ texts.present, Accepts (some (forcedEncodingValidator encoding)) line :=
    fun line member => vetted.accepted line (holds.present.mem_contents line member)
  have saved := save_eq holds opened choice.asStr (some encoding)
  have decoded := decodedLines_saved decodes readable unmarked
  rw [unlimited] at saved
  rw [← reloaded_eq_iff bare accepted holds.present.card_le]
  constructor
  · rintro ⟨_, _, first, again⟩
    cases saved.symm.trans first
    obtain ⟨_, _, _, _, _, loaded, read, _⟩ := again heap
    obtain ⟨_, _, _, loaded', _, appended⟩ := loadFile_forced_decoded decoded heap
    cases loaded.symm.trans loaded'
    exact Except.ok.inj (appended.iterLines.symm.trans read)
  · intro same
    refine ⟨_, _, saved, fun other => ?_⟩
    obtain ⟨reports, heap', reloaded, loaded, _, appended⟩ := loadFile_forced_decoded decoded other
    have read := appended.iterLines
    rw [same] at read
    obtain ⟨texts', holds'⟩ := (Forced.file loaded).vetted.holds
    have present : texts'.present = texts.present := Except.ok.inj (holds'.iterLines.symm.trans read)
    have still : (disk.put path (limitTo none (savedChunks choice.asStr texts.present (some encoding)).flatten)).createError
        path = none := opened
    have roomy : (disk.put path (limitTo none (savedChunks choice.asStr texts.present (some encoding)).flatten)).room
        path = none := unlimited
    have resaved := save_eq holds' still choice.asStr (some encoding)
    rw [roomy, present] at resaved
    refine ⟨reports, heap', reloaded, _, _, loaded, read, resaved, ?_⟩
    rw [Disk.contents_put, Disk.contents_put]

end Buffers

section Samples

theorem utf8Encoding_decodesChunks : utf8Encoding.DecodesChunks := by
  intro texts _ unmarked
  have encoded (text : String) : utf8Encoding.encodeAll text = (.inputEmpty, asBytes text) := if_pos le_rfl
  have bytes : (texts.flatMap fun text => (utf8Encoding.encodeAll text).2) =
      asBytes (String.ofList (texts.flatMap String.toList)) := by
    simp only [encoded, asBytes, String.toList_ofList, List.flatMap_assoc]
  rw [bytes] at unmarked ⊢
  apply utf8Encoding_isUtf8.decode
  intro marked
  obtain ⟨rest, whole⟩ := List.head?_eq_some_iff.mp marked
  have mark : String.utf8EncodeChar '\uFEFF' = [0xEF, 0xBB, 0xBF] := by decide
  refine unmarked (.inl ⟨utf8 rest, ?_⟩)
  rw [asBytes_eq, whole, utf8_cons, mark]

attribute [local instance] sampleDigests

/-- A buffer with a line and an empty line behind it, saved with CRLF. -/
theorem sample_forced_reload : ∃ replies heap buffer,
    (emptyBufWithEnc Heap.empty utf8Encoding).2.run (emptyBufWithEnc Heap.empty utf8Encoding).1
        [.insertLine 0 "é", .insertLine 1 ""] = .ok (replies, heap, buffer) ∧
      ReloadsForced utf8Encoding .crlf (sampleDisk "") "f" heap buffer ["é", ""] := by
  have start : Forced utf8Encoding (emptyBufWithEnc Heap.empty utf8Encoding) := .obtained .new
  have bare : ∀ line ∈ ["é", ""], BareText line := by simp [BareText, Bare]
  have unmarked : ¬ StartsWithBom (savedChunks LineEnding.crlf.asStr ["é", ""] (some utf8Encoding)).flatten := by
    unfold StartsWithBom
    decide
  obtain ⟨replies, heap, buffer, ran, shown⟩ : ∃ replies heap buffer,
      (emptyBufWithEnc Heap.empty utf8Encoding).2.run (emptyBufWithEnc Heap.empty utf8Encoding).1
          [.insertLine 0 "é", .insertLine 1 ""] = .ok (replies, heap, buffer) ∧
        buffer.iterLines heap = .ok ["é", ""] := ⟨_, _, _, rfl, rfl⟩
  have opened : (sampleDisk "").createError "f" = none := rfl
  refine ⟨replies, heap, buffer, ran, ?_⟩
  apply (forced_reload_iff utf8Encoding_decodesChunks start ran shown bare .crlf opened rfl rfl unmarked).mpr
  exact .inr ⟨by decide, fun line _ => utf8Encoding_isUtf8.encode _⟩

/-- Two lines saved with CR are loaded as one. -/
theorem cr_lines_joined : ∃ replies heap buffer disk' reports heap' reloaded,
    (emptyBufWithEnc Heap.empty utf8Encoding).2.run (emptyBufWithEnc Heap.empty utf8Encoding).1
        [.insertLine 0 "a", .insertLine 1 "b"] = .ok (replies, heap, buffer) ∧
      buffer.iterLines heap = .ok ["a", "b"] ∧
      save (sampleDisk "") heap buffer "f" LineEnding.cr.asStr (some utf8Encoding) = .ok (.ok (), disk') ∧
      loadFile disk' heap "f" (some utf8Encoding) = .ok (reports, heap', reloaded) ∧
      reloaded.iterLines heap' = .ok ["a\rb\r"] ∧
      ¬ ReloadsForced utf8Encoding .cr (sampleDisk "") "f" heap buffer ["a", "b"] := by
  obtain ⟨replies, heap, buffer, ran, shown, saved⟩ : ∃ replies heap buffer,
      (emptyBufWithEnc Heap.empty utf8Encoding).2.run (emptyBufWithEnc Heap.empty utf8Encoding).1
          [.insertLine 0 "a", .insertLine 1 "b"] = .ok (replies, heap, buffer) ∧
        buffer.iterLines heap = .ok ["a", "b"] ∧
        save (sampleDisk "") heap buffer "f" LineEnding.cr.asStr (some utf8Encoding) =
          .ok (.ok (), (sampleDisk "").put "f" (asBytes "a\rb\r")) := ⟨_, _, _, rfl, rfl, rfl⟩
  have decoded : decodedLines ((sampleDisk "").put "f" (asBytes "a\rb\r")) "f" (some utf8Encoding) = some ["a\rb\r"] := by
    decide +kernel
  obtain ⟨reports, heap', reloaded, loaded, _, appended⟩ := loadFile_forced_decoded decoded heap
  have kept : (["a\rb\r"].filter fun line => Accepts (some (forcedEncodingValidator utf8Encoding)) line) =
      ["a\rb\r"] := by decide
  have joined := appended.iterLines
  rw [kept, LineBuffer.shownLines_of_few (by decide)] at joined
  refine ⟨replies, heap, buffer, _, reports, heap', reloaded, ran, shown, saved, loaded, joined, ?_⟩
  rintro ⟨_, _, first, again⟩
  cases saved.symm.trans first
  obtain ⟨_, _, _, _, _, loaded', read, _⟩ := again heap
  cases loaded.symm.trans loaded'
  exact absurd (Except.ok.inj (joined.symm.trans read)) (by decide)

end Samples

end Mallard
