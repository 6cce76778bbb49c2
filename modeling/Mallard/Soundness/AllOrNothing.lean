import Mallard.Proofs.LoadFile

/-! # Loads that lose lines

A load either brings in every line of the file or reports a failure and leaves an empty buffer, with
one exception. The forced loading loop reports a line that its validator rejects and goes on with the
next one, so a file of which only some lines can be encoded is loaded without the others.
-/

namespace Mallard

/-- The buffer holds every decoded line in order, or it is empty and a failure was reported. -/
def AllOrNothing (decoded : Option (List String)) (reports : List Report) (heap : Heap) (buffer : LineBuffer) : Prop :=
  (∃ lines, decoded = some lines ∧ buffer.iterLines heap = .ok lines) ∨
    (reports ≠ [] ∧ buffer.iterLines heap = .ok [])

/-- The validator rejects every line, or it accepts them all and there are enough ids for them. -/
def LoadsWhole (validator : Option EncodingValidator) (lines : List String) : Prop :=
  (∀ line ∈ lines, ¬ Accepts validator line) ∨
    ((∀ line ∈ lines, Accepts validator line) ∧ lines.toFinset.card ≤ idCount)

section Loads

variable [Digests]

/-- A load shows its own lines exactly when there are enough ids. -/
theorem shownLines_eq_iff {lines : List String} :
    LineBuffer.shownLines lines = lines ↔ lines.toFinset.card ≤ idCount := by
  constructor
  · intro same
    have denote : (GreenPool.new.internAll lines).2.DenoteAll (GreenPool.new.internAll lines).1
        (LineBuffer.shownLines lines) := GreenPool.wellFormed_new.internAll_text? lines
    rw [same] at denote
    exact denote.card_le
  · exact LineBuffer.shownLines_of_few

theorem length_shownLines (lines : List String) : (LineBuffer.shownLines lines).length = lines.length :=
  List.length_map _

/-- The forced loading loop loads all or nothing exactly when it loads the whole. -/
theorem allOrNothing_kept {lines : List String} {validator : Option EncodingValidator} {reports : List Report}
    (clean : reports = [] ↔ ∀ line ∈ lines, Accepts validator line) {heap : Heap} {buffer : LineBuffer}
    (shown : buffer.iterLines heap =
      .ok (LineBuffer.shownLines (lines.filter fun line => Accepts validator line))) :
    AllOrNothing (some lines) reports heap buffer ↔ LoadsWhole validator lines := by
  rw [AllOrNothing, shown, LoadsWhole]
  by_cases all : ∀ line ∈ lines, Accepts validator line
  · have kept : lines.filter (fun line => Accepts validator line) = lines :=
      List.filter_eq_self.mpr fun line member => decide_eq_true (all line member)
    rw [kept]
    constructor
    · rintro (⟨_, ⟨⟩, same⟩ | ⟨reported, _⟩)
      · exact .inr ⟨all, shownLines_eq_iff.mp (Except.ok.inj same)⟩
      · exact absurd (clean.mpr all) reported
    · rintro (rejected | ⟨_, few⟩)
      · obtain rfl : lines = [] := List.eq_nil_iff_forall_not_mem.mpr fun line member =>
          rejected line member (all line member)
        exact .inl ⟨[], rfl, rfl⟩
      · exact .inl ⟨lines, rfl, congrArg _ (shownLines_eq_iff.mpr few)⟩
  · have shorter : (lines.filter fun line => Accepts validator line).length < lines.length := by
      apply lt_of_le_of_ne (List.length_filter_le _ _)
      simpa only [ne_eq, List.length_filter_eq_length_iff, decide_eq_true_eq] using all
    constructor
    · rintro (⟨_, ⟨⟩, same⟩ | ⟨_, empty⟩)
      · have sizes := congrArg List.length (Except.ok.inj same)
        rw [length_shownLines] at sizes
        exact absurd sizes shorter.ne
      · have nothing := List.map_eq_nil_iff.mp (Except.ok.inj empty)
        exact .inl fun line member accepted =>
          List.filter_eq_nil_iff.mp nothing line member (decide_eq_true accepted)
    · rintro (rejected | ⟨accepted, _⟩)
      · have nothing : (lines.filter fun line => Accepts validator line) = [] :=
          List.filter_eq_nil_iff.mpr fun line member accepted => rejected line member (of_decide_eq_true accepted)
        refine .inr ⟨mt clean.mp all, ?_⟩
        rw [nothing]
        rfl
      · exact absurd accepted all

/-- A load is all or nothing exactly when the lines it decoded, if any, can be loaded as a whole. -/
theorem loadFile_all_or_nothing_iff (disk : Disk) (heap : Heap) (path : String) (encoding : Option Encoding) :
    ∃ reports heap' buffer, loadFile disk heap path encoding = .ok (reports, heap', buffer) ∧
      (AllOrNothing (decodedLines disk path encoding) reports heap' buffer ↔
        ∀ lines, decodedLines disk path encoding = some lines →
          LoadsWhole (encoding.map forcedEncodingValidator) lines) := by
  cases decoded : decodedLines disk path encoding with
  | none =>
    obtain ⟨report, failed⟩ := loadFile_undecoded decoded heap
    refine ⟨[report], _, _, failed, iff_of_true (.inr ⟨List.cons_ne_nil _ _, rfl⟩) ?_⟩
    intro lines found
    contradiction
  | some lines =>
    have only (P : List String → Prop) : (∀ other, some lines = some other → P other) ↔ P lines := by
      simp only [Option.some.injEq, forall_eq']
    rw [only]
    cases encoding with
    | none =>
      refine ⟨_, _, _, loadFile_plain_decoded decoded heap, ?_⟩
      have accepted : ∀ line ∈ lines, Accepts none line := fun line _ => accepts_none line
      apply allOrNothing_kept (iff_of_true rfl accepted)
      have kept : lines.filter (fun line => Accepts none line) = lines :=
        List.filter_eq_self.mpr fun line _ => decide_eq_true (accepts_none line)
      rw [kept]
      exact (LineBuffer.loaded_holds heap none lines).iterLines
    | some encoding =>
      obtain ⟨reports, heap', buffer, loaded, clean, appended⟩ := loadFile_forced_decoded decoded heap
      exact ⟨reports, heap', buffer, loaded, allOrNothing_kept clean appended.iterLines⟩

end Loads

section Samples

attribute [local instance] sampleDigests

/-- A disk whose files read as the bytes. -/
def byteDisk (bytes : List UInt8) : Disk := { sampleDisk "" with bytes := fun _ => some bytes }

/-- An EUC-JP file whose second line is decoded to a character that cannot be encoded: the buffer has
its first line only. -/
theorem half_loaded : ∃ reports heap buffer,
    decodedLines (byteDisk [0x61, 0x0A, 0x8F, 0xB0, 0xA1, 0x0A]) "f" (some eucJpEncoding) = some ["a", "\u4E02"] ∧
      loadFile (byteDisk [0x61, 0x0A, 0x8F, 0xB0, 0xA1, 0x0A]) Heap.empty "f" (some eucJpEncoding) =
        .ok (reports, heap, buffer) ∧
      buffer.iterLines heap = .ok ["a"] ∧ ¬ AllOrNothing (some ["a", "\u4E02"]) reports heap buffer := by
  have decoded : decodedLines (byteDisk [0x61, 0x0A, 0x8F, 0xB0, 0xA1, 0x0A]) "f" (some eucJpEncoding) =
      some ["a", "\u4E02"] := by decide
  obtain ⟨reports, heap, buffer, loaded, _, appended⟩ := loadFile_forced_decoded decoded Heap.empty
  have kept : (["a", "\u4E02"].filter fun line => Accepts (some (forcedEncodingValidator eucJpEncoding)) line) =
      ["a"] := by decide
  have shown := appended.iterLines
  rw [kept, LineBuffer.shownLines_of_few (by decide)] at shown
  refine ⟨reports, heap, buffer, decoded, loaded, shown, ?_⟩
  rw [AllOrNothing, shown]
  rintro (⟨lines, ⟨⟩, same⟩ | ⟨_, empty⟩)
  · exact absurd (Except.ok.inj same) (by decide)
  · exact absurd (Except.ok.inj empty) (by decide)

end Samples

end Mallard
