import Mallard.Proofs.LoadFile
import Mallard.Proofs.Saving
import Mallard.Model.Medlin.Commands

/-! # What the forced-encoding validator lets through

The validator takes every ASCII line without asking the encoder, while a save encodes every line. A
line that is not ASCII was encoded before it was stored, and its terminator does not matter. So a save
can fail to encode only an ASCII line, and it does when the encoder rejects one, as that of ISO-2022-JP
rejects the characters that switch between its character sets.
-/

namespace Mallard

/-- The encoder runs over the characters of a text from a state in which every text is started: it
rejects a text whose run stops at a character, takes any other, and stops at no terminator. The output
buffer is always large enough. -/
structure Encoding.RunsFrom {σ : Type} (encoding : Encoding) (init : σ) (step : σ → Char → Option σ) : Prop where
  roomy : ∀ text, (encoding.encodeAll text).1 ≠ .outputFull
  takes : ∀ {text capacity bytes}, encoding.encode text capacity = (.inputEmpty, bytes) →
    (text.toList.foldlM step init).isSome
  rejects : ∀ {text capacity bytes c}, encoding.encode text capacity = (.unmappable c, bytes) →
    text.toList.foldlM step init = none
  terminators : ∀ state, (step state '\r').isSome ∧ (step state '\n').isSome

/-- The shortcut of the validator gives the verdict of the encoder. -/
def Encoding.Judges (encoding : Encoding) (line : String) : Prop := isAscii line → encoding.Encodes line

theorem accepts_forced_iff {encoding : Encoding} {line : String} :
    Accepts (some (forcedEncodingValidator encoding)) line ↔ isAscii line ∨ encoding.Encodes line := by
  simp only [Accepts, checkLine, forcedEncodingValidator, Encoding.Encodes]
  cases ascii : isAscii line with
  | true => simp
  | false =>
    cases verdict : (encoding.encodeAll line).1 with
    | inputEmpty => simp
    | outputFull => simp
    | unmappable c => simp

/-- Of an accepted line only the shortcut can have misjudged whether it can be encoded. -/
theorem encodes_iff_judges {encoding : Encoding} {line : String}
    (accepted : Accepts (some (forcedEncodingValidator encoding)) line) : encoding.Encodes line ↔ encoding.Judges line := by
  constructor
  · exact fun encodes _ => encodes
  · intro judged
    exact (accepts_forced_iff.mp accepted).elim judged id

section Runs

variable {σ : Type} {encoding : Encoding} {init : σ} {step : σ → Char → Option σ}

theorem Encoding.RunsFrom.encodes_iff (runs : encoding.RunsFrom init step) (text : String) :
    encoding.Encodes text ↔ (text.toList.foldlM step init).isSome := by
  have roomy := runs.roomy text
  rw [Encodes, encodeAll] at *
  generalize encoded : encoding.encode text (encoding.capacity (asBytes text).length) = outcome at *
  obtain ⟨result, bytes⟩ := outcome
  cases result with
  | inputEmpty => exact iff_of_true rfl (runs.takes encoded)
  | outputFull => exact absurd rfl roomy
  | unmappable c => simp [runs.rejects encoded]

theorem Encoding.RunsFrom.step_terminator (runs : encoding.RunsFrom init step) (choice : LineEnding) (state : σ) :
    (choice.asStr.toList.foldlM step state).isSome := by
  obtain ⟨afterCr, cr⟩ := Option.isSome_iff_exists.mp (runs.terminators state).1
  obtain ⟨afterLf, lf⟩ := Option.isSome_iff_exists.mp (runs.terminators state).2
  obtain ⟨afterBoth, both⟩ := Option.isSome_iff_exists.mp (runs.terminators afterCr).2
  cases choice with
  | lf => simp [LineEnding.asStr, lf]
  | crlf => simp [LineEnding.asStr, cr, both]
  | cr => simp [LineEnding.asStr, cr]

/-- A line can be encoded with its terminator exactly when it can be encoded. -/
theorem Encoding.RunsFrom.encodes_terminated (runs : encoding.RunsFrom init step) (line : String) (choice : LineEnding) :
    encoding.Encodes (line ++ choice.asStr) ↔ encoding.Encodes line := by
  rw [runs.encodes_iff, runs.encodes_iff, String.toList_append, List.foldlM_append]
  cases line.toList.foldlM step init with
  | none => exact Iff.rfl
  | some state => exact iff_of_true (runs.step_terminator choice state) rfl

end Runs

section Buffers

variable [Digests] {encoding : Encoding} {heap : Heap} {buffer : LineBuffer}

/-- No save with the encoding takes the branch for a line that cannot be encoded. -/
def NeverUnencodable (encoding : Encoding) (heap : Heap) (buffer : LineBuffer) : Prop :=
  ∀ (disk : Disk) (path : String) (choice : LineEnding) (line : ℕ) (name : String) (disk' : Disk),
    save disk heap buffer path choice.asStr (some encoding) ≠ .ok (.error (.saveUnencodable line name), disk')

theorem neverUnencodable_iff {texts : Timeline (List String)} (holds : buffer.Holds heap texts) :
    NeverUnencodable encoding heap buffer ↔
      ∀ choice : LineEnding, ∀ line ∈ texts.present, encoding.Encodes (line ++ choice.asStr) := by
  constructor
  · intro never choice
    by_contra rejected
    have opened : (sampleDisk "").createError "" = none := rfl
    have saved := save_eq holds opened choice.asStr (some encoding)
    have unlimited : Fits ((sampleDisk "").room "") (passedOn (savedChunks choice.asStr texts.present (some encoding))) :=
      fits_none _
    rw [savedVerdict, if_pos unlimited, Option.elim_some, encodingVerdict, if_neg rejected] at saved
    exact never _ _ _ _ _ _ saved
  · intro encodes disk path choice line name disk' failed
    cases opened : disk.createError path with
    | some error =>
      rw [save_refused opened] at failed
      cases failed
    | none =>
      rw [save_eq holds opened, savedVerdict, Option.elim_some, encodingVerdict, if_pos (encodes choice)] at failed
      split at failed <;> cases failed

/-- A save with the encoding never fails to encode exactly when the shortcut judged every visible line
as the encoder does. -/
theorem Vetted.neverUnencodable_iff (vetted : Vetted encoding heap buffer) {σ : Type} {init : σ}
    {step : σ → Char → Option σ} (runs : encoding.RunsFrom init step) :
    ∃ lines, buffer.iterLines heap = .ok lines ∧
      (∀ line ∈ lines, line ∈ (heap.lock buffer.pool).contents) ∧
      (NeverUnencodable encoding heap buffer ↔ ∀ line ∈ lines, encoding.Judges line) := by
  obtain ⟨texts, holds⟩ := vetted.holds
  have listed : ∀ line ∈ texts.present, line ∈ (heap.lock buffer.pool).contents := holds.present.mem_contents
  refine ⟨texts.present, holds.iterLines, listed, ?_⟩
  rw [Mallard.neverUnencodable_iff holds]
  simp only [runs.encodes_terminated]
  constructor
  · intro encodes line member
    exact (encodes_iff_judges (vetted.accepted line (listed line member))).mp (encodes .lf line member)
  · intro judged _ line member
    exact (encodes_iff_judges (vetted.accepted line (listed line member))).mpr (judged line member)

/-- If the call brings in a text, the shortcut judges it as the encoder does. -/
def JudgesCall (encoding : Encoding) : BufferOp → Prop
  | .insertLine _ content | .replaceLine _ content => encoding.Judges content
  | .deleteLine _ | .undo | .redo => True

omit [Digests] in
theorem JudgesCall.items {validator : Option EncodingValidator} {op : BufferOp} (judged : JudgesCall encoding op)
    {move : Timeline.LineOp String} (asked : (op.onRoot validator).move? = some move) :
    ∀ text ∈ move.items, encoding.Judges text := by
  intro text member
  obtain ⟨⟨n, rfl | rfl⟩, _⟩ := BufferOp.mem_items asked member
  · exact judged
  · exact judged

/-- As long as no load and no call brought in a line that the shortcut misjudged, no save fails to encode. -/
theorem Vetted.run_judged (vetted : Vetted encoding heap buffer) {ops : List BufferOp}
    (loads : ∀ text ∈ (heap.lock buffer.pool).contents, encoding.Judges text)
    (calls : ∀ op ∈ ops, JudgesCall encoding op) {replies : List Reply} {heap' : Heap} {final : LineBuffer}
    (ran : buffer.run heap ops = .ok (replies, heap', final)) :
    ∀ text ∈ (heap'.lock final.pool).contents, encoding.Judges text := by
  obtain ⟨texts, holds⟩ := vetted.holds
  obtain ⟨_, _, _, _, reached, _, _, judged⟩ := holds.run_contents loads fun op member _ asked =>
    (calls op member).items asked
  cases ran.symm.trans reached
  exact judged

/-- What is saved after a run of calls. -/
theorem Forced.run_saves {result : Heap × LineBuffer} (forced : Forced encoding result) {σ : Type} {init : σ}
    {step : σ → Char → Option σ} (runs : encoding.RunsFrom init step) (ops : List BufferOp) :
    ∃ replies heap' final lines, result.2.run result.1 ops = .ok (replies, heap', final) ∧
      final.iterLines heap' = .ok lines ∧
      (NeverUnencodable encoding heap' final ↔ ∀ line ∈ lines, encoding.Judges line) ∧
      ((∀ text ∈ (result.1.lock result.2.pool).contents, encoding.Judges text) →
        (∀ op ∈ ops, JudgesCall encoding op) → NeverUnencodable encoding heap' final) := by
  obtain ⟨replies, heap', final, ran, vetted⟩ := forced.vetted.run ops
  obtain ⟨lines, shown, listed, never⟩ := vetted.neverUnencodable_iff runs
  refine ⟨replies, heap', final, lines, ran, shown, never, fun loads calls => never.mpr fun line member => ?_⟩
  exact forced.vetted.run_judged loads calls ran line (listed line member)

/-- An accepted line can be the only one of a buffer. -/
theorem forced_singleton {text : String} (accepted : Accepts (some (forcedEncodingValidator encoding)) text) :
    ∃ result : Heap × LineBuffer, Forced encoding result ∧ result.2.iterLines result.1 = .ok [text] := by
  have only : ∀ line ∈ [text], Accepts (some (forcedEncodingValidator encoding)) line :=
    fun line member => List.mem_singleton.mp member ▸ accepted
  have unhinted : (LineSource.mk none [text]).lineCountHint = none := rfl
  have few : [text].toFinset.card ≤ idCount := le_trans (List.toFinset_card_le [text]) (show 1 ≤ idCount by decide)
  exact ⟨_, .obtained (.fromSource (LineBuffer.fromSource_eq_ok unhinted only Heap.empty)),
    (LineBuffer.loaded_holds_of_few Heap.empty _ few).iterLines⟩

/-- In every state that edits, undo and redo calls lead to, no save with the encoding fails to encode
exactly when the shortcut of the validator gives the encoder's verdict on the visible lines; so none
does if no load and no call brought in another line. This is so in all states of all buffers exactly
when the shortcut is right about every text. -/
theorem forced_saves_iff {σ : Type} {init : σ} {step : σ → Char → Option σ} (runs : encoding.RunsFrom init step) :
    (∀ {result : Heap × LineBuffer}, Forced encoding result → ∀ ops : List BufferOp,
      ∃ replies heap' final lines, result.2.run result.1 ops = .ok (replies, heap', final) ∧
        final.iterLines heap' = .ok lines ∧
        (NeverUnencodable encoding heap' final ↔ ∀ line ∈ lines, encoding.Judges line) ∧
        ((∀ text ∈ (result.1.lock result.2.pool).contents, encoding.Judges text) →
          (∀ op ∈ ops, JudgesCall encoding op) → NeverUnencodable encoding heap' final)) ∧
    ((∀ {result : Heap × LineBuffer}, Forced encoding result → ∀ {ops replies heap' final},
      result.2.run result.1 ops = .ok (replies, heap', final) → NeverUnencodable encoding heap' final) ↔
        ∀ text, encoding.Judges text) := by
  refine ⟨fun forced ops => forced.run_saves runs ops, ?_, ?_⟩
  · intro never text ascii
    obtain ⟨result, forced, only⟩ := forced_singleton (accepts_forced_iff.mpr (.inl ascii))
    obtain ⟨replies, heap', final, lines, ran, shown, judges, _⟩ := forced.run_saves runs []
    have judged := judges.mp (never forced ran)
    cases ran
    cases only.symm.trans shown
    exact judged text (List.mem_singleton.mpr rfl) ascii
  · intro judged result forced ops replies heap' final ran
    obtain ⟨_, _, _, lines, reached, _, judges, _⟩ := forced.run_saves runs ops
    cases ran.symm.trans reached
    exact judges.mpr fun line _ => judged line

end Buffers

section Samples

attribute [local instance] sampleDigests

/-- Runs over characters that are rejected one by one, as in encodings without states. -/
def rejecting (rejected : Char → Bool) (_ : Unit) (c : Char) : Option Unit := if rejected c then none else some ()

theorem foldlM_rejecting (rejected : Char → Bool) (chars : List Char) :
    chars.foldlM (rejecting rejected) () = if chars.any rejected then none else some () := by
  induction chars with
  | nil => rfl
  | cons c chars ih =>
    rw [List.foldlM_cons, rejecting, List.any_cons]
    cases rejected c with
    | true => rfl
    | false => exact ih

theorem utf8Encoding_runs : utf8Encoding.RunsFrom () (rejecting fun _ => false) where
  roomy text := by simp [utf8Encoding_isUtf8.encode]
  takes _ := by simp [foldlM_rejecting]
  rejects encoded := by
    simp only [utf8Encoding] at encoded
    split at encoded <;> cases encoded
  terminators _ := ⟨rfl, rfl⟩

/-- The characters that switch between character sets are rejected. -/
theorem iso2022JpEncoding_runs :
    iso2022JpEncoding.RunsFrom () (rejecting fun c => 128 ≤ c.toNat ∨ c ∈ ['\x0E', '\x0F', '\x1B']) where
  roomy text := by
    simp only [Encoding.encodeAll, iso2022JpEncoding]
    split <;> simp
  takes encoded := by
    simp only [iso2022JpEncoding] at encoded
    split at encoded
    · next clean =>
      rw [foldlM_rejecting, List.any_eq_false.mpr (List.find?_eq_none.mp clean)]
      rfl
    · cases encoded
  rejects encoded := by
    simp only [iso2022JpEncoding] at encoded
    split at encoded
    · cases encoded
    · next c found =>
      rw [foldlM_rejecting, List.any_eq_true.mpr ⟨c, List.mem_of_find?_eq_some found, List.find?_some found⟩]
      rfl
  terminators _ := ⟨rfl, rfl⟩

/-- A line that is not ASCII goes through the encoder before it is stored. -/
theorem sample_forced_saves : ∃ replies heap final,
    (emptyBufWithEnc Heap.empty utf8Encoding).2.run (emptyBufWithEnc Heap.empty utf8Encoding).1
        [.insertLine 0 "é"] = .ok (replies, heap, final) ∧
      NeverUnencodable utf8Encoding heap final := by
  have start : Forced utf8Encoding (emptyBufWithEnc Heap.empty utf8Encoding) := .obtained .new
  obtain ⟨replies, heap, final, lines, ran, _, never, _⟩ :=
    (forced_saves_iff utf8Encoding_runs).1 start [.insertLine 0 "é"]
  exact ⟨replies, heap, final, ran, never.mpr fun line _ _ => utf8Encoding_isUtf8.encode line⟩

/-- The validator accepts a control character that the encoder of ISO-2022-JP rejects, and no save gets
past its line. -/
theorem control_character_unencodable :
    (∃ step, iso2022JpEncoding.RunsFrom () step) ∧ ∃ heap buffer disk',
      (emptyBufWithEnc Heap.empty iso2022JpEncoding).2.run (emptyBufWithEnc Heap.empty iso2022JpEncoding).1
          [.insertLine 0 "\x0E"] = .ok ([.result (.ok ())], heap, buffer) ∧
        save (sampleDisk "") heap buffer "f" LineEnding.lf.asStr (some iso2022JpEncoding) =
          .ok (.error (.saveUnencodable 1 "ISO-2022-JP"), disk') ∧
        ¬ NeverUnencodable iso2022JpEncoding heap buffer := by
  refine ⟨⟨_, iso2022JpEncoding_runs⟩, _, _, _, rfl, rfl, fun never => ?_⟩
  exact never (sampleDisk "") "f" .lf 1 "ISO-2022-JP" _ rfl

end Samples

end Mallard
