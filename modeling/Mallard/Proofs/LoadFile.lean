import Mallard.Proofs.BufferTexts
import Mallard.Model.Medlin.Files

/-! # The two ways medlin loads a file

The plain path is a bulk load. The forced path appends every accepted line by an edit: it hands out
the ids that a bulk load of these lines would, but records one edit per line. A rejected line is
reported, so a load without reports loaded all of its lines.
-/

namespace Mallard

variable [Digests] {heap heap' : Heap} {buffer : LineBuffer}

/-- The buffer with an id appended to its lines and the insertion recorded. -/
def LineBuffer.pushed (buffer : LineBuffer) (id : GreenLineId) : LineBuffer :=
  { buffer with root := ⟨buffer.pool, buffer.root.lines ++ [id], .insert buffer.lineCount id :: buffer.root.undoStack, []⟩ }

/-- Appending an accepted line by an edit. -/
theorem LineBuffer.insertLine_append (heap : Heap) (owner : buffer.root.pool = buffer.pool) {line : String}
    (accepted : Accepts buffer.validator line) :
    buffer.insertLine heap buffer.lineCount line =
      .ok (.ok (), heap.store buffer.pool ((heap.lock buffer.pool).intern line).2,
        buffer.pushed ((heap.lock buffer.pool).intern line).1) := by
  have passes := Branch.checkInsert_eq_ok.mpr ⟨le_refl buffer.root.lines.length, accepted⟩
  rw [LineBuffer.insertLine, Branch.insertLine, lineCount, Branch.lineCount, passes]
  simp only [Branch.insertId, Vec.insert_of_le le_rfl, List.insertIdx_length_self, owner]
  rfl

theorem LineBuffer.insertLine_rejected (heap : Heap) {line : String} (rejected : ¬ Accepts buffer.validator line)
    (n : ℕ) : ∃ error, buffer.insertLine heap n line = .ok (.error error, heap, buffer) := by
  obtain ⟨error, verdict⟩ := Branch.eq_error_of_ne_ok
    (mt Branch.checkInsert_eq_ok.mp (fun both => rejected both.2) :
      Branch.checkInsert buffer.root.lines.length n line buffer.validator ≠ .ok ())
  refine ⟨error, ?_⟩
  rw [LineBuffer.insertLine, Branch.insertLine, verdict]
  rfl

/-- What the forced loading loop reaches: it interned and pushed the accepted lines, recorded one
edit for each, and left nothing to redo. -/
structure Appended (heap : Heap) (buffer : LineBuffer) (kept : List String) (heap' : Heap) (final : LineBuffer) :
    Prop where
  interned : heap' = heap.store buffer.pool ((heap.lock buffer.pool).internAll kept).2
  pool : final.pool = buffer.pool
  owner : final.root.pool = buffer.pool
  validator : final.validator = buffer.validator
  lines : final.root.lines = buffer.root.lines ++ ((heap.lock buffer.pool).internAll kept).1
  undoStack : final.root.undoStack.length = buffer.root.undoStack.length + kept.length
  redoStack : final.root.redoStack = []

theorem Appended.refl (heap : Heap) (owner : buffer.root.pool = buffer.pool) (nothing : buffer.root.redoStack = []) :
    Appended heap buffer [] heap buffer :=
  ⟨(Heap.store_lock heap buffer.pool).symm, rfl, owner, rfl, (List.append_nil _).symm, rfl, nothing⟩

theorem Appended.cons {line : String} {kept : List String} {final : LineBuffer}
    (rest : Appended (heap.store buffer.pool ((heap.lock buffer.pool).intern line).2)
      (buffer.pushed ((heap.lock buffer.pool).intern line).1) kept heap' final) : Appended heap buffer (line :: kept) heap' final := by
  obtain ⟨reached, pool, root, validator, lines, undoStack, redoStack⟩ := rest
  simp only [LineBuffer.pushed, Heap.lock_store, Heap.store_store] at reached pool root validator lines undoStack
  refine ⟨reached, pool, root, validator, ?_, ?_, redoStack⟩
  · rw [lines, List.append_assoc]
    rfl
  · rw [undoStack, List.length_cons, List.length_cons]
    omega

/-- The forced loading loop appends the accepted lines, and reports nothing exactly when it rejected none. -/
theorem loadLines_appended (owner : buffer.root.pool = buffer.pool) (nothing : buffer.root.redoStack = [])
    (lines : List String) :
    ∃ reports heap' final, loadLines heap buffer lines = .ok (reports, heap', final) ∧
      (reports = [] ↔ ∀ line ∈ lines, Accepts buffer.validator line) ∧
      Appended heap buffer (lines.filter fun line => Accepts buffer.validator line) heap' final := by
  induction lines generalizing heap buffer with
  | nil =>
    exact ⟨[], heap, buffer, rfl, by simp, .refl heap owner nothing⟩
  | cons line lines ih =>
    by_cases accepted : Accepts buffer.validator line
    · have inserted := LineBuffer.insertLine_append heap owner accepted
      obtain ⟨reports, heap', final, loaded, clean, appended⟩ :=
        @ih (heap.store buffer.pool ((heap.lock buffer.pool).intern line).2)
          (buffer.pushed ((heap.lock buffer.pool).intern line).1) rfl rfl
      refine ⟨reports, heap', final, ?_, ?_, ?_⟩
      · rw [loadLines, inserted]
        simp only [Outcome.ok_bind, loaded]
        rfl
      · rw [clean, List.forall_mem_cons, and_iff_right accepted]
        exact Iff.rfl
      · rw [List.filter_cons, if_pos (decide_eq_true accepted)]
        exact appended.cons
    · obtain ⟨error, refused⟩ := LineBuffer.insertLine_rejected heap accepted buffer.lineCount
      obtain ⟨reports, heap', final, loaded, _, appended⟩ := @ih heap buffer owner nothing
      refine ⟨.loadRejected error :: reports, heap', final, ?_, ?_, ?_⟩
      · rw [loadLines, refused]
        simp only [Outcome.ok_bind, loaded]
        rfl
      · exact iff_of_false (List.cons_ne_nil _ _) (fun all => accepted (all line List.mem_cons_self))
      · rw [List.filter_cons, if_neg (mt of_decide_eq_true accepted)]
        exact appended

/-- The forced loading loop is a run of insertions. -/
theorem loadLines_run {lines : List String} {reports : List Report} {final : LineBuffer}
    (loaded : loadLines heap buffer lines = .ok (reports, heap', final)) :
    ∃ ops replies, buffer.run heap ops = .ok (replies, heap', final) := by
  induction lines generalizing heap buffer reports with
  | nil =>
    cases loaded
    exact ⟨[], [], rfl⟩
  | cons line lines ih =>
    rw [loadLines] at loaded
    obtain ⟨⟨verdict, after, next⟩, inserted, loaded⟩ := Outcome.bind_eq_ok.mp loaded
    obtain ⟨⟨later, reached, last⟩, rest, loaded⟩ := Outcome.bind_eq_ok.mp loaded
    have same : (reached, last) = (heap', final) := by
      cases verdict with
      | ok => cases loaded; rfl
      | error => cases loaded; rfl
    cases same
    have called : buffer.call heap (.insertLine buffer.lineCount line) = .ok (.result verdict, after, next) := by
      rw [LineBuffer.call, inserted]
      rfl
    obtain ⟨ops, replies, ran⟩ := ih rest
    exact ⟨.insertLine buffer.lineCount line :: ops, .result verdict :: replies, LineBuffer.run_cons called ran⟩

/-- Appended to a new buffer, lines are interned and pushed as by a bulk load. -/
theorem Appended.of_new {validator : Option EncodingValidator} {kept : List String} {final : LineBuffer}
    (appended : Appended (LineBuffer.new heap validator).1 (LineBuffer.new heap validator).2 kept heap' final) :
    heap'.lock final.pool = (GreenPool.new.internAll kept).2 ∧ final.root.lines = (GreenPool.new.internAll kept).1 := by
  have fresh : (LineBuffer.new heap validator).1.lock (LineBuffer.new heap validator).2.pool = .new := heap.lock_alloc
  obtain ⟨rfl, pool, _, _, lines, _, _⟩ := appended
  rw [pool, Heap.lock_store, lines, fresh]
  exact ⟨rfl, rfl⟩

theorem Appended.iterLines {validator : Option EncodingValidator} {kept : List String} {final : LineBuffer}
    (appended : Appended (LineBuffer.new heap validator).1 (LineBuffer.new heap validator).2 kept heap' final) :
    final.iterLines heap' = .ok (LineBuffer.shownLines kept) := by
  obtain ⟨pool, lines⟩ := appended.of_new
  rw [LineBuffer.iterLines_eq_ok, pool, lines]
  exact GreenPool.wellFormed_new.internAll_text? kept

/-- A codec that behaves as UTF-8: text without a byte-order mark is decoded as it is, and every text
can be encoded. -/
structure Encoding.IsUtf8 (encoding : Encoding) : Prop where
  decode : ∀ {text : String}, text.toList.head? ≠ some '\uFEFF' → encoding.decode (asBytes text) = (text, false)
  encode : ∀ text, (encoding.encodeAll text).1 = .inputEmpty

omit [Digests] in
theorem utf8Encoding_isUtf8 : utf8Encoding.IsUtf8 := by
  constructor
  · intro text unmarked
    simp only [utf8Encoding, fromUtf8_asBytes, if_neg unmarked]
  · intro text
    have room : (asBytes text).length ≤ utf8Encoding.capacity (asBytes text).length := le_rfl
    exact congrArg Prod.fst (if_pos room)

omit [Digests] in
theorem Encoding.IsUtf8.accepts {encoding : Encoding} (isUtf8 : encoding.IsUtf8) (line : String) :
    Accepts (some (forcedEncodingValidator encoding)) line := by
  simp only [Accepts, checkLine, forcedEncodingValidator, isUtf8.encode]
  split <;> rfl

/-- The lines of the decoded text, as far as the file can be read and decoded. -/
def decodedLines (disk : Disk) (path : String) : Option Encoding → Option (List String)
  | none =>
    match disk.read path with
    | .error _ => none
    | .ok bytes => (fromUtf8 bytes).map textLines
  | some encoding =>
    match disk.read path with
    | .error _ => none
    | .ok bytes => if (encoding.decode bytes).2 then none else some (strLines (encoding.decode bytes).1)

/-- A file that cannot be read or decoded is reported, and the buffer is new. -/
theorem loadFile_undecoded {disk : Disk} {path : String} {encoding : Option Encoding}
    (failed : decodedLines disk path encoding = none) (heap : Heap) :
    ∃ report, loadFile disk heap path encoding =
      .ok ([report], LineBuffer.new heap (encoding.map forcedEncodingValidator)) := by
  cases encoding with
  | none =>
    rw [loadFile]
    rw [decodedLines] at failed
    cases content : disk.read path with
    | error error => exact ⟨_, rfl⟩
    | ok bytes =>
      rw [content] at failed
      have invalid : fromUtf8 bytes = none := Option.map_eq_none_iff.mp failed
      simp only [LineBuffer.fromReader, invalid]
      exact ⟨_, rfl⟩
  | some encoding =>
    rw [loadFile]
    rw [decodedLines] at failed
    cases content : disk.read path with
    | error error => exact ⟨_, rfl⟩
    | ok bytes =>
      rw [content] at failed
      cases errors : (encoding.decode bytes).2 with
      | true =>
        simp only [errors]
        exact ⟨_, rfl⟩
      | false => simp [errors] at failed

/-- The plain path is a bulk load of the decoded lines. -/
theorem loadFile_plain_decoded {disk : Disk} {path : String} {lines : List String}
    (decoded : decodedLines disk path none = some lines) (heap : Heap) :
    loadFile disk heap path none = .ok ([], LineBuffer.loaded heap none lines) := by
  have accepted (text : String) : ∀ line ∈ textLines text, Accepts none line := fun line _ => accepts_none line
  rw [loadFile]
  rw [decodedLines] at decoded
  cases content : disk.read path with
  | error error =>
    rw [content] at decoded
    cases decoded
  | ok bytes =>
    rw [content] at decoded
    obtain ⟨text, valid, rfl⟩ := Option.map_eq_some_iff.mp decoded
    simp only [LineBuffer.fromReader, valid, LineBuffer.fromStr_eq_ok (accepted text)]
    rfl

/-- The forced path appends the accepted ones of the decoded lines to a new buffer, and reports nothing
exactly when it rejected none. -/
theorem loadFile_forced_decoded {disk : Disk} {path : String} {encoding : Encoding} {lines : List String}
    (decoded : decodedLines disk path (some encoding) = some lines) (heap : Heap) :
    ∃ reports heap' buffer, loadFile disk heap path (some encoding) = .ok (reports, heap', buffer) ∧
      (reports = [] ↔ ∀ line ∈ lines, Accepts (some (forcedEncodingValidator encoding)) line) ∧
      Appended (emptyBufWithEnc heap encoding).1 (emptyBufWithEnc heap encoding).2
        (lines.filter fun line => Accepts (some (forcedEncodingValidator encoding)) line) heap' buffer := by
  rw [decodedLines] at decoded
  rw [loadFile]
  cases content : disk.read path with
  | error error =>
    rw [content] at decoded
    cases decoded
  | ok bytes =>
    rw [content] at decoded
    cases errors : (encoding.decode bytes).2 with
    | true => simp [errors] at decoded
    | false =>
      simp only [errors, Bool.false_eq_true, if_false, Option.some.injEq] at decoded
      simp only [errors, ← decoded]
      exact @loadLines_appended _ (emptyBufWithEnc heap encoding).1 (emptyBufWithEnc heap encoding).2 rfl rfl _

/-- The forced path leads to its buffer by insertions into a new one. -/
theorem loadFile_forced_run {disk : Disk} {path : String} {encoding : Encoding} {reports : List Report}
    {final : LineBuffer} (loaded : loadFile disk heap path (some encoding) = .ok (reports, heap', final)) :
    ∃ ops replies, (emptyBufWithEnc heap encoding).2.run (emptyBufWithEnc heap encoding).1 ops =
      .ok (replies, heap', final) := by
  rw [loadFile] at loaded
  cases content : disk.read path with
  | error error =>
    rw [content] at loaded
    cases loaded
    exact ⟨[], [], rfl⟩
  | ok bytes =>
    cases errors : (encoding.decode bytes).2 with
    | true =>
      simp only [content, errors] at loaded
      cases loaded
      exact ⟨[], [], rfl⟩
    | false =>
      simp only [content, errors] at loaded
      exact loadLines_run loaded

/-- The lines that the forced path appends by edits: the accepted lines of a text it could decode. -/
def appendedLines (disk : Disk) (path : String) : Option Encoding → List String
  | none => []
  | some encoding =>
    match disk.read path with
    | .error _ => []
    | .ok bytes =>
      if (encoding.decode bytes).2 then []
      else (strLines (encoding.decode bytes).1).filter
        fun line => Accepts (some (forcedEncodingValidator encoding)) line

omit [Digests] in
theorem appendedLines_forced (disk : Disk) (path : String) (encoding : Encoding) :
    appendedLines disk path (some encoding) = ((decodedLines disk path (some encoding)).getD []).filter
      fun line => Accepts (some (forcedEncodingValidator encoding)) line := by
  rw [appendedLines, decodedLines]
  cases disk.read path with
  | error error => rfl
  | ok bytes => cases errors : (encoding.decode bytes).2 <;> simp [errors]

/-- The plain path is a bulk load, of no lines when it fails. -/
theorem loadFile_plain (disk : Disk) (heap : Heap) (path : String) :
    ∃ reports lines, loadFile disk heap path none = .ok (reports, LineBuffer.loaded heap none lines) := by
  cases decoded : decodedLines disk path none with
  | none =>
    obtain ⟨report, failed⟩ := loadFile_undecoded decoded heap
    exact ⟨[report], [], LineBuffer.new_eq_loaded heap none ▸ failed⟩
  | some lines => exact ⟨[], lines, loadFile_plain_decoded decoded heap⟩

/-- The forced path appends its lines to a new buffer. -/
theorem loadFile_forced (disk : Disk) (heap : Heap) (path : String) (encoding : Encoding) :
    ∃ reports heap' buffer, loadFile disk heap path (some encoding) = .ok (reports, heap', buffer) ∧
      Appended (emptyBufWithEnc heap encoding).1 (emptyBufWithEnc heap encoding).2
        (appendedLines disk path (some encoding)) heap' buffer := by
  rw [appendedLines_forced]
  cases decoded : decodedLines disk path (some encoding) with
  | none =>
    obtain ⟨report, failed⟩ := loadFile_undecoded decoded heap
    exact ⟨[report], _, _, failed, .refl _ rfl rfl⟩
  | some lines =>
    obtain ⟨reports, heap', buffer, loaded, _, appended⟩ := loadFile_forced_decoded decoded heap
    exact ⟨reports, heap', buffer, loaded, appended⟩

section Forced

variable {encoding : Encoding}

/-- A buffer that carries the validator of an encoding, from one of the constructors or a file. -/
inductive Forced (encoding : Encoding) : Heap × LineBuffer → Prop
  | obtained {heap : Heap} {result : Heap × LineBuffer}
      (obtained : Obtained heap (some (forcedEncodingValidator encoding)) result) : Forced encoding result
  | file {disk : Disk} {heap : Heap} {path : String} {reports : List Report} {result : Heap × LineBuffer}
      (returned : loadFile disk heap path (some encoding) = .ok (reports, result)) : Forced encoding result

/-- The pool lists accepted lines only, and the validator is still in place. -/
structure Vetted (encoding : Encoding) (heap : Heap) (buffer : LineBuffer) : Prop where
  installed : buffer.validator = some (forcedEncodingValidator encoding)
  holds : ∃ texts, buffer.Holds heap texts
  accepted : ∀ text ∈ (heap.lock buffer.pool).contents, Accepts (some (forcedEncodingValidator encoding)) text

theorem Vetted.run (vetted : Vetted encoding heap buffer) (ops : List BufferOp) :
    ∃ replies heap' final, buffer.run heap ops = .ok (replies, heap', final) ∧ Vetted encoding heap' final := by
  obtain ⟨texts, holds⟩ := vetted.holds
  have listed := vetted.accepted
  rw [← vetted.installed] at listed
  obtain ⟨replies, heap', final, later, ran, validator, after, accepted⟩ :=
    holds.run_contents listed fun op (_ : op ∈ ops) _ asked _ brought => (BufferOp.mem_items asked brought).2
  rw [vetted.installed] at validator accepted
  exact ⟨replies, heap', final, ran, validator, ⟨later, after⟩, accepted⟩

theorem Obtained.vetted {result : Heap × LineBuffer}
    (obtained : Obtained heap (some (forcedEncodingValidator encoding)) result) : Vetted encoding result.1 result.2 := by
  obtain ⟨lines, rfl, accepted⟩ := obtained.loaded
  refine ⟨rfl, ⟨_, LineBuffer.loaded_holds heap _ lines⟩, ?_⟩
  intro text listed
  rw [LineBuffer.loaded, Heap.lock_store, GreenPool.contents_run, List.mem_inventory] at listed
  exact accepted text listed

theorem Forced.vetted {result : Heap × LineBuffer} (forced : Forced encoding result) : Vetted encoding result.1 result.2 := by
  cases forced with
  | obtained obtained => exact obtained.vetted
  | @file _ heap _ _ _ returned =>
    obtain ⟨ops, replies, ran⟩ := loadFile_forced_run returned
    have start : Obtained heap (some (forcedEncodingValidator encoding)) (emptyBufWithEnc heap encoding) := .new
    obtain ⟨_, _, _, reached, vetted⟩ := start.vetted.run ops
    cases ran.symm.trans reached
    exact vetted

end Forced

end Mallard
