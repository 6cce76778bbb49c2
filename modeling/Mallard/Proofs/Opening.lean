import Mallard.Model.Medlin.Program
import Mallard.Proofs.LoadFile
import Mallard.Soundness.EditorRefinement

/-! # What the program opens

A file that is there is loaded, on the plain path with an empty history, on the forced path by
insertions that stay in the history. Whatever cannot be read or decoded is reported and leaves no lines;
so does a file that is not there, without a report.
-/

namespace Mallard

/-- The lines of a file that is opened: the accepted ones of those that can be decoded. -/
def loadedLines (disk : Disk) (path : String) (encoding : Option Encoding) : List String :=
  ((decodedLines disk path encoding).getD []).filter
    fun line => Accepts (encoding.map forcedEncodingValidator) line

/-- The reports about the lines that a validator rejects. -/
def rejections (validator : Option EncodingValidator) (lines : List String) : List Report :=
  lines.flatMap fun line =>
    match checkLine validator line with
    | .ok () => []
    | .error error => [.loadRejected error]

/-- The reports about a file that is opened. -/
def loadReports (disk : Disk) (path : String) : Option Encoding → List Report
  | none =>
    match disk.read path with
    | .error error => [.loadFailed path error]
    | .ok bytes => if fromUtf8 bytes = none then [.loadFailed path .invalidUtf8] else []
  | some encoding =>
    match disk.read path with
    | .error error => [.loadFailed path error]
    | .ok bytes =>
      if (encoding.decode bytes).2 then [.loadInvalid path encoding.name]
      else rejections (some (forcedEncodingValidator encoding)) (strLines (encoding.decode bytes).1)

/-- The history of a file that is opened with lines. -/
def openedTexts (lines : List String) : Option Encoding → Timeline (List String)
  | none => .fresh lines
  | some _ => Timeline.appended (.fresh []) lines

theorem present_openedTexts (lines : List String) (encoding : Option Encoding) :
    (openedTexts lines encoding).present = lines := by
  cases encoding with
  | none => rfl
  | some encoding => exact Timeline.present_appended _ lines

section Loads

variable [Digests]

/-- The buffer that was opened: it lists the lines and shows their history, within the range of the ids. -/
structure Opens (lines : List String) (encoding : Option Encoding) (heap : Heap) (buffer : LineBuffer) : Prop where
  validator : buffer.validator = encoding.map forcedEncodingValidator
  contents : (heap.lock buffer.pool).contents = lines.inventory
  holds : ∃ texts, buffer.Holds heap texts ∧
    ((heap.lock buffer.pool).Fits → texts = openedTexts lines encoding)

theorem opens_loaded (heap : Heap) (lines : List String) :
    Opens lines none (LineBuffer.loaded heap none lines).1 (LineBuffer.loaded heap none lines).2 := by
  have contents : ((LineBuffer.loaded heap none lines).1.lock (LineBuffer.loaded heap none lines).2.pool).contents =
      lines.inventory := by
    rw [LineBuffer.loaded, Heap.lock_store, GreenPool.contents_run]
  refine ⟨rfl, contents, _, LineBuffer.loaded_holds heap none lines, fun fits => ?_⟩
  rw [GreenPool.Fits, ← GreenPool.length_contents, contents, List.length_inventory] at fits
  rw [LineBuffer.shownLines_of_few fits]
  rfl

/-- A new buffer opens no lines. -/
theorem opens_empty (heap : Heap) (encoding : Option Encoding) :
    Opens [] encoding (emptyBuffer heap encoding).1 (emptyBuffer heap encoding).2 := by
  have new : emptyBuffer heap encoding = LineBuffer.loaded heap (encoding.map forcedEncodingValidator) [] := by
    rw [← LineBuffer.new_eq_loaded]
    cases encoding <;> rfl
  have holds := LineBuffer.loaded_holds heap (encoding.map forcedEncodingValidator) []
  rw [new]
  refine ⟨rfl, ?_, _, holds, fun _ => ?_⟩
  · rw [LineBuffer.loaded, Heap.lock_store, GreenPool.contents_run]
  · cases encoding <;> rfl

/-- Steps of buffer and texts compose. -/
theorem Advanced.trans {heap heap' heap'' : Heap} {buffer next final : LineBuffer} {added more : List String}
    {expected : Timeline (List String)} {after : Timeline (List String) → Timeline (List String)}
    (first : Advanced heap buffer added expected heap' next)
    (second : ∀ later, next.Holds heap' later → Advanced heap' next more (after later) heap'' final) :
    Advanced heap buffer (added ++ more) (after expected) heap'' final := by
  obtain ⟨pool, validator, contents, later, between, agrees⟩ := first
  obtain ⟨pool', validator', contents', latest, holds, agrees'⟩ := second later between
  rw [pool] at contents' agrees'
  refine ⟨pool'.trans pool, validator'.trans validator, ?_, latest, holds, fun reaches => ?_⟩
  · rw [contents', contents, List.pushAll_append]
  · have grown : (heap'.lock buffer.pool).Extends (heap''.lock buffer.pool) := by
      rw [GreenPool.Extends, contents']
      exact List.prefix_pushAll _ _
    have known (text : String) (brought : text ∈ added) : text ∈ (heap'.lock buffer.pool).contents := by
      rw [contents]
      exact List.mem_pushAll.mpr (.inr brought)
    rw [List.forall_mem_append] at reaches
    rw [agrees' reaches.2, agrees fun text brought => (grown.reaches_iff (known text brought)).mp (reaches.1 text brought)]

variable {heap : Heap} {buffer : LineBuffer} {texts : Timeline (List String)}

/-- An accepted line is appended, and joins the history. -/
theorem insertLine_advanced (holds : buffer.Holds heap texts) {line : String}
    (accepted : Accepts buffer.validator line) :
    ∃ heap' next, buffer.insertLine heap buffer.lineCount line = .ok (.ok (), heap', next) ∧
      Advanced heap buffer [line] (texts.record (texts.present ++ [line])) heap' next := by
  have inserted := LineBuffer.insertLine_append heap holds.owner accepted
  have called : buffer.call heap (.insertLine buffer.lineCount line) = .ok (.result (.ok ()),
      heap.store buffer.pool ((heap.lock buffer.pool).intern line).2,
      buffer.pushed ((heap.lock buffer.pool).intern line).1) := by
    rw [LineBuffer.call, inserted]
    rfl
  have advanced := LineBuffer.call_advanced holds called
  have move : ((BufferOp.insertLine buffer.lineCount line).onRoot buffer.validator).move? =
      some (.insert buffer.lineCount line) := if_pos accepted
  have exec : ((BufferOp.insertLine buffer.lineCount line).onRoot buffer.validator).exec? texts =
      some (texts.record (texts.present ++ [line])) := by
    rw [BranchOp.exec?, move, Option.bind_some, Timeline.exec?, holds.lineCount, if_pos le_rfl,
      List.insertIdx_length_self]
  rw [BranchOp.introduced, exec, move] at advanced
  exact ⟨_, _, inserted, advanced⟩

/-- The forced loading loop reports the rejected lines and appends the others. -/
theorem loadLines_advanced (holds : buffer.Holds heap texts) (lines : List String) :
    ∃ heap' next, loadLines heap buffer lines = .ok (rejections buffer.validator lines, heap', next) ∧
      Advanced heap buffer (lines.filter fun line => Accepts buffer.validator line)
        (texts.appended (lines.filter fun line => Accepts buffer.validator line)) heap' next := by
  induction lines generalizing heap buffer texts with
  | nil => exact ⟨heap, buffer, rfl, rfl, rfl, rfl, texts, holds, fun _ => rfl⟩
  | cons line lines ih =>
    rw [rejections, List.flatMap_cons]
    cases verdict : checkLine buffer.validator line with
    | ok =>
      have accepted : Accepts buffer.validator line := verdict
      obtain ⟨heap', next, inserted, first⟩ := insertLine_advanced holds accepted
      obtain ⟨later, after, _⟩ := first.holds
      obtain ⟨heap'', final, loaded, _⟩ := ih after
      have rest : ∀ later, next.Holds heap' later → Advanced heap' next
          (lines.filter fun line => Accepts buffer.validator line)
          (later.appended (lines.filter fun line => Accepts buffer.validator line)) heap'' final := by
        intro later after
        obtain ⟨_, _, again, advanced⟩ := ih after
        cases loaded.symm.trans again
        rwa [first.validator] at advanced
      rw [List.filter_cons, if_pos (decide_eq_true accepted)]
      refine ⟨heap'', final, ?_, first.trans rest⟩
      rw [loadLines, inserted]
      simp only [Outcome.ok_bind, loaded, first.validator]
      rfl
    | error error =>
      have rejected : ¬ Accepts buffer.validator line := by simp [Accepts, verdict]
      have beyond : ¬ buffer.lineCount > buffer.root.lines.length := Nat.lt_irrefl _
      have refused : buffer.insertLine heap buffer.lineCount line = .ok (.error error, heap, buffer) := by
        rw [LineBuffer.insertLine, Branch.insertLine, Branch.checkInsert, if_neg beyond, verdict]
        rfl
      obtain ⟨heap', next, loaded, advanced⟩ := ih holds
      rw [List.filter_cons, if_neg (mt of_decide_eq_true rejected)]
      refine ⟨heap', next, ?_, advanced⟩
      rw [loadLines, refused]
      simp only [Outcome.ok_bind, loaded]
      rfl

omit [Digests] in
theorem loadedLines_plain (disk : Disk) (path : String) :
    loadedLines disk path none = (decodedLines disk path none).getD [] :=
  List.filter_eq_self.mpr fun line _ => decide_eq_true (accepts_none line)

/-- What the forced path reaches from a new buffer. -/
theorem opens_appended {encoding : Encoding} {kept : List String} {heap' : Heap} {final : LineBuffer}
    (advanced : Advanced (emptyBufWithEnc heap encoding).1 (emptyBufWithEnc heap encoding).2 kept
      (Timeline.appended (.fresh []) kept) heap' final) :
    Opens kept (some encoding) heap' final := by
  have fresh : (emptyBufWithEnc heap encoding).1.lock (emptyBufWithEnc heap encoding).2.pool = .new := heap.lock_alloc
  obtain ⟨texts, holds, agrees⟩ := advanced.holds_of_fits
  obtain ⟨pool, validator, contents, _⟩ := advanced
  rw [fresh] at contents
  rw [← pool] at contents agrees
  exact ⟨validator, contents, texts, holds, agrees⟩

/-- A load prints its reports and opens its lines. -/
theorem loadFile_opens (disk : Disk) (heap : Heap) (path : String) (encoding : Option Encoding) :
    ∃ heap' buffer, loadFile disk heap path encoding = .ok (loadReports disk path encoding, heap', buffer) ∧
      Opens (loadedLines disk path encoding) encoding heap' buffer := by
  have nothing := opens_empty heap encoding
  cases encoding with
  | none =>
    rw [loadedLines_plain, decodedLines, loadFile, loadReports]
    cases content : disk.read path with
    | error error => exact ⟨_, _, rfl, nothing⟩
    | ok bytes =>
      dsimp only
      cases valid : fromUtf8 bytes with
      | none =>
        rw [if_pos rfl]
        simp only [LineBuffer.fromReader, valid]
        exact ⟨_, _, rfl, nothing⟩
      | some text =>
        rw [if_neg (Option.some_ne_none text)]
        simp only [LineBuffer.fromReader, valid, LineBuffer.fromStr_eq_ok (fun line _ => accepts_none line)]
        exact ⟨_, _, rfl, opens_loaded heap (textLines text)⟩
  | some encoding =>
    rw [loadedLines, decodedLines, loadFile, loadReports]
    cases content : disk.read path with
    | error error => exact ⟨_, _, rfl, nothing⟩
    | ok bytes =>
      cases errors : (encoding.decode bytes).2 with
      | true =>
        simp only [errors, if_true]
        exact ⟨_, _, rfl, nothing⟩
      | false =>
        obtain ⟨heap', final, loaded, advanced⟩ := loadLines_advanced
          (LineBuffer.loaded_holds heap (some (forcedEncodingValidator encoding)) [])
          (strLines (encoding.decode bytes).1)
        rw [← LineBuffer.new_eq_loaded] at loaded advanced
        simp only [errors, Bool.false_eq_true, if_false]
        exact ⟨heap', final, loaded, opens_appended advanced⟩

/-- The lines of the file to edit, and the reports about it. -/
def openedFile (around : Surroundings) (encoding : Option Encoding) : Option String → List Report × List String
  | some path =>
    if around.pathExists path then (loadReports around.disk path encoding, loadedLines around.disk path encoding)
    else ([], [])
  | none => ([], [])

/-- Opening the file to edit prints its reports and opens its lines. -/
theorem openFile_opens (around : Surroundings) (heap : Heap) (encoding : Option Encoding) (file : Option String) :
    ∃ heap' buffer, openFile around heap encoding file = .ok ((openedFile around encoding file).1, heap', buffer) ∧
      Opens (openedFile around encoding file).2 encoding heap' buffer := by
  cases file with
  | none => exact ⟨_, _, rfl, opens_empty heap encoding⟩
  | some path =>
    rw [openFile, openedFile]
    split
    · exact loadFile_opens around.disk heap path encoding
    · exact ⟨_, _, rfl, opens_empty heap encoding⟩

end Loads

end Mallard
