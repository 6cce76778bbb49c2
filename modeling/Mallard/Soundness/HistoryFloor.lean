import Mallard.Proofs.LoadFile

/-! # How far undo reaches behind a load

Undo stops at the state that a buffer had when its history was empty. A bulk load leaves the history
empty, so no sequence of commands can take undo behind it. The forced path loads through edits, and
undo takes those back as well: the lines of the file go one after the other.
-/

namespace Mallard

theorem Branch.undoStack_of_undo {branch next : Branch} (stopped : branch.undo = .ok (false, next)) :
    branch.undoStack = [] := by
  rw [undo] at stopped
  split at stopped
  · assumption
  all_goals
    obtain ⟨_, _, same⟩ := Outcome.bind_eq_ok.mp stopped
    cases same

namespace LineBuffer

variable [Digests] {heap : Heap} {buffer : LineBuffer}

/-- Undo calls until one returns `false` lead back to the oldest snapshot. -/
theorem Holds.rewind {texts : Timeline (List String)} (holds : buffer.Holds heap texts) :
    ∃ restored, buffer.run heap (List.replicate texts.past.length .undo ++ [.undo]) =
        .ok (List.replicate texts.past.length (.flag true) ++ [.flag false], heap, restored) ∧
      restored.iterLines heap = .ok texts.base := by
  obtain ⟨root, ran, owner, visible⟩ := Branch.Shows.rewind (holds.owner ▸ holds.valid) (holds.owner ▸ holds.shown)
  refine ⟨{ buffer with root }, ?_, ?_⟩
  · rw [run_eq, List.map_append, List.map_replicate, List.map_singleton]
    simp only [BufferOp.onRoot, ran]
    rfl
  · rw [iterLines_eq_ok, ← holds.owner, ← owner]
    exact Branch.visible_eq_ok.mp visible

/-- The lines of the buffer are the floor of its history: undo has nothing to take back, and from
every later state undo calls until one returns `false` restore exactly these lines. -/
structure Floor (heap : Heap) (buffer : LineBuffer) : Prop where
  immediate : buffer.undo = .ok (false, buffer)
  restored : ∃ lines, buffer.iterLines heap = .ok lines ∧
    ∀ ops, ∃ replies heap' edited, buffer.run heap ops = .ok (replies, heap', edited) ∧
      ∃ count final, edited.run heap' (List.replicate count .undo ++ [.undo]) =
          .ok (List.replicate count (.flag true) ++ [.flag false], heap', final) ∧
        final.iterLines heap' = .ok lines

/-- With an empty history, the present is the floor. -/
theorem Holds.floor {lines : List String} (holds : buffer.Holds heap (.fresh lines)) : buffer.Floor heap := by
  refine ⟨?_, lines, holds.iterLines, ?_⟩
  · obtain ⟨ids, tracks, denote⟩ := holds.shown
    have empty := tracks.undoStack_length.trans denote.past.length_eq
    rw [undo, Branch.undo, List.eq_nil_of_length_eq_zero empty]
    rfl
  · intro ops
    have kept : ∀ op ∈ ops, ∀ (pool : GreenPool) (texts : Timeline (List String)) (grown : GreenPool)
        (later : Timeline (List String)), pool.WellFormed → texts.base = lines →
        Branch.advanceTexts? pool texts (op.onRoot buffer.validator) = some (grown, later) → later.base = lines := by
      intro op _ pool texts grown later _ base advanced
      exact (Branch.base_advanceTexts? advanced).trans base
    obtain ⟨replies, heap', edited, later, ran, _, _, after, base⟩ :=
      run_holds (P := fun _ texts => texts.base = lines) kept holds (Timeline.base_fresh lines)
    obtain ⟨final, rewound, shown⟩ := after.rewind
    exact ⟨replies, heap', edited, ran, _, final, rewound, base ▸ shown⟩

theorem Floor.undoStack (floor : buffer.Floor heap) : buffer.root.undoStack = [] := by
  obtain ⟨⟨moved, next⟩, undone, same⟩ := Outcome.bind_eq_ok.mp floor.immediate
  obtain rfl : moved = false := congrArg Prod.fst (Except.ok.inj same)
  exact Branch.undoStack_of_undo undone

end LineBuffer

section Loads

variable [Digests]

/-- What a load appended by edits is what undo can take back. -/
theorem Appended.floor_iff {heap heap' : Heap} {encoding : Encoding} {kept : List String} {buffer : LineBuffer}
    (appended : Appended (emptyBufWithEnc heap encoding).1 (emptyBufWithEnc heap encoding).2 kept heap' buffer) :
    buffer.Floor heap' ↔ kept = [] := by
  constructor
  · intro floor
    have count := appended.undoStack
    rw [floor.undoStack] at count
    exact List.eq_nil_of_length_eq_zero (by simpa [emptyBufWithEnc, LineBuffer.new, Branch.new] using count.symm)
  · rintro rfl
    obtain ⟨rfl, pool, owner, _, lines, undoStack, redoStack⟩ := appended
    have fresh : (emptyBufWithEnc heap encoding).1.lock (emptyBufWithEnc heap encoding).2.pool = .new :=
      heap.lock_alloc
    have holds : buffer.Holds ((emptyBufWithEnc heap encoding).1.store (emptyBufWithEnc heap encoding).2.pool .new)
        (.fresh []) := by
      refine ⟨owner.trans pool.symm, ?_, ?_⟩
      · rw [pool, Heap.lock_store]
        exact GreenPool.wellFormed_new
      · obtain ⟨ref, ⟨root, ids, done, undone⟩, validator⟩ := buffer
        obtain rfl : ids = [] := lines
        obtain rfl : done = [] := List.eq_nil_of_length_eq_zero undoStack
        obtain rfl : undone = [] := redoStack
        exact Branch.shows_fresh root .nil
    rw [fresh]
    exact holds.floor

/-- The lines a file was loaded with are the floor of the history exactly when none of them was
appended by an edit. -/
theorem loadFile_floor_iff (disk : Disk) (heap : Heap) (path : String) (encoding : Option Encoding) :
    ∃ reports heap' buffer, loadFile disk heap path encoding = .ok (reports, heap', buffer) ∧
      (buffer.Floor heap' ↔ appendedLines disk path encoding = []) := by
  cases encoding with
  | none =>
    obtain ⟨reports, lines, loaded⟩ := loadFile_plain disk heap path
    exact ⟨reports, _, _, loaded, iff_of_true (LineBuffer.loaded_holds heap none lines).floor rfl⟩
  | some encoding =>
    obtain ⟨reports, heap', buffer, loaded, appended⟩ := loadFile_forced disk heap path encoding
    exact ⟨reports, heap', buffer, loaded, appended.floor_iff⟩

end Loads

section Samples

attribute [local instance] sampleDigests

/-- A file of one line, loaded with UTF-8 forced: the first undo takes the line away. -/
theorem forced_load_undone : ∃ heap buffer emptied,
    loadFile (sampleDisk "a") Heap.empty "f" (some utf8Encoding) = .ok ([], heap, buffer) ∧
      buffer.iterLines heap = .ok ["a"] ∧ buffer.undo = .ok (true, emptied) ∧ emptied.iterLines heap = .ok [] ∧
      ¬ buffer.Floor heap := by
  have decoded : utf8Encoding.decode (asBytes "a") = ("a", false) := utf8Encoding_isUtf8.decode (by decide)
  have split : strLines "a" = ["a"] := by decide
  have loaded : loadFile (sampleDisk "a") Heap.empty "f" (some utf8Encoding) =
      loadLines (emptyBufWithEnc Heap.empty utf8Encoding).1 (emptyBufWithEnc Heap.empty utf8Encoding).2 ["a"] := by
    rw [← split]
    simp only [loadFile, sampleDisk, Disk.read, Disk.contents, decoded]
    rfl
  rw [loaded]
  refine ⟨_, _, _, rfl, rfl, rfl, rfl, ?_⟩
  exact fun floor => List.cons_ne_nil _ _ floor.undoStack

end Samples

end Mallard
