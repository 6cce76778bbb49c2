import Mallard.Proofs.LoadFile

/-! # Four ways to load the same lines

A text, its bytes, a source that yields its lines and an edit for each of its lines all lead to the same
lines over the same pool, or stop at the same first rejected line. The bulk loaders leave nothing to
undo. The callback of `from_source` cannot stop its caller, but behind the first rejected line it no
longer asks the validator and stores nothing.
-/

namespace Mallard

/-- Append lines by edits, up to the first error. -/
def appendLines [Digests] (heap : Heap) (buffer : LineBuffer) :
    List String → Outcome (Except EncodingError Unit × Heap × LineBuffer)
  | [] => pure (.ok (), heap, buffer)
  | line :: rest => do
    let (verdict, heap, buffer) ← buffer.insertLine heap buffer.lineCount line
    match verdict with
    | .ok () => appendLines heap buffer rest
    | .error error => pure (.error error, heap, buffer)

/-- All lines are accepted, or there is a first one that is not. -/
theorem accepted_or_rejected (validator : Option EncodingValidator) (lines : List String) :
    (∀ line ∈ lines, Accepts validator line) ∨
      ∃ before line after error, lines = before ++ line :: after ∧ (∀ other ∈ before, Accepts validator other) ∧
        checkLine validator line = .error error := by
  induction lines with
  | nil => exact .inl fun _ member => absurd member List.not_mem_nil
  | cons line lines ih =>
    by_cases here : Accepts validator line
    · rcases ih with all | ⟨before, failing, after, error, split, accepted, verdict⟩
      · exact .inl (List.forall_mem_cons.mpr ⟨here, all⟩)
      · refine .inr ⟨line :: before, failing, after, error, ?_, List.forall_mem_cons.mpr ⟨here, accepted⟩, verdict⟩
        rw [split]
        rfl
    · obtain ⟨error, verdict⟩ := checkLine_of_not_accepts here
      exact .inr ⟨[], line, lines, error, rfl, fun _ member => absurd member List.not_mem_nil, verdict⟩

namespace LineBuffer

section Loaders

variable [Digests] {heap : Heap} {validator : Option EncodingValidator} {before after : List String} {line : String}
  {error : EncodingError}

section Rejected

variable (accepted : ∀ other ∈ before, Accepts validator other) (verdict : checkLine validator line = .error error)
include accepted verdict

/-- The loading loop returns the error of the first rejected line. -/
theorem pushLines_rejected (heap : Heap) (root : Branch) :
    pushLines validator heap root (before ++ line :: after) = .error error := by
  induction before generalizing heap root with
  | nil =>
    rw [List.nil_append, pushLines, verdict]
  | cons first before ih =>
    obtain ⟨here, later⟩ := List.forall_mem_cons.mp accepted
    have passes : checkLine validator first = .ok () := here
    rw [List.cons_append, pushLines, passes]
    exact ih later _ _

/-- Up to the first rejected line, the callback stores what is accepted and then latches the error. -/
theorem foldl_onLine_rejected (heap : Heap) (root : Branch) :
    (before ++ [line]).foldl (onLine validator) (none, heap, root) =
      (some error, heap.store root.pool ((heap.lock root.pool).internAll before).2,
        { root with lines := root.lines ++ ((heap.lock root.pool).internAll before).1 }) := by
  have same := foldl_onLine validator before heap root
  rw [pushLines_eq_ok accepted] at same
  rw [List.foldl_append]
  generalize before.foldl (onLine validator) (none, heap, root) = reached at same ⊢
  obtain ⟨latched, state⟩ := reached
  cases latched with
  | some failure => cases same
  | none =>
    cases same
    rw [List.foldl_cons, onLine, verdict]
    rfl

end Rejected

/-- Accepted lines are appended one after the other. -/
theorem appendLines_append {buffer : LineBuffer} (owner : buffer.root.pool = buffer.pool)
    (nothing : buffer.root.redoStack = []) (accepted : ∀ other ∈ before, Accepts buffer.validator other)
    (rest : List String) :
    ∃ heap' final, appendLines heap buffer (before ++ rest) = appendLines heap' final rest ∧
      Appended heap buffer before heap' final := by
  induction before generalizing heap buffer with
  | nil => exact ⟨heap, buffer, rfl, .refl heap owner nothing⟩
  | cons first before ih =>
    obtain ⟨here, later⟩ := List.forall_mem_cons.mp accepted
    have inserted := insertLine_append heap owner here
    obtain ⟨heap', final, went, appended⟩ :=
      @ih (heap.store buffer.pool ((heap.lock buffer.pool).intern first).2)
        (buffer.pushed ((heap.lock buffer.pool).intern first).1) rfl rfl later
    refine ⟨heap', final, ?_, appended.cons⟩
    rw [List.cons_append, appendLines, inserted]
    exact went

/-- A rejected line is not appended, and its error is the validator's. -/
theorem insertLine_error (heap : Heap) {buffer : LineBuffer} (verdict : checkLine buffer.validator line = .error error) :
    buffer.insertLine heap buffer.lineCount line = .ok (.error error, heap, buffer) := by
  have inside : ¬ buffer.root.lines.length > buffer.root.lines.length := lt_irrefl _
  rw [LineBuffer.insertLine, Branch.insertLine, lineCount, Branch.lineCount, Branch.checkInsert, if_neg inside, verdict]
  rfl

/-- Appending stops at the first rejected line, with its error. -/
theorem appendLines_rejected {buffer : LineBuffer} (owner : buffer.root.pool = buffer.pool)
    (nothing : buffer.root.redoStack = []) (accepted : ∀ other ∈ before, Accepts buffer.validator other)
    (verdict : checkLine buffer.validator line = .error error) :
    ∃ heap' reached, appendLines heap buffer (before ++ line :: after) = .ok (.error error, heap', reached) ∧
      Appended heap buffer before heap' reached := by
  obtain ⟨heap', reached, went, appended⟩ := @appendLines_append _ heap before _ owner nothing accepted (line :: after)
  rw [← appended.validator] at verdict
  refine ⟨heap', reached, ?_, appended⟩
  rw [went, appendLines, insertLine_error heap' verdict]
  rfl

/-- The buffer shows the lines, and its pool lists their distinct strings. -/
structure LoadedWith (heap : Heap) (buffer : LineBuffer) (lines : List String) : Prop where
  visible : lines.toFinset.card ≤ idCount → buffer.iterLines heap = .ok lines
  lineCount : buffer.lineCount = lines.length
  distinct : (heap.lock buffer.pool).contents.Nodup
  contents : ∀ text, text ∈ (heap.lock buffer.pool).contents ↔ text ∈ lines

theorem loaded_loadedWith (heap : Heap) (validator : Option EncodingValidator) (lines : List String) :
    LoadedWith (loaded heap validator lines).1 (loaded heap validator lines).2 lines := by
  have holds := loaded_holds heap validator lines
  refine ⟨fun few => (loaded_holds_of_few heap validator few).iterLines, ?_, holds.valid.distinct, fun text => ?_⟩
  · rw [holds.lineCount, Timeline.fresh, shownLines, List.length_map]
  · rw [loaded, Heap.lock_store, GreenPool.contents_run, List.mem_inventory]

/-- Appended to a new buffer, the lines are interned and pushed as by a bulk load. -/
theorem appended_loadedWith {heap' : Heap} {lines : List String} {buffer : LineBuffer}
    (appended : Appended (LineBuffer.new heap validator).1 (LineBuffer.new heap validator).2 lines heap' buffer) :
    LoadedWith heap' buffer lines := by
  obtain ⟨pool, ids⟩ := appended.of_new
  refine ⟨fun few => ?_, ?_, ?_, fun text => ?_⟩
  · rw [appended.iterLines, shownLines_of_few few]
  · rw [lineCount, Branch.lineCount, ids, GreenPool.ids_run, List.length_map]
  · rw [pool, GreenPool.contents_run]
    exact List.nodup_inventory lines
  · rw [pool, GreenPool.contents_run, List.mem_inventory]

/-- The callback of `from_source` up to the first rejected line, and behind it: nothing but the lines
before has been stored, and no further line is validated, whatever validator were asked, or stored. -/
def Latches (heap : Heap) (validator : Option EncodingValidator) (before : List String) (line : String)
    (error : EncodingError) : Prop :=
  ∃ reached root, (before ++ [line]).foldl (onLine validator) (none, heap.alloc.2, Branch.new heap.alloc.1) =
      (some error, reached, root) ∧
    root.lines.length = before.length ∧ (∀ text ∈ (reached.lock heap.alloc.1).contents, text ∈ before) ∧
    ∀ other (later : List String), later.foldl (onLine other) (some error, reached, root) = (some error, reached, root)

theorem latches_of_rejected (heap : Heap) (accepted : ∀ other ∈ before, Accepts validator other)
    (verdict : checkLine validator line = .error error) : Latches heap validator before line error := by
  have fresh : heap.alloc.2.lock (Branch.new heap.alloc.1).pool = .new := heap.lock_alloc
  refine ⟨_, _, foldl_onLine_rejected accepted verdict _ _, ?_, ?_, ?_⟩
  · rw [fresh, GreenPool.ids_run]
    exact List.length_map _
  · intro text listed
    rw [fresh, Branch.new, Heap.lock_store, GreenPool.contents_run] at listed
    exact List.mem_inventory.mp listed
  · exact fun other later => foldl_onLine_latched other error _ later

theorem bulkLoad_rejected (heap : Heap) (accepted : ∀ other ∈ before, Accepts validator other)
    (verdict : checkLine validator line = .error error) :
    bulkLoad heap validator (before ++ line :: after) = .error error := by
  rw [bulkLoad, pushLines_rejected accepted verdict]
  rfl

theorem fromStr_rejected (heap : Heap) {text : String} (accepted : ∀ other ∈ before, Accepts validator other)
    (verdict : checkLine validator line = .error error) (shape : textLines text = before ++ line :: after) :
    fromStr heap text validator = .ok (.error error) := by
  rw [fromStr_eq, shape, bulkLoad_rejected heap accepted verdict]

theorem fromSource_rejected (heap : Heap) {source : LineSource} (unhinted : source.lineCountHint = none)
    (accepted : ∀ other ∈ before, Accepts validator other) (verdict : checkLine validator line = .error error)
    (shape : source.lines = before ++ line :: after) : fromSource heap source validator = .ok (.error error) := by
  rw [fromSource_eq (hintFits_of_unhinted unhinted), shape, bulkLoad_rejected heap accepted verdict]

/-- All four loaders succeed and show the lines over a pool of their distinct strings, and the buffer of
the bulk loaders has no history. -/
def AllLoad (heap : Heap) (text : String) (lines : List String) (source : LineSource)
    (validator : Option EncodingValidator) : Prop :=
  ∃ heap' buffer appendedHeap appended,
    fromStr heap text validator = .ok (.ok (heap', buffer)) ∧
    fromReader heap (.ok (asBytes text)) validator = .ok (.ok (heap', buffer)) ∧
    fromSource heap source validator = .ok (.ok (heap', buffer)) ∧
    appendLines (LineBuffer.new heap validator).1 (LineBuffer.new heap validator).2 lines =
      .ok (.ok (), appendedHeap, appended) ∧
    LoadedWith heap' buffer lines ∧ LoadedWith appendedHeap appended lines ∧
    buffer.undo = .ok (false, buffer) ∧ buffer.redo = .ok (false, buffer)

/-- All four loaders fail with the validator's error for the first rejected line, and the callback of
`from_source` does nothing behind it. -/
def AllReject (heap : Heap) (text : String) (lines : List String) (source : LineSource)
    (validator : Option EncodingValidator) : Prop :=
  ∃ before line after error, lines = before ++ line :: after ∧ (∀ other ∈ before, Accepts validator other) ∧
    checkLine validator line = .error error ∧
    fromStr heap text validator = .ok (.error error) ∧
    fromReader heap (.ok (asBytes text)) validator = .ok (.error (.invalidData error)) ∧
    fromSource heap source validator = .ok (.error error) ∧
    (∃ heap' reached, appendLines (LineBuffer.new heap validator).1 (LineBuffer.new heap validator).2 lines =
      .ok (.error error, heap', reached)) ∧
    Latches heap validator before line error

/-- The four ways to load a text agree, whatever the validator says. -/
theorem loaders_equivalent (heap : Heap) {text : String} {lines : List String}
    (split : splitOnLineEndings text = .ok lines) (validator : Option EncodingValidator) {source : LineSource}
    (yields : source.lines = lines) (unhinted : source.lineCountHint = none) :
    AllLoad heap text lines source validator ∨ AllReject heap text lines source validator := by
  obtain rfl := Except.ok.inj ((splitOnLineEndings_eq text).symm.trans split)
  rcases accepted_or_rejected validator (textLines text) with
    accepted | ⟨before, line, after, error, shape, accepted, verdict⟩
  · left
    obtain ⟨appendedHeap, appended, went, reached⟩ := @appendLines_append _ (LineBuffer.new heap validator).1
      (textLines text) (LineBuffer.new heap validator).2 rfl rfl accepted []
    rw [List.append_nil] at went
    refine ⟨(loaded heap validator (textLines text)).1, (loaded heap validator (textLines text)).2, appendedHeap,
      appended, fromStr_eq_ok accepted heap, ?_, ?_, went, loaded_loadedWith heap validator _,
      appended_loadedWith reached, rfl, rfl⟩
    · rw [fromReader_asBytes, fromStr_eq_ok accepted]
      rfl
    · rw [fromSource_eq_ok unhinted (yields ▸ accepted), yields]
  · right
    obtain ⟨heap', reached, stopped, _⟩ := @appendLines_rejected _ (LineBuffer.new heap validator).1 before after
      line error (LineBuffer.new heap validator).2 rfl rfl accepted verdict
    refine ⟨before, line, after, error, shape, accepted, verdict, fromStr_rejected heap accepted verdict shape, ?_,
      fromSource_rejected heap unhinted accepted verdict (yields.trans shape), ⟨heap', reached, shape ▸ stopped⟩,
      latches_of_rejected heap accepted verdict⟩
    rw [fromReader_asBytes, fromStr_rejected heap accepted verdict shape]
    rfl

end Loaders

section Samples

attribute [local instance] sampleDigests

/-- Rejects empty lines. -/
def noEmptyLine : EncodingValidator := ⟨fun line => if line = "" then .error ⟨line, "rejected"⟩ else .ok ()⟩

/-- The third of four lines is rejected by all loaders. -/
theorem sample_rejected : AllReject Heap.empty "a\na\n\nb" ["a", "a", "", "b"] ⟨none, ["a", "a", "", "b"]⟩
    (some noEmptyLine) := by
  have shape : textLines "a\na\n\nb" = ["a", "a", "", "b"] := by decide +kernel
  have split : splitOnLineEndings "a\na\n\nb" = .ok ["a", "a", "", "b"] := by rw [splitOnLineEndings_eq, shape]
  rcases @loaders_equivalent _ Heap.empty _ _ split (some noEmptyLine) ⟨none, ["a", "a", "", "b"]⟩ rfl rfl with
    ⟨_, _, _, _, loads, _⟩ | rejected
  · have accepted := (fromStr_loaded loads).2 "" (by rw [shape]; decide)
    have refused : ¬ Accepts (some noEmptyLine) "" := by decide
    exact absurd accepted refused
  · exact rejected

end Samples

end LineBuffer

end Mallard
