import Mallard.Proofs.BranchTexts
import Mallard.Proofs.Splitting

/-! # What buffers hold

A buffer is a branch over a pool of its own. Calls on the buffer are calls on its root with the
installed validator; the bulk loaders intern and push the lines they accept and leave the stacks
empty.
-/

namespace Mallard

/-- What a call brings in is its content, which the validator let through. -/
theorem BufferOp.mem_items {validator : Option EncodingValidator} {op : BufferOp} {move : Timeline.LineOp String}
    (asked : (op.onRoot validator).move? = some move) {text : String} (member : text ∈ move.items) :
    (∃ n, op = .insertLine n text ∨ op = .replaceLine n text) ∧ Accepts validator text := by
  cases op with
  | insertLine n content =>
    simp only [onRoot, BranchOp.move?, Option.ite_none_right_eq_some, Option.some.injEq] at asked
    obtain ⟨accepted, rfl⟩ := asked
    obtain rfl := List.mem_singleton.mp member
    exact ⟨⟨n, .inl rfl⟩, accepted⟩
  | replaceLine n content =>
    simp only [onRoot, BranchOp.move?, Option.ite_none_right_eq_some, Option.some.injEq] at asked
    obtain ⟨accepted, rfl⟩ := asked
    obtain rfl := List.mem_singleton.mp member
    exact ⟨⟨n, .inr rfl⟩, accepted⟩
  | deleteLine | undo | redo =>
    cases asked
    exact absurd member List.not_mem_nil

namespace LineBuffer

/-- The root works on the buffer's own pool and shows the history of texts. -/
structure Holds [Digests] (heap : Heap) (buffer : LineBuffer) (texts : Timeline (List String)) : Prop where
  owner : buffer.root.pool = buffer.pool
  valid : (heap.lock buffer.pool).WellFormed
  shown : buffer.root.Shows (heap.lock buffer.pool) texts

variable [Digests] {heap : Heap} {buffer : LineBuffer} {texts : Timeline (List String)}

theorem Holds.present (holds : buffer.Holds heap texts) :
    (heap.lock buffer.pool).DenoteAll buffer.root.lines texts.present := holds.shown.present

theorem Holds.lineCount (holds : buffer.Holds heap texts) : buffer.lineCount = texts.present.length :=
  holds.shown.lineCount

omit [Digests] in
theorem iterLines_eq_ok {lines : List String} :
    buffer.iterLines heap = .ok lines ↔ (heap.lock buffer.pool).DenoteAll buffer.root.lines lines :=
  ⟨GreenPool.denoteAll_of_mapM_get, GreenPool.DenoteAll.mapM_get⟩

theorem Holds.iterLines (holds : buffer.Holds heap texts) : buffer.iterLines heap = .ok texts.present :=
  iterLines_eq_ok.mpr holds.present

theorem Holds.getLine (holds : buffer.Holds heap texts) (n : ℕ) :
    buffer.getLine heap n = .ok texts.present[n]? := by
  apply Branch.getLine_eq
  rw [holds.owner]
  exact holds.present

/-- A call on the buffer is a call on its root. -/
theorem call_eq (heap : Heap) (buffer : LineBuffer) (op : BufferOp) :
    buffer.call heap op =
      (buffer.root.call heap (op.onRoot buffer.validator)).map fun (reply, heap, root) =>
        (reply, heap, { buffer with root }) := by
  cases op with
  | insertLine n content =>
    simp only [call, insertLine, BufferOp.onRoot, Branch.call]
    cases buffer.root.insertLine heap n content buffer.validator <;> rfl
  | replaceLine n content =>
    simp only [call, replaceLine, BufferOp.onRoot, Branch.call]
    cases buffer.root.replaceLine heap n content buffer.validator <;> rfl
  | deleteLine n =>
    simp only [call, deleteLine, BufferOp.onRoot, Branch.call]
    cases buffer.root.deleteLine n <;> rfl
  | undo =>
    simp only [call, undo, BufferOp.onRoot, Branch.call]
    cases buffer.root.undo <;> rfl
  | redo =>
    simp only [call, redo, BufferOp.onRoot, Branch.call]
    cases buffer.root.redo <;> rfl

/-- A call on a buffer never panics. It moves the history of texts, or leaves everything as it was. -/
theorem call_holds (holds : buffer.Holds heap texts) (op : BufferOp) :
    match Branch.advanceTexts? (heap.lock buffer.pool) texts (op.onRoot buffer.validator) with
    | some (grown, later) => ∃ next,
        buffer.call heap op = .ok ((op.onRoot buffer.validator).reply texts.present.length true,
            heap.store buffer.pool grown, next) ∧
          next.pool = buffer.pool ∧ next.validator = buffer.validator ∧
          next.Holds (heap.store buffer.pool grown) later
    | none => buffer.call heap op =
        .ok ((op.onRoot buffer.validator).reply texts.present.length false, heap, buffer) := by
  have spec := Branch.call_shows (holds.owner ▸ holds.valid) (holds.owner ▸ holds.shown)
    (op.onRoot buffer.validator)
  rw [holds.owner] at spec
  rw [call_eq]
  cases advanced : Branch.advanceTexts? (heap.lock buffer.pool) texts (op.onRoot buffer.validator) with
  | none =>
    rw [advanced] at spec
    rw [spec]
    rfl
  | some result =>
    obtain ⟨grown, later⟩ := result
    rw [advanced] at spec
    obtain ⟨root, called, pool, shown⟩ := spec
    rw [called]
    refine ⟨{ buffer with root }, rfl, rfl, rfl, pool, ?_, ?_⟩
    · rw [Heap.lock_store]
      exact (Branch.advanceTexts?_pool holds.valid advanced).1
    · rw [Heap.lock_store]
      exact shown

theorem run_cons {op : BufferOp} {ops : List BufferOp} {reply : Reply} {replies : List Reply}
    {heap' heap'' : Heap} {next final : LineBuffer} (called : buffer.call heap op = .ok (reply, heap', next))
    (ran : next.run heap' ops = .ok (replies, heap'', final)) :
    buffer.run heap (op :: ops) = .ok (reply :: replies, heap'', final) := by
  simp only [run, called, Outcome.ok_bind, ran]
  rfl

/-- A run of calls on the buffer is a run of calls on its root. -/
theorem run_eq (heap : Heap) (buffer : LineBuffer) (ops : List BufferOp) :
    buffer.run heap ops =
      (buffer.root.run heap (ops.map (BufferOp.onRoot buffer.validator))).map fun (replies, heap, root) =>
        (replies, heap, { buffer with root }) := by
  induction ops generalizing heap buffer with
  | nil => rfl
  | cons op ops ih =>
    simp only [run, List.map_cons, Branch.run, call_eq]
    cases buffer.root.call heap (op.onRoot buffer.validator) with
    | error panic => rfl
    | ok called =>
      obtain ⟨reply, heap', root⟩ := called
      simp only [Except.map, Outcome.ok_bind, ih]
      cases root.run heap' (ops.map (BufferOp.onRoot buffer.validator)) <;> rfl

/-- A run of calls never panics, and what every successful call preserves holds at its end. -/
theorem run_holds {P : GreenPool → Timeline (List String) → Prop} {ops : List BufferOp}
    (step : ∀ op ∈ ops, ∀ pool texts grown later, pool.WellFormed → P pool texts →
      Branch.advanceTexts? pool texts (op.onRoot buffer.validator) = some (grown, later) → P grown later)
    (holds : buffer.Holds heap texts) (start : P (heap.lock buffer.pool) texts) :
    ∃ replies heap' final later, buffer.run heap ops = .ok (replies, heap', final) ∧
      final.pool = buffer.pool ∧ final.validator = buffer.validator ∧ final.Holds heap' later ∧
      P (heap'.lock buffer.pool) later := by
  induction ops generalizing heap buffer texts with
  | nil => exact ⟨[], heap, buffer, texts, rfl, rfl, rfl, holds, start⟩
  | cons op ops ih =>
    have spec := call_holds holds op
    have first := step op List.mem_cons_self (heap.lock buffer.pool) texts
    cases advanced : Branch.advanceTexts? (heap.lock buffer.pool) texts (op.onRoot buffer.validator) with
    | none =>
      rw [advanced] at spec
      obtain ⟨replies, heap', final, later, ran, rest⟩ :=
        ih (fun other member => step other (List.mem_cons_of_mem _ member)) holds start
      exact ⟨_, heap', final, later, run_cons spec ran, rest⟩
    | some result =>
      obtain ⟨grown, later⟩ := result
      rw [advanced] at spec
      obtain ⟨next, called, pool, validator, after⟩ := spec
      have kept : P ((heap.store buffer.pool grown).lock next.pool) later := by
        rw [pool, Heap.lock_store]
        exact first grown later holds.valid start advanced
      obtain ⟨replies, heap', final, latest, ran, samePool, sameValidator, finished, reached⟩ :=
        ih (validator ▸ fun other member => step other (List.mem_cons_of_mem _ member)) after kept
      exact ⟨_, heap', final, latest, run_cons called ran, samePool.trans pool,
        sameValidator.trans validator, finished, pool ▸ reached⟩

/-- A run of calls keeps what holds of every string of the pool and of every text that it brings in. -/
theorem Holds.run_contents {Q : String → Prop} {ops : List BufferOp} (holds : buffer.Holds heap texts)
    (each : ∀ text ∈ (heap.lock buffer.pool).contents, Q text)
    (brought : ∀ op ∈ ops, ∀ move, (op.onRoot buffer.validator).move? = some move → ∀ text ∈ move.items, Q text) :
    ∃ replies heap' final later, buffer.run heap ops = .ok (replies, heap', final) ∧
      final.validator = buffer.validator ∧ final.Holds heap' later ∧
      ∀ text ∈ (heap'.lock final.pool).contents, Q text := by
  have kept : ∀ op ∈ ops, ∀ (pool : GreenPool) (texts : Timeline (List String)) (grown : GreenPool)
      (later : Timeline (List String)), pool.WellFormed → (∀ text ∈ pool.contents, Q text) →
      Branch.advanceTexts? pool texts (op.onRoot buffer.validator) = some (grown, later) →
        ∀ text ∈ grown.contents, Q text := by
    intro op member pool texts grown later valid before advanced text listed
    obtain ⟨_, _, move, asked, contents⟩ := Branch.advanceTexts?_pool valid advanced
    rw [contents] at listed
    rcases List.mem_pushAll.mp listed with old | new
    · exact before text old
    · exact brought op member move asked text new
  obtain ⟨replies, heap', final, later, ran, pool, validator, after, still⟩ :=
    run_holds (P := fun pool _ => ∀ text ∈ pool.contents, Q text) kept holds each
  exact ⟨replies, heap', final, later, ran, validator, after, pool ▸ still⟩

/-- What holds of every string of the pool holds of the visible lines, and of the lines after any undo
and redo calls. -/
theorem Holds.forall_lines {Q : String → Prop} (holds : buffer.Holds heap texts)
    (each : ∀ text ∈ (heap.lock buffer.pool).contents, Q text) {moves : List BufferOp}
    (history : ∀ move ∈ moves, move = .undo ∨ move = .redo) :
    ∃ replies heap' final lines, buffer.run heap moves = .ok (replies, heap', final) ∧
      final.iterLines heap' = .ok lines ∧ (∀ line ∈ lines, Q line) ∧
      (heap'.lock final.pool).DenoteAll final.root.lines lines := by
  have nothing : ∀ op ∈ moves, ∀ move, (op.onRoot buffer.validator).move? = some move →
      ∀ text ∈ move.items, Q text := by
    intro op member move asked text brought
    obtain ⟨⟨n, content⟩, _⟩ := BufferOp.mem_items asked brought
    rcases history op member with rfl | rfl <;> simp at content
  obtain ⟨replies, heap', final, later, ran, _, after, still⟩ := holds.run_contents each nothing
  refine ⟨replies, heap', final, later.present, ran, after.iterLines, ?_, after.present⟩
  exact fun line member => still line (after.present.mem_contents line member)

/-- The heap and the buffer after a bulk load of accepted lines. -/
def loaded (heap : Heap) (validator : Option EncodingValidator) (lines : List String) : Heap × LineBuffer :=
  (heap.alloc.2.store heap.next (GreenPool.new.internAll lines).2,
    ⟨heap.next, ⟨heap.next, (GreenPool.new.internAll lines).1, [], []⟩, validator⟩)

/-- A new buffer is a load of no lines. -/
theorem new_eq_loaded (heap : Heap) (validator : Option EncodingValidator) :
    LineBuffer.new heap validator = loaded heap validator [] := by
  have fresh := Heap.store_lock heap.alloc.2 heap.alloc.1
  rw [heap.lock_alloc] at fresh
  exact Prod.ext fresh.symm rfl

/-- What a load of lines shows: for every line the string that the new pool resolves it to. -/
def shownLines (lines : List String) : List String := lines.map (GreenPool.new.internAll lines).2.resolved

/-- A loaded buffer has no history. -/
theorem loaded_holds (heap : Heap) (validator : Option EncodingValidator) (lines : List String) :
    (loaded heap validator lines).2.Holds (loaded heap validator lines).1 (.fresh (shownLines lines)) := by
  refine ⟨rfl, ?_, ?_⟩
  · rw [loaded, Heap.lock_store]
    exact (GreenPool.wellFormed_new.internAll lines).1
  · rw [loaded, Heap.lock_store]
    exact Branch.shows_fresh _ (GreenPool.wellFormed_new.internAll_text? lines)

/-- A pool that fits the id type resolves the lines of a load to themselves. -/
theorem shownLines_of_few {lines : List String} (few : lines.toFinset.card ≤ idCount) :
    shownLines lines = lines := by
  have same : ∀ line ∈ lines, (GreenPool.new.internAll lines).2.resolved line = id line := by
    intro line member
    apply GreenPool.resolved_of_fits _ (GreenPool.fits_run.mpr few)
    rw [GreenPool.contents_run]
    exact List.mem_inventory.mpr member
  rw [shownLines, List.map_congr_left same, List.map_id]

/-- Up to `2 ^ 32` distinct lines, a loaded buffer shows the lines themselves. -/
theorem loaded_holds_of_few (heap : Heap) (validator : Option EncodingValidator) {lines : List String}
    (few : lines.toFinset.card ≤ idCount) :
    (loaded heap validator lines).2.Holds (loaded heap validator lines).1 (.fresh lines) := by
  have holds := loaded_holds heap validator lines
  rwa [shownLines_of_few few] at holds

theorem pushLines_eq_ok {validator : Option EncodingValidator} {lines : List String}
    (accepted : ∀ line ∈ lines, Accepts validator line) (heap : Heap) (root : Branch) :
    pushLines validator heap root lines = .ok (heap.store root.pool ((heap.lock root.pool).internAll lines).2,
      { root with lines := root.lines ++ ((heap.lock root.pool).internAll lines).1 }) := by
  induction lines generalizing heap root with
  | nil => simp only [pushLines, GreenPool.internAll, Heap.store_lock, List.append_nil]
  | cons line lines ih =>
    have here : checkLine validator line = .ok () := accepted line List.mem_cons_self
    simp only [pushLines, here, ih (fun other member => accepted other (List.mem_cons_of_mem _ member)),
      pushLine, Heap.intern, Heap.lock_store, Heap.store_store, GreenPool.internAll, List.append_assoc,
      List.singleton_append]

theorem pushLines_eq_error {validator : Option EncodingValidator} {lines : List String}
    (rejected : ¬ ∀ line ∈ lines, Accepts validator line) (heap : Heap) (root : Branch) :
    ∃ error, pushLines validator heap root lines = .error error := by
  induction lines generalizing heap root with
  | nil => exact absurd (fun _ member => absurd member List.not_mem_nil) rejected
  | cons line lines ih =>
    by_cases here : Accepts validator line
    · have verdict : checkLine validator line = .ok () := here
      have later : ¬ ∀ other ∈ lines, Accepts validator other :=
        fun all => rejected (List.forall_mem_cons.mpr ⟨here, all⟩)
      simp only [pushLines, verdict]
      exact ih later _ _
    · obtain ⟨error, verdict⟩ := checkLine_of_not_accepts here
      exact ⟨error, by simp only [pushLines, verdict]⟩

theorem pushLines_new {validator : Option EncodingValidator} {lines : List String}
    (accepted : ∀ line ∈ lines, Accepts validator line) (heap : Heap) :
    pushLines validator heap.alloc.2 (Branch.new heap.alloc.1) lines =
      .ok ((loaded heap validator lines).1, (loaded heap validator lines).2.root) := by
  have fresh : heap.alloc.2.lock (Branch.new heap.alloc.1).pool = .new := heap.lock_alloc
  rw [pushLines_eq_ok accepted, fresh]
  rfl

/-- What the bulk loaders return for lines in front of a new pool. -/
def bulkLoad (heap : Heap) (validator : Option EncodingValidator) (lines : List String) :
    Except EncodingError (Heap × LineBuffer) :=
  (pushLines validator heap.alloc.2 (Branch.new heap.alloc.1) lines).map fun state =>
    (state.1, ⟨heap.alloc.1, state.2, validator⟩)

theorem bulkLoad_eq_ok {validator : Option EncodingValidator} {lines : List String}
    (accepted : ∀ line ∈ lines, Accepts validator line) (heap : Heap) :
    bulkLoad heap validator lines = .ok (loaded heap validator lines) := by
  rw [bulkLoad, pushLines_new accepted]
  rfl

theorem bulkLoad_eq_error {validator : Option EncodingValidator} {lines : List String}
    (rejected : ¬ ∀ line ∈ lines, Accepts validator line) (heap : Heap) :
    ∃ error, bulkLoad heap validator lines = .error error := by
  obtain ⟨error, failed⟩ := pushLines_eq_error rejected heap.alloc.2 (Branch.new heap.alloc.1)
  refine ⟨error, ?_⟩
  rw [bulkLoad, failed]
  rfl

/-- A bulk loader that returned a buffer loaded lines that its validator accepts. -/
theorem bulkLoad_loaded {validator : Option EncodingValidator} {lines : List String} {result : Heap × LineBuffer}
    (returned : bulkLoad heap validator lines = .ok result) :
    result = loaded heap validator lines ∧ ∀ line ∈ lines, Accepts validator line := by
  by_cases accepted : ∀ line ∈ lines, Accepts validator line
  · rw [bulkLoad_eq_ok accepted] at returned
    cases returned
    exact ⟨rfl, accepted⟩
  · obtain ⟨error, failed⟩ := bulkLoad_eq_error accepted heap
    rw [failed] at returned
    cases returned

theorem fromStr_eq (heap : Heap) (text : String) (validator : Option EncodingValidator) :
    fromStr heap text validator = .ok (bulkLoad heap validator (textLines text)) := by
  simp only [fromStr, splitOnLineEndings_eq, Outcome.ok_bind]
  rfl

theorem fromStr_eq_ok {text : String} {validator : Option EncodingValidator}
    (accepted : ∀ line ∈ textLines text, Accepts validator line) (heap : Heap) :
    fromStr heap text validator = .ok (.ok (loaded heap validator (textLines text))) := by
  rw [fromStr_eq, bulkLoad_eq_ok accepted]

theorem fromStr_eq_error {text : String} {validator : Option EncodingValidator}
    (rejected : ¬ ∀ line ∈ textLines text, Accepts validator line) (heap : Heap) :
    ∃ error, fromStr heap text validator = .ok (.error error) := by
  obtain ⟨error, failed⟩ := bulkLoad_eq_error rejected heap
  exact ⟨error, by rw [fromStr_eq, failed]⟩

theorem fromStr_loaded {text : String} {validator : Option EncodingValidator} {result : Heap × LineBuffer}
    (returned : fromStr heap text validator = .ok (.ok result)) :
    result = loaded heap validator (textLines text) ∧ ∀ line ∈ textLines text, Accepts validator line := by
  rw [fromStr_eq] at returned
  exact bulkLoad_loaded (Except.ok.inj returned)

theorem fromReader_asBytes (heap : Heap) (text : String) (validator : Option EncodingValidator) :
    fromReader heap (.ok (asBytes text)) validator =
      (fromStr heap text validator).map (Except.mapError IoError.invalidData) := by
  simp only [fromReader, fromUtf8_asBytes]
  cases fromStr heap text validator <;> rfl

/-- Once an error is latched, the callback neither validates nor stores anything. -/
theorem foldl_onLine_latched (validator : Option EncodingValidator) (error : EncodingError) (state : Heap × Branch)
    (rest : List String) : rest.foldl (onLine validator) (some error, state) = (some error, state) := by
  induction rest with
  | nil => rfl
  | cons line rest ih => exact ih

/-- The callback of `from_source` goes through the same states as the loading loop, with the error
of the first rejected line latched. -/
theorem foldl_onLine (validator : Option EncodingValidator) (lines : List String) (heap : Heap) (root : Branch) :
    match lines.foldl (onLine validator) (none, heap, root), pushLines validator heap root lines with
    | (none, reached), result => result = .ok reached
    | (some error, _), result => result = .error error := by
  induction lines generalizing heap root with
  | nil => rfl
  | cons line lines ih =>
    rw [List.foldl_cons, onLine, pushLines]
    cases checkLine validator line with
    | ok => exact ih _ _
    | error error => simp only [foldl_onLine_latched]

theorem afterSource_eq (pool : PoolRef) (validator : Option EncodingValidator) (lines : List String) (heap : Heap)
    (root : Branch) :
    afterSource pool validator (lines.foldl (onLine validator) (none, heap, root)) =
      (pushLines validator heap root lines).map fun state => (state.1, ⟨pool, state.2, validator⟩) := by
  have same := foldl_onLine validator lines heap root
  generalize lines.foldl (onLine validator) (none, heap, root) = final at same ⊢
  obtain ⟨latched, reached, root'⟩ := final
  cases latched with
  | some error =>
    dsimp only at same
    rw [same]
    rfl
  | none =>
    dsimp only at same
    rw [same]
    rfl

/-- The vector of the ids may become as large as the hint asks for. -/
def HintFits (source : LineSource) : Prop := ∀ hint ∈ source.lineCountHint, hint * 4 ≤ isizeMax

omit [Digests] in
/-- A source without a hint reserves nothing. -/
theorem hintFits_of_unhinted {source : LineSource} (unhinted : source.lineCountHint = none) : HintFits source := by
  intro hint asked
  rw [unhinted] at asked
  cases asked

/-- Behind its reservation, `from_source` loads the lines of the source. -/
theorem fromSource_eq {source : LineSource} (fits : HintFits source) (heap : Heap)
    (validator : Option EncodingValidator) :
    fromSource heap source validator = .ok (bulkLoad heap validator source.lines) := by
  obtain ⟨hint?, lines⟩ := source
  cases hint? with
  | none =>
    simp only [fromSource, afterSource_eq]
    rfl
  | some hint =>
    have room : Vec.reserve 0 4 hint = .ok () := if_pos ((Nat.zero_add hint).symm ▸ fits hint rfl)
    simp only [fromSource, Branch.new, List.length_nil, room, Outcome.ok_bind, afterSource_eq]
    rfl

/-- A hint beyond what a vector may hold panics before any line is seen. -/
theorem fromSource_overflow {source : LineSource} (beyond : ¬ HintFits source) (heap : Heap)
    (validator : Option EncodingValidator) : fromSource heap source validator = .error .capacityOverflow := by
  obtain ⟨hint?, lines⟩ := source
  cases hint? with
  | none => exact absurd (hintFits_of_unhinted rfl) beyond
  | some hint =>
    have full : ¬ (0 + hint) * 4 ≤ isizeMax := by
      rw [Nat.zero_add]
      rintro room
      exact beyond fun other same => Option.some.inj same ▸ room
    have panics : Vec.reserve 0 4 hint = .error .capacityOverflow := if_neg full
    simp only [fromSource, Branch.new, List.length_nil, panics]
    rfl

theorem fromSource_loaded {source : LineSource} {validator : Option EncodingValidator}
    {result : Heap × LineBuffer} (returned : fromSource heap source validator = .ok (.ok result)) :
    result = loaded heap validator source.lines ∧ ∀ line ∈ source.lines, Accepts validator line := by
  by_cases fits : HintFits source
  · rw [fromSource_eq fits] at returned
    exact bulkLoad_loaded (Except.ok.inj returned)
  · rw [fromSource_overflow fits] at returned
    cases returned

theorem fromSource_eq_ok {source : LineSource} (unhinted : source.lineCountHint = none)
    {validator : Option EncodingValidator} (accepted : ∀ line ∈ source.lines, Accepts validator line) (heap : Heap) :
    fromSource heap source validator = .ok (.ok (loaded heap validator source.lines)) := by
  rw [fromSource_eq (hintFits_of_unhinted unhinted), bulkLoad_eq_ok accepted]

end LineBuffer

/-- A buffer that one of the constructors returned, with the validator installed. -/
inductive Obtained [Digests] (heap : Heap) (validator : Option EncodingValidator) : Heap × LineBuffer → Prop
  | new : Obtained heap validator (LineBuffer.new heap validator)
  | fromStr {text : String} {result : Heap × LineBuffer}
      (returned : LineBuffer.fromStr heap text validator = .ok (.ok result)) : Obtained heap validator result
  | fromReader {read : Except IoError (List UInt8)} {result : Heap × LineBuffer}
      (returned : LineBuffer.fromReader heap read validator = .ok (.ok result)) : Obtained heap validator result
  | fromSource {source : LineSource} {result : Heap × LineBuffer}
      (returned : LineBuffer.fromSource heap source validator = .ok (.ok result)) :
      Obtained heap validator result

/-- Every constructor loads accepted lines. -/
theorem Obtained.loaded [Digests] {heap : Heap} {validator : Option EncodingValidator} {result : Heap × LineBuffer}
    (obtained : Obtained heap validator result) :
    ∃ lines, result = LineBuffer.loaded heap validator lines ∧ ∀ line ∈ lines, Accepts validator line := by
  cases obtained with
  | new =>
    exact ⟨[], LineBuffer.new_eq_loaded heap validator, fun _ member => absurd member List.not_mem_nil⟩
  | fromStr returned => exact ⟨_, LineBuffer.fromStr_loaded returned⟩
  | @fromReader read _ returned =>
    cases read with
    | error error => cases returned
    | ok bytes =>
      rw [LineBuffer.fromReader] at returned
      cases decoded : fromUtf8 bytes with
      | none =>
        rw [decoded] at returned
        cases returned
      | some text =>
        rw [decoded] at returned
        obtain ⟨loaded, parsed, returned⟩ := Outcome.bind_eq_ok.mp returned
        cases loaded with
        | error error => cases returned
        | ok loaded =>
          cases returned
          exact ⟨_, LineBuffer.fromStr_loaded parsed⟩
  | fromSource returned => exact ⟨_, LineBuffer.fromSource_loaded returned⟩

end Mallard
