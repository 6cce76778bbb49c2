import Mallard.Proofs.BufferTexts

/-! # The installed validator governs every version

A buffer shares its pool with the branches forked from it, and they may bring in strings that its
validator rejects. The lines of the buffer are kept apart from those: in every reachable world all
snapshots of the root, the ones in both stacks included, consist of accepted lines. The invariant
needs the ids to denote what was interned, so it is stated for pools within the range of the ids.
-/

namespace Mallard

/-- A buffer with the branches forked from it. -/
structure World where
  heap : Heap
  buffer : LineBuffer
  forks : List Branch

inductive WorldOp where
  /-- A call on the buffer. -/
  | call (op : BufferOp)
  /-- `LineBuffer::branch`. -/
  | branch
  /-- `Branch::fork` of a forked branch. -/
  | fork (i : ℕ)
  /-- A call on a forked branch, with a validator of its own or none. -/
  | edit (i : ℕ) (op : BranchOp)

namespace World

variable [Digests]

def step (world : World) : WorldOp → Outcome World
  | .call op => do
    let (_, heap, buffer) ← world.buffer.call world.heap op
    pure { world with heap, buffer }
  | .branch => pure { world with forks := world.forks ++ [world.buffer.branch] }
  | .fork i =>
    match world.forks[i]? with
    | none => pure world
    | some branch => pure { world with forks := world.forks ++ [branch.fork] }
  | .edit i op =>
    match world.forks[i]? with
    | none => pure world
    | some branch => do
      let (_, heap, branch) ← branch.call world.heap op
      pure { world with heap, forks := world.forks.set i branch }

def run (world : World) : List WorldOp → Outcome World
  | [] => pure world
  | op :: ops => do
    let world ← world.step op
    world.run ops

end World

section Invariant

variable [Digests]

/-- Every snapshot consists of accepted lines. -/
def AllAccepted (validator : Option EncodingValidator) (texts : Timeline (List String)) : Prop :=
  ∀ snapshot ∈ texts.snapshots, ∀ line ∈ snapshot, Accepts validator line

/-- What holds in every reachable world. -/
structure World.Governed (ref : PoolRef) (validator : Option EncodingValidator) (world : World) : Prop where
  owned : world.buffer.pool = ref
  installed : world.buffer.validator = validator
  buffer : ∃ texts, world.buffer.Holds world.heap texts ∧
    ((world.heap.lock ref).Fits → AllAccepted validator texts)
  forks : ∀ branch ∈ world.forks, branch.pool = ref ∧ ∃ texts, branch.Shows (world.heap.lock ref) texts

/-- Within the range of the ids, a call on the buffer keeps its snapshots accepted. -/
theorem AllAccepted.advance {validator : Option EncodingValidator} {pool grown : GreenPool}
    {texts later : Timeline (List String)} {op : BufferOp} (valid : pool.WellFormed)
    (accepted : pool.Fits → AllAccepted validator texts)
    (advanced : Branch.advanceTexts? pool texts (op.onRoot validator) = some (grown, later)) (fits : grown.Fits) :
    AllAccepted validator later := by
  have before := accepted ((Branch.advanceTexts?_pool valid advanced).2.1.fits fits)
  obtain ⟨move, asked, moved⟩ := Option.bind_eq_some_iff.mp (Branch.advanceTexts?_of_fits valid advanced fits)
  exact Timeline.forall_exec? moved before (fun _ member => (BufferOp.mem_items asked member).2)

variable {ref : PoolRef} {validator : Option EncodingValidator} {world : World}

/-- A growing pool leaves what forks show in place. -/
theorem World.Governed.forks_mono (governed : world.Governed ref validator) {grown : GreenPool}
    (extends_ : (world.heap.lock ref).Extends grown) :
    ∀ branch ∈ world.forks, branch.pool = ref ∧ ∃ texts, branch.Shows grown texts := by
  intro branch member
  obtain ⟨pool, texts, shown⟩ := governed.forks branch member
  exact ⟨pool, texts, shown.mono extends_⟩

theorem World.Governed.call (governed : world.Governed ref validator) (op : BufferOp) :
    ∃ next, world.step (.call op) = .ok next ∧ next.Governed ref validator := by
  obtain ⟨texts, holds, accepted⟩ := governed.buffer
  have spec := LineBuffer.call_holds holds op
  rw [governed.installed, governed.owned] at spec
  have valid := governed.owned ▸ holds.valid
  cases advanced : Branch.advanceTexts? (world.heap.lock ref) texts (op.onRoot validator) with
  | none =>
    rw [advanced] at spec
    refine ⟨world, ?_, governed⟩
    simp only [step, spec]
    rfl
  | some result =>
    obtain ⟨grown, later⟩ := result
    rw [advanced] at spec
    obtain ⟨next, called, pool, validator', after⟩ := spec
    refine ⟨{ world with heap := world.heap.store ref grown, buffer := next }, ?_, pool, validator', ?_, ?_⟩
    · simp only [step, called]
      rfl
    · refine ⟨later, after, ?_⟩
      rw [Heap.lock_store]
      exact AllAccepted.advance valid accepted advanced
    · rw [Heap.lock_store]
      exact governed.forks_mono (Branch.advanceTexts?_pool valid advanced).2.1

theorem World.Governed.branch (governed : world.Governed ref validator) {branch : Branch} {texts : Timeline (List String)}
    (pool : branch.pool = ref) (shown : branch.Shows (world.heap.lock ref) texts) :
    World.Governed ref validator { world with forks := world.forks ++ [branch.fork] } := by
  have fresh : branch.fork.pool = ref ∧ ∃ texts, branch.fork.Shows (world.heap.lock ref) texts :=
    ⟨pool, _, Branch.shows_fresh branch.pool shown.present⟩
  exact ⟨governed.owned, governed.installed, governed.buffer, List.forall_mem_concat governed.forks fresh⟩

theorem World.Governed.edit (governed : world.Governed ref validator) (i : ℕ) (op : BranchOp) :
    ∃ next, world.step (.edit i op) = .ok next ∧ next.Governed ref validator := by
  cases found : world.forks[i]? with
  | none =>
    refine ⟨world, ?_, governed⟩
    simp only [step, found]
    rfl
  | some branch =>
    obtain ⟨texts, holds, accepted⟩ := governed.buffer
    have valid := governed.owned ▸ holds.valid
    obtain ⟨pool, forkTexts, shown⟩ := governed.forks branch (List.mem_of_getElem? found)
    have spec := Branch.call_shows (pool ▸ valid) (pool ▸ shown) op
    rw [pool] at spec
    cases advanced : Branch.advanceTexts? (world.heap.lock ref) forkTexts op with
    | none =>
      rw [advanced] at spec
      refine ⟨{ world with forks := world.forks.set i branch }, ?_, governed.owned, governed.installed,
        governed.buffer, ?_⟩
      · simp only [step, found, spec]
        rfl
      · exact List.forall_mem_set governed.forks ⟨pool, forkTexts, shown⟩ i
    | some result =>
      obtain ⟨grown, later⟩ := result
      rw [advanced] at spec
      obtain ⟨next, called, samePool, after⟩ := spec
      obtain ⟨valid_grown, extends_, _⟩ := Branch.advanceTexts?_pool valid advanced
      refine ⟨{ world with heap := world.heap.store ref grown, forks := world.forks.set i next }, ?_,
        governed.owned, governed.installed, ⟨texts, ⟨holds.owner, ?_, ?_⟩, ?_⟩, ?_⟩
      · simp only [step, found, called]
        rfl
      · rw [governed.owned, Heap.lock_store]
        exact valid_grown
      · rw [governed.owned, Heap.lock_store]
        exact (governed.owned ▸ holds.shown).mono extends_
      · rw [Heap.lock_store]
        exact fun fits => accepted (extends_.fits fits)
      · rw [Heap.lock_store]
        exact List.forall_mem_set (governed.forks_mono extends_) ⟨samePool, later, after⟩ i

/-- No step panics or breaks the invariant. -/
theorem World.Governed.step (governed : world.Governed ref validator) (op : WorldOp) :
    ∃ next, world.step op = .ok next ∧ next.Governed ref validator := by
  cases op with
  | call op => exact governed.call op
  | branch =>
    obtain ⟨texts, holds, _⟩ := governed.buffer
    exact ⟨_, rfl, governed.branch (holds.owner.trans governed.owned) (governed.owned ▸ holds.shown)⟩
  | fork i =>
    cases found : world.forks[i]? with
    | none =>
      refine ⟨world, ?_, governed⟩
      simp only [World.step, found]
      rfl
    | some branch =>
      obtain ⟨pool, texts, shown⟩ := governed.forks branch (List.mem_of_getElem? found)
      refine ⟨_, ?_, governed.branch pool shown⟩
      simp only [World.step, found]
      rfl
  | edit i op => exact governed.edit i op

theorem World.Governed.run (governed : world.Governed ref validator) (ops : List WorldOp) :
    ∃ final, world.run ops = .ok final ∧ final.Governed ref validator := by
  induction ops generalizing world with
  | nil => exact ⟨world, rfl, governed⟩
  | cons op ops ih =>
    obtain ⟨next, stepped, after⟩ := governed.step op
    obtain ⟨final, ran, finished⟩ := ih after
    refine ⟨final, ?_, finished⟩
    simp only [World.run, stepped, Outcome.ok_bind, ran]

theorem Obtained.governed {heap : Heap} {result : Heap × LineBuffer} (obtained : Obtained heap validator result) :
    World.Governed result.2.pool validator ⟨result.1, result.2, []⟩ := by
  obtain ⟨lines, rfl, accepted⟩ := obtained.loaded
  refine ⟨rfl, rfl, ⟨_, LineBuffer.loaded_holds heap validator lines, ?_⟩,
    fun _ member => absurd member List.not_mem_nil⟩
  intro fits snapshot member line listed
  obtain rfl := List.mem_singleton.mp member
  rw [LineBuffer.loaded, Heap.lock_store, GreenPool.fits_run] at fits
  rw [Timeline.fresh, LineBuffer.shownLines_of_few fits] at listed
  exact accepted line listed

end Invariant

/-- What the validator guarantees of a world. -/
structure World.Policy [Digests] (validator : Option EncodingValidator) (world : World) : Prop where
  /-- It accepts the visible lines, and the lines visible after any further undo and redo calls. -/
  lines : ∀ moves : List BufferOp, (∀ move ∈ moves, move = .undo ∨ move = .redo) →
    ∃ replies heap buffer lines, world.buffer.run world.heap moves = .ok (replies, heap, buffer) ∧
      buffer.iterLines heap = .ok lines ∧ ∀ line ∈ lines, Accepts validator line
  /-- An insertion is `Ok` exactly in range and with accepted content, and changes nothing otherwise. -/
  insertLine : ∀ n content, ∃ verdict heap buffer,
    world.buffer.insertLine world.heap n content = .ok (verdict, heap, buffer) ∧
      (verdict = .ok () ↔ n ≤ world.buffer.lineCount ∧ Accepts validator content) ∧
      (verdict ≠ .ok () → heap = world.heap ∧ buffer = world.buffer)
  /-- A replacement likewise. -/
  replaceLine : ∀ n content, ∃ verdict heap buffer,
    world.buffer.replaceLine world.heap n content = .ok (verdict, heap, buffer) ∧
      (verdict = .ok () ↔ n < world.buffer.lineCount ∧ Accepts validator content) ∧
      (verdict ≠ .ok () → heap = world.heap ∧ buffer = world.buffer)

section Policy

variable [Digests] {ref : PoolRef} {validator : Option EncodingValidator} {world : World}

/-- Undo and redo only bring back snapshots. -/
theorem World.Governed.lines (governed : world.Governed ref validator) (fits : (world.heap.lock ref).Fits)
    {moves : List BufferOp} (history : ∀ move ∈ moves, move = .undo ∨ move = .redo) :
    ∃ replies heap buffer lines, world.buffer.run world.heap moves = .ok (replies, heap, buffer) ∧
      buffer.iterLines heap = .ok lines ∧ ∀ line ∈ lines, Accepts validator line := by
  obtain ⟨texts, holds, accepted⟩ := governed.buffer
  have kept : ∀ move ∈ moves, ∀ (pool : GreenPool) (texts : Timeline (List String)) (grown : GreenPool)
      (later : Timeline (List String)), pool.WellFormed → AllAccepted validator texts →
      Branch.advanceTexts? pool texts (move.onRoot world.buffer.validator) = some (grown, later) →
        AllAccepted validator later := by
    intro move member pool texts grown later _ before advanced
    obtain ⟨asked, request, moved, _⟩ := Branch.advanceTexts?_move advanced
    refine Timeline.forall_exec? moved before ?_
    rcases history move member with rfl | rfl
    · cases request
      simp [Timeline.LineOp.map, Timeline.LineOp.items]
    · cases request
      simp [Timeline.LineOp.map, Timeline.LineOp.items]
  obtain ⟨replies, heap, buffer, later, ran, _, _, finished, still⟩ :=
    LineBuffer.run_holds (P := fun _ texts => AllAccepted validator texts) kept holds (accepted fits)
  refine ⟨replies, heap, buffer, later.present, ran, finished.iterLines, ?_⟩
  exact still later.present (Timeline.mem_snapshots.mpr (.inr (.inl rfl)))

/-- An insertion answers with its checks, and does nothing when they fail. -/
theorem World.Governed.insertLine (governed : world.Governed ref validator) (n : ℕ) (content : String) :
    ∃ verdict heap buffer, world.buffer.insertLine world.heap n content = .ok (verdict, heap, buffer) ∧
      (verdict = .ok () ↔ n ≤ world.buffer.lineCount ∧ Accepts validator content) ∧
      (verdict ≠ .ok () → heap = world.heap ∧ buffer = world.buffer) := by
  obtain ⟨_, holds, _⟩ := governed.buffer
  obtain ⟨ids, tracks, _⟩ := holds.shown
  obtain rfl := governed.installed
  simp only [LineBuffer.insertLine, Branch.insertLine]
  cases verdict : Branch.checkInsert world.buffer.root.lines.length n content world.buffer.validator with
  | error error =>
    have failed : ¬ (n ≤ world.buffer.root.lines.length ∧ Accepts world.buffer.validator content) := by
      rw [← Branch.checkInsert_eq_ok, verdict]
      simp
    exact ⟨.error error, world.heap, world.buffer, rfl, iff_of_false (by simp) failed,
      fun _ => ⟨rfl, rfl⟩⟩
  | ok =>
    have passes := Branch.checkInsert_eq_ok.mp verdict
    obtain ⟨root, inserted, _⟩ := Branch.insertId_spec tracks (tracks.lines ▸ passes.1)
      (world.heap.intern world.buffer.root.pool content).1
    simp only [inserted]
    exact ⟨.ok (), _, _, rfl, iff_of_true rfl passes, fun failed => absurd rfl failed⟩

/-- A replacement answers with its checks, and does nothing when they fail. -/
theorem World.Governed.replaceLine (governed : world.Governed ref validator) (n : ℕ) (content : String) :
    ∃ verdict heap buffer, world.buffer.replaceLine world.heap n content = .ok (verdict, heap, buffer) ∧
      (verdict = .ok () ↔ n < world.buffer.lineCount ∧ Accepts validator content) ∧
      (verdict ≠ .ok () → heap = world.heap ∧ buffer = world.buffer) := by
  obtain ⟨_, holds, _⟩ := governed.buffer
  obtain ⟨ids, tracks, _⟩ := holds.shown
  obtain rfl := governed.installed
  simp only [LineBuffer.replaceLine, Branch.replaceLine]
  cases verdict : Branch.checkReplace world.buffer.root.lines.length n content world.buffer.validator with
  | error error =>
    have failed : ¬ (n < world.buffer.root.lines.length ∧ Accepts world.buffer.validator content) := by
      rw [← Branch.checkReplace_eq_ok, verdict]
      simp
    exact ⟨.error error, world.heap, world.buffer, rfl, iff_of_false (by simp) failed,
      fun _ => ⟨rfl, rfl⟩⟩
  | ok =>
    have passes := Branch.checkReplace_eq_ok.mp verdict
    obtain ⟨root, replaced, _⟩ := Branch.replaceId_spec tracks (tracks.lines ▸ passes.1)
      (world.heap.intern world.buffer.root.pool content).1
    simp only [replaced]
    exact ⟨.ok (), _, _, rfl, iff_of_true rfl passes, fun failed => absurd rfl failed⟩

/-- Whatever is called on the buffer and on branches forked from it, its validator keeps governing it,
as long as at most `2 ^ 32` distinct strings were interned. -/
theorem World.run_policy {heap heap' : Heap} {buffer : LineBuffer} (obtained : Obtained heap validator (heap', buffer))
    (ops : List WorldOp) :
    ∃ world, World.run ⟨heap', buffer, []⟩ ops = .ok world ∧
      ((world.heap.lock buffer.pool).len ≤ idCount → world.Policy validator) := by
  obtain ⟨world, ran, governed⟩ := obtained.governed.run ops
  refine ⟨world, ran, fun fits => ⟨?_, governed.insertLine, governed.replaceLine⟩⟩
  intro moves history
  exact governed.lines fits history

end Policy

section Samples

attribute [local instance] sampleDigests

/-- Rejects one line. -/
def sampleValidator : EncodingValidator := ⟨fun line => if line = "b" then .error ⟨line, "rejected"⟩ else .ok ()⟩

/-- A fork brings in a line that the buffer rejects, between an edit of the buffer and its undo. -/
theorem sample_policy :
    ∃ world, World.run ⟨(LineBuffer.new Heap.empty (some sampleValidator)).1,
        (LineBuffer.new Heap.empty (some sampleValidator)).2, []⟩
        [.call (.insertLine 0 "a"), .branch, .edit 0 (.insertLine 0 "b" none), .call .undo] = .ok world ∧
      world.Policy (some sampleValidator) := by
  have start : Obtained Heap.empty (some sampleValidator) (LineBuffer.new Heap.empty (some sampleValidator)) := .new
  obtain ⟨world, ran, policy⟩ := World.run_policy start
    [.call (.insertLine 0 "a"), .branch, .edit 0 (.insertLine 0 "b" none), .call .undo]
  have few : (world.heap.lock 0).len ≤ idCount := by
    obtain rfl := Except.ok.inj ran
    decide
  exact ⟨world, ran, policy few⟩

end Samples

end Mallard
