import Mallard.Proofs.BufferTexts
import Mallard.Proofs.SlotTexts
import Mallard.Model.Core.Workspace

/-! # Pools in every reachable workspace

Pools only grow, and a step works on one pool at a time. A buffer or a branch shows its history of
texts whatever happens to other pools, and whatever is added to its own.
-/

namespace Mallard

/-- Later heaps keep the pools that were allocated, and every entry of theirs at its place. -/
structure Heap.Grows (old new : Heap) : Prop where
  next : old.next ≤ new.next
  pools : ∀ ref < old.next, (old.lock ref).Extends (new.lock ref)

/-- Every pool is well-formed. -/
def Heap.Valid [Digests] (heap : Heap) : Prop := ∀ ref, (heap.lock ref).WellFormed

namespace Heap

variable {heap : Heap} {ref : PoolRef} {grown : GreenPool}

theorem grows_store (extends_ : (heap.lock ref).Extends grown) : heap.Grows (heap.store ref grown) := by
  refine ⟨le_rfl, fun other _ => ?_⟩
  by_cases same : other = ref
  · rw [same, lock_store]
    exact extends_
  · rw [lock_store_of_ne heap same]
    exact List.prefix_rfl

/-- A new pool leaves the others as they are, whatever is interned in it. -/
theorem grows_new (heap : Heap) (grown : GreenPool) : heap.Grows (heap.alloc.2.store heap.next grown) := by
  refine ⟨Nat.le_succ heap.next, fun other allocated => ?_⟩
  rw [lock_store_of_ne _ allocated.ne, lock_alloc_of_ne heap allocated.ne]
  exact List.prefix_rfl

variable [Digests]

theorem valid_empty : Heap.empty.Valid := fun _ => GreenPool.wellFormed_new

theorem Valid.store (valid : heap.Valid) (good : grown.WellFormed) : (heap.store ref grown).Valid := by
  intro other
  by_cases same : other = ref
  · rw [same, lock_store]
    exact good
  · rw [lock_store_of_ne heap same]
    exact valid other

theorem Valid.alloc (valid : heap.Valid) : heap.alloc.2.Valid := by
  intro other
  by_cases new : other = heap.next
  · rw [new]
    exact heap.lock_alloc ▸ GreenPool.wellFormed_new
  · rw [lock_alloc_of_ne heap new]
    exact valid other

end Heap

section Held

variable [Digests] {heap later : Heap}

/-- A buffer over an allocated pool, with the history of texts it shows. -/
def LineBuffer.Held (heap : Heap) (buffer : LineBuffer) : Prop :=
  buffer.pool < heap.next ∧ ∃ texts, buffer.Holds heap texts

omit [Digests] in
/-- A branch over an allocated pool, with the history of texts it shows. -/
def Branch.Held (heap : Heap) (branch : Branch) : Prop :=
  branch.pool < heap.next ∧ ∃ texts, branch.Shows (heap.lock branch.pool) texts

theorem LineBuffer.Held.grow {buffer : LineBuffer} (held : buffer.Held heap) (grows : heap.Grows later)
    (valid : later.Valid) : buffer.Held later := by
  obtain ⟨allocated, texts, owner, _, shown⟩ := held
  exact ⟨allocated.trans_le grows.next, texts, owner, valid _, shown.mono (grows.pools _ allocated)⟩

omit [Digests] in
theorem Branch.Held.grow {branch : Branch} (held : branch.Held heap) (grows : heap.Grows later) :
    branch.Held later := by
  obtain ⟨allocated, texts, shown⟩ := held
  exact ⟨allocated.trans_le grows.next, texts, shown.mono (grows.pools _ allocated)⟩

/-- The root of a buffer is a branch over the buffer's pool. -/
theorem LineBuffer.Held.root {buffer : LineBuffer} (held : buffer.Held heap) : buffer.root.Held heap := by
  obtain ⟨allocated, texts, owner, _, shown⟩ := held
  rw [← owner] at allocated shown
  exact ⟨allocated, texts, shown⟩

omit [Digests] in
theorem Branch.Held.fork {branch : Branch} (held : branch.Held heap) : branch.fork.Held heap := by
  obtain ⟨allocated, texts, shown⟩ := held
  exact ⟨allocated, _, shows_fresh branch.pool shown.present⟩

/-- What holds in every reachable workspace. -/
structure Workspace.Sound (workspace : Workspace) : Prop where
  valid : workspace.heap.Valid
  buffers : ∀ buffer ∈ workspace.buffers, buffer.Held workspace.heap
  branches : ∀ branch ∈ workspace.branches, branch.Held workspace.heap

end Held

section Steps

variable [Digests] {heap : Heap}

/-- Every constructor fills a new pool. -/
theorem Obtained.grows {validator : Option EncodingValidator} {result : Heap × LineBuffer} (valid : heap.Valid)
    (obtained : Obtained heap validator result) :
    heap.Grows result.1 ∧ result.1.Valid ∧ result.2.Held result.1 := by
  obtain ⟨lines, rfl, _⟩ := obtained.loaded
  have holds := LineBuffer.loaded_holds heap validator lines
  refine ⟨heap.grows_new _, valid.alloc.store (GreenPool.wellFormed_run lines), Nat.lt_succ_self heap.next, _, holds⟩

theorem Construction.build_obtained {construction : Construction} {validator : Option EncodingValidator}
    {result : Heap × LineBuffer} (built : construction.build heap validator = .ok (some result)) :
    Obtained heap validator result := by
  have loads {ε : Type} {outcome : Outcome (Except ε (Heap × LineBuffer))}
      (same : Except.toOption <$> outcome = .ok (some result)) : outcome = .ok (.ok result) := by
    match outcome with
    | .ok (.ok _) =>
      cases same
      rfl
  cases construction with
  | new =>
    cases built
    exact .new
  | fromStr text => exact .fromStr (loads built)
  | fromReader read => exact .fromReader (loads built)
  | fromSource source => exact .fromSource (loads built)

/-- A read through the view never panics, and fills cells at most. -/
theorem Workspace.read_grows {branch : Branch} (valid : heap.Valid) (held : branch.Held heap) (call : ViewCall) :
    ∃ later, Workspace.read heap branch call = .ok later ∧ heap.Grows later ∧ later.Valid := by
  obtain ⟨_, texts, shown⟩ := held
  have represents : (Slot.created heap branch).Represents (heap.lock branch.pool) ⟨texts, none, []⟩ :=
    ⟨shown, .none, rfl, fun _ asked => by contradiction⟩
  obtain ⟨grown, viewed, moved⟩ := @Slot.view_moved (Slot.created heap branch) ⟨texts, none, []⟩ _ heap
    (valid branch.pool) represents call
  refine ⟨heap.store branch.pool grown, ?_, Heap.grows_store ?_, valid.store moved.valid⟩
  · rw [read, viewed]
    rfl
  · rw [GreenPool.Extends, moved.contents]
    exact List.prefix_pushAll _ _

/-- A call on a buffer never panics, and grows its pool at most. -/
theorem LineBuffer.Held.call {buffer : LineBuffer} (valid : heap.Valid) (held : buffer.Held heap) (op : BufferOp) :
    ∃ reply later next, buffer.call heap op = .ok (reply, later, next) ∧ heap.Grows later ∧ later.Valid ∧
      next.Held later := by
  obtain ⟨allocated, texts, holds⟩ := held
  have spec := LineBuffer.call_holds holds op
  cases advanced : Branch.advanceTexts? (heap.lock buffer.pool) texts (op.onRoot buffer.validator) with
  | none =>
    rw [advanced] at spec
    exact ⟨_, heap, buffer, spec, ⟨le_rfl, fun _ _ => List.prefix_rfl⟩, valid, allocated, texts, holds⟩
  | some result =>
    rw [advanced] at spec
    obtain ⟨next, called, pool, _, after⟩ := spec
    obtain ⟨good, extends_, _⟩ := Branch.advanceTexts?_pool holds.valid advanced
    exact ⟨_, _, next, called, Heap.grows_store extends_, valid.store good, pool ▸ allocated, _, after⟩

theorem Branch.Held.call {branch : Branch} (valid : heap.Valid) (held : branch.Held heap) (op : BranchOp) :
    ∃ reply later next, branch.call heap op = .ok (reply, later, next) ∧ heap.Grows later ∧ later.Valid ∧
      next.Held later := by
  obtain ⟨allocated, texts, shown⟩ := held
  have spec := Branch.call_shows (valid branch.pool) shown op
  cases advanced : Branch.advanceTexts? (heap.lock branch.pool) texts op with
  | none =>
    rw [advanced] at spec
    exact ⟨_, heap, branch, spec, ⟨le_rfl, fun _ _ => List.prefix_rfl⟩, valid, allocated, texts, shown⟩
  | some result =>
    rw [advanced] at spec
    obtain ⟨next, called, pool, after⟩ := spec
    obtain ⟨good, extends_, _⟩ := Branch.advanceTexts?_pool (valid branch.pool) advanced
    refine ⟨_, _, next, called, Heap.grows_store extends_, valid.store good, pool ▸ allocated, result.2, ?_⟩
    rw [pool, Heap.lock_store]
    exact after

namespace Workspace

variable {workspace next : Workspace}

theorem Sound.grow (sound : workspace.Sound) {later : Heap} (grows : workspace.heap.Grows later)
    (valid : later.Valid) : Sound { workspace with heap := later } :=
  ⟨valid, fun buffer member => (sound.buffers buffer member).grow grows valid,
    fun branch member => (sound.branches branch member).grow grows⟩

/-- The step asks for a buffer, branch or pool that does not exist. -/
def Missing (workspace : Workspace) : WorkspaceOp → Prop
  | .build _ _ | .newPool => False
  | .call i _ | .viewBuffer i _ | .branch i => workspace.buffers[i]? = none
  | .fork j | .edit j _ | .viewBranch j _ => workspace.branches[j]? = none
  | .newBranch pool | .intern pool _ => ¬ pool < workspace.heap.next

theorem step_missing {op : WorkspaceOp} (missing : workspace.Missing op) : workspace.step op = .ok workspace := by
  cases op with
  | build | newPool => exact absurd missing id
  | call i op | viewBuffer i call | branch i =>
    have absent : workspace.buffers[i]? = none := missing
    rw [Workspace.step, absent]
    rfl
  | fork j | edit j op | viewBranch j call =>
    have absent : workspace.branches[j]? = none := missing
    rw [Workspace.step, absent]
    rfl
  | newBranch pool | intern pool content => exact if_neg missing

/-- What a step can do: nothing, when what it asks for does not exist, or the one thing that it stands for. -/
inductive Stepped (workspace : Workspace) : WorkspaceOp → Workspace → Prop
  | missing {op : WorkspaceOp} (missing : workspace.Missing op) : Stepped workspace op workspace
  | refused {construction : Construction} {validator : Option EncodingValidator}
    (refused : construction.build workspace.heap validator = .ok none) :
    Stepped workspace (.build construction validator) workspace
  | built {construction : Construction} {validator : Option EncodingValidator} {heap : Heap} {buffer : LineBuffer}
    (built : construction.build workspace.heap validator = .ok (some (heap, buffer))) :
    Stepped workspace (.build construction validator) { workspace with heap, buffers := workspace.buffers ++ [buffer] }
  | called {i : ℕ} {op : BufferOp} {buffer after : LineBuffer} {reply : Reply} {heap : Heap}
    (found : workspace.buffers[i]? = some buffer) (called : buffer.call workspace.heap op = .ok (reply, heap, after)) :
    Stepped workspace (.call i op) { workspace with heap, buffers := workspace.buffers.set i after }
  | viewedBuffer {i : ℕ} {call : ViewCall} {buffer : LineBuffer} {heap : Heap}
    (found : workspace.buffers[i]? = some buffer) (viewed : read workspace.heap buffer.root call = .ok heap) :
    Stepped workspace (.viewBuffer i call) { workspace with heap }
  | branched {i : ℕ} {buffer : LineBuffer} (found : workspace.buffers[i]? = some buffer) :
    Stepped workspace (.branch i) { workspace with branches := workspace.branches ++ [buffer.branch] }
  | allocated : Stepped workspace .newPool { workspace with heap := workspace.heap.alloc.2 }
  | begun {pool : PoolRef} (there : pool < workspace.heap.next) :
    Stepped workspace (.newBranch pool) { workspace with branches := workspace.branches ++ [Branch.new pool] }
  | forked {j : ℕ} {branch : Branch} (found : workspace.branches[j]? = some branch) :
    Stepped workspace (.fork j) { workspace with branches := workspace.branches ++ [branch.fork] }
  | edited {j : ℕ} {op : BranchOp} {branch after : Branch} {reply : Reply} {heap : Heap}
    (found : workspace.branches[j]? = some branch) (called : branch.call workspace.heap op = .ok (reply, heap, after)) :
    Stepped workspace (.edit j op) { workspace with heap, branches := workspace.branches.set j after }
  | viewedBranch {j : ℕ} {call : ViewCall} {branch : Branch} {heap : Heap}
    (found : workspace.branches[j]? = some branch) (viewed : read workspace.heap branch call = .ok heap) :
    Stepped workspace (.viewBranch j call) { workspace with heap }
  | interned {pool : PoolRef} {content : String} (there : pool < workspace.heap.next) :
    Stepped workspace (.intern pool content) { workspace with heap := (workspace.heap.intern pool content).2 }

theorem step_cases {op : WorkspaceOp} (stepped : workspace.step op = .ok next) : workspace.Stepped op next := by
  by_cases missing : workspace.Missing op
  · rw [step_missing missing] at stepped
    cases stepped
    exact .missing missing
  cases op with
  | build construction validator =>
    obtain ⟨built, constructed, rest⟩ := Outcome.bind_eq_ok.mp stepped
    cases built with
    | none =>
      cases rest
      exact .refused constructed
    | some result =>
      cases rest
      exact .built constructed
  | call i op =>
    obtain ⟨buffer, found⟩ := Option.ne_none_iff_exists'.mp missing
    rw [step, found] at stepped
    obtain ⟨result, called, same⟩ := Outcome.bind_eq_ok.mp stepped
    cases same
    exact .called found called
  | viewBuffer i call =>
    obtain ⟨buffer, found⟩ := Option.ne_none_iff_exists'.mp missing
    rw [step, found] at stepped
    obtain ⟨heap, viewed, same⟩ := Outcome.bind_eq_ok.mp stepped
    cases same
    exact .viewedBuffer found viewed
  | branch i =>
    obtain ⟨buffer, found⟩ := Option.ne_none_iff_exists'.mp missing
    rw [step, found] at stepped
    cases stepped
    exact .branched found
  | newPool =>
    cases stepped
    exact .allocated
  | newBranch pool =>
    have there : pool < workspace.heap.next := Decidable.not_not.mp missing
    rw [step, if_pos there] at stepped
    cases stepped
    exact .begun there
  | fork j =>
    obtain ⟨branch, found⟩ := Option.ne_none_iff_exists'.mp missing
    rw [step, found] at stepped
    cases stepped
    exact .forked found
  | edit j op =>
    obtain ⟨branch, found⟩ := Option.ne_none_iff_exists'.mp missing
    rw [step, found] at stepped
    obtain ⟨result, called, same⟩ := Outcome.bind_eq_ok.mp stepped
    cases same
    exact .edited found called
  | viewBranch j call =>
    obtain ⟨branch, found⟩ := Option.ne_none_iff_exists'.mp missing
    rw [step, found] at stepped
    obtain ⟨heap, viewed, same⟩ := Outcome.bind_eq_ok.mp stepped
    cases same
    exact .viewedBranch found viewed
  | intern pool content =>
    have there : pool < workspace.heap.next := Decidable.not_not.mp missing
    rw [step, if_pos there] at stepped
    cases stepped
    exact .interned there

/-- No step breaks the invariant. -/
theorem Sound.step (sound : workspace.Sound) {op : WorkspaceOp} (stepped : workspace.step op = .ok next) :
    next.Sound := by
  have held_buffer {i : ℕ} {buffer : LineBuffer} (found : workspace.buffers[i]? = some buffer) :
      buffer.Held workspace.heap := sound.buffers buffer (List.mem_of_getElem? found)
  have held_branch {j : ℕ} {branch : Branch} (found : workspace.branches[j]? = some branch) :
      branch.Held workspace.heap := sound.branches branch (List.mem_of_getElem? found)
  cases step_cases stepped with
  | missing missing => exact sound
  | refused refused => exact sound
  | built built =>
    obtain ⟨grows, valid, held⟩ := (Construction.build_obtained built).grows sound.valid
    have grown := sound.grow grows valid
    exact ⟨valid, List.forall_mem_concat grown.buffers held, grown.branches⟩
  | @called i op buffer _ _ _ found called =>
    obtain ⟨reply, later, after, returned, grows, valid, held⟩ := (held_buffer found).call sound.valid op
    cases called.symm.trans returned
    have grown := sound.grow grows valid
    exact ⟨valid, List.forall_mem_set grown.buffers held i, grown.branches⟩
  | @viewedBuffer i call buffer _ found viewed =>
    obtain ⟨later, done, grows, valid⟩ := read_grows sound.valid (held_buffer found).root call
    cases viewed.symm.trans done
    exact sound.grow grows valid
  | branched found =>
    exact ⟨sound.valid, sound.buffers, List.forall_mem_concat sound.branches (held_buffer found).root.fork⟩
  | allocated =>
    have grows := workspace.heap.grows_new (workspace.heap.alloc.2.lock workspace.heap.next)
    rw [Heap.store_lock] at grows
    exact sound.grow grows sound.valid.alloc
  | @begun pool there =>
    have held : (Branch.new pool).Held workspace.heap := ⟨there, _, Branch.shows_fresh pool .nil⟩
    exact ⟨sound.valid, sound.buffers, List.forall_mem_concat sound.branches held⟩
  | forked found => exact ⟨sound.valid, sound.buffers, List.forall_mem_concat sound.branches (held_branch found).fork⟩
  | @edited j op branch _ _ _ found called =>
    obtain ⟨reply, later, after, returned, grows, valid, held⟩ := (held_branch found).call sound.valid op
    cases called.symm.trans returned
    have grown := sound.grow grows valid
    exact ⟨valid, grown.buffers, List.forall_mem_set grown.branches held j⟩
  | @viewedBranch j call branch _ found viewed =>
    obtain ⟨later, done, grows, valid⟩ := read_grows sound.valid (held_branch found) call
    cases viewed.symm.trans done
    exact sound.grow grows valid
  | @interned pool content there =>
    have good := sound.valid pool
    exact sound.grow (Heap.grows_store (good.extends_intern content)) (sound.valid.store (good.intern content))

theorem sound_empty : Workspace.empty.Sound :=
  ⟨Heap.valid_empty, fun _ member => absurd member List.not_mem_nil, fun _ member => absurd member List.not_mem_nil⟩

/-- Whatever was done, every buffer and every branch shows a history of texts. -/
theorem Sound.run (sound : workspace.Sound) {ops : List WorkspaceOp} (ran : workspace.run ops = .ok next) :
    next.Sound := by
  induction ops generalizing workspace with
  | nil =>
    cases ran
    exact sound
  | cons op ops ih =>
    obtain ⟨middle, stepped, rest⟩ := Outcome.bind_eq_ok.mp ran
    exact ih (sound.step stepped) rest

end Workspace

end Steps

end Mallard
