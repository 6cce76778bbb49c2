import Mallard.Soundness.DigestCaching

/-! # What a pool holds

The ledger of a program lists what its calls handed to the pools: the lines of every construction that
succeeded, and the content of every edit that passed its checks, in the order of the calls. A pool holds
the distinct strings of its ledger in the order of their first entry, and nothing else. Rejected edits,
deletions, undo, redo, forks and reads of digests leave no trace in it.
-/

namespace Mallard

/-- The strings of a ledger that went to one pool. -/
def placed (ref : PoolRef) (given : List (PoolRef × String)) : List String :=
  given.filterMap fun entry => if entry.1 = ref then some entry.2 else none

theorem placed_append (ref : PoolRef) (given more : List (PoolRef × String)) :
    placed ref (given ++ more) = placed ref given ++ placed ref more := List.filterMap_append

theorem placed_map (ref : PoolRef) (lines : List String) : placed ref (lines.map fun line => (ref, line)) = lines := by
  rw [placed, List.filterMap_map]
  exact (List.filterMap_congr fun line _ => if_pos rfl).trans List.filterMap_some

theorem placed_of_forall_ne {ref : PoolRef} {given : List (PoolRef × String)}
    (elsewhere : ∀ entry ∈ given, entry.1 ≠ ref) : placed ref given = [] :=
  List.filterMap_eq_nil_iff.mpr fun entry member => if_neg (elsewhere entry member)

/-- Everything that a run hands to the pools, in order. -/
def Workspace.ledger [Digests] (workspace : Workspace) : List WorkspaceOp → List (PoolRef × String)
  | [] => []
  | op :: ops =>
    workspace.stored op ++
      match workspace.step op with
      | .ok next => next.ledger ops
      | .error _ => []

/-- The handles that are not allocated yet have empty pools. -/
def Heap.Unused (heap : Heap) : Prop := ∀ ref, heap.next ≤ ref → (heap.lock ref).contents = []

section Steps

variable [Digests] {heap later : Heap} {given : List (PoolRef × String)}

/-- What a step hands to a pool is added to its inventory. -/
theorem Heap.Touched.contents (touched : heap.Touched later given) (valid : heap.Valid) (unused : heap.Unused)
    (ref : PoolRef) : (later.lock ref).contents = (heap.lock ref).contents.pushAll (placed ref given) := by
  cases touched with
  | same => rfl
  | interned other content =>
    by_cases here : ref = other
    · subst here
      have given_here : placed ref [(ref, content)] = [content] := placed_map ref [content]
      rw [given_here, Heap.intern, lock_store, (valid ref).contents_intern]
      rfl
    · have elsewhere : placed ref [(other, content)] = [] := placed_of_forall_ne (by simp [Ne.symm here])
      rw [elsewhere, Heap.intern, lock_store_of_ne heap here]
      rfl
  | @filled other id line cells read kept =>
    by_cases here : ref = other
    · subst here
      rw [lock_store, GreenPool.contents_put read kept.content]
      rfl
    · rw [lock_store_of_ne heap here]
      rfl
  | allocated =>
    by_cases here : ref = heap.next
    · subst here
      rw [unused heap.next le_rfl]
      exact congrArg GreenPool.contents heap.lock_alloc
    · rw [lock_alloc_of_ne heap here]
      rfl
  | loaded lines =>
    by_cases here : ref = heap.next
    · subst here
      rw [lock_store, GreenPool.contents_run, placed_map, unused heap.next le_rfl]
      rfl
    · have elsewhere : placed ref (lines.map fun line => (heap.next, line)) = [] :=
        placed_of_forall_ne (by simp [Ne.symm here])
      rw [elsewhere, lock_store_of_ne _ here, lock_alloc_of_ne heap here]
      rfl

namespace Workspace

variable {workspace next final : Workspace}

/-- A step hands strings to allocated pools only. -/
theorem Sound.stored_allocated (sound : workspace.Sound) {op : WorkspaceOp} (stepped : workspace.step op = .ok next)
    {entry : PoolRef × String} (member : entry ∈ workspace.stored op) : entry.1 < next.heap.next := by
  have later := (step_persists stepped).next
  cases step_cases stepped with
  | missing missing =>
    rw [stored_missing missing] at member
    cases member
  | refused refused =>
    rw [stored, Option.map_eq_none_iff.mp (Construction.build_eq_ok refused).symm] at member
    cases member
  | built built =>
    obtain ⟨lines, admitted, loaded⟩ := Option.map_eq_some_iff.mp (Construction.build_eq_ok built).symm
    cases loaded
    rw [stored, admitted] at member
    obtain ⟨line, _, rfl⟩ := List.mem_map.mp member
    exact Nat.lt_succ_self workspace.heap.next
  | called found called =>
    rw [stored, found] at member
    obtain ⟨content, _, rfl⟩ := List.mem_map.mp member
    exact (sound.buffers _ (List.mem_of_getElem? found)).root.1.trans_le later
  | edited found called =>
    rw [stored, found] at member
    obtain ⟨content, _, rfl⟩ := List.mem_map.mp member
    exact (sound.branches _ (List.mem_of_getElem? found)).1.trans_le later
  | interned there =>
    rw [stored, if_pos there] at member
    obtain rfl := List.mem_singleton.mp member
    exact there.trans_le later
  | viewedBuffer | branched | allocated | begun | forked | viewedBranch => cases member

theorem Sound.unused_step (sound : workspace.Sound) (unused : workspace.heap.Unused) {op : WorkspaceOp}
    (stepped : workspace.step op = .ok next) : next.heap.Unused := by
  intro ref beyond
  have elsewhere : ∀ entry ∈ workspace.stored op, entry.1 ≠ ref :=
    fun entry member => ((sound.stored_allocated stepped member).trans_le beyond).ne
  rw [(step_touched stepped).contents sound.valid unused, placed_of_forall_ne elsewhere,
    unused ref ((step_persists stepped).next.trans beyond)]
  rfl

/-- A run adds to every pool what it hands to it. -/
theorem Sound.run_contents (sound : workspace.Sound) (unused : workspace.heap.Unused) {ops : List WorkspaceOp}
    (ran : workspace.run ops = .ok final) (ref : PoolRef) :
    (final.heap.lock ref).contents =
      (workspace.heap.lock ref).contents.pushAll (placed ref (workspace.ledger ops)) := by
  induction ops generalizing workspace with
  | nil =>
    cases ran
    rfl
  | cons op ops ih =>
    obtain ⟨middle, stepped, rest⟩ := Outcome.bind_eq_ok.mp ran
    have split : workspace.ledger (op :: ops) = workspace.stored op ++ middle.ledger ops := by
      rw [ledger, stepped]
    rw [ih (sound.step stepped) (sound.unused_step unused stepped) rest, split, placed_append, List.pushAll_append,
      (step_touched stepped).contents sound.valid unused]

end Workspace

/-- After any program, every pool holds exactly the distinct strings that were handed to it, in the order
in which they came first; and every id that a branch holds, in its lines or in its history, reads as one
of them. -/
theorem Workspace.run_ledger {ops : List WorkspaceOp} {workspace : Workspace}
    (ran : Workspace.empty.run ops = .ok workspace) (ref : PoolRef) :
    (workspace.heap.lock ref).contents = (placed ref (Workspace.empty.ledger ops)).inventory ∧
      (workspace.heap.lock ref).len = (placed ref (Workspace.empty.ledger ops)).toFinset.card ∧
      ∀ branch ∈ workspace.views, branch.pool = ref → ∀ id ∈ branch.ids, ∃ line,
        (workspace.heap.lock ref).get id = .ok line ∧ line.content ∈ placed ref (Workspace.empty.ledger ops) := by
  have sound := sound_empty.run ran
  have contents := sound_empty.run_contents (fun _ _ => rfl) ran ref
  have listed : (workspace.heap.lock ref).contents = (placed ref (Workspace.empty.ledger ops)).inventory := contents
  refine ⟨listed, ?_, ?_⟩
  · rw [← GreenPool.length_contents, listed, List.length_inventory]
  · rintro branch member rfl id held
    obtain ⟨_, texts, shown⟩ := sound.held member
    obtain ⟨content, denotes⟩ := (GreenPool.holds_iff _ id).mp (shown.holds_ids id held)
    obtain ⟨line, read, present, _⟩ := GreenPool.get_of_text? denotes
    have among : line.content ∈ (workspace.heap.lock branch.pool).contents := List.mem_map_of_mem present
    rw [listed] at among
    exact ⟨line, read, List.mem_inventory.mp among⟩

end Steps

section Samples

attribute [local instance] sampleDigests

/-- A load, edits of the buffer and of a fork, one of them out of range, and a pool filled by hand. -/
def storingOps : List WorkspaceOp :=
  [.newPool, .build (.fromSource ⟨none, ["a", "b", "a"]⟩) none, .branch 0, .call 0 (.insertLine 3 "c"), .call 0 .undo,
    .edit 0 (.replaceLine 9 "x" none), .edit 0 (.replaceLine 0 "b" none), .intern 0 "z"]

theorem sample_ledger : ∃ workspace, Workspace.empty.run storingOps = .ok workspace ∧
    placed 1 (Workspace.empty.ledger storingOps) = ["a", "b", "a", "c", "b"] ∧
    (workspace.heap.lock 1).contents = (placed 1 (Workspace.empty.ledger storingOps)).inventory := by
  obtain ⟨workspace, ran⟩ : ∃ workspace, Workspace.empty.run storingOps = .ok workspace := ⟨_, rfl⟩
  exact ⟨workspace, ran, by decide +kernel, (Workspace.run_ledger ran 1).1⟩

end Samples

end Mallard
