import Mallard.Proofs.BranchTimeline

/-! # The stacks of a branch are a complete log

Whatever was called on a branch, and whatever others did to its pool in between, the recorded edits
lead from the base lines to the lines it shows, each of them applicable where it is applied; the edits
taken back lead on from there, and the inverses of the recorded ones lead back to the base. So undo and
redo take each other back, with the stacks and not only with the lines.
-/

namespace Mallard

namespace Branch

/-- The history of a branch is a log of its edits from the base lines on. A replay fails at an edit
that does not fit the lines in front of it. -/
structure Logs (branch : Branch) (base : List GreenLineId) : Prop where
  /-- From the bottom of the undo stack to its top. -/
  performed : BranchEdit.system.replay branch.undoStack.reverse base = some branch.lines
  /-- From the top of the redo stack to its bottom. -/
  continued : ∃ newest, BranchEdit.system.replay branch.redoStack branch.lines = some newest
  /-- From the top of the undo stack to its bottom. -/
  reverted : BranchEdit.system.replay (branch.undoStack.map BranchEdit.inverse) branch.lines = some base

/-- A branch that shows the present of a timeline logs its edits from the oldest snapshot on. -/
theorem Tracks.logs {branch : Branch} {timeline : Timeline (List GreenLineId)} (tracks : branch.Tracks timeline) :
    branch.Logs timeline.base where
  performed := by
    rw [tracks.lines]
    exact tracks.log.past.replay
  continued := by
    rw [tracks.lines]
    exact ⟨_, tracks.log.future.replay⟩
  reverted := by
    rw [tracks.lines]
    exact tracks.log.past.revert

section Calls

variable [Digests]

/-- Undo and redo take each other back, on the whole branch. -/
structure Reversible (branch : Branch) : Prop where
  redo_undo : ∀ earlier, branch.undo = .ok (true, earlier) → earlier.redo = .ok (true, branch)
  undo_redo : ∀ later, branch.redo = .ok (true, later) → later.undo = .ok (true, branch)
  /-- As many undo calls as succeed are taken back by as many redo calls. -/
  redo_undos : ∀ count heap heap' earlier other,
    branch.run heap (List.replicate count .undo) = .ok (List.replicate count (.flag true), heap', earlier) →
      earlier.run other (List.replicate count .redo) = .ok (List.replicate count (.flag true), other, branch)
  /-- There are as many as the undo stack is high. -/
  undos : ∀ count heap, count ≤ branch.undoStack.length → ∃ earlier,
    branch.run heap (List.replicate count .undo) = .ok (List.replicate count (.flag true), heap, earlier)

/-- Calls on a branch whose pool is shared: each finds the pools as the others left them. -/
def runShared (branch : Branch) : List (Heap × BranchOp) → Outcome Branch
  | [] => pure branch
  | (heap, op) :: calls => do
    let (_, _, branch) ← branch.call heap op
    branch.runShared calls

/-- A run that nobody disturbs is one of them. -/
theorem exists_runShared {heap heap' : Heap} {branch final : Branch} {ops : List BranchOp} {replies : List Reply}
    (ran : branch.run heap ops = .ok (replies, heap', final)) :
    ∃ calls, calls.map Prod.snd = ops ∧ branch.runShared calls = .ok final := by
  induction ops generalizing heap branch replies with
  | nil =>
    cases ran
    exact ⟨[], rfl, rfl⟩
  | cons op ops ih =>
    obtain ⟨⟨reply, heap₁, next⟩, called, ran⟩ := Outcome.bind_eq_ok.mp ran
    obtain ⟨⟨later, heap₂, reached⟩, ran, same⟩ := Outcome.bind_eq_ok.mp ran
    cases same
    obtain ⟨calls, rfl, shared⟩ := ih ran
    refine ⟨(heap, op) :: calls, rfl, ?_⟩
    simp only [runShared, called, Outcome.ok_bind, shared]

variable {branch : Branch} {timeline : Timeline (List GreenLineId)}

/-- A call keeps the branch on a timeline from the same base. -/
theorem Tracks.call (tracks : branch.Tracks timeline) (heap : Heap) (op : BranchOp) :
    ∃ reply heap' next later, branch.call heap op = .ok (reply, heap', next) ∧ next.Tracks later ∧
      later.base = timeline.base := by
  have spec := call_spec tracks heap op
  cases advanced : advance? (heap.lock branch.pool) timeline op with
  | none =>
    rw [advanced] at spec
    exact ⟨_, _, branch, timeline, spec, tracks, rfl⟩
  | some result =>
    obtain ⟨grown, later⟩ := result
    rw [advanced] at spec
    obtain ⟨next, called, _, tracks⟩ := spec
    obtain ⟨move, _, moved, _⟩ := advance?_move advanced
    exact ⟨_, _, next, later, called, tracks, Timeline.base_exec? moved⟩

theorem Tracks.of_call (tracks : branch.Tracks timeline) {heap heap' : Heap} {op : BranchOp} {reply : Reply}
    {next : Branch} (called : branch.call heap op = .ok (reply, heap', next)) : ∃ later, next.Tracks later := by
  obtain ⟨_, _, _, later, returned, after, _⟩ := tracks.call heap op
  rw [called] at returned
  cases returned
  exact ⟨later, after⟩

/-- No call of a run panics, and the base stays where it was. -/
theorem Tracks.runShared (tracks : branch.Tracks timeline) (calls : List (Heap × BranchOp)) :
    ∃ final later, branch.runShared calls = .ok final ∧ final.Tracks later ∧ later.base = timeline.base := by
  induction calls generalizing branch timeline with
  | nil => exact ⟨branch, timeline, rfl, tracks, rfl⟩
  | cons first calls ih =>
    obtain ⟨heap, op⟩ := first
    obtain ⟨reply, heap', next, later, called, after, base⟩ := tracks.call heap op
    obtain ⟨final, last, ran, reached, kept⟩ := ih after
    refine ⟨final, last, ?_, reached, kept.trans base⟩
    simp only [Branch.runShared, called, Outcome.ok_bind, ran]

/-- The first of several undo calls, and the ones behind it. -/
theorem undo_of_run {count : ℕ} {heap heap' : Heap} {earlier : Branch}
    (ran : branch.run heap (List.replicate (count + 1) .undo) =
      .ok (List.replicate (count + 1) (.flag true), heap', earlier)) :
    ∃ next, branch.undo = .ok (true, next) ∧ branch.call heap .undo = .ok (.flag true, heap, next) ∧
      next.run heap (List.replicate count .undo) = .ok (List.replicate count (.flag true), heap', earlier) := by
  obtain ⟨⟨reply, heap₁, next⟩, called, ran⟩ := Outcome.bind_eq_ok.mp ran
  obtain ⟨⟨later, heap₂, reached⟩, ran, same⟩ := Outcome.bind_eq_ok.mp ran
  obtain ⟨⟨moved, undone⟩, undo, returned⟩ := Outcome.bind_eq_ok.mp called
  cases returned
  cases same
  exact ⟨next, undo, called, ran⟩

/-- The redo calls bring the branches back in the opposite order. -/
theorem Tracks.redo_undos (tracks : branch.Tracks timeline) {count : ℕ} {heap heap' : Heap} {earlier : Branch}
    (ran : branch.run heap (List.replicate count .undo) = .ok (List.replicate count (.flag true), heap', earlier))
    (other : Heap) :
    earlier.run other (List.replicate count .redo) = .ok (List.replicate count (.flag true), other, branch) := by
  induction count generalizing branch timeline with
  | zero =>
    cases ran
    rfl
  | succ count ih =>
    obtain ⟨next, undone, called, ran⟩ := undo_of_run ran
    obtain ⟨later, after⟩ := tracks.of_call called
    have last : next.run other [.redo] = .ok ([.flag true], other, branch) := by
      simp only [Branch.run, Branch.call, tracks.redo_undo undone]
      rfl
    rw [List.replicate_succ', List.replicate_succ']
    exact run_append (ih after ran) last

/-- Undo succeeds as long as something is recorded. -/
theorem Tracks.undos (tracks : branch.Tracks timeline) {count : ℕ} (heap : Heap)
    (recorded : count ≤ branch.undoStack.length) : ∃ earlier,
      branch.run heap (List.replicate count .undo) = .ok (List.replicate count (.flag true), heap, earlier) := by
  induction count generalizing branch timeline with
  | zero => exact ⟨branch, rfl⟩
  | succ count ih =>
    cases top : branch.undoStack with
    | nil =>
      rw [top] at recorded
      exact absurd recorded (Nat.not_succ_le_zero count)
    | cons edit undoStack =>
      have log := tracks.log
      rw [top] at log
      obtain ⟨before, inverted, _⟩ := log.redo_undo
      rw [← tracks.lines] at inverted
      have undone := undo_of_apply top inverted
      have called : branch.call heap .undo = .ok (.flag true, heap,
          { branch with lines := before, undoStack, redoStack := edit :: branch.redoStack }) := by
        simp only [Branch.call, undone, Outcome.ok_bind]
        rfl
      obtain ⟨later, after⟩ := tracks.of_call called
      rw [top] at recorded
      obtain ⟨earlier, ran⟩ := ih after (Nat.le_of_succ_le_succ recorded)
      exact ⟨earlier, run_cons called ran⟩

theorem Tracks.reversible (tracks : branch.Tracks timeline) : branch.Reversible where
  redo_undo _ undone := tracks.redo_undo undone
  undo_redo _ redone := tracks.undo_redo redone
  redo_undos _ _ _ _ other ran := tracks.redo_undos ran other
  undos _ heap recorded := tracks.undos heap recorded

/-- From any base lines and empty stacks, every sequence of calls returns, and leaves a branch whose
stacks are a complete log from the base on and whose undo and redo take each other back. -/
theorem runShared_logs (pool : PoolRef) (base : List GreenLineId) (calls : List (Heap × BranchOp)) :
    ∃ branch, Branch.runShared ⟨pool, base, [], []⟩ calls = .ok branch ∧ branch.Logs base ∧ branch.Reversible := by
  obtain ⟨branch, timeline, ran, tracks, kept⟩ := (tracks_fresh pool base).runShared calls
  have logs := tracks.logs
  rw [kept, Timeline.base_fresh] at logs
  exact ⟨branch, ran, logs, tracks.reversible⟩

end Calls

end Branch

end Mallard
