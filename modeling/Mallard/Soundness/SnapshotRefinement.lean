import Mallard.Proofs.BranchTimeline

/-! # A branch refines a machine of snapshots

The abstract machine keeps whole line sequences where the code keeps position deltas. What the
stacks of a branch mean is observed through the code itself: `snapshots` collects the lines after
each further undo and after each further redo.
-/

namespace Mallard

/-- Past, present and future line sequences over a pool. -/
structure Snapshots where
  pool : GreenPool
  timeline : Timeline (List GreenLineId)

namespace Snapshots

variable [Digests]

/-- One call: whether it succeeded, and the state it leaves. -/
def step (state : Snapshots) : BranchOp → Bool × Snapshots
  | .insertLine n content validator =>
    if n ≤ state.timeline.present.length ∧ Accepts validator content then
      let (id, pool) := state.pool.intern content
      (true, ⟨pool, state.timeline.record (state.timeline.present.insertIdx n id)⟩)
    else (false, state)
  | .replaceLine n content validator =>
    if n < state.timeline.present.length ∧ Accepts validator content then
      let (id, pool) := state.pool.intern content
      (true, ⟨pool, state.timeline.record (state.timeline.present.set n id)⟩)
    else (false, state)
  | .deleteLine n =>
    if n < state.timeline.present.length then
      (true, { state with timeline := state.timeline.record (state.timeline.present.eraseIdx n) })
    else (false, state)
  | .undo =>
    match state.timeline with
    | ⟨[], _, _⟩ => (false, state)
    | ⟨earlier :: past, present, future⟩ => (true, { state with timeline := ⟨past, earlier, present :: future⟩ })
  | .redo =>
    match state.timeline with
    | ⟨_, _, []⟩ => (false, state)
    | ⟨past, present, later :: future⟩ => (true, { state with timeline := ⟨present :: past, later, future⟩ })

/-- A sequence of calls, with their successes. -/
def run (state : Snapshots) : List BranchOp → List Bool × Snapshots
  | [] => ([], state)
  | op :: ops =>
    let (moved, state) := state.step op
    let (rest, state) := state.run ops
    (moved :: rest, state)

/-- A step of the machine is the advance of its pool and timeline, or nothing. -/
theorem step_eq (state : Snapshots) (op : BranchOp) :
    state.step op =
      match Branch.advance? state.pool state.timeline op with
      | some (pool, timeline) => (true, ⟨pool, timeline⟩)
      | none => (false, state) := by
  obtain ⟨pool, past, present, future⟩ := state
  cases op with
  | insertLine n content validator =>
    rw [Branch.advance?_insertLine, step]
    split <;> rfl
  | replaceLine n content validator =>
    rw [Branch.advance?_replaceLine, step]
    split <;> rfl
  | deleteLine n =>
    simp only [step, Branch.advance?, BranchOp.move?, Option.bind_some, GreenPool.internMove, Timeline.exec?]
    split <;> rfl
  | undo => cases past <;> rfl
  | redo => cases future <;> rfl

end Snapshots

namespace Branch

/-- The line sequences that successive undo calls bring back. -/
def undone : ℕ → Branch → Outcome (List (List GreenLineId))
  | 0, _ => pure []
  | calls + 1, branch => do
    let (moved, earlier) ← branch.undo
    if moved then do
      let older ← undone calls earlier
      pure (earlier.lines :: older)
    else pure []

/-- The line sequences that successive redo calls bring back. -/
def redone : ℕ → Branch → Outcome (List (List GreenLineId))
  | 0, _ => pure []
  | calls + 1, branch => do
    let (moved, later) ← branch.redo
    if moved then do
      let newer ← redone calls later
      pure (later.lines :: newer)
    else pure []

/-- The timeline of a branch, as its own undo and redo show it. -/
def snapshots (branch : Branch) : Outcome (Timeline (List GreenLineId)) := do
  let past ← undone branch.undoStack.length branch
  let future ← redone branch.redoStack.length branch
  pure ⟨past, branch.lines, future⟩

theorem undone_eq {branch : Branch} {timeline : Timeline (List GreenLineId)} (tracks : branch.Tracks timeline) :
    undone timeline.past.length branch = .ok timeline.past := by
  obtain ⟨past, present, future⟩ := timeline
  induction past generalizing branch present future with
  | nil => rfl
  | cons earlier past ih =>
    obtain ⟨moved, next, undid, follows⟩ := undo_spec tracks
    obtain ⟨rfl, _, after⟩ := follows
    simp only [List.length_cons, undone, undid, Outcome.ok_bind, if_true, ih _ _ after, after.lines]
    rfl

theorem redone_eq {branch : Branch} {timeline : Timeline (List GreenLineId)} (tracks : branch.Tracks timeline) :
    redone timeline.future.length branch = .ok timeline.future := by
  obtain ⟨past, present, future⟩ := timeline
  induction future generalizing branch past present with
  | nil => rfl
  | cons later future ih =>
    obtain ⟨moved, next, redid, follows⟩ := redo_spec tracks
    obtain ⟨rfl, _, after⟩ := follows
    simp only [List.length_cons, redone, redid, Outcome.ok_bind, if_true, ih _ _ after, after.lines]
    rfl

/-- The stacks determine the timeline they track. -/
theorem Tracks.snapshots_eq {branch : Branch} {timeline : Timeline (List GreenLineId)}
    (tracks : branch.Tracks timeline) : branch.snapshots = .ok timeline := by
  rw [snapshots, tracks.undoStack_length, tracks.redoStack_length, undone_eq tracks, redone_eq tracks,
    tracks.lines]
  rfl

end Branch

namespace Branch

variable [Digests]

/-- The code and the machine after the same calls. -/
structure Simulates (heap : Heap) (branch : Branch) (state : Snapshots) : Prop where
  pool : heap.lock branch.pool = state.pool
  tracks : branch.Tracks state.timeline

theorem reply_succeeded (pool : GreenPool) (timeline : Timeline (List GreenLineId)) (op : BranchOp) :
    (op.reply timeline.present.length (advance? pool timeline op).isSome).succeeded =
      (advance? pool timeline op).isSome := by
  cases op with
  | insertLine n content validator =>
    rw [advance?_insertLine]
    by_cases passes : n ≤ timeline.present.length ∧ Accepts validator content
    · rw [if_pos passes, BranchOp.reply, checkInsert_eq_ok.mpr passes]
      rfl
    · obtain ⟨error, failed⟩ := eq_error_of_ne_ok (mt checkInsert_eq_ok.mp passes)
      rw [if_neg passes, BranchOp.reply, failed]
      rfl
  | replaceLine n content validator =>
    rw [advance?_replaceLine]
    by_cases passes : n < timeline.present.length ∧ Accepts validator content
    · rw [if_pos passes, BranchOp.reply, checkReplace_eq_ok.mpr passes]
      rfl
    · obtain ⟨error, failed⟩ := eq_error_of_ne_ok (mt checkReplace_eq_ok.mp passes)
      rw [if_neg passes, BranchOp.reply, failed]
      rfl
  | deleteLine | undo | redo => rfl

/-- A call succeeds when the machine's step does, and leaves everything alone when it does not. -/
theorem call_simulates {heap : Heap} {branch : Branch} {state : Snapshots} (same : Simulates heap branch state)
    (op : BranchOp) :
    ∃ reply heap' next, branch.call heap op = .ok (reply, heap', next) ∧
      reply.succeeded = (state.step op).1 ∧ Simulates heap' next (state.step op).2 ∧
      next.pool = branch.pool ∧ (reply.succeeded = false → heap' = heap ∧ next = branch) := by
  have spec := call_spec same.tracks heap op
  have succeeded := reply_succeeded state.pool state.timeline op
  rw [Snapshots.step_eq]
  rw [same.pool] at spec
  cases advanced : advance? state.pool state.timeline op with
  | none =>
    rw [advanced] at spec succeeded
    exact ⟨_, heap, branch, spec, succeeded, same, rfl, fun _ => ⟨rfl, rfl⟩⟩
  | some result =>
    obtain ⟨grown, later⟩ := result
    rw [advanced] at spec succeeded
    obtain ⟨next, called, pool, tracks⟩ := spec
    refine ⟨_, _, next, called, succeeded, ⟨?_, tracks⟩, pool, ?_⟩
    · rw [pool, Heap.lock_store]
    · exact fun failed => absurd (succeeded.symm.trans failed) Bool.noConfusion

theorem run_simulates {heap : Heap} {branch : Branch} {state : Snapshots} (same : Simulates heap branch state)
    (ops : List BranchOp) :
    ∃ replies heap' final, branch.run heap ops = .ok (replies, heap', final) ∧
      replies.map Reply.succeeded = (state.run ops).1 ∧ Simulates heap' final (state.run ops).2 ∧
      final.pool = branch.pool := by
  induction ops generalizing heap branch state with
  | nil => exact ⟨[], heap, branch, rfl, rfl, same, rfl⟩
  | cons op ops ih =>
    obtain ⟨reply, heap', next, called, succeeded, after, pool, _⟩ := call_simulates same op
    obtain ⟨replies, heap'', final, ran, rest, finished, pool'⟩ := ih after
    refine ⟨reply :: replies, heap'', final, run_cons called ran, ?_, finished, pool'.trans pool⟩
    rw [List.map_cons, succeeded, rest]
    rfl

/-- From any lines and empty stacks, every sequence of calls returns, succeeds call by call where the
machine of snapshots does, and ends with its pool and its timeline; a failing call then changes
nothing. -/
theorem run_refines_snapshots (heap : Heap) (pool : PoolRef) (lines : List GreenLineId)
    (ops : List BranchOp) :
    ∃ replies heap' branch, Branch.run heap ⟨pool, lines, [], []⟩ ops = .ok (replies, heap', branch) ∧
      replies.map Reply.succeeded = (Snapshots.run ⟨heap.lock pool, .fresh lines⟩ ops).1 ∧
      heap'.lock pool = (Snapshots.run ⟨heap.lock pool, .fresh lines⟩ ops).2.pool ∧
      branch.snapshots = .ok (Snapshots.run ⟨heap.lock pool, .fresh lines⟩ ops).2.timeline ∧
      branch.lines = (Snapshots.run ⟨heap.lock pool, .fresh lines⟩ ops).2.timeline.present ∧
      branch.undoStack.length = (Snapshots.run ⟨heap.lock pool, .fresh lines⟩ ops).2.timeline.past.length ∧
      branch.redoStack.length = (Snapshots.run ⟨heap.lock pool, .fresh lines⟩ ops).2.timeline.future.length ∧
      ∀ op reply heap'' next, branch.call heap' op = .ok (reply, heap'', next) → reply.succeeded = false →
        heap'' = heap' ∧ next = branch := by
  have start : Simulates heap ⟨pool, lines, [], []⟩ ⟨heap.lock pool, .fresh lines⟩ :=
    ⟨rfl, tracks_fresh pool lines⟩
  obtain ⟨replies, heap', branch, ran, succeeded, same, samePool⟩ := run_simulates start ops
  refine ⟨replies, heap', branch, ran, succeeded, ?_, same.tracks.snapshots_eq, same.tracks.lines,
    same.tracks.undoStack_length, same.tracks.redoStack_length, ?_⟩
  · rw [← same.pool, samePool]
  · intro op reply heap'' next called failed
    obtain ⟨_, _, _, called', _, _, _, unchanged⟩ := call_simulates same op
    rw [called'] at called
    cases called
    exact unchanged failed

end Branch

end Mallard
