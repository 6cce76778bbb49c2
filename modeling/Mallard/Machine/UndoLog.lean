import Mallard.Machine.Timeline

/-! # Undo by recorded edits

A log keeps edits instead of states: undo applies the inverse of the newest recorded edit, redo
applies the edit again. A recorded edit only makes sense in the state it was recorded against, so
what a log means is a chain: `Tracks` ties the recorded edits of both stacks to the snapshots of a
timeline, one application per neighbouring pair. Every operation keeps the chain linked, and the
chain determines its snapshots: the log replays from the oldest of them to the present and on to the
newest, and its inverses lead back.
-/

/-- Partial edits of a state type, each undone by its inverse wherever it applied. -/
structure EditSystem (σ ε : Type*) where
  apply : ε → σ → Option σ
  inverse : ε → ε
  apply_inverse : ∀ {edit before after}, apply edit before = some after →
    apply (inverse edit) after = some before

namespace EditSystem

variable {σ ε : Type*} (system : EditSystem σ ε)

/-- Edits already performed, newest first, with the states they were applied to. -/
inductive Past : List ε → List σ → σ → Prop
  | nil (state : σ) : Past [] [] state
  | cons {edit : ε} {edits : List ε} {before state : σ} {past : List σ}
      (applied : system.apply edit before = some state) (older : Past edits past before) :
      Past (edit :: edits) (before :: past) state

/-- Edits taken back, the next one to perform first, with the states they lead to. -/
inductive Future : List ε → List σ → σ → Prop
  | nil (state : σ) : Future [] [] state
  | cons {edit : ε} {edits : List ε} {state after : σ} {future : List σ}
      (applied : system.apply edit state = some after) (later : Future edits future after) :
      Future (edit :: edits) (after :: future) state

/-- The recorded edits link the snapshots of a timeline. -/
structure Tracks (done undone : List ε) (timeline : Timeline σ) : Prop where
  past : system.Past done timeline.past timeline.present
  future : system.Future undone timeline.future timeline.present

variable {system}

theorem Past.length_eq {done : List ε} {past : List σ} {state : σ} (chain : system.Past done past state) :
    done.length = past.length := by
  induction chain with
  | nil => rfl
  | cons _ _ ih => exact congrArg Nat.succ ih

theorem Future.length_eq {undone : List ε} {future : List σ} {state : σ}
    (chain : system.Future undone future state) : undone.length = future.length := by
  induction chain with
  | nil => rfl
  | cons _ _ ih => exact congrArg Nat.succ ih

section Edits

variable {P : σ → Prop} {Q : ε → Prop}
  (between : ∀ {edit before after}, system.apply edit before = some after → P before → P after → Q edit)
include between

theorem Past.forall_edits {done : List ε} {past : List σ} {state : σ} (chain : system.Past done past state)
    (good : ∀ older ∈ past, P older) (here : P state) : ∀ edit ∈ done, Q edit := by
  induction chain with
  | nil => exact fun _ member => absurd member List.not_mem_nil
  | cons applied _ ih =>
    obtain ⟨before, older⟩ := List.forall_mem_cons.mp good
    exact List.forall_mem_cons.mpr ⟨between applied before here, ih older before⟩

theorem Future.forall_edits {undone : List ε} {future : List σ} {state : σ}
    (chain : system.Future undone future state) (good : ∀ later ∈ future, P later) (here : P state) :
    ∀ edit ∈ undone, Q edit := by
  induction chain with
  | nil => exact fun _ member => absurd member List.not_mem_nil
  | cons applied _ ih =>
    obtain ⟨after, later⟩ := List.forall_mem_cons.mp good
    exact List.forall_mem_cons.mpr ⟨between applied here after, ih later after⟩

/-- What holds of every edit between good states holds of the recorded ones, if all snapshots are good. -/
theorem Tracks.forall_edits {done undone : List ε} {timeline : Timeline σ}
    (tracks : system.Tracks done undone timeline) (good : ∀ state ∈ timeline.snapshots, P state) :
    ∀ edit ∈ done ++ undone, Q edit := by
  have here := good timeline.present (Timeline.mem_snapshots.mpr (.inr (.inl rfl)))
  refine List.forall_mem_append.mpr ⟨?_, ?_⟩
  · exact tracks.past.forall_edits between
      (fun older member => good older (Timeline.mem_snapshots.mpr (.inl member))) here
  · exact tracks.future.forall_edits between
      (fun later member => good later (Timeline.mem_snapshots.mpr (.inr (.inr member)))) here

end Edits

theorem Tracks.fresh (state : σ) : system.Tracks [] [] (Timeline.fresh state) := ⟨.nil state, .nil state⟩

/-- A new edit is recorded on top and gives up the edits taken back. -/
theorem Tracks.record {done undone : List ε} {timeline : Timeline σ}
    (tracks : system.Tracks done undone timeline) {edit : ε} {state : σ}
    (applied : system.apply edit timeline.present = some state) :
    system.Tracks (edit :: done) [] (timeline.record state) := ⟨.cons applied tracks.past, .nil state⟩

/-- Nothing is recorded exactly when there is no past. -/
theorem Tracks.undo?_none {undone : List ε} {timeline : Timeline σ}
    (tracks : system.Tracks [] undone timeline) : timeline.undo? = none := by
  obtain ⟨past, present, future⟩ := timeline
  cases tracks.past
  rfl

theorem Tracks.redo?_none {done : List ε} {timeline : Timeline σ}
    (tracks : system.Tracks done [] timeline) : timeline.redo? = none := by
  obtain ⟨past, present, future⟩ := timeline
  cases tracks.future
  rfl

/-- The inverse of the newest edit leads to the nearest past snapshot. -/
theorem Tracks.undo {edit : ε} {done undone : List ε} {timeline : Timeline σ}
    (tracks : system.Tracks (edit :: done) undone timeline) :
    ∃ earlier, timeline.undo? = some earlier ∧
      system.apply (system.inverse edit) timeline.present = some earlier.present ∧
      system.Tracks done (edit :: undone) earlier := by
  obtain ⟨past, present, future⟩ := timeline
  cases tracks.past with
  | cons applied older =>
    exact ⟨_, rfl, system.apply_inverse applied, older, .cons applied tracks.future⟩

/-- The next edit taken back leads to the nearest future snapshot. -/
theorem Tracks.redo {edit : ε} {done undone : List ε} {timeline : Timeline σ}
    (tracks : system.Tracks done (edit :: undone) timeline) :
    ∃ later, timeline.redo? = some later ∧
      system.apply edit timeline.present = some later.present ∧
      system.Tracks (edit :: done) undone later := by
  obtain ⟨past, present, future⟩ := timeline
  cases tracks.future with
  | cons applied later => exact ⟨_, rfl, applied, .cons applied tracks.past, later⟩

/-- Perform edits one after the other, each on the state that the ones before it left. -/
def replay (system : EditSystem σ ε) : List ε → σ → Option σ
  | [], state => some state
  | edit :: edits, state => (system.apply edit state).bind (system.replay edits)

theorem replay_cons_eq_some {edit : ε} {edits : List ε} {state final : σ} :
    system.replay (edit :: edits) state = some final ↔
      ∃ next, system.apply edit state = some next ∧ system.replay edits next = some final :=
  Option.bind_eq_some_iff

theorem replay_append (first second : List ε) (state : σ) :
    system.replay (first ++ second) state = (system.replay first state).bind (system.replay second) := by
  induction first generalizing state with
  | nil => rfl
  | cons edit first ih =>
    rw [List.cons_append, replay, replay, Option.bind_assoc]
    exact Option.bind_congr fun next _ => ih next

/-- The edits performed lead from the oldest state to the present one. -/
theorem Past.replay {done : List ε} {past : List σ} {state : σ} (chain : system.Past done past state) :
    system.replay done.reverse (past.getLastD state) = some state := by
  induction chain with
  | nil => rfl
  | @cons edit edits before state past applied older ih =>
    rw [List.reverse_cons, List.getLastD_cons, replay_append, ih, Option.bind_some]
    exact replay_cons_eq_some.mpr ⟨state, applied, rfl⟩

/-- Their inverses lead back, the newest first. -/
theorem Past.revert {done : List ε} {past : List σ} {state : σ} (chain : system.Past done past state) :
    system.replay (done.map system.inverse) state = some (past.getLastD state) := by
  induction chain with
  | nil => rfl
  | @cons edit edits before state past applied older ih =>
    rw [List.map_cons, List.getLastD_cons]
    exact replay_cons_eq_some.mpr ⟨before, system.apply_inverse applied, ih⟩

/-- The edits taken back lead on to the newest state. -/
theorem Future.replay {undone : List ε} {future : List σ} {state : σ}
    (chain : system.Future undone future state) : system.replay undone state = some (future.getLastD state) := by
  induction chain with
  | nil => rfl
  | @cons edit edits state after future applied later ih =>
    rw [List.getLastD_cons]
    exact replay_cons_eq_some.mpr ⟨after, applied, ih⟩

/-- The newest edit applies where its inverse leads. -/
theorem Tracks.redo_undo {edit : ε} {done undone : List ε} {timeline : Timeline σ}
    (tracks : system.Tracks (edit :: done) undone timeline) :
    ∃ before, system.apply (system.inverse edit) timeline.present = some before ∧
      system.apply edit before = some timeline.present := by
  obtain ⟨past, present, future⟩ := timeline
  cases tracks.past with
  | cons applied older => exact ⟨_, system.apply_inverse applied, applied⟩

/-- The inverse of the next edit taken back applies where the edit leads. -/
theorem Tracks.undo_redo {edit : ε} {done undone : List ε} {timeline : Timeline σ}
    (tracks : system.Tracks done (edit :: undone) timeline) :
    ∃ after, system.apply edit timeline.present = some after ∧
      system.apply (system.inverse edit) after = some timeline.present := by
  obtain ⟨past, present, future⟩ := timeline
  cases tracks.future with
  | cons applied later => exact ⟨_, applied, system.apply_inverse applied⟩

end EditSystem
