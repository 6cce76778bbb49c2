import Mallard.Proofs.Workspaces

/-! # The only panic of the library

Whatever is built, edited, forked, interned and read, in whatever order, only one thing can panic: a
source whose line-count hint asks for more ids than a vector may hold. No unchecked index, no slice and
no id ever does, even when the pools outgrow the ids.
-/

namespace Mallard

/-- The step does not build from a source that announces too many lines. -/
def WorkspaceOp.HintFits : WorkspaceOp → Prop
  | .build (.fromSource source) _ => LineBuffer.HintFits source
  | _ => True

section Panics

variable [Digests]

/-- A construction returns, unless its hint is too large. -/
theorem Construction.build_returns (construction : Construction) (heap : Heap)
    (validator : Option EncodingValidator) (fits : (WorkspaceOp.build construction validator).HintFits) :
    ∃ built, construction.build heap validator = .ok built := by
  cases construction with
  | new => exact ⟨_, rfl⟩
  | fromStr text =>
    rw [build, LineBuffer.fromStr_eq]
    exact ⟨_, rfl⟩
  | fromReader read =>
    cases read with
    | error error => exact ⟨_, rfl⟩
    | ok bytes =>
      rw [build, LineBuffer.fromReader]
      cases fromUtf8 bytes with
      | none => exact ⟨_, rfl⟩
      | some text =>
        simp only [LineBuffer.fromStr_eq]
        exact ⟨_, rfl⟩
  | fromSource source =>
    rw [build, LineBuffer.fromSource_eq fits]
    exact ⟨_, rfl⟩

namespace Workspace

variable {workspace : Workspace}

/-- No step of a sound workspace panics, unless it builds from a source whose hint is too large. -/
theorem Sound.step_returns (sound : workspace.Sound) {op : WorkspaceOp} (fits : op.HintFits) :
    ∃ next, workspace.step op = .ok next := by
  by_cases missing : workspace.Missing op
  · exact ⟨workspace, step_missing missing⟩
  cases op with
  | build construction validator =>
    obtain ⟨built, returned⟩ := construction.build_returns workspace.heap validator fits
    rw [Workspace.step, returned]
    cases built <;> exact ⟨_, rfl⟩
  | call i op =>
    obtain ⟨buffer, found⟩ := Option.ne_none_iff_exists'.mp missing
    obtain ⟨reply, later, after, called, _⟩ := (sound.buffers buffer (List.mem_of_getElem? found)).call sound.valid op
    simp only [Workspace.step, found, called, Outcome.ok_bind]
    exact ⟨_, rfl⟩
  | viewBuffer i call =>
    obtain ⟨buffer, found⟩ := Option.ne_none_iff_exists'.mp missing
    obtain ⟨later, done, _⟩ := read_grows sound.valid (sound.buffers buffer (List.mem_of_getElem? found)).root call
    simp only [Workspace.step, found, done, Outcome.ok_bind]
    exact ⟨_, rfl⟩
  | edit j op =>
    obtain ⟨branch, found⟩ := Option.ne_none_iff_exists'.mp missing
    obtain ⟨reply, later, after, called, _⟩ := (sound.branches branch (List.mem_of_getElem? found)).call sound.valid op
    simp only [Workspace.step, found, called, Outcome.ok_bind]
    exact ⟨_, rfl⟩
  | viewBranch j call =>
    obtain ⟨branch, found⟩ := Option.ne_none_iff_exists'.mp missing
    obtain ⟨later, done, _⟩ := read_grows sound.valid (sound.branches branch (List.mem_of_getElem? found)) call
    simp only [Workspace.step, found, done, Outcome.ok_bind]
    exact ⟨_, rfl⟩
  | branch i =>
    obtain ⟨buffer, found⟩ := Option.ne_none_iff_exists'.mp missing
    rw [Workspace.step, found]
    exact ⟨_, rfl⟩
  | fork j =>
    obtain ⟨branch, found⟩ := Option.ne_none_iff_exists'.mp missing
    rw [Workspace.step, found]
    exact ⟨_, rfl⟩
  | newPool => exact ⟨_, rfl⟩
  | newBranch pool | intern pool content =>
    rw [Workspace.step, if_pos (Decidable.not_not.mp missing)]
    exact ⟨_, rfl⟩

/-- A step with a hint that is too large panics. -/
theorem step_overflow (workspace : Workspace) {op : WorkspaceOp} (beyond : ¬ op.HintFits) :
    workspace.step op = .error .capacityOverflow := by
  cases op with
  | build construction validator =>
    cases construction with
    | fromSource source =>
      rw [Workspace.step, Construction.build, LineBuffer.fromSource_overflow beyond]
      rfl
    | new | fromStr text | fromReader read => exact absurd trivial beyond
  | call | viewBuffer | branch | newPool | newBranch | fork | edit | viewBranch | intern =>
    exact absurd trivial beyond

/-- A run returns exactly when every hint fits; otherwise a hint overflowed the capacity of a vector. -/
theorem Sound.run_outcome (sound : workspace.Sound) (ops : List WorkspaceOp) :
    ((∀ op ∈ ops, op.HintFits) → ∃ final, workspace.run ops = .ok final) ∧
      (¬ (∀ op ∈ ops, op.HintFits) → workspace.run ops = .error .capacityOverflow) := by
  induction ops generalizing workspace with
  | nil => exact ⟨fun _ => ⟨workspace, rfl⟩, fun beyond => absurd (fun _ member => absurd member List.not_mem_nil) beyond⟩
  | cons op ops ih =>
    rw [Workspace.run, List.forall_mem_cons]
    by_cases fits : op.HintFits
    · obtain ⟨next, stepped⟩ := sound.step_returns fits
      obtain ⟨returns, overflows⟩ := ih (sound.step stepped)
      rw [stepped, Outcome.ok_bind]
      exact ⟨fun all => returns all.2, fun beyond => overflows fun rest => beyond ⟨fits, rest⟩⟩
    · rw [step_overflow workspace fits]
      exact ⟨fun all => absurd all.1 fits, fun _ => rfl⟩

end Workspace

/-- A program over the library panics exactly when it builds a buffer from a source whose line-count hint
asks for more than `isize::MAX` bytes of ids. -/
theorem Workspace.run_panics_iff (ops : List WorkspaceOp) (panic : Panic) :
    Workspace.empty.run ops = .error panic ↔
      panic = .capacityOverflow ∧ ∃ source validator hint, .build (.fromSource source) validator ∈ ops ∧
        source.lineCountHint = some hint ∧ isizeMax < hint * 4 := by
  obtain ⟨returns, overflows⟩ := sound_empty.run_outcome ops
  have beyond_iff : ¬ (∀ op ∈ ops, op.HintFits) ↔
      ∃ source validator hint, .build (.fromSource source) validator ∈ ops ∧
        source.lineCountHint = some hint ∧ isizeMax < hint * 4 := by
    constructor
    · intro beyond
      push Not at beyond
      obtain ⟨op, member, beyond⟩ := beyond
      cases op with
      | build construction validator =>
        cases construction with
        | fromSource source =>
          simp only [WorkspaceOp.HintFits, LineBuffer.HintFits, not_forall, Nat.not_le, Option.mem_def] at beyond
          obtain ⟨hint, announced, large⟩ := beyond
          exact ⟨source, validator, hint, member, announced, large⟩
        | new | fromStr text | fromReader read => exact absurd trivial beyond
      | call | viewBuffer | branch | newPool | newBranch | fork | edit | viewBranch | intern =>
        exact absurd trivial beyond
    · rintro ⟨source, validator, hint, member, announced, large⟩ all
      exact absurd (all _ member hint announced) (Nat.not_le.mpr large)
  rw [← beyond_iff]
  constructor
  · intro panicked
    have beyond : ¬ ∀ op ∈ ops, op.HintFits := by
      intro all
      obtain ⟨final, ran⟩ := returns all
      rw [ran] at panicked
      cases panicked
    rw [overflows beyond] at panicked
    cases panicked
    exact ⟨rfl, beyond⟩
  · rintro ⟨rfl, beyond⟩
    exact overflows beyond

end Panics

end Mallard
