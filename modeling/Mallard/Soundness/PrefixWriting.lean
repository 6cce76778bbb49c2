import Mallard.Proofs.Workspaces
import Mallard.Proofs.Writing

/-! # Writing to any writer

A writer may accept any part of what it is offered, any number of times, before it fails. `write_all`
turns it into a sink that takes chunks in order, so `write_lines` always leaves a prefix of the joined
lines behind, and all of them exactly when no write failed. It reads the buffer and its pool and
returns neither.
-/

namespace Mallard

open ChunkedOutput

namespace RawWriter

variable {σ : Type}

/-- What `write_all` did with some bytes: it accepted a prefix of them, and the whole of them unless a
write failed, whose error it returns. -/
inductive Wrote (state : State σ) (bytes : List UInt8) : Except IoError Unit × State σ → Prop
  | all {next : State σ} (accepted : next.accepted = state.accepted ++ bytes)
    (failure : next.failure = state.failure) : Wrote state bytes (.ok (), next)
  | some {next : State σ} {error : IoError} {part : List UInt8} (begins : part <+: bytes) (short : part ≠ bytes)
    (accepted : next.accepted = state.accepted ++ part) (failure : next.failure = some error) :
    Wrote state bytes (.error error, next)

theorem writeAll_wrote (writer : RawWriter σ) (state : State σ) (bytes : List UInt8) :
    Wrote state bytes (writer.writeAll state bytes) := by
  fun_induction writer.writeAll state bytes with
  | case1 state => exact .all (List.append_nil _).symm rfl
  | case2 state bytes nonempty error inner refused =>
    exact .some List.nil_prefix (Ne.symm nonempty) (List.append_nil _).symm rfl
  | case3 state bytes nonempty inner refused =>
    exact .some List.nil_prefix (Ne.symm nonempty) (List.append_nil _).symm rfl
  | case4 state bytes nonempty count inner accepted positive ih =>
    have whole : bytes.take count ++ bytes.drop count = bytes := List.take_append_drop count bytes
    generalize writer.writeAll _ _ = result at ih ⊢
    cases ih with
    | all more failure =>
      refine .all ?_ failure
      rw [more, List.append_assoc, whole]
    | @some _ _ part begins short more failure =>
      obtain ⟨rest, split⟩ := begins
      have begins' : bytes.take count ++ part <+: bytes := ⟨rest, by rw [List.append_assoc, split, whole]⟩
      refine .some begins' ?_ ?_ failure
      · intro same
        exact short (List.append_cancel_left (same.trans whole.symm))
      · rw [more, List.append_assoc]

/-- `write_all` takes chunks in order, and all of a chunk unless it fails. -/
theorem faithful_writeAll (writer : RawWriter σ) : Faithful State.accepted writer.writeAll := by
  constructor
  · intro state bytes next wrote
    have spec := writeAll_wrote writer state bytes
    rw [wrote] at spec
    cases spec with
    | all accepted => exact accepted
  · intro state bytes error next wrote
    have spec := writeAll_wrote writer state bytes
    rw [wrote] at spec
    cases spec with
    | @some _ _ part begins short accepted => exact ⟨part, begins, short, accepted⟩

/-- The result of writing chunks is the error of the write that failed, if one did. -/
theorem writeChunks_failure (writer : RawWriter σ) (state : State σ) (good : state.failure = none)
    (chunks : List (List UInt8)) :
    ∃ final, (final.failure = none ∧ writeChunks writer.writeAll chunks state = (.ok (), final)) ∨
      ∃ error, final.failure = some error ∧ writeChunks writer.writeAll chunks state = (.error error, final) := by
  have step {done : List (List UInt8)} {before : State σ} {chunk : List UInt8} {next : State σ}
      (kept : before.failure = none) (accepted : writer.writeAll before chunk = (.ok (), next)) :
      next.failure = none := by
    have spec := writeAll_wrote writer before chunk
    rw [accepted] at spec
    cases spec with
    | all _ failure => exact failure.trans kept
  rcases @writeChunks_run _ _ _ writer.writeAll (fun _ state => state.failure = none) @step [] state good chunks with
    ⟨final, ran, kept⟩ | ⟨before, chunk, after, earlier, error, final, _, kept, refused, ran⟩
  · exact ⟨final, .inl ⟨kept, ran⟩⟩
  · have spec := writeAll_wrote writer earlier chunk
    rw [refused] at spec
    cases spec with
    | some _ _ _ failure => exact ⟨final, .inr ⟨error, failure, ran⟩⟩

end RawWriter

/-- Whatever the writer accepts, it is left with a prefix of the lines joined by the line ending;
`write_lines` is `Ok` exactly when that is all of them and no write failed, and otherwise returns the
error of the failed write. -/
theorem Workspace.writeLines_prefix [Digests] {ops : List WorkspaceOp} {workspace : Workspace}
    (ran : Workspace.empty.run ops = .ok workspace) {buffer : LineBuffer} (member : buffer ∈ workspace.buffers)
    {σ : Type} (writer : RawWriter σ) (inner : σ) (lineEnding : String) :
    ∃ lines result final, buffer.iterLines workspace.heap = .ok lines ∧
      buffer.writeLines workspace.heap ⟨writer.writeAll⟩ ⟨inner, [], none⟩ lineEnding = .ok (result, final) ∧
      final.accepted <+: asBytes (lineEnding.intercalate lines) ∧
      (result = .ok () ↔ final.accepted = asBytes (lineEnding.intercalate lines) ∧ final.failure = none) ∧
      ∀ error, result = .error error ↔ final.failure = some error := by
  obtain ⟨_, texts, holds⟩ := (sound_empty.run ran).buffers buffer member
  have written := LineBuffer.writeLines_eq holds.present ⟨writer.writeAll⟩
    (⟨inner, [], none⟩ : RawWriter.State σ) lineEnding
  obtain ⟨part, begins, accepted, complete⟩ :=
    writer.faithful_writeAll.run (lineChunks lineEnding texts.present) ⟨inner, [], none⟩
  rw [flatten_lineChunks_eq] at begins complete
  rw [List.nil_append] at accepted
  obtain ⟨final, ⟨failure, wrote⟩ | ⟨error, failure, wrote⟩⟩ :=
    writer.writeChunks_failure ⟨inner, [], none⟩ rfl (lineChunks lineEnding texts.present)
  · rw [wrote] at written accepted complete
    obtain rfl := complete.mp rfl
    refine ⟨texts.present, .ok (), final, holds.iterLines, written, accepted ▸ begins, ?_, ?_⟩
    · exact iff_of_true rfl ⟨accepted, failure⟩
    · intro error
      rw [failure]
      exact iff_of_false (by simp) (by simp)
  · rw [wrote] at written accepted complete
    refine ⟨texts.present, .error error, final, holds.iterLines, written, accepted ▸ begins, ?_, ?_⟩
    · exact iff_of_false (by simp) (by simp [failure])
    · intro other
      rw [failure, Except.error.injEq, Option.some.injEq]

section Samples

attribute [local instance] sampleDigests

/-- Accepts one byte at a time, and fails when its count has run out. -/
def sampleWriter : RawWriter ℕ where
  write
    | 0, _ => (.error (.os "full"), 0)
    | left + 1, bytes => (.ok ⟨min 1 bytes.length, by omega⟩, left)

/-- Two lines written with CRLF; the third byte is refused. -/
theorem sample_prefix : ∃ workspace, ∃ buffer ∈ workspace.buffers,
    Workspace.empty.run [.build .new none, .call 0 (.insertLine 0 "a"), .call 0 (.insertLine 1 "b")] = .ok workspace ∧
    ∃ lines result final, buffer.iterLines workspace.heap = .ok lines ∧
      buffer.writeLines workspace.heap ⟨sampleWriter.writeAll⟩ ⟨2, [], none⟩ "\r\n" = .ok (result, final) ∧
      final.accepted <+: asBytes ("\r\n".intercalate lines) ∧
      (result = .ok () ↔ final.accepted = asBytes ("\r\n".intercalate lines) ∧ final.failure = none) ∧
      ∀ error, result = .error error ↔ final.failure = some error := by
  obtain ⟨workspace, ran, buffer, member⟩ : ∃ workspace, Workspace.empty.run
      [.build .new none, .call 0 (.insertLine 0 "a"), .call 0 (.insertLine 1 "b")] = .ok workspace ∧
      ∃ buffer, buffer ∈ workspace.buffers := ⟨_, rfl, _, List.mem_cons_self⟩
  exact ⟨workspace, buffer, member, ran, Workspace.writeLines_prefix ran member sampleWriter 2 "\r\n"⟩

end Samples

end Mallard
