import Mallard.Proofs.Saving
import Mallard.Proofs.Workspaces

/-! # What a save promises

Creating the file truncates it, so a save that fails later has lost the previous bytes: what is left is
what the file took of the lines written until then. A save that reports success has flushed nothing by
itself. The last bytes reach the file when the writer is dropped, and whether they were refused there
is not asked.
-/

namespace Mallard

/-- The complete serialisation: on the plain path the lines joined by the terminator, on the forced
path every line encoded with its terminator. -/
def serialisation (lineEnding : String) (lines : List String) : Option Encoding → List UInt8
  | none => asBytes (lineEnding.intercalate lines)
  | some encoding => lines.flatMap fun line => (encoding.encodeAll (line ++ lineEnding)).2

theorem flatten_savedChunks {lineEnding : String} {lines : List String} {encoding : Option Encoding}
    (encodable : Encodable lineEnding lines encoding) :
    (savedChunks lineEnding lines encoding).flatten = serialisation lineEnding lines encoding := by
  cases encoding with
  | none => exact flatten_lineChunks_eq lineEnding lines
  | some encoding =>
    have all : encodableLines encoding lineEnding lines = lines :=
      List.takeWhile_eq_self_iff.mpr fun line member => decide_eq_true (encodable encoding rfl line member)
    rw [savedChunks, all, encodedChunks, ← List.flatMap_def]
    rfl

/-- Success is reported exactly when every line can be encoded and no write is refused. -/
theorem savedVerdict_eq_ok {disk : Disk} {path lineEnding : String} {lines : List String} {encoding : Option Encoding} :
    savedVerdict disk path lineEnding lines encoding = .ok () ↔
      Fits (disk.room path) (passedOn (savedChunks lineEnding lines encoding)) ∧ Encodable lineEnding lines encoding := by
  rw [savedVerdict]
  split
  · next fits =>
    rw [and_iff_right fits]
    cases encoding with
    | none => exact iff_of_true rfl (fun _ member => by contradiction)
    | some encoding =>
      have forced : Encodable lineEnding lines (some encoding) ↔
          ∀ line ∈ lines, encoding.Encodes (line ++ lineEnding) := by
        simp only [Encodable, Option.mem_some_iff, forall_eq']
      rw [forced, Option.elim_some, encodingVerdict]
      split
      · next all => exact iff_of_true rfl all
      · next rejected => exact iff_of_false (by simp) rejected
  · next refused => exact iff_of_false (by simp) (fun both => refused both.1)

/-- What a save that reports an error leaves behind, with the report. -/
inductive FailedSave (disk : Disk) (path lineEnding : String) (lines : List String) :
    Option Encoding → Report → Disk → Prop
  /-- The file could not be opened: nothing changed. -/
  | unopened {encoding : Option Encoding} {error : IoError} (refused : disk.createError path = some error) :
    FailedSave disk path lineEnding lines encoding (.saveFailed path error) disk
  /-- A write was refused: the file was truncated and holds what it took. -/
  | refused {encoding : Option Encoding} (opened : disk.createError path = none)
    (full : ¬ Fits (disk.room path) (passedOn (savedChunks lineEnding lines encoding))) :
    FailedSave disk path lineEnding lines encoding (.saveFailed path disk.writeError)
      (disk.put path (limitTo (disk.room path) (savedChunks lineEnding lines encoding).flatten))
  /-- A line could not be encoded: the file was truncated and holds what it took of the lines before. -/
  | unencodable {encoding : Encoding} (opened : disk.createError path = none)
    (rejected : ¬ Encodable lineEnding lines (some encoding)) :
    FailedSave disk path lineEnding lines (some encoding)
      (.saveUnencodable ((encodableLines encoding lineEnding lines).length + 1) encoding.name)
      (disk.put path (limitTo (disk.room path) (savedChunks lineEnding lines (some encoding)).flatten))

theorem failedSave_of_verdict {disk : Disk} {path lineEnding : String} {lines : List String}
    {encoding : Option Encoding} (opened : disk.createError path = none) {report : Report}
    (failed : savedVerdict disk path lineEnding lines encoding = .error report) :
    FailedSave disk path lineEnding lines encoding report
      (disk.put path (limitTo (disk.room path) (savedChunks lineEnding lines encoding).flatten)) := by
  by_cases fits : Fits (disk.room path) (passedOn (savedChunks lineEnding lines encoding))
  · have rejected : ¬ Encodable lineEnding lines encoding := by
      intro encodable
      rw [savedVerdict_eq_ok.mpr ⟨fits, encodable⟩] at failed
      contradiction
    rw [savedVerdict, if_pos fits] at failed
    cases encoding with
    | none => contradiction
    | some encoding =>
      rw [Option.elim_some, encodingVerdict, Nat.zero_add] at failed
      split at failed
      · contradiction
      · cases failed
        exact .unencodable opened rejected
  · rw [savedVerdict, if_neg fits] at failed
    cases failed
    exact .refused opened fits

section Outcomes

variable [Digests] {ops : List WorkspaceOp} {workspace : Workspace}

/-- A save that reports an error could not open its file, and changed nothing; or it truncated the
file, which now holds what it took of the lines that were written. No other file changes. -/
theorem save_failed (ran : Workspace.empty.run ops = .ok workspace) {buffer : LineBuffer}
    (member : buffer ∈ workspace.buffers) (disk : Disk) (path lineEnding : String) (encoding : Option Encoding) :
    ∃ lines result disk', buffer.iterLines workspace.heap = .ok lines ∧
      save disk workspace.heap buffer path lineEnding encoding = .ok (result, disk') ∧
      ∀ report, result = .error report → FailedSave disk path lineEnding lines encoding report disk' := by
  obtain ⟨_, texts, holds⟩ := (Workspace.sound_empty.run ran).buffers buffer member
  cases opened : disk.createError path with
  | none =>
    refine ⟨texts.present, _, _, holds.iterLines, save_eq holds opened lineEnding encoding, ?_⟩
    exact fun report failed => failedSave_of_verdict opened failed
  | some error =>
    refine ⟨texts.present, _, _, holds.iterLines, save_refused opened lineEnding encoding, ?_⟩
    rintro report ⟨⟩
    exact .unopened opened

/-- The file refuses bytes, and only such as are still held back after the last write. -/
def RefusedAtDrop (room : Option ℕ) (chunks : List (List UInt8)) : Prop :=
  Fits room (passedOn chunks) ∧ ¬ Fits room chunks.flatten.length

/-- A success message is true unless the file was opened, every line could be encoded, and the first
refused byte was still held back when the writer was dropped. -/
theorem save_truthful_iff (ran : Workspace.empty.run ops = .ok workspace) {buffer : LineBuffer}
    (member : buffer ∈ workspace.buffers) (disk : Disk) (path lineEnding : String) (encoding : Option Encoding) :
    ∃ lines result disk', buffer.iterLines workspace.heap = .ok lines ∧
      save disk workspace.heap buffer path lineEnding encoding = .ok (result, disk') ∧
      ((result = .ok () → disk'.contents path = some (serialisation lineEnding lines encoding)) ↔
        ¬ (disk.createError path = none ∧ Encodable lineEnding lines encoding ∧
          RefusedAtDrop (disk.room path) (savedChunks lineEnding lines encoding))) := by
  obtain ⟨_, texts, holds⟩ := (Workspace.sound_empty.run ran).buffers buffer member
  cases opened : disk.createError path with
  | some error =>
    refine ⟨texts.present, _, _, holds.iterLines, save_refused opened lineEnding encoding, ?_⟩
    exact iff_of_true (fun success => by contradiction) (fun all => by simp at all)
  | none =>
    refine ⟨texts.present, _, _, holds.iterLines, save_eq holds opened lineEnding encoding, ?_⟩
    rw [savedVerdict_eq_ok, Disk.contents_put, Option.some.injEq, and_iff_right rfl]
    constructor
    · rintro truthful ⟨encodable, passes, refused⟩
      have whole := truthful ⟨passes, encodable⟩
      rw [← flatten_savedChunks encodable] at whole
      exact refused (limitTo_eq_iff.mp whole)
    · rintro honest ⟨passes, encodable⟩
      rw [← flatten_savedChunks encodable, limitTo_eq_iff]
      exact by_contra fun refused => honest ⟨encodable, passes, refused⟩

end Outcomes

section Samples

attribute [local instance] sampleDigests

/-- A workspace whose one buffer has one line. -/
theorem sample_line (line : String) : ∃ workspace buffer,
    Workspace.empty.run [.build .new none, .call 0 (.insertLine 0 line)] = .ok workspace ∧
      buffer ∈ workspace.buffers ∧ buffer.iterLines workspace.heap = .ok [line] :=
  ⟨_, _, rfl, List.mem_cons_self, rfl⟩

/-- The second of two lines cannot be encoded, and the first is what the file holds. -/
theorem sample_failed_save : ∃ workspace buffer lines disk',
    Workspace.empty.run [.build .new none, .call 0 (.insertLine 0 "a"), .call 0 (.insertLine 1 "\x0E")] =
        .ok workspace ∧
      buffer ∈ workspace.buffers ∧ buffer.iterLines workspace.heap = .ok lines ∧
      save (sampleDisk "old") workspace.heap buffer "f" "\n" (some iso2022JpEncoding) =
        .ok (.error (.saveUnencodable 2 "ISO-2022-JP"), disk') ∧
      FailedSave (sampleDisk "old") "f" "\n" lines (some iso2022JpEncoding) (.saveUnencodable 2 "ISO-2022-JP") disk' := by
  obtain ⟨workspace, buffer, _, ran, member, aborted⟩ : ∃ workspace buffer disk',
      Workspace.empty.run [.build .new none, .call 0 (.insertLine 0 "a"), .call 0 (.insertLine 1 "\x0E")] =
          .ok workspace ∧
        buffer ∈ workspace.buffers ∧ save (sampleDisk "old") workspace.heap buffer "f" "\n" (some iso2022JpEncoding) =
          .ok (.error (.saveUnencodable 2 "ISO-2022-JP"), disk') := ⟨_, _, _, rfl, List.mem_cons_self, rfl⟩
  obtain ⟨lines, result, disk', shown, saved, failed⟩ :=
    save_failed ran member (sampleDisk "old") "f" "\n" (some iso2022JpEncoding)
  rw [aborted] at saved
  cases saved
  exact ⟨workspace, buffer, lines, _, ran, member, shown, aborted, failed _ rfl⟩

/-- A line that ISO-2022-JP cannot encode: the save reports it, and the old bytes are gone. -/
theorem failed_save_truncates : ∃ workspace buffer disk',
    Workspace.empty.run [.build .new none, .call 0 (.insertLine 0 "\x0E")] = .ok workspace ∧
      buffer ∈ workspace.buffers ∧ buffer.iterLines workspace.heap = .ok ["\x0E"] ∧
      (sampleDisk "old").contents "f" = some (asBytes "old") ∧
      save (sampleDisk "old") workspace.heap buffer "f" "\n" (some iso2022JpEncoding) =
        .ok (.error (.saveUnencodable 1 "ISO-2022-JP"), disk') ∧
      disk'.contents "f" = some [] :=
  ⟨_, _, _, rfl, List.mem_cons_self, rfl, rfl, rfl, rfl⟩

/-- A save to a disk with room enough. -/
theorem sample_truthful_save : ∃ workspace buffer lines result disk',
    Workspace.empty.run [.build .new none, .call 0 (.insertLine 0 "a")] = .ok workspace ∧
      buffer ∈ workspace.buffers ∧ buffer.iterLines workspace.heap = .ok lines ∧
      save (sampleDisk "old") workspace.heap buffer "f" "\n" (some utf8Encoding) = .ok (result, disk') ∧
      ((result = .ok () → disk'.contents "f" = some (serialisation "\n" lines (some utf8Encoding))) ↔
        ¬ ((sampleDisk "old").createError "f" = none ∧ Encodable "\n" lines (some utf8Encoding) ∧
          RefusedAtDrop ((sampleDisk "old").room "f") (savedChunks "\n" lines (some utf8Encoding)))) := by
  obtain ⟨workspace, buffer, ran, member, _⟩ := sample_line "a"
  obtain ⟨lines, result, disk', shown, saved, truthful⟩ :=
    save_truthful_iff ran member (sampleDisk "old") "f" "\n" (some utf8Encoding)
  exact ⟨workspace, buffer, lines, result, disk', ran, member, shown, saved, truthful⟩

/-- A disk without room: one line is saved with success, and the file is empty. -/
theorem full_disk_unnoticed : ∃ workspace buffer disk',
    Workspace.empty.run [.build .new none, .call 0 (.insertLine 0 "a")] = .ok workspace ∧
      buffer ∈ workspace.buffers ∧ buffer.iterLines workspace.heap = .ok ["a"] ∧
      save { sampleDisk "" with limit := fun _ => some 0 } workspace.heap buffer "f" "\n" none = .ok (.ok (), disk') ∧
      disk'.contents "f" = some [] ∧ serialisation "\n" ["a"] none = asBytes "a" :=
  ⟨_, _, _, rfl, List.mem_cons_self, rfl, rfl, rfl, rfl⟩

end Samples

end Mallard
