import Mallard.Proofs.Workspaces
import Mallard.Proofs.Writing

/-! # All ways to read a line agree

Reading fills cells of a pool that any number of branches share, and a buffer reads through two handles
of its pool. In every reachable workspace all reads of a buffer or branch nevertheless come from one
list of strings: the digests are those of the strings' bytes, whichever cells were filled before. Two
lines with the same content therefore have the same digests, wherever they are.
-/

namespace Mallard

/-- A writer that keeps every chunk it is handed. -/
def recorder : Writer (List (List UInt8)) := ⟨fun chunks chunk => (.ok (), chunks ++ [chunk])⟩

section Reads

variable [Digests]

/-- Every read of the branch comes from the lines. -/
structure Branch.Reads (heap : Heap) (branch : Branch) (lines : List String) : Prop where
  lineCount : branch.lineCount = lines.length
  getLine : ∀ n, branch.getLine heap n = .ok lines[n]?
  lineCrc32 : ∀ n, branch.lineCrc32 heap n = .ok (lines[n]?.map fun line => Digests.crc32 (asBytes line))
  lineMd5 : ∀ n, Prod.fst <$> branch.lineMd5 heap n = .ok (lines[n]?.map fun line => Digests.md5 (asBytes line))
  lineSha256 : ∀ n, Prod.fst <$> branch.lineSha256 heap n = .ok (lines[n]?.map fun line => Digests.sha256 (asBytes line))
  beyond : ∀ n, lines[n]? = none ↔ branch.lineCount ≤ n

/-- Every read of the buffer comes from the lines. -/
structure LineBuffer.Reads (heap : Heap) (buffer : LineBuffer) (lines : List String) : Prop where
  lineCount : buffer.lineCount = lines.length
  getLine : ∀ n, buffer.getLine heap n = .ok lines[n]?
  iterLines : buffer.iterLines heap = .ok lines
  /-- Content chunks and separators alternate. -/
  writeLines : ∀ lineEnding, ∃ chunks, buffer.writeLines heap recorder [] lineEnding = .ok (.ok (), chunks) ∧
    ∀ n, chunks[2 * n]? = lines[n]?.map asBytes
  lineCrc32 : ∀ n, buffer.lineCrc32 heap n = .ok (lines[n]?.map fun line => Digests.crc32 (asBytes line))
  lineMd5 : ∀ n, Prod.fst <$> buffer.lineMd5 heap n = .ok (lines[n]?.map fun line => Digests.md5 (asBytes line))
  lineSha256 : ∀ n, Prod.fst <$> buffer.lineSha256 heap n = .ok (lines[n]?.map fun line => Digests.sha256 (asBytes line))
  beyond : ∀ n, lines[n]? = none ↔ buffer.lineCount ≤ n

variable {heap : Heap}

theorem Branch.Shows.reads {branch : Branch} {texts : Timeline (List String)} (valid : heap.Valid)
    (shown : branch.Shows (heap.lock branch.pool) texts) : branch.Reads heap texts.present := by
  have denote := shown.present
  refine ⟨shown.lineCount, getLine_eq denote, lineCrc32_eq (valid _) denote, ?_, ?_, ?_⟩
  · intro n
    obtain ⟨filled, read, _⟩ := lineMd5_eq (valid _) denote n
    rw [read, Outcome.ok_map]
  · intro n
    obtain ⟨filled, read, _⟩ := lineSha256_eq (valid _) denote n
    rw [read, Outcome.ok_map]
  · intro n
    rw [shown.lineCount, List.getElem?_eq_none_iff]

omit [Digests] in
theorem writeChunks_recorder (chunks handed : List (List UInt8)) :
    ChunkedOutput.writeChunks recorder.writeAll chunks handed = (.ok (), handed ++ chunks) := by
  induction chunks generalizing handed with
  | nil => rw [ChunkedOutput.writeChunks, List.append_nil]
  | cons chunk rest ih => rw [ChunkedOutput.writeChunks_cons_ok rfl, ih, List.append_assoc, List.singleton_append]

theorem LineBuffer.Holds.reads {buffer : LineBuffer} {texts : Timeline (List String)} (valid : heap.Valid)
    (holds : buffer.Holds heap texts) : buffer.Reads heap texts.present := by
  have root := (holds.owner ▸ holds.shown : buffer.root.Shows (heap.lock buffer.root.pool) texts).reads valid
  refine ⟨root.lineCount, root.getLine, holds.iterLines, ?_, root.lineCrc32, root.lineMd5, root.lineSha256,
    root.beyond⟩
  intro lineEnding
  refine ⟨lineChunks lineEnding texts.present, ?_, fun n => ?_⟩
  · rw [writeLines_eq holds.present, writeChunks_recorder, List.nil_append]
  · rw [lineChunks, List.getElem?_intersperse_two_mul, List.getElem?_map]

end Reads

/-- The branches of a workspace, the roots of its buffers included. -/
def Workspace.views (workspace : Workspace) : List Branch :=
  workspace.buffers.map LineBuffer.root ++ workspace.branches

section Coherence

variable [Digests] {workspace : Workspace}

theorem Workspace.Sound.reads (sound : workspace.Sound) :
    ∀ branch ∈ workspace.views, ∃ lines, branch.Reads workspace.heap lines := by
  intro branch member
  have held : branch.Held workspace.heap := by
    rcases List.mem_append.mp member with root | forked
    · obtain ⟨buffer, present, rfl⟩ := List.mem_map.mp root
      exact (sound.buffers buffer present).root
    · exact sound.branches branch forked
  obtain ⟨_, texts, shown⟩ := held
  exact ⟨texts.present, shown.reads sound.valid⟩

/-- The digests of a line are functions of its content. -/
theorem Branch.Reads.digests {heap : Heap} {branch : Branch} {lines : List String} (reads : branch.Reads heap lines)
    {n : ℕ} {content : String} (line : branch.getLine heap n = .ok (some content)) :
    branch.lineCrc32 heap n = .ok (some (Digests.crc32 (asBytes content))) ∧
      Prod.fst <$> branch.lineMd5 heap n = .ok (some (Digests.md5 (asBytes content))) ∧
      Prod.fst <$> branch.lineSha256 heap n = .ok (some (Digests.sha256 (asBytes content))) := by
  rw [reads.getLine] at line
  have present := Except.ok.inj line
  rw [reads.lineCrc32, reads.lineMd5, reads.lineSha256, present]
  exact ⟨rfl, rfl, rfl⟩

/-- All reads of a buffer or branch agree, and lines with the same content have the same digests
wherever they are. -/
structure Workspace.Coherent (workspace : Workspace) : Prop where
  buffers : ∀ buffer ∈ workspace.buffers, ∃ lines, buffer.Reads workspace.heap lines
  branches : ∀ branch ∈ workspace.branches, ∃ lines, branch.Reads workspace.heap lines
  digests : ∀ left ∈ workspace.views, ∀ right ∈ workspace.views, ∀ m n content,
    left.getLine workspace.heap m = .ok (some content) → right.getLine workspace.heap n = .ok (some content) →
      left.lineCrc32 workspace.heap m = right.lineCrc32 workspace.heap n ∧
      Prod.fst <$> left.lineMd5 workspace.heap m = Prod.fst <$> right.lineMd5 workspace.heap n ∧
      Prod.fst <$> left.lineSha256 workspace.heap m = Prod.fst <$> right.lineSha256 workspace.heap n

/-- Whatever was done before, edited or read, all reads are coherent. -/
theorem Workspace.run_coherent {ops : List WorkspaceOp} (ran : Workspace.empty.run ops = .ok workspace) :
    workspace.Coherent := by
  have sound := sound_empty.run ran
  refine ⟨?_, ?_, ?_⟩
  · intro buffer member
    obtain ⟨_, texts, holds⟩ := sound.buffers buffer member
    exact ⟨texts.present, holds.reads sound.valid⟩
  · intro branch member
    exact sound.reads branch (List.mem_append_right _ member)
  · intro left leftMember right rightMember m n content leftLine rightLine
    obtain ⟨_, leftReads⟩ := sound.reads left leftMember
    obtain ⟨_, rightReads⟩ := sound.reads right rightMember
    obtain ⟨crc32, md5, sha256⟩ := leftReads.digests leftLine
    obtain ⟨crc32', md5', sha256'⟩ := rightReads.digests rightLine
    exact ⟨crc32.trans crc32'.symm, md5.trans md5'.symm, sha256.trans sha256'.symm⟩

end Coherence

section Samples

attribute [local instance] sampleDigests

/-- Two buffers with the same line; a fork of the first has filled a cell. -/
theorem sample_reads : ∃ workspace, Workspace.empty.run
      [.build .new none, .call 0 (.insertLine 0 "a"), .branch 0, .viewBranch 0 (.lineMd5 0), .build .new none,
        .call 1 (.insertLine 0 "a")] = .ok workspace ∧ workspace.Coherent := by
  obtain ⟨workspace, ran⟩ : ∃ workspace, Workspace.empty.run
      [.build .new none, .call 0 (.insertLine 0 "a"), .branch 0, .viewBranch 0 (.lineMd5 0), .build .new none,
        .call 1 (.insertLine 0 "a")] = .ok workspace := ⟨_, rfl⟩
  exact ⟨workspace, ran, Workspace.run_coherent ran⟩

end Samples

end Mallard
