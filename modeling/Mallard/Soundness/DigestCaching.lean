import Mallard.Proofs.Persistence
import Mallard.Soundness.ReadCoherence

/-! # What sharing a pool amounts to

Over one pool a string is stored once, whoever uses it: its id stands for it in all lines and stacks of
all branches, for good. What is stored with it is stored for good too. A lazy digest is therefore computed
at most once for a string of a pool, by whichever branch asks first; all later reads find it in its cell.
-/

namespace Mallard

section Stability

variable [Digests] {workspace later : Workspace}

/-- Whatever a program does, the pools only get longer: every entry stays at its place with its content
and CRC32, every filled digest cell stays as it is, and every string keeps its id. -/
theorem Workspace.run_persists {ops : List WorkspaceOp} (ran : workspace.run ops = .ok later) :
    workspace.heap.Persists later.heap := by
  induction ops generalizing workspace with
  | nil =>
    cases ran
    exact .refl _
  | cons op ops ih =>
    obtain ⟨middle, stepped, rest⟩ := Outcome.bind_eq_ok.mp ran
    exact (step_persists stepped).trans (ih rest)

end Stability

section Samples

attribute [local instance] sampleDigests

/-- A buffer with a line, and a fork of its root. -/
def forkedOps : List WorkspaceOp := [.build .new none, .call 0 (.insertLine 0 "a"), .branch 0]

/-- Another string, and the same string again. -/
def moreOps : List WorkspaceOp := [.call 0 (.insertLine 1 "b"), .viewBuffer 0 (.lineMd5 1), .call 0 (.insertLine 2 "a")]

theorem sample_persists : ∃ workspace later, Workspace.empty.run forkedOps = .ok workspace ∧
    workspace.run moreOps = .ok later ∧ workspace.heap.Persists later.heap := by
  obtain ⟨workspace, ran⟩ : ∃ workspace, Workspace.empty.run forkedOps = .ok workspace := ⟨_, rfl⟩
  obtain ⟨later, continued⟩ : ∃ later, workspace.run moreOps = .ok later := by
    cases ran
    exact ⟨_, rfl⟩
  exact ⟨workspace, later, ran, continued, Workspace.run_persists continued⟩

end Samples

section Sharing

variable [Digests] {workspace : Workspace}

/-- Ids of a pool that denote the same string are the same. -/
theorem GreenPool.WellFormed.id_eq {pool : GreenPool} (valid : pool.WellFormed) {id other : GreenLineId}
    {content : String} (first : pool.text? id = some content) (second : pool.text? other = some content) :
    id = other := by
  have bound : id.raw.toNat < pool.contents.length := (List.getElem?_eq_some_iff.mp first).1
  have position : id.raw.toNat = other.raw.toNat :=
    (List.getElem?_inj bound valid.distinct).mp (first.trans second.symm)
  exact congrArg GreenLineId.mk (UInt32.toNat_inj.mp position)

theorem Workspace.Sound.held (sound : workspace.Sound) {branch : Branch} (member : branch ∈ workspace.views) :
    branch.Held workspace.heap := by
  rcases List.mem_append.mp member with root | forked
  · obtain ⟨buffer, present, rfl⟩ := List.mem_map.mp root
    exact (sound.buffers buffer present).root
  · exact sound.branches branch forked

/-- Every id that a branch holds, in its lines or in its history, can be read. Two of them over one pool
are the same exactly when they read the same, however many strings the pool lists. -/
theorem Workspace.run_shares {ops : List WorkspaceOp} (ran : Workspace.empty.run ops = .ok workspace) {left right : Branch}
    (leftMember : left ∈ workspace.views) (rightMember : right ∈ workspace.views) (shared : left.pool = right.pool) :
    ∀ id ∈ left.ids, ∀ other ∈ right.ids, ∃ line line',
      (workspace.heap.lock left.pool).get id = .ok line ∧ (workspace.heap.lock left.pool).get other = .ok line' ∧
        (id = other ↔ line.content = line'.content) := by
  have sound := sound_empty.run ran
  obtain ⟨_, texts, shown⟩ := sound.held leftMember
  obtain ⟨_, texts', shown'⟩ := sound.held rightMember
  rw [← shared] at shown'
  intro id member other member'
  obtain ⟨content, denotes⟩ := (GreenPool.holds_iff _ id).mp (shown.holds_ids id member)
  obtain ⟨content', denotes'⟩ := (GreenPool.holds_iff _ other).mp (shown'.holds_ids other member')
  obtain ⟨line, read, _, rfl⟩ := GreenPool.get_of_text? denotes
  obtain ⟨line', read', _, rfl⟩ := GreenPool.get_of_text? denotes'
  refine ⟨line, line', read, read', ?_, fun same => (sound.valid _).id_eq denotes (same ▸ denotes')⟩
  rintro rfl
  rw [read] at read'
  cases read'
  rfl

end Sharing

section Samples

attribute [local instance] sampleDigests

/-- The fork and the buffer hold the same id for the same string. -/
theorem sample_shares : ∃ workspace left right, Workspace.empty.run (forkedOps ++ moreOps) = .ok workspace ∧
    left ∈ workspace.views ∧ right ∈ workspace.views ∧ left.ids = [⟨0⟩] ∧ right.lines = [⟨0⟩, ⟨1⟩, ⟨0⟩] ∧
    ∀ id ∈ left.ids, ∀ other ∈ right.ids, ∃ line line',
      (workspace.heap.lock left.pool).get id = .ok line ∧ (workspace.heap.lock left.pool).get other = .ok line' ∧
        (id = other ↔ line.content = line'.content) := by
  obtain ⟨workspace, ran⟩ : ∃ workspace, Workspace.empty.run (forkedOps ++ moreOps) = .ok workspace := ⟨_, rfl⟩
  have shares := @Workspace.run_shares _ _ _ ran
  cases ran
  exact ⟨_, _, _, rfl, .tail _ (.head _), .head _, rfl, rfl, shares (.tail _ (.head _)) (.head _) rfl⟩

end Samples

/-- The digests that are computed on the first request. -/
inductive LazyDigest where
  | md5
  | sha256

/-- The read of a digest at a line. -/
def LazyDigest.call (n : ℕ) : LazyDigest → ViewCall
  | .md5 => .lineMd5 n
  | .sha256 => .lineSha256 n

/-- The answer for a line with the content. -/
def LazyDigest.answer [Digests] (content : String) : LazyDigest → Answer
  | .md5 => .md5 (some (Digests.md5 (asBytes content)))
  | .sha256 => .sha256 (some (Digests.sha256 (asBytes content)))

/-- The cell holds the digest of the content. -/
def LazyDigest.Filled [Digests] (line : GreenLine) : LazyDigest → Prop
  | .md5 => line.hash.md5 = some (Digests.md5 (asBytes line.content))
  | .sha256 => line.hash.sha256 = some (Digests.sha256 (asBytes line.content))

/-- A read is answered from memory: whatever the digest functions are, and without a change to the pools. -/
def Branch.Recalls (heap : Heap) (branch : Branch) (call : ViewCall) (answer : Answer) : Prop :=
  ∀ functions : Digests, @Slot.view functions heap (Slot.created heap branch) call = .ok (answer, heap)

section Cells

theorem GreenPool.put_self {pool : GreenPool} {id : GreenLineId} {line : GreenLine} (read : pool.get id = .ok line) :
    pool.put id line = pool := by
  obtain ⟨bound, value⟩ := List.getElem?_eq_some_iff.mp (getElem?_of_get read)
  rw [put, ← value, List.set_getElem_self]

theorem GreenPool.get_put {pool : GreenPool} {id : GreenLineId} {line : GreenLine} (read : pool.get id = .ok line)
    (filled : GreenLine) : (pool.put id filled).get id = .ok filled := by
  have bound := (List.getElem?_eq_some_iff.mp (getElem?_of_get read)).1
  exact Vec.get_of_getElem? (List.getElem?_set_self bound)

variable [Digests] {heap : Heap} {branch : Branch} {n : ℕ} {id : GreenLineId} {line : GreenLine} {digest : LazyDigest}

theorem LazyDigest.Filled.persists {later : GreenLine} (filled : digest.Filled line) (kept : line.Persists later) :
    digest.Filled later := by
  cases digest with
  | md5 =>
    rw [Filled, kept.content]
    exact kept.md5 _ filled
  | sha256 =>
    rw [Filled, kept.content]
    exact kept.sha256 _ filled

/-- A read leaves the cell of its line filled. -/
theorem LazyDigest.read_fills (valid : heap.Valid) (present : branch.lines[n]? = some id)
    (got : (heap.lock branch.pool).get id = .ok line) {later : Heap}
    (read : Workspace.read heap branch (digest.call n) = .ok later) :
    ∃ filled, (later.lock branch.pool).get id = .ok filled ∧ filled.content = line.content ∧ digest.Filled filled := by
  obtain ⟨answer, viewed⟩ := Workspace.read_eq_ok read
  have coherent := (valid branch.pool).coherent line (GreenPool.text?_of_get got).2
  cases digest with
  | md5 =>
    obtain ⟨result, digested, same⟩ := Outcome.bind_eq_ok.mp viewed
    cases same
    rcases Branch.lineMd5_eq_ok digested with ⟨beyond, _⟩ | ⟨id', line', present', got', rfl⟩
    · exact absurd (present.symm.trans beyond) (Option.some_ne_none id)
    · cases present.symm.trans present'
      cases got.symm.trans got'
      obtain ⟨value, content, _⟩ := GreenLine.md5_spec coherent
      refine ⟨line.md5.2, ?_, content, ?_⟩
      · change ((heap.store branch.pool _).lock branch.pool).get id = _
        rw [Heap.lock_store]
        exact GreenPool.get_put got _
      · rw [Filled, content, ← value]
        obtain ⟨content, crc32, md5, sha256⟩ := line
        cases md5 <;> rfl
  | sha256 =>
    obtain ⟨result, digested, same⟩ := Outcome.bind_eq_ok.mp viewed
    cases same
    rcases Branch.lineSha256_eq_ok digested with ⟨beyond, _⟩ | ⟨id', line', present', got', rfl⟩
    · exact absurd (present.symm.trans beyond) (Option.some_ne_none id)
    · cases present.symm.trans present'
      cases got.symm.trans got'
      obtain ⟨value, content, _⟩ := GreenLine.sha256_spec coherent
      refine ⟨line.sha256.2, ?_, content, ?_⟩
      · change ((heap.store branch.pool _).lock branch.pool).get id = _
        rw [Heap.lock_store]
        exact GreenPool.get_put got _
      · rw [Filled, content, ← value]
        obtain ⟨content, crc32, md5, sha256⟩ := line
        cases sha256 <;> rfl

/-- A read of a filled cell is answered from memory. -/
theorem LazyDigest.Filled.recalls (filled : digest.Filled line) (present : branch.lines[n]? = some id)
    (got : (heap.lock branch.pool).get id = .ok line) :
    branch.Recalls heap (digest.call n) (digest.answer line.content) := by
  cases digest with
  | md5 =>
    rw [answer]
    have cell : line.hash.md5 = some (Digests.md5 (asBytes line.content)) := filled
    generalize Digests.md5 (asBytes line.content) = value at cell
    intro functions
    have found : line.md5 = (value, line) := by rw [GreenLine.md5, LineHash.md5WithContent, cell]
    simp only [call, Slot.view, Slot.created, Branch.lineMd5, present, got, Outcome.ok_bind, found,
      GreenPool.put_self got, Heap.store_lock, Outcome.pure_eq]
  | sha256 =>
    rw [answer]
    have cell : line.hash.sha256 = some (Digests.sha256 (asBytes line.content)) := filled
    generalize Digests.sha256 (asBytes line.content) = value at cell
    intro functions
    have found : line.sha256 = (value, line) := by rw [GreenLine.sha256, LineHash.sha256WithContent, cell]
    simp only [call, Slot.view, Slot.created, Branch.lineSha256, present, got, Outcome.ok_bind, found,
      GreenPool.put_self got, Heap.store_lock, Outcome.pure_eq]

omit [Digests] in
/-- A line that can be read has an id, and an entry with its content. -/
theorem Branch.getLine_eq_some {content : String} (shown : branch.getLine heap n = .ok (some content)) :
    ∃ id line, branch.lines[n]? = some id ∧ (heap.lock branch.pool).get id = .ok line ∧ line.content = content := by
  rw [getLine] at shown
  cases present : branch.lines[n]? with
  | none =>
    rw [present] at shown
    cases shown
  | some id =>
    rw [present] at shown
    obtain ⟨line, got, returned⟩ := Outcome.bind_eq_ok.mp shown
    cases returned
    exact ⟨id, line, rfl, got, rfl⟩

end Cells

section Caching

variable [Digests]

/-- Once a digest of a line was read, through whatever branch, no later read of that digest for a line
with the same content over the same pool computes anything: it is answered from memory. -/
theorem Workspace.run_cached {ops more : List WorkspaceOp} {workspace later : Workspace}
    (ran : Workspace.empty.run ops = .ok workspace) {reader : Branch} (member : reader ∈ workspace.views) {n : ℕ}
    {content : String} (shown : reader.getLine workspace.heap n = .ok (some content)) {digest : LazyDigest} {heap : Heap}
    (read : Workspace.read workspace.heap reader (digest.call n) = .ok heap)
    (continued : Workspace.run { workspace with heap } more = .ok later) {other : Branch}
    (shared : other.pool = reader.pool) {m : ℕ}
    (same : other.getLine later.heap m = .ok (some content)) :
    other.Recalls later.heap (digest.call m) (digest.answer content) := by
  have sound := sound_empty.run ran
  obtain ⟨grows, valid⟩ : workspace.heap.Grows heap ∧ heap.Valid := by
    obtain ⟨reached, done, grows, valid⟩ := read_grows sound.valid (sound.held member) (digest.call n)
    cases read.symm.trans done
    exact ⟨grows, valid⟩
  have after := (sound.grow grows valid).run continued
  -- The cell was filled by the read, and stays filled.
  obtain ⟨id, line, present, got, rfl⟩ := Branch.getLine_eq_some shown
  obtain ⟨filled, got, content, fills⟩ := LazyDigest.read_fills sound.valid present got read
  have allocated := (sound.held member).1.trans_le grows.next
  obtain ⟨final, got, kept⟩ := ((run_persists continued).pools reader.pool allocated).get got
  have fills := fills.persists kept
  have content : final.content = line.content := kept.content.trans content
  -- The other line has the same id.
  obtain ⟨id', line', present', got', content'⟩ := Branch.getLine_eq_some same
  rw [shared] at got'
  have ids : id = id' := by
    refine (after.valid reader.pool).id_eq (GreenPool.text?_of_get got).1 ?_
    rw [content, ← content']
    exact (GreenPool.text?_of_get got').1
  rw [← content]
  exact fills.recalls (ids ▸ present') (shared ▸ got)

end Caching

section Samples

attribute [local instance] sampleDigests

/-- The fork asks for a digest; behind that the buffer's new line has it already. -/
theorem sample_cached : ∃ workspace heap later reader other, Workspace.empty.run forkedOps = .ok workspace ∧
    Workspace.read workspace.heap reader (.lineMd5 0) = .ok heap ∧
    Workspace.run { workspace with heap } moreOps = .ok later ∧ other ∈ later.views ∧ other.lineCount = 3 ∧
    other.Recalls later.heap (.lineMd5 2) (.md5 (some (.replicate 16 0))) := by
  obtain ⟨workspace, ran⟩ : ∃ workspace, Workspace.empty.run forkedOps = .ok workspace := ⟨_, rfl⟩
  let reader := workspace.branches.headD (.new 0)
  obtain ⟨heap, read⟩ : ∃ heap, Workspace.read workspace.heap reader (.lineMd5 0) = .ok heap := by
    cases ran
    exact ⟨_, rfl⟩
  obtain ⟨later, continued⟩ : ∃ later, Workspace.run { workspace with heap } moreOps = .ok later := by
    cases ran
    cases read
    exact ⟨_, rfl⟩
  let other := later.views.headD (.new 0)
  have member : reader ∈ workspace.views := by
    cases ran
    exact .tail _ (.head _)
  have shown : reader.getLine workspace.heap 0 = .ok (some "a") := by
    cases ran
    decide +kernel
  obtain ⟨shared, present, counted, same⟩ : other.pool = reader.pool ∧ other ∈ later.views ∧ other.lineCount = 3 ∧
      other.getLine later.heap 2 = .ok (some "a") := by
    cases ran
    cases read
    cases continued
    exact ⟨rfl, .head _, rfl, by decide +kernel⟩
  exact ⟨workspace, heap, later, reader, other, ran, read, continued, present, counted,
    @Workspace.run_cached _ _ _ _ _ ran _ member _ _ shown .md5 _ read continued _ shared _ same⟩

end Samples

end Mallard
