import Mallard.Proofs.Persistence

/-! # Reads leave no trace

A read through a view may fill a digest cell of a pool that everybody shares. Apart from these cells it
changes nothing, and no edit ever looks at one. So a program that does the same without its reads ends
with the same buffers, branches and pools, their cells being empty.
-/

namespace Mallard

/-- The entry with empty cells. -/
def GreenLine.blank (line : GreenLine) : GreenLine := ⟨line.content, line.hash.crc32, none, none⟩

def GreenPool.blank (pool : GreenPool) : GreenPool := { pool with lines := pool.lines.map GreenLine.blank }

def Heap.blank (heap : Heap) : Heap := { heap with pools := fun ref => (heap.pools ref).blank }

def Workspace.blank (workspace : Workspace) : Workspace := { workspace with heap := workspace.heap.blank }

/-- The step is no read. -/
def WorkspaceOp.edits : WorkspaceOp → Bool
  | .viewBuffer _ _ | .viewBranch _ _ => false
  | _ => true

namespace Heap

theorem lock_blank (heap : Heap) (ref : PoolRef) : heap.blank.lock ref = (heap.lock ref).blank := rfl

theorem blank_store (heap : Heap) (ref : PoolRef) (pool : GreenPool) :
    (heap.store ref pool).blank = heap.blank.store ref pool.blank := by
  have pools : (fun other => (Function.update heap.pools ref pool other).blank) =
      Function.update (fun other => (heap.pools other).blank) ref pool.blank :=
    Function.comp_update GreenPool.blank heap.pools ref pool
  simp only [blank, store, pools]

theorem blank_alloc (heap : Heap) : heap.alloc.2.blank = heap.blank.alloc.2 := by
  have pools : (fun other => (Function.update heap.pools heap.next .new other).blank) =
      Function.update (fun other => (heap.pools other).blank) heap.next .new :=
    Function.comp_update GreenPool.blank heap.pools heap.next .new
  simp only [blank, alloc, pools]

end Heap

section Edits

variable [Digests]

/-- Interning looks at the index and at the length of the pool only. -/
theorem GreenPool.intern_blank (pool : GreenPool) (content : String) :
    pool.blank.intern content = ((pool.intern content).1, (pool.intern content).2.blank) := by
  rw [intern, intern, blank]
  dsimp only
  cases pool.index.lookup content with
  | some id => rfl
  | none => simp only [blank, List.length_map, List.map_append, List.map_singleton, GreenLine.blank, GreenLine.new, LineHash.new]

theorem Heap.intern_blank (heap : Heap) (ref : PoolRef) (content : String) :
    heap.blank.intern ref content = ((heap.intern ref content).1, (heap.intern ref content).2.blank) := by
  simp only [intern, lock_blank, GreenPool.intern_blank, blank_store]

theorem Branch.call_blank (heap : Heap) (branch : Branch) (op : BranchOp) :
    branch.call heap.blank op = (branch.call heap op).map fun result => (result.1, result.2.1.blank, result.2.2) := by
  cases op with
  | insertLine n content validator =>
    rw [call, call, insertLine, insertLine]
    cases checkInsert branch.lines.length n content validator with
    | error error => rfl
    | ok =>
      simp only [Heap.intern_blank]
      cases branch.insertId n (heap.intern branch.pool content).1 <;> rfl
  | replaceLine n content validator =>
    rw [call, call, replaceLine, replaceLine]
    cases checkReplace branch.lines.length n content validator with
    | error error => rfl
    | ok =>
      simp only [Heap.intern_blank]
      cases branch.replaceId n (heap.intern branch.pool content).1 <;> rfl
  | deleteLine n =>
    rw [call, call]
    cases branch.deleteLine n <;> rfl
  | undo =>
    rw [call, call]
    cases branch.undo <;> rfl
  | redo =>
    rw [call, call]
    cases branch.redo <;> rfl

theorem LineBuffer.call_blank (heap : Heap) (buffer : LineBuffer) (op : BufferOp) :
    buffer.call heap.blank op = (buffer.call heap op).map fun result => (result.1, result.2.1.blank, result.2.2) := by
  rw [call_onRoot, call_onRoot, Branch.call_blank]
  cases buffer.root.call heap (op.onRoot buffer.validator) <;> rfl

theorem LineBuffer.pushLines_blank (validator : Option EncodingValidator) (heap : Heap) (root : Branch)
    (lines : List String) :
    pushLines validator heap.blank root lines =
      (pushLines validator heap root lines).map fun result => (result.1.blank, result.2) := by
  induction lines generalizing heap root with
  | nil => rfl
  | cons line lines ih =>
    rw [pushLines, pushLines]
    cases checkLine validator line with
    | error error => rfl
    | ok =>
      simp only [pushLine, Heap.intern_blank]
      exact ih _ _

theorem LineBuffer.bulkLoad_blank (heap : Heap) (validator : Option EncodingValidator) (lines : List String) :
    bulkLoad heap.blank validator lines =
      (bulkLoad heap validator lines).map fun result => (result.1.blank, result.2) := by
  have same : heap.blank.alloc.1 = heap.alloc.1 := rfl
  rw [bulkLoad, bulkLoad, ← Heap.blank_alloc, same, pushLines_blank]
  cases pushLines validator heap.alloc.2 (Branch.new heap.alloc.1) lines <;> rfl

theorem Construction.build_blank (construction : Construction) (heap : Heap) (validator : Option EncodingValidator) :
    construction.build heap.blank validator =
      (construction.build heap validator).map (Option.map fun result => (result.1.blank, result.2)) := by
  have loads (lines : List String) : Except.toOption (LineBuffer.bulkLoad heap.blank validator lines) =
      (LineBuffer.bulkLoad heap validator lines).toOption.map fun result => (result.1.blank, result.2) := by
    rw [LineBuffer.bulkLoad_blank]
    cases LineBuffer.bulkLoad heap validator lines <;> rfl
  cases construction with
  | new => exact congrArg (fun heap => Except.ok (some (heap, _))) heap.blank_alloc.symm
  | fromStr text =>
    rw [build, build, LineBuffer.fromStr_eq, LineBuffer.fromStr_eq]
    exact congrArg Except.ok (loads _)
  | fromReader read =>
    cases read with
    | error error => rfl
    | ok bytes =>
      rw [build, build, LineBuffer.fromReader, LineBuffer.fromReader]
      cases fromUtf8 bytes with
      | none => rfl
      | some text =>
        simp only [LineBuffer.fromStr_eq, Outcome.ok_bind, LineBuffer.bulkLoad_blank]
        cases LineBuffer.bulkLoad heap validator (textLines text) <;> rfl
  | fromSource source =>
    rw [build, build]
    by_cases fits : LineBuffer.HintFits source
    · rw [LineBuffer.fromSource_eq fits, LineBuffer.fromSource_eq fits]
      exact congrArg Except.ok (loads _)
    · rw [LineBuffer.fromSource_overflow fits, LineBuffer.fromSource_overflow fits]
      rfl

end Edits

section Reads

variable [Digests]

omit [Digests] in
theorem GreenLine.blank_eq {line later : GreenLine} (kept : line.Persists later) : later.blank = line.blank := by
  rw [blank, blank, kept.content, kept.crc32]

omit [Digests] in
/-- Writing back an entry that differs in its cells changes cells only. -/
theorem Heap.blank_put {heap : Heap} {ref : PoolRef} {id : GreenLineId} {line filled : GreenLine}
    (got : (heap.lock ref).get id = .ok line) (kept : line.Persists filled) :
    (heap.store ref ((heap.lock ref).put id filled)).blank = heap.blank := by
  have same : ((heap.lock ref).put id filled).blank = heap.blank.lock ref := by
    obtain ⟨bound, value⟩ := List.getElem?_eq_some_iff.mp (GreenPool.getElem?_of_get got)
    rw [lock_blank, GreenPool.put, GreenPool.blank, GreenPool.blank, List.map_set, GreenLine.blank_eq kept,
      ← List.map_set, ← value, List.set_getElem_self]
  rw [blank_store, same, store_lock]

/-- A read changes cells only. -/
theorem Workspace.read_blank {heap later : Heap} {branch : Branch} {call : ViewCall}
    (read : Workspace.read heap branch call = .ok later) : later.blank = heap.blank := by
  obtain ⟨answer, viewed⟩ := read_eq_ok read
  cases call with
  | lineCount =>
    cases viewed
    rfl
  | getLine n | lineCrc32 n =>
    obtain ⟨content, _, same⟩ := Outcome.bind_eq_ok.mp viewed
    cases same
    rfl
  | lineMd5 n =>
    obtain ⟨result, digested, same⟩ := Outcome.bind_eq_ok.mp viewed
    cases same
    rcases Branch.lineMd5_eq_ok digested with ⟨_, rfl⟩ | ⟨id, line, _, got, rfl⟩
    · rfl
    · exact Heap.blank_put got line.persists_md5
  | lineSha256 n =>
    obtain ⟨result, digested, same⟩ := Outcome.bind_eq_ok.mp viewed
    cases same
    rcases Branch.lineSha256_eq_ok digested with ⟨_, rfl⟩ | ⟨id, line, _, got, rfl⟩
    · rfl
    · exact Heap.blank_put got line.persists_sha256

end Reads

namespace Workspace

variable [Digests] {workspace next : Workspace}

omit [Digests] in
/-- The cells do not decide what there is. -/
theorem missing_blank {op : WorkspaceOp} (missing : workspace.Missing op) : workspace.blank.Missing op := by
  cases op <;> exact missing

/-- A step that is no read does not look at a cell. -/
theorem step_blank {op : WorkspaceOp} (edits : op.edits) (stepped : workspace.step op = .ok next) :
    workspace.blank.step op = .ok next.blank := by
  have buffers : workspace.blank.buffers = workspace.buffers := rfl
  have branches : workspace.blank.branches = workspace.branches := rfl
  have heap : workspace.blank.heap = workspace.heap.blank := rfl
  have allocated : workspace.heap.blank.next = workspace.heap.next := rfl
  cases step_cases stepped with
  | missing missing => exact step_missing (missing_blank missing)
  | viewedBuffer | viewedBranch => cases edits
  | refused refused =>
    rw [step, heap, Construction.build_blank, refused]
    rfl
  | built built =>
    rw [step, heap, Construction.build_blank, built]
    rfl
  | called found called =>
    simp only [step, buffers, found, heap, LineBuffer.call_blank, called]
    rfl
  | edited found called =>
    simp only [step, branches, found, heap, Branch.call_blank, called]
    rfl
  | branched found =>
    rw [step, buffers, found]
    rfl
  | forked found =>
    rw [step, branches, found]
    rfl
  | allocated =>
    rw [step, heap, ← Heap.blank_alloc]
    rfl
  | begun there =>
    rw [step, heap, allocated, if_pos there]
    rfl
  | interned there =>
    rw [step, heap, allocated, if_pos there, Heap.intern_blank]
    rfl

/-- A read changes cells only, of buffers and branches alike. -/
theorem blank_of_read {op : WorkspaceOp} (reads : op.edits = false) (stepped : workspace.step op = .ok next) :
    next.blank = workspace.blank := by
  cases step_cases stepped with
  | missing => rfl
  | refused | built | called | branched | allocated | begun | forked | edited | interned => cases reads
  | viewedBuffer found viewed | viewedBranch found viewed =>
    rw [blank, read_blank viewed]
    rfl

/-- What is left of a run without its reads goes to the same place, up to the cells. -/
theorem run_blank {ops : List WorkspaceOp} {final : Workspace} (ran : workspace.run ops = .ok final) :
    workspace.blank.run (ops.filter WorkspaceOp.edits) = .ok final.blank := by
  induction ops generalizing workspace with
  | nil =>
    cases ran
    rfl
  | cons op ops ih =>
    obtain ⟨middle, stepped, rest⟩ := Outcome.bind_eq_ok.mp ran
    cases edits : op.edits with
    | true =>
      rw [List.filter_cons_of_pos edits, run, step_blank edits stepped, Outcome.ok_bind]
      exact ih rest
    | false =>
      have notEdits : ¬ op.edits = true := by rw [edits]; exact Bool.false_ne_true
      rw [List.filter_cons_of_neg notEdits, ← blank_of_read edits stepped]
      exact ih rest

end Workspace

/-- A program that leaves out its reads ends with the same buffers and branches over the same pools, but
for the digest cells, which are then empty. -/
theorem Workspace.run_without_reads [Digests] {ops : List WorkspaceOp} {final : Workspace}
    (ran : Workspace.empty.run ops = .ok final) :
    Workspace.empty.run (ops.filter WorkspaceOp.edits) = .ok final.blank := run_blank ran

section Samples

attribute [local instance] sampleDigests

/-- Reads before and after an edit and through a fork. -/
theorem sample_silent : ∃ final, Workspace.empty.run [.build .new none, .call 0 (.insertLine 0 "a"), .branch 0,
      .viewBranch 0 (.lineMd5 0), .edit 0 (.insertLine 1 "b" none), .viewBuffer 0 (.lineSha256 0)] = .ok final ∧
    Workspace.empty.run [.build .new none, .call 0 (.insertLine 0 "a"), .branch 0,
      .edit 0 (.insertLine 1 "b" none)] = .ok final.blank := by
  obtain ⟨final, ran⟩ : ∃ final, Workspace.empty.run [.build .new none, .call 0 (.insertLine 0 "a"), .branch 0,
      .viewBranch 0 (.lineMd5 0), .edit 0 (.insertLine 1 "b" none), .viewBuffer 0 (.lineSha256 0)] = .ok final := ⟨_, rfl⟩
  exact ⟨final, ran, Workspace.run_without_reads ran⟩

end Samples

end Mallard
