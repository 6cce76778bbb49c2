import Mallard.Model.Core.Workspace
import Mallard.Proofs.Workspaces

/-! # What later pools keep

A pool is touched in two ways: an entry is added behind the others, or an empty digest cell is filled.
`Workspace.step_touched` says which steps of a program do what to which pool. So every later pool keeps
each entry at its place with its content, its CRC32 and its filled cells, and each indexed string keeps
its id. This needs no invariant, and no bound on the number of ids.
-/

namespace Mallard

/-- The later entry has the same content and CRC32, and every cell that was filled. -/
structure GreenLine.Persists (old new : GreenLine) : Prop where
  content : new.content = old.content
  crc32 : new.hash.crc32 = old.hash.crc32
  md5 : ∀ digest, old.hash.md5 = some digest → new.hash.md5 = some digest
  sha256 : ∀ digest, old.hash.sha256 = some digest → new.hash.sha256 = some digest

/-- The later pool keeps every entry at its place and every string its id. -/
structure GreenPool.Persists (old new : GreenPool) : Prop where
  entries : ∀ (position : ℕ) line, old.lines[position]? = some line →
    ∃ later, new.lines[position]? = some later ∧ line.Persists later
  index : ∀ content id, old.index.lookup content = some id → new.index.lookup content = some id

/-- The later heap keeps the allocated pools. -/
structure Heap.Persists (old new : Heap) : Prop where
  next : old.next ≤ new.next
  pools : ∀ ref < old.next, (old.lock ref).Persists (new.lock ref)

namespace GreenLine

theorem Persists.refl (line : GreenLine) : line.Persists line := ⟨rfl, rfl, fun _ same => same, fun _ same => same⟩

theorem Persists.trans {first second third : GreenLine} (left : first.Persists second) (right : second.Persists third) :
    first.Persists third := by
  refine ⟨right.content.trans left.content, right.crc32.trans left.crc32, ?_, ?_⟩
  · exact fun digest filled => right.md5 digest (left.md5 digest filled)
  · exact fun digest filled => right.sha256 digest (left.sha256 digest filled)

variable [Digests]

/-- Asking for a digest fills an empty cell at most. -/
theorem persists_md5 (line : GreenLine) : line.Persists line.md5.2 := by
  obtain ⟨content, crc32, md5, sha256⟩ := line
  cases md5 with
  | none => exact ⟨rfl, rfl, fun _ filled => absurd filled.symm (Option.some_ne_none _), fun _ same => same⟩
  | some digest => exact .refl _

theorem persists_sha256 (line : GreenLine) : line.Persists line.sha256.2 := by
  obtain ⟨content, crc32, md5, sha256⟩ := line
  cases sha256 with
  | none => exact ⟨rfl, rfl, fun _ same => same, fun _ filled => absurd filled.symm (Option.some_ne_none _)⟩
  | some digest => exact .refl _

end GreenLine

namespace GreenPool

theorem Persists.refl (pool : GreenPool) : pool.Persists pool :=
  ⟨fun _ line present => ⟨line, present, .refl line⟩, fun _ _ same => same⟩

theorem Persists.trans {first second third : GreenPool} (left : first.Persists second) (right : second.Persists third) :
    first.Persists third := by
  refine ⟨fun position line present => ?_, fun content id known => right.index content id (left.index content id known)⟩
  obtain ⟨middle, there, kept⟩ := left.entries position line present
  obtain ⟨last, there', kept'⟩ := right.entries position middle there
  exact ⟨last, there', kept.trans kept'⟩

theorem getElem?_of_get {pool : GreenPool} {id : GreenLineId} {line : GreenLine} (read : pool.get id = .ok line) :
    pool.lines[id.raw.toNat]? = some line := by
  cases present : pool.lines[id.raw.toNat]? with
  | none =>
    rw [get, Vec.get, present] at read
    cases read
  | some found =>
    rw [get, Vec.get_of_getElem? present] at read
    cases read
    rfl

theorem Persists.get {old new : GreenPool} (kept : old.Persists new) {id : GreenLineId} {line : GreenLine}
    (read : old.get id = .ok line) : ∃ later, new.get id = .ok later ∧ line.Persists later := by
  obtain ⟨later, there, persists⟩ := kept.entries _ _ (getElem?_of_get read)
  exact ⟨later, Vec.get_of_getElem? there, persists⟩

/-- Writing back an entry that persists keeps the pool. -/
theorem persists_put {pool : GreenPool} {id : GreenLineId} {line filled : GreenLine} (read : pool.get id = .ok line)
    (kept : line.Persists filled) : pool.Persists (pool.put id filled) := by
  refine ⟨fun position other present => ?_, fun _ _ same => same⟩
  rw [put]
  dsimp only
  by_cases here : id.raw.toNat = position
  · have bound : position < pool.lines.length := (List.getElem?_eq_some_iff.mp present).1
    have same : other = line := Option.some.inj (present.symm.trans (here ▸ getElem?_of_get read))
    rw [here, List.getElem?_set_self bound, same]
    exact ⟨filled, rfl, kept⟩
  · rw [List.getElem?_set_ne here]
    exact ⟨other, present, .refl other⟩

variable [Digests]

/-- A string that has an id keeps it, and a new entry stands behind the others. -/
theorem persists_intern (pool : GreenPool) (content : String) : pool.Persists (pool.intern content).2 := by
  rw [intern]
  cases known : pool.index.lookup content with
  | some id => exact .refl pool
  | none =>
    refine ⟨fun position line present => ⟨line, ?_, .refl line⟩, fun other id listed => ?_⟩
    · exact List.getElem?_append_left (List.getElem?_eq_some_iff.mp present).1 ▸ present
    · have differs : (other == content) = false := by
        rw [beq_eq_false_iff_ne]
        rintro rfl
        rw [known] at listed
        cases listed
      rw [List.lookup_cons, differs]
      exact listed

end GreenPool

namespace Heap

variable {heap : Heap} {ref : PoolRef}

theorem Persists.refl (heap : Heap) : heap.Persists heap := ⟨le_rfl, fun _ _ => .refl _⟩

theorem Persists.trans {first second third : Heap} (left : first.Persists second) (right : second.Persists third) :
    first.Persists third :=
  ⟨left.next.trans right.next, fun ref old => (left.pools ref old).trans (right.pools ref (old.trans_le left.next))⟩

theorem persists_store {later : GreenPool} (kept : (heap.lock ref).Persists later) :
    heap.Persists (heap.store ref later) := by
  refine ⟨le_rfl, fun other _ => ?_⟩
  by_cases same : other = ref
  · rw [same, lock_store]
    exact kept
  · rw [lock_store_of_ne heap same]
    exact .refl _

theorem persists_new (heap : Heap) (filled : GreenPool) : heap.Persists (heap.alloc.2.store heap.next filled) := by
  refine ⟨Nat.le_succ heap.next, fun other allocated => ?_⟩
  rw [lock_store_of_ne _ allocated.ne, lock_alloc_of_ne heap allocated.ne]
  exact .refl _

theorem persists_intern [Digests] (heap : Heap) (ref : PoolRef) (content : String) :
    heap.Persists (heap.intern ref content).2 := persists_store (GreenPool.persists_intern _ content)

end Heap

/-- What a step may do to the pools, with the strings that it gave to them. -/
inductive Heap.Touched [Digests] (heap : Heap) : Heap → List (PoolRef × String) → Prop
  | same : Touched heap heap []
  | interned (ref : PoolRef) (content : String) : Touched heap (heap.intern ref content).2 [(ref, content)]
  | filled {ref : PoolRef} {id : GreenLineId} {line cells : GreenLine} (read : (heap.lock ref).get id = .ok line)
      (kept : line.Persists cells) : Touched heap (heap.store ref ((heap.lock ref).put id cells)) []
  | allocated : Touched heap heap.alloc.2 []
  | loaded (lines : List String) : Touched heap (heap.alloc.2.store heap.next (GreenPool.new.internAll lines).2)
      (lines.map fun line => (heap.next, line))

theorem Heap.Touched.persists [Digests] {heap later : Heap} {given : List (PoolRef × String)}
    (touched : heap.Touched later given) : heap.Persists later := by
  cases touched with
  | same => exact .refl heap
  | interned ref content => exact heap.persists_intern ref content
  | filled read kept => exact persists_store (GreenPool.persists_put read kept)
  | allocated =>
    have persists := heap.persists_new (heap.alloc.2.lock heap.next)
    rwa [Heap.store_lock] at persists
  | loaded lines => exact heap.persists_new _

/-- The string that a call hands to the pool of the branch. -/
def Branch.stored (branch : Branch) : BranchOp → List String
  | .insertLine n content validator =>
    if n ≤ branch.lines.length ∧ Accepts validator content then [content] else []
  | .replaceLine n content validator =>
    if n < branch.lines.length ∧ Accepts validator content then [content] else []
  | .deleteLine _ | .undo | .redo => []

section Calls

variable [Digests] {heap later : Heap}

/-- A call on a branch interns what passes its checks, and nothing else. -/
theorem Branch.call_touched {branch next : Branch} {op : BranchOp} {reply : Reply}
    (called : branch.call heap op = .ok (reply, later, next)) :
    heap.Touched later ((branch.stored op).map fun content => (branch.pool, content)) := by
  cases op with
  | insertLine n content validator =>
    rw [Branch.call, insertLine] at called
    cases checked : checkInsert branch.lines.length n content validator with
    | error error =>
      have failed : ¬ (n ≤ branch.lines.length ∧ Accepts validator content) := by
        rw [← checkInsert_eq_ok, checked]
        simp
      rw [checked] at called
      cases called
      rw [stored, if_neg failed]
      exact .same
    | ok =>
      rw [checked] at called
      obtain ⟨result, inserted, same⟩ := Outcome.bind_eq_ok.mp called
      obtain ⟨after, _, returned⟩ := Outcome.bind_eq_ok.mp inserted
      cases returned
      cases same
      rw [stored, if_pos (checkInsert_eq_ok.mp checked)]
      exact .interned branch.pool content
  | replaceLine n content validator =>
    rw [Branch.call, replaceLine] at called
    cases checked : checkReplace branch.lines.length n content validator with
    | error error =>
      have failed : ¬ (n < branch.lines.length ∧ Accepts validator content) := by
        rw [← checkReplace_eq_ok, checked]
        simp
      rw [checked] at called
      cases called
      rw [stored, if_neg failed]
      exact .same
    | ok =>
      rw [checked] at called
      obtain ⟨result, replaced, same⟩ := Outcome.bind_eq_ok.mp called
      obtain ⟨after, _, returned⟩ := Outcome.bind_eq_ok.mp replaced
      cases returned
      cases same
      rw [stored, if_pos (checkReplace_eq_ok.mp checked)]
      exact .interned branch.pool content
  | deleteLine | undo | redo =>
    obtain ⟨result, _, same⟩ := Outcome.bind_eq_ok.mp called
    cases same
    exact .same

/-- A call on a buffer is a call on its root. -/
theorem LineBuffer.call_onRoot (heap : Heap) (buffer : LineBuffer) (op : BufferOp) :
    buffer.call heap op = (buffer.root.call heap (op.onRoot buffer.validator)).map fun (reply, heap, root) =>
      (reply, heap, { buffer with root }) := by
  cases op with
  | insertLine n content =>
    simp only [call, insertLine, BufferOp.onRoot, Branch.call]
    cases buffer.root.insertLine heap n content buffer.validator <;> rfl
  | replaceLine n content =>
    simp only [call, replaceLine, BufferOp.onRoot, Branch.call]
    cases buffer.root.replaceLine heap n content buffer.validator <;> rfl
  | deleteLine n =>
    simp only [call, deleteLine, BufferOp.onRoot, Branch.call]
    cases buffer.root.deleteLine n <;> rfl
  | undo =>
    simp only [call, undo, BufferOp.onRoot, Branch.call]
    cases buffer.root.undo <;> rfl
  | redo =>
    simp only [call, redo, BufferOp.onRoot, Branch.call]
    cases buffer.root.redo <;> rfl

/-- What a read of an MD5 gives, and the cell it fills. -/
theorem Branch.lineMd5_eq_ok {branch : Branch} {n : ℕ} {result : Option (Vector UInt8 16) × Heap}
    (read : branch.lineMd5 heap n = .ok result) :
    (branch.lines[n]? = none ∧ result = (none, heap)) ∨
      ∃ id line, branch.lines[n]? = some id ∧ (heap.lock branch.pool).get id = .ok line ∧
        result = (some line.md5.1, heap.store branch.pool ((heap.lock branch.pool).put id line.md5.2)) := by
  rw [lineMd5] at read
  cases present : branch.lines[n]? with
  | none =>
    rw [present] at read
    exact .inl ⟨rfl, (Except.ok.inj read).symm⟩
  | some id =>
    rw [present] at read
    obtain ⟨line, got, returned⟩ := Outcome.bind_eq_ok.mp read
    exact .inr ⟨id, line, rfl, got, (Except.ok.inj returned).symm⟩

/-- What a read of a SHA-256 gives, and the cell it fills. -/
theorem Branch.lineSha256_eq_ok {branch : Branch} {n : ℕ} {result : Option (Vector UInt8 32) × Heap}
    (read : branch.lineSha256 heap n = .ok result) :
    (branch.lines[n]? = none ∧ result = (none, heap)) ∨
      ∃ id line, branch.lines[n]? = some id ∧ (heap.lock branch.pool).get id = .ok line ∧
        result = (some line.sha256.1, heap.store branch.pool ((heap.lock branch.pool).put id line.sha256.2)) := by
  rw [lineSha256] at read
  cases present : branch.lines[n]? with
  | none =>
    rw [present] at read
    exact .inl ⟨rfl, (Except.ok.inj read).symm⟩
  | some id =>
    rw [present] at read
    obtain ⟨line, got, returned⟩ := Outcome.bind_eq_ok.mp read
    exact .inr ⟨id, line, rfl, got, (Except.ok.inj returned).symm⟩

/-- A read through the view is an answer with the heap it leaves. -/
theorem Workspace.read_eq_ok {branch : Branch} {call : ViewCall} (read : Workspace.read heap branch call = .ok later) :
    ∃ answer, (Slot.created heap branch).view heap call = .ok (answer, later) := by
  rw [Workspace.read] at read
  cases viewed : (Slot.created heap branch).view heap call with
  | error panic =>
    rw [viewed] at read
    cases read
  | ok result =>
    rw [viewed] at read
    cases read
    exact ⟨result.1, rfl⟩

/-- A read fills a cell at most. -/
theorem Workspace.read_touched {branch : Branch} {call : ViewCall} (read : Workspace.read heap branch call = .ok later) :
    heap.Touched later [] := by
  obtain ⟨answer, viewed⟩ := read_eq_ok read
  cases call with
  | lineCount =>
    cases viewed
    exact .same
  | getLine n | lineCrc32 n =>
    obtain ⟨content, _, same⟩ := Outcome.bind_eq_ok.mp viewed
    cases same
    exact .same
  | lineMd5 n =>
    obtain ⟨result, digested, same⟩ := Outcome.bind_eq_ok.mp viewed
    cases same
    rcases Branch.lineMd5_eq_ok digested with ⟨_, rfl⟩ | ⟨id, line, _, got, rfl⟩
    · exact .same
    · exact .filled got line.persists_md5
  | lineSha256 n =>
    obtain ⟨result, digested, same⟩ := Outcome.bind_eq_ok.mp viewed
    cases same
    rcases Branch.lineSha256_eq_ok digested with ⟨_, rfl⟩ | ⟨id, line, _, got, rfl⟩
    · exact .same
    · exact .filled got line.persists_sha256

end Calls

/-- The lines that a construction is given, none when it cannot read them. -/
def Construction.texts : Construction → Option (List String)
  | .new => some []
  | .fromStr text => some (textLines text)
  | .fromReader (.error _) => none
  | .fromReader (.ok bytes) => (fromUtf8 bytes).map textLines
  | .fromSource source => some source.lines

/-- The lines that a construction loads, none when its validator rejects one of them. -/
def Construction.admitted (construction : Construction) (validator : Option EncodingValidator) : Option (List String) :=
  construction.texts.filter fun lines => ∀ line ∈ lines, Accepts validator line

section Constructions

variable [Digests] {heap : Heap} {validator : Option EncodingValidator}

theorem LineBuffer.toOption_bulkLoad (heap : Heap) (validator : Option EncodingValidator) (lines : List String) :
    (bulkLoad heap validator lines).toOption =
      ((some lines).filter fun lines => ∀ line ∈ lines, Accepts validator line).map (loaded heap validator) := by
  by_cases accepted : ∀ line ∈ lines, Accepts validator line
  · rw [bulkLoad_eq_ok accepted, Option.filter_some, if_pos (decide_eq_true accepted)]
    rfl
  · obtain ⟨error, failed⟩ := bulkLoad_eq_error accepted heap
    rw [failed, Option.filter_some, if_neg (mt of_decide_eq_true accepted)]
    rfl

/-- A construction that returns loads the lines it is given, if they are admitted. -/
theorem Construction.build_eq_ok {construction : Construction} {built : Option (Heap × LineBuffer)}
    (returned : construction.build heap validator = .ok built) :
    built = (construction.admitted validator).map (LineBuffer.loaded heap validator) := by
  cases construction with
  | new =>
    cases returned
    rw [LineBuffer.new_eq_loaded]
    rfl
  | fromStr text =>
    rw [build, LineBuffer.fromStr_eq] at returned
    cases returned
    exact LineBuffer.toOption_bulkLoad heap validator _
  | fromReader read =>
    cases read with
    | error error =>
      cases returned
      rfl
    | ok bytes =>
      cases decoded : fromUtf8 bytes with
      | none =>
        rw [build, LineBuffer.fromReader, decoded] at returned
        cases returned
        rw [admitted, texts, decoded]
        rfl
      | some text =>
        obtain rfl := asBytes_of_fromUtf8 decoded
        rw [build, LineBuffer.fromReader_asBytes, LineBuffer.fromStr_eq] at returned
        cases returned
        rw [admitted, texts, decoded]
        refine Eq.trans ?_ (LineBuffer.toOption_bulkLoad heap validator (textLines text))
        cases LineBuffer.bulkLoad heap validator (textLines text) <;> rfl
  | fromSource source =>
    by_cases fits : LineBuffer.HintFits source
    · rw [build, LineBuffer.fromSource_eq fits] at returned
      cases returned
      exact LineBuffer.toOption_bulkLoad heap validator _
    · rw [build, LineBuffer.fromSource_overflow fits] at returned
      cases returned

end Constructions

namespace Workspace

/-- The strings that a step hands to the pools. -/
def stored (workspace : Workspace) : WorkspaceOp → List (PoolRef × String)
  | .build construction validator =>
    ((construction.admitted validator).getD []).map fun line => (workspace.heap.next, line)
  | .call i op =>
    match workspace.buffers[i]? with
    | none => []
    | some buffer =>
      (buffer.root.stored (op.onRoot buffer.validator)).map fun content => (buffer.root.pool, content)
  | .edit j op =>
    match workspace.branches[j]? with
    | none => []
    | some branch => (branch.stored op).map fun content => (branch.pool, content)
  | .intern pool content => if pool < workspace.heap.next then [(pool, content)] else []
  | .viewBuffer _ _ | .branch _ | .newPool | .newBranch _ | .fork _ | .viewBranch _ _ => []

variable [Digests] {workspace next : Workspace}

omit [Digests] in
/-- Nothing is handed over by a step that asks for what does not exist. -/
theorem stored_missing {op : WorkspaceOp} (missing : workspace.Missing op) : workspace.stored op = [] := by
  cases op with
  | build | newPool => exact absurd missing id
  | call i op =>
    have absent : workspace.buffers[i]? = none := missing
    rw [stored, absent]
  | edit j op =>
    have absent : workspace.branches[j]? = none := missing
    rw [stored, absent]
  | intern pool content => exact if_neg missing
  | viewBuffer | branch | newBranch | fork | viewBranch => rfl

/-- Every step touches the pools in one of five ways. -/
theorem step_touched {op : WorkspaceOp} (stepped : workspace.step op = .ok next) :
    workspace.heap.Touched next.heap (workspace.stored op) := by
  cases step_cases stepped with
  | missing missing =>
    rw [stored_missing missing]
    exact .same
  | @refused construction validator refused =>
    have admitted : construction.admitted validator = none :=
      Option.map_eq_none_iff.mp (Construction.build_eq_ok refused).symm
    rw [stored, admitted]
    exact .same
  | built built =>
    obtain ⟨lines, admitted, loaded⟩ := Option.map_eq_some_iff.mp (Construction.build_eq_ok built).symm
    cases loaded
    rw [stored, admitted]
    exact .loaded lines
  | @called i op buffer _ _ _ found called =>
    rw [LineBuffer.call_onRoot] at called
    rw [stored, found]
    cases onRoot : buffer.root.call workspace.heap (op.onRoot buffer.validator) with
    | error panic =>
      rw [onRoot] at called
      cases called
    | ok result =>
      rw [onRoot] at called
      cases called
      exact Branch.call_touched onRoot
  | edited found called =>
    rw [stored, found]
    exact Branch.call_touched called
  | viewedBuffer found viewed => exact read_touched viewed
  | viewedBranch found viewed => exact read_touched viewed
  | branched | forked | begun => exact .same
  | allocated => exact .allocated
  | @interned pool content there =>
    rw [stored, if_pos there]
    exact .interned pool content

/-- No step loses anything of a pool. -/
theorem step_persists {op : WorkspaceOp} (stepped : workspace.step op = .ok next) :
    workspace.heap.Persists next.heap := (step_touched stepped).persists

end Workspace

end Mallard
