import Mallard.Model.Core.LineBuffer

/-! # Branches that share a pool

Any number of branches over one pool, used from any number of threads. One step is what happens under
one acquisition of the pool's lock, or to a branch alone. An insertion or replacement that passes its
checks takes two steps, interning its content and then updating the lines; reading all lines takes one
step for each line. Steps of other branches may fall in between. What the borrow checker excludes is
no step: a branch is not touched between the two halves of its edit, and no edit begins while a reader
of the branch is open. Every slot keeps a journal of the actions on its branch and their answers, and
the strings that were visible when the branch was created; no step depends on these.
-/

namespace Mallard

/-- The half of an edit behind its `intern` call, with the id that the call returned. -/
inductive Update where
  | insert (n : ℕ) (id : GreenLineId)
  | replace (n : ℕ) (newId : GreenLineId)
deriving DecidableEq, Repr

def Branch.update (branch : Branch) : Update → Outcome Branch
  | .insert n id => branch.insertId n id
  | .replace n newId => branch.replaceId n newId

/-- A method of the trait `LineBufferView`. -/
inductive ViewCall where
  | lineCount
  | getLine (n : ℕ)
  | lineCrc32 (n : ℕ)
  | lineMd5 (n : ℕ)
  | lineSha256 (n : ℕ)
deriving DecidableEq, Repr

/-- What can be done with one branch in one step. -/
inductive Action where
  /-- Make a call; one that interns stops there. -/
  | call (op : BranchOp)
  /-- The second half of a call that stopped. -/
  | resume
  | view (call : ViewCall)
  /-- Begin to read all lines, as `iter_lines` and `write_lines` do. -/
  | openReader
  /-- Read the next line. -/
  | next (reader : ℕ)
  | closeReader (reader : ℕ)

inductive Answer where
  | reply (reply : Reply)
  /-- The call interned its content and has yet to update the lines. -/
  | interned
  | count (count : ℕ)
  | line (content : Option String)
  | crc32 (digest : Option UInt32)
  | md5 (digest : Option (Vector UInt8 16))
  | sha256 (digest : Option (Vector UInt8 32))
  | opened
  | closed
deriving DecidableEq

/-- A branch with its edit under way and the positions of its open readers. -/
structure Slot where
  branch : Branch
  update : Option Update
  readers : List ℕ
  /-- The strings visible when the branch was created. -/
  opened : Outcome (List String)
  journal : List (Action × Answer)

namespace Slot

def created (heap : Heap) (branch : Branch) : Slot := ⟨branch, none, [], branch.visible heap, []⟩

section Actions

variable [Digests]

/-- A call up to its end, or up to the point where it has interned its content. -/
def call (heap : Heap) (slot : Slot) : BranchOp → Outcome (Answer × Heap × Slot)
  | .insertLine n content validator =>
    match Branch.checkInsert slot.branch.lines.length n content validator with
    | .error error => pure (.reply (.result (.error error)), heap, slot)
    | .ok () =>
      let (id, heap) := heap.intern slot.branch.pool content
      pure (.interned, heap, { slot with update := some (.insert n id) })
  | .replaceLine n content validator =>
    match Branch.checkReplace slot.branch.lines.length n content validator with
    | .error error => pure (.reply (.result (.error error)), heap, slot)
    | .ok () =>
      let (newId, heap) := heap.intern slot.branch.pool content
      pure (.interned, heap, { slot with update := some (.replace n newId) })
  | op => do
    let (reply, heap, branch) ← slot.branch.call heap op
    pure (.reply reply, heap, { slot with branch })

def view (heap : Heap) (slot : Slot) : ViewCall → Outcome (Answer × Heap)
  | .lineCount => pure (.count slot.branch.lineCount, heap)
  | .getLine n => do
    let content ← slot.branch.getLine heap n
    pure (.line content, heap)
  | .lineCrc32 n => do
    let digest ← slot.branch.lineCrc32 heap n
    pure (.crc32 digest, heap)
  | .lineMd5 n => do
    let (digest, heap) ← slot.branch.lineMd5 heap n
    pure (.md5 digest, heap)
  | .lineSha256 n => do
    let (digest, heap) ← slot.branch.lineSha256 heap n
    pure (.sha256 digest, heap)

/-- An action on the branch, or `none` where the borrow checker excludes it. -/
def perform (heap : Heap) (slot : Slot) : Action → Outcome (Option (Answer × Heap × Slot))
  | .call op => if slot.update = none ∧ slot.readers = [] then some <$> slot.call heap op else pure none
  | .resume =>
    match slot.update with
    | none => pure none
    | some update => do
      let branch ← slot.branch.update update
      pure (some (.reply (.result (.ok ())), heap, { slot with branch, update := none }))
  | .view call =>
    if slot.update = none then do
      let (answer, heap) ← slot.view heap call
      pure (some (answer, heap, slot))
    else pure none
  | .openReader =>
    if slot.update = none then pure (some (.opened, heap, { slot with readers := slot.readers ++ [0] }))
    else pure none
  | .next reader =>
    match slot.readers[reader]? with
    | none => pure none
    | some position => do
      let content ← slot.branch.getLine heap position
      pure (some (.line content, heap, { slot with readers := slot.readers.set reader (position + 1) }))
  | .closeReader reader =>
    if reader < slot.readers.length then
      pure (some (.closed, heap, { slot with readers := slot.readers.eraseIdx reader }))
    else pure none

end Actions

end Slot

/-- The branches over one pool. -/
structure System where
  heap : Heap
  pool : PoolRef
  slots : List Slot

inductive Event where
  /-- `Branch::new` over the pool. -/
  | new
  /-- `Branch::fork` of a branch; for the root of a buffer this is `LineBuffer::branch`. -/
  | fork (i : ℕ)
  /-- An action on a branch. -/
  | on (i : ℕ) (action : Action)
  /-- `GreenPool::intern` by anyone who holds the pool. -/
  | intern (content : String)

namespace System

/-- The root of a buffer with its pool. -/
def ofBuffer (heap : Heap) (buffer : LineBuffer) : System :=
  ⟨heap, buffer.pool, [Slot.created heap buffer.root]⟩

variable [Digests]

def step (system : System) : Event → Outcome System
  | .new => pure { system with slots := system.slots ++ [Slot.created system.heap (Branch.new system.pool)] }
  | .fork i =>
    match system.slots[i]? with
    | none => pure system
    | some slot =>
      if slot.update = none then
        pure { system with slots := system.slots ++ [Slot.created system.heap slot.branch.fork] }
      else pure system
  | .on i action =>
    match system.slots[i]? with
    | none => pure system
    | some slot => do
      match ← slot.perform system.heap action with
      | none => pure system
      | some (answer, heap, next) =>
        let journal := slot.journal ++ [(action, answer)]
        pure { system with heap, slots := system.slots.set i { next with journal } }
  | .intern content => pure { system with heap := (system.heap.intern system.pool content).2 }

def run (system : System) : List Event → Outcome System
  | [] => pure system
  | event :: events => do
    let system ← system.step event
    system.run events

end System

/-- A call that is not disturbed between its halves is the call on the branch. -/
theorem Slot.call_resume [Digests] (heap : Heap) (slot : Slot) (idle : slot.update = none) (op : BranchOp) :
    (do
      match ← slot.call heap op with
      | (.interned, heap, stopped) => stopped.perform heap .resume
      | finished => pure (some finished)) =
      (slot.branch.call heap op).map fun (reply, heap, branch) =>
        some (.reply reply, heap, { slot with branch }) := by
  obtain ⟨branch, update, readers, opened, journal⟩ := slot
  obtain rfl : update = none := idle
  cases op with
  | insertLine n content validator =>
    simp only [call, Branch.call, Branch.insertLine]
    cases Branch.checkInsert branch.lines.length n content validator with
    | error error => rfl
    | ok =>
      simp only [perform, Branch.update, Outcome.pure_eq, Outcome.ok_bind]
      cases branch.insertId n (heap.intern branch.pool content).1 <;> rfl
  | replaceLine n content validator =>
    simp only [call, Branch.call, Branch.replaceLine]
    cases Branch.checkReplace branch.lines.length n content validator with
    | error error => rfl
    | ok =>
      simp only [perform, Branch.update, Outcome.pure_eq, Outcome.ok_bind]
      cases branch.replaceId n (heap.intern branch.pool content).1 <;> rfl
  | deleteLine n =>
    simp only [call]
    cases branch.call heap (.deleteLine n) <;> rfl
  | undo =>
    simp only [call]
    cases branch.call heap .undo <;> rfl
  | redo =>
    simp only [call]
    cases branch.call heap .redo <;> rfl

/-- Where the first slot holds the root of a buffer, forking it is `LineBuffer::branch`. -/
theorem System.step_fork_root [Digests] {system : System} {buffer : LineBuffer} {slot : Slot}
    (first : system.slots[0]? = some slot) (root : slot.branch = buffer.root) (idle : slot.update = none) :
    system.step (.fork 0) =
      .ok { system with slots := system.slots ++ [Slot.created system.heap buffer.branch] } := by
  rw [step, first]
  dsimp only
  rw [if_pos idle, root]
  rfl

theorem System.step_fork_ofBuffer [Digests] (heap : Heap) (buffer : LineBuffer) :
    (System.ofBuffer heap buffer).step (.fork 0) =
      .ok ⟨heap, buffer.pool, [Slot.created heap buffer.root, Slot.created heap buffer.branch]⟩ :=
  step_fork_root rfl rfl rfl

end Mallard
