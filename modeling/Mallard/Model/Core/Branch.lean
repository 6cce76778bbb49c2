import Mallard.Model.Core.Green

/-! # Branches: editable line sequences over a shared pool

A branch holds the ids of its lines and two stacks of edits; the top of a stack is the head of its
list. The edits are position deltas, so undo and redo index into `lines` unchecked by anything but
Rust's own bounds checks, which is why every operation returns an `Outcome`. An edit interns its
content under the pool's lock and updates `lines` after the lock is released; `insertId` and
`replaceId` are the second halves.
-/

namespace Mallard

/-- One reversible edit. -/
inductive BranchEdit where
  /-- A line was inserted. -/
  | insert (index : ℕ) (id : GreenLineId)
  /-- A line was deleted; its id is kept for undo. -/
  | delete (index : ℕ) (id : GreenLineId)
  /-- A line was replaced. -/
  | replace (index : ℕ) (oldId newId : GreenLineId)
deriving DecidableEq, Repr

structure Branch where
  pool : PoolRef
  lines : List GreenLineId
  undoStack : List BranchEdit
  redoStack : List BranchEdit
deriving DecidableEq, Repr

namespace Branch

def new (pool : PoolRef) : Branch := ⟨pool, [], [], []⟩

def lineCount (branch : Branch) : ℕ := branch.lines.length

def getLine (heap : Heap) (branch : Branch) (n : ℕ) : Outcome (Option String) :=
  match branch.lines[n]? with
  | none => pure none
  | some id => do
    let line ← (heap.lock branch.pool).get id
    pure (some line.content)

/-- The checks in front of an insertion into `count` lines. -/
def checkInsert (count n : ℕ) (content : String) (validator : Option EncodingValidator) :
    Except EncodingError Unit :=
  if n > count then
    .error ⟨content, s!"insert_line: index {n} out of range (line_count = {count})"⟩
  else checkLine validator content

/-- The checks in front of a replacement in `count` lines. -/
def checkReplace (count n : ℕ) (content : String) (validator : Option EncodingValidator) :
    Except EncodingError Unit :=
  if n ≥ count then
    .error ⟨content, s!"replace_line: index {n} out of range (line_count = {count})"⟩
  else checkLine validator content

/-- What `insert_line` does with the id that `intern` returned. -/
def insertId (branch : Branch) (n : ℕ) (id : GreenLineId) : Outcome Branch := do
  let lines ← Vec.insert branch.lines n id
  pure { branch with lines, undoStack := .insert n id :: branch.undoStack, redoStack := [] }

/-- What `replace_line` does with the id that `intern` returned. -/
def replaceId (branch : Branch) (n : ℕ) (newId : GreenLineId) : Outcome Branch := do
  let oldId ← Vec.get branch.lines n
  let lines ← Vec.set branch.lines n newId
  pure { branch with lines, undoStack := .replace n oldId newId :: branch.undoStack, redoStack := [] }

section Edits

variable [Digests]

def insertLine (heap : Heap) (branch : Branch) (n : ℕ) (content : String)
    (validator : Option EncodingValidator) : Outcome (Except EncodingError Unit × Heap × Branch) :=
  match checkInsert branch.lines.length n content validator with
  | .error error => pure (.error error, heap, branch)
  | .ok () => do
    let (id, heap) := heap.intern branch.pool content
    let branch ← branch.insertId n id
    pure (.ok (), heap, branch)

def replaceLine (heap : Heap) (branch : Branch) (n : ℕ) (content : String)
    (validator : Option EncodingValidator) : Outcome (Except EncodingError Unit × Heap × Branch) :=
  match checkReplace branch.lines.length n content validator with
  | .error error => pure (.error error, heap, branch)
  | .ok () => do
    let (newId, heap) := heap.intern branch.pool content
    let branch ← branch.replaceId n newId
    pure (.ok (), heap, branch)

end Edits

def deleteLine (branch : Branch) (n : ℕ) : Outcome (Bool × Branch) :=
  if n ≥ branch.lines.length then pure (false, branch)
  else do
    let (id, lines) ← Vec.remove branch.lines n
    pure (true, { branch with lines, undoStack := .delete n id :: branch.undoStack, redoStack := [] })

def undo (branch : Branch) : Outcome (Bool × Branch) :=
  match branch.undoStack with
  | [] => pure (false, branch)
  | .insert index id :: undoStack => do
    let (_, lines) ← Vec.remove branch.lines index
    pure (true, { branch with lines, undoStack, redoStack := .insert index id :: branch.redoStack })
  | .delete index id :: undoStack => do
    let lines ← Vec.insert branch.lines index id
    pure (true, { branch with lines, undoStack, redoStack := .delete index id :: branch.redoStack })
  | .replace index oldId newId :: undoStack => do
    let lines ← Vec.set branch.lines index oldId
    pure (true, { branch with lines, undoStack, redoStack := .replace index oldId newId :: branch.redoStack })

def redo (branch : Branch) : Outcome (Bool × Branch) :=
  match branch.redoStack with
  | [] => pure (false, branch)
  | .insert index id :: redoStack => do
    let lines ← Vec.insert branch.lines index id
    pure (true, { branch with lines, redoStack, undoStack := .insert index id :: branch.undoStack })
  | .delete index id :: redoStack => do
    let (_, lines) ← Vec.remove branch.lines index
    pure (true, { branch with lines, redoStack, undoStack := .delete index id :: branch.undoStack })
  | .replace index oldId newId :: redoStack => do
    let lines ← Vec.set branch.lines index newId
    pure (true, { branch with lines, redoStack, undoStack := .replace index oldId newId :: branch.undoStack })

def fork (branch : Branch) : Branch := ⟨branch.pool, branch.lines, [], []⟩

def lineCrc32 (heap : Heap) (branch : Branch) (n : ℕ) : Outcome (Option UInt32) :=
  match branch.lines[n]? with
  | none => pure none
  | some id => do
    let line ← (heap.lock branch.pool).get id
    pure (some line.hash.crc32)

def lineMd5 [Digests] (heap : Heap) (branch : Branch) (n : ℕ) : Outcome (Option (Vector UInt8 16) × Heap) :=
  match branch.lines[n]? with
  | none => pure (none, heap)
  | some id => do
    let line ← (heap.lock branch.pool).get id
    let (digest, line) := line.md5
    pure (some digest, heap.store branch.pool ((heap.lock branch.pool).put id line))

def lineSha256 [Digests] (heap : Heap) (branch : Branch) (n : ℕ) : Outcome (Option (Vector UInt8 32) × Heap) :=
  match branch.lines[n]? with
  | none => pure (none, heap)
  | some id => do
    let line ← (heap.lock branch.pool).get id
    let (digest, line) := line.sha256
    pure (some digest, heap.store branch.pool ((heap.lock branch.pool).put id line))

/-- The strings a branch shows: the content of every line in order. -/
def visible (heap : Heap) (branch : Branch) : Outcome (List String) :=
  branch.lines.mapM fun id => do
    let line ← (heap.lock branch.pool).get id
    pure line.content

end Branch

/-- What an editing or history call returned. -/
inductive Reply where
  | result (verdict : Except EncodingError Unit)
  | flag (moved : Bool)
deriving DecidableEq

/-- `Ok` and `true` succeed, `Err` and `false` fail. -/
def Reply.succeeded : Reply → Bool
  | .result (.ok _) => true
  | .result (.error _) => false
  | .flag moved => moved

/-- A call that edits a branch or moves in its history. -/
inductive BranchOp where
  | insertLine (n : ℕ) (content : String) (validator : Option EncodingValidator)
  | replaceLine (n : ℕ) (content : String) (validator : Option EncodingValidator)
  | deleteLine (n : ℕ)
  | undo
  | redo

namespace Branch

variable [Digests]

def call (heap : Heap) (branch : Branch) : BranchOp → Outcome (Reply × Heap × Branch)
  | .insertLine n content validator => do
    let (verdict, heap, branch) ← branch.insertLine heap n content validator
    pure (.result verdict, heap, branch)
  | .replaceLine n content validator => do
    let (verdict, heap, branch) ← branch.replaceLine heap n content validator
    pure (.result verdict, heap, branch)
  | .deleteLine n => do
    let (moved, branch) ← branch.deleteLine n
    pure (.flag moved, heap, branch)
  | .undo => do
    let (moved, branch) ← branch.undo
    pure (.flag moved, heap, branch)
  | .redo => do
    let (moved, branch) ← branch.redo
    pure (.flag moved, heap, branch)

/-- A sequence of calls, with their replies. -/
def run (heap : Heap) (branch : Branch) : List BranchOp → Outcome (List Reply × Heap × Branch)
  | [] => pure ([], heap, branch)
  | op :: ops => do
    let (reply, heap, branch) ← branch.call heap op
    let (replies, heap, branch) ← branch.run heap ops
    pure (reply :: replies, heap, branch)

end Branch

end Mallard
