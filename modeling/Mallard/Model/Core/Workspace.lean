import Mallard.Model.Core.LineBuffer
import Mallard.Model.Core.Sharing

/-! # Everything a program can hold

Any number of buffers and branches over any number of pools. A buffer has a pool of its own, which the
branches forked from it share; other branches lie over pools that the program allocated and may have
filled itself. Reading a digest is a step like any other, because it may fill a cell of the pool.
-/

namespace Mallard

/-- The ways to obtain a buffer. -/
inductive Construction where
  | new
  | fromStr (text : String)
  | fromReader (read : Except IoError (List UInt8))
  | fromSource (source : LineSource)

/-- The constructed buffer, or none when the construction failed with an error. -/
def Construction.build [Digests] (heap : Heap) (validator : Option EncodingValidator) :
    Construction → Outcome (Option (Heap × LineBuffer))
  | .new => pure (some (LineBuffer.new heap validator))
  | .fromStr text => Except.toOption <$> LineBuffer.fromStr heap text validator
  | .fromReader read => Except.toOption <$> LineBuffer.fromReader heap read validator
  | .fromSource source => Except.toOption <$> LineBuffer.fromSource heap source validator

structure Workspace where
  heap : Heap
  buffers : List LineBuffer
  branches : List Branch

inductive WorkspaceOp where
  | build (construction : Construction) (validator : Option EncodingValidator)
  /-- A call on a buffer. -/
  | call (i : ℕ) (op : BufferOp)
  /-- A read through the view of a buffer. -/
  | viewBuffer (i : ℕ) (call : ViewCall)
  /-- `LineBuffer::branch`. -/
  | branch (i : ℕ)
  /-- `Arc::new(Mutex::new(GreenPool::new()))`. -/
  | newPool
  /-- `Branch::new` over an allocated pool. -/
  | newBranch (pool : PoolRef)
  /-- `Branch::fork`. -/
  | fork (j : ℕ)
  /-- A call on a branch. -/
  | edit (j : ℕ) (op : BranchOp)
  /-- A read through the view of a branch. -/
  | viewBranch (j : ℕ) (call : ViewCall)
  /-- `GreenPool::intern` by anyone who holds the pool. -/
  | intern (pool : PoolRef) (content : String)

namespace Workspace

def empty : Workspace := ⟨.empty, [], []⟩

variable [Digests]

/-- The heap after a read through the view of a branch. -/
def read (heap : Heap) (branch : Branch) (call : ViewCall) : Outcome Heap :=
  Prod.snd <$> (Slot.created heap branch).view heap call

def step (workspace : Workspace) : WorkspaceOp → Outcome Workspace
  | .build construction validator => do
    match ← construction.build workspace.heap validator with
    | none => pure workspace
    | some (heap, buffer) => pure { workspace with heap, buffers := workspace.buffers ++ [buffer] }
  | .call i op =>
    match workspace.buffers[i]? with
    | none => pure workspace
    | some buffer => do
      let (_, heap, buffer) ← buffer.call workspace.heap op
      pure { workspace with heap, buffers := workspace.buffers.set i buffer }
  | .viewBuffer i call =>
    match workspace.buffers[i]? with
    | none => pure workspace
    | some buffer => do
      let heap ← read workspace.heap buffer.root call
      pure { workspace with heap }
  | .branch i =>
    match workspace.buffers[i]? with
    | none => pure workspace
    | some buffer => pure { workspace with branches := workspace.branches ++ [buffer.branch] }
  | .newPool => pure { workspace with heap := workspace.heap.alloc.2 }
  | .newBranch pool =>
    if pool < workspace.heap.next then pure { workspace with branches := workspace.branches ++ [Branch.new pool] }
    else pure workspace
  | .fork j =>
    match workspace.branches[j]? with
    | none => pure workspace
    | some branch => pure { workspace with branches := workspace.branches ++ [branch.fork] }
  | .edit j op =>
    match workspace.branches[j]? with
    | none => pure workspace
    | some branch => do
      let (_, heap, branch) ← branch.call workspace.heap op
      pure { workspace with heap, branches := workspace.branches.set j branch }
  | .viewBranch j call =>
    match workspace.branches[j]? with
    | none => pure workspace
    | some branch => do
      let heap ← read workspace.heap branch call
      pure { workspace with heap }
  | .intern pool content =>
    if pool < workspace.heap.next then pure { workspace with heap := (workspace.heap.intern pool content).2 }
    else pure workspace

def run (workspace : Workspace) : List WorkspaceOp → Outcome Workspace
  | [] => pure workspace
  | op :: ops => do
    let workspace ← workspace.step op
    workspace.run ops

end Workspace

end Mallard
