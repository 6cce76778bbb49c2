import Mallard.Model.Core.Branch

/-! # Line buffers: loading, editing and writing

A buffer owns a pool, a root branch over that pool and an optional validator that every load and
every edit consults. The three bulk loaders intern and push line by line and leave the history empty.
`Scan.step` is one iteration of the loop that splits a text into lines: it walks the bytes with two
cursors and slices the text between them.
-/

namespace Mallard

/-- The variables of the loop in `split_on_line_endings`. -/
structure Scan where
  start : ℕ
  i : ℕ
  lines : List String
deriving DecidableEq, Repr

namespace Scan

/-- The lookahead `i + 1 < bytes.len() && bytes[i + 1] == b'\n'`. -/
def lfFollows (bytes : List UInt8) (i : ℕ) : Outcome Bool :=
  if i + 1 < bytes.length then do
    let next ← Vec.get bytes (i + 1)
    pure (next == 0x0A)
  else pure false

/-- One iteration of the loop, or `none` when the condition `i < bytes.len()` fails. -/
def step (text : String) (scan : Scan) : Outcome (Option Scan) :=
  if scan.i < (asBytes text).length then do
    let byte ← Vec.get (asBytes text) scan.i
    if byte = 0x0D then do
      let line ← strSlice text scan.start scan.i
      let pair ← lfFollows (asBytes text) scan.i
      let i := if pair then scan.i + 2 else scan.i + 1
      pure (some ⟨i, i, scan.lines ++ [line]⟩)
    else if byte = 0x0A then do
      let line ← strSlice text scan.start scan.i
      pure (some ⟨scan.i + 1, scan.i + 1, scan.lines ++ [line]⟩)
    else pure (some { scan with i := scan.i + 1 })
  else pure none

theorem step_advances {text : String} {scan next : Scan} (stepped : scan.step text = .ok (some next)) :
    scan.i < (asBytes text).length ∧ scan.i < next.i := by
  rw [step] at stepped
  split at stepped
  · next inside =>
    refine ⟨inside, ?_⟩
    obtain ⟨byte, _, stepped⟩ := Outcome.bind_eq_ok.mp stepped
    split_ifs at stepped
    · obtain ⟨line, _, stepped⟩ := Outcome.bind_eq_ok.mp stepped
      obtain ⟨pair, _, stepped⟩ := Outcome.bind_eq_ok.mp stepped
      cases stepped
      cases pair
      · exact Nat.lt_add_of_pos_right (by decide)
      · exact Nat.lt_add_of_pos_right (by decide)
    · obtain ⟨line, _, stepped⟩ := Outcome.bind_eq_ok.mp stepped
      cases stepped
      exact Nat.lt_succ_self _
    · cases stepped
      exact Nat.lt_succ_self _
  · cases stepped

/-- Iterate until the loop condition fails. -/
def loop (text : String) (scan : Scan) : Outcome Scan :=
  match _ : scan.step text with
  | .error panic => .error panic
  | .ok none => .ok scan
  | .ok (some next) => next.loop text
termination_by (asBytes text).length - scan.i
decreasing_by
  have := step_advances ‹_›
  omega

end Scan

/-- Split on LF, CRLF or bare CR; an empty text after the last terminator is no line. -/
def splitOnLineEndings (text : String) : Outcome (List String) := do
  let scan ← Scan.loop text ⟨0, 0, []⟩
  let tail ← strSlice text scan.start (asBytes text).length
  pure (if tail.isEmpty then scan.lines else scan.lines ++ [tail])

/-- A source that hands its lines to a callback in order, with a hint about their number. -/
structure LineSource where
  lineCountHint : Option ℕ
  lines : List String

structure LineBuffer where
  pool : PoolRef
  root : Branch
  validator : Option EncodingValidator

namespace LineBuffer

def new (heap : Heap) (validator : Option EncodingValidator) : Heap × LineBuffer :=
  let (pool, heap) := heap.alloc
  (heap, ⟨pool, Branch.new pool, validator⟩)

def lineCount (buffer : LineBuffer) : ℕ := buffer.root.lineCount

def getLine (heap : Heap) (buffer : LineBuffer) (n : ℕ) : Outcome (Option String) :=
  buffer.root.getLine heap n

section Loading

variable [Digests]

/-- Intern a line under the pool's lock and push its id. -/
def pushLine (heap : Heap) (root : Branch) (line : String) : Heap × Branch :=
  let (id, heap) := heap.intern root.pool line
  (heap, { root with lines := root.lines ++ [id] })

/-- The loading loop of `from_str`: stop at the first rejected line. -/
def pushLines (validator : Option EncodingValidator) (heap : Heap) (root : Branch) :
    List String → Except EncodingError (Heap × Branch)
  | [] => .ok (heap, root)
  | line :: rest =>
    match checkLine validator line with
    | .error error => .error error
    | .ok () =>
      let (heap, root) := pushLine heap root line
      pushLines validator heap root rest

/-- Room for the ids is not modelled: `reserve` asks for less than the vector of slices already takes. -/
def fromStr (heap : Heap) (text : String) (validator : Option EncodingValidator) :
    Outcome (Except EncodingError (Heap × LineBuffer)) := do
  let lines ← splitOnLineEndings text
  let (pool, heap) := heap.alloc
  pure ((pushLines validator heap (Branch.new pool) lines).map fun (heap, root) =>
    (heap, ⟨pool, root, validator⟩))

/-- `read` is what `read_to_end` delivered. -/
def fromReader (heap : Heap) (read : Except IoError (List UInt8)) (validator : Option EncodingValidator) :
    Outcome (Except IoError (Heap × LineBuffer)) :=
  match read with
  | .error error => pure (.error error)
  | .ok bytes =>
    match fromUtf8 bytes with
    | none => pure (.error .invalidUtf8)
    | some text => do
      let loaded ← fromStr heap text validator
      pure (loaded.mapError IoError.invalidData)

/-- The callback of `from_source`, with the error latched so far. -/
def onLine (validator : Option EncodingValidator) (state : Option EncodingError × Heap × Branch)
    (line : String) : Option EncodingError × Heap × Branch :=
  match state with
  | (some error, heap, root) => (some error, heap, root)
  | (none, heap, root) =>
    match checkLine validator line with
    | .error error => (some error, heap, root)
    | .ok () => (none, pushLine heap root line)

/-- What `from_source` returns once the source is exhausted. -/
def afterSource (pool : PoolRef) (validator : Option EncodingValidator) :
    Option EncodingError × Heap × Branch → Except EncodingError (Heap × LineBuffer)
  | (some error, _, _) => .error error
  | (none, heap, root) => .ok (heap, ⟨pool, root, validator⟩)

def fromSource (heap : Heap) (source : LineSource) (validator : Option EncodingValidator) :
    Outcome (Except EncodingError (Heap × LineBuffer)) := do
  let (pool, heap) := heap.alloc
  let root := Branch.new pool
  match source.lineCountHint with
  | some hint => Vec.reserve root.lines.length 4 hint
  | none => pure ()
  pure (afterSource pool validator (source.lines.foldl (onLine validator) (none, heap, root)))

end Loading

section Editing

variable [Digests]

def insertLine (heap : Heap) (buffer : LineBuffer) (n : ℕ) (content : String) :
    Outcome (Except EncodingError Unit × Heap × LineBuffer) := do
  let (verdict, heap, root) ← buffer.root.insertLine heap n content buffer.validator
  pure (verdict, heap, { buffer with root })

def replaceLine (heap : Heap) (buffer : LineBuffer) (n : ℕ) (content : String) :
    Outcome (Except EncodingError Unit × Heap × LineBuffer) := do
  let (verdict, heap, root) ← buffer.root.replaceLine heap n content buffer.validator
  pure (verdict, heap, { buffer with root })

end Editing

def deleteLine (buffer : LineBuffer) (n : ℕ) : Outcome (Bool × LineBuffer) := do
  let (moved, root) ← buffer.root.deleteLine n
  pure (moved, { buffer with root })

def undo (buffer : LineBuffer) : Outcome (Bool × LineBuffer) := do
  let (moved, root) ← buffer.root.undo
  pure (moved, { buffer with root })

def redo (buffer : LineBuffer) : Outcome (Bool × LineBuffer) := do
  let (moved, root) ← buffer.root.redo
  pure (moved, { buffer with root })

def branch (buffer : LineBuffer) : Branch := buffer.root.fork

/-- The loop of `write_lines` from line `i` on; `last` is the index without a separator behind it. -/
def writeFrom {σ : Type} (writer : Writer σ) (pool : GreenPool) (lineEnding : String) (last i : ℕ) :
    List GreenLineId → σ → Outcome (Except IoError Unit × σ)
  | [], sink => pure (.ok (), sink)
  | id :: rest, sink => do
    let line ← pool.get id
    match writer.writeAll sink (asBytes line.content) with
    | (.error error, sink) => pure (.error error, sink)
    | (.ok (), sink) =>
      if i < last then
        match writer.writeAll sink (asBytes lineEnding) with
        | (.error error, sink) => pure (.error error, sink)
        | (.ok (), sink) => writeFrom writer pool lineEnding last (i + 1) rest sink
      else writeFrom writer pool lineEnding last (i + 1) rest sink

def writeLines {σ : Type} (heap : Heap) (buffer : LineBuffer) (writer : Writer σ) (sink : σ)
    (lineEnding : String) : Outcome (Except IoError Unit × σ) :=
  writeFrom writer (heap.lock buffer.pool) lineEnding (buffer.root.lines.length - 1) 0
    buffer.root.lines sink

/-- `iter_lines`, collected. It reads through the buffer's own handle. -/
def iterLines (heap : Heap) (buffer : LineBuffer) : Outcome (List String) :=
  buffer.root.lines.mapM fun id => do
    let line ← (heap.lock buffer.pool).get id
    pure line.content

def lineCrc32 (heap : Heap) (buffer : LineBuffer) (n : ℕ) : Outcome (Option UInt32) :=
  buffer.root.lineCrc32 heap n

def lineMd5 [Digests] (heap : Heap) (buffer : LineBuffer) (n : ℕ) : Outcome (Option (Vector UInt8 16) × Heap) :=
  buffer.root.lineMd5 heap n

def lineSha256 [Digests] (heap : Heap) (buffer : LineBuffer) (n : ℕ) :
    Outcome (Option (Vector UInt8 32) × Heap) :=
  buffer.root.lineSha256 heap n

end LineBuffer

/-- A call that edits a buffer or moves in its history. -/
inductive BufferOp where
  | insertLine (n : ℕ) (content : String)
  | replaceLine (n : ℕ) (content : String)
  | deleteLine (n : ℕ)
  | undo
  | redo
deriving DecidableEq, Repr

/-- The call on the root branch that a call on the buffer makes. -/
def BufferOp.onRoot (validator : Option EncodingValidator) : BufferOp → BranchOp
  | .insertLine n content => .insertLine n content validator
  | .replaceLine n content => .replaceLine n content validator
  | .deleteLine n => .deleteLine n
  | .undo => .undo
  | .redo => .redo

namespace LineBuffer

variable [Digests]

def call (heap : Heap) (buffer : LineBuffer) : BufferOp → Outcome (Reply × Heap × LineBuffer)
  | .insertLine n content => do
    let (verdict, heap, buffer) ← buffer.insertLine heap n content
    pure (.result verdict, heap, buffer)
  | .replaceLine n content => do
    let (verdict, heap, buffer) ← buffer.replaceLine heap n content
    pure (.result verdict, heap, buffer)
  | .deleteLine n => do
    let (moved, buffer) ← buffer.deleteLine n
    pure (.flag moved, heap, buffer)
  | .undo => do
    let (moved, buffer) ← buffer.undo
    pure (.flag moved, heap, buffer)
  | .redo => do
    let (moved, buffer) ← buffer.redo
    pure (.flag moved, heap, buffer)

/-- A sequence of calls, with their replies. -/
def run (heap : Heap) (buffer : LineBuffer) : List BufferOp → Outcome (List Reply × Heap × LineBuffer)
  | [] => pure ([], heap, buffer)
  | op :: ops => do
    let (reply, heap, buffer) ← buffer.call heap op
    let (replies, heap, buffer) ← buffer.run heap ops
    pure (reply :: replies, heap, buffer)

end LineBuffer

end Mallard
