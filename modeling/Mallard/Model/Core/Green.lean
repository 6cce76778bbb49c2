import Mallard.Model.Core.Encoding
import Mathlib.Logic.Function.Basic

/-! # Green lines: the append-only pool of interned strings

The pool keeps one entry per distinct string, in the order of first interning, and an index from
strings to the ids handed out. An id is the length of the pool narrowed to `u32`. Digests other than
CRC32 are computed on the first request and cached in a cell of the entry, so reading one is an
update of the pool. Pools live behind `Arc<Mutex<_>>` handles: the heap maps handles to pools.
-/

namespace Mallard

/-- The digest functions of `crc32fast`, `md-5` and `sha2`. -/
class Digests where
  crc32 : List UInt8 → UInt32
  md5 : List UInt8 → Vector UInt8 16
  sha256 : List UInt8 → Vector UInt8 32

/-- Index into a pool. -/
structure GreenLineId where
  raw : UInt32
deriving DecidableEq, Repr

/-- `GreenLineId(len as u32)`: the cast keeps the low 32 bits. -/
def GreenLineId.ofLen (len : ℕ) : GreenLineId := ⟨UInt32.ofNat len⟩

/-- Content hashes; the digests are cells filled on first access. -/
structure LineHash where
  crc32 : UInt32
  md5 : Option (Vector UInt8 16)
  sha256 : Option (Vector UInt8 32)
deriving DecidableEq, Repr

/-- An interned line. -/
structure GreenLine where
  content : String
  hash : LineHash
deriving DecidableEq, Repr

/-- The pool: its entries, and the `HashMap` from contents to ids. -/
structure GreenPool where
  lines : List GreenLine
  index : List (String × GreenLineId)
deriving DecidableEq, Repr

/-- The contents of the entries. -/
def GreenPool.contents (pool : GreenPool) : List String := pool.lines.map GreenLine.content

def GreenPool.new : GreenPool := ⟨[], []⟩

def GreenPool.len (pool : GreenPool) : ℕ := pool.lines.length

def GreenPool.isEmpty (pool : GreenPool) : Bool := pool.lines.isEmpty

/-- The entry at an id. -/
def GreenPool.get (pool : GreenPool) (id : GreenLineId) : Outcome GreenLine :=
  Vec.get pool.lines id.raw.toNat

/-- The entry at an id after a cell of it was written. -/
def GreenPool.put (pool : GreenPool) (id : GreenLineId) (line : GreenLine) : GreenPool :=
  { pool with lines := pool.lines.set id.raw.toNat line }

section Hashing

variable [Digests]

def LineHash.new (content : String) : LineHash := ⟨Digests.crc32 (asBytes content), none, none⟩

def LineHash.md5WithContent (hash : LineHash) (content : String) : Vector UInt8 16 × LineHash :=
  match hash.md5 with
  | some digest => (digest, hash)
  | none =>
    let digest := Digests.md5 (asBytes content)
    (digest, { hash with md5 := some digest })

def LineHash.sha256WithContent (hash : LineHash) (content : String) : Vector UInt8 32 × LineHash :=
  match hash.sha256 with
  | some digest => (digest, hash)
  | none =>
    let digest := Digests.sha256 (asBytes content)
    (digest, { hash with sha256 := some digest })

def GreenLine.new (content : String) : GreenLine := ⟨content, LineHash.new content⟩

def GreenLine.md5 (line : GreenLine) : Vector UInt8 16 × GreenLine :=
  let (digest, hash) := line.hash.md5WithContent line.content
  (digest, { line with hash })

def GreenLine.sha256 (line : GreenLine) : Vector UInt8 32 × GreenLine :=
  let (digest, hash) := line.hash.sha256WithContent line.content
  (digest, { line with hash })

/-- Intern a string: its id if it has one, otherwise the id of a new last entry. -/
def GreenPool.intern (pool : GreenPool) (content : String) : GreenLineId × GreenPool :=
  match pool.index.lookup content with
  | some id => (id, pool)
  | none =>
    let id := GreenLineId.ofLen pool.lines.length
    (id, ⟨pool.lines ++ [GreenLine.new content], (content, id) :: pool.index⟩)

/-- Successive `intern` calls on one pool, with the ids they return. -/
def GreenPool.internAll (pool : GreenPool) : List String → List GreenLineId × GreenPool
  | [] => ([], pool)
  | content :: rest =>
    let (id, pool) := pool.intern content
    let (ids, pool) := pool.internAll rest
    (id :: ids, pool)

end Hashing

/-- Eight rounds of the reflected CRC32 polynomial on the register mixed with a byte. -/
def crc32Byte (register : UInt32) (byte : UInt8) : UInt32 :=
  (List.range 8).foldl
    (fun register _ => if register &&& 1 = 1 then (register >>> 1) ^^^ 0xEDB88320 else register >>> 1)
    (register ^^^ byte.toUInt32)

/-- CRC32 as `crc32fast` computes it. -/
def crc32 (bytes : List UInt8) : UInt32 := ~~~ bytes.foldl crc32Byte 0xFFFFFFFF

example : crc32 (asBytes "123456789") = 0xCBF43926 := by decide +kernel

/-- Digests for concrete runs that never ask for the lazy ones, which are left constant. -/
abbrev sampleDigests : Digests := ⟨crc32, fun _ => .replicate 16 0, fun _ => .replicate 32 0⟩

/-- An `Arc<Mutex<GreenPool>>`; clones of one `Arc` are equal handles. -/
abbrev PoolRef := ℕ

/-- The pools behind the handles, with the next handle to allocate. -/
structure Heap where
  next : PoolRef
  pools : PoolRef → GreenPool

namespace Heap

/-- No pool has been allocated. -/
def empty : Heap := ⟨0, fun _ => .new⟩

/-- The pool seen while the lock of a handle is held. -/
def lock (heap : Heap) (pool : PoolRef) : GreenPool := heap.pools pool

/-- The heap after the pool of a handle was mutated under its lock. -/
def store (heap : Heap) (pool : PoolRef) (content : GreenPool) : Heap :=
  { heap with pools := Function.update heap.pools pool content }

/-- `Arc::new(Mutex::new(GreenPool::new()))`. -/
def alloc (heap : Heap) : PoolRef × Heap :=
  (heap.next, { next := heap.next + 1, pools := Function.update heap.pools heap.next .new })

/-- `pool.lock().intern(content)`. -/
def intern [Digests] (heap : Heap) (pool : PoolRef) (content : String) : GreenLineId × Heap :=
  let (id, interned) := (heap.lock pool).intern content
  (id, heap.store pool interned)

@[simp] theorem lock_store (heap : Heap) (pool : PoolRef) (content : GreenPool) :
    (heap.store pool content).lock pool = content := Function.update_self ..

theorem lock_store_of_ne (heap : Heap) {pool other : PoolRef} (different : other ≠ pool) (content : GreenPool) :
    (heap.store pool content).lock other = heap.lock other := Function.update_of_ne different ..

theorem lock_alloc_of_ne (heap : Heap) {other : PoolRef} (old : other ≠ heap.next) :
    heap.alloc.2.lock other = heap.lock other := Function.update_of_ne old ..

@[simp] theorem store_lock (heap : Heap) (pool : PoolRef) : heap.store pool (heap.lock pool) = heap := by
  simp only [store, lock, Function.update_eq_self]

@[simp] theorem store_store (heap : Heap) (pool : PoolRef) (first second : GreenPool) :
    (heap.store pool first).store pool second = heap.store pool second := by
  simp only [store, Function.update_idem]

end Heap

end Mallard
