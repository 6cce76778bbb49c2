import Mallard.Model.Core.Green
import Mallard.ToMathlib.ListEdits
import Mallard.ToMathlib.ListInventory

/-! # What the pool of interned strings maintains

A well-formed pool is determined by the list of its contents: the contents are distinct, the index
maps each of them to its position narrowed to `u32`, and every filled digest cell holds the digest.
Interning adds the string to the inventory of contents and returns its position, narrowed. The id
always lies inside the pool; it denotes the string itself as long as the pool fits the id type.
-/

namespace Mallard

/-- The number of ids, `2 ^ 32`. -/
def idCount : ℕ := UInt32.size

theorem GreenLineId.toNat_ofLen (len : ℕ) : (GreenLineId.ofLen len).raw.toNat = len % idCount :=
  UInt32.toNat_ofNat'

theorem GreenLineId.ofLen_inj {len other : ℕ} :
    GreenLineId.ofLen len = GreenLineId.ofLen other ↔ len % idCount = other % idCount := by
  rw [← GreenLineId.toNat_ofLen, ← GreenLineId.toNat_ofLen]
  constructor
  · intro same
    rw [same]
  · intro same
    have raw := UInt32.toNat_inj.mp same
    exact congrArg GreenLineId.mk raw

/-- The cells of an entry hold the digests of its content, or nothing yet. -/
structure GreenLine.Coherent [Digests] (line : GreenLine) : Prop where
  crc32 : line.hash.crc32 = Digests.crc32 (asBytes line.content)
  md5 : ∀ digest, line.hash.md5 = some digest → digest = Digests.md5 (asBytes line.content)
  sha256 : ∀ digest, line.hash.sha256 = some digest → digest = Digests.sha256 (asBytes line.content)

theorem GreenLine.coherent_new [Digests] (content : String) : (GreenLine.new content).Coherent := by
  refine ⟨rfl, ?_, ?_⟩
  · intro digest cached
    cases cached
  · intro digest cached
    cases cached

namespace GreenPool

/-- The string an id denotes. -/
def text? (pool : GreenPool) (id : GreenLineId) : Option String := pool.contents[id.raw.toNat]?

/-- Every entry has an id of its own. -/
def Fits (pool : GreenPool) : Prop := pool.len ≤ idCount

/-- The string has an id of its own: it stands among the first `2 ^ 32` entries. -/
def Reaches (pool : GreenPool) (content : String) : Prop := pool.contents.idxOf content < idCount

/-- Later pools keep every entry at its place. -/
def Extends (old new : GreenPool) : Prop := old.contents <+: new.contents

/-- The id lies inside the pool. -/
def Holds (pool : GreenPool) (id : GreenLineId) : Prop := id.raw.toNat < pool.len

structure WellFormed [Digests] (pool : GreenPool) : Prop where
  distinct : pool.contents.Nodup
  index : ∀ content, pool.index.lookup content =
    if content ∈ pool.contents then some (GreenLineId.ofLen (pool.contents.idxOf content)) else none
  coherent : ∀ line ∈ pool.lines, line.Coherent

theorem length_contents (pool : GreenPool) : pool.contents.length = pool.len := List.length_map _

theorem Extends.trans {first second third : GreenPool} (left : first.Extends second)
    (right : second.Extends third) : first.Extends third := List.IsPrefix.trans left right

theorem Extends.len_le {old new : GreenPool} (grown : old.Extends new) : old.len ≤ new.len := by
  have sizes := grown.length_le
  rwa [length_contents, length_contents] at sizes

theorem Extends.fits {old new : GreenPool} (grown : old.Extends new) (fits : new.Fits) : old.Fits :=
  grown.len_le.trans fits

theorem Extends.reaches_iff {old new : GreenPool} (grown : old.Extends new) {content : String}
    (known : content ∈ old.contents) : new.Reaches content ↔ old.Reaches content := by
  rw [Reaches, grown.idxOf_eq known, Reaches]

theorem Fits.reaches {pool : GreenPool} (fits : pool.Fits) {content : String} (known : content ∈ pool.contents) :
    pool.Reaches content := by
  have position := List.idxOf_lt_length_iff.mpr known
  rw [length_contents] at position
  exact lt_of_lt_of_le position fits

theorem Extends.text?_eq {old new : GreenPool} (grown : old.Extends new) {id : GreenLineId}
    {content : String} (denotes : old.text? id = some content) : new.text? id = some content :=
  grown.getElem?_eq denotes

theorem holds_iff (pool : GreenPool) (id : GreenLineId) :
    pool.Holds id ↔ ∃ content, pool.text? id = some content := by
  constructor
  · intro held
    have bound : id.raw.toNat < pool.contents.length := by rw [length_contents]; exact held
    exact ⟨_, List.getElem?_eq_getElem bound⟩
  · rintro ⟨content, denotes⟩
    have bound := (List.getElem?_eq_some_iff.mp denotes).1
    rwa [length_contents] at bound

/-- Reading an id that denotes a string finds an entry with that content. -/
theorem get_of_text? {pool : GreenPool} {id : GreenLineId} {content : String}
    (denotes : pool.text? id = some content) :
    ∃ line, pool.get id = .ok line ∧ line ∈ pool.lines ∧ line.content = content := by
  rw [text?, contents, List.getElem?_map] at denotes
  obtain ⟨line, present, rfl⟩ := Option.map_eq_some_iff.mp denotes
  exact ⟨line, Vec.get_of_getElem? present, List.mem_of_getElem? present, rfl⟩

theorem text?_of_get {pool : GreenPool} {id : GreenLineId} {line : GreenLine}
    (read : pool.get id = .ok line) : pool.text? id = some line.content ∧ line ∈ pool.lines := by
  cases present : pool.lines[id.raw.toNat]? with
  | none => rw [get, Vec.get, present] at read; contradiction
  | some found =>
    rw [get, Vec.get_of_getElem? present] at read
    cases read
    refine ⟨?_, List.mem_of_getElem? present⟩
    rw [text?, contents, List.getElem?_map, present]
    rfl

/-- The string at the narrowed position of a string. -/
def resolved (pool : GreenPool) (content : String) : String :=
  (pool.text? (GreenLineId.ofLen (pool.contents.idxOf content))).getD content

/-- The narrowed position of a listed string lies inside the pool, so it denotes some string. -/
theorem text?_resolved {pool : GreenPool} {content : String} (known : content ∈ pool.contents) :
    pool.text? (GreenLineId.ofLen (pool.contents.idxOf content)) = some (pool.resolved content) := by
  have position := List.idxOf_lt_length_iff.mpr known
  have inside : (GreenLineId.ofLen (pool.contents.idxOf content)).raw.toNat < pool.contents.length := by
    rw [GreenLineId.toNat_ofLen]
    exact lt_of_le_of_lt (Nat.mod_le _ _) position
  rw [resolved, text?, List.getElem?_eq_getElem inside]
  rfl

/-- A string with an id of its own is found at its own position. -/
theorem resolved_of_reaches {pool : GreenPool} {content : String} (known : content ∈ pool.contents)
    (reaches : pool.Reaches content) : pool.resolved content = content := by
  rw [resolved, text?, GreenLineId.toNat_ofLen, Nat.mod_eq_of_lt reaches, List.getElem?_idxOf_of_mem known]
  rfl

/-- In a pool that fits the id type, every listed string is. -/
theorem resolved_of_fits {pool : GreenPool} {content : String} (known : content ∈ pool.contents)
    (fits : pool.Fits) : pool.resolved content = content := resolved_of_reaches known (fits.reaches known)

variable [Digests]

theorem wellFormed_new : GreenPool.new.WellFormed := by
  refine ⟨List.nodup_nil, ?_, ?_⟩
  · intro content
    rfl
  · intro line member
    exact absurd member List.not_mem_nil

/-- Interning adds the string to the inventory of contents. -/
theorem WellFormed.contents_intern {pool : GreenPool} (valid : pool.WellFormed) (content : String) :
    (pool.intern content).2.contents = pool.contents.pushNew content := by
  rw [intern, valid.index content]
  by_cases known : content ∈ pool.contents
  · rw [if_pos known, List.pushNew_of_mem known]
  · rw [if_neg known, List.pushNew_of_notMem known]
    simp only [contents, List.map_append, List.map_singleton, GreenLine.new]

/-- The id is the position of the string, narrowed to 32 bits. -/
theorem WellFormed.intern_id {pool : GreenPool} (valid : pool.WellFormed) (content : String) :
    (pool.intern content).1 = GreenLineId.ofLen ((pool.contents.pushNew content).idxOf content) := by
  rw [intern, valid.index content]
  by_cases known : content ∈ pool.contents
  · rw [if_pos known, List.pushNew_of_mem known]
  · rw [if_neg known, List.pushNew_of_notMem known, List.idxOf_append_of_notMem known,
      List.idxOf_cons_self, Nat.add_zero, length_contents]
    rfl

theorem WellFormed.extends_intern {pool : GreenPool} (valid : pool.WellFormed) (content : String) :
    pool.Extends (pool.intern content).2 := by
  rw [Extends, valid.contents_intern]
  exact List.prefix_pushNew _ _

theorem WellFormed.intern {pool : GreenPool} (valid : pool.WellFormed) (content : String) :
    (pool.intern content).2.WellFormed := by
  have added := valid.contents_intern content
  have id := valid.intern_id content
  refine ⟨added ▸ valid.distinct.pushNew content, ?_, ?_⟩
  · intro other
    rw [added]
    by_cases known : content ∈ pool.contents
    · rw [List.pushNew_of_mem known, GreenPool.intern, valid.index content, if_pos known]
      exact valid.index other
    · rw [GreenPool.intern, valid.index content, if_neg known, List.lookup_cons]
      by_cases same : other = content
      · subst same
        have position : (pool.contents.pushNew other).idxOf other = pool.lines.length := by
          rw [List.pushNew_of_notMem known, List.idxOf_append_of_notMem known, List.idxOf_cons_self,
            Nat.add_zero]
          exact length_contents pool
        simp only [BEq.rfl, List.mem_pushNew, or_true, if_true, position]
      · have differs : (other == content) = false := beq_eq_false_iff_ne.mpr same
        simp only [differs, valid.index other, List.mem_pushNew, same, or_false]
        split
        · next present => rw [(List.prefix_pushNew pool.contents content).idxOf_eq present]
        · rfl
  · intro line member
    rw [GreenPool.intern, valid.index content] at member
    split at member
    · exact valid.coherent line member
    · rcases List.mem_append.mp member with old | new
      · exact valid.coherent line old
      · exact List.mem_singleton.mp new ▸ GreenLine.coherent_new content

/-- The string that the id returned by `intern` denotes: the interned one, unless its id has wrapped
around to that of an older one. -/
def stored (pool : GreenPool) (content : String) : String := (pool.intern content).2.resolved content

theorem WellFormed.mem_contents_intern {pool : GreenPool} (valid : pool.WellFormed) (content : String) :
    content ∈ (pool.intern content).2.contents := by
  rw [valid.contents_intern]
  exact List.mem_pushNew.mpr (.inr rfl)

theorem WellFormed.text?_intern {pool : GreenPool} (valid : pool.WellFormed) (content : String) :
    (pool.intern content).2.text? (pool.intern content).1 = some (pool.stored content) := by
  rw [valid.intern_id, ← valid.contents_intern]
  exact text?_resolved (valid.mem_contents_intern content)

theorem WellFormed.stored_of_reaches {pool : GreenPool} (valid : pool.WellFormed) {content : String}
    (reaches : (pool.intern content).2.Reaches content) : pool.stored content = content :=
  resolved_of_reaches (valid.mem_contents_intern content) reaches

theorem WellFormed.stored_eq {pool : GreenPool} (valid : pool.WellFormed) {content : String}
    (fits : (pool.intern content).2.Fits) : pool.stored content = content :=
  valid.stored_of_reaches (fits.reaches (valid.mem_contents_intern content))

theorem WellFormed.internAll {pool : GreenPool} (valid : pool.WellFormed) (added : List String) :
    (pool.internAll added).2.WellFormed ∧
      (pool.internAll added).2.contents = pool.contents.pushAll added := by
  induction added generalizing pool with
  | nil => exact ⟨valid, rfl⟩
  | cons content rest ih =>
    obtain ⟨valid_after, contents_after⟩ := ih (valid.intern content)
    refine ⟨valid_after, ?_⟩
    rw [List.pushAll_cons, ← valid.contents_intern]
    exact contents_after

/-- The ids of a run are the final positions of its strings, narrowed: no later call moves one. -/
theorem WellFormed.internAll_ids {pool : GreenPool} (valid : pool.WellFormed) (added : List String) :
    (pool.internAll added).1 =
      added.map fun content => GreenLineId.ofLen ((pool.contents.pushAll added).idxOf content) := by
  induction added generalizing pool with
  | nil => rfl
  | cons content rest ih =>
    have tail := ih (valid.intern content)
    rw [valid.contents_intern] at tail
    have kept : ((pool.contents.pushNew content).pushAll rest).idxOf content =
        (pool.contents.pushNew content).idxOf content :=
      (List.prefix_pushAll _ rest).idxOf_eq (List.mem_pushNew.mpr (.inr rfl))
    rw [List.map_cons, List.pushAll_cons, kept, ← valid.intern_id, ← tail]
    rfl

/-- What the ids of a run denote at its end. -/
theorem WellFormed.internAll_text? {pool : GreenPool} (valid : pool.WellFormed) (added : List String) :
    List.Forall₂ (fun id text => (pool.internAll added).2.text? id = some text) (pool.internAll added).1
      (added.map (pool.internAll added).2.resolved) := by
  rw [valid.internAll_ids, ← (valid.internAll added).2, List.forall₂_map_left_iff, List.forall₂_map_right_iff,
    List.forall₂_same]
  intro content member
  apply text?_resolved
  rw [(valid.internAll added).2]
  exact List.mem_pushAll.mpr (.inr member)

theorem wellFormed_run (calls : List String) : (new.internAll calls).2.WellFormed :=
  (wellFormed_new.internAll calls).1

/-- A run lists its distinct strings. -/
theorem contents_run (calls : List String) : (new.internAll calls).2.contents = calls.inventory :=
  (wellFormed_new.internAll calls).2

theorem ids_run (calls : List String) :
    (new.internAll calls).1 = calls.map fun content => GreenLineId.ofLen (calls.inventory.idxOf content) :=
  wellFormed_new.internAll_ids calls

/-- The length counts the distinct strings, even beyond the range of the ids. -/
theorem len_run (calls : List String) : (new.internAll calls).2.len = calls.toFinset.card := by
  rw [← length_contents, contents_run, List.length_inventory]

theorem fits_run {calls : List String} : (new.internAll calls).2.Fits ↔ calls.toFinset.card ≤ idCount := by
  rw [Fits, len_run]

omit [Digests] in
/-- Writing back an entry with the same content keeps all contents. -/
theorem contents_put {pool : GreenPool} {id : GreenLineId} {line filled : GreenLine}
    (read : pool.get id = .ok line) (same : filled.content = line.content) :
    (pool.put id filled).contents = pool.contents := by
  have denotes := (text?_of_get read).1
  rw [put, contents, List.map_set, same]
  obtain ⟨bound, value⟩ := List.getElem?_eq_some_iff.mp denotes
  rw [← value]
  exact List.set_getElem_self bound

theorem WellFormed.put {pool : GreenPool} (valid : pool.WellFormed) {id : GreenLineId}
    {line filled : GreenLine} (read : pool.get id = .ok line) (same : filled.content = line.content)
    (coherent : filled.Coherent) : (pool.put id filled).WellFormed := by
  have kept := contents_put read same
  refine ⟨kept ▸ valid.distinct, ?_, ?_⟩
  · intro content
    rw [kept]
    exact valid.index content
  · exact List.forall_mem_set valid.coherent coherent _

end GreenPool

/-- A digest read returns the digest of the content and leaves a coherent entry with that content. -/
theorem GreenLine.md5_spec [Digests] {line : GreenLine} (coherent : line.Coherent) :
    line.md5.1 = Digests.md5 (asBytes line.content) ∧ line.md5.2.content = line.content ∧
      line.md5.2.Coherent := by
  obtain ⟨content, crc32, md5, sha256⟩ := line
  cases md5 with
  | none =>
    refine ⟨rfl, rfl, coherent.crc32, ?_, coherent.sha256⟩
    intro digest cached
    exact (Option.some.inj cached).symm
  | some digest => exact ⟨coherent.md5 digest rfl, rfl, coherent⟩

theorem GreenLine.sha256_spec [Digests] {line : GreenLine} (coherent : line.Coherent) :
    line.sha256.1 = Digests.sha256 (asBytes line.content) ∧ line.sha256.2.content = line.content ∧
      line.sha256.2.Coherent := by
  obtain ⟨content, crc32, md5, sha256⟩ := line
  cases sha256 with
  | none =>
    refine ⟨rfl, rfl, coherent.crc32, coherent.md5, ?_⟩
    intro digest cached
    exact (Option.some.inj cached).symm
  | some digest => exact ⟨coherent.sha256 digest rfl, rfl, coherent⟩

namespace Heap

theorem lock_alloc (heap : Heap) : heap.alloc.2.lock heap.alloc.1 = .new := Function.update_self ..

end Heap

end Mallard
