import Mallard.Proofs.Interning
import Mallard.Proofs.Numerals

/-! # When interning is faithful

A run of `intern` calls on a fresh pool lists its distinct strings in the order of their first calls
and hands out their positions narrowed to 32 bits. Up to `2 ^ 32` distinct strings the narrowing
loses nothing; with one more, the last position has no id of its own.
-/

namespace Mallard

namespace GreenPool

variable [Digests]

/-- Interning is faithful in a run of calls on a fresh pool. -/
structure FaithfulRun (calls : List String) : Prop where
  /-- The id of a call reads back as its string right after the call and after any later calls. -/
  reads : ∀ (i : ℕ) (content : String) (id : GreenLineId), calls[i]? = some content →
    (new.internAll calls).1[i]? = some id → ∀ made, i < made → made ≤ calls.length →
      ∃ line, (new.internAll (calls.take made)).2.get id = .ok line ∧ line.content = content
  /-- Two calls return the same id exactly for the same string. -/
  ids : ∀ (i j : ℕ) (content other : String) (id id' : GreenLineId),
    calls[i]? = some content → calls[j]? = some other →
    (new.internAll calls).1[i]? = some id → (new.internAll calls).1[j]? = some id' →
      (id = id' ↔ content = other)
  /-- The index maps a string to an id exactly when the entry at that id holds the string. -/
  index : ∀ content id, (new.internAll calls).2.index.lookup content = some id ↔
    ∃ line, (new.internAll calls).2.get id = .ok line ∧ line.content = content
  /-- Every entry is indexed. -/
  onto : ∀ position < (new.internAll calls).2.len, ∃ content id,
    (new.internAll calls).2.index.lookup content = some id ∧ id.raw.toNat = position
  /-- The length is the number of distinct strings. -/
  len : (new.internAll calls).2.len = calls.toFinset.card

variable {calls : List String}

omit [Digests] in
theorem position_lt (few : calls.toFinset.card ≤ idCount) {content : String} (member : content ∈ calls) :
    calls.inventory.idxOf content < idCount := by
  have position := List.idxOf_lt_length_iff.mpr (List.mem_inventory.mpr member)
  rw [List.length_inventory] at position
  exact lt_of_lt_of_le position few

theorem reads_run (few : calls.toFinset.card ≤ idCount) {i made : ℕ} {content : String} {id : GreenLineId}
    (call : calls[i]? = some content) (returned : (new.internAll calls).1[i]? = some id) (later : i < made) :
    ∃ line, (new.internAll (calls.take made)).2.get id = .ok line ∧ line.content = content := by
  have member : content ∈ calls.take made := by
    apply List.mem_of_getElem? (i := i)
    rw [List.getElem?_take_of_lt later, call]
  have grows : (calls.take made).inventory <+: calls.inventory := by
    have split := List.pushAll_append [] (calls.take made) (calls.drop made)
    rw [List.take_append_drop] at split
    rw [List.inventory, List.inventory, split]
    exact List.prefix_pushAll _ _
  rw [ids_run, List.getElem?_map, call, Option.map_some, Option.some.injEq] at returned
  have denotes : (new.internAll (calls.take made)).2.text? id = some content := by
    rw [text?, contents_run, ← returned, GreenLineId.toNat_ofLen,
      Nat.mod_eq_of_lt (position_lt few (List.mem_of_getElem? call)),
      grows.idxOf_eq (List.mem_inventory.mpr member)]
    exact List.getElem?_idxOf_of_mem (List.mem_inventory.mpr member)
  obtain ⟨line, read, _, same⟩ := get_of_text? denotes
  exact ⟨line, read, same⟩

omit [Digests] in
theorem ids_run_inj (few : calls.toFinset.card ≤ idCount) {content other : String} (first : content ∈ calls)
    (second : other ∈ calls) :
    GreenLineId.ofLen (calls.inventory.idxOf content) = GreenLineId.ofLen (calls.inventory.idxOf other) ↔
      content = other := by
  rw [GreenLineId.ofLen_inj, Nat.mod_eq_of_lt (position_lt few first), Nat.mod_eq_of_lt (position_lt few second)]
  exact List.idxOf_inj (List.mem_inventory.mpr first)

theorem index_run (few : calls.toFinset.card ≤ idCount) (content : String) (id : GreenLineId) :
    (new.internAll calls).2.index.lookup content = some id ↔
      ∃ line, (new.internAll calls).2.get id = .ok line ∧ line.content = content := by
  have valid := wellFormed_run calls
  rw [valid.index, contents_run]
  constructor
  · intro found
    split at found
    · next listed =>
      obtain rfl := Option.some.inj found
      have denotes : (new.internAll calls).2.text? (GreenLineId.ofLen (calls.inventory.idxOf content)) = some content := by
        rw [text?, contents_run, GreenLineId.toNat_ofLen,
          Nat.mod_eq_of_lt (position_lt few (List.mem_inventory.mp listed))]
        exact List.getElem?_idxOf_of_mem listed
      obtain ⟨line, read, _, same⟩ := get_of_text? denotes
      exact ⟨line, read, same⟩
    · contradiction
  · rintro ⟨line, read, rfl⟩
    have denotes := (text?_of_get read).1
    rw [text?, contents_run] at denotes
    have position := (List.nodup_inventory calls).idxOf_of_getElem? denotes
    rw [if_pos (List.mem_of_getElem? denotes), position, GreenLineId.ofLen, UInt32.ofNat_toNat]

theorem onto_run (few : calls.toFinset.card ≤ idCount) {position : ℕ}
    (inside : position < (new.internAll calls).2.len) :
    ∃ content id, (new.internAll calls).2.index.lookup content = some id ∧ id.raw.toNat = position := by
  have valid := wellFormed_run calls
  have bound : position < calls.inventory.length := by rwa [← contents_run, length_contents]
  have small : position < idCount := by
    rw [len_run] at inside
    exact lt_of_lt_of_le inside few
  refine ⟨calls.inventory[position], GreenLineId.ofLen position, ?_, ?_⟩
  · rw [valid.index, contents_run, if_pos (List.getElem_mem bound),
      (List.nodup_inventory calls).idxOf_getElem position bound]
  · rw [GreenLineId.toNat_ofLen, Nat.mod_eq_of_lt small]

/-- One distinct string too many, and the entry behind the last id is not indexed. -/
theorem not_faithfulRun (many : idCount < calls.toFinset.card) : ¬ FaithfulRun calls := by
  intro faithful
  have inside : idCount < (new.internAll calls).2.len := by rwa [len_run]
  obtain ⟨content, id, _, position⟩ := faithful.onto idCount inside
  have bound : id.raw.toNat < idCount := id.raw.toNat_lt
  rw [position] at bound
  exact lt_irrefl _ bound

/-- Interning is faithful in a run exactly when the ids suffice for its distinct strings. -/
theorem faithfulRun_iff (calls : List String) : FaithfulRun calls ↔ calls.toFinset.card ≤ idCount := by
  constructor
  · intro faithful
    by_contra many
    exact not_faithfulRun (Nat.not_le.mp many) faithful
  · intro few
    refine ⟨?_, ?_, index_run few, fun _ => onto_run few, len_run calls⟩
    · intro i content id call returned made later _
      exact reads_run few call returned later
    · intro i j content other id id' call call' returned returned'
      rw [ids_run, List.getElem?_map, call, Option.map_some, Option.some.injEq] at returned
      rw [ids_run, List.getElem?_map, call', Option.map_some, Option.some.injEq] at returned'
      rw [← returned, ← returned']
      exact ids_run_inj few (List.mem_of_getElem? call) (List.mem_of_getElem? call')

omit [Digests] in
/-- The numerals from 0 to `2 ^ 32` are one distinct string too many. -/
theorem numerals_not_faithfulRun : ¬ @FaithfulRun sampleDigests (numerals (idCount + 1)) := by
  refine @not_faithfulRun sampleDigests _ ?_
  rw [card_numerals]
  exact Nat.lt_succ_self _

end GreenPool

end Mallard
