import Mathlib.Data.List.Infix
import Mathlib.Data.Finset.Card
import Mathlib.Data.Finset.Dedup

/-! # Inventories: lists of distinct items in the order of their first occurrence

Mathlib's `List.dedup` keeps the last occurrence of every item and `List.insert` adds in front, so
neither is stable under later additions. An inventory only ever grows at its end: an item keeps its
position for good, which is what an append-only table of interned values relies on.
-/

namespace List

variable {α : Type*} [DecidableEq α]

/-- Append an item unless it is already listed. -/
def pushNew (items : List α) (item : α) : List α :=
  if item ∈ items then items else items ++ [item]

theorem pushNew_of_mem {items : List α} {item : α} (known : item ∈ items) :
    items.pushNew item = items := if_pos known

theorem pushNew_of_notMem {items : List α} {item : α} (fresh : item ∉ items) :
    items.pushNew item = items ++ [item] := if_neg fresh

theorem prefix_pushNew (items : List α) (item : α) : items <+: items.pushNew item := by
  rw [pushNew]
  split
  · exact prefix_rfl
  · exact prefix_append _ _

@[simp] theorem mem_pushNew {items : List α} {item other : α} :
    other ∈ items.pushNew item ↔ other ∈ items ∨ other = item := by
  rw [pushNew]
  split
  · next known =>
    constructor
    · exact Or.inl
    · rintro (member | rfl)
      · exact member
      · exact known
  · simp only [mem_append, mem_singleton]

theorem Nodup.pushNew {items : List α} (distinct : items.Nodup) (item : α) :
    (items.pushNew item).Nodup := by
  rw [List.pushNew]
  split
  · exact distinct
  · next fresh => exact nodup_append.mpr ⟨distinct, nodup_singleton _, by
      intro a ha b hb
      obtain rfl := mem_singleton.mp hb
      exact fun same => fresh (same ▸ ha)⟩

/-- The items of a list added one after the other to an inventory. -/
def pushAll (items added : List α) : List α := added.foldl pushNew items

/-- The distinct items of a list, each at the place of its first occurrence. -/
def inventory (added : List α) : List α := pushAll [] added

@[simp] theorem pushAll_nil (items : List α) : items.pushAll [] = items := rfl

@[simp] theorem pushAll_cons (items : List α) (item : α) (added : List α) :
    items.pushAll (item :: added) = (items.pushNew item).pushAll added := rfl

theorem pushAll_append (items first second : List α) :
    items.pushAll (first ++ second) = (items.pushAll first).pushAll second := foldl_append

theorem prefix_pushAll (items added : List α) : items <+: items.pushAll added := by
  induction added generalizing items with
  | nil => exact prefix_rfl
  | cons item added ih => exact (prefix_pushNew items item).trans (ih _)

@[simp] theorem mem_pushAll {items added : List α} {item : α} :
    item ∈ items.pushAll added ↔ item ∈ items ∨ item ∈ added := by
  induction added generalizing items with
  | nil => simp
  | cons first added ih => rw [pushAll_cons, ih, mem_pushNew, mem_cons, or_assoc]

theorem toFinset_pushAll (items added : List α) : (items.pushAll added).toFinset = (items ++ added).toFinset := by
  ext item
  simp

theorem Nodup.pushAll {items : List α} (distinct : items.Nodup) (added : List α) :
    (items.pushAll added).Nodup := by
  induction added generalizing items with
  | nil => exact distinct
  | cons item added ih => exact ih (distinct.pushNew item)

/-- Distinct items are all added. -/
theorem pushAll_of_nodup_append {items added : List α} (distinct : (items ++ added).Nodup) :
    items.pushAll added = items ++ added := by
  induction added generalizing items with
  | nil => rw [pushAll_nil, append_nil]
  | cons item added ih =>
    have fresh : item ∉ items := fun member =>
      (nodup_append.mp distinct).2.2 item member item mem_cons_self rfl
    rw [append_cons] at distinct
    rw [pushAll_cons, pushNew_of_notMem fresh, ih distinct, append_assoc, singleton_append]

theorem pushAll_nil_of_nodup {items : List α} (distinct : items.Nodup) : [].pushAll items = items :=
  pushAll_of_nodup_append distinct

theorem nodup_inventory (added : List α) : added.inventory.Nodup := nodup_nil.pushAll added

@[simp] theorem mem_inventory {added : List α} {item : α} : item ∈ added.inventory ↔ item ∈ added := by
  simp [inventory]

/-- An inventory is as long as its source has distinct items. -/
theorem length_inventory (added : List α) : added.inventory.length = added.toFinset.card := by
  rw [← toFinset_card_of_nodup (nodup_inventory added)]
  congr 1
  ext item
  simp

theorem inventory_concat (added : List α) (item : α) :
    (added ++ [item]).inventory = added.inventory.pushNew item := pushAll_append [] added [item]

theorem length_pushNew_le (items : List α) (item : α) : (items.pushNew item).length ≤ items.length + 1 := by
  rw [pushNew]
  split
  · exact Nat.le_succ _
  · exact length_append.le

/-- A listed item keeps its position however the list is extended. -/
theorem IsPrefix.idxOf_eq {items extended : List α} (extends_ : items <+: extended) {item : α}
    (known : item ∈ items) : extended.idxOf item = items.idxOf item := by
  obtain ⟨rest, rfl⟩ := extends_
  exact idxOf_append_of_mem known

omit [DecidableEq α] in
/-- What an extended list holds at a position already taken. -/
theorem IsPrefix.getElem?_eq {items extended : List α} (extends_ : items <+: extended) {index : ℕ}
    {item : α} (present : items[index]? = some item) : extended[index]? = some item := by
  obtain ⟨rest, rfl⟩ := extends_
  rw [getElem?_append_left (getElem?_eq_some_iff.mp present).1]
  exact present

theorem getElem?_idxOf_of_mem {items : List α} {item : α} (known : item ∈ items) :
    items[items.idxOf item]? = some item := by
  rw [getElem?_eq_getElem (idxOf_lt_length_iff.mpr known), getElem_idxOf]

/-- In an inventory an item is found exactly where it stands. -/
theorem Nodup.idxOf_of_getElem? {items : List α} (distinct : items.Nodup) {index : ℕ} {item : α}
    (present : items[index]? = some item) : items.idxOf item = index := by
  obtain ⟨bound, rfl⟩ := getElem?_eq_some_iff.mp present
  exact distinct.idxOf_getElem index bound

end List
