import Mathlib.Data.List.DropRight
import Mathlib.Logic.Function.Iterate

/-! # Lists under edits

What holds of all items of a list goes on to hold when one is replaced or appended. An end that
`rdropWhile` takes off is found without looking at what stands in front of the last item it keeps.
-/

namespace List

variable {α : Type*}

/-- What holds of the items of a list and of a new one holds after the new one took a place. -/
theorem forall_mem_set {P : α → Prop} {items : List α} {item : α} (each : ∀ old ∈ items, P old) (new : P item)
    (i : ℕ) : ∀ other ∈ items.set i item, P other := by
  intro other member
  rcases mem_or_eq_of_mem_set member with old | rfl
  · exact each other old
  · exact new

theorem forall_mem_concat {P : α → Prop} {items : List α} {item : α} (each : ∀ old ∈ items, P old)
    (new : P item) : ∀ other ∈ items ++ [item], P other :=
  forall_mem_append.mpr ⟨each, forall_mem_singleton.mpr new⟩

/-- What an updated item contributes beyond the old one is all that the list contributes beyond the old one. -/
theorem mem_flatMap_set {β : Type*} {contribution : α → List β} {items : List α} {i : ℕ} {old new : α} {added : List β}
    (found : items[i]? = some old) (grown : contribution new = contribution old ++ added) {x : β} :
    x ∈ (items.set i new).flatMap contribution ↔ x ∈ items.flatMap contribution ∨ x ∈ added := by
  obtain ⟨bound, rfl⟩ := List.getElem?_eq_some_iff.mp found
  have split : items = items.take i ++ items[i] :: items.drop (i + 1) := by simp
  have whole : items.flatMap contribution =
      (items.take i).flatMap contribution ++ (contribution items[i] ++ (items.drop (i + 1)).flatMap contribution) := by
    conv_lhs => rw [split]
    rw [flatMap_append, flatMap_cons]
  rw [set_eq_take_append_cons_drop, if_pos bound, flatMap_append, flatMap_cons, whole, grown]
  simp only [mem_append]
  tauto

/-- Lists with the same image are related place by place if items with the same image are. -/
theorem forall₂_of_map_eq {β γ : Type*} {f : α → γ} {g : β → γ} {R : α → β → Prop} {items : List α} {others : List β}
    (same : items.map f = others.map g) (related : ∀ item ∈ items, ∀ other ∈ others, f item = g other → R item other) :
    Forall₂ R items others := by
  induction items generalizing others with
  | nil =>
    obtain rfl := map_eq_nil_iff.mp same.symm
    exact .nil
  | cons item items ih =>
    cases others with
    | nil => cases same
    | cons other others =>
      obtain ⟨first, rest⟩ := cons_eq_cons.mp same
      refine .cons (related item mem_cons_self other mem_cons_self first) (ih rest ?_)
      exact fun later member later' member' =>
        related later (mem_cons_of_mem _ member) later' (mem_cons_of_mem _ member')

/-- Trimming stops at the last item that is kept. -/
theorem rdropWhile_append {blank : α → Bool} {kept : List α} (last : kept.rdropWhile blank = kept)
    (rest : List α) : (kept ++ rest).rdropWhile blank = kept ++ rest.rdropWhile blank := by
  induction rest using reverseRecOn with
  | nil => rw [append_nil, last, rdropWhile_nil, append_nil]
  | append_singleton rest c ih =>
    rw [← append_assoc]
    by_cases dropped : blank c
    · rw [rdropWhile_concat_pos _ _ _ dropped, rdropWhile_concat_pos _ _ _ dropped, ih]
    · rw [rdropWhile_concat_neg _ _ _ dropped, rdropWhile_concat_neg _ _ _ dropped, append_assoc]

/-- A word that keeps its end keeps what is in front of it. -/
theorem rdropWhile_append_word {blank : α → Bool} {word : List α} (nonempty : word ≠ [])
    (last : word.rdropWhile blank = word) (front : List α) : (front ++ word).rdropWhile blank = front ++ word := by
  rw [rdropWhile_eq_self_iff] at last ⊢
  intro whole
  rw [getLast_append_of_ne_nil whole nonempty]
  exact last nonempty

theorem rdropWhile_cons (blank : α → Bool) (first : α) (rest : List α) :
    (first :: rest).rdropWhile blank =
      if rest.rdropWhile blank = [] then [first].rdropWhile blank else first :: rest.rdropWhile blank := by
  induction rest using reverseRecOn with
  | nil => rw [rdropWhile_nil, if_pos rfl]
  | append_singleton rest c ih =>
    rw [← cons_append]
    by_cases dropped : blank c
    · rw [rdropWhile_concat_pos _ _ _ dropped, rdropWhile_concat_pos _ _ _ dropped, ih]
    · rw [rdropWhile_concat_neg _ _ _ dropped, rdropWhile_concat_neg _ _ _ dropped,
        if_neg (append_ne_nil_of_right_ne_nil _ (cons_ne_nil c []))]
      rfl

theorem rdropWhile_congr {blank other : α → Bool} {items : List α}
    (same : ∀ item ∈ items, blank item = other item) : items.rdropWhile blank = items.rdropWhile other := by
  induction items using reverseRecOn with
  | nil => rfl
  | append_singleton items item ih =>
    have before := ih fun earlier member => same earlier (mem_append_left _ member)
    rw [rdropWhile_concat, rdropWhile_concat, same item (mem_append_right _ mem_cons_self), before]

section Ends

variable [DecidableEq α] {end_ : α}

/-- Drop the last item if it is the given one. -/
def dropEnd (end_ : α) (items : List α) : List α := if items.getLast? = some end_ then items.dropLast else items

theorem dropEnd_concat (items : List α) : (items ++ [end_]).dropEnd end_ = items := by
  rw [dropEnd, if_pos getLast?_concat, dropLast_concat]

theorem dropEnd_of_ne {items : List α} (differs : items.getLast? ≠ some end_) : items.dropEnd end_ = items := if_neg differs

theorem dropEnd_sublist (end_ : α) (items : List α) : items.dropEnd end_ <+ items := by
  rw [dropEnd]
  split
  · exact items.dropLast_sublist
  · exact Sublist.refl _

theorem iterate_dropEnd_sublist (end_ : α) (items : List α) (count : ℕ) : (dropEnd end_)^[count] items <+ items := by
  induction count with
  | zero => exact Sublist.refl items
  | succ count ih =>
    rw [Function.iterate_succ_apply']
    exact (dropEnd_sublist end_ _).trans ih

/-- Dropping an end again and again drops as many as there are. -/
theorem iterate_dropEnd (end_ : α) (items : List α) (count : ℕ) :
    (dropEnd end_)^[count] items = items.rdrop (min count (items.rtakeWhile fun item => item = end_).length) := by
  induction count generalizing items with
  | zero => rw [Nat.zero_min, rdrop_zero, Function.iterate_zero_apply]
  | succ count ih =>
    rw [Function.iterate_succ_apply, ih]
    rcases items.eq_nil_or_concat' with rfl | ⟨front, last, rfl⟩
    · have nothing : dropEnd end_ [] = [] := dropEnd_of_ne (Option.some_ne_none end_).symm
      rw [nothing, rdrop_nil, rdrop_nil]
    · by_cases same : last = end_
      · subst same
        have taken := rtakeWhile_concat_pos (fun item => decide (item = last)) front last (decide_eq_true rfl)
        rw [dropEnd_concat, taken, length_append, length_singleton, Nat.add_min_add_right, rdrop_concat_succ]
      · have differs : (front ++ [last]).getLast? ≠ some end_ := by simpa using same
        rw [dropEnd_of_ne differs, rtakeWhile_concat_neg _ _ _ (by simpa using same), length_nil, Nat.min_zero,
          Nat.min_zero]

end Ends

end List
