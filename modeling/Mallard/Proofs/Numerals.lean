import Mathlib.Data.Finset.Card
import Mathlib.Data.List.Nodup
import Mathlib.Data.Nat.Notation

/-! # Any number of distinct lines

The decimal numerals are distinct strings of digits, so they give lists of any number of distinct
lines that are free of terminators.
-/

namespace Mallard

/-- The numerals below a bound. -/
def numerals (count : ℕ) : List String := (List.range count).map Nat.repr

theorem numeral_injective {n m : ℕ} (same : n.repr = m.repr) : n = m := by
  have digits : Nat.toDigits 10 n = Nat.toDigits 10 m := by
    rw [← Nat.toList_repr, ← Nat.toList_repr, same]
  have values := congrArg (Nat.ofDigitChars 10 · 0) digits
  simpa only [Nat.ofDigitChars_ten_toDigits] using values

theorem nodup_numerals (count : ℕ) : (numerals count).Nodup :=
  List.nodup_range.map (fun _ _ same => numeral_injective same)

theorem card_numerals (count : ℕ) : (numerals count).toFinset.card = count := by
  rw [List.toFinset_card_of_nodup (nodup_numerals count), numerals, List.length_map, List.length_range]

/-- A character that is no digit occurs in no numeral. -/
theorem notMem_numeral {c : Char} (notDigit : c.isDigit = false) {count : ℕ} {numeral : String}
    (member : numeral ∈ numerals count) : c ∉ numeral.toList := by
  intro occurs
  obtain ⟨n, _, rfl⟩ := List.mem_map.mp member
  rw [Nat.toList_repr] at occurs
  have digit := Nat.isDigit_of_mem_toDigits (by decide) (by decide) occurs
  rw [notDigit] at digit
  contradiction

end Mallard
