import Mallard.Proofs.Splitting

/-! # Scanning bytes is safe on every text

The splitting loop walks the bytes of a text and slices it, and slicing panics off a character
boundary. In every iteration of the loop, whatever characters the text mixes with its terminators, the
cursors are in order and the slices that it takes begin and end at boundaries.
-/

namespace Mallard

/-- The byte at an index is the whole encoding of a character of the text. -/
def WholeChar (text : String) (index : ℕ) (c : Char) : Prop :=
  ∃ before after, text.toList = before ++ c :: after ∧ (utf8 before).length = index ∧
    String.utf8EncodeChar c = [UInt8.ofNat c.toNat]

/-- No byte of a longer character looks like a terminator. -/
theorem wholeChar_of_terminator {text : String} {index : ℕ} {c : Char} (terminator : c = '\r' ∨ c = '\n')
    (here : (asBytes text)[index]? = some (UInt8.ofNat c.toNat)) : WholeChar text index c := by
  have ascii : c.toNat < 128 := by rcases terminator with rfl | rfl <;> decide
  obtain ⟨bound, value⟩ := List.getElem?_eq_some_iff.mp here
  have split : utf8 text.toList = (asBytes text).take index ++ UInt8.ofNat c.toNat :: (asBytes text).drop (index + 1) := by
    rw [← value, List.getElem_cons_drop, List.take_append_drop]
    rfl
  obtain ⟨before, after, shape, spelled, _⟩ := utf8_eq_append_cons ascii split
  refine ⟨before, after, shape, ?_, utf8EncodeChar_ascii ascii⟩
  rw [spelled, List.length_take_of_le bound.le]

/-- A slice that was taken begins and ends at a boundary. -/
theorem boundaries_of_strSlice {text slice : String} {start stop : ℕ} (sliced : strSlice text start stop = .ok slice) :
    start ≤ stop ∧ isCharBoundary (asBytes text) start ∧ isCharBoundary (asBytes text) stop := by
  rw [strSlice] at sliced
  split at sliced
  · assumption
  · cases sliced

namespace Scan

/-- What an iteration may rely on. -/
structure Safe (text : String) (scan : Scan) : Prop where
  ordered : scan.start ≤ scan.i
  inside : scan.i ≤ (asBytes text).length
  /-- An iteration does not panic, and it moves on. -/
  advances : scan.i < (asBytes text).length → ∃ next, scan.step text = .ok (some next) ∧ scan.i < next.i
  /-- The lookahead reads inside the text. -/
  lookahead : ∃ pair, lfFollows (asBytes text) scan.i = .ok pair ∧
    (pair = true ↔ scan.i + 1 < (asBytes text).length ∧ (asBytes text)[scan.i + 1]? = some 0x0A)
  /-- The slice `s[start..i]` that is taken at a terminator. -/
  line : (asBytes text)[scan.i]? = some 0x0D ∨ (asBytes text)[scan.i]? = some 0x0A →
    isCharBoundary (asBytes text) scan.start ∧ isCharBoundary (asBytes text) scan.i ∧
      ∃ line, strSlice text scan.start scan.i = .ok line
  /-- The slice `s[start..]` that is taken at the end. -/
  tail : isCharBoundary (asBytes text) scan.start ∧ isCharBoundary (asBytes text) (asBytes text).length ∧
    ∃ tail, strSlice text scan.start (asBytes text).length = .ok tail

variable {text : String} {before rest : List Char} {passed ahead : List UInt8} {scan : Scan}

/-- In front of a terminator, the loop takes a slice of whole characters. -/
theorem Stands.exists_slice (stands : Stands text before rest passed ahead scan)
    (terminator : (asBytes text)[scan.i]? = some 0x0D ∨ (asBytes text)[scan.i]? = some 0x0A) :
    ∃ line, strSlice text scan.start scan.i = .ok line := by
  have here : (asBytes text)[scan.i]? = ahead[0]? := stands.getElem? 0
  have starts {c : Char} (ascii : c.toNat < 128) (first : ahead[0]? = some (UInt8.ofNat c.toNat)) :
      ∃ line, strSlice text scan.start scan.i = .ok line := by
    rw [← List.head?_eq_getElem?] at first
    obtain ⟨later, rfl⟩ := List.head?_eq_some_iff.mp first
    obtain ⟨line, after, shape, spelled, _⟩ := utf8_eq_append_cons ascii stands.bytes
    exact ⟨_, stands.sliced shape spelled⟩
  rw [here] at terminator
  rcases terminator with cr | lf
  · exact starts (by decide : '\r'.toNat < 128) cr
  · exact starts (by decide : '\n'.toNat < 128) lf

theorem Stands.exists_tail (stands : Stands text before rest passed ahead scan) :
    ∃ tail, strSlice text scan.start (asBytes text).length = .ok tail := by
  have split : text.toList = before ++ (rest ++ []) := by rw [stands.split, List.append_nil]
  have slice := strSlice_utf8 split
  rw [← stands.start, ← stands.split, ← asBytes_eq] at slice
  exact ⟨_, slice⟩

theorem Sound.safe (sound : Sound text scan) : Safe text scan := by
  obtain ⟨before, rest, passed, ahead, stands⟩ := sound
  refine ⟨?_, ?_, ?_, ?_, ?_, ?_⟩
  · rw [stands.i]
    exact Nat.le_add_right _ _
  · rw [stands.length]
    exact Nat.le_add_right _ _
  · intro more
    obtain ⟨next?, returned, ended, _⟩ := Sound.step ⟨before, rest, passed, ahead, stands⟩
    cases next? with
    | none => exact absurd (ended rfl) more.ne
    | some next => exact ⟨next, returned, (step_advances returned).2⟩
  · refine ⟨_, lfFollows_eq _ _, ?_⟩
    rw [decide_eq_true_iff]
    exact ⟨fun next => ⟨(List.getElem?_eq_some_iff.mp next).1, next⟩, And.right⟩
  · intro terminator
    obtain ⟨line, sliced⟩ := stands.exists_slice terminator
    obtain ⟨_, starts, stops⟩ := boundaries_of_strSlice sliced
    exact ⟨starts, stops, line, sliced⟩
  · obtain ⟨tail, sliced⟩ := stands.exists_tail
    obtain ⟨_, starts, stops⟩ := boundaries_of_strSlice sliced
    exact ⟨starts, stops, tail, sliced⟩

/-- Every iteration is safe, no byte of a longer character is taken for a terminator, the loop ends at
the end of the text, and its slices are the lines of the characters. -/
theorem scan_safe (text : String) :
    (∀ scan, Reached text scan → Safe text scan) ∧
      (∀ index c, c = '\r' ∨ c = '\n' → (asBytes text)[index]? = some (UInt8.ofNat c.toNat) → WholeChar text index c) ∧
      (∃ final, loop text ⟨0, 0, []⟩ = .ok final ∧ Reached text final ∧ final.i = (asBytes text).length) ∧
      splitOnLineEndings text = .ok ((LineTerminators.lines '\r' '\n' text.toList).map String.ofList) :=
  ⟨fun _ reached => reached.sound.safe, fun _ _ terminator here => wholeChar_of_terminator terminator here,
    Reached.initial.loop, splitOnLineEndings_eq text⟩

end Scan

end Mallard
