import Mallard.Model.Core.LineBuffer
import Mallard.Proofs.Utf8

/-! # The splitting loop computes the lines of the text

The cursors of the loop are byte positions, and it slices only at terminators. `Stands` says where the
loop is between two iterations: `start` stands behind whole characters, and no byte between the cursors
is a terminator. A byte that is one is a whole character, so the slice in front of it is made of whole
characters as well, and the loop stands behind the terminator with one more line collected.
-/

namespace Mallard

open LineTerminators

/-- The lines of a text. -/
def textLines (text : String) : List String := (lines '\r' '\n' text.toList).map String.ofList

theorem cr_ne_lf : '\r' ≠ '\n' := by decide

/-- A line that can stand between terminators. -/
def BareText (line : String) : Prop := Bare '\r' '\n' line.toList

theorem bare_of_mem_textLines {text line : String} (member : line ∈ textLines text) : BareText line := by
  obtain ⟨chars, present, rfl⟩ := List.mem_map.mp member
  rw [BareText, String.toList_ofList]
  exact bare_of_mem_lines cr_ne_lf present

/-- A line whose bytes are no terminators has none. -/
theorem bare_of_bare_utf8 {line : List Char} (bare : Bare 0x0D 0x0A (utf8 line)) : Bare '\r' '\n' line := by
  refine ⟨fun cr => bare.1 ?_, fun lf => bare.2 ?_⟩
  · exact List.mem_flatMap.mpr ⟨'\r', cr, by decide⟩
  · exact List.mem_flatMap.mpr ⟨'\n', lf, by decide⟩

/-- A CR begins a CRLF or is a terminator of its own, depending on what follows. -/
theorem exists_cr_ending (after : List Char) :
    ∃ ending rest, '\r' :: after = Ending.symbols '\r' '\n' ending ++ rest ∧ ending.Fits '\n' rest ∧
      (Ending.symbols '\r' '\n' ending).length = if after.head? = some '\n' then 2 else 1 := by
  by_cases follows : after.head? = some '\n'
  · obtain ⟨rest, rfl⟩ := List.head?_eq_some_iff.mp follows
    exact ⟨.crlf, rest, rfl, ⟨by decide, by simp⟩, rfl⟩
  · exact ⟨.cr, after, rfl, ⟨by decide, fun _ => follows⟩, (if_neg follows).symm⟩

theorem length_utf8_symbols (ending : Ending) :
    (utf8 (ending.symbols '\r' '\n')).length = (ending.symbols '\r' '\n').length := by
  cases ending <;> rfl

namespace Scan

/-- A byte that is no terminator moves the second cursor. -/
theorem step_other {text : String} {scan : Scan} {byte : UInt8} (here : (asBytes text)[scan.i]? = some byte)
    (notCr : byte ≠ 0x0D) (notLf : byte ≠ 0x0A) :
    scan.step text = .ok (some { scan with i := scan.i + 1 }) := by
  have inside := (List.getElem?_eq_some_iff.mp here).1
  rw [step, if_pos inside, Vec.get_of_getElem? here]
  simp only [Outcome.ok_bind, if_neg notCr, if_neg notLf]
  rfl

/-- The lookahead never reads beyond the bytes. -/
theorem lfFollows_eq (bytes : List UInt8) (i : ℕ) :
    lfFollows bytes i = .ok (decide (bytes[i + 1]? = some 0x0A)) := by
  rw [lfFollows]
  split
  · next within =>
    have value := List.getElem?_eq_getElem within
    rw [Vec.get_of_getElem? value, Outcome.ok_bind, value]
    simp only [Option.some.injEq]
    rfl
  · next beyond =>
    rw [List.getElem?_eq_none (Nat.not_lt.mp beyond)]
    rfl

theorem step_lf {text : String} (scan : Scan) {line : String} (here : (asBytes text)[scan.i]? = some 0x0A)
    (sliced : strSlice text scan.start scan.i = .ok line) :
    scan.step text = .ok (some ⟨scan.i + 1, scan.i + 1, scan.lines ++ [line]⟩) := by
  have inside := (List.getElem?_eq_some_iff.mp here).1
  rw [step, if_pos inside, Vec.get_of_getElem? here]
  simp only [Outcome.ok_bind, sliced]
  rfl

theorem step_cr {text : String} (scan : Scan) {line : String} (here : (asBytes text)[scan.i]? = some 0x0D)
    (sliced : strSlice text scan.start scan.i = .ok line) {width : ℕ}
    (wide : width = if (asBytes text)[scan.i + 1]? = some 0x0A then 2 else 1) :
    scan.step text = .ok (some ⟨scan.i + width, scan.i + width, scan.lines ++ [line]⟩) := by
  have inside := (List.getElem?_eq_some_iff.mp here).1
  rw [step, if_pos inside, Vec.get_of_getElem? here]
  by_cases follows : (asBytes text)[scan.i + 1]? = some 0x0A
  · rw [if_pos follows] at wide
    simp only [Outcome.ok_bind, sliced, lfFollows_eq, decide_eq_true follows, wide]
    rfl
  · rw [if_neg follows] at wide
    simp only [Outcome.ok_bind, sliced, lfFollows_eq, decide_eq_false follows, wide]
    rfl

/-- Where the loop is between two iterations: `start` stands behind the characters `before`, `i` behind
the bytes `passed` of the line under way, and `ahead` is still to be read. -/
structure Stands (text : String) (before rest : List Char) (passed ahead : List UInt8) (scan : Scan) : Prop where
  split : text.toList = before ++ rest
  bytes : utf8 rest = passed ++ ahead
  start : scan.start = (utf8 before).length
  i : scan.i = scan.start + passed.length
  bare : Bare 0x0D 0x0A passed
  collected : textLines text = scan.lines ++ (LineTerminators.lines '\r' '\n' rest).map String.ofList

theorem stands_initial (text : String) : Stands text [] text.toList [] (asBytes text) ⟨0, 0, []⟩ where
  split := rfl
  bytes := rfl
  start := rfl
  i := rfl
  bare := bare_nil
  collected := rfl

namespace Stands

variable {text : String} {before rest : List Char} {passed ahead : List UInt8} {scan : Scan}

theorem whole (stands : Stands text before rest passed ahead scan) :
    asBytes text = utf8 before ++ (passed ++ ahead) := by
  rw [asBytes_eq, stands.split, utf8_append, stands.bytes]

/-- What the loop reads next is what lies ahead. -/
theorem getElem? (stands : Stands text before rest passed ahead scan) (offset : ℕ) :
    (asBytes text)[scan.i + offset]? = ahead[offset]? := by
  have place : scan.i = (utf8 before ++ passed).length := by rw [stands.i, stands.start, List.length_append]
  rw [stands.whole, ← List.append_assoc, place, List.getElem?_append_right (Nat.le_add_right _ _),
    Nat.add_sub_cancel_left]

theorem length (stands : Stands text before rest passed ahead scan) :
    (asBytes text).length = scan.i + ahead.length := by
  rw [stands.whole, List.length_append, List.length_append, stands.i, stands.start, Nat.add_assoc]

/-- A byte of the line under way is passed. -/
theorem step_other {byte : UInt8} (stands : Stands text before rest passed (byte :: ahead) scan)
    (notCr : byte ≠ 0x0D) (notLf : byte ≠ 0x0A) :
    ∃ next, scan.step text = .ok (some next) ∧ Stands text before rest (passed ++ [byte]) ahead next := by
  have here : (asBytes text)[scan.i]? = some byte := stands.getElem? 0
  refine ⟨_, Scan.step_other here notCr notLf, ?_⟩
  refine ⟨stands.split, ?_, stands.start, ?_, ?_, stands.collected⟩
  · rw [stands.bytes, List.append_assoc, List.singleton_append]
  · rw [List.length_append, List.length_singleton, ← Nat.add_assoc, ← stands.i]
  · obtain ⟨noCr, noLf⟩ := stands.bare
    simp only [Bare, List.mem_append, List.mem_singleton, not_or]
    exact ⟨⟨noCr, notCr.symm⟩, noLf, notLf.symm⟩

/-- In front of a terminator, the line under way is the characters of the bytes passed. -/
theorem sliced {line after : List Char} (stands : Stands text before rest passed ahead scan)
    (shape : rest = line ++ after) (spelled : utf8 line = passed) :
    strSlice text scan.start scan.i = .ok (String.ofList line) := by
  have split : text.toList = before ++ (line ++ after) := shape ▸ stands.split
  have slice := strSlice_utf8 split
  rwa [utf8_append, List.length_append, spelled, ← stands.start, ← stands.i] at slice

/-- Behind a terminator, the loop stands in front of a new line with the last one collected. -/
theorem behind {line after : List Char} {ending : Ending} (stands : Stands text before rest passed ahead scan)
    (shape : rest = line ++ (ending.symbols '\r' '\n' ++ after)) (spelled : utf8 line = passed)
    (fits : ending.Fits '\n' after) :
    Stands text (before ++ (line ++ ending.symbols '\r' '\n')) after [] (utf8 after)
      ⟨scan.i + (ending.symbols '\r' '\n').length, scan.i + (ending.symbols '\r' '\n').length,
        scan.lines ++ [String.ofList line]⟩ := by
  have bare : Bare '\r' '\n' line := bare_of_bare_utf8 (spelled ▸ stands.bare)
  refine ⟨?_, rfl, ?_, rfl, bare_nil, ?_⟩
  · rw [stands.split, shape]
    simp only [List.append_assoc]
  · rw [utf8_append, utf8_append, List.length_append, List.length_append, spelled, length_utf8_symbols,
      ← Nat.add_assoc, ← stands.start, ← stands.i]
  · rw [stands.collected, shape, lines_cons cr_ne_lf bare fits, List.map_cons, List.append_assoc,
      List.singleton_append]

/-- A terminator ends the line under way. -/
theorem step_terminator {byte : UInt8} (stands : Stands text before rest passed (byte :: ahead) scan)
    (terminator : byte = 0x0D ∨ byte = 0x0A) :
    ∃ before' rest' next, scan.step text = .ok (some next) ∧ Stands text before' rest' [] (utf8 rest') next := by
  have here : (asBytes text)[scan.i]? = some byte := stands.getElem? 0
  rcases terminator with rfl | rfl
  · obtain ⟨line, after, shape, spelled, follows⟩ := utf8_eq_append_cons (by decide : '\r'.toNat < 128) stands.bytes
    obtain ⟨ending, rest', symbols, fits, width⟩ := exists_cr_ending after
    have lookahead : (asBytes text)[scan.i + 1]? = some 0x0A ↔ after.head? = some '\n' := by
      rw [stands.getElem? 1, List.getElem?_cons_succ, ← List.head?_eq_getElem?, ← follows]
      exact head?_utf8 (by decide : '\n'.toNat < 128) after
    simp only [← lookahead] at width
    exact ⟨_, rest', _, step_cr scan here (stands.sliced shape spelled) width,
      stands.behind (symbols ▸ shape) spelled fits⟩
  · obtain ⟨line, after, shape, spelled, _⟩ := utf8_eq_append_cons (by decide : '\n'.toNat < 128) stands.bytes
    have ends : rest = line ++ (Ending.lf.symbols '\r' '\n' ++ after) := shape
    exact ⟨_, after, _, step_lf scan here (stands.sliced shape spelled),
      stands.behind ends spelled ⟨by decide, by simp⟩⟩

end Stands

/-- The loop stands somewhere in the text. -/
def Sound (text : String) (scan : Scan) : Prop :=
  ∃ before rest passed ahead, Stands text before rest passed ahead scan

/-- An iteration never panics, and the loop stops only at the end of the text. -/
theorem Sound.step {text : String} {scan : Scan} (sound : Sound text scan) :
    ∃ next?, scan.step text = .ok next? ∧ (next? = none → scan.i = (asBytes text).length) ∧
      ∀ next, next? = some next → Sound text next := by
  obtain ⟨before, rest, passed, ahead, stands⟩ := sound
  cases ahead with
  | nil =>
    have ended : scan.i = (asBytes text).length := stands.length.symm
    refine ⟨none, ?_, fun _ => ended, fun next same => absurd same.symm (Option.some_ne_none next)⟩
    rw [Scan.step, if_neg (ended ▸ lt_irrefl _)]
    rfl
  | cons byte ahead =>
    have goes {next : Scan} (stepped : scan.step text = .ok (some next)) (sound : Sound text next) :
        ∃ next?, scan.step text = .ok next? ∧ (next? = none → scan.i = (asBytes text).length) ∧
          ∀ next, next? = some next → Sound text next :=
      ⟨some next, stepped, fun same => absurd same (Option.some_ne_none next),
        fun _ same => Option.some.inj same ▸ sound⟩
    by_cases terminator : byte = 0x0D ∨ byte = 0x0A
    · obtain ⟨before', rest', next, stepped, behind⟩ := stands.step_terminator terminator
      exact goes stepped ⟨_, _, _, _, behind⟩
    · obtain ⟨notCr, notLf⟩ := not_or.mp terminator
      obtain ⟨next, stepped, passes⟩ := stands.step_other notCr notLf
      exact goes stepped ⟨_, _, _, _, passes⟩

/-- The states of the loop in front of its iterations, and behind the last one. -/
inductive Reached (text : String) : Scan → Prop
  | initial : Reached text ⟨0, 0, []⟩
  | next {scan next : Scan} (reached : Reached text scan) (stepped : scan.step text = .ok (some next)) :
      Reached text next

theorem Reached.sound {text : String} {scan : Scan} (reached : Reached text scan) : Sound text scan := by
  induction reached with
  | initial => exact ⟨_, _, _, _, stands_initial text⟩
  | next _ stepped sound =>
    obtain ⟨next?, returned, _, sound⟩ := sound.step
    rw [stepped] at returned
    cases returned
    exact sound _ rfl

/-- The loop reaches the end of the text. -/
theorem Reached.loop {text : String} {scan : Scan} (reached : Reached text scan) :
    ∃ final, scan.loop text = .ok final ∧ Reached text final ∧ final.i = (asBytes text).length := by
  fun_induction Scan.loop text scan with
  | case1 scan panic failed =>
    obtain ⟨next?, returned, _⟩ := reached.sound.step
    rw [failed] at returned
    cases returned
  | case2 scan stopped =>
    obtain ⟨next?, returned, ended, _⟩ := reached.sound.step
    rw [stopped] at returned
    cases returned
    exact ⟨scan, rfl, reached, ended rfl⟩
  | case3 scan next stepped ih => exact ih (reached.next stepped)

/-- What is left between `start` and the end of the text is its last line, if any. -/
theorem Sound.tail {text : String} {scan : Scan} (sound : Sound text scan) (ended : scan.i = (asBytes text).length) :
    ∃ tail, strSlice text scan.start (asBytes text).length = .ok tail ∧
      (if tail.isEmpty then scan.lines else scan.lines ++ [tail]) = textLines text := by
  obtain ⟨before, rest, passed, ahead, stands⟩ := sound
  obtain rfl : ahead = [] := by
    have size := stands.length
    rw [ended] at size
    exact List.eq_nil_of_length_eq_zero (Nat.left_eq_add.mp size)
  have spelled : utf8 rest = passed := by rw [stands.bytes, List.append_nil]
  have slice := stands.sliced (List.append_nil rest).symm spelled
  rw [ended] at slice
  refine ⟨_, slice, ?_⟩
  rw [stands.collected]
  by_cases empty : rest = []
  · subst empty
    simp
  · have opened : (String.ofList rest).isEmpty = false := by
      rw [Bool.eq_false_iff, ne_eq, String.isEmpty_iff, String.ofList_eq_empty_iff]
      exact empty
    rw [opened, lines_tail (bare_of_bare_utf8 (spelled ▸ stands.bare)) empty]
    rfl

end Scan

/-- Splitting never panics and returns the lines of the text. -/
theorem splitOnLineEndings_eq (text : String) : splitOnLineEndings text = .ok (textLines text) := by
  obtain ⟨scan, looped, reached, ended⟩ := (Scan.Reached.initial : Scan.Reached text _).loop
  obtain ⟨tail, sliced, collected⟩ := reached.sound.tail ended
  rw [splitOnLineEndings]
  simp only [looped, Outcome.ok_bind, sliced, collected]
  rfl

end Mallard
