import Mathlib.Data.List.DropRight
import Mathlib.Data.List.Flatten
import Mathlib.Tactic.Common

/-! # Texts as sequences of terminated lines

A text over an alphabet with a carriage return `cr` and a line feed `lf` is cut into lines at every
`lf`, at every `cr lf` taken as one terminator, and at every other `cr`. Text after the last
terminator is a line of its own unless it is empty. `Derives` is the grammar, `pieces` a scanner for
it; `text_induction` is the induction rule that goes from one terminator to the next, and the facts
about joining, normalizing and recoding a text all follow it.
-/

namespace LineTerminators

/-- What a line ends with: one of three terminators, or the end of the text. -/
inductive Ending where
  | lf
  | crlf
  | cr
  | eof
deriving DecidableEq, Repr

variable {α β : Type*}

/-- The symbols an ending occupies in the text. -/
def Ending.symbols (cr lf : α) : Ending → List α
  | .lf => [lf]
  | .crlf => [cr, lf]
  | .cr => [cr]
  | .eof => []

/-- Neither terminator symbol occurs. -/
def Bare (cr lf : α) (line : List α) : Prop := cr ∉ line ∧ lf ∉ line

/-- An ending that may stand before `rest`: it terminates, and it does not cut a `cr lf` in two. -/
def Ending.Fits (lf : α) (ending : Ending) (rest : List α) : Prop :=
  ending ≠ .eof ∧ (ending = .cr → rest.head? ≠ some lf)

/-- The line grammar: each line with what ends it, from left to right. -/
inductive Derives (cr lf : α) : List α → List (List α × Ending) → Prop
  | nil : Derives cr lf [] []
  | tail {line : List α} (bare : Bare cr lf line) (nonempty : line ≠ []) :
      Derives cr lf line [(line, .eof)]
  | cons {line rest : List α} {ending : Ending} {pieces : List (List α × Ending)}
      (bare : Bare cr lf line) (fits : ending.Fits lf rest) (more : Derives cr lf rest pieces) :
      Derives cr lf (line ++ (ending.symbols cr lf ++ rest)) ((line, ending) :: pieces)

variable [DecidableEq α]

/-- Scan `rest` with the symbols of the current line so far in `line`. -/
def piecesFrom (cr lf : α) (line : List α) : List α → List (List α × Ending)
  | [] => if line = [] then [] else [(line, .eof)]
  | symbol :: rest =>
    if symbol = lf then (line, .lf) :: piecesFrom cr lf [] rest
    else if symbol = cr then
      match rest with
      | [] => [(line, .cr)]
      | next :: after =>
        if next = lf then (line, .crlf) :: piecesFrom cr lf [] after
        else (line, .cr) :: piecesFrom cr lf [] (next :: after)
    else piecesFrom cr lf (line ++ [symbol]) rest

/-- The lines of a text with their endings. -/
def pieces (cr lf : α) (text : List α) : List (List α × Ending) := piecesFrom cr lf [] text

/-- The lines of a text. -/
def lines (cr lf : α) (text : List α) : List (List α) := (pieces cr lf text).map Prod.fst

@[simp] theorem pieces_nil (cr lf : α) : pieces cr lf [] = [] := rfl

@[simp] theorem lines_nil (cr lf : α) : lines cr lf [] = [] := rfl

section Scanning

variable {cr lf : α}

omit [DecidableEq α] in
@[simp] theorem bare_nil : Bare cr lf [] := ⟨List.not_mem_nil, List.not_mem_nil⟩

omit [DecidableEq α] in
theorem bare_cons {symbol : α} {line : List α} :
    Bare cr lf (symbol :: line) ↔ symbol ≠ cr ∧ symbol ≠ lf ∧ Bare cr lf line := by
  simp only [Bare, List.mem_cons, not_or, ne_comm (a := symbol)]
  tauto

theorem piecesFrom_lf (line rest : List α) :
    piecesFrom cr lf line (lf :: rest) = (line, .lf) :: pieces cr lf rest := by
  rw [piecesFrom.eq_def]
  exact if_pos rfl

theorem piecesFrom_other {symbol : α} (notCr : symbol ≠ cr) (notLf : symbol ≠ lf) (line rest : List α) :
    piecesFrom cr lf line (symbol :: rest) = piecesFrom cr lf (line ++ [symbol]) rest := by
  rw [piecesFrom.eq_def]
  exact (if_neg notLf).trans (if_neg notCr)

/-- Symbols of the line under way are only collected. -/
theorem piecesFrom_bare (line : List α) {more : List α} (bare : Bare cr lf more) (rest : List α) :
    piecesFrom cr lf line (more ++ rest) = piecesFrom cr lf (line ++ more) rest := by
  induction more generalizing line with
  | nil => rw [List.nil_append, List.append_nil]
  | cons symbol more ih =>
    obtain ⟨notCr, notLf, bare⟩ := bare_cons.mp bare
    rw [List.cons_append, piecesFrom_other notCr notLf, ih _ bare, List.append_assoc, List.singleton_append]

/-- A terminator ends the line under way and the scan starts afresh behind it. -/
theorem piecesFrom_ending (distinct : cr ≠ lf) {line rest : List α} {ending : Ending}
    (fits : ending.Fits lf rest) :
    piecesFrom cr lf line (ending.symbols cr lf ++ rest) = (line, ending) :: pieces cr lf rest := by
  cases ending with
  | lf => exact piecesFrom_lf line rest
  | crlf => simp [Ending.symbols, piecesFrom, pieces, distinct]
  | cr =>
    have follows := fits.2 rfl
    cases rest with
    | nil => simp [Ending.symbols, piecesFrom, pieces, distinct]
    | cons next after =>
      have notLf : next ≠ lf := by simpa using follows
      simp [Ending.symbols, piecesFrom, pieces, distinct, notLf]
  | eof => exact absurd rfl fits.1

theorem pieces_cons (distinct : cr ≠ lf) {line rest : List α} {ending : Ending}
    (bare : Bare cr lf line) (fits : ending.Fits lf rest) :
    pieces cr lf (line ++ (ending.symbols cr lf ++ rest)) = (line, ending) :: pieces cr lf rest := by
  rw [pieces, piecesFrom_bare [] bare, List.nil_append, piecesFrom_ending distinct fits]

theorem pieces_tail {line : List α} (bare : Bare cr lf line) (nonempty : line ≠ []) :
    pieces cr lf line = [(line, .eof)] := by
  have scanned := piecesFrom_bare [] bare []
  rw [List.append_nil, List.nil_append] at scanned
  rw [pieces, scanned, piecesFrom, if_neg nonempty]

theorem lines_cons (distinct : cr ≠ lf) {line rest : List α} {ending : Ending}
    (bare : Bare cr lf line) (fits : ending.Fits lf rest) :
    lines cr lf (line ++ (ending.symbols cr lf ++ rest)) = line :: lines cr lf rest := by
  rw [lines, pieces_cons distinct bare fits]
  rfl

theorem lines_tail {line : List α} (bare : Bare cr lf line) (nonempty : line ≠ []) :
    lines cr lf line = [line] := by
  rw [lines, pieces_tail bare nonempty]
  rfl

/-- A text with a terminator symbol has a first terminator. -/
theorem exists_first_ending {text : List α} (terminated : ¬ Bare cr lf text) :
    ∃ line ending rest, Bare cr lf line ∧ Ending.Fits lf ending rest ∧
      text = line ++ (ending.symbols cr lf ++ rest) := by
  induction text with
  | nil => exact absurd bare_nil terminated
  | cons symbol text ih =>
    by_cases isLf : symbol = lf
    · exact ⟨[], .lf, text, bare_nil, ⟨by decide, by simp⟩, by simp [Ending.symbols, isLf]⟩
    by_cases isCr : symbol = cr
    · by_cases follows : text.head? = some lf
      · obtain ⟨rest, rfl⟩ := List.head?_eq_some_iff.mp follows
        exact ⟨[], .crlf, rest, bare_nil, ⟨by decide, by simp⟩, by simp [Ending.symbols, isCr]⟩
      · exact ⟨[], .cr, text, bare_nil, ⟨by decide, fun _ => follows⟩, by simp [Ending.symbols, isCr]⟩
    · obtain ⟨line, ending, rest, bare, fits, rfl⟩ :=
        ih (fun bare => terminated (bare_cons.mpr ⟨isCr, isLf, bare⟩))
      exact ⟨symbol :: line, ending, rest, bare_cons.mpr ⟨isCr, isLf, bare⟩, fits, rfl⟩

/-- Induction from one terminator to the next, down to the text behind the last one. -/
theorem text_induction (cr lf : α) {motive : List α → Prop} (nil : motive [])
    (tail : ∀ line, Bare cr lf line → line ≠ [] → motive line)
    (cons : ∀ line ending rest, Bare cr lf line → Ending.Fits lf ending rest → motive rest →
      motive (line ++ (ending.symbols cr lf ++ rest))) (text : List α) : motive text := by
  induction length : text.length using Nat.strong_induction_on generalizing text with
  | h size ih =>
    by_cases unterminated : Bare cr lf text
    · by_cases empty : text = []
      · exact empty ▸ nil
      · exact tail text unterminated empty
    · obtain ⟨line, ending, rest, bare, fits, rfl⟩ := exists_first_ending unterminated
      refine cons line ending rest bare fits (ih rest.length ?_ rest rfl)
      have shorter : 0 < (ending.symbols cr lf).length := by
        cases ending with
        | eof => exact absurd rfl fits.1
        | _ => simp [Ending.symbols]
      simp only [List.length_append] at length
      omega

/-- Every text is derived by what the scanner returns. -/
theorem derives_pieces (distinct : cr ≠ lf) (text : List α) :
    Derives cr lf text (pieces cr lf text) := by
  induction text using text_induction cr lf with
  | nil => exact .nil
  | tail line bare nonempty => exact pieces_tail bare nonempty ▸ .tail bare nonempty
  | cons line ending rest bare fits ih => exact pieces_cons distinct bare fits ▸ .cons bare fits ih

/-- The grammar is unambiguous: only the scanner's result derives a text. -/
theorem Derives.eq_pieces (distinct : cr ≠ lf) {text : List α} {found : List (List α × Ending)}
    (derives : Derives cr lf text found) : found = pieces cr lf text := by
  induction derives with
  | nil => rfl
  | tail bare nonempty => rw [pieces_tail bare nonempty]
  | cons bare fits _ ih => rw [pieces_cons distinct bare fits, ih]

omit [DecidableEq α] in
theorem Derives.text_eq {text : List α} {found : List (List α × Ending)}
    (derives : Derives cr lf text found) :
    text = found.flatMap fun piece => piece.1 ++ piece.2.symbols cr lf := by
  induction derives with
  | nil => rfl
  | tail => simp [Ending.symbols]
  | cons _ _ _ ih => rw [List.flatMap_cons, ← ih, List.append_assoc]

theorem bare_of_mem_lines (distinct : cr ≠ lf) {text line : List α}
    (member : line ∈ lines cr lf text) : Bare cr lf line := by
  induction text using text_induction cr lf with
  | nil => simp at member
  | tail text bare nonempty =>
    rw [lines_tail bare nonempty, List.mem_singleton] at member
    exact member ▸ bare
  | cons first ending rest bare fits ih =>
    rw [lines_cons distinct bare fits, List.mem_cons] at member
    rcases member with rfl | member
    · exact bare
    · exact ih member

/-- A search that passes by the terminators finds in the first line with a hit what it finds in the text. -/
theorem find?_lines (distinct : cr ≠ lf) {wanted : α → Bool} (passesCr : wanted cr = false)
    (passesLf : wanted lf = false) (text : List α) :
    (lines cr lf text).findSome? (List.find? wanted) = text.find? wanted := by
  have passes (ending : Ending) : (ending.symbols cr lf).find? wanted = none := by
    cases ending <;> simp [Ending.symbols, passesCr, passesLf]
  induction text using text_induction cr lf with
  | nil => rfl
  | tail line bare nonempty =>
    rw [lines_tail bare nonempty, List.findSome?_singleton]
  | cons line ending rest bare fits ih =>
    rw [lines_cons distinct bare fits, List.find?_append, List.find?_append, passes, Option.none_or, ← ih,
      List.findSome?_cons]
    cases List.find? wanted line <;> rfl

end Scanning

end LineTerminators
