import Mallard.Machine.Timeline
import Mathlib.Data.List.DropRight
import Mathlib.Data.PNat.Basic

/-! # A line editor on a timeline of texts

The abstract meaning of a command loop in the manner of `ed`. A command line, its trailing blanks
removed, is cut at its first two spaces into a command word, a line number and a text. A request
edits the present, moves in the history, or changes nothing. Line numbers count from one and are
bounded by a limit; which texts may become lines is a parameter.
-/

namespace LineEditor

/-- What a command line asks for. -/
inductive Request where
  | insert (number : ℕ+) (text : String)
  | replace (number : ℕ+) (text : String)
  | delete (number : ℕ+)
  | undo
  | redo
  | quit
  | nothing
deriving DecidableEq

/-- The text in front of the first space, and the text behind it if there is a space. -/
def cut (text : List Char) : List Char × Option (List Char) :=
  match text.dropWhile fun c => c ≠ ' ' with
  | [] => (text, none)
  | _ :: rest => (text.takeWhile fun c => c ≠ ' ', some rest)

/-- The parts of a command line. -/
structure Words where
  command : String
  number : Option String
  text : Option String
deriving DecidableEq

def words (line : String) : Words :=
  match cut (line.toList.rdropWhile fun c => c ∈ [' ', '\t', '\r', '\n']) with
  | (command, none) => ⟨String.ofList command, none, none⟩
  | (command, some rest) =>
    ⟨String.ofList command, some (String.ofList (cut rest).1), (cut rest).2.map String.ofList⟩

/-- A line number: decimal digits behind an optional plus sign, from one up to the limit. -/
def lineNumber? (limit : ℕ) (token : String) : Option ℕ+ :=
  let digits := if token.toList.head? = some '+' then token.toList.tail else token.toList
  let value := Nat.ofDigitChars 10 digits 0
  if positive : 0 < value then
    if digits.all Char.isDigit ∧ value ≤ limit then some ⟨value, positive⟩ else none
  else none

/-- The request that the words make; a missing text is empty. -/
def Words.request (limit : ℕ) (words : Words) : Request :=
  match words.command, words.number.bind (lineNumber? limit) with
  | "i", some number => .insert number (words.text.getD "")
  | "r", some number => .replace number (words.text.getD "")
  | "d", some number => .delete number
  | "u", _ => .undo
  | "e", _ => .redo
  | "q", _ => .quit
  | _, _ => .nothing

/-- What a command line asks for. -/
def request (limit : ℕ) (line : String) : Request := (words line).request limit

section Editing

variable (accepts : String → Prop) [DecidablePred accepts]

/-- The timeline after a request: an insertion is clamped to the end of the present, a replacement or
deletion beyond the end does nothing. -/
def step (texts : Timeline (List String)) : Request → Timeline (List String)
  | .insert number text =>
    if accepts text then
      texts.record (texts.present.insertIdx (min number.natPred texts.present.length) text)
    else texts
  | .replace number text =>
    if number ≤ texts.present.length ∧ accepts text then
      texts.record (texts.present.set number.natPred text)
    else texts
  | .delete number =>
    if number ≤ texts.present.length then texts.record (texts.present.eraseIdx number.natPred) else texts
  | .undo => texts.undo?.getD texts
  | .redo => texts.redo?.getD texts
  | .quit | .nothing => texts

/-- The text a request brings into the history. -/
def introduced (texts : Timeline (List String)) : Request → List String
  | .insert _ text => if accepts text then [text] else []
  | .replace number text => if number ≤ texts.present.length ∧ accepts text then [text] else []
  | .delete _ | .undo | .redo | .quit | .nothing => []

variable {ε : Type*} (limit : ℕ)

/-- The timeline after a script: it ends at the first request to quit and at the first read error. -/
def run (texts : Timeline (List String)) : List (Except ε String) → Timeline (List String)
  | [] => texts
  | .error _ :: _ => texts
  | .ok line :: rest =>
    if request limit line = .quit then texts else run (step accepts texts (request limit line)) rest

/-- The texts that a script brings into the history. -/
def allIntroduced (texts : Timeline (List String)) : List (Except ε String) → List String
  | [] => []
  | .error _ :: _ => []
  | .ok line :: rest =>
    if request limit line = .quit then []
    else
      introduced accepts texts (request limit line) ++
        allIntroduced (step accepts texts (request limit line)) rest

end Editing

end LineEditor
