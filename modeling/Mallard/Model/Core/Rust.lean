import Mathlib.Data.Nat.Notation
import Mathlib.Data.List.DropRight
import Mallard.ToMathlib.LineJoining

/-! # Panics, vectors, strings and integers of the Rust standard library

Code that may panic returns an `Outcome`. Vectors are lists, a `usize` is a natural number with its
64-bit bound checked where the source computes with numbers it was given, and a `str` is a Lean
string whose bytes are its UTF-8 encoding. Indexing and slicing check what Rust checks: a slice that
does not begin and end at a character boundary panics.
-/

namespace Mallard

/-- The ways the modelled code can panic. -/
inductive Panic where
  | indexOutOfBounds
  | insertionIndex
  | removalIndex
  | charBoundary
  | capacityOverflow
  | arithmeticOverflow
  | expect (message : String)
deriving DecidableEq, Repr

/-- The result of code that returns a value or panics. -/
abbrev Outcome (α : Type) := Except Panic α

namespace Outcome

variable {α β : Type}

@[simp] theorem pure_eq (value : α) : (pure value : Outcome α) = .ok value := rfl

@[simp] theorem ok_bind (value : α) (next : α → Outcome β) : (Except.ok value : Outcome α) >>= next = next value :=
  rfl

@[simp] theorem ok_map (value : α) (f : α → β) : f <$> (Except.ok value : Outcome α) = .ok (f value) := rfl

/-- A sequence of two steps returns exactly when both do. -/
theorem bind_eq_ok {first : Outcome α} {next : α → Outcome β} {result : β} :
    first >>= next = .ok result ↔ ∃ value, first = .ok value ∧ next value = .ok result := by
  cases first with
  | error panic =>
    constructor
    · exact fun returned => nomatch returned
    · rintro ⟨_, ⟨⟩, _⟩
  | ok value =>
    constructor
    · exact fun returned => ⟨value, rfl, returned⟩
    · rintro ⟨_, ⟨⟩, returned⟩
      exact returned

end Outcome

namespace Vec

variable {α : Type}

/-- `Vec::insert`, which panics when `index > len`. -/
def insert (items : List α) (index : ℕ) (item : α) : Outcome (List α) :=
  if index ≤ items.length then pure (items.insertIdx index item) else throw .insertionIndex

/-- `Vec::remove`, which panics when `index >= len`. -/
def remove (items : List α) (index : ℕ) : Outcome (α × List α) :=
  match items[index]? with
  | some item => pure (item, items.eraseIdx index)
  | none => throw .removalIndex

/-- Reading `items[index]`. -/
def get (items : List α) (index : ℕ) : Outcome α :=
  match items[index]? with
  | some item => pure item
  | none => throw .indexOutOfBounds

/-- Assigning `items[index] = item`. -/
def set (items : List α) (index : ℕ) (item : α) : Outcome (List α) :=
  if index < items.length then pure (items.set index item) else throw .indexOutOfBounds

theorem insert_of_le {items : List α} {index : ℕ} (bound : index ≤ items.length) (item : α) :
    insert items index item = .ok (items.insertIdx index item) := if_pos bound

theorem remove_of_getElem? {items : List α} {index : ℕ} {item : α} (present : items[index]? = some item) :
    remove items index = .ok (item, items.eraseIdx index) := by
  rw [remove, present]
  rfl

theorem get_of_getElem? {items : List α} {index : ℕ} {item : α} (present : items[index]? = some item) :
    get items index = .ok item := by
  rw [get, present]
  rfl

theorem set_of_lt {items : List α} {index : ℕ} (bound : index < items.length) (item : α) :
    set items index item = .ok (items.set index item) := if_pos bound

end Vec

/-- `usize::MAX` on a 64-bit target. -/
def usizeMax : ℕ := UInt64.size - 1

/-- `isize::MAX`, the largest number of bytes an allocation may have. -/
def isizeMax : ℕ := UInt64.size / 2 - 1

/-- `usize` addition, which panics on overflow in a checked build. -/
def Usize.add (left right : ℕ) : Outcome ℕ :=
  if left + right ≤ usizeMax then pure (left + right) else throw .arithmeticOverflow

/-- `Vec::reserve` for elements of `size` bytes. -/
def Vec.reserve (length size additional : ℕ) : Outcome Unit :=
  if (length + additional) * size ≤ isizeMax then pure () else throw .capacityOverflow

/-- The digit loop of `usize::from_str`: every multiplication and addition is checked. -/
def parseDigits (value : ℕ) : List Char → Option ℕ
  | [] => some value
  | digit :: rest =>
    if value * 10 ≤ usizeMax ∧ digit.isDigit ∧ value * 10 + (digit.toNat - '0'.toNat) ≤ usizeMax then
      parseDigits (value * 10 + (digit.toNat - '0'.toNat)) rest
    else none

/-- `str::parse::<usize>`: an optional `+`, then at least one decimal digit. -/
def parseUsize (token : String) : Option ℕ :=
  match token.toList with
  | [] => none
  | ['+'] => none
  | ['-'] => none
  | '+' :: digits => parseDigits 0 digits
  | digits => parseDigits 0 digits

/-- `str::as_bytes`: the UTF-8 encoding. -/
def asBytes (text : String) : List UInt8 := text.toList.flatMap String.utf8EncodeChar

/-- `str::from_utf8`. -/
def fromUtf8 (bytes : List UInt8) : Option String := String.fromUTF8? ⟨bytes.toArray⟩

/-- `str::is_char_boundary`: an end of the text, or a byte that is no continuation byte. -/
def isCharBoundary (bytes : List UInt8) (index : ℕ) : Bool :=
  index == 0 || index == bytes.length ||
    match bytes[index]? with
    | some byte => byte < 0x80 || 0xC0 ≤ byte
    | none => false

/-- Slicing `text[start..stop]`. -/
def strSlice (text : String) (start stop : ℕ) : Outcome String :=
  if start ≤ stop ∧ isCharBoundary (asBytes text) start ∧ isCharBoundary (asBytes text) stop then
    match fromUtf8 (((asBytes text).take stop).drop start) with
    | some slice => pure slice
    | none => throw .charBoundary
  else throw .charBoundary

/-- `str::lines`: pieces ended by `\n`, without it and without one `\r` right before it. -/
def strLines (text : String) : List String :=
  (LineTerminators.lfLines '\r' '\n' text.toList).map String.ofList

/-- `str::trim_end_matches` for a set of characters. -/
def trimEndMatches (text : String) (drop : List Char) : String :=
  String.ofList (text.toList.rdropWhile fun c => c ∈ drop)

/-- `str::splitn` at a character: at most `limit` parts, the last one unsplit. -/
def splitn : ℕ → Char → List Char → List (List Char)
  | 0, _, _ => []
  | 1, _, text => [text]
  | limit + 2, separator, text =>
    match text.span (· ≠ separator) with
    | (part, []) => [part]
    | (part, _ :: rest) => part :: splitn (limit + 1) separator rest

end Mallard
