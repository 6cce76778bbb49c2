import Mallard.Model.Core.Rust

/-! # Encoding validators and I/O errors

A validator is a function from lines to verdicts: the trait demands that `validate` is pure, so
neither call order nor earlier calls can matter. Errors keep the rejected line and the description
that the source formats.
-/

namespace Mallard

/-- A line rejected by a validator or by an index check. -/
structure EncodingError where
  line : String
  description : String
deriving DecidableEq, Repr

/-- The trait `EncodingValidator`. -/
structure EncodingValidator where
  validate : String → Except EncodingError Unit

/-- `Utf8Validator`. -/
def utf8Validator : EncodingValidator where
  validate _ := .ok ()

/-- `{:0width$X}` of a number. -/
def upperHex (width number : ℕ) : String :=
  String.ofList (((Nat.toDigits 16 number).map Char.toUpper).leftpad width '0')

example : upperHex 4 0xE9 = "00E9" ∧ upperHex 4 0x1F600 = "1F600" := by decide

/-- `AsciiValidator`; `debug` is the `{:?}` of a character. -/
def asciiValidator (debug : Char → String) : EncodingValidator where
  validate line :=
    match line.toList.find? fun ch => '\u007F' < ch with
    | some ch => .error ⟨line, s!"character {debug ch} (U+{upperHex 4 ch.toNat}) is not ASCII (above U+007F)"⟩
    | none => .ok ()

/-- The `if let Some(v) = validator` check in front of every edit and every loaded line. -/
def checkLine (validator : Option EncodingValidator) (line : String) : Except EncodingError Unit :=
  match validator with
  | none => .ok ()
  | some validator => validator.validate line

/-- The validator, if any, accepts the line. -/
def Accepts (validator : Option EncodingValidator) (line : String) : Prop :=
  checkLine validator line = .ok ()

instance (validator : Option EncodingValidator) (line : String) : Decidable (Accepts validator line) :=
  match verdict : checkLine validator line with
  | .ok () => isTrue verdict
  | .error _ => isFalse (fun accepted => by rw [Accepts, verdict] at accepted; contradiction)

theorem accepts_none (line : String) : Accepts none line := rfl

theorem checkLine_of_not_accepts {validator : Option EncodingValidator} {line : String}
    (rejected : ¬ Accepts validator line) : ∃ error, checkLine validator line = .error error := by
  cases verdict : checkLine validator line with
  | ok _ => exact absurd verdict rejected
  | error error => exact ⟨error, rfl⟩

/-- The errors of `std::io` that reach the modelled code. -/
inductive IoError where
  /-- An error of the operating system, with its text. -/
  | os (text : String)
  /-- Bytes that are not UTF-8, wrapped as `InvalidData`. -/
  | invalidUtf8
  /-- A validation failure, wrapped as `InvalidData`. -/
  | invalidData (error : EncodingError)
deriving DecidableEq, Repr

/-- `std::io::Write`: what `write_all` returns and what it leaves behind. -/
structure Writer (σ : Type) where
  writeAll : σ → List UInt8 → Except IoError Unit × σ

/-- Writing to a `Vec<u8>` appends and cannot fail. -/
def vecWriter : Writer (List UInt8) := ⟨fun written bytes => (.ok (), written ++ bytes)⟩

/-- A writer by its `write`: an error, or how many of the offered bytes it accepted. Interrupted calls
accept nothing and are repeated, so they are left out. -/
structure RawWriter (σ : Type) where
  write : σ → (bytes : List UInt8) → Except IoError (Fin (bytes.length + 1)) × σ

/-- The state of a writer, with what it accepted so far and the error of a write that failed. -/
structure RawWriter.State (σ : Type) where
  inner : σ
  accepted : List UInt8
  failure : Option IoError

/-- The error of `write_all` when a writer accepts nothing. -/
def writeZero : IoError := .os "failed to write whole buffer"

/-- The default `write_all`: offer what is left until nothing is. -/
def RawWriter.writeAll {σ : Type} (writer : RawWriter σ) (state : State σ) (bytes : List UInt8) :
    Except IoError Unit × State σ :=
  if bytes = [] then (.ok (), state)
  else
    match writer.write state.inner bytes with
    | (.error error, inner) => (.error error, { state with inner, failure := some error })
    | (.ok count, inner) =>
      if count = 0 then (.error writeZero, { state with inner, failure := some writeZero })
      else writer.writeAll { state with inner, accepted := state.accepted ++ bytes.take count } (bytes.drop count)
termination_by bytes.length
decreasing_by
  have taken : 0 < (count : ℕ) := Nat.pos_of_ne_zero (fun zero => ‹¬ count = 0› (Fin.ext zero))
  rw [List.length_drop]
  exact Nat.sub_lt (List.length_pos_iff.mpr ‹_›) taken

end Mallard
