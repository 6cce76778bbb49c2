import Mallard.Model.Core.LineBuffer

/-! # medlin's files: forced encodings, loading and saving

The codecs of `encoding_rs` are values of `Encoding`: what one decodes, and what a new encoder writes
into an output buffer of a given capacity. On a disk several paths may name one file. The disk decides
which paths can be opened and how many bytes a newly created file takes before a write fails, and it
decides so once for a whole run: a save changes the bytes of one file and nothing else. Saving
truncates the file first and sends everything through a `BufWriter`, whose last flush happens when it
is dropped and reports nothing.
-/

namespace Mallard

/-- What medlin prints to stderr. -/
inductive Report where
  | loadFailed (path : String) (error : IoError)
  | loadInvalid (path encoding : String)
  | loadRejected (error : EncodingError)
  | saveFailed (path : String) (error : IoError)
  | saveUnencodable (line : ℕ) (encoding : String)
  | lineNumberZero
  | lineNumberInvalid (token : String)
  | usage (command form : String)
  | outOfRange (command : String) (line : ℕ)
  | replaceOutOfRange (line count : ℕ)
  | editRejected (command : String) (error : EncodingError)
  | nothingToUndo
  | nothingToRedo
  | noOutputPath
  | unrecognised (command : String)
  | readFailed (error : IoError)
deriving DecidableEq, Repr

/-- The formatting of errors and of `{:?}` that the reports use. -/
structure Formatting where
  ioError : IoError → String
  debug : String → String

/-- `Display` of an encoding error. -/
def EncodingError.text (format : Formatting) (error : EncodingError) : String :=
  s!"encoding error: {error.description} — line: {format.debug error.line}"

/-- The printed text of a report. -/
def Report.text (format : Formatting) : Report → String
  | .loadFailed path error => s!"edlin: load: {path}: {format.ioError error}"
  | .loadInvalid path encoding =>
    s!"edlin: load: {path}: file contains bytes that are invalid in encoding '{encoding}'"
  | .loadRejected error => s!"edlin: load: line validation failed: {error.text format}"
  | .saveFailed path error => s!"edlin: save: {path}: {format.ioError error}"
  | .saveUnencodable line encoding =>
    s!"edlin: save: line {line} cannot be encoded in '{encoding}'; save aborted"
  | .lineNumberZero => "edlin: line numbers are 1-based; 0 is not valid"
  | .lineNumberInvalid token => s!"edlin: invalid line number: {format.debug token}"
  | .usage command form => s!"edlin: {command}: usage: {form}"
  | .outOfRange command line => s!"edlin: {command}: line {line} out of range"
  | .replaceOutOfRange line count => s!"edlin: r: line {line} out of range (line_count = {count})"
  | .editRejected command error => s!"edlin: {command}: {error.text format}"
  | .nothingToUndo => "edlin: nothing to undo"
  | .nothingToRedo => "edlin: nothing to redo"
  | .noOutputPath => "edlin: s: no output path (use --file, --output, or s <path>)"
  | .unrecognised command => s!"edlin: unrecognised command: {format.debug command}"
  | .readFailed error => s!"edlin: read error: {format.ioError error}"

example (format : Formatting) : Report.text format (.usage "i" "i N <text>") = "edlin: i: usage: i N <text>" := rfl

/-- The result of encoding without replacement. -/
inductive EncoderResult where
  | inputEmpty
  | outputFull
  | unmappable (c : Char)
deriving DecidableEq, Repr

/-- An `&'static Encoding`. -/
structure Encoding where
  name : String
  /-- `decode`: the text, and whether there were errors. -/
  decode : List UInt8 → String × Bool
  /-- `max_buffer_length_from_utf8_if_no_unmappables` of a new encoder. -/
  maxBufferLength : ℕ → Option ℕ
  /-- A new encoder's `encode_from_utf8_without_replacement` of a whole text into a buffer of the
  given capacity: the result and the bytes written. -/
  encode : String → ℕ → EncoderResult × List UInt8

/-- The capacity of the output buffer for an input of `len` bytes. -/
def Encoding.capacity (encoding : Encoding) (len : ℕ) : ℕ :=
  (encoding.maxBufferLength len).getD (max (min (len * 4) usizeMax) 16)

/-- Encode a text as `validate` and `save` do. -/
def Encoding.encodeAll (encoding : Encoding) (text : String) : EncoderResult × List UInt8 :=
  encoding.encode text (encoding.capacity (asBytes text).length)

/-- `str::is_ascii`. -/
def isAscii (text : String) : Bool := text.toList.all fun c => c.toNat < 128

/-- `ForcedEncodingValidator`: ASCII lines bypass the encoder. -/
def forcedEncodingValidator (encoding : Encoding) : EncodingValidator where
  validate line :=
    if isAscii line then .ok ()
    else
      match (encoding.encodeAll line).1 with
      | .inputEmpty => .ok ()
      | _ => .error ⟨line, s!"line contains characters that cannot be encoded in '{encoding.name}'"⟩

def emptyBufWithEnc (heap : Heap) (encoding : Encoding) : Heap × LineBuffer :=
  LineBuffer.new heap (some (forcedEncodingValidator encoding))

/-- The regular files that medlin can reach by their paths. -/
structure Disk where
  /-- The file that a path names: other spellings of a path, and links, lead to the same one. -/
  canonical : String → String
  /-- The bytes of each file that is there, by its canonical path. -/
  bytes : String → Option (List UInt8)
  /-- The error of opening or reading a path, if any. -/
  readError : String → Option IoError
  /-- The error of `File::create` on a path, if any. -/
  createError : String → Option IoError
  /-- How many bytes each file takes, once it is created anew, before its writes fail; `none` for no limit. -/
  limit : String → Option ℕ
  /-- The error of a refused write. -/
  writeError : IoError

namespace Disk

/-- The bytes of the file that a path names. -/
def contents (disk : Disk) (path : String) : Option (List UInt8) := disk.bytes (disk.canonical path)

/-- The room of the file that a path names. -/
def room (disk : Disk) (path : String) : Option ℕ := disk.limit (disk.canonical path)

/-- The paths name one file. -/
def SameFile (disk : Disk) (path other : String) : Prop := disk.canonical path = disk.canonical other

instance (disk : Disk) (path other : String) : Decidable (disk.SameFile path other) :=
  inferInstanceAs (Decidable (_ = _))

end Disk

/-- The bytes of a file, or the error of opening or reading it. -/
def Disk.read (disk : Disk) (path : String) : Except IoError (List UInt8) :=
  match disk.readError path, disk.contents path with
  | some error, _ => .error error
  | none, some bytes => .ok bytes
  | none, none => .error (.os "No such file or directory (os error 2)")

/-- An open file: its bytes and the number of bytes it still takes. -/
structure File where
  bytes : List UInt8
  room : Option ℕ
deriving DecidableEq, Repr

/-- How many of the offered bytes a file takes. -/
def File.taken (file : File) (bytes : List UInt8) : ℕ :=
  match file.room with
  | none => bytes.length
  | some room => min room bytes.length

/-- A file after it took as many of the offered bytes as it can. -/
def File.take (file : File) (bytes : List UInt8) : File :=
  ⟨file.bytes ++ bytes.take (file.taken bytes), file.room.map (· - file.taken bytes)⟩

/-- `write_all` on a file. -/
def File.writeAll (error : IoError) (file : File) (bytes : List UInt8) : Except IoError Unit × File :=
  (if file.taken bytes = bytes.length then .ok () else .error error, file.take bytes)

/-- A `BufWriter` over a file. -/
structure BufFile where
  file : File
  buffer : List UInt8
deriving DecidableEq, Repr

namespace BufFile

/-- The default capacity of a `BufWriter`. -/
def capacity : ℕ := 8 * 1024

/-- Write the buffer out; what the file refused stays buffered. -/
def flush (error : IoError) (writer : BufFile) : Except IoError Unit × BufFile :=
  let taken := writer.file.taken writer.buffer
  (if taken = writer.buffer.length then .ok () else .error error,
    ⟨writer.file.take writer.buffer, writer.buffer.drop taken⟩)

/-- The part of `write_all` behind the flush: bytes that fill the whole buffer bypass it. -/
def writeFlushed (error : IoError) (writer : BufFile) (bytes : List UInt8) : Except IoError Unit × BufFile :=
  if capacity ≤ bytes.length then
    let (result, file) := writer.file.writeAll error bytes
    (result, { writer with file })
  else (.ok (), { writer with buffer := writer.buffer ++ bytes })

/-- `write_all` on a `BufWriter`. -/
def writeAll (error : IoError) (writer : BufFile) (bytes : List UInt8) : Except IoError Unit × BufFile :=
  let spare := capacity - writer.buffer.length
  if bytes.length < spare then (.ok (), { writer with buffer := writer.buffer ++ bytes })
  else if spare < bytes.length then
    match writer.flush error with
    | (.error error, writer) => (.error error, writer)
    | (.ok (), writer) => writer.writeFlushed error bytes
  else writer.writeFlushed error bytes

/-- Dropping the writer flushes once more and discards the result. -/
def drop (error : IoError) (writer : BufFile) : File := (writer.flush error).2.file

end BufFile

/-- A `BufWriter` as a sink of bytes. -/
def bufWriter (error : IoError) : Writer BufFile := ⟨BufFile.writeAll error⟩

/-- The disk after a file at a path was written and closed. -/
def Disk.close (disk : Disk) (path : String) (file : File) : Disk :=
  { disk with bytes := Function.update disk.bytes (disk.canonical path) (some file.bytes) }

section Loading

variable [Digests]

/-- The forced loading loop: every line is appended by an edit; a rejected line is reported. -/
def loadLines (heap : Heap) (buffer : LineBuffer) : List String → Outcome (List Report × Heap × LineBuffer)
  | [] => pure ([], heap, buffer)
  | line :: rest => do
    let (verdict, heap, buffer) ← buffer.insertLine heap buffer.lineCount line
    let (reports, heap, buffer) ← loadLines heap buffer rest
    match verdict with
    | .ok () => pure (reports, heap, buffer)
    | .error error => pure (.loadRejected error :: reports, heap, buffer)

/-- Load a file, with the reports printed on the way. -/
def loadFile (disk : Disk) (heap : Heap) (path : String) (encoding : Option Encoding) :
    Outcome (List Report × Heap × LineBuffer) :=
  match encoding with
  | some encoding =>
    match disk.read path with
    | .error error => pure ([.loadFailed path error], emptyBufWithEnc heap encoding)
    | .ok bytes =>
      let (text, hadErrors) := encoding.decode bytes
      if hadErrors then pure ([.loadInvalid path encoding.name], emptyBufWithEnc heap encoding)
      else
        let (heap, buffer) := LineBuffer.new heap (some (forcedEncodingValidator encoding))
        loadLines heap buffer (strLines text)
  | none => do
    let loaded ← LineBuffer.fromReader heap (disk.read path) none
    match loaded with
    | .ok (heap, buffer) => pure ([], heap, buffer)
    | .error error => pure ([.loadFailed path error], LineBuffer.new heap none)

end Loading

/-- The loop of the forced path over the lines `i..count`: each line is encoded with its terminator. -/
def saveEncoded (error : IoError) (heap : Heap) (buffer : LineBuffer) (path lineEnding : String)
    (encoding : Encoding) (i : ℕ) : ℕ → BufFile → Outcome (Except Report Unit × BufFile)
  | 0, writer => pure (.ok (), writer)
  | remaining + 1, writer => do
    match ← buffer.getLine heap i with
    | none => throw (.expect "line index in range")
    | some line =>
      match encoding.encodeAll (line ++ lineEnding) with
      | (.inputEmpty, written) =>
        match writer.writeAll error written with
        | (.error error, writer) => pure (.error (.saveFailed path error), writer)
        | (.ok (), writer) =>
          saveEncoded error heap buffer path lineEnding encoding (i + 1) remaining writer
      | _ => pure (.error (.saveUnencodable (i + 1) encoding.name), writer)

/-- What `save` reports, and the disk it leaves; `Ok` stands for the success message. -/
def save (disk : Disk) (heap : Heap) (buffer : LineBuffer) (path lineEnding : String)
    (encoding : Option Encoding) : Outcome (Except Report Unit × Disk) :=
  match disk.createError path with
  | some error => pure (.error (.saveFailed path error), disk)
  | none => do
    let writer : BufFile := ⟨⟨[], disk.room path⟩, []⟩
    let (result, writer) ←
      match encoding with
      | some encoding =>
        saveEncoded disk.writeError heap buffer path lineEnding encoding 0 buffer.lineCount writer
      | none => do
        let (written, writer) ← buffer.writeLines heap (bufWriter disk.writeError) writer lineEnding
        pure (written.mapError (Report.saveFailed path), writer)
    pure (result, disk.close path (writer.drop disk.writeError))

/-- UTF-8 as a forced encoding, for concrete runs; what invalid bytes decode to is never used. -/
def utf8Encoding : Encoding where
  name := "UTF-8"
  decode bytes :=
    match fromUtf8 bytes with
    | some text => (if text.toList.head? = some '\uFEFF' then String.ofList text.toList.tail else text, false)
    | none => ("", true)
  maxBufferLength len := some len
  encode text capacity :=
    if (asBytes text).length ≤ capacity then (.inputEmpty, asBytes text) else (.outputFull, [])

/-- ISO-2022-JP on ASCII texts, for concrete runs: its encoder rejects the characters that switch
between character sets. What other texts and bytes give is never used. -/
def iso2022JpEncoding : Encoding where
  name := "ISO-2022-JP"
  decode bytes := ((fromUtf8 bytes).getD "", false)
  maxBufferLength len := if 3 * len + 13 ≤ usizeMax then some (3 * len + 13) else none
  encode text _ :=
    match text.toList.find? fun c => 128 ≤ c.toNat ∨ c ∈ ['\x0E', '\x0F', '\x1B'] with
    | none => (.inputEmpty, asBytes text)
    | some c => (.unmappable c, [])

/-- What EUC-JP bytes decode to, as far as they are ASCII or the character U+4E02 of JIS X 0212. -/
def eucJpChars : List UInt8 → Option (List Char)
  | [] => some []
  | 0x8F :: 0xB0 :: 0xA1 :: rest => ('\u4E02' :: ·) <$> eucJpChars rest
  | byte :: rest => if byte < 0x80 then (Char.ofNat byte.toNat :: ·) <$> eucJpChars rest else none

/-- EUC-JP on ASCII texts and U+4E02, which its decoder yields and its encoder rejects, for concrete
runs. What other texts and bytes give is never used. -/
def eucJpEncoding : Encoding where
  name := "EUC-JP"
  decode bytes :=
    match eucJpChars bytes with
    | some chars => (String.ofList chars, false)
    | none => ("", true)
  maxBufferLength len := if len + 11 ≤ usizeMax then some (len + 11) else none
  encode text _ :=
    match text.toList.find? fun c => 128 ≤ c.toNat with
    | none => (.inputEmpty, asBytes text)
    | some c => (.unmappable c, [])

/-- A disk on which every path can be read and written, names a file of its own, and reads as the text. -/
def sampleDisk (text : String) : Disk where
  canonical path := path
  bytes _ := some (asBytes text)
  readError _ := none
  createError _ := none
  limit _ := none
  writeError := .os ""

end Mallard
