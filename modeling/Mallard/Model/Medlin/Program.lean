import Mallard.Model.Medlin.Commands

/-! # medlin as a program

`main` resolves the encoding label, opens the file to edit, and runs the command loop on the file of
commands or on stdin. What it finds around it are a disk and readers: a reader is what it delivers in
the course of the run, whatever the run does to the file behind it.
-/

namespace Mallard

/-- The command line, as `clap` parsed it. -/
structure Args where
  file : Option String
  output : Option String
  inputFile : Option String
  lineEnding : LineEnding
  forceEncoding : Option String
deriving DecidableEq, Repr

/-- What a reader delivers before it ends, or fails. -/
structure Delivery where
  bytes : List UInt8
  failure : Option IoError
deriving DecidableEq, Repr

/-- What the program finds around it. -/
structure Surroundings where
  disk : Disk
  /-- `Path::exists`. -/
  pathExists : String → Bool
  /-- `Encoding::for_label`. -/
  forLabel : List UInt8 → Option Encoding
  /-- `File::open` on a file of commands. -/
  openInput : String → Except IoError Delivery
  stdin : Delivery

/-- How the program ends. -/
inductive Exit where
  /-- `main` returned `Ok`. -/
  | success
  /-- `main` returned an error: the file of commands could not be opened. -/
  | inputFailed (path : String) (error : IoError)
  /-- The encoding label was reported and the process exited. -/
  | unknownLabel (label : String)
deriving DecidableEq, Repr

/-- The text of the returned error or of the report in front of the exit. -/
def Exit.text (format : Formatting) : Exit → String
  | .success => ""
  | .inputFailed path error => s!"--input-file: {path}: {format.ioError error}"
  | .unknownLabel label => s!"edlin: unknown encoding label: {format.debug label}"

/-- The exit code of the process. -/
def Exit.code : Exit → ℕ
  | .success => 0
  | .inputFailed _ _ | .unknownLabel _ => 1

/-- The end of a run: how it came, what was printed and the disk that is left. -/
structure Finish where
  exit : Exit
  output : List Output
  disk : Disk

/-- Resolve `--force-encoding`. -/
def resolveEncoding (around : Surroundings) : Option String → Except Exit (Option Encoding)
  | none => .ok none
  | some label =>
    match around.forLabel (asBytes label) with
    | some encoding => .ok (some encoding)
    | none => .error (.unknownLabel label)

/-- The buffer in place of a file that is not there. -/
def emptyBuffer (heap : Heap) : Option Encoding → Heap × LineBuffer
  | none => LineBuffer.new heap none
  | some encoding => emptyBufWithEnc heap encoding

section Running

variable [Digests]

/-- Open the file to edit, with the reports printed on the way. -/
def openFile (around : Surroundings) (heap : Heap) (encoding : Option Encoding) :
    Option String → Outcome (List Report × Heap × LineBuffer)
  | some path =>
    if around.pathExists path then loadFile around.disk heap path encoding
    else pure ([], emptyBuffer heap encoding)
  | none => pure ([], emptyBuffer heap encoding)

/-- The reader of the command loop. -/
def openCommands (around : Surroundings) : Option String → Except Exit Delivery
  | some path =>
    match around.openInput path with
    | .ok delivery => .ok delivery
    | .error error => .error (.inputFailed path error)
  | none => .ok around.stdin

def main (args : Args) (around : Surroundings) : Outcome Finish :=
  match resolveEncoding around args.forceEncoding with
  | .error exit => pure ⟨exit, [], around.disk⟩
  | .ok forceEncoding => do
    let (reports, heap, buffer) ← openFile around .empty forceEncoding args.file
    let session : Session := ⟨heap, buffer, around.disk, reports.map .stderr⟩
    let context : Context := ⟨args.output.or args.file, args.lineEnding.asStr, forceEncoding⟩
    match openCommands around args.inputFile with
    | .error exit => pure ⟨exit, session.output, session.disk⟩
    | .ok delivery => do
      let session ← runLoop context session (bufLines delivery.bytes delivery.failure)
      pure ⟨.success, session.output, session.disk⟩

end Running

/-- A program without encodings that finds a disk, no file of commands, and the typed text. -/
def sampleSurroundings (text typed : String) : Surroundings where
  disk := sampleDisk text
  pathExists _ := true
  forLabel _ := none
  openInput _ := .error (.os "")
  stdin := ⟨asBytes typed, none⟩

end Mallard
