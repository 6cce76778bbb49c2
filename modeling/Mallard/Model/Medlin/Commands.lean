import Mallard.Model.Medlin.Files

/-! # medlin's command loop

A command line is trimmed at its end and split at its first two spaces. Each command is a function of
the session, that is of the buffer, the pools, the disk and what has been printed, and of the
arguments left behind the command word. `dispatch` returns `false` to quit. What is printed is a list
in the session that only grows: `println!` and `eprintln!`, which panic when stdout or stderr fails, are
taken to succeed.
-/

namespace Mallard

/-- `--line-ending`. -/
inductive LineEnding where
  | lf
  | crlf
  | cr
deriving DecidableEq, Repr

def LineEnding.asStr : LineEnding → String
  | .lf => "\n"
  | .crlf => "\r\n"
  | .cr => "\r"

def help : String :=
  "\n".intercalate
    ["Commands (line numbers are 1-based):",
      "  l           List all lines with line numbers",
      "  p N         Print line N",
      "  i N <text>  Insert <text> before line N (appends if N > line count)",
      "  r N <text>  Replace line N with <text>",
      "  d N         Delete line N",
      "  u           Undo",
      "  e           Redo",
      "  s           Save to default output path",
      "  s <path>    Save to given path",
      "  q           Quit without saving",
      "  ? or h      Print this help"]

/-- A line printed to stdout or stderr. -/
inductive Output where
  | stdout (text : String)
  | stderr (report : Report)
deriving DecidableEq, Repr

/-- The settings of the command loop. -/
structure Context where
  defaultOutput : Option String
  lineEnding : String
  forceEncoding : Option Encoding

/-- What the command loop changes. -/
structure Session where
  heap : Heap
  buffer : LineBuffer
  disk : Disk
  output : List Output

namespace Session

def print (session : Session) (text : String) : Session :=
  { session with output := session.output ++ [.stdout text] }

def report (session : Session) (report : Report) : Session :=
  { session with output := session.output ++ [.stderr report] }

end Session

/-- Parse a 1-based line number into a 0-based index, or return the report printed instead. -/
def parseLineNumber (token : String) : Except Report ℕ :=
  match parseUsize token with
  | some 0 => .error .lineNumberZero
  | some (index + 1) => .ok index
  | none => .error (.lineNumberInvalid token)

/-- `{:>6}` of a number. -/
def alignRight (width number : ℕ) : String :=
  String.ofList (List.replicate (width - (toString number).length) ' ') ++ toString number

namespace Session

variable [Digests]

def list (session : Session) : Outcome Session :=
  if session.buffer.lineCount = 0 then pure (session.print "(empty)")
  else do
    let lines ← session.buffer.iterLines session.heap
    pure (lines.zipIdx.foldl
      (fun session (line, i) => session.print s!"{alignRight 6 (i + 1)}  {line}") session)

def printLine (session : Session) : List String → Outcome Session
  | [] => pure (session.report (.usage "p" "p N"))
  | token :: _ =>
    match parseLineNumber token with
    | .error report => pure (session.report report)
    | .ok index => do
      match ← session.buffer.getLine session.heap index with
      | some content => pure (session.print content)
      | none => do
        let number ← Usize.add index 1
        pure (session.report (.outOfRange "p" number))

def insert (session : Session) : List String → Outcome Session
  | [] => pure (session.report (.usage "i" "i N <text>"))
  | token :: rest =>
    match parseLineNumber token with
    | .error report => pure (session.report report)
    | .ok index => do
      -- Clamped, so that a number beyond the line count appends.
      let index := min index session.buffer.lineCount
      let (verdict, heap, buffer) ← session.buffer.insertLine session.heap index (rest.headD "")
      match verdict with
      | .ok () => pure { session with heap, buffer }
      | .error error => pure ({ session with heap, buffer }.report (.editRejected "i" error))

def replace (session : Session) : List String → Outcome Session
  | [] => pure (session.report (.usage "r" "r N <text>"))
  | token :: rest =>
    match parseLineNumber token with
    | .error report => pure (session.report report)
    | .ok index =>
      if index ≥ session.buffer.lineCount then do
        let number ← Usize.add index 1
        pure (session.report (.replaceOutOfRange number session.buffer.lineCount))
      else do
        let (verdict, heap, buffer) ← session.buffer.replaceLine session.heap index (rest.headD "")
        match verdict with
        | .ok () => pure { session with heap, buffer }
        | .error error => pure ({ session with heap, buffer }.report (.editRejected "r" error))

def delete (session : Session) : List String → Outcome Session
  | [] => pure (session.report (.usage "d" "d N"))
  | token :: _ =>
    match parseLineNumber token with
    | .error report => pure (session.report report)
    | .ok index => do
      let (moved, buffer) ← session.buffer.deleteLine index
      if moved then pure { session with buffer }
      else do
        let number ← Usize.add index 1
        pure ({ session with buffer }.report (.outOfRange "d" number))

def undo (session : Session) : Outcome Session := do
  let (moved, buffer) ← session.buffer.undo
  if moved then pure { session with buffer } else pure ({ session with buffer }.report .nothingToUndo)

def redo (session : Session) : Outcome Session := do
  let (moved, buffer) ← session.buffer.redo
  if moved then pure { session with buffer } else pure ({ session with buffer }.report .nothingToRedo)

def save (context : Context) (session : Session) (arguments : List String) : Outcome Session :=
  match arguments.head?.or context.defaultOutput with
  | none => pure (session.report .noOutputPath)
  | some path => do
    let (result, disk) ←
      Mallard.save session.disk session.heap session.buffer path context.lineEnding context.forceEncoding
    match result with
    | .ok () => pure ({ session with disk }.print s!"saved to {path}")
    | .error report => pure ({ session with disk }.report report)

end Session

variable [Digests]

/-- The command word and the arguments of a command line. -/
def tokens (line : String) : List String :=
  (splitn 3 ' ' (trimEndMatches line [' ', '\t', '\r', '\n']).toList).map String.ofList

/-- Process one command line; `false` quits. -/
def dispatch (context : Context) (session : Session) (line : String) : Outcome (Bool × Session) :=
  let cmd := (tokens line).headD ""
  let arguments := (tokens line).tail
  if cmd = "q" then pure (false, session)
  else if cmd = "?" ∨ cmd = "h" then pure (true, session.print help)
  else if cmd = "l" then (true, ·) <$> session.list
  else if cmd = "p" then (true, ·) <$> session.printLine arguments
  else if cmd = "i" then (true, ·) <$> session.insert arguments
  else if cmd = "r" then (true, ·) <$> session.replace arguments
  else if cmd = "d" then (true, ·) <$> session.delete arguments
  else if cmd = "u" then (true, ·) <$> session.undo
  else if cmd = "e" then (true, ·) <$> session.redo
  else if cmd = "s" then (true, ·) <$> session.save context arguments
  else if cmd = "" then pure (true, session)
  else pure (true, session.report (.unrecognised cmd))

/-- The decoded text of a line that was read. -/
def decodeLine (bytes : List UInt8) : Except IoError String :=
  match fromUtf8 bytes with
  | some text => .ok text
  | none => .error .invalidUtf8

/-- `BufRead::lines` over what a reader delivers before it ends, or fails: pieces ended by `\n`, without
it and without one `\r` right before it. An unfinished piece in front of a failure is lost. -/
def bufLines (input : List UInt8) : Option IoError → List (Except IoError String)
  | none => (LineTerminators.lfLines 0x0D 0x0A input).map decodeLine
  | some error =>
    (LineTerminators.lfLines 0x0D 0x0A (input.rdropWhile fun byte => byte ≠ 0x0A)).map decodeLine ++ [.error error]

/-- The command loop over the lines that the reader yields. -/
def runLoop (context : Context) (session : Session) : List (Except IoError String) → Outcome Session
  | [] => pure session
  | .error error :: _ => pure (session.report (.readFailed error))
  | .ok text :: rest => do
    let (continues, session) ← dispatch context session text
    if continues then runLoop context session rest else pure session

end Mallard
