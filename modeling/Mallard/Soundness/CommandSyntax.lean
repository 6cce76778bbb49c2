import Mallard.Proofs.Dispatch
import Mallard.Proofs.Splitting

/-! # The documented command syntax

A command written as the help text shows it is carried out with exactly its arguments, with one
exception that the trimming of command lines makes: a text loses the spaces and tabs at its end. Paths
are covered as far as they contain no space.
-/

namespace Mallard

open LineEditor

/-- The commands of the help text, with their arguments. -/
inductive HelpCommand where
  | list
  | print (number : ℕ+)
  | insert (number : ℕ+) (text : String)
  | replace (number : ℕ+) (text : String)
  | delete (number : ℕ+)
  | undo
  | redo
  | saveDefault
  | save (path : String)
  | quit
  | question
  | help
deriving DecidableEq

namespace HelpCommand

/-- The words that the help text shows. -/
def shown : HelpCommand → List String
  | .list => ["l"]
  | .print number => ["p", toString (number : ℕ)]
  | .insert number text => ["i", toString (number : ℕ), text]
  | .replace number text => ["r", toString (number : ℕ), text]
  | .delete number => ["d", toString (number : ℕ)]
  | .undo => ["u"]
  | .redo => ["e"]
  | .saveDefault => ["s"]
  | .save path => ["s", path]
  | .quit => ["q"]
  | .question => ["?"]
  | .help => ["h"]

/-- The command line: the words separated by one space. -/
def render (command : HelpCommand) : String := " ".intercalate command.shown

/-- The arguments are ones that the help text admits. -/
def Documented : HelpCommand → Prop
  | .print number | .delete number => (number : ℕ) ≤ usizeMax
  | .insert number text | .replace number text => (number : ℕ) ≤ usizeMax ∧ BareText text
  | .save path =>
    path ≠ "" ∧ BareText path ∧ (∀ c ∈ path.toList.head?, c ∉ [' ', '\t']) ∧ ∀ c ∈ path.toList.getLast?, c ∉ [' ', '\t']
  | .list | .undo | .redo | .saveDefault | .quit | .question | .help => True

/-- A path, if any, has no space in it. -/
def Unspaced : HelpCommand → Prop
  | .save path => ' ' ∉ path.toList
  | .list | .print _ | .insert _ _ | .replace _ _ | .delete _ | .undo | .redo | .saveDefault | .quit | .question | .help =>
    True

/-- The command with the spaces and tabs at the end of its text taken away. -/
def trimmed : HelpCommand → HelpCommand
  | .insert number text => .insert number (trimEndMatches text [' ', '\t'])
  | .replace number text => .replace number (trimEndMatches text [' ', '\t'])
  | command => command

variable [Digests]

/-- The command carried out with exactly its arguments. -/
def perform (context : Context) (session : Session) : HelpCommand → Outcome (Bool × Session)
  | .list => (true, ·) <$> session.list
  | .print number => do
    match ← session.buffer.getLine session.heap number.natPred with
    | some content => pure (true, session.print content)
    | none => pure (true, session.report (.outOfRange "p" number))
  | .insert number text => do
    let (verdict, heap, buffer) ←
      session.buffer.insertLine session.heap (min number.natPred session.buffer.lineCount) text
    match verdict with
    | .ok () => pure (true, { session with heap, buffer })
    | .error error => pure (true, { session with heap, buffer }.report (.editRejected "i" error))
  | .replace number text =>
    if number ≤ session.buffer.lineCount then do
      let (verdict, heap, buffer) ← session.buffer.replaceLine session.heap number.natPred text
      match verdict with
      | .ok () => pure (true, { session with heap, buffer })
      | .error error => pure (true, { session with heap, buffer }.report (.editRejected "r" error))
    else pure (true, session.report (.replaceOutOfRange number session.buffer.lineCount))
  | .delete number => do
    let (moved, buffer) ← session.buffer.deleteLine number.natPred
    if moved then pure (true, { session with buffer })
    else pure (true, { session with buffer }.report (.outOfRange "d" number))
  | .undo => (true, ·) <$> session.undo
  | .redo => (true, ·) <$> session.redo
  | .saveDefault => (true, ·) <$> session.save context []
  | .save path => do
    let (result, disk) ←
      Mallard.save session.disk session.heap session.buffer path context.lineEnding context.forceEncoding
    match result with
    | .ok () => pure (true, { session with disk }.print s!"saved to {path}")
    | .error report => pure (true, { session with disk }.report report)
  | .quit => pure (false, session)
  | .question | .help => pure (true, session.print Mallard.help)

end HelpCommand

theorem words_shown_argument {command argument : String} (single : ' ' ∉ command.toList)
    (unspaced : ' ' ∉ argument.toList) (nonempty : argument.toList ≠ [])
    (last : argument.toList.rdropWhile (fun c => c ∈ [' ', '\t', '\r', '\n']) = argument.toList) :
    words (" ".intercalate [command, argument]) = ⟨command, some argument, none⟩ := by
  have line : " ".intercalate [command, argument] = String.ofList (command.toList ++ ' ' :: argument.toList) := by
    rw [← String.toList_inj, String.toList_ofList, String.toList_intercalate]
    simp [List.intercalate]
  rw [line, words_argument single unspaced nonempty last, String.ofList_toList, String.ofList_toList]

/-- A text without terminators is trimmed of its spaces and tabs. -/
theorem trimEndMatches_bare {text : String} (bare : BareText text) :
    String.ofList (text.toList.rdropWhile fun c => c ∈ [' ', '\t', '\r', '\n']) = trimEndMatches text [' ', '\t'] := by
  rw [trimEndMatches]
  congr 1
  apply List.rdropWhile_congr
  intro c member
  have notCr : c ≠ '\r' := ne_of_mem_of_not_mem member bare.1
  have notLf : c ≠ '\n' := ne_of_mem_of_not_mem member bare.2
  simp [notCr, notLf]

theorem words_shown_number {command : String} (single : ' ' ∉ command.toList) (number : ℕ) :
    words (" ".intercalate [command, toString number]) = ⟨command, some (toString number), none⟩ :=
  words_shown_argument single (unspaced_toString number) (toString_ne_nil number) (rdropWhile_toString number)

theorem words_shown_path {command path : String} (single : ' ' ∉ command.toList)
    (documented : HelpCommand.Documented (.save path)) (unspaced : ' ' ∉ path.toList) :
    words (" ".intercalate [command, path]) = ⟨command, some path, none⟩ := by
  obtain ⟨named, bare, _, last⟩ := documented
  have nonempty : path.toList ≠ [] := fun empty => named (String.toList_eq_nil_iff.mp empty)
  apply words_shown_argument single unspaced nonempty
  rw [List.rdropWhile_eq_self_iff]
  intro _ blank
  have member := List.getLast_mem nonempty
  have notCr := ne_of_mem_of_not_mem member bare.1
  have notLf := ne_of_mem_of_not_mem member bare.2
  have among : path.toList.getLast nonempty ∈ [' ', '\t', '\r', '\n'] := of_decide_eq_true blank
  refine last _ (List.getLast_mem_getLast? nonempty) ?_
  simpa [notCr, notLf] using among

theorem words_shown_text {command text : String} (single : ' ' ∉ command.toList) (number : ℕ) (bare : BareText text) :
    ∃ rest, words (" ".intercalate [command, toString number, text]) = ⟨command, some (toString number), rest⟩ ∧
      rest.getD "" = trimEndMatches text [' ', '\t'] := by
  have line : " ".intercalate [command, toString number, text] =
      String.ofList (command.toList ++ ' ' :: (toString number).toList ++ ' ' :: text.toList) := by
    rw [← String.toList_inj, String.toList_ofList, String.toList_intercalate]
    simp [List.intercalate]
  have found := words_text single (unspaced_toString number) (toString_ne_nil number) (rdropWhile_toString number) text.toList
  rw [← line, String.ofList_toList, String.ofList_toList] at found
  refine ⟨_, found, ?_⟩
  rw [← trimEndMatches_bare bare]
  split
  · next blank => rw [blank]; rfl
  · rfl

section Dispatching

variable [Digests] {context : Context} {session : Session} {line : String} {number : ℕ+} {rest : Option String}

omit [Digests] in
theorem le_lineCount_iff (number : ℕ+) (count : ℕ) : (number : ℕ) ≤ count ↔ ¬ number.natPred ≥ count := by
  have positive := number.natPred_add_one
  omega

theorem dispatch_print (found : words line = ⟨"p", some (toString (number : ℕ)), rest⟩)
    (bound : (number : ℕ) ≤ usizeMax) :
    dispatch context session line = HelpCommand.perform context session (.print number) := by
  simp only [dispatch, tokens_eq, found, List.headD_cons, List.tail_cons, String.reduceEq, or_self, if_false, if_true,
    Option.toList_some, List.singleton_append, Session.printLine, parseLineNumber_toString bound, HelpCommand.perform]
  cases session.buffer.getLine session.heap number.natPred with
  | error panic => rfl
  | ok line =>
    cases line with
    | none =>
      simp only [Outcome.ok_bind, Session.number_printable bound]
      rfl
    | some content => rfl

theorem dispatch_insert (found : words line = ⟨"i", some (toString (number : ℕ)), rest⟩)
    (bound : (number : ℕ) ≤ usizeMax) :
    dispatch context session line = HelpCommand.perform context session (.insert number (rest.getD "")) := by
  have defaults : rest.toList.headD "" = rest.getD "" := by cases rest <;> rfl
  simp only [dispatch, tokens_eq, found, List.headD_cons, List.tail_cons, String.reduceEq, or_self, if_false, if_true,
    Option.toList_some, List.singleton_append, Session.insert, parseLineNumber_toString bound, HelpCommand.perform, defaults]
  cases session.buffer.insertLine session.heap (min number.natPred session.buffer.lineCount) (rest.getD "") with
  | error panic => rfl
  | ok result =>
    obtain ⟨verdict, heap, buffer⟩ := result
    cases verdict <;> rfl

theorem dispatch_replace (found : words line = ⟨"r", some (toString (number : ℕ)), rest⟩)
    (bound : (number : ℕ) ≤ usizeMax) :
    dispatch context session line = HelpCommand.perform context session (.replace number (rest.getD "")) := by
  have defaults : rest.toList.headD "" = rest.getD "" := by cases rest <;> rfl
  simp only [dispatch, tokens_eq, found, List.headD_cons, List.tail_cons, String.reduceEq, or_self, if_false, if_true,
    Option.toList_some, List.singleton_append, Session.replace, parseLineNumber_toString bound, HelpCommand.perform, defaults]
  by_cases beyond : number.natPred ≥ session.buffer.lineCount
  · rw [if_pos beyond, if_neg fun inside => (le_lineCount_iff number _).mp inside beyond, Session.number_printable bound]
    rfl
  · rw [if_neg beyond, if_pos ((le_lineCount_iff number _).mpr beyond)]
    cases session.buffer.replaceLine session.heap number.natPred (rest.getD "") with
    | error panic => rfl
    | ok result =>
      obtain ⟨verdict, heap, buffer⟩ := result
      cases verdict <;> rfl

theorem dispatch_delete (found : words line = ⟨"d", some (toString (number : ℕ)), rest⟩)
    (bound : (number : ℕ) ≤ usizeMax) :
    dispatch context session line = HelpCommand.perform context session (.delete number) := by
  simp only [dispatch, tokens_eq, found, List.headD_cons, List.tail_cons, String.reduceEq, or_self, if_false, if_true,
    Option.toList_some, List.singleton_append, Session.delete, parseLineNumber_toString bound, HelpCommand.perform]
  cases session.buffer.deleteLine number.natPred with
  | error panic => rfl
  | ok result =>
    obtain ⟨moved, buffer⟩ := result
    cases moved with
    | true => rfl
    | false =>
      simp only [Outcome.ok_bind, Session.number_printable bound]
      rfl

theorem dispatch_save {path : String} (found : words line = ⟨"s", some path, rest⟩) :
    dispatch context session line = HelpCommand.perform context session (.save path) := by
  simp only [dispatch, tokens_eq, found, List.headD_cons, List.tail_cons, String.reduceEq, or_self, if_false, if_true,
    Option.toList_some, List.singleton_append, Session.save, List.head?_cons, Option.some_or, HelpCommand.perform]
  cases Mallard.save session.disk session.heap session.buffer path context.lineEnding context.forceEncoding with
  | error panic => rfl
  | ok result =>
    obtain ⟨verdict, disk⟩ := result
    cases verdict <;> rfl

/-- A command written as the help text shows it is carried out with exactly its arguments, but for the
spaces and tabs at the end of a text. -/
theorem dispatch_render (context : Context) (session : Session) {command : HelpCommand}
    (documented : command.Documented) (unspaced : command.Unspaced) :
    dispatch context session command.render = command.trimmed.perform context session := by
  have spaceless : ' ' ∉ "p".toList ∧ ' ' ∉ "i".toList ∧ ' ' ∉ "r".toList ∧ ' ' ∉ "d".toList ∧ ' ' ∉ "s".toList := by
    decide
  obtain ⟨p, i, r, d, s⟩ := spaceless
  cases command with
  | print number => exact dispatch_print (words_shown_number p number) documented
  | delete number => exact dispatch_delete (words_shown_number d number) documented
  | insert number text =>
    obtain ⟨rest, found, same⟩ := words_shown_text i number documented.2
    rw [HelpCommand.trimmed, ← same]
    exact dispatch_insert found documented.1
  | replace number text =>
    obtain ⟨rest, found, same⟩ := words_shown_text r number documented.2
    rw [HelpCommand.trimmed, ← same]
    exact dispatch_replace found documented.1
  | save path => exact dispatch_save (words_shown_path s documented unspaced)
  | list | undo | redo | saveDefault | quit | question | help => rfl

end Dispatching

section Samples

attribute [local instance] sampleDigests

/-- An empty buffer and nothing printed. -/
def emptySession : Session := ⟨(LineBuffer.new Heap.empty none).1, (LineBuffer.new Heap.empty none).2, sampleDisk "", []⟩

/-- Spaces in front of a text and inside it are kept. -/
theorem sample_render : ∃ next,
    dispatch ⟨none, "\n", none⟩ emptySession "i 1  a  b\t" = .ok (true, next) ∧
      next.buffer.iterLines next.heap = .ok [" a  b"] := by
  have shown : HelpCommand.render (.insert 1 " a  b\t") = "i 1  a  b\t" := by decide
  have documented : HelpCommand.Documented (.insert 1 " a  b\t") := by
    constructor
    · decide
    · constructor <;> decide
  have performed := dispatch_render ⟨none, "\n", none⟩ emptySession documented trivial
  rw [shown] at performed
  exact ⟨_, performed, rfl⟩

/-- A space at the end of a text is not inserted. A path is cut at its first space: another file is written, and
the one that was meant keeps its bytes. -/
theorem arguments_cut :
    (HelpCommand.Documented (.insert 1 "a ") ∧ ∃ next other,
      dispatch ⟨none, "\n", none⟩ emptySession (HelpCommand.render (.insert 1 "a ")) = .ok (true, next) ∧
        next.buffer.iterLines next.heap = .ok ["a"] ∧
        HelpCommand.perform ⟨none, "\n", none⟩ emptySession (.insert 1 "a ") = .ok (true, other) ∧
        other.buffer.iterLines other.heap = .ok ["a "]) ∧
    HelpCommand.Documented (.save "a b") ∧ ∃ next,
      dispatch ⟨none, "\n", none⟩ { emptySession with disk := sampleDisk "old" } (HelpCommand.render (.save "a b")) =
          .ok (true, next) ∧
        next.output = [.stdout "saved to a"] ∧ next.disk.contents "a" = some [] ∧
        next.disk.contents "a b" = some (asBytes "old") := by
  constructor
  · exact ⟨⟨by decide, by constructor <;> decide⟩, _, _, rfl, rfl, rfl, rfl⟩
  · exact ⟨⟨by decide, by constructor <;> decide, by simp, by simp⟩, _, rfl, rfl, rfl, rfl⟩

end Samples

end Mallard
