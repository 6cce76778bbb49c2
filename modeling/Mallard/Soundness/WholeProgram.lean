import Mallard.Proofs.Opening
import Mallard.Soundness.ObservableRefinement

/-! # The whole program

From its arguments and surroundings the program can be told on a desk: it exits over an unknown label,
opens its file, and puts the commands to the editor until one stops it. `main` does exactly this and
never panics, whatever the file, the encoding and the commands are.
-/

namespace Mallard

open LineEditor

/-- The settings that the arguments make. -/
def Args.context (args : Args) (encoding : Option Encoding) : Context :=
  ⟨args.output.or args.file, args.lineEnding.asStr, encoding⟩

/-- The desk once the file to edit was opened. -/
def Args.desk (args : Args) (around : Surroundings) (encoding : Option Encoding) : Desk :=
  ⟨openedTexts (openedFile around encoding args.file).2 encoding, around.disk⟩

/-- The editor that the arguments make. -/
def Args.editor (args : Args) (encoding : Option Encoding) : Interaction Desk (Except IoError String) Output :=
  Desk.editor (args.context encoding) (encoding.map forcedEncodingValidator)

/-- The command lines that a delivery yields. -/
def Delivery.script (delivery : Delivery) : List (Except IoError String) := bufLines delivery.bytes delivery.failure

/-- The program over strings and files. -/
def program (args : Args) (around : Surroundings) : Finish :=
  match resolveEncoding around args.forceEncoding with
  | .error exit => ⟨exit, [], around.disk⟩
  | .ok encoding =>
    let reports := (openedFile around encoding args.file).1.map Output.stderr
    match openCommands around args.inputFile with
    | .error exit => ⟨exit, reports, around.disk⟩
    | .ok delivery =>
      ⟨.success, reports ++ (args.editor encoding).printed (args.desk around encoding) delivery.script,
        ((args.editor encoding).final (args.desk around encoding) delivery.script).disk⟩

/-- The strings in play: the lines of the opened file and what the commands bring in. -/
def playedTexts (args : Args) (around : Surroundings) (encoding : Option Encoding) (delivery : Delivery) :
    List String :=
  (openedFile around encoding args.file).2 ++
    allIntroduced (Accepts (encoding.map forcedEncodingValidator)) usizeMax (args.desk around encoding).texts
      delivery.script

/-- At most `2 ^ 32` distinct strings are in play, if the command loop is reached. -/
def FewTexts (args : Args) (around : Surroundings) : Prop :=
  ∀ encoding delivery, resolveEncoding around args.forceEncoding = .ok encoding →
    openCommands around args.inputFile = .ok delivery →
      (playedTexts args around encoding delivery).toFinset.card ≤ idCount

section Programs

variable [Digests]

/-- The session that the command loop starts with. -/
structure Begins (args : Args) (around : Surroundings) (encoding : Option Encoding) (session : Session) : Prop where
  opens : Opens (openedFile around encoding args.file).2 encoding session.heap session.buffer
  disk : session.disk = around.disk
  output : session.output = (openedFile around encoding args.file).1.map Output.stderr

/-- Behind a known label, `main` is the command loop on what it opened. -/
theorem main_begins {args : Args} {around : Surroundings} {encoding : Option Encoding}
    (resolved : resolveEncoding around args.forceEncoding = .ok encoding) :
    ∃ session, Begins args around encoding session ∧
      (∀ exit, openCommands around args.inputFile = .error exit →
        main args around = .ok ⟨exit, session.output, session.disk⟩) ∧
      ∀ delivery, openCommands around args.inputFile = .ok delivery →
        main args around = (runLoop (args.context encoding) session delivery.script).map fun final =>
          ⟨.success, final.output, final.disk⟩ := by
  obtain ⟨heap, buffer, opened, opens⟩ := openFile_opens around .empty encoding args.file
  refine ⟨⟨heap, buffer, around.disk, (openedFile around encoding args.file).1.map .stderr⟩, ⟨opens, rfl, rfl⟩, ?_, ?_⟩
  · intro exit refused
    simp only [main, resolved, opened, Outcome.ok_bind, refused, Outcome.pure_eq]
  · intro delivery commands
    simp only [main, resolved, opened, Outcome.ok_bind, commands]
    exact (map_eq_pure_bind _ _).symm

/-- An unknown label ends the program before it touches anything. -/
theorem main_unresolved {args : Args} {around : Surroundings} {exit : Exit}
    (failed : resolveEncoding around args.forceEncoding = .error exit) :
    main args around = .ok ⟨exit, [], around.disk⟩ := by
  simp only [main, failed, Outcome.pure_eq]

/-- Few strings of an opened file are all that a session knows at first. -/
theorem Begins.holds {args : Args} {around : Surroundings} {encoding : Option Encoding} {session : Session}
    (begins : Begins args around encoding session) {delivery : Delivery}
    (few : (playedTexts args around encoding delivery).toFinset.card ≤ idCount) :
    session.buffer.Holds session.heap (args.desk around encoding).texts ∧
      (session.texts (args.desk around encoding).texts delivery.script).toFinset.card ≤ idCount := by
  obtain ⟨validator, contents, texts, holds, agrees⟩ := begins.opens
  have listed : (session.heap.lock session.buffer.pool).contents.toFinset =
      (openedFile around encoding args.file).2.toFinset := by
    rw [contents]
    ext text
    simp
  have fits : (session.heap.lock session.buffer.pool).Fits := by
    rw [GreenPool.Fits, ← GreenPool.length_contents, contents, List.length_inventory]
    refine (Finset.card_le_card ?_).trans few
    rw [playedTexts, List.toFinset_append]
    exact Finset.subset_union_left
  rw [agrees fits] at holds
  refine ⟨holds, ?_⟩
  rw [Session.texts, List.toFinset_append, listed, validator, ← List.toFinset_append]
  exact few

/-- With at most `2 ^ 32` distinct strings in play, `main` is the program over strings and files. -/
theorem main_desk {args : Args} {around : Surroundings} (few : FewTexts args around) :
    main args around = .ok (program args around) := by
  rw [program]
  cases resolved : resolveEncoding around args.forceEncoding with
  | error exit => exact main_unresolved resolved
  | ok encoding =>
    obtain ⟨session, begins, refused, runs⟩ := main_begins resolved
    cases commands : openCommands around args.inputFile with
    | error exit => rw [refused exit commands, begins.output, begins.disk]
    | ok delivery =>
      obtain ⟨holds, fewer⟩ := begins.holds (few encoding delivery resolved commands)
      obtain ⟨final, ran, onDesk⟩ := runLoop_desk (args.context encoding) holds delivery.script fewer
      rw [begins.opens.validator, begins.disk] at onDesk
      rw [runs delivery commands, ran, Except.map, onDesk.output, onDesk.disk, begins.output]
      rfl

/-- `main` never panics. It ends as the program over strings and files does, and with at most `2 ^ 32`
distinct strings in play it prints the same and leaves the same disk. -/
theorem main_refines (args : Args) (around : Surroundings) :
    ∃ ending, main args around = .ok ending ∧ ending.exit = (program args around).exit ∧
      (FewTexts args around → ending = program args around) := by
  have agrees {ending : Finish} (returned : main args around = .ok ending) (few : FewTexts args around) :
      ending = program args around := Except.ok.inj (returned.symm.trans (main_desk few))
  rw [program] at agrees ⊢
  cases resolved : resolveEncoding around args.forceEncoding with
  | error exit => exact ⟨_, main_unresolved resolved, rfl, fun _ => rfl⟩
  | ok encoding =>
    rw [resolved] at agrees
    obtain ⟨session, begins, refused, runs⟩ := main_begins resolved
    cases commands : openCommands around args.inputFile with
    | error exit =>
      rw [commands] at agrees
      exact ⟨_, refused exit commands, rfl, agrees (refused exit commands)⟩
    | ok delivery =>
      rw [commands] at agrees
      obtain ⟨texts, holds, _⟩ := begins.opens.holds
      obtain ⟨final, ran, _⟩ := runLoop_holds (args.context encoding) holds delivery.script
      have returned : main args around = .ok ⟨.success, final.output, final.disk⟩ := by
        rw [runs delivery commands, ran]
        rfl
      exact ⟨_, returned, rfl, agrees returned⟩

end Programs

section Samples

attribute [local instance] sampleDigests

/-- The arguments `--file f`. -/
def sampleArgs : Args := ⟨some "f", none, none, .lf, none⟩

/-- A CRLF file, and commands that list it, append a line, save and quit. -/
def sampleAround : Surroundings := sampleSurroundings "a\r\nb\r\n" "l\r\ni 9 c  d\ns\nx\nq\ns g\n"

theorem sample_program : ∃ ending, main sampleArgs sampleAround = .ok ending ∧ ending.exit = .success ∧
    ending.output = [.stdout "     1  a", .stdout "     2  b", .stdout "saved to f", .stderr (.unrecognised "x")] ∧
    ending.disk.contents "f" = some (asBytes "a\nb\nc  d") := by
  obtain ⟨ending, returned, exit, agrees⟩ := main_refines sampleArgs sampleAround
  have few : FewTexts sampleArgs sampleAround := by
    intro encoding delivery resolved commands
    obtain rfl : none = encoding := Except.ok.inj resolved
    obtain rfl : sampleAround.stdin = delivery := Except.ok.inj commands
    decide +kernel
  obtain rfl := agrees few
  refine ⟨_, returned, rfl, ?_, ?_⟩
  · decide +kernel
  · decide +kernel

end Samples

end Mallard
