import Mallard.Soundness.RoundTrip
import Mallard.Soundness.SavedFiles

/-! # Plain files that are saved and opened again

A program that edits a file in place opens what an earlier run left there. On the plain path the saved
lines come back, except for a last one that is empty.
-/

namespace Mallard

open LineEditor LineTerminators

/-- The program edits a file in place, without a forced encoding. -/
structure Args.InPlace (args : Args) (path : String) : Prop where
  file : args.file = some path
  output : args.output.or args.file = some path
  plain : args.forceEncoding = none

/-- The file can be read and created, and takes any number of bytes. -/
structure Disk.Usable (disk : Disk) (path : String) : Prop where
  readable : disk.readError path = none
  creatable : disk.createError path = none
  unlimited : disk.room path = none

instance : DecidablePred BareText := fun line => inferInstanceAs (Decidable ('\r' ∉ line.toList ∧ '\n' ∉ line.toList))

theorem Disk.Usable.decodedLines {disk : Disk} {path text : String} (usable : disk.Usable path)
    (contents : disk.contents path = some (asBytes text)) : decodedLines disk path none = some (textLines text) := by
  simp only [Mallard.decodedLines, Disk.read, usable.readable, contents, fromUtf8_asBytes, Option.map_some]

/-- A file with a text is opened without a report. -/
theorem Args.InPlace.openedFile {args : Args} {around : Surroundings} {path text : String} (inPlace : args.InPlace path)
    (there : around.pathExists path) (usable : around.disk.Usable path)
    (contents : around.disk.contents path = some (asBytes text)) :
    openedFile around none args.file = ([], textLines text) := by
  have read : around.disk.read path = .ok (asBytes text) := by simp only [Disk.read, usable.readable, contents]
  rw [inPlace.file, Mallard.openedFile, if_pos there, loadedLines_plain, usable.decodedLines contents, loadReports, read]
  simp only [fromUtf8_asBytes, Option.getD_some, reduceCtorEq, if_false]

/-- A script keeps a file usable. -/
theorem Disk.Usable.final {desk : Desk} {path : String} (usable : desk.disk.Usable path) (context : Context)
    (validator : Option EncodingValidator) (script : List (Except IoError String)) :
    ((Desk.editor context validator).final desk script).disk.Usable path := by
  rw [(Desk.final_fields context validator desk script).2]
  exact ⟨usable.readable, usable.creatable, usable.unlimited⟩

/-- Joined lines are opened as the lines, without a last one that is empty. -/
theorem textLines_intercalate (choice : LineEnding) {lines : List String} (bare : ∀ line ∈ lines, BareText line) :
    textLines (choice.asStr.intercalate lines) = lines.dropEnd "" := by
  have joined : choice.asStr.intercalate lines =
      String.ofList (choice.asStr.toList.intercalate (lines.map String.toList)) := by
    rw [← String.toList_intercalate, String.ofList_toList]
  rw [joined, LineBuffer.textLines_join choice bare]
  rfl

/-- The command lines that are processed are those that are read. -/
theorem Desk.processed_eq (context : Context) (validator : Option EncodingValidator) (desk : Desk)
    (script : List (Except IoError String)) :
    processed script = ((editor context validator).reads desk script).filterMap fun read => read.2.toOption := by
  induction script generalizing desk with
  | nil => rfl
  | cons entry rest ih =>
    cases entry with
    | error error => rfl
    | ok line =>
      rw [processed]
      by_cases quit : request usizeMax line = .quit
      · have stops : (editor context validator).proceeds desk (.ok line) = false := decide_eq_false (not_not.mpr quit)
        rw [if_pos quit, Interaction.reads_cons_of_stops stops]
        rfl
      · have proceeds : (editor context validator).proceeds desk (.ok line) := decide_eq_true quit
        rw [if_neg quit, Interaction.reads_cons_of_proceeds proceeds, ih]
        rfl

end Mallard
