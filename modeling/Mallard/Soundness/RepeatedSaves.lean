import Mallard.Proofs.Reopening

/-! # What repeated saving does to a file

A user who opens a file, saves it unchanged and leaves does not always leave the file as it is. The first
visit spells the terminators the chosen way and drops the one behind the last line. Every further visit
takes one empty line off the end, until none is left there. All of this is for a disk with room for the
file and for lines that get ids of their own: at most 2^32 distinct ones.
-/

namespace Mallard

open LineEditor

/-- The command lines that are processed edit nothing and move in no history. -/
def Idle (script : List (Except IoError String)) : Prop :=
  ∀ line ∈ processed script, request usizeMax line = .nothing ∨ request usizeMax line = .quit

instance (script : List (Except IoError String)) : Decidable (Idle script) :=
  inferInstanceAs (Decidable (∀ line ∈ processed script, request usizeMax line = .nothing ∨ request usizeMax line = .quit))

section Idle

variable {script : List (Except IoError String)}

/-- An idle script brings in no string. -/
theorem Idle.allIntroduced (idle : Idle script) (accepts : String → Prop) [DecidablePred accepts]
    (texts : Timeline (List String)) : LineEditor.allIntroduced accepts usizeMax texts script = [] := by
  induction script generalizing texts with
  | nil => rfl
  | cons entry rest ih =>
    cases entry with
    | error error => rfl
    | ok line =>
      rw [LineEditor.allIntroduced]
      by_cases quit : request usizeMax line = .quit
      · rw [if_pos quit]
      · rw [Idle, processed, if_neg quit, List.forall_mem_cons] at idle
        have nothing := idle.1.resolve_right quit
        rw [if_neg quit, nothing, ih idle.2]
        rfl

/-- The texts stay as they are. -/
theorem Idle.texts (idle : Idle script) (context : Context) (validator : Option EncodingValidator) (desk : Desk) :
    ∀ read ∈ (Desk.editor context validator).reads desk script, read.1.texts = desk.texts := by
  refine (Interaction.invariant (P := fun state : Desk => state.texts = desk.texts) ?_ rfl).1
  intro read member same
  obtain ⟨state, entry⟩ := read
  cases entry with
  | error error => exact same
  | ok line =>
    have processed : line ∈ processed script := by
      rw [Desk.processed_eq context validator desk]
      exact List.mem_filterMap.mpr ⟨_, member, rfl⟩
    change step (Accepts validator) state.texts (request usizeMax line) = desk.texts
    rcases idle line processed with nothing | quit
    · rw [nothing]
      exact same
    · rw [quit]
      exact same

/-- All versions that are saved are the lines at the beginning. -/
theorem Idle.versions (idle : Idle script) (context : Context) (validator : Option EncodingValidator) (desk : Desk)
    {path : String} (creatable : desk.disk.createError path = none) (saves : path ∈ context.targets script) :
    (Desk.versions context validator path desk script).getLast? = some desk.texts.present := by
  have same : ∀ version ∈ Desk.versions context validator path desk script, version = desk.texts.present := by
    intro version saved
    obtain ⟨⟨state, entry⟩, member, written⟩ := List.mem_filterMap.mp saved
    have texts := idle.texts context validator desk _ member
    cases entry with
    | error error => cases written
    | ok line =>
      obtain ⟨_, _, written⟩ := Option.bind_eq_some_iff.mp written
      obtain ⟨_, present⟩ := Option.ite_none_right_eq_some.mp written
      rw [← Option.some.inj present, texts]
  obtain ⟨line, member, target⟩ := List.mem_filterMap.mp saves
  rw [Desk.processed_eq context validator desk] at member
  obtain ⟨⟨state, entry⟩, member, read⟩ := List.mem_filterMap.mp member
  have created : state.disk.createError path = none := by
    rw [(Desk.final_fields context validator desk script).1 _ member]
    exact creatable
  have saved : state.texts.present ∈ Desk.versions context validator path desk script := by
    refine List.mem_filterMap.mpr ⟨_, member, ?_⟩
    cases entry with
    | error error => cases read
    | ok other =>
      cases read
      rw [Desk.version?]
      dsimp only
      rw [target]
      exact if_pos ⟨rfl, created⟩
  have nonempty := List.ne_nil_of_mem saved
  rw [List.getLast?_eq_getLast_of_ne_nil nonempty, same _ (List.getLast_mem nonempty)]

end Idle

section Visits

variable [Digests]

/-- The disk behind a number of runs of the program with the same arguments and commands. -/
def visits (args : Args) (around : Surroundings) : ℕ → Disk → Outcome Disk
  | 0, disk => pure disk
  | count + 1, disk => do
    let ending ← main args { around with disk }
    visits args around count ending.disk

variable {args : Args} {path : String} {around : Surroundings} {delivery : Delivery}

/-- What each visit makes of what the one before it left. -/
theorem visits_induction {Opens Leaves : ℕ → Disk → Prop} {count : ℕ}
    (visit : ∀ before ≤ count, ∀ disk, Opens before disk →
      ∃ ending, main args { around with disk } = .ok ending ∧ Leaves before ending.disk)
    (again : ∀ before < count, ∀ disk, Leaves before disk → Opens (before + 1) disk) {disk : Disk} (start : Opens 0 disk) :
    ∃ final, visits args around (count + 1) disk = .ok final ∧ Leaves count final := by
  induction count generalizing Opens Leaves disk with
  | zero =>
    obtain ⟨ending, ran, left⟩ := visit 0 le_rfl disk start
    refine ⟨ending.disk, ?_, left⟩
    rw [visits, ran]
    rfl
  | succ count ih =>
    obtain ⟨ending, ran, left⟩ := visit 0 (Nat.zero_le _) disk start
    obtain ⟨final, visited, last⟩ := @ih (fun before => Opens (before + 1)) (fun before => Leaves (before + 1))
      (fun before within => visit (before + 1) (Nat.succ_le_succ within))
      (fun before within => again (before + 1) (Nat.succ_lt_succ within)) ending.disk
      (again 0 (Nat.succ_pos count) ending.disk left)
    refine ⟨final, ?_, last⟩
    rw [visits, ran]
    exact visited

/-- An idle visit with a save writes the lines that were opened. -/
theorem main_visit {encoding : Option Encoding} (resolved : resolveEncoding around args.forceEncoding = .ok encoding)
    (usable : around.disk.Usable path) (few : (openedFile around encoding args.file).2.toFinset.card ≤ idCount)
    (commands : openCommands around args.inputFile = .ok delivery) (idle : Idle delivery.script)
    (saves : path ∈ (args.context encoding).targets delivery.script) :
    ∃ ending, main args around = .ok ending ∧ ending.disk.Usable path ∧ ending.disk.contents path =
      some (savedChunks args.lineEnding.asStr (openedFile around encoding args.file).2 encoding).flatten := by
  have fewTexts : FewTexts args around := by
    intro encoding' other resolved' commands'
    cases resolved.symm.trans resolved'
    cases commands.symm.trans commands'
    rw [playedTexts, idle.allIntroduced, List.append_nil]
    exact few
  refine ⟨_, main_desk fewTexts, ?_⟩
  simp only [program, resolved, commands]
  have ready : (args.desk around encoding).disk.Usable path := usable
  have saved := @Desk.final_contents (args.context encoding) (encoding.map forcedEncodingValidator) path
    (args.desk around encoding) delivery.script
  rw [idle.versions _ _ _ ready.creatable saves, Args.desk, present_openedTexts] at saved
  refine ⟨ready.final _ _ _, saved.trans ?_⟩
  rw [Option.map_some, Option.getD_some, usable.unlimited]
  rfl

/-- On the plain path it joins the lines of the file. -/
theorem plain_visit (inPlace : args.InPlace path) (there : around.pathExists path) (usable : around.disk.Usable path)
    {text : String} (contents : around.disk.contents path = some (asBytes text))
    (few : (textLines text).toFinset.card ≤ idCount) (commands : openCommands around args.inputFile = .ok delivery)
    (idle : Idle delivery.script) (saves : path ∈ (args.context none).targets delivery.script) :
    ∃ ending, main args around = .ok ending ∧ ending.disk.Usable path ∧
      ending.disk.contents path = some (asBytes (args.lineEnding.asStr.intercalate (textLines text))) := by
  have opened := inPlace.openedFile there usable contents
  have resolved : resolveEncoding around args.forceEncoding = .ok none := by
    rw [inPlace.plain]
    rfl
  have visited := main_visit resolved usable (opened ▸ few) commands idle saves
  rwa [opened, savedChunks, flatten_lineChunks_eq] at visited

/-- Behind some visits and one more, the file has lost as many empty last lines as there were visits before. -/
theorem visits_joined (inPlace : args.InPlace path) (there : around.pathExists path)
    (commands : openCommands around args.inputFile = .ok delivery) (idle : Idle delivery.script)
    (saves : path ∈ (args.context none).targets delivery.script) (count : ℕ) {disk : Disk} (usable : disk.Usable path)
    {text : String} (contents : disk.contents path = some (asBytes text)) (few : (textLines text).toFinset.card ≤ idCount) :
    ∃ final, visits args around (count + 1) disk = .ok final ∧
      final.contents path = some (asBytes (args.lineEnding.asStr.intercalate ((List.dropEnd "")^[count] (textLines text)))) := by
  have kept (before : ℕ) : (List.dropEnd "")^[before] (textLines text) ⊆ textLines text :=
    (List.iterate_dropEnd_sublist "" _ before).subset
  have visited := @visits_induction _ args around
    (fun before disk => disk.Usable path ∧ ∃ held, disk.contents path = some (asBytes held) ∧
      textLines held = (List.dropEnd "")^[before] (textLines text))
    (fun before disk => disk.Usable path ∧ disk.contents path =
      some (asBytes (args.lineEnding.asStr.intercalate ((List.dropEnd "")^[before] (textLines text)))))
    count ?_ ?_ disk ⟨usable, text, contents, rfl⟩
  · obtain ⟨final, ran, _, saved⟩ := visited
    exact ⟨final, ran, saved⟩
  · rintro before _ disk ⟨usable, held, contents, lines⟩
    have fewer : (textLines held).toFinset.card ≤ idCount := by
      refine (Finset.card_le_card fun line member => ?_).trans few
      rw [List.mem_toFinset, lines] at member
      exact List.mem_toFinset.mpr (kept before member)
    have visit := @plain_visit _ args path { around with disk } delivery inPlace there usable held contents fewer commands
      idle saves
    rwa [lines] at visit
  · rintro before _ disk ⟨usable, contents⟩
    refine ⟨usable, _, contents, ?_⟩
    rw [Function.iterate_succ_apply']
    exact textLines_intercalate args.lineEnding fun _ member => bare_of_mem_textLines (kept before member)

/-- A file that is opened, saved unchanged and left again and again holds its lines, joined the chosen way.
The first visit keeps them all, and each further one takes an empty line off the end, if there is one. -/
theorem main_visits (inPlace : args.InPlace path) (there : around.pathExists path)
    (usable : around.disk.Usable path) {text : String} (contents : around.disk.contents path = some (asBytes text))
    (few : (textLines text).toFinset.card ≤ idCount) (commands : openCommands around args.inputFile = .ok delivery)
    (idle : Idle delivery.script) (saves : path ∈ (args.context none).targets delivery.script) (count : ℕ) :
    ∃ final, visits args around (count + 1) around.disk = .ok final ∧
      final.contents path = some (asBytes (args.lineEnding.asStr.intercalate
        ((textLines text).rdrop (min count ((textLines text).rtakeWhile fun line => line = "").length)))) := by
  rw [← List.iterate_dropEnd]
  exact visits_joined inPlace there commands idle saves count usable contents few

end Visits

section Samples

attribute [local instance] sampleDigests

/-- A file that ends in empty lines, visited three times. -/
theorem sample_visits : ∃ final,
    visits ⟨some "f", none, none, .crlf, none⟩ (sampleSurroundings "a\n\n\n" "l\ns\nq\nx") 3
        (sampleSurroundings "a\n\n\n" "l\ns\nq\nx").disk = .ok final ∧
      final.contents "f" = some (asBytes "a") := by
  obtain ⟨final, visited, left⟩ := @main_visits _ ⟨some "f", none, none, .crlf, none⟩ "f"
    (sampleSurroundings "a\n\n\n" "l\ns\nq\nx") _ ⟨rfl, rfl, rfl⟩ rfl ⟨rfl, rfl, rfl⟩ "a\n\n\n" rfl (by decide +kernel)
    rfl (by decide +kernel) (by decide +kernel) 2
  refine ⟨final, visited, left.trans ?_⟩
  decide +kernel

end Samples

end Mallard
