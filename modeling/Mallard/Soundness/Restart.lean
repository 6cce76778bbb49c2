import Mallard.Proofs.Reopening
import Mallard.Soundness.ScriptComposition

/-! # Saving, leaving and coming back

All that a session knows beyond its file is its history and the text behind the last save. So a user who
saves, leaves and opens the file again can go on as if nothing had happened: from there on the program
prints the same and writes the same files, as long as no command reaches back for the history.
-/

namespace Mallard

open LineEditor LineTerminators

/-- The desks show the same lines beside the same files; their histories may differ. -/
structure Desk.Alike (left right : Desk) : Prop where
  present : left.texts.present = right.texts.present
  disk : left.disk = right.disk

/-- No command line that moves in the history. -/
def Forward : Except IoError String → Prop
  | .error _ => True
  | .ok line => request usizeMax line ≠ .undo ∧ request usizeMax line ≠ .redo

instance : DecidablePred Forward
  | .error _ => inferInstanceAs (Decidable True)
  | .ok line => inferInstanceAs (Decidable (request usizeMax line ≠ .undo ∧ request usizeMax line ≠ .redo))

/-- A request that does not move in the history looks at the present only. -/
theorem step_present (accepts : String → Prop) [DecidablePred accepts] {left right : Timeline (List String)}
    (same : left.present = right.present) {asked : Request} (notUndo : asked ≠ .undo) (notRedo : asked ≠ .redo) :
    (step accepts left asked).present = (step accepts right asked).present := by
  cases asked with
  | undo => exact absurd rfl notUndo
  | redo => exact absurd rfl notRedo
  | insert number text =>
    simp only [step, same]
    split
    · rfl
    · exact same
  | replace number text =>
    simp only [step, same]
    split
    · rfl
    · exact same
  | delete number =>
    simp only [step, same]
    split
    · rfl
    · exact same
  | quit | nothing => exact same

/-- Nor does it bring in other texts. -/
theorem introduced_present (accepts : String → Prop) [DecidablePred accepts] {left right : Timeline (List String)}
    (same : left.present = right.present) (asked : Request) : introduced accepts left asked = introduced accepts right asked := by
  cases asked with
  | replace number text => simp only [introduced, same]
  | insert | delete | undo | redo | quit | nothing => rfl

theorem allIntroduced_present (accepts : String → Prop) [DecidablePred accepts] {left right : Timeline (List String)}
    (same : left.present = right.present) {script : List (Except IoError String)} (forward : ∀ entry ∈ script, Forward entry) :
    allIntroduced accepts usizeMax left script = allIntroduced accepts usizeMax right script := by
  induction script generalizing left right with
  | nil => rfl
  | cons entry rest ih =>
    rw [List.forall_mem_cons] at forward
    cases entry with
    | error error => rfl
    | ok line =>
      rw [allIntroduced, allIntroduced, introduced_present accepts same,
        ih (step_present accepts same forward.1.1 forward.1.2) forward.2]

theorem command_ne_of_forward {line : String} (forward : Forward (.ok line)) :
    (words line).command ≠ "u" ∧ (words line).command ≠ "e" := by
  constructor
  · intro undo
    exact forward.1 (by simp [request, Words.request, undo])
  · intro redo
    exact forward.2 (by simp [request, Words.request, redo])

/-- Desks that are alike print alike and stay alike, until a command moves in the history. -/
theorem Desk.lockstep (context : Context) (validator : Option EncodingValidator) :
    Interaction.Lockstep (editor context validator) (editor context validator) Alike Forward where
  proceeds := by
    intro left right entry _ _
    cases entry <;> rfl
  prints := by
    intro left right entry alike forward
    cases entry with
    | error error => rfl
    | ok line =>
      obtain ⟨notUndo, notRedo⟩ := command_ne_of_forward forward
      simp only [editor, shows, saves, alike.present, alike.disk, notUndo, notRedo, if_false]
  next := by
    intro left right entry alike forward
    cases entry with
    | error error => exact alike
    | ok line =>
      refine ⟨step_present _ alike.present forward.1 forward.2, ?_⟩
      simp only [editor, store, alike.present, alike.disk]

/-- A script without a line that stops it is read to its end. -/
theorem Desk.finishes (context : Context) (validator : Option EncodingValidator) {script : List (Except IoError String)}
    (goes : ∀ entry ∈ script, ¬ Stops entry) (desk : Desk) : (editor context validator).Finishes desk script := by
  induction script generalizing desk with
  | nil => exact fun _ member => absurd member List.not_mem_nil
  | cons entry rest ih =>
    rw [List.forall_mem_cons] at goes
    refine Interaction.finishes_cons.mpr ⟨?_, ih goes.2 _⟩
    cases entry with
    | error error => exact absurd trivial goes.1
    | ok line => exact decide_eq_true goes.1

/-- Behind a save to a path as the last command line, the last version saved there is what is shown. -/
theorem Desk.versions_last (context : Context) (validator : Option EncodingValidator) {script : List (Except IoError String)}
    (goes : ∀ entry ∈ script, ¬ Stops entry) {line path : String} (last : script.getLast? = some (.ok line))
    (target : context.target? (words line) = some path) {desk : Desk} (creatable : desk.disk.createError path = none) :
    (versions context validator path desk script).getLast? =
      some ((editor context validator).final desk script).texts.present := by
  obtain ⟨front, rfl⟩ := List.getLast?_eq_some_iff.mp last
  rw [List.forall_mem_append, List.forall_mem_singleton] at goes
  obtain ⟨reads, final⟩ := (finishes context validator goes.1 desk).append [.ok line]
  have proceeds (state : Desk) : (editor context validator).proceeds state (.ok line) := decide_eq_true goes.2
  have saves : (words line).command = "s" := by
    by_contra other
    rw [Context.target?_of_ne other] at target
    cases target
  have nothing : request usizeMax line = .nothing := by simp [request, Words.request, saves]
  have created : ((editor context validator).final desk front).disk.createError path = none := by
    rw [(final_fields context validator desk front).2]
    exact creatable
  generalize (editor context validator).final desk front = state at reads final created
  have version : version? context path (state, .ok line) = some state.texts.present := by
    rw [version?]
    dsimp only
    rw [target]
    exact if_pos ⟨rfl, created⟩
  have one : [(state, Except.ok line)].filterMap (version? context path) = [state.texts.present] := by
    rw [List.filterMap_cons, version]
    rfl
  have stays : ((editor context validator).next state (.ok line)).texts = state.texts := by
    simp only [editor, nothing, step]
  rw [Interaction.final_cons_of_proceeds (proceeds state)] at final
  rw [Interaction.reads_cons_of_proceeds (proceeds state)] at reads
  rw [versions, reads, final, List.filterMap_append]
  change (_ ++ [(state, Except.ok line)].filterMap (version? context path)).getLast? =
    some ((editor context validator).next state (.ok line)).texts.present
  rw [one, List.getLast?_concat, stays]

/-- The surroundings in which other bytes are typed. -/
def Surroundings.typing (around : Surroundings) (bytes : List UInt8) (failure : Option IoError) : Surroundings :=
  { around with stdin := ⟨bytes, failure⟩ }

/-- What is shown once all commands in the bytes were processed. -/
def Args.shownAfter (args : Args) (around : Surroundings) (bytes : List UInt8) : List String :=
  ((args.editor none).final (args.desk around none) (bufLines bytes none)).texts.present

section Restarts

variable {args : Args} {path : String} {around : Surroundings} {bytes : List UInt8}

/-- Commands that end with a save in place leave a file with the lines that are shown. -/
theorem Args.InPlace.left (inPlace : args.InPlace path) (usable : around.disk.Usable path)
    (goes : ∀ entry ∈ bufLines bytes none, ¬ Stops entry) {line : String}
    (last : (bufLines bytes none).getLast? = some (.ok line)) (saves : (args.context none).target? (words line) = some path)
    {later : Surroundings} (disk : later.disk = ((args.editor none).final (args.desk around none) (bufLines bytes none)).disk)
    (there : later.pathExists path) (bare : ∀ shown ∈ args.shownAfter around bytes, BareText shown)
    (ends : (args.shownAfter around bytes).getLast? ≠ some "") :
    Mallard.openedFile later none args.file = ([], args.shownAfter around bytes) := by
  have ready : (args.desk around none).disk.Usable path := usable
  have saved := @Desk.final_contents (args.context none) none path (args.desk around none)
    (bufLines bytes none)
  rw [Desk.versions_last _ _ goes last saves ready.creatable, Option.map_some, Option.getD_some, ready.unlimited] at saved
  have contents : later.disk.contents path =
      some (asBytes (args.lineEnding.asStr.intercalate (args.shownAfter around bytes))) := by
    rw [disk, ← flatten_lineChunks_eq]
    exact saved
  have usable' : later.disk.Usable path := by
    rw [disk]
    exact ready.final _ _ _
  rw [inPlace.openedFile there usable' contents, textLines_intercalate args.lineEnding bare, List.dropEnd_of_ne ends]

/-- Who opens the file with what was shown sees the desk that was left, but for its history. -/
theorem Args.alike_desk {later : Surroundings} {desk : Desk} (disk : later.disk = desk.disk) {reports : List Report}
    (opened : openedFile later none args.file = (reports, desk.texts.present)) : desk.Alike (args.desk later none) := by
  have fresh : (args.desk later none).texts = .fresh desk.texts.present := by
    rw [Args.desk, opened]
    rfl
  refine ⟨?_, disk.symm⟩
  rw [fresh]
  rfl

theorem fewTexts_typed (plain : args.forceEncoding = none) (typed : args.inputFile = none)
    (few : (playedTexts args around none around.stdin).toFinset.card ≤ idCount) : FewTexts args around := by
  intro encoding delivery resolved commands
  rw [plain] at resolved
  rw [typed] at commands
  cases resolved
  cases commands
  exact few

theorem FewTexts.mono (plain : args.forceEncoding = none) (typed : args.inputFile = none) (few : FewTexts args around)
    {later : Surroundings} (within : playedTexts args later none later.stdin ⊆ playedTexts args around none around.stdin) :
    FewTexts args later := by
  have whole := few none around.stdin (by rw [plain]; rfl) (by rw [typed]; rfl)
  refine fewTexts_typed plain typed ((Finset.card_le_card fun text member => ?_).trans whole)
  rw [List.mem_toFinset] at member ⊢
  exact within member

/-- All commands bring in the texts of the first ones and then those of the others. -/
theorem playedTexts_append (closed : Closed bytes) (goes : ∀ entry ∈ bufLines bytes none, ¬ Stops entry)
    (more : List UInt8) (failure : Option IoError) :
    playedTexts args around none ⟨bytes ++ more, failure⟩ =
      playedTexts args around none ⟨bytes, none⟩ ++ allIntroduced (Accepts none) usizeMax
        ((args.editor none).final (args.desk around none) (bufLines bytes none)).texts (bufLines more failure) := by
  have script : (Delivery.mk (bytes ++ more) failure).script = bufLines bytes none ++ bufLines more failure :=
    bufLines_append closed more failure
  rw [playedTexts, script, Args.editor, Option.map_none, Desk.final_texts, allIntroduced_append goes, ← List.append_assoc]
  rfl

/-- What is shown behind the first commands is in play in them. -/
theorem shownAfter_subset : args.shownAfter around bytes ⊆ playedTexts args around none ⟨bytes, none⟩ := by
  have held : ∀ snapshot ∈ (args.desk around none).texts.snapshots, ∀ line ∈ snapshot,
      line ∈ playedTexts args around none ⟨bytes, none⟩ := by
    intro snapshot member line listed
    obtain rfl := List.mem_singleton.mp member
    exact List.mem_append_left _ listed
  have within := forall_run held fun text brought => List.mem_append_right _ brought
  rw [Args.shownAfter, Args.editor, Option.map_none, Desk.final_texts]
  exact within _ (Timeline.mem_snapshots.mpr (.inr (.inl rfl)))

/-- Who comes back brings no other strings into play than who stays. -/
theorem playedTexts_subset (closed : Closed bytes) (goes : ∀ entry ∈ bufLines bytes none, ¬ Stops entry) {later : Surroundings}
    (opened : openedFile later none args.file = ([], args.shownAfter around bytes)) {more : List UInt8}
    {failure : Option IoError} (forward : ∀ entry ∈ bufLines more failure, Forward entry) :
    playedTexts args later none ⟨more, failure⟩ ⊆ playedTexts args around none ⟨bytes ++ more, failure⟩ := by
  have same : (args.desk later none).texts.present = args.shownAfter around bytes := by
    rw [Args.desk, present_openedTexts, opened]
  have brought := allIntroduced_present (Accepts none) same forward
  rw [playedTexts_append closed goes, playedTexts, opened, List.append_subset]
  refine ⟨fun line listed => List.mem_append_left _ (shownAfter_subset listed), fun text member => ?_⟩
  exact List.mem_append_right _ (brought ▸ member)

variable [Digests]

/-- A run on the plain path is a script of the editor, played to the typed commands. -/
theorem main_typed (plain : args.forceEncoding = none) (typed : args.inputFile = none) (few : FewTexts args around) :
    main args around =
      .ok ⟨.success, (openedFile around none args.file).1.map Output.stderr ++
          (args.editor none).printed (args.desk around none) around.stdin.script,
        ((args.editor none).final (args.desk around none) around.stdin.script).disk⟩ := by
  rw [main_desk few]
  simp only [program, plain, resolveEncoding, typed, openCommands]

/-- A user edits a file, saves it with the last command, leaves, and later types more commands that do not
move in the history. If what was saved has no terminator inside a line and no empty line at the end, the
second run prints the rest of what one run on all commands prints, and leaves the same disk. -/
theorem main_restart (inPlace : args.InPlace path) (typed : args.inputFile = none) (usable : around.disk.Usable path)
    {more : List UInt8} {failure : Option IoError}
    (closed : Closed bytes) (goes : ∀ entry ∈ bufLines bytes none, ¬ Stops entry) {line : String}
    (last : (bufLines bytes none).getLast? = some (.ok line)) (saves : (args.context none).target? (words line) = some path)
    (bare : ∀ shown ∈ args.shownAfter around bytes, BareText shown) (ends : (args.shownAfter around bytes).getLast? ≠ some "")
    (forward : ∀ entry ∈ bufLines more failure, Forward entry)
    (few : FewTexts args (around.typing (bytes ++ more) failure)) :
    ∃ first, main args (around.typing bytes none) = .ok first ∧
      ∀ later : Surroundings, later.disk = first.disk → later.pathExists path →
        ∃ second, main args (later.typing more failure) = .ok second ∧
          main args (around.typing (bytes ++ more) failure) =
            .ok ⟨.success, first.output ++ second.output, second.disk⟩ := by
  have finishes : (args.editor none).Finishes (args.desk around none) (bufLines bytes none) :=
    Desk.finishes _ _ goes _
  -- The second run opens what the first one showed at its end.
  have opened {later : Surroundings} (disk : later.disk = ((args.editor none).final (args.desk around none)
      (bufLines bytes none)).disk) (there : later.pathExists path) :
      openedFile later none args.file = ([], args.shownAfter around bytes) :=
    inPlace.left usable goes last saves disk there bare ends
  have fewFirst : FewTexts args (around.typing bytes none) :=
    few.mono inPlace.plain typed fun text member =>
      (playedTexts_append closed goes more failure).symm ▸ List.mem_append_left _ member
  refine ⟨_, main_typed inPlace.plain typed fewFirst, fun later disk there => ?_⟩
  have fewLater : FewTexts args (later.typing more failure) :=
    few.mono inPlace.plain typed (playedTexts_subset closed goes (opened disk there) forward)
  have alike := Args.alike_desk disk (opened disk there)
  obtain ⟨printed, related⟩ := (Desk.lockstep (args.context none) none).run forward alike
  refine ⟨_, main_typed inPlace.plain typed fewLater, ?_⟩
  have reopened : openedFile (later.typing more failure) none args.file = _ := opened disk there
  rw [main_typed inPlace.plain typed few, reopened]
  have script : (around.typing (bytes ++ more) failure).stdin.script = bufLines bytes none ++ bufLines more failure :=
    bufLines_append closed more failure
  have desk : args.desk (around.typing (bytes ++ more) failure) none = args.desk around none := rfl
  rw [script, desk, finishes.printed_append, (finishes.append _).2, List.map_nil, List.nil_append, ← List.append_assoc]
  exact congrArg Except.ok (congrArg₂ (Finish.mk .success) (congrArg _ printed) related.disk)

end Restarts

section Samples

attribute [local instance] sampleDigests

/-- An insertion and a save; then, having come back, a deletion, a listing and a save elsewhere. -/
theorem sample_restart : ∃ first second, main sampleArgs ((sampleSurroundings "a" "").typing (asBytes "i 1 b\ns\n") none) =
      .ok first ∧
    main sampleArgs (Surroundings.typing { sampleSurroundings "a" "" with disk := first.disk } (asBytes "d 2\nl\ns g") none) =
      .ok second ∧
    main sampleArgs ((sampleSurroundings "a" "").typing (asBytes "i 1 b\ns\nd 2\nl\ns g") none) =
      .ok ⟨.success, first.output ++ second.output, second.disk⟩ := by
  have whole : asBytes "i 1 b\ns\nd 2\nl\ns g" = asBytes "i 1 b\ns\n" ++ asBytes "d 2\nl\ns g" := by decide +kernel
  have few : FewTexts sampleArgs
      ((sampleSurroundings "a" "").typing (asBytes "i 1 b\ns\n" ++ asBytes "d 2\nl\ns g") none) :=
    fewTexts_typed rfl rfl (by decide +kernel)
  obtain ⟨first, ran, restarts⟩ := @main_restart sampleArgs "f" (sampleSurroundings "a" "") (asBytes "i 1 b\ns\n") _
    ⟨rfl, rfl, rfl⟩ rfl ⟨rfl, rfl, rfl⟩ (asBytes "d 2\nl\ns g") none (by decide +kernel) (by decide +kernel) "s"
    (by decide +kernel) (by decide +kernel) (by decide +kernel) (by decide +kernel) (by decide +kernel) few
  obtain ⟨second, again, same⟩ := restarts { sampleSurroundings "a" "" with disk := first.disk } rfl rfl
  exact ⟨first, second, ran, again, whole ▸ same⟩

end Samples

end Mallard
