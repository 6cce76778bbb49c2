import Mallard.Soundness.WholeProgram

/-! # Which files a run writes, and what it leaves in them

Only a save writes to the disk, and only to the file that its path names. So a run leaves every file
alone that no processed command line saves to, by whatever path; the file that was opened is no
exception. A file that was saved to holds the lines of the last save to it that could create it,
whatever was written there before.
-/

namespace Mallard

open LineEditor

/-- The disks differ in the bytes of the files that the given paths name at most. -/
structure Disk.AgreesOff (paths : List String) (disk later : Disk) : Prop where
  fields : later = { disk with bytes := later.bytes }
  contents : ∀ path, (∀ target ∈ paths, ¬ disk.SameFile target path) → later.contents path = disk.contents path

namespace Disk

variable {paths more : List String} {disk later last : Disk}

theorem AgreesOff.refl (paths : List String) (disk : Disk) : disk.AgreesOff paths disk := ⟨rfl, fun _ _ => rfl⟩

theorem AgreesOff.trans (first : disk.AgreesOff paths later) (second : later.AgreesOff more last) :
    disk.AgreesOff (paths ++ more) last := by
  have names : later.canonical = disk.canonical := by rw [first.fields]
  refine ⟨?_, fun path absent => ?_⟩
  · rw [second.fields, first.fields]
  · rw [List.forall_mem_append] at absent
    have unnamed : ∀ target ∈ more, ¬ later.SameFile target path := by
      rw [show later.SameFile = disk.SameFile by unfold SameFile; rw [names]]
      exact absent.2
    rw [second.contents path unnamed, first.contents path absent.1]

/-- Another file keeps its bytes when one is written. -/
theorem contents_put_of_ne {path other : String} (differs : ¬ disk.SameFile path other) (bytes : List UInt8) :
    (disk.put path bytes).contents other = disk.contents other := Function.update_of_ne (Ne.symm differs) _ _

/-- The file that was written is the same by any other path. -/
theorem contents_put_of_same {path other : String} (same : disk.SameFile path other) (bytes : List UInt8) :
    (disk.put path bytes).contents other = some bytes := by
  have read : (disk.put path bytes).contents other = (disk.put path bytes).contents path :=
    congrArg (disk.put path bytes).bytes same.symm
  rw [read, contents_put]

theorem SameFile.room {path other : String} (same : disk.SameFile path other) : disk.room path = disk.room other :=
  congrArg disk.limit same

/-- A save writes to its own file only. -/
theorem agreesOff_save (disk : Disk) (path lineEnding : String) (lines : List String) (encoding : Option Encoding) :
    disk.AgreesOff [path] (disk.save path lineEnding lines encoding).2 := by
  rw [Disk.save]
  split
  · exact .refl _ _
  · exact ⟨rfl, fun other unnamed => contents_put_of_ne (unnamed path List.mem_cons_self) _⟩

end Disk

theorem Desk.agreesOff_store (context : Context) (desk : Desk) (words : Words) :
    desk.disk.AgreesOff (context.target? words).toList (desk.store context words) := by
  rw [store]
  split
  · exact .refl _ _
  · next path target =>
    rw [target]
    exact Disk.agreesOff_save _ path _ _ _

/-- The command lines that are processed: up to the first one that quits, or a read error. -/
def processed : List (Except IoError String) → List String
  | [] => []
  | .error _ :: _ => []
  | .ok line :: rest => line :: if request usizeMax line = .quit then [] else processed rest

/-- The paths that a script saves to. -/
def Context.targets (context : Context) (script : List (Except IoError String)) : List String :=
  (processed script).filterMap fun line => context.target? (words line)

/-- The paths that the program saves to. -/
def savedPaths (args : Args) (around : Surroundings) : List String :=
  match openCommands around args.inputFile with
  | .error _ => []
  | .ok delivery => (args.context none).targets delivery.script

theorem Context.targets_cons (context : Context) (line : String) (rest : List (Except IoError String)) :
    context.targets (.ok line :: rest) = (context.target? (words line)).toList ++
      if request usizeMax line = .quit then [] else context.targets rest := by
  rw [targets, processed]
  by_cases quit : request usizeMax line = .quit
  · cases found : context.target? (words line) <;> simp [quit, found]
  · cases found : context.target? (words line) <;> simp [quit, found, targets]

section Frames

variable [Digests]

/-- A script writes to its targets only, whatever the ids of the lines denote. -/
theorem runLoop_agreesOff (context : Context) {session : Session} {texts : Timeline (List String)}
    (holds : session.buffer.Holds session.heap texts) (script : List (Except IoError String)) :
    ∃ final, runLoop context session script = .ok final ∧ session.disk.AgreesOff (context.targets script) final.disk := by
  induction script generalizing session texts with
  | nil => exact ⟨session, rfl, .refl _ _⟩
  | cons entry rest ih =>
    cases entry with
    | error error => exact ⟨_, rfl, .refl _ _⟩
    | ok line =>
      obtain ⟨next, dispatched, follows, _, disk⟩ := dispatch_desk holds context line
      have step : session.disk.AgreesOff (context.target? (words line)).toList next.disk := by
        rw [disk]
        exact Desk.agreesOff_store context ⟨texts, session.disk⟩ (words line)
      rw [context.targets_cons]
      by_cases quit : request usizeMax line = .quit
      · refine ⟨next, ?_, ?_⟩
        · rw [runLoop_cons dispatched, if_pos quit]
        · rw [if_pos quit]
          exact step.trans (.refl _ _)
      · obtain ⟨later, after, _⟩ := (follows.advanced holds).holds
        obtain ⟨final, ran, others⟩ := ih after
        refine ⟨final, ?_, ?_⟩
        · rw [runLoop_cons dispatched, if_neg quit, ran]
        · rw [if_neg quit]
          exact step.trans others

theorem main_agreesOff (args : Args) (around : Surroundings) :
    ∃ ending, main args around = .ok ending ∧ around.disk.AgreesOff (savedPaths args around) ending.disk := by
  cases resolved : resolveEncoding around args.forceEncoding with
  | error exit => exact ⟨_, main_unresolved resolved, .refl _ _⟩
  | ok encoding =>
    obtain ⟨session, begins, refused, runs⟩ := main_begins resolved
    rw [savedPaths, ← begins.disk]
    cases commands : openCommands around args.inputFile with
    | error exit => exact ⟨_, refused exit commands, .refl _ _⟩
    | ok delivery =>
      obtain ⟨texts, holds, _⟩ := begins.opens.holds
      obtain ⟨final, ran, agrees⟩ := runLoop_agreesOff (args.context encoding) holds delivery.script
      refine ⟨⟨.success, final.output, final.disk⟩, ?_, agrees⟩
      rw [runs delivery commands, ran]
      rfl

/-- The program writes to the files that its processed command lines save to, and every other file keeps
its bytes, by whatever path it is read. -/
theorem main_frame (args : Args) (around : Surroundings) :
    ∃ ending, main args around = .ok ending ∧
      ∀ path, (∀ target ∈ savedPaths args around, ¬ around.disk.SameFile target path) →
        ending.disk.contents path = around.disk.contents path := by
  obtain ⟨ending, returned, agrees⟩ := main_agreesOff args around
  exact ⟨ending, returned, agrees.contents⟩

end Frames

namespace Desk

variable (context : Context) (validator : Option EncodingValidator)

/-- The lines that a read saves to the file that the path names, by a path that can be created. -/
def version? (path : String) (read : Desk × Except IoError String) : Option (List String) :=
  match read.2 with
  | .error _ => none
  | .ok line => (context.target? (words line)).bind fun target =>
    if read.1.disk.SameFile target path ∧ read.1.disk.createError target = none then some read.1.texts.present else none

/-- The versions of the lines that a script saves to the file that a path names. -/
def versions (path : String) (desk : Desk) (script : List (Except IoError String)) : List (List String) :=
  ((editor context validator).reads desk script).filterMap (version? context path)

/-- A command line leaves the properties of the files alone. -/
theorem fields_next (desk : Desk) (entry : Except IoError String) :
    ((editor context validator).next desk entry).disk =
      { desk.disk with bytes := ((editor context validator).next desk entry).disk.bytes } := by
  cases entry with
  | error error => rfl
  | ok line => exact (agreesOff_store context desk (words line)).fields

/-- Only the bytes of the files change in a run. -/
theorem final_fields (desk : Desk) (script : List (Except IoError String)) :
    (∀ read ∈ (editor context validator).reads desk script,
        read.1.disk = { desk.disk with bytes := read.1.disk.bytes }) ∧
      ((editor context validator).final desk script).disk =
        { desk.disk with bytes := ((editor context validator).final desk script).disk.bytes } := by
  apply Interaction.invariant (P := fun state : Desk => state.disk = { desk.disk with bytes := state.disk.bytes })
  · intro read _ same
    rw [fields_next context validator, same]
  · rfl

/-- The bytes that a read writes to the file that the path names. -/
def written? (path : String) (read : Desk × Except IoError String) : Option (Option (List UInt8)) :=
  (version? context path read).map fun lines =>
    some (limitTo (read.1.disk.room path) (savedChunks context.lineEnding lines context.forceEncoding).flatten)

theorem contents_next (path : String) (desk : Desk) (entry : Except IoError String) :
    ((editor context validator).next desk entry).disk.contents path =
      (written? context path (desk, entry)).getD (desk.disk.contents path) := by
  cases entry with
  | error error => rfl
  | ok line =>
    change (desk.store context (words line)).contents path = _
    rw [written?, version?]
    dsimp only
    cases named : context.target? (words line) with
    | none =>
      rw [store, named]
      rfl
    | some target =>
      rw [store, named, Option.bind_some]
      dsimp only [Disk.save]
      cases desk.disk.createError target with
      | some error =>
        rw [if_neg fun both => Option.some_ne_none error both.2]
        rfl
      | none =>
        by_cases same : desk.disk.SameFile target path
        · rw [if_pos ⟨same, rfl⟩, ← same.room]
          exact Disk.contents_put_of_same same _
        · rw [if_neg fun both => same both.1]
          exact Disk.contents_put_of_ne same _

variable {context validator}

/-- A file holds the last version that was saved to it. -/
theorem final_contents (path : String) (desk : Desk) (script : List (Except IoError String)) :
    ((editor context validator).final desk script).disk.contents path =
      ((versions context validator path desk script).getLast?.map fun lines =>
        some (limitTo (desk.disk.room path) (savedChunks context.lineEnding lines context.forceEncoding).flatten)).getD
        (desk.disk.contents path) := by
  have kept := (final_fields context validator desk script).1
  have same : ∀ read ∈ (editor context validator).reads desk script, written? context path read =
      (version? context path read).map fun lines =>
        some (limitTo (desk.disk.room path)
          (savedChunks context.lineEnding lines context.forceEncoding).flatten) := by
    intro read member
    have room : read.1.disk.room path = desk.disk.room path := by
      rw [kept read member]
      rfl
    rw [written?, room]
  have last := Interaction.final_eq_last (fun desk : Desk => desk.disk.contents path) (written? context path)
    (contents_next context validator path) desk script
  rw [last, List.getLastD_eq_getLast?, versions, ← List.getLast?_map, List.map_filterMap, List.filterMap_congr same]

end Desk

/-- Whatever a run saved in between, each file holds the last version of the lines that was saved to it by a
path that can be created, as far as it has room for it, or its old bytes if none was. -/
theorem main_saves [Digests] {args : Args} {around : Surroundings} (few : FewTexts args around)
    {encoding : Option Encoding} (resolved : resolveEncoding around args.forceEncoding = .ok encoding)
    {delivery : Delivery} (commands : openCommands around args.inputFile = .ok delivery) (path : String) :
    ∃ ending, main args around = .ok ending ∧
      ending.disk.contents path =
        ((Desk.versions (args.context encoding) (encoding.map forcedEncodingValidator) path
          (args.desk around encoding) delivery.script).getLast?.map fun lines =>
            some (limitTo (around.disk.room path) (savedChunks args.lineEnding.asStr lines encoding).flatten)).getD
          (around.disk.contents path) := by
  refine ⟨_, main_desk few, ?_⟩
  simp only [program, resolved, commands]
  exact Desk.final_contents path (args.desk around encoding) delivery.script

section Samples

attribute [local instance] sampleDigests

/-- A disk on which `./` in front of a path makes no difference. -/
def dottedDisk (text : String) : Disk :=
  { sampleDisk text with
    canonical := fun path => if path.toList.take 2 = ['.', '/'] then String.ofList (path.toList.drop 2) else path }

/-- The opened file is not saved to in front of `q`. -/
theorem sample_frame : ∃ ending,
    main ⟨some "f", none, none, .lf, none⟩
        { sampleSurroundings "a" "i 1 b\ns ./g\nq\ns" with disk := dottedDisk "a" } = .ok ending ∧
      ending.disk.contents "./f" = some (asBytes "a") := by
  obtain ⟨ending, returned, kept⟩ := main_frame ⟨some "f", none, none, .lf, none⟩
    { sampleSurroundings "a" "i 1 b\ns ./g\nq\ns" with disk := dottedDisk "a" }
  exact ⟨ending, returned, kept "./f" (by decide +kernel)⟩

/-- A file is saved to by two of its paths, with an edit between the saves, and another one behind them. -/
theorem sample_saves : ∃ ending,
    main ⟨some "f", some "g", none, .crlf, none⟩
        { sampleSurroundings "a" "s\ni 1 b\ns ./g\ns h\nd 1" with disk := dottedDisk "a" } = .ok ending ∧
      ending.disk.contents "g" = some (asBytes "b\r\na") := by
  have few : FewTexts ⟨some "f", some "g", none, .crlf, none⟩
      { sampleSurroundings "a" "s\ni 1 b\ns ./g\ns h\nd 1" with disk := dottedDisk "a" } := by
    intro encoding delivery resolved commands
    obtain rfl : none = encoding := Except.ok.inj resolved
    obtain rfl : (sampleSurroundings "a" "s\ni 1 b\ns ./g\ns h\nd 1").stdin = delivery := Except.ok.inj commands
    decide +kernel
  obtain ⟨ending, returned, saved⟩ := main_saves few rfl rfl "g"
  refine ⟨ending, returned, saved.trans ?_⟩
  decide +kernel

end Samples

end Mallard
