import Mallard.Machine.Interaction
import Mallard.Proofs.Dispatch

/-! # medlin over strings and files

A desk is what a user of medlin deals with: texts with their history, and files. It is the purpose of
the command loop, stated without pools, ids or stacks of edits: which texts a command line leaves, what
it prints, and which file it writes. A single command line of the program prints and writes exactly
this, whatever the ids denote; only the texts it leaves depend on the range of the ids.
-/

namespace Mallard

open LineEditor

/-- What a save of some lines reports, and the disk it leaves. -/
def Disk.save (disk : Disk) (path lineEnding : String) (lines : List String) (encoding : Option Encoding) :
    Except Report Unit × Disk :=
  match disk.createError path with
  | some error => (.error (.saveFailed path error), disk)
  | none => (savedVerdict disk path lineEnding lines encoding,
      disk.put path (limitTo (disk.room path) (savedChunks lineEnding lines encoding).flatten))

/-- A save depends on the visible lines only. -/
theorem save_shown [Digests] {heap : Heap} {buffer : LineBuffer} {texts : Timeline (List String)}
    (holds : buffer.Holds heap texts) (disk : Disk) (path lineEnding : String) (encoding : Option Encoding) :
    save disk heap buffer path lineEnding encoding = .ok (disk.save path lineEnding texts.present encoding) := by
  rw [Disk.save]
  cases opened : disk.createError path with
  | none => exact save_eq holds opened lineEnding encoding
  | some error => exact save_refused opened lineEnding encoding

/-- Texts with their history, and files. -/
structure Desk where
  texts : Timeline (List String)
  disk : Disk

/-- The lines printed for a listing. -/
def listing (lines : List String) : List Output :=
  if lines = [] then [.stdout "(empty)"]
  else lines.zipIdx.map fun entry => .stdout s!"{alignRight 6 (entry.2 + 1)}  {entry.1}"

/-- What a command that needs a line number prints: a complaint, or the answer for its index. -/
def numbered (usage : Report) (answer : ℕ → List Output) : Option String → List Output
  | none => [.stderr usage]
  | some token =>
    match parseLineNumber token with
    | .error report => [.stderr report]
    | .ok index => answer index

/-- The complaint about a text that the validator rejects. -/
def complaint (command : String) (validator : Option EncodingValidator) (text : String) : List Output :=
  match checkLine validator text with
  | .ok () => []
  | .error error => [.stderr (.editRejected command error)]

/-- The path that a command line saves to. -/
def Context.target? (context : Context) (words : Words) : Option String :=
  if words.command = "s" then words.number.or context.defaultOutput else none

namespace Desk

variable (context : Context) (validator : Option EncodingValidator)

/-- The disk behind a command line. -/
def store (desk : Desk) (words : Words) : Disk :=
  match context.target? words with
  | none => desk.disk
  | some path => (desk.disk.save path context.lineEnding desk.texts.present context.forceEncoding).2

/-- What is printed for a save to a path, if there is one. -/
def saves (desk : Desk) : Option String → List Output
  | none => [.stderr .noOutputPath]
  | some path =>
    match (desk.disk.save path context.lineEnding desk.texts.present context.forceEncoding).1 with
    | .ok () => [.stdout s!"saved to {path}"]
    | .error report => [.stderr report]

/-- What is printed for a command line. -/
def shows (desk : Desk) (words : Words) : List Output :=
  let lines := desk.texts.present
  let text := words.text.getD ""
  if words.command = "q" then []
  else if words.command = "?" ∨ words.command = "h" then [.stdout help]
  else if words.command = "l" then listing lines
  else if words.command = "p" then
    numbered (.usage "p" "p N") (fun index =>
      lines[index]?.elim [.stderr (.outOfRange "p" (index + 1))] fun line => [.stdout line]) words.number
  else if words.command = "i" then
    numbered (.usage "i" "i N <text>") (fun _ => complaint "i" validator text) words.number
  else if words.command = "r" then
    numbered (.usage "r" "r N <text>") (fun index =>
      if index < lines.length then complaint "r" validator text
      else [.stderr (.replaceOutOfRange (index + 1) lines.length)]) words.number
  else if words.command = "d" then
    numbered (.usage "d" "d N") (fun index =>
      if index < lines.length then [] else [.stderr (.outOfRange "d" (index + 1))]) words.number
  else if words.command = "u" then if desk.texts.past = [] then [.stderr .nothingToUndo] else []
  else if words.command = "e" then if desk.texts.future = [] then [.stderr .nothingToRedo] else []
  else if words.command = "s" then desk.saves context (words.number.or context.defaultOutput)
  else if words.command = "" then []
  else [.stderr (.unrecognised words.command)]

/-- The editor over strings and files. -/
def editor : Interaction Desk (Except IoError String) Output where
  next desk
    | .error _ => desk
    | .ok line => ⟨step (Accepts validator) desk.texts (request usizeMax line), desk.store context (words line)⟩
  prints desk
    | .error error => [.stderr (.readFailed error)]
    | .ok line => desk.shows context validator (words line)
  proceeds _
    | .error _ => false
    | .ok line => request usizeMax line ≠ .quit

end Desk

/-- The session printed something and has a disk. -/
structure Session.Showed (session : Session) (printed : List Output) (disk : Disk) (next : Session) : Prop where
  output : next.output = session.output ++ printed
  disk : next.disk = disk

/-- A command returned a session that showed something. -/
def Session.Gives (session : Session) (printed : List Output) (disk : Disk) (outcome : Outcome Session) : Prop :=
  ∃ next, outcome = .ok next ∧ session.Showed printed disk next

/-- A command line was processed and showed something. -/
def Session.Yields (session : Session) (printed : List Output) (disk : Disk) (outcome : Outcome (Bool × Session)) :
    Prop :=
  ∃ continues next, outcome = .ok (continues, next) ∧ session.Showed printed disk next

namespace Session

variable {session : Session}

theorem showed_nothing (heap : Heap) (buffer : LineBuffer) :
    session.Showed [] session.disk { session with heap, buffer } := ⟨(List.append_nil _).symm, rfl⟩

theorem showed_report (heap : Heap) (buffer : LineBuffer) (report : Report) :
    session.Showed [.stderr report] session.disk ({ session with heap, buffer }.report report) := ⟨rfl, rfl⟩

theorem foldl_print {α : Type} (text : α → String) (items : List α) (session : Session) :
    items.foldl (fun session item => session.print (text item)) session =
      { session with output := session.output ++ items.map fun item => .stdout (text item) } := by
  induction items generalizing session with
  | nil => rw [List.foldl_nil, List.map_nil, List.append_nil]
  | cons item items ih =>
    rw [List.foldl_cons, ih, List.map_cons, print, List.append_assoc, List.singleton_append]

/-- An index that was parsed can be printed as a line number. -/
theorem index_printable {token : String} {index : ℕ} (parsed : parseLineNumber token = .ok index) :
    Usize.add index 1 = .ok (index + 1) := by
  have number := parseLineNumber_eq token
  cases valid : lineNumber? usizeMax token with
  | none =>
    rw [valid] at number
    obtain ⟨report, failed⟩ := number
    rw [failed] at parsed
    cases parsed
  | some number' =>
    rw [valid] at number
    obtain ⟨same, bound⟩ := number
    rw [parsed] at same
    cases same
    rw [number_printable bound, PNat.natPred_add_one]

variable [Digests] {texts : Timeline (List String)}

/-- Every call on the buffer is answered from the texts. -/
theorem call_replies (holds : session.buffer.Holds session.heap texts) (op : BufferOp) :
    ∃ heap buffer, session.buffer.call session.heap op =
      .ok ((op.onRoot session.buffer.validator).reply texts.present.length
        ((op.onRoot session.buffer.validator).exec? texts).isSome, heap, buffer) := by
  have spec := LineBuffer.call_holds holds op
  rw [← Branch.advanceTexts?_isSome (session.heap.lock session.buffer.pool)]
  cases advanced : Branch.advanceTexts? (session.heap.lock session.buffer.pool) texts
      (op.onRoot session.buffer.validator) with
  | none =>
    rw [advanced] at spec
    exact ⟨_, _, spec⟩
  | some result =>
    rw [advanced] at spec
    obtain ⟨next, called, _⟩ := spec
    exact ⟨_, next, called⟩

theorem list_gives (holds : session.buffer.Holds session.heap texts) :
    session.Gives (listing texts.present) session.disk session.list := by
  rw [list, listing]
  by_cases empty : texts.present = []
  · rw [if_pos empty, if_pos (by rw [holds.lineCount, empty, List.length_nil])]
    exact ⟨_, rfl, rfl, rfl⟩
  · have counted : session.buffer.lineCount ≠ 0 := by
      rw [holds.lineCount]
      exact mt List.length_eq_zero_iff.mp empty
    have printed := foldl_print (fun entry : String × ℕ => s!"{alignRight 6 (entry.2 + 1)}  {entry.1}")
      texts.present.zipIdx session
    rw [if_neg empty, if_neg counted, holds.iterLines, Outcome.ok_bind]
    exact ⟨_, congrArg Except.ok printed, rfl, rfl⟩

omit [Digests] in
/-- A command with a line number gives what the desk prints for it. -/
theorem gives_numbered {command : List String → Outcome Session} {usage : Report} {answer : ℕ → List Output}
    {number text : Option String} (missing : number = none → text = none)
    (absent : command [] = .ok (session.report usage))
    (invalid : ∀ token rest report, parseLineNumber token = .error report →
      command (token :: rest) = .ok (session.report report))
    (valid : ∀ token rest index, parseLineNumber token = .ok index → rest.headD "" = text.getD "" →
      session.Gives (answer index) session.disk (command (token :: rest))) :
    session.Gives (numbered usage answer number) session.disk (command (number.toList ++ text.toList)) := by
  cases number with
  | none =>
    rw [missing rfl]
    exact ⟨_, absent, rfl, rfl⟩
  | some token =>
    rw [numbered]
    cases parsed : parseLineNumber token with
    | error report => exact ⟨_, invalid token text.toList report parsed, rfl, rfl⟩
    | ok index =>
      have defaults : text.toList.headD "" = text.getD "" := by cases text <;> rfl
      exact valid token text.toList index parsed defaults

theorem printLine_gives (holds : session.buffer.Holds session.heap texts) {number text : Option String}
    (missing : number = none → text = none) :
    session.Gives (numbered (.usage "p" "p N") (fun index =>
        texts.present[index]?.elim [.stderr (.outOfRange "p" (index + 1))] fun line => [.stdout line]) number)
      session.disk (session.printLine (number.toList ++ text.toList)) := by
  refine gives_numbered missing rfl ?_ ?_
  · intro token rest report failed
    rw [printLine, failed]
    rfl
  · intro token rest index parsed _
    rw [printLine, parsed]
    dsimp only
    rw [holds.getLine, Outcome.ok_bind]
    cases texts.present[index]? with
    | some line => exact ⟨_, rfl, rfl, rfl⟩
    | none =>
      rw [index_printable parsed]
      exact ⟨_, rfl, rfl, rfl⟩

theorem insert_gives (holds : session.buffer.Holds session.heap texts) {number text : Option String}
    (missing : number = none → text = none) :
    session.Gives (numbered (.usage "i" "i N <text>")
        (fun _ => complaint "i" session.buffer.validator (text.getD "")) number)
      session.disk (session.insert (number.toList ++ text.toList)) := by
  refine gives_numbered missing rfl ?_ ?_
  · intro token rest report failed
    rw [insert, failed]
    rfl
  · intro token rest index parsed default
    obtain ⟨heap, buffer, called⟩ := call_replies holds (.insertLine (min index session.buffer.lineCount) (text.getD ""))
    obtain ⟨⟨verdict, heap', buffer'⟩, inserted, same⟩ := Outcome.bind_eq_ok.mp called
    have clamped : ¬ min index session.buffer.lineCount > texts.present.length := by
      rw [holds.lineCount]
      exact Nat.not_lt.mpr (Nat.min_le_right _ _)
    obtain ⟨rfl, rfl, rfl⟩ : verdict = checkLine session.buffer.validator (text.getD "") ∧ heap' = heap ∧
        buffer' = buffer := by
      simpa [BufferOp.onRoot, BranchOp.reply, Branch.checkInsert, clamped] using same
    rw [insert, parsed, default]
    dsimp only
    rw [inserted, Outcome.ok_bind, complaint]
    cases checkLine session.buffer.validator (text.getD "") with
    | ok => exact ⟨_, rfl, showed_nothing _ _⟩
    | error error => exact ⟨_, rfl, showed_report _ _ _⟩

theorem replace_gives (holds : session.buffer.Holds session.heap texts) {number text : Option String}
    (missing : number = none → text = none) :
    session.Gives (numbered (.usage "r" "r N <text>") (fun index =>
        if index < texts.present.length then complaint "r" session.buffer.validator (text.getD "")
        else [.stderr (.replaceOutOfRange (index + 1) texts.present.length)]) number)
      session.disk (session.replace (number.toList ++ text.toList)) := by
  refine gives_numbered missing rfl ?_ ?_
  · intro token rest report failed
    rw [replace, failed]
    rfl
  · intro token rest index parsed default
    rw [replace, parsed, default, ← holds.lineCount]
    dsimp only
    by_cases inside : index < session.buffer.lineCount
    · obtain ⟨heap, buffer, called⟩ := call_replies holds (.replaceLine index (text.getD ""))
      obtain ⟨⟨verdict, heap', buffer'⟩, replaced, same⟩ := Outcome.bind_eq_ok.mp called
      have within : ¬ index ≥ texts.present.length := Nat.not_le.mpr (holds.lineCount ▸ inside)
      obtain ⟨rfl, rfl, rfl⟩ : verdict = checkLine session.buffer.validator (text.getD "") ∧ heap' = heap ∧
          buffer' = buffer := by
        simpa [BufferOp.onRoot, BranchOp.reply, Branch.checkReplace, within] using same
      rw [if_pos inside, if_neg (Nat.not_le.mpr inside), replaced, Outcome.ok_bind, complaint]
      cases checkLine session.buffer.validator (text.getD "") with
      | ok => exact ⟨_, rfl, showed_nothing _ _⟩
      | error error => exact ⟨_, rfl, showed_report _ _ _⟩
    · rw [if_neg inside, if_pos (Nat.not_lt.mp inside), index_printable parsed]
      exact ⟨_, rfl, rfl, rfl⟩

/-- A command that reports when its call answers `false`. -/
theorem flag_gives (holds : session.buffer.Holds session.heap texts) (op : BufferOp) {moved : Bool}
    {outcome : Outcome (Bool × LineBuffer)}
    (call : session.buffer.call session.heap op =
      outcome >>= fun result => pure (.flag result.1, session.heap, result.2))
    (answer : (op.onRoot session.buffer.validator).reply texts.present.length
      ((op.onRoot session.buffer.validator).exec? texts).isSome = .flag moved) (report : Report) :
    session.Gives (if moved then [] else [.stderr report]) session.disk (outcome >>= fun result =>
      if result.1 then pure { session with buffer := result.2 }
      else pure ({ session with buffer := result.2 }.report report)) := by
  obtain ⟨heap, buffer, called⟩ := call_replies holds op
  rw [call, answer] at called
  obtain ⟨⟨moved', buffer'⟩, returned, same⟩ := Outcome.bind_eq_ok.mp called
  cases same
  rw [returned, Outcome.ok_bind]
  cases moved' with
  | true => exact ⟨_, rfl, showed_nothing session.heap buffer'⟩
  | false => exact ⟨_, rfl, showed_report session.heap buffer' report⟩

theorem delete_gives (holds : session.buffer.Holds session.heap texts) {number text : Option String}
    (missing : number = none → text = none) :
    session.Gives (numbered (.usage "d" "d N") (fun index =>
        if index < texts.present.length then [] else [.stderr (.outOfRange "d" (index + 1))]) number)
      session.disk (session.delete (number.toList ++ text.toList)) := by
  refine gives_numbered missing rfl ?_ ?_
  · intro token rest report failed
    rw [delete, failed]
    rfl
  · intro token rest index parsed _
    have possible : ((BufferOp.onRoot session.buffer.validator (.deleteLine index)).exec? texts).isSome =
        decide (index < texts.present.length) := by
      simp only [BufferOp.onRoot, BranchOp.exec?, BranchOp.move?, Option.bind_some, Timeline.exec?]
      split <;> simp [*]
    simp only [delete, parsed, index_printable parsed, Outcome.ok_bind]
    have gives := flag_gives holds (.deleteLine index) rfl (congrArg Reply.flag possible)
      (.outOfRange "d" (index + 1))
    simpa only [decide_eq_true_eq] using gives

theorem undo_gives (holds : session.buffer.Holds session.heap texts) :
    session.Gives (if texts.past = [] then [.stderr .nothingToUndo] else []) session.disk session.undo := by
  have possible : ((BufferOp.onRoot session.buffer.validator .undo).exec? texts).isSome = !decide (texts.past = []) := by
    obtain ⟨past, present, future⟩ := texts
    cases past <;> rfl
  have printed : (if texts.past = [] then [Output.stderr .nothingToUndo] else []) =
      if !decide (texts.past = []) then [] else [.stderr .nothingToUndo] := by
    cases texts.past <;> rfl
  rw [printed]
  exact flag_gives holds .undo rfl (congrArg Reply.flag possible) .nothingToUndo

theorem redo_gives (holds : session.buffer.Holds session.heap texts) :
    session.Gives (if texts.future = [] then [.stderr .nothingToRedo] else []) session.disk session.redo := by
  have possible : ((BufferOp.onRoot session.buffer.validator .redo).exec? texts).isSome = !decide (texts.future = []) := by
    obtain ⟨past, present, future⟩ := texts
    cases future <;> rfl
  have printed : (if texts.future = [] then [Output.stderr .nothingToRedo] else []) =
      if !decide (texts.future = []) then [] else [.stderr .nothingToRedo] := by
    cases texts.future <;> rfl
  rw [printed]
  exact flag_gives holds .redo rfl (congrArg Reply.flag possible) .nothingToRedo

theorem save_gives (holds : session.buffer.Holds session.heap texts) (context : Context)
    {number text : Option String} (missing : number = none → text = none) :
    session.Gives (Desk.saves context ⟨texts, session.disk⟩ (number.or context.defaultOutput))
      (Desk.store context ⟨texts, session.disk⟩ ⟨"s", number, text⟩)
      (session.save context (number.toList ++ text.toList)) := by
  have first : (number.toList ++ text.toList).head? = number := by
    cases number with
    | none =>
      rw [missing rfl]
      rfl
    | some token => rfl
  rw [Session.save, first, Desk.store, Context.target?, if_pos rfl]
  cases number.or context.defaultOutput with
  | none => exact ⟨_, rfl, rfl, rfl⟩
  | some path =>
    dsimp only [Desk.saves]
    rw [save_shown holds, Outcome.ok_bind]
    cases (session.disk.save path context.lineEnding texts.present context.forceEncoding).1 with
    | ok => exact ⟨_, rfl, rfl, rfl⟩
    | error report => exact ⟨_, rfl, rfl, rfl⟩

end Session

theorem Context.target?_of_ne {context : Context} {words : Words} (other : words.command ≠ "s") :
    context.target? words = none := if_neg other

theorem Desk.store_of_ne {context : Context} {desk : Desk} {words : Words} (other : words.command ≠ "s") :
    desk.store context words = desk.disk := by
  rw [store, Context.target?_of_ne other]

theorem Session.Gives.yields {session : Session} {printed : List Output} {disk : Disk} {outcome : Outcome Session}
    (gives : session.Gives printed disk outcome) : session.Yields printed disk ((true, ·) <$> outcome) := by
  obtain ⟨next, rfl, showed⟩ := gives
  exact ⟨true, next, rfl, showed⟩

variable [Digests]

/-- A command line prints what the desk prints and writes what the desk writes. -/
theorem dispatch_yields {session : Session} {texts : Timeline (List String)}
    (holds : session.buffer.Holds session.heap texts) (context : Context) (line : String) :
    session.Yields (Desk.shows context session.buffer.validator ⟨texts, session.disk⟩ (words line))
      (Desk.store context ⟨texts, session.disk⟩ (words line)) (dispatch context session line) := by
  have missing := @text_of_number_none line
  rw [dispatch, tokens_eq]
  generalize words line = parts at missing
  obtain ⟨command, number, text⟩ := parts
  dsimp only [List.headD_cons, List.tail_cons]
  -- Only saving writes to the disk.
  have reads (other : command ≠ "s") :
      Desk.store context ⟨texts, session.disk⟩ ⟨command, number, text⟩ = session.disk := Desk.store_of_ne other
  rw [Desk.shows]
  dsimp only
  refine iteInduction (fun quit => ?_) fun notQuit => ?_
  · rw [if_pos quit, reads (by rw [quit]; decide)]
    exact ⟨false, session, rfl, Session.showed_nothing session.heap session.buffer⟩
  rw [if_neg notQuit]
  refine iteInduction (fun help => ?_) fun notHelp => ?_
  · rw [if_pos help, reads (by rcases help with rfl | rfl <;> decide)]
    exact ⟨true, _, rfl, rfl, rfl⟩
  rw [if_neg notHelp]
  refine iteInduction (fun list => ?_) fun notList => ?_
  · rw [if_pos list, reads (by rw [list]; decide)]
    exact (Session.list_gives holds).yields
  rw [if_neg notList]
  refine iteInduction (fun print => ?_) fun notPrint => ?_
  · rw [if_pos print, reads (by rw [print]; decide)]
    exact (Session.printLine_gives holds missing).yields
  rw [if_neg notPrint]
  refine iteInduction (fun insert => ?_) fun notInsert => ?_
  · rw [if_pos insert, reads (by rw [insert]; decide)]
    exact (Session.insert_gives holds missing).yields
  rw [if_neg notInsert]
  refine iteInduction (fun replace => ?_) fun notReplace => ?_
  · rw [if_pos replace, reads (by rw [replace]; decide)]
    exact (Session.replace_gives holds missing).yields
  rw [if_neg notReplace]
  refine iteInduction (fun delete => ?_) fun notDelete => ?_
  · rw [if_pos delete, reads (by rw [delete]; decide)]
    exact (Session.delete_gives holds missing).yields
  rw [if_neg notDelete]
  refine iteInduction (fun undo => ?_) fun notUndo => ?_
  · rw [if_pos undo, reads (by rw [undo]; decide)]
    exact (Session.undo_gives holds).yields
  rw [if_neg notUndo]
  refine iteInduction (fun redo => ?_) fun notRedo => ?_
  · rw [if_pos redo, reads (by rw [redo]; decide)]
    exact (Session.redo_gives holds).yields
  rw [if_neg notRedo]
  refine iteInduction (fun save => ?_) fun notSave => ?_
  · rw [if_pos save]
    subst save
    exact (Session.save_gives holds context missing).yields
  rw [if_neg notSave, reads notSave]
  refine iteInduction (fun blank => ?_) fun notBlank => ?_
  · rw [if_pos blank]
    exact ⟨true, session, rfl, Session.showed_nothing session.heap session.buffer⟩
  · rw [if_neg notBlank]
    exact ⟨true, _, rfl, rfl, rfl⟩

/-- One command line of a session that holds some texts: it goes on as the desk does, prints and writes
what the desk does, and makes the call that its request names. -/
theorem dispatch_desk {session : Session} {texts : Timeline (List String)}
    (holds : session.buffer.Holds session.heap texts) (context : Context) (line : String) :
    ∃ next, dispatch context session line =
        .ok ((Desk.editor context session.buffer.validator).proceeds ⟨texts, session.disk⟩ (.ok line), next) ∧
      session.Follows (request usizeMax line) next ∧
      next.output = session.output ++
        (Desk.editor context session.buffer.validator).prints ⟨texts, session.disk⟩ (.ok line) ∧
      next.disk = ((Desk.editor context session.buffer.validator).next ⟨texts, session.disk⟩ (.ok line)).disk := by
  obtain ⟨next, dispatched, follows⟩ := dispatch_answers holds context line
  obtain ⟨continues, next', shown, showed⟩ := dispatch_yields holds context line
  cases dispatched.symm.trans shown
  dsimp only [Desk.editor]
  exact ⟨next, dispatched, follows, showed.output, showed.disk⟩

end Mallard
