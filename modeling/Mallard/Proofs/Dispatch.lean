import Mallard.Proofs.Saving
import Mallard.Proofs.CommandLine

/-! # One command of medlin

Each command line makes at most one call on the buffer, the one that the editor's request names;
listing, printing and saving only read. No command panics: every id of a buffer lies inside its pool,
every index is checked before it is used, and a parsed line number can be printed again.
-/

namespace Mallard

open LineEditor

variable [Digests]

/-- The call on a buffer of `count` lines that a request makes. -/
def BufferOp.ofRequest? (count : ℕ) : Request → Option BufferOp
  | .insert number text => some (.insertLine (min number.natPred count) text)
  | .replace number text => some (.replaceLine number.natPred text)
  | .delete number => some (.deleteLine number.natPred)
  | .undo => some .undo
  | .redo => some .redo
  | .quit | .nothing => none

namespace Session

/-- Pools and buffer are as before. -/
def Unchanged (session next : Session) : Prop := next.heap = session.heap ∧ next.buffer = session.buffer

/-- The session went through one call on its buffer. -/
def Calls (session : Session) (op : BufferOp) (next : Session) : Prop :=
  ∃ reply, session.buffer.call session.heap op = .ok (reply, next.heap, next.buffer)

end Session

/-- Saving does not panic, whatever the file refuses. -/
theorem save_returns {heap : Heap} {buffer : LineBuffer} {texts : Timeline (List String)}
    (holds : buffer.Holds heap texts) (disk : Disk) (path lineEnding : String) (encoding : Option Encoding) :
    ∃ result, save disk heap buffer path lineEnding encoding = .ok result := by
  cases opened : disk.createError path with
  | none => exact ⟨_, save_eq holds opened lineEnding encoding⟩
  | some error => exact ⟨_, save_refused opened lineEnding encoding⟩

namespace Session

variable {session : Session} {texts : Timeline (List String)}

omit [Digests] in
/-- Printing item after item only prints. -/
theorem foldl_unchanged {α : Type} {printed : Session → α → Session}
    (same : ∀ start item, Unchanged start (printed start item)) (items : List α) (session : Session) :
    session.Unchanged (items.foldl printed session) := by
  induction items generalizing session with
  | nil => exact ⟨rfl, rfl⟩
  | cons item items ih =>
    have first := same session item
    have rest := ih (printed session item)
    exact ⟨rest.1.trans first.1, rest.2.trans first.2⟩

theorem list_unchanged (holds : session.buffer.Holds session.heap texts) :
    ∃ next, session.list = .ok next ∧ session.Unchanged next := by
  rw [list]
  split
  · exact ⟨_, rfl, rfl, rfl⟩
  · rw [holds.iterLines, Outcome.ok_bind]
    refine ⟨_, rfl, foldl_unchanged ?_ _ _⟩
    exact fun _ _ => ⟨rfl, rfl⟩

theorem printLine_unchanged (holds : session.buffer.Holds session.heap texts) (arguments : List String) :
    ∃ next, session.printLine arguments = .ok next ∧ session.Unchanged next := by
  cases arguments with
  | nil => exact ⟨_, rfl, rfl, rfl⟩
  | cons token rest =>
    have parsed := parseLineNumber_eq token
    rw [printLine]
    cases number : lineNumber? usizeMax token with
    | none =>
      rw [number] at parsed
      obtain ⟨report, failed⟩ := parsed
      rw [failed]
      exact ⟨_, rfl, rfl, rfl⟩
    | some number' =>
      rw [number] at parsed
      obtain ⟨index, bound⟩ := parsed
      have again : Usize.add number'.natPred 1 = .ok number' := by
        rw [Usize.add, PNat.natPred_add_one, if_pos bound]
        rfl
      rw [index]
      dsimp only
      rw [holds.getLine, Outcome.ok_bind]
      split
      · exact ⟨_, rfl, rfl, rfl⟩
      · rw [again]
        exact ⟨_, rfl, rfl, rfl⟩

theorem save_unchanged (holds : session.buffer.Holds session.heap texts) (context : Context)
    (arguments : List String) : ∃ next, session.save context arguments = .ok next ∧ session.Unchanged next := by
  rw [Session.save]
  split
  · exact ⟨_, rfl, rfl, rfl⟩
  · next path _ =>
    obtain ⟨⟨result, disk⟩, saved⟩ := save_returns holds session.disk path context.lineEnding context.forceEncoding
    rw [saved, Outcome.ok_bind]
    cases result with
    | ok => exact ⟨_, rfl, rfl, rfl⟩
    | error report => exact ⟨_, rfl, rfl, rfl⟩

theorem call_returns (holds : session.buffer.Holds session.heap texts) (op : BufferOp) :
    ∃ reply heap buffer, session.buffer.call session.heap op = .ok (reply, heap, buffer) := by
  have spec := LineBuffer.call_holds holds op
  split at spec
  · obtain ⟨next, called, _⟩ := spec
    exact ⟨_, _, next, called⟩
  · exact ⟨_, _, _, spec⟩

omit [Digests] in
/-- A line number that was parsed can be printed. -/
theorem number_printable {number : ℕ+} (bound : (number : ℕ) ≤ usizeMax) :
    Usize.add number.natPred 1 = .ok number := by
  rw [Usize.add, PNat.natPred_add_one, if_pos bound]
  rfl

variable {token : String} {number : ℕ+}

theorem insert_calls (holds : session.buffer.Holds session.heap texts)
    (valid : lineNumber? usizeMax token = some number) (rest : List String) :
    ∃ next, session.insert (token :: rest) = .ok next ∧
      session.Calls (.insertLine (min number.natPred session.buffer.lineCount) (rest.headD "")) next := by
  have parsed := parseLineNumber_eq token
  rw [valid] at parsed
  obtain ⟨reply, heap, buffer, called⟩ :=
    call_returns holds (.insertLine (min number.natPred session.buffer.lineCount) (rest.headD ""))
  obtain ⟨⟨verdict, heap', buffer'⟩, inserted, same⟩ := Outcome.bind_eq_ok.mp called
  cases same
  rw [insert, parsed.1]
  dsimp only
  rw [inserted, Outcome.ok_bind]
  cases verdict with
  | ok => exact ⟨_, rfl, _, called⟩
  | error error => exact ⟨_, rfl, _, called⟩

omit [Digests] in
theorem replaceLine_beyond [Digests] (heap : Heap) (buffer : LineBuffer) {n : ℕ} (beyond : n ≥ buffer.lineCount)
    (content : String) : ∃ reply, buffer.call heap (.replaceLine n content) = .ok (reply, heap, buffer) := by
  have fails : Branch.checkReplace buffer.root.lines.length n content buffer.validator ≠ .ok () :=
    fun passes => absurd (Branch.checkReplace_eq_ok.mp passes).1 (Nat.not_lt.mpr beyond)
  obtain ⟨error, verdict⟩ := Branch.eq_error_of_ne_ok fails
  refine ⟨.result (.error error), ?_⟩
  rw [LineBuffer.call, LineBuffer.replaceLine, Branch.replaceLine, verdict]
  rfl

/-- Out of range, `r` makes no call; the call would have changed nothing. -/
theorem replace_calls (holds : session.buffer.Holds session.heap texts)
    (valid : lineNumber? usizeMax token = some number) (rest : List String) :
    ∃ next, session.replace (token :: rest) = .ok next ∧
      session.Calls (.replaceLine number.natPred (rest.headD "")) next := by
  have parsed := parseLineNumber_eq token
  rw [valid] at parsed
  rw [replace, parsed.1]
  dsimp only
  split
  · next beyond =>
    rw [number_printable parsed.2]
    exact ⟨_, rfl, replaceLine_beyond session.heap session.buffer beyond _⟩
  · obtain ⟨reply, heap, buffer, called⟩ := call_returns holds (.replaceLine number.natPred (rest.headD ""))
    obtain ⟨⟨verdict, heap', buffer'⟩, replaced, same⟩ := Outcome.bind_eq_ok.mp called
    cases same
    rw [replaced, Outcome.ok_bind]
    cases verdict with
    | ok => exact ⟨_, rfl, _, called⟩
    | error error => exact ⟨_, rfl, _, called⟩

/-- A command that makes a call with a flag for its answer, and reports when the flag is `false`. -/
theorem flag_calls (holds : session.buffer.Holds session.heap texts) {op : BufferOp}
    {outcome : Outcome (Bool × LineBuffer)}
    (call : session.buffer.call session.heap op =
      outcome >>= fun result => pure (.flag result.1, session.heap, result.2)) (report : Report) :
    ∃ next, (outcome >>= fun result =>
        if result.1 then pure { session with buffer := result.2 }
        else pure ({ session with buffer := result.2 }.report report)) = .ok next ∧
      session.Calls op next := by
  obtain ⟨reply, heap, buffer, called⟩ := call_returns holds op
  rw [call] at called
  obtain ⟨⟨moved, buffer'⟩, returned, same⟩ := Outcome.bind_eq_ok.mp called
  cases same
  rw [returned, Outcome.ok_bind] at call ⊢
  cases moved with
  | true => exact ⟨_, rfl, _, call⟩
  | false => exact ⟨_, rfl, _, call⟩

theorem delete_calls (holds : session.buffer.Holds session.heap texts)
    (valid : lineNumber? usizeMax token = some number) (rest : List String) :
    ∃ next, session.delete (token :: rest) = .ok next ∧ session.Calls (.deleteLine number.natPred) next := by
  have parsed := parseLineNumber_eq token
  rw [valid] at parsed
  simp only [delete, parsed.1, number_printable parsed.2]
  exact flag_calls holds rfl _

theorem undo_calls (holds : session.buffer.Holds session.heap texts) :
    ∃ next, session.undo = .ok next ∧ session.Calls .undo next :=
  flag_calls holds rfl .nothingToUndo

theorem redo_calls (holds : session.buffer.Holds session.heap texts) :
    ∃ next, session.redo = .ok next ∧ session.Calls .redo next :=
  flag_calls holds rfl .nothingToRedo

end Session

/-- The session after a command: the one call that the request makes was made, or none. -/
def Session.Follows (session : Session) (asked : Request) (next : Session) : Prop :=
  match BufferOp.ofRequest? session.buffer.lineCount asked with
  | some op => session.Calls op next
  | none => session.Unchanged next

/-- A command returned: it quits exactly when the request says so, and made the call of the request. -/
def Session.Answers (session : Session) (asked : Request) (outcome : Outcome (Bool × Session)) : Prop :=
  ∃ next, outcome = .ok (decide (asked ≠ .quit), next) ∧ session.Follows asked next

theorem Session.answers_of_unchanged {session : Session} {outcome : Outcome Session}
    (returned : ∃ next, outcome = .ok next ∧ session.Unchanged next) :
    session.Answers .nothing ((true, ·) <$> outcome) := by
  obtain ⟨next, rfl, same⟩ := returned
  exact ⟨next, rfl, same⟩

/-- An editing command answers the request that its line number and text make. -/
theorem Session.answers_numbered {session : Session} {command : List String → Outcome Session}
    (make : ℕ+ → String → Request) (edits : ∀ number text, make number text ≠ .quit)
    (usage : ∃ next, command [] = .ok next ∧ session.Unchanged next)
    (invalid : ∀ token rest, lineNumber? usizeMax token = none →
      ∃ next, command (token :: rest) = .ok next ∧ session.Unchanged next)
    (valid : ∀ token rest number, lineNumber? usizeMax token = some number →
      ∃ next, command (token :: rest) = .ok next ∧ session.Follows (make number (rest.headD "")) next)
    {number text : Option String} (missing : number = none → text = none) :
    session.Answers (((number.bind (lineNumber? usizeMax)).map (make · (text.getD ""))).getD .nothing)
      ((true, ·) <$> command (number.toList ++ text.toList)) := by
  cases number with
  | none =>
    rw [missing rfl]
    exact answers_of_unchanged usage
  | some token =>
    rw [Option.bind_some]
    cases parsed : lineNumber? usizeMax token with
    | none => exact answers_of_unchanged (invalid token text.toList parsed)
    | some number =>
      have defaults : text.toList.headD "" = text.getD "" := by cases text <;> rfl
      obtain ⟨next, returned, follows⟩ := valid token text.toList number parsed
      rw [defaults] at follows
      refine ⟨next, ?_, follows⟩
      simp [returned, edits]

section Requests

omit [Digests]

variable {limit : ℕ} (number text : Option String)

theorem request_insert : Words.request limit ⟨"i", number, text⟩ =
    ((number.bind (lineNumber? limit)).map (Request.insert · (text.getD ""))).getD .nothing := by
  simp only [Words.request]
  cases number.bind (lineNumber? limit) <;> rfl

theorem request_replace : Words.request limit ⟨"r", number, text⟩ =
    ((number.bind (lineNumber? limit)).map (Request.replace · (text.getD ""))).getD .nothing := by
  simp only [Words.request]
  cases number.bind (lineNumber? limit) <;> rfl

theorem request_delete : Words.request limit ⟨"d", number, text⟩ =
    ((number.bind (lineNumber? limit)).map fun number => Request.delete number).getD .nothing := by
  simp only [Words.request]
  cases number.bind (lineNumber? limit) <;> rfl

theorem request_nothing {command : String} (other : command ∉ ["i", "r", "d", "u", "e", "q"]) :
    Words.request limit ⟨command, number, text⟩ = .nothing := by
  simp only [List.mem_cons, List.not_mem_nil, or_false, not_or] at other
  simp [Words.request, other]

end Requests

namespace Session

variable {session : Session} {texts : Timeline (List String)}

omit [Digests] in
theorem parseLineNumber_invalid {token : String} (invalid : lineNumber? usizeMax token = none) :
    ∃ report, parseLineNumber token = .error report := by
  have parsed := parseLineNumber_eq token
  rwa [invalid] at parsed

theorem insert_answers (holds : session.buffer.Holds session.heap texts) {number text : Option String}
    (missing : number = none → text = none) :
    session.Answers (Words.request usizeMax ⟨"i", number, text⟩)
      ((true, ·) <$> session.insert (number.toList ++ text.toList)) := by
  rw [request_insert]
  apply answers_numbered Request.insert (fun _ _ same => Request.noConfusion same) _ _ _ missing
  · exact ⟨_, rfl, rfl, rfl⟩
  · intro token rest invalid
    obtain ⟨report, failed⟩ := parseLineNumber_invalid invalid
    rw [insert, failed]
    exact ⟨_, rfl, rfl, rfl⟩
  · exact fun token rest number valid => insert_calls holds valid rest

theorem replace_answers (holds : session.buffer.Holds session.heap texts) {number text : Option String}
    (missing : number = none → text = none) :
    session.Answers (Words.request usizeMax ⟨"r", number, text⟩)
      ((true, ·) <$> session.replace (number.toList ++ text.toList)) := by
  rw [request_replace]
  apply answers_numbered Request.replace (fun _ _ same => Request.noConfusion same) _ _ _ missing
  · exact ⟨_, rfl, rfl, rfl⟩
  · intro token rest invalid
    obtain ⟨report, failed⟩ := parseLineNumber_invalid invalid
    rw [replace, failed]
    exact ⟨_, rfl, rfl, rfl⟩
  · exact fun token rest number valid => replace_calls holds valid rest

theorem delete_answers (holds : session.buffer.Holds session.heap texts) {number text : Option String}
    (missing : number = none → text = none) :
    session.Answers (Words.request usizeMax ⟨"d", number, text⟩)
      ((true, ·) <$> session.delete (number.toList ++ text.toList)) := by
  rw [request_delete]
  apply answers_numbered (fun number _ => Request.delete number) (fun _ _ same => Request.noConfusion same) _ _ _ missing
  · exact ⟨_, rfl, rfl, rfl⟩
  · intro token rest invalid
    obtain ⟨report, failed⟩ := parseLineNumber_invalid invalid
    rw [delete, failed]
    exact ⟨_, rfl, rfl, rfl⟩
  · exact fun token rest number valid => delete_calls holds valid rest

end Session

/-- A command line never panics, quits exactly on request, and makes the call its request names. -/
theorem dispatch_answers {session : Session} {texts : Timeline (List String)}
    (holds : session.buffer.Holds session.heap texts) (context : Context) (line : String) :
    session.Answers (request usizeMax line) (dispatch context session line) := by
  have missing := @text_of_number_none line
  rw [dispatch, tokens_eq, request]
  generalize words line = parts at missing
  obtain ⟨command, number, text⟩ := parts
  dsimp only [List.headD_cons, List.tail_cons]
  -- A command other than the six that ask for something changes neither pools nor buffer.
  have reads {outcome : Outcome Session} (other : command ∉ ["i", "r", "d", "u", "e", "q"])
      (returned : ∃ next, outcome = .ok next ∧ session.Unchanged next) :
      session.Answers (Words.request usizeMax ⟨command, number, text⟩) ((true, ·) <$> outcome) := by
    rw [request_nothing number text other]
    exact Session.answers_of_unchanged returned
  refine iteInduction (fun quit => ?_) fun notQuit => ?_
  · subst quit
    exact ⟨session, rfl, rfl, rfl⟩
  refine iteInduction (fun help => ?_) fun notHelp => ?_
  · have other : command ∉ ["i", "r", "d", "u", "e", "q"] := by rcases help with rfl | rfl <;> decide
    exact reads other ⟨session.print Mallard.help, rfl, rfl, rfl⟩
  refine iteInduction (fun list => ?_) fun notList => ?_
  · exact reads (by rw [list]; decide) (Session.list_unchanged holds)
  refine iteInduction (fun print => ?_) fun notPrint => ?_
  · exact reads (by rw [print]; decide) (Session.printLine_unchanged holds _)
  refine iteInduction (fun insert => ?_) fun notInsert => ?_
  · subst insert
    exact Session.insert_answers holds missing
  refine iteInduction (fun replace => ?_) fun notReplace => ?_
  · subst replace
    exact Session.replace_answers holds missing
  refine iteInduction (fun delete => ?_) fun notDelete => ?_
  · subst delete
    exact Session.delete_answers holds missing
  refine iteInduction (fun undo => ?_) fun notUndo => ?_
  · subst undo
    obtain ⟨next, returned, called⟩ := Session.undo_calls holds
    rw [returned]
    exact ⟨next, rfl, called⟩
  refine iteInduction (fun redo => ?_) fun notRedo => ?_
  · subst redo
    obtain ⟨next, returned, called⟩ := Session.redo_calls holds
    rw [returned]
    exact ⟨next, rfl, called⟩
  refine iteInduction (fun save => ?_) fun notSave => ?_
  · exact reads (by rw [save]; decide) (Session.save_unchanged holds context _)
  refine iteInduction (fun blank => ?_) fun notBlank => ?_
  · exact reads (by rw [blank]; decide) ⟨session, rfl, rfl, rfl⟩
  · have other : command ∉ ["i", "r", "d", "u", "e", "q"] := by
      simp only [List.mem_cons, List.not_mem_nil, or_false, not_or]
      exact ⟨notInsert, notReplace, notDelete, notUndo, notRedo, notQuit⟩
    exact reads other ⟨session.report (.unrecognised command), rfl, rfl, rfl⟩

/-- The loop ends at a line that quits and goes on behind any other. -/
theorem runLoop_cons {context : Context} {session next : Session} {line : String}
    (dispatched : dispatch context session line = .ok (decide (request usizeMax line ≠ .quit), next))
    (rest : List (Except IoError String)) :
    runLoop context session (.ok line :: rest) =
      if request usizeMax line = .quit then .ok next else runLoop context next rest := by
  rw [runLoop, dispatched]
  by_cases quit : request usizeMax line = .quit <;> simp [quit]

end Mallard
