import Mallard.Proofs.LoadFile
import Mallard.Soundness.EditorRefinement

/-! # Terminators inside lines

Loaded lines contain no CR and no LF, and a command line contains no LF. A CR inside it is content to
the reader of commands, though, and `insert_line` and `replace_line` check nothing, so an insertion or
replacement can bring a CR into the buffer. As long as no command does, every line in sight or within
reach of undo and redo stays free of terminators; and a command that does can be seen at once, unless
the ids have run out.
-/

namespace Mallard

open LineEditor

/-- A command line as `BufRead::lines` yields it contains no LF. -/
theorem lf_notMem_of_bufLines {input : List UInt8} {failure : Option IoError} {line : String}
    (member : .ok line ∈ bufLines input failure) : '\n' ∉ line.toList := by
  have decoded : ∃ text, .ok line ∈ (LineTerminators.lfLines 0x0D 0x0A text).map decodeLine := by
    cases failure with
    | none => exact ⟨input, member⟩
    | some error =>
      rcases List.mem_append.mp member with read | failed
      · exact ⟨_, read⟩
      · cases List.mem_singleton.mp failed
  obtain ⟨text, present⟩ := decoded
  obtain ⟨bytes, piece, same⟩ := List.mem_map.mp present
  have absent := LineTerminators.lf_notMem_of_lfLines piece
  have read : fromUtf8 bytes = some line := by
    rw [decodeLine] at same
    split at same
    · next found => rw [found, Except.ok.inj same]
    · cases same
  rw [← asBytes_of_fromUtf8 read] at absent
  intro newline
  exact absent (List.mem_flatMap.mpr ⟨'\n', newline, List.mem_singleton.mpr rfl⟩)

section Scripts

variable [Digests]

/-- If the command line stores a text in the buffer, the text has no CR. -/
def StoresNoCr (session : Session) (line : String) : Prop :=
  match request usizeMax line with
  | .insert _ text => Accepts session.buffer.validator text → '\r' ∉ text.toList
  | .replace number text =>
    number ≤ session.buffer.lineCount ∧ Accepts session.buffer.validator text → '\r' ∉ text.toList
  | .delete _ | .undo | .redo | .quit | .nothing => True

/-- No command line of the script that is processed stores a CR. -/
def ScriptStoresNoCr (context : Context) (session : Session) : List (Except IoError String) → Prop
  | [] => True
  | .error _ :: _ => True
  | .ok line :: rest =>
    StoresNoCr session line ∧ ∀ next, dispatch context session line = .ok (true, next) →
      ScriptStoresNoCr context next rest

omit [Digests] in
/-- A command line without CR stores none. -/
theorem storesNoCr_of_line {session : Session} {line : String} (free : '\r' ∉ line.toList) : StoresNoCr session line := by
  rw [StoresNoCr]
  split
  · next number text asked => exact fun _ cr => free (mem_line_of_request (.inl asked) _ cr)
  · next number text asked => exact fun _ cr => free (mem_line_of_request (.inr asked) _ cr)
  all_goals trivial

theorem scriptStoresNoCr_of_lines (context : Context) {script : List (Except IoError String)}
    (free : ∀ line, .ok line ∈ script → '\r' ∉ line.toList) (session : Session) :
    ScriptStoresNoCr context session script := by
  induction script generalizing session with
  | nil => trivial
  | cons entry rest ih =>
    cases entry with
    | error error => trivial
    | ok line =>
      refine ⟨storesNoCr_of_line (free line List.mem_cons_self), fun next _ => ?_⟩
      exact ih (fun other member => free other (List.mem_cons_of_mem _ member)) next

/-- The pool of the session lists lines without terminators only. -/
structure Session.Bare (session : Session) : Prop where
  holds : ∃ texts, session.buffer.Holds session.heap texts
  bare : ∀ text ∈ (session.heap.lock session.buffer.pool).contents, BareText text

omit [Digests] in
/-- A command line stores no CR exactly when the texts that it brings in have none. -/
theorem storesNoCr_iff {session : Session} {line : String} {texts : Timeline (List String)}
    (count : session.buffer.lineCount = texts.present.length) :
    StoresNoCr session line ↔
      ∀ text ∈ introduced (Accepts session.buffer.validator) texts (request usizeMax line), '\r' ∉ text.toList := by
  rw [StoresNoCr]
  cases request usizeMax line with
  | insert number stored =>
    simp only [introduced, List.mem_ite_nil_right, List.mem_singleton, and_imp, forall_eq_apply_imp_iff]
  | replace number stored =>
    simp only [introduced, List.mem_ite_nil_right, List.mem_singleton, count]
    exact ⟨fun clean text brought => brought.2 ▸ clean brought.1, fun clean stored => clean _ ⟨stored, rfl⟩⟩
  | delete | undo | redo | quit | nothing => exact iff_of_true trivial fun _ brought => absurd brought List.not_mem_nil

/-- A command line without LF that stores no CR keeps the pool free of terminators. -/
theorem Session.Bare.dispatch {session : Session} (bare : session.Bare) (context : Context) {line : String}
    (oneLine : '\n' ∉ line.toList) (clean : StoresNoCr session line) :
    ∃ continues next, dispatch context session line = .ok (continues, next) ∧ next.Bare := by
  obtain ⟨texts, holds⟩ := bare.holds
  obtain ⟨next, dispatched, follows⟩ := dispatch_answers holds context line
  obtain ⟨pool, _, contents, later, after, _⟩ := follows.advanced holds
  refine ⟨_, next, dispatched, ⟨later, after⟩, ?_⟩
  rw [pool, contents]
  intro text listed
  rcases List.mem_pushAll.mp listed with old | brought
  · exact bare.bare text old
  · exact ⟨(storesNoCr_iff holds.lineCount).mp clean text brought, fun lf => oneLine (mem_line_of_introduced brought _ lf)⟩

/-- A script without LF in its lines that stores no CR keeps the pool free of terminators. -/
theorem Session.Bare.run {session : Session} (bare : session.Bare) (context : Context)
    {script : List (Except IoError String)} (oneLine : ∀ line, .ok line ∈ script → '\n' ∉ line.toList)
    (clean : ScriptStoresNoCr context session script) {done : List (Except IoError String)} (part : done <+: script) :
    ∃ final, runLoop context session done = .ok final ∧ final.Bare := by
  induction done generalizing session script with
  | nil => exact ⟨session, rfl, bare⟩
  | cons entry done ih =>
    obtain ⟨rest, rfl⟩ := part
    cases entry with
    | error error => exact ⟨_, rfl, bare.holds, bare.bare⟩
    | ok line =>
      obtain ⟨continues, next, dispatched, kept⟩ :=
        bare.dispatch context (oneLine line List.mem_cons_self) clean.1
      cases continues with
      | false =>
        refine ⟨next, ?_, kept⟩
        rw [runLoop, dispatched]
        rfl
      | true =>
        obtain ⟨final, ran, reached⟩ := ih kept (fun other member => oneLine other (List.mem_cons_of_mem _ member))
          (clean.2 next dispatched) (List.prefix_append done rest)
        refine ⟨final, ?_, reached⟩
        rw [runLoop, dispatched]
        exact ran

/-- No visible line, and no line after any undo and redo calls, contains a terminator; and what is
written with any `--line-ending` splits into the lines again, but for an empty last one. -/
def TerminatorFree (heap : Heap) (buffer : LineBuffer) : Prop :=
  ∀ moves : List BufferOp, (∀ move ∈ moves, move = .undo ∨ move = .redo) →
    ∃ replies heap' moved lines, buffer.run heap moves = .ok (replies, heap', moved) ∧
      moved.iterLines heap' = .ok lines ∧ (∀ line ∈ lines, '\r' ∉ line.toList ∧ '\n' ∉ line.toList) ∧
      ∀ choice : LineEnding, ∃ text,
        moved.writeLines heap' vecWriter [] choice.asStr = .ok (.ok (), asBytes text) ∧
        splitOnLineEndings text = .ok (if lines.getLast? = some "" then lines.dropLast else lines)

theorem Session.Bare.terminatorFree {session : Session} (bare : session.Bare) :
    TerminatorFree session.heap session.buffer := by
  intro moves history
  obtain ⟨texts, holds⟩ := bare.holds
  obtain ⟨replies, heap', moved, lines, ran, shown, free, denote⟩ := holds.forall_lines bare.bare history
  refine ⟨replies, heap', moved, lines, ran, shown, free, fun choice => ?_⟩
  refine ⟨String.ofList (choice.asStr.toList.intercalate (lines.map String.toList)), ?_, ?_⟩
  · rw [asBytes_ofList]
    exact LineBuffer.writeLines_vec denote choice.asStr
  · rw [splitOnLineEndings_eq, LineBuffer.textLines_join choice free]

/-- The buffers a session may start from: loaded on the plain path, or empty. -/
inductive Opened (heap : Heap) : Heap × LineBuffer → Prop
  | plain {disk : Disk} {path : String} {reports : List Report} {result : Heap × LineBuffer}
    (returned : loadFile disk heap path none = .ok (reports, result)) : Opened heap result
  | empty (validator : Option EncodingValidator) : Opened heap (LineBuffer.new heap validator)

omit [Digests] in
theorem bare_of_mem_decodedLines {disk : Disk} {path : String} {lines : List String}
    (decoded : decodedLines disk path none = some lines) : ∀ line ∈ lines, BareText line := by
  rw [decodedLines] at decoded
  split at decoded
  · cases decoded
  · obtain ⟨text, _, rfl⟩ := Option.map_eq_some_iff.mp decoded
    exact fun line member => bare_of_mem_textLines member

/-- A session starts from a bulk load of lines without terminators. -/
theorem Opened.loaded {heap : Heap} {result : Heap × LineBuffer} (opened : Opened heap result) :
    ∃ validator lines, result = LineBuffer.loaded heap validator lines ∧ ∀ line ∈ lines, BareText line := by
  have nothing (validator : Option EncodingValidator) : ∃ validator' lines,
      LineBuffer.new heap validator = LineBuffer.loaded heap validator' lines ∧ ∀ line ∈ lines, BareText line :=
    ⟨validator, [], LineBuffer.new_eq_loaded heap validator, fun _ member => absurd member List.not_mem_nil⟩
  cases opened with
  | empty validator => exact nothing validator
  | @plain disk path _ _ returned =>
    cases decoded : decodedLines disk path none with
    | none =>
      obtain ⟨report, failed⟩ := loadFile_undecoded decoded heap
      cases failed.symm.trans returned
      exact nothing none
    | some lines =>
      cases (loadFile_plain_decoded decoded heap).symm.trans returned
      exact ⟨none, lines, rfl, bare_of_mem_decodedLines decoded⟩

theorem Opened.bare {heap : Heap} {result : Heap × LineBuffer} (opened : Opened heap result) (disk : Disk)
    (output : List Output) : Session.Bare ⟨result.1, result.2, disk, output⟩ := by
  obtain ⟨validator, lines, rfl, bare⟩ := opened.loaded
  refine ⟨⟨_, LineBuffer.loaded_holds heap validator lines⟩, ?_⟩
  intro text listed
  rw [LineBuffer.loaded, Heap.lock_store, GreenPool.contents_run, List.mem_inventory] at listed
  exact bare text listed

theorem TerminatorFree.present {heap : Heap} {buffer : LineBuffer} (free : TerminatorFree heap buffer)
    {texts : Timeline (List String)} (holds : buffer.Holds heap texts) : ∀ line ∈ texts.present, '\r' ∉ line.toList := by
  obtain ⟨_, _, _, lines, ran, shown, bare, _⟩ := free [] (fun _ member => absurd member List.not_mem_nil)
  cases ran
  cases holds.iterLines.symm.trans shown
  exact fun line member => (bare line member).1

/-- As long as the ids suffice, states without terminators come from scripts that store no CR. -/
theorem scriptStoresNoCr_of_free (context : Context) {session : Session} {history : Timeline (List String)}
    (holds : session.buffer.Holds session.heap history) {script : List (Except IoError String)}
    (inRange : session.InRange history script)
    (free : ∀ done, done <+: script → ∃ final, runLoop context session done = .ok final ∧
      TerminatorFree final.heap final.buffer) : ScriptStoresNoCr context session script := by
  induction script generalizing session history with
  | nil => trivial
  | cons entry rest ih =>
    cases entry with
    | error error => trivial
    | ok line =>
      obtain ⟨next, dispatched, follows⟩ := dispatch_answers holds context line
      by_cases quit : request usizeMax line = .quit
      · refine ⟨?_, fun other continues => ?_⟩
        · rw [StoresNoCr, quit]
          trivial
        · rw [dispatched] at continues
          simp [quit] at continues
      have goes (done : List (Except IoError String)) :
          runLoop context session (.ok line :: done) = runLoop context next done := by
        rw [runLoop_cons dispatched, if_neg quit]
      have advanced := follows.advanced holds
      obtain ⟨later, after, agrees⟩ := advanced.holds
      obtain ⟨reaches, soon⟩ := (Session.inRange_cons holds quit advanced after).mp inRange
      obtain rfl := agrees reaches
      obtain ⟨_, ran, here⟩ := free [.ok line] (List.cons_prefix_cons.mpr ⟨rfl, List.nil_prefix⟩)
      rw [goes, runLoop] at ran
      cases ran
      refine ⟨(storesNoCr_iff holds.lineCount).mpr fun text brought => ?_, fun other continues => ?_⟩
      · exact here.present after text (mem_present_of_introduced brought)
      · obtain ⟨_, rfl⟩ := Prod.mk.inj (Except.ok.inj (dispatched.symm.trans continues))
        refine ih after soon fun done part => ?_
        rw [← goes]
        exact free (.ok line :: done) (List.cons_prefix_cons.mpr ⟨rfl, part⟩)

/-- From a plain load or an empty buffer, as long as no command line stores a CR, every state that a
script leads to is free of terminators. -/
theorem script_terminator_free {heap : Heap} {result : Heap × LineBuffer} (opened : Opened heap result)
    (context : Context) (disk : Disk) (output : List Output) {input : List UInt8} {failure : Option IoError}
    (clean : ScriptStoresNoCr context ⟨result.1, result.2, disk, output⟩ (bufLines input failure))
    {done : List (Except IoError String)} (part : done <+: bufLines input failure) :
    ∃ final, runLoop context ⟨result.1, result.2, disk, output⟩ done = .ok final ∧
      TerminatorFree final.heap final.buffer := by
  have oneLine (line : String) (member : .ok line ∈ bufLines input failure) := lf_notMem_of_bufLines member
  obtain ⟨final, ran, bare⟩ := (opened.bare disk output).run context oneLine clean part
  exact ⟨final, ran, bare.terminatorFree⟩

/-- As long as the ids suffice, exactly the scripts that store no CR keep all lines free of terminators. -/
theorem script_terminator_free_iff {heap : Heap} {result : Heap × LineBuffer} (opened : Opened heap result)
    (context : Context) (disk : Disk) (output : List Output) {input : List UInt8} {failure : Option IoError}
    {lines : List String} (shown : result.2.iterLines result.1 = .ok lines)
    (inRange : Session.InRange ⟨result.1, result.2, disk, output⟩ (.fresh lines) (bufLines input failure)) :
    (∀ done, done <+: bufLines input failure → ∃ final,
      runLoop context ⟨result.1, result.2, disk, output⟩ done = .ok final ∧ TerminatorFree final.heap final.buffer) ↔
      ScriptStoresNoCr context ⟨result.1, result.2, disk, output⟩ (bufLines input failure) := by
  obtain ⟨validator, loaded, same, _⟩ := opened.loaded
  have holds := LineBuffer.loaded_holds heap validator loaded
  rw [← same] at holds
  cases holds.iterLines.symm.trans shown
  exact ⟨scriptStoresNoCr_of_free context holds inRange,
    fun clean _ part => script_terminator_free opened context disk output clean part⟩

end Scripts

section Samples

attribute [local instance] sampleDigests

/-- An insertion and an undo on an empty buffer, from commands that end with CRLF. -/
theorem sample_clean_script : ∃ final,
    runLoop ⟨none, "\n", none⟩ ⟨(LineBuffer.new Heap.empty none).1, (LineBuffer.new Heap.empty none).2, sampleDisk "", []⟩
        [.ok "i 1 a b", .ok "u"] = .ok final ∧ TerminatorFree final.heap final.buffer := by
  have read : bufLines (asBytes "i 1 a b\r\nu\r\n") none = [.ok "i 1 a b", .ok "u"] := by decide +kernel
  have clean (session : Session) : ScriptStoresNoCr ⟨none, "\n", none⟩ session (bufLines (asBytes "i 1 a b\r\nu\r\n") none) := by
    apply scriptStoresNoCr_of_lines
    rw [read]
    simp
  have part := List.prefix_refl (bufLines (asBytes "i 1 a b\r\nu\r\n") none)
  obtain ⟨final, ran, free⟩ := script_terminator_free (.empty none) ⟨none, "\n", none⟩ (sampleDisk "") [] (clean _) part
  rw [read] at ran
  exact ⟨final, ran, free⟩

/-- A CR inside the text of an insertion becomes part of the line. -/
theorem cr_stored : ∃ final,
    runLoop ⟨none, "\n", none⟩ ⟨(LineBuffer.new Heap.empty none).1, (LineBuffer.new Heap.empty none).2, sampleDisk "", []⟩
        (bufLines (asBytes "i 1 a\rb\n") none) = .ok final ∧
      final.buffer.iterLines final.heap = .ok ["a\rb"] := by
  have read : bufLines (asBytes "i 1 a\rb\n") none = [.ok "i 1 a\rb"] := by decide +kernel
  rw [read]
  exact ⟨_, rfl, rfl⟩

end Samples

end Mallard
