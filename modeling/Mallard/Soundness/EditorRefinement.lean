import Mallard.Proofs.Dispatch
import Mallard.Proofs.Numerals
import Mallard.Soundness.RoundTrip

/-! # medlin's command loop refines the line editor

The buffer of a session holds the timeline of the abstract editor, and every command line advances
both together. No script panics. The texts agree as long as the pool fits the id type, that is while
the strings of the pool and those that the script brings in are at most `2 ^ 32`; they agree all along
exactly when every text that the script brings in gets an id of its own.
-/

namespace Mallard

open LineEditor

/-- The texts that a call brings into the history. -/
def BranchOp.introduced (op : BranchOp) (texts : Timeline (List String)) : List String :=
  if (op.exec? texts).isSome then (op.move?.map Timeline.LineOp.items).getD [] else []

section Requests

variable {validator : Option EncodingValidator} {texts : Timeline (List String)}

/-- The call that a request makes does to the history what the editor does. -/
theorem step_eq (asked : Request) :
    step (Accepts validator) texts asked =
      match BufferOp.ofRequest? texts.present.length asked with
      | some op => ((op.onRoot validator).exec? texts).getD texts
      | none => texts := by
  cases asked with
  | insert number text =>
    simp only [step, BufferOp.ofRequest?, BufferOp.onRoot, BranchOp.exec?, BranchOp.move?]
    split
    · rw [Option.bind_some, Timeline.exec?, if_pos (Nat.min_le_right _ _), Option.getD_some]
    · rfl
  | replace number text =>
    have index := PNat.natPred_add_one number
    simp only [step, BufferOp.ofRequest?, BufferOp.onRoot, BranchOp.exec?, BranchOp.move?]
    by_cases accepted : Accepts validator text
    · simp only [accepted, and_true, if_true, Option.bind_some, Timeline.exec?, ← index, Nat.succ_le_iff]
      split <;> rfl
    · simp [accepted]
  | delete number =>
    have index := PNat.natPred_add_one number
    simp only [step, BufferOp.ofRequest?, BufferOp.onRoot, BranchOp.exec?, BranchOp.move?, Option.bind_some,
      Timeline.exec?, ← index, Nat.succ_le_iff]
    split <;> rfl
  | undo | redo | quit | nothing => rfl

/-- It brings in what the request brings in. -/
theorem introduced_eq (asked : Request) :
    introduced (Accepts validator) texts asked =
      match BufferOp.ofRequest? texts.present.length asked with
      | some op => (op.onRoot validator).introduced texts
      | none => [] := by
  cases asked with
  | insert number text =>
    simp only [introduced, BufferOp.ofRequest?, BufferOp.onRoot, BranchOp.introduced, BranchOp.exec?, BranchOp.move?]
    split
    · rw [Option.bind_some, Timeline.exec?, if_pos (Nat.min_le_right _ _)]
      rfl
    · rfl
  | replace number text =>
    have index := PNat.natPred_add_one number
    simp only [introduced, BufferOp.ofRequest?, BufferOp.onRoot, BranchOp.introduced, BranchOp.exec?, BranchOp.move?]
    by_cases accepted : Accepts validator text
    · simp only [accepted, and_true, if_true, Option.bind_some, Timeline.exec?, ← index, Nat.succ_le_iff]
      split <;> rfl
    · simp [accepted]
  | delete | undo | redo => exact (ite_self _).symm
  | quit | nothing => rfl

end Requests

section Refinement

variable [Digests]

/-- What is known behind a step of buffer and texts: the buffer holds some history again, its pool grew
by the introduced texts, and if these have ids of their own the history is the expected one. -/
structure Advanced (heap : Heap) (buffer : LineBuffer) (added : List String) (expected : Timeline (List String))
    (heap' : Heap) (next : LineBuffer) : Prop where
  pool : next.pool = buffer.pool
  validator : next.validator = buffer.validator
  contents : (heap'.lock buffer.pool).contents = (heap.lock buffer.pool).contents.pushAll added
  holds : ∃ later, next.Holds heap' later ∧
    ((∀ text ∈ added, (heap'.lock buffer.pool).Reaches text) → later = expected)

/-- Within the range of the ids the history is the expected one. -/
theorem Advanced.holds_of_fits {heap heap' : Heap} {buffer next : LineBuffer} {added : List String}
    {expected : Timeline (List String)} (advanced : Advanced heap buffer added expected heap' next) :
    ∃ later, next.Holds heap' later ∧ ((heap'.lock buffer.pool).Fits → later = expected) := by
  obtain ⟨_, _, contents, later, holds, agrees⟩ := advanced
  refine ⟨later, holds, fun fits => agrees fun text brought => fits.reaches ?_⟩
  rw [contents]
  exact List.mem_pushAll.mpr (.inr brought)

/-- A call that returned advanced buffer and texts together. -/
theorem LineBuffer.call_advanced {heap heap' : Heap} {buffer next : LineBuffer} {texts : Timeline (List String)}
    {op : BufferOp} {reply : Reply} (holds : buffer.Holds heap texts)
    (called : buffer.call heap op = .ok (reply, heap', next)) :
    Advanced heap buffer ((op.onRoot buffer.validator).introduced texts)
      (((op.onRoot buffer.validator).exec? texts).getD texts) heap' next := by
  have spec := LineBuffer.call_holds holds op
  have succeeds := Branch.advanceTexts?_isSome (heap.lock buffer.pool) texts (op.onRoot buffer.validator)
  rw [BranchOp.introduced, ← succeeds]
  cases advanced : Branch.advanceTexts? (heap.lock buffer.pool) texts (op.onRoot buffer.validator) with
  | none =>
    rw [advanced] at spec succeeds
    cases called.symm.trans spec
    have stays : (op.onRoot buffer.validator).exec? texts = none := Option.isNone_iff_eq_none.mp (Option.isSome_eq_false_iff.mp succeeds.symm)
    rw [stays]
    exact ⟨rfl, rfl, rfl, texts, holds, fun _ => rfl⟩
  | some result =>
    obtain ⟨grown, later⟩ := result
    rw [advanced] at spec
    obtain ⟨next', called', pool, validator, after⟩ := spec
    cases called.symm.trans called'
    obtain ⟨_, _, move, asked, contents⟩ := Branch.advanceTexts?_pool holds.valid advanced
    refine ⟨pool, validator, ?_, later, after, ?_⟩
    · rw [Heap.lock_store, contents, asked]
      rfl
    · rw [Heap.lock_store, asked]
      intro reaches
      rw [Branch.advanceTexts?_of_reaches holds.valid advanced fun other asked' => by
        cases asked.symm.trans asked'
        exact reaches]
      rfl

/-- A command line advances the session as its request advances the editor. -/
theorem Session.Follows.advanced {session next : Session} {texts : Timeline (List String)} {asked : Request}
    (holds : session.buffer.Holds session.heap texts) (follows : session.Follows asked next) :
    Advanced session.heap session.buffer (introduced (Accepts session.buffer.validator) texts asked)
      (step (Accepts session.buffer.validator) texts asked) next.heap next.buffer := by
  rw [introduced_eq, step_eq, ← holds.lineCount]
  rw [Session.Follows] at follows
  cases made : BufferOp.ofRequest? session.buffer.lineCount asked with
  | none =>
    rw [made] at follows
    obtain ⟨heap, buffer⟩ := follows
    rw [heap, buffer]
    exact ⟨rfl, rfl, rfl, texts, holds, fun _ => rfl⟩
  | some op =>
    rw [made] at follows
    obtain ⟨reply, called⟩ := follows
    exact LineBuffer.call_advanced holds called

/-- A pool that lists at most as many distinct strings as there are ids fits the id type. -/
theorem GreenPool.WellFormed.fits_of_card {pool : GreenPool} (valid : pool.WellFormed) {known added : List String}
    (contents : pool.contents = known.pushAll added) (few : (known ++ added).toFinset.card ≤ idCount) : pool.Fits := by
  rw [Fits, ← length_contents, ← List.toFinset_card_of_nodup valid.distinct, contents, List.toFinset_pushAll]
  exact few

/-- The texts a session knows after a script: those of its pool and those the script brings in. -/
def Session.texts (session : Session) (history : Timeline (List String)) (script : List (Except IoError String)) :
    List String :=
  (session.heap.lock session.buffer.pool).contents ++
    allIntroduced (Accepts session.buffer.validator) usizeMax history script

/-- Every text that a script brings in is among the first `2 ^ 32` distinct ones that the session knows, so it
gets an id of its own. -/
def Session.InRange (session : Session) (history : Timeline (List String)) (script : List (Except IoError String)) :
    Prop :=
  ∀ text ∈ allIntroduced (Accepts session.buffer.validator) usizeMax history script,
    (session.texts history script).inventory.idxOf text < idCount

omit [Digests] in
theorem Session.inRange_of_few {session : Session} {history : Timeline (List String)}
    {script : List (Except IoError String)} (few : (session.texts history script).toFinset.card ≤ idCount) :
    session.InRange history script := by
  intro text brought
  refine lt_of_lt_of_le (List.idxOf_lt_length_iff.mpr ?_) ((List.length_inventory _).le.trans few)
  exact List.mem_inventory.mpr (List.mem_append_right _ brought)

/-- A script is in range if its first line and the script behind that are. -/
theorem Session.inRange_cons {session next : Session} {history later : Timeline (List String)} {line : String}
    (holds : session.buffer.Holds session.heap history) (continues : request usizeMax line ≠ .quit)
    {rest : List (Except IoError String)}
    (advanced : Advanced session.heap session.buffer
      (introduced (Accepts session.buffer.validator) history (request usizeMax line))
      (step (Accepts session.buffer.validator) history (request usizeMax line)) next.heap next.buffer)
    (after : next.buffer.Holds next.heap later) :
    session.InRange history (.ok line :: rest) ↔
      (∀ text ∈ introduced (Accepts session.buffer.validator) history (request usizeMax line),
        (next.heap.lock session.buffer.pool).Reaches text) ∧
      next.InRange (step (Accepts session.buffer.validator) history (request usizeMax line)) rest := by
  have start : [].pushAll (session.heap.lock session.buffer.pool).contents = _ :=
    List.pushAll_nil_of_nodup holds.valid.distinct
  have listed : (session.texts history (.ok line :: rest)).inventory =
      (next.heap.lock session.buffer.pool).contents.pushAll
        (allIntroduced (Accepts session.buffer.validator) usizeMax
          (step (Accepts session.buffer.validator) history (request usizeMax line)) rest) := by
    rw [Session.texts, allIntroduced, if_neg continues, List.inventory, List.pushAll_append, start,
      List.pushAll_append, advanced.contents]
  have later_listed : (next.texts (step (Accepts session.buffer.validator) history (request usizeMax line)) rest).inventory =
      (next.heap.lock session.buffer.pool).contents.pushAll
        (allIntroduced (Accepts session.buffer.validator) usizeMax
          (step (Accepts session.buffer.validator) history (request usizeMax line)) rest) := by
    rw [Session.texts, List.inventory, List.pushAll_append, advanced.validator, advanced.pool]
    exact congrArg (List.pushAll · _) (List.pushAll_nil_of_nodup (advanced.pool ▸ after.valid).distinct)
  rw [Session.InRange, Session.InRange, listed, later_listed, allIntroduced, if_neg continues, List.forall_mem_append,
    advanced.validator]
  refine and_congr_left fun _ => forall₂_congr fun text brought => ?_
  have known : text ∈ (next.heap.lock session.buffer.pool).contents := by
    rw [advanced.contents]
    exact List.mem_pushAll.mpr (.inr brought)
  rw [(List.prefix_pushAll _ _).idxOf_eq known, GreenPool.Reaches]

theorem runLoop_holds (context : Context) {session : Session} {history : Timeline (List String)}
    (holds : session.buffer.Holds session.heap history) (script : List (Except IoError String)) :
    ∃ final, runLoop context session script = .ok final ∧ (∃ later, final.buffer.Holds final.heap later) ∧
      (session.InRange history script →
        final.buffer.Holds final.heap (run (Accepts session.buffer.validator) usizeMax history script)) := by
  induction script generalizing session history with
  | nil => exact ⟨session, rfl, ⟨history, holds⟩, fun _ => holds⟩
  | cons entry rest ih =>
    cases entry with
    | error error => exact ⟨_, rfl, ⟨history, holds⟩, fun _ => holds⟩
    | ok line =>
      obtain ⟨next, dispatched, follows⟩ := dispatch_answers holds context line
      by_cases quit : request usizeMax line = .quit
      · rw [quit] at follows
        obtain ⟨heap, buffer⟩ := follows
        have same : next.buffer.Holds next.heap history := by rwa [heap, buffer]
        refine ⟨next, ?_, ⟨history, same⟩, ?_⟩
        · rw [runLoop_cons dispatched, if_pos quit]
        · rw [run, if_pos quit]
          exact fun _ => same
      · have advanced := follows.advanced holds
        obtain ⟨later, after, agrees⟩ := advanced.holds
        obtain ⟨final, ran, holding, refines⟩ := ih after
        refine ⟨final, ?_, holding, ?_⟩
        · rw [runLoop_cons dispatched, if_neg quit, ran]
        · intro inRange
          rw [Session.inRange_cons holds quit advanced after] at inRange
          obtain rfl := agrees inRange.1
          rw [run, if_neg quit]
          rw [advanced.validator] at refines
          exact refines inRange.2

/-- medlin refines the line editor: from a buffer with an empty history, no script of command lines
and read errors panics, and the buffer ends up holding the past, present and future of the editor,
as long as at most `2 ^ 32` distinct strings are in play. -/
theorem runLoop_refines (context : Context) {session : Session} {lines : List String}
    (holds : session.buffer.Holds session.heap (.fresh lines)) (script : List (Except IoError String)) :
    ∃ final, runLoop context session script = .ok final ∧
      ((session.texts (.fresh lines) script).toFinset.card ≤ idCount →
        final.buffer.Holds final.heap
          (run (Accepts session.buffer.validator) usizeMax (.fresh lines) script)) := by
  obtain ⟨final, ran, _, refines⟩ := runLoop_holds context holds script
  exact ⟨final, ran, fun few => refines (Session.inRange_of_few few)⟩

omit [Digests] in
/-- A text that a request brings in is shown behind it. -/
theorem mem_present_of_introduced {accepts : String → Prop} [DecidablePred accepts] {history : Timeline (List String)}
    {asked : Request} {text : String} (brought : text ∈ introduced accepts history asked) :
    text ∈ (step accepts history asked).present := by
  cases asked with
  | insert number stored =>
    obtain ⟨accepted, same⟩ := List.mem_ite_nil_right.mp brought
    obtain rfl := List.mem_singleton.mp same
    rw [step, if_pos accepted]
    exact (List.mem_insertIdx (Nat.min_le_right _ _)).mpr (.inl rfl)
  | replace number stored =>
    obtain ⟨accepted, same⟩ := List.mem_ite_nil_right.mp brought
    obtain rfl := List.mem_singleton.mp same
    rw [step, if_pos accepted]
    have inside : number.natPred < history.present.length := by
      rw [← Nat.succ_le_iff, Nat.succ_eq_add_one, PNat.natPred_add_one]
      exact accepted.1
    exact List.mem_set inside _
  | delete | undo | redo | quit | nothing => cases brought

/-- A shown line has an id of its own. -/
theorem LineBuffer.Holds.reaches {heap : Heap} {buffer : LineBuffer} {texts : Timeline (List String)}
    (holds : buffer.Holds heap texts) {line : String} (shown : line ∈ texts.present) :
    (heap.lock buffer.pool).Reaches line := holds.present.reaches holds.valid.distinct line shown

omit [Digests] in
/-- A part of a script brings in the first of the texts. -/
theorem allIntroduced_part {accepts : String → Prop} [DecidablePred accepts] {history : Timeline (List String)}
    {done script : List (Except IoError String)} (part : done <+: script) :
    allIntroduced accepts usizeMax history done <+: allIntroduced accepts usizeMax history script := by
  obtain ⟨rest, rfl⟩ := part
  induction done generalizing history with
  | nil => exact List.nil_prefix
  | cons entry done ih =>
    cases entry with
    | error error => exact List.prefix_rfl
    | ok line =>
      rw [List.cons_append, allIntroduced, allIntroduced]
      split
      · exact List.prefix_rfl
      · exact (List.prefix_append_right_inj _).mpr ih

omit [Digests] in
theorem Session.InRange.part {session : Session} {history : Timeline (List String)}
    {done script : List (Except IoError String)} (inRange : session.InRange history script) (part : done <+: script) :
    session.InRange history done := by
  obtain ⟨rest, introduced⟩ := @allIntroduced_part (Accepts session.buffer.validator) _ history _ _ part
  intro text brought
  have kept : (session.texts history script).inventory.idxOf text = (session.texts history done).inventory.idxOf text := by
    rw [Session.texts, Session.texts, ← introduced, ← List.append_assoc, List.inventory, List.pushAll_append]
    exact (List.prefix_pushAll _ _).idxOf_eq (List.mem_inventory.mpr (List.mem_append_right _ brought))
  rw [← kept]
  exact inRange text (introduced ▸ List.mem_append_left _ brought)

/-- Whatever the pool lists already, a run refines the line editor all along exactly when every text that the
script brings in gets an id of its own. -/
theorem runLoop_refines_iff (context : Context) {session : Session} {history : Timeline (List String)}
    (holds : session.buffer.Holds session.heap history) (script : List (Except IoError String)) :
    (∀ done, done <+: script → ∃ final, runLoop context session done = .ok final ∧
      final.buffer.Holds final.heap (run (Accepts session.buffer.validator) usizeMax history done)) ↔
      session.InRange history script := by
  constructor
  · intro refines
    induction script generalizing session history with
    | nil => exact fun _ brought => absurd brought List.not_mem_nil
    | cons entry rest ih =>
      cases entry with
      | error error => exact fun _ brought => absurd brought List.not_mem_nil
      | ok line =>
        obtain ⟨next, dispatched, follows⟩ := dispatch_answers holds context line
        by_cases quit : request usizeMax line = .quit
        · intro text brought
          rw [allIntroduced, if_pos quit] at brought
          cases brought
        have goes (done : List (Except IoError String)) :
            runLoop context session (.ok line :: done) = runLoop context next done := by
          rw [runLoop_cons dispatched, if_neg quit]
        obtain ⟨_, ran, here⟩ := refines [.ok line] (List.cons_prefix_cons.mpr ⟨rfl, List.nil_prefix⟩)
        rw [goes, runLoop] at ran
        cases ran
        rw [run, if_neg quit, run] at here
        have advanced := follows.advanced holds
        refine (Session.inRange_cons holds quit advanced here).mpr ⟨fun text brought => ?_, ih here fun done part => ?_⟩
        · exact advanced.pool ▸ here.reaches (mem_present_of_introduced brought)
        · obtain ⟨final, ran, after⟩ := refines (.ok line :: done) (List.cons_prefix_cons.mpr ⟨rfl, part⟩)
          rw [goes] at ran
          rw [run, if_neg quit] at after
          rw [advanced.validator]
          exact ⟨final, ran, after⟩
  · intro inRange done part
    obtain ⟨final, ran, _, refines⟩ := runLoop_holds context holds done
    exact ⟨final, ran, refines (inRange.part part)⟩

end Refinement

section Samples

attribute [local instance] sampleDigests

/-- A session on a buffer loaded from a text. -/
def sampleSession (lines : List String) : Session :=
  ⟨(LineBuffer.loaded Heap.empty none lines).1, (LineBuffer.loaded Heap.empty none lines).2, sampleDisk "", []⟩

theorem sampleSession_contents (lines : List String) :
    ((sampleSession lines).heap.lock (sampleSession lines).buffer.pool).contents = lines.inventory := by
  rw [sampleSession, LineBuffer.loaded, Heap.lock_store, GreenPool.contents_run]

/-- An insertion, a deletion taken back, a zero line number, and what stands behind `q`. -/
theorem sample_script : ∃ final,
    runLoop ⟨none, "\n", none⟩ (sampleSession ["a", "b"])
        [.ok "i 9 c d", .ok "d +1 \r", .ok "u", .ok "r 0 x", .ok "q", .ok "d 1"] = .ok final ∧
      final.buffer.Holds final.heap ⟨[["a", "b"]], ["a", "b", "c d"], [["b", "c d"]]⟩ := by
  have holds : (sampleSession ["a", "b"]).buffer.Holds (sampleSession ["a", "b"]).heap (.fresh ["a", "b"]) :=
    LineBuffer.loaded_holds_of_few Heap.empty none (by decide)
  obtain ⟨final, ran, refines⟩ := runLoop_refines ⟨none, "\n", none⟩ holds
    [.ok "i 9 c d", .ok "d +1 \r", .ok "u", .ok "r 0 x", .ok "q", .ok "d 1"]
  refine ⟨final, ran, refines ?_⟩
  rw [Session.texts, sampleSession_contents]
  decide

/-- A text with one line for each id. -/
def fullText : String := String.ofList ("\n".toList.intercalate ((numerals idCount).map String.toList))

theorem textLines_fullText : textLines fullText = numerals idCount := by
  have bare : ∀ line ∈ numerals idCount, BareText line :=
    fun line member => ⟨notMem_numeral (by decide) member, notMem_numeral (by decide) member⟩
  have joined := LineBuffer.textLines_join .lf bare
  have last : (numerals idCount).getLast? ≠ some "" := by
    intro empty
    obtain ⟨n, _, same⟩ := List.mem_map.mp (List.mem_of_getLast? empty)
    exact Nat.repr_ne_empty same
  rw [if_neg last] at joined
  exact joined

/-- With all ids handed out to the lines of the buffer, an inserted line shows an older one. -/
theorem full_pool_script :
    LineBuffer.fromStr Heap.empty fullText none =
        .ok (.ok ((sampleSession (numerals idCount)).heap, (sampleSession (numerals idCount)).buffer)) ∧
      (sampleSession (numerals idCount)).buffer.Holds (sampleSession (numerals idCount)).heap
        (.fresh (numerals idCount)) ∧
      ∃ final, runLoop ⟨none, "\n", none⟩ (sampleSession (numerals idCount)) [.ok "i 1 new"] = .ok final ∧
        (run (Accepts none) usizeMax (.fresh (numerals idCount)) [(.ok "i 1 new" : Except IoError String)]).present =
          "new" :: numerals idCount ∧
        final.buffer.iterLines final.heap ≠ .ok ("new" :: numerals idCount) := by
  have holds : (sampleSession (numerals idCount)).buffer.Holds (sampleSession (numerals idCount)).heap
      (.fresh (numerals idCount)) := LineBuffer.loaded_holds_of_few Heap.empty none (card_numerals idCount).le
  have asked : request usizeMax "i 1 new" = .insert 1 "new" := by decide
  have inserted (lines : List String) :
      (run (Accepts none) usizeMax (.fresh lines) [(.ok "i 1 new" : Except IoError String)]).present =
        "new" :: lines := by
    rw [run, asked]
    rfl
  refine ⟨?_, holds, ?_⟩
  · rw [LineBuffer.fromStr_eq_ok (fun line _ => accepts_none line), textLines_fullText]
    rfl
  · obtain ⟨final, ran, _⟩ := runLoop_holds ⟨none, "\n", none⟩ holds [.ok "i 1 new"]
    refine ⟨final, ran, inserted _, ?_⟩
    intro read
    have few := (LineBuffer.iterLines_eq_ok.mp read).card_le
    have fresh : "new" ∉ (numerals idCount).toFinset := by
      intro member
      exact notMem_numeral (by decide : 'n'.isDigit = false) (List.mem_toFinset.mp member) (by decide)
    rw [List.toFinset_cons, Finset.card_insert_of_notMem fresh, card_numerals] at few
    exact Nat.not_succ_le_self _ few

end Samples

end Mallard
