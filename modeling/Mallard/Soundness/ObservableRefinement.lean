import Mallard.Proofs.Desk
import Mallard.Soundness.EditorRefinement

/-! # What a session shows is all there is to it

The command loop comes to where the desk comes to: it reads the same command lines, prints the same and
writes the same files, as long as the strings in play are at most as many as the ids. Pools, ids, digest
cells and the representation of the history never show, and of a validator only its verdicts do.
-/

namespace Mallard

open LineEditor

section Scripts

variable [Digests]

/-- The session has come to where the desk is, having printed something since. -/
structure Session.OnDesk (session : Session) (printed : List Output) (desk : Desk) (final : Session) : Prop where
  holds : final.buffer.Holds final.heap desk.texts
  disk : final.disk = desk.disk
  output : final.output = session.output ++ printed
  validator : final.buffer.validator = session.buffer.validator

/-- Behind a command line that goes on, few texts are in play still, and the pool lists few. -/
theorem Advanced.few {session next : Session} {history later : Timeline (List String)} {line : String}
    {rest : List (Except IoError String)}
    (advanced : Advanced session.heap session.buffer
      (introduced (Accepts session.buffer.validator) history (request usizeMax line))
      (step (Accepts session.buffer.validator) history (request usizeMax line)) next.heap next.buffer)
    (after : next.buffer.Holds next.heap later) (continues : request usizeMax line ≠ .quit)
    (few : (session.texts history (.ok line :: rest)).toFinset.card ≤ idCount) :
    (next.heap.lock session.buffer.pool).Fits ∧
      (next.texts (step (Accepts session.buffer.validator) history (request usizeMax line)) rest).toFinset.card ≤
        idCount := by
  obtain ⟨pool, validator, contents, _⟩ := advanced
  rw [Session.texts, allIntroduced, if_neg continues, ← List.append_assoc] at few
  constructor
  · have soon := few
    rw [List.toFinset_append] at soon
    exact (pool ▸ after.valid).fits_of_card contents ((Finset.card_le_card Finset.subset_union_left).trans soon)
  · rwa [Session.texts, pool, validator, contents, List.toFinset_append, List.toFinset_pushAll,
      ← List.toFinset_append]

/-- The command loop comes to where the desk comes to. -/
theorem runLoop_desk (context : Context) {session : Session} {history : Timeline (List String)}
    (holds : session.buffer.Holds session.heap history) (script : List (Except IoError String))
    (few : (session.texts history script).toFinset.card ≤ idCount) :
    ∃ final, runLoop context session script = .ok final ∧
      session.OnDesk ((Desk.editor context session.buffer.validator).printed ⟨history, session.disk⟩ script)
        ((Desk.editor context session.buffer.validator).final ⟨history, session.disk⟩ script) final := by
  induction script generalizing session history with
  | nil => exact ⟨session, rfl, holds, rfl, (List.append_nil _).symm, rfl⟩
  | cons entry rest ih =>
    cases entry with
    | error error =>
      have stops : (Desk.editor context session.buffer.validator).proceeds ⟨history, session.disk⟩ (.error error) = false :=
        rfl
      rw [Interaction.final_cons_of_stops stops, Interaction.printed_cons_of_stops stops]
      exact ⟨session.report (.readFailed error), rfl, holds, rfl, rfl, rfl⟩
    | ok line =>
      obtain ⟨next, dispatched, follows, output, disk⟩ := dispatch_desk holds context line
      have advanced := follows.advanced holds
      obtain ⟨later, after, agrees⟩ := advanced.holds_of_fits
      cases proceeds : (Desk.editor context session.buffer.validator).proceeds ⟨history, session.disk⟩ (.ok line) with
      | false =>
        have quit : request usizeMax line = .quit := by simpa [Desk.editor] using proceeds
        have stays : ((Desk.editor context session.buffer.validator).next ⟨history, session.disk⟩ (.ok line)).texts =
            history := by
          simp only [Desk.editor, quit, step]
        rw [quit] at follows
        obtain ⟨heap, buffer⟩ := follows
        rw [Interaction.final_cons_of_stops proceeds, Interaction.printed_cons_of_stops proceeds]
        refine ⟨next, ?_, ?_, disk, output, congrArg _ buffer⟩
        · rw [runLoop_cons dispatched, if_pos quit]
        · rw [stays, heap, buffer]
          exact holds
      | true =>
        have continues : request usizeMax line ≠ .quit := by simpa [Desk.editor] using proceeds
        obtain ⟨fits, fewer⟩ := advanced.few after continues few
        obtain rfl := agrees fits
        obtain ⟨final, ran, onDesk⟩ := ih after fewer
        rw [advanced.validator, disk] at onDesk
        rw [Interaction.final_cons_of_proceeds proceeds, Interaction.printed_cons_of_proceeds proceeds]
        refine ⟨final, ?_, onDesk.holds, onDesk.disk, ?_, onDesk.validator.trans advanced.validator⟩
        · rw [runLoop_cons dispatched, if_neg continues, ran]
        · rw [onDesk.output, output, List.append_assoc]
          rfl

omit [Digests] in
/-- Validators with the same verdicts make the same editor. -/
theorem Desk.editor_congr (context : Context) {validator other : Option EncodingValidator}
    (same : ∀ line, checkLine validator line = checkLine other line) :
    editor context validator = editor context other := by
  have accepts : Accepts validator = Accepts other := by
    funext line
    rw [Accepts, same, Accepts]
  have complains : ∀ command, complaint command validator = complaint command other := by
    intro command
    funext text
    rw [complaint, same, complaint]
  simp only [editor, shows, complains, Interaction.mk.injEq, and_true]
  funext desk entry
  cases entry with
  | error error => rfl
  | ok line =>
    dsimp only
    congr 2

/-- Two sessions with the same history, the same files and validators of the same verdicts cannot be
told apart by any script, whatever their pools look like: they print the same, leave the same files and
hold the same history again. -/
theorem runLoop_indistinguishable (context : Context) {left right : Session} {history : Timeline (List String)}
    (leftHolds : left.buffer.Holds left.heap history) (rightHolds : right.buffer.Holds right.heap history)
    (verdicts : ∀ line, checkLine left.buffer.validator line = checkLine right.buffer.validator line)
    (disk : left.disk = right.disk) (script : List (Except IoError String))
    (leftFew : (left.texts history script).toFinset.card ≤ idCount)
    (rightFew : (right.texts history script).toFinset.card ≤ idCount) :
    ∃ leftFinal rightFinal printed later,
      runLoop context left script = .ok leftFinal ∧ runLoop context right script = .ok rightFinal ∧
        leftFinal.output = left.output ++ printed ∧ rightFinal.output = right.output ++ printed ∧
        leftFinal.disk = rightFinal.disk ∧
        leftFinal.buffer.Holds leftFinal.heap later ∧ rightFinal.buffer.Holds rightFinal.heap later := by
  obtain ⟨leftFinal, leftRan, leftDesk⟩ := runLoop_desk context leftHolds script leftFew
  obtain ⟨rightFinal, rightRan, rightDesk⟩ := runLoop_desk context rightHolds script rightFew
  rw [Desk.editor_congr context verdicts, disk] at leftDesk
  exact ⟨leftFinal, rightFinal, _, _, leftRan, rightRan, leftDesk.output, rightDesk.output,
    leftDesk.disk.trans rightDesk.disk.symm, leftDesk.holds, rightDesk.holds⟩

end Scripts

section Samples

attribute [local instance] sampleDigests

/-- A session over a pool that lists a string of no line, under a validator that accepts everything. -/
def crowdedSession : Session :=
  let loaded := LineBuffer.loaded Heap.empty (some utf8Validator) ["a"]
  ⟨(loaded.1.intern loaded.2.pool "b").2, loaded.2, sampleDisk "", []⟩

/-- Beside a session without any of that: an insertion of the listed string, a listing, two undo calls
and a save. -/
theorem sample_indistinguishable : ∃ left right printed later,
    runLoop ⟨none, "\n", none⟩ (sampleSession ["a"]) [.ok "i 1 b", .ok "l", .ok "u", .ok "u", .ok "s f"] = .ok left ∧
      runLoop ⟨none, "\n", none⟩ crowdedSession [.ok "i 1 b", .ok "l", .ok "u", .ok "u", .ok "s f"] = .ok right ∧
      left.output = printed ∧ right.output = printed ∧ left.disk = right.disk ∧
      left.buffer.Holds left.heap later ∧ right.buffer.Holds right.heap later := by
  have holds : (sampleSession ["a"]).buffer.Holds (sampleSession ["a"]).heap (.fresh ["a"]) :=
    LineBuffer.loaded_holds_of_few Heap.empty none (by decide)
  have loaded : (LineBuffer.loaded Heap.empty (some utf8Validator) ["a"]).2.Holds
      (LineBuffer.loaded Heap.empty (some utf8Validator) ["a"]).1 (.fresh ["a"]) :=
    LineBuffer.loaded_holds_of_few Heap.empty _ (by decide)
  have grown := loaded.valid.extends_intern "b"
  have crowded : crowdedSession.buffer.Holds crowdedSession.heap (.fresh ["a"]) := by
    refine ⟨loaded.owner, ?_, ?_⟩
    · rw [crowdedSession, Heap.intern, Heap.lock_store]
      exact loaded.valid.intern "b"
    · rw [crowdedSession, Heap.intern, Heap.lock_store]
      exact loaded.shown.mono grown
  have contents : (crowdedSession.heap.lock crowdedSession.buffer.pool).contents = ["a", "b"] := by decide
  refine runLoop_indistinguishable ⟨none, "\n", none⟩ holds crowded (fun _ => rfl) rfl _ ?_ ?_
  · rw [Session.texts, sampleSession_contents]
    decide
  · rw [Session.texts, contents]
    decide

end Samples

end Mallard
