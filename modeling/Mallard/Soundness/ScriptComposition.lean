import Mallard.Proofs.Desk
import Mallard.Soundness.EditorRefinement

/-! # Commands that come in parts

The reader of commands splits bytes into lines, and the loop carries its whole state from line to line.
So commands can be delivered in two parts, cut behind any line feed: the loop does on the whole what it
does on the first part and then, unless that stopped it, on the second.
-/

namespace Mallard

open LineEditor LineTerminators

/-- The bytes are empty or end with a line feed. -/
def Closed (bytes : List UInt8) : Prop := bytes = [] ∨ bytes.getLast? = some 0x0A

instance (bytes : List UInt8) : Decidable (Closed bytes) :=
  inferInstanceAs (Decidable (bytes = [] ∨ bytes.getLast? = some 0x0A))

/-- A command line that quits, or a read error. -/
def Stops : Except IoError String → Prop
  | .error _ => True
  | .ok line => request usizeMax line = .quit

instance : DecidablePred Stops
  | .error _ => inferInstanceAs (Decidable True)
  | .ok line => inferInstanceAs (Decidable (request usizeMax line = .quit))

/-- Behind closed bytes the reader starts afresh. -/
theorem bufLines_append {bytes : List UInt8} (closed : Closed bytes) (more : List UInt8) (failure : Option IoError) :
    bufLines (bytes ++ more) failure = bufLines bytes none ++ bufLines more failure := by
  cases failure with
  | none => rw [bufLines, lfLines_append closed, List.map_append, bufLines, bufLines]
  | some error =>
    have kept : bytes.rdropWhile (fun byte => byte ≠ 0x0A) = bytes := by
      rw [List.rdropWhile_eq_self_iff]
      intro nonempty
      have last := closed.resolve_left nonempty
      rw [List.getLast?_eq_getLast_of_ne_nil nonempty] at last
      simp [Option.some.inj last]
    rw [bufLines, bufLines, bufLines, List.rdropWhile_append kept, lfLines_append closed, List.map_append,
      List.append_assoc]

section Texts

variable {validator : Option EncodingValidator} {texts : Timeline (List String)}

/-- A request keeps what holds of every line, if it holds of the text that the request brings in. -/
theorem forall_step {P : String → Prop} (held : ∀ snapshot ∈ texts.snapshots, ∀ line ∈ snapshot, P line) {asked : Request}
    (brought : ∀ text ∈ introduced (Accepts validator) texts asked, P text) :
    ∀ snapshot ∈ (step (Accepts validator) texts asked).snapshots, ∀ line ∈ snapshot, P line := by
  rw [introduced_eq] at brought
  rw [step_eq]
  cases made : BufferOp.ofRequest? texts.present.length asked with
  | none => exact held
  | some op =>
    rw [made] at brought
    dsimp only at brought ⊢
    cases moved : (op.onRoot validator).exec? texts with
    | none => exact held
    | some later =>
      obtain ⟨move, asked, stepped⟩ := Option.bind_eq_some_iff.mp moved
      rw [BranchOp.introduced, moved, asked] at brought
      exact Timeline.forall_exec? stepped held brought

theorem forall_run {P : String → Prop} (held : ∀ snapshot ∈ texts.snapshots, ∀ line ∈ snapshot, P line)
    {script : List (Except IoError String)} (brought : ∀ text ∈ allIntroduced (Accepts validator) usizeMax texts script, P text) :
    ∀ snapshot ∈ (run (Accepts validator) usizeMax texts script).snapshots, ∀ line ∈ snapshot, P line := by
  induction script generalizing texts with
  | nil => exact held
  | cons entry rest ih =>
    cases entry with
    | error error => exact held
    | ok line =>
      by_cases quit : request usizeMax line = .quit
      · rw [run, if_pos quit]
        exact held
      · rw [allIntroduced, if_neg quit, List.forall_mem_append] at brought
        rw [run, if_neg quit]
        exact ih (forall_step held brought.1) brought.2

/-- A script that nothing stops brings in its texts in front of those of the script behind it. -/
theorem allIntroduced_append {script : List (Except IoError String)} (goes : ∀ entry ∈ script, ¬ Stops entry)
    (texts : Timeline (List String)) (more : List (Except IoError String)) :
    allIntroduced (Accepts validator) usizeMax texts (script ++ more) =
      allIntroduced (Accepts validator) usizeMax texts script ++
        allIntroduced (Accepts validator) usizeMax (run (Accepts validator) usizeMax texts script) more := by
  induction script generalizing texts with
  | nil => rfl
  | cons entry rest ih =>
    rw [List.forall_mem_cons] at goes
    cases entry with
    | error error => exact absurd trivial goes.1
    | ok line =>
      have continues : request usizeMax line ≠ .quit := goes.1
      rw [List.cons_append, allIntroduced, if_neg continues, ih goes.2, ← List.append_assoc, allIntroduced,
        if_neg continues, run, if_neg continues]

/-- The texts of a desk behind a script are those of the line editor. -/
theorem Desk.final_texts (context : Context) (validator : Option EncodingValidator) (desk : Desk)
    (script : List (Except IoError String)) :
    ((editor context validator).final desk script).texts = run (Accepts validator) usizeMax desk.texts script := by
  induction script generalizing desk with
  | nil => rfl
  | cons entry rest ih =>
    cases entry with
    | error error => rfl
    | ok line =>
      rw [run]
      by_cases quit : request usizeMax line = .quit
      · have stops : (editor context validator).proceeds desk (.ok line) = false := decide_eq_false (not_not.mpr quit)
        rw [if_pos quit, Interaction.final_cons_of_stops stops]
        simp only [editor, quit, step]
      · have proceeds : (editor context validator).proceeds desk (.ok line) := decide_eq_true quit
        rw [if_neg quit, Interaction.final_cons_of_proceeds proceeds, ih]
        rfl

end Texts

section Loops

variable [Digests] {session : Session} {texts : Timeline (List String)}

/-- The loop on the whole is the loop on a first part and, unless that stops, on the rest. -/
theorem runLoop_append (context : Context) (holds : session.buffer.Holds session.heap texts)
    (script more : List (Except IoError String)) :
    ∃ middle, runLoop context session script = .ok middle ∧
      runLoop context session (script ++ more) =
        if ∃ entry ∈ script, Stops entry then .ok middle else runLoop context middle more := by
  induction script generalizing session texts with
  | nil => exact ⟨session, rfl, by simp⟩
  | cons entry rest ih =>
    cases entry with
    | error error =>
      have stops : ∃ entry ∈ .error error :: rest, Stops entry := ⟨_, List.mem_cons_self, trivial⟩
      exact ⟨_, rfl, (if_pos stops).symm⟩
    | ok line =>
      obtain ⟨next, dispatched, follows, _⟩ := dispatch_desk holds context line
      by_cases quit : request usizeMax line = .quit
      · have stops : ∃ entry ∈ .ok line :: rest, Stops entry := ⟨_, List.mem_cons_self, quit⟩
        have ran (others : List (Except IoError String)) : runLoop context session (.ok line :: others) = .ok next := by
          rw [runLoop_cons dispatched, if_pos quit]
        exact ⟨next, ran rest, (ran _).trans (if_pos stops).symm⟩
      · obtain ⟨later, after, _⟩ := (follows.advanced holds).holds
        obtain ⟨middle, ran, whole⟩ := ih after
        have same : (∃ entry ∈ .ok line :: rest, Stops entry) ↔ ∃ entry ∈ rest, Stops entry := by
          rw [List.exists_mem_cons_iff]
          exact or_iff_right quit
        have goes (others : List (Except IoError String)) :
            runLoop context session (.ok line :: others) = runLoop context next others := by
          rw [runLoop_cons dispatched, if_neg quit]
        refine ⟨middle, (goes rest).trans ran, ?_⟩
        simp only [same]
        exact (goes _).trans whole

/-- Commands cut behind a line feed: the loop does on both parts together what it does on the first and
then, unless a line of the first quits or cannot be read, on the second. -/
theorem runLoop_bytes_append (context : Context) (holds : session.buffer.Holds session.heap texts)
    {bytes : List UInt8} (closed : Closed bytes) (more : List UInt8) (failure : Option IoError) :
    ∃ middle, runLoop context session (bufLines bytes none) = .ok middle ∧
      runLoop context session (bufLines (bytes ++ more) failure) =
        if ∃ entry ∈ bufLines bytes none, Stops entry then .ok middle
        else runLoop context middle (bufLines more failure) := by
  rw [bufLines_append closed]
  exact runLoop_append context holds _ _

end Loops

section Samples

attribute [local instance] sampleDigests

/-- An insertion, and a deletion that the second part brings. -/
theorem sample_parts : ∃ middle,
    runLoop ⟨none, "\n", none⟩ (sampleSession ["a"]) (bufLines (asBytes "i 1 b\r\n") none) = .ok middle ∧
    runLoop ⟨none, "\n", none⟩ (sampleSession ["a"]) (bufLines (asBytes "i 1 b\r\nd 2\n") none) =
      runLoop ⟨none, "\n", none⟩ middle (bufLines (asBytes "d 2\n") none) := by
  have holds : (sampleSession ["a"]).buffer.Holds (sampleSession ["a"]).heap (.fresh ["a"]) :=
    LineBuffer.loaded_holds_of_few Heap.empty none (by decide)
  obtain ⟨middle, ran, whole⟩ := runLoop_bytes_append ⟨none, "\n", none⟩ holds
    (show Closed (asBytes "i 1 b\r\n") by decide +kernel) (asBytes "d 2\n") none
  have goes : ¬ ∃ entry ∈ bufLines (asBytes "i 1 b\r\n") none, Stops entry := by decide +kernel
  rw [if_neg goes] at whole
  exact ⟨middle, ran, whole⟩

end Samples

end Mallard
