import Mathlib.Data.List.Forall2

/-! # Interactive machines

A machine reads inputs one after the other. An input moves the state, makes the machine print, and
decides whether it goes on; a machine that stopped reads nothing more. What a run prints and where it
ends are functions of its reads, the inputs that were read with the states they were read in. The
rules of this module are for runs: concatenation, invariants, the last write to a part of the state,
and lockstep simulation.
-/

/-- What an input does to a machine. -/
structure Interaction (σ ι ω : Type*) where
  next : σ → ι → σ
  prints : σ → ι → List ω
  proceeds : σ → ι → Bool

namespace Interaction

variable {σ τ ι ω β : Type*} (machine : Interaction σ ι ω)

/-- The inputs that are read, each with the state it is read in. -/
def reads (state : σ) : List ι → List (σ × ι)
  | [] => []
  | input :: rest =>
    (state, input) :: if machine.proceeds state input then reads (machine.next state input) rest else []

/-- The state behind the last input that is read. -/
def final (state : σ) : List ι → σ
  | [] => state
  | input :: rest =>
    if machine.proceeds state input then final (machine.next state input) rest else machine.next state input

/-- What the machine prints over a run. -/
def printed (state : σ) (inputs : List ι) : List ω :=
  (machine.reads state inputs).flatMap fun read => machine.prints read.1 read.2

/-- No input stops the machine. -/
def Finishes (state : σ) (inputs : List ι) : Prop :=
  ∀ read ∈ machine.reads state inputs, machine.proceeds read.1 read.2

variable {machine} {state : σ} {input : ι}

theorem reads_cons_of_proceeds (proceeds : machine.proceeds state input) (rest : List ι) :
    machine.reads state (input :: rest) = (state, input) :: machine.reads (machine.next state input) rest := by
  rw [reads, if_pos proceeds]

theorem reads_cons_of_stops (stops : machine.proceeds state input = false) (rest : List ι) :
    machine.reads state (input :: rest) = [(state, input)] := by
  rw [reads, stops, if_neg Bool.false_ne_true]

theorem final_cons_of_proceeds (proceeds : machine.proceeds state input) (rest : List ι) :
    machine.final state (input :: rest) = machine.final (machine.next state input) rest := by
  rw [final, if_pos proceeds]

theorem final_cons_of_stops (stops : machine.proceeds state input = false) (rest : List ι) :
    machine.final state (input :: rest) = machine.next state input := by
  rw [final, stops, if_neg Bool.false_ne_true]

theorem printed_cons_of_proceeds (proceeds : machine.proceeds state input) (rest : List ι) :
    machine.printed state (input :: rest) =
      machine.prints state input ++ machine.printed (machine.next state input) rest := by
  rw [printed, reads_cons_of_proceeds proceeds, List.flatMap_cons, printed]

theorem printed_cons_of_stops (stops : machine.proceeds state input = false) (rest : List ι) :
    machine.printed state (input :: rest) = machine.prints state input := by
  rw [printed, reads_cons_of_stops stops, List.flatMap_singleton]

theorem finishes_cons {rest : List ι} :
    machine.Finishes state (input :: rest) ↔
      machine.proceeds state input ∧ machine.Finishes (machine.next state input) rest := by
  rw [Finishes]
  cases proceeds : machine.proceeds state input with
  | true =>
    rw [reads_cons_of_proceeds proceeds, List.forall_mem_cons, proceeds]
    exact Iff.rfl
  | false =>
    rw [reads_cons_of_stops proceeds, List.forall_mem_singleton, proceeds]
    exact iff_of_false Bool.false_ne_true (fun both => Bool.false_ne_true both.1)

/-- Behind a run that finishes, the machine reads on from where it ended. -/
theorem Finishes.append {inputs : List ι} (finishes : machine.Finishes state inputs) (more : List ι) :
    machine.reads state (inputs ++ more) =
        machine.reads state inputs ++ machine.reads (machine.final state inputs) more ∧
      machine.final state (inputs ++ more) = machine.final (machine.final state inputs) more := by
  induction inputs generalizing state with
  | nil => exact ⟨rfl, rfl⟩
  | cons input rest ih =>
    obtain ⟨proceeds, finishes⟩ := finishes_cons.mp finishes
    obtain ⟨reads, final⟩ := ih finishes
    rw [List.cons_append, reads_cons_of_proceeds proceeds, reads_cons_of_proceeds proceeds,
      final_cons_of_proceeds proceeds, final_cons_of_proceeds proceeds]
    exact ⟨congrArg _ reads, final⟩

theorem Finishes.printed_append {inputs : List ι} (finishes : machine.Finishes state inputs) (more : List ι) :
    machine.printed state (inputs ++ more) =
      machine.printed state inputs ++ machine.printed (machine.final state inputs) more := by
  rw [printed, (finishes.append more).1, List.flatMap_append, printed, printed]

/-- What every read keeps holds in front of every read and at the end. -/
theorem invariant {P : σ → Prop} {inputs : List ι}
    (step : ∀ read ∈ machine.reads state inputs, P read.1 → P (machine.next read.1 read.2)) (start : P state) :
    (∀ read ∈ machine.reads state inputs, P read.1) ∧ P (machine.final state inputs) := by
  induction inputs generalizing state with
  | nil => exact ⟨fun _ member => absurd member List.not_mem_nil, start⟩
  | cons input rest ih =>
    cases proceeds : machine.proceeds state input with
    | true =>
      rw [reads_cons_of_proceeds proceeds, List.forall_mem_cons] at step
      obtain ⟨reads, final⟩ := ih step.2 (step.1 start)
      rw [reads_cons_of_proceeds proceeds, final_cons_of_proceeds proceeds]
      exact ⟨List.forall_mem_cons.mpr ⟨start, reads⟩, final⟩
    | false =>
      rw [reads_cons_of_stops proceeds, List.forall_mem_singleton] at step
      rw [reads_cons_of_stops proceeds, final_cons_of_stops proceeds]
      exact ⟨List.forall_mem_singleton.mpr start, step start⟩

/-- A part of the state that a read writes or leaves alone holds, at the end, what the last write put
there. -/
theorem final_eq_last (part : σ → β) (write : σ × ι → Option β)
    (each : ∀ state input, part (machine.next state input) = (write (state, input)).getD (part state))
    (state : σ) (inputs : List ι) :
    part (machine.final state inputs) = ((machine.reads state inputs).filterMap write).getLastD (part state) := by
  have first (state : σ) (input : ι) (later : List β) :
      (((write (state, input)).toList ++ later).getLastD (part state)) =
        later.getLastD (part (machine.next state input)) := by
    rw [each]
    cases write (state, input) with
    | none => rfl
    | some value => exact List.getLastD_cons
  have written (read : σ × ι) (later : List (σ × ι)) :
      (read :: later).filterMap write = (write read).toList ++ later.filterMap write := by
    rw [List.filterMap_cons]
    cases write read <;> rfl
  induction inputs generalizing state with
  | nil => rfl
  | cons input rest ih =>
    cases proceeds : machine.proceeds state input with
    | true =>
      rw [reads_cons_of_proceeds proceeds, final_cons_of_proceeds proceeds, written, first]
      exact ih _
    | false =>
      rw [reads_cons_of_stops proceeds, final_cons_of_stops proceeds, written, first]
      rfl

variable {other : Interaction τ ι ω} {state' : τ}

/-- Two machines in related states go on, print and move alike on inputs of a kind. -/
structure Lockstep (machine : Interaction σ ι ω) (other : Interaction τ ι ω) (R : σ → τ → Prop) (Q : ι → Prop) :
    Prop where
  proceeds : ∀ {state state' input}, R state state' → Q input →
    machine.proceeds state input = other.proceeds state' input
  prints : ∀ {state state' input}, R state state' → Q input → machine.prints state input = other.prints state' input
  next : ∀ {state state' input}, R state state' → Q input →
    R (machine.next state input) (other.next state' input)

/-- Machines in lockstep print the same over every run, and end in related states. -/
theorem Lockstep.run {R : σ → τ → Prop} {Q : ι → Prop} (lockstep : Lockstep machine other R Q)
    {inputs : List ι} (kind : ∀ input ∈ inputs, Q input) (related : R state state') :
    machine.printed state inputs = other.printed state' inputs ∧
      R (machine.final state inputs) (other.final state' inputs) := by
  induction inputs generalizing state state' with
  | nil => exact ⟨rfl, related⟩
  | cons input rest ih =>
    have here := kind input List.mem_cons_self
    have prints := lockstep.prints related here
    have same := lockstep.proceeds related here
    have next := lockstep.next related here
    cases proceeds : machine.proceeds state input with
    | true =>
      obtain ⟨printed, final⟩ := ih (fun later member => kind later (List.mem_cons_of_mem _ member)) next
      rw [proceeds] at same
      rw [printed_cons_of_proceeds proceeds, printed_cons_of_proceeds same.symm, prints, printed,
        final_cons_of_proceeds proceeds, final_cons_of_proceeds same.symm]
      exact ⟨rfl, final⟩
    | false =>
      rw [proceeds] at same
      rw [printed_cons_of_stops proceeds, printed_cons_of_stops same.symm, prints,
        final_cons_of_stops proceeds, final_cons_of_stops same.symm]
      exact ⟨rfl, next⟩

end Interaction
