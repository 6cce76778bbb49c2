import Mallard.Soundness.Interference

/-! # The order of interleaving does not matter

Threads that use branches over one pool decide together in which order the pool lists its strings, and
nothing else. Two runs in which every branch was created with the same lines and went through the same
actions, in whatever order the actions of different branches came, leave pools with the same strings and
branches that cannot be told apart.
-/

namespace Mallard

/-- What a branch brought into the pool. -/
def Slot.contribution (slot : Slot) : List String := slot.journal.flatMap brought

/-- What the branches of a system brought into the pool. -/
def System.contributions (system : System) : List String := system.slots.flatMap Slot.contribution

/-- The pool lists the base, what the branches brought in, and what the events interned besides. -/
def System.Lists (system : System) (base : List String) (events : List Event) : Prop :=
  ∀ text, text ∈ (system.heap.lock system.pool).contents ↔
    text ∈ base ∨ text ∈ system.contributions ∨ .intern text ∈ events

/-- What was done to each branch: the lines it was created with and the actions on it. -/
def System.histories (system : System) : List (Outcome (List String) × List Action) :=
  system.slots.map fun slot => (slot.opened, slot.journal.map Prod.fst)

section Confluence

variable [Digests]

variable {system next : System} {base : List String} {events : List Event}

/-- An action on a branch is excluded, or extends the pool and the journal by the same strings. -/
theorem System.Isolated.on_eq_ok (isolated : system.Isolated) {i : ℕ} {action : Action}
    (stepped : system.step (.on i action) = .ok next) :
    next = system ∨ ∃ slot moved answer grown, system.slots[i]? = some slot ∧
      moved.journal = slot.journal ++ [(action, answer)] ∧
      grown.contents = (system.heap.lock system.pool).contents.pushAll (brought (action, answer)) ∧
      next = ⟨system.heap.store system.pool grown, system.pool, system.slots.set i moved⟩ := by
  cases found : system.slots[i]? with
  | none =>
    simp only [System.step, found] at stepped
    cases stepped
    exact .inl rfl
  | some slot =>
    obtain ⟨lines, state, before⟩ := isolated.slots slot (List.mem_of_getElem? found)
    have spec := Slot.perform_spec (before.owner ▸ isolated.valid) (before.owner ▸ before.represents) action
    rw [before.owner] at spec
    cases performed : state.perform action with
    | none =>
      rw [performed] at spec
      simp only [System.step, found, spec] at stepped
      cases stepped
      exact .inl rfl
    | some result =>
      rw [performed] at spec
      obtain ⟨grown, after, returned, moved⟩ := spec
      simp only [System.step, found, returned] at stepped
      cases stepped
      exact .inr ⟨slot, _, result.1, grown, rfl, rfl, moved.contents, rfl⟩

omit [Digests] in
/-- A new branch has brought in nothing. -/
theorem System.Lists.create (lists : system.Lists base events) (heap : Heap) (branch : Branch) :
    System.Lists { system with slots := system.slots ++ [Slot.created heap branch] } base events := by
  have nothing : (system.slots ++ [Slot.created heap branch]).flatMap Slot.contribution = system.contributions :=
    List.flatMap_append.trans (List.append_nil _)
  intro text
  rw [System.contributions, nothing]
  exact lists text

/-- What a step lists in the pool is what it adds to a journal or interns besides. -/
theorem System.Isolated.step_lists (isolated : system.Isolated) (lists : system.Lists base events) {event : Event}
    (stepped : system.step event = .ok next) : next.Lists base (events ++ [event]) := by
  have silent (quiet : ∀ content, event ≠ .intern content) (lists : next.Lists base events) :
      next.Lists base (events ++ [event]) := by
    intro text
    rw [List.mem_append, List.mem_singleton, or_iff_left (quiet text).symm]
    exact lists text
  cases event with
  | new =>
    cases stepped
    exact silent (fun _ => Event.noConfusion) (lists.create _ _)
  | fork i =>
    refine silent (fun _ => Event.noConfusion) ?_
    cases found : system.slots[i]? with
    | none =>
      simp only [System.step, found] at stepped
      cases stepped
      exact lists
    | some slot =>
      simp only [System.step, found] at stepped
      split at stepped
      · cases stepped
        exact lists.create _ _
      · cases stepped
        exact lists
  | on i action =>
    refine silent (fun _ => Event.noConfusion) ?_
    rcases isolated.on_eq_ok stepped with rfl | ⟨slot, moved, answer, grown, found, journal, contents, rfl⟩
    · exact lists
    · have contribution : moved.contribution = slot.contribution ++ brought (action, answer) := by
        rw [Slot.contribution, journal, List.flatMap_append, List.flatMap_singleton]
        rfl
      intro text
      have extended := List.mem_flatMap_set found contribution (x := text)
      rw [System.contributions, Heap.lock_store, contents, List.mem_pushAll, lists text, extended, System.contributions]
      simp only [or_assoc, or_comm (a := Event.intern text ∈ events)]
  | intern content =>
    cases stepped
    intro text
    change text ∈ ((system.heap.store system.pool ((system.heap.lock system.pool).intern content).2).lock
      system.pool).contents ↔ text ∈ base ∨ text ∈ system.contributions ∨ _
    rw [Heap.lock_store, isolated.valid.contents_intern, List.mem_pushNew, lists text, List.mem_append,
      List.mem_singleton, Event.intern.injEq]
    simp only [or_assoc]

/-- The pool lists what it began with, what the branches brought in, and what was interned besides. -/
theorem System.Isolated.run_lists (isolated : system.Isolated) {before : List Event} (lists : system.Lists base before)
    (ran : system.run events = .ok next) : next.Lists base (before ++ events) := by
  induction events generalizing system before with
  | nil =>
    cases ran
    rwa [List.append_nil]
  | cons event events ih =>
    obtain ⟨middle, stepped, rest⟩ := Outcome.bind_eq_ok.mp ran
    obtain ⟨_, again, after⟩ := isolated.step event
    cases stepped.symm.trans again
    have more := ih after (isolated.step_lists lists stepped) rest
    rwa [List.append_assoc] at more

/-- At the beginning the journals are empty. -/
theorem System.Started.lists (started : system.Started) :
    system.Lists (system.heap.lock system.pool).contents [] := by
  intro text
  have nothing : system.contributions = [] := by cases started <;> rfl
  rw [nothing]
  simp

/-- The answers to some actions, and where they lead, are determined by the lines at the beginning. -/
theorem TextState.Replays.unique {start state reached : TextState} {journal other : List (Action × Answer)}
    (first : start.Replays journal state) (second : start.Replays other reached)
    (actions : journal.map Prod.fst = other.map Prod.fst) : journal = other ∧ state = reached := by
  induction first generalizing other reached with
  | nil =>
    cases second with
    | nil => exact ⟨rfl, rfl⟩
    | snoc before performed => simp at actions
  | @snoc journal state next action answer before performed ih =>
    cases second with
    | nil => simp at actions
    | @snoc _ state' _ action' answer' before' performed' =>
      rw [List.map_append, List.map_append] at actions
      obtain ⟨earlier, last⟩ := List.append_inj' actions rfl
      obtain ⟨rfl, rfl⟩ := ih before' earlier
      obtain rfl : action = action' := List.singleton_inj.mp last
      cases performed.symm.trans performed'
      exact ⟨rfl, rfl⟩

/-- Branches of two systems that cannot be told apart: they have been answered the same, and their lines,
histories, readers and edits under way are the same over strings. -/
structure Slot.Twins (left right : System) (slot twin : Slot) : Prop where
  journal : slot.journal = twin.journal
  visible : slot.branch.visible left.heap = twin.branch.visible right.heap
  state : ∃ state, slot.Represents (left.heap.lock left.pool) state ∧ twin.Represents (right.heap.lock right.pool) state

theorem System.Isolated.twins {left right : System} (isolated : left.Isolated) (isolated' : right.Isolated)
    (fits : (left.heap.lock left.pool).Fits) (fits' : (right.heap.lock right.pool).Fits) {slot twin : Slot}
    (member : slot ∈ left.slots) (member' : twin ∈ right.slots) (opened : slot.opened = twin.opened)
    (actions : slot.journal.map Prod.fst = twin.journal.map Prod.fst) : Slot.Twins left right slot twin := by
  obtain ⟨lines, state, here⟩ := isolated.slots slot member
  obtain ⟨lines', state', there⟩ := isolated'.slots twin member'
  obtain rfl : lines = lines' := Except.ok.inj (here.opened.symm.trans (opened.trans there.opened))
  obtain ⟨journal, rfl⟩ := (here.replays fits).unique (there.replays fits') actions
  refine ⟨journal, ?_, state, here.represents, there.represents⟩
  rw [Branch.visible_eq_ok.mpr (here.owner ▸ here.represents.shown.present),
    Branch.visible_eq_ok.mpr (there.owner ▸ there.represents.shown.present)]

/-- Two interleavings in which every branch was created with the same lines and went through the same
actions, and in which others interned the same strings, end alike: the pools list the same strings, at
most in another order, and the branches cannot be told apart. -/
theorem System.run_confluent (started : system.Started) {others : List Event} {left right : System}
    (ran : system.run events = .ok left) (ran' : system.run others = .ok right)
    (fits : (left.heap.lock left.pool).len ≤ idCount) (fits' : (right.heap.lock right.pool).len ≤ idCount)
    (histories : left.histories = right.histories)
    (externals : ∀ content, .intern content ∈ events ↔ .intern content ∈ others) :
    (left.heap.lock left.pool).contents.Perm (right.heap.lock right.pool).contents ∧
      List.Forall₂ (Slot.Twins left right) left.slots right.slots := by
  obtain ⟨_, again, isolated⟩ := started.isolated.run events
  cases ran.symm.trans again
  obtain ⟨_, again, isolated'⟩ := started.isolated.run others
  cases ran'.symm.trans again
  have twins : List.Forall₂ (Slot.Twins left right) left.slots right.slots := by
    refine List.forall₂_of_map_eq histories fun slot member twin member' same => ?_
    obtain ⟨opened, actions⟩ := Prod.mk.inj same
    exact isolated.twins isolated' fits fits' member member' opened actions
  refine ⟨?_, twins⟩
  have contributions : left.contributions = right.contributions := by
    have each : List.Forall₂ (fun slot twin => slot.contribution = twin.contribution) left.slots right.slots :=
      twins.imp fun _ _ twins => congrArg (List.flatMap brought) twins.journal
    rw [← List.forall₂_map_right_iff, ← List.forall₂_map_left_iff, List.forall₂_eq_eq_eq] at each
    rw [System.contributions, System.contributions, List.flatMap_def, List.flatMap_def, each]
  rw [List.perm_ext_iff_of_nodup isolated.valid.distinct isolated'.valid.distinct]
  intro text
  rw [started.isolated.run_lists started.lists ran text, started.isolated.run_lists started.lists ran' text,
    contributions, List.nil_append, List.nil_append, externals text]

end Confluence

section Samples

attribute [local instance] sampleDigests

/-- Two branches insert a line each, once at the same time and once one after the other. -/
theorem sample_confluent : ∃ left right,
    System.run ⟨Heap.empty.alloc.2, Heap.empty.alloc.1, []⟩ [.new, .new, .on 0 (.call (.insertLine 0 "a" none)),
      .on 1 (.call (.insertLine 0 "b" none)), .on 1 .resume, .on 0 .resume] = .ok left ∧
    System.run ⟨Heap.empty.alloc.2, Heap.empty.alloc.1, []⟩ [.new, .new, .on 1 (.call (.insertLine 0 "b" none)),
      .on 1 .resume, .on 0 (.call (.insertLine 0 "a" none)), .on 0 .resume] = .ok right ∧
    (left.heap.lock left.pool).contents = ["a", "b"] ∧ (right.heap.lock right.pool).contents = ["b", "a"] ∧
    (left.heap.lock left.pool).contents.Perm (right.heap.lock right.pool).contents ∧
    List.Forall₂ (Slot.Twins left right) left.slots right.slots := by
  obtain ⟨left, ran⟩ : ∃ left, System.run ⟨Heap.empty.alloc.2, Heap.empty.alloc.1, []⟩ [.new, .new,
      .on 0 (.call (.insertLine 0 "a" none)), .on 1 (.call (.insertLine 0 "b" none)), .on 1 .resume,
      .on 0 .resume] = .ok left := ⟨_, rfl⟩
  obtain ⟨right, ran'⟩ : ∃ right, System.run ⟨Heap.empty.alloc.2, Heap.empty.alloc.1, []⟩ [.new, .new,
      .on 1 (.call (.insertLine 0 "b" none)), .on 1 .resume, .on 0 (.call (.insertLine 0 "a" none)),
      .on 0 .resume] = .ok right := ⟨_, rfl⟩
  have confluent := System.run_confluent (.pool Heap.empty) ran ran'
  cases ran
  cases ran'
  exact ⟨_, _, rfl, rfl, rfl, rfl, confluent (by decide) (by decide) rfl (by simp)⟩

end Samples

end Mallard
