import Mallard.Proofs.BufferTexts
import Mallard.Proofs.SlotTexts

/-! # Branches that share a pool do not interfere

Every branch of a system is followed by the strings its owner observes. An action of one branch only
makes the pool grow, which leaves what the others denote in place, so each journal replays on strings
alone. The same journal is then replayed by the code, on a pool of its own: that pool lists no string
that the shared pool does not list, so it fits the id type when the shared one does.
-/

namespace Mallard

/-- The journal is what the actions answer, one after the other, from a state described by strings. -/
inductive TextState.Replays [Digests] (start : TextState) : List (Action × Answer) → TextState → Prop
  | nil : TextState.Replays start [] start
  | snoc {journal : List (Action × Answer)} {state next : TextState} {action : Action} {answer : Answer}
      (before : TextState.Replays start journal state) (performed : state.perform action = some (answer, next)) :
      TextState.Replays start (journal ++ [(action, answer)]) next

/-- A system begins with a fresh pool, or with a buffer that a constructor returned. -/
inductive System.Started [Digests] : System → Prop
  | pool (heap : Heap) : System.Started ⟨heap.alloc.2, heap.alloc.1, []⟩
  | buffer {heap heap' : Heap} {validator : Option EncodingValidator} {buffer : LineBuffer}
      (obtained : Obtained heap validator (heap', buffer)) : System.Started (System.ofBuffer heap' buffer)

section Systems

variable [Digests]

/-- A slot over the pool, created with the given lines and seen by its owner in the given state. The
pool lists the strings it was created with and those it brought in; within the range of the ids, its
journal replays on strings. -/
structure Slot.Isolated (pool : GreenPool) (ref : PoolRef) (slot : Slot) (lines : List String)
    (state : TextState) : Prop where
  owner : slot.branch.pool = ref
  opened : slot.opened = .ok lines
  listed : ∀ text ∈ lines ++ slot.journal.flatMap brought, text ∈ pool.contents
  represents : slot.Represents pool state
  replays : pool.Fits → (TextState.fresh lines).Replays slot.journal state

/-- What holds in every reachable system. -/
structure System.Isolated (system : System) : Prop where
  valid : (system.heap.lock system.pool).WellFormed
  slots : ∀ slot ∈ system.slots, ∃ lines state,
    slot.Isolated (system.heap.lock system.pool) system.pool lines state

variable {pool grown : GreenPool} {ref : PoolRef} {slot : Slot} {lines : List String} {state : TextState}

/-- A growing pool leaves a slot alone. -/
theorem Slot.Isolated.mono (isolated : slot.Isolated pool ref lines state) (extends_ : pool.Extends grown) :
    slot.Isolated grown ref lines state := by
  refine ⟨isolated.owner, isolated.opened, ?_, isolated.represents.mono extends_, ?_⟩
  · exact fun text member => extends_.subset (isolated.listed text member)
  · exact fun fits => isolated.replays (extends_.fits fits)

/-- A branch with empty stacks starts out isolated. -/
theorem Slot.isolated_created {heap : Heap} {branch : Branch} (owner : branch.pool = ref)
    (blank : branch.undoStack = [] ∧ branch.redoStack = [])
    (denote : (heap.lock ref).DenoteAll branch.lines lines) :
    (Slot.created heap branch).Isolated (heap.lock ref) ref lines (.fresh lines) := by
  subst owner
  refine ⟨rfl, Branch.visible_eq_ok.mpr denote, ?_, represents_fresh heap blank denote, fun _ => .nil⟩
  intro text member
  rw [created, List.flatMap_nil, List.append_nil] at member
  obtain ⟨place, bound, rfl⟩ := List.getElem_of_mem member
  exact List.mem_of_getElem? (denote.get (denote.length_eq ▸ bound) bound)

/-- A performed action keeps its slot isolated, with one more entry in the journal. -/
theorem Slot.Isolated.perform (isolated : slot.Isolated pool ref lines state) {action : Action} {answer : Answer}
    {expected : TextState} {next : Slot} (performed : state.perform action = some (answer, expected))
    (moved : Slot.Moved pool slot (action, answer) expected grown next) :
    ∃ reached, Slot.Isolated grown ref { next with journal := slot.journal ++ [(action, answer)] } lines reached := by
  have extends_ : pool.Extends grown := by
    rw [GreenPool.Extends, moved.contents]
    exact List.prefix_pushAll _ _
  obtain ⟨reached, represents, agrees⟩ := moved.represents
  refine ⟨reached, moved.owner.trans isolated.owner, moved.opened.trans isolated.opened, ?_,
    ⟨represents.shown, represents.update, represents.readers, represents.possible⟩, ?_⟩
  · intro text member
    rw [List.flatMap_append, ← List.append_assoc, List.flatMap_singleton] at member
    rw [moved.contents, List.mem_pushAll]
    exact (List.mem_append.mp member).imp_left (isolated.listed text)
  · intro fits
    obtain rfl := agrees fits
    exact .snoc (isolated.replays (extends_.fits fits)) performed

variable {system : System}

/-- What a growing pool and an updated slot leave of the invariant. -/
theorem System.Isolated.update (isolated : system.Isolated) {grown : GreenPool} (valid : grown.WellFormed)
    (extends_ : (system.heap.lock system.pool).Extends grown) (slots : List Slot)
    (kept : ∀ slot ∈ slots, slot ∈ system.slots ∨ ∃ lines state, slot.Isolated grown system.pool lines state) :
    System.Isolated ⟨system.heap.store system.pool grown, system.pool, slots⟩ := by
  refine ⟨?_, ?_⟩
  · rw [Heap.lock_store]
    exact valid
  · rw [Heap.lock_store]
    intro slot member
    rcases kept slot member with old | new
    · obtain ⟨lines, state, before⟩ := isolated.slots slot old
      exact ⟨lines, state, before.mono extends_⟩
    · exact new

/-- A new slot beside the others. -/
theorem System.Isolated.create (isolated : system.Isolated) {branch : Branch} {lines : List String}
    (owner : branch.pool = system.pool) (blank : branch.undoStack = [] ∧ branch.redoStack = [])
    (denote : (system.heap.lock system.pool).DenoteAll branch.lines lines) :
    System.Isolated { system with slots := system.slots ++ [Slot.created system.heap branch] } := by
  refine ⟨isolated.valid, ?_⟩
  intro slot member
  rcases List.mem_append.mp member with old | new
  · exact isolated.slots slot old
  · obtain rfl := List.mem_singleton.mp new
    exact ⟨lines, _, Slot.isolated_created owner blank denote⟩

theorem System.Isolated.on (isolated : system.Isolated) (i : ℕ) (action : Action) :
    ∃ next, system.step (.on i action) = .ok next ∧ next.Isolated := by
  cases found : system.slots[i]? with
  | none =>
    refine ⟨system, ?_, isolated⟩
    simp only [step, found]
    rfl
  | some slot =>
    obtain ⟨lines, state, before⟩ := isolated.slots slot (List.mem_of_getElem? found)
    have valid := before.owner ▸ isolated.valid
    have spec := Slot.perform_spec valid (before.owner ▸ before.represents) action
    rw [before.owner] at spec
    cases performed : state.perform action with
    | none =>
      rw [performed] at spec
      refine ⟨system, ?_, isolated⟩
      simp only [step, found, spec]
      rfl
    | some result =>
      obtain ⟨answer, expected⟩ := result
      rw [performed] at spec
      obtain ⟨grown, next, returned, moved⟩ := spec
      obtain ⟨reached, after⟩ := before.perform performed moved
      have extends_ : (system.heap.lock system.pool).Extends grown := by
        rw [GreenPool.Extends, moved.contents]
        exact List.prefix_pushAll _ _
      refine ⟨⟨system.heap.store system.pool grown, system.pool,
        system.slots.set i { next with journal := slot.journal ++ [(action, answer)] }⟩, ?_, ?_⟩
      · simp only [step, found, returned]
        rfl
      · apply isolated.update moved.valid extends_
        intro other member
        rcases List.mem_or_eq_of_mem_set member with old | rfl
        · exact .inl old
        · exact .inr ⟨lines, reached, after⟩

/-- No step panics or breaks the invariant. -/
theorem System.Isolated.step (isolated : system.Isolated) (event : Event) :
    ∃ next, system.step event = .ok next ∧ next.Isolated := by
  cases event with
  | new => exact ⟨_, rfl, isolated.create rfl ⟨rfl, rfl⟩ .nil⟩
  | fork i =>
    cases found : system.slots[i]? with
    | none =>
      refine ⟨system, ?_, isolated⟩
      simp only [System.step, found]
      rfl
    | some slot =>
      obtain ⟨lines, state, before⟩ := isolated.slots slot (List.mem_of_getElem? found)
      simp only [System.step, found]
      split
      · exact ⟨_, rfl, isolated.create before.owner ⟨rfl, rfl⟩ before.represents.shown.present⟩
      · exact ⟨system, rfl, isolated⟩
  | on i action => exact isolated.on i action
  | intern content =>
    refine ⟨_, rfl, ?_⟩
    exact isolated.update (isolated.valid.intern content) (isolated.valid.extends_intern content) system.slots
      (fun slot member => .inl member)

theorem System.Isolated.run (isolated : system.Isolated) (events : List Event) :
    ∃ final, system.run events = .ok final ∧ final.Isolated := by
  induction events generalizing system with
  | nil => exact ⟨system, rfl, isolated⟩
  | cons event events ih =>
    obtain ⟨next, stepped, after⟩ := isolated.step event
    obtain ⟨final, ran, finished⟩ := ih after
    refine ⟨final, ?_, finished⟩
    simp only [System.run, stepped, Outcome.ok_bind, ran]

/-- A loaded buffer is a system of one isolated slot. -/
theorem System.isolated_loaded (heap : Heap) (validator : Option EncodingValidator) (lines : List String) :
    System.Isolated (System.ofBuffer (LineBuffer.loaded heap validator lines).1
      (LineBuffer.loaded heap validator lines).2) := by
  have holds := LineBuffer.loaded_holds heap validator lines
  refine ⟨holds.valid, ?_⟩
  intro slot member
  obtain rfl := List.mem_singleton.mp member
  exact ⟨_, _, Slot.isolated_created holds.owner ⟨rfl, rfl⟩ holds.present⟩

theorem System.Started.isolated (started : system.Started) : system.Isolated := by
  cases started with
  | pool heap =>
    refine ⟨?_, fun _ member => absurd member List.not_mem_nil⟩
    rw [Heap.lock_alloc]
    exact GreenPool.wellFormed_new
  | buffer obtained =>
    obtain ⟨lines, same, _⟩ := obtained.loaded
    cases same
    exact System.isolated_loaded _ _ lines

theorem System.run_concat {final : System} {events : List Event} (event : Event)
    (ran : system.run events = .ok final) : system.run (events ++ [event]) = final.step event := by
  induction events generalizing system with
  | nil =>
    cases ran
    simp only [List.nil_append, run]
    exact bind_pure _
  | cons first events ih =>
    obtain ⟨next, stepped, rest⟩ := Outcome.bind_eq_ok.mp ran
    simp only [List.cons_append, run, stepped, Outcome.ok_bind]
    exact ih rest

/-- A pool with fewer strings fits the id type, too. -/
theorem GreenPool.WellFormed.fits_of_subset {small : GreenPool} (valid : small.WellFormed)
    (listed : small.contents ⊆ pool.contents) (fits : pool.Fits) : small.Fits := by
  have shorter := valid.distinct.length_le_of_subset listed
  rw [GreenPool.length_contents, GreenPool.length_contents] at shorter
  exact shorter.trans fits

/-- A system of one branch with the given journal, which has interned nothing but the given strings. -/
structure System.Solo (alone : System) (twin : Slot) (interned : List String)
    (journal : List (Action × Answer)) (state : TextState) : Prop where
  slots : alone.slots = [twin]
  journal : twin.journal = journal
  owner : twin.branch.pool = alone.pool
  valid : (alone.heap.lock alone.pool).WellFormed
  contents : (alone.heap.lock alone.pool).contents = interned.inventory
  represents : twin.Represents (alone.heap.lock alone.pool) state

/-- A load of lines that fit a pool is a branch on its own. -/
theorem System.solo_loaded (fits : pool.Fits) (listed : lines ⊆ pool.contents) :
    (System.ofBuffer (LineBuffer.loaded Heap.empty none lines).1 (LineBuffer.loaded Heap.empty none lines).2).Solo
      (Slot.created (LineBuffer.loaded Heap.empty none lines).1 (LineBuffer.loaded Heap.empty none lines).2.root)
      lines [] (.fresh lines) := by
  have few : lines.toFinset.card ≤ idCount := by
    rw [← GreenPool.fits_run]
    refine (GreenPool.wellFormed_run lines).fits_of_subset ?_ fits
    rw [GreenPool.contents_run]
    exact fun text member => listed (List.mem_inventory.mp member)
  have holds := LineBuffer.loaded_holds_of_few Heap.empty none few
  refine ⟨rfl, rfl, holds.owner, holds.valid, ?_, Slot.represents_fresh _ ⟨rfl, rfl⟩ holds.present⟩
  simp only [ofBuffer, LineBuffer.loaded, Heap.lock_store]
  exact GreenPool.contents_run lines

/-- A branch on its own answers an action as its strings tell. -/
theorem System.Solo.on {alone : System} {twin : Slot} {interned : List String}
    {journal : List (Action × Answer)} (solo : alone.Solo twin interned journal state) (fits : pool.Fits)
    {action : Action} {answer : Answer} {next : TextState} (performed : state.perform action = some (answer, next))
    (listed : interned ++ brought (action, answer) ⊆ pool.contents) :
    ∃ later moved, alone.step (.on 0 action) = .ok later ∧
      later.Solo moved (interned ++ brought (action, answer)) (journal ++ [(action, answer)]) next := by
  have spec := Slot.perform_spec (solo.owner ▸ solo.valid) (solo.owner ▸ solo.represents) action
  rw [performed, solo.owner] at spec
  obtain ⟨grown, moved, returned, spec⟩ := spec
  obtain ⟨reached, represents, agrees⟩ := spec.represents
  have contents : grown.contents = (interned ++ brought (action, answer)).inventory := by
    rw [spec.contents, solo.contents, List.inventory, List.inventory, List.pushAll_append]
  obtain rfl := agrees (spec.valid.fits_of_subset
    (fun text member => listed (List.mem_inventory.mp (contents ▸ member))) fits)
  refine ⟨⟨alone.heap.store alone.pool grown, alone.pool, [{ moved with journal := journal ++ [(action, answer)] }]⟩,
    _, ?_, rfl, rfl, spec.owner.trans solo.owner, ?_, ?_, ?_⟩
  · simp only [step, solo.slots, List.getElem?_cons_zero, returned, solo.journal]
    rfl
  all_goals rw [Heap.lock_store]
  · exact spec.valid
  · exact contents
  · exact ⟨represents.shown, represents.update, represents.readers, represents.possible⟩

/-- A journal that replays on strings is the journal of a branch on its own. -/
theorem TextState.Replays.solo (fits : pool.Fits) {journal : List (Action × Answer)}
    (replays : (TextState.fresh lines).Replays journal state)
    (listed : lines ++ journal.flatMap brought ⊆ pool.contents) :
    ∃ alone twin, (System.ofBuffer (LineBuffer.loaded Heap.empty none lines).1
        (LineBuffer.loaded Heap.empty none lines).2).run (journal.map fun entry => .on 0 entry.1) = .ok alone ∧
      alone.Solo twin (lines ++ journal.flatMap brought) journal state := by
  induction replays with
  | nil =>
    rw [List.flatMap_nil, List.append_nil] at listed ⊢
    exact ⟨_, _, rfl, System.solo_loaded fits listed⟩
  | @snoc journal state next action answer before performed ih =>
    rw [List.flatMap_append, List.flatMap_singleton, ← List.append_assoc] at listed ⊢
    obtain ⟨alone, twin, ran, solo⟩ := ih (fun text member => listed (List.mem_append_left _ member))
    obtain ⟨later, moved, stepped, after⟩ := solo.on fits performed listed
    refine ⟨later, moved, ?_, after⟩
    rw [List.map_append, List.map_singleton, System.run_concat _ ran]
    exact stepped

theorem TextState.Replays.base {journal : List (Action × Answer)}
    (replays : (TextState.fresh lines).Replays journal state) : state.texts.base = lines := by
  induction replays with
  | nil => rfl
  | snoc before performed ih => exact (TextState.base_perform performed).trans ih

/-- Undo calls until one returns `false` restore the strings that were visible at the slot's creation. -/
def Slot.Floored (heap : Heap) (slot : Slot) : Prop :=
  ∃ count restored, slot.branch.run heap (List.replicate count .undo ++ [.undo]) =
      .ok (List.replicate count (.flag true) ++ [.flag false], heap, restored) ∧
    restored.visible heap = slot.opened

/-- The slot could have been alone. From the strings visible at its creation, loaded into a pool of
their own, the actions in its journal get the answers in its journal, and lead to the same strings. -/
def Slot.RunsAlone (heap : Heap) (slot : Slot) : Prop :=
  ∃ lines, slot.opened = .ok lines ∧
    ∃ heap' buffer, LineBuffer.fromSource Heap.empty ⟨none, lines⟩ none = .ok (.ok (heap', buffer)) ∧
      ∃ alone twin, (System.ofBuffer heap' buffer).run (slot.journal.map fun entry => .on 0 entry.1) = .ok alone ∧
        alone.slots = [twin] ∧ twin.journal = slot.journal ∧
        twin.branch.lineCount = slot.branch.lineCount ∧
        ∃ visible, slot.branch.visible heap = .ok visible ∧ twin.branch.visible alone.heap = .ok visible

theorem Slot.Isolated.runsAlone {heap : Heap} (isolated : slot.Isolated (heap.lock ref) ref lines state)
    (fits : (heap.lock ref).Fits) : slot.RunsAlone heap := by
  obtain ⟨alone, twin, ran, solo⟩ := (isolated.replays fits).solo fits isolated.listed
  have accepted : ∀ line ∈ lines, Accepts none line := fun _ _ => rfl
  have loads : LineBuffer.fromSource Heap.empty ⟨none, lines⟩ none =
      .ok (.ok (LineBuffer.loaded Heap.empty none lines)) := LineBuffer.fromSource_eq_ok rfl accepted Heap.empty
  refine ⟨lines, isolated.opened, _, _, loads, alone, twin, ran, solo.slots, solo.journal, ?_,
    state.texts.present, ?_, ?_⟩
  · rw [solo.represents.shown.lineCount, isolated.represents.shown.lineCount]
  · apply Branch.visible_eq_ok.mpr
    rw [isolated.owner]
    exact isolated.represents.shown.present
  · apply Branch.visible_eq_ok.mpr
    rw [solo.owner]
    exact solo.represents.shown.present

theorem Slot.Isolated.floored {heap : Heap} (isolated : slot.Isolated (heap.lock ref) ref lines state)
    (valid : (heap.lock ref).WellFormed) (fits : (heap.lock ref).Fits) : slot.Floored heap := by
  have owner := isolated.owner
  obtain ⟨restored, ran, _, visible⟩ := Branch.Shows.rewind (owner ▸ valid) (owner ▸ isolated.represents.shown)
  exact ⟨_, restored, ran, by rw [visible, isolated.opened, (isolated.replays fits).base]⟩

/-- No run over a shared pool panics, and every id that a branch keeps lies inside the pool. As long as
the pool lists at most `2 ^ 32` distinct strings, every branch runs as if it were alone, and its undo
stops where it was created. -/
theorem System.run_isolated (started : system.Started) (events : List Event) :
    ∃ final, system.run events = .ok final ∧
      (∀ slot ∈ final.slots, ∀ id ∈ slot.branch.ids, (final.heap.lock slot.branch.pool).Holds id) ∧
      ((final.heap.lock final.pool).len ≤ idCount →
        ∀ slot ∈ final.slots, slot.RunsAlone final.heap ∧ slot.Floored final.heap) := by
  obtain ⟨final, ran, isolated⟩ := started.isolated.run events
  refine ⟨final, ran, ?_, ?_⟩
  · intro slot member
    obtain ⟨lines, state, here⟩ := isolated.slots slot member
    rw [here.owner]
    exact here.represents.shown.holds_ids
  · intro fits slot member
    obtain ⟨lines, state, here⟩ := isolated.slots slot member
    exact ⟨here.runsAlone fits, here.floored isolated.valid fits⟩

end Systems

section Samples

attribute [local instance] sampleDigests

/-- A branch and its fork edit at the same time; the fork and a holder of the pool intern between the
two halves of an insertion, and the fork undoes once more than it edited. -/
def sampleEvents : List Event :=
  [.new, .on 0 (.call (.insertLine 0 "a" none)), .intern "b", .on 0 .resume, .fork 0,
    .on 0 (.call (.insertLine 1 "c" none)), .on 1 (.call (.replaceLine 0 "d" none)), .on 1 .resume,
    .on 0 .resume, .on 1 (.call .undo), .on 1 (.call .undo)]

/-- What the owners of the two branches were told, and that each was told the same alone. -/
theorem sample_interleaving : ∃ final, System.run ⟨Heap.empty.alloc.2, Heap.empty.alloc.1, []⟩ sampleEvents = .ok final ∧
    final.slots.map (fun slot => slot.journal.map Prod.snd) =
      [[.interned, .reply (.result (.ok ())), .interned, .reply (.result (.ok ()))],
        [.interned, .reply (.result (.ok ())), .reply (.flag true), .reply (.flag false)]] ∧
    ∀ slot ∈ final.slots, slot.RunsAlone final.heap ∧ slot.Floored final.heap := by
  obtain ⟨final, ran, _, alone⟩ := System.run_isolated (.pool Heap.empty) sampleEvents
  obtain rfl := Except.ok.inj ran
  exact ⟨_, rfl, rfl, alone (by decide)⟩

end Samples

end Mallard
