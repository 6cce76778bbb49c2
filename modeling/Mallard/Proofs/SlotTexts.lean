import Mallard.Model.Core.Sharing
import Mallard.Proofs.BranchTexts

/-! # What the owner of a branch observes

One branch in a shared pool, described by strings alone: its history of texts, the move of an edit
under way, and the positions of its readers. An action is answered from this description, and the
ids of the branch follow it, whatever else the pool lists. Only the string behind a new id depends on
the range of the ids.
-/

namespace Mallard

/-- A branch as its owner sees it. -/
structure TextState where
  texts : Timeline (List String)
  update : Option (Timeline.LineOp String)
  readers : List ℕ

namespace TextState

/-- A branch just created with the given lines. -/
def fresh (lines : List String) : TextState := ⟨.fresh lines, none, []⟩

def call (state : TextState) : BranchOp → Answer × TextState
  | .insertLine n content validator =>
    match Branch.checkInsert state.texts.present.length n content validator with
    | .error error => (.reply (.result (.error error)), state)
    | .ok () => (.interned, { state with update := some (.insert n content) })
  | .replaceLine n content validator =>
    match Branch.checkReplace state.texts.present.length n content validator with
    | .error error => (.reply (.result (.error error)), state)
    | .ok () => (.interned, { state with update := some (.replace n content) })
  | op => (.reply (.flag (op.exec? state.texts).isSome), { state with texts := (op.exec? state.texts).getD state.texts })

def view [Digests] (state : TextState) : ViewCall → Answer
  | .lineCount => .count state.texts.present.length
  | .getLine n => .line state.texts.present[n]?
  | .lineCrc32 n => .crc32 (state.texts.present[n]?.map fun text => Digests.crc32 (asBytes text))
  | .lineMd5 n => .md5 (state.texts.present[n]?.map fun text => Digests.md5 (asBytes text))
  | .lineSha256 n => .sha256 (state.texts.present[n]?.map fun text => Digests.sha256 (asBytes text))

/-- The answer to an action and the state behind it, or `none` for an excluded action. -/
def perform [Digests] (state : TextState) : Action → Option (Answer × TextState)
  | .call op => if state.update = none ∧ state.readers = [] then some (state.call op) else none
  | .resume =>
    state.update.bind fun move => (state.texts.exec? move).map fun texts =>
      (.reply (.result (.ok ())), { state with texts, update := none })
  | .view call => if state.update = none then some (state.view call, state) else none
  | .openReader =>
    if state.update = none then some (.opened, { state with readers := state.readers ++ [0] }) else none
  | .next reader =>
    state.readers[reader]?.map fun position =>
      (.line state.texts.present[position]?, { state with readers := state.readers.set reader (position + 1) })
  | .closeReader reader =>
    if reader < state.readers.length then
      some (.closed, { state with readers := state.readers.eraseIdx reader })
    else none

/-- No action moves the oldest text that undo can reach. -/
theorem base_perform [Digests] {state next : TextState} {action : Action} {answer : Answer}
    (performed : state.perform action = some (answer, next)) : next.texts.base = state.texts.base := by
  have moves (op : BranchOp) : ((op.exec? state.texts).getD state.texts).base = state.texts.base := by
    cases moved : op.exec? state.texts with
    | none => rfl
    | some later =>
      obtain ⟨move, _, executed⟩ := Option.bind_eq_some_iff.mp moved
      exact Timeline.base_exec? executed
  cases action with
  | call op =>
    obtain ⟨_, called⟩ := Option.ite_none_right_eq_some.mp performed
    obtain rfl : (state.call op).2 = next := congrArg Prod.snd (Option.some.inj called)
    cases op with
    | insertLine n content validator =>
      simp only [call]
      split <;> rfl
    | replaceLine n content validator =>
      simp only [call]
      split <;> rfl
    | deleteLine | undo | redo => exact moves _
  | resume =>
    obtain ⟨move, _, resumed⟩ := Option.bind_eq_some_iff.mp performed
    obtain ⟨texts, executed, same⟩ := Option.map_eq_some_iff.mp resumed
    cases same
    exact Timeline.base_exec? executed
  | view request =>
    obtain ⟨_, same⟩ := Option.ite_none_right_eq_some.mp performed
    cases same
    rfl
  | openReader =>
    obtain ⟨_, same⟩ := Option.ite_none_right_eq_some.mp performed
    cases same
    rfl
  | next reader =>
    obtain ⟨_, _, same⟩ := Option.map_eq_some_iff.mp performed
    cases same
    rfl
  | closeReader reader =>
    obtain ⟨_, same⟩ := Option.ite_none_right_eq_some.mp performed
    cases same
    rfl

end TextState

/-- The move that the second half of an edit performs. -/
def Update.move : Update → Timeline.LineOp GreenLineId
  | .insert n id => .insert n id
  | .replace n newId => .replace n newId

/-- The strings that an answered action brought into the pool. -/
def brought : Action × Answer → List String
  | (.call (.insertLine _ content _), .interned) => [content]
  | (.call (.replaceLine _ content _), .interned) => [content]
  | _ => []

/-- The second half of an edit cannot fail where its move is possible. -/
theorem Branch.update_spec {branch : Branch} {timeline later : Timeline (List GreenLineId)}
    (tracks : branch.Tracks timeline) {update : Update} (moved : timeline.exec? update.move = some later) :
    ∃ next, branch.update update = .ok next ∧ next.pool = branch.pool ∧ next.Tracks later := by
  cases update with
  | insert n id =>
    simp only [Update.move, Timeline.exec?, Option.ite_none_right_eq_some, Option.some.injEq] at moved
    obtain ⟨bound, rfl⟩ := moved
    exact insertId_spec tracks bound id
  | replace n newId =>
    simp only [Update.move, Timeline.exec?, Option.ite_none_right_eq_some, Option.some.injEq] at moved
    obtain ⟨bound, rfl⟩ := moved
    exact replaceId_spec tracks bound newId

namespace Slot

/-- The ids of the branch and of its edit under way denote the strings of the state; the move under
way is possible, and no reader is open beside it. -/
structure Represents (pool : GreenPool) (slot : Slot) (state : TextState) : Prop where
  shown : slot.branch.Shows pool state.texts
  update : Option.Rel (fun update move => Timeline.LineOp.Rel pool.Denotes update.move move) slot.update state.update
  readers : slot.readers = state.readers
  possible : ∀ move, state.update = some move → (state.texts.exec? move).isSome ∧ state.readers = []

variable {pool : GreenPool} {slot : Slot} {state : TextState}

theorem Represents.mono {grown : GreenPool} (represents : slot.Represents pool state)
    (extends_ : pool.Extends grown) : slot.Represents grown state := by
  refine ⟨represents.shown.mono extends_, ?_, represents.readers, represents.possible⟩
  have related := represents.update
  generalize slot.update = held at related ⊢
  generalize state.update = asked at related ⊢
  cases related with
  | none => exact .none
  | some same => exact .some (same.mono extends_.denotes)

theorem Represents.update_none (represents : slot.Represents pool state) :
    slot.update = none ↔ state.update = none := by
  have related := represents.update
  generalize slot.update = held at related
  generalize state.update = asked at related
  cases related <;> simp

/-- No edit is under way beside an open reader. -/
theorem Represents.idle_of_reader (represents : slot.Represents pool state) {reader : ℕ}
    (inside : reader < state.readers.length) : state.update = none := by
  cases asked : state.update with
  | none => rfl
  | some move =>
    rw [(represents.possible move asked).2] at inside
    exact absurd inside (Nat.not_lt_zero reader)

theorem represents_fresh {branch : Branch} {lines : List String} (heap : Heap)
    (blank : branch.undoStack = [] ∧ branch.redoStack = []) (denote : pool.DenoteAll branch.lines lines) :
    (created heap branch).Represents pool (.fresh lines) := by
  obtain ⟨ref, ids, done, undone⟩ := branch
  obtain ⟨rfl, rfl⟩ := blank
  exact ⟨Branch.shows_fresh ref denote, .none, rfl, fun _ asked => by contradiction⟩

/-- What a performed action leaves: a grown pool, and a slot that represents the expected state as
long as the pool fits the id type. -/
structure Moved [Digests] (pool : GreenPool) (slot : Slot) (entry : Action × Answer) (expected : TextState)
    (grown : GreenPool) (next : Slot) : Prop where
  owner : next.branch.pool = slot.branch.pool
  opened : next.opened = slot.opened
  journal : next.journal = slot.journal
  valid : grown.WellFormed
  contents : grown.contents = pool.contents.pushAll (brought entry)
  represents : ∃ reached, next.Represents grown reached ∧ (grown.Fits → reached = expected)

section Performing

variable [Digests] {heap : Heap} (valid : (heap.lock slot.branch.pool).WellFormed)
  (represents : slot.Represents (heap.lock slot.branch.pool) state)
include valid represents

/-- A slot that changed nothing but its readers. -/
theorem moved_readers (readers : List ℕ) (alone : state.update = none) (entry : Action × Answer)
    (nothing : brought entry = []) :
    Moved (heap.lock slot.branch.pool) slot entry { state with readers } (heap.lock slot.branch.pool)
      { slot with readers } := by
  refine ⟨rfl, rfl, rfl, valid, by rw [nothing]; rfl, _, ?_, fun _ => rfl⟩
  exact ⟨represents.shown, represents.update, rfl, fun move asked => by rw [alone] at asked; contradiction⟩

/-- Interning the content of an edit leaves a possible move to make. -/
theorem interned_moved (idle : state.readers = []) (make : GreenLineId → Update)
    (ask : String → Timeline.LineOp String)
    (denotes : ∀ {pool : GreenPool} {id text}, pool.Denotes id text →
      Timeline.LineOp.Rel pool.Denotes (make id).move (ask text))
    (possible : ∀ text, (state.texts.exec? (ask text)).isSome) {content : String} {entry : Action × Answer}
    (brings : brought entry = [content]) :
    Moved (heap.lock slot.branch.pool) slot entry { state with update := some (ask content) }
      ((heap.lock slot.branch.pool).intern content).2
      { slot with update := some (make ((heap.lock slot.branch.pool).intern content).1) } := by
  refine ⟨rfl, rfl, rfl, valid.intern content, ?_,
    { state with update := some (ask ((heap.lock slot.branch.pool).stored content)) }, ?_, ?_⟩
  · rw [brings]
    exact valid.contents_intern content
  · refine ⟨represents.shown.mono (valid.extends_intern content), .some (denotes (valid.text?_intern content)),
      represents.readers, ?_⟩
    rintro _ ⟨rfl⟩
    exact ⟨possible _, idle⟩
  · intro fits
    rw [valid.stored_eq fits]

/-- A call without content moves in the history or does nothing. -/
theorem flag_moved (alone : state.update = none) (op : BranchOp)
    (bare : ∀ pool texts, Branch.advanceTexts? pool texts op = (op.exec? texts).map (Prod.mk pool))
    (flags : ∀ count moved, op.reply count moved = .flag moved)
    (nothing : ∀ answer, brought (.call op, answer) = []) :
    ∃ next,
      (do
        let (reply, heap, branch) ← slot.branch.call heap op
        pure (.reply reply, heap, { slot with branch })) =
        (.ok (.reply (.flag (op.exec? state.texts).isSome),
          heap.store slot.branch.pool (heap.lock slot.branch.pool), next) : Outcome (Answer × Heap × Slot)) ∧
      Moved (heap.lock slot.branch.pool) slot (.call op, .reply (.flag (op.exec? state.texts).isSome))
        { state with texts := (op.exec? state.texts).getD state.texts } (heap.lock slot.branch.pool) next := by
  have spec := Branch.call_shows valid represents.shown op
  rw [bare] at spec
  cases moved : op.exec? state.texts with
  | none =>
    rw [moved] at spec
    refine ⟨slot, ?_, rfl, rfl, rfl, valid, by rw [nothing]; rfl, state, represents, fun _ => rfl⟩
    simp only [Option.map_none] at spec
    rw [spec, flags, Heap.store_lock]
    rfl
  | some later =>
    rw [moved] at spec
    obtain ⟨branch, called, owner, shown⟩ := spec
    refine ⟨{ slot with branch }, ?_, owner, rfl, rfl, valid, by rw [nothing]; rfl, { state with texts := later },
      ⟨shown, represents.update, represents.readers, fun move asked => ?_⟩, fun _ => rfl⟩
    · rw [called, flags]
      rfl
    · rw [alone] at asked
      contradiction

theorem call_moved (idle : state.update = none ∧ state.readers = []) (op : BranchOp) :
    ∃ grown next, slot.call heap op = .ok ((state.call op).1, heap.store slot.branch.pool grown, next) ∧
      Moved (heap.lock slot.branch.pool) slot (.call op, (state.call op).1) (state.call op).2 grown next := by
  have count : slot.branch.lines.length = state.texts.present.length := represents.shown.lineCount
  have rejected (error : EncodingError) (entry : Action × Answer) (nothing : brought entry = []) :
      Moved (heap.lock slot.branch.pool) slot entry state (heap.lock slot.branch.pool) slot :=
    ⟨rfl, rfl, rfl, valid, by rw [nothing]; rfl, state, represents, fun _ => rfl⟩
  cases op with
  | insertLine n content validator =>
    simp only [call, TextState.call, count]
    cases checked : Branch.checkInsert state.texts.present.length n content validator with
    | error error =>
      exact ⟨heap.lock slot.branch.pool, slot, by rw [Heap.store_lock]; rfl, rejected error _ rfl⟩
    | ok =>
      have bound := (Branch.checkInsert_eq_ok.mp checked).1
      refine ⟨_, _, rfl, interned_moved valid represents idle.2 (Update.insert n) (Timeline.LineOp.insert n)
        (fun denotes => .insert n denotes) (fun text => ?_) rfl⟩
      rw [Timeline.exec?, if_pos bound]
      rfl
  | replaceLine n content validator =>
    simp only [call, TextState.call, count]
    cases checked : Branch.checkReplace state.texts.present.length n content validator with
    | error error =>
      exact ⟨heap.lock slot.branch.pool, slot, by rw [Heap.store_lock]; rfl, rejected error _ rfl⟩
    | ok =>
      have bound := (Branch.checkReplace_eq_ok.mp checked).1
      refine ⟨_, _, rfl, interned_moved valid represents idle.2 (Update.replace n) (Timeline.LineOp.replace n)
        (fun denotes => .replace n denotes) (fun text => ?_) rfl⟩
      rw [Timeline.exec?, if_pos bound]
      rfl
  | deleteLine n =>
    exact ⟨_, flag_moved valid represents idle.1 (.deleteLine n) (fun _ _ => rfl) (fun _ _ => rfl) (fun _ => rfl)⟩
  | undo => exact ⟨_, flag_moved valid represents idle.1 .undo (fun _ _ => rfl) (fun _ _ => rfl) (fun _ => rfl)⟩
  | redo => exact ⟨_, flag_moved valid represents idle.1 .redo (fun _ _ => rfl) (fun _ _ => rfl) (fun _ => rfl)⟩

/-- The second half of an edit never fails, and answers that the edit was made. -/
theorem resume_moved {move : Timeline.LineOp String} (asked : state.update = some move) :
    ∃ texts next, state.texts.exec? move = some texts ∧
      slot.perform heap .resume =
        .ok (some (.reply (.result (.ok ())), heap.store slot.branch.pool (heap.lock slot.branch.pool), next)) ∧
      Moved (heap.lock slot.branch.pool) slot (.resume, .reply (.result (.ok ())))
        { state with texts, update := none } (heap.lock slot.branch.pool) next := by
  obtain ⟨possible, closed⟩ := represents.possible move asked
  obtain ⟨ids, tracks, denote⟩ := represents.shown
  have held := represents.update
  rw [asked] at held
  cases half : slot.update with
  | none =>
    rw [half] at held
    contradiction
  | some update =>
    rw [half] at held
    cases held with
    | some same =>
      have together := denote.exec? same
      obtain ⟨texts, moved⟩ := Option.isSome_iff_exists.mp possible
      rw [moved] at together
      cases onIds : ids.exec? update.move with
      | none =>
        rw [onIds] at together
        contradiction
      | some later =>
        rw [onIds] at together
        obtain ⟨branch, updated, owner, after⟩ := Branch.update_spec tracks onIds
        refine ⟨texts, { slot with branch, update := none }, moved, ?_, owner, rfl, rfl, valid, rfl,
          { state with texts, update := none }, ⟨⟨later, after, ?_⟩, .none, represents.readers, ?_⟩, fun _ => rfl⟩
        · simp only [perform, half, updated, Heap.store_lock]
          rfl
        · cases together with
          | some related => exact related
        · intro other pending
          contradiction

theorem view_moved (request : ViewCall) :
    ∃ grown, slot.view heap request = .ok (state.view request, heap.store slot.branch.pool grown) ∧
      Moved (heap.lock slot.branch.pool) slot (.view request, state.view request) state grown slot := by
  have denote := represents.shown.present
  have filled {grown : GreenPool} (good : grown.WellFormed)
      (same : grown.contents = (heap.lock slot.branch.pool).contents) :
      Moved (heap.lock slot.branch.pool) slot (.view request, state.view request) state grown slot := by
    have extends_ : (heap.lock slot.branch.pool).Extends grown := by
      rw [GreenPool.Extends, same]
    exact ⟨rfl, rfl, rfl, good, same, state, represents.mono extends_, fun _ => rfl⟩
  cases request with
  | lineCount =>
    refine ⟨heap.lock slot.branch.pool, ?_, filled valid rfl⟩
    rw [view, represents.shown.lineCount, Heap.store_lock]
    rfl
  | getLine n =>
    refine ⟨heap.lock slot.branch.pool, ?_, filled valid rfl⟩
    rw [view, Branch.getLine_eq denote, Heap.store_lock]
    rfl
  | lineCrc32 n =>
    refine ⟨heap.lock slot.branch.pool, ?_, filled valid rfl⟩
    rw [view, Branch.lineCrc32_eq valid denote, Heap.store_lock]
    rfl
  | lineMd5 n =>
    obtain ⟨grown, read, good, same⟩ := Branch.lineMd5_eq valid denote n
    refine ⟨grown, ?_, filled good same⟩
    rw [view, read]
    rfl
  | lineSha256 n =>
    obtain ⟨grown, read, good, same⟩ := Branch.lineSha256_eq valid denote n
    refine ⟨grown, ?_, filled good same⟩
    rw [view, read]
    rfl

/-- An action is answered from the state, and excluded exactly when the state excludes it. -/
theorem perform_spec (action : Action) :
    match state.perform action with
    | none => slot.perform heap action = .ok none
    | some (answer, expected) => ∃ grown next,
        slot.perform heap action = .ok (some (answer, heap.store slot.branch.pool grown, next)) ∧
          Moved (heap.lock slot.branch.pool) slot (action, answer) expected grown next := by
  have sameUpdate := represents.update_none
  have sameReaders := represents.readers
  cases action with
  | call op =>
    simp only [perform, TextState.perform, sameUpdate, sameReaders]
    by_cases idle : state.update = none ∧ state.readers = []
    · obtain ⟨grown, next, called, moved⟩ := call_moved valid represents idle op
      rw [if_pos idle, if_pos idle, called]
      exact ⟨grown, next, rfl, moved⟩
    · rw [if_neg idle, if_neg idle]
      rfl
  | resume =>
    cases asked : state.update with
    | none =>
      simp only [perform, TextState.perform, asked, sameUpdate.mpr asked]
      rfl
    | some move =>
      obtain ⟨texts, next, moved, resumed, spec⟩ := resume_moved valid represents asked
      simp only [TextState.perform, asked, Option.bind_some, moved, Option.map_some]
      exact ⟨_, next, resumed, spec⟩
  | view request =>
    simp only [perform, TextState.perform, sameUpdate]
    by_cases idle : state.update = none
    · obtain ⟨grown, answered, moved⟩ := view_moved valid represents request
      rw [if_pos idle, if_pos idle, answered]
      exact ⟨grown, slot, rfl, moved⟩
    · rw [if_neg idle, if_neg idle]
      rfl
  | openReader =>
    simp only [perform, TextState.perform, sameUpdate, sameReaders]
    by_cases idle : state.update = none
    · rw [if_pos idle, if_pos idle]
      refine ⟨_, _, ?_, moved_readers valid represents _ idle _ rfl⟩
      rw [Heap.store_lock]
      rfl
    · rw [if_neg idle, if_neg idle]
      rfl
  | next reader =>
    simp only [perform, TextState.perform, sameReaders]
    cases position : state.readers[reader]? with
    | none => rfl
    | some place =>
      have idle := represents.idle_of_reader (List.getElem?_eq_some_iff.mp position).1
      simp only [Branch.getLine_eq represents.shown.present]
      refine ⟨_, _, ?_, moved_readers valid represents _ idle _ rfl⟩
      rw [Heap.store_lock]
      rfl
  | closeReader reader =>
    simp only [perform, TextState.perform, sameReaders]
    by_cases inside : reader < state.readers.length
    · have idle := represents.idle_of_reader inside
      rw [if_pos inside, if_pos inside]
      refine ⟨_, _, ?_, moved_readers valid represents _ idle _ rfl⟩
      rw [Heap.store_lock]
      rfl
    · rw [if_neg inside, if_neg inside]
      rfl

end Performing

end Slot

end Mallard
