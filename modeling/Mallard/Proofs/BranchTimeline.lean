import Mallard.Machine.UndoLog
import Mallard.Model.Core.Branch

/-! # The stacks of a branch are a log of its edits

Every recorded edit applies to the lines it was recorded against, so the two stacks of a branch are
a log in the sense of `EditSystem`, and undo and redo replay it without ever leaving the bounds that
Rust checks. `call_spec` says what a call does in terms of the timeline of id sequences: it performs
a move, or leaves pools and branch alone.
-/

namespace Mallard

namespace BranchEdit

/-- Perform an edit on the lines it was recorded against. -/
def apply : BranchEdit → List GreenLineId → Option (List GreenLineId)
  | .insert index id, lines => if index ≤ lines.length then some (lines.insertIdx index id) else none
  | .delete index id, lines => if lines[index]? = some id then some (lines.eraseIdx index) else none
  | .replace index oldId newId, lines =>
    if lines[index]? = some oldId then some (lines.set index newId) else none

/-- The edit that takes another one back. -/
def inverse : BranchEdit → BranchEdit
  | .insert index id => .delete index id
  | .delete index id => .insert index id
  | .replace index oldId newId => .replace index newId oldId

section Applied

variable {index : ℕ} {id oldId newId : GreenLineId} {before after : List GreenLineId}

theorem apply_insert_eq_some :
    apply (.insert index id) before = some after ↔ index ≤ before.length ∧ before.insertIdx index id = after := by
  rw [apply, Option.ite_none_right_eq_some, Option.some.injEq]

theorem apply_delete_eq_some :
    apply (.delete index id) before = some after ↔ before[index]? = some id ∧ before.eraseIdx index = after := by
  rw [apply, Option.ite_none_right_eq_some, Option.some.injEq]

theorem apply_replace_eq_some :
    apply (.replace index oldId newId) before = some after ↔
      before[index]? = some oldId ∧ before.set index newId = after := by
  rw [apply, Option.ite_none_right_eq_some, Option.some.injEq]

end Applied

theorem apply_inverse {edit : BranchEdit} {before after : List GreenLineId}
    (applied : edit.apply before = some after) : edit.inverse.apply after = some before := by
  cases edit with
  | insert index id =>
    obtain ⟨bound, rfl⟩ := apply_insert_eq_some.mp applied
    have present : (before.insertIdx index id)[index]? = some id := by
      rw [List.getElem?_insertIdx_self, if_pos bound]
    simp only [inverse, apply, if_pos present, List.eraseIdx_insertIdx_self]
  | delete index id =>
    obtain ⟨present, rfl⟩ := apply_delete_eq_some.mp applied
    obtain ⟨bound, value⟩ := List.getElem?_eq_some_iff.mp present
    have room : index ≤ (before.eraseIdx index).length := by
      rw [List.length_eraseIdx_of_lt bound]
      omega
    simp only [inverse, apply, if_pos room, ← value, List.insertIdx_eraseIdx_getElem bound]
  | replace index oldId newId =>
    obtain ⟨present, rfl⟩ := apply_replace_eq_some.mp applied
    obtain ⟨bound, value⟩ := List.getElem?_eq_some_iff.mp present
    have replaced : (before.set index newId)[index]? = some newId := List.getElem?_set_self bound
    simp only [inverse, apply, if_pos replaced, List.set_set, ← value, List.set_getElem_self]

/-- The ids an edit holds. -/
def ids : BranchEdit → List GreenLineId
  | .insert _ id | .delete _ id => [id]
  | .replace _ oldId newId => [oldId, newId]

/-- An edit holds ids of the lines in front of it and behind it. -/
theorem mem_of_apply {edit : BranchEdit} {before after : List GreenLineId} (applied : edit.apply before = some after) :
    ∀ id ∈ edit.ids, id ∈ before ∨ id ∈ after := by
  cases edit with
  | insert index id =>
    obtain ⟨bound, rfl⟩ := apply_insert_eq_some.mp applied
    have present : (before.insertIdx index id)[index]? = some id := by
      rw [List.getElem?_insertIdx_self, if_pos bound]
    exact List.forall_mem_singleton.mpr (.inr (List.mem_of_getElem? present))
  | delete index id =>
    exact List.forall_mem_singleton.mpr (.inl (List.mem_of_getElem? (apply_delete_eq_some.mp applied).1))
  | replace index oldId newId =>
    obtain ⟨present, rfl⟩ := apply_replace_eq_some.mp applied
    have bound := (List.getElem?_eq_some_iff.mp present).1
    exact List.forall_mem_cons.mpr
      ⟨.inl (List.mem_of_getElem? present), List.forall_mem_singleton.mpr (.inr (List.mem_set bound newId))⟩

/-- The edits of a branch as invertible edits of its lines. -/
def system : EditSystem (List GreenLineId) BranchEdit := ⟨apply, inverse, apply_inverse⟩

end BranchEdit

namespace Branch

/-- Every id a branch holds, in its lines or in a stack. -/
def ids (branch : Branch) : List GreenLineId :=
  branch.lines ++ (branch.undoStack ++ branch.redoStack).flatMap BranchEdit.ids

/-- The branch shows the present of the timeline, and its stacks link the snapshots. -/
structure Tracks (branch : Branch) (timeline : Timeline (List GreenLineId)) : Prop where
  lines : branch.lines = timeline.present
  log : BranchEdit.system.Tracks branch.undoStack branch.redoStack timeline

/-- The branch after a call that asked for a move: the move is performed, or nothing happened. -/
def Follows (branch : Branch) (later? : Option (Timeline (List GreenLineId))) (moved : Bool)
    (next : Branch) : Prop :=
  match later? with
  | some later => moved = true ∧ next.pool = branch.pool ∧ next.Tracks later
  | none => moved = false ∧ next = branch

variable {branch : Branch} {timeline : Timeline (List GreenLineId)}

theorem tracks_fresh (pool : PoolRef) (lines : List GreenLineId) :
    Tracks ⟨pool, lines, [], []⟩ (.fresh lines) := ⟨rfl, .fresh lines⟩

theorem Tracks.undoStack_length (tracks : branch.Tracks timeline) :
    branch.undoStack.length = timeline.past.length := tracks.log.past.length_eq

theorem Tracks.redoStack_length (tracks : branch.Tracks timeline) :
    branch.redoStack.length = timeline.future.length := tracks.log.future.length_eq

/-- What holds of the ids in all snapshots holds of every id of the branch. -/
theorem Tracks.forall_ids (tracks : branch.Tracks timeline) {P : GreenLineId → Prop}
    (good : ∀ snapshot ∈ timeline.snapshots, ∀ id ∈ snapshot, P id) : ∀ id ∈ branch.ids, P id := by
  have between {edit : BranchEdit} {before after : List GreenLineId}
      (applied : BranchEdit.system.apply edit before = some after) (first : ∀ id ∈ before, P id)
      (second : ∀ id ∈ after, P id) : ∀ id ∈ edit.ids, P id := fun id held =>
    (BranchEdit.mem_of_apply applied id held).elim (first id) (second id)
  have logged := EditSystem.Tracks.forall_edits between tracks.log good
  refine List.forall_mem_append.mpr ⟨?_, ?_⟩
  · rw [tracks.lines]
    exact good timeline.present (Timeline.mem_snapshots.mpr (.inr (.inl rfl)))
  · intro id member
    obtain ⟨edit, recorded, held⟩ := List.mem_flatMap.mp member
    exact logged edit recorded id held

/-- Recording an edit on top of the undo stack records its lines in the timeline. -/
theorem Tracks.record (tracks : branch.Tracks timeline) {edit : BranchEdit} {lines : List GreenLineId}
    (applied : edit.apply timeline.present = some lines) :
    Tracks ⟨branch.pool, lines, edit :: branch.undoStack, []⟩ (timeline.record lines) :=
  ⟨rfl, EditSystem.Tracks.record tracks.log applied⟩

theorem insertId_spec (tracks : branch.Tracks timeline) {n : ℕ} (bound : n ≤ timeline.present.length)
    (id : GreenLineId) : ∃ next, branch.insertId n id = .ok next ∧ next.pool = branch.pool ∧
      next.Tracks (timeline.record (timeline.present.insertIdx n id)) := by
  have applied : BranchEdit.apply (.insert n id) timeline.present =
      some (timeline.present.insertIdx n id) := if_pos bound
  have inserted : branch.insertId n id = .ok ⟨branch.pool, timeline.present.insertIdx n id,
      .insert n id :: branch.undoStack, []⟩ := by
    rw [insertId, tracks.lines, Vec.insert_of_le bound]
    rfl
  exact ⟨_, inserted, rfl, tracks.record applied⟩

theorem replaceId_spec (tracks : branch.Tracks timeline) {n : ℕ} (bound : n < timeline.present.length)
    (newId : GreenLineId) : ∃ next, branch.replaceId n newId = .ok next ∧ next.pool = branch.pool ∧
      next.Tracks (timeline.record (timeline.present.set n newId)) := by
  have present := List.getElem?_eq_getElem bound
  have applied : BranchEdit.apply (.replace n timeline.present[n] newId) timeline.present =
      some (timeline.present.set n newId) := if_pos present
  have replaced : branch.replaceId n newId = .ok ⟨branch.pool, timeline.present.set n newId,
      .replace n timeline.present[n] newId :: branch.undoStack, []⟩ := by
    rw [replaceId, tracks.lines, Vec.get_of_getElem? present, Outcome.ok_bind, Vec.set_of_lt bound]
    rfl
  exact ⟨_, replaced, rfl, tracks.record applied⟩

theorem deleteLine_spec (tracks : branch.Tracks timeline) (n : ℕ) :
    ∃ moved next, branch.deleteLine n = .ok (moved, next) ∧
      branch.Follows (timeline.exec? (.delete n)) moved next := by
  by_cases bound : n < timeline.present.length
  · have present := List.getElem?_eq_getElem bound
    have applied : BranchEdit.apply (.delete n timeline.present[n]) timeline.present =
        some (timeline.present.eraseIdx n) := if_pos present
    have deleted : branch.deleteLine n = .ok (true, ⟨branch.pool, timeline.present.eraseIdx n,
        .delete n timeline.present[n] :: branch.undoStack, []⟩) := by
      rw [deleteLine, tracks.lines, if_neg (Nat.not_le.mpr bound), Vec.remove_of_getElem? present]
      rfl
    refine ⟨_, _, deleted, ?_⟩
    rw [Timeline.exec?, if_pos bound]
    exact ⟨rfl, rfl, tracks.record applied⟩
  · refine ⟨false, branch, ?_, ?_⟩
    · rw [deleteLine, tracks.lines, if_pos (Nat.not_lt.mp bound)]
      rfl
    · rw [Timeline.exec?, if_neg bound]
      exact ⟨rfl, rfl⟩

/-- Undo performs the inverse of the newest edit. -/
theorem undo_of_apply {edit : BranchEdit} {undoStack : List BranchEdit} {lines : List GreenLineId}
    (top : branch.undoStack = edit :: undoStack) (applied : edit.inverse.apply branch.lines = some lines) :
    branch.undo = .ok (true, { branch with lines, undoStack, redoStack := edit :: branch.redoStack }) := by
  rw [undo, top]
  cases edit with
  | insert index id =>
    obtain ⟨present, rfl⟩ := BranchEdit.apply_delete_eq_some.mp applied
    simp only [Vec.remove_of_getElem? present]
    rfl
  | delete index id =>
    obtain ⟨bound, rfl⟩ := BranchEdit.apply_insert_eq_some.mp applied
    simp only [Vec.insert_of_le bound]
    rfl
  | replace index oldId newId =>
    obtain ⟨present, rfl⟩ := BranchEdit.apply_replace_eq_some.mp applied
    simp only [Vec.set_of_lt (List.getElem?_eq_some_iff.mp present).1]
    rfl

/-- Redo performs the edit taken back last. -/
theorem redo_of_apply {edit : BranchEdit} {redoStack : List BranchEdit} {lines : List GreenLineId}
    (top : branch.redoStack = edit :: redoStack) (applied : edit.apply branch.lines = some lines) :
    branch.redo = .ok (true, { branch with lines, redoStack, undoStack := edit :: branch.undoStack }) := by
  rw [redo, top]
  cases edit with
  | insert index id =>
    obtain ⟨bound, rfl⟩ := BranchEdit.apply_insert_eq_some.mp applied
    simp only [Vec.insert_of_le bound]
    rfl
  | delete index id =>
    obtain ⟨present, rfl⟩ := BranchEdit.apply_delete_eq_some.mp applied
    simp only [Vec.remove_of_getElem? present]
    rfl
  | replace index oldId newId =>
    obtain ⟨present, rfl⟩ := BranchEdit.apply_replace_eq_some.mp applied
    simp only [Vec.set_of_lt (List.getElem?_eq_some_iff.mp present).1]
    rfl

theorem undo_spec (tracks : branch.Tracks timeline) :
    ∃ moved next, branch.undo = .ok (moved, next) ∧ branch.Follows timeline.undo? moved next := by
  have log := tracks.log
  cases top : branch.undoStack with
  | nil =>
    rw [top] at log
    refine ⟨false, branch, ?_, ?_⟩
    · rw [undo, top]
      rfl
    · rw [log.undo?_none]
      exact ⟨rfl, rfl⟩
  | cons edit undoStack =>
    rw [top] at log
    obtain ⟨earlier, stepped, applied, log⟩ := log.undo
    rw [← tracks.lines] at applied
    refine ⟨true, _, undo_of_apply top applied, ?_⟩
    rw [stepped]
    exact ⟨rfl, rfl, rfl, log⟩

theorem redo_spec (tracks : branch.Tracks timeline) :
    ∃ moved next, branch.redo = .ok (moved, next) ∧ branch.Follows timeline.redo? moved next := by
  have log := tracks.log
  cases top : branch.redoStack with
  | nil =>
    rw [top] at log
    refine ⟨false, branch, ?_, ?_⟩
    · rw [redo, top]
      rfl
    · rw [log.redo?_none]
      exact ⟨rfl, rfl⟩
  | cons edit redoStack =>
    rw [top] at log
    obtain ⟨later, stepped, applied, log⟩ := log.redo
    rw [← tracks.lines] at applied
    refine ⟨true, _, redo_of_apply top applied, ?_⟩
    rw [stepped]
    exact ⟨rfl, rfl, rfl, log⟩

/-- Redo brings the whole branch back, as it was before the undo. -/
theorem Tracks.redo_undo (tracks : branch.Tracks timeline) {earlier : Branch}
    (undone : branch.undo = .ok (true, earlier)) : earlier.redo = .ok (true, branch) := by
  have log := tracks.log
  cases top : branch.undoStack with
  | nil =>
    rw [undo, top] at undone
    cases undone
  | cons edit undoStack =>
    rw [top] at log
    obtain ⟨before, inverted, applied⟩ := log.redo_undo
    rw [← tracks.lines] at inverted applied
    rw [undo_of_apply top inverted] at undone
    cases undone
    rw [@redo_of_apply ⟨branch.pool, before, undoStack, edit :: branch.redoStack⟩ _ _ _ rfl applied, ← top]

/-- Undo brings the whole branch back, as it was before the redo. -/
theorem Tracks.undo_redo (tracks : branch.Tracks timeline) {later : Branch}
    (redone : branch.redo = .ok (true, later)) : later.undo = .ok (true, branch) := by
  have log := tracks.log
  cases top : branch.redoStack with
  | nil =>
    rw [redo, top] at redone
    cases redone
  | cons edit redoStack =>
    rw [top] at log
    obtain ⟨after, applied, inverted⟩ := log.undo_redo
    rw [← tracks.lines] at applied inverted
    rw [redo_of_apply top applied] at redone
    cases redone
    rw [@undo_of_apply ⟨branch.pool, after, edit :: branch.undoStack, redoStack⟩ _ _ _ rfl inverted, ← top]

end Branch

namespace BranchOp

/-- The move a call asks for, unless its validator rejects the content. -/
def move? : BranchOp → Option (Timeline.LineOp String)
  | .insertLine n content validator => if Accepts validator content then some (.insert n content) else none
  | .replaceLine n content validator => if Accepts validator content then some (.replace n content) else none
  | .deleteLine n => some (.delete n)
  | .undo => some .undo
  | .redo => some .redo

/-- The reply to a call on a branch with `count` lines, given whether it moved. -/
def reply (count : ℕ) (moved : Bool) : BranchOp → Reply
  | .insertLine n content validator => .result (Branch.checkInsert count n content validator)
  | .replaceLine n content validator => .result (Branch.checkReplace count n content validator)
  | .deleteLine _ | .undo | .redo => .flag moved

end BranchOp

/-- A move with its text interned. -/
def GreenPool.internMove [Digests] (pool : GreenPool) :
    Timeline.LineOp String → Timeline.LineOp GreenLineId × GreenPool
  | .insert index content => (.insert index (pool.intern content).1, (pool.intern content).2)
  | .replace index content => (.replace index (pool.intern content).1, (pool.intern content).2)
  | .delete index => (.delete index, pool)
  | .undo => (.undo, pool)
  | .redo => (.redo, pool)

namespace Branch

section Checks

variable {count n : ℕ} {content : String} {validator : Option EncodingValidator}

theorem checkInsert_eq_ok :
    checkInsert count n content validator = .ok () ↔ n ≤ count ∧ Accepts validator content := by
  rw [checkInsert]
  split
  · next beyond => exact iff_of_false (by simp) (fun both => absurd both.1 (Nat.not_le.mpr beyond))
  · next inside => exact ⟨fun accepted => ⟨Nat.not_lt.mp inside, accepted⟩, And.right⟩

theorem checkReplace_eq_ok :
    checkReplace count n content validator = .ok () ↔ n < count ∧ Accepts validator content := by
  rw [checkReplace]
  split
  · next beyond => exact iff_of_false (by simp) (fun both => absurd both.1 (Nat.not_lt.mpr beyond))
  · next inside => exact ⟨fun accepted => ⟨Nat.not_le.mp inside, accepted⟩, And.right⟩

theorem eq_error_of_ne_ok {verdict : Except EncodingError Unit} (failed : verdict ≠ .ok ()) :
    ∃ error, verdict = .error error := by
  cases verdict with
  | ok => exact absurd rfl failed
  | error error => exact ⟨error, rfl⟩

end Checks

variable [Digests] {branch : Branch} {timeline : Timeline (List GreenLineId)}

/-- What a call does to the pools and to the timeline, unless it fails. -/
def advance? (pool : GreenPool) (timeline : Timeline (List GreenLineId)) (op : BranchOp) :
    Option (GreenPool × Timeline (List GreenLineId)) :=
  op.move?.bind fun move =>
    (timeline.exec? (pool.internMove move).1).map fun later => ((pool.internMove move).2, later)

/-- A call that does something performs its move. -/
theorem advance?_move {pool grown : GreenPool} {later : Timeline (List GreenLineId)} {op : BranchOp}
    (advanced : advance? pool timeline op = some (grown, later)) :
    ∃ move, op.move? = some move ∧ timeline.exec? (pool.internMove move).1 = some later ∧
      grown = (pool.internMove move).2 := by
  obtain ⟨move, asked, advanced⟩ := Option.bind_eq_some_iff.mp advanced
  obtain ⟨reached, moved, same⟩ := Option.map_eq_some_iff.mp advanced
  cases same
  exact ⟨move, asked, moved, rfl⟩

theorem advance?_insertLine (pool : GreenPool) (n : ℕ) (content : String)
    (validator : Option EncodingValidator) :
    advance? pool timeline (.insertLine n content validator) =
      if n ≤ timeline.present.length ∧ Accepts validator content then
        some ((pool.intern content).2, timeline.record (timeline.present.insertIdx n (pool.intern content).1))
      else none := by
  rw [advance?, BranchOp.move?]
  by_cases accepted : Accepts validator content
  · rw [if_pos accepted, Option.bind_some, GreenPool.internMove, Timeline.exec?]
    simp only [accepted, and_true]
    split <;> rfl
  · rw [if_neg accepted, if_neg (fun both => accepted both.2), Option.bind_none]

theorem advance?_replaceLine (pool : GreenPool) (n : ℕ) (content : String)
    (validator : Option EncodingValidator) :
    advance? pool timeline (.replaceLine n content validator) =
      if n < timeline.present.length ∧ Accepts validator content then
        some ((pool.intern content).2, timeline.record (timeline.present.set n (pool.intern content).1))
      else none := by
  rw [advance?, BranchOp.move?]
  by_cases accepted : Accepts validator content
  · rw [if_pos accepted, Option.bind_some, GreenPool.internMove, Timeline.exec?]
    simp only [accepted, and_true]
    split <;> rfl
  · rw [if_neg accepted, if_neg (fun both => accepted both.2), Option.bind_none]

omit [Digests] in
/-- What holds of the outcome of a call that returned a flag. -/
private theorem flag_spec {later? : Option (Timeline (List GreenLineId))} {moved : Bool} {next : Branch}
    (follows : branch.Follows later? moved next) (heap : Heap) :
    match later?.map fun later => (heap.lock branch.pool, later) with
    | some (grown, later) => ∃ final,
        (.ok (.flag moved, heap, next) : Outcome (Reply × Heap × Branch)) =
            .ok (.flag true, heap.store branch.pool grown, final) ∧
          final.pool = branch.pool ∧ final.Tracks later
    | none => (.ok (.flag moved, heap, next) : Outcome (Reply × Heap × Branch)) = .ok (.flag false, heap, branch) := by
  cases later? with
  | none =>
    obtain ⟨rfl, rfl⟩ := follows
    rfl
  | some later =>
    obtain ⟨rfl, pool, after⟩ := follows
    exact ⟨next, by rw [Heap.store_lock], pool, after⟩

/-- No call panics: it performs its move, or leaves the pools and the branch alone. -/
theorem call_spec (tracks : branch.Tracks timeline) (heap : Heap) (op : BranchOp) :
    match advance? (heap.lock branch.pool) timeline op with
    | some (grown, later) => ∃ next,
        branch.call heap op =
            .ok (op.reply timeline.present.length true, heap.store branch.pool grown, next) ∧
          next.pool = branch.pool ∧ next.Tracks later
    | none => branch.call heap op = .ok (op.reply timeline.present.length false, heap, branch) := by
  cases op with
  | insertLine n content validator =>
    rw [advance?_insertLine]
    by_cases passes : n ≤ timeline.present.length ∧ Accepts validator content
    · have verdict := checkInsert_eq_ok.mpr passes
      obtain ⟨next, inserted, pool, later⟩ := insertId_spec tracks passes.1 (heap.intern branch.pool content).1
      rw [if_pos passes]
      refine ⟨next, ?_, pool, later⟩
      simp only [call, insertLine, tracks.lines, verdict, inserted, BranchOp.reply]
      rfl
    · obtain ⟨error, verdict⟩ := eq_error_of_ne_ok (mt checkInsert_eq_ok.mp passes)
      rw [if_neg passes]
      simp only [call, insertLine, tracks.lines, verdict, BranchOp.reply]
      rfl
  | replaceLine n content validator =>
    rw [advance?_replaceLine]
    by_cases passes : n < timeline.present.length ∧ Accepts validator content
    · have verdict := checkReplace_eq_ok.mpr passes
      obtain ⟨next, replaced, pool, later⟩ := replaceId_spec tracks passes.1 (heap.intern branch.pool content).1
      rw [if_pos passes]
      refine ⟨next, ?_, pool, later⟩
      simp only [call, replaceLine, tracks.lines, verdict, replaced, BranchOp.reply]
      rfl
    · obtain ⟨error, verdict⟩ := eq_error_of_ne_ok (mt checkReplace_eq_ok.mp passes)
      rw [if_neg passes]
      simp only [call, replaceLine, tracks.lines, verdict, BranchOp.reply]
      rfl
  | deleteLine n =>
    obtain ⟨moved, next, deleted, follows⟩ := deleteLine_spec tracks n
    simp only [call, deleted]
    exact flag_spec follows heap
  | undo =>
    obtain ⟨moved, next, undone, follows⟩ := undo_spec tracks
    simp only [call, undone]
    exact flag_spec follows heap
  | redo =>
    obtain ⟨moved, next, redone, follows⟩ := redo_spec tracks
    simp only [call, redone]
    exact flag_spec follows heap

theorem run_cons {op : BranchOp} {ops : List BranchOp} {reply : Reply} {replies : List Reply}
    {heap heap' heap'' : Heap} {next final : Branch} (called : branch.call heap op = .ok (reply, heap', next))
    (ran : next.run heap' ops = .ok (replies, heap'', final)) :
    branch.run heap (op :: ops) = .ok (reply :: replies, heap'', final) := by
  simp only [run, called, Outcome.ok_bind, ran]
  rfl

theorem run_append {ops more : List BranchOp} {replies moreReplies : List Reply} {heap heap' heap'' : Heap}
    {middle final : Branch} (first : branch.run heap ops = .ok (replies, heap', middle))
    (second : middle.run heap' more = .ok (moreReplies, heap'', final)) :
    branch.run heap (ops ++ more) = .ok (replies ++ moreReplies, heap'', final) := by
  induction ops generalizing branch heap replies with
  | nil =>
    cases first
    exact second
  | cons op ops ih =>
    obtain ⟨⟨reply, heap₁, next⟩, called, ran⟩ := Outcome.bind_eq_ok.mp first
    obtain ⟨⟨later, heap₂, reached⟩, ran, same⟩ := Outcome.bind_eq_ok.mp ran
    cases same
    exact run_cons called (ih ran)

end Branch

end Mallard
