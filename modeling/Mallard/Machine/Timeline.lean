import Mathlib.Data.List.Forall2
import Mathlib.Data.List.InsertIdx
import Mallard.ToMathlib.ListEdits

/-! # Timelines of snapshots

The abstract meaning of undo and redo: a present state between the states that undo brings back and
those that redo brings back, nearest first. Recording a new state pushes the present onto the past
and empties the future. For states that are lists, `exec?` performs positional edits; it fails on an
index out of range and when there is nothing to move to, and is parametric in the listed items.
-/

/-- A present state with the states that undo and redo lead to, the nearest one first. -/
structure Timeline (σ : Type*) where
  past : List σ
  present : σ
  future : List σ
deriving DecidableEq, Repr

namespace Timeline

variable {σ α β : Type*}

/-- A state with nothing to undo or redo. -/
def fresh (state : σ) : Timeline σ := ⟨[], state, []⟩

/-- Install a new present: the old one joins the past and the future is given up. -/
def record (timeline : Timeline σ) (state : σ) : Timeline σ :=
  ⟨timeline.present :: timeline.past, state, []⟩

/-- Step back to the nearest past state. -/
def undo? (timeline : Timeline σ) : Option (Timeline σ) :=
  match timeline.past with
  | [] => none
  | state :: past => some ⟨past, state, timeline.present :: timeline.future⟩

/-- Step forward to the nearest future state. -/
def redo? (timeline : Timeline σ) : Option (Timeline σ) :=
  match timeline.future with
  | [] => none
  | state :: future => some ⟨timeline.present :: timeline.past, state, future⟩

/-- Every state the timeline holds. -/
def snapshots (timeline : Timeline σ) : List σ :=
  timeline.past ++ timeline.present :: timeline.future

/-- The oldest state that undo can reach. -/
def base (timeline : Timeline σ) : σ := timeline.past.getLastD timeline.present

theorem mem_snapshots {timeline : Timeline σ} {state : σ} :
    state ∈ timeline.snapshots ↔
      state ∈ timeline.past ∨ state = timeline.present ∨ state ∈ timeline.future := by
  simp [snapshots]

theorem base_fresh (state : σ) : (fresh state).base = state := rfl

theorem base_record (timeline : Timeline σ) (state : σ) : (timeline.record state).base = timeline.base :=
  List.getLastD_cons

theorem base_undo? {timeline earlier : Timeline σ} (step : timeline.undo? = some earlier) :
    earlier.base = timeline.base := by
  obtain ⟨past, present, future⟩ := timeline
  cases past with
  | nil => simp [undo?] at step
  | cons state past =>
    cases step
    exact List.getLastD_cons.symm

theorem base_redo? {timeline later : Timeline σ} (step : timeline.redo? = some later) :
    later.base = timeline.base := by
  obtain ⟨past, present, future⟩ := timeline
  cases future with
  | nil => simp [redo?] at step
  | cons state future =>
    cases step
    exact List.getLastD_cons

/-- Undo and redo bring back only states the timeline already holds. -/
theorem snapshots_undo? {timeline earlier : Timeline σ} (step : timeline.undo? = some earlier)
    {state : σ} (member : state ∈ earlier.snapshots) : state ∈ timeline.snapshots := by
  obtain ⟨past, present, future⟩ := timeline
  cases past with
  | nil => simp [undo?] at step
  | cons first past =>
    cases step
    simp only [mem_snapshots, List.mem_cons] at member ⊢
    tauto

theorem snapshots_redo? {timeline later : Timeline σ} (step : timeline.redo? = some later)
    {state : σ} (member : state ∈ later.snapshots) : state ∈ timeline.snapshots := by
  obtain ⟨past, present, future⟩ := timeline
  cases future with
  | nil => simp [redo?] at step
  | cons first future =>
    cases step
    simp only [mem_snapshots, List.mem_cons] at member ⊢
    tauto

/-- The moves of a timeline of lists. -/
inductive LineOp (α : Type*) where
  | insert (index : ℕ) (item : α)
  | replace (index : ℕ) (item : α)
  | delete (index : ℕ)
  | undo
  | redo
deriving DecidableEq, Repr

/-- Perform a move, or fail when its index is out of range or there is nothing to move to. -/
def exec? (timeline : Timeline (List α)) : LineOp α → Option (Timeline (List α))
  | .insert index item =>
    if index ≤ timeline.present.length then
      some (timeline.record (timeline.present.insertIdx index item))
    else none
  | .replace index item =>
    if index < timeline.present.length then some (timeline.record (timeline.present.set index item))
    else none
  | .delete index =>
    if index < timeline.present.length then some (timeline.record (timeline.present.eraseIdx index))
    else none
  | .undo => timeline.undo?
  | .redo => timeline.redo?

theorem base_exec? {timeline next : Timeline (List α)} {op : LineOp α}
    (step : timeline.exec? op = some next) : next.base = timeline.base := by
  cases op with
  | undo => exact base_undo? step
  | redo => exact base_redo? step
  | insert | replace | delete =>
    simp only [exec?] at step
    split at step
    · cases step; exact base_record _ _
    · contradiction

/-- The items a move brings in. -/
def LineOp.items : LineOp α → List α
  | .insert _ item | .replace _ item => [item]
  | .delete _ | .undo | .redo => []

/-- A move with its item replaced. -/
def LineOp.map (f : α → β) : LineOp α → LineOp β
  | .insert index item => .insert index (f item)
  | .replace index item => .replace index (f item)
  | .delete index => .delete index
  | .undo => .undo
  | .redo => .redo

/-- A property of items that holds throughout the snapshots survives a move that brings in only
such items: undo and redo return to old snapshots, an edit keeps or adds good items. -/
theorem forall_exec? {P : α → Prop} {timeline next : Timeline (List α)} {op : LineOp α}
    (step : timeline.exec? op = some next)
    (held : ∀ snapshot ∈ timeline.snapshots, ∀ item ∈ snapshot, P item)
    (added : ∀ item ∈ op.items, P item) :
    ∀ snapshot ∈ next.snapshots, ∀ item ∈ snapshot, P item := by
  have present_held := held timeline.present (mem_snapshots.mpr (.inr (.inl rfl)))
  have recorded {state : List α} (good : ∀ item ∈ state, P item) :
      ∀ snapshot ∈ (timeline.record state).snapshots, ∀ item ∈ snapshot, P item := by
    intro snapshot member
    rcases mem_snapshots.mp member with old | rfl | none
    · rcases List.mem_cons.mp old with rfl | old
      · exact present_held
      · exact held snapshot (mem_snapshots.mpr (.inl old))
    · exact good
    · exact absurd none List.not_mem_nil
  cases op with
  | undo => exact fun snapshot member => held snapshot (snapshots_undo? step member)
  | redo => exact fun snapshot member => held snapshot (snapshots_redo? step member)
  | insert index item =>
    simp only [exec?] at step
    split at step
    · cases step
      apply recorded
      intro other member
      rcases List.eq_or_mem_of_mem_insertIdx member with rfl | member
      · exact added _ (List.mem_singleton_self _)
      · exact present_held other member
    · contradiction
  | replace index item =>
    simp only [exec?] at step
    split at step
    · cases step
      exact recorded (List.forall_mem_set present_held (added _ (List.mem_singleton_self _)) index)
    · contradiction
  | delete index =>
    simp only [exec?] at step
    split at step
    · cases step
      exact recorded (fun other member => present_held other (List.mem_of_mem_eraseIdx member))
    · contradiction

/-- The timeline behind insertions of items at the end. -/
def appended (timeline : Timeline (List α)) (items : List α) : Timeline (List α) :=
  items.foldl (fun timeline item => timeline.record (timeline.present ++ [item])) timeline

theorem appended_cons (timeline : Timeline (List α)) (item : α) (items : List α) :
    timeline.appended (item :: items) = (timeline.record (timeline.present ++ [item])).appended items := rfl

theorem present_appended (timeline : Timeline (List α)) (items : List α) :
    (timeline.appended items).present = timeline.present ++ items := by
  induction items generalizing timeline with
  | nil => exact (List.append_nil _).symm
  | cons item items ih => rw [appended_cons, ih, record, List.append_assoc, List.singleton_append]

/-- Two timelines of lists of the same shapes whose items are related. -/
structure Rel (R : α → β → Prop) (left : Timeline (List α)) (right : Timeline (List β)) : Prop where
  past : List.Forall₂ (List.Forall₂ R) left.past right.past
  present : List.Forall₂ R left.present right.present
  future : List.Forall₂ (List.Forall₂ R) left.future right.future

/-- Moves of one kind at one index, with related items. -/
inductive LineOp.Rel (R : α → β → Prop) : LineOp α → LineOp β → Prop
  | insert (index : ℕ) {item : α} {other : β} (related : R item other) :
      LineOp.Rel R (.insert index item) (.insert index other)
  | replace (index : ℕ) {item : α} {other : β} (related : R item other) :
      LineOp.Rel R (.replace index item) (.replace index other)
  | delete (index : ℕ) : LineOp.Rel R (.delete index) (.delete index)
  | undo : LineOp.Rel R .undo .undo
  | redo : LineOp.Rel R .redo .redo

variable {R S : α → β → Prop}

theorem forall₂_insertIdx {left : List α} {right : List β} (related : List.Forall₂ R left right)
    (index : ℕ) {item : α} {other : β} (same : R item other) :
    List.Forall₂ R (left.insertIdx index item) (right.insertIdx index other) := by
  induction related generalizing index with
  | nil =>
    cases index with
    | zero => exact .cons same .nil
    | succ index => exact .nil
  | cons head tail ih =>
    cases index with
    | zero => exact .cons same (.cons head tail)
    | succ index => exact .cons head (ih index)

theorem forall₂_set {left : List α} {right : List β} (related : List.Forall₂ R left right)
    (index : ℕ) {item : α} {other : β} (same : R item other) :
    List.Forall₂ R (left.set index item) (right.set index other) := by
  induction related generalizing index with
  | nil => exact .nil
  | cons head tail ih =>
    cases index with
    | zero => exact .cons same tail
    | succ index => exact .cons head (ih index)

theorem forall₂_eraseIdx {left : List α} {right : List β} (related : List.Forall₂ R left right)
    (index : ℕ) : List.Forall₂ R (left.eraseIdx index) (right.eraseIdx index) := by
  induction related generalizing index with
  | nil => exact .nil
  | cons head tail ih =>
    cases index with
    | zero => exact tail
    | succ index => exact .cons head (ih index)

theorem LineOp.Rel.mono (weaker : ∀ item other, R item other → S item other) {op : LineOp α} {other : LineOp β}
    (related : LineOp.Rel R op other) : LineOp.Rel S op other := by
  cases related with
  | insert index same => exact .insert index (weaker _ _ same)
  | replace index same => exact .replace index (weaker _ _ same)
  | delete index => exact .delete index
  | undo => exact .undo
  | redo => exact .redo

theorem Rel.mono (weaker : ∀ item other, R item other → S item other)
    {left : Timeline (List α)} {right : Timeline (List β)} (related : Rel R left right) : Rel S left right :=
  ⟨related.past.imp fun _ _ inner => inner.imp weaker, related.present.imp weaker,
    related.future.imp fun _ _ inner => inner.imp weaker⟩

/-- Every item of a snapshot is related to something. -/
theorem Rel.exists_of_mem {left : Timeline (List α)} {right : Timeline (List β)} (related : Rel R left right)
    {snapshot : List α} (member : snapshot ∈ left.snapshots) {item : α} (listed : item ∈ snapshot) :
    ∃ other, R item other := by
  have snapshots : List.Forall₂ (List.Forall₂ R) left.snapshots right.snapshots :=
    List.rel_append related.past (.cons related.present related.future)
  have partners {ours : List α} {theirs : List β} (inner : List.Forall₂ R ours theirs) :
      (∀ item ∈ ours, ∃ other, R item other) ∧ List.Forall₂ R ours theirs :=
    (List.forall₂_and_left ours theirs).mp (inner.imp fun _ other same => ⟨⟨other, same⟩, same⟩)
  have every := (List.forall₂_and_left _ _).mp (snapshots.imp fun _ _ inner => partners inner)
  exact every.1 snapshot member item listed

theorem Rel.fresh {left : List α} {right : List β} (related : List.Forall₂ R left right) :
    Rel R (Timeline.fresh left) (Timeline.fresh right) := ⟨.nil, related, .nil⟩

theorem Rel.record {left : Timeline (List α)} {right : Timeline (List β)} (related : Rel R left right)
    {state : List α} {other : List β} (same : List.Forall₂ R state other) :
    Rel R (left.record state) (right.record other) :=
  ⟨.cons related.present related.past, same, .nil⟩

/-- Related moves succeed and fail together, and lead to related timelines. -/
theorem Rel.exec? {left : Timeline (List α)} {right : Timeline (List β)} (related : Rel R left right)
    {op : LineOp α} {other : LineOp β} (same : LineOp.Rel R op other) :
    Option.Rel (Rel R) (left.exec? op) (right.exec? other) := by
  have sizes := related.present.length_eq
  cases same with
  | insert index item =>
    simp only [Timeline.exec?, sizes]
    split
    · exact .some (related.record (forall₂_insertIdx related.present index item))
    · exact .none
  | replace index item =>
    simp only [Timeline.exec?, sizes]
    split
    · exact .some (related.record (forall₂_set related.present index item))
    · exact .none
  | delete index =>
    simp only [Timeline.exec?, sizes]
    split
    · exact .some (related.record (forall₂_eraseIdx related.present index))
    · exact .none
  | undo =>
    obtain ⟨past, present, future⟩ := left
    obtain ⟨past', present', future'⟩ := right
    cases related.past with
    | nil => exact .none
    | cons head tail => exact .some ⟨tail, head, .cons related.present related.future⟩
  | redo =>
    obtain ⟨past, present, future⟩ := left
    obtain ⟨past', present', future'⟩ := right
    cases related.future with
    | nil => exact .none
    | cons head tail => exact .some ⟨.cons related.present related.past, head, tail⟩

/-- Whether a move succeeds does not depend on the items it brings in. -/
theorem isSome_exec?_map (timeline : Timeline (List α)) (op : LineOp α) (f : α → α) :
    (timeline.exec? (op.map f)).isSome = (timeline.exec? op).isSome := by
  cases op with
  | insert | replace =>
    simp only [LineOp.map, Timeline.exec?]
    split <;> rfl
  | delete | undo | redo => rfl

end Timeline
