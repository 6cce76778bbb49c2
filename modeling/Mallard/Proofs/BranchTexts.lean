import Mallard.Proofs.BranchTimeline
import Mallard.Proofs.Interning
import Mallard.Model.Core.LineBuffer

/-! # What branches show: timelines of strings

The ids of a branch, those in its stacks included, denote strings of the pool. `Shows` reads all
snapshots of a branch as strings, and `call_shows` says what a call does to that reading. A new id
denotes the string that the pool `stored` for the content, which is the content itself as long as the
pool fits the id type; nothing else depends on that bound.
-/

namespace Mallard

/-- The id denotes the string. -/
def GreenPool.Denotes (pool : GreenPool) (id : GreenLineId) (text : String) : Prop := pool.text? id = some text

theorem GreenPool.Extends.denotes {old new : GreenPool} (grown : old.Extends new) (id : GreenLineId)
    (text : String) (denotes : old.Denotes id text) : new.Denotes id text := grown.text?_eq denotes

/-- Every id of the list denotes the string at its place. -/
abbrev GreenPool.DenoteAll (pool : GreenPool) (ids : List GreenLineId) (texts : List String) : Prop :=
  List.Forall₂ pool.Denotes ids texts

/-- What is denoted is listed in the pool. -/
theorem GreenPool.DenoteAll.mem_contents {pool : GreenPool} {ids : List GreenLineId} {texts : List String}
    (denote : pool.DenoteAll ids texts) : ∀ text ∈ texts, text ∈ pool.contents := by
  intro text member
  obtain ⟨place, bound, rfl⟩ := List.getElem_of_mem member
  exact List.mem_of_getElem? (denote.get (denote.length_eq ▸ bound) bound)

/-- What is denoted stands among the first `2 ^ 32` entries. -/
theorem GreenPool.DenoteAll.reaches {pool : GreenPool} (distinct : pool.contents.Nodup) {ids : List GreenLineId}
    {texts : List String} (denote : pool.DenoteAll ids texts) : ∀ text ∈ texts, pool.Reaches text := by
  intro text member
  obtain ⟨place, bound, rfl⟩ := List.getElem_of_mem member
  obtain ⟨id, denotes⟩ : ∃ id, pool.text? id = some texts[place] :=
    ⟨_, denote.get (denote.length_eq ▸ bound) bound⟩
  rw [Reaches, distinct.idxOf_of_getElem? denotes]
  exact id.raw.toNat_lt

/-- However many ids are listed, they denote no more strings than there are ids. -/
theorem GreenPool.DenoteAll.card_le {pool : GreenPool} {ids : List GreenLineId} {texts : List String}
    (denote : pool.DenoteAll ids texts) : texts.toFinset.card ≤ idCount := by
  have covered : texts.toFinset ⊆ (Finset.range idCount).image fun position => pool.contents[position]?.getD "" := by
    intro text member
    obtain ⟨place, bound, rfl⟩ := List.getElem_of_mem (List.mem_toFinset.mp member)
    obtain ⟨id, denotes⟩ : ∃ id, pool.text? id = some texts[place] :=
      ⟨_, denote.get (denote.length_eq ▸ bound) bound⟩
    refine Finset.mem_image.mpr ⟨id.raw.toNat, Finset.mem_range.mpr id.raw.toNat_lt, ?_⟩
    exact congrArg (Option.getD · "") denotes
  calc
    texts.toFinset.card ≤ _ := Finset.card_le_card covered
    _ ≤ (Finset.range idCount).card := Finset.card_image_le
    _ = idCount := Finset.card_range _

/-- Reading every id of a list gives the strings they denote. -/
theorem GreenPool.DenoteAll.mapM_get {pool : GreenPool} {ids : List GreenLineId} {texts : List String}
    (denote : pool.DenoteAll ids texts) :
    (ids.mapM fun id => do
      let line ← pool.get id
      pure line.content) = (.ok texts : Outcome (List String)) := by
  induction denote with
  | nil => rfl
  | cons first _ ih =>
    obtain ⟨line, read, _, content⟩ := GreenPool.get_of_text? first
    rw [List.mapM_cons, ih, read]
    simp only [Outcome.ok_bind, content]
    rfl

/-- What is read decides which strings are denoted. -/
theorem GreenPool.denoteAll_of_mapM_get {pool : GreenPool} {ids : List GreenLineId} {texts : List String}
    (read : (ids.mapM fun id => do
      let line ← pool.get id
      pure line.content) = (.ok texts : Outcome (List String))) : pool.DenoteAll ids texts := by
  induction ids generalizing texts with
  | nil =>
    cases read
    exact .nil
  | cons id ids ih =>
    rw [List.mapM_cons] at read
    obtain ⟨text, first, read⟩ := Outcome.bind_eq_ok.mp read
    obtain ⟨line, got, text_eq⟩ := Outcome.bind_eq_ok.mp first
    obtain ⟨rest, remaining, whole⟩ := Outcome.bind_eq_ok.mp read
    cases text_eq
    cases whole
    exact .cons (GreenPool.text?_of_get got).1 (ih remaining)

namespace Branch

variable {heap : Heap} {branch : Branch}

theorem visible_eq_ok {texts : List String} :
    branch.visible heap = .ok texts ↔ (heap.lock branch.pool).DenoteAll branch.lines texts :=
  ⟨GreenPool.denoteAll_of_mapM_get, GreenPool.DenoteAll.mapM_get⟩

/-- The id at a line denotes the text at that line; there is none beyond the end. -/
theorem cases_getElem? {pool : GreenPool} {texts : List String} (denote : pool.DenoteAll branch.lines texts) (n : ℕ) :
    (branch.lines[n]? = none ∧ texts[n]? = none) ∨
      ∃ id text, branch.lines[n]? = some id ∧ texts[n]? = some text ∧ pool.Denotes id text := by
  by_cases bound : n < branch.lines.length
  · have bound' : n < texts.length := denote.length_eq ▸ bound
    exact .inr ⟨_, _, List.getElem?_eq_getElem bound, List.getElem?_eq_getElem bound', denote.get bound bound'⟩
  · have beyond : ¬ n < texts.length := denote.length_eq ▸ bound
    exact .inl ⟨List.getElem?_eq_none (Nat.not_lt.mp bound), List.getElem?_eq_none (Nat.not_lt.mp beyond)⟩

theorem getLine_eq {texts : List String} (denote : (heap.lock branch.pool).DenoteAll branch.lines texts)
    (n : ℕ) : branch.getLine heap n = .ok texts[n]? := by
  rw [getLine]
  rcases cases_getElem? denote n with ⟨beyond, beyond'⟩ | ⟨id, text, present, present', denotes⟩
  · rw [beyond, beyond']
    rfl
  · obtain ⟨line, read, _, rfl⟩ := GreenPool.get_of_text? denotes
    rw [present, present']
    simp only [read, Outcome.ok_bind]
    rfl

section Digests

variable [Digests] {texts : List String} (valid : (heap.lock branch.pool).WellFormed)
  (denote : (heap.lock branch.pool).DenoteAll branch.lines texts) (n : ℕ)
include valid denote

theorem lineCrc32_eq :
    branch.lineCrc32 heap n = .ok (texts[n]?.map fun text => Digests.crc32 (asBytes text)) := by
  rw [lineCrc32]
  rcases cases_getElem? denote n with ⟨beyond, beyond'⟩ | ⟨id, text, present, present', denotes⟩
  · rw [beyond, beyond']
    rfl
  · obtain ⟨line, read, member, rfl⟩ := GreenPool.get_of_text? denotes
    rw [present, present']
    simp only [read, Outcome.ok_bind, (valid.coherent line member).crc32]
    rfl

/-- A digest request may fill a cell of the pool; the contents stay. -/
theorem lineMd5_eq : ∃ filled : GreenPool, branch.lineMd5 heap n =
      .ok (texts[n]?.map fun text => Digests.md5 (asBytes text), heap.store branch.pool filled) ∧
    filled.WellFormed ∧ filled.contents = (heap.lock branch.pool).contents := by
  rw [lineMd5]
  rcases cases_getElem? denote n with ⟨beyond, beyond'⟩ | ⟨id, text, present, present', denotes⟩
  · refine ⟨heap.lock branch.pool, ?_, valid, rfl⟩
    rw [beyond, beyond', Heap.store_lock]
    rfl
  · obtain ⟨line, read, member, rfl⟩ := GreenPool.get_of_text? denotes
    obtain ⟨digest, same, coherent⟩ := GreenLine.md5_spec (valid.coherent line member)
    refine ⟨(heap.lock branch.pool).put id line.md5.2, ?_, valid.put read same coherent, GreenPool.contents_put read same⟩
    rw [present, present']
    simp only [read, Outcome.ok_bind, digest]
    rfl

theorem lineSha256_eq : ∃ filled : GreenPool, branch.lineSha256 heap n =
      .ok (texts[n]?.map fun text => Digests.sha256 (asBytes text), heap.store branch.pool filled) ∧
    filled.WellFormed ∧ filled.contents = (heap.lock branch.pool).contents := by
  rw [lineSha256]
  rcases cases_getElem? denote n with ⟨beyond, beyond'⟩ | ⟨id, text, present, present', denotes⟩
  · refine ⟨heap.lock branch.pool, ?_, valid, rfl⟩
    rw [beyond, beyond', Heap.store_lock]
    rfl
  · obtain ⟨line, read, member, rfl⟩ := GreenPool.get_of_text? denotes
    obtain ⟨digest, same, coherent⟩ := GreenLine.sha256_spec (valid.coherent line member)
    refine ⟨(heap.lock branch.pool).put id line.sha256.2, ?_, valid.put read same coherent,
      GreenPool.contents_put read same⟩
    rw [present, present']
    simp only [read, Outcome.ok_bind, digest]
    rfl

end Digests

end Branch

namespace GreenPool.WellFormed

variable [Digests] {pool : GreenPool} (valid : pool.WellFormed) (move : Timeline.LineOp String)
include valid

theorem internMove : (pool.internMove move).2.WellFormed := by
  cases move with
  | insert index content => exact valid.intern content
  | replace index content => exact valid.intern content
  | delete | undo | redo => exact valid

theorem contents_internMove : (pool.internMove move).2.contents = pool.contents.pushAll move.items := by
  cases move with
  | insert index content => exact valid.contents_intern content
  | replace index content => exact valid.contents_intern content
  | delete | undo | redo => rfl

theorem extends_internMove : pool.Extends (pool.internMove move).2 := by
  rw [Extends, valid.contents_internMove]
  exact List.prefix_pushAll _ _

/-- The interned move denotes the move with what the pool stored for its text. -/
theorem denotes_internMove :
    Timeline.LineOp.Rel (pool.internMove move).2.Denotes (pool.internMove move).1 (move.map pool.stored) := by
  cases move with
  | insert index content => exact .insert index (valid.text?_intern content)
  | replace index content => exact .replace index (valid.text?_intern content)
  | delete index => exact .delete index
  | undo => exact .undo
  | redo => exact .redo

/-- A text with an id of its own is stored itself. -/
theorem map_stored (reaches : ∀ content ∈ move.items, (pool.internMove move).2.Reaches content) :
    move.map pool.stored = move := by
  cases move with
  | insert index content | replace index content =>
    rw [Timeline.LineOp.map, valid.stored_of_reaches (reaches content List.mem_cons_self)]
  | delete | undo | redo => rfl

end GreenPool.WellFormed

/-- The call on a history of strings. -/
def BranchOp.exec? (op : BranchOp) (texts : Timeline (List String)) : Option (Timeline (List String)) :=
  op.move?.bind texts.exec?

namespace Branch

/-- The branch's snapshots, past and future ones included, denote those of the texts. -/
def Shows (pool : GreenPool) (branch : Branch) (texts : Timeline (List String)) : Prop :=
  ∃ ids, branch.Tracks ids ∧ ids.Rel pool.Denotes texts

variable {pool : GreenPool} {branch : Branch} {texts : Timeline (List String)}

theorem shows_fresh (ref : PoolRef) {lines : List GreenLineId} {present : List String}
    (denote : pool.DenoteAll lines present) : Shows pool ⟨ref, lines, [], []⟩ (.fresh present) :=
  ⟨_, tracks_fresh ref lines, .fresh denote⟩

theorem Shows.mono {grown : GreenPool} (shown : branch.Shows pool texts) (extends_ : pool.Extends grown) :
    branch.Shows grown texts := by
  obtain ⟨ids, tracks, denote⟩ := shown
  exact ⟨ids, tracks, denote.mono extends_.denotes⟩

theorem Shows.present (shown : branch.Shows pool texts) : pool.DenoteAll branch.lines texts.present := by
  obtain ⟨ids, tracks, denote⟩ := shown
  rw [tracks.lines]
  exact denote.present

/-- Every id of the branch, in its lines or in a stack, lies inside the pool. -/
theorem Shows.holds_ids (shown : branch.Shows pool texts) : ∀ id ∈ branch.ids, pool.Holds id := by
  obtain ⟨ids, tracks, denote⟩ := shown
  refine tracks.forall_ids ?_
  intro snapshot member id listed
  exact (pool.holds_iff id).mpr (denote.exists_of_mem member listed)

theorem Shows.lineCount (shown : branch.Shows pool texts) : branch.lineCount = texts.present.length :=
  shown.present.length_eq

variable [Digests]

/-- What a call does to a pool and a history of strings, unless it fails: an edit brings in the string
that the pool stored for its content. -/
def advanceTexts? (pool : GreenPool) (texts : Timeline (List String)) (op : BranchOp) :
    Option (GreenPool × Timeline (List String)) :=
  op.move?.bind fun move =>
    (texts.exec? (move.map pool.stored)).map fun later => ((pool.internMove move).2, later)

theorem advanceTexts?_move {op : BranchOp} {grown : GreenPool} {later : Timeline (List String)}
    (advanced : advanceTexts? pool texts op = some (grown, later)) :
    ∃ move, op.move? = some move ∧ texts.exec? (move.map pool.stored) = some later ∧
      grown = (pool.internMove move).2 := by
  obtain ⟨move, asked, advanced⟩ := Option.bind_eq_some_iff.mp advanced
  obtain ⟨reached, moved, same⟩ := Option.map_eq_some_iff.mp advanced
  cases same
  exact ⟨move, asked, moved, rfl⟩

/-- No call moves the oldest text that undo can reach. -/
theorem base_advanceTexts? {op : BranchOp} {grown : GreenPool} {later : Timeline (List String)}
    (advanced : advanceTexts? pool texts op = some (grown, later)) : later.base = texts.base := by
  obtain ⟨move, _, moved, _⟩ := advanceTexts?_move advanced
  exact Timeline.base_exec? moved

/-- Whether a call succeeds does not depend on what the pool stores. -/
theorem advanceTexts?_isSome (pool : GreenPool) (texts : Timeline (List String)) (op : BranchOp) :
    (advanceTexts? pool texts op).isSome = (op.exec? texts).isSome := by
  rw [advanceTexts?, BranchOp.exec?]
  cases op.move? with
  | none => rfl
  | some move => rw [Option.bind_some, Option.bind_some, Option.isSome_map, Timeline.isSome_exec?_map]

/-- A call does what it does on strings if the string that it brings in has an id of its own. -/
theorem advanceTexts?_of_reaches (valid : pool.WellFormed) {op : BranchOp} {grown : GreenPool}
    {later : Timeline (List String)} (advanced : advanceTexts? pool texts op = some (grown, later))
    (reaches : ∀ move, op.move? = some move → ∀ content ∈ move.items, grown.Reaches content) :
    op.exec? texts = some later := by
  obtain ⟨move, asked, moved, rfl⟩ := advanceTexts?_move advanced
  rw [valid.map_stored move (reaches move asked)] at moved
  rw [BranchOp.exec?, asked]
  exact moved

/-- Within the range of the ids, a call does what it does on strings. -/
theorem advanceTexts?_of_fits (valid : pool.WellFormed) {op : BranchOp} {grown : GreenPool}
    {later : Timeline (List String)} (advanced : advanceTexts? pool texts op = some (grown, later))
    (fits : grown.Fits) : op.exec? texts = some later := by
  refine advanceTexts?_of_reaches valid advanced fun move asked content brought => fits.reaches ?_
  obtain ⟨other, asked', _, rfl⟩ := advanceTexts?_move advanced
  cases asked.symm.trans asked'
  rw [valid.contents_internMove]
  exact List.mem_pushAll.mpr (.inr brought)

theorem advanceTexts?_pool (valid : pool.WellFormed) {op : BranchOp} {grown : GreenPool}
    {later : Timeline (List String)} (advanced : advanceTexts? pool texts op = some (grown, later)) :
    grown.WellFormed ∧ pool.Extends grown ∧
      ∃ move, op.move? = some move ∧ grown.contents = pool.contents.pushAll move.items := by
  obtain ⟨move, asked, _, rfl⟩ := advanceTexts?_move advanced
  exact ⟨valid.internMove move, valid.extends_internMove move, move, asked, valid.contents_internMove move⟩

/-- The ids and the strings they denote advance together. -/
theorem advance?_rel (valid : pool.WellFormed) {ids : Timeline (List GreenLineId)}
    (denote : ids.Rel pool.Denotes texts) (op : BranchOp) :
    Option.Rel (fun left right => left.1 = right.1 ∧ left.2.Rel left.1.Denotes right.2)
      (advance? pool ids op) (advanceTexts? pool texts op) := by
  rw [advance?, advanceTexts?]
  cases op.move? with
  | none => exact .none
  | some move =>
    have wider := denote.mono (valid.extends_internMove move).denotes
    have moved := wider.exec? (valid.denotes_internMove move)
    rw [Option.bind_some, Option.bind_some]
    generalize ids.exec? (pool.internMove move).1 = onIds at moved
    generalize texts.exec? (move.map pool.stored) = onTexts at moved
    cases moved with
    | none => exact .none
    | some related => exact .some ⟨rfl, related⟩

/-- A call never panics. It moves the history of strings, or leaves everything as it was. -/
theorem call_shows {heap : Heap} (valid : (heap.lock branch.pool).WellFormed)
    (shown : branch.Shows (heap.lock branch.pool) texts) (op : BranchOp) :
    match advanceTexts? (heap.lock branch.pool) texts op with
    | some (grown, later) => ∃ next,
        branch.call heap op = .ok (op.reply texts.present.length true, heap.store branch.pool grown, next) ∧
          next.pool = branch.pool ∧ next.Shows grown later
    | none => branch.call heap op = .ok (op.reply texts.present.length false, heap, branch) := by
  obtain ⟨ids, tracks, denote⟩ := shown
  have spec := call_spec tracks heap op
  have related := advance?_rel valid denote op
  rw [denote.present.length_eq] at spec
  generalize advance? (heap.lock branch.pool) ids op = onIds at spec related
  generalize advanceTexts? (heap.lock branch.pool) texts op = onTexts at related
  cases related with
  | none => exact spec
  | @some onIds onTexts related =>
    obtain ⟨grown, later⟩ := onIds
    obtain ⟨grown', later'⟩ := onTexts
    obtain ⟨rfl, denote⟩ := related
    obtain ⟨next, called, pool, tracks⟩ := spec
    exact ⟨next, called, pool, later, tracks, denote⟩

/-- Undo calls until one returns `false` lead back to the oldest snapshot. -/
theorem Shows.rewind {heap : Heap} (valid : (heap.lock branch.pool).WellFormed)
    (shown : branch.Shows (heap.lock branch.pool) texts) :
    ∃ restored, branch.run heap (List.replicate texts.past.length .undo ++ [.undo]) =
        .ok (List.replicate texts.past.length (.flag true) ++ [.flag false], heap, restored) ∧
      restored.pool = branch.pool ∧ restored.visible heap = .ok texts.base := by
  obtain ⟨past, present, future⟩ := texts
  induction past generalizing branch present future with
  | nil =>
    have stopped : branch.call heap .undo = .ok (.flag false, heap, branch) := call_shows valid shown .undo
    exact ⟨branch, run_cons stopped rfl, rfl, visible_eq_ok.mpr shown.present⟩
  | cons earlier past ih =>
    have undone := call_shows valid shown .undo
    obtain ⟨next, called, pool, after⟩ : ∃ next, branch.call heap .undo =
        .ok (.flag true, heap.store branch.pool (heap.lock branch.pool), next) ∧ next.pool = branch.pool ∧
          next.Shows (heap.lock branch.pool) ⟨past, earlier, present :: future⟩ := undone
    rw [Heap.store_lock] at called
    rw [← pool] at valid after
    obtain ⟨restored, ran, owner, visible⟩ := ih valid _ _ after
    refine ⟨restored, run_cons called ran, owner.trans pool, ?_⟩
    rw [visible, Timeline.base, Timeline.base, List.getLastD_cons]

end Branch

end Mallard
