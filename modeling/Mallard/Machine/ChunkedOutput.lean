import Mathlib.Data.List.Infix

/-! # Output in chunks to a sink that may fail

A producer hands chunks of items to a sink, one after the other, and stops at the first one that the
sink refuses. A run either hands over all chunks or has a first chunk that failed; what one accepted
chunk preserves holds in front of that chunk. A sink is faithful when it takes the items of a chunk in
order and fails only with some of them left.
-/

namespace ChunkedOutput

variable {σ β ε : Type*}

/-- Hand over chunks until the sink refuses one. -/
def writeChunks (write : σ → List β → Except ε Unit × σ) : List (List β) → σ → Except ε Unit × σ
  | [], sink => (.ok (), sink)
  | chunk :: rest, sink =>
    match write sink chunk with
    | (.error error, sink) => (.error error, sink)
    | (.ok (), sink) => writeChunks write rest sink

variable {write : σ → List β → Except ε Unit × σ}

theorem writeChunks_cons_ok {sink next : σ} {chunk : List β} (accepted : write sink chunk = (.ok (), next))
    (rest : List (List β)) : writeChunks write (chunk :: rest) sink = writeChunks write rest next := by
  rw [writeChunks, accepted]

theorem writeChunks_cons_error {sink next : σ} {chunk : List β} {error : ε}
    (refused : write sink chunk = (.error error, next)) (rest : List (List β)) :
    writeChunks write (chunk :: rest) sink = (.error error, next) := by
  rw [writeChunks, refused]

/-- A run hands over all chunks, or stops at a first one that is refused; until then it keeps what
every accepted chunk keeps. -/
theorem writeChunks_run {P : List (List β) → σ → Prop}
    (step : ∀ {done : List (List β)} {sink : σ} {chunk : List β} {next : σ}, P done sink →
      write sink chunk = (.ok (), next) → P (done ++ [chunk]) next)
    {done : List (List β)} {sink : σ} (start : P done sink) (chunks : List (List β)) :
    (∃ next, writeChunks write chunks sink = (.ok (), next) ∧ P (done ++ chunks) next) ∨
      ∃ before chunk after earlier error next, chunks = before ++ chunk :: after ∧
        P (done ++ before) earlier ∧ write earlier chunk = (.error error, next) ∧
        writeChunks write chunks sink = (.error error, next) := by
  induction chunks generalizing done sink with
  | nil => exact .inl ⟨sink, rfl, by rwa [List.append_nil]⟩
  | cons chunk rest ih =>
    cases outcome : write sink chunk with
    | mk result next =>
      cases result with
      | error error =>
        refine .inr ⟨[], chunk, rest, sink, error, next, rfl, ?_, outcome, writeChunks_cons_error outcome rest⟩
        rwa [List.append_nil]
      | ok =>
        rw [writeChunks_cons_ok outcome]
        rcases ih (step start outcome) with
          ⟨final, ran, kept⟩ | ⟨before, failing, after, earlier, error, final, split, kept, refused, ran⟩
        · refine .inl ⟨final, ran, ?_⟩
          rwa [List.append_assoc] at kept
        · refine .inr ⟨chunk :: before, failing, after, earlier, error, final, ?_, ?_, refused, ran⟩
          · rw [split]
            rfl
          · rwa [List.append_assoc] at kept

/-- A sink that takes the items of a chunk in order, all of them unless it fails; `taken` is what it
has taken. -/
structure Faithful (taken : σ → List β) (write : σ → List β → Except ε Unit × σ) : Prop where
  ok : ∀ {sink chunk next}, write sink chunk = (.ok (), next) → taken next = taken sink ++ chunk
  error : ∀ {sink chunk error next}, write sink chunk = (.error error, next) →
    ∃ part, part <+: chunk ∧ part ≠ chunk ∧ taken next = taken sink ++ part

/-- A faithful sink takes a prefix of all items, and the whole exactly when nothing failed. -/
theorem Faithful.run {taken : σ → List β} (faithful : Faithful taken write) (chunks : List (List β))
    (sink : σ) :
    ∃ part, part <+: chunks.flatten ∧ taken (writeChunks write chunks sink).2 = taken sink ++ part ∧
      ((writeChunks write chunks sink).1 = .ok () ↔ part = chunks.flatten) := by
  have step {done : List (List β)} {before : σ} {chunk : List β} {next : σ}
      (kept : taken before = taken sink ++ done.flatten) (accepted : write before chunk = (.ok (), next)) :
      taken next = taken sink ++ (done ++ [chunk]).flatten := by
    rw [faithful.ok accepted, kept, List.flatten_append, List.flatten_singleton, List.append_assoc]
  have start : taken sink = taken sink ++ ([] : List (List β)).flatten := (List.append_nil _).symm
  rcases writeChunks_run (P := fun done next => taken next = taken sink ++ done.flatten) step start chunks with
    ⟨next, ran, kept⟩ | ⟨before, chunk, after, earlier, error, next, split, kept, refused, ran⟩
  · rw [List.nil_append] at kept
    rw [ran]
    exact ⟨_, List.prefix_rfl, kept, iff_of_true rfl rfl⟩
  · obtain ⟨part, ⟨missing, rfl⟩, short, partly⟩ := faithful.error refused
    rw [List.nil_append] at kept
    have whole : chunks.flatten = (before.flatten ++ part) ++ (missing ++ after.flatten) := by
      rw [split, List.flatten_append, List.flatten_cons]
      simp only [List.append_assoc]
    have behind : missing ≠ [] := fun empty => short (by rw [empty, List.append_nil])
    rw [ran, whole]
    refine ⟨before.flatten ++ part, List.prefix_append _ _, ?_, iff_of_false (by simp) ?_⟩
    · rw [partly, kept, List.append_assoc]
    · intro same
      have rest := List.append_right_eq_self.mp same.symm
      exact behind (List.append_eq_nil_iff.mp rest).1

end ChunkedOutput
