import Mallard.Machine.ChunkedOutput
import Mallard.Proofs.BufferTexts

/-! # What `write_lines` hands to its writer

The loop of `write_lines` gives each line to the writer, and the separator between any two lines, each
in a `write_all` of its own, until one of them fails. Everything about a writer is then a matter of
the chunks it is handed.
-/

namespace Mallard

open ChunkedOutput

/-- The chunks that are written for lines: each line, with the separator between any two. -/
def lineChunks (lineEnding : String) (lines : List String) : List (List UInt8) :=
  (lines.map asBytes).intersperse (asBytes lineEnding)

theorem lineChunks_cons_cons (lineEnding line next : String) (lines : List String) :
    lineChunks lineEnding (line :: next :: lines) =
      asBytes line :: asBytes lineEnding :: lineChunks lineEnding (next :: lines) := rfl

/-- All chunks together are the joined lines. -/
theorem flatten_lineChunks (lineEnding : String) (lines : List String) :
    (lineChunks lineEnding lines).flatten = utf8 (lineEnding.toList.intercalate (lines.map String.toList)) := by
  induction lines with
  | nil => rfl
  | cons line lines ih =>
    cases lines with
    | nil => simp [lineChunks, List.intercalate, asBytes_eq]
    | cons next lines =>
      rw [lineChunks_cons_cons, List.flatten_cons, List.flatten_cons, ih]
      simp only [List.map_cons, List.intercalate_cons_cons, utf8_append, asBytes_eq, List.append_assoc]

theorem flatten_lineChunks_eq (lineEnding : String) (lines : List String) :
    (lineChunks lineEnding lines).flatten = asBytes (lineEnding.intercalate lines) := by
  rw [flatten_lineChunks, asBytes_eq, String.toList_intercalate]

namespace LineBuffer

variable {heap : Heap} {buffer : LineBuffer}

/-- The loop of `write_lines` hands over the chunks of the lines that are left. -/
theorem writeFrom_eq {σ : Type} (writer : Writer σ) {pool : GreenPool} {ids : List GreenLineId}
    {lines : List String} (denote : pool.DenoteAll ids lines) (lineEnding : String) (i : ℕ) (sink : σ) :
    writeFrom writer pool lineEnding (i + ids.length - 1) i ids sink =
      .ok (writeChunks writer.writeAll (lineChunks lineEnding lines) sink) := by
  induction denote generalizing i sink with
  | nil => rfl
  | @cons id line ids lines first rest ih =>
    obtain ⟨entry, read, _, content⟩ := GreenPool.get_of_text? first
    have last : i + (id :: ids).length - 1 = i + 1 + ids.length - 1 := by
      rw [List.length_cons]
      omega
    rw [last, writeFrom, read, Outcome.ok_bind, content]
    cases rest with
    | nil =>
      have behind : ¬ i < i + 1 + ([] : List GreenLineId).length - 1 := by
        rw [List.length_nil]
        omega
      have single : lineChunks lineEnding [line] = [asBytes line] := rfl
      rw [single]
      cases wrote : writer.writeAll sink (asBytes line) with
      | mk result sink =>
        cases result with
        | error error =>
          rw [writeChunks_cons_error wrote]
          rfl
        | ok =>
          rw [writeChunks_cons_ok wrote]
          simp only [if_neg behind]
          rfl
    | @cons next following more others second more_rest =>
      have before : i < i + 1 + (next :: more).length - 1 := by
        rw [List.length_cons]
        omega
      rw [lineChunks_cons_cons]
      cases wrote : writer.writeAll sink (asBytes line) with
      | mk result sink =>
        cases result with
        | error error =>
          rw [writeChunks_cons_error wrote]
          rfl
        | ok =>
          rw [writeChunks_cons_ok wrote]
          simp only [if_pos before]
          cases separated : writer.writeAll sink (asBytes lineEnding) with
          | mk result sink =>
            cases result with
            | error error =>
              rw [writeChunks_cons_error separated]
              rfl
            | ok =>
              rw [writeChunks_cons_ok separated]
              exact ih (i + 1) sink

theorem writeLines_eq {σ : Type} {lines : List String}
    (denote : (heap.lock buffer.pool).DenoteAll buffer.root.lines lines) (writer : Writer σ) (sink : σ)
    (lineEnding : String) :
    buffer.writeLines heap writer sink lineEnding =
      .ok (writeChunks writer.writeAll (lineChunks lineEnding lines) sink) := by
  have wrote := writeFrom_eq writer denote lineEnding 0 sink
  rwa [Nat.zero_add] at wrote

/-- Writing to a vector writes the joined lines. -/
theorem writeLines_vec {lines : List String} (denote : (heap.lock buffer.pool).DenoteAll buffer.root.lines lines)
    (lineEnding : String) :
    buffer.writeLines heap vecWriter [] lineEnding =
      .ok (.ok (), utf8 (lineEnding.toList.intercalate (lines.map String.toList))) := by
  have appends (chunks : List (List UInt8)) (written : List UInt8) :
      writeChunks vecWriter.writeAll chunks written = (.ok (), written ++ chunks.flatten) := by
    induction chunks generalizing written with
    | nil => rw [writeChunks, List.flatten_nil, List.append_nil]
    | cons chunk rest ih => rw [writeChunks_cons_ok rfl, ih, List.flatten_cons, List.append_assoc]
  rw [writeLines_eq denote, appends, List.nil_append, flatten_lineChunks]

end LineBuffer

end Mallard
