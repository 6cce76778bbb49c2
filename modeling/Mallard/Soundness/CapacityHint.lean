import Mallard.Proofs.BufferTexts

/-! # The line-count hint

`from_source` reserves room for as many ids as the source announces before it sees a line. The number
of lines that follow does not matter, nor what the validator says of them: loading goes as it does
without a hint, unless the announced ids take more bytes than a vector may have.
-/

namespace Mallard

namespace LineBuffer

variable [Digests]

/-- Loading completes, and returns what it returns without a hint. -/
def HintHarmless (heap : Heap) (source : LineSource) (validator : Option EncodingValidator) : Prop :=
  ∃ result, fromSource heap source validator = .ok result ∧
    fromSource heap { source with lineCountHint := none } validator = .ok result

/-- A hint is harmless exactly when the ids it announces take at most `isize::MAX` bytes. -/
theorem hintHarmless_iff (heap : Heap) (source : LineSource) (validator : Option EncodingValidator) :
    HintHarmless heap source validator ↔ ∀ hint, source.lineCountHint = some hint → 4 * hint ≤ isizeMax := by
  have fits_iff : HintFits source ↔ ∀ hint, source.lineCountHint = some hint → 4 * hint ≤ isizeMax := by
    simp only [HintFits, Option.mem_def, Nat.mul_comm 4]
  rw [← fits_iff]
  constructor
  · rintro ⟨result, completed, _⟩
    by_contra beyond
    rw [fromSource_overflow beyond] at completed
    cases completed
  · intro fits
    exact ⟨_, fromSource_eq fits heap validator, fromSource_eq (hintFits_of_unhinted rfl) heap validator⟩

end LineBuffer

section Samples

attribute [local instance] sampleDigests

/-- A source of one line that announces `usize::MAX` lines: loading panics, without the hint it succeeds. -/
theorem overestimate_panics :
    LineBuffer.fromSource Heap.empty ⟨some usizeMax, ["a"]⟩ none = .error .capacityOverflow ∧
      (∃ heap buffer, LineBuffer.fromSource Heap.empty ⟨none, ["a"]⟩ none = .ok (.ok (heap, buffer)) ∧
        buffer.iterLines heap = .ok ["a"]) ∧
      ¬ LineBuffer.HintHarmless Heap.empty ⟨some usizeMax, ["a"]⟩ none := by
  have panics : LineBuffer.fromSource Heap.empty ⟨some usizeMax, ["a"]⟩ none = .error .capacityOverflow := by
    apply LineBuffer.fromSource_overflow
    intro fits
    have bound := fits usizeMax rfl
    exact absurd bound (by decide)
  refine ⟨panics, ⟨_, _, rfl, rfl⟩, ?_⟩
  rintro ⟨result, completed, _⟩
  rw [panics] at completed
  cases completed

end Samples

end Mallard
