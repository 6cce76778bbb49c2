import Mallard.Proofs.LoadFile

/-! # The two loaders on UTF-8

The plain path splits at LF, CRLF and CR; the forced path splits at LF and drops one CR before it. On
UTF-8 text they load the same lines as long as every CR stands directly before an LF. A CR on its own
costs the forced path a line, or stays at the end of the last one. Only ids that wrapped around can
hide that: the two spellings of the last line then denote one older line.
-/

namespace Mallard

open LineTerminators

section Agreement

variable [Digests]

/-- Both loads of a UTF-8 text succeed. -/
theorem loads_shown {encoding : Encoding} (isUtf8 : encoding.IsUtf8) {disk : Disk} {path text : String}
    (unmarked : text.toList.head? ≠ some '\uFEFF') (content : disk.read path = .ok (asBytes text)) (heap : Heap) :
    (∃ heap' forced, loadFile disk heap path (some encoding) = .ok ([], heap', forced) ∧
        forced.iterLines heap' = .ok (LineBuffer.shownLines (strLines text))) ∧
      ∃ heap' plain, loadFile disk heap path none = .ok ([], heap', plain) ∧
        plain.iterLines heap' = .ok (LineBuffer.shownLines (textLines text)) := by
  constructor
  · obtain ⟨reports, heap', forced, loaded, clean, appended⟩ := @loadLines_appended _ (emptyBufWithEnc heap encoding).1
      (emptyBufWithEnc heap encoding).2 rfl rfl (strLines text)
    have all : ∀ line ∈ strLines text, Accepts (emptyBufWithEnc heap encoding).2.validator line :=
      fun line _ => isUtf8.accepts line
    obtain rfl := clean.mpr all
    rw [List.filter_eq_self.mpr (fun line member => decide_eq_true (all line member))] at appended
    refine ⟨heap', forced, ?_, appended.iterLines⟩
    simp only [loadFile, content, isUtf8.decode unmarked]
    exact loaded
  · refine ⟨_, _, ?_, (LineBuffer.loaded_holds heap none (textLines text)).iterLines⟩
    simp only [loadFile, content, LineBuffer.fromReader_asBytes,
      LineBuffer.fromStr_eq_ok (fun line _ => accepts_none line)]
    rfl

/-- A load resolves its last line behind what a load of the others shows. -/
theorem shownLines_concat (known : List String) (line : String) :
    LineBuffer.shownLines (known ++ [line]) =
      LineBuffer.shownLines known ++ [(GreenPool.new.internAll (known ++ [line])).2.resolved line] := by
  rw [LineBuffer.shownLines, List.map_append, List.map_singleton]
  congr 1
  apply List.map_congr_left
  intro other member
  have listed : other ∈ (GreenPool.new.internAll known).2.contents := by
    rw [GreenPool.contents_run]
    exact List.mem_inventory.mpr member
  have grown : (GreenPool.new.internAll known).2.Extends (GreenPool.new.internAll (known ++ [line])).2 := by
    rw [GreenPool.Extends, GreenPool.contents_run, GreenPool.contents_run, List.inventory_concat]
    exact List.prefix_pushNew _ _
  have denotes := grown.text?_eq (GreenPool.text?_resolved listed)
  rw [← grown.idxOf_eq listed] at denotes
  exact Option.some.inj ((GreenPool.text?_resolved (grown.subset listed)).symm.trans denotes)

/-- With an id to spare, the last line is its own. -/
theorem resolved_last_of_lt {known : List String} (few : known.inventory.length < idCount) (line : String) :
    (GreenPool.new.internAll (known ++ [line])).2.resolved line = line := by
  apply GreenPool.resolved_of_fits
  · rw [GreenPool.contents_run]
    exact List.mem_inventory.mpr (List.mem_append_right _ (List.mem_singleton_self line))
  · rw [GreenPool.fits_run, ← List.length_inventory, List.inventory_concat]
    exact (List.length_pushNew_le _ _).trans few

/-- Without one, the last line is the earlier one at its narrowed position. -/
theorem resolved_last_of_le {known : List String} (wrapped : idCount ≤ known.inventory.length) (line : String) :
    known.inventory[(known ++ [line]).inventory.idxOf line % idCount]? =
      some ((GreenPool.new.internAll (known ++ [line])).2.resolved line) := by
  have listed : line ∈ (GreenPool.new.internAll (known ++ [line])).2.contents := by
    rw [GreenPool.contents_run]
    exact List.mem_inventory.mpr (List.mem_append_right _ (List.mem_singleton_self line))
  have denotes := GreenPool.text?_resolved listed
  rw [GreenPool.text?, GreenLineId.toNat_ofLen, GreenPool.contents_run, List.inventory_concat] at denotes
  rw [List.inventory_concat, ← denotes]
  have early : (known.inventory.pushNew line).idxOf line % idCount < known.inventory.length :=
    lt_of_lt_of_le (Nat.mod_lt _ (by decide)) wrapped
  have kept := (List.prefix_pushNew known.inventory line).getElem?_eq (List.getElem?_eq_getElem early)
  rw [kept, List.getElem?_eq_getElem early]

/-- Two loads that differ in their last line, which is new in one of them, show the same lines exactly
when both last lines were narrowed to one earlier position. -/
theorem shownLines_concat_eq_iff {known : List String} {line other : String} (fresh : other ∉ known)
    (differs : other ≠ line) :
    LineBuffer.shownLines (known ++ [other]) = LineBuffer.shownLines (known ++ [line]) ↔
      idCount ≤ known.inventory.length ∧
        (known ++ [line]).inventory.idxOf line % idCount = known.inventory.length % idCount := by
  rw [shownLines_concat, shownLines_concat, List.append_cancel_left_eq, List.singleton_inj]
  rcases Nat.lt_or_ge known.inventory.length idCount with few | wrapped
  · rw [resolved_last_of_lt few, resolved_last_of_lt few]
    exact iff_of_false differs (fun both => absurd both.1 (Nat.not_le.mpr few))
  · have last := resolved_last_of_le wrapped other
    have position : (known ++ [other]).inventory.idxOf other = known.inventory.length := by
      rw [List.inventory_concat, List.pushNew_of_notMem (mt List.mem_inventory.mp fresh),
        List.idxOf_append_of_notMem (mt List.mem_inventory.mp fresh), List.idxOf_cons_self, Nat.add_zero]
    rw [position] at last
    rw [and_iff_right wrapped, ← Option.some_inj, ← last, ← resolved_last_of_le wrapped line]
    constructor
    · intro same
      have early : known.inventory.length % idCount < known.inventory.length :=
        lt_of_lt_of_le (Nat.mod_lt _ (by decide)) wrapped
      exact ((List.getElem?_inj early (List.nodup_inventory known)).mp same).symm
    · intro same
      rw [same]

/-- The text ends with a CR on its own, behind at least `2 ^ 32` distinct lines, and with or without
that CR its last line is narrowed to the same one of them. -/
def HiddenCr (text : String) : Prop :=
  ∃ body line : String, text = body ++ line ++ "\r" ∧ BareText line ∧ CrBeforeLf '\r' '\n' body.toList ∧
    lastText '\r' '\n' body.toList = [] ∧ idCount ≤ (textLines body).inventory.length ∧
    (textLines body ++ [line]).inventory.idxOf line % idCount = (textLines body).inventory.length % idCount

omit [Digests] in
/-- A text that ends with a CR on its own, as the two loaders split it. -/
theorem lines_hidden {body line : String} (bare : BareText line) (paired : CrBeforeLf '\r' '\n' body.toList)
    (closed : lastText '\r' '\n' body.toList = []) :
    textLines (body ++ line ++ "\r") = textLines body ++ [line] ∧
      strLines (body ++ line ++ "\r") = textLines body ++ [line ++ "\r"] := by
  have chars : (body ++ line ++ "\r").toList = body.toList ++ (line.toList ++ ['\r']) := by
    simp
  obtain ⟨whole, cut⟩ := lines_append_closed cr_ne_lf paired closed (line.toList ++ ['\r'])
  have last : lines '\r' '\n' (line.toList ++ ['\r']) = [line.toList] := by
    have fits : Ending.cr.Fits '\n' ([] : List Char) := ⟨by decide, fun _ => by decide⟩
    exact lines_cons cr_ne_lf bare fits
  have joined : lfLines '\r' '\n' (line.toList ++ ['\r']) = [line.toList ++ ['\r']] :=
    lfLines_open (notMem_concat_cr cr_ne_lf bare) (by simp)
  constructor
  · rw [textLines, chars, whole, last, List.map_append, List.map_singleton, String.ofList_toList]
    rfl
  · rw [strLines, chars, cut, joined, List.map_append, List.map_singleton]
    congr 2
    apply String.toList_injective
    simp

omit [Digests] in
theorem lone_cr_notMem (body line : String) : line ++ "\r" ∉ textLines body := by
  intro member
  exact (bare_of_mem_textLines member).1 (by simp)

omit [Digests] in
theorem append_cr_ne (line : String) : line ++ "\r" ≠ line := by
  intro same
  have sizes := congrArg String.length same
  simp at sizes

/-- The two ways to split a text show the same lines exactly when no CR on its own can be told. -/
theorem shownLines_strLines_iff (text : String) :
    LineBuffer.shownLines (strLines text) = LineBuffer.shownLines (textLines text) ↔
      CrBeforeLf '\r' '\n' text.toList ∨ HiddenCr text := by
  constructor
  · intro same
    by_contra neither
    obtain ⟨lone, seen⟩ := not_or.mp neither
    rcases lone_cr_cases cr_ne_lf lone with shorter | ⟨body, line, split, bare, paired, closed⟩
    · have sizes := congrArg List.length same
      simp only [LineBuffer.shownLines, List.length_map, strLines, textLines] at sizes
      omega
    · obtain ⟨whole, cut⟩ := @lines_hidden (String.ofList body) (String.ofList line)
        (by simpa [BareText] using bare) (by simpa using paired) (by simpa using closed)
      have text_eq : text = String.ofList body ++ String.ofList line ++ "\r" := by
        apply String.toList_injective
        simpa using split
      rw [text_eq, whole, cut, shownLines_concat_eq_iff (lone_cr_notMem _ _) (append_cr_ne _)] at same
      exact seen ⟨_, _, text_eq, by simpa [BareText] using bare, by simpa using paired, by simpa using closed, same⟩
  · rintro (paired | ⟨body, line, rfl, bare, paired, closed, hidden⟩)
    · rw [strLines, lfLines_eq_lines cr_ne_lf paired]
      rfl
    · obtain ⟨whole, cut⟩ := lines_hidden bare paired closed
      rw [whole, cut, shownLines_concat_eq_iff (lone_cr_notMem _ _) (append_cr_ne _)]
      exact hidden

/-- Loaded with UTF-8 forced and without a forced encoding, a UTF-8 file gives the same lines exactly
when each of its CRs stands directly before an LF, or its one other CR is hidden by wrapped ids. -/
theorem loaders_agree_iff {encoding : Encoding} (isUtf8 : encoding.IsUtf8) {disk : Disk} {path text : String}
    (unmarked : text.toList.head? ≠ some '\uFEFF') (content : disk.read path = .ok (asBytes text))
    (heap other : Heap) :
    ∃ heap' forced forcedLines other' plain plainLines,
      loadFile disk heap path (some encoding) = .ok ([], heap', forced) ∧
      forced.iterLines heap' = .ok forcedLines ∧
      loadFile disk other path none = .ok ([], other', plain) ∧
      plain.iterLines other' = .ok plainLines ∧
      (forcedLines = plainLines ↔ CrBeforeLf '\r' '\n' text.toList ∨ HiddenCr text) := by
  obtain ⟨⟨heap', forced, loaded, shown⟩, _⟩ := loads_shown isUtf8 unmarked content heap
  obtain ⟨_, ⟨other', plain, loaded', shown'⟩⟩ := loads_shown isUtf8 unmarked content other
  exact ⟨heap', forced, _, other', plain, _, loaded, shown, loaded', shown', shownLines_strLines_iff text⟩

end Agreement

section Samples

attribute [local instance] sampleDigests

/-- A CRLF and an LF: both loads give two lines. -/
theorem crlf_loads_agree : ∃ heap forced lines heap' plain,
    loadFile (sampleDisk "a\r\nb\n") Heap.empty "f" (some utf8Encoding) = .ok ([], heap, forced) ∧
      forced.iterLines heap = .ok lines ∧
      loadFile (sampleDisk "a\r\nb\n") Heap.empty "f" none = .ok ([], heap', plain) ∧
      plain.iterLines heap' = .ok lines := by
  obtain ⟨heap, forced, lines, heap', plain, lines', loaded, shown, loaded', shown', agree⟩ :=
    @loaders_agree_iff _ utf8Encoding utf8Encoding_isUtf8 (sampleDisk "a\r\nb\n") "f" "a\r\nb\n" (by decide) rfl
      Heap.empty Heap.empty
  have paired : CrBeforeLf '\r' '\n' "a\r\nb\n".toList := by
    have chars : "a\r\nb\n".toList = ['a', '\r', '\n', 'b', '\n'] := by decide
    simp [chars, crBeforeLf_cons]
  obtain rfl := agree.mpr (.inl paired)
  exact ⟨heap, forced, lines, heap', plain, loaded, shown, loaded', shown'⟩

/-- A CR between two letters: one line for the forced load, two for the plain one. -/
theorem lone_cr_loads_differ : ∃ heap forced heap' plain,
    loadFile (sampleDisk "a\rb") Heap.empty "f" (some utf8Encoding) = .ok ([], heap, forced) ∧
      forced.iterLines heap = .ok ["a\rb"] ∧
      loadFile (sampleDisk "a\rb") Heap.empty "f" none = .ok ([], heap', plain) ∧
      plain.iterLines heap' = .ok ["a", "b"] := by
  obtain ⟨⟨heap, forced, loaded, shown⟩, heap', plain, loaded', shown'⟩ :=
    @loads_shown _ utf8Encoding utf8Encoding_isUtf8 (sampleDisk "a\rb") "f" "a\rb" (by decide) rfl Heap.empty
  have joined : strLines "a\rb" = ["a\rb"] := by decide
  have split : textLines "a\rb" = ["a", "b"] := by decide
  rw [joined, LineBuffer.shownLines_of_few (by decide)] at shown
  rw [split, LineBuffer.shownLines_of_few (by decide)] at shown'
  exact ⟨heap, forced, heap', plain, loaded, shown, loaded', shown'⟩

end Samples

end Mallard
