import Mallard.ToMathlib.LineTerminators
import Mallard.ToMathlib.ListEdits
import Mathlib.Data.List.TakeDrop

/-! # Counting, joining and respelling lines

The lines of a text against three other readings of it: the number of its terminators, the text
rebuilt with one separator between the lines, and the text with every terminator rewritten to one
spelling. The last section compares the lines with those of a reader that knows only `lf`, with one
optional `cr` in front of it.
-/

namespace LineTerminators

variable {α β : Type*} [DecidableEq α] {cr lf : α}

/-- The number of symbols that complete a terminator: every `lf`, and every `cr` not followed by one. -/
def terminatorCount (cr lf : α) : List α → ℕ
  | [] => 0
  | symbol :: rest =>
    (if symbol = lf ∨ symbol = cr ∧ rest.head? ≠ some lf then 1 else 0) + terminatorCount cr lf rest

/-- What follows the last terminator. -/
def lastText (cr lf : α) (text : List α) : List α :=
  text.rtakeWhile fun symbol => symbol ≠ cr ∧ symbol ≠ lf

/-- Nothing follows the last terminator of a text that is empty or ends with one. -/
theorem lastText_eq_nil {text : List α} :
    lastText cr lf text = [] ↔ text = [] ∨ text.getLast? = some cr ∨ text.getLast? = some lf := by
  rw [lastText, List.rtakeWhile_eq_nil_iff]
  by_cases empty : text = []
  · simp [empty]
  · rw [List.getLast?_eq_getLast_of_ne_nil empty]
    simp only [empty, false_or, Option.some.injEq, ne_eq, not_false_eq_true, forall_true_left,
      decide_eq_true_eq, not_and_or, not_not]

theorem terminatorCount_bare {line : List α} (bare : Bare cr lf line) (rest : List α) :
    terminatorCount cr lf (line ++ rest) = terminatorCount cr lf rest := by
  induction line with
  | nil => rfl
  | cons symbol line ih =>
    obtain ⟨notCr, notLf, bare⟩ := bare_cons.mp bare
    rw [List.cons_append, terminatorCount, ih bare, if_neg (by simp [notCr, notLf]), Nat.zero_add]

theorem terminatorCount_ending {ending : Ending} {rest : List α} (distinct : cr ≠ lf)
    (fits : ending.Fits lf rest) :
    terminatorCount cr lf (ending.symbols cr lf ++ rest) = terminatorCount cr lf rest + 1 := by
  cases ending with
  | lf => simp [Ending.symbols, terminatorCount, Nat.add_comm]
  | crlf => simp [Ending.symbols, terminatorCount, distinct, Nat.add_comm]
  | cr => simp [Ending.symbols, terminatorCount, fits.2 rfl, Nat.add_comm]
  | eof => exact absurd rfl fits.1

theorem lastText_bare {line : List α} (bare : Bare cr lf line) : lastText cr lf line = line := by
  apply List.rtakeWhile_eq_self_iff.mpr
  intro symbol member
  have notCr : symbol ≠ cr := fun same => bare.1 (same ▸ member)
  have notLf : symbol ≠ lf := fun same => bare.2 (same ▸ member)
  simp [notCr, notLf]

/-- Only what follows a terminator decides what follows the last one. -/
theorem lastText_ending {ending : Ending} (terminates : ending ≠ .eof) (line rest : List α) :
    lastText cr lf (line ++ (ending.symbols cr lf ++ rest)) = lastText cr lf rest := by
  have closing : ∃ before symbol, line ++ ending.symbols cr lf = before ++ [symbol] ∧
      (symbol = cr ∨ symbol = lf) := by
    cases ending with
    | lf => exact ⟨line, lf, rfl, .inr rfl⟩
    | crlf => exact ⟨line ++ [cr], lf, by simp [Ending.symbols], .inr rfl⟩
    | cr => exact ⟨line, cr, rfl, .inl rfl⟩
    | eof => exact absurd rfl terminates
  obtain ⟨before, symbol, split, isTerminator⟩ := closing
  rw [← List.append_assoc, split]
  simp only [lastText, List.rtakeWhile, List.reverse_append, List.takeWhile_append, List.append_assoc]
  split
  · next whole =>
    have stops : ¬ (symbol ≠ cr ∧ symbol ≠ lf) := by tauto
    have all := (List.takeWhile_prefix _).eq_of_length whole
    rw [all]
    simp [stops]
  · rfl

/-- There is one line for each terminator, and one more for a non-empty text behind the last. -/
theorem length_lines (distinct : cr ≠ lf) (text : List α) :
    (lines cr lf text).length =
      terminatorCount cr lf text + if lastText cr lf text = [] then 0 else 1 := by
  induction text using text_induction cr lf with
  | nil => rfl
  | tail line bare nonempty =>
    have count := terminatorCount_bare bare []
    rw [List.append_nil] at count
    rw [lines_tail bare nonempty, count, lastText_bare bare, if_neg nonempty]
    rfl
  | cons line ending rest bare fits ih =>
    rw [lines_cons distinct bare fits, List.length_cons, ih, terminatorCount_bare bare,
      terminatorCount_ending distinct fits, lastText_ending fits.1]
    omega

/-- Write `separator` for every terminator: a `cr` before an `lf` goes, what completes one is replaced. -/
def respell (cr lf : α) (separator : List α) : List α → List α
  | [] => []
  | symbol :: rest =>
    if symbol = lf then separator ++ respell cr lf separator rest
    else if symbol = cr then
      (if rest.head? = some lf then [] else separator) ++ respell cr lf separator rest
    else symbol :: respell cr lf separator rest

theorem respell_bare {line : List α} (bare : Bare cr lf line) (separator rest : List α) :
    respell cr lf separator (line ++ rest) = line ++ respell cr lf separator rest := by
  induction line with
  | nil => rfl
  | cons symbol line ih =>
    obtain ⟨notCr, notLf, bare⟩ := bare_cons.mp bare
    rw [List.cons_append, respell, if_neg notLf, if_neg notCr, ih bare, List.cons_append]

theorem respell_ending {ending : Ending} {rest : List α} (distinct : cr ≠ lf)
    (fits : ending.Fits lf rest) (separator : List α) :
    respell cr lf separator (ending.symbols cr lf ++ rest) =
      separator ++ respell cr lf separator rest := by
  cases ending with
  | lf => simp [Ending.symbols, respell]
  | crlf => simp [Ending.symbols, respell, distinct]
  | cr => simp [Ending.symbols, respell, distinct, fits.2 rfl]
  | eof => exact absurd rfl fits.1

/-- Each line followed by a separator is the respelled text, completed behind an open last line. -/
theorem flatMap_lines (distinct : cr ≠ lf) (separator text : List α) :
    ((lines cr lf text).flatMap fun line => line ++ separator) =
      respell cr lf separator text ++ if lastText cr lf text = [] then [] else separator := by
  induction text using text_induction cr lf with
  | nil => rfl
  | tail line bare nonempty =>
    have kept := respell_bare bare separator []
    rw [List.append_nil] at kept
    rw [lines_tail bare nonempty, kept, lastText_bare bare, if_neg nonempty]
    simp [respell]
  | cons line ending rest bare fits ih =>
    rw [lines_cons distinct bare fits, List.flatMap_cons, ih, respell_bare bare,
      respell_ending distinct fits, lastText_ending fits.1]
    simp only [List.append_assoc]

omit [DecidableEq α] in
theorem flatMap_append_eq_intercalate (separator : List α) {joined : List (List α)}
    (nonempty : joined ≠ []) :
    (joined.flatMap fun line => line ++ separator) = separator.intercalate joined ++ separator := by
  induction joined with
  | nil => exact absurd rfl nonempty
  | cons line joined ih =>
    cases joined with
    | nil => simp [List.intercalate]
    | cons next joined =>
      rw [List.flatMap_cons, ih (List.cons_ne_nil _ _), List.intercalate_cons_cons]
      simp only [List.append_assoc]

omit [DecidableEq α] in
/-- A joined text has the symbols of its lines and of the separator. -/
theorem mem_or_mem_of_mem_intercalate {separator : List α} {joined : List (List α)} {symbol : α}
    (member : symbol ∈ separator.intercalate joined) : symbol ∈ separator ∨ ∃ line ∈ joined, symbol ∈ line := by
  have nonempty : joined ≠ [] := by
    rintro rfl
    cases member
  have within := List.mem_append_left separator member
  rw [← flatMap_append_eq_intercalate separator nonempty] at within
  obtain ⟨line, listed, here⟩ := List.mem_flatMap.mp within
  rcases List.mem_append.mp here with here | here
  · exact .inr ⟨line, listed, here⟩
  · exact .inl here

/-- Joining the lines of a text respells its terminators and drops the final separator of a terminated text. -/
theorem intercalate_lines (distinct : cr ≠ lf) (separator text : List α) :
    separator.intercalate (lines cr lf text) =
      if lastText cr lf text = [] then (respell cr lf separator text).rdrop separator.length
      else respell cr lf separator text := by
  have joined := flatMap_lines distinct separator text
  by_cases empty : lines cr lf text = []
  · have closed : lastText cr lf text = [] := by
      have count := length_lines distinct text
      rw [empty] at count
      by_contra opened
      rw [if_neg opened] at count
      simp at count
    rw [if_pos closed]
    rw [empty, if_pos closed, List.append_nil] at joined
    rw [← joined, empty]
    simp [List.intercalate]
  · rw [flatMap_append_eq_intercalate separator empty] at joined
    split at joined
    · next closed =>
      rw [if_pos closed]
      rw [List.append_nil] at joined
      rw [← joined, List.rdrop_append_length]
    · next opened =>
      rw [if_neg opened]
      exact List.append_cancel_right joined

omit [DecidableEq α] in
/-- A terminator may stand before a joined text unless it is a `cr` and the text begins with `lf`. -/
theorem fits_intercalate {ending : Ending} (terminates : ending ≠ .eof) (distinct : cr ≠ lf)
    {first : List α} (bare : Bare cr lf first) (more : List (List α)) :
    ending.Fits lf ((ending.symbols cr lf).intercalate (first :: more)) := by
  refine ⟨terminates, ?_⟩
  rintro rfl
  cases first with
  | nil =>
    cases more with
    | nil => simp [List.intercalate]
    | cons next more =>
      rw [List.intercalate_cons_cons]
      simpa [Ending.symbols] using distinct
  | cons symbol first =>
    have notLf := (bare_cons.mp bare).2.1
    cases more with
    | nil => simpa [List.intercalate] using notLf
    | cons next more =>
      rw [List.intercalate_cons_cons]
      simpa using notLf

/-- Reading joined lines back loses a last line that is empty, and nothing else. -/
theorem lines_intercalate {ending : Ending} (terminates : ending ≠ .eof) (distinct : cr ≠ lf)
    {joined : List (List α)} (bare : ∀ line ∈ joined, Bare cr lf line) :
    lines cr lf ((ending.symbols cr lf).intercalate joined) =
      if joined.getLast? = some [] then joined.dropLast else joined := by
  induction joined with
  | nil => rfl
  | cons line joined ih =>
    have here := bare line List.mem_cons_self
    cases joined with
    | nil =>
      by_cases empty : line = []
      · subst empty
        simp [List.intercalate]
      · simp [List.intercalate, lines_tail here empty, empty]
    | cons next joined =>
      have next_bare := bare next (List.mem_cons_of_mem _ List.mem_cons_self)
      have rest := ih (fun other member => bare other (List.mem_cons_of_mem _ member))
      rw [List.intercalate_cons_cons, List.append_assoc,
        lines_cons distinct here (fits_intercalate terminates distinct next_bare joined), rest]
      simp only [List.getLast?_cons_cons, List.dropLast_cons_cons]
      split <;> rfl

/-- The pieces of a text, each ending with its first `stop` except perhaps the last. -/
def splitInclusive (stop : α) : List α → List (List α)
  | [] => []
  | symbol :: rest =>
    if symbol = stop then [symbol] :: splitInclusive stop rest
    else
      match splitInclusive stop rest with
      | [] => [[symbol]]
      | piece :: more => (symbol :: piece) :: more

/-- Drop a final `lf`, and then one final `cr`. -/
def chomp (cr lf : α) (piece : List α) : List α :=
  if piece.getLast? = some lf then
    if piece.dropLast.getLast? = some cr then piece.dropLast.dropLast else piece.dropLast
  else piece

/-- The lines of a reader that knows `lf` and `cr lf`, and keeps every other `cr` as content. -/
def lfLines (cr lf : α) (text : List α) : List (List α) := (splitInclusive lf text).map (chomp cr lf)

/-- Every `cr` of the text stands directly before an `lf`. -/
def CrBeforeLf (cr lf : α) (text : List α) : Prop :=
  ∀ before after, text = before ++ cr :: after → after.head? = some lf

theorem splitInclusive_stop {stop : α} {line : List α} (absent : stop ∉ line) (rest : List α) :
    splitInclusive stop (line ++ stop :: rest) = (line ++ [stop]) :: splitInclusive stop rest := by
  induction line with
  | nil => simp [splitInclusive]
  | cons symbol line ih =>
    obtain ⟨differs, absent⟩ := not_or.mp (fun member => absent (List.mem_cons.mpr member))
    rw [List.cons_append, splitInclusive, if_neg (Ne.symm differs), ih absent]
    rfl

theorem splitInclusive_open {stop : α} {line : List α} (absent : stop ∉ line) (nonempty : line ≠ []) :
    splitInclusive stop line = [line] := by
  induction line with
  | nil => exact absurd rfl nonempty
  | cons symbol line ih =>
    obtain ⟨differs, absent⟩ := not_or.mp (fun member => absent (List.mem_cons.mpr member))
    rw [splitInclusive, if_neg (Ne.symm differs)]
    by_cases empty : line = []
    · subst empty
      rfl
    · rw [ih absent empty]

theorem splitInclusive_ne_nil {stop : α} {text : List α} (nonempty : text ≠ []) :
    splitInclusive stop text ≠ [] := by
  cases text with
  | nil => exact absurd rfl nonempty
  | cons symbol rest =>
    rw [splitInclusive]
    split
    · exact List.cons_ne_nil _ _
    · split <;> exact List.cons_ne_nil _ _

/-- Text in front of a non-empty rest joins the first piece of the rest. -/
theorem length_splitInclusive_append {stop : α} {line rest : List α} (absent : stop ∉ line)
    (nonempty : rest ≠ []) :
    (splitInclusive stop (line ++ rest)).length = (splitInclusive stop rest).length := by
  induction line with
  | nil => rfl
  | cons symbol line ih =>
    obtain ⟨differs, absent⟩ := not_or.mp (fun member => absent (List.mem_cons.mpr member))
    rw [List.cons_append, splitInclusive, if_neg (Ne.symm differs), ← ih absent]
    cases parts : splitInclusive stop (line ++ rest) with
    | cons piece more => rfl
    | nil => exact absurd parts (splitInclusive_ne_nil (List.append_ne_nil_of_right_ne_nil line nonempty))

/-- Behind a text that is empty or ends with a `stop`, splitting starts afresh. -/
theorem splitInclusive_append {stop : α} {text : List α} (closed : text = [] ∨ text.getLast? = some stop)
    (more : List α) : splitInclusive stop (text ++ more) = splitInclusive stop text ++ splitInclusive stop more := by
  induction text with
  | nil => rfl
  | cons symbol rest ih =>
    have closed_rest : rest = [] ∨ rest.getLast? = some stop := by
      cases rest with
      | nil => exact .inl rfl
      | cons next rest => exact .inr ((List.getLast?_cons_cons ▸ closed.resolve_left (List.cons_ne_nil _ _)))
    rw [List.cons_append, splitInclusive, splitInclusive, ih closed_rest]
    by_cases isStop : symbol = stop
    · rw [if_pos isStop, if_pos isStop, List.cons_append]
    · have nonempty : rest ≠ [] := by
        rintro rfl
        exact isStop (by simpa using closed)
      rw [if_neg isStop, if_neg isStop]
      cases parts : splitInclusive stop rest with
      | nil => exact absurd parts (splitInclusive_ne_nil nonempty)
      | cons piece pieces => rfl

theorem lfLines_append {text : List α} (closed : text = [] ∨ text.getLast? = some lf) (more : List α) :
    lfLines cr lf (text ++ more) = lfLines cr lf text ++ lfLines cr lf more := by
  rw [lfLines, splitInclusive_append closed, List.map_append, lfLines, lfLines]

/-- A piece has its `stop` at its end, if anywhere. -/
theorem exists_of_mem_splitInclusive {stop : α} {piece text : List α} (member : piece ∈ splitInclusive stop text) :
    ∃ body, stop ∉ body ∧ (piece = body ∨ piece = body ++ [stop]) := by
  induction text generalizing piece with
  | nil => exact absurd member List.not_mem_nil
  | cons symbol rest ih =>
    rw [splitInclusive] at member
    split at member
    · next isStop =>
      rcases List.mem_cons.mp member with rfl | later
      · exact ⟨[], List.not_mem_nil, .inr (by rw [isStop]; rfl)⟩
      · exact ih later
    · next differs =>
      have single : stop ∉ [symbol] := by simpa using Ne.symm differs
      cases parts : splitInclusive stop rest with
      | nil =>
        rw [parts] at member
        exact ⟨[symbol], single, .inl (List.mem_singleton.mp member)⟩
      | cons first more =>
        rw [parts] at member
        rcases List.mem_cons.mp member with rfl | later
        · obtain ⟨body, absent, shape⟩ := ih (parts ▸ List.mem_cons_self)
          refine ⟨symbol :: body, ?_, shape.imp (fun same => by rw [same]) (fun same => by rw [same]; rfl)⟩
          simpa [absent] using Ne.symm differs
        · exact ih (parts ▸ List.mem_cons_of_mem _ later)

theorem lf_notMem_of_lfLines {line text : List α} (member : line ∈ lfLines cr lf text) : lf ∉ line := by
  obtain ⟨piece, present, rfl⟩ := List.mem_map.mp member
  obtain ⟨body, absent, rfl | rfl⟩ := exists_of_mem_splitInclusive present
  · have notLf : piece.getLast? ≠ some lf := fun last => absent (List.mem_of_getLast? last)
    rwa [chomp, if_neg notLf]
  · rw [chomp, if_pos (by simp), List.dropLast_concat]
    split
    · exact fun inside => absent ((List.dropLast_subset body) inside)
    · exact absent

theorem lfLines_lf {line : List α} (bare : Bare cr lf line) (rest : List α) :
    lfLines cr lf (line ++ ([lf] ++ rest)) = line :: lfLines cr lf rest := by
  have notCr : line.getLast? ≠ some cr := fun last => bare.1 (List.mem_of_getLast? last)
  rw [List.singleton_append, lfLines, splitInclusive_stop bare.2, List.map_cons, chomp]
  simp [notCr, lfLines]

omit [DecidableEq α] in
theorem notMem_concat_cr (distinct : cr ≠ lf) {line : List α} (bare : Bare cr lf line) :
    lf ∉ line ++ [cr] := by
  simpa [bare.2] using distinct.symm

theorem lfLines_crlf (distinct : cr ≠ lf) {line : List α} (bare : Bare cr lf line) (rest : List α) :
    lfLines cr lf (line ++ ([cr, lf] ++ rest)) = line :: lfLines cr lf rest := by
  have regroup : line ++ ([cr, lf] ++ rest) = (line ++ [cr]) ++ lf :: rest := by simp
  rw [regroup, lfLines, splitInclusive_stop (notMem_concat_cr distinct bare), List.map_cons, chomp]
  simp [lfLines]

theorem lfLines_open {line : List α} (absent : lf ∉ line) (nonempty : line ≠ []) :
    lfLines cr lf line = [line] := by
  have notLf : line.getLast? ≠ some lf := fun last => absent (List.mem_of_getLast? last)
  rw [lfLines, splitInclusive_open absent nonempty, List.map_singleton, chomp, if_neg notLf]

/-- A line that is ended by `lf` loses one `cr` in front of it. -/
theorem lfLines_closed {line : List α} (absent : lf ∉ line) (rest : List α) :
    lfLines cr lf (line ++ lf :: rest) = line.dropEnd cr :: lfLines cr lf rest := by
  rw [lfLines, splitInclusive_stop absent, List.map_cons, chomp, if_pos List.getLast?_concat, List.dropLast_concat]
  rfl

/-- Lines without `lf` that are each followed by one are read back without one `cr` at their ends. -/
theorem lfLines_flatMap_lf (cr : α) {joined : List (List α)} (absent : ∀ line ∈ joined, lf ∉ line) :
    lfLines cr lf (joined.flatMap fun line => line ++ [lf]) = joined.map (List.dropEnd cr) := by
  induction joined with
  | nil => rfl
  | cons line joined ih =>
    obtain ⟨here, later⟩ := List.forall_mem_cons.mp absent
    rw [List.flatMap_cons, List.append_assoc, List.singleton_append, lfLines_closed here, ih later, List.map_cons]

/-- Followed by `cr lf`, they are read back as they are. -/
theorem lfLines_flatMap_crlf (distinct : cr ≠ lf) {joined : List (List α)} (absent : ∀ line ∈ joined, lf ∉ line) :
    lfLines cr lf (joined.flatMap fun line => line ++ [cr, lf]) = joined := by
  have closed : ∀ line ∈ joined.map (· ++ [cr]), lf ∉ line := by
    intro line member
    obtain ⟨front, listed, rfl⟩ := List.mem_map.mp member
    simpa [absent front listed] using distinct.symm
  have read := lfLines_flatMap_lf cr closed
  rw [List.flatMap_map, List.map_map] at read
  simpa [Function.comp_def, List.dropEnd_concat] using read

/-- A `cr` that ends no `cr lf` joins two lines into one for the line-feed reader. -/
theorem length_lfLines_cr (distinct : cr ≠ lf) {line rest : List α} (bare : Bare cr lf line)
    (nonempty : rest ≠ []) :
    (lfLines cr lf (line ++ ([cr] ++ rest))).length = (lfLines cr lf rest).length := by
  rw [← List.append_assoc, lfLines, lfLines, List.length_map, List.length_map,
    length_splitInclusive_append (notMem_concat_cr distinct bare) nonempty]

omit [DecidableEq α] in
@[simp] theorem crBeforeLf_nil : CrBeforeLf cr lf [] := by
  intro before after split
  simp at split

omit [DecidableEq α] in
theorem crBeforeLf_cons {symbol : α} {rest : List α} :
    CrBeforeLf cr lf (symbol :: rest) ↔ (symbol = cr → rest.head? = some lf) ∧ CrBeforeLf cr lf rest := by
  constructor
  · intro paired
    exact ⟨fun isCr => paired [] rest (isCr ▸ rfl),
      fun before after split => paired (symbol :: before) after (split ▸ rfl)⟩
  · rintro ⟨here, paired⟩ before after split
    cases before with
    | nil =>
      obtain ⟨rfl, rfl⟩ := List.cons.inj split
      exact here rfl
    | cons first before => exact paired before after (List.cons.inj split).2

omit [DecidableEq α] in
theorem crBeforeLf_bare {line : List α} (bare : Bare cr lf line) (rest : List α) :
    CrBeforeLf cr lf (line ++ rest) ↔ CrBeforeLf cr lf rest := by
  induction line with
  | nil => rfl
  | cons symbol line ih =>
    obtain ⟨notCr, _, bare⟩ := bare_cons.mp bare
    rw [List.cons_append, crBeforeLf_cons, ih bare, and_iff_right (fun isCr => absurd isCr notCr)]

omit [DecidableEq α] in
/-- Only a `cr` on its own breaks the pairing at a terminator. -/
theorem crBeforeLf_ending (distinct : cr ≠ lf) {ending : Ending} {rest : List α}
    (fits : ending.Fits lf rest) :
    CrBeforeLf cr lf (ending.symbols cr lf ++ rest) ↔ ending ≠ .cr ∧ CrBeforeLf cr lf rest := by
  cases ending with
  | lf => simp [Ending.symbols, crBeforeLf_cons, distinct.symm]
  | crlf => simp [Ending.symbols, crBeforeLf_cons, distinct.symm]
  | cr => simp [Ending.symbols, crBeforeLf_cons, fits.2 rfl]
  | eof => exact absurd rfl fits.1

/-- Both readings take one line off in front of a terminator other than a lone `cr`. -/
theorem lfLines_ending (distinct : cr ≠ lf) {line rest : List α} {ending : Ending}
    (bare : Bare cr lf line) (fits : ending.Fits lf rest) (notCr : ending ≠ .cr) :
    lfLines cr lf (line ++ (ending.symbols cr lf ++ rest)) = line :: lfLines cr lf rest := by
  cases ending with
  | lf => exact lfLines_lf bare rest
  | crlf => exact lfLines_crlf distinct bare rest
  | cr => exact absurd rfl notCr
  | eof => exact absurd rfl fits.1

/-- Lines that are each followed by a terminator other than a lone `cr` are read back. -/
theorem lfLines_flatMap (distinct : cr ≠ lf) {ending : Ending} (terminates : ending ≠ .eof) (notCr : ending ≠ .cr)
    {joined : List (List α)} (bare : ∀ line ∈ joined, Bare cr lf line) :
    lfLines cr lf (joined.flatMap fun line => line ++ ending.symbols cr lf) = joined := by
  induction joined with
  | nil => rfl
  | cons line joined ih =>
    have fits : ending.Fits lf (joined.flatMap fun line => line ++ ending.symbols cr lf) :=
      ⟨terminates, fun lone => absurd lone notCr⟩
    rw [List.flatMap_cons, List.append_assoc, lfLines_ending distinct (bare line List.mem_cons_self) fits notCr,
      ih fun other member => bare other (List.mem_cons_of_mem _ member)]

/-- Lines that are each followed by a lone `cr` are read back as one. -/
theorem lfLines_flatMap_cr (distinct : cr ≠ lf) {joined : List (List α)} (nonempty : joined ≠ [])
    (bare : ∀ line ∈ joined, Bare cr lf line) :
    lfLines cr lf (joined.flatMap fun line => line ++ [cr]) = [joined.flatMap fun line => line ++ [cr]] := by
  apply lfLines_open
  · intro member
    obtain ⟨line, present, inside⟩ := List.mem_flatMap.mp member
    exact notMem_concat_cr distinct (bare line present) inside
  · obtain ⟨line, joined, rfl⟩ := List.exists_cons_of_ne_nil nonempty
    simp

theorem length_lfLines_le (distinct : cr ≠ lf) (text : List α) :
    (lfLines cr lf text).length ≤ (lines cr lf text).length := by
  induction text using text_induction cr lf with
  | nil => exact le_rfl
  | tail line bare nonempty => rw [lfLines_open bare.2 nonempty, lines_tail bare nonempty]
  | cons line ending rest bare fits ih =>
    rw [lines_cons distinct bare fits]
    by_cases lone : ending = .cr
    · subst lone
      by_cases empty : rest = []
      · rw [Ending.symbols, empty, List.append_nil, lfLines_open (notMem_concat_cr distinct bare) (by simp)]
        exact Nat.le_add_left _ _
      · rw [Ending.symbols, length_lfLines_cr distinct bare empty]
        exact ih.trans (Nat.le_succ _)
    · rw [lfLines_ending distinct bare fits lone]
      exact Nat.succ_le_succ ih

/-- Behind a closed text whose every `cr` is paired, both readings start afresh. -/
theorem lines_append_closed (distinct : cr ≠ lf) {body : List α} (paired : CrBeforeLf cr lf body)
    (closed : lastText cr lf body = []) (more : List α) :
    lines cr lf (body ++ more) = lines cr lf body ++ lines cr lf more ∧
      lfLines cr lf (body ++ more) = lines cr lf body ++ lfLines cr lf more := by
  induction body using text_induction cr lf with
  | nil => exact ⟨rfl, rfl⟩
  | tail line bare nonempty => exact absurd ((lastText_bare bare).symm.trans closed) nonempty
  | cons line ending rest bare fits ih =>
    rw [crBeforeLf_bare bare, crBeforeLf_ending distinct fits] at paired
    rw [lastText_ending fits.1] at closed
    have fits_more : ending.Fits lf (rest ++ more) := ⟨fits.1, fun isCr => absurd isCr paired.1⟩
    obtain ⟨whole, cut⟩ := ih paired.2 closed
    rw [List.append_assoc, List.append_assoc, lines_cons distinct bare fits_more,
      lfLines_ending distinct bare fits_more paired.1, lines_cons distinct bare fits, whole, cut]
    exact ⟨rfl, rfl⟩

/-- The two readings agree when every `cr` belongs to a `cr lf`. -/
theorem lfLines_eq_lines (distinct : cr ≠ lf) {text : List α} (paired : CrBeforeLf cr lf text) :
    lfLines cr lf text = lines cr lf text := by
  induction text using text_induction cr lf with
  | nil => rfl
  | tail line bare nonempty => rw [lfLines_open bare.2 nonempty, lines_tail bare nonempty]
  | cons line ending rest bare fits ih =>
    rw [crBeforeLf_bare bare, crBeforeLf_ending distinct fits] at paired
    rw [lfLines_ending distinct bare fits paired.1, lines_cons distinct bare fits, ih paired.2]

/-- A `cr` that is in no `cr lf` costs the line-feed reader a line, unless it ends the text. -/
theorem lone_cr_cases (distinct : cr ≠ lf) {text : List α} (lone : ¬ CrBeforeLf cr lf text) :
    (lfLines cr lf text).length < (lines cr lf text).length ∨
      ∃ body line, text = body ++ (line ++ [cr]) ∧ Bare cr lf line ∧ CrBeforeLf cr lf body ∧
        lastText cr lf body = [] := by
  induction text using text_induction cr lf with
  | nil => exact absurd crBeforeLf_nil lone
  | tail line bare nonempty =>
    have paired := crBeforeLf_bare bare []
    rw [List.append_nil] at paired
    exact absurd (paired.mpr crBeforeLf_nil) lone
  | cons line ending rest bare fits ih =>
    by_cases isCr : ending = .cr
    · subst isCr
      by_cases empty : rest = []
      · exact .inr ⟨[], line, by rw [empty]; rfl, bare, crBeforeLf_nil, rfl⟩
      · rw [lines_cons distinct bare fits, Ending.symbols, length_lfLines_cr distinct bare empty]
        exact .inl (Nat.lt_succ_of_le (length_lfLines_le distinct rest))
    · rw [crBeforeLf_bare bare, crBeforeLf_ending distinct fits, and_iff_right isCr] at lone
      rcases ih lone with shorter | ⟨body, last, rfl, last_bare, paired, closed⟩
      · rw [lines_cons distinct bare fits, lfLines_ending distinct bare fits isCr]
        exact .inl (Nat.succ_lt_succ shorter)
      · have fits_body : ending.Fits lf body := ⟨fits.1, fun same => absurd same isCr⟩
        refine .inr ⟨line ++ (ending.symbols cr lf ++ body), last, ?_, last_bare, ?_, ?_⟩
        · simp only [List.append_assoc]
        · rw [crBeforeLf_bare bare, crBeforeLf_ending distinct fits_body]
          exact ⟨isCr, paired⟩
        · rw [lastText_ending fits.1]
          exact closed

end LineTerminators
