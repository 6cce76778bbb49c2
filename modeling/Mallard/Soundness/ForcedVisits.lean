import Mallard.Soundness.ForcedReload
import Mallard.Soundness.RepeatedSaves

/-! # Repeated saving with a forced encoding

A forced save ends every line, the last one too, and a forced load cuts at line feeds only. So no empty
lines wear off as on the plain path. With CRLF a file has its final shape behind the first visit. With LF
every visit takes one CR off the end of each line that has one. With CR the first save makes one line of
a file that has any, and every further visit makes it one CR longer, for ever; a file without a line
stays empty. All of this is for an encoding whose encoded texts decode together, which rules out UTF-16.
-/

namespace Mallard

open LineEditor LineTerminators

/-- What a forced load makes of lines that were saved. -/
def reread (choice : LineEnding) (lines : List String) : List String := strLines (terminated choice lines)

theorem lf_notMem_of_strLines {text line : String} (member : line ∈ strLines text) : '\n' ∉ line.toList := by
  obtain ⟨chars, present, rfl⟩ := List.mem_map.mp member
  rw [String.toList_ofList]
  exact lf_notMem_of_lfLines present

theorem terminated_singleton (choice : LineEnding) (line : String) :
    terminated choice [line] = line ++ choice.asStr := by
  rw [terminated, List.map_singleton, List.flatMap_singleton, String.ofList_toList]

section Rereading

variable {lines : List String}

theorem reread_lf (free : ∀ line ∈ lines, '\n' ∉ line.toList) :
    reread .lf lines = lines.map fun line => String.ofList (line.toList.dropEnd '\r') := by
  have read := lfLines_flatMap_lf '\r' (List.forall_mem_map.mpr free)
  rw [reread, strLines, toList_terminated]
  exact (congrArg (List.map String.ofList) read).trans (by simp only [List.map_map, Function.comp_def])

theorem reread_crlf (free : ∀ line ∈ lines, '\n' ∉ line.toList) : reread .crlf lines = lines := by
  have read := lfLines_flatMap_crlf cr_ne_lf (List.forall_mem_map.mpr free)
  rw [reread, strLines, toList_terminated]
  refine (congrArg (List.map String.ofList) read).trans ?_
  simp only [List.map_map, Function.comp_def, String.ofList_toList, List.map_id']

theorem lf_notMem_terminated_cr (free : ∀ line ∈ lines, '\n' ∉ line.toList) : '\n' ∉ (terminated .cr lines).toList := by
  rw [toList_terminated]
  intro member
  obtain ⟨chars, listed, inside⟩ := List.mem_flatMap.mp member
  obtain ⟨line, present, rfl⟩ := List.mem_map.mp listed
  rcases List.mem_append.mp inside with inside | inside
  · exact free line present inside
  · exact cr_ne_lf (List.mem_singleton.mp inside).symm

theorem reread_cr (nonempty : lines ≠ []) (free : ∀ line ∈ lines, '\n' ∉ line.toList) :
    reread .cr lines = [terminated .cr lines] := by
  have filled : (terminated .cr lines).toList ≠ [] := List.ne_nil_of_mem (cr_mem_terminated nonempty)
  rw [reread, strLines, lfLines_open (lf_notMem_terminated_cr free) filled, List.map_singleton, String.ofList_toList]

theorem reread_free (choice : LineEnding) : ∀ line ∈ reread choice lines, '\n' ∉ line.toList :=
  fun _ member => lf_notMem_of_strLines member

/-- No distinct lines are added. -/
theorem card_reread_le (choice : LineEnding) (free : ∀ line ∈ lines, '\n' ∉ line.toList) :
    (reread choice lines).toFinset.card ≤ lines.toFinset.card := by
  cases choice with
  | lf =>
    have image : (reread .lf lines).toFinset =
        lines.toFinset.image fun line => String.ofList (line.toList.dropEnd '\r') := by
      rw [reread_lf free]
      ext
      simp
    rw [image]
    exact Finset.card_image_le
  | crlf => rw [reread_crlf free]
  | cr =>
    by_cases empty : lines = []
    · subst empty
      exact le_rfl
    · rw [reread_cr empty free, List.toFinset_cons, List.toFinset_nil, insert_empty_eq, Finset.card_singleton]
      exact Finset.card_pos.mpr (List.toFinset_nonempty_iff lines |>.mpr empty)

theorem iterate_reread_free (choice : LineEnding) (free : ∀ line ∈ lines, '\n' ∉ line.toList) (count : ℕ) :
    ∀ line ∈ (reread choice)^[count] lines, '\n' ∉ line.toList := by
  cases count with
  | zero => exact free
  | succ count =>
    rw [Function.iterate_succ_apply']
    exact reread_free choice

theorem card_iterate_reread_le (choice : LineEnding) (free : ∀ line ∈ lines, '\n' ∉ line.toList) (count : ℕ) :
    ((reread choice)^[count] lines).toFinset.card ≤ lines.toFinset.card := by
  induction count with
  | zero => exact le_rfl
  | succ count ih =>
    rw [Function.iterate_succ_apply']
    exact (card_reread_le choice (iterate_reread_free choice free count)).trans ih

/-- The text of a forced file that held lines, behind a number of visits and one more. -/
def visitedText (choice : LineEnding) (count : ℕ) (lines : List String) : String :=
  match choice with
  | .lf =>
    terminated .lf (lines.map fun line =>
      String.ofList (line.toList.rdrop (min count (line.toList.rtakeWhile fun ch => ch = '\r').length)))
  | .crlf => terminated .crlf lines
  | .cr => if lines = [] then "" else terminated .cr lines ++ String.ofList (List.replicate count '\r')

theorem iterate_reread_lf (free : ∀ line ∈ lines, '\n' ∉ line.toList) (count : ℕ) :
    (reread .lf)^[count] lines = lines.map fun line => String.ofList ((List.dropEnd '\r')^[count] line.toList) := by
  induction count generalizing lines with
  | zero => simp only [Function.iterate_zero_apply, String.ofList_toList, List.map_id']
  | succ count ih =>
    rw [Function.iterate_succ_apply, ih (reread_free .lf), reread_lf free, List.map_map]
    simp only [Function.comp_def, String.toList_ofList, Function.iterate_succ_apply]

theorem append_cr (text : String) (count : ℕ) : text ++ String.ofList (List.replicate count '\r') ++ LineEnding.cr.asStr =
    text ++ String.ofList (List.replicate (count + 1) '\r') := by
  rw [List.replicate_succ', String.ofList_append, String.append_assoc]
  rfl

theorem iterate_reread_cr (nonempty : lines ≠ []) (free : ∀ line ∈ lines, '\n' ∉ line.toList) (count : ℕ) :
    (reread .cr)^[count + 1] lines = [terminated .cr lines ++ String.ofList (List.replicate count '\r')] := by
  induction count with
  | zero => simpa using reread_cr nonempty free
  | succ count ih =>
    have single := iterate_reread_free .cr free (count + 1)
    rw [Function.iterate_succ_apply', ih, reread_cr (List.cons_ne_nil _ _) (ih ▸ single), terminated_singleton,
      append_cr]

theorem terminated_iterate (choice : LineEnding) (free : ∀ line ∈ lines, '\n' ∉ line.toList) (count : ℕ) :
    terminated choice ((reread choice)^[count] lines) = visitedText choice count lines := by
  cases choice with
  | lf => simp only [iterate_reread_lf free, List.iterate_dropEnd, visitedText]
  | crlf => rw [Function.iterate_fixed (reread_crlf free), visitedText]
  | cr =>
    rw [visitedText]
    by_cases empty : lines = []
    · subst empty
      rw [if_pos rfl, Function.iterate_fixed rfl]
      rfl
    · rw [if_neg empty]
      cases count with
      | zero => simp
      | succ count => rw [iterate_reread_cr empty free, terminated_singleton, append_cr]

end Rereading

/-- The lines are accepted, can all be encoded with their terminators, and do not look marked. -/
structure Survives (encoding : Encoding) (choice : LineEnding) (lines : List String) : Prop where
  accepted : ∀ line ∈ lines, Accepts (some (forcedEncodingValidator encoding)) line
  encodes : ∀ line ∈ lines, encoding.Encodes (line ++ choice.asStr)
  unmarked : ¬ StartsWithBom (savedChunks choice.asStr lines (some encoding)).flatten

section Visits

variable {encoding : Encoding} {lines : List String}

/-- Saved lines that survive are decoded as the text of the terminated lines. -/
theorem Survives.decode (decodes : encoding.DecodesChunks) {choice : LineEnding}
    (survives : Survives encoding choice lines) :
    encoding.decode (savedChunks choice.asStr lines (some encoding)).flatten = (terminated choice lines, false) := by
  have whole : encodableLines encoding choice.asStr lines = lines :=
    List.takeWhile_eq_self_iff.mpr fun line member => decide_eq_true (survives.encodes line member)
  have chunks : (savedChunks choice.asStr lines (some encoding)).flatten =
      (lines.map (· ++ choice.asStr)).flatMap fun text => (encoding.encodeAll text).2 := by
    rw [savedChunks, whole, encodedChunks, List.flatMap_map, List.flatMap_def]
  have unmarked := survives.unmarked
  rw [chunks] at unmarked ⊢
  exact decodes _ (List.forall_mem_map.mpr survives.encodes) unmarked

/-- A forced load cuts at every line feed. -/
theorem lf_notMem_of_mem_decodedLines {disk : Disk} {path line : String}
    (decoded : decodedLines disk path (some encoding) = some lines) (member : line ∈ lines) : '\n' ∉ line.toList := by
  rw [decodedLines] at decoded
  split at decoded
  case h_1 => cases decoded
  case h_2 =>
    obtain ⟨_, read⟩ := Option.ite_none_left_eq_some.mp decoded
    cases read
    exact lf_notMem_of_strLines member

variable [Digests] {args : Args} {path : String} {around : Surroundings} {delivery : Delivery}

/-- An idle visit with a save ends every line of the file, and the next load gives the lines reread. -/
theorem forced_visit (file : args.file = some path) (there : around.pathExists path)
    (resolved : resolveEncoding around args.forceEncoding = .ok (some encoding)) (decodes : encoding.DecodesChunks)
    (usable : around.disk.Usable path) (decoded : decodedLines around.disk path (some encoding) = some lines)
    (survives : Survives encoding args.lineEnding lines) (few : lines.toFinset.card ≤ idCount)
    (commands : openCommands around args.inputFile = .ok delivery) (idle : Idle delivery.script)
    (saves : path ∈ (args.context (some encoding)).targets delivery.script) :
    ∃ ending bytes, main args around = .ok ending ∧ ending.disk.Usable path ∧ ending.disk.contents path = some bytes ∧
      encoding.decode bytes = (terminated args.lineEnding lines, false) := by
  have kept : (lines.filter fun line => Accepts (some (forcedEncodingValidator encoding)) line) = lines :=
    List.filter_eq_self.mpr fun line member => decide_eq_true (survives.accepted line member)
  have opened : (openedFile around (some encoding) args.file).2 = lines := by
    rw [file, openedFile, if_pos there, loadedLines, decoded]
    exact kept
  obtain ⟨ending, ran, usable, contents⟩ := main_visit resolved usable (opened ▸ few) commands idle saves
  rw [opened] at contents
  exact ⟨ending, _, ran, usable, contents, survives.decode decodes⟩

/-- Behind some visits and one more, the file holds the lines as often reread, with their terminators. -/
theorem visits_reread (file : args.file = some path) (there : around.pathExists path)
    (resolved : resolveEncoding around args.forceEncoding = .ok (some encoding)) (decodes : encoding.DecodesChunks)
    (commands : openCommands around args.inputFile = .ok delivery) (idle : Idle delivery.script)
    (saves : path ∈ (args.context (some encoding)).targets delivery.script) (count : ℕ) {disk : Disk}
    (usable : disk.Usable path) (decoded : decodedLines disk path (some encoding) = some lines)
    (few : lines.toFinset.card ≤ idCount)
    (survives : ∀ before ≤ count, Survives encoding args.lineEnding ((reread args.lineEnding)^[before] lines)) :
    ∃ final bytes, visits args around (count + 1) disk = .ok final ∧ final.contents path = some bytes ∧
      encoding.decode bytes = (terminated args.lineEnding ((reread args.lineEnding)^[count] lines), false) := by
  have free : ∀ line ∈ lines, '\n' ∉ line.toList := fun _ member => lf_notMem_of_mem_decodedLines decoded member
  have visited := @visits_induction _ args around
    (fun before disk => disk.Usable path ∧
      decodedLines disk path (some encoding) = some ((reread args.lineEnding)^[before] lines))
    (fun before disk => disk.Usable path ∧ ∃ bytes, disk.contents path = some bytes ∧
      encoding.decode bytes = (terminated args.lineEnding ((reread args.lineEnding)^[before] lines), false))
    count ?_ ?_ disk ⟨usable, decoded⟩
  · obtain ⟨final, ran, _, bytes, held, read⟩ := visited
    exact ⟨final, bytes, ran, held, read⟩
  · rintro before within disk ⟨usable, decoded⟩
    obtain ⟨ending, bytes, ran, usable', contents, decode⟩ :=
      @forced_visit encoding _ _ args path { around with disk } delivery file there resolved decodes usable decoded
        (survives before within) ((card_iterate_reread_le _ free before).trans few) commands idle saves
    exact ⟨ending, ran, usable', bytes, contents, decode⟩
  · rintro before _ disk ⟨usable, bytes, contents, decode⟩
    refine ⟨usable, ?_⟩
    rw [Function.iterate_succ_apply']
    simp only [decodedLines, Disk.read, usable.readable, contents, decode]
    rfl

/-- A file that is opened with a forced encoding, saved unchanged and left again and again, as long as the lines
survive: with LF each visit behind the first takes a CR off the end of every line that has one, with CRLF the
first visit is the last one to change anything, and with CR a file that has a line gets one CR longer every time. -/
theorem main_visits_forced (file : args.file = some path) (there : around.pathExists path)
    (resolved : resolveEncoding around args.forceEncoding = .ok (some encoding)) (decodes : encoding.DecodesChunks)
    (usable : around.disk.Usable path) (decoded : decodedLines around.disk path (some encoding) = some lines)
    (few : lines.toFinset.card ≤ idCount) (commands : openCommands around args.inputFile = .ok delivery)
    (idle : Idle delivery.script) (saves : path ∈ (args.context (some encoding)).targets delivery.script) (count : ℕ)
    (survives : ∀ before ≤ count, Survives encoding args.lineEnding ((reread args.lineEnding)^[before] lines)) :
    ∃ final bytes, visits args around (count + 1) around.disk = .ok final ∧ final.contents path = some bytes ∧
      encoding.decode bytes = (visitedText args.lineEnding count lines, false) := by
  have free : ∀ line ∈ lines, '\n' ∉ line.toList := fun _ member => lf_notMem_of_mem_decodedLines decoded member
  rw [← terminated_iterate args.lineEnding free]
  exact visits_reread file there resolved decodes commands idle saves count usable decoded few survives

end Visits

section Samples

attribute [local instance] sampleDigests

/-- A file that is read and written as UTF-8. -/
def utf8Surroundings (text typed : String) : Surroundings :=
  { sampleSurroundings text typed with forLabel := fun _ => some utf8Encoding }

/-- Two lines become one, and three visits leave three terminators behind it. -/
theorem sample_visits_forced : ∃ final bytes,
    visits ⟨some "f", none, none, .cr, some "utf-8"⟩ (utf8Surroundings "a\r\nb" "s\nq") 3
        (utf8Surroundings "a\r\nb" "s\nq").disk = .ok final ∧
      final.contents "f" = some bytes ∧ utf8Encoding.decode bytes = ("a\rb\r\r\r", false) := by
  have unmarked : ∀ before ≤ 2, ¬ StartsWithBom
      (savedChunks LineEnding.cr.asStr ((reread .cr)^[before] ["a", "b"]) (some utf8Encoding)).flatten := by
    unfold StartsWithBom
    decide +kernel
  have survives : ∀ before ≤ 2, Survives utf8Encoding .cr ((reread .cr)^[before] ["a", "b"]) := fun before within =>
    ⟨fun line _ => utf8Encoding_isUtf8.accepts line, fun line _ => utf8Encoding_isUtf8.encode _, unmarked before within⟩
  obtain ⟨final, bytes, visited, held, read⟩ := @main_visits_forced utf8Encoding ["a", "b"] _
    ⟨some "f", none, none, .cr, some "utf-8"⟩ "f" (utf8Surroundings "a\r\nb" "s\nq") _ rfl rfl rfl
    utf8Encoding_decodesChunks ⟨rfl, rfl, rfl⟩ (by decide +kernel) (by decide +kernel) rfl (by decide +kernel)
    (by decide +kernel) 2 survives
  refine ⟨final, bytes, visited, held, read.trans ?_⟩
  decide +kernel

end Samples

end Mallard
