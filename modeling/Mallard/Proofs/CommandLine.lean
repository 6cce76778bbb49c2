import Mallard.Machine.LineEditor
import Mallard.Model.Medlin.Commands

/-! # Reading command lines

medlin's `trim_end_matches` and `splitn` give the words of a command line, and its line numbers are
those of the editor with the limit `usize::MAX`: the digit loop checks every step, but the value only
grows, so the steps fit exactly when the result does.
-/

namespace Mallard

open LineEditor

theorem splitn_succ (limit : ℕ) (text : List Char) :
    splitn (limit + 2) ' ' text =
      match cut text with
      | (part, none) => [part]
      | (part, some rest) => part :: splitn (limit + 1) ' ' rest := by
  rw [splitn, List.span_eq_takeWhile_dropWhile, cut]
  cases found : text.dropWhile fun c => c ≠ ' ' with
  | nil =>
    have whole := List.takeWhile_append_dropWhile (p := fun c => decide (c ≠ ' ')) (l := text)
    rw [found, List.append_nil] at whole
    rw [whole]
  | cons space rest => rfl

/-- The tokens of a command line are its words. -/
theorem tokens_eq (line : String) :
    tokens line = (words line).command :: ((words line).number.toList ++ (words line).text.toList) := by
  rw [tokens, splitn_succ, trimEndMatches, String.toList_ofList, words]
  cases cut (line.toList.rdropWhile fun c => c ∈ [' ', '\t', '\r', '\n']) with
  | mk command rest =>
    cases rest with
    | none => rfl
    | some rest =>
      simp only [splitn_succ]
      cases cut rest with
      | mk number text => cases text <;> rfl

theorem text_of_number_none {line : String} (missing : (words line).number = none) :
    (words line).text = none := by
  rw [words] at missing ⊢
  split
  · rfl
  · next found =>
    rw [found] at missing
    contradiction

theorem cut_suffix {text part rest : List Char} (found : cut text = (part, some rest)) : rest <:+ text := by
  rw [cut] at found
  split at found
  · cases found
  · next space more behind =>
    cases found
    exact (List.suffix_cons _ _).trans (behind ▸ List.dropWhile_suffix _)

/-- The text of a command line consists of characters of the line. -/
theorem mem_line_of_text {line text : String} (found : (words line).text = some text) :
    ∀ c ∈ text.toList, c ∈ line.toList := by
  intro c member
  rw [words] at found
  split at found
  · cases found
  · next command rest first =>
    obtain ⟨chars, second, rfl⟩ := Option.map_eq_some_iff.mp found
    rw [String.toList_ofList] at member
    have inner := (cut_suffix (Prod.ext rfl second)).subset member
    exact (List.rdropWhile_prefix _ _).subset ((cut_suffix first).subset inner)

/-- The text that a command line asks to store is its text, or empty. -/
theorem request_text {limit : ℕ} {line text : String} {number : ℕ+}
    (asked : request limit line = .insert number text ∨ request limit line = .replace number text) :
    text = (words line).text.getD "" := by
  rw [request, Words.request] at asked
  split at asked
  · rcases asked with ⟨⟨⟩⟩ | ⟨⟨⟩⟩
    rfl
  · rcases asked with ⟨⟨⟩⟩ | ⟨⟨⟩⟩
    rfl
  all_goals rcases asked with ⟨⟨⟩⟩ | ⟨⟨⟩⟩

/-- The text that a command line asks to store consists of characters of the line. -/
theorem mem_line_of_request {limit : ℕ} {line text : String} {number : ℕ+}
    (asked : request limit line = .insert number text ∨ request limit line = .replace number text) :
    ∀ c ∈ text.toList, c ∈ line.toList := by
  intro c member
  rw [request_text asked] at member
  cases found : (words line).text with
  | none =>
    rw [found] at member
    exact absurd member (by simp)
  | some stored =>
    rw [found] at member
    exact mem_line_of_text found c member

/-- What a command line brings into the history consists of characters of the line. -/
theorem mem_line_of_introduced {accepts : String → Prop} [DecidablePred accepts] {texts : Timeline (List String)}
    {limit : ℕ} {line text : String} (brought : text ∈ introduced accepts texts (request limit line)) :
    ∀ c ∈ text.toList, c ∈ line.toList := by
  cases asked : request limit line with
  | insert number stored =>
    rw [asked] at brought
    obtain ⟨_, same⟩ := List.mem_ite_nil_right.mp brought
    exact mem_line_of_request (.inl (List.mem_singleton.mp same ▸ asked))
  | replace number stored =>
    rw [asked] at brought
    obtain ⟨_, same⟩ := List.mem_ite_nil_right.mp brought
    exact mem_line_of_request (.inr (List.mem_singleton.mp same ▸ asked))
  | delete | undo | redo | quit | nothing =>
    rw [asked] at brought
    exact absurd brought List.not_mem_nil

theorem cut_of_notMem {word : List Char} (unspaced : ' ' ∉ word) : cut word = (word, none) := by
  have all : word.dropWhile (fun c => c ≠ ' ') = [] :=
    List.dropWhile_eq_nil_iff.mpr fun c member => decide_eq_true (ne_of_mem_of_not_mem member unspaced)
  rw [cut, all]

theorem cut_append {word : List Char} (unspaced : ' ' ∉ word) (rest : List Char) :
    cut (word ++ ' ' :: rest) = (word, some rest) := by
  have all : ∀ c ∈ word, decide (c ≠ ' ') := fun c member => decide_eq_true (ne_of_mem_of_not_mem member unspaced)
  rw [cut, List.dropWhile_append_of_pos all, List.takeWhile_append_of_pos all]
  simp

/-- The words of a command and an argument without spaces or blanks at its end. -/
theorem words_argument {command argument : List Char} (single : ' ' ∉ command) (unspaced : ' ' ∉ argument)
    (nonempty : argument ≠ []) (last : argument.rdropWhile (fun c => c ∈ [' ', '\t', '\r', '\n']) = argument) :
    words (String.ofList (command ++ ' ' :: argument)) =
      ⟨String.ofList command, some (String.ofList argument), none⟩ := by
  have kept := List.rdropWhile_append_word nonempty last (command ++ [' '])
  rw [List.append_assoc, List.singleton_append] at kept
  rw [words, String.toList_ofList, kept, cut_append single]
  dsimp only
  rw [cut_of_notMem unspaced]
  rfl

/-- The words of a command, an argument and a text: the text is trimmed, and missing when nothing is left. -/
theorem words_text {command argument : List Char} (single : ' ' ∉ command) (unspaced : ' ' ∉ argument)
    (nonempty : argument ≠ []) (last : argument.rdropWhile (fun c => c ∈ [' ', '\t', '\r', '\n']) = argument)
    (text : List Char) :
    words (String.ofList (command ++ ' ' :: argument ++ ' ' :: text)) =
      ⟨String.ofList command, some (String.ofList argument),
        if text.rdropWhile (fun c => c ∈ [' ', '\t', '\r', '\n']) = [] then none
        else some (String.ofList (text.rdropWhile fun c => c ∈ [' ', '\t', '\r', '\n']))⟩ := by
  have kept := List.rdropWhile_append_word nonempty last (command ++ [' '])
  rw [List.append_assoc, List.singleton_append] at kept
  rw [words, String.toList_ofList, List.rdropWhile_append kept, List.rdropWhile_cons]
  by_cases blank : text.rdropWhile (fun c => c ∈ [' ', '\t', '\r', '\n']) = []
  · have space : [' '].rdropWhile (fun c => c ∈ [' ', '\t', '\r', '\n']) = [] := by decide
    rw [if_pos blank, if_pos blank, space, List.append_nil, cut_append single]
    dsimp only
    rw [cut_of_notMem unspaced]
    rfl
  · rw [if_neg blank, if_neg blank, List.append_assoc, List.cons_append, cut_append single]
    dsimp only
    rw [cut_append unspaced]
    rfl

theorem le_ofDigitChars (digits : List Char) (value : ℕ) : value ≤ Nat.ofDigitChars 10 digits value := by
  rw [Nat.ofDigitChars_eq_ofDigitChars_zero]
  exact (Nat.le_mul_of_pos_left value (Nat.pow_pos (by decide))).trans (Nat.le_add_right _ _)

/-- The checked digit loop computes the value of the digits, if it fits. -/
theorem parseDigits_eq {value : ℕ} (fits : value ≤ usizeMax) (digits : List Char) :
    parseDigits value digits =
      if digits.all Char.isDigit ∧ Nat.ofDigitChars 10 digits value ≤ usizeMax then
        some (Nat.ofDigitChars 10 digits value)
      else none := by
  induction digits generalizing value with
  | nil => simp [parseDigits, fits]
  | cons digit rest ih =>
    rw [parseDigits, Nat.ofDigitChars_cons, Nat.mul_comm 10 value, List.all_cons]
    split
    · next checks => simp only [ih checks.2.2, checks.2.1, Bool.true_and]
    · next fails =>
      rw [if_neg]
      rintro ⟨allDigits, total⟩
      have sum := (le_ofDigitChars rest _).trans total
      exact fails ⟨(Nat.le_add_right _ _).trans sum, (Bool.and_eq_true_iff.mp allDigits).1, sum⟩

/-- A sign is skipped, and what is left must not be empty. -/
theorem parseUsize_eq (token : String) :
    parseUsize token =
      if (if token.toList.head? = some '+' then token.toList.tail else token.toList) = [] then none
      else parseDigits 0 (if token.toList.head? = some '+' then token.toList.tail else token.toList) := by
  rw [parseUsize]
  split
  · next empty => simp [empty]
  · next sign => simp [sign]
  · next sign =>
    simp only [sign]
    decide
  · next digits single signed =>
    have more : digits ≠ [] := fun empty => single empty
    simp [signed, more]
  · next digits nonempty _ _ unsigned =>
    have first : token.toList.head? ≠ some '+' := by
      intro signed
      obtain ⟨rest, split⟩ := List.head?_eq_some_iff.mp signed
      exact unsigned rest split
    rw [if_neg first, if_neg nonempty]

/-- Parsing a line number gives its index, and a report for any other token. -/
theorem parseLineNumber_eq (token : String) :
    match lineNumber? usizeMax token with
    | some number => parseLineNumber token = .ok number.natPred ∧ (number : ℕ) ≤ usizeMax
    | none => ∃ report, parseLineNumber token = .error report := by
  rw [lineNumber?, parseLineNumber, parseUsize_eq, parseDigits_eq (Nat.zero_le _)]
  generalize (if token.toList.head? = some '+' then token.toList.tail else token.toList) = digits
  by_cases empty : digits = []
  · subst empty
    simp
  · rw [if_neg empty]
    by_cases valid : digits.all Char.isDigit ∧ Nat.ofDigitChars 10 digits 0 ≤ usizeMax
    · rw [if_pos valid]
      generalize Nat.ofDigitChars 10 digits 0 = value at valid
      cases value with
      | zero => exact ⟨_, rfl⟩
      | succ index =>
        rw [dif_pos (Nat.succ_pos index), if_pos valid]
        exact ⟨rfl, valid.2⟩
    · rw [if_neg valid]
      simp only [valid, if_false, dite_eq_ite, ite_self]
      exact ⟨_, rfl⟩

theorem isDigit_of_mem_toString {number : ℕ} {c : Char} (member : c ∈ (toString number).toList) : c.isDigit := by
  rw [Nat.toString_eq_repr, Nat.toList_repr] at member
  exact Nat.isDigit_of_mem_toDigits (by decide) (by decide) member

theorem toString_ne_nil (number : ℕ) : (toString number).toList ≠ [] := by
  rw [Nat.toString_eq_repr, Nat.toList_repr]
  exact Nat.toDigits_ne_nil

/-- A number in decimal is one word, without blanks. -/
theorem unspaced_toString (number : ℕ) : ' ' ∉ (toString number).toList :=
  fun space => absurd (isDigit_of_mem_toString space) (by decide)

theorem rdropWhile_toString (number : ℕ) :
    (toString number).toList.rdropWhile (fun c => c ∈ [' ', '\t', '\r', '\n']) = (toString number).toList := by
  rw [List.rdropWhile_eq_self_iff]
  intro nonempty blank
  have digit := isDigit_of_mem_toString (List.getLast_mem nonempty)
  generalize (toString number).toList.getLast nonempty = c at blank digit
  have among : c ∈ [' ', '\t', '\r', '\n'] := of_decide_eq_true blank
  simp only [List.mem_cons, List.not_mem_nil, or_false] at among
  rcases among with rfl | rfl | rfl | rfl <;> exact absurd digit (by decide)

/-- A number in decimal is read as itself. -/
theorem lineNumber?_toString {limit : ℕ} {number : ℕ+} (bound : (number : ℕ) ≤ limit) :
    lineNumber? limit (toString (number : ℕ)) = some number := by
  have unsigned : (toString (number : ℕ)).toList.head? ≠ some '+' := by
    intro signed
    exact absurd (isDigit_of_mem_toString (List.mem_of_mem_head? signed)) (by decide)
  have value : Nat.ofDigitChars 10 (toString (number : ℕ)).toList 0 = number := by
    rw [Nat.toString_eq_repr, Nat.toList_repr, Nat.ofDigitChars_ten_toDigits]
  have digits : (toString (number : ℕ)).toList.all Char.isDigit :=
    List.all_eq_true.mpr fun c member => isDigit_of_mem_toString member
  rw [lineNumber?, if_neg unsigned]
  simp only [value, digits, bound, number.pos, dif_pos, true_and, if_true]
  rfl

theorem parseLineNumber_toString {number : ℕ+} (bound : (number : ℕ) ≤ usizeMax) :
    parseLineNumber (toString (number : ℕ)) = .ok number.natPred := by
  have parsed := parseLineNumber_eq (toString (number : ℕ))
  rw [lineNumber?_toString bound] at parsed
  exact parsed.1

end Mallard
