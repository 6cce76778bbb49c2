import Mallard.Model.Core.Rust

/-! # Character boundaries of UTF-8

A text sliced where a character begins or ends gives the characters between the two places. The
terminators are single bytes, and no byte of any other character looks like one of them: a character
above ASCII has only bytes from `0x80` on.
-/

namespace Mallard

/-- The encoding of a sequence of characters. -/
def utf8 (chars : List Char) : List UInt8 := chars.flatMap String.utf8EncodeChar

@[simp] theorem utf8_nil : utf8 [] = [] := rfl

@[simp] theorem utf8_cons (c : Char) (chars : List Char) :
    utf8 (c :: chars) = String.utf8EncodeChar c ++ utf8 chars := rfl

@[simp] theorem utf8_append (left right : List Char) : utf8 (left ++ right) = utf8 left ++ utf8 right :=
  List.flatMap_append

theorem asBytes_eq (text : String) : asBytes text = utf8 text.toList := rfl

theorem asBytes_ofList (chars : List Char) : asBytes (String.ofList chars) = utf8 chars := by
  rw [asBytes_eq, String.toList_ofList]

private theorem toByteArray_asBytes (text : String) : (⟨(asBytes text).toArray⟩ : ByteArray) = text.toByteArray := by
  rw [← String.utf8Encode_toList]
  exact ByteArray.ext List.data_toByteArray.symm

theorem fromUtf8_asBytes (text : String) : fromUtf8 (asBytes text) = some text := by
  rw [fromUtf8, toByteArray_asBytes]
  exact dif_pos text.isValidUTF8

theorem fromUtf8_utf8 (chars : List Char) : fromUtf8 (utf8 chars) = some (String.ofList chars) := by
  rw [← asBytes_ofList, fromUtf8_asBytes]

/-- Decoding is the inverse of encoding. -/
theorem asBytes_of_fromUtf8 {bytes : List UInt8} {text : String} (decoded : fromUtf8 bytes = some text) :
    asBytes text = bytes := by
  rw [fromUtf8, String.fromUTF8?] at decoded
  split at decoded
  · cases decoded
    have same : (⟨(asBytes (String.fromUTF8 ⟨bytes.toArray⟩ ‹_›)).toArray⟩ : ByteArray) = ⟨bytes.toArray⟩ :=
      toByteArray_asBytes _
    exact Array.toList_inj.mpr (ByteArray.ext_iff.mp same)
  · cases decoded

/-- A character begins with a byte that continues no other character. -/
theorem utf8EncodeChar_head (c : Char) :
    ∃ first more, String.utf8EncodeChar c = first :: more ∧ (first < 0x80 ∨ 0xC0 ≤ first) := by
  have scalar := c.val.toNat_lt
  fun_cases String.utf8EncodeChar c with
  | case1 value ascii =>
    refine ⟨_, _, rfl, .inl ?_⟩
    rw [UInt8.lt_iff_toNat_lt, UInt8.toNat_ofNat']
    have small : value ≤ 127 := ascii
    have bound : (0x80 : UInt8).toNat = 128 := rfl
    omega
  | case2 value | case3 value | case4 value =>
    refine ⟨_, _, rfl, .inr ?_⟩
    rw [UInt8.le_iff_toNat_le, UInt8.toNat_ofNat']
    have bound : (0xC0 : UInt8).toNat = 192 := rfl
    omega

theorem utf8EncodeChar_ascii {c : Char} (ascii : c.toNat < 128) :
    String.utf8EncodeChar c = [UInt8.ofNat c.toNat] :=
  if_pos (Nat.le_of_lt_succ ascii)

/-- Every byte of a character above ASCII is above ASCII. -/
theorem le_of_mem_utf8EncodeChar {c : Char} (above : 128 ≤ c.toNat) {byte : UInt8}
    (member : byte ∈ String.utf8EncodeChar c) : 0x80 ≤ byte := by
  have bound : (0x80 : UInt8).toNat = 128 := rfl
  rw [UInt8.le_iff_toNat_le, bound]
  have notAscii : ¬ c.val.toNat ≤ 127 := Nat.not_le.mpr above
  have scalar := c.val.toNat_lt
  rw [String.utf8EncodeChar, if_neg notAscii] at member
  split_ifs at member with twoBytes threeBytes
  · simp only [List.mem_cons, List.not_mem_nil, or_false] at member
    rcases member with rfl | rfl <;> rw [UInt8.toNat_ofNat'] <;> omega
  · simp only [List.mem_cons, List.not_mem_nil, or_false] at member
    rcases member with rfl | rfl | rfl <;> rw [UInt8.toNat_ofNat'] <;> omega
  · simp only [List.mem_cons, List.not_mem_nil, or_false] at member
    rcases member with rfl | rfl | rfl | rfl <;> rw [UInt8.toNat_ofNat'] <;> omega

/-- The bytes of a text are ASCII exactly when its characters are. -/
theorem utf8_ascii_iff (chars : List Char) : (∀ byte ∈ utf8 chars, byte < 0x80) ↔ ∀ c ∈ chars, c.toNat < 128 := by
  constructor
  · intro ascii c member
    by_contra above
    obtain ⟨first, more, spelled, _⟩ := utf8EncodeChar_head c
    have leads : first ∈ String.utf8EncodeChar c := spelled ▸ List.mem_cons_self
    have small := ascii first (List.mem_flatMap.mpr ⟨c, member, leads⟩)
    exact UInt8.not_lt.mpr (le_of_mem_utf8EncodeChar (Nat.not_lt.mp above) leads) small
  · intro ascii byte member
    obtain ⟨c, listed, part⟩ := List.mem_flatMap.mp member
    have small := ascii c listed
    rw [utf8EncodeChar_ascii small, List.mem_singleton] at part
    have bound : (0x80 : UInt8).toNat = 128 := rfl
    rw [part, UInt8.lt_iff_toNat_lt, UInt8.toNat_ofNat', bound]
    omega

/-- ASCII bytes encode the characters that they number. -/
theorem utf8_map_ofUInt8 {bytes : List UInt8} (ascii : ∀ byte ∈ bytes, byte < 0x80) :
    utf8 (bytes.map Char.ofUInt8) = bytes := by
  induction bytes with
  | nil => rfl
  | cons byte bytes ih =>
    obtain ⟨small, rest⟩ := List.forall_mem_cons.mp ascii
    have number : (Char.ofUInt8 byte).toNat = byte.toNat := UInt8.toNat_toUInt32 byte
    have value : (Char.ofUInt8 byte).toNat < 128 := number ▸ UInt8.lt_iff_toNat_lt.mp small
    rw [List.map_cons, utf8_cons, ih rest, utf8EncodeChar_ascii value, number, UInt8.ofNat_toNat]
    rfl

/-- A character other than a given ASCII character has no byte equal to it. -/
theorem notMem_utf8EncodeChar {c : Char} (ascii : Char) (isAscii : ascii.toNat < 128) (differs : c ≠ ascii) :
    UInt8.ofNat ascii.toNat ∉ String.utf8EncodeChar c := by
  intro member
  by_cases small : c.toNat < 128
  · rw [utf8EncodeChar_ascii small, List.mem_singleton] at member
    have values := congrArg UInt8.toNat member
    rw [UInt8.toNat_ofNat', UInt8.toNat_ofNat'] at values
    have same : c.toNat = ascii.toNat := by omega
    exact differs (Char.toNat_inj.mp same)
  · have above := le_of_mem_utf8EncodeChar (Nat.not_lt.mp small) member
    rw [UInt8.le_iff_toNat_le, UInt8.toNat_ofNat'] at above
    have bound : (0x80 : UInt8).toNat = 128 := rfl
    omega

/-- An ASCII byte of a text is a whole character of it, with whole characters on both sides. -/
theorem utf8_eq_append_cons {ascii : Char} (isAscii : ascii.toNat < 128) {chars : List Char} {left right : List UInt8}
    (split : utf8 chars = left ++ UInt8.ofNat ascii.toNat :: right) :
    ∃ before after, chars = before ++ ascii :: after ∧ utf8 before = left ∧ utf8 after = right := by
  induction chars generalizing left with
  | nil => simp at split
  | cons c chars ih =>
    rw [utf8_cons] at split
    rcases List.append_eq_append_iff.mp split with ⟨more, rfl, later⟩ | ⟨more, spelled, later⟩
    · obtain ⟨before, after, rfl, rfl, rfl⟩ := ih later
      exact ⟨c :: before, after, rfl, rfl, rfl⟩
    · cases more with
      | nil =>
        -- The character ends in front of the byte.
        have behind : utf8 chars = [] ++ UInt8.ofNat ascii.toNat :: right := later.symm
        obtain ⟨before, after, rfl, empty, rfl⟩ := ih behind
        refine ⟨c :: before, after, rfl, ?_, rfl⟩
        rw [utf8_cons, empty, List.append_nil, spelled, List.append_nil]
      | cons byte more =>
        obtain ⟨rfl, rfl⟩ := List.cons.inj later
        have same : c = ascii := by
          by_contra differs
          exact notMem_utf8EncodeChar ascii isAscii differs (spelled ▸ List.mem_append_right _ List.mem_cons_self)
        subst same
        rw [utf8EncodeChar_ascii isAscii] at spelled
        obtain ⟨rfl, rest⟩ := List.append_eq_singleton_iff.mp spelled.symm |>.resolve_right (by simp)
        obtain rfl : more = [] := (List.cons.inj rest).2
        exact ⟨[], chars, rfl, rfl, rfl⟩

/-- A text begins with an ASCII byte exactly when it begins with that character. -/
theorem head?_utf8 {ascii : Char} (isAscii : ascii.toNat < 128) (chars : List Char) :
    (utf8 chars).head? = some (UInt8.ofNat ascii.toNat) ↔ chars.head? = some ascii := by
  constructor
  · intro first
    obtain ⟨right, split⟩ := List.head?_eq_some_iff.mp first
    have alone : utf8 chars = [] ++ UInt8.ofNat ascii.toNat :: right := split
    obtain ⟨before, after, rfl, empty, _⟩ := utf8_eq_append_cons isAscii alone
    cases before with
    | nil => rfl
    | cons c before =>
      obtain ⟨byte, more, spelled, _⟩ := utf8EncodeChar_head c
      rw [utf8_cons, spelled] at empty
      cases empty
  · intro first
    obtain ⟨after, rfl⟩ := List.head?_eq_some_iff.mp first
    rw [utf8_cons, utf8EncodeChar_ascii isAscii]
    rfl

/-- The place behind any characters of a text is a boundary. -/
theorem isCharBoundary_utf8 (before after : List Char) :
    isCharBoundary (utf8 (before ++ after)) (utf8 before).length := by
  cases after with
  | nil => simp [isCharBoundary]
  | cons c after =>
    obtain ⟨first, more, spelled, leads⟩ := utf8EncodeChar_head c
    have here : (utf8 (before ++ c :: after))[(utf8 before).length]? = some first := by
      rw [utf8_append, List.getElem?_append_right le_rfl, Nat.sub_self, utf8_cons, spelled]
      rfl
    rw [isCharBoundary, here]
    simp [leads]

/-- A slice from behind `before` to in front of `after` is what stands between them. -/
theorem strSlice_utf8 {text : String} {before line after : List Char}
    (split : text.toList = before ++ (line ++ after)) :
    strSlice text (utf8 before).length (utf8 (before ++ line)).length = .ok (String.ofList line) := by
  have starts : isCharBoundary (asBytes text) (utf8 before).length := by
    rw [asBytes_eq, split]
    exact isCharBoundary_utf8 before _
  have stops : isCharBoundary (asBytes text) (utf8 (before ++ line)).length := by
    rw [asBytes_eq, split, ← List.append_assoc]
    exact isCharBoundary_utf8 (before ++ line) after
  have ordered : (utf8 before).length ≤ (utf8 (before ++ line)).length := by
    rw [utf8_append, List.length_append]
    exact Nat.le_add_right _ _
  have between : ((asBytes text).take (utf8 (before ++ line)).length).drop (utf8 before).length = utf8 line := by
    rw [asBytes_eq, split, ← List.append_assoc, utf8_append (before ++ line), List.take_left, utf8_append,
      List.drop_left]
  rw [strSlice, if_pos ⟨ordered, starts, stops⟩, between, fromUtf8_utf8]
  rfl

end Mallard
