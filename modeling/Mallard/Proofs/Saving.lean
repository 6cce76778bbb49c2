import Mallard.Proofs.Writing
import Mallard.Model.Medlin.Files

/-! # What a save leaves in its file

A save offers a sequence of chunks to a buffered writer and drops the writer. Whether or not a write
failed, the file then holds as much of what was offered as it has room for. A refused byte goes
unnoticed when it was refused only after the last write, that is when it was still held back.
-/

namespace Mallard

open ChunkedOutput

/-- That many bytes fit into the room. -/
def Fits (room : Option ℕ) (count : ℕ) : Prop := ∀ limit ∈ room, count ≤ limit

/-- What a file takes of some bytes. -/
def limitTo (room : Option ℕ) (bytes : List UInt8) : List UInt8 := room.elim bytes bytes.take

theorem fits_none (count : ℕ) : Fits none count := by
  intro limit member
  cases member

theorem fits_some {limit count : ℕ} : Fits (some limit) count ↔ count ≤ limit := by
  simp only [Fits, Option.mem_some_iff, forall_eq']

instance (room : Option ℕ) (count : ℕ) : Decidable (Fits room count) :=
  match room with
  | none => isTrue (fits_none count)
  | some _ => decidable_of_iff _ fits_some.symm

theorem Fits.mono {room : Option ℕ} {few many : ℕ} (fits : Fits room many) (fewer : few ≤ many) :
    Fits room few := fun limit member => fewer.trans (fits limit member)

/-- Bytes that fit are all taken. -/
theorem limitTo_of_fits {room : Option ℕ} {bytes : List UInt8} (fits : Fits room bytes.length) :
    limitTo room bytes = bytes := by
  cases room with
  | none => rfl
  | some limit => exact List.take_of_length_le (fits_some.mp fits)

/-- Bytes that do not fit are not all taken. -/
theorem limitTo_of_not_fits {room : Option ℕ} {bytes : List UInt8} (refused : ¬ Fits room bytes.length) :
    limitTo room bytes ≠ bytes := by
  cases room with
  | none => exact absurd (fits_none _) refused
  | some limit =>
    rw [fits_some] at refused
    intro same
    have length := congrArg List.length same
    rw [limitTo, Option.elim_some, List.length_take] at length
    omega

theorem limitTo_eq_iff {room : Option ℕ} {bytes : List UInt8} :
    limitTo room bytes = bytes ↔ Fits room bytes.length :=
  ⟨fun same => by_contra fun refused => limitTo_of_not_fits refused same, limitTo_of_fits⟩

theorem limitTo_prefix (room : Option ℕ) (bytes : List UInt8) : limitTo room bytes <+: bytes := by
  cases room with
  | none => exact List.prefix_rfl
  | some limit => exact List.take_prefix limit bytes

/-- Bytes behind the refused one make no difference. -/
theorem limitTo_append_of_not_fits {room : Option ℕ} {bytes : List UInt8} (refused : ¬ Fits room bytes.length)
    (more : List UInt8) : limitTo room (bytes ++ more) = limitTo room bytes := by
  cases room with
  | none => exact absurd (fits_none _) refused
  | some limit =>
    rw [fits_some] at refused
    exact List.take_append_of_le_length (by omega)

/-- The bytes of a file, all of which fit, and the room it has left. -/
structure File.Sound (room : Option ℕ) (file : File) : Prop where
  left : file.room = room.map (· - file.bytes.length)
  fits : Fits room file.bytes.length

namespace File

variable {room : Option ℕ} {file : File}

/-- A file takes all that is offered exactly when it fits. -/
theorem Sound.taken_eq (sound : file.Sound room) (bytes : List UInt8) :
    file.taken bytes = bytes.length ↔ Fits room (file.bytes.length + bytes.length) := by
  obtain ⟨left, fits⟩ := sound
  cases room with
  | none => simp only [taken, left, Option.map_none, fits_none]
  | some limit =>
    have before := fits_some.mp fits
    simp only [taken, left, Option.map_some, fits_some]
    omega

theorem Sound.take_bytes (sound : file.Sound room) (bytes : List UInt8) :
    (file.take bytes).bytes = limitTo room (file.bytes ++ bytes) := by
  obtain ⟨left, fits⟩ := sound
  cases room with
  | none => simp only [take, taken, left, Option.map_none, List.take_length, limitTo, Option.elim_none]
  | some limit =>
    have before := fits_some.mp fits
    simp only [take, taken, left, Option.map_some, limitTo, Option.elim_some]
    rw [List.take_append, List.take_of_length_le before, ← List.take_eq_take_min]

theorem Sound.take (sound : file.Sound room) {bytes : List UInt8}
    (fits : Fits room (file.bytes.length + bytes.length)) : (file.take bytes).Sound room := by
  have all := (sound.taken_eq bytes).mpr fits
  have grown : (file.take bytes).bytes.length = file.bytes.length + bytes.length := by
    rw [File.take, all, List.take_length, List.length_append]
  refine ⟨?_, grown ▸ fits⟩
  rw [grown, File.take, all, sound.left]
  cases room with
  | none => rfl
  | some limit =>
    simp only [Option.map_some, Option.some.injEq]
    omega

/-- A file that refused a byte takes no more. -/
theorem Sound.taken_full (sound : file.Sound room) {bytes : List UInt8}
    (refused : ¬ Fits room (file.bytes.length + bytes.length)) (more : List UInt8) :
    (file.take bytes).taken more = 0 := by
  cases room with
  | none => exact absurd (fits_none _) refused
  | some limit =>
    have left : file.room = some (limit - file.bytes.length) := sound.left
    rw [fits_some] at refused
    simp only [File.take, taken, left, Option.map_some]
    omega

theorem Sound.new (room : Option ℕ) : File.Sound room ⟨[], room⟩ := by
  refine ⟨?_, fun limit _ => Nat.zero_le limit⟩
  cases room <;> rfl

end File

/-- How many bytes a buffer of `held` bytes holds back after `count` more were accepted. -/
def hold (held count : ℕ) : ℕ :=
  if count < BufFile.capacity - held then held + count
  else if BufFile.capacity ≤ count then 0
  else if BufFile.capacity - held < count then count
  else held + count

theorem hold_le (held count : ℕ) : hold held count ≤ held + count := by
  simp only [hold]
  split_ifs <;> omega

/-- How many bytes are still held back after some chunks were accepted. -/
def heldBack (chunks : List (List UInt8)) : ℕ := (chunks.map List.length).foldl hold 0

/-- How many bytes of some chunks the file has to take before the writer is dropped. -/
def passedOn (chunks : List (List UInt8)) : ℕ := chunks.flatten.length - heldBack chunks

theorem heldBack_append_singleton (chunks : List (List UInt8)) (chunk : List UInt8) :
    heldBack (chunks ++ [chunk]) = hold (heldBack chunks) chunk.length := by
  rw [heldBack, List.map_append, List.foldl_append]
  rfl

theorem heldBack_le (chunks : List (List UInt8)) : heldBack chunks ≤ chunks.flatten.length := by
  induction chunks using List.reverseRecOn with
  | nil => exact le_rfl
  | append_singleton chunks chunk ih =>
    have later := hold_le (heldBack chunks) chunk.length
    rw [heldBack_append_singleton, List.flatten_append, List.flatten_singleton, List.length_append]
    omega

theorem passedOn_mono (chunks more : List (List UInt8)) : passedOn chunks ≤ passedOn (chunks ++ more) := by
  induction more using List.reverseRecOn with
  | nil => rw [List.append_nil]
  | append_singleton more chunk ih =>
    have before := heldBack_le (chunks ++ more)
    have later := hold_le (heldBack (chunks ++ more)) chunk.length
    simp only [passedOn] at ih ⊢
    rw [← List.append_assoc, heldBack_append_singleton, List.flatten_append, List.flatten_singleton,
      List.length_append]
    omega

/-- A buffered writer that accepted the offered bytes: they are in the file or in the buffer. -/
structure BufFile.Sound (room : Option ℕ) (offered : List UInt8) (writer : BufFile) : Prop where
  file : writer.file.Sound room
  offered : writer.file.bytes ++ writer.buffer = offered

namespace BufFile

variable {room : Option ℕ} {offered bytes : List UInt8} {writer : BufFile} {error : IoError}

theorem Sound.new (room : Option ℕ) : Sound room [] ⟨⟨[], room⟩, []⟩ := ⟨File.Sound.new room, rfl⟩

theorem drop_empty (file : File) (error : IoError) : (BufFile.drop error ⟨file, []⟩).bytes = file.bytes := by
  simp only [drop, flush, File.take, List.take_nil, List.append_nil]

/-- Dropping the writer leaves what the file can take of the offered bytes. -/
theorem Sound.drop_bytes (sound : writer.Sound room offered) (error : IoError) :
    (writer.drop error).bytes = limitTo room offered := by
  rw [drop, flush, sound.file.take_bytes, sound.offered]

theorem Sound.length (sound : writer.Sound room offered) :
    writer.file.bytes.length + writer.buffer.length = offered.length := by
  rw [← sound.offered, List.length_append]

/-- A flush empties the buffer when everything fits. -/
theorem Sound.flush_ok (sound : writer.Sound room offered) (error : IoError) (fits : Fits room offered.length) :
    writer.flush error = (.ok (), ⟨writer.file.take writer.buffer, []⟩) ∧
      Sound room offered ⟨writer.file.take writer.buffer, []⟩ := by
  rw [← sound.length] at fits
  have all := (sound.file.taken_eq writer.buffer).mpr fits
  refine ⟨?_, sound.file.take fits, ?_⟩
  · rw [flush]
    simp only [all, if_true, List.drop_length]
  · rw [List.append_nil, ← sound.offered, File.take, all, List.take_length]

/-- What a write leads to when `offered` is all that was offered so far and `held` bytes of it would
be held back: it succeeds exactly when the other bytes fit, and loses nothing that could be kept. -/
def Wrote (room : Option ℕ) (error : IoError) (offered : List UInt8) (held : ℕ)
    (result : Except IoError Unit × BufFile) : Prop :=
  if Fits room (offered.length - held) then
    result.1 = .ok () ∧ result.2.Sound room offered ∧ result.2.buffer.length = held
  else result.1 = .error error ∧ (result.2.drop error).bytes = limitTo room offered

/-- A failed flush leaves a full file, and nothing offered later can reach it. -/
theorem Sound.flush_error (sound : writer.Sound room offered) (error : IoError) (refused : ¬ Fits room offered.length)
    (bytes : List UInt8) :
    (writer.flush error).1 = .error error ∧
      ((writer.flush error).2.drop error).bytes = limitTo room (offered ++ bytes) := by
  have partly := sound.drop_bytes error
  rw [limitTo_append_of_not_fits refused]
  rw [← sound.length] at refused
  have short := mt (sound.file.taken_eq writer.buffer).mp refused
  refine ⟨by rw [flush]; exact if_neg short, ?_⟩
  rw [← partly, drop, flush, File.take, flush, sound.file.taken_full refused, List.take_zero, List.append_nil]
  rfl

theorem Sound.writeFlushed (sound : writer.Sound room offered) (bytes : List UInt8) (error : IoError)
    (direct : capacity ≤ bytes.length → writer.buffer = []) :
    Wrote room error (offered ++ bytes) (if capacity ≤ bytes.length then 0 else writer.buffer.length + bytes.length)
      (writer.writeFlushed error bytes) := by
  have length := sound.length
  rw [BufFile.writeFlushed, Wrote, List.length_append]
  by_cases large : capacity ≤ bytes.length
  · have empty := direct large
    have written := sound.offered
    rw [empty, List.append_nil] at written
    have all := sound.file.taken_eq bytes
    simp only [if_pos large, Nat.sub_zero, File.writeAll]
    rw [← written]
    split
    · next fits =>
      rw [if_pos (all.mpr fits)]
      refine ⟨rfl, ⟨sound.file.take fits, ?_⟩, ?_⟩
      · simp only [empty, List.append_nil, sound.file.take_bytes]
        exact limitTo_of_fits (by rwa [List.length_append])
      · rw [empty, List.length_nil]
    · next refused =>
      rw [if_neg (mt all.mp refused)]
      refine ⟨rfl, ?_⟩
      rw [empty, drop_empty, sound.file.take_bytes]
  · have kept : Fits room (offered.length + bytes.length - (writer.buffer.length + bytes.length)) :=
      sound.file.fits.mono (by omega)
    simp only [if_neg large, if_pos kept]
    refine ⟨trivial, ⟨sound.file, ?_⟩, List.length_append⟩
    rw [← List.append_assoc, sound.offered]

theorem Sound.writeAll (sound : writer.Sound room offered) (bytes : List UInt8) (error : IoError) :
    Wrote room error (offered ++ bytes) (hold writer.buffer.length bytes.length) (writer.writeAll error bytes) := by
  have length := sound.length
  have some_capacity : 0 < capacity := by decide
  rw [BufFile.writeAll]
  by_cases small : bytes.length < capacity - writer.buffer.length
  · have kept : Fits room ((offered ++ bytes).length - (writer.buffer.length + bytes.length)) := by
      rw [List.length_append]
      exact sound.file.fits.mono (by omega)
    simp only [hold, Wrote, if_pos small, if_pos kept]
    refine ⟨trivial, ⟨sound.file, ?_⟩, List.length_append⟩
    rw [← List.append_assoc, sound.offered]
  by_cases crosses : capacity - writer.buffer.length < bytes.length
  · have held : hold writer.buffer.length bytes.length = if capacity ≤ bytes.length then 0 else bytes.length := by
      rw [hold, if_neg small, if_pos crosses]
    simp only [if_neg small, if_pos crosses, held]
    by_cases fits : Fits room offered.length
    · obtain ⟨flushed, kept⟩ := sound.flush_ok error fits
      have wrote := kept.writeFlushed bytes error (fun _ => rfl)
      rw [List.length_nil, Nat.zero_add] at wrote
      rw [flushed]
      exact wrote
    · have refused : ¬ Fits room ((offered ++ bytes).length - if capacity ≤ bytes.length then 0 else bytes.length) := by
        refine mt (fun more => more.mono ?_) fits
        rw [List.length_append]
        split <;> omega
      have failed := sound.flush_error error fits bytes
      rw [Wrote, if_neg refused]
      generalize writer.flush error = flushed at failed
      obtain ⟨result, full⟩ := flushed
      obtain ⟨rfl, dropped⟩ := failed
      exact ⟨rfl, dropped⟩
  · have exact_ : bytes.length = capacity - writer.buffer.length := by omega
    have held : hold writer.buffer.length bytes.length =
        if capacity ≤ bytes.length then 0 else writer.buffer.length + bytes.length := by
      rw [hold, if_neg small, if_neg crosses]
    simp only [if_neg small, if_neg crosses, held]
    apply sound.writeFlushed
    intro large
    exact List.length_eq_zero_iff.mp (by omega)

end BufFile

/-- A writer that accepted some chunks from the start. -/
structure BufFile.Offered (room : Option ℕ) (chunks : List (List UInt8)) (writer : BufFile) : Prop where
  fits : Fits room (passedOn chunks)
  sound : writer.Sound room chunks.flatten
  held : writer.buffer.length = heldBack chunks

theorem BufFile.Offered.writeAll {room : Option ℕ} {chunks : List (List UInt8)} {writer : BufFile}
    (offered : writer.Offered room chunks) (chunk : List UInt8) (error : IoError) :
    Wrote room error (chunks ++ [chunk]).flatten (heldBack (chunks ++ [chunk])) (writer.writeAll error chunk) := by
  have wrote := offered.sound.writeAll chunk error
  rwa [offered.held, ← heldBack_append_singleton, ← List.flatten_concat] at wrote

/-- Writing chunks succeeds exactly when what is passed on fits, and dropping the writer then leaves
what the file can take of all of them. -/
theorem writeChunks_bufFile (room : Option ℕ) (error : IoError) (chunks : List (List UInt8)) :
    ∃ writer, writeChunks (BufFile.writeAll error) chunks ⟨⟨[], room⟩, []⟩ =
        (if Fits room (passedOn chunks) then .ok () else .error error, writer) ∧
      (writer.drop error).bytes = limitTo room chunks.flatten := by
  have step {done : List (List UInt8)} {writer : BufFile} {chunk : List UInt8} {next : BufFile}
      (offered : writer.Offered room done) (accepted : BufFile.writeAll error writer chunk = (.ok (), next)) :
      next.Offered room (done ++ [chunk]) := by
    have wrote := offered.writeAll chunk error
    rw [accepted, BufFile.Wrote] at wrote
    split at wrote
    · next fits => exact ⟨fits, wrote.2.1, wrote.2.2⟩
    · cases wrote.1
  have start : BufFile.Offered room [] ⟨⟨[], room⟩, []⟩ := ⟨fun limit _ => Nat.zero_le limit, .new room, rfl⟩
  rcases writeChunks_run (P := BufFile.Offered room) step start chunks with
    ⟨writer, ran, offered⟩ | ⟨before, chunk, after, earlier, failure, writer, split, offered, refused, ran⟩
  · rw [List.nil_append] at offered
    exact ⟨writer, by rw [ran, if_pos offered.fits], offered.sound.drop_bytes error⟩
  · have wrote := offered.writeAll chunk error
    rw [List.nil_append, refused, BufFile.Wrote] at wrote
    have whole : chunks = (before ++ [chunk]) ++ after := by
      rw [split, List.append_assoc]
      rfl
    split at wrote
    · cases wrote.1
    · next full =>
      -- The refused chunk already overfills the file, so what is behind it makes no difference.
      have never : ¬ Fits room (passedOn chunks) := by
        rw [whole]
        exact mt (fun fits => fits.mono (passedOn_mono _ after)) full
      have overfull : ¬ Fits room (before ++ [chunk]).flatten.length :=
        mt (fun fits => fits.mono (Nat.sub_le _ _)) full
      obtain ⟨⟨⟩, dropped⟩ := wrote
      refine ⟨writer, ?_, ?_⟩
      · rw [ran, if_neg never]
      · rw [whole, List.flatten_append, limitTo_append_of_not_fits overfull, dropped]

/-- The encoder takes the whole text. -/
def Encoding.Encodes (encoding : Encoding) (text : String) : Prop := (encoding.encodeAll text).1 = .inputEmpty

instance (encoding : Encoding) (text : String) : Decidable (encoding.Encodes text) :=
  inferInstanceAs (Decidable (_ = _))

/-- The lines in front of the first one that cannot be encoded with its terminator. -/
def encodableLines (encoding : Encoding) (lineEnding : String) (lines : List String) : List String :=
  lines.takeWhile fun line => encoding.Encodes (line ++ lineEnding)

/-- The encoded lines, each with its terminator. -/
def encodedChunks (encoding : Encoding) (lineEnding : String) (lines : List String) : List (List UInt8) :=
  lines.map fun line => (encoding.encodeAll (line ++ lineEnding)).2

/-- The chunks that a save offers to its writer. -/
def savedChunks (lineEnding : String) (lines : List String) : Option Encoding → List (List UInt8)
  | none => lineChunks lineEnding lines
  | some encoding => encodedChunks encoding lineEnding (encodableLines encoding lineEnding lines)

/-- Every line can be written in the encoding; without one, all lines can. -/
def Encodable (lineEnding : String) (lines : List String) (encoding : Option Encoding) : Prop :=
  ∀ forced ∈ encoding, ∀ line ∈ lines, forced.Encodes (line ++ lineEnding)

/-- The verdict on the lines from line `i` on when no write fails. -/
def encodingVerdict (lineEnding : String) (lines : List String) (encoding : Encoding) (i : ℕ) : Except Report Unit :=
  if ∀ line ∈ lines, encoding.Encodes (line ++ lineEnding) then .ok ()
  else .error (.saveUnencodable (i + (encodableLines encoding lineEnding lines).length + 1) encoding.name)

/-- The result of a save: a refused write is reported before a line that cannot be encoded. -/
def saveResult (path : String) (verdict : Except Report Unit) :
    Except IoError Unit × BufFile → Except Report Unit × BufFile
  | (.error error, writer) => (.error (.saveFailed path error), writer)
  | (.ok (), writer) => (verdict, writer)

section Buffers

variable [Digests] {heap : Heap} {buffer : LineBuffer} {texts : Timeline (List String)}

/-- The loop of the forced path offers the encoded lines up to the first one that cannot be encoded. -/
theorem saveEncoded_eq (holds : buffer.Holds heap texts) (error : IoError) (path lineEnding : String)
    (encoding : Encoding) {done rest : List String} (split : texts.present = done ++ rest) (writer : BufFile) :
    saveEncoded error heap buffer path lineEnding encoding done.length rest.length writer =
      .ok (saveResult path (encodingVerdict lineEnding rest encoding done.length)
        (writeChunks (BufFile.writeAll error)
          (encodedChunks encoding lineEnding (encodableLines encoding lineEnding rest)) writer)) := by
  induction rest generalizing done writer with
  | nil => rfl
  | cons line rest ih =>
    have here : texts.present[done.length]? = some line := by
      rw [split, List.getElem?_append_right le_rfl, Nat.sub_self]
      rfl
    have later : texts.present = (done ++ [line]) ++ rest := by rw [split, List.append_assoc, List.singleton_append]
    rw [List.length_cons, saveEncoded, holds.getLine, here, Outcome.ok_bind]
    dsimp only
    by_cases encodes : encoding.Encodes (line ++ lineEnding)
    · have prefix_ : encodableLines encoding lineEnding (line :: rest) = line :: encodableLines encoding lineEnding rest :=
        List.takeWhile_cons_of_pos (decide_eq_true encodes)
      have verdict : encodingVerdict lineEnding (line :: rest) encoding done.length =
          encodingVerdict lineEnding rest encoding (done ++ [line]).length := by
        simp only [encodingVerdict, List.forall_mem_cons, encodes, true_and, prefix_, List.length_cons,
          List.length_append, List.length_nil]
        congr 3
        omega
      have encoded : encoding.encodeAll (line ++ lineEnding) =
          (.inputEmpty, (encoding.encodeAll (line ++ lineEnding)).2) := Prod.ext encodes rfl
      have chunks : encodedChunks encoding lineEnding (line :: encodableLines encoding lineEnding rest) =
          (encoding.encodeAll (line ++ lineEnding)).2 ::
            encodedChunks encoding lineEnding (encodableLines encoding lineEnding rest) := rfl
      have next := ih later
      rw [List.length_append, List.length_singleton] at next
      rw [prefix_, verdict, chunks, encoded]
      dsimp only
      cases wrote : BufFile.writeAll error writer (encoding.encodeAll (line ++ lineEnding)).2 with
      | mk result writer =>
        cases result with
        | error failure =>
          rw [writeChunks_cons_error wrote]
          rfl
        | ok =>
          rw [writeChunks_cons_ok wrote, List.length_append]
          exact next writer
    · have prefix_ : encodableLines encoding lineEnding (line :: rest) = [] :=
        List.takeWhile_cons_of_neg (by simpa using encodes)
      have verdict : encodingVerdict lineEnding (line :: rest) encoding done.length =
          .error (.saveUnencodable (done.length + 1) encoding.name) := by
        rw [encodingVerdict, if_neg (fun all => encodes (all line List.mem_cons_self)), prefix_]
        rfl
      rw [prefix_, verdict]
      rw [Encoding.Encodes] at encodes
      generalize encoding.encodeAll (line ++ lineEnding) = encoded at encodes
      obtain ⟨result, written⟩ := encoded
      cases result with
      | inputEmpty => exact absurd rfl encodes
      | outputFull => rfl
      | unmappable c => rfl

/-- What a save reports. -/
def savedVerdict (disk : Disk) (path lineEnding : String) (lines : List String) (encoding : Option Encoding) :
    Except Report Unit :=
  if Fits (disk.room path) (passedOn (savedChunks lineEnding lines encoding)) then
    encoding.elim (.ok ()) (encodingVerdict lineEnding lines · 0)
  else .error (.saveFailed path disk.writeError)

/-- The disk with other bytes at a path. -/
def Disk.put (disk : Disk) (path : String) (bytes : List UInt8) : Disk :=
  { disk with bytes := Function.update disk.bytes (disk.canonical path) (some bytes) }

omit [Digests] in
@[simp] theorem Disk.contents_put (disk : Disk) (path : String) (bytes : List UInt8) :
    (disk.put path bytes).contents path = some bytes := Function.update_self ..

/-- A save that could open its file leaves there what the file takes of the offered chunks. -/
theorem save_eq (holds : buffer.Holds heap texts) {disk : Disk} {path : String}
    (opened : disk.createError path = none) (lineEnding : String) (encoding : Option Encoding) :
    save disk heap buffer path lineEnding encoding =
      .ok (savedVerdict disk path lineEnding texts.present encoding,
        disk.put path (limitTo (disk.room path) (savedChunks lineEnding texts.present encoding).flatten)) := by
  obtain ⟨writer, wrote, dropped⟩ :=
    writeChunks_bufFile (disk.room path) disk.writeError (savedChunks lineEnding texts.present encoding)
  rw [save, opened, ← dropped]
  dsimp only
  cases encoding with
  | none =>
    have written := LineBuffer.writeLines_eq holds.present (bufWriter disk.writeError) ⟨⟨[], disk.room path⟩, []⟩ lineEnding
    have chunks : writeChunks (bufWriter disk.writeError).writeAll (lineChunks lineEnding texts.present)
        ⟨⟨[], disk.room path⟩, []⟩ = _ := wrote
    dsimp only
    rw [written, chunks, savedVerdict]
    by_cases fits : Fits (disk.room path) (passedOn (savedChunks lineEnding texts.present none))
    · rw [if_pos fits, if_pos fits]
      rfl
    · rw [if_neg fits, if_neg fits]
      rfl
  | some encoding =>
    have looped := saveEncoded_eq holds disk.writeError path lineEnding encoding (List.nil_append _).symm
      ⟨⟨[], disk.room path⟩, []⟩
    have chunks : writeChunks (BufFile.writeAll disk.writeError) (encodedChunks encoding lineEnding
        (encodableLines encoding lineEnding texts.present)) ⟨⟨[], disk.room path⟩, []⟩ = _ := wrote
    rw [List.length_nil, ← holds.lineCount, chunks] at looped
    dsimp only
    rw [looped, savedVerdict]
    by_cases fits : Fits (disk.room path) (passedOn (savedChunks lineEnding texts.present (some encoding)))
    · rw [if_pos fits, if_pos fits]
      rfl
    · rw [if_neg fits, if_neg fits]
      rfl

omit [Digests] in
theorem save_refused {disk : Disk} {path : String} {error : IoError} (refused : disk.createError path = some error)
    (lineEnding : String) (encoding : Option Encoding) :
    save disk heap buffer path lineEnding encoding = .ok (.error (.saveFailed path error), disk) := by
  rw [save, refused]
  rfl

end Buffers

end Mallard
