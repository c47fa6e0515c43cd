import Laurus.Common.Bytes
import Laurus.Common.Comp
import Laurus.Storage.Model.Files
import Mathlib.Tactic.Ring

/-!
# Structured files (`storage/structured.rs`)

`StructWriter` and `StructReader` over byte strings. The running CRC is
kept as the bytes folded into it, and read through the parameter
`crc32`, which stands for `crc32fast`. A failed call returns no reader:
every caller in the source gives the reader up with it.
-/

namespace Laurus

/-!
## Allocation bounds (`util/alloc_bounds.rs`)

Counts and lengths read from a file are compared with the bytes left in
it before anything is reserved. `usize` is the 64-bit one, so
`checked_usize` passes every `u64`.
-/

/-- `checked_usize`. -/
def checked_usize (value : ℕ) (what : String) : Except LaurusError ℕ :=
  if value < 2 ^ 64 then .ok value
  else .error (LaurusError.index
    s!"{what}: {value} exceeds this platform's address space — segment is corrupted")

/-- `checked_capacity_u64`. -/
def checked_capacity_u64 (count min_stride available : ℕ) (what : String) :
    Except LaurusError ℕ :=
  let stride := max min_stride 1
  let max_elements := available / stride
  if max_elements < count then
    .error (LaurusError.index
      (s!"{what}: header declares {count} elements but at most {max_elements} can fit in the " ++
        s!"{available} bytes left in the file — segment is corrupted"))
  else checked_usize count what

/-- `checked_len_u64`. -/
def checked_len_u64 (len available : ℕ) (what : String) : Except LaurusError ℕ :=
  if available < len then
    .error (LaurusError.index
      (s!"{what}: header declares {len} bytes but only {available} bytes are left in the file " ++
        "— segment is corrupted"))
  else checked_usize len what

/-! What passes is the argument itself, within the bytes available. -/

theorem checked_usize_eq_ok {value n : ℕ} {what : String} :
    checked_usize value what = .ok n ↔ value < 2 ^ 64 ∧ n = value := by
  unfold checked_usize
  grind

theorem checked_len_u64_eq_ok {len available n : ℕ} {what : String} :
    checked_len_u64 len available what = .ok n ↔ len ≤ available ∧ len < 2 ^ 64 ∧ n = len := by
  unfold checked_len_u64
  split
  · grind
  · rw [checked_usize_eq_ok]
    omega

theorem checked_capacity_u64_eq_ok {count stride available n : ℕ} {what : String} :
    checked_capacity_u64 count stride available what = .ok n ↔
      count * max stride 1 ≤ available ∧ count < 2 ^ 64 ∧ n = count := by
  unfold checked_capacity_u64
  have hpos : 0 < max stride 1 := by omega
  simp only
  split
  · rename_i h
    rw [Nat.div_lt_iff_lt_mul hpos] at h
    grind
  grind [Nat.le_div_iff_mul_le, checked_usize_eq_ok]

/-!
## Variable-length integers (`util/varint.rs`)

The encoder and the decoder as the source loops: the encoder on the
shrinking value, the decoder on the bytes with the result and the shift
carried along. `Varint` has the two that work on a buffer in place.
-/

/-- The loop of `encode_u64`, in at most `turns` turns. -/
def encode_u64_loop : ℕ → UInt64 → Bytes
  | 0, _ => []
  | turns + 1, val =>
    let byte := (val &&& 0x7F).toUInt8
    let val := val >>> 7
    if val ≠ 0 then (byte ||| 0x80) :: encode_u64_loop turns val else [byte]

/-- `encode_u64`. The value is empty after ten shifts by seven. -/
def encode_u64 (value : UInt64) : Bytes := encode_u64_loop 10 value

/-- The loop of `decode_u64`. -/
def decode_u64_loop (result : UInt64) (shift bytes_read : ℕ) :
    Bytes → Except LaurusError (UInt64 × ℕ)
  | [] => .error (LaurusError.other "Incomplete VarInt")
  | byte :: bytes =>
    -- the tenth byte carries bit 63 alone
    if 64 ≤ shift ∨ (shift = 63 ∧ 1 < byte &&& 0x7F) then
      .error (LaurusError.other "VarInt overflow")
    else
      let result := result ||| ((byte &&& 0x7F).toUInt64 <<< UInt64.ofNat shift)
      if byte &&& 0x80 = 0 then .ok (result, bytes_read + 1)
      else decode_u64_loop result (shift + 7) (bytes_read + 1) bytes

/-- `decode_u64`. -/
def decode_u64 (bytes : Bytes) : Except LaurusError (UInt64 × ℕ) :=
  decode_u64_loop 0 0 0 bytes

namespace Varint

/-- The loop of `write_varint`, in at most `turns` turns. -/
def write_varint_loop : ℕ → Bytes → UInt64 → Bytes
  | 0, buf, _ => buf
  | turns + 1, buf, value =>
    let byte := (value &&& 0x7F).toUInt8
    let value := value >>> 7
    if value = 0 then buf ++ [byte] else write_varint_loop turns (buf ++ [byte ||| 0x80]) value

/-- `write_varint`. -/
def write_varint (buf : Bytes) (value : UInt64) : Bytes := write_varint_loop 10 buf value

/-- The loop of `read_varint`, in at most `turns` turns: the shift is past
the value after ten. -/
def read_varint_loop (bytes : Bytes) (container : String) :
    ℕ → ℕ → UInt64 → ℕ → Except LaurusError (UInt64 × ℕ)
  | 0, _, _, _ => .error (LaurusError.storage s!"{container}: varint overflow")
  | turns + 1, cursor, value, shift =>
    match bytes[cursor]? with
    | none => .error (LaurusError.storage s!"{container}: truncated varint")
    | some byte =>
      let cursor := cursor + 1
      if shift = 63 ∧ 1 < byte &&& 0x7F then
        .error (LaurusError.storage s!"{container}: varint overflow")
      else
        let value := value ||| ((byte &&& 0x7F).toUInt64 <<< UInt64.ofNat shift)
        if byte &&& 0x80 = 0 then .ok (value, cursor)
        else
          let shift := shift + 7
          if 64 ≤ shift then .error (LaurusError.storage s!"{container}: varint overflow")
          else read_varint_loop bytes container turns cursor value shift

/-- `read_varint`: the value, and where the cursor is then. -/
def read_varint (bytes : Bytes) (cursor : ℕ) (container : String) :
    Except LaurusError (UInt64 × ℕ) := read_varint_loop bytes container 10 cursor 0 0

end Varint

/-- `FOOTER_MAGIC`: `LCRC`, little-endian. -/
def FOOTER_MAGIC : UInt32 := 0x4352434C

/-- `FOOTER_LEN`. -/
def FOOTER_LEN : ℕ := 8

/-- `LEGACY_TRAILER_LEN`. -/
def LEGACY_TRAILER_LEN : ℕ := 4

/-- `ChecksumStatus`. -/
inductive ChecksumStatus
  | Verified
  | Legacy (stored : UInt32)
  | Mismatch
  deriving DecidableEq, Repr

/-! ## The writer -/

/-- `StructWriter`, over the bytes of its output. -/
structure StructWriter where
  out : Bytes
  /-- The bytes the running CRC covers. -/
  hashed : Bytes
  position : ℕ
  reserved_header : Option ℕ
  deriving DecidableEq, Repr

/-- A computation that writes. -/
abbrev Write := Comp LaurusError StructWriter

namespace StructWriter

/-- `StructWriter::new`. -/
def new : StructWriter := { out := [], hashed := [], position := 0, reserved_header := none }

/-- The output after `bytes` are written at the position. -/
def put (w : StructWriter) (bytes : Bytes) : StructWriter :=
  { w with
    out := w.out.take w.position ++ bytes ++ w.out.drop (w.position + bytes.length)
    hashed := w.hashed ++ bytes
    position := w.position + bytes.length }

/-- `write_raw`. -/
def write_raw (value : Bytes) : Write Unit := do
  set ((← get).put value)

/-- `write_u8`. -/
def write_u8 (value : UInt8) : Write Unit := write_raw [value]

/-- `write_u16`. -/
def write_u16 (value : UInt16) : Write Unit := write_raw (Bytes.ofNatLE 2 value.toNat)

/-- `write_u32`. -/
def write_u32 (value : UInt32) : Write Unit := write_raw (Bytes.ofNatLE 4 value.toNat)

/-- `write_u64`. -/
def write_u64 (value : UInt64) : Write Unit := write_raw (Bytes.ofNatLE 8 value.toNat)

/-- `write_varint`. -/
def write_varint (value : UInt64) : Write Unit := write_raw (encode_u64 value)

/-- `write_f32`, on the value's bits. -/
def write_f32 (bits : UInt32) : Write Unit := write_raw (Bytes.ofNatLE 4 bits.toNat)

/-- `write_f64`, on the value's bits. -/
def write_f64 (bits : UInt64) : Write Unit := write_raw (Bytes.ofNatLE 8 bits.toNat)

/-- `write_bytes`. -/
def write_bytes (value : Bytes) : Write Unit := do
  write_varint (UInt64.ofNat value.length)
  write_raw value

/-- `write_string`. -/
def write_string (value : String) : Write Unit := write_bytes value.toByteArray.data.toList

/-- The loop of `write_delta_compressed_u32s`: the differences wrap around. -/
def write_deltas (previous : UInt32) : List UInt32 → Write Unit
  | [] => pure ()
  | value :: values => do
    write_varint (value - previous).toUInt64
    write_deltas value values

/-- `write_delta_compressed_u32s`. -/
def write_delta_compressed_u32s (values : List UInt32) : Write Unit := do
  if values = [] then write_varint 0
  else
    write_varint (UInt64.ofNat values.length)
    write_deltas 0 values

/-- `reserve_header`: zeros that the CRC does not cover. -/
def reserve_header (len : ℕ) : Write Unit := do
  let w ← get
  if w.position ≠ 0 ∨ w.reserved_header ≠ none then
    throw (LaurusError.internal
      "StructWriter: a header can only be reserved at the start of the output")
  set { w with
    out := List.replicate len 0 ++ w.out.drop len
    position := len
    reserved_header := some len }

/-- The start of `fill_header`: the cursor goes to the header, with an empty
CRC. -/
def start_header (w : StructWriter) : StructWriter :=
  { w with hashed := [], position := 0, reserved_header := none }

/-- The end of `fill_header`: the header's CRC is combined with the one of
what was written after it. -/
def end_header (len : ℕ) (body : StructWriter) : Write Unit := do
  let w ← get
  if w.position ≠ len then
    throw (LaurusError.internal
      s!"StructWriter: wrote a {w.position}-byte header into {len} reserved bytes")
  set { w with hashed := w.hashed ++ body.hashed, position := body.position }

/-- `fill_header`. -/
def fill_header (write : Write Unit) : Write Unit := do
  let w ← get
  match w.reserved_header with
  | none => throw (LaurusError.internal
      "StructWriter: fill_header called without a reserved header")
  | some len =>
    set w.start_header
    write
    end_header len w

/-- `close`: the whole file, its footer last. -/
def close (crc32 : Bytes → UInt32) (w : StructWriter) : Except LaurusError Bytes :=
  match w.reserved_header with
  | some len => .error (LaurusError.internal
      s!"StructWriter: closed with a {len}-byte header reserved but never filled")
  | none =>
    let footer := Bytes.ofNatLE 4 (crc32 w.hashed).toNat ++ Bytes.ofNatLE 4 FOOTER_MAGIC.toNat
    .ok (w.put footer).out

end StructWriter

/-! ## The reader -/

/-- `StructReader`, over the bytes of its file. -/
structure StructReader where
  file : Bytes
  /-- The bytes the running CRC covers. -/
  hashed : Bytes
  sequential : Bool
  position : ℕ
  deriving DecidableEq, Repr

/-- A computation that reads. -/
abbrev Read := Comp Fault StructReader

/-- A returned error as an end of a read. -/
def Read.liftE {α : Type} : Except LaurusError α → Read α
  | .ok a => pure a
  | .error e => throw (Fault.error e)

namespace StructReader

/-- `StructReader::new`. -/
def new (file : Bytes) : StructReader :=
  { file := file, hashed := [], sequential := true, position := 0 }

/-- The unread bytes. -/
def rest (r : StructReader) : Bytes := r.file.drop r.position

/-- `remaining`. -/
def remaining (r : StructReader) : ℕ := r.file.length - r.position

/-- The reader past `bytes`, which the CRC covers while no seek was made. -/
def advance (r : StructReader) (bytes : Bytes) : StructReader :=
  { r with
    hashed := if r.sequential then r.hashed ++ bytes else r.hashed
    position := r.position + bytes.length }

/-- `Vec::with_capacity` for entries that are to be read: more than the
bytes left could hold is a fault. -/
def reserve (count : ℕ) : Read Unit := do
  let r ← get
  if r.remaining < count then throw (Fault.overReserved count r.remaining)

/-- `read_exact` into a buffer of `length`, hashed and counted. -/
def read_exact (length : ℕ) : Read Bytes := do
  let r ← get
  if length ≤ r.remaining then
    let bytes := r.rest.take length
    set (r.advance bytes)
    return bytes
  else throw (Fault.error (LaurusError.Io "failed to fill whole buffer"))

/-- `read_u8`. -/
def read_u8 : Read UInt8 := do
  match ← read_exact 1 with
  | [byte] => return byte
  | _ => throw (Fault.panicked "read_u8")

/-- `read_u16`. -/
def read_u16 : Read UInt16 := do
  return UInt16.ofNat (Bytes.toNatLE (← read_exact 2))

/-- `read_u32`. -/
def read_u32 : Read UInt32 := do
  return UInt32.ofNat (Bytes.toNatLE (← read_exact 4))

/-- `read_u64`. -/
def read_u64 : Read UInt64 := do
  return UInt64.ofNat (Bytes.toNatLE (← read_exact 8))

/-- `read_f32`, as the value's bits. -/
def read_f32 : Read UInt32 := read_u32

/-- `read_f64`, as the value's bits. -/
def read_f64 : Read UInt64 := read_u64

/-- The loop of `read_varint`, `room` slots of its ten-byte buffer left. -/
def read_varint_loop : ℕ → Bytes → Read Bytes
  | 0, _ => throw (Fault.panicked "read_varint: buf[len]")
  | room + 1, buf => do
    let byte ← read_u8
    let buf := buf ++ [byte]
    if byte &&& 0x80 = 0 then return buf
    if room = 0 then throw (Fault.error (LaurusError.other "VarInt overflow"))
    read_varint_loop room buf

/-- `read_varint`. -/
def read_varint : Read UInt64 := do
  let buf ← read_varint_loop 10 []
  let (value, _) ← Read.liftE (decode_u64 buf)
  return value

/-- `read_raw`. -/
def read_raw (length : ℕ) : Read Bytes := do
  let r ← get
  let length ← Read.liftE (checked_len_u64 length r.remaining "StructReader::read_raw length")
  reserve length
  read_exact length

/-- `read_raw_with`: the borrowed slice and the copied buffer hold the same
bytes, and a slice too short falls through to `read_raw`. -/
def read_raw_with {α : Type} (length : ℕ) (f : Bytes → α) : Read α := do
  return f (← read_raw length)

/-- `read_raw_with` on an input that lends a slice of what is unread: the
chunk is hashed where it lies. -/
def read_raw_lent {α : Type} (length : ℕ) (f : Bytes → α) : Read α := do
  let r ← get
  if length ≤ r.rest.length then
    let chunk := r.rest.take length
    set (r.advance chunk)
    return f chunk
  else read_raw_with length f

/-- `read_bytes`. -/
def read_bytes : Read Bytes := do
  let length ← read_varint
  let r ← get
  let length ← Read.liftE
    (checked_len_u64 length.toNat r.remaining "StructReader::read_bytes length")
  reserve length
  read_exact length

/-- `String::from_utf8`. -/
def from_utf8 (bytes : Bytes) : Except LaurusError String :=
  match String.fromUTF8? ⟨bytes.toArray⟩ with
  | some value => .ok value
  | none => .error (LaurusError.storage "Invalid UTF-8")

/-- `read_string`. -/
def read_string : Read String := do
  let length ← read_varint
  let r ← get
  let length ← Read.liftE
    (checked_len_u64 length.toNat r.remaining "StructReader::read_string length")
  reserve length
  let bytes ← read_exact length
  Read.liftE (from_utf8 bytes)

/-- The loop of `read_delta_compressed_u32s`. -/
def read_deltas (previous : UInt32) : ℕ → Read (List UInt32)
  | 0 => return []
  | count + 1 => do
    let delta ← read_varint
    let value := previous + delta.toUInt32
    let values ← read_deltas value count
    return value :: values

/-- `read_delta_compressed_u32s`. -/
def read_delta_compressed_u32s : Read (List UInt32) := do
  let length ← read_varint
  let r ← get
  let length ← Read.liftE (checked_capacity_u64 length.toNat 1 r.remaining
    "StructReader::read_delta_compressed_u32s count")
  reserve length
  read_deltas 0 length

/-- `std::io::SeekFrom`. -/
inductive SeekFrom
  | Start (offset : ℕ)
  | End (offset : ℤ)
  | Current (offset : ℤ)
  deriving DecidableEq, Repr

/-- Where a seek goes. -/
def target (r : StructReader) : SeekFrom → ℤ
  | .Start offset => offset
  | .End offset => r.file.length + offset
  | .Current offset => r.position + offset

/-- `seek`: one that moves the cursor ends the CRC. -/
def seek (pos : SeekFrom) : Read ℕ := do
  let r ← get
  if r.target pos < 0 then
    throw (Fault.error (LaurusError.Io "Invalid seek to a negative position"))
  let new_pos := (r.target pos).toNat
  set { r with sequential := r.sequential && new_pos = r.position, position := new_pos }
  return new_pos

/-- `peek_u32`: the cursor is put back where it was. -/
def peek_u32 : Read (Option UInt32) := do
  let r ← get
  if r.remaining < 4 then return none
  return some (UInt32.ofNat (Bytes.toNatLE (r.rest.take 4)))

/-- The last four bytes of a file. -/
def last_word (file : Bytes) : UInt32 :=
  UInt32.ofNat (Bytes.toNatLE (file.drop (file.length - LEGACY_TRAILER_LEN)))

/-- `trailer_len`. -/
def trailer_len (r : StructReader) : ℕ :=
  if FOOTER_LEN ≤ r.file.length ∧ last_word r.file = FOOTER_MAGIC then FOOTER_LEN
  else LEGACY_TRAILER_LEN

/-- `is_eof`. -/
def is_eof : Read Bool := do
  let r ← get
  return r.file.length - r.trailer_len ≤ r.position

/-- `verify_checksum`. -/
def verify_checksum (crc32 : Bytes → UInt32) : Read ChecksumStatus := do
  let r ← get
  if r.sequential then
    let computed := crc32 r.hashed
    if r.remaining = FOOTER_LEN then
      let stored := UInt32.ofNat (Bytes.toNatLE (r.rest.take 4))
      let magic := UInt32.ofNat (Bytes.toNatLE ((r.rest.drop 4).take 4))
      set { r with position := r.position + FOOTER_LEN }
      if magic = FOOTER_MAGIC ∧ stored = computed then return ChecksumStatus.Verified
      else return ChecksumStatus.Mismatch
    else if r.remaining = LEGACY_TRAILER_LEN then
      let stored := UInt32.ofNat (Bytes.toNatLE (r.rest.take 4))
      set { r with position := r.position + LEGACY_TRAILER_LEN }
      if stored = FOOTER_MAGIC then return ChecksumStatus.Mismatch
      else return ChecksumStatus.Legacy stored
    else return ChecksumStatus.Mismatch
  else throw (Fault.error (LaurusError.internal
    "StructReader: a checksum cannot be verified after a seek"))

/-- `expect_checksum`. -/
def expect_checksum (crc32 : Bytes → UInt32) (what : String) : Read Unit := do
  match ← verify_checksum crc32 with
  | ChecksumStatus.Verified => return ()
  | ChecksumStatus.Legacy _ => return ()
  | ChecksumStatus.Mismatch => throw (Fault.error (LaurusError.index
      s!"{what}: checksum mismatch — the file is corrupted"))

/-- `VERIFY_CHUNK`. -/
def VERIFY_CHUNK : ℕ := 64 * 1024

/-- The bytes that `verify_file_checksum` hashes chunk by chunk, of an input
that lends no slice. -/
def hash_chunks : ℕ → Bytes → Bytes
  | 0, _ => []
  | fuel + 1, left =>
    if left = [] then [] else left.take VERIFY_CHUNK ++ hash_chunks fuel (left.drop VERIFY_CHUNK)

/-- `verify_file_checksum`, of an input that lends its bytes or does not. -/
def verify_file_checksum (crc32 : Bytes → UInt32) (lends : Bool) (file : Bytes) : ChecksumStatus :=
  if file.length < LEGACY_TRAILER_LEN then .Mismatch
  else if file.length < FOOTER_LEN ∨ last_word file ≠ FOOTER_MAGIC then .Legacy (last_word file)
  else
    let payload := file.take (file.length - FOOTER_LEN)
    let stored := UInt32.ofNat
      (Bytes.toNatLE ((file.drop (file.length - FOOTER_LEN)).take 4))
    let hashed := if lends then payload else hash_chunks (payload.length + 1) payload
    if crc32 hashed = stored then .Verified else .Mismatch

end StructReader

/-- `ChecksumStatus::vouches_for`. -/
def ChecksumStatus.vouches_for (crc32 : Bytes → UInt32) (last_write : Bytes) :
    ChecksumStatus → Bool
  | .Verified => true
  | .Legacy stored => stored = crc32 last_write
  | .Mismatch => false

end Laurus
