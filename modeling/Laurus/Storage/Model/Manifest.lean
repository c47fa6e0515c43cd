import Laurus.Storage.Model.Files
import Laurus.Storage.Model.Structured

/-!
# Checksummed control files (`storage/manifest.rs`)

`save_checksummed` writes `<name>.tmp`, renames it over `<name>` and syncs;
it may fail at each of these, which the `ManifestFault` says. `load_checksummed`
tells framed files from the bare JSON of older builds.
-/

namespace Laurus

/-- `ManifestFormat`. -/
inductive ManifestFormat
  | Checksummed
  | Legacy
  deriving DecidableEq, Repr

/-- Where a save fails. -/
inductive ManifestFault
  | write (fault : WriteFault)
  | rename (e : LaurusError)
  /-- The rename was done. -/
  | sync (e : LaurusError)
  deriving DecidableEq, Repr

/-- `TMP_SUFFIX`. -/
def TMP_SUFFIX : String := ".tmp"

/-- What `save_checksummed` writes before the footer. -/
def write_manifest (magic : Option UInt32) (payload : Bytes) : Write Unit := do
  match magic with
  | some magic => StructWriter.write_u32 magic
  | none => pure ()
  StructWriter.write_bytes payload

namespace Storage

/-- `save_checksummed`, of a file's bytes. -/
def save_bytes (s : Storage) (name : String) (bytes : Bytes) (fault : Option ManifestFault) :
    Except LaurusError Unit × Storage :=
  let tmp_name := name ++ TMP_SUFFIX
  let write_fault := match fault with
    | some (.write fault) => some fault
    | _ => none
  match s.create tmp_name bytes write_fault with
  | (.error e, s) => (.error e, s)
  | (.ok (), s) =>
    let rename_fault := match fault with
      | some (.rename e) => some e
      | _ => none
    match s.rename tmp_name name rename_fault with
    | (.error e, s) => (.error e, s)
    | (.ok (), s) =>
      match fault with
      | some (.sync e) => (.error e, s)
      | _ => (.ok (), s)

/-- `save_checksummed`. -/
def save_checksummed (crc32 : Bytes → UInt32) (s : Storage) (name : String)
    (magic : Option UInt32) (payload : Bytes) (fault : Option ManifestFault) :
    Except LaurusError Unit × Storage :=
  match write_manifest magic payload StructWriter.new with
  | .error e => (.error e, s)
  | .ok ((), w) =>
    match w.close crc32 with
    | .error e => (.error e, s)
    | .ok bytes => s.save_bytes name bytes fault

end Storage

/-- `u8::is_ascii_whitespace`. -/
def is_ascii_whitespace (byte : UInt8) : Bool :=
  byte = 0x20 ∨ byte = 0x09 ∨ byte = 0x0A ∨ byte = 0x0C ∨ byte = 0x0D

/-- `looks_like_json`. -/
def looks_like_json (content : Bytes) : Bool :=
  let first := (content.find? fun byte => ! is_ascii_whitespace byte).getD 0
  first = 0x7B ∨ first = 0x5B

/-- Whether a file ends in the footer's magic. -/
def ends_in_footer (content : Bytes) : Bool :=
  (Bytes.ofNatLE 4 FOOTER_MAGIC.toNat).isSuffixOf content

/-- `framing_is_consistent`. The sums are checked ones of `usize`. -/
def framing_is_consistent (content : Bytes) : Bool :=
  match decode_u64 content with
  | .error _ => false
  | .ok (payload_len, header_len) =>
    let framed_len := payload_len.toNat + header_len
    let trailer_len := if ends_in_footer content then FOOTER_LEN else 4
    framed_len < 2 ^ 64 ∧ framed_len + trailer_len < 2 ^ 64 ∧
      framed_len + trailer_len = content.length

/-- `is_legacy_json`. -/
def is_legacy_json (content : Bytes) (magic : Option UInt32) : Bool :=
  match magic with
  | some expected =>
    if 4 ≤ content.length ∧ UInt32.ofNat (Bytes.toNatLE (content.take 4)) = expected then false
    else looks_like_json content
  | none => ! framing_is_consistent content

/-- A word as `{:08X}` prints it. -/
def hex_word (word : UInt32) : String :=
  let digits := Nat.toDigits 16 word.toNat
  String.ofList ((List.replicate (8 - digits.length) '0' ++ digits).map Char.toUpper)

/-- The magic of `load_checksummed`, where one is given. -/
def read_magic (name : String) (magic : Option UInt32) : Read Unit := do
  match magic with
  | none => return ()
  | some expected =>
    let found ← StructReader.read_u32
    if found ≠ expected then
      throw (Fault.error (LaurusError.index
        s!"{name} has magic 0x{hex_word found}, expected 0x{hex_word expected}"))

/-- `load_checksummed` once the file is taken for a framed one. -/
def load_framed (crc32 : Bytes → UInt32) (name : String) (magic : Option UInt32) : Read Bytes := do
  read_magic name magic
  let payload ← StructReader.read_bytes
  let status ← StructReader.verify_checksum crc32
  if status.vouches_for crc32 payload then return payload
  else throw (Fault.error (LaurusError.index
    s!"{name} checksum mismatch — the file is corrupted"))

/-- `load_checksummed` of a file's bytes. -/
def load_content (crc32 : Bytes → UInt32) (name : String) (magic : Option UInt32)
    (content : Bytes) : Except Fault (Option (Bytes × ManifestFormat)) :=
  if content = [] then .ok none
  else if is_legacy_json content magic then .ok (some (content, .Legacy))
  else match load_framed crc32 name magic (StructReader.new content) with
    | .ok (payload, _) => .ok (some (payload, .Checksummed))
    | .error e => .error e

/-- `load_checksummed`. -/
def Storage.load_checksummed (crc32 : Bytes → UInt32) (s : Storage) (name : String)
    (magic : Option UInt32) : Except Fault (Option (Bytes × ManifestFormat)) :=
  match AList.lookup name s with
  | none => .ok none
  | some content => load_content crc32 name magic content

end Laurus
