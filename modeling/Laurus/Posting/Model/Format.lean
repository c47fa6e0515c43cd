import Laurus.Posting.Model.Posting
import Laurus.Storage.Model.Structured

/-!
# The posting-list format (`core/posting.rs`)

The encoder and the decoder of the three on-disk versions. The block packer
of the third-party `bitpacking` crate is the parameter `BitPacker`. What
would make the decoder crash is an end of its own: an index outside the
document ids, a block the packer rejects, and a reservation that the bytes
left when its count was read could not fill. The outer vector of the skip
table alone is reserved from an unchecked count, which is a byte.
-/

namespace Laurus

/-- `POSTING_BLOCK_LEN`. -/
def POSTING_BLOCK_LEN : ℕ := 128

/-- `BitPacker4x`. Decompressing fills a buffer of one block. -/
structure BitPacker where
  num_bits : List UInt32 → UInt8
  num_bits_sorted : UInt32 → List UInt32 → UInt8
  compress : List UInt32 → UInt8 → Bytes
  compress_sorted : UInt32 → List UInt32 → UInt8 → Bytes
  decompress : Bytes → UInt8 → List UInt32
  decompress_sorted : UInt32 → Bytes → UInt8 → List UInt32
  length_decompress : ∀ bytes num_bits, (decompress bytes num_bits).length = POSTING_BLOCK_LEN
  length_decompress_sorted : ∀ initial bytes num_bits,
    (decompress_sorted initial bytes num_bits).length = POSTING_BLOCK_LEN

/-- `PostingFormat`. -/
inductive PostingFormat
  | V1
  | V2
  | V3
  deriving DecidableEq, Repr

namespace PostingFormat

def has_skip_levels : PostingFormat → Bool
  | V1 => false
  | V2 | V3 => true

def has_weight_flag : PostingFormat → Bool
  | V1 | V2 => false
  | V3 => true

end PostingFormat

/-- `DecodedPostingList`. -/
structure DecodedPostingList where
  term : String
  doc_ids : List UInt32
  frequencies : List UInt32
  weights : List UInt32
  positions : Option (List (Option (List UInt32)))
  skip_levels : List (List UInt32)
  total_frequency : UInt64
  doc_frequency : UInt64
  deriving DecidableEq, Repr

/-- The bytes of a block of `num_bits` bits a value. -/
def block_bytes (num_bits : UInt8) : ℕ := num_bits.toNat * POSTING_BLOCK_LEN / 8

/-- The slot of the block buffer that the next block starts from. -/
def last_slot (block : List UInt32) : UInt32 := block.getD (POSTING_BLOCK_LEN - 1) 0

namespace PostingList

/-! ## Encoding -/

section Encode

variable (packer : BitPacker)

/-- `u32::try_from(did)`, and its error. -/
def doc_id_u32 (did : UInt64) : Except LaurusError UInt32 :=
  if did.toNat < 2 ^ 32 then .ok did.toUInt32
  else .error (LaurusError.index
    (s!"doc_id {did} exceeds u32::MAX; segment is too large for bit-packed posting " ++
      "format"))

/-- A returned error as the end of a write. -/
def Write.liftE {α : Type} : Except LaurusError α → Write α
  | .ok a => pure a
  | .error e => throw e

open StructWriter

/-- The skip levels, a length and its entries each. -/
def write_levels : List (List UInt32) → Write Unit
  | [] => return ()
  | level :: levels => do
    write_varint (UInt64.ofNat level.length)
    level.forM write_u32
    write_levels levels

/-- The skip table of version 2 and later. -/
def write_skip_levels (postings : List Posting) : Write Unit := do
  let doc_ids ← Write.liftE (postings.mapM fun p => doc_id_u32 p.doc_id)
  let levels := build_skip_levels doc_ids
  if levels.length < 256 then
    write_u8 (UInt8.ofNat levels.length)
    write_levels levels
  else throw (LaurusError.index
    s!"skip level count {levels.length} exceeds u8::MAX; refusing to encode")

/-- Section 1's full blocks; returns the document the tail starts from. -/
def write_doc_blocks : ℕ → UInt32 → List Posting → Write UInt32
  | 0, initial, _ => return initial
  | blocks + 1, initial, postings => do
    let doc_buf ← Write.liftE
      ((postings.take POSTING_BLOCK_LEN).mapM fun p => doc_id_u32 p.doc_id)
    let num_bits := packer.num_bits_sorted initial doc_buf
    write_u8 num_bits
    write_raw (packer.compress_sorted initial doc_buf num_bits)
    write_doc_blocks blocks (last_slot doc_buf) (postings.drop POSTING_BLOCK_LEN)

/-- Section 1's tail, deltas from `prev_did` on. -/
def write_doc_tail : UInt64 → List Posting → Write Unit
  | _, [] => return ()
  | prev_did, posting :: postings => do
    let _ ← Write.liftE (doc_id_u32 posting.doc_id)
    write_varint (posting.doc_id - prev_did)
    write_doc_tail posting.doc_id postings

/-- Section 2's full blocks. -/
def write_freq_blocks : ℕ → List Posting → Write Unit
  | 0, _ => return ()
  | blocks + 1, postings => do
    let freq_buf := (postings.take POSTING_BLOCK_LEN).map Posting.frequency
    let num_bits := packer.num_bits freq_buf
    write_u8 num_bits
    write_raw (packer.compress freq_buf num_bits)
    write_freq_blocks blocks (postings.drop POSTING_BLOCK_LEN)

/-- Section 4's positions in ascending order: a sorted copy when they are not. -/
def ascending_positions (positions : List UInt32) : List UInt32 :=
  if positions.Pairwise (· ≤ ·) then positions else positions.mergeSort fun a b => a ≤ b

/-- The deltas of positions from `prev_pos` on. -/
def write_deltas : UInt32 → List UInt32 → Write Unit
  | _, [] => return ()
  | prev_pos, pos :: positions => do
    write_varint (pos - prev_pos).toUInt64
    write_deltas pos positions

/-- One posting of Section 4. -/
def write_positions (posting : Posting) : Write Unit :=
  match posting.positions with
  | some positions => do
    let positions := ascending_positions positions
    write_u8 1
    write_varint (UInt64.ofNat positions.length)
    write_deltas 0 positions
  | none => write_u8 0

/-- The flag of version 3. -/
def write_any_weights (format : PostingFormat) (any_weights : Bool) : Write Unit :=
  if format.has_weight_flag then write_u8 any_weights.toUInt8 else return ()

/-- The skip table, when the version has one. -/
def write_skip_section (format : PostingFormat) (postings : List Posting) : Write Unit :=
  if format.has_skip_levels then write_skip_levels postings else return ()

/-- Section 3, when there is one. -/
def write_weights (format : PostingFormat) (any_weights : Bool) (postings : List Posting) :
    Write Unit :=
  if ! format.has_weight_flag || any_weights then postings.forM fun p => write_f32 p.weight
  else return ()

/-- Section 4, when there is one. -/
def write_all_positions (any_positions : Bool) (postings : List Posting) : Write Unit :=
  if any_positions then postings.forM write_positions else return ()

/-- The sections of a list that is not empty. -/
def write_sections (format : PostingFormat) (any_weights any_positions : Bool)
    (postings : List Posting) : Write Unit := do
  let full_blocks := postings.length / POSTING_BLOCK_LEN
  let tail := postings.drop (full_blocks * POSTING_BLOCK_LEN)
  let initial ← write_doc_blocks packer full_blocks 0 postings
  write_doc_tail initial.toUInt64 tail
  write_freq_blocks packer full_blocks postings
  tail.forM fun p => write_varint p.frequency.toUInt64
  write_weights format any_weights postings
  write_all_positions any_positions postings

/-- Whether any posting has positions. -/
def any_positions (postings : List Posting) : Bool := postings.any fun p => p.positions.isSome

/-- Whether version 3 has to store the weights. -/
def any_weights (format : PostingFormat) (postings : List Posting) : Bool :=
  format.has_weight_flag && postings.any fun p => p.weight ≠ F32_ONE

/-- `encode_header_and_payload`. -/
def encode_header_and_payload (list : PostingList) (format : PostingFormat) : Write Unit := do
  write_string list.term
  write_varint list.total_frequency
  write_varint list.doc_frequency
  let n := list.postings.length
  write_varint (UInt64.ofNat n)
  write_u8 (any_positions list.postings).toUInt8
  write_any_weights format (any_weights format list.postings)
  write_skip_section format list.postings
  if n = 0 then return ()
  else
    write_sections packer format (any_weights format list.postings) (any_positions list.postings)
      list.postings

end Encode

/-! ## Decoding -/

section Decode

variable (packer : BitPacker)

/-- `u64::MAX`, where saturating sums stop. -/
def U64_MAX : ℕ := 2 ^ 64 - 1

def saturating_add (a b : ℕ) : ℕ := min (a + b) U64_MAX

def saturating_mul (a b : ℕ) : ℕ := min (a * b) U64_MAX

open StructReader

/-- `Vec::with_capacity` for entries of a count that was read when
`available` bytes were left and that take `least` bytes at least. -/
def reserve_at (available count least : ℕ) : Read Unit :=
  if available < least then throw (Fault.overReserved count available) else return ()

/-- `bounded_posting_count`. -/
def bounded_posting_count (available n : ℕ) (any_weights any_positions : Bool)
    (max_postings : Option ℕ) : Except LaurusError ℕ := do
  if max_postings.any (· < n) then
    throw (LaurusError.index
      (s!"posting list: header declares {n} postings but the segment holds only " ++
        s!"{max_postings.getD 0} documents — segment is corrupted"))
  let block := POSTING_BLOCK_LEN
  let per_posting := (if any_weights then 4 else 0) + any_positions.toNat
  let min_bytes := saturating_add
    (saturating_add (saturating_mul (n / block) 2) (saturating_mul (n % block) 2))
    (saturating_mul n per_posting)
  if available < min_bytes then
    throw (LaurusError.index
      (s!"posting list: header declares {n} postings, which take at least {min_bytes} " ++
        s!"bytes, but only {available} bytes are left in the file — segment is corrupted"))
  checked_usize n "posting list posting count"

/-- `checked_num_bits`. -/
def checked_num_bits (num_bits : UInt8) : Except LaurusError UInt8 :=
  if 32 < num_bits then .error (LaurusError.index
    (s!"posting list: a block declares {num_bits} bits per value, more than 32 — " ++
      "segment is corrupted"))
  else .ok num_bits

/-- `read_flag`. -/
def read_flag (what : String) : Read Bool := do
  let byte ← read_u8
  if byte = 0 then return false
  else if byte = 1 then return true
  else throw (Fault.error (LaurusError.index
    s!"posting list: the {what} flag is {byte}, not 0 or 1 — segment is corrupted"))

/-- `check_ascending_doc_ids`, the index of the first pair out of order in its
error. -/
def check_ascending_doc_ids (doc_ids : List UInt32) : Except LaurusError Unit :=
  match (doc_ids.zip doc_ids.tail).zipIdx.find? fun pair => pair.1.2 ≤ pair.1.1 with
  | none => .ok ()
  | some ((before, after), i) => .error (LaurusError.index
      (s!"posting list: doc ids are not strictly ascending, {after} at posting {i + 1} follows " ++
        s!"{before} — segment is corrupted"))

/-- `doc_ids[(i + 1) * step - 1]`: outside the list it panics. -/
def window_last (doc_ids : List UInt32) (step i : ℕ) : Except Fault UInt32 :=
  if 2 ^ 64 ≤ (i + 1) * step then .error (Fault.panicked "(i + 1) * step")
  else match doc_ids[(i + 1) * step - 1]? with
    | some doc_id => .ok doc_id
    | none => .error (Fault.panicked "doc_ids[(i + 1) * step - 1]")

/-- Whether a level's entries, from the `i`-th on, are the windows' last. -/
def level_matches (doc_ids : List UInt32) (step : ℕ) : ℕ → List UInt32 → Except Fault Bool
  | _, [] => .ok true
  | i, doc_id :: level => do
    let last ← window_last doc_ids step i
    if doc_id = last then level_matches doc_ids step (i + 1) level else return false

/-- `skip_levels_match`, over the shape that is left. -/
def skip_levels_match_from (doc_ids : List UInt32) :
    List (ℕ × ℕ) → List (List UInt32) → Except Fault Bool
  | [], levels => .ok levels.isEmpty
  | _ :: _, [] => .ok false
  | (step, len) :: shape, level :: levels => do
    if level.length = len then
      if ← level_matches doc_ids step 0 level then skip_levels_match_from doc_ids shape levels
      else return false
    else return false

/-- `skip_levels_match`. -/
def skip_levels_match (levels : List (List UInt32)) (doc_ids : List UInt32) : Except Fault Bool :=
  skip_levels_match_from doc_ids (skip_level_shape doc_ids.length) levels

/-- An end of a check as an end of the read. -/
def Read.liftF {α : Type} : Except Fault α → Read α
  | .ok a => pure a
  | .error e => throw e

/-- `check_skip_levels`. -/
def check_skip_levels (format : PostingFormat) (levels : List (List UInt32))
    (doc_ids : List UInt32) : Read Unit := do
  if format.has_skip_levels then
    let matched ← Read.liftF (skip_levels_match levels doc_ids)
    if ! matched then throw (Fault.error (LaurusError.index
      (s!"posting list: the skip table does not match the one built from its {doc_ids.length} " ++
        s!"doc ids (level count {levels.length}) — segment is corrupted")))

/-- So many `u32`s. -/
def read_u32s : ℕ → Read (List UInt32)
  | 0 => return []
  | len + 1 => do
    let value ← read_u32
    let values ← read_u32s len
    return value :: values

/-- So many levels of the skip table. -/
def read_levels : ℕ → Read (List (List UInt32))
  | 0 => return []
  | num_levels + 1 => do
    let level_len ← read_varint
    let r ← get
    let level_len ← Read.liftE
      (checked_capacity_u64 level_len.toNat 4 r.remaining "posting skip level length")
    reserve_at r.remaining level_len (level_len * 4)
    let level ← read_u32s level_len
    let levels ← read_levels num_levels
    return level :: levels

/-- A block, unpacked from its bytes; the packer panics on a width above 32
and on too few bytes. -/
def read_block (unpack : Bytes → UInt8 → List UInt32) : Read (List UInt32) := do
  let num_bits ← read_u8
  let num_bits ← Read.liftE (checked_num_bits num_bits)
  let block ← read_raw_with (block_bytes num_bits) fun compressed =>
    if num_bits ≤ 32 ∧ block_bytes num_bits ≤ compressed.length then
      some (unpack compressed num_bits)
    else none
  match block with
  | some block => return block
  | none => throw (Fault.panicked "BitPacker4x::decompress")

/-- Section 1's full blocks, and the document the tail starts from. -/
def read_doc_blocks : ℕ → UInt32 → Read (List UInt32 × UInt32)
  | 0, initial => return ([], initial)
  | blocks + 1, initial => do
    let buf ← read_block (packer.decompress_sorted initial)
    let (doc_ids, initial) ← read_doc_blocks blocks (last_slot buf)
    return (buf ++ doc_ids, initial)

/-- The checked sum of a document and a delta. -/
def add_doc_delta (prev_did : UInt32) (delta : UInt64) : Except LaurusError UInt32 :=
  let did := prev_did.toNat + delta.toNat
  if did < 2 ^ 64 ∧ did < 2 ^ 32 then .ok (UInt32.ofNat did)
  else .error (LaurusError.index
    (s!"posting list: doc id delta {delta} after {prev_did} exceeds u32::MAX — " ++
      "segment is corrupted"))

/-- Section 1's tail. -/
def read_doc_tail : ℕ → UInt32 → Read (List UInt32)
  | 0, _ => return []
  | tail + 1, prev_did => do
    let delta ← read_varint
    let did ← Read.liftE (add_doc_delta prev_did delta)
    let doc_ids ← read_doc_tail tail did
    return did :: doc_ids

/-- Section 2's full blocks. -/
def read_freq_blocks : ℕ → Read (List UInt32)
  | 0 => return []
  | blocks + 1 => do
    let buf ← read_block packer.decompress
    let frequencies ← read_freq_blocks blocks
    return buf ++ frequencies

/-- `u32::try_from(frequency)`. -/
def checked_frequency (frequency : UInt64) : Except LaurusError UInt32 :=
  if frequency.toNat < 2 ^ 32 then .ok frequency.toUInt32
  else .error (LaurusError.index
    s!"posting list: frequency {frequency} exceeds u32::MAX — segment is corrupted")

/-- Section 2's tail. -/
def read_freq_tail : ℕ → Read (List UInt32)
  | 0 => return []
  | tail + 1 => do
    let frequency ← read_varint
    let frequency ← Read.liftE (checked_frequency frequency)
    let frequencies ← read_freq_tail tail
    return frequency :: frequencies

/-- The checked sum of a position and a delta. -/
def add_pos_delta (prev_pos : UInt32) (delta : UInt64) : Except LaurusError UInt32 :=
  if delta.toNat < 2 ^ 32 ∧ prev_pos.toNat + delta.toNat < 2 ^ 32 then
    .ok (UInt32.ofNat (prev_pos.toNat + delta.toNat))
  else .error (LaurusError.index
    (s!"posting list: position delta {delta} after {prev_pos} exceeds u32::MAX — " ++
      "segment is corrupted"))

/-- The positions of one posting, deltas from `prev_pos` on. -/
def read_deltas : ℕ → UInt32 → Read (List UInt32)
  | 0, _ => return []
  | count + 1, prev_pos => do
    let delta ← read_varint
    let pos ← Read.liftE (add_pos_delta prev_pos delta)
    let positions ← read_deltas count pos
    return pos :: positions

/-- One posting of Section 4. -/
def read_posting_positions (doc_id frequency : UInt32) : Read (Option (List UInt32)) := do
  let has ← read_flag "has_positions"
  if has then
    let count ← read_varint
    let r ← get
    let count ← Read.liftE
      (checked_capacity_u64 count.toNat 1 r.remaining "posting position count")
    if count ≠ frequency.toNat then throw (Fault.error (LaurusError.index
      (s!"posting list: doc {doc_id} has {count} positions but a frequency " ++
        s!"of {frequency} — segment is corrupted")))
    reserve_at r.remaining count count
    let positions ← read_deltas count 0
    return some positions
  else return none

/-- Section 4, over the documents and their frequencies. -/
def read_positions : List (UInt32 × UInt32) → Read (List (Option (List UInt32)))
  | [] => return []
  | (doc_id, frequency) :: entries => do
    let positions ← read_posting_positions doc_id frequency
    let rest ← read_positions entries
    return positions :: rest

/-- The table an old list has none of; `build_skip_levels` indexes the
documents by its windows. -/
def rebuilt_skip_levels (doc_ids : List UInt32) : Except Fault (List (List UInt32)) :=
  if (skip_level_shape doc_ids.length).all fun (step, len) =>
      (List.range len).all fun i => (window_last doc_ids step i).isOk then
    .ok (build_skip_levels doc_ids)
  else .error (Fault.panicked "build_skip_levels")

/-- Section 3, when there is one. -/
def read_weights (any_weights : Bool) (available n : ℕ) : Read (List UInt32) :=
  if any_weights then do
    reserve_at available n (saturating_mul n 4)
    read_u32s n
  else return []

/-- Section 4, when there is one. -/
def read_all_positions (any_positions : Bool) (available n : ℕ)
    (entries : List (UInt32 × UInt32)) : Read (Option (List (Option (List UInt32)))) :=
  if any_positions then do
    reserve_at available n n
    let out ← read_positions entries
    return some out
  else return none

/-- The skip table: the one on disk, or one rebuilt. -/
def final_skip_levels (format : PostingFormat) (disk_skip_levels : List (List UInt32))
    (doc_ids : List UInt32) : Read (List (List UInt32)) :=
  if format.has_skip_levels then return disk_skip_levels
  else Read.liftF (rebuilt_skip_levels doc_ids)

/-- The sections of a list of `n` postings, counted when `available` bytes
were left. -/
def read_sections (format : PostingFormat) (any_weights any_positions : Bool)
    (disk_skip_levels : List (List UInt32)) (available n : ℕ) :
    Read (List UInt32 × List UInt32 × List UInt32 × Option (List (Option (List UInt32))) ×
      List (List UInt32)) := do
  let full_blocks := n / POSTING_BLOCK_LEN
  let tail := n % POSTING_BLOCK_LEN
  reserve_at available n (full_blocks + tail)
  let (blocks, initial) ← read_doc_blocks packer full_blocks 0
  let rest ← read_doc_tail tail initial
  let doc_ids := blocks ++ rest
  Read.liftE (check_ascending_doc_ids doc_ids)
  check_skip_levels format disk_skip_levels doc_ids
  reserve_at available n (full_blocks + tail)
  let blocks ← read_freq_blocks packer full_blocks
  let rest ← read_freq_tail tail
  let frequencies := blocks ++ rest
  let weights ← read_weights any_weights available n
  let positions ← read_all_positions any_positions available n (doc_ids.zip frequencies)
  let skip_levels ← final_skip_levels format disk_skip_levels doc_ids
  return (doc_ids, frequencies, weights, positions, skip_levels)

/-- The skip table of version 2 and later. -/
def read_skip_levels (format : PostingFormat) : Read (List (List UInt32)) :=
  if format.has_skip_levels then do
    let num_levels ← read_u8
    read_levels num_levels.toNat
  else return []

/-- The flag of version 3; earlier lists always have weights. -/
def read_any_weights (format : PostingFormat) : Read Bool :=
  if format.has_weight_flag then read_flag "any_weights" else return true

/-- The fields a list begins with: its term, total frequency, document
frequency and posting count. -/
def read_header : Read (String × UInt64 × UInt64 × UInt64) := do
  let term ← read_string
  let total_frequency ← read_varint
  let doc_frequency ← read_varint
  let n ← read_varint
  return (term, total_frequency, doc_frequency, n)

/-- `decode_soa_inner` after the fields a list begins with. -/
def read_body (format : PostingFormat) (max_postings : Option ℕ) (term : String)
    (total_frequency doc_frequency n : UInt64) : Read DecodedPostingList := do
  let any_positions ← read_flag "any_positions"
  let any_weights ← read_any_weights format
  let disk_skip_levels ← read_skip_levels format
  let r ← get
  let n ← Read.liftE
    (bounded_posting_count r.remaining n.toNat any_weights any_positions max_postings)
  if n = 0 then
    check_skip_levels format disk_skip_levels []
    return { term, doc_ids := [], frequencies := [], weights := [],
             positions := if any_positions then some [] else none,
             skip_levels := disk_skip_levels, total_frequency, doc_frequency }
  else
    let (doc_ids, frequencies, weights, positions, skip_levels) ←
      read_sections packer format any_weights any_positions disk_skip_levels r.remaining n
    return { term, doc_ids, frequencies, weights, positions, skip_levels, total_frequency,
             doc_frequency }

/-- `decode_soa_inner`. -/
def decode_soa_inner (format : PostingFormat) (max_postings : Option ℕ) :
    Read DecodedPostingList := do
  let (term, total_frequency, doc_frequency, n) ← read_header
  read_body packer format max_postings term total_frequency doc_frequency n

end Decode

end PostingList

/-- `from_posting_list`: a document is cut to 32 bits. -/
def DecodedPostingList.from_posting_list (list : PostingList) : DecodedPostingList :=
  let doc_ids := list.postings.map fun p => p.doc_id.toUInt32
  { term := list.term
    doc_ids
    frequencies := list.postings.map Posting.frequency
    weights := list.postings.map Posting.weight
    positions :=
      if PostingList.any_positions list.postings then some (list.postings.map Posting.positions)
      else none
    skip_levels := build_skip_levels doc_ids
    total_frequency := list.total_frequency
    doc_frequency := list.doc_frequency }

/-- `into_posting_list`: no weights are all 1.0, no positions are none. -/
def DecodedPostingList.into_posting_list (list : DecodedPostingList) : PostingList :=
  let n := list.doc_ids.length
  let positions := list.positions.getD (List.replicate n none)
  let weights := if list.weights.isEmpty then List.replicate n F32_ONE else list.weights
  { term := list.term
    postings := (((list.doc_ids.zip list.frequencies).zip weights).zip positions).map fun entry =>
      { doc_id := entry.1.1.1.toUInt64, frequency := entry.1.1.2, positions := entry.2,
        weight := entry.1.2 }
    total_frequency := list.total_frequency
    doc_frequency := list.doc_frequency }

end Laurus
