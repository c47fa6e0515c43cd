import Laurus.Lexical.Model.SegmentInfo
import Laurus.Storage.Model.Files
import Mathlib.Data.Finset.Insert

/-!
# The filter over committed ids (`lexical/index/inverted/id_filter.rs`)

One `FilterState` is shared by the readers of an index, under a lock that a
check holds. What the hasher computes, and how many keys a filter of so many
bits takes (a formula in `f64`), are the `IdHasher`'s to say. Counters count
keys and rebuilds, and are natural numbers.
-/

namespace Laurus

/-- `RandomState`, and the `max_keys` of a number of bits. -/
structure IdHasher where
  hash_one : String → UInt64
  max_keys : ℕ → ℕ

/-- `ID_KEY_PREFIX`. -/
def ID_KEY_START : String := "_id:"

/-- `ID_KEY_END`. -/
def ID_KEY_END : String := "_id;"

/-- `BITS_PER_KEY`. -/
def BITS_PER_KEY : ℕ := 16

/-- `BITS_SET_PER_KEY`. -/
def BITS_SET_PER_KEY : ℕ := 7

/-- `MIN_KEYS`. -/
def MIN_KEYS : ℕ := 1024

/-- `BLOCK_BITS`. -/
def BLOCK_BITS : ℕ := 512

/-- `IdCheck`. -/
inductive IdCheck
  | Absent
  | Maybe
  | Unavailable
  deriving DecidableEq, Repr

/-! ## The Bloom filter -/

/-- The filter's bits, in blocks of eight words. -/
abbrev Blocks (count : ℕ) := Vector (Vector UInt64 8) count

/-- `BlockedBloom`. -/
structure BlockedBloom where
  count : ℕ
  pos : 0 < count
  blocks : Blocks count
  ones : ℕ
  inserted : ℕ
  max_keys : ℕ

/-- `splitmix64`. -/
def splitmix64 (x : UInt64) : UInt64 :=
  let x := (x ^^^ (x >>> 30)) * 0xbf58476d1ce4e5b9
  let x := (x ^^^ (x >>> 27)) * 0x94d049bb133111eb
  x ^^^ (x >>> 31)

/-- The word of a position in a block. -/
def word_of (position : UInt64) : Fin 8 := Fin.ofNat 8 (position / 64).toNat

/-- A bit of `locate`: its word, and its mask there. -/
def locate_bit (positions : UInt64) (i : ℕ) : Fin 8 × UInt64 :=
  let position := (positions >>> UInt64.ofNat (9 * i)) &&& UInt64.ofNat (BLOCK_BITS - 1)
  (word_of position, 1 <<< (position % 64))

namespace BlockedBloom

/-- `with_capacity`. -/
def with_capacity (hasher : IdHasher) (keys : ℕ) : BlockedBloom :=
  let keys := max keys MIN_KEYS
  let block_count := (keys * BITS_PER_KEY + (BLOCK_BITS - 1)) / BLOCK_BITS
  { count := block_count
    pos := by
      show 0 < (max _ 1024 * 16 + (512 - 1)) / 512
      omega
    blocks := Vector.replicate block_count (Vector.replicate 8 0)
    ones := 0
    inserted := 0
    max_keys := hasher.max_keys (block_count * BLOCK_BITS) }

/-- The block of `locate`. -/
def locate_block (bloom : BlockedBloom) (hash : UInt64) : Fin bloom.count :=
  ⟨hash.toNat * bloom.count / 2 ^ 64, by
    rw [Nat.div_lt_iff_lt_mul (by omega), Nat.mul_comm]
    exact Nat.mul_lt_mul_of_pos_left hash.toNat_lt bloom.pos⟩

/-- The bits of `locate`. -/
def locate_bits (hash : UInt64) : List (Fin 8 × UInt64) :=
  (List.range BITS_SET_PER_KEY).map (locate_bit (splitmix64 hash))

/-- A word of a block. -/
def word_at {count : ℕ} (blocks : Blocks count) (block : Fin count) (word : Fin 8) : UInt64 :=
  blocks[block][word]

/-- One bit of an insertion. -/
def set_bit {count : ℕ} (block : Fin count) (bits : Blocks count × ℕ) (bit : Fin 8 × UInt64) :
    Blocks count × ℕ :=
  let words := bits.1[block]
  if words[bit.1] &&& bit.2 = 0 then
    (bits.1.set block (words.set bit.1 (words[bit.1] ||| bit.2)), bits.2 + 1)
  else bits

/-- `insert`. -/
def insert (bloom : BlockedBloom) (hash : UInt64) : BlockedBloom :=
  let bits := (locate_bits hash).foldl (set_bit (bloom.locate_block hash)) (bloom.blocks, bloom.ones)
  { bloom with blocks := bits.1, ones := bits.2, inserted := bloom.inserted + 1 }

/-- `may_contain`. -/
def may_contain (bloom : BlockedBloom) (hash : UInt64) : Bool :=
  (locate_bits hash).all fun bit =>
    word_at bloom.blocks (bloom.locate_block hash) bit.1 &&& bit.2 ≠ 0

/-- `fits`. -/
def fits (bloom : BlockedBloom) (more : ℕ) : Bool := bloom.inserted + more ≤ bloom.max_keys

/-- The insertion of several keys. -/
def insert_keys (hasher : IdHasher) (bloom : BlockedBloom) (keys : List String) : BlockedBloom :=
  keys.foldl (fun bloom key => bloom.insert (hasher.hash_one key)) bloom

end BlockedBloom

/-- `id_keys`. -/
def id_keys (dictionary : BlockTermDictionary) : List String :=
  let start := dictionary.seek_index ID_KEY_START
  (List.range' start (dictionary.seek_index ID_KEY_END - start)).filterMap dictionary.entry_at

/-- `id_key_count`. -/
def id_key_count (dictionary : BlockTermDictionary) : ℕ :=
  dictionary.seek_index ID_KEY_END - dictionary.seek_index ID_KEY_START

/-! ## The filter -/

/-- `FilterState`. -/
structure FilterState where
  bloom : BlockedBloom
  covered : Finset SegmentKey
  generation : ℕ

namespace FilterState

variable (hasher : IdHasher)

/-- `CommittedIdFilter::new`. -/
def new : FilterState :=
  { bloom := .with_capacity hasher 0, covered := ∅, generation := 1 }

/-- What a reader's `dictionary` gives for the segment at an index: `none` where
there is none. -/
abbrev Dictionaries := ℕ → Except LaurusError (Option BlockTermDictionary)

/-- The dictionaries of the segments at `index` and after that are not in
`covered`; `none` where one is missing. -/
def uncovered (covered : Finset SegmentKey) (dictionary : Dictionaries) :
    ℕ → List SegmentInfo → Except LaurusError (Option (List (SegmentKey × BlockTermDictionary)))
  | _, [] => .ok (some [])
  | index, info :: segments =>
    if SegmentKey.of info ∈ covered then uncovered covered dictionary (index + 1) segments
    else match dictionary index with
      | .error e => .error e
      | .ok none => .ok none
      | .ok (some segment_dictionary) =>
        match uncovered covered dictionary (index + 1) segments with
        | .ok (some new) => .ok (some ((SegmentKey.of info, segment_dictionary) :: new))
        | result => result

/-- A dictionary's keys inserted. -/
def insert_dictionary (bloom : BlockedBloom) (entry : SegmentKey × BlockTermDictionary) :
    BlockedBloom :=
  BlockedBloom.insert_keys hasher bloom (id_keys entry.2)

/-- `rebuild`: every segment's dictionary is loaded. -/
def rebuild (state : FilterState) (segments : List SegmentInfo) (dictionary : Dictionaries) :
    Except LaurusError Bool × FilterState :=
  match uncovered ∅ dictionary 0 segments with
  | .error e => (.error e, state)
  | .ok none => (.ok false, state)
  | .ok (some dictionaries) =>
    let total := (dictionaries.map fun entry => id_key_count entry.2).sum
    let bloom := dictionaries.foldl (insert_dictionary hasher) (.with_capacity hasher total)
    (.ok true, {
      bloom
      covered := (segments.map SegmentKey.of).toFinset
      generation := state.generation + 1 })

/-- A segment's keys inserted. -/
def cover_segment (state : FilterState) (entry : SegmentKey × BlockTermDictionary) : FilterState :=
  { state with
    bloom := insert_dictionary hasher state.bloom entry
    covered := insert entry.1 state.covered }

/-- `cover`. A rebuild asks for the dictionaries again. -/
def cover (state : FilterState) (segments : List SegmentInfo) (dictionary again : Dictionaries) :
    Except LaurusError Bool × FilterState :=
  match uncovered state.covered dictionary 0 segments with
  | .error e => (.error e, state)
  | .ok none => (.ok false, state)
  | .ok (some new) =>
    let more := (new.map fun entry => id_key_count entry.2).sum
    if state.bloom.fits more then
      (.ok true, new.foldl (cover_segment hasher) state)
    else state.rebuild hasher segments again

/-- The answer of a filter that covers the reader's segments. -/
def answer (state : FilterState) (key : String) : IdCheck :=
  if state.bloom.may_contain (hasher.hash_one key) then .Maybe else .Absent

/-- `check`: what it answers, the filter, and the reader's generation. -/
def check (state : FilterState) (covered_generation : ℕ) (segments : List SegmentInfo)
    (dictionary again : Dictionaries) (key : String) :
    Except LaurusError IdCheck × FilterState × ℕ :=
  if covered_generation ≠ state.generation then
    match state.cover hasher segments dictionary again with
    | (.error e, state) => (.error e, state, covered_generation)
    | (.ok false, state) => (.ok .Unavailable, state, covered_generation)
    | (.ok true, state) => (.ok (state.answer hasher key), state, state.generation)
  else (.ok (state.answer hasher key), state, covered_generation)

end FilterState

/-! ## The readers that ask it (`live_doc_ids_for_term`, `reader.rs`) -/

/-- Why a dictionary is not read. -/
inductive DictionaryFault
  | failed (e : LaurusError)
  | missing
  deriving DecidableEq, Repr

/-- The dictionaries of segments, where there is no fault: those of the
segments' keys, as a segment's files never change. -/
def dictionaries (content : SegmentKey → BlockTermDictionary) (segments : List SegmentInfo)
    (faults : ℕ → Option DictionaryFault) : FilterState.Dictionaries := fun index =>
  match faults index, segments[index]? with
  | some (.failed e), _ => .error e
  | some .missing, _ => .ok none
  | none, some info => .ok (some (content (SegmentKey.of info)))
  | none, none => .ok none

/-- What a reader has of the filter: its segments, and the generation of the
filter that it covered them at. -/
structure IdReader where
  segments : List SegmentInfo
  covered_generation : ℕ

/-- The check of an id by a reader. -/
def IdReader.check (hasher : IdHasher) (content : SegmentKey → BlockTermDictionary)
    (reader : IdReader) (filter : FilterState) (faults again : ℕ → Option DictionaryFault)
    (id : String) : Except LaurusError IdCheck × FilterState × IdReader :=
  let checked := filter.check hasher reader.covered_generation reader.segments
    (dictionaries content reader.segments faults) (dictionaries content reader.segments again)
    (ID_KEY_START ++ id)
  (checked.1, checked.2.1, { reader with covered_generation := checked.2.2 })

end Laurus
