import Laurus.Common.Bytes
import Laurus.Storage.Helpers.Structured
import Laurus.Storage.Model.Structured

/-!
# Block files read back

What a `BlockWriter` leaves is a header and the bytes of each block, one
after the other, as long as no piece exceeds the block size; `Buffers` is
what it keeps from call to call. Each read takes one block off, up to the
trailer. A block has no checksum: the one of the file covers them all.
-/

namespace Laurus

/-!
## Block files (`storage/structured.rs`)

`BlockWriter` and `BlockReader` over structured files. Both counters wrap
around, as they do where overflow is not checked, and a block's length is
cut to 32 bits in its header.
-/

/-! ## The writer -/

/-- `BlockWriter`. -/
structure BlockWriter where
  writer : StructWriter
  block_size : ℕ
  current_block : Bytes
  blocks_written : UInt64
  deriving DecidableEq, Repr

/-- A computation that writes blocks. -/
abbrev BlockWrite := Comp LaurusError BlockWriter

namespace BlockWriter

/-- `BlockWriter::new`. -/
def new (block_size : ℕ) : BlockWriter :=
  { writer := .new, block_size, current_block := [], blocks_written := 0 }

/-- A call on the underlying writer. -/
def on_writer {α : Type} (p : Write α) : BlockWrite α := fun s =>
  match p s.writer with
  | .ok (a, writer) => .ok (a, { s with writer })
  | .error e => .error e

/-- `flush_block`. -/
def flush_block : BlockWrite Unit := do
  let s ← get
  if s.current_block ≠ [] then
    on_writer (StructWriter.write_u32 (UInt32.ofNat s.current_block.length))
    on_writer (StructWriter.write_u64 s.blocks_written)
    on_writer (StructWriter.write_raw s.current_block)
    modify fun s => { s with current_block := [], blocks_written := s.blocks_written + 1 }

/-- `write_to_block`. -/
def write_to_block (data : Bytes) : BlockWrite Unit := do
  let s ← get
  if s.block_size < s.current_block.length + data.length then flush_block
  -- data larger than a block goes to the file as it is
  if s.block_size < data.length then on_writer (StructWriter.write_raw data)
  else modify fun s => { s with current_block := s.current_block ++ data }

/-- `close`. -/
def close (crc32 : Bytes → UInt32) (s : BlockWriter) : Except LaurusError Bytes :=
  match flush_block s with
  | .ok (_, s) => s.writer.close crc32
  | .error e => .error e

end BlockWriter

/-! ## The reader -/

/-- `BlockReader`. -/
structure BlockReader where
  reader : StructReader
  block_cache : Bytes
  current_block_size : ℕ
  current_block_pos : ℕ
  blocks_read : UInt64
  deriving DecidableEq, Repr

/-- A computation that reads blocks. -/
abbrev BlockRead := Comp Fault BlockReader

namespace BlockReader

/-- `BlockReader::new`. -/
def new (file : Bytes) : BlockReader where
  reader := .new file
  block_cache := []
  current_block_size := 0
  current_block_pos := 0
  blocks_read := 0

/-- A call on the underlying reader. -/
def on_reader {α : Type} (p : Read α) : BlockRead α := fun s =>
  match p s.reader with
  | .ok (a, reader) => .ok (a, { s with reader })
  | .error e => .error e

/-- `read_block`. -/
def read_block : BlockRead (Option Bytes) := do
  if ← on_reader StructReader.is_eof then return none
  let block_size ← on_reader StructReader.read_u32
  let block_number ← on_reader StructReader.read_u64
  let s ← get
  if block_number ≠ s.blocks_read then
    throw (Fault.error (LaurusError.storage
      s!"Block number mismatch: expected {s.blocks_read}, got {block_number}"))
  let block ← on_reader (StructReader.read_raw block_size.toNat)
  modify fun s => { s with
    block_cache := block
    current_block_size := block_size.toNat
    current_block_pos := 0
    blocks_read := s.blocks_read + 1 }
  return some block

end BlockReader

section BlockFile

open Laurus.Comp

/-- A block in the file: its length, its number and its bytes. -/
def one_block (number : UInt64) (block : Bytes) : Bytes :=
  Bytes.ofNatLE 4 (UInt32.ofNat block.length).toNat ++ Bytes.ofNatLE 8 number.toNat ++ block

/-- Blocks in the file, from a number on. -/
def blocks_bytes : UInt64 → List Bytes → Bytes
  | _, [] => []
  | number, block :: blocks => one_block number block ++ blocks_bytes (number + 1) blocks

theorem blocks_bytes_concat (number : UInt64) (blocks : List Bytes) (block : Bytes) :
    blocks_bytes number (blocks ++ [block]) =
      blocks_bytes number blocks ++ one_block (number + UInt64.ofNat blocks.length) block := by
  induction blocks generalizing number with
  | nil => simp [blocks_bytes]
  | cons first blocks ih =>
      have hnumber : number + 1 + UInt64.ofNat blocks.length =
          number + UInt64.ofNat (blocks.length + 1) := by
        rw [UInt64.ofNat_add, UInt64.add_assoc, UInt64.add_comm 1]
        rfl
      rw [List.cons_append, blocks_bytes, ih, blocks_bytes, List.append_assoc, hnumber,
        List.length_cons]

/-! ## Writing -/

namespace BlockWriter

/-- A call on a block writer. -/
inductive BlockOp
  | write (data : Bytes)
  | flush

def BlockOp.run : BlockOp → BlockWrite Unit
  | .write data => write_to_block data
  | .flush => flush_block

/-- What a call writes. -/
def BlockOp.data : BlockOp → Bytes
  | .write data => data
  | .flush => []

/-- A sequence of calls. -/
def run_ops : List BlockOp → BlockWrite Unit
  | [] => return ()
  | op :: ops => do
    op.run
    run_ops ops

/-- **What a writer holds** once it was given `data`: full blocks in the
file, and the last one, which is not complete. -/
structure Buffers (block_size : ℕ) (data : Bytes) (blocks : List Bytes) (s : BlockWriter) :
    Prop where
  size : s.block_size = block_size
  writer : s.writer = StructWriter.new.append (blocks_bytes 0 blocks)
  number : s.blocks_written = UInt64.ofNat blocks.length
  data : blocks.flatten ++ s.current_block = data
  current : s.current_block.length ≤ block_size
  blocks : ∀ block ∈ blocks, block.length ≤ block_size

variable {block_size : ℕ} {data : Bytes} {blocks : List Bytes} {s : BlockWriter}

theorem new_buffers (block_size : ℕ) : Buffers block_size [] [] (new block_size) where
  size := rfl
  writer := by simp [new, StructWriter.append, blocks_bytes]
  number := rfl
  data := rfl
  current := Nat.zero_le _
  blocks := fun _ h => absurd h List.not_mem_nil

theorem on_writer_bind {α : Type} {p : Write Unit} {bytes : Bytes} (hp : Emits p bytes ())
    (f : Unit → BlockWrite α) (h : s.writer.AtEnd) :
    (on_writer p >>= f) s = f () { s with writer := s.writer.append bytes } := by
  rw [bind_apply, on_writer, hp s.writer h]
  rfl

theorem Buffers.atEnd (h : Buffers block_size data blocks s) : s.writer.AtEnd := by
  rw [h.writer]
  exact Output.ready_emit (s := StructWriter.new) StructWriter.ready_new

theorem flush_block_eq (h : s.writer.AtEnd) (hne : s.current_block ≠ []) :
    flush_block s = .ok ((), {
      writer := s.writer.append (one_block s.blocks_written s.current_block)
      block_size := s.block_size
      current_block := []
      blocks_written := s.blocks_written + 1 }) := by
  have happend : ∀ (w : StructWriter) (bs : Bytes), w.AtEnd → (w.append bs).AtEnd :=
    fun w bs hw => Output.ready_emit (s := w) hw
  rw [flush_block, bind_apply, get_apply]
  dsimp only
  rw [if_pos hne, on_writer_bind (StructWriter.emits_u32 _) _ h,
    on_writer_bind (StructWriter.emits_u64 _) _ (happend _ _ h),
    on_writer_bind (StructWriter.emits_raw _) _ (happend _ _ (happend _ _ h))]
  simp only [modify, modifyGet, MonadStateOf.modifyGet, StateT.modifyGet, pure, Except.pure,
    one_block, StructWriter.append, List.append_assoc, List.length_append, Nat.add_assoc]

/-- **A flush** puts the block in the file. -/
theorem Buffers.flush (h : Buffers block_size data blocks s) :
    ∃ blocks' s', flush_block s = .ok ((), s') ∧ Buffers block_size data blocks' s' ∧
      s'.current_block = [] := by
  by_cases hempty : s.current_block = []
  · refine ⟨blocks, s, ?_, h, hempty⟩
    rw [flush_block, bind_apply, get_apply]
    dsimp only
    rw [if_neg (not_not.2 hempty)]
    rfl
  · refine ⟨blocks ++ [s.current_block], _, flush_block_eq h.atEnd hempty, ?_, rfl⟩
    refine ⟨h.size, ?_, ?_, ?_, Nat.zero_le _, fun block hblock => ?_⟩
    · show s.writer.append _ = _
      rw [h.writer, blocks_bytes_concat, ← h.number, UInt64.zero_add]
      exact Output.emit_append StructWriter.new _ _
    · show s.blocks_written + 1 = _
      rw [h.number, List.length_append, List.length_singleton, UInt64.ofNat_add]
      rfl
    · show (blocks ++ [s.current_block]).flatten ++ [] = data
      rw [List.append_nil, List.flatten_append, List.flatten_singleton, h.data]
    · rcases List.mem_append.1 hblock with hblock | hblock
      · exact h.blocks block hblock
      · rw [List.mem_singleton.1 hblock]
        exact h.current

theorem Buffers.push (h : Buffers block_size data blocks s) {piece : Bytes}
    (hfits : s.current_block.length + piece.length ≤ block_size) :
    Buffers block_size (data ++ piece) blocks
      { s with current_block := s.current_block ++ piece } where
  size := h.size
  writer := h.writer
  number := h.number
  data := by rw [← h.data, List.append_assoc]
  current := by rwa [List.length_append]
  blocks := h.blocks

/-- **A write** of no more than a block is buffered. -/
theorem Buffers.write (h : Buffers block_size data blocks s) {piece : Bytes}
    (hpiece : piece.length ≤ block_size) :
    ∃ blocks' s', write_to_block piece s = .ok ((), s') ∧
      Buffers block_size (data ++ piece) blocks' s' := by
  have hnot : ¬ s.block_size < piece.length := by
    rw [h.size]
    omega
  by_cases hfull : s.block_size < s.current_block.length + piece.length
  · obtain ⟨blocks', s', hrun, hbuffers, hempty⟩ := h.flush
    refine ⟨blocks', _, ?_, hbuffers.push (by grind)⟩
    rw [write_to_block, bind_apply, get_apply]
    dsimp only
    rw [if_pos hfull, bind_apply, hrun]
    dsimp only
    rw [if_neg hnot]
    rfl
  · refine ⟨blocks, _, ?_, h.push (by rw [h.size] at hfull; omega)⟩
    rw [write_to_block, bind_apply, get_apply]
    dsimp only
    rw [if_neg hfull, if_neg hnot]
    rfl

/-- **Any calls** leave what was written in the file and the buffer. -/
theorem Buffers.run {ops : List BlockOp} (h : Buffers block_size data blocks s)
    (hops : ∀ op ∈ ops, op.data.length ≤ block_size) :
    ∃ blocks' s', run_ops ops s = .ok ((), s') ∧
      Buffers block_size (data ++ ops.flatMap BlockOp.data) blocks' s' := by
  induction ops generalizing data blocks s with
  | nil => exact ⟨blocks, s, rfl, by rwa [List.flatMap_nil, List.append_nil]⟩
  | cons op ops ih =>
      rw [List.forall_mem_cons] at hops
      have hop : ∃ blocks' s', op.run s = .ok ((), s') ∧
          Buffers block_size (data ++ op.data) blocks' s' := by
        rcases op with piece | _
        · exact h.write hops.1
        · obtain ⟨blocks', s', hrun, hbuffers, -⟩ := h.flush
          exact ⟨blocks', s', hrun, by rwa [BlockOp.data, List.append_nil]⟩
      obtain ⟨blocks', s', hrun, hbuffers⟩ := hop
      obtain ⟨blocks'', s'', hrest, hall⟩ := ih hbuffers hops.2
      refine ⟨blocks'', s'', ?_, by grind⟩
      rw [run_ops, bind_apply, hrun]
      exact hrest

end BlockWriter

/-! ## Reading -/

namespace BlockReader

/-- The blocks that are read until the end. -/
inductive ReadsUntilEnd : BlockReader → List Bytes → BlockReader → Prop
  | eof {s s' : BlockReader} : read_block s = .ok (none, s') → ReadsUntilEnd s [] s'
  | block {s s' t : BlockReader} {block : Bytes} {blocks : List Bytes} :
      read_block s = .ok (some block, s') → ReadsUntilEnd s' blocks t →
      ReadsUntilEnd s (block :: blocks) t

variable {s : BlockReader} {block tail : Bytes}

theorem on_reader_bind {α β : Type} {p : Read α} {bytes : Bytes} {a : α} (hp : Reads p bytes a)
    (f : α → BlockRead β) {t : Bytes} (h : s.reader.rest = bytes ++ t) :
    (on_reader p >>= f) s = f a { s with reader := s.reader.advance bytes } := by
  rw [bind_apply, on_reader, hp s.reader t h]
  rfl

theorem is_eof_bind {α : Type} (f : Bool → BlockRead α) :
    (on_reader StructReader.is_eof >>= f) s =
      f (decide (s.reader.remaining ≤ s.reader.trailer_len)) s := by
  rw [bind_apply, on_reader, StructReader.is_eof_eq]

theorem trailer_len_le (r : StructReader) : r.trailer_len ≤ FOOTER_LEN := by
  rw [StructReader.trailer_len]
  split
  · exact Nat.le_refl _
  · rw [LEGACY_TRAILER_LEN, FOOTER_LEN]
    omega

/-- **A block that is next is read**, and its number counted. -/
theorem read_block_of_next (hlen : block.length < 2 ^ 32)
    (h : s.reader.rest = one_block s.blocks_read block ++ tail) :
    read_block s = .ok (some block, {
      reader := s.reader.advance (one_block s.blocks_read block)
      block_cache := block
      current_block_size := block.length
      current_block_pos := 0
      blocks_read := s.blocks_read + 1 }) := by
  have hlength : (UInt32.ofNat block.length).toNat = block.length := by
    rw [UInt32.toNat_ofNat']
    omega
  have hsize : Reads StructReader.read_u32 (Bytes.ofNatLE 4 block.length)
      (UInt32.ofNat block.length) := by
    have hreads := StructReader.reads_u32 (UInt32.ofNat block.length)
    rwa [hlength] at hreads
  have hone : one_block s.blocks_read block = Bytes.ofNatLE 4 block.length ++
      (Bytes.ofNatLE 8 s.blocks_read.toNat ++ block) := by
    rw [one_block, hlength, List.append_assoc]
  have hmore : ¬ s.reader.remaining ≤ s.reader.trailer_len := by
    have hle := trailer_len_le s.reader
    grind [FOOTER_LEN, StructReader.length_rest, Bytes.length_ofNatLE]
  rw [hone, List.append_assoc] at h
  have hnext := StructReader.rest_advance_of h
  rw [List.append_assoc] at hnext
  have hlast := StructReader.rest_advance_of hnext
  have hadvance : s.reader.advance (one_block s.blocks_read block) =
      ((s.reader.advance (Bytes.ofNatLE 4 block.length)).advance
        (Bytes.ofNatLE 8 s.blocks_read.toNat)).advance block := by
    rw [hone]
    exact ((Input.advance_append (s.reader.advance (Bytes.ofNatLE 4 block.length)) _ _).trans
      (Input.advance_append s.reader _ _)).symm
  rw [read_block, is_eof_bind, decide_eq_false hmore, if_neg Bool.false_ne_true,
    on_reader_bind hsize _ h, on_reader_bind (StructReader.reads_u64 _) _ hnext, bind_apply,
    get_apply]
  dsimp only
  rw [if_neg (not_not.2 rfl), hlength,
    on_reader_bind (StructReader.reads_raw (by omega)) _ hlast, hadvance]
  rfl

/-- **The blocks are read until the end**, where no more is left than the
trailer. -/
theorem reads_until_end {blocks : List Bytes} (hblocks : ∀ block ∈ blocks, block.length < 2 ^ 32)
    (h : s.reader.rest = blocks_bytes s.blocks_read blocks ++ tail)
    (htail : tail.length ≤ s.reader.trailer_len) :
    ∃ t, ReadsUntilEnd s blocks t ∧
      t.reader = s.reader.advance (blocks_bytes s.blocks_read blocks) := by
  induction blocks generalizing s with
  | nil =>
      refine ⟨s, ReadsUntilEnd.eof ?_, (Input.advance_nil s.reader).symm⟩
      rw [blocks_bytes, List.nil_append] at h
      rw [read_block, is_eof_bind, ← StructReader.length_rest, h, decide_eq_true htail,
        if_pos rfl]
      rfl
  | cons block blocks ih =>
      rw [List.forall_mem_cons] at hblocks
      rw [blocks_bytes, List.append_assoc] at h
      have hread := read_block_of_next hblocks.1 h
      obtain ⟨t, ht, hreader⟩ := @ih {
        reader := s.reader.advance (one_block s.blocks_read block)
        block_cache := block
        current_block_size := block.length
        current_block_pos := 0
        blocks_read := s.blocks_read + 1 } hblocks.2 (StructReader.rest_advance_of h) htail
      refine ⟨t, ReadsUntilEnd.block hread ht, ?_⟩
      rw [hreader, blocks_bytes]
      exact Input.advance_append s.reader _ _

end BlockReader

open BlockWriter BlockReader

/-- **A block file reads back**, after its last flush and after it is closed.
Of calls that write no more than a block each, the blocks read until the end
are what was written, in their order and numbers; the checksum that the
footer keeps of all of them is verified after the last. -/
theorem block_file_round_trip (crc32 : Bytes → UInt32) (block_size : ℕ) (ops : List BlockOp)
    (hops : ∀ op ∈ ops, op.data.length ≤ block_size)
    (hsmall : block_size < 2 ^ 32 ∨ (ops.flatMap BlockOp.data).length < 2 ^ 32) :
    ∃ s flushed file blocks, run_ops ops (BlockWriter.new block_size) = .ok ((), s) ∧
      flush_block s = .ok ((), flushed) ∧ s.close crc32 = .ok file ∧
      blocks.flatten = ops.flatMap BlockOp.data ∧
      flushed.blocks_written = UInt64.ofNat blocks.length ∧
      (∃ t, ReadsUntilEnd (BlockReader.new flushed.writer.out) blocks t) ∧
      ∃ t r, ReadsUntilEnd (BlockReader.new file) blocks t ∧
        StructReader.verify_checksum crc32 t.reader = .ok (.Verified, r) := by
  obtain ⟨_, s, hrun, hbuffers⟩ := (new_buffers block_size).run hops
  obtain ⟨blocks, flushed, hflush, hflushed, hempty⟩ := hbuffers.flush
  have hdata := hflushed.data
  rw [hempty, List.append_nil, List.nil_append] at hdata
  have hshort : ∀ block ∈ blocks, block.length < 2 ^ 32 := by
    intro block hblock
    rcases hsmall with hsize | hlen
    · exact lt_of_le_of_lt (hflushed.blocks block hblock) hsize
    · refine lt_of_le_of_lt ?_ hlen
      rw [← hdata]
      exact (List.sublist_flatten_of_mem hblock).length_le
  have hclosed : flushed.writer.close crc32 =
      .ok (blocks_bytes 0 blocks ++ StructWriter.footer crc32 (blocks_bytes 0 blocks)) := by
    obtain ⟨w, hw, hclose⟩ := StructWriter.close_of_emits crc32
      (StructWriter.emits_raw (blocks_bytes 0 blocks))
    obtain rfl : w = flushed.writer := by
      rw [hflushed.writer]
      exact congrArg Prod.snd (Except.ok.inj
        (hw.symm.trans (StructWriter.emits_raw (blocks_bytes 0 blocks) _ StructWriter.ready_new)))
    exact hclose
  refine ⟨s, flushed, _, blocks, hrun, hflush, by rw [close, hflush]; exact hclosed, hdata,
    hflushed.number, ?_, ?_⟩
  · have hout : flushed.writer.out = blocks_bytes 0 blocks := by
      rw [hflushed.writer]
      exact List.nil_append _
    obtain ⟨t, ht, -⟩ := @reads_until_end (BlockReader.new flushed.writer.out) [] blocks hshort
      (by rw [List.append_nil]; exact hout) (Nat.zero_le _)
    exact ⟨t, ht⟩
  · obtain ⟨t, ht, hreader⟩ := @reads_until_end (BlockReader.new _)
      (StructWriter.footer crc32 (blocks_bytes 0 blocks)) blocks hshort rfl
      (by rw [StructReader.trailer_len_closed crc32 (blocks_bytes 0 blocks) rfl,
        StructWriter.length_footer])
    obtain ⟨r, hverify⟩ := StructReader.verify_checksum_closed crc32 (blocks_bytes 0 blocks)
    exact ⟨t, r, ht, by rw [hreader]; exact hverify⟩

theorem block_file_round_trip_two : ∃ s flushed file blocks,
    run_ops [.write [1, 2], .write [3]] (BlockWriter.new 2) = .ok ((), s) ∧
      flush_block s = .ok ((), flushed) ∧ s.close Crc32.checksum = .ok file ∧
      blocks.flatten = [1, 2, 3] ∧ flushed.blocks_written = UInt64.ofNat blocks.length ∧
      (∃ t, ReadsUntilEnd (BlockReader.new flushed.writer.out) blocks t) ∧
      ∃ t r, ReadsUntilEnd (BlockReader.new file) blocks t ∧
        StructReader.verify_checksum Crc32.checksum t.reader = .ok (.Verified, r) :=
  block_file_round_trip Crc32.checksum 2 [.write [1, 2], .write [3]] (by decide) (by decide)

/-- The file of some calls. -/
def file_of (block_size : ℕ) (ops : List BlockOp) : Bytes :=
  match run_ops ops (BlockWriter.new block_size) with
  | .ok (_, s) => (s.close Crc32.checksum).toOption.getD []
  | .error _ => []

/-- Whether a read gives a block, and the block. -/
def first_block (file : Bytes) : Option Bytes :=
  match read_block (BlockReader.new file) with
  | .ok (block, _) => block
  | .error _ => none

/-- **A block is read with other bytes than were written**, and a piece longer
than a block is not read to the end. -/
theorem block_file_round_trip_counterexample :
    first_block ((file_of 2 [.write [1]]).set 12 9) = some [9] ∧
      file_of 2 [.write [1, 2, 3]] ≠ [] ∧ ∀ blocks t,
        ¬ ReadsUntilEnd (BlockReader.new (file_of 2 [.write [1, 2, 3]])) blocks t := by
  have hread : (read_block (BlockReader.new (file_of 2 [.write [1, 2, 3]]))).isOk = false := by
    decide +kernel
  refine ⟨by decide +kernel, by decide +kernel, fun blocks t ht => ?_⟩
  rcases ht with heof | ⟨hblock, -⟩
  · rw [heof] at hread
    exact Bool.noConfusion hread
  · rw [hblock] at hread
    exact Bool.noConfusion hread

end BlockFile

end Laurus
