import Laurus.Posting.Model.Format

/-!
# What is relied on of the block packer

`BitPacker.Lawful` is what the `bitpacking` crate documents: a block is
packed in the bytes its width takes, at most 32 bits a value, and unpacks to
itself; the sorted kind, from a start no greater than an ascending block.
`BitPacker.plain` packs nothing away, and is lawful.
-/

namespace Laurus

/-- The laws of the packer. -/
structure BitPacker.Lawful (packer : BitPacker) : Prop where
  num_bits_le : ∀ block, packer.num_bits block ≤ 32
  num_bits_sorted_le : ∀ initial block, packer.num_bits_sorted initial block ≤ 32
  length_compress : ∀ block, block.length = POSTING_BLOCK_LEN →
    (packer.compress block (packer.num_bits block)).length = block_bytes (packer.num_bits block)
  length_compress_sorted : ∀ initial block, block.length = POSTING_BLOCK_LEN →
    (initial :: block).Pairwise (· ≤ ·) →
    (packer.compress_sorted initial block (packer.num_bits_sorted initial block)).length =
      block_bytes (packer.num_bits_sorted initial block)
  decompress_compress : ∀ block, block.length = POSTING_BLOCK_LEN →
    packer.decompress (packer.compress block (packer.num_bits block)) (packer.num_bits block) =
      block
  decompress_compress_sorted : ∀ initial block, block.length = POSTING_BLOCK_LEN →
    (initial :: block).Pairwise (· ≤ ·) →
    packer.decompress_sorted initial
      (packer.compress_sorted initial block (packer.num_bits_sorted initial block))
      (packer.num_bits_sorted initial block) = block

namespace BitPacker

/-- A block's values at full width. -/
def plain_compress (block : List UInt32) : Bytes :=
  (block.map UInt32.toNat).flatMap (Bytes.ofNatLE 4)

/-- The first values of so many bytes. -/
def plain_decompress (bytes : Bytes) : List UInt32 :=
  (Bytes.wordsLE 4 POSTING_BLOCK_LEN bytes).map UInt32.ofNat

theorem length_wordsLE (w n : ℕ) (bytes : Bytes) : (Bytes.wordsLE w n bytes).length = n := by
  induction n generalizing bytes with
  | zero => rfl
  | succ n ih => rw [Bytes.wordsLE, List.length_cons, ih]

theorem length_plain_decompress (bytes : Bytes) :
    (plain_decompress bytes).length = POSTING_BLOCK_LEN := by
  rw [plain_decompress, List.length_map, length_wordsLE]

/-- The packer that leaves every block at full width. -/
def plain : BitPacker where
  num_bits _ := 32
  num_bits_sorted _ _ := 32
  compress block _ := plain_compress block
  compress_sorted _ block _ := plain_compress block
  decompress bytes _ := plain_decompress bytes
  decompress_sorted _ bytes _ := plain_decompress bytes
  length_decompress bytes _ := length_plain_decompress bytes
  length_decompress_sorted _ bytes _ := length_plain_decompress bytes

theorem length_plain_compress {block : List UInt32} (h : block.length = POSTING_BLOCK_LEN) :
    (plain_compress block).length = block_bytes 32 := by
  rw [plain_compress, Bytes.length_flatMap_ofNatLE, List.length_map, h]
  rfl

theorem plain_decompress_compress {block : List UInt32} (h : block.length = POSTING_BLOCK_LEN) :
    plain_decompress (plain_compress block) = block := by
  have hfit : ∀ v ∈ block.map UInt32.toNat, v < 256 ^ 4 := by
    intro v hv
    obtain ⟨value, -, rfl⟩ := List.mem_map.1 hv
    exact value.toNat_lt
  have hwords := Bytes.wordsLE_flatMap hfit []
  grind [plain_decompress, plain_compress, List.map_id'', UInt32.ofNat_toNat]

theorem plain_lawful : plain.Lawful where
  num_bits_le _ := UInt8.le_refl 32
  num_bits_sorted_le _ _ := UInt8.le_refl 32
  length_compress _ h := length_plain_compress h
  length_compress_sorted _ _ h _ := length_plain_compress h
  decompress_compress _ h := plain_decompress_compress h
  decompress_compress_sorted _ _ h _ := plain_decompress_compress h

end BitPacker

end Laurus
