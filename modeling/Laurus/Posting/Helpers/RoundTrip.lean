import Laurus.Posting.Helpers.Checks
import Laurus.Posting.Packer
import Laurus.Storage.Helpers.Structured

/-!
# What the encoder writes, the decoder reads

Section by section, `Carries least p a q b`: `q` takes exactly what `p`
writes, at least `least` bytes of it, which is what `bounded_posting_count`
and the other bounds count on.
-/

namespace Laurus

open Laurus.Comp

namespace PostingList

open StructWriter StructReader

variable {packer : BitPacker}

theorem carries_flag (what : String) (flag : Bool) :
    Carries 1 (write_u8 flag.toUInt8) () (read_flag what) flag := by
  refine (carries_u8 flag.toUInt8).map ?_
  cases flag <;> rfl

variable {α : Type} {available : ℕ} {postings : List Posting} {flag positions : Bool} {n : ℕ}

@[simp] theorem write_liftE_ok (a : α) : Write.liftE (.ok a) = pure a := rfl

@[simp] theorem read_liftF_ok (a : α) : Read.liftF (.ok a) = pure a := rfl

theorem reserve_at_eq {count least : ℕ} (h : least ≤ available) :
    reserve_at available count least = pure () := by
  rw [reserve_at, if_neg (by omega)]

/-! ## The skip table -/

theorem carries_u32s : ∀ values : List UInt32,
    Carries (4 * values.length) (values.forM write_u32) () (read_u32s values.length) values
  | [] => Carries.pure () []
  | value :: values => by
      refine (carries_u32 value).bind ((carries_u32s values).map rfl) ?_
      rw [List.length_cons]
      omega

theorem carries_levels : ∀ levels : List (List UInt32), (∀ level ∈ levels, level.length < 2 ^ 64) →
    Carries 0 (write_levels levels) () (read_levels levels.length) levels
  | [], _ => Carries.pure () []
  | level :: levels, hfit => by
      have hlen := toNat_ofNat_length (hfit level List.mem_cons_self)
      have hrest := carries_levels levels fun l hl => hfit l (List.mem_cons_of_mem _ hl)
      have hbody : Carries (4 * level.length) (do level.forM write_u32; write_levels levels) ()
          (do
            let level ← read_u32s level.length
            let levels ← read_levels levels.length
            return level :: levels) (level :: levels) :=
        (carries_u32s level).bind (hrest.map rfl) (by omega)
      refine (carries_varint (UInt64.ofNat level.length)).bind (hbody.get_bind fun r hr => ?_)
        (Nat.zero_le _)
      have hrem : level.length * 4 ≤ r.remaining := by
        rw [input_rest, length_rest] at hr
        omega
      have hcheck : checked_capacity_u64 (UInt64.ofNat level.length).toNat 4 r.remaining
          "posting skip level length" = .ok level.length := by
        grind [checked_capacity_u64_eq_ok]
      rw [hcheck, read_liftE_ok, pure_bind, reserve_at_eq hrem, pure_bind]

theorem length_skip_level_shape_le (n : ℕ) : (skip_level_shape n).length ≤ 21 := by
  have hfrom : ∀ turns current, (skip_level_shape_from n turns current).length ≤ turns := by
    intro turns
    induction turns with
    | zero => exact fun _ => Nat.le_refl _
    | succ turns ih =>
        grind [skip_level_shape_from]
  unfold skip_level_shape
  grind

theorem length_build_skip_levels_lt (doc_ids : List UInt32) :
    (build_skip_levels doc_ids).length < 256 := by
  have h := length_skip_level_shape_le doc_ids.length
  rw [build_skip_levels, List.length_map]
  omega

theorem length_level_lt {doc_ids level : List UInt32} (h64 : doc_ids.length < 2 ^ 64)
    (h : level ∈ build_skip_levels doc_ids) : level.length < 2 ^ 64 := by
  obtain ⟨⟨step, len⟩, hs, rfl⟩ := List.mem_map.1 h
  obtain ⟨hstep, hfit⟩ := skip_level_shape_fits hs
  have hle : len * 1 ≤ len * step := Nat.mul_le_mul_left len hstep
  rw [length_skip_level]
  dsimp only at hfit
  omega

/-- The documents of postings that fit the format. -/
def docs (postings : List Posting) : List UInt32 := postings.map fun p => p.doc_id.toUInt32

/-- All documents fit 32 bits. -/
def DocsFit (postings : List Posting) : Prop := ∀ p ∈ postings, p.doc_id.toNat < 2 ^ 32

theorem mapM_doc_id_u32 : ∀ {postings : List Posting}, DocsFit postings →
    postings.mapM (fun p => doc_id_u32 p.doc_id) = .ok (docs postings)
  | [], _ => rfl
  | p :: postings, hfit => by
      have hrest := mapM_doc_id_u32 fun q hq => hfit q (List.mem_cons_of_mem _ hq)
      have hp : doc_id_u32 p.doc_id = .ok p.doc_id.toUInt32 := if_pos (hfit p List.mem_cons_self)
      rw [List.mapM_cons, hp, hrest]
      rfl

theorem carries_skip_levels (hfit : DocsFit postings)
    (h64 : postings.length < 2 ^ 64) (format : PostingFormat) :
    Carries 0 (write_skip_section format postings) () (read_skip_levels format)
      (if format.has_skip_levels then build_skip_levels (docs postings) else []) := by
  unfold write_skip_section read_skip_levels
  split
  · have hlt := length_build_skip_levels_lt (docs postings)
    have hlen : (UInt8.ofNat (build_skip_levels (docs postings)).length).toNat =
        (build_skip_levels (docs postings)).length := by
      rw [UInt8.toNat_ofNat', Nat.mod_eq_of_lt (by simpa using hlt)]
    have hlevels := carries_levels (build_skip_levels (docs postings)) fun level hl =>
      length_level_lt (by rw [docs, List.length_map]; exact h64) hl
    rw [write_skip_levels, mapM_doc_id_u32 hfit, write_liftE_ok, pure_bind]
    dsimp only
    rw [if_pos hlt]
    refine (carries_u8 _).bind (k := 0) ?_ (Nat.zero_le _)
    rw [hlen]
    exact hlevels
  · exact Carries.pure () []

/-! ## Blocks -/

theorem carries_block {num_bits : UInt8} {bytes : Bytes} {block : List UInt32}
    {unpack : Bytes → UInt8 → List UInt32} (hbits : num_bits ≤ 32)
    (hlen : bytes.length = block_bytes num_bits) (hblock : unpack bytes num_bits = block) :
    Carries 1 (do write_u8 num_bits; write_raw bytes) () (read_block unpack) block := by
  have hchecked : checked_num_bits num_bits = .ok num_bits := if_neg (UInt8.not_lt.2 hbits)
  have hsmall : block_bytes num_bits < 2 ^ 64 := by
    have hn := num_bits.toNat_lt
    simp only [block_bytes, POSTING_BLOCK_LEN]
    omega
  have hraw : Carries 0 (write_raw bytes) ()
      (read_raw_with (block_bytes num_bits) fun compressed =>
        if num_bits ≤ 32 ∧ block_bytes num_bits ≤ compressed.length then
          some (unpack compressed num_bits)
        else none)
      (some block) := by
    have hread := reads_raw_with (f := fun compressed : Bytes =>
      if num_bits ≤ 32 ∧ block_bytes num_bits ≤ compressed.length then
        some (unpack compressed num_bits)
      else none) (hlen.symm ▸ hsmall)
    rw [hlen, if_pos ⟨hbits, Nat.le_refl _⟩, hblock] at hread
    exact ⟨bytes, Nat.zero_le _, emits_raw bytes, hread⟩
  refine (carries_u8 num_bits).bind (k := 0) ?_ (by omega)
  rw [hchecked, read_liftE_ok, pure_bind]
  exact hraw.map rfl

theorem length_docs (postings : List Posting) : (docs postings).length = postings.length :=
  List.length_map _

theorem last_slot_eq {block : List UInt32} (h : block.length = POSTING_BLOCK_LEN)
    (initial : UInt32) : last_slot block = block.getLastD initial := by
  grind [POSTING_BLOCK_LEN, last_slot]

theorem docs_take_drop (postings : List Posting) (k n : ℕ) :
    docs (postings.take (k + n)) = docs (postings.take k) ++ docs ((postings.drop k).take n) := by
  rw [List.take_add, docs, List.map_append]
  rfl

theorem getLastD_append (l l' : List α) (a : α) :
    (l ++ l').getLastD a = l'.getLastD (l.getLastD a) := by simp

theorem pairwise_split {initial : UInt32} {l l' : List UInt32}
    (h : (initial :: (l ++ l')).Pairwise (· ≤ ·)) :
    (initial :: l).Pairwise (· ≤ ·) ∧ (l.getLastD initial :: l').Pairwise (· ≤ ·) := by
  grind [List.pairwise_cons]

theorem carries_doc_blocks (hP : packer.Lawful) : ∀ (blocks : ℕ) (initial : UInt32)
    (postings : List Posting), DocsFit postings →
      blocks * POSTING_BLOCK_LEN ≤ postings.length →
      (initial :: docs postings).Pairwise (· ≤ ·) →
      Carries blocks (write_doc_blocks packer blocks initial postings)
        ((docs (postings.take (blocks * POSTING_BLOCK_LEN))).getLastD initial)
        (read_doc_blocks packer blocks initial)
        (docs (postings.take (blocks * POSTING_BLOCK_LEN)),
          (docs (postings.take (blocks * POSTING_BLOCK_LEN))).getLastD initial)
  | 0, initial, postings, _, _, _ => by
      simp [docs, write_doc_blocks, read_doc_blocks, Carries.pure]
  | blocks + 1, initial, postings, hfit, hlen, hasc => by
      rw [Nat.succ_mul] at hlen
      set block := docs (postings.take POSTING_BLOCK_LEN) with hblock
      have hblen : block.length = POSTING_BLOCK_LEN := by
        rw [hblock, length_docs, List.length_take]
        omega
      have hsplit : docs postings = block ++ docs (postings.drop POSTING_BLOCK_LEN) := by
        rw [hblock, docs, docs, docs, ← List.map_append, List.take_append_drop]
      rw [hsplit] at hasc
      obtain ⟨hfirst, hrest⟩ := pairwise_split hasc
      have htake : (blocks + 1) * POSTING_BLOCK_LEN =
          POSTING_BLOCK_LEN + blocks * POSTING_BLOCK_LEN := by ring
      have ih := carries_doc_blocks hP blocks (block.getLastD initial)
        (postings.drop POSTING_BLOCK_LEN) (fun p hp => hfit p (List.mem_of_mem_drop hp))
        (by rw [List.length_drop]; omega) hrest
      have hcarry := carries_block (hP.num_bits_sorted_le initial block)
        (hP.length_compress_sorted initial block hblen hfirst)
        (hP.decompress_compress_sorted initial block hblen hfirst)
      have hmap := @mapM_doc_id_u32 (postings.take POSTING_BLOCK_LEN) fun p hp =>
        hfit p (List.mem_of_mem_take hp)
      rw [write_doc_blocks, hmap, write_liftE_ok, pure_bind, ← hblock, ← bind_assoc,
        last_slot_eq hblen initial, htake, docs_take_drop, ← hblock, getLastD_append,
        read_doc_blocks]
      refine hcarry.bind (k := blocks) ?_ (by omega)
      rw [last_slot_eq hblen initial]
      exact ih.map rfl

theorem carries_freq_blocks (hP : packer.Lawful) : ∀ (blocks : ℕ) (postings : List Posting),
    blocks * POSTING_BLOCK_LEN ≤ postings.length →
      Carries blocks (write_freq_blocks packer blocks postings) ()
        (read_freq_blocks packer blocks)
        ((postings.take (blocks * POSTING_BLOCK_LEN)).map Posting.frequency)
  | 0, postings, _ => by
      simpa [write_freq_blocks, read_freq_blocks] using Carries.pure () ([] : List UInt32)
  | blocks + 1, postings, hlen => by
      set block := (postings.take POSTING_BLOCK_LEN).map Posting.frequency with hblock
      have hblen : block.length = POSTING_BLOCK_LEN := by grind
      have htake : (blocks + 1) * POSTING_BLOCK_LEN =
          POSTING_BLOCK_LEN + blocks * POSTING_BLOCK_LEN := by ring
      have ih := carries_freq_blocks hP blocks (postings.drop POSTING_BLOCK_LEN)
        (by rw [List.length_drop]; omega)
      have hcarry := carries_block (hP.num_bits_le block) (hP.length_compress block hblen)
        (hP.decompress_compress block hblen)
      rw [write_freq_blocks, ← hblock, ← bind_assoc, htake, List.take_add, List.map_append,
        ← hblock, read_freq_blocks]
      exact hcarry.bind (ih.map rfl) (by omega)

/-! ## Tails -/

theorem toUInt64_toUInt32 {doc_id : UInt64} (h : doc_id.toNat < 2 ^ 32) :
    doc_id.toUInt32.toUInt64 = doc_id := by
  apply UInt64.toNat_inj.1
  rw [UInt32.toNat_toUInt64, UInt64.toNat_toUInt32, Nat.mod_eq_of_lt h]

theorem add_doc_delta_sub {prev_did : UInt32} {doc_id : UInt64} (h : doc_id.toNat < 2 ^ 32)
    (hle : prev_did ≤ doc_id.toUInt32) :
    add_doc_delta prev_did (doc_id - prev_did.toUInt64) = .ok doc_id.toUInt32 := by
  rw [UInt32.le_iff_toNat_le, UInt64.toNat_toUInt32, Nat.mod_eq_of_lt h] at hle
  have hsub : (doc_id - prev_did.toUInt64).toNat = doc_id.toNat - prev_did.toNat := by
    grind [UInt64.toNat_sub_of_le, UInt64.le_iff_toNat_le, UInt32.toNat_toUInt64]
  have hsum : prev_did.toNat + (doc_id.toNat - prev_did.toNat) = doc_id.toNat := by omega
  rw [add_doc_delta, hsub, hsum, if_pos ⟨by omega, h⟩]
  rfl

theorem carries_doc_tail : ∀ (postings : List Posting) (prev_did : UInt32), DocsFit postings →
    (prev_did :: docs postings).Pairwise (· ≤ ·) →
    Carries postings.length (write_doc_tail prev_did.toUInt64 postings) ()
      (read_doc_tail postings.length prev_did) (docs postings)
  | [], _, _, _ => Carries.pure () []
  | p :: postings, prev_did, hfit, hasc => by
      obtain ⟨hhead, hrest⟩ := List.pairwise_cons.1 hasc
      have hp := hfit p List.mem_cons_self
      have ih := carries_doc_tail postings p.doc_id.toUInt32
        (fun q hq => hfit q (List.mem_cons_of_mem _ hq)) hrest
      have hcheck : doc_id_u32 p.doc_id = .ok p.doc_id.toUInt32 := if_pos hp
      rw [toUInt64_toUInt32 hp] at ih
      rw [write_doc_tail, hcheck, write_liftE_ok, pure_bind]
      refine (carries_varint _).bind (k := postings.length) ?_ (by rw [List.length_cons]; omega)
      rw [add_doc_delta_sub hp (hhead _ List.mem_cons_self), read_liftE_ok, pure_bind]
      exact ih.map rfl

theorem carries_freq_tail : ∀ postings : List Posting,
    Carries postings.length (postings.forM fun p => write_varint p.frequency.toUInt64) ()
      (read_freq_tail postings.length) (postings.map Posting.frequency)
  | [] => Carries.pure () []
  | p :: postings => by
      have hcheck : checked_frequency p.frequency.toUInt64 = .ok p.frequency := by
        rw [checked_frequency, UInt32.toNat_toUInt64, if_pos p.frequency.toNat_lt,
          UInt32.toUInt32_toUInt64]
      refine (carries_varint _).bind (k := postings.length) ?_ (by rw [List.length_cons]; omega)
      rw [hcheck, read_liftE_ok, pure_bind]
      exact (carries_freq_tail postings).map rfl

theorem carries_f32s : ∀ postings : List Posting,
    Carries (4 * postings.length) (postings.forM fun p => write_f32 p.weight) ()
      (read_u32s postings.length) (postings.map Posting.weight)
  | [] => Carries.pure () []
  | p :: postings => by
      refine (carries_u32 p.weight).bind ((carries_f32s postings).map rfl) ?_
      rw [List.length_cons]
      omega

/-! ## Positions -/

theorem ascending_positions_pairwise (positions : List UInt32) :
    (ascending_positions positions).Pairwise (· ≤ ·) := by
  grind [ascending_positions, List.pairwise_mergeSort]

theorem ascending_positions_perm (positions : List UInt32) :
    (ascending_positions positions).Perm positions := by
  unfold ascending_positions
  split
  · exact List.Perm.refl _
  · exact List.mergeSort_perm _ _

theorem length_ascending_positions (positions : List UInt32) :
    (ascending_positions positions).length = positions.length :=
  (ascending_positions_perm positions).length_eq

theorem add_pos_delta_sub {prev_pos pos : UInt32} (hle : prev_pos ≤ pos) :
    add_pos_delta prev_pos (pos - prev_pos).toUInt64 = .ok pos := by
  have hlt := pos.toNat_lt
  have hle' := UInt32.le_iff_toNat_le.1 hle
  have hsub : (pos - prev_pos).toUInt64.toNat = pos.toNat - prev_pos.toNat := by
    rw [UInt32.toNat_toUInt64, UInt32.toNat_sub_of_le _ _ hle]
  have hsum : prev_pos.toNat + (pos.toNat - prev_pos.toNat) = pos.toNat := by omega
  rw [add_pos_delta, hsub, hsum, if_pos ⟨by omega, hlt⟩, UInt32.ofNat_toNat]

theorem carries_deltas : ∀ (positions : List UInt32) (prev_pos : UInt32),
    (prev_pos :: positions).Pairwise (· ≤ ·) →
    Carries positions.length (write_deltas prev_pos positions) ()
      (read_deltas positions.length prev_pos) positions
  | [], _, _ => Carries.pure () []
  | pos :: positions, prev_pos, hasc => by
      obtain ⟨hhead, hrest⟩ := List.pairwise_cons.1 hasc
      refine (carries_varint _).bind (k := positions.length) ?_ (by rw [List.length_cons]; omega)
      rw [add_pos_delta_sub (hhead pos List.mem_cons_self), read_liftE_ok, pure_bind]
      exact (carries_deltas positions pos hrest).map rfl

/-- A posting with positions has as many as its frequency. -/
def FrequencyFits (p : Posting) : Prop := ∀ ps ∈ p.positions, p.frequency.toNat = ps.length

theorem carries_posting_positions {p : Posting} (h : FrequencyFits p) (doc_id : UInt32) :
    Carries 1 (write_positions p) () (read_posting_positions doc_id p.frequency)
      (p.positions.map ascending_positions) := by
  unfold write_positions read_posting_positions
  cases hpos : p.positions with
  | none => exact (carries_flag "has_positions" false).map rfl
  | some positions =>
      have hcount : p.frequency.toNat = (ascending_positions positions).length := by
        rw [length_ascending_positions]
        exact h positions hpos
      have hlt : (ascending_positions positions).length < 2 ^ 32 := hcount ▸ p.frequency.toNat_lt
      have hlen : (UInt64.ofNat (ascending_positions positions).length).toNat =
          (ascending_positions positions).length := toNat_ofNat_length (by omega)
      have hasc : (0 :: ascending_positions positions).Pairwise (· ≤ ·) :=
        List.pairwise_cons.2 ⟨fun _ _ => UInt32.zero_le, ascending_positions_pairwise positions⟩
      have hdeltas := carries_deltas (ascending_positions positions) 0 hasc
      refine (carries_flag "has_positions" true).bind (k := 0) ?_ (by omega)
      refine (carries_varint _).bind (k := 0) ?_ (by omega)
      have hread := hdeltas.map (f := fun positions => pure (some positions)) rfl
      refine Carries.mono (hread.get_bind fun r hr => ?_) (Nat.zero_le _)
      rw [input_rest, length_rest] at hr
      have hcheck : checked_capacity_u64 (UInt64.ofNat (ascending_positions positions).length).toNat
          1 r.remaining "posting position count" = .ok (ascending_positions positions).length := by
        grind [checked_capacity_u64_eq_ok]
      rw [hcheck, read_liftE_ok, pure_bind, if_neg (not_not.2 hcount.symm), reserve_at_eq hr]
      rfl

theorem carries_positions : ∀ postings : List Posting, (∀ p ∈ postings, FrequencyFits p) →
    Carries postings.length (postings.forM write_positions) ()
      (read_positions ((docs postings).zip (postings.map Posting.frequency)))
      (postings.map fun p => p.positions.map ascending_positions)
  | [], _ => Carries.pure () []
  | p :: postings, h => by
      have hrest := carries_positions postings fun q hq => h q (List.mem_cons_of_mem _ hq)
      refine (carries_posting_positions (h p List.mem_cons_self) p.doc_id.toUInt32).bind
        (hrest.map rfl) ?_
      rw [List.length_cons]
      omega

/-! ## The sections -/

theorem carries_any_weights (format : PostingFormat) (flag : Bool) :
    Carries 0 (write_any_weights format flag) () (read_any_weights format)
      (! format.has_weight_flag || flag) := by
  unfold write_any_weights read_any_weights
  cases format.has_weight_flag with
  | true => exact (carries_flag "any_weights" flag).mono (by omega)
  | false => exact Carries.pure () true

/-- The weights the decoder returns. -/
def stored_weights (format : PostingFormat) (flag : Bool) (postings : List Posting) :
    List UInt32 :=
  if ! format.has_weight_flag || flag then postings.map Posting.weight else []

theorem carries_weights {format : PostingFormat} (h : (! format.has_weight_flag || flag) = true →
      saturating_mul postings.length 4 ≤ available) :
    Carries (if ! format.has_weight_flag || flag then 4 * postings.length else 0)
      (write_weights format flag postings) ()
      (read_weights (! format.has_weight_flag || flag) available postings.length)
      (stored_weights format flag postings) := by
  grind [write_weights, read_weights, stored_weights, reserve_at_eq, carries_f32s, Carries.pure]

theorem carries_all_positions
    (hfit : ∀ p ∈ postings, FrequencyFits p) (h : flag = true → postings.length ≤ available) :
    Carries (if flag then postings.length else 0) (write_all_positions flag postings) ()
      (read_all_positions flag available postings.length
        ((docs postings).zip (postings.map Posting.frequency)))
      (if flag then some (postings.map fun p => p.positions.map ascending_positions)
        else none) := by
  unfold write_all_positions read_all_positions
  split
  · rename_i hflag
    rw [reserve_at_eq (h hflag), pure_bind]
    exact (carries_positions postings hfit).map rfl
  · exact Carries.pure () none

/-- What the encoder takes: documents of 32 bits in strictly ascending order,
frequencies that count the positions, a term a length can be written for. -/
structure Encodable (list : PostingList) : Prop where
  docs_fit : DocsFit list.postings
  ascending : (docs list.postings).Pairwise (· < ·)
  frequencies : ∀ p ∈ list.postings, FrequencyFits p
  term : list.term.toByteArray.data.toList.length < 2 ^ 64

theorem length_le_of_ascending : ∀ {doc_ids : List UInt32} (least : ℕ),
    doc_ids.Pairwise (· < ·) → (∀ d ∈ doc_ids, least ≤ d.toNat) → least ≤ 2 ^ 32 →
      doc_ids.length ≤ 2 ^ 32 - least
  | [], _, _, _, _ => Nat.zero_le _
  | d :: doc_ids, least, hasc, hleast, _ => by
      obtain ⟨hhead, hrest⟩ := List.pairwise_cons.1 hasc
      have hd := hleast d List.mem_cons_self
      have hlt := d.toNat_lt
      have ih := length_le_of_ascending (d.toNat + 1) hrest
        (fun d' hd' => UInt32.lt_iff_toNat_lt.1 (hhead d' hd')) (by omega)
      rw [List.length_cons]
      omega

theorem Encodable.length_le {list : PostingList} (h : list.Encodable) :
    list.postings.length ≤ 2 ^ 32 := by
  have hlen := length_le_of_ascending 0 h.ascending (fun _ _ => Nat.zero_le _)
    (Nat.zero_le _)
  rwa [length_docs] at hlen

theorem check_ascending_ok {list : PostingList} (h : list.Encodable) :
    check_ascending_doc_ids (docs list.postings) = .ok () :=
  check_ascending_doc_ids_eq_ok.2 h.ascending

theorem check_skip_levels_ok {doc_ids : List UInt32} (h64 : doc_ids.length < 2 ^ 64)
    (format : PostingFormat) :
    check_skip_levels format (if format.has_skip_levels then build_skip_levels doc_ids else [])
      doc_ids = pure () := by
  grind [check_skip_levels, skip_levels_match_eq, read_liftF_ok]

theorem final_skip_levels_ok {doc_ids : List UInt32} (h64 : doc_ids.length < 2 ^ 64)
    (format : PostingFormat) :
    final_skip_levels format (if format.has_skip_levels then build_skip_levels doc_ids else [])
      doc_ids = pure (build_skip_levels doc_ids) := by
  unfold final_skip_levels
  split
  · rfl
  · rw [rebuilt_skip_levels_eq h64, read_liftF_ok]

/-- The fewest bytes the sections of postings take, as `bounded_posting_count`
has it. -/
def section_bytes (format : PostingFormat) (flag positions : Bool) (n : ℕ) : ℕ :=
  2 * (n / POSTING_BLOCK_LEN) + 2 * (n % POSTING_BLOCK_LEN) +
    (if ! format.has_weight_flag || flag then 4 * n else 0) + if positions then n else 0

theorem bounded_posting_count_ok {format : PostingFormat}
    {max_postings : Option ℕ} (hmax : ∀ max ∈ max_postings, n ≤ max)
    (hn : n < 2 ^ 64) (h : section_bytes format flag positions n ≤ available) :
    bounded_posting_count available n (! format.has_weight_flag || flag) positions max_postings =
      .ok n := by
  have hany : max_postings.any (· < n) = false := by
    cases max_postings with
    | none => rfl
    | some max => simpa using hmax max rfl
  have hper : n * ((if (! format.has_weight_flag || flag) = true then 4 else 0) +
      positions.toNat) = (if ! format.has_weight_flag || flag then 4 * n else 0) +
        if positions then n else 0 := by grind
  have hmin : ¬ available < saturating_add
      (saturating_add (saturating_mul (n / POSTING_BLOCK_LEN) 2)
        (saturating_mul (n % POSTING_BLOCK_LEN) 2))
      (saturating_mul n ((if (! format.has_weight_flag || flag) = true then 4 else 0) +
        positions.toNat)) := by
    rw [section_bytes] at h
    simp only [saturating_add, saturating_mul, hper]
    omega
  simp only [bounded_posting_count, bind, Except.bind, hany, Bool.false_eq_true, if_false,
    if_neg hmin]
  exact checked_usize_eq_ok.2 ⟨hn, rfl⟩

variable {format : PostingFormat} {list : PostingList}

/-- What `bounded_posting_count` makes sure of. -/
structure Covered (format : PostingFormat) (flag positions : Bool) (n available : ℕ) : Prop where
  blocks : n / POSTING_BLOCK_LEN + n % POSTING_BLOCK_LEN ≤ available
  weights : (! format.has_weight_flag || flag) = true → saturating_mul n 4 ≤ available
  positions : positions = true → n ≤ available

theorem covered_of_le
    (h : section_bytes format flag positions n ≤ available) :
    Covered format flag positions n available := by
  refine ⟨?_, fun hflag => ?_, fun hflag => ?_⟩
  · rw [section_bytes] at h
    omega
  · rw [section_bytes, if_pos hflag] at h
    rw [saturating_mul]
    omega
  · rw [section_bytes, if_pos hflag] at h
    omega

theorem read_sections_available {levels : List (List UInt32)}
    {available' : ℕ} (h : Covered format flag positions n available)
    (h' : Covered format flag positions n available') :
    read_sections packer format (! format.has_weight_flag || flag) positions levels available n =
      read_sections packer format (! format.has_weight_flag || flag) positions levels available'
        n := by
  have hweights : read_weights (! format.has_weight_flag || flag) available n =
      read_weights (! format.has_weight_flag || flag) available' n := by
    grind [read_weights, reserve_at_eq, Covered.weights]
  have hpositions : ∀ entries, read_all_positions positions available n entries =
      read_all_positions positions available' n entries := by
    grind [read_all_positions, reserve_at_eq, Covered.positions]
  simp only [read_sections, reserve_at_eq h.blocks, reserve_at_eq h'.blocks, hweights, hpositions]

theorem carries_sections (hP : packer.Lawful) (h : list.Encodable)
    (hcover : Covered format flag positions list.postings.length available) :
    Carries (section_bytes format flag positions list.postings.length)
      (write_sections packer format flag positions list.postings) ()
      (read_sections packer format (! format.has_weight_flag || flag) positions
        (if format.has_skip_levels then build_skip_levels (docs list.postings) else []) available
        list.postings.length)
      (docs list.postings, list.postings.map Posting.frequency,
        stored_weights format flag list.postings,
        if positions then some (list.postings.map fun p => p.positions.map ascending_positions)
          else none,
        build_skip_levels (docs list.postings)) := by
  set postings := list.postings with hpostings
  set blocks := postings.length / POSTING_BLOCK_LEN with hblocks
  set full := blocks * POSTING_BLOCK_LEN with hfull
  have hsum : full + postings.length % POSTING_BLOCK_LEN = postings.length :=
    Nat.div_add_mod' postings.length POSTING_BLOCK_LEN
  have hn := h.length_le
  rw [← hpostings] at hn
  have htail : (postings.drop full).length = postings.length % POSTING_BLOCK_LEN := by
    rw [List.length_drop]
    omega
  have hdocs : docs (postings.take full) ++ docs (postings.drop full) = docs postings := by
    rw [docs, docs, ← List.map_append, List.take_append_drop, docs]
  have hfreqs : (postings.take full).map Posting.frequency ++
      (postings.drop full).map Posting.frequency = postings.map Posting.frequency := by simp
  have hle : (0 :: docs postings).Pairwise (· ≤ ·) :=
    List.pairwise_cons.2 ⟨fun _ _ => UInt32.zero_le, h.ascending.imp fun hlt => UInt32.le_of_lt hlt⟩
  have hsplit := hle
  rw [← hdocs] at hsplit
  have h64 : (docs postings).length < 2 ^ 64 := by rw [length_docs]; omega
  -- the two sides go through the sections in one order
  have hdocblocks := carries_doc_blocks hP blocks 0 postings h.docs_fit (by omega) hle
  have hdoctail := carries_doc_tail (postings.drop full)
    ((docs (postings.take full)).getLastD 0)
    (fun p hp => h.docs_fit p (List.mem_of_mem_drop hp)) (pairwise_split hsplit).2
  have hfreqblocks := carries_freq_blocks hP blocks postings (by omega)
  have hfreqtail := carries_freq_tail (postings.drop full)
  rw [htail] at hdoctail hfreqtail
  dsimp only [write_sections, read_sections]
  rw [reserve_at_eq hcover.blocks, pure_bind]
  set weight_bytes := if (! format.has_weight_flag || flag) = true then 4 * postings.length else 0
    with hweight_bytes
  set position_bytes := if positions = true then postings.length else 0 with hposition_bytes
  set tail := postings.length % POSTING_BLOCK_LEN with htail'
  refine hdocblocks.bind (k := tail + (blocks + (tail + (weight_bytes + position_bytes)))) ?_ ?_
  · refine hdoctail.bind ?_ (Nat.le_refl _)
    rw [hdocs, check_ascending_ok h, read_liftE_ok, pure_bind, check_skip_levels_ok h64, pure_bind,
      pure_bind]
    refine hfreqblocks.bind (hfreqtail.bind ?_ (Nat.le_refl _)) (Nat.le_refl _)
    rw [hfreqs]
    refine (carries_weights hcover.weights).bind ?_ (Nat.le_refl _)
    refine (carries_all_positions h.frequencies hcover.positions).map ?_
    rw [final_skip_levels_ok h64, pure_bind]
  · rw [section_bytes]
    omega

/-! ## The list -/

/-- What the decoder returns for an encoded list. -/
def decoded (format : PostingFormat) (list : PostingList) : DecodedPostingList where
  term := list.term
  doc_ids := docs list.postings
  frequencies := list.postings.map Posting.frequency
  weights := stored_weights format (any_weights format list.postings) list.postings
  positions := if any_positions list.postings then
    some (list.postings.map fun p => p.positions.map ascending_positions) else none
  skip_levels := build_skip_levels (docs list.postings)
  total_frequency := list.total_frequency
  doc_frequency := list.doc_frequency

theorem carries_counted (hP : packer.Lawful) (h : list.Encodable) {max_postings : Option ℕ}
    (hmax : ∀ max ∈ max_postings, list.postings.length ≤ max)
    {f : List UInt32 × List UInt32 × List UInt32 × Option (List (Option (List UInt32))) ×
      List (List UInt32) → Read DecodedPostingList} {empty : Read DecodedPostingList}
    {out : DecodedPostingList}
    (hf : f (docs list.postings, list.postings.map Posting.frequency,
      stored_weights format flag list.postings,
      if positions then some (list.postings.map fun p => p.positions.map ascending_positions)
        else none,
      build_skip_levels (docs list.postings)) = pure out)
    (hempty : list.postings.length = 0 → empty = pure out) :
    Carries 0
      (if list.postings.length = 0 then pure () else
        write_sections packer format flag positions list.postings) ()
      (do
        let r ← get
        let n ← Read.liftE (bounded_posting_count r.remaining
          (UInt64.ofNat list.postings.length).toNat (! format.has_weight_flag || flag) positions
          max_postings)
        (if n = 0 then empty
          else read_sections packer format (! format.has_weight_flag || flag) positions
            (if format.has_skip_levels then build_skip_levels (docs list.postings) else [])
            r.remaining n >>= f)) out := by
  have hn := h.length_le
  have hcount : ∀ r : StructReader,
      section_bytes format flag positions list.postings.length ≤ r.rest.length →
        bounded_posting_count r.remaining (UInt64.ofNat list.postings.length).toNat
          (! format.has_weight_flag || flag) positions max_postings = .ok list.postings.length := by
    grind [toNat_ofNat_length, bounded_posting_count_ok, length_rest]
  by_cases hzero : list.postings.length = 0
  · rw [if_pos hzero]
    refine (Carries.pure () out).get_bind fun r _ => ?_
    rw [hcount r (by rw [section_bytes, hzero]; simp), read_liftE_ok, pure_bind, if_pos hzero,
      hempty hzero]
  · rw [if_neg hzero]
    have hleast := covered_of_le (Nat.le_refl
      (section_bytes format flag positions list.postings.length))
    refine Carries.mono (((carries_sections hP h hleast).map hf).get_bind fun r hr => ?_)
      (Nat.zero_le _)
    rw [hcount r hr, read_liftE_ok, pure_bind, if_neg hzero]
    rw [input_rest, length_rest] at hr
    rw [read_sections_available (covered_of_le hr) hleast]

/-- **What the encoder writes, the decoder reads back**, in every version and
under every bound that admits the list's length. -/
theorem carries_list (hP : packer.Lawful) (h : list.Encodable) (format : PostingFormat) {max_postings : Option ℕ}
    (hmax : ∀ max ∈ max_postings, list.postings.length ≤ max) :
    Carries 0 (encode_header_and_payload packer list format) ()
      (decode_soa_inner packer format max_postings) (decoded format list) := by
  have hn := h.length_le
  have h64 : list.postings.length < 2 ^ 64 := by omega
  simp only [encode_header_and_payload, decode_soa_inner, read_header, bind_assoc, pure_bind]
  refine (carries_string h.term).bind (k := 0) ?_ (Nat.zero_le _)
  refine (carries_varint _).bind (k := 0) ?_ (Nat.zero_le _)
  refine (carries_varint _).bind (k := 0) ?_ (Nat.zero_le _)
  refine (carries_varint _).bind (k := 0) ?_ (Nat.zero_le _)
  refine (carries_flag "any_positions" (any_positions list.postings)).bind (k := 0) ?_
    (Nat.zero_le _)
  refine (carries_any_weights format _).bind (k := 0) ?_ (Nat.zero_le _)
  refine (carries_skip_levels h.docs_fit h64 format).bind (k := 0) ?_ (Nat.zero_le _)
  refine carries_counted hP h hmax ?_ fun hzero => ?_
  · rfl
  have hnil : list.postings = [] := List.length_eq_zero_iff.1 hzero
  have hskip := @check_skip_levels_ok [] (by decide) format
  have hdocs : docs list.postings = [] := by rw [hnil]; rfl
  have hbuilt : (if format.has_skip_levels then build_skip_levels [] else []) =
      build_skip_levels [] := by
    split <;> rfl
  grind [decoded, stored_weights]

end PostingList

end Laurus
