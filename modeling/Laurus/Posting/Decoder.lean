import Laurus.Posting.Helpers.Checks
import Laurus.Posting.Packer
import Laurus.Storage.Helpers.Structured

/-!
# The decoder on arbitrary bytes

Whatever is read as a posting list, `decode_soa_inner` returns an error or
a list of parallel arrays over strictly ascending documents, with the skip
table those documents have (`decode_soa_inner_safe`). The header's totals
are passed on as they are, and a list without weights has none.
-/

namespace Laurus

/-!
## The decoder on arbitrary bytes

One statement for each part of `decode_soa_inner`: it does not crash, and
what it returns has the length it was asked for. The reservations are
covered by `bounded_posting_count` (`bounded_posting_count_eq_ok`).
-/

namespace PostingList

open Laurus.StructReader

variable (packer : BitPacker)

theorem safe_liftF {α : Type} {x : Except Fault α} {a : α} {R : α → Prop} (hx : x = .ok a)
    (h : R a) : Safe (Read.liftF x) R := hx ▸ Safe.pure h

theorem safe_reserve_at {available count least : ℕ} (h : least ≤ available) :
    Safe (reserve_at available count least) fun _ => True := by
  unfold reserve_at
  rw [if_neg (by omega)]
  exact Safe.pure trivial

theorem safe_read_flag (what : String) : Safe (read_flag what) fun _ => True := by
  refine Safe.skip safe_u8 fun byte => ?_
  exact Safe.ite (fun _ => Safe.pure trivial) fun _ =>
    Safe.ite (fun _ => Safe.pure trivial) fun _ => Safe.throw

/-! ## The posting count -/

/-- **A count that passes is covered by the bytes left**, whichever sections
follow. -/
theorem bounded_posting_count_eq_ok {available n m : ℕ} {any_weights any_positions : Bool}
    {max_postings : Option ℕ}
    (h : bounded_posting_count available n any_weights any_positions max_postings = .ok m) :
    m = n ∧ n < 2 ^ 64 ∧ (∀ max, max_postings = some max → n ≤ max) ∧
      n / POSTING_BLOCK_LEN + n % POSTING_BLOCK_LEN ≤ available ∧
      (any_weights = true → saturating_mul n 4 ≤ available) ∧
      (any_positions = true → n ≤ available) := by
  obtain ⟨per, hper⟩ : ∃ per, per = (if any_weights then 4 else 0) + any_positions.toNat :=
    ⟨_, rfl⟩
  simp only [bounded_posting_count, bind, Except.bind, ← hper] at h
  split at h
  · cases h
  rename_i hmax
  split at h
  · cases h
  rename_i hmin
  obtain ⟨h64, rfl⟩ := checked_usize_eq_ok.1 h
  simp only [saturating_add, saturating_mul, U64_MAX] at hmin
  refine ⟨rfl, h64, ?_, ?_, ?_, ?_⟩
  · rintro max rfl
    simpa using hmax
  · rw [POSTING_BLOCK_LEN] at hmin ⊢
    omega
  · rintro rfl
    have hfour : 4 ≤ per := by rw [hper, if_pos rfl]; omega
    have hle : m * 4 ≤ m * per := Nat.mul_le_mul_left m hfour
    simp only [saturating_mul, U64_MAX]
    omega
  grind

/-! ## The skip table -/

theorem safe_read_u32s : ∀ len, Safe (read_u32s len) fun values => values.length = len
  | 0 => Safe.pure rfl
  | len + 1 => by
      refine Safe.skip safe_u32 fun value => ?_
      exact (safe_read_u32s len).bind fun values hlen => Safe.pure (by simp [hlen])

theorem safe_read_levels : ∀ num_levels, Safe (read_levels num_levels) fun _ => True
  | 0 => Safe.pure trivial
  | num_levels + 1 => by
      refine Safe.skip safe_varint fun level_len => Safe.get_bind fun r => ?_
      refine Safe.bind (R := fun len => len * 4 ≤ r.remaining) (Safe.liftE fun len hlen => ?_)
        fun len hlen => ?_
      · grind [checked_capacity_u64_eq_ok]
      · refine (safe_reserve_at hlen).bind fun _ _ => ?_
        refine (safe_read_u32s len).bind fun _ _ => ?_
        exact (safe_read_levels num_levels).bind fun _ _ => Safe.pure trivial

theorem safe_read_skip_levels (format : PostingFormat) :
    Safe (read_skip_levels format) fun levels => format.has_skip_levels = false → levels = [] := by
  refine Safe.ite (fun hv => ?_) fun _ => Safe.pure fun _ => rfl
  refine Safe.skip safe_u8 fun num_levels => (safe_read_levels _).post fun _ _ h => ?_
  rw [hv] at h
  cases h

theorem safe_read_any_weights (format : PostingFormat) :
    Safe (read_any_weights format) fun any_weights =>
      format.has_weight_flag = false → any_weights = true := by
  refine Safe.ite (fun hv => ?_) fun _ => Safe.pure fun _ => rfl
  grind [safe_read_flag]

theorem safe_check_skip_levels (format : PostingFormat) (levels : List (List UInt32))
    {doc_ids : List UInt32} (h64 : doc_ids.length < 2 ^ 64) :
    Safe (check_skip_levels format levels doc_ids) fun _ =>
      format.has_skip_levels = true → levels = build_skip_levels doc_ids := by
  refine Safe.ite (fun _ => ?_) fun hv => Safe.pure fun h => absurd h hv
  refine (safe_liftF (R := fun matched => matched = decide (levels = build_skip_levels doc_ids))
    (skip_levels_match_eq levels h64) rfl).bind fun matched hmatched => ?_
  refine Safe.ite (fun _ => Safe.throw) fun hm => Safe.pure fun _ => ?_
  simpa [hmatched] using hm

/-! ## The blocks and the tails -/

theorem safe_read_block {unpack : Bytes → UInt8 → List UInt32}
    (hlen : ∀ bytes num_bits, (unpack bytes num_bits).length = POSTING_BLOCK_LEN) :
    Safe (read_block unpack) fun block => block.length = POSTING_BLOCK_LEN := by
  refine Safe.skip safe_u8 fun num_bits => ?_
  refine Safe.bind (R := fun checked => checked = num_bits ∧ num_bits ≤ 32)
    (Safe.liftE fun checked hchecked => ?_) fun checked ⟨hchecked, hle⟩ => ?_
  · unfold checked_num_bits at hchecked
    grind
  · subst hchecked
    refine Safe.bind (R := fun block => ∃ bytes, block = some (unpack bytes checked))
      (Safe.of_remaining (fun n => safe_raw_with n _ _) ?_) fun block ⟨bytes, hblock⟩ => ?_
    · grind
    · subst hblock
      exact Safe.pure (hlen bytes checked)

theorem safe_read_doc_blocks : ∀ blocks initial,
    Safe (read_doc_blocks packer blocks initial) fun read =>
      read.1.length = blocks * POSTING_BLOCK_LEN
  | 0, _ => Safe.pure (by simp)
  | blocks + 1, initial => by
      refine (safe_read_block (packer.length_decompress_sorted initial)).bind fun buf hbuf => ?_
      refine (safe_read_doc_blocks blocks _).bind fun read hread => Safe.pure ?_
      grind

theorem safe_read_freq_blocks : ∀ blocks,
    Safe (read_freq_blocks packer blocks) fun frequencies =>
      frequencies.length = blocks * POSTING_BLOCK_LEN
  | 0 => Safe.pure (by simp)
  | blocks + 1 => by
      refine (safe_read_block packer.length_decompress).bind fun buf hbuf => ?_
      refine (safe_read_freq_blocks blocks).bind fun frequencies hread => Safe.pure ?_
      grind

theorem safe_read_doc_tail : ∀ tail prev_did,
    Safe (read_doc_tail tail prev_did) fun doc_ids => doc_ids.length = tail
  | 0, _ => Safe.pure rfl
  | tail + 1, prev_did => by
      refine Safe.skip safe_varint fun delta => ?_
      refine Safe.bind (R := fun _ => True) (Safe.liftE fun _ _ => trivial) fun did _ => ?_
      exact (safe_read_doc_tail tail did).bind fun doc_ids hlen => Safe.pure (by simp [hlen])

theorem safe_read_freq_tail : ∀ tail,
    Safe (read_freq_tail tail) fun frequencies => frequencies.length = tail
  | 0 => Safe.pure rfl
  | tail + 1 => by
      refine Safe.skip safe_varint fun frequency => ?_
      refine Safe.bind (R := fun _ => True) (Safe.liftE fun _ _ => trivial) fun _ _ => ?_
      exact (safe_read_freq_tail tail).bind fun frequencies hlen => Safe.pure (by simp [hlen])

/-! ## The positions -/

theorem le_of_add_pos_delta {prev_pos pos : UInt32} {delta : UInt64}
    (h : add_pos_delta prev_pos delta = .ok pos) : prev_pos ≤ pos := by
  grind [add_pos_delta, UInt32.le_iff_toNat_le, UInt32.toNat_ofNat']

theorem safe_read_deltas : ∀ count prev_pos,
    Safe (read_deltas count prev_pos) fun positions =>
      positions.length = count ∧ (prev_pos :: positions).Pairwise (· ≤ ·)
  | 0, _ => Safe.pure ⟨rfl, by simp⟩
  | count + 1, prev_pos => by
      refine Safe.skip safe_varint fun delta => ?_
      refine Safe.bind (R := fun pos => prev_pos ≤ pos)
        (Safe.liftE fun pos hpos => le_of_add_pos_delta hpos) fun pos hpos => ?_
      refine (safe_read_deltas count pos).bind fun positions ⟨hlen, hasc⟩ => Safe.pure ?_
      grind

/-- A posting's positions are ascending, as many as its frequency. -/
def PositionsMatch (frequency : UInt32) (positions : Option (List UInt32)) : Prop :=
  ∀ ps, positions = some ps → ps.length = frequency.toNat ∧ ps.Pairwise (· ≤ ·)

theorem safe_read_posting_positions (doc_id frequency : UInt32) :
    Safe (read_posting_positions doc_id frequency) (PositionsMatch frequency) := by
  refine (safe_read_flag _).bind fun has _ => Safe.ite (fun _ => ?_) fun _ => Safe.pure ?_
  · refine Safe.skip safe_varint fun count => Safe.get_bind fun r => ?_
    refine Safe.bind (R := fun checked => checked ≤ r.remaining) (Safe.liftE fun checked hc => ?_)
      fun checked hchecked => ?_
    · grind [checked_capacity_u64_eq_ok]
    · refine Safe.ite (fun _ => Safe.throw) fun heq => ?_
      refine (safe_reserve_at hchecked).bind fun _ _ => ?_
      refine (safe_read_deltas checked 0).bind fun positions ⟨hlen, hasc⟩ => Safe.pure ?_
      intro ps hps
      grind
  · intro ps hps
    cases hps

theorem safe_read_positions : ∀ entries,
    Safe (read_positions entries) fun out =>
      List.Forall₂ (fun entry positions => PositionsMatch entry.2 positions) entries out
  | [] => Safe.pure List.Forall₂.nil
  | (doc_id, frequency) :: entries => by
      refine (safe_read_posting_positions doc_id frequency).bind fun positions hpos => ?_
      exact (safe_read_positions entries).bind fun rest hrest => Safe.pure (.cons hpos hrest)

end PostingList

section Decoder

open Laurus.Comp

/-- What holds of every list the decoder accepts. -/
structure DecodedPostingList.Consistent (format : PostingFormat) (list : DecodedPostingList) :
    Prop where
  ascending : list.doc_ids.Pairwise (· < ·)
  frequencies : list.frequencies.length = list.doc_ids.length
  /-- Only a list of version 3 can leave the weights out. -/
  weights : list.weights.length = list.doc_ids.length ∨
    format.has_weight_flag = true ∧ list.weights = []
  positions : ∀ out ∈ list.positions, List.Forall₂ PostingList.PositionsMatch list.frequencies out
  skip_levels : list.skip_levels = build_skip_levels list.doc_ids

namespace PostingList

open Laurus.StructReader

variable (packer : BitPacker)

variable {format : PostingFormat} {available n : ℕ}

theorem safe_read_weights {any_weights : Bool}
    (hweights : format.has_weight_flag = false → any_weights = true)
    (hfour : any_weights = true → saturating_mul n 4 ≤ available) :
    Safe (read_weights any_weights available n) fun weights =>
      weights.length = n ∨ format.has_weight_flag = true ∧ weights = [] := by
  refine Safe.ite (fun hw => ?_) fun hw => Safe.pure (Or.inr ⟨?_, rfl⟩)
  · refine (safe_reserve_at (hfour hw)).bind fun _ _ => ?_
    exact (safe_read_u32s n).post fun _ h => Or.inl h
  grind

theorem safe_read_all_positions {any_positions : Bool}
    {doc_ids frequencies : List UInt32} (hlen : frequencies.length = doc_ids.length)
    (hone : any_positions = true → n ≤ available) :
    Safe (read_all_positions any_positions available n (doc_ids.zip frequencies)) fun positions =>
      ∀ out ∈ positions, List.Forall₂ PositionsMatch frequencies out := by
  refine Safe.ite (fun hp => ?_) fun _ => Safe.pure ?_
  · refine (safe_reserve_at (hone hp)).bind fun _ _ => ?_
    refine (safe_read_positions _).bind fun out hout => Safe.pure ?_
    rintro _ ⟨⟩
    have hsnd : (doc_ids.zip frequencies).map Prod.snd = frequencies := List.map_snd_zip hlen.le
    rw [← hsnd]
    exact List.forall₂_map_left_iff.2 hout
  · rintro _ ⟨⟩

theorem safe_final_skip_levels {levels : List (List UInt32)}
    {doc_ids : List UInt32} (h64 : doc_ids.length < 2 ^ 64)
    (hskip : format.has_skip_levels = true → levels = build_skip_levels doc_ids) :
    Safe (final_skip_levels format levels doc_ids) fun levels =>
      levels = build_skip_levels doc_ids :=
  Safe.ite (fun hv => Safe.pure (hskip hv))
    fun _ => safe_liftF (rebuilt_skip_levels_eq h64) rfl

theorem safe_read_sections {any_weights any_positions : Bool}
    {levels : List (List UInt32)}
    (hweights : format.has_weight_flag = false → any_weights = true) (h64 : n < 2 ^ 64)
    (hdocs : n / POSTING_BLOCK_LEN + n % POSTING_BLOCK_LEN ≤ available)
    (hfour : any_weights = true → saturating_mul n 4 ≤ available)
    (hone : any_positions = true → n ≤ available) :
    Safe (read_sections packer format any_weights any_positions levels available n)
      fun (doc_ids, frequencies, weights, positions, skip_levels) =>
        doc_ids.length = n ∧ doc_ids.Pairwise (· < ·) ∧ frequencies.length = n ∧
        (weights.length = n ∨ format.has_weight_flag = true ∧ weights = []) ∧
        (∀ out ∈ positions, List.Forall₂ PositionsMatch frequencies out) ∧
        skip_levels = build_skip_levels doc_ids := by
  have hsum : n / POSTING_BLOCK_LEN * POSTING_BLOCK_LEN + n % POSTING_BLOCK_LEN = n :=
    Nat.div_add_mod' n POSTING_BLOCK_LEN
  refine (safe_reserve_at hdocs).bind fun _ _ => ?_
  refine (safe_read_doc_blocks packer _ 0).bind fun read hblocks => ?_
  refine (safe_read_doc_tail _ read.2).bind fun rest hrest => ?_
  have hlen : (read.1 ++ rest).length = n := by grind
  have h64' : (read.1 ++ rest).length < 2 ^ 64 := hlen ▸ h64
  refine Safe.bind (R := fun _ => (read.1 ++ rest).Pairwise (· < ·))
    (Safe.liftE fun _ h => check_ascending_doc_ids_eq_ok.1 h) fun _ hasc => ?_
  refine (safe_check_skip_levels format levels h64').bind fun _ hskip => ?_
  refine (safe_reserve_at hdocs).bind fun _ _ => ?_
  refine (safe_read_freq_blocks packer _).bind fun blocks hfblocks => ?_
  refine (safe_read_freq_tail _).bind fun ftail hftail => ?_
  have hflen : (blocks ++ ftail).length = n := by grind
  refine (safe_read_weights hweights hfour).bind fun weights hwlen => ?_
  refine (safe_read_all_positions (hflen.trans hlen.symm) hone).bind fun positions hpos => ?_
  refine (safe_final_skip_levels h64' hskip).bind fun skip_levels hbuilt => ?_
  grind [Safe.pure]

theorem safe_read_header : Safe read_header fun _ => True :=
  Safe.skip safe_string fun _ => Safe.skip safe_varint fun _ => Safe.skip safe_varint fun _ =>
    Safe.skip safe_varint fun _ => Safe.pure trivial

theorem safe_read_body (format : PostingFormat) (max_postings : Option ℕ) (term : String)
    (total_frequency doc_frequency n : UInt64) :
    Safe (read_body packer format max_postings term total_frequency doc_frequency n) fun list =>
      list.Consistent format ∧ (∀ max ∈ max_postings, list.doc_ids.length ≤ max) ∧
        (list.term, list.total_frequency, list.doc_frequency, UInt64.ofNat list.doc_ids.length) =
          (term, total_frequency, doc_frequency, n) := by
  refine (safe_read_flag _).bind fun any_positions _ => ?_
  refine (safe_read_any_weights format).bind fun any_weights hweights => ?_
  refine (safe_read_skip_levels format).bind fun levels hlevels => Safe.get_bind fun r => ?_
  refine Safe.bind (Safe.liftE fun m hm => bounded_posting_count_eq_ok hm)
    fun m ⟨hm, h64, hmax, hdocs, hfour, hone⟩ => ?_
  subst hm
  refine Safe.ite (fun hzero => ?_) fun _ => ?_
  · refine (@safe_check_skip_levels format levels [] (by decide)).bind fun _ hskip => ?_
    have hbuilt : levels = build_skip_levels [] := by
      cases hv : format.has_skip_levels with
      | true => exact hskip hv
      | false => exact hlevels hv
    refine Safe.pure ⟨⟨List.Pairwise.nil, rfl, Or.inl rfl, ?_, hbuilt⟩, ?_, ?_⟩
    · simp
    · exact fun _ _ => Nat.zero_le _
    · rw [← UInt64.ofNat_toNat (x := n), hzero]
      rfl
  · refine (safe_read_sections packer hweights h64 hdocs hfour hone).bind ?_
    rintro ⟨doc_ids, frequencies, weights, positions, skip_levels⟩
      ⟨hlen, hasc, hflen, hwlen, hpos, hbuilt⟩
    refine Safe.pure ⟨⟨hasc, hflen.trans hlen.symm, ?_, hpos, hbuilt⟩, ?_, ?_⟩
    · grind
    · rintro max hmem
      exact hlen ▸ hmax max hmem
    · show (_, _, _, UInt64.ofNat doc_ids.length) = _
      rw [hlen, UInt64.ofNat_toNat]

/-- **No bytes crash the decoder, and it accepts no inconsistent list.** The
posting count the header declares is the number of postings. -/
theorem decode_soa_inner_safe (format : PostingFormat) (max_postings : Option ℕ)
    (r : StructReader) :
    match decode_soa_inner packer format max_postings r with
    | .ok (list, _) =>
      list.Consistent format ∧ (∀ max ∈ max_postings, list.doc_ids.length ≤ max) ∧
        ∃ r', read_header r = .ok ((list.term, list.total_frequency, list.doc_frequency,
          UInt64.ofNat list.doc_ids.length), r')
    | .error fault => ¬ fault.IsCrash := by
  rw [decode_soa_inner, bind_apply]
  cases hheader : read_header r with
  | error fault => exact Triple.error safe_read_header trivial hheader
  | ok read =>
      obtain ⟨⟨term, total_frequency, doc_frequency, n⟩, r'⟩ := read
      have hbody := safe_read_body packer format max_postings term total_frequency doc_frequency n
      dsimp only
      cases hread : read_body packer format max_postings term total_frequency doc_frequency n r' with
      | error fault => exact Triple.error hbody trivial hread
      | ok out =>
          obtain ⟨hcons, hmax, heq⟩ := Triple.ok hbody trivial hread
          exact ⟨hcons, hmax, r', by rw [heq]⟩

/-- A list of version 3 without weights, whose declared document frequency is
not its number of postings. -/
theorem decode_soa_inner_counterexample :
    ∃ list r, decode_soa_inner BitPacker.plain .V3 (some 9)
        (StructReader.new [0, 1, 5, 1, 0, 0, 0, 7, 1]) = .ok (list, r) ∧
      list.weights.length ≠ list.doc_ids.length ∧
      list.doc_frequency.toNat ≠ list.doc_ids.length := by
  refine ⟨_, _, rfl, ?_, ?_⟩ <;> decide

end PostingList

end Decoder

end Laurus
