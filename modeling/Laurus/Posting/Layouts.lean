import Laurus.Posting.Helpers.Index

/-!
# Every layout brings a posting list back

A list in order of its documents, with positions in order and counted by
the frequencies, is what each of the three layouts decodes to
(`posting_layouts_round_trip`): the columns are the list's own, weights all
1.0 may be left out of them, and the two forms of a list are one. The
encoder succeeds on exactly the lists whose documents fit 32 bits.
-/

namespace Laurus

section Codec

/-!
## An index's lists survive their codec

Every list an index builds from postings that fit is written and read back,
in every version, with the positions of each posting in ascending order
(`posting_lists_survive`): the encoder sorts them, as nothing is parallel to
them. A document past 32 bits is refused.
-/

open Laurus.Comp

namespace PostingList

/-- The list with every posting's positions in ascending order. -/
def sorted_positions (list : PostingList) : PostingList :=
  { list with
    postings := list.postings.map fun p =>
      { p with positions := p.positions.map ascending_positions } }

variable {packer : BitPacker} {format : PostingFormat} {list : PostingList}

theorem weights_restored (format : PostingFormat) (postings : List Posting) :
    (if (stored_weights format (any_weights format postings) postings).isEmpty then
        List.replicate postings.length F32_ONE
      else stored_weights format (any_weights format postings) postings) =
      postings.map Posting.weight := by
  unfold stored_weights
  by_cases hstored : (! format.has_weight_flag || any_weights format postings) = true
  · rw [if_pos hstored]
    cases postings with
    | nil => rfl
    | cons p postings => rfl
  · rw [if_neg hstored, List.isEmpty_nil, if_pos rfl]
    have hone : format.has_weight_flag = true ∧
        (format.has_weight_flag = true → ∀ p ∈ postings, p.weight = F32_ONE) := by
      simpa [any_weights] using hstored
    exact (List.map_eq_replicate_iff.2 (hone.2 hone.1)).symm

theorem positions_restored (postings : List Posting) :
    (if any_positions postings then
        some (postings.map fun p => p.positions.map ascending_positions) else none).getD
      (List.replicate postings.length none) =
      postings.map fun p => p.positions.map ascending_positions := by
  split
  · rfl
  · rename_i hnone
    have hall : ∀ p ∈ postings, p.positions.map ascending_positions = none := by
      simpa [any_positions] using hnone
    exact (List.map_eq_replicate_iff.2 hall).symm

theorem into_posting_list_decoded (hfit : DocsFit list.postings) :
    (decoded format list).into_posting_list = list.sorted_positions := by
  have hweights := weights_restored format list.postings
  have hpositions := positions_restored list.postings
  simp only [DecodedPostingList.into_posting_list, decoded, length_docs, hweights, hpositions]
  rw [docs, List.zip_map', List.zip_map', List.zip_map', List.map_map, sorted_positions]
  congr 1
  refine List.map_congr_left fun p hp => ?_
  simp only [Function.comp_apply, toUInt64_toUInt32 (hfit p hp)]

end PostingList

namespace TermPostingIndex

open PostingList

/-- **Every list an index builds survives its own codec**, and its totals are
its postings'. -/
theorem posting_lists_survive {packer : BitPacker} (hP : packer.Lawful) {calls : List Call}
    {index : TermPostingIndex} (hrun : Run (Step.guarded Admits step) new calls index)
    {term : String} {list : PostingList} (hlist : index.get_posting_list term = some list)
    (format : PostingFormat) {max_postings : Option ℕ}
    (hmax : ∀ max ∈ max_postings, list.postings.length ≤ max) :
    (∃ bytes decoded, Emits (encode_header_and_payload packer list format) bytes () ∧
      Reads (decode_soa_inner packer format max_postings) bytes decoded ∧
      decoded.into_posting_list = list.sorted_positions) ∧
    list.term = term ∧
    list.doc_frequency.toNat = list.postings.length ∧
    list.total_frequency.toNat = (list.postings.map fun p => p.frequency.toNat).sum ∧
    ∀ p ∈ list.postings, ∀ ps ∈ p.positions, p.frequency.toNat = ps.length := by
  obtain ⟨before, after, hterms, -⟩ := List.lookup_eq_some_iff.1 hlist
  have hmem : (term, list) ∈ index.terms := by rw [hterms]; simp
  obtain ⟨hterm, hkept⟩ := kept_run hrun (term, list) hmem
  obtain ⟨bytes, -, hemits, hreads⟩ := carries_list hP hkept.encodable format hmax
  exact ⟨⟨bytes, _, hemits, hreads, into_posting_list_decoded hkept.docs_fit⟩, hterm,
    hkept.doc_frequency, hkept.total_frequency, hkept.frequencies⟩

/-- A list of one document, added with its positions in order. -/
theorem posting_lists_survive_sample :
    let list := (PostingList.new "").add_posting (Posting.with_positions 3 [1, 4])
    (∃ bytes decoded,
      Emits (encode_header_and_payload BitPacker.plain list .V3) bytes () ∧
      Reads (decode_soa_inner BitPacker.plain .V3 (some 1)) bytes decoded ∧
      decoded.into_posting_list = list.sorted_positions) ∧
    list.term = "" ∧ list.doc_frequency.toNat = list.postings.length ∧
    list.total_frequency.toNat = (list.postings.map fun p => p.frequency.toNat).sum ∧
    ∀ p ∈ list.postings, ∀ ps ∈ p.positions, p.frequency.toNat = ps.length := by
  have hfits : Fits [] (Posting.with_positions 3 [1, 4]) :=
    ⟨by decide, fun ps hps => by cases hps; rfl, by simp⟩
  have hrun : Run (Step.guarded Admits step) new
      [.add_posting "" (Posting.with_positions 3 [1, 4])]
      (new.add_posting "" (Posting.with_positions 3 [1, 4])) :=
    Run.single ⟨⟨by decide, hfits, by simp [new]⟩, rfl⟩
  exact posting_lists_survive BitPacker.plain_lawful hrun rfl .V3 (by
    rintro _ ⟨⟩
    decide)

/-- Positions that are out of order come back in order, and a document past
32 bits is refused. -/
theorem posting_lists_survive_counterexample :
    (∃ list decoded bytes,
      (new.add_posting "" (Posting.with_positions 3 [5, 3])).get_posting_list "" = some list ∧
      Emits (encode_header_and_payload BitPacker.plain list .V3) bytes () ∧
      Reads (decode_soa_inner BitPacker.plain .V3 none) bytes decoded ∧
      decoded.into_posting_list ≠ list) ∧
    ∃ list e,
      (new.add_posting "" (Posting.with_frequency 0x100000000 1)).get_posting_list "" = some list ∧
      encode_header_and_payload BitPacker.plain list .V3 StructWriter.new = .error e := by
  refine ⟨?_, ⟨_, _, rfl, rfl⟩⟩
  have hkept : ((PostingList.new "").add_posting (Posting.with_positions 3 [5, 3])).Kept :=
    (PostingList.kept_new (by decide)).add_posting
      ⟨by decide, fun ps hps => by cases hps; rfl, by simp [PostingList.new]⟩
  have hmax : ∀ max ∈ (none : Option ℕ), 1 ≤ max := by simp
  obtain ⟨bytes, -, hemits, hreads⟩ :=
    carries_list BitPacker.plain_lawful hkept.encodable .V3 hmax
  refine ⟨_, _, bytes, rfl, hemits, hreads, ?_⟩
  rw [into_posting_list_decoded hkept.docs_fit]
  intro heq
  -- sorted positions are ascending, and `[5, 3]` is not
  have hsame : ascending_positions [5, 3] = [5, 3] := by
    have hpositions := congrArg (fun list => list.postings.map Posting.positions) heq
    simpa [sorted_positions, PostingList.add_posting, put, PostingList.new,
      Posting.with_positions] using hpositions
  have hasc := ascending_positions_pairwise [5, 3]
  rw [hsame] at hasc
  exact absurd hasc (by decide)

end TermPostingIndex

end Codec

section Layouts

open Laurus.Comp

namespace PostingList

variable {packer : BitPacker} {format : PostingFormat} {list : PostingList}
variable {postings : List Posting}

/-- Every posting has its positions in order. -/
def PositionsAscend (postings : List Posting) : Prop :=
  ∀ p ∈ postings, ∀ ps ∈ p.positions, ps.Pairwise (· ≤ ·)

/-! ## The columns -/

theorem ascending_positions_of_ascend (h : PositionsAscend postings) :
    (postings.map fun p => p.positions.map ascending_positions) =
      postings.map Posting.positions := by
  refine List.map_congr_left fun p hp => ?_
  rcases hps : p.positions with _ | ps
  · rfl
  · rw [Option.map_some, ascending_positions, if_pos (h p hp ps hps)]

theorem sorted_positions_of_ascend (h : PositionsAscend list.postings) :
    list.sorted_positions = list := by
  have hsame : list.postings.map (fun p =>
      ({ p with positions := p.positions.map ascending_positions } : Posting)) =
        list.postings.map id := by
    refine List.map_congr_left fun p hp => ?_
    rcases p with ⟨doc_id, frequency, _ | ps, weight⟩
    · rfl
    · have hps : ascending_positions ps = ps := if_pos (h _ hp ps rfl)
      rw [Option.map_some, hps, id]
  rw [sorted_positions, hsame, List.map_id]

theorem decoded_eq (h : PositionsAscend list.postings) :
    decoded format list =
      { DecodedPostingList.from_posting_list list with
        weights := stored_weights format (any_weights format list.postings) list.postings } := by
  rw [decoded, ascending_positions_of_ascend h]
  rfl

theorem stored_weights_cases (format : PostingFormat) (postings : List Posting) :
    stored_weights format (any_weights format postings) postings = postings.map Posting.weight ∨
      stored_weights format (any_weights format postings) postings = [] ∧
        ∀ p ∈ postings, p.weight = F32_ONE := by
  rcases hstored : stored_weights format (any_weights format postings) postings with _ | ⟨w, ws⟩
  · have hall := weights_restored format postings
    grind [List.mem_map_of_mem]
  · have hall := weights_restored format postings
    grind

/-! ## What the encoder takes -/

theorem doc_id_u32_ok {did : UInt64} {d : UInt32} (h : doc_id_u32 did = .ok d) :
    did.toNat < 2 ^ 32 := by
  grind [doc_id_u32]

theorem docs_fit_of_mapM : ∀ {postings : List Posting} {docs : List UInt32},
    postings.mapM (fun p => doc_id_u32 p.doc_id) = .ok docs → DocsFit postings
  | [], _, _ => fun p hp => absurd hp List.not_mem_nil
  | p :: postings, docs, h => by
      rw [List.mapM_cons] at h
      rcases hp : doc_id_u32 p.doc_id with e | d
      · rw [hp] at h
        cases h
      rcases hrest : postings.mapM (fun p => doc_id_u32 p.doc_id) with e | ds
      · rw [hp, hrest] at h
        cases h
      intro q hq
      rcases List.mem_cons.1 hq with rfl | hq
      · exact doc_id_u32_ok hp
      · exact docs_fit_of_mapM hrest q hq

theorem write_liftE_eq_ok {α : Type} {x : Except LaurusError α} {w w' : StructWriter} {a : α}
    (h : Write.liftE x w = .ok (a, w')) : x = .ok a := by
  rcases x with e | b
  · cases h
  · cases h
    rfl

theorem docs_fit_of_blocks : ∀ {blocks : ℕ} {initial last : UInt32} {postings : List Posting}
    {w w' : StructWriter}, write_doc_blocks packer blocks initial postings w = .ok (last, w') →
      DocsFit (postings.take (blocks * POSTING_BLOCK_LEN))
  | 0, _, _, _, _, _, _ => by
      exact fun p hp => absurd hp List.not_mem_nil
  | blocks + 1, initial, last, postings, w, w', h => by
      obtain ⟨doc_buf, w₁, hbuf, h⟩ := bind_eq_ok h
      have hfirst := docs_fit_of_mapM (write_liftE_eq_ok hbuf)
      have hrest := docs_fit_of_blocks h
      rw [Nat.succ_mul, Nat.add_comm, List.take_add]
      intro p hp
      rcases List.mem_append.1 hp with hp | hp
      · exact hfirst p hp
      · exact hrest p hp

theorem docs_fit_of_tail : ∀ {prev_did : UInt64} {postings : List Posting} {w w' : StructWriter},
    write_doc_tail prev_did postings w = .ok ((), w') → DocsFit postings
  | _, [], _, _, _ => fun p hp => absurd hp List.not_mem_nil
  | prev_did, posting :: postings, w, w', h => by
      obtain ⟨d, w₁, hd, h⟩ := bind_eq_ok h
      intro p hp
      rcases List.mem_cons.1 hp with rfl | hp
      · exact doc_id_u32_ok (write_liftE_eq_ok hd)
      · exact docs_fit_of_tail h p hp

/-- **A list that was written** has documents of 32 bits. -/
theorem docs_fit_of_encoded {w w' : StructWriter}
    (h : encode_header_and_payload packer list format w = .ok ((), w')) :
    DocsFit list.postings := by
  obtain ⟨-, _, -, h⟩ := bind_eq_ok h
  obtain ⟨-, _, -, h⟩ := bind_eq_ok h
  obtain ⟨-, _, -, h⟩ := bind_eq_ok h
  obtain ⟨-, _, -, h⟩ := bind_eq_ok h
  obtain ⟨-, _, -, h⟩ := bind_eq_ok h
  obtain ⟨-, _, -, h⟩ := bind_eq_ok h
  obtain ⟨-, _, -, h⟩ := bind_eq_ok h
  split at h
  · rename_i hzero
    rw [List.length_eq_zero_iff.1 hzero]
    exact fun p hp => absurd hp List.not_mem_nil
  · rw [write_sections] at h
    obtain ⟨last, _, hblocks, h⟩ := bind_eq_ok h
    obtain ⟨_, _, htail, _⟩ := bind_eq_ok h
    have hfirst := docs_fit_of_blocks hblocks
    have hrest := docs_fit_of_tail htail
    intro p hp
    rw [← List.take_append_drop (list.postings.length / POSTING_BLOCK_LEN * POSTING_BLOCK_LEN)
      list.postings] at hp
    rcases List.mem_append.1 hp with hp | hp
    · exact hfirst p hp
    · exact hrest p hp

/-! ## The round trip -/

theorem into_from_posting_list (hfit : DocsFit list.postings) :
    (DecodedPostingList.from_posting_list list).into_posting_list = list := by
  have hweights : (if (list.postings.map Posting.weight).isEmpty then
      List.replicate list.postings.length F32_ONE else list.postings.map Posting.weight) =
        list.postings.map Posting.weight := by
    rcases list.postings with _ | ⟨p, postings⟩
    · rfl
    · rfl
  have hpositions : (if any_positions list.postings then some (list.postings.map Posting.positions)
      else none).getD (List.replicate list.postings.length none) =
        list.postings.map Posting.positions := by
    split
    · rfl
    · rename_i hnone
      have hall : ∀ p ∈ list.postings, p.positions = none := by
        simpa [any_positions] using hnone
      exact (List.map_eq_replicate_iff.2 hall).symm
  have hsame : list.postings.map (fun p =>
      ({ doc_id := p.doc_id.toUInt32.toUInt64, frequency := p.frequency, positions := p.positions,
         weight := p.weight } : Posting)) = list.postings.map id := by
    refine List.map_congr_left fun p hp => ?_
    rw [toUInt64_toUInt32 (hfit p hp)]
    rfl
  simp only [DecodedPostingList.into_posting_list, DecodedPostingList.from_posting_list,
    List.length_map, hweights, hpositions]
  rw [List.zip_map', List.zip_map', List.zip_map', List.map_map]
  exact congrArg (fun postings => ({ list with postings } : PostingList))
    (hsame.trans (List.map_id _))

/-- What the decoder is held to: the list's own columns, the skip table of its
documents among them, with weights that are all 1.0 left out or not. -/
structure Restores (d : DecodedPostingList) (list : PostingList) : Prop where
  restored : d.into_posting_list = list
  columns : d = { DecodedPostingList.from_posting_list list with weights := d.weights }
  weights : d.weights = list.postings.map Posting.weight ∨
    d.weights = [] ∧ ∀ p ∈ list.postings, p.weight = F32_ONE

theorem restores_decoded (hfit : DocsFit list.postings) (hpos : PositionsAscend list.postings)
    (format : PostingFormat) : Restores (decoded format list) list where
  restored := (into_posting_list_decoded hfit).trans (sorted_positions_of_ascend hpos)
  columns := decoded_eq hpos
  weights := stored_weights_cases format list.postings

/-- **Every layout brings a list back.** The bytes written are read to the end,
and what is decoded is the list, as the list's own columns are; a list that
does not fit 32 bits is not written. -/
theorem posting_layouts_round_trip (hP : packer.Lawful) (hasc : Ascending list.postings)
    (hpos : PositionsAscend list.postings) (hfreq : ∀ p ∈ list.postings, FrequencyFits p)
    (hterm : list.term.toByteArray.data.toList.length < 2 ^ 64) (format : PostingFormat)
    {max_postings : Option ℕ} (hmax : ∀ max ∈ max_postings, list.postings.length ≤ max) :
    (DocsFit list.postings →
      (∃ bytes d, Emits (encode_header_and_payload packer list format) bytes () ∧
        Reads (decode_soa_inner packer format max_postings) bytes d ∧ Restores d list) ∧
      (DecodedPostingList.from_posting_list list).into_posting_list = list) ∧
    (¬ DocsFit list.postings →
      ∀ w w', encode_header_and_payload packer list format w ≠ .ok ((), w')) := by
  refine ⟨fun hfit => ⟨?_, into_from_posting_list hfit⟩,
    fun hfit w w' h => hfit (docs_fit_of_encoded h)⟩
  have henc : list.Encodable := ⟨hfit, docs_ascending hfit hasc, hfreq, hterm⟩
  obtain ⟨bytes, -, hemits, hreads⟩ := carries_list hP henc format hmax
  exact ⟨bytes, _, hemits, hreads, restores_decoded hfit hpos format⟩

/-- Three postings, one with positions and one with a weight of 2.0. -/
def mixed_list : PostingList where
  term := "a"
  postings := [
    { doc_id := 3, frequency := 2, positions := some [1, 4], weight := F32_ONE },
    { doc_id := 7, frequency := 5, positions := none, weight := 0x40000000 },
    { doc_id := 9, frequency := 0, positions := some [], weight := F32_ONE }]
  total_frequency := 7
  doc_frequency := 3

theorem posting_layouts_round_trip_mixed :
    (DocsFit mixed_list.postings →
      (∃ bytes d, Emits (encode_header_and_payload BitPacker.plain mixed_list .V3) bytes () ∧
        Reads (decode_soa_inner BitPacker.plain .V3 (some 3)) bytes d ∧ Restores d mixed_list) ∧
      (DecodedPostingList.from_posting_list mixed_list).into_posting_list = mixed_list) ∧
    (¬ DocsFit mixed_list.postings →
      ∀ w w', encode_header_and_payload BitPacker.plain mixed_list .V3 w ≠ .ok ((), w')) :=
  posting_layouts_round_trip BitPacker.plain_lawful (by unfold Ascending; decide)
    (by unfold PositionsAscend; decide) (by unfold FrequencyFits; decide) (by decide) .V3
    (by decide)

end PostingList

end Layouts

end Laurus
