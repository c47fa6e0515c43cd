import Laurus.Common.Bytes
import Laurus.Common.Rounding
import Laurus.Common.SortDedup
import Laurus.Lexical.Model.Norms
import Mathlib.Algebra.Order.BigOperators.Group.List
import Mathlib.Data.UInt

/-!
# What the norms of a segment hold

The table rounds down (`round_down_spec`). The builder's maps are the last
lengths recorded (`lookup_from_buffered`), its slots the documents in
ascending order, and the slot loop leaves in a slot what the map has there.
-/

namespace Laurus

/-! ## The table -/

/-- What a length becomes by its norm. -/
def round_down (len : UInt32) : UInt32 := norm_to_length (length_to_norm len)

theorem length_norm_table : NORM_TABLE.length = 256 := by decide +kernel

theorem pairwise_norm_table : (NORM_TABLE.map UInt32.toNat).Pairwise (· < ·) := by
  have hchain : (NORM_TABLE.map UInt32.toNat).IsChain (· < ·) := by decide +kernel
  exact List.isChain_iff_pairwise.1 hchain

theorem norm_table_of_lt {n : ℕ} (h : n < EXACT_LENGTH_BOUND) :
    NORM_TABLE[n]? = some (UInt32.ofNat n) := by
  rw [NORM_TABLE, List.getElem?_append_left (by simpa using h), List.getElem?_map,
    List.getElem?_range h]
  rfl

theorem norm_to_length_ofNat {i : ℕ} {value : UInt32} (h : NORM_TABLE[i]? = some value) :
    norm_to_length (UInt8.ofNat i) = value := by
  grind [length_norm_table, norm_to_length, UInt8.toNat_ofNat']

/-- **A length is rounded down to the table.** -/
theorem round_down_spec :
    RoundsDown UInt32.toNat {v | v ∈ NORM_TABLE.map UInt32.toNat} round_down := by
  intro len
  have hmem : ∀ {i : ℕ} {value : UInt32}, NORM_TABLE[i]? = some value →
      value.toNat ∈ NORM_TABLE.map UInt32.toNat := fun h =>
    List.mem_map_of_mem (List.mem_of_getElem? h)
  have hexact : ∀ {i : ℕ}, NORM_TABLE[i]? = some len →
      IsGreatest {v | v ∈ NORM_TABLE.map UInt32.toNat ∧ v ≤ len.toNat}
        (norm_to_length (UInt8.ofNat i)).toNat := by
    intro i hi
    rw [norm_to_length_ofNat hi]
    exact ⟨⟨hmem hi, Nat.le_refl _⟩, fun v hv => hv.2⟩
  rw [round_down, length_to_norm]
  split
  · rename_i hlt
    rw [UInt32.lt_iff_toNat_lt, EXACT_LENGTH_BOUND] at hlt
    grind [norm_table_of_lt, EXACT_LENGTH_BOUND, UInt32.ofNat_toNat, UInt32.toUInt8]
  · rename_i hge
    dsimp only
    set i := NORM_TABLE.findIdx fun value => decide (len ≤ value) with hi
    split
    · rename_i heq
      exact hexact heq
    · rename_i hne
      have hidx : i = (NORM_TABLE.map UInt32.toNat).findIdx fun v => decide (len.toNat ≤ v) := by
        rw [hi, List.findIdx_map]
        rfl
      have hpos : 0 < i := by
        rw [Nat.pos_iff_ne_zero]
        intro hzero
        have hbound : i < NORM_TABLE.length := by
          rw [hzero, length_norm_table]
          decide
        have hle := of_decide_eq_true
          (@List.findIdx_getElem _ (fun value => decide (len ≤ value)) NORM_TABLE hbound)
        have hfirst : NORM_TABLE[i]? = some 0 := by
          rw [hzero]
          exact norm_table_of_lt (by decide)
        rw [(List.getElem?_eq_some_iff.1 hfirst).2] at hle
        -- a length that the first entry reaches is zero
        rw [UInt32.le_iff_toNat_le] at hle
        exact hge (Nat.lt_of_le_of_lt hle (by decide))
      obtain ⟨v, hv, hgreatest⟩ := isGreatest_findIdx pairwise_norm_table hidx (by
        rw [List.getElem?_map]
        intro hsome
        obtain ⟨value, hvalue, heq⟩ := Option.map_eq_some_iff.1 hsome
        exact hne (hvalue.trans (congrArg some (UInt32.toNat_inj.1 heq)))) hpos
      rw [List.getElem?_map] at hv
      grind [norm_to_length_ofNat]

/-! ## The builder -/

/-- The length last recorded for a document in a field. -/
def recorded (docs : List (UInt64 × FieldLengths)) (field : String) (doc_id : UInt64) :
    Option UInt32 :=
  ((docs.filter fun doc => doc.1 = doc_id).filterMap fun doc => doc.2.lookup field).getLast?

theorem recorded_concat (docs : List (UInt64 × FieldLengths)) (doc : UInt64 × FieldLengths)
    (field : String) (doc_id : UInt64) :
    recorded (docs ++ [doc]) field doc_id =
      if doc.1 = doc_id then (doc.2.lookup field).or (recorded docs field doc_id)
      else recorded docs field doc_id := by
  rw [recorded, recorded, List.filter_append, List.filterMap_append, List.getLast?_append]
  grind

namespace NormsBuilder

/-- The maps of the fields, looked through. -/
def look (fields : AList fun _ : String => DocLengths) (field : String) (doc_id : UInt64) :
    Option UInt32 :=
  (fields.lookup field).bind fun lengths => lengths.lookup doc_id

/-- Every field there is has a length. -/
def Inhabited (fields : AList fun _ : String => DocLengths) : Prop :=
  ∀ field lengths, fields.lookup field = some lengths → ∃ doc_id, (lengths.lookup doc_id).isSome

variable {fields : AList fun _ : String => DocLengths} {doc_id : UInt64}

theorem look_insert_length (fields : AList fun _ : String => DocLengths) (doc_id : UInt64)
    (entry : Sigma fun _ : String => UInt32) (field : String) (d : UInt64) :
    look (insert_length doc_id fields entry) field d =
      if entry.1 = field ∧ doc_id = d then some entry.2 else look fields field d := by
  rw [look, look, insert_length]
  by_cases hfield : entry.1 = field
  · subst hfield
    rw [AList.lookup_insert, Option.bind_some]
    by_cases hd : doc_id = d
    · subst hd
      simp
    · rw [AList.lookup_insert_ne (Ne.symm hd), if_neg fun h => hd h.2]
      rcases fields.lookup entry.1 with _ | lengths
      · exact AList.lookup_empty d
      · rfl
  · rw [AList.lookup_insert_ne (Ne.symm hfield), if_neg fun h => hfield h.1]

theorem Inhabited.insert_length (h : Inhabited fields) (doc_id : UInt64)
    (entry : Sigma fun _ : String => UInt32) :
    Inhabited (NormsBuilder.insert_length doc_id fields entry) := by
  intro field lengths hlookup
  rw [NormsBuilder.insert_length] at hlookup
  by_cases hfield : field = entry.1
  · grind [AList.lookup_insert]
  · rw [AList.lookup_insert_ne hfield] at hlookup
    exact h field lengths hlookup

theorem look_foldl_insert_length {entries : List (Sigma fun _ : String => UInt32)}
    (hnodup : entries.NodupKeys) : ∀ (fields : AList fun _ : String => DocLengths) (field : String)
    (d : UInt64), look (entries.foldl (insert_length doc_id) fields) field d =
      if doc_id = d then (entries.dlookup field).or (look fields field d)
      else look fields field d := by
  induction entries with
  | nil =>
      simp
  | cons entry entries ih =>
      intro fields field d
      obtain ⟨hnew, hnodup⟩ := List.nodupKeys_cons.1 hnodup
      rw [List.foldl_cons, ih hnodup, look_insert_length]
      by_cases hd : doc_id = d
      · rw [if_pos hd, if_pos hd]
        by_cases hfield : entry.1 = field
        · rw [if_pos ⟨hfield, hd⟩]
          grind [List.dlookup_eq_none]
        grind
      grind

theorem look_insert_document (fields : AList fun _ : String => DocLengths)
    (doc : UInt64 × FieldLengths) (field : String) (d : UInt64) :
    look (insert_document fields doc) field d =
      if doc.1 = d then (doc.2.lookup field).or (look fields field d) else look fields field d :=
  look_foldl_insert_length doc.2.nodupKeys fields field d

theorem Inhabited.insert_document (h : Inhabited fields) (doc : UInt64 × FieldLengths) :
    Inhabited (NormsBuilder.insert_document fields doc) := by
  rw [NormsBuilder.insert_document]
  generalize doc.2.entries = entries
  induction entries generalizing fields with
  | nil => exact h
  | cons entry entries ih => exact ih (h.insert_length doc.1 entry)

/-- **What the builder holds** is what was recorded last. -/
theorem look_from_buffered (docs : List (UInt64 × FieldLengths)) (field : String) (d : UInt64) :
    look (from_buffered docs).fields field d = recorded docs field d := by
  have hgen : ∀ docs : List (UInt64 × FieldLengths),
      look (docs.foldl insert_document ∅) field d = recorded docs field d := by
    intro docs
    induction docs using List.reverseRecOn with
    | nil =>
        rfl
    | append_singleton docs doc ih =>
        rw [List.foldl_append, List.foldl_cons, List.foldl_nil, look_insert_document, ih,
          recorded_concat]
  exact hgen docs

theorem inhabited_from_buffered (docs : List (UInt64 × FieldLengths)) :
    Inhabited (from_buffered docs).fields := by
  have hgen : ∀ fields, Inhabited fields → Inhabited (docs.foldl insert_document fields) := by
    induction docs with
    | nil => exact fun fields h => h
    | cons doc docs ih => exact fun fields h => ih _ (h.insert_document doc)
  exact hgen ∅ fun field lengths h => by
    cases h

/-! The documents. -/

theorem pairwise_doc_ids (docs : List (UInt64 × FieldLengths)) :
    (from_buffered docs).doc_ids.Pairwise (· < ·) := pairwise_sorted_dedup _

theorem mem_doc_ids {docs : List (UInt64 × FieldLengths)} :
    doc_id ∈ (from_buffered docs).doc_ids ↔ doc_id ∈ docs.map Prod.fst := mem_sorted_dedup

theorem mem_doc_ids_of_recorded {docs : List (UInt64 × FieldLengths)} {field : String}
    (h : (recorded docs field doc_id).isSome) : doc_id ∈ (from_buffered docs).doc_ids := by
  grind [mem_doc_ids, recorded]

end NormsBuilder

/-! ## Slots -/

theorem add_length_le_getLast {l : List ℕ} : ∀ {a b : ℕ}, (a :: l).Pairwise (· < ·) →
    (a :: l).getLast? = some b → a + l.length ≤ b := by
  induction l with
  | nil =>
      simp
  | cons c l ih =>
      grind

theorem eq_range'_of_getLast {l : List ℕ} : ∀ {a : ℕ}, (a :: l).Pairwise (· < ·) →
    (a :: l).getLast? = some (a + l.length) → a :: l = List.range' a (l.length + 1) := by
  induction l with
  | nil => exact fun _ _ => rfl
  | cons c l ih =>
      intro a hsorted hlast
      obtain ⟨hac, hsorted⟩ := List.pairwise_cons.1 hsorted
      have hlt := hac c List.mem_cons_self
      have hle := add_length_le_getLast hsorted hlast
      rw [List.length_cons] at hle hlast
      obtain rfl : c = a + 1 := by omega
      rw [List.length_cons, List.range'_succ, ih hsorted (hlast.trans (congrArg some (by omega)))]

variable {ids : List UInt64}

theorem pairwise_toNat (h : ids.Pairwise (· < ·)) : (ids.map UInt64.toNat).Pairwise (· < ·) :=
  List.pairwise_map.2 (h.imp UInt64.lt_iff_toNat_lt.1)

theorem is_contiguous_cons {a : UInt64} (h : (a :: ids).Pairwise (· < ·))
    (hlen : ids.length < 2 ^ 32) :
    is_contiguous (a :: ids) = true ↔
      ((a :: ids).getLast?.getD 0).toNat = a.toNat + ids.length := by
  obtain ⟨b, hlast⟩ : ∃ b, (a :: ids).getLast? = some b := ⟨_, List.getLast?_cons⟩
  have hle := add_length_le_getLast (pairwise_toNat h) (b := b.toNat) (by grind)
  have hb := b.toNat_lt
  rw [is_contiguous, List.head?_cons, hlast]
  dsimp only
  rw [beq_iff_eq, ← UInt64.toNat_inj, UInt64.toNat_add, UInt64.toNat_sub_of_le _ _
    (UInt64.le_iff_toNat_le.2 (by omega)), UInt64.toNat_one, List.length_cons, UInt64.toNat_ofNat',
    Option.getD_some]
  omega

/-- A slot map has the documents of a list at their indices. -/
def SlotMap.Of (m : SlotMap) (ids : List UInt64) : Prop :=
  ∀ (d : UInt64) (slot : ℕ), m.slot_of d.toNat = some slot ↔ ids[slot]? = some d

theorem getElem?_toNat {d : UInt64} {slot : ℕ} :
    (ids.map UInt64.toNat)[slot]? = some d.toNat ↔ ids[slot]? = some d := by
  simp [UInt64.toNat_inj]

theorem slot_map_sparse (h : ids.Pairwise (· < ·)) :
    (SlotMap.sparse (ids.map UInt64.toNat)).Of ids := by
  intro d slot
  have hsorted := pairwise_toNat h
  rw [SlotMap.slot_of, List.findIdx?_eq_some_iff_getElem, ← getElem?_toNat]
  constructor
  · grind
  · intro hslot
    obtain ⟨hlt, heq⟩ := List.getElem?_eq_some_iff.1 hslot
    refine ⟨hlt, beq_iff_eq.2 heq, fun j hj hsame => ?_⟩
    grind [List.pairwise_iff_getElem]

theorem map_toNat_contiguous {a : UInt64} (h : (a :: ids).Pairwise (· < ·))
    (hlast : ((a :: ids).getLast?.getD 0).toNat = a.toNat + ids.length) :
    (a :: ids).map UInt64.toNat = List.range' a.toNat (ids.length + 1) := by
  grind [eq_range'_of_getLast, pairwise_toNat]

theorem slot_map_contiguous {a : UInt64} (h : (a :: ids).Pairwise (· < ·))
    (hlast : ((a :: ids).getLast?.getD 0).toNat = a.toNat + ids.length) :
    (SlotMap.contiguous a.toNat (ids.length + 1)).Of (a :: ids) := by
  intro d slot
  rw [← getElem?_toNat, map_toNat_contiguous h hlast, SlotMap.slot_of, List.getElem?_eq_some_iff]
  constructor
  · grind
  · grind

/-! ## The slot loop -/

theorem toNat_bit (byte : UInt8) {j : ℕ} (hj : j < 8) :
    ((byte >>> UInt8.ofNat j) &&& 1 == 1) = byte.toNat.testBit j := by
  have hshift : (UInt8.ofNat j).toNat % 8 = j := by
    rw [UInt8.toNat_ofNat']
    omega
  have hiff : (byte >>> UInt8.ofNat j) &&& 1 = 1 ↔ byte.toNat.testBit j = true := by
    rw [← UInt8.toNat_inj, UInt8.toNat_and, UInt8.toNat_shiftRight, hshift, UInt8.toNat_one,
      Nat.and_one_is_mod, Nat.testBit_eq_decide_div_mod_eq, Nat.shiftRight_eq_div_pow,
      decide_eq_true_eq]
  rw [Bool.eq_iff_iff, beq_iff_eq, hiff]

theorem testBit_set_bit (byte : UInt8) {i j : ℕ} (hi : i < 8) :
    (byte ||| 1 <<< UInt8.ofNat i).toNat.testBit j =
      (decide (i = j) || byte.toNat.testBit j) := by
  have hone : ((1 : UInt8) <<< UInt8.ofNat i).toNat = 2 ^ i := by
    rw [UInt8.toNat_shiftLeft, UInt8.toNat_ofNat', UInt8.toNat_one, Nat.shiftLeft_eq, Nat.one_mul,
      Nat.mod_eq_of_lt (by omega : i < 2 ^ 8), Nat.mod_eq_of_lt hi,
      Nat.mod_eq_of_lt (Nat.pow_lt_pow_right (by omega) hi)]
  rw [UInt8.toNat_or, Nat.testBit_or, hone, Nat.testBit_two_pow, Bool.or_comm]

namespace LoadedNorms

variable {bits : Bytes} {i j : ℕ}

theorem bit_of_some {byte : UInt8} (h : bits[j / 8]? = some byte) :
    bit_of bits j = byte.toNat.testBit (j % 8) := by
  rw [bit_of, h]
  exact toNat_bit byte (Nat.mod_lt _ (by omega))

theorem bit_of_none (h : bits[j / 8]? = none) : bit_of bits j = false := by
  rw [bit_of, h]

/-- **A bit is set, the others are kept.** -/
theorem bit_of_modify (hi : i / 8 < bits.length) :
    bit_of (bits.modify (i / 8) fun byte => byte ||| 1 <<< UInt8.ofNat (i % 8)) j =
      (decide (i = j) || bit_of bits j) := by
  by_cases hword : i / 8 = j / 8
  · have hbyte : bits[j / 8]? = some bits[i / 8] := by grind
    rw [bit_of_some (by rw [← hword, List.getElem?_modify_eq, List.getElem?_eq_getElem hi]; rfl),
      bit_of_some hbyte, testBit_set_bit _ (Nat.mod_lt _ (by omega))]
    grind
  · rw [decide_eq_false fun h : i = j => hword (h ▸ rfl), Bool.false_or, bit_of, bit_of,
      List.getElem?_modify_ne _ _ hword]

theorem bit_of_zeros {n : ℕ} : bit_of (List.replicate n 0) j = false := by
  rcases Nat.lt_or_ge (j / 8) n with h | h
  · rw [bit_of_some (by rw [List.getElem?_replicate, if_pos h])]
    exact Nat.zero_testBit _
  · exact bit_of_none (by grind)

end LoadedNorms

namespace SlotFill

open LoadedNorms

variable {lengths : DocLengths}

variable {fill : SlotFill} {d : UInt64}

theorem turn_none {slot : ℕ} (h : lengths.lookup d = none) :
    fill.turn lengths (d, slot) = fill := by
  rw [turn, h]

theorem turn_some {slot : ℕ} {len : UInt32}
    (h : lengths.lookup d = some len) :
    fill.turn lengths (d, slot) =
      { norms := fill.norms.set slot (length_to_norm len)
        presence := fill.presence.map fun bits =>
          bits.modify (slot / 8) fun byte => byte ||| 1 <<< UInt8.ofNat (slot % 8)
        sum_length := fill.sum_length + len.toUInt64
        min_length := min fill.min_length len
        max_length := max fill.max_length len } := by
  rw [turn, h]

theorem norms_foldl {ids : List UInt64} : ∀ {k : ℕ} {fill : SlotFill},
    k + ids.length ≤ fill.norms.length →
    ((ids.zipIdx k).foldl (turn lengths) fill).norms.length = fill.norms.length ∧
      (∀ slot < k, ((ids.zipIdx k).foldl (turn lengths) fill).norms[slot]? = fill.norms[slot]?) ∧
      ∀ i d len, ids[i]? = some d → lengths.lookup d = some len →
        ((ids.zipIdx k).foldl (turn lengths) fill).norms[k + i]? = some (length_to_norm len) := by
  induction ids with
  | nil =>
      simp
  | cons d ids ih =>
      intro k fill hroom
      rw [List.length_cons] at hroom
      have hlen : (fill.turn lengths (d, k)).norms.length = fill.norms.length := by
        rcases h : lengths.lookup d with _ | len
        · rw [turn_none h]
        · rw [turn_some h, List.length_set]
      have hbefore : ∀ slot < k,
          (fill.turn lengths (d, k)).norms[slot]? = fill.norms[slot]? := by
        intro slot hslot
        rcases h : lengths.lookup d with _ | len
        · rw [turn_none h]
        · rw [turn_some h, List.getElem?_set_ne (by omega)]
      obtain ⟨hlen', hkept, hset⟩ := @ih (k + 1) (fill.turn lengths (d, k)) (by omega)
      rw [List.zipIdx_cons, List.foldl_cons]
      refine ⟨hlen'.trans hlen, fun slot hslot => ?_, fun i e len hi hlookup => ?_⟩
      · grind
      · rcases i with _ | i
        · obtain rfl := Option.some.inj hi
          rw [hkept _ (by omega), turn_some hlookup, Nat.add_zero, List.getElem?_set_self (by omega)]
        grind

theorem presence_foldl {ids : List UInt64} : ∀ {k : ℕ} {fill : SlotFill} {bits : Bytes},
    fill.presence = some bits → k + ids.length ≤ 8 * bits.length →
    ∃ bits', ((ids.zipIdx k).foldl (turn lengths) fill).presence = some bits' ∧
      bits'.length = bits.length ∧ ∀ slot, bit_of bits' slot = (bit_of bits slot ||
        decide (k ≤ slot ∧ ((ids[slot - k]?).bind lengths.lookup).isSome)) := by
  induction ids with
  | nil =>
      grind
  | cons d ids ih =>
      intro k fill bits hbits hroom
      rw [List.length_cons] at hroom
      rw [List.zipIdx_cons, List.foldl_cons]
      have hslots : ∀ slot, (decide (k ≤ slot ∧
            (((d :: ids)[slot - k]?).bind lengths.lookup).isSome)) =
          (decide (k = slot ∧ (lengths.lookup d).isSome) ||
            decide (k + 1 ≤ slot ∧ ((ids[slot - (k + 1)]?).bind lengths.lookup).isSome)) := by grind
      rcases h : lengths.lookup d with _ | len
      · rw [turn_none h]
        obtain ⟨bits', hbits', hlen, hbit⟩ := @ih (k + 1) fill bits hbits (by omega)
        grind
      · set set_bits := bits.modify (k / 8) fun byte => byte ||| 1 <<< UInt8.ofNat (k % 8)
          with hset_bits
        have hlen_bits : set_bits.length = bits.length := List.length_modify ..
        have hturn : (fill.turn lengths (d, k)).presence = some set_bits := by
          rw [turn_some h, hbits]
          rfl
        obtain ⟨bits', hbits', hlen, hbit⟩ := @ih (k + 1) _ _ hturn (by omega)
        refine ⟨bits', hbits', hlen.trans hlen_bits, fun slot => ?_⟩
        rw [hbit, hslots, h, bit_of_modify (by omega)]
        simp [Bool.or_assoc, Bool.or_left_comm]

theorem presence_none {slots : List (UInt64 × ℕ)} (h : fill.presence = none) :
    (slots.foldl (turn lengths) fill).presence = none := by
  induction slots generalizing fill with
  | nil => exact h
  | cons slot slots ih =>
      refine ih ?_
      rcases hlookup : lengths.lookup slot.1 with _ | len
      · rw [turn_none hlookup]
        exact h
      · rw [turn_some hlookup, h]
        rfl

/-- The lengths that are found of some documents. -/
def found (lengths : DocLengths) (ids : List UInt64) : List ℕ :=
  ids.filterMap fun d => (lengths.lookup d).map UInt32.toNat

theorem found_cons_none {ids : List UInt64} (h : lengths.lookup d = none) :
    found lengths (d :: ids) = found lengths ids := by
  rw [found, List.filterMap_cons, h]
  rfl

theorem found_cons_some {ids : List UInt64} {len : UInt32}
    (h : lengths.lookup d = some len) :
    found lengths (d :: ids) = len.toNat :: found lengths ids := by
  rw [found, List.filterMap_cons, h]
  rfl

theorem sums_foldl {ids : List UInt64} : ∀ {k : ℕ} {fill : SlotFill},
    let out := (ids.zipIdx k).foldl (turn lengths) fill
    (fill.sum_length.toNat + (found lengths ids).sum < 2 ^ 64 →
      out.sum_length.toNat = fill.sum_length.toNat + (found lengths ids).sum) ∧
    out.min_length.toNat = (found lengths ids).foldl min fill.min_length.toNat ∧
    out.max_length.toNat = (found lengths ids).foldl max fill.max_length.toNat := by
  induction ids with
  | nil => exact fun {_ _} => ⟨fun _ => rfl, rfl, rfl⟩
  | cons d ids ih =>
      intro k fill
      rw [List.zipIdx_cons, List.foldl_cons]
      rcases h : lengths.lookup d with _ | len
      · rw [turn_none h, found_cons_none h]
        exact ih
      · rw [turn_some h, found_cons_some h, List.sum_cons, List.foldl_cons, List.foldl_cons]
        obtain ⟨hsum, hmin, hmax⟩ := @ih (k + 1) (fill.turn lengths (d, k))
        rw [turn_some h] at hsum hmin hmax
        rw [toNat_min_u32] at hmin
        rw [toNat_max_u32] at hmax
        refine ⟨fun hfits => ?_, hmin, hmax⟩
        have hadd : (fill.sum_length + len.toUInt64).toNat =
            fill.sum_length.toNat + len.toNat := by
          rw [UInt64.toNat_add, UInt32.toNat_toUInt64, Nat.mod_eq_of_lt (by omega)]
        grind

end SlotFill

/-! ## The columns -/

/-- The documents recorded, ascending. -/
def documents (docs : List (UInt64 × FieldLengths)) : List UInt64 :=
  ((docs.map Prod.fst).insertionSort (· ≤ ·)).dedup

/-- The lengths recorded in a field, by ascending document. -/
def recorded_lengths (docs : List (UInt64 × FieldLengths)) (field : String) : List ℕ :=
  (documents docs).filterMap fun d => (recorded docs field d).map UInt32.toNat

namespace NormsBuilder

open SlotFill

variable {ids : List UInt64} {lengths : DocLengths}

theorem found_perm (hids : ids.Nodup) (hheld : ∀ d, (lengths.lookup d).isSome → d ∈ ids) :
    (found lengths ids).Perm (lengths.entries.map fun entry => entry.2.toNat) := by
  have hkeys : (ids.filter fun d => (lengths.lookup d).isSome).Perm lengths.keys := by
    grind [AList.keys_nodup, AList.lookup_isSome, AList.mem_keys]
  have hfilter : found lengths ids =
      found lengths (ids.filter fun d => (lengths.lookup d).isSome) := by
    rw [found, found, List.filterMap_filter]
    refine List.filterMap_congr fun d _ => ?_
    simp
  have hentries : found lengths lengths.keys = lengths.entries.map fun entry => entry.2.toNat := by
    rw [found, AList.keys, List.keys, List.filterMap_map, ← List.filterMap_eq_map]
    refine List.filterMap_congr fun entry hentry => ?_
    have hlookup : lengths.lookup entry.1 = some entry.2 := AList.mem_lookup_iff.2 hentry
    grind
  rw [hfilter, ← hentries]
  exact hkeys.filterMap _

theorem length_keys (hids : ids.Nodup) (hheld : ∀ d, (lengths.lookup d).isSome → d ∈ ids) :
    lengths.keys.length = (found lengths ids).length := by
  rw [(found_perm hids hheld).length_eq, AList.keys, List.keys, List.length_map, List.length_map]

theorem lookup_isSome_of_all_present (hheld : ∀ d, (lengths.lookup d).isSome → d ∈ ids)
    (hall : lengths.keys.length = ids.length) {d : UInt64} (hd : d ∈ ids) :
    (lengths.lookup d).isSome := by
  have hsub : lengths.keys.Subperm ids := List.subperm_of_subset lengths.keys_nodup fun d hd =>
    hheld d (AList.lookup_isSome.2 (AList.mem_keys.1 hd))
  have hperm := hsub.perm_of_length_le hall.ge
  exact AList.lookup_isSome.2 (AList.mem_keys.2 (hperm.mem_iff.2 hd))

variable {b : NormsBuilder}

theorem norms_room (b : NormsBuilder) (all_present : Bool) :
    0 + b.doc_ids.length ≤ (SlotFill.start b.doc_ids.length all_present).norms.length := by
  rw [SlotFill.start, List.length_replicate, Nat.zero_add]

theorem length_norms (b : NormsBuilder) (lengths : DocLengths) :
    (b.fill_slots lengths).norms.length = b.doc_ids.length :=
  (norms_foldl (norms_room b _)).1.trans List.length_replicate

theorem norms_slot {slot : ℕ} {d : UInt64} {len : UInt32} (hid : b.doc_ids[slot]? = some d)
    (hlen : lengths.lookup d = some len) :
    (b.fill_slots lengths).norms[slot]? = some (length_to_norm len) := by
  have hset := (norms_foldl (norms_room b (lengths.keys.length == b.doc_ids.length))).2.2
    slot d len hid hlen
  rw [Nat.zero_add] at hset
  exact hset

theorem presence_all (hall : lengths.keys.length = b.doc_ids.length) :
    (b.fill_slots lengths).presence = none :=
  presence_none (if_pos (beq_iff_eq.2 hall))

theorem presence_bits (hall : lengths.keys.length ≠ b.doc_ids.length) :
    ∃ bits, (b.fill_slots lengths).presence = some bits ∧
      bits.length = (b.doc_ids.length + 7) / 8 ∧ ∀ slot d, b.doc_ids[slot]? = some d →
        LoadedNorms.bit_of bits slot = (lengths.lookup d).isSome := by
  have hstart : (SlotFill.start b.doc_ids.length
      (lengths.keys.length == b.doc_ids.length)).presence =
        some (List.replicate ((b.doc_ids.length + 7) / 8) 0) :=
    if_neg fun h => hall (beq_iff_eq.1 h)
  obtain ⟨bits, hbits, hlen, hbit⟩ := @presence_foldl lengths b.doc_ids 0 _ _ hstart (by
    rw [List.length_replicate]
    omega)
  refine ⟨bits, hbits, hlen.trans List.length_replicate, fun slot d hid => ?_⟩
  rw [hbit, LoadedNorms.bit_of_zeros, Nat.sub_zero, hid, Option.bind_some]
  simp

/-- **A column gives what its map has**, whichever way it notes presence. -/
theorem column_length_eq (hheld : ∀ d, (lengths.lookup d).isSome → d ∈ b.doc_ids)
    {norms : LoadedNorms} (hslots : norms.slot_map.Of b.doc_ids) {column : ℕ} {f : NormColumn}
    (hcolumn : norms.columns[column]? = some f) (hnorms : f.norms = (b.fill_slots lengths).norms)
    (hpresence : f.presence = (b.fill_slots lengths).presence) (d : UInt64) :
    norms.column_length column d = (lengths.lookup d).map round_down := by
  rw [LoadedNorms.column_length, hcolumn, Option.bind_eq_bind, Option.bind_some]
  rcases hslot : norms.slot_map.slot_of d.toNat with _ | slot
  · -- a document without a slot has no length
    have hnone : lengths.lookup d = none := by
      rw [Option.eq_none_iff_forall_not_mem]
      intro len hlen
      obtain ⟨i, hi⟩ := List.mem_iff_getElem?.1 (hheld d (by rw [hlen]; rfl))
      rw [(hslots d i).2 hi] at hslot
      cases hslot
    rw [hnone]
    rfl
  · have hid := (hslots d slot).1 hslot
    have hgiven : ∀ len, lengths.lookup d = some len →
        f.norms[slot]?.map norm_to_length = some (round_down len) := by
      intro len hlen
      rw [hnorms, norms_slot hid hlen]
      rfl
    have hpresent : LoadedNorms.present f slot = (lengths.lookup d).isSome := by
      grind [LoadedNorms.present, presence_all, lookup_isSome_of_all_present, presence_bits]
    rcases hlen : lengths.lookup d with _ | len
    · grind
    grind

theorem foldl_min_eq {l : List ℕ} {start : ℕ} (hne : l ≠ []) (hle : ∀ v ∈ l, v ≤ start) :
    l.foldl min start = l.min?.getD 0 := by
  rcases l with _ | ⟨v, l⟩
  · exact absurd rfl hne
  · rw [List.foldl_cons, Nat.min_eq_right (hle v List.mem_cons_self), List.min?_cons']
    rfl

theorem foldl_max_eq {l : List ℕ} (hne : l ≠ []) : l.foldl max 0 = l.max?.getD 0 := by
  rcases l with _ | ⟨v, l⟩
  · exact absurd rfl hne
  · rw [List.foldl_cons, Nat.zero_max, List.max?_cons']
    rfl

theorem found_lt {v : ℕ} (h : v ∈ found lengths ids) : v < 2 ^ 32 := by
  obtain ⟨d, -, hd⟩ := List.mem_filterMap.1 h
  obtain ⟨len, -, rfl⟩ := Option.map_eq_some_iff.1 hd
  exact len.toNat_lt

theorem sum_found_lt (hfew : ids.length < 2 ^ 32) : (found lengths ids).sum < 2 ^ 64 := by
  have hlen : (found lengths ids).length ≤ ids.length := List.length_filterMap_le _ _
  have hle : (found lengths ids).sum ≤ (found lengths ids).length • (2 ^ 32 - 1) :=
    List.sum_le_card_nsmul _ _ fun v hv => Nat.le_pred_of_lt (found_lt hv)
  grind

/-- **The totals of a field**, exact. -/
theorem fill_slots_sums (hfew : b.doc_ids.length < 2 ^ 32)
    (hne : found lengths b.doc_ids ≠ []) :
    (b.fill_slots lengths).sum_length.toNat = (found lengths b.doc_ids).sum ∧
      (b.fill_slots lengths).min_length.toNat = (found lengths b.doc_ids).min?.getD 0 ∧
      (b.fill_slots lengths).max_length.toNat = (found lengths b.doc_ids).max?.getD 0 := by
  obtain ⟨hsum, hmin, hmax⟩ := @sums_foldl lengths b.doc_ids 0
    (SlotFill.start b.doc_ids.length (lengths.keys.length == b.doc_ids.length))
  refine ⟨(hsum ?_).trans (Nat.zero_add _), hmin.trans (foldl_min_eq hne fun v hv => ?_),
    hmax.trans (foldl_max_eq hne)⟩
  · exact (Nat.zero_add _).trans_lt (sum_found_lt hfew)
  · exact Nat.le_pred_of_lt (found_lt hv)

end NormsBuilder

end Laurus
