import Laurus.Common.Bytes
import Laurus.Lexical.Helpers.Norms
import Laurus.Storage.Helpers.Structured
import Mathlib.Tactic.NormNum

/-!
# Field lengths through the `.norms` part

What `write_to` writes, `load` reads back (`carries_write_to`), section by
section: the header, whose counts are checked against what follows it, the
slot map, and a record for each field.
-/

namespace Laurus

open Laurus.Comp

namespace NormsBuilder

open StructWriter StructReader LoadedNorms

variable {b : NormsBuilder}

/-! ## The slot map -/

theorem carries_deltas : ∀ {ids : List UInt64} {prev : UInt64}, (prev :: ids).Pairwise (· < ·) →
    Carries ids.length (write_deltas prev ids) () (read_sparse_deltas prev ids.length)
      (ids, (ids.getLast?).getD prev) := by
  intro ids
  induction ids with
  | nil => exact fun _ => Carries.pure () _
  | cons d ids ih =>
      intro prev hsorted
      obtain ⟨hlt, hsorted⟩ := List.pairwise_cons.1 hsorted
      have hd := UInt64.lt_iff_toNat_lt.1 (hlt d List.mem_cons_self)
      have hnext : prev.toNat + (d - prev - 1 + 1).toNat = d.toNat := by
        rw [UInt64.sub_add_cancel, UInt64.toNat_sub_of_le _ _ (UInt64.le_iff_toNat_le.2 hd.le)]
        omega
      have hfits := d.toNat_lt
      rw [write_deltas, List.length_cons, read_sparse_deltas]
      refine (carries_varint _).bind (k := ids.length) ?_ (by omega)
      dsimp only
      rw [hnext, if_neg (by omega), UInt64.ofNat_toNat]
      refine (ih hsorted).map ?_
      grind

/-! ## The fields -/

/-- The column of a field. -/
def column (b : NormsBuilder) (name : String) : NormColumn :=
  let lengths := (b.fields.lookup name).getD ∅
  let fill := b.fill_slots lengths
  { present_count := UInt64.ofNat lengths.keys.length
    sum_length := fill.sum_length
    min_length := if lengths.keys.isEmpty then 0 else fill.min_length
    max_length := fill.max_length
    presence := fill.presence
    norms := fill.norms }

theorem carries_presence (hfew : b.doc_ids.length < 2 ^ 32) (lengths : DocLengths) (name : String) :
    Carries 1 (write_presence (b.fill_slots lengths).presence) ()
      (read_presence b.doc_ids.length name) (b.fill_slots lengths).presence := by
  by_cases hall : lengths.keys.length = b.doc_ids.length
  · rw [presence_all hall]
    exact (carries_u8 ENCODING_ALL_PRESENT).bind (Carries.pure () none) (Nat.le_refl _)
  · obtain ⟨bits, hbits, hlen, -⟩ := presence_bits hall
    rw [hbits]
    refine (carries_u8 ENCODING_PRESENCE_BITMAP).bind (k := 0) ?_ (Nat.le_refl _)
    have hread := ((carries_checked hlen (by omega) "presence bitmap").mono (Nat.zero_le _)).map
      (f := fun bits => pure (some bits)) rfl
    simp only [bind_assoc] at hread
    exact hread

theorem carries_field (hfew : b.doc_ids.length < 2 ^ 32) {name : String}
    (hname : name.toByteArray.data.toList.length < 2 ^ 64) :
    Carries 6 (b.write_field name) () (read_field b.doc_ids.length) (name, b.column name) := by
  set lengths := (b.fields.lookup name).getD ∅ with hlengths
  refine (carries_string hname).bind (k := 5) ?_ (by omega)
  refine (carries_varint _).bind (k := 4) ?_ (by omega)
  refine (carries_varint _).bind (k := 3) ?_ (by omega)
  refine (carries_varint _).bind (k := 2) ?_ (by omega)
  refine (carries_varint _).bind (k := 1) ?_ (by omega)
  refine (carries_presence hfew lengths name).bind (k := 0) ?_ (Nat.le_refl _)
  have hread := ((carries_checked (length_norms b lengths) (by omega) "norm column").mono
    (Nat.zero_le _)).map (f := fun norms => pure (name, { b.column name with norms })) rfl
  simp only [bind_assoc] at hread
  rw [UInt32.toUInt32_toUInt64, UInt32.toUInt32_toUInt64]
  exact hread

theorem carries_fields (hfew : b.doc_ids.length < 2 ^ 32) : ∀ {names : List String},
    (∀ name ∈ names, name.toByteArray.data.toList.length < 2 ^ 64) →
    Carries (6 * names.length) (names.forM b.write_field) ()
      (read_fields b.doc_ids.length names.length)
      (names.map fun name => (name, b.column name)) := by
  intro names
  induction names with
  | nil => exact fun _ => Carries.pure () []
  | cons name names ih =>
      intro hnames
      rw [List.forall_mem_cons] at hnames
      rw [List.length_cons, read_fields]
      refine (carries_field hfew hnames.1).bind (k := 6 * names.length) ?_ (by omega)
      exact (ih hnames.2).map rfl

/-! ## The part -/

/-- The header of the part. -/
def header (b : NormsBuilder) : NormsHeader where
  contiguous := is_contiguous b.doc_ids
  doc_count := b.doc_ids.length
  min_doc_id := b.doc_ids.head?.getD 0
  max_doc_id := b.doc_ids.getLast?.getD 0
  num_fields := b.field_names.length

/-- The slot map that is read back. -/
def slot_map (b : NormsBuilder) : SlotMap :=
  if is_contiguous b.doc_ids then
    SlotMap.contiguous (b.doc_ids.head?.getD 0).toNat b.doc_ids.length
  else SlotMap.sparse (b.doc_ids.map UInt64.toNat)

/-- The bytes of the slot map, at least. -/
def slot_map_bytes (b : NormsBuilder) : ℕ :=
  if is_contiguous b.doc_ids then 0 else b.doc_ids.length - 1

theorem carries_sparse_ids {d : UInt64} {ids : List UInt64} (hids : b.doc_ids = d :: ids)
    (hsorted : b.doc_ids.Pairwise (· < ·)) :
    Carries ids.length (write_deltas d ids) () (read_sparse_ids b.header) b.doc_ids := by
  rw [hids] at hsorted
  rw [read_sparse_ids, header, hids]
  refine (carries_deltas hsorted).map ?_
  grind

theorem carries_slot_map (hsorted : b.doc_ids.Pairwise (· < ·)) :
    Carries b.slot_map_bytes b.write_slot_map () (read_slot_map b.header) b.slot_map := by
  rw [write_slot_map, read_slot_map, slot_map, slot_map_bytes]
  by_cases hcontiguous : is_contiguous b.doc_ids = true
  · rw [if_pos hcontiguous, if_pos hcontiguous, if_pos hcontiguous,
      if_pos (show b.header.contiguous = true from hcontiguous)]
    exact Carries.pure () _
  · obtain ⟨d, ids, hids⟩ : ∃ d ids, b.doc_ids = d :: ids := by
      rcases h : b.doc_ids with _ | ⟨d, ids⟩
      · rw [h] at hcontiguous
        exact absurd rfl hcontiguous
      · exact ⟨d, ids, rfl⟩
    have hsome : 0 < b.header.doc_count := by
      show 0 < b.doc_ids.length
      rw [hids]
      exact Nat.succ_pos _
    have hsparse := carries_sparse_ids hids hsorted
    rw [if_neg hcontiguous, if_neg hcontiguous, if_neg hcontiguous,
      if_neg (show ¬ b.header.contiguous = true from hcontiguous), if_pos hsome, hids]
    rw [hids] at hsparse
    exact hsparse.map rfl

/-- What is loaded. -/
def loaded (b : NormsBuilder) : LoadedNorms where
  slot_map := b.slot_map
  columns := b.field_names.map b.column
  column_index := (b.field_names.map fun name => (name, b.column name)).zipIdx.foldl index_column ∅

/-- What the header counts on to follow it. -/
structure Writable (b : NormsBuilder) : Prop where
  ascending : b.doc_ids.Pairwise (· < ·)
  /-- More documents a loader refuses. -/
  few : b.doc_ids.length < 2 ^ 32
  names : ∀ name ∈ b.field_names, name.toByteArray.data.toList.length < 2 ^ 64
  fields : b.field_names.length < 2 ^ 64

theorem carries_body (h : b.Writable) :
    Carries (b.slot_map_bytes + 6 * b.field_names.length) (do
      b.write_slot_map
      b.field_names.forM b.write_field) () (read_body b.header) b.loaded := by
  refine (carries_slot_map h.ascending).bind ?_ (Nat.le_refl _)
  refine (carries_fields h.few h.names).map ?_
  rw [loaded, List.map_map]
  rfl

theorem require_ok {condition : Prop} [Decidable condition] {text : String} (h : condition) :
    NormsHeader.require condition text = pure () := if_pos h

/-- The documents pass what the header is checked for. -/
theorem check_documents_ok (h : b.Writable) {available : ℕ} (hbytes : b.slot_map_bytes ≤ available) :
    NormsHeader.check_documents (is_contiguous b.doc_ids) (UInt64.ofNat b.doc_ids.length)
      (b.doc_ids.head?.getD 0) (b.doc_ids.getLast?.getD 0) available = pure () := by
  have hsorted := h.ascending
  have hfew := h.few
  rw [slot_map_bytes] at hbytes
  rw [NormsHeader.check_documents]
  rcases hids : b.doc_ids with _ | ⟨d, ids⟩
  · exact if_pos rfl
  · rw [hids] at hsorted hfew hbytes
    rw [List.length_cons] at hfew hbytes
    have hlen : (UInt64.ofNat (d :: ids).length).toNat = ids.length + 1 := by
      rw [toNat_ofNat_length (by rw [List.length_cons]; omega), List.length_cons]
    have hsome : UInt64.ofNat (d :: ids).length ≠ 0 := by
      intro hzero
      rw [hzero] at hlen
      exact absurd hlen (by simp)
    rw [if_neg hsome, hlen, Nat.add_sub_cancel]
    by_cases hcontiguous : is_contiguous (d :: ids) = true
    · rw [if_pos hcontiguous]
      exact require_ok ((is_contiguous_cons hsorted (by omega)).1 hcontiguous).symm
    · rw [if_neg hcontiguous] at hbytes ⊢
      rw [checked_capacity_u64_eq_ok.2 ⟨by rw [Nat.max_self]; omega, by omega, rfl⟩]
      rfl

/-- **The header reads back**: its counts pass against what follows. -/
theorem carries_header (h : b.Writable) {α : Type} {f : NormsHeader → Read α} {a : α}
    (hf : Carries (b.slot_map_bytes + 6 * b.field_names.length) (do
      b.write_slot_map
      b.field_names.forM b.write_field) () (f b.header) a) :
    Carries 0 b.write_to () (NormsHeader.read >>= f) a := by
  have hflags : ∀ c : Bool, (if c = true then FLAG_SLOT_MAP_CONTIGUOUS else 0) &&&
      ~~~FLAG_SLOT_MAP_CONTIGUOUS = 0 := by decide
  have hflag : ∀ c : Bool, ((if c = true then FLAG_SLOT_MAP_CONTIGUOUS else 0) &&&
      FLAG_SLOT_MAP_CONTIGUOUS != 0) = c := by decide
  have hfew := h.few
  have hcount : (UInt64.ofNat b.doc_ids.length).toNat = b.doc_ids.length :=
    toNat_ofNat_length (by omega)
  have hfields : (UInt64.ofNat b.field_names.length).toNat = b.field_names.length :=
    toNat_ofNat_length h.fields
  rw [write_to, NormsHeader.read]
  simp only [bind_assoc]
  refine (@carries_raw NORMS_MAGIC 4 rfl (by decide)).bind (k := 0) ?_ (Nat.zero_le _)
  rw [require_ok rfl, pure_bind]
  refine (@carries_raw NORMS_VERSION 2 rfl (by decide)).bind (k := 0) ?_ (Nat.zero_le _)
  rw [require_ok rfl, pure_bind]
  refine (carries_u8 _).bind (k := 0) ?_ (Nat.zero_le _)
  rw [require_ok rfl, pure_bind]
  refine (carries_u8 _).bind (k := 0) ?_ (Nat.zero_le _)
  rw [require_ok (hflags _), pure_bind, hflag]
  refine (carries_varint _).bind (k := 0) ?_ (Nat.zero_le _)
  rw [require_ok (by rw [hcount]; exact hfew), pure_bind, hcount]
  refine (carries_u64 _).bind (k := 0) ?_ (Nat.zero_le _)
  refine (carries_u64 _).bind (k := 0) ?_ (Nat.zero_le _)
  refine (carries_varint _).bind (k := 0) ?_ (Nat.zero_le _)
  refine Carries.mono (hf.get_bind fun r hr => ?_) (Nat.zero_le _)
  rw [input_rest, length_rest] at hr
  rw [hfields, checked_capacity_u64_eq_ok.2 ⟨show b.field_names.length * 6 ≤ _ by omega, h.fields, rfl⟩,
    read_liftE_ok, pure_bind, check_documents_ok h (by omega), pure_bind, pure_bind]
  rfl

theorem toFinset_contiguous {d : UInt64} {ids : List UInt64} (h : (d :: ids).Pairwise (· < ·))
    (hlast : ((d :: ids).getLast?.getD 0).toNat = d.toNat + ids.length) :
    Finset.Icc d.toNat ((d :: ids).getLast?.getD 0).toNat =
      ((d :: ids).map UInt64.toNat).toFinset := by
  rw [map_toNat_contiguous h hlast, hlast]
  ext n
  rw [Finset.mem_Icc, List.mem_toFinset, List.mem_range'_1]
  omega

theorem carries_header_ids (h : b.Writable) :
    Carries b.slot_map_bytes b.write_slot_map () (read_header_ids b.header)
      (b.doc_ids.map UInt64.toNat).toFinset := by
  have hsorted := h.ascending
  have hfew := h.few
  rw [read_header_ids, write_slot_map, slot_map_bytes]
  rcases hids : b.doc_ids with _ | ⟨d, ids⟩
  · have hnone : b.header.doc_count = 0 := by
      show b.doc_ids.length = 0
      rw [hids]
      rfl
    have hempty : is_contiguous [] = true := rfl
    rw [if_pos hempty, if_pos hempty, if_pos hnone]
    exact Carries.pure () ∅
  · have hsome : b.header.doc_count ≠ 0 := by
      show b.doc_ids.length ≠ 0
      grind
    rw [if_neg hsome]
    by_cases hcontiguous : is_contiguous (d :: ids) = true
    · have hflag : b.header.contiguous = true := by rw [header, hids, hcontiguous]
      rw [hids] at hsorted hfew
      rw [List.length_cons] at hfew
      have hlast := (is_contiguous_cons hsorted (by omega)).1 hcontiguous
      rw [if_pos hcontiguous, if_pos hcontiguous, if_pos hflag,
        ← toFinset_contiguous hsorted hlast, header, hids]
      exact Carries.pure () _
    · have hflag : ¬ b.header.contiguous = true := by
        rw [header, hids]
        exact hcontiguous
      have hsparse := carries_sparse_ids hids hsorted
      rw [if_neg hcontiguous, if_neg hcontiguous, if_neg hflag]
      rw [hids] at hsparse
      exact hsparse.map rfl

theorem emits_unique {p : Write Unit} {bs cs : Bytes} (h : Emits p bs ()) (h' : Emits p cs ()) :
    bs = cs := by
  have heq := (h _ ready_new).symm.trans (h' _ ready_new)
  rw [Except.ok.injEq, Prod.mk.injEq] at heq
  have hout := congrArg StructWriter.out heq.2
  exact hout

theorem load_file_eq (h : b.Writable) (crc32 : Bytes → UInt32) :
    ∃ file r, b.file crc32 = .ok file ∧
      load_file crc32 (StructReader.new file) = .ok (b.loaded, r) ∧
      read_doc_ids_from file = .ok (b.doc_ids.map UInt64.toNat).toFinset := by
  obtain ⟨payload, -, hemits, hreads⟩ := carries_header h (carries_body h)
  -- the other reader, carried on to the end of the fields
  obtain ⟨payload', -, hemits', hids⟩ := carries_header h
    (f := fun header => read_header_ids header >>= fun ids =>
      read_fields b.doc_ids.length b.field_names.length >>= fun _ => pure ids)
    ((carries_header_ids h).bind ((carries_fields h.few h.names).map rfl) (Nat.le_refl _))
  obtain rfl := emits_unique hemits hemits'
  obtain ⟨w, hw, hclose⟩ := close_of_emits crc32 hemits
  obtain ⟨r, hload⟩ := read_closed crc32 "norms" hreads
  refine ⟨_, r, ?_, hload, ?_⟩
  · rw [file, hw]
    exact hclose
  · have hread := hids (StructReader.new (payload ++ footer crc32 payload)) _ rfl
    rw [← bind_assoc] at hread
    obtain ⟨ids, s, hfirst, hrest⟩ := bind_eq_ok hread
    obtain ⟨_, s', -, hpure⟩ := bind_eq_ok hrest
    rw [pure_apply, Except.ok.injEq, Prod.mk.injEq] at hpure
    rw [read_doc_ids_from, hfirst, ← hpure.1]

/-! ## Columns by name -/

theorem lookup_index_columns {fields : List (String × NormColumn)}
    (hnodup : (fields.map Prod.fst).Nodup) : ∀ {k : ℕ} {acc : AList fun _ : String => ℕ}
    {name : String}, ((fields.zipIdx k).foldl index_column acc).lookup name =
      ((fields.map Prod.fst).findIdx? (· == name)).elim (acc.lookup name) fun i => some (k + i) := by
  induction fields with
  | nil => exact fun {_ _ _} => rfl
  | cons field fields ih =>
      intro k acc name
      rw [List.map_cons, List.nodup_cons] at hnodup
      rw [List.zipIdx_cons, List.foldl_cons, ih hnodup.2, List.map_cons, List.findIdx?_cons]
      by_cases hname : field.1 = name
      · have hnone : (fields.map Prod.fst).findIdx? (· == name) = none := by grind
        rw [hnone, if_pos (beq_iff_eq.2 hname), index_column, ← hname]
        exact AList.lookup_insert _
      · rw [if_neg (by simpa using hname), index_column, AList.lookup_insert_ne (Ne.symm hname)]
        rcases (fields.map Prod.fst).findIdx? (· == name) with _ | i
        · rfl
        grind

theorem nodup_field_names (b : NormsBuilder) : b.field_names.Nodup :=
  (List.mergeSort_perm _ _).nodup_iff.2 b.fields.keys_nodup

theorem mem_field_names {name : String} : name ∈ b.field_names ↔ (b.fields.lookup name).isSome := by
  rw [field_names, List.mem_mergeSort, AList.lookup_isSome, AList.mem_keys]

/-- **A field that is recorded has its column, another none.** -/
theorem loaded_column (b : NormsBuilder) (name : String) :
    (∀ lengths, b.fields.lookup name = some lengths → ∃ i, b.loaded.column name = some i ∧
      b.loaded.columns[i]? = some (b.column name)) ∧
    (b.fields.lookup name = none → b.loaded.column name = none) := by
  have hmap : (b.field_names.map fun name => (name, b.column name)).map Prod.fst =
      b.field_names := by
    rw [List.map_map]
    exact List.map_id _
  have hlookup : b.loaded.column name =
      (b.field_names.findIdx? (· == name)).elim none fun i => some i := by
    rw [LoadedNorms.column, loaded, lookup_index_columns (by rw [hmap]; exact b.nodup_field_names),
      hmap]
    simp
  constructor
  · intro lengths h
    have hmem : name ∈ b.field_names := mem_field_names.2 (by rw [h]; rfl)
    have hsome : (b.field_names.findIdx? (· == name)).isSome = true := by grind
    obtain ⟨i, hi⟩ := Option.isSome_iff_exists.1 hsome
    obtain ⟨hlt, heq, -⟩ := List.findIdx?_eq_some_iff_getElem.1 hi
    refine ⟨i, by rw [hlookup, hi]; rfl, ?_⟩
    rw [loaded, List.getElem?_map, List.getElem?_eq_getElem hlt, beq_iff_eq.1 heq]
    rfl
  · intro h
    have hnone : b.field_names.findIdx? (· == name) = none := by
      grind [mem_field_names]
    rw [hlookup, hnone]
    rfl

/-! ## The builder of some documents -/

variable {docs : List (UInt64 × FieldLengths)} {name : String} {lengths : DocLengths}

theorem lookup_lengths (h : (from_buffered docs).fields.lookup name = some lengths) (d : UInt64) :
    lengths.lookup d = recorded docs name d := by
  rw [← look_from_buffered, look, h, Option.bind_some]

theorem recorded_of_none (h : (from_buffered docs).fields.lookup name = none) (d : UInt64) :
    recorded docs name d = none := by
  rw [← look_from_buffered, look, h, Option.bind_none]

theorem lengths_held (h : (from_buffered docs).fields.lookup name = some lengths) (d : UInt64)
    (hd : (lengths.lookup d).isSome) : d ∈ (from_buffered docs).doc_ids := by
  rw [lookup_lengths h] at hd
  exact mem_doc_ids_of_recorded hd

theorem found_eq (h : (from_buffered docs).fields.lookup name = some lengths) :
    SlotFill.found lengths (from_buffered docs).doc_ids = recorded_lengths docs name := by
  exact List.filterMap_congr fun d _ => congrArg _ (lookup_lengths h d)

theorem recorded_lengths_ne_nil (h : (from_buffered docs).fields.lookup name = some lengths) :
    recorded_lengths docs name ≠ [] := by
  obtain ⟨d, hd⟩ := inhabited_from_buffered docs name lengths h
  have hmem := lengths_held h d hd
  obtain ⟨len, hlen⟩ := Option.isSome_iff_exists.1 hd
  rw [lookup_lengths h] at hlen
  refine List.ne_nil_of_mem (List.mem_filterMap.2 ⟨d, hmem, ?_⟩) (a := len.toNat)
  rw [hlen]
  rfl

end NormsBuilder

/-- The statistics of the lengths recorded in a field. -/
def recorded_stats (𝕜 : Type) [Field 𝕜] (docs : List (UInt64 × FieldLengths)) (field : String) :
    Option (NormStats 𝕜) :=
  let lengths := recorded_lengths docs field
  if lengths = [] then none
  else some
    { doc_count := lengths.length
      avg_length := (lengths.sum : 𝕜) / (lengths.length : 𝕜)
      min_length := lengths.min?.getD 0
      max_length := lengths.max?.getD 0 }

/-- What fits in memory and in a segment. -/
structure Recordable (docs : List (UInt64 × FieldLengths)) : Prop where
  /-- `NormsHeader::read` refuses more documents. -/
  few : (documents docs).length < 2 ^ 32
  names : ∀ doc ∈ docs, ∀ name ∈ doc.2, name.toByteArray.data.toList.length < 2 ^ 63
  fields : (docs.flatMap fun doc => doc.2.keys).length < 2 ^ 63

namespace NormsBuilder

open LoadedNorms SlotFill

variable {b : NormsBuilder} {docs : List (UInt64 × FieldLengths)} {name : String}
  {lengths : DocLengths}

/-- A field of the builder is one of a document. -/
theorem exists_mem_of_field (h : (from_buffered docs).fields.lookup name = some lengths) :
    ∃ doc ∈ docs, name ∈ doc.2 := by
  obtain ⟨d, hd⟩ := inhabited_from_buffered docs name lengths h
  rw [lookup_lengths h, recorded] at hd
  obtain ⟨len, hlen⟩ := Option.isSome_iff_exists.1 hd
  obtain ⟨doc, hdoc, hlookup⟩ := List.mem_filterMap.1 (List.mem_of_getLast? hlen)
  grind [AList.lookup_isSome]

theorem writable (h : Recordable docs) : (from_buffered docs).Writable where
  ascending := pairwise_doc_ids docs
  few := h.few
  names name hname := by
    grind [Option.isSome_iff_exists, mem_field_names, exists_mem_of_field, Recordable.names]
  fields := by
    have hsub : (from_buffered docs).field_names.Subperm (docs.flatMap fun doc => doc.2.keys) := by
      grind [List.subperm_of_subset, nodup_field_names, Option.isSome_iff_exists, mem_field_names,
        exists_mem_of_field, AList.mem_keys]
    have := hsub.length_le
    have := h.fields
    omega

/-- **The slot map gives each document its slot**, in either layout. -/
theorem slot_map_of (h : b.Writable) : b.slot_map.Of b.doc_ids := by
  have hsorted := h.ascending
  have hfew := h.few
  rw [slot_map]
  by_cases hcontiguous : is_contiguous b.doc_ids = true
  · rw [if_pos hcontiguous]
    rcases hids : b.doc_ids with _ | ⟨d, ids⟩
    · exact fun e slot => by simp [SlotMap.slot_of]
    grind [slot_map_contiguous, is_contiguous_cons]
  · rw [if_neg hcontiguous]
    exact slot_map_sparse hsorted

theorem loaded_field_length (h : Recordable docs) (field : String) (d : UInt64) :
    (from_buffered docs).loaded.field_length d field =
      (recorded docs field d).map round_down := by
  obtain ⟨hsome, hnone⟩ := loaded_column (from_buffered docs) field
  rw [field_length]
  rcases hlengths : (from_buffered docs).fields.lookup field with _ | lengths
  · rw [hnone hlengths, recorded_of_none hlengths]
    rfl
  · obtain ⟨i, hi, hcolumn⟩ := hsome lengths hlengths
    rw [hi, ← lookup_lengths hlengths]
    have hfields : ((from_buffered docs).fields.lookup field).getD ∅ = lengths := by
      rw [hlengths]
      rfl
    refine column_length_eq (lengths_held hlengths) (slot_map_of (writable h)) hcolumn ?_ ?_ d
    · rw [column, hfields]
    · rw [column, hfields]

theorem loaded_totals (h : Recordable docs)
    (hlengths : (from_buffered docs).fields.lookup name = some lengths) :
    let f := (from_buffered docs).column name
    f.present_count.toNat = (recorded_lengths docs name).length ∧
      f.sum_length.toNat = (recorded_lengths docs name).sum ∧
      f.min_length.toNat = (recorded_lengths docs name).min?.getD 0 ∧
      f.max_length.toNat = (recorded_lengths docs name).max?.getD 0 := by
  have hfew : (from_buffered docs).doc_ids.length < 2 ^ 32 := h.few
  have hnodup : (from_buffered docs).doc_ids.Nodup :=
    (pairwise_doc_ids docs).imp UInt64.ne_of_lt
  have hkeys := length_keys hnodup (lengths_held hlengths)
  have hne := recorded_lengths_ne_nil hlengths
  have hle : (recorded_lengths docs name).length ≤ (from_buffered docs).doc_ids.length :=
    List.length_filterMap_le _ _
  grind [fill_slots_sums, found_eq, column, StructReader.toNat_ofNat_length]

theorem loaded_field_stats (h : Recordable docs) (𝕜 : Type) [Field 𝕜] (field : String) :
    (from_buffered docs).loaded.field_stats 𝕜 field = recorded_stats 𝕜 docs field := by
  obtain ⟨hsome, hnone⟩ := loaded_column (from_buffered docs) field
  rw [field_stats, recorded_stats]
  rcases hlengths : (from_buffered docs).fields.lookup field with _ | lengths
  · grind [recorded_lengths, List.filterMap_eq_nil_iff, recorded_of_none]
  grind [loaded_totals, recorded_lengths_ne_nil, List.length_pos_iff]

end NormsBuilder

/-- Three documents with gaps between them, the first recorded twice. -/
def sampleLengths : List (UInt64 × FieldLengths) :=
  [(5, [⟨"body", 100⟩, ⟨"title", 0⟩].toAList), (2, [⟨"body", 41⟩].toAList), (9, ∅),
    (5, [⟨"body", 99⟩].toAList)]

theorem sampleLengths_recordable : Recordable sampleLengths where
  few := by decide +kernel
  names doc hdoc name hname := by
    have hkeys : ∀ doc ∈ sampleLengths, ∀ name ∈ doc.2.keys,
        name.toByteArray.data.toList.length < 2 ^ 63 := by decide +kernel
    exact hkeys doc hdoc name (AList.mem_keys.1 hname)
  fields := by decide +kernel

end Laurus
