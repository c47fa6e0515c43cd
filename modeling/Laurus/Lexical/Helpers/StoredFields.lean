import Laurus.Lexical.Model.StoredFields
import Laurus.Storage.Helpers.Structured
import Laurus.Storage.Varint
import Mathlib.Algebra.Order.BigOperators.Group.List

/-!
# Reading a chunk of stored fields

Every decoder takes exactly the bytes of its encoder (`reads_*`), whatever
follows: the lengths and the counts pass, since what they announce is there.
A value comes back as it is restored (`reads_value`), and the documents of a
chunk under their ids (`reads_documents`).
-/

namespace Laurus

open Laurus.Comp

namespace ByteCursor

/-- What is not decoded yet. -/
def rest (c : ByteCursor) : Bytes := c.bytes.drop c.cursor

/-- The cursor after some bytes. -/
def advance (c : ByteCursor) (bs : Bytes) : ByteCursor :=
  { c with cursor := c.cursor + bs.length }

instance : Input ByteCursor UInt8 where
  rest := rest
  advance := advance
  advance_nil := by intro c; rfl
  advance_append := by
    intro c bs cs
    simp only [advance, List.length_append, Nat.add_assoc]
  rest_advance := by
    grind [rest, advance, List.drop_drop, List.drop_left]

@[simp] theorem input_rest (c : ByteCursor) : Input.rest c = c.rest := rfl

@[simp] theorem input_advance (c : ByteCursor) (bs : Bytes) :
    Input.advance c bs = c.advance bs := rfl

variable {c : ByteCursor} {bs t : Bytes} {α : Type}

theorem left_of_rest (h : c.rest = bs ++ t) :
    c.left = bs.length + t.length := by
  rw [left, ← List.length_drop, ← List.length_append, ← h, rest]

theorem cursor_add_le (h : c.rest = bs ++ t) (hne : bs ≠ []) :
    c.cursor + bs.length ≤ c.bytes.length := by
  have hleft := left_of_rest h
  have hpos := List.length_pos_iff.2 hne
  rw [left] at hleft
  omega

/-! ## The readers -/

theorem reads_liftE {x : Except LaurusError α} {a : α} (h : x = .ok a) :
    Reads (liftE x) ([] : Bytes) a := by
  rw [h]
  exact Reads.pure a

theorem read_slice_eq {bytes : Bytes} (h : c.rest = bytes ++ t)
    (hle : c.cursor + bytes.length ≤ c.bytes.length) (what : String) :
    read_slice bytes.length what c = .ok (bytes, c.advance bytes) := by
  rw [read_slice, bind_apply, get_apply]
  dsimp only
  rw [if_pos hle, ← rest, h, List.take_left]
  rfl

theorem reads_slice {bytes : Bytes} (hne : bytes ≠ []) (what : String) :
    Reads (read_slice bytes.length what) bytes bytes :=
  fun _ _ h => read_slice_eq h (cursor_add_le h hne) what

theorem reads_u8 (value : UInt8) (what : String) : Reads (read_u8 what) [value] value :=
  (@reads_slice [value] (List.cons_ne_nil _ _) what).bind_nil (Reads.pure value)

theorem reads_u64_le (value : UInt64) (what : String) :
    Reads (read_u64_le what) (StoredFields.push_u64 value) value := by
  have hlt : value.toNat < 256 ^ 8 := value.toNat_lt
  refine (@reads_slice (Bytes.ofNatLE 8 value.toNat) (List.cons_ne_nil _ _) what).bind_nil ?_
  rw [Bytes.toNatLE_ofNatLE hlt, UInt64.ofNat_toNat]
  exact Reads.pure value

theorem reads_f32_le (value : UInt32) (what : String) :
    Reads (read_f32_le what) (StoredFields.push_u32 value) value := by
  have hlt : value.toNat < 256 ^ 4 := value.toNat_lt
  refine (@reads_slice (Bytes.ofNatLE 4 value.toNat) (List.cons_ne_nil _ _) what).bind_nil ?_
  rw [Bytes.toNatLE_ofNatLE hlt, UInt32.ofNat_toNat]
  exact Reads.pure value

theorem push_varint_eq (value : UInt64) : StoredFields.push_varint value = encode_u64 value :=
  Varint.write_varint_loop_eq 10 [] value

theorem push_varint_ne_nil (value : UInt64) : StoredFields.push_varint value ≠ [] := by
  rw [push_varint_eq, encode_u64_eq]
  exact List.length_pos_iff.1 (Leb128.length_encode_pos _)

theorem reads_varint (value : UInt64) (what : String) :
    Reads (read_varint what) (StoredFields.push_varint value) value := by
  intro c t h
  rw [input_rest, push_varint_eq] at h
  rw [input_advance, push_varint_eq]
  have hagree := Varint.read_varint_agrees c.bytes c.cursor what
  rw [← rest, h, decode_u64_append (decode_u64_encode_u64 value)] at hagree
  rcases hagree with ⟨e, e', herror, -⟩ | ⟨v, taken, hdecoded, hread⟩
  · cases herror
  · obtain ⟨rfl, htaken⟩ := Prod.mk.inj (Except.ok.inj hdecoded)
    rw [Nat.zero_add] at htaken
    subst htaken
    rw [read_varint, bind_apply, get_apply]
    dsimp only
    rw [hread]
    rfl

theorem reads_len_prefixed_bytes {bytes : Bytes} (h64 : bytes.length < 2 ^ 64) (what : String) :
    Reads (read_len_prefixed_bytes what) (StoredFields.push_bytes bytes) bytes := by
  intro c t h
  rw [input_rest, StoredFields.push_bytes, List.append_assoc] at h
  have hle := cursor_add_le h (push_varint_ne_nil _)
  have hrest := Input.rest_advance (show Input.rest c = _ from h)
  rw [read_len_prefixed_bytes, bind_apply, reads_varint _ what c _ h]
  dsimp only
  rw [bind_apply, get_apply]
  dsimp only
  have hleft := left_of_rest hrest
  rw [StructReader.toNat_ofNat_length h64, checked_len_u64_eq_ok.2 ⟨by omega, h64, rfl⟩]
  refine (read_slice_eq hrest ?_ what).trans ?_
  · grind [left, input_advance, advance]
  · rw [← input_advance, Input.advance_append, StoredFields.push_bytes]

theorem from_utf8_toByteArray (value : String) (what : String) :
    from_utf8 value.toByteArray.data.toList what = .ok value := by
  rw [from_utf8, StructReader.string_of_bytes]

theorem reads_len_prefixed_str {s : String} (h64 : (StoredFields.push_str s).length < 2 ^ 64)
    (what : String) : Reads (read_len_prefixed_str what) (StoredFields.push_str s) s := by
  rw [StoredFields.push_str, StoredFields.push_bytes, List.length_append] at h64
  exact (reads_len_prefixed_bytes (by omega) what).bind_nil
    (reads_liftE (from_utf8_toByteArray s what))

theorem reads_capacity {count stride : ℕ} {f : ℕ → Decode α} {a : α}
    (h64 : count < 2 ^ 64) (hfits : count * max stride 1 ≤ bs.length) (hf : Reads (f count) bs a)
    (what : String) : Reads (read_capacity stride what >>= f)
      (StoredFields.push_varint (UInt64.ofNat count) ++ bs) a := by
  rw [read_capacity]
  simp only [bind_assoc]
  refine (reads_varint _ what).bind ?_
  intro c t h
  rw [bind_apply, get_apply]
  dsimp only
  have hleft := left_of_rest h
  rw [StructReader.toNat_ofNat_length h64, checked_capacity_u64_eq_ok.2 ⟨by omega, h64, rfl⟩]
  exact hf c t h

theorem reads_elements {β : Type} {push : α → Bytes} {element : Decode β} {f : α → β} :
    ∀ {arr : List α}, (∀ a ∈ arr, Reads element (push a) (f a)) →
      Reads (read_elements element arr.length) (arr.flatMap push) (arr.map f) := by
  intro arr
  induction arr with
  | nil => exact fun _ => Reads.pure []
  | cons a arr ih =>
      intro h
      rw [List.forall_mem_cons] at h
      exact h.1.bind ((ih h.2).bind_nil (Reads.pure _))

theorem reads_array {β : Type} {push : α → Bytes} {element : Decode β} {f : α → β} {stride : ℕ}
    (hpos : 0 < stride) (hstride : ∀ a, stride ≤ (push a).length) {arr : List α}
    (h64 : (StoredFields.push_array push arr).length < 2 ^ 64)
    (h : ∀ a ∈ arr, (push a).length < 2 ^ 64 → Reads element (push a) (f a)) (what : String) :
    Reads (read_array stride what element) (StoredFields.push_array push arr) (arr.map f) := by
  rw [StoredFields.push_array, List.length_append] at h64
  have hfits : arr.length * stride ≤ (arr.flatMap push).length := by
    rw [List.length_flatMap, ← List.length_map (f := fun a => (push a).length),
      ← Nat.nsmul_eq_mul]
    refine List.card_nsmul_le_sum _ _ fun len hlen => ?_
    grind
  have hcount : arr.length * 1 ≤ arr.length * stride := Nat.mul_le_mul_left _ hpos
  refine reads_capacity (by omega) (by rw [Nat.max_eq_left hpos]; exact hfits)
    (reads_elements fun a ha => h a ha ?_) what
  have hle := (List.sublist_flatten_of_mem (List.mem_map_of_mem (f := push) ha)).length_le
  grind

end ByteCursor

namespace StoredFields

open ByteCursor

theorem length_push_varint_pos (value : UInt64) : 0 < (push_varint value).length :=
  List.length_pos_iff.2 (push_varint_ne_nil value)

theorem length_push_u64 (value : UInt64) : (push_u64 value).length = 8 := Bytes.length_ofNatLE 8 _

theorem length_push_u32 (value : UInt32) : (push_u32 value).length = 4 := Bytes.length_ofNatLE 4 _

theorem length_push_bytes_pos (bytes : Bytes) : 0 < (push_bytes bytes).length := by
  have hpos := length_push_varint_pos (UInt64.ofNat bytes.length)
  rw [push_bytes, List.length_append]
  omega

theorem length_push_array_pos {α : Type} (push : α → Bytes) (arr : List α) :
    0 < (push_array push arr).length := by
  have hpos := length_push_varint_pos (UInt64.ofNat arr.length)
  rw [push_array, List.length_append]
  omega

theorem length_push_point (p : GeoPoint) : 16 ≤ (push_point p).length := by
  rw [push_point, List.length_append, length_push_u64, length_push_u64]

theorem length_push_ecef_point (p : GeoEcefPoint) : 24 ≤ (push_ecef_point p).length := by
  simp [push_ecef_point, length_push_u64]

/-! ## The parts of a value -/

theorem reads_bool (b : Bool) (what : String) : Reads (read_bool what) [b.toUInt8] b := by
  refine (reads_u8 _ what).bind_nil ?_
  rcases b with _ | _
  · exact Reads.pure false
  · exact Reads.pure true

theorem reads_i64 (num : Int64) (what : String) :
    Reads (read_i64 what) (push_u64 num.toUInt64) num :=
  (reads_u64_le _ what).bind_nil (Reads.pure num)

theorem reads_point (p : GeoPoint) (what : String) : Reads (read_point what) (push_point p) p :=
  (reads_u64_le _ _).bind ((reads_u64_le _ _).bind_nil (Reads.pure p))

theorem reads_ecef_point (p : GeoEcefPoint) (what : String) :
    Reads (read_ecef_point what) (push_ecef_point p) p := by
  exact (reads_u64_le _ _).bind ((reads_u64_le _ _).bind ((reads_u64_le _ _).bind_nil
    (Reads.pure p)))

/-- A MIME type as it comes back: the empty one is none. -/
def restored_blob (blob : Bytes × Option String) : Bytes × Option String :=
  (blob.1, blob.2.filter fun mime => !mime.isEmpty)

theorem reads_blob {blob : Bytes × Option String} (h64 : (push_blob blob).length < 2 ^ 64)
    (mime_what data_what : String) :
    Reads (read_blob mime_what data_what) (push_blob blob) (restored_blob blob) := by
  rw [push_blob, List.length_append] at h64
  have hdata : blob.1.length < 2 ^ 64 := by
    rw [push_bytes, List.length_append] at h64
    omega
  refine (reads_len_prefixed_str (by omega) mime_what).bind
    ((reads_len_prefixed_bytes hdata data_what).bind_nil ?_)
  have hblob : restored_blob blob =
      (blob.1, if (blob.2.getD "").isEmpty then none else some (blob.2.getD "")) := by
    rw [restored_blob]
    rcases blob.2 with _ | mime
    · rfl
    grind
  rw [hblob]
  exact Reads.pure _

theorem length_push_blob (blob : Bytes × Option String) : 2 ≤ (push_blob blob).length := by
  grind [length_push_bytes_pos, push_blob, push_str]

theorem reads_same {α : Type} {push : α → Bytes} {element : Decode α} {stride : ℕ}
    (hpos : 0 < stride) (hstride : ∀ a, stride ≤ (push a).length) {arr : List α}
    (h64 : (push_array push arr).length < 2 ^ 64)
    (h : ∀ a, (push a).length < 2 ^ 64 → Reads element (push a) a) (what : String) :
    Reads (read_array stride what element) (push_array push arr) arr := by
  have hread := reads_array (f := id) hpos hstride h64 (fun a _ => h a) what
  rwa [List.map_id] at hread

theorem reads_vector {v : List UInt32} (h64 : (push_array push_u32 v).length < 2 ^ 64)
    (what element_what : String) : Reads (read_array 4 what (read_f32_le element_what))
      (push_array push_u32 v) v :=
  reads_same (by decide) (fun num => (length_push_u32 num).ge) h64
    (fun num _ => reads_f32_le num element_what) what

variable {DateTime : Type} {chrono : Chrono DateTime}

/-- A date-time as an array keeps it, in microseconds. -/
def to_micros (chrono : Chrono DateTime) (dt : DateTime) : DateTime :=
  (chrono.from_timestamp_micros (chrono.timestamp_micros dt)).getD dt

/-- **A value as it comes back.** -/
def restored (chrono : Chrono DateTime) : DataValue DateTime → DataValue DateTime
  | .Bytes data mime => .Bytes data (mime.filter fun mime => !mime.isEmpty)
  | .BytesArray arr => .BytesArray (arr.map restored_blob)
  | .DateTimeArray arr => .DateTimeArray (arr.map (to_micros chrono))
  | value => value

/-- The text of a date-time value is parsed to it. -/
def Parses (chrono : Chrono DateTime) (value : DataValue DateTime) : Prop :=
  ∀ dt, value = .DateTime dt → chrono.parse_from_rfc3339 (chrono.to_rfc3339 dt) = .ok dt

/-- The microseconds of a date-time are those of one. -/
def InRange (chrono : Chrono DateTime) : Prop :=
  ∀ dt, (chrono.from_timestamp_micros (chrono.timestamp_micros dt)).isSome

theorem reads_date_time {dt : DateTime}
    (hparse : chrono.parse_from_rfc3339 (chrono.to_rfc3339 dt) = .ok dt)
    (h64 : (push_str (chrono.to_rfc3339 dt)).length < 2 ^ 64) (what : String) :
    Reads (read_date_time chrono what) (push_str (chrono.to_rfc3339 dt)) dt := by
  refine (reads_len_prefixed_str h64 what).bind_nil (reads_liftE ?_)
  rw [parsed, hparse]

theorem reads_micros (hrange : InRange chrono) (dt : DateTime) (what : String) :
    Reads (read_micros chrono what) (push_u64 (chrono.timestamp_micros dt).toUInt64)
      (to_micros chrono dt) := by
  obtain ⟨dt', hdt⟩ := Option.isSome_iff_exists.1 (hrange dt)
  refine (reads_i64 (chrono.timestamp_micros dt) what).bind_nil (reads_liftE ?_)
  rw [at_micros, to_micros, hdt]
  rfl

/-! ## A value -/

theorem reads_tagged {α : Type} {p : Decode α} {tag : UInt8} {bs : Bytes} {a : α}
    {f : α → DataValue DateTime} (htag : decode_value chrono tag = f <$> p) (hp : Reads p bs a)
    (what : String) : Reads (read_u8 what >>= decode_value chrono) (tag :: bs) (f a) := by
  have hvalue : Reads (decode_value chrono tag) bs (f a) := by
    rw [htag, map_eq_pure_bind]
    exact hp.bind_nil (Reads.pure (f a))
  exact (reads_u8 tag what).bind hvalue

/-- **A value is read back** as it is restored. -/
theorem reads_value (hrange : InRange chrono) {value : DataValue DateTime}
    (hparse : Parses chrono value) (h64 : (encode_value chrono value).length < 2 ^ 64)
    (what : String) : Reads (read_u8 what >>= decode_value chrono) (encode_value chrono value)
      (restored chrono value) := by
  have htail : ∀ {tag : UInt8} {bs : Bytes}, (tag :: bs).length < 2 ^ 64 → bs.length < 2 ^ 64 := by
    grind
  rcases value with _ | b | num | num | text | ⟨data, mime⟩ | v | dt | p | p | arr | arr | arr |
    arr | arr | arr | arr | arr | arr
  · exact (reads_u8 TAG_NULL what).bind_nil (Reads.pure _)
  · exact reads_tagged (f := .Bool) rfl (reads_bool b _) what
  · exact reads_tagged (f := .Int64) rfl (reads_i64 num _) what
  · exact reads_tagged (f := .Float64) rfl (reads_u64_le num _) what
  · exact reads_tagged (f := .Text) rfl (reads_len_prefixed_str (htail h64) _) what
  · exact @reads_tagged _ chrono _ _ TAG_BYTES _ _ (fun blob => .Bytes blob.1 blob.2) rfl
      (reads_blob (htail h64) _ _) what
  · exact reads_tagged (f := .Vector) rfl
      (reads_vector (htail h64) _ _) what
  · exact reads_tagged (f := .DateTime) rfl (reads_date_time (hparse dt rfl) (htail h64) _) what
  · exact reads_tagged (f := .Geo) rfl (reads_point p _) what
  · exact reads_tagged (f := .GeoEcef) rfl (reads_ecef_point p _) what
  · exact reads_tagged (f := .Int64Array) rfl
      (reads_same (by decide) (fun num => (length_push_u64 _).ge) (htail h64)
        (fun num _ => reads_i64 num _) _) what
  · exact reads_tagged (f := .Float64Array) rfl
      (reads_same (by decide) (fun num => (length_push_u64 num).ge) (htail h64)
        (fun num _ => reads_u64_le num _) _) what
  · exact reads_tagged (f := .GeoArray) rfl
      (reads_same (by decide) length_push_point (htail h64) (fun p _ => reads_point p _) _) what
  · exact reads_tagged (f := .GeoEcefArray) rfl
      (reads_same (by decide) length_push_ecef_point (htail h64)
        (fun p _ => reads_ecef_point p _) _) what
  · exact reads_tagged (f := .DateTimeArray) rfl
      (reads_array (by decide) (fun dt => (length_push_u64 _).ge) (htail h64)
        (fun dt _ _ => reads_micros hrange dt _) _) what
  · exact reads_tagged (f := .BoolArray) rfl
      (reads_same (by decide) (fun b => Nat.le_refl 1) (htail h64)
        (fun b _ => reads_bool b _) _) what
  · exact reads_tagged (f := .TextArray) rfl
      (reads_same (by decide) (fun _ => length_push_bytes_pos _) (htail h64)
        (fun _ h => reads_len_prefixed_str h _) _) what
  · exact reads_tagged (f := .BytesArray) rfl
      (reads_array (by decide) length_push_blob (htail h64)
        (fun blob _ h => reads_blob h _ _) _) what
  · exact reads_tagged (f := .VectorArray) rfl
      (reads_same (by decide) (fun _ => length_push_array_pos _ _) (htail h64)
        (fun _ h => reads_vector h _ _) _) what

/-! ## A document -/

/-- The fields that come back are those that were written, restored. -/
def Restores (chrono : Chrono DateTime) (fields fields' : StoredFields DateTime) : Prop :=
  ∀ name, fields'.lookup name = (fields.lookup name).map (restored chrono)

variable {fields : StoredFields DateTime}

/-- Every value of some fields has a text that is parsed. -/
def AllParse (chrono : Chrono DateTime) (fields : StoredFields DateTime) : Prop :=
  ∀ name value, fields.lookup name = some value → Parses chrono value

theorem encode_field_some {name : String} {value : DataValue DateTime}
    (h : fields.lookup name = some value) :
    encode_field chrono fields name = push_str name ++ encode_value chrono value := by
  rw [encode_field, h]
  rfl

theorem length_encode_value_pos (chrono : Chrono DateTime) (value : DataValue DateTime) :
    0 < (encode_value chrono value).length := by
  rcases value <;> exact Nat.succ_pos _

theorem length_encode_field {name : String} (h : (fields.lookup name).isSome) :
    2 ≤ (encode_field chrono fields name).length := by
  obtain ⟨value, hvalue⟩ := Option.isSome_iff_exists.1 h
  have hname := length_push_bytes_pos name.toByteArray.data.toList
  have hpos := length_encode_value_pos chrono value
  rw [encode_field_some hvalue, List.length_append, push_str]
  omega

theorem reads_fields (hrange : InRange chrono) (hparse : AllParse chrono fields) :
    ∀ {names : List String}, (∀ name ∈ names, (fields.lookup name).isSome) →
      (names.flatMap (encode_field chrono fields)).length < 2 ^ 64 →
      ∀ acc : StoredFields DateTime, ∃ out,
        Reads (decode_fields chrono names.length acc) (names.flatMap (encode_field chrono fields))
          out ∧
        ∀ name, out.lookup name =
          if name ∈ names then (fields.lookup name).map (restored chrono) else acc.lookup name := by
  intro names
  induction names with
  | nil => exact fun _ _ acc => ⟨acc, Reads.pure acc, fun name => (if_neg List.not_mem_nil).symm⟩
  | cons name names ih =>
      intro hsome h64 acc
      rw [List.forall_mem_cons] at hsome
      obtain ⟨value, hvalue⟩ := Option.isSome_iff_exists.1 hsome.1
      rw [List.flatMap_cons, encode_field_some hvalue, List.length_append, List.length_append] at h64
      obtain ⟨out, hreads, hlookup⟩ := ih hsome.2 (by omega) (acc.insert name (restored chrono value))
      refine ⟨out, ?_, fun other => ?_⟩
      · rw [List.length_cons, decode_fields, List.flatMap_cons, encode_field_some hvalue,
          List.append_assoc]
        refine (reads_len_prefixed_str (by omega) _).bind ?_
        rw [← bind_assoc]
        exact (reads_value hrange (hparse name value hvalue) (by omega) _).bind hreads
      · rw [hlookup]
        by_cases hmem : other ∈ names
        · grind
        · rw [if_neg hmem]
          by_cases heq : other = name
          · rw [heq, AList.lookup_insert, if_pos List.mem_cons_self, hvalue, Option.map_some]
          · rw [AList.lookup_insert_ne heq, if_neg (by grind)]

theorem mem_sorted_names {name : String} :
    name ∈ sorted_names fields ↔ (fields.lookup name).isSome := by
  rw [sorted_names, List.mem_mergeSort, AList.mem_keys.symm, AList.lookup_isSome]

/-- **A document is read back**, every field restored. -/
theorem reads_document (hrange : InRange chrono) (hparse : AllParse chrono fields)
    (doc_id : UInt64) (h64 : (encode_document chrono doc_id fields).length < 2 ^ 64) :
    ∃ fields', Reads (decode_document chrono) (encode_document chrono doc_id fields)
      (doc_id, fields') ∧ Restores chrono fields fields' := by
  have hcount : (sorted_names fields).length = fields.keys.length :=
    (List.mergeSort_perm _ _).length_eq
  have hsome : ∀ name ∈ sorted_names fields, (fields.lookup name).isSome :=
    fun name => mem_sorted_names.1
  rw [encode_document, List.length_append, List.length_append] at h64
  obtain ⟨fields', hreads, hlookup⟩ := reads_fields hrange hparse hsome (by omega) ∅
  have hfits : fields.keys.length * 2 ≤
      ((sorted_names fields).flatMap (encode_field chrono fields)).length := by
    rw [← hcount, List.length_flatMap,
      ← List.length_map (f := fun name => (encode_field chrono fields name).length),
      ← Nat.nsmul_eq_mul]
    refine List.card_nsmul_le_sum _ _ fun len hlen => ?_
    grind [length_encode_field]
  refine ⟨fields', ?_, fun name => ?_⟩
  · rw [decode_document, encode_document, List.append_assoc]
    refine (reads_u64_le doc_id _).bind (reads_capacity (by omega) hfits ?_ _)
    rw [← hcount]
    exact hreads.bind_nil (Reads.pure (doc_id, fields'))
  · rw [hlookup]
    by_cases hmem : name ∈ sorted_names fields
    · rw [if_pos hmem]
    simp [mem_sorted_names]

/-! ## The documents of a chunk -/

/-- Documents, encoded one after the other. -/
def encode_documents (chrono : Chrono DateTime) (docs : List (UInt64 × StoredFields DateTime)) :
    Bytes := docs.flatMap fun doc => encode_document chrono doc.1 doc.2

/-- The documents that come back: each under its id, the others as before. -/
structure Holds (chrono : Chrono DateTime) (docs : List (UInt64 × StoredFields DateTime))
    (before out : StoredDocuments DateTime) : Prop where
  written : ∀ doc ∈ docs, ∃ fields', out.lookup doc.1 = some fields' ∧
    Restores chrono doc.2 fields'
  others : ∀ id, id ∉ docs.map Prod.fst → out.lookup id = before.lookup id

theorem Holds.append {docs more : List (UInt64 × StoredFields DateTime)}
    {before between out : StoredDocuments DateTime} (h : Holds chrono docs before between)
    (hmore : Holds chrono more between out)
    (hnodup : ((docs ++ more).map Prod.fst).Nodup) : Holds chrono (docs ++ more) before out := by
  refine ⟨fun doc hdoc => ?_, fun id hid => ?_⟩
  · grind [written, others]
  · rw [List.map_append, List.mem_append, not_or] at hid
    rw [hmore.others id hid.2, h.others id hid.1]

theorem length_encode_documents (docs : List (UInt64 × StoredFields DateTime)) :
    docs.length * MIN_DOC_RECORD_SIZE ≤ (encode_documents chrono docs).length := by
  induction docs with
  | nil => exact Nat.le_of_eq (Nat.zero_mul _)
  | cons doc docs ih =>
      have hpos := length_push_varint_pos (UInt64.ofNat doc.2.keys.length)
      grind [encode_documents, encode_document, length_push_u64, MIN_DOC_RECORD_SIZE]

theorem reads_documents (hrange : InRange chrono) :
    ∀ {docs : List (UInt64 × StoredFields DateTime)}, (∀ doc ∈ docs, AllParse chrono doc.2) →
      (docs.map Prod.fst).Nodup → (encode_documents chrono docs).length < 2 ^ 64 →
      ∀ documents : StoredDocuments DateTime, ∃ out,
        Reads (decode_documents chrono docs.length documents) (encode_documents chrono docs) out ∧
        Holds chrono docs documents out := by
  intro docs
  induction docs with
  | nil => exact fun _ _ _ documents => ⟨documents, Reads.pure documents,
      ⟨fun _ h => absurd h List.not_mem_nil, fun _ _ => rfl⟩⟩
  | cons doc docs ih =>
      intro hparse hnodup h64 documents
      rw [List.forall_mem_cons] at hparse
      rw [encode_documents, List.flatMap_cons, List.length_append, ← encode_documents] at h64
      obtain ⟨fields', hread, hrestores⟩ := reads_document hrange hparse.1 doc.1 (by omega)
      obtain ⟨out, hreads, hholds⟩ := ih hparse.2 (List.nodup_cons.1 hnodup).2 (by omega)
        (documents.insert doc.1 fields')
      have hfirst : Holds chrono [doc] documents (documents.insert doc.1 fields') := by
        refine ⟨fun other hother => ?_, fun id hid => ?_⟩
        · grind [AList.lookup_insert]
        · exact AList.lookup_insert_ne (List.ne_of_not_mem_cons hid)
      exact ⟨out, hread.bind hreads, hfirst.append hholds hnodup⟩

end StoredFields

end Laurus
