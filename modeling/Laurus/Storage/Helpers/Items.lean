import Laurus.Storage.Helpers.Structured

/-!
# Typed items of a structured file

An `Item` is one typed write, an `ItemKind` the typed read of the same kind.
`puts_item` says what a write leaves in the output, wherever the cursor
stands; `reads_item` that the read takes it back; and `tracked_op` that no
read, peek or seek ever lets the running checksum cover anything but the
bytes from the start of the file to the cursor.
-/

namespace Laurus

section Items

open Laurus.Comp

/-- One typed write. Floats are their bits. -/
inductive Item
  | u8 (value : UInt8)
  | u16 (value : UInt16)
  | u32 (value : UInt32)
  | u64 (value : UInt64)
  | varint (value : UInt64)
  | f32 (bits : UInt32)
  | f64 (bits : UInt64)
  | string (value : String)
  | bytes (value : Bytes)
  | delta_compressed_u32s (values : List UInt32)
  | raw (value : Bytes)
  deriving DecidableEq, Repr

/-- One typed read. -/
inductive ItemKind
  | u8 | u16 | u32 | u64 | varint | f32 | f64 | string | bytes | delta_compressed_u32s
  /-- `read_raw`, or `read_raw_with` on an input that lends its bytes or not. -/
  | raw (length : ℕ) (lends : Option Bool)
  deriving DecidableEq, Repr

namespace Item

/-- The write of an item. -/
def write : Item → Write Unit
  | u8 value => StructWriter.write_u8 value
  | u16 value => StructWriter.write_u16 value
  | u32 value => StructWriter.write_u32 value
  | u64 value => StructWriter.write_u64 value
  | varint value => StructWriter.write_varint value
  | f32 bits => StructWriter.write_f32 bits
  | f64 bits => StructWriter.write_f64 bits
  | string value => StructWriter.write_string value
  | bytes value => StructWriter.write_bytes value
  | delta_compressed_u32s values => StructWriter.write_delta_compressed_u32s values
  | raw value => StructWriter.write_raw value

/-- The kinds of read that are of an item's kind. -/
def HasKind : Item → ItemKind → Prop
  | u8 _, .u8 | u16 _, .u16 | u32 _, .u32 | u64 _, .u64 | varint _, .varint | f32 _, .f32
  | f64 _, .f64 | string _, .string | bytes _, .bytes
  | delta_compressed_u32s _, .delta_compressed_u32s => True
  | raw value, .raw length _ => length = value.length
  | _, _ => False

/-- Lengths and counts are `usize`s. -/
def Fits : Item → Prop
  | string value => value.toByteArray.data.toList.length < 2 ^ 64
  | bytes value => value.length < 2 ^ 64
  | delta_compressed_u32s values => values.length < 2 ^ 64
  | raw value => value.length < 2 ^ 64
  | _ => True

/-- The varints of the differences. -/
def deltaBytes (previous : UInt32) : List UInt32 → Bytes
  | [] => []
  | value :: values => encode_u64 (value - previous).toUInt64 ++ deltaBytes value values

/-- The bytes an item is written as. -/
def encode : Item → Bytes
  | u8 value => [value]
  | u16 value => Bytes.ofNatLE 2 value.toNat
  | u32 value => Bytes.ofNatLE 4 value.toNat
  | u64 value => Bytes.ofNatLE 8 value.toNat
  | varint value => encode_u64 value
  | f32 bits => Bytes.ofNatLE 4 bits.toNat
  | f64 bits => Bytes.ofNatLE 8 bits.toNat
  | string value => StructWriter.stringBytes value
  | bytes value => encode_u64 (UInt64.ofNat value.length) ++ value
  | delta_compressed_u32s values =>
    encode_u64 (UInt64.ofNat values.length) ++ deltaBytes 0 values
  | raw value => value

end Item

/-- The read of a kind. -/
def ItemKind.read : ItemKind → Read Item
  | u8 => do return .u8 (← StructReader.read_u8)
  | u16 => do return .u16 (← StructReader.read_u16)
  | u32 => do return .u32 (← StructReader.read_u32)
  | u64 => do return .u64 (← StructReader.read_u64)
  | varint => do return .varint (← StructReader.read_varint)
  | f32 => do return .f32 (← StructReader.read_f32)
  | f64 => do return .f64 (← StructReader.read_f64)
  | string => do return .string (← StructReader.read_string)
  | bytes => do return .bytes (← StructReader.read_bytes)
  | delta_compressed_u32s => do
    return .delta_compressed_u32s (← StructReader.read_delta_compressed_u32s)
  | raw length none => do return .raw (← StructReader.read_raw length)
  | raw length (some true) => StructReader.read_raw_lent length Item.raw
  | raw length (some false) => StructReader.read_raw_with length Item.raw

/-! ## What a write leaves -/

namespace StructWriter

/-- The cursor is within the output. -/
def Within (w : StructWriter) : Prop := w.position ≤ w.out.length

/-- Wherever the cursor stands, `p` puts `bytes` there. -/
def Puts (p : Write Unit) (bytes : Bytes) : Prop :=
  ∀ w, Within w → p w = .ok ((), w.put bytes)

variable {w : StructWriter}

theorem length_put (h : Within w) (bytes : Bytes) :
    (w.put bytes).out.length = max w.out.length (w.position + bytes.length) := by
  unfold Within at h
  simp only [put, List.length_append, List.length_take, List.length_drop]
  omega

theorem Within.put (h : Within w) (bytes : Bytes) : Within (w.put bytes) := by
  have hlen := length_put h bytes
  have hpos : (w.put bytes).position = w.position + bytes.length := rfl
  unfold Within
  omega

theorem put_put (h : Within w) (bs cs : Bytes) : (w.put bs).put cs = w.put (bs ++ cs) := by
  unfold Within at h
  have hlen : (w.out.take w.position ++ bs).length = w.position + bs.length := by grind
  have htail : (w.out.take w.position ++ bs ++ w.out.drop (w.position + bs.length)).drop
      (w.position + bs.length + cs.length) =
      w.out.drop (w.position + (bs.length + cs.length)) := by
    rw [← hlen, List.drop_append, List.drop_of_length_le (by omega), List.nil_append,
      List.drop_drop, hlen]
    congr 1
    omega
  simp only [StructWriter.put, List.length_append, StructWriter.mk.injEq, and_true]
  grind

theorem put_nil (w : StructWriter) : w.put [] = w := by
  unfold StructWriter.put
  simp

namespace Puts

variable {p q : Write Unit} {bs cs : Bytes}

theorem raw (value : Bytes) : Puts (write_raw value) value := fun _ _ => rfl

theorem pure : Puts (pure ()) [] := by
  intro w _
  rw [pure_apply, put_nil]

theorem bind (hp : Puts p bs) (hq : Puts q cs) : Puts (p >>= fun _ => q) (bs ++ cs) := by
  intro w hw
  rw [bind_apply, hp w hw]
  exact (hq _ (hw.put bs)).trans (by rw [put_put hw])

end Puts

theorem puts_deltas (previous : UInt32) (values : List UInt32) :
    Puts (write_deltas previous values) (Item.deltaBytes previous values) := by
  induction values generalizing previous with
  | nil => exact Puts.pure
  | cons value values ih => exact (Puts.raw _).bind (ih value)

theorem puts_item (item : Item) : Puts item.write item.encode := by
  cases item with
  | string value => exact (Puts.raw _).bind (Puts.raw _)
  | bytes value => exact (Puts.raw _).bind (Puts.raw _)
  | delta_compressed_u32s values =>
      show Puts (write_delta_compressed_u32s values) _
      unfold write_delta_compressed_u32s
      by_cases hnil : values = []
      · subst hnil
        exact Puts.raw _
      · rw [if_neg hnil]
        exact (Puts.raw _).bind (puts_deltas 0 values)
  | _ => exact Puts.raw _

/-- The writes of a list of items. -/
def write_items (items : List Item) : Write Unit := items.forM Item.write

theorem puts_items (items : List Item) : Puts (write_items items) (items.flatMap Item.encode) := by
  induction items with
  | nil => exact Puts.pure
  | cons item items ih => exact (puts_item item).bind ih

theorem within_new : Within new := Nat.le_refl _

theorem new_put (bytes : Bytes) : new.put bytes =
    { out := bytes, hashed := bytes, position := bytes.length, reserved_header := none } := by
  simp [put, new]

/-! ## A header filled last -/

/-- A writer that has reserved its header. -/
def reserved (len : ℕ) : StructWriter :=
  { out := List.replicate len 0, hashed := [], position := len, reserved_header := some len }

theorem within_reserved (len : ℕ) : Within (reserved len) := by
  simp [Within, reserved]

theorem reserve_header_new (len : ℕ) : reserve_header len new = .ok ((), reserved len) := by
  simp [reserve_header, bind_apply, get_apply, new, set_apply, reserved]

/-- **A header filled last stands first**, and the checksum is that of the
bytes in their order. -/
theorem fill_reserved {p : Write Unit} {header body : Bytes} {len : ℕ} (hp : Puts p header)
    (hlen : header.length = len) :
    fill_header p ((reserved len).put body) = .ok ((), new.put (header ++ body)) := by
  subst hlen
  have hzeros : (List.replicate header.length (0 : UInt8)).length = header.length :=
    List.length_replicate
  have hfilled := hp ((reserved header.length).put body).start_header (Nat.zero_le _)
  -- the header covers exactly the zeros
  have hout : (((reserved header.length).put body).start_header.put header).out =
      header ++ body := by
    have htake : (List.replicate header.length (0 : UInt8)).take header.length =
        List.replicate header.length 0 := List.take_of_length_le (by rw [hzeros])
    have hdrop : (List.replicate header.length (0 : UInt8)).drop (header.length + body.length) =
        [] := List.drop_of_length_le (by rw [hzeros]; omega)
    simp only [put, start_header, reserved, htake, hdrop, List.append_nil, List.take_zero,
      List.nil_append, Nat.zero_add, List.drop_left' hzeros]
  unfold fill_header
  rw [bind_apply, get_apply]
  have hheader : ((reserved header.length).put body).reserved_header = some header.length := rfl
  dsimp only
  rw [hheader]
  dsimp only
  rw [bind_apply, set_apply]
  dsimp only
  rw [bind_apply, hfilled]
  dsimp only
  unfold end_header
  rw [bind_apply, get_apply]
  dsimp only
  have hposition : (((reserved header.length).put body).start_header.put header).position =
      header.length := Nat.zero_add _
  have hhashed : (((reserved header.length).put body).start_header.put header).hashed = header :=
    List.nil_append _
  have hbodyhashed : ((reserved header.length).put body).hashed = body := List.nil_append _
  have hend : ((reserved header.length).put body).position = (header ++ body).length := by
    rw [List.length_append]
    rfl
  rw [if_neg (not_not.2 hposition), set_apply, new_put, hout, hhashed, hbodyhashed, hend]
  rfl

theorem close_new_put (crc32 : Bytes → UInt32) (payload : Bytes) :
    (new.put payload).close crc32 = .ok (payload ++ footer crc32 payload) := by
  have happend : new.put payload = new.append payload := put_eq_append (w := new) rfl payload
  have hend : (new.append payload).AtEnd := Output.ready_emit (s := new) ready_new
  grind [close, put_eq_append, append, new, footer]

end StructWriter

/-! ## What a read takes back -/

namespace StructReader

theorem reads_u16 (value : UInt16) : Reads read_u16 (Bytes.ofNatLE 2 value.toNat) value := by
  refine (reads_exact_of (Bytes.length_ofNatLE 2 _)).bind_nil ?_
  have hv : value.toNat < 256 ^ 2 := value.toNat_lt
  rw [Bytes.toNatLE_ofNatLE hv, UInt16.ofNat_toNat]
  exact Reads.pure value

theorem reads_deltas (previous : UInt32) (values : List UInt32) :
    Reads (read_deltas previous values.length) (Item.deltaBytes previous values) values := by
  induction values generalizing previous with
  | nil => exact Reads.pure []
  | cons value values ih =>
      have hback : previous + (value - previous).toUInt64.toUInt32 = value := by
        rw [UInt32.toUInt32_toUInt64, UInt32.add_comm, UInt32.sub_add_cancel]
      refine (reads_varint _).bind ?_
      simp only [hback]
      exact (ih value).bind_nil (Reads.pure _)

theorem length_le_deltaBytes (previous : UInt32) (values : List UInt32) :
    values.length ≤ (Item.deltaBytes previous values).length := by
  induction values generalizing previous with
  | nil => exact Nat.le_refl _
  | cons value values ih =>
      grind [length_encode_u64_pos, Item.deltaBytes]

theorem reads_delta_compressed_u32s {values : List UInt32} (h : values.length < 2 ^ 64) :
    Reads read_delta_compressed_u32s
      (encode_u64 (UInt64.ofNat values.length) ++ Item.deltaBytes 0 values) values := by
  refine (reads_varint _).bind ?_
  intro r t hr
  have hrem := remaining_of_rest hr
  have hcount := length_le_deltaBytes 0 values
  have hcheck : checked_capacity_u64 (UInt64.ofNat values.length).toNat 1 r.remaining
      "StructReader::read_delta_compressed_u32s count" = .ok values.length := by
    rw [toNat_ofNat_length h]
    exact checked_capacity_u64_eq_ok.2 ⟨by rw [Nat.max_self]; omega, h, rfl⟩
  have hreserve : reserve values.length r = .ok ((), r) := by
    rw [reserve, bind_apply, get_apply]
    dsimp only
    rw [if_neg (by omega)]
    rfl
  rw [bind_apply, get_apply]
  dsimp only
  rw [bind_apply, hcheck]
  simp only [Read.liftE, pure_apply]
  rw [bind_apply, hreserve]
  exact reads_deltas 0 values r t hr

/-- **The slice path of a raw read is the copying one.** -/
theorem read_raw_lent_eq {α : Type} {length : ℕ} (h64 : length < 2 ^ 64) (f : Bytes → α) :
    (read_raw_lent length f : Read α) = read_raw_with length f := by
  funext r
  unfold read_raw_lent
  rw [bind_apply, get_apply]
  dsimp only
  by_cases hle : length ≤ r.rest.length
  · rw [if_pos hle]
    have htake : (r.rest.take length).length = length := by
      rw [List.length_take]
      omega
    have hrest : r.rest = r.rest.take length ++ r.rest.drop length :=
      (List.take_append_drop _ _).symm
    have hread : Reads (read_raw_with (r.rest.take length).length f) (r.rest.take length)
        (f (r.rest.take length)) := reads_raw_with (by omega)
    rw [htake] at hread
    exact (hread r _ hrest).symm
  · rw [if_neg hle]

theorem reads_item {item : Item} {kind : ItemKind} (hkind : item.HasKind kind) (hfits : item.Fits) :
    Reads kind.read item.encode item := by
  cases item <;> cases kind <;> first | exact hkind.elim | skip
  case u8.u8 value => exact (reads_u8 value).bind_nil (Reads.pure _)
  case u16.u16 value => exact (reads_u16 value).bind_nil (Reads.pure _)
  case u32.u32 value => exact (reads_u32 value).bind_nil (Reads.pure _)
  case u64.u64 value => exact (reads_u64 value).bind_nil (Reads.pure _)
  case varint.varint value => exact (reads_varint value).bind_nil (Reads.pure _)
  case f32.f32 bits => exact (reads_f32 bits).bind_nil (Reads.pure _)
  case f64.f64 bits => exact (reads_u64 bits).bind_nil (Reads.pure _)
  case string.string value => exact (reads_string hfits).bind_nil (Reads.pure _)
  case bytes.bytes value => exact (reads_bytes hfits).bind_nil (Reads.pure _)
  case delta_compressed_u32s.delta_compressed_u32s values =>
    exact (reads_delta_compressed_u32s hfits).bind_nil (Reads.pure _)
  case raw.raw value length lends =>
    obtain rfl : length = value.length := hkind
    have hfits' : value.length < 2 ^ 64 := hfits
    cases lends with
    | none => exact (reads_raw hfits').bind_nil (Reads.pure _)
    | some lends =>
        cases lends with
        | false => exact reads_raw_with hfits'
        | true =>
            show Reads (read_raw_lent value.length Item.raw) value _
            rw [read_raw_lent_eq hfits']
            exact reads_raw_with hfits'

end StructReader

end Items

section Accepted

/-!
## What a successful read has read

The other way round from the round trips: of any bytes, a typed read that
returns a value has taken bytes that spell it (`takes_*`), and a
verification that passes has found a checksum that is right
(`verify_checksum_accepts`).
-/

open Laurus.Comp

/-! ## Varints -/

theorem decode_u64_loop_length {bytes : Bytes} (hg : Leb128.IsGroup bytes) :
    ∀ {result : UInt64} {shift n : ℕ} {out : UInt64 × ℕ},
      decode_u64_loop result shift n bytes = .ok out → out.2 = n + bytes.length := by
  induction hg with
  | @last b hb =>
      intro result shift n out h
      unfold decode_u64_loop at h
      split at h
      · cases h
      · dsimp only at h
        rw [if_pos ((and_top_eq_zero_iff b).2 hb)] at h
        cases h
        rfl
  | @more b bytes hb _ ih =>
      intro result shift n out h
      unfold decode_u64_loop at h
      split at h
      · cases h
      · dsimp only at h
        rw [if_neg (mt (and_top_eq_zero_iff b).1 (not_not_intro hb))] at h
        grind

namespace StructReader

/-! ## Typed reads -/

theorem eq_ofNatLE_of_word {bytes : Bytes} {word : UInt32} (hlen : bytes.length = 4)
    (h : UInt32.ofNat (Bytes.toNatLE bytes) = word) : bytes = Bytes.ofNatLE 4 word.toNat := by
  grind [Bytes.toNatLE_lt, Bytes.ofNatLE_toNatLE, UInt32.toNat_ofNat']

theorem takes_exact (n : ℕ) : Takes (read_exact n) fun value bs => value = bs ∧ bs.length = n := by
  intro r a r' h
  unfold read_exact at h
  rw [bind_apply, get_apply] at h
  dsimp only at h
  split at h
  · rename_i hle
    cases h
    have hlen : (r.rest.take n).length = n := by
      rw [List.length_take, length_rest]
      omega
    exact ⟨_, _, (List.take_append_drop n r.rest).symm, rfl, rfl, hlen⟩
  · cases h

theorem takes_reserve (count : ℕ) : Takes (reserve count) fun _ bs => bs = [] := by
  refine Takes.get_bind fun r => ?_
  split
  · exact Takes.throw _
  · exact Takes.pure rfl

theorem takes_liftE {α : Type} (x : Except LaurusError α) :
    Takes (Read.liftE x) fun a bs => x = .ok a ∧ bs = [] := by
  cases x with
  | error e => exact Takes.throw _
  | ok a => exact Takes.pure ⟨rfl, rfl⟩

theorem takes_u8 : Takes read_u8 fun value bs => bs = [value] := by
  refine (takes_exact 1).bind fun bytes bs hbs => ?_
  grind [List.length_eq_one_iff, Takes.pure]

theorem takes_u32 : Takes read_u32 fun value bs => bs = Bytes.ofNatLE 4 value.toNat := by
  refine (takes_exact 4).bind fun bytes bs hbs => ?_
  grind [Takes.pure, eq_ofNatLE_of_word]

theorem takes_varint_loop : ∀ (room : ℕ) (buf : Bytes),
    Takes (read_varint_loop room buf) fun out bs => out = buf ++ bs ∧ Leb128.IsGroup bs
  | 0, _ => Takes.throw _
  | room + 1, buf => by
      refine takes_u8.bind fun byte bs hbs => ?_
      subst hbs
      dsimp only
      split
      · rename_i hlast
        exact Takes.pure ⟨rfl, .last ((and_top_eq_zero_iff byte).1 hlast)⟩
      · rename_i hmore
        split
        · exact Takes.throw _
        · refine (takes_varint_loop room (buf ++ [byte])).post ?_
          rintro out cs ⟨rfl, hgroup⟩
          have hcontinues : Leb128.continues byte := by
            grind [and_top_eq_zero_iff]
          exact ⟨List.append_assoc _ _ _, .more hcontinues hgroup⟩

theorem takes_varint : Takes read_varint fun value bs => decode_u64 bs = .ok (value, bs.length) := by
  refine (takes_varint_loop 10 []).bind fun buf bs hbs => ?_
  obtain ⟨hbuf, hgroup⟩ := hbs
  subst hbuf
  refine (takes_liftE _).bind fun out cs hcs => ?_
  obtain ⟨hdecode, rfl⟩ := hcs
  refine Takes.pure ?_
  have hcount : out.2 = 0 + buf.length := decode_u64_loop_length hgroup hdecode
  grind

theorem takes_bytes : Takes read_bytes fun value bs => ∃ len_bytes : Bytes,
    bs = len_bytes ++ value ∧ value.length < 2 ^ 64 ∧
      decode_u64 len_bytes = .ok (UInt64.ofNat value.length, len_bytes.length) := by
  refine takes_varint.bind fun length len_bytes hlength => Takes.get_bind fun r => ?_
  refine (takes_liftE _).bind fun n cs hcs => ?_
  obtain ⟨hcheck, rfl⟩ := hcs
  obtain ⟨-, h64, rfl⟩ := checked_len_u64_eq_ok.1 hcheck
  refine (takes_reserve _).bind fun _ ds hds => ?_
  subst hds
  refine (takes_exact _).post ?_
  grind [UInt64.ofNat_toNat]

/-! ## Verification -/

variable {crc32 : Bytes → UInt32}

theorem verify_checksum_accepts {r r' : StructReader} {status : ChecksumStatus}
    (h : verify_checksum crc32 r = .ok (status, r')) (hne : status ≠ .Mismatch) :
    r.sequential = true ∧
      ((r.remaining = FOOTER_LEN ∧ status = .Verified ∧
        UInt32.ofNat (Bytes.toNatLE (r.rest.take 4)) = crc32 r.hashed ∧
        UInt32.ofNat (Bytes.toNatLE ((r.rest.drop 4).take 4)) = FOOTER_MAGIC) ∨
      (r.remaining = LEGACY_TRAILER_LEN ∧
        UInt32.ofNat (Bytes.toNatLE (r.rest.take 4)) ≠ FOOTER_MAGIC ∧
        status = .Legacy (UInt32.ofNat (Bytes.toNatLE (r.rest.take 4))))) := by
  unfold verify_checksum at h
  rw [bind_apply, get_apply] at h
  dsimp only at h
  by_cases hseq : r.sequential = true
  · refine ⟨hseq, ?_⟩
    rw [if_pos hseq] at h
    by_cases hfooter : r.remaining = FOOTER_LEN
    · rw [if_pos hfooter, bind_apply, set_apply] at h
      dsimp only at h
      split at h
      · rename_i hboth
        cases h
        grind
      · cases h
        exact absurd rfl hne
    · rw [if_neg hfooter] at h
      by_cases hlegacy : r.remaining = LEGACY_TRAILER_LEN
      · rw [if_pos hlegacy, bind_apply, set_apply] at h
        dsimp only at h
        split at h
        · cases h
          exact absurd rfl hne
        · rename_i hmagic
          cases h
          exact Or.inr ⟨hlegacy, hmagic, rfl⟩
      · rw [if_neg hlegacy] at h
        cases h
        exact absurd rfl hne
  · rw [if_neg hseq] at h
    cases h

theorem safe_verify_checksum (crc32 : Bytes → UInt32) :
    Safe (verify_checksum crc32) fun _ => True := by
  refine Safe.get_bind fun r => Safe.ite (fun _ => ?_) fun _ => Safe.throw
  refine Safe.ite (fun _ => ?_) fun _ => Safe.ite (fun _ => ?_) fun _ => Safe.pure trivial
  · exact Safe.set_bind (Safe.ite (fun _ => Safe.pure trivial) fun _ => Safe.pure trivial)
  · exact Safe.set_bind (Safe.ite (fun _ => Safe.pure trivial) fun _ => Safe.pure trivial)

end StructReader

end Accepted

end Laurus
