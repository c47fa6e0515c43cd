import Laurus.Storage.Helpers.Varint
import Laurus.Storage.Model.Structured

/-!
# Reading and writing structured files

Every typed write appends a byte string that depends on the value alone,
and the typed read of the same kind takes exactly those bytes
(`emits_*`, `reads_*`); every typed read, on any bytes, returns or errors
without a crash (`safe_*`). A payload that reads back reads back from the
closed file, whose footer verifies (`read_closed`).
-/

namespace Laurus

open Laurus.Comp

/-! ## The reader's input and the writer's output -/

namespace StructReader

theorem length_rest (r : StructReader) : r.rest.length = r.remaining := by
  simp [rest, remaining]

theorem rest_advance_of {r : StructReader} {bs t : Bytes} (h : r.rest = bs ++ t) :
    (r.advance bs).rest = t := by
  simp only [rest, advance] at h ⊢
  rw [← List.drop_drop, h, List.drop_left]

instance : Input StructReader UInt8 where
  rest := rest
  advance := advance
  advance_nil := by intro r; simp [advance]
  advance_append := by
    intro r bs cs
    simp only [advance, List.length_append, StructReader.mk.injEq, true_and, Nat.add_assoc, and_true]
    split <;> simp
  rest_advance := rest_advance_of

@[simp] theorem input_rest (r : StructReader) : Input.rest r = r.rest := rfl

@[simp] theorem input_advance (r : StructReader) (bs : Bytes) :
    Input.advance r bs = r.advance bs := rfl

theorem remaining_of_rest {r : StructReader} {bs t : Bytes} (h : r.rest = bs ++ t) :
    r.remaining = bs.length + t.length := by
  rw [← length_rest, h, List.length_append]

theorem remaining_advance_take (r : StructReader) {n : ℕ} (h : n ≤ r.remaining) :
    (r.advance (r.rest.take n)).remaining = r.remaining - n := by
  grind [length_rest, remaining, advance]

end StructReader

namespace StructWriter

/-- The writer's position is the end of its output. -/
def AtEnd (w : StructWriter) : Prop := w.position = w.out.length

/-- The writer with `bytes` appended. -/
def append (w : StructWriter) (bytes : Bytes) : StructWriter :=
  { w with
    out := w.out ++ bytes
    hashed := w.hashed ++ bytes
    position := w.position + bytes.length }

theorem put_eq_append {w : StructWriter} (h : w.AtEnd) (bytes : Bytes) :
    w.put bytes = w.append bytes := by
  simp only [AtEnd] at h
  simp [put, append, h]

instance : Output StructWriter UInt8 where
  Ready := AtEnd
  emit := append
  emit_nil := by intro w; simp [append]
  emit_append := by intro w bs cs; simp [append, Nat.add_assoc]
  ready_emit := by intro w bs h; simp only [AtEnd, append, List.length_append] at h ⊢; omega

@[simp] theorem output_emit (w : StructWriter) (bs : Bytes) : Output.emit w bs = w.append bs := rfl

theorem ready_new : Output.Ready new := rfl

end StructWriter

/-! ## What each write appends -/

namespace StructWriter

theorem emits_raw (value : Bytes) : Emits (write_raw value) value () := by
  intro w hw
  show _ = Except.ok ((), w.append value)
  rw [← put_eq_append hw]
  rfl

theorem emits_u8 (value : UInt8) : Emits (write_u8 value) [value] () := emits_raw _

theorem emits_u32 (value : UInt32) :
    Emits (write_u32 value) (Bytes.ofNatLE 4 value.toNat) () := emits_raw _

theorem emits_u64 (value : UInt64) :
    Emits (write_u64 value) (Bytes.ofNatLE 8 value.toNat) () := emits_raw _

theorem emits_varint (value : UInt64) :
    Emits (write_varint value) (encode_u64 value) () := emits_raw _

theorem emits_bytes (value : Bytes) :
    Emits (write_bytes value) (encode_u64 (UInt64.ofNat value.length) ++ value) () :=
  (emits_varint _).bind (emits_raw _)

/-- The bytes `write_string` appends. -/
def stringBytes (value : String) : Bytes :=
  encode_u64 (UInt64.ofNat value.toByteArray.data.toList.length) ++ value.toByteArray.data.toList

theorem emits_string (value : String) : Emits (write_string value) (stringBytes value) () :=
  emits_bytes _

/-- The footer of a payload. -/
def footer (crc32 : Bytes → UInt32) (payload : Bytes) : Bytes :=
  Bytes.ofNatLE 4 (crc32 payload).toNat ++ Bytes.ofNatLE 4 FOOTER_MAGIC.toNat

theorem length_footer (crc32 : Bytes → UInt32) (payload : Bytes) :
    (footer crc32 payload).length = FOOTER_LEN := by
  simp [footer, FOOTER_LEN]

theorem close_of_emits (crc32 : Bytes → UInt32) {p : Write Unit} {payload : Bytes}
    (h : Emits p payload ()) :
    ∃ w, p new = .ok ((), w) ∧ w.close crc32 = .ok (payload ++ footer crc32 payload) := by
  refine ⟨_, h new ready_new, ?_⟩
  have hend : (new.append payload).AtEnd := Output.ready_emit (s := new) ready_new
  have hnone : (new.append payload).reserved_header = none := rfl
  show (new.append payload).close crc32 = _
  rw [close, hnone]
  simp only [put_eq_append hend]
  simp only [append, new, List.nil_append, footer]

end StructWriter

/-! ## What each read takes -/

namespace StructReader

theorem reads_exact (bytes : Bytes) : Reads (read_exact bytes.length) bytes bytes := by
  intro r t hr
  have hrem := remaining_of_rest hr
  have htake : r.rest.take bytes.length = bytes := by
    rw [show r.rest = bytes ++ t from hr, List.take_left]
  rw [read_exact, bind_apply, get_apply]
  simp only
  rw [if_pos (by omega), htake]
  rfl

variable {bytes : Bytes} {α : Type}

theorem reads_exact_of {n : ℕ} (h : bytes.length = n) :
    Reads (read_exact n) bytes bytes := h ▸ reads_exact bytes

theorem reads_u8 (value : UInt8) : Reads read_u8 [value] value :=
  (reads_exact_of (by rfl)).bind_nil (Reads.pure value)

theorem reads_u32 (value : UInt32) : Reads read_u32 (Bytes.ofNatLE 4 value.toNat) value := by
  refine (reads_exact_of (Bytes.length_ofNatLE 4 _)).bind_nil ?_
  have hv : value.toNat < 256 ^ 4 := value.toNat_lt
  rw [Bytes.toNatLE_ofNatLE hv, UInt32.ofNat_toNat]
  exact Reads.pure value

theorem reads_u64 (value : UInt64) : Reads read_u64 (Bytes.ofNatLE 8 value.toNat) value := by
  refine (reads_exact_of (Bytes.length_ofNatLE 8 _)).bind_nil ?_
  have hv : value.toNat < 256 ^ 8 := value.toNat_lt
  rw [Bytes.toNatLE_ofNatLE hv, UInt64.ofNat_toNat]
  exact Reads.pure value

theorem reads_f32 (bits : UInt32) : Reads read_f32 (Bytes.ofNatLE 4 bits.toNat) bits :=
  reads_u32 bits

theorem reads_varint_loop (hg : Leb128.IsGroup bytes) :
    ∀ (room : ℕ) (buf : Bytes), bytes.length ≤ room →
      Reads (read_varint_loop room buf) bytes (buf ++ bytes) := by
  induction hg with
  | @last b hb =>
      intro room buf hlen
      obtain ⟨room, rfl⟩ : ∃ k, room = k + 1 := ⟨room - 1, by simp at hlen; omega⟩
      refine (reads_u8 b).bind_nil ?_
      simp only [if_pos ((and_top_eq_zero_iff b).2 hb)]
      exact Reads.pure _
  | @more b bytes hb hg ih =>
      intro room buf hlen
      have hpos : 1 ≤ bytes.length := by cases hg <;> simp
      simp only [List.length_cons] at hlen
      obtain ⟨room, rfl⟩ : ∃ k, room = k + 1 := ⟨room - 1, by omega⟩
      refine (reads_u8 b).bind ?_
      simp only [if_neg (mt (and_top_eq_zero_iff b).1 (not_not_intro hb)),
        if_neg (show ¬ room = 0 by omega)]
      grind

theorem reads_liftE {x : Except LaurusError α} {a : α} (h : x = .ok a) :
    Reads (Read.liftE x) [] a := by
  rw [h]; exact Reads.pure a

theorem reads_varint (value : UInt64) : Reads read_varint (encode_u64 value) value := by
  have hloop : Reads (read_varint_loop 10 []) (encode_u64 value) (encode_u64 value) := by
    refine reads_varint_loop ?_ 10 [] (length_encode_u64_le value)
    rw [encode_u64_eq]
    exact Leb128.isGroup_encode _
  refine hloop.bind_nil ?_
  refine (reads_liftE (decode_u64_encode_u64 value)).bind_nil ?_
  exact Reads.pure value

theorem reads_sized {length : ℕ} (what : String) (hlen : bytes.length = length)
    (h64 : length < 2 ^ 64) :
    Reads (do
      let r ← get
      let length ← Read.liftE (checked_len_u64 length r.remaining what)
      reserve length
      read_exact length) bytes bytes := by
  intro r t hr
  have hrem := remaining_of_rest hr
  have hcheck : checked_len_u64 length r.remaining what = .ok length :=
    checked_len_u64_eq_ok.2 ⟨by omega, h64, rfl⟩
  have hres : reserve length r = .ok ((), r) := by
    rw [reserve, bind_apply, get_apply]
    simp only
    rw [if_neg (by omega)]
    rfl
  rw [bind_apply, get_apply]
  simp only [hcheck, Read.liftE]
  rw [bind_apply, pure_apply]
  simp only
  rw [bind_apply, hres]
  exact reads_exact_of hlen r t hr

theorem reads_raw {bytes : Bytes} (h64 : bytes.length < 2 ^ 64) :
    Reads (read_raw bytes.length) bytes bytes := reads_sized _ rfl h64

theorem reads_raw_with {f : Bytes → α} (h64 : bytes.length < 2 ^ 64) :
    Reads (read_raw_with bytes.length f) bytes (f bytes) :=
  (reads_raw h64).bind_nil (Reads.pure _)

theorem toNat_ofNat_length {n : ℕ} (h : n < 2 ^ 64) : (UInt64.ofNat n).toNat = n := by
  rw [UInt64.toNat_ofNat']; omega

theorem reads_bytes {value : Bytes} (h64 : value.length < 2 ^ 64) :
    Reads read_bytes (encode_u64 (UInt64.ofNat value.length) ++ value) value :=
  (reads_varint _).bind (reads_sized _ (by rw [toNat_ofNat_length h64])
    (by rw [toNat_ofNat_length h64]; exact h64))

theorem string_of_bytes (value : String) :
    String.fromUTF8? ⟨value.toByteArray.data.toList.toArray⟩ = some value := by
  rw [String.fromUTF8?, dif_pos (by simpa using value.isValidUTF8)]
  rfl

theorem from_utf8_toByteArray (value : String) :
    from_utf8 value.toByteArray.data.toList = .ok value := by
  rw [from_utf8, string_of_bytes]

theorem reads_string {value : String} (h64 : value.toByteArray.data.toList.length < 2 ^ 64) :
    Reads read_string (StructWriter.stringBytes value) value := by
  have hlen : (UInt64.ofNat value.toByteArray.data.toList.length).toNat =
      value.toByteArray.data.toList.length := toNat_ofNat_length h64
  have hsized := reads_sized "StructReader::read_string length" hlen.symm
    (by rw [hlen]; exact h64)
  have hread : Reads (do
      let bytes ← (do
        let r ← get
        let length ← Read.liftE (checked_len_u64
          (UInt64.ofNat value.toByteArray.data.toList.length).toNat r.remaining
          "StructReader::read_string length")
        reserve length
        read_exact length)
      Read.liftE (from_utf8 bytes)) value.toByteArray.data.toList value :=
    hsized.bind_nil (reads_liftE (from_utf8_toByteArray value))
  refine (reads_varint _).bind ?_
  simpa only [bind_assoc] using hread

/-! ## Reading any bytes

A read of arbitrary bytes returns or errors: the lengths it reserves are
checked against what is left, and the varint buffer is never overrun.
`Remaining n` fixes how many bytes are left. -/

/-- `n` bytes are left. -/
def Remaining (n : ℕ) (r : StructReader) : Prop := r.remaining = n

theorem safe_liftE {x : Except LaurusError α} {P : StructReader → Prop}
    {Q : α → StructReader → Prop} (h : ∀ a, x = .ok a → ∀ r, P r → Q a r) :
    Triple Fault.IsCrash P (Read.liftE x) Q := by
  cases x with
  | error e => exact Triple.throw (by simp [Fault.IsCrash])
  | ok a => exact Triple.pure (h a rfl)

theorem safe_exact (n length : ℕ) :
    Triple Fault.IsCrash (Remaining n) (read_exact length)
      fun bytes r => bytes.length = length ∧ length ≤ n ∧ Remaining (n - length) r := by
  intro r hr
  simp only [Remaining] at hr ⊢
  rw [read_exact, bind_apply, get_apply]
  simp only
  by_cases hle : length ≤ r.remaining
  · rw [if_pos hle]
    refine ⟨fun bytes r' h => ?_, fun e h => ?_⟩
    · cases h
      grind [length_rest, remaining_advance_take]
    · cases h
  · rw [if_neg hle]
    refine ⟨fun bytes r' h => ?_, fun e h => ?_⟩
    · cases h
    · cases h; simp [Fault.IsCrash]

theorem safe_u8 (n : ℕ) :
    Triple Fault.IsCrash (Remaining n) read_u8 fun _ r => 1 ≤ n ∧ Remaining (n - 1) r := by
  refine (safe_exact n 1).bind fun bytes => ?_
  refine Triple.assume fun hlen => ?_
  grind [List.length_eq_one_iff, Triple.pure]

theorem safe_u32 (n : ℕ) :
    Triple Fault.IsCrash (Remaining n) read_u32 fun _ r => 4 ≤ n ∧ Remaining (n - 4) r :=
  (safe_exact n 4).bind fun _ => Triple.pure fun _ h => h.2

theorem safe_u64 (n : ℕ) :
    Triple Fault.IsCrash (Remaining n) read_u64 fun _ r => 8 ≤ n ∧ Remaining (n - 8) r :=
  (safe_exact n 8).bind fun _ => Triple.pure fun _ h => h.2

theorem safe_varint_loop (room : ℕ) : ∀ (n : ℕ) (buf : Bytes), 0 < room →
    Triple Fault.IsCrash (Remaining n) (read_varint_loop room buf)
      fun _ r => ∃ k, 1 ≤ k ∧ k ≤ n ∧ Remaining (n - k) r := by
  induction room with
  | zero => intro n buf h; omega
  | succ room ih =>
      intro n buf _
      refine (safe_u8 n).bind fun byte => Triple.assume fun hn => ?_
      refine Triple.ite (fun _ => ?_) fun _ => ?_
      · exact Triple.pure fun _ h => ⟨1, by omega, hn, h⟩
      · refine Triple.ite (fun _ => ?_) fun hroom => ?_
        · exact Triple.throw (by simp [Fault.IsCrash])
        · refine (ih (n - 1) _ (by omega)).post ?_
          grind

theorem safe_varint (n : ℕ) :
    Triple Fault.IsCrash (Remaining n) read_varint
      fun _ r => ∃ k, 1 ≤ k ∧ k ≤ n ∧ Remaining (n - k) r := by
  refine (safe_varint_loop 10 n [] (by omega)).bind fun buf => ?_
  exact (safe_liftE fun _ _ _ h => h).bind fun _ => Triple.pure fun _ h => h

theorem safe_sized (n length : ℕ) (what : String) :
    Triple Fault.IsCrash (Remaining n) (do
      let r ← get
      let length ← Read.liftE (checked_len_u64 length r.remaining what)
      reserve length
      read_exact length)
      fun bytes r => bytes.length = length ∧ length ≤ n ∧ length < 2 ^ 64 ∧
        Remaining (n - length) r := by
  refine Triple.get_bind fun r hr => ?_
  rw [Remaining] at hr
  refine Triple.bind (Q := fun len r' => (len = length ∧ length ≤ n ∧ length < 2 ^ 64) ∧
    Remaining n r') (safe_liftE fun len hlen r' hr' => ?_) fun len => Triple.assume fun hlen => ?_
  · grind [checked_len_u64_eq_ok]
  · obtain ⟨rfl, hle, h64⟩ := hlen
    have hreserve : Triple Fault.IsCrash (Remaining n) (reserve len) fun _ => Remaining n := by
      refine Triple.get_bind fun r hr => ?_
      rw [Remaining] at hr
      rw [if_neg (by omega)]
      exact Triple.pure fun _ h => h
    refine hreserve.bind fun _ => (safe_exact n len).post ?_
    grind

theorem safe_raw_with (n length : ℕ) (f : Bytes → α) :
    Triple Fault.IsCrash (Remaining n) (read_raw_with length f) fun a r =>
      (∃ bytes : Bytes, bytes.length = length ∧ a = f bytes) ∧ length ≤ n ∧
        Remaining (n - length) r := by
  refine (safe_sized n length _).bind fun bytes => Triple.pure ?_
  grind

theorem safe_bytes (n : ℕ) :
    Triple Fault.IsCrash (Remaining n) read_bytes
      fun _ r => ∃ k, 1 ≤ k ∧ k ≤ n ∧ Remaining (n - k) r := by
  intro r hr
  refine (Triple.bind (safe_varint n) fun length => ?_) r hr
  intro r' hr'
  obtain ⟨k, hk, hkn, hrem⟩ := hr'
  refine ((safe_sized (n - k) length.toNat _).post ?_) r' hrem
  grind

theorem safe_string (n : ℕ) :
    Triple Fault.IsCrash (Remaining n) read_string fun value r =>
      value.toByteArray.data.toList.length < 2 ^ 64 ∧
        ∃ k, 1 ≤ k ∧ k ≤ n ∧ Remaining (n - k) r := by
  intro r hr
  refine (Triple.bind (safe_varint n) fun length => ?_) r hr
  intro r' hr'
  obtain ⟨k, hk, hkn, hrem⟩ := hr'
  have hsized : Triple Fault.IsCrash (Remaining (n - k)) (do
      let bytes ← (do
        let r ← get
        let length ← Read.liftE (checked_len_u64 length.toNat r.remaining
          "StructReader::read_string length")
        reserve length
        read_exact length)
      Read.liftE (from_utf8 bytes)) fun value r =>
        value.toByteArray.data.toList.length < 2 ^ 64 ∧
          ∃ k, 1 ≤ k ∧ k ≤ n ∧ Remaining (n - k) r := by
    refine (safe_sized (n - k) length.toNat _).bind fun bytes => safe_liftE ?_
    rintro value hvalue r'' ⟨h1, h2, h3, h4⟩
    refine ⟨?_, k + length.toNat, by omega, by omega, ?_⟩
    · rw [from_utf8] at hvalue
      split at hvalue
      · rename_i v hv
        cases hvalue
        rw [String.fromUTF8?] at hv
        split at hv
        · cases hv
          show bytes.toArray.toList.length < 2 ^ 64
          grind
        · cases hv
      · cases hvalue
    · rw [Remaining] at h4 ⊢
      omega
  have := hsized r' hrem
  simpa only [bind_assoc] using this

/-- Whatever is left to read, no crash, and a value that was read meets `R`. -/
def Safe {α : Type} (p : Read α) (R : α → Prop) : Prop :=
  Triple Fault.IsCrash (fun _ => True) p fun a _ => R a

namespace Safe

variable {α β : Type} {p : Read α} {f : α → Read β} {R R' : α → Prop} {S : β → Prop}

theorem of_remaining {Q : ℕ → α → StructReader → Prop}
    (h : ∀ n, Triple Fault.IsCrash (Remaining n) p (Q n)) (hR : ∀ n a r, Q n a r → R a) :
    Safe p R := fun r _ => ((h r.remaining).post fun a r' hq => hR _ a r' hq) r rfl

theorem pure {a : α} (h : R a) : Safe (pure a) R := Triple.pure fun _ _ => h

theorem throw {e : LaurusError} : Safe (throw (Fault.error e)) R := Triple.throw id

theorem liftE {x : Except LaurusError α} (h : ∀ a, x = .ok a → R a) : Safe (Read.liftE x) R :=
  safe_liftE fun a ha _ _ => h a ha

theorem bind (hp : Safe p R) (hf : ∀ a, R a → Safe (f a) S) : Safe (p >>= f) S :=
  Triple.bind hp fun a r hr => hf a hr r trivial

theorem get_bind {f : StructReader → Read β} (hf : ∀ r, Safe (f r) S) : Safe (get >>= f) S :=
  Triple.get_bind fun r _ => hf r

theorem set_bind {r : StructReader} (hp : Safe p R) : Safe (set r >>= fun _ => p) R :=
  Triple.bind (Q := fun _ _ => True) (fun _ _ => ⟨fun _ _ _ => trivial, fun e he => by cases he⟩)
    fun _ => hp

theorem skip {Q : ℕ → α → StructReader → Prop}
    (h : ∀ n, Triple Fault.IsCrash (Remaining n) p (Q n)) (hf : ∀ a, Safe (f a) S) :
    Safe (p >>= f) S :=
  bind (of_remaining (R := fun _ => True) h fun _ _ _ _ => trivial) fun a _ => hf a

theorem post (h : Safe p R) (hR : ∀ a, R a → R' a) : Safe p R' := Triple.post h fun a _ => hR a

theorem ite {c : Prop} [Decidable c] {p q : Read α} (hp : c → Safe p R) (hq : ¬ c → Safe q R) :
    Safe (if c then p else q) R := Triple.ite hp hq

end Safe

/-! ## A whole file -/

theorem verify_checksum_closed (crc32 : Bytes → UInt32) (payload : Bytes) :
    ∃ r, verify_checksum crc32
      ((new (payload ++ StructWriter.footer crc32 payload)).advance payload) =
        .ok (.Verified, r) := by
  have hlen := StructWriter.length_footer crc32 payload
  set r := (new (payload ++ StructWriter.footer crc32 payload)).advance payload with hr
  have hrest : r.rest = StructWriter.footer crc32 payload := rest_advance_of rfl
  have hrem : r.remaining = FOOTER_LEN := by rw [← length_rest, hrest, hlen]
  have hhash : r.hashed = payload := by simp [hr, advance, new]
  have hseq : r.sequential = true := rfl
  have hstored : UInt32.ofNat (Bytes.toNatLE (r.rest.take 4)) = crc32 r.hashed := by
    rw [hrest, hhash, StructWriter.footer, List.take_left' (Bytes.length_ofNatLE 4 _),
      Bytes.toNatLE_ofNatLE (crc32 payload).toNat_lt, UInt32.ofNat_toNat]
  have hmagic : UInt32.ofNat (Bytes.toNatLE ((r.rest.drop 4).take 4)) = FOOTER_MAGIC := by
    rw [hrest, StructWriter.footer, List.drop_left' (Bytes.length_ofNatLE 4 _)]
    rfl
  refine ⟨{ r with position := r.position + FOOTER_LEN }, ?_⟩
  rw [verify_checksum, bind_apply, get_apply]
  simp only [hseq, hrem, hstored, hmagic, and_self, if_true]
  rfl

theorem expect_checksum_closed (crc32 : Bytes → UInt32) (what : String) (payload : Bytes) :
    ∃ r, expect_checksum crc32 what
      ((new (payload ++ StructWriter.footer crc32 payload)).advance payload) = .ok ((), r) := by
  obtain ⟨r, hverify⟩ := verify_checksum_closed crc32 payload
  refine ⟨r, ?_⟩
  rw [expect_checksum, bind_apply, hverify]
  rfl

theorem trailer_len_closed (crc32 : Bytes → UInt32) (payload : Bytes) {r : StructReader}
    (h : r.file = payload ++ StructWriter.footer crc32 payload) : r.trailer_len = FOOTER_LEN := by
  have hlen : FOOTER_LEN ≤ r.file.length := by
    rw [h, List.length_append, StructWriter.length_footer]
    omega
  have hlast : last_word r.file = FOOTER_MAGIC := by
    unfold last_word
    rw [h, StructWriter.footer, ← List.append_assoc, List.drop_left' (by
      simp only [List.length_append, Bytes.length_ofNatLE, LEGACY_TRAILER_LEN]
      omega)]
    rfl
  rw [trailer_len, if_pos ⟨hlen, hlast⟩]

theorem is_eof_eq (r : StructReader) :
    is_eof r = .ok (decide (r.remaining ≤ r.trailer_len), r) := by
  rw [is_eof, bind_apply, get_apply]
  dsimp only
  rw [pure_apply, remaining]
  have hiff : r.file.length - r.trailer_len ≤ r.position ↔
      r.file.length - r.position ≤ r.trailer_len := by omega
  rw [decide_eq_decide.2 hiff]

/-- **A payload that reads back reads back from the closed file**, and the
footer verifies. -/
theorem read_closed (crc32 : Bytes → UInt32) (what : String) {p : Read α}
    {payload : Bytes} {a : α} (h : Reads p payload a) :
    ∃ r, (do
      let a ← p
      expect_checksum crc32 what
      return a) (new (payload ++ StructWriter.footer crc32 payload)) = .ok (a, r) := by
  have hread := h (new (payload ++ StructWriter.footer crc32 payload))
    (StructWriter.footer crc32 payload) rfl
  obtain ⟨r, hexpect⟩ := expect_checksum_closed crc32 what payload
  refine ⟨r, ?_⟩
  rw [bind_apply, hread]
  simp only [input_advance]
  rw [bind_apply, hexpect]
  rfl

end StructReader

/-! ## A field, on both sides -/

theorem carries_u8 (value : UInt8) :
    Carries 1 (StructWriter.write_u8 value) () StructReader.read_u8 value :=
  ⟨_, by simp, StructWriter.emits_u8 value, StructReader.reads_u8 value⟩

theorem carries_varint (value : UInt64) :
    Carries 1 (StructWriter.write_varint value) () StructReader.read_varint value :=
  ⟨_, length_encode_u64_pos value, StructWriter.emits_varint value,
    StructReader.reads_varint value⟩

theorem carries_u32 (value : UInt32) :
    Carries 4 (StructWriter.write_u32 value) () StructReader.read_u32 value :=
  ⟨_, by rw [Bytes.length_ofNatLE], StructWriter.emits_u32 value, StructReader.reads_u32 value⟩

theorem carries_string {value : String} (h64 : value.toByteArray.data.toList.length < 2 ^ 64) :
    Carries 1 (StructWriter.write_string value) () StructReader.read_string value :=
  ⟨_, (length_encode_u64_pos _).trans_le (by
      rw [StructWriter.stringBytes, List.length_append]
      exact Nat.le_add_right _ _),
    StructWriter.emits_string value, StructReader.reads_string h64⟩

@[simp] theorem read_liftE_ok {α : Type} (a : α) : Read.liftE (.ok a) = pure a := rfl

theorem carries_u64 (value : UInt64) :
    Carries 8 (StructWriter.write_u64 value) () StructReader.read_u64 value :=
  ⟨_, by rw [Bytes.length_ofNatLE], StructWriter.emits_u64 value, StructReader.reads_u64 value⟩

theorem carries_raw {value : Bytes} {length : ℕ} (hlen : value.length = length)
    (h64 : length < 2 ^ 64) :
    Carries length (StructWriter.write_raw value) () (StructReader.read_raw length) value :=
  ⟨value, hlen.ge, StructWriter.emits_raw value, by subst hlen; exact StructReader.reads_raw h64⟩

theorem carries_checked {value : Bytes} {length : ℕ} (hlen : value.length = length)
    (h64 : length < 2 ^ 64) (what : String) :
    Carries length (StructWriter.write_raw value) () (do
      let r ← get
      let length ← Read.liftE (checked_len_u64 length r.remaining what)
      StructReader.read_raw length) value := by
  refine (carries_raw hlen h64).get_bind fun r hr => ?_
  rw [StructReader.input_rest, StructReader.length_rest] at hr
  rw [checked_len_u64_eq_ok.2 ⟨hr, h64, rfl⟩, read_liftE_ok, pure_bind]

end Laurus
