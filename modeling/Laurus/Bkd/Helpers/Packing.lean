import Laurus.Bkd.Model.Writer
import Mathlib.Data.Nat.Bitwise
import Mathlib.Data.Nat.Digits.Defs

/-!
# Lemmas on packed columns

A writer of bits holds a number, its bytes and accumulator together, and a
value joins above the bits there are. So a packed column is the number that
has the values as digits, and a reader takes the digits off again
(`packed_read`). The sortable bits of a double are its key.
-/

namespace Laurus

open Laurus.Comp

/-! ## Sortable bits -/

theorem and_sign_bit_ne_zero (b : UInt64) : b &&& sign_bit ≠ 0 ↔ 2 ^ 63 ≤ b.toNat := by
  have hb := b.toNat_lt
  have hsign : sign_bit.toNat = 2 ^ 63 := by decide
  rw [ne_eq, ← UInt64.toNat_inj, UInt64.toNat_and, hsign, Nat.and_two_pow,
    Nat.testBit_eq_decide_div_mod_eq, UInt64.toNat_zero]
  by_cases h : 2 ^ 63 ≤ b.toNat
  · have hbit : b.toNat / 2 ^ 63 % 2 = 1 := by omega
    grind
  · have hbit : ¬ b.toNat / 2 ^ 63 % 2 = 1 := by omega
    grind

theorem toNat_or_sign_bit {b : UInt64} (h : b.toNat < 2 ^ 63) :
    (b ||| sign_bit).toNat = b.toNat + 2 ^ 63 := by
  have hsign : sign_bit.toNat = 2 ^ 63 * 1 := by decide
  rw [UInt64.toNat_or, hsign, Nat.or_comm, ← Nat.two_pow_add_eq_or_of_lt h]
  omega

theorem toNat_and_not_sign_bit (b : UInt64) :
    (b &&& ~~~sign_bit).toNat = b.toNat % 2 ^ 63 := by
  have hsign : (~~~sign_bit).toNat = 2 ^ 63 - 1 := by decide
  rw [UInt64.toNat_and, hsign, Nat.and_two_pow_sub_one_eq_mod]

theorem toNat_not (b : UInt64) : (~~~b).toNat = 2 ^ 64 - 1 - b.toNat := UInt64.toNat_not b

/-- **The sortable bits are in the order of the keys.** -/
theorem toNat_sortable (v : F64) : ((f64_to_sortable_u64 v).toNat : ℤ) = v.key + 2 ^ 63 := by
  have hb := v.bits.toNat_lt
  rw [f64_to_sortable_u64, F64.key]
  by_cases h : v.bits.toNat < 2 ^ 63
  · rw [if_neg (mt (and_sign_bit_ne_zero _).1 (by omega)), if_pos h, toNat_or_sign_bit h]
    push_cast
    rfl
  · rw [if_pos ((and_sign_bit_ne_zero _).2 (by omega)), if_neg h, toNat_not]
    omega

theorem sortable_round_trip (v : F64) : sortable_u64_to_f64 (f64_to_sortable_u64 v) = v := by
  have hkey := toNat_sortable v
  refine F64.eq_of_key ?_
  rw [F64.key] at hkey
  rw [sortable_u64_to_f64, F64.key, F64.key]
  by_cases h : v.bits.toNat < 2 ^ 63
  · rw [if_pos h] at hkey
    rw [if_pos ((and_sign_bit_ne_zero _).2 (by omega)), if_pos h]
    dsimp only
    rw [toNat_and_not_sign_bit, if_pos (Nat.mod_lt _ (by decide))]
    omega
  · rw [if_neg h] at hkey
    rw [if_neg (mt (and_sign_bit_ne_zero _).1 (by omega)), if_neg h]
    dsimp only
    rw [toNat_not, if_neg (by omega)]
    omega

theorem lt_of_bits_needed (v : UInt64) : v.toNat < 2 ^ bits_needed v := by
  rw [bits_needed]
  split
  · rename_i h
    rw [h]
    decide
  · exact Nat.lt_log2_self

theorem bits_needed_le (v : UInt64) : bits_needed v ≤ 64 := by
  rw [bits_needed]
  split
  · exact Nat.zero_le 64
  · rename_i h
    have hne : v.toNat ≠ 0 := fun hzero => h (UInt64.toNat_inj.1 hzero)
    exact (Nat.log2_lt hne).2 v.toNat_lt

theorem bits_needed_eq_zero {v : UInt64} (h : bits_needed v = 0) : v = 0 := by
  by_contra hne
  rw [bits_needed, if_neg hne] at h
  omega

/-! ## What a writer of bits holds -/

namespace BitWriter

variable {w : BitWriter}

/-- The number held. -/
def value (w : BitWriter) : ℕ := Bytes.toNatLE w.buf + 256 ^ w.buf.length * w.acc

/-- The bits held. -/
def bits (w : BitWriter) : ℕ := 8 * w.buf.length + w.acc_bits

/-- The accumulator has no more bits than it counts. -/
def Tidy (w : BitWriter) : Prop := w.acc < 2 ^ w.acc_bits

theorem pow_256 (n : ℕ) : 256 ^ n = 2 ^ (8 * n) := by
  rw [pow_mul]
  rfl

theorem flush_spec (n : ℕ) (h : w.Tidy) (hn : w.acc_bits ≤ n) :
    (flush n w).value = w.value ∧ (flush n w).bits = w.bits ∧ (flush n w).Tidy ∧
      (flush n w).acc_bits < 8 := by
  induction n generalizing w with
  | zero => exact ⟨rfl, rfl, h, by rw [flush]; omega⟩
  | succ n ih =>
      rw [flush]
      split
      · rename_i hfull
        have hbyte : w.acc &&& 0xFF = w.acc % 256 := Nat.and_two_pow_sub_one_eq_mod w.acc 8
        have hshift : w.acc >>> 8 = w.acc / 256 := Nat.shiftRight_eq_div_pow w.acc 8
        have htidy : w.acc / 256 < 2 ^ (w.acc_bits - 8) := by
          rw [Nat.div_lt_iff_lt_mul (by decide), show (256 : ℕ) = 2 ^ 8 from rfl, ← pow_add,
            Nat.sub_add_cancel hfull]
          exact h
        obtain ⟨hvalue, hbits, hrest⟩ := ih
          (w := { buf := w.buf ++ [UInt8.ofNat (w.acc &&& 0xFF)]
                  acc := w.acc >>> 8
                  acc_bits := w.acc_bits - 8 }) (by rw [Tidy]; dsimp only; rw [hshift]; exact htidy)
          (by dsimp only; omega)
        refine ⟨hvalue.trans ?_, hbits.trans ?_, hrest⟩
        · have hdigit : (UInt8.ofNat (w.acc % 256)).toNat = w.acc % 256 := by simp
          have hsum : w.acc = w.acc % 256 + 256 * (w.acc / 256) := by omega
          simp only [value, hbyte, hshift, Bytes.toNatLE_append, Bytes.toNatLE, hdigit,
            List.length_append, List.length_singleton, Nat.mul_zero, Nat.add_zero, pow_succ]
          conv_rhs => rw [hsum]
          ring
        · simp only [bits, List.length_append, List.length_singleton]
          omega
      · exact ⟨rfl, rfl, h, by omega⟩

/-- **A value joins above the bits there are.** -/
theorem write_spec {v : UInt64} {width : ℕ} (h : w.Tidy) (hv : v.toNat < 2 ^ width) :
    (w.write v width).value = w.value + 2 ^ w.bits * v.toNat ∧
      (w.write v width).bits = w.bits + width ∧ (w.write v width).Tidy ∧
      (w.write v width).acc_bits < 8 := by
  have hmask : v.toNat &&& ((1 <<< width) - 1) = v.toNat := by
    rw [Nat.one_shiftLeft, Nat.and_two_pow_sub_one_eq_mod, Nat.mod_eq_of_lt hv]
  have hjoin : w.acc ||| v.toNat <<< w.acc_bits = 2 ^ w.acc_bits * v.toNat + w.acc := by
    rw [Nat.shiftLeft_eq, Nat.mul_comm, Nat.or_comm, ← Nat.two_pow_add_eq_or_of_lt h]
  have htidy : 2 ^ w.acc_bits * v.toNat + w.acc < 2 ^ (w.acc_bits + width) := by
    calc 2 ^ w.acc_bits * v.toNat + w.acc
        < 2 ^ w.acc_bits * v.toNat + 2 ^ w.acc_bits := Nat.add_lt_add_left h _
      _ = 2 ^ w.acc_bits * (v.toNat + 1) := by ring
      _ ≤ 2 ^ w.acc_bits * 2 ^ width := Nat.mul_le_mul_left _ hv
      _ = 2 ^ (w.acc_bits + width) := (pow_add ..).symm
  rw [write, hmask, hjoin]
  obtain ⟨hvalue, hbits, hrest⟩ := flush_spec (w := { w with
    acc := 2 ^ w.acc_bits * v.toNat + w.acc, acc_bits := w.acc_bits + width })
    (w.acc_bits + width) htidy le_rfl
  refine ⟨hvalue.trans ?_, hbits.trans ?_, hrest⟩
  · simp only [value, bits, pow_256, pow_add]
    ring
  · simp only [bits]
    omega

theorem foldl_write_spec {width : ℕ} (values : List UInt64) (h : w.Tidy) (hacc : w.acc_bits < 8)
    (hvalues : ∀ v ∈ values, v.toNat < 2 ^ width) :
    let w' := values.foldl (fun bw value => bw.write value width) w
    w'.value = w.value + 2 ^ w.bits * Nat.ofDigits (2 ^ width) (values.map UInt64.toNat) ∧
      w'.bits = w.bits + width * values.length ∧ w'.Tidy ∧ w'.acc_bits < 8 := by
  induction values generalizing w with
  | nil => exact ⟨by simp, by simp, h, hacc⟩
  | cons v values ih =>
      rw [List.forall_mem_cons] at hvalues
      obtain ⟨hvalue, hbits, htidy, hlt⟩ := write_spec h hvalues.1
      obtain ⟨hvalue', hbits', hrest⟩ := ih htidy hlt hvalues.2
      refine ⟨hvalue'.trans ?_, hbits'.trans ?_, hrest⟩
      · rw [hvalue, hbits, List.map_cons, Nat.ofDigits_cons, pow_add]
        ring
      grind

theorem finish_spec (h : w.Tidy) (hacc : w.acc_bits < 8) :
    Bytes.toNatLE w.finish = w.value ∧ w.finish.length = (w.bits + 7) / 8 := by
  rw [finish]
  rw [Tidy] at h
  split
  · have hlt : w.acc < 2 ^ 8 :=
      lt_of_lt_of_le h (Nat.pow_le_pow_right (by decide) hacc.le)
    have hbyte : w.acc &&& 0xFF = w.acc :=
      (Nat.and_two_pow_sub_one_eq_mod w.acc 8).trans (Nat.mod_eq_of_lt hlt)
    have hdigit : (UInt8.ofNat w.acc).toNat = w.acc := by
      rw [UInt8.toNat_ofNat']
      omega
    refine ⟨?_, ?_⟩
    · rw [hbyte, Bytes.toNatLE_append, Bytes.toNatLE, hdigit, value, Bytes.toNatLE, Nat.mul_zero,
        Nat.add_zero]
    · rw [List.length_append, List.length_singleton, bits]
      omega
  · rename_i hzero
    have hnone : w.acc_bits = 0 := by omega
    rw [hnone, pow_zero] at h
    refine ⟨?_, ?_⟩
    · rw [value, Nat.lt_one_iff.1 h, Nat.mul_zero, Nat.add_zero]
    · rw [bits]
      omega

end BitWriter

/-- **A packed column is the number of its digits.** -/
theorem pack_column_spec {values : List UInt64} {bits : ℕ}
    (hvalues : ∀ v ∈ values, v.toNat < 2 ^ bits) :
    Bytes.toNatLE (pack_column values bits) =
        Nat.ofDigits (2 ^ bits) (values.map UInt64.toNat) ∧
      (pack_column values bits).length = packed_byte_len values.length bits := by
  obtain ⟨hvalue, hbits, htidy, hacc⟩ := BitWriter.foldl_write_spec (w := BitWriter.new) values
    Nat.one_pos (by decide) hvalues
  obtain ⟨hfinish, hlen⟩ := BitWriter.finish_spec htidy hacc
  refine ⟨hfinish.trans (hvalue.trans ?_), hlen.trans ?_⟩
  · simp [BitWriter.value, BitWriter.bits, BitWriter.new, Bytes.toNatLE]
  · rw [hbits, packed_byte_len, BitWriter.bits, BitWriter.new, Nat.mul_comm bits]
    simp

/-! ## What a reader of bits has left -/

namespace BitReader

variable {r : BitReader} {width c : ℕ}

/-- So many bits of the data are consumed, and the accumulator has the next. -/
structure At (c : ℕ) (r : BitReader) : Prop where
  within : r.byte_pos ≤ r.data.length
  loaded : 8 * r.byte_pos = c + r.acc_bits
  acc_eq : r.acc = Bytes.toNatLE r.data / 2 ^ c % 2 ^ r.acc_bits

theorem at_new (data : Bytes) : At 0 (new data) where
  within := Nat.zero_le _
  loaded := rfl
  acc_eq := (Nat.mod_one _).symm

theorem fill_spec (bytes : ℕ) (h : At c r) (hbits : c + width ≤ 8 * r.data.length)
    (hbytes : width ≤ r.acc_bits + 8 * bytes) :
    ∃ r', fill width bytes r = .ok ((), r') ∧ At c r' ∧ r'.data = r.data ∧ width ≤ r'.acc_bits := by
  induction bytes generalizing r with
  | zero => exact ⟨r, rfl, h, rfl, by omega⟩
  | succ bytes ih =>
      rw [fill, bind_apply, get_apply]
      dsimp only
      have hloaded := h.loaded
      by_cases hmore : r.acc_bits < width
      · have hlt : r.byte_pos < r.data.length := by omega
        have hbyte : r.data[r.byte_pos]? = some r.data[r.byte_pos] := List.getElem?_eq_getElem hlt
        have hdigit := Bytes.toNatLE_getElem? hbyte
        have hacc : r.acc < 2 ^ r.acc_bits := by
          rw [h.acc_eq]
          exact Nat.mod_lt _ (Nat.two_pow_pos _)
        have hjoin : r.acc ||| r.data[r.byte_pos].toNat <<< r.acc_bits =
            Bytes.toNatLE r.data / 2 ^ c % 2 ^ (r.acc_bits + 8) := by
          rw [Nat.shiftLeft_eq, Nat.mul_comm, Nat.or_comm, ← Nat.two_pow_add_eq_or_of_lt hacc,
            pow_add, Nat.mod_mul, ← h.acc_eq, Nat.div_div_eq_div_mul, ← pow_add, ← hloaded,
            ← BitWriter.pow_256, show (2 : ℕ) ^ 8 = 256 from rfl, hdigit, Nat.add_comm]
        rw [if_pos hmore, hbyte]
        obtain ⟨r', hfill, hat, hdata, hwidth⟩ := ih (r := { r with
            acc := r.acc ||| r.data[r.byte_pos].toNat <<< r.acc_bits
            acc_bits := r.acc_bits + 8
            byte_pos := r.byte_pos + 1 })
          ⟨hlt, by dsimp only; omega, hjoin⟩ hbits (by dsimp only; omega)
        exact ⟨r', hfill, hat, hdata, hwidth⟩
      · rw [if_neg hmore]
        exact ⟨r, rfl, h, rfl, Nat.le_of_not_lt hmore⟩

/-- **A read takes the next bits.** -/
theorem read_spec (h : At c r) (hbits : c + width ≤ 8 * r.data.length) (hwidth : width ≤ 64) :
    ∃ v r', read width r = .ok (v, r') ∧ At (c + width) r' ∧ r'.data = r.data ∧
      v.toNat = Bytes.toNatLE r.data / 2 ^ c % 2 ^ width := by
  obtain ⟨r₁, hfill, hat, hdata, hle⟩ := fill_spec width h hbits (by omega)
  have hlow : Bytes.toNatLE r.data / 2 ^ c % 2 ^ width < 2 ^ width :=
    Nat.mod_lt _ (Nat.two_pow_pos width)
  have hmask : r₁.acc &&& ((1 <<< width) - 1) = Bytes.toNatLE r.data / 2 ^ c % 2 ^ width := by
    rw [Nat.one_shiftLeft, Nat.and_two_pow_sub_one_eq_mod, hat.acc_eq, hdata,
      Nat.mod_mod_of_dvd _ (pow_dvd_pow 2 hle)]
  have hloaded := hat.loaded
  refine ⟨UInt64.ofNat (r₁.acc &&& ((1 <<< width) - 1)),
    { r₁ with acc := r₁.acc >>> width, acc_bits := r₁.acc_bits - width }, ?_, ⟨hat.within, ?_, ?_⟩,
    hdata, ?_⟩
  · rw [read, bind_apply, hfill]
    rfl
  · dsimp only
    omega
  · have hsplit : 2 ^ r₁.acc_bits = 2 ^ width * 2 ^ (r₁.acc_bits - width) := by
      rw [← pow_add, Nat.add_sub_cancel' hle]
    rw [Nat.shiftRight_eq_div_pow, hat.acc_eq, hsplit, Nat.mod_mul_right_div_self,
      Nat.div_div_eq_div_mul, ← pow_add]
  · rw [hmask, UInt64.toNat_ofNat', Nat.mod_eq_of_lt
      (lt_of_lt_of_le hlow (Nat.pow_le_pow_right (by decide) hwidth))]

/-- The values are the next ones, at the width. -/
def Ready (width : ℕ) (values : List UInt64) (r : BitReader) : Prop :=
  ∃ c, At c r ∧ c + width * values.length ≤ 8 * r.data.length ∧
    Bytes.toNatLE r.data / 2 ^ c = Nat.ofDigits (2 ^ width) (values.map UInt64.toNat) ∧
    ∀ v ∈ values, v.toNat < 2 ^ width

/-- **The next value is read.** -/
theorem Ready.read {v : UInt64} {values : List UInt64} (h : Ready width (v :: values) r)
    (hwidth : width ≤ 64) : ∃ r', BitReader.read width r = .ok (v, r') ∧ Ready width values r' := by
  obtain ⟨c, hat, hbits, hdigits, hlt⟩ := h
  rw [List.length_cons, Nat.mul_add, Nat.mul_one] at hbits
  rw [List.map_cons, Nat.ofDigits_cons] at hdigits
  rw [List.forall_mem_cons] at hlt
  obtain ⟨u, r', hread, hat', hdata, hu⟩ := read_spec hat (by omega) hwidth
  have huv : u = v := by
    refine UInt64.toNat_inj.1 ?_
    rw [hu, hdigits, Nat.add_mul_mod_self_left, Nat.mod_eq_of_lt hlt.1]
  subst huv
  refine ⟨r', hread, c + width, hat', by rw [hdata]; omega, ?_, hlt.2⟩
  rw [hdata, pow_add, ← Nat.div_div_eq_div_mul, hdigits,
    Nat.add_mul_div_left _ _ (Nat.two_pow_pos width), Nat.div_eq_of_lt hlt.1, Nat.zero_add]

theorem ready_pack_column {values : List UInt64} (hvalues : ∀ v ∈ values, v.toNat < 2 ^ width) :
    Ready width values (new (pack_column values width)) := by
  obtain ⟨hnumber, hlen⟩ := pack_column_spec hvalues
  refine ⟨0, at_new _, ?_, ?_, hvalues⟩
  · rw [new, hlen, packed_byte_len, Nat.mul_comm width]
    omega
  · rw [pow_zero, Nat.div_one]
    exact hnumber

/-- **A packed column reads back.** -/
theorem Ready.read_values {values : List UInt64} (h : Ready width values r) (hwidth : width ≤ 64) :
    ∃ r', BitReader.read_values width values.length r = .ok (values, r') := by
  induction values generalizing r with
  | nil => exact ⟨r, rfl⟩
  | cons v values ih =>
      obtain ⟨r₁, hread, hready⟩ := h.read hwidth
      obtain ⟨r', hrest⟩ := ih hready
      refine ⟨r', ?_⟩
      rw [List.length_cons, BitReader.read_values, bind_apply, hread]
      dsimp only
      rw [bind_apply, hrest]
      rfl

end BitReader

end Laurus
