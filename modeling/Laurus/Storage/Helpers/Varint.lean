import Laurus.Common.Bytes
import Laurus.Storage.Model.Structured
import Mathlib.Data.Nat.Bitwise

/-!
# The varint loops are LEB128

`encode_u64` is `Leb128.encode` of the value (`encode_u64_eq`), and
`decode_u64` reads any group of at most ten bytes whose value a `u64`
holds (`decode_u64_loop_group`), so it inverts the encoder.
-/

namespace Laurus

open Leb128

/-! ## The bit operations as arithmetic -/

theorem toNat_shiftRight_seven (v : UInt64) : (v >>> 7).toNat = v.toNat / 128 := by
  rw [UInt64.toNat_shiftRight]; simp [Nat.shiftRight_eq_div_pow]

theorem toNat_low_seven (v : UInt64) : ((v &&& 0x7F).toUInt8).toNat = v.toNat % 128 := by
  have h7 : (0x7F : UInt64).toNat = 2 ^ 7 - 1 := rfl
  rw [UInt64.toNat_toUInt8, UInt64.toNat_and, h7, Nat.and_two_pow_sub_one_eq_mod]
  omega

theorem toNat_and_seven (b : UInt8) : (b &&& 0x7F).toNat = b.toNat % 128 := by
  have h7 : (0x7F : UInt8).toNat = 2 ^ 7 - 1 := rfl
  rw [UInt8.toNat_and, h7, Nat.and_two_pow_sub_one_eq_mod]

theorem toNat_or_top (b : UInt8) (h : b.toNat < 128) : (b ||| 0x80).toNat = b.toNat + 128 := by
  have h80 : (0x80 : UInt8).toNat = 2 ^ 7 * 1 := rfl
  rw [UInt8.toNat_or, h80, Nat.or_comm, ← Nat.two_pow_add_eq_or_of_lt h]
  omega

theorem and_top_eq_zero_iff (b : UInt8) : b &&& 0x80 = 0 ↔ ¬ continues b := by
  have hb : b.toNat < 256 := b.toNat_lt
  have h80 : (0x80 : UInt8).toNat = 2 ^ 7 := rfl
  rw [← UInt8.toNat_inj, UInt8.toNat_and, h80, Nat.and_two_pow, Nat.testBit_eq_decide_div_mod_eq,
    continues]
  by_cases h : b.toNat / 2 ^ 7 % 2 = 1
  · grind
  grind

theorem toNat_or_shiftLeft {result x : UInt64} {shift : ℕ} (hs : shift < 64)
    (hr : result.toNat < 2 ^ shift) (hx : x.toNat * 2 ^ shift < 2 ^ 64) :
    (result ||| (x <<< UInt64.ofNat shift)).toNat = result.toNat + x.toNat * 2 ^ shift := by
  have hmod : (UInt64.ofNat shift).toNat % 64 = shift := by
    rw [UInt64.toNat_ofNat']
    omega
  rw [UInt64.toNat_or, UInt64.toNat_shiftLeft, hmod, Nat.shiftLeft_eq, Nat.mod_eq_of_lt hx,
    Nat.or_comm, Nat.mul_comm x.toNat, ← Nat.two_pow_add_eq_or_of_lt hr]
  omega

/-! ## The encoder -/

theorem encode_u64_loop_eq {turns : ℕ} {val : UInt64} (hpos : 0 < turns)
    (h : val.toNat < 128 ^ turns) : encode_u64_loop turns val = Leb128.encode val.toNat := by
  induction turns generalizing val with
  | zero => omega
  | succ turns ih =>
      have hlow := toNat_low_seven val
      have hshift := toNat_shiftRight_seven val
      rw [encode_u64_loop, Leb128.encode]
      by_cases hlt : val.toNat < 128
      · have hzero : val >>> 7 = 0 := UInt64.toNat_inj.mp (by rw [hshift]; simp; omega)
        rw [if_neg (by simpa using hzero), if_pos hlt]
        congr 1
        rw [← UInt8.toNat_inj, hlow, UInt8.toNat_ofNat']
        omega
      · have hne : val >>> 7 ≠ 0 := by
          intro h0
          rw [h0] at hshift
          simp at hshift
          omega
        have hdiv : val.toNat / 128 < 128 ^ turns := by omega
        have hturns : 0 < turns := by grind
        grind [UInt8.toNat_inj, toNat_or_top, UInt8.toNat_ofNat']

/-- **The encoder is LEB128.** -/
theorem encode_u64_eq (value : UInt64) : encode_u64 value = Leb128.encode value.toNat := by
  refine encode_u64_loop_eq (by omega) ?_
  have := value.toNat_lt
  omega

theorem length_encode_u64_le (value : UInt64) : (encode_u64 value).length ≤ 10 := by
  rw [encode_u64_eq]
  refine length_encode_le (by omega) ?_
  have := value.toNat_lt
  omega

theorem length_encode_u64_pos (value : UInt64) : 0 < (encode_u64 value).length := by
  rw [encode_u64_eq]; exact length_encode_pos _

/-! ## The decoder -/

/-- **The decoder reads a group**: what is there already, plus the group's
value above it, while ten bytes and a `u64` hold them. -/
theorem decode_u64_loop_group {bytes : Bytes} (hg : IsGroup bytes) :
    ∀ {result : UInt64} {shift n : ℕ}, shift + 7 * bytes.length ≤ 70 → result.toNat < 2 ^ shift →
      result.toNat + value bytes * 2 ^ shift < 2 ^ 64 →
      decode_u64_loop result shift n bytes =
        .ok (UInt64.ofNat (result.toNat + value bytes * 2 ^ shift), n + bytes.length) := by
  have hstep : ∀ (rest : ℕ) {b : UInt8} {result : UInt64} {shift : ℕ}, shift ≤ 63 →
      result.toNat < 2 ^ shift →
      result.toNat + (b.toNat % 128 + 128 * rest) * 2 ^ shift < 2 ^ 64 →
      ¬ (64 ≤ shift ∨ (shift = 63 ∧ 1 < b &&& 0x7F)) ∧
      (result ||| ((b &&& 0x7F).toUInt64 <<< UInt64.ofNat shift)).toNat =
        result.toNat + b.toNat % 128 * 2 ^ shift := by
    grind [UInt8.toNat_toUInt64, toNat_and_seven, UInt8.lt_iff_toNat_lt, toNat_or_shiftLeft]
  induction hg with
  | @last b hb =>
      intro result shift n hlen hr hv
      simp only [List.length_cons, List.length_nil] at hlen
      obtain ⟨hok, hor⟩ := hstep 0 (by omega) hr (by simpa [value] using hv)
      rw [decode_u64_loop, if_neg hok]
      simp only [if_pos ((and_top_eq_zero_iff b).2 hb), List.length_cons, List.length_nil, value]
      congr 2
      rw [← UInt64.toNat_inj, hor, UInt64.toNat_ofNat']
      simp only [value, Nat.mul_zero, Nat.add_zero] at hv ⊢
      omega
  | @more b bytes hb hg ih =>
      intro result shift n hlen hr hv
      have hpow : 2 ^ (shift + 7) = 128 * 2 ^ shift := by rw [pow_add]; omega
      simp only [List.length_cons] at hlen
      obtain ⟨hok, hor⟩ := hstep (value bytes) (by omega) hr (by simpa [value] using hv)
      have hsplit : (b.toNat % 128 + 128 * value bytes) * 2 ^ shift =
          b.toNat % 128 * 2 ^ shift + value bytes * 2 ^ (shift + 7) := by rw [hpow]; ring
      have hb128 : b.toNat % 128 * 2 ^ shift + 2 ^ shift ≤ 128 * 2 ^ shift := by
        have : b.toNat % 128 + 1 ≤ 128 := by omega
        calc b.toNat % 128 * 2 ^ shift + 2 ^ shift = (b.toNat % 128 + 1) * 2 ^ shift := by ring
          _ ≤ 128 * 2 ^ shift := Nat.mul_le_mul_right _ this
      rw [decode_u64_loop, if_neg hok]
      simp only [if_neg (mt (and_top_eq_zero_iff b).1 (not_not_intro hb))]
      rw [value, hsplit] at hv
      simp only [List.length_cons, value, hsplit]
      grind

/-- **The decoder inverts the encoder.** -/
theorem decode_u64_encode_u64 (v : UInt64) :
    decode_u64 (encode_u64 v) = .ok (v, (encode_u64 v).length) := by
  have hlen := length_encode_u64_le v
  have hv := v.toNat_lt
  rw [encode_u64_eq] at hlen ⊢
  rw [decode_u64, decode_u64_loop_group (isGroup_encode _) (by omega) (by simp)
    (by rw [value_encode]; simpa using hv), value_encode]
  simp

theorem decode_u64_loop_append {result : UInt64} {shift n : ℕ} {bytes : Bytes} {out : UInt64 × ℕ}
    (h : decode_u64_loop result shift n bytes = .ok out) (t : Bytes) :
    decode_u64_loop result shift n (bytes ++ t) = .ok out := by
  induction bytes generalizing result shift n with
  | nil => cases h
  | cons byte bytes ih =>
      grind [decode_u64_loop]

theorem decode_u64_append {bytes : Bytes} {out : UInt64 × ℕ} (h : decode_u64 bytes = .ok out)
    (t : Bytes) : decode_u64 (bytes ++ t) = .ok out := decode_u64_loop_append h t

end Laurus
