import Laurus.Common.Float64
import Mathlib.Data.List.Basic
import Mathlib.Order.Bounds.Basic

/-!
# A double as an integer, and as a part of one

`to_i64` drops the fraction of a double and stops at the ends of the type;
it keeps the order (`to_i64_mono`), and the double of what it leaves is
truncated to the same (`to_i64_of_int_to_i64`). `div_nat` is the quotient of
an integral double by a number, to the nearest.
-/

namespace Laurus

/-!
## An integer as a double

`of_int v` is the double nearest to `v`, of two as near the even one, and
infinity beyond them all. It keeps the order (`key_of_int_mono`), and no more
than that: integers from `2 ^ 53` on may share a double.
-/

/-- `m / 2 ^ s` to the nearest, a half to the even one. -/
def round_half_even (m s : ℕ) : ℕ :=
  if 2 ^ s < 2 * (m % 2 ^ s) ∨ (2 ^ s = 2 * (m % 2 ^ s) ∧ m / 2 ^ s % 2 = 1) then m / 2 ^ s + 1
  else m / 2 ^ s

theorem le_round_half_even (m s : ℕ) : m / 2 ^ s ≤ round_half_even m s := by
  rw [round_half_even]
  split <;> omega

theorem round_half_even_le (m s : ℕ) : round_half_even m s ≤ m / 2 ^ s + 1 := by
  rw [round_half_even]
  split <;> omega

theorem round_half_even_mono {a b : ℕ} (h : a ≤ b) (s : ℕ) :
    round_half_even a s ≤ round_half_even b s := by
  have hdiv : a / 2 ^ s ≤ b / 2 ^ s := Nat.div_le_div_right h
  rcases hdiv.lt_or_eq with hlt | heq
  · exact (round_half_even_le a s).trans (hlt.trans_le (le_round_half_even b s))
  · -- the quotients are one, so the remainders decide
    grind [Nat.div_add_mod, round_half_even]

namespace F64

/-- The 53 bits of `m`, the first of them 1. -/
def significand (m : ℕ) : ℕ :=
  if m.log2 ≤ 52 then m * 2 ^ (52 - m.log2) else round_half_even m (m.log2 - 52)

/-- The bits of the double of `m`: where the significand is rounded up to
`2 ^ 53`, the exponent takes the carry. -/
def magnitude (m : ℕ) : ℕ :=
  if m = 0 then 0 else min ((m.log2 + 1022) * 2 ^ 52 + significand m) 0x7FF0000000000000

/-- `as f64` on an integer. -/
def of_int (v : ℤ) : F64 :=
  if 0 ≤ v then ⟨UInt64.ofNat (magnitude v.natAbs)⟩
  else ⟨UInt64.ofNat (2 ^ 63 + magnitude v.natAbs)⟩

theorem significand_bounds {m : ℕ} (hm : m ≠ 0) :
    2 ^ 52 ≤ significand m ∧ significand m ≤ 2 ^ 53 := by
  have hlow := Nat.log2_self_le hm
  have hhigh := Nat.lt_log2_self (n := m)
  rw [significand]
  split
  · rename_i hlog
    have hsplit : 2 ^ 52 = 2 ^ m.log2 * 2 ^ (52 - m.log2) := by
      rw [← pow_add, Nat.add_sub_cancel' hlog]
    have hone : 2 ^ 53 = 2 ^ (m.log2 + 1) * 2 ^ (52 - m.log2) := by grind
    rw [hsplit, hone]
    exact ⟨Nat.mul_le_mul_right _ hlow, Nat.mul_le_mul_right _ hhigh.le⟩
  · rename_i hlog
    have hsplit : 2 ^ m.log2 = 2 ^ 52 * 2 ^ (m.log2 - 52) := by
      rw [← pow_add, show 52 + (m.log2 - 52) = m.log2 by omega]
    have hone : 2 ^ (m.log2 + 1) = 2 ^ 53 * 2 ^ (m.log2 - 52) := by omega
    rw [hsplit] at hlow
    rw [hone] at hhigh
    exact ⟨((Nat.le_div_iff_mul_le (Nat.two_pow_pos _)).2 hlow).trans (le_round_half_even _ _),
      (round_half_even_le _ _).trans ((Nat.div_lt_iff_lt_mul (Nat.two_pow_pos _)).2 hhigh)⟩

theorem significand_mono {m n : ℕ} (h : m ≤ n) (hlog : m.log2 = n.log2) :
    significand m ≤ significand n := by
  rw [significand, significand, hlog]
  split
  · exact Nat.mul_le_mul_right _ h
  · exact round_half_even_mono h _

theorem log2_mono {m n : ℕ} (hm : m ≠ 0) (h : m ≤ n) : m.log2 ≤ n.log2 :=
  (Nat.le_log2 (by omega)).2 ((Nat.log2_self_le hm).trans h)

theorem magnitude_mono {m n : ℕ} (h : m ≤ n) : magnitude m ≤ magnitude n := by
  by_cases hm : m = 0
  · rw [magnitude, if_pos hm]
    exact Nat.zero_le _
  have hn : n ≠ 0 := by omega
  rw [magnitude, magnitude, if_neg hm, if_neg hn]
  refine min_le_min_right _ ?_
  rcases (log2_mono hm h).lt_or_eq with hlt | heq
  · grind [significand_bounds]
  · rw [heq]
    exact Nat.add_le_add_left (significand_mono h heq) _

theorem magnitude_lt (m : ℕ) : magnitude m < 2 ^ 63 := by
  rw [magnitude]
  grind

theorem key_of_int_of_nonneg {v : ℤ} (h : 0 ≤ v) : (of_int v).key = magnitude v.natAbs := by
  have hlt := magnitude_lt v.natAbs
  rw [of_int, if_pos h, key, UInt64.toNat_ofNat', Nat.mod_eq_of_lt (by omega), if_pos hlt]

theorem key_of_int_of_neg {v : ℤ} (h : v < 0) : (of_int v).key = -1 - magnitude v.natAbs := by
  have hlt := magnitude_lt v.natAbs
  rw [of_int, if_neg (not_le.2 h), key, UInt64.toNat_ofNat', Nat.mod_eq_of_lt (by omega),
    if_neg (by omega)]
  omega

/-- **The double of an integer keeps the order.** -/
theorem key_of_int_mono {v w : ℤ} (h : v ≤ w) : (of_int v).key ≤ (of_int w).key := by
  rcases lt_or_ge v 0 with hv | hv <;> rcases lt_or_ge w 0 with hw | hw
  · have hmag := magnitude_mono (show w.natAbs ≤ v.natAbs by omega)
    rw [key_of_int_of_neg hv, key_of_int_of_neg hw]
    omega
  · rw [key_of_int_of_neg hv, key_of_int_of_nonneg hw]
    omega
  · omega
  · have hmag := magnitude_mono (show v.natAbs ≤ w.natAbs by omega)
    rw [key_of_int_of_nonneg hv, key_of_int_of_nonneg hw]
    omega

example : [of_int 1, of_int (-2), of_int (2 ^ 53 + 1), of_int (2 ^ 53 + 3)] =
    [⟨0x3FF0000000000000⟩, ⟨0xC000000000000000⟩, ⟨0x4340000000000000⟩, ⟨0x4340000000000002⟩] := by
  decide +kernel

end F64

section RoundDown

/-!
## Rounding down to a table

`RoundsDown key S r` says that the key of `r x` is the greatest member of
`S` at or below the key of `x`. That alone makes `r` monotone and idempotent
and fixes what has its key in `S`. An ascending table is searched for it by
the first entry that is not below the point (`isGreatest_findIdx`).
-/

variable {ι α : Type*} [LinearOrder α]

/-- `r` rounds down to `S`. -/
def RoundsDown (key : ι → α) (S : Set α) (r : ι → ι) : Prop :=
  ∀ x, IsGreatest {v | v ∈ S ∧ v ≤ key x} (key (r x))

namespace RoundsDown

variable {key : ι → α} {S : Set α} {r : ι → ι}

theorem mem (h : RoundsDown key S r) (x : ι) : key (r x) ∈ S := (h x).1.1

theorem le (h : RoundsDown key S r) (x : ι) : key (r x) ≤ key x := (h x).1.2

theorem monotone (h : RoundsDown key S r) {x y : ι} (hxy : key x ≤ key y) :
    key (r x) ≤ key (r y) :=
  (h y).2 ⟨h.mem x, (h.le x).trans hxy⟩

theorem eq_self (h : RoundsDown key S r) {x : ι} (hx : key x ∈ S) : key (r x) = key x :=
  le_antisymm (h.le x) ((h x).2 ⟨hx, le_rfl⟩)

theorem idempotent (h : RoundsDown key S r) (x : ι) : key (r (r x)) = key (r x) :=
  h.eq_self (h.mem x)

end RoundsDown

variable {table : List α} {x : α}

/-- The entry before the first that is above the point is the greatest that
is not. -/
theorem isGreatest_getElem (hsorted : table.Pairwise (· < ·)) {i : ℕ} (hi : i < table.length)
    (hle : table[i] ≤ x) (habove : ∀ v, table[i + 1]? = some v → x < v) :
    IsGreatest {v | v ∈ table ∧ v ≤ x} table[i] := by
  refine ⟨⟨List.getElem_mem hi, hle⟩, ?_⟩
  rintro v ⟨hv, hvx⟩
  obtain ⟨j, hj, rfl⟩ := List.mem_iff_getElem.1 hv
  rcases Nat.lt_or_ge i j with hij | hji
  · -- an entry past `i` is not below the next one
    have hnext : i + 1 < table.length := by omega
    have hgt := habove table[i + 1] (List.getElem?_eq_getElem hnext)
    rcases Nat.lt_or_ge (i + 1) j with hlt | hge
    · exact absurd (hgt.trans (List.pairwise_iff_getElem.1 hsorted _ _ hnext hj hlt)).not_ge
        (not_not_intro hvx)
    grind
  grind [List.pairwise_iff_getElem]

/-- **The search**: by the first entry that is not below the point. -/
theorem isGreatest_findIdx [DecidableLE α] (hsorted : table.Pairwise (· < ·)) {i : ℕ}
    (hi : i = table.findIdx fun v => decide (x ≤ v)) (hne : table[i]? ≠ some x) (hpos : 0 < i) :
    ∃ v, table[i - 1]? = some v ∧ IsGreatest {v | v ∈ table ∧ v ≤ x} v := by
  have hlt : i - 1 < table.findIdx fun v => decide (x ≤ v) := by omega
  have hlen : i - 1 < table.length := Nat.lt_of_lt_of_le hlt List.findIdx_le_length
  have hbelow := List.not_of_lt_findIdx hlt
  refine ⟨table[i - 1], List.getElem?_eq_getElem hlen, isGreatest_getElem hsorted hlen ?_ ?_⟩
  · exact (not_le.1 (by simpa using hbelow)).le
  grind

end RoundDown

namespace F64

variable {x y : F64}

/-- The whole part of the number of the bits, the sign aside. -/
def whole_part (m : ℕ) : ℕ :=
  if m / 2 ^ 52 < 1023 then 0
  else if m / 2 ^ 52 ≤ 1075 then (2 ^ 52 + m % 2 ^ 52) / 2 ^ (1075 - m / 2 ^ 52)
  else (2 ^ 52 + m % 2 ^ 52) * 2 ^ (m / 2 ^ 52 - 1075)

/-- `as i64`. -/
def to_i64 (x : F64) : ℤ :=
  if x.is_nan then 0
  else if x.bits.toNat < 2 ^ 63 then min (whole_part x.bits.toNat) (2 ^ 63 - 1)
  else max (-whole_part (x.bits.toNat - 2 ^ 63)) (-2 ^ 63)

/-- Whether the sign bit is set. -/
def is_sign_negative (x : F64) : Bool := decide (2 ^ 63 ≤ x.bits.toNat)

/-- `n / d` to the nearest, a half to the even one. -/
def round_quotient (n d : ℕ) : ℕ :=
  if d < 2 * (n % d) ∨ (d = 2 * (n % d) ∧ n / d % 2 = 1) then n / d + 1 else n / d

/-- The exponent of `n / d`: the number is at least `2 ^ e`, and below the
next power. -/
def quotient_exponent (n d : ℕ) : ℤ :=
  if d * 2 ^ (n.log2 - d.log2) ≤ n * 2 ^ (d.log2 - n.log2) then (n.log2 : ℤ) - d.log2
  else (n.log2 : ℤ) - d.log2 - 1

/-- The bits of the double nearest to `n / d`, a normal one. -/
def quotient_magnitude (n d : ℕ) : ℕ :=
  if n = 0 then 0
  else
    min (((quotient_exponent n d + 1022).toNat) * 2 ^ 52 +
      round_quotient (n * 2 ^ (52 - quotient_exponent n d).toNat)
        (d * 2 ^ (quotient_exponent n d - 52).toNat)) 0x7FF0000000000000

/-- `/`, of an integral double by a number. -/
def div_nat (x : F64) (d : ℕ) : F64 :=
  if x.bits.toNat < 2 ^ 63 then ⟨UInt64.ofNat (quotient_magnitude (whole_part x.bits.toNat) d)⟩
  else ⟨UInt64.ofNat (2 ^ 63 + quotient_magnitude (whole_part (x.bits.toNat - 2 ^ 63)) d)⟩

example : (of_int (-7)).div_nat 2 = ⟨0xC00C000000000000⟩ ∧
    (of_int 1).div_nat 10 = ⟨0x3FB999999999999A⟩ := by decide +kernel

example : [to_i64 ⟨0xC00C000000000000⟩, to_i64 ⟨0x3FB999999999999A⟩, INFINITY.to_i64] =
    [-3, 0, 2 ^ 63 - 1] := by decide +kernel

/-! ## Truncation keeps the order -/

variable {m : ℕ}

theorem whole_part_bounds (h : 1023 ≤ m / 2 ^ 52) :
    2 ^ (m / 2 ^ 52 - 1023) ≤ whole_part m ∧ whole_part m < 2 ^ (m / 2 ^ 52 - 1022) := by
  rw [whole_part, if_neg (by omega)]
  split
  · rename_i hexp
    have hsplit : 2 ^ 52 = 2 ^ (m / 2 ^ 52 - 1023) * 2 ^ (1075 - m / 2 ^ 52) := by
      rw [← pow_add, show m / 2 ^ 52 - 1023 + (1075 - m / 2 ^ 52) = 52 by omega]
    have hone : 2 ^ 53 = 2 ^ (m / 2 ^ 52 - 1022) * 2 ^ (1075 - m / 2 ^ 52) := by
      rw [← pow_add, show m / 2 ^ 52 - 1022 + (1075 - m / 2 ^ 52) = 53 by omega]
    rw [Nat.le_div_iff_mul_le (Nat.two_pow_pos _), Nat.div_lt_iff_lt_mul (Nat.two_pow_pos _),
      ← hsplit, ← hone]
    omega
  · rename_i hexp
    have hsplit : 2 ^ (m / 2 ^ 52 - 1023) = 2 ^ 52 * 2 ^ (m / 2 ^ 52 - 1075) := by
      rw [← pow_add, show 52 + (m / 2 ^ 52 - 1075) = m / 2 ^ 52 - 1023 by omega]
    have hone : 2 ^ (m / 2 ^ 52 - 1022) = 2 ^ 53 * 2 ^ (m / 2 ^ 52 - 1075) := by
      rw [← pow_add, show 53 + (m / 2 ^ 52 - 1075) = m / 2 ^ 52 - 1022 by omega]
    rw [hsplit, hone]
    exact ⟨Nat.mul_le_mul_right _ (by omega), Nat.mul_lt_mul_of_pos_right (by omega)
      (Nat.two_pow_pos _)⟩

theorem whole_part_mono {n : ℕ} (h : m ≤ n) : whole_part m ≤ whole_part n := by
  have hexp : m / 2 ^ 52 ≤ n / 2 ^ 52 := Nat.div_le_div_right h
  by_cases hsmall : m / 2 ^ 52 < 1023
  · rw [whole_part, if_pos hsmall]
    exact Nat.zero_le _
  rcases hexp.lt_or_eq with hlt | heq
  · calc whole_part m ≤ 2 ^ (m / 2 ^ 52 - 1022) := (whole_part_bounds (by omega)).2.le
      _ ≤ 2 ^ (n / 2 ^ 52 - 1023) := Nat.pow_le_pow_right (by omega) (by omega)
      _ ≤ whole_part n := (whole_part_bounds (by omega)).1
  · have hm := Nat.div_add_mod m (2 ^ 52)
    rw [whole_part, whole_part, heq]
    split
    · exact le_rfl
    · split
      · exact Nat.div_le_div_right (by omega)
      · exact Nat.mul_le_mul_right _ (by omega)

theorem to_i64_bounds (x : F64) : -2 ^ 63 ≤ x.to_i64 ∧ x.to_i64 < 2 ^ 63 := by
  rw [to_i64]
  split
  · omega
  · split <;> omega

/-- **Truncation keeps the order.** -/
theorem to_i64_mono (hx : x.is_nan = false) (hy : y.is_nan = false) (h : x.key ≤ y.key) :
    x.to_i64 ≤ y.to_i64 := by
  rw [to_i64, to_i64, hx, hy]
  simp only [Bool.false_eq_true, if_false]
  simp only [key] at h
  split at h <;> split at h
  · have hmono := whole_part_mono (show x.bits.toNat ≤ y.bits.toNat by omega)
    omega
  · omega
  · omega
  · have hmono := whole_part_mono (show y.bits.toNat - 2 ^ 63 ≤ x.bits.toNat - 2 ^ 63 by omega)
    omega

/-! ## The double of a whole number that a double can hold -/

/-- A number of 53 bits, and zeros. -/
def Short (m : ℕ) : Prop := m.log2 ≤ 52 ∨ 2 ^ (m.log2 - 52) ∣ m

theorem log2_whole_part (h : 1023 ≤ m / 2 ^ 52) :
    (whole_part m).log2 = m / 2 ^ 52 - 1023 := by
  obtain ⟨hlow, hhigh⟩ := whole_part_bounds h
  have hpos : whole_part m ≠ 0 := by
    have := Nat.two_pow_pos (m / 2 ^ 52 - 1023)
    omega
  have hle := (Nat.le_log2 hpos).2 hlow
  have hlt := (Nat.log2_lt hpos).2 hhigh
  omega

theorem short_whole_part (m : ℕ) : Short (whole_part m) := by
  by_cases hsmall : m / 2 ^ 52 < 1023
  · rw [whole_part, if_pos hsmall]
    exact Or.inl (by decide)
  have hlog := log2_whole_part (show 1023 ≤ m / 2 ^ 52 by omega)
  by_cases hexp : m / 2 ^ 52 ≤ 1075
  · exact Or.inl (by omega)
  · refine Or.inr ?_
    rw [hlog, whole_part, if_neg hsmall, if_neg hexp,
      show m / 2 ^ 52 - 1023 - 52 = m / 2 ^ 52 - 1075 by omega]
    exact Dvd.intro_left _ rfl

theorem significand_mul (h : Short m) (hlog : 52 < m.log2) :
    significand m * 2 ^ (m.log2 - 52) = m := by
  have hdvd : 2 ^ (m.log2 - 52) ∣ m := h.resolve_left (by omega)
  have hmod : m % 2 ^ (m.log2 - 52) = 0 := Nat.mod_eq_zero_of_dvd hdvd
  rw [significand, if_neg (by omega), round_half_even, hmod, if_neg (by omega)]
  exact Nat.div_mul_cancel hdvd

theorem significand_lt (h : Short m) : significand m < 2 ^ 53 := by
  have hlt := Nat.lt_log2_self (n := m)
  by_cases hlog : m.log2 ≤ 52
  · have hone : 2 ^ 53 = 2 ^ (m.log2 + 1) * 2 ^ (52 - m.log2) := by
      rw [← pow_add, show m.log2 + 1 + (52 - m.log2) = 53 by omega]
    rw [significand, if_pos hlog, hone]
    exact Nat.mul_lt_mul_of_pos_right hlt (Nat.two_pow_pos _)
  · have hone : 2 ^ (m.log2 + 1) = 2 ^ 53 * 2 ^ (m.log2 - 52) := by
      rw [← pow_add, show 53 + (m.log2 - 52) = m.log2 + 1 by omega]
    have hmul := significand_mul h (by omega)
    refine Nat.lt_of_mul_lt_mul_right (a := 2 ^ (m.log2 - 52)) ?_
    rw [hmul, ← hone]
    exact hlt

/-- The bits of a short number have its own exponent, and its own
significand. -/
theorem magnitude_split (hm : m ≠ 0) (h : Short m) (hlt : m < 2 ^ 64) :
    magnitude m / 2 ^ 52 = m.log2 + 1023 ∧
      2 ^ 52 + magnitude m % 2 ^ 52 = significand m := by
  have hlow := (significand_bounds hm).1
  have hhigh := significand_lt h
  have hlog : m.log2 < 64 := (Nat.log2_lt hm).2 hlt
  rw [magnitude, if_neg hm]
  omega

theorem whole_part_magnitude (h : Short m) (hlt : m < 2 ^ 64) :
    whole_part (magnitude m) = m := by
  by_cases hm : m = 0
  · subst hm
    rfl
  obtain ⟨hexp, hsig⟩ := magnitude_split hm h hlt
  rw [whole_part, hexp, hsig, if_neg (by omega)]
  by_cases hlog : m.log2 ≤ 52
  · rw [if_pos (by omega), significand, if_pos hlog,
      show 1075 - (m.log2 + 1023) = 52 - m.log2 by omega]
    simp
  · rw [if_neg (by omega), show m.log2 + 1023 - 1075 = m.log2 - 52 by omega]
    exact significand_mul h (by omega)

theorem is_nan_of_magnitude (h : m ≤ 0x7FF0000000000000) :
    is_nan ⟨UInt64.ofNat m⟩ = false ∧ is_nan ⟨UInt64.ofNat (2 ^ 63 + m)⟩ = false := by
  have hinf : INFINITY.key = 0x7FF0000000000000 := by decide
  have hneg : NEG_INFINITY.key = -1 - 0x7FF0000000000000 := by decide
  rw [is_nan, is_nan, decide_eq_false_iff_not, decide_eq_false_iff_not, hinf, hneg, key, key,
    UInt64.toNat_ofNat', UInt64.toNat_ofNat', Nat.mod_eq_of_lt (by omega),
    Nat.mod_eq_of_lt (by omega), if_pos (by omega), if_neg (by omega)]
  omega

theorem magnitude_le (m : ℕ) : magnitude m ≤ 0x7FF0000000000000 := by
  rw [magnitude]
  grind

theorem toNat_of_int (v : ℤ) :
    (of_int v).bits.toNat = if 0 ≤ v then magnitude v.natAbs else 2 ^ 63 + magnitude v.natAbs := by
  have hlt := magnitude_lt v.natAbs
  rw [of_int]
  split <;> rw [UInt64.toNat_ofNat', Nat.mod_eq_of_lt (by omega)]

theorem is_nan_of_int (v : ℤ) : (of_int v).is_nan = false := by
  rw [of_int]
  split
  · exact (is_nan_of_magnitude (magnitude_le _)).1
  · exact (is_nan_of_magnitude (magnitude_le _)).2

theorem to_i64_of_int {v : ℤ} (h : Short v.natAbs) (hlow : -2 ^ 63 ≤ v) (hhigh : v < 2 ^ 63) :
    (of_int v).to_i64 = v := by
  have hwhole := whole_part_magnitude h (by omega)
  have hlt := magnitude_lt v.natAbs
  rw [to_i64, is_nan_of_int, toNat_of_int]
  simp only [Bool.false_eq_true, if_false]
  by_cases hv : 0 ≤ v
  · grind
  · rw [if_neg hv, if_neg (by omega), Nat.add_sub_cancel_left, hwhole]
    omega

theorem short_to_i64 (x : F64) : Short x.to_i64.natAbs ∨ x.to_i64 = 2 ^ 63 - 1 := by
  rw [to_i64]
  split
  · exact Or.inl (Or.inl (by decide))
  · split
    · grind [short_whole_part]
    · rcases le_total (-(whole_part (x.bits.toNat - 2 ^ 63)) : ℤ) (-2 ^ 63) with hle | hle
      · rw [max_eq_right hle]
        exact Or.inl (Or.inr (by decide))
      · rw [max_eq_left hle, Int.natAbs_neg, Int.natAbs_natCast]
        exact Or.inl (short_whole_part _)

/-- **The double of what truncation leaves is truncated to the same.** -/
theorem to_i64_of_int_to_i64 (x : F64) : (of_int x.to_i64).to_i64 = x.to_i64 := by
  rcases short_to_i64 x with hshort | hlast
  · exact to_i64_of_int hshort (to_i64_bounds x).1 (to_i64_bounds x).2
  · rw [hlast]
    decide +kernel

/-! ## The places of the two -/

theorem place_eq (x : F64) :
    x.place = if x.bits.toNat < 2 ^ 63 then (x.bits.toNat : ℤ) else 2 ^ 63 - x.bits.toNat := by
  rw [place, key]
  split <;> split <;> omega

theorem to_i64_mono_place (hx : x.is_nan = false) (hy : y.is_nan = false)
    (h : x.place ≤ y.place) : x.to_i64 ≤ y.to_i64 := by
  by_cases hkey : x.key ≤ y.key
  · exact to_i64_mono hx hy hkey
  · -- the two zeros
    have hzero : x.key = 0 ∧ y.key = -1 := by
      grind [place]
    obtain rfl : x = ⟨0⟩ := eq_of_key hzero.1
    obtain rfl : y = ⟨0x8000000000000000⟩ := eq_of_key hzero.2
    decide +kernel

/-- **A double is below every whole number that its whole part is below.** -/
theorem place_lt_of_to_i64_lt (hx : x.is_nan = false) (h : x.to_i64 < y.to_i64) :
    x.place < (of_int y.to_i64).place := by
  by_contra hle
  have hmono := to_i64_mono_place (is_nan_of_int _) hx (not_lt.1 hle)
  rw [to_i64_of_int_to_i64] at hmono
  omega

theorem lt_place_of_lt_to_i64 (hx : x.is_nan = false) (h : y.to_i64 < x.to_i64) :
    (of_int y.to_i64).place < x.place := by
  by_contra hle
  have hmono := to_i64_mono_place hx (is_nan_of_int _) (not_lt.1 hle)
  rw [to_i64_of_int_to_i64] at hmono
  omega

/-! ## No quotient is a NaN -/

theorem quotient_magnitude_le (n d : ℕ) : quotient_magnitude n d ≤ 0x7FF0000000000000 := by
  rw [quotient_magnitude]
  grind

theorem is_nan_div_nat (x : F64) (d : ℕ) : (x.div_nat d).is_nan = false := by
  rw [div_nat]
  split
  · exact (is_nan_of_magnitude (quotient_magnitude_le _ _)).1
  · exact (is_nan_of_magnitude (quotient_magnitude_le _ _)).2

end F64

end Laurus
