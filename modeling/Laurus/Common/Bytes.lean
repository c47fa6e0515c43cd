import Mathlib.Data.List.Basic
import Mathlib.Data.UInt
import Mathlib.Order.Defs.LinearOrder
import Mathlib.Tactic.Ring

/-!
# Bytes — little-endian words

A natural number as a fixed count of bytes, lowest first, and back. The
width is a parameter, so one statement serves every word size; what a
width can hold is `256 ^ w`, and the round trip is exact below it.
-/

namespace Laurus

/-- A byte string. -/
abbrev Bytes := List UInt8

namespace Bytes

/-- `v` as `w` bytes, lowest first; what does not fit is dropped. -/
def ofNatLE : ℕ → ℕ → Bytes
  | 0, _ => []
  | w + 1, v => UInt8.ofNat (v % 256) :: ofNatLE w (v / 256)

/-- The number `bytes` spell, lowest byte first. -/
def toNatLE : Bytes → ℕ
  | [] => 0
  | b :: bytes => b.toNat + 256 * toNatLE bytes

@[simp] theorem length_ofNatLE (w v : ℕ) : (ofNatLE w v).length = w := by
  induction w generalizing v with
  | zero => rfl
  | succ w ih => simp [ofNatLE, ih]

/-- **The round trip**, for a number the width holds. -/
theorem toNatLE_ofNatLE {w v : ℕ} (h : v < 256 ^ w) : toNatLE (ofNatLE w v) = v := by
  induction w generalizing v with
  | zero => simp only [pow_zero, Nat.lt_one_iff] at h; simp [ofNatLE, toNatLE, h]
  | succ w ih =>
      grind [ofNatLE, toNatLE, UInt8.toNat_ofNat']

theorem toNatLE_lt (bytes : Bytes) : toNatLE bytes < 256 ^ bytes.length := by
  induction bytes with
  | nil => simp [toNatLE]
  | cons b bytes ih =>
      have hb : b.toNat < 256 := b.toNat_lt
      rw [toNatLE, List.length_cons, pow_succ]
      omega

theorem ofNatLE_toNatLE (bytes : Bytes) : ofNatLE bytes.length (toNatLE bytes) = bytes := by
  induction bytes with
  | nil => rfl
  | cons b bytes ih =>
      have hb : b.toNat < 256 := b.toNat_lt
      have hmod : (b.toNat + 256 * toNatLE bytes) % 256 = b.toNat := by omega
      have hdiv : (b.toNat + 256 * toNatLE bytes) / 256 = toNatLE bytes := by omega
      rw [toNatLE, List.length_cons, ofNatLE, hmod, hdiv, ih]
      simp

theorem toNatLE_append (bs cs : Bytes) :
    toNatLE (bs ++ cs) = toNatLE bs + 256 ^ bs.length * toNatLE cs := by
  induction bs with
  | nil => simp [toNatLE]
  | cons b bs ih =>
      rw [List.cons_append, toNatLE, ih, toNatLE, List.length_cons, pow_succ]
      ring

theorem toNatLE_getElem? {bytes : Bytes} {i : ℕ} {b : UInt8} (h : bytes[i]? = some b) :
    toNatLE bytes / 256 ^ i % 256 = b.toNat := by
  obtain ⟨hi, rfl⟩ := List.getElem?_eq_some_iff.1 h
  have hsplit : bytes = bytes.take i ++ (bytes[i] :: bytes.drop (i + 1)) := by simp
  have hlen : (bytes.take i).length = i := by
    rw [List.length_take]
    omega
  have hlow : toNatLE (bytes.take i) < 256 ^ i := by
    simpa only [hlen] using toNatLE_lt (bytes.take i)
  have hb : bytes[i].toNat < 256 := bytes[i].toNat_lt
  have hvalue : toNatLE bytes =
      toNatLE (bytes.take i) + 256 ^ i * (bytes[i].toNat + 256 * toNatLE (bytes.drop (i + 1))) := by
    conv_lhs => rw [hsplit, toNatLE_append, hlen, toNatLE]
  rw [hvalue, Nat.add_mul_div_left _ _ (Nat.pow_pos (Nat.succ_pos 255)), Nat.div_eq_of_lt hlow, Nat.zero_add,
    Nat.add_mul_mod_self_left, Nat.mod_eq_of_lt hb]

/-- The first `n` words of `w` bytes each. -/
def wordsLE (w : ℕ) : ℕ → Bytes → List ℕ
  | 0, _ => []
  | n + 1, bytes => toNatLE (bytes.take w) :: wordsLE w n (bytes.drop w)

theorem wordsLE_flatMap {w : ℕ} {vs : List ℕ} (h : ∀ v ∈ vs, v < 256 ^ w) (t : Bytes) :
    wordsLE w vs.length (vs.flatMap (ofNatLE w) ++ t) = vs := by
  induction vs with
  | nil => rfl
  | cons v vs ih =>
      have hv := h v List.mem_cons_self
      have hvs := ih fun u hu => h u (List.mem_cons_of_mem _ hu)
      rw [List.flatMap_cons, List.append_assoc, List.length_cons, wordsLE,
        List.take_left' (length_ofNatLE w v), List.drop_left' (length_ofNatLE w v),
        toNatLE_ofNatLE hv, hvs]

theorem length_flatMap_ofNatLE (w : ℕ) (vs : List ℕ) :
    (vs.flatMap (ofNatLE w)).length = w * vs.length := by
  induction vs with
  | nil => simp
  | cons v vs ih =>
      rw [List.flatMap_cons, List.length_append, length_ofNatLE, ih, List.length_cons]
      ring

end Bytes

/-!
## CRC-32, the reflected IEEE polynomial
-/

namespace Crc32

/-- One bit of the shift register. -/
def shift (crc : UInt32) : UInt32 :=
  if crc &&& 1 = 1 then (crc >>> 1) ^^^ 0xEDB88320 else crc >>> 1

/-- One byte folded in. -/
def update (crc : UInt32) (byte : UInt8) : UInt32 :=
  shift (shift (shift (shift (shift (shift (shift (shift (crc ^^^ byte.toUInt32))))))))

/-- The checksum of a byte string. -/
def checksum (bytes : Bytes) : UInt32 := bytes.foldl update 0xFFFFFFFF ^^^ 0xFFFFFFFF

/-- The check value of the algorithm: the sum of `123456789`. -/
example : checksum [0x31, 0x32, 0x33, 0x34, 0x35, 0x36, 0x37, 0x38, 0x39] = 0xCBF43926 := by
  decide +kernel

end Crc32

/-!
## Bytes — big-endian words

A natural number as a fixed count of bytes, highest first, and back. Words
of one width compare as byte strings the way their numbers do
(`ofNatBE_lt_iff`).
-/

namespace Bytes

/-- `v` as `w` bytes, highest first; what does not fit is dropped. -/
def ofNatBE : ℕ → ℕ → Bytes
  | 0, _ => []
  | w + 1, v => UInt8.ofNat (v / 256 ^ w % 256) :: ofNatBE w (v % 256 ^ w)

/-- The number `bytes` spell, highest byte first. -/
def toNatBE : Bytes → ℕ
  | [] => 0
  | b :: bytes => b.toNat * 256 ^ bytes.length + toNatBE bytes

variable {w u v : ℕ}

@[simp] theorem length_ofNatBE (w v : ℕ) : (ofNatBE w v).length = w := by
  induction w generalizing v with
  | zero => rfl
  | succ w ih => simp [ofNatBE, ih]

theorem high_byte_lt (h : v < 256 ^ (w + 1)) : v / 256 ^ w < 256 := by
  rw [Nat.div_lt_iff_lt_mul (Nat.pow_pos (by omega)), ← pow_succ']
  exact h

/-- **The round trip**, for a number the width holds. -/
theorem toNatBE_ofNatBE (h : v < 256 ^ w) : toNatBE (ofNatBE w v) = v := by
  induction w generalizing v with
  | zero =>
      rw [ofNatBE, toNatBE]
      omega
  | succ w ih =>
      have hhigh := high_byte_lt h
      have hdiv := Nat.div_add_mod' v (256 ^ w)
      rw [ofNatBE, toNatBE, length_ofNatBE, ih (Nat.mod_lt _ (Nat.pow_pos (by omega))),
        UInt8.toNat_ofNat', Nat.mod_mod, Nat.mod_eq_of_lt hhigh, hdiv]

/-- **Words of one width compare as their numbers do.** -/
theorem ofNatBE_lt_iff (hu : u < 256 ^ w) (hv : v < 256 ^ w) :
    ofNatBE w u < ofNatBE w v ↔ u < v := by
  induction w generalizing u v with
  | zero =>
      grind
  | succ w ih =>
      have hu' := high_byte_lt hu
      have hv' := high_byte_lt hv
      have hpos : 0 < 256 ^ w := Nat.pow_pos (by omega)
      have hrest := ih (Nat.mod_lt u hpos) (Nat.mod_lt v hpos)
      have hdu := Nat.div_add_mod' u (256 ^ w)
      have hdv := Nat.div_add_mod' v (256 ^ w)
      have hlow := Nat.mod_lt u hpos
      have hlow' := Nat.mod_lt v hpos
      rw [ofNatBE, ofNatBE, List.cons_lt_cons_iff, hrest, UInt8.lt_iff_toNat_lt,
        ← UInt8.toNat_inj, UInt8.toNat_ofNat', UInt8.toNat_ofNat', Nat.mod_mod, Nat.mod_mod,
        Nat.mod_eq_of_lt hu', Nat.mod_eq_of_lt hv']
      -- the high bytes decide, and the rest where they are one
      rcases lt_trichotomy (u / 256 ^ w) (v / 256 ^ w) with h | h | h
      · have hmul : (u / 256 ^ w + 1) * 256 ^ w ≤ v / 256 ^ w * 256 ^ w :=
          Nat.mul_le_mul_right _ h
        grind
      · rw [h] at hdu ⊢
        omega
      · have hmul : (v / 256 ^ w + 1) * 256 ^ w ≤ u / 256 ^ w * 256 ^ w :=
          Nat.mul_le_mul_right _ h
        grind

example : ofNatBE 2 0x1234 = [0x12, 0x34] := by decide

end Bytes

/-!
## Words

A counter of 64 bits that is not at the greatest word is below its
successor, and the lesser and the greater of two words are those of their
values.
-/

/-- The greatest `u64`. -/
def MAX_SEQ : UInt64 := UInt64.ofNat (2 ^ 64 - 1)

theorem toNat_succ {n : UInt64} (h : n ≠ MAX_SEQ) : (n + 1).toNat = n.toNat + 1 := by
  have hne : n.toNat ≠ 2 ^ 64 - 1 := fun heq => h (UInt64.toNat_inj.1 heq)
  have hlt := n.toNat_lt
  rw [UInt64.toNat_add, UInt64.toNat_one, Nat.mod_eq_of_lt (by omega)]

theorem ne_max_of_lt {m n : UInt64} (h : m < n) : m ≠ MAX_SEQ := by
  rintro rfl
  rw [UInt64.lt_iff_toNat_lt] at h
  have hlt := n.toNat_lt
  have hmax : MAX_SEQ.toNat = 2 ^ 64 - 1 := rfl
  omega

theorem lt_succ {n : UInt64} (h : n ≠ MAX_SEQ) : n < n + 1 := by
  rw [UInt64.lt_iff_toNat_lt, toNat_succ h]
  omega

theorem lt_succ_of_le {m n : UInt64} (hn : n ≠ MAX_SEQ) (h : m ≤ n) : m < n + 1 :=
  UInt64.lt_of_le_of_lt h (lt_succ hn)

theorem toNat_max_u64 (m n : UInt64) : (max m n).toNat = max m.toNat n.toNat := by
  show (if m ≤ n then n else m).toNat = _
  split <;> rename_i h <;> rw [UInt64.le_iff_toNat_le] at h <;> omega

theorem toNat_max_u32 (m n : UInt32) : (max m n).toNat = max m.toNat n.toNat := by
  show (if m ≤ n then n else m).toNat = _
  split <;> rename_i h <;> rw [UInt32.le_iff_toNat_le] at h <;> omega

theorem toNat_min_u32 (m n : UInt32) : (min m n).toNat = min m.toNat n.toNat := by
  show (if m ≤ n then m else n).toNat = _
  split <;> rename_i h <;> rw [UInt32.le_iff_toNat_le] at h <;> omega

/-!
## LEB128 — base-128 numbers

A number as groups of seven bits, lowest first, every byte but the last
with its high bit set. `split` cuts a byte string after its first number
without reading the number, which is how a streaming reader meets it;
`value` reads the groups.
-/

namespace Leb128

/-- The bytes of `n`: seven bits each, lowest first. -/
def encode (n : ℕ) : Bytes :=
  if n < 128 then [UInt8.ofNat n] else UInt8.ofNat (n % 128 + 128) :: encode (n / 128)
termination_by n
decreasing_by omega

/-- The number a string of groups spells, continuation bits dropped. -/
def value : Bytes → ℕ
  | [] => 0
  | b :: bytes => b.toNat % 128 + 128 * value bytes

/-- Whether `b` announces another byte. -/
def continues (b : UInt8) : Prop := 128 ≤ b.toNat

instance (b : UInt8) : Decidable (continues b) := inferInstanceAs (Decidable (128 ≤ b.toNat))

/-- A byte string is one number: every byte but its last continues. -/
inductive IsGroup : Bytes → Prop
  | last {b : UInt8} : ¬ continues b → IsGroup [b]
  | more {b : UInt8} {bytes : Bytes} : continues b → IsGroup bytes → IsGroup (b :: bytes)

theorem isGroup_encode (n : ℕ) : IsGroup (encode n) := by
  induction n using Nat.strong_induction_on with
  | _ n ih =>
    rw [encode]
    split
    · refine IsGroup.last ?_
      simp only [continues, UInt8.toNat_ofNat']
      omega
    · refine IsGroup.more ?_ (ih _ (by omega))
      simp only [continues, UInt8.toNat_ofNat']
      omega

/-- **Reading what was written.** -/
theorem value_encode (n : ℕ) : value (encode n) = n := by
  induction n using Nat.strong_induction_on with
  | _ n ih =>
    grind [encode, value, UInt8.toNat_ofNat']

theorem length_encode_le {k n : ℕ} (hk : 0 < k) (h : n < 128 ^ k) : (encode n).length ≤ k := by
  induction k generalizing n with
  | zero => omega
  | succ k ih =>
      grind [encode]

theorem length_encode_pos (n : ℕ) : 0 < (encode n).length := by
  rw [encode]; split <;> simp

end Leb128

end Laurus
