import Laurus.Storage.Helpers.Varint

/-!
# The varint codecs agree

The decoder takes a group of at most ten bytes whose value a `u64` holds, and
nothing else (`decode_u64_eq_ok_iff`). The reader at a cursor decodes what
stands there (`read_varint_agrees`), and both encoders write one group.
-/

namespace Laurus

open Leb128

variable {bytes rest : Bytes} {v : UInt64} {n : ℕ}

/-! ## What the decoder takes -/

/-- A group of at most ten bytes stands at the start of some bytes, and a
`u64` holds its value. -/
def TakesGroup (bytes : Bytes) (v : UInt64) (n : ℕ) : Prop :=
  ∃ group rest, bytes = group ++ rest ∧ IsGroup group ∧ group.length = n ∧ n ≤ 10 ∧
    value group = v.toNat

theorem toNat_or_group {result : UInt64} {k : ℕ} {byte : UInt8} (hk : k ≤ 9)
    (hresult : result.toNat < 2 ^ (7 * k)) (hfits : ¬ (7 * k = 63 ∧ 1 < byte &&& 0x7F)) :
    (result ||| ((byte &&& 0x7F).toUInt64 <<< UInt64.ofNat (7 * k))).toNat =
      result.toNat + byte.toNat % 128 * 2 ^ (7 * k) := by
  have hlow : (byte &&& 0x7F).toUInt64.toNat = byte.toNat % 128 := by
    rw [UInt8.toNat_toUInt64, toNat_and_seven]
  have hx : byte.toNat % 128 * 2 ^ (7 * k) < 2 ^ 64 := by
    rcases Nat.lt_or_ge k 9 with hlt | hge
    · have hpow : 2 ^ (7 * k) ≤ 2 ^ 56 := Nat.pow_le_pow_right (by decide) (by omega)
      have hmul := Nat.mul_le_mul (show byte.toNat % 128 ≤ 127 by omega) hpow
      omega
    grind [UInt8.lt_iff_toNat_lt, toNat_and_seven]
  grind [toNat_or_shiftLeft]

/-- **What the loop takes is a group**, and its value fits. -/
theorem decode_u64_loop_takes {m : ℕ} :
    ∀ {k : ℕ} {result : UInt64} {n : ℕ}, k ≤ 10 → result.toNat < 2 ^ (7 * k) →
      decode_u64_loop result (7 * k) n bytes = .ok (v, m) →
      ∃ group rest, bytes = group ++ rest ∧ IsGroup group ∧ m = n + group.length ∧
        k + group.length ≤ 10 ∧ v.toNat = result.toNat + value group * 2 ^ (7 * k) := by
  induction bytes with
  | nil => exact fun _ _ h => by cases h
  | cons byte bytes ih =>
      intro k result n hk hresult h
      rw [decode_u64_loop] at h
      split at h
      · cases h
      · rename_i hfits
        rw [not_or] at hfits
        have hk9 : k ≤ 9 := by omega
        have hor := toNat_or_group hk9 hresult hfits.2
        split at h
        · rename_i hlast
          obtain ⟨rfl, rfl⟩ := Prod.mk.inj (Except.ok.inj h)
          refine ⟨[byte], bytes, rfl, .last ((and_top_eq_zero_iff byte).1 hlast), rfl, ?_, ?_⟩
          · grind
          · rw [hor, value, value, Nat.mul_zero, Nat.add_zero]
        · rename_i hmore
          have hpow : 2 ^ (7 * (k + 1)) = 128 * 2 ^ (7 * k) := by grind
          have hbound : byte.toNat % 128 * 2 ^ (7 * k) ≤ 127 * 2 ^ (7 * k) :=
            Nat.mul_le_mul_right _ (by omega)
          obtain ⟨group, rest, rfl, hgroup, rfl, hlen, hvalue⟩ :=
            ih (by omega : k + 1 ≤ 10) (by rw [hor, hpow]; omega) h
          refine ⟨byte :: group, rest, rfl,
            .more (not_not.1 (mt (and_top_eq_zero_iff byte).2 hmore)) hgroup, ?_, ?_, ?_⟩
          · rw [List.length_cons]
            omega
          · rw [List.length_cons]
            omega
          · rw [hvalue, hor, hpow, value]
            ring

/-- **The decoder takes** just a group of at most ten bytes whose value fits. -/
theorem decode_u64_eq_ok_iff : decode_u64 bytes = .ok (v, n) ↔ TakesGroup bytes v n := by
  constructor
  · intro h
    obtain ⟨group, rest, hbytes, hgroup, hn, hlen, hvalue⟩ :=
      decode_u64_loop_takes (k := 0) (Nat.zero_le _) (by simp) h
    refine ⟨group, rest, hbytes, hgroup, by omega, by omega, ?_⟩
    rw [hvalue]
    simp
  · rintro ⟨group, rest, rfl, hgroup, rfl, hlen, hvalue⟩
    have hv := v.toNat_lt
    refine decode_u64_append ?_ rest
    rw [decode_u64]
    rw [decode_u64_loop_group hgroup (by omega) (by simp) (by rw [hvalue]; simpa using hv), hvalue]
    simp

/-! ## The reader and the writer -/

/-- Two decoders end alike: both in an error, or both with a value, so many
bytes on from where each is. -/
def EndAlike (n cursor : ℕ) (decoded read : Except LaurusError (UInt64 × ℕ)) : Prop :=
  (∃ e e', decoded = .error e ∧ read = .error e') ∨
    ∃ v taken, decoded = .ok (v, n + taken) ∧ read = .ok (v, cursor + taken)

theorem EndAlike.more {n cursor : ℕ} {decoded read : Except LaurusError (UInt64 × ℕ)}
    (h : EndAlike (n + 1) (cursor + 1) decoded read) : EndAlike n cursor decoded read := by
  rcases h with herror | ⟨v, taken, hdecoded, hread⟩
  · exact Or.inl herror
  · exact Or.inr ⟨v, 1 + taken, by rw [hdecoded, Nat.add_assoc], by rw [hread, Nat.add_assoc]⟩

theorem decode_u64_loop_overflow (result : UInt64) (n : ℕ) (bytes : Bytes) {shift : ℕ}
    (h : 64 ≤ shift) : ∃ e, decode_u64_loop result shift n bytes = .error e := by
  rcases bytes with _ | ⟨byte, bytes⟩
  · exact ⟨_, rfl⟩
  · rw [decode_u64_loop, if_pos (Or.inl h)]
    exact ⟨_, rfl⟩

namespace Varint

theorem write_varint_loop_eq (turns : ℕ) (buf : Bytes) (value : UInt64) :
    write_varint_loop turns buf value = buf ++ encode_u64_loop turns value := by
  induction turns generalizing buf value with
  | zero => rw [write_varint_loop, encode_u64_loop, List.append_nil]
  | succ turns ih =>
      rw [write_varint_loop, encode_u64_loop]
      grind

/-- **The loops run alike**, `k` groups in. -/
theorem read_varint_loop_agrees (bytes : Bytes) (container : String) :
    ∀ (turns k n cursor : ℕ) (value : UInt64), k + turns = 10 → 0 < turns →
      EndAlike n cursor (decode_u64_loop value (7 * k) n (bytes.drop cursor))
        (read_varint_loop bytes container turns cursor value (7 * k)) := by
  intro turns
  induction turns with
  | zero => omega
  | succ turns ih =>
      intro k n cursor value hk _
      rw [read_varint_loop]
      rcases hbyte : bytes[cursor]? with _ | byte
      · -- the bytes end
        rw [List.drop_of_length_le (List.getElem?_eq_none_iff.1 hbyte)]
        exact Or.inl ⟨_, _, rfl, rfl⟩
      · obtain ⟨hlt, hget⟩ := List.getElem?_eq_some_iff.1 hbyte
        rw [List.drop_eq_getElem_cons hlt, hget, decode_u64_loop]
        have hno : ¬ 64 ≤ 7 * k := by omega
        by_cases hfits : 7 * k = 63 ∧ 1 < byte &&& 0x7F
        · rw [if_pos (Or.inr hfits)]
          dsimp only
          rw [if_pos hfits]
          exact Or.inl ⟨_, _, rfl, rfl⟩
        · rw [if_neg (not_or.2 ⟨hno, hfits⟩)]
          dsimp only
          rw [if_neg hfits]
          by_cases hlast : byte &&& 0x80 = 0
          · rw [if_pos hlast, if_pos hlast]
            exact Or.inr ⟨_, 1, rfl, rfl⟩
          · rw [if_neg hlast, if_neg hlast]
            by_cases hover : 64 ≤ 7 * k + 7
            · obtain ⟨e, he⟩ := decode_u64_loop_overflow
                (value ||| ((byte &&& 0x7F).toUInt64 <<< UInt64.ofNat (7 * k))) (n + 1)
                (bytes.drop (cursor + 1)) hover
              rw [if_pos hover]
              exact Or.inl ⟨e, _, he, rfl⟩
            · rw [if_neg hover]
              exact (ih (k + 1) (n + 1) (cursor + 1) _ (by omega) (by omega)).more

/-- **The reader decodes what stands at the cursor.** -/
theorem read_varint_agrees (bytes : Bytes) (cursor : ℕ) (container : String) :
    EndAlike 0 cursor (decode_u64 (bytes.drop cursor)) (read_varint bytes cursor container) :=
  read_varint_loop_agrees bytes container 10 0 0 cursor 0 rfl (by decide)

end Varint

/-- **The codecs**: what is encoded decodes, whatever follows; the writer
appends what the encoder returns; the reader ends as the decoder does; and
neither takes a number that a `u64` does not hold. -/
theorem varint_codecs_agree :
    (∀ (v : UInt64) (rest : Bytes),
      decode_u64 (encode_u64 v ++ rest) = .ok (v, (encode_u64 v).length)) ∧
    (∀ (buf : Bytes) (v : UInt64), Varint.write_varint buf v = buf ++ encode_u64 v) ∧
    (∀ (bytes : Bytes) (cursor : ℕ) (container : String), EndAlike 0 cursor
      (decode_u64 (bytes.drop cursor)) (Varint.read_varint bytes cursor container)) ∧
    (∀ (bytes : Bytes) (v : UInt64) (n : ℕ), decode_u64 bytes = .ok (v, n) →
      TakesGroup bytes v n) ∧
    ∀ (bytes : Bytes) (cursor : ℕ) (container : String) (v : UInt64) (cursor' : ℕ),
      Varint.read_varint bytes cursor container = .ok (v, cursor') →
        TakesGroup (bytes.drop cursor) v (cursor' - cursor) := by
  refine ⟨fun v rest => decode_u64_append (decode_u64_encode_u64 v) rest,
    fun buf v => Varint.write_varint_loop_eq 10 buf v, Varint.read_varint_agrees,
    fun bytes v n h => decode_u64_eq_ok_iff.1 h, fun bytes cursor container v cursor' h => ?_⟩
  rcases Varint.read_varint_agrees bytes cursor container with ⟨e, e', -, herror⟩ |
    ⟨v', taken, hdecoded, hread⟩
  · cases h.symm.trans herror
  · obtain ⟨rfl, rfl⟩ := Prod.mk.inj (Except.ok.inj (h.symm.trans hread))
    rw [Nat.zero_add] at hdecoded
    rw [Nat.add_sub_cancel_left]
    exact decode_u64_eq_ok_iff.1 hdecoded

end Laurus
