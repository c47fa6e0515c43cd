import Laurus.Lexical.Model.NumericRange

/-!
# The stored documents against the tree of a numeric range

The scan compares the bytes of words, the tree compares numbers. The bytes
of two numbers are in the order of the numbers where neither has a sign, and
of two integers also where both have one; elsewhere they are turned. An
Integer word has lost the fraction of its number, which the point in the
tree keeps. A document is then given by one path alone, unless another of
its points makes up for it (`Agrees`).
-/

namespace Laurus

variable {x b : F64} {numeric_type : NumericType} {bytes : Bytes}

/-- The bytes of the two are in the other order than the numbers. -/
def Turned (x b : F64) : NumericType → Prop
  | .Integer => (x.to_i64 < 0 ∧ 0 ≤ b.to_i64) ∨ (0 ≤ x.to_i64 ∧ b.to_i64 < 0)
  | .Float => (x.is_sign_negative = true ∨ b.is_sign_negative = true) ∧ x.place ≠ b.place

/-- The bytes are wrong about `x < b`: also where an integral bound takes
the fraction of `x` with it, and of `0.0` and `-0.0`. -/
def MistakesLess (x b : F64) : NumericType → Prop
  | .Integer => Turned x b .Integer ∨ (x.to_i64 = b.to_i64 ∧ x.place < b.place)
  | .Float => Turned x b .Float ∨ (x = ⟨0⟩ ∧ b = ⟨0x8000000000000000⟩)

/-- The bytes are wrong about `b < x`. -/
def MistakesGreater (x b : F64) : NumericType → Prop
  | .Integer => Turned x b .Integer ∨ (x.to_i64 = b.to_i64 ∧ b.place < x.place)
  | .Float => Turned x b .Float ∨ (x = ⟨0x8000000000000000⟩ ∧ b = ⟨0⟩)

/-! ## The words -/

theorem word_lt (v : ℤ) : (v % 2 ^ 64).toNat < 256 ^ 8 := by omega

theorem decode_encode_float (v : F64) : decode_numeric (encode_numeric v .Float) .Float = v := by
  have hlt := v.bits.toNat_lt
  rw [encode_numeric, decode_numeric, Bytes.toNatBE_ofNatBE (by omega), UInt64.ofNat_toNat]

theorem decode_encode_integer (v : F64) :
    decode_numeric (encode_numeric v .Integer) .Integer = F64.of_int v.to_i64 := by
  obtain ⟨hlow, hhigh⟩ := v.to_i64_bounds
  rw [encode_numeric, decode_numeric, Bytes.toNatBE_ofNatBE (word_lt _)]
  congr 1
  split <;> omega

theorem encode_float_lt (x b : F64) :
    encode_numeric x .Float < encode_numeric b .Float ↔ x.bits.toNat < b.bits.toNat := by
  have hx := x.bits.toNat_lt
  have hb := b.bits.toNat_lt
  exact Bytes.ofNatBE_lt_iff (by omega) (by omega)

theorem encode_integer_lt (x b : F64) :
    encode_numeric x .Integer < encode_numeric b .Integer ↔
      (x.to_i64 % 2 ^ 64).toNat < (b.to_i64 % 2 ^ 64).toNat :=
  Bytes.ofNatBE_lt_iff (word_lt _) (word_lt _)

theorem bits_eq_iff {w : UInt64} : x = ⟨w⟩ ↔ x.bits.toNat = w.toNat := by
  rw [F64.mk.injEq, UInt64.toNat_inj]

/-! ## What the bytes are wrong about -/

theorem bits_lt_iff (x b : F64) :
    x.bits.toNat < b.bits.toNat ↔
      (x.place < b.place ↔
        ¬(((2 ^ 63 ≤ x.bits.toNat ∨ 2 ^ 63 ≤ b.bits.toNat) ∧ x.place ≠ b.place) ∨
          (x.bits.toNat = 0 ∧ b.bits.toNat = 2 ^ 63))) := by
  rw [F64.place_eq, F64.place_eq]
  split <;> split <;> omega

theorem float_less_iff (x b : F64) :
    encode_numeric x .Float < encode_numeric b .Float ↔
      (x.place < b.place ↔ ¬MistakesLess x b .Float) := by
  rw [encode_float_lt, bits_lt_iff, MistakesLess, Turned, bits_eq_iff, bits_eq_iff]
  simp only [F64.is_sign_negative, decide_eq_true_eq]
  rfl

theorem float_greater_iff (x b : F64) :
    encode_numeric b .Float < encode_numeric x .Float ↔
      (b.place < x.place ↔ ¬MistakesGreater x b .Float) := by
  rw [float_less_iff, MistakesLess, MistakesGreater, Turned, Turned, or_comm (a := _ = true),
    ne_comm, and_comm (a := b = _)]

theorem word_lt_iff {u v : ℤ} (hu : -2 ^ 63 ≤ u ∧ u < 2 ^ 63) (hv : -2 ^ 63 ≤ v ∧ v < 2 ^ 63) :
    (u % 2 ^ 64).toNat < (v % 2 ^ 64).toNat ↔
      (u < v ↔ ¬((u < 0 ∧ 0 ≤ v) ∨ (0 ≤ u ∧ v < 0))) := by
  omega

/-- A bound of an Integer query is the double of its whole part. -/
def Integral (b : F64) : Prop := b = F64.of_int b.to_i64

theorem integer_less_iff (hx : x.is_nan = false) (hb : Integral b) :
    encode_numeric x .Integer < encode_numeric b .Integer ↔
      (x.place < b.place ↔ ¬MistakesLess x b .Integer) := by
  rw [encode_integer_lt, word_lt_iff x.to_i64_bounds b.to_i64_bounds, MistakesLess, Turned]
  rcases lt_trichotomy x.to_i64 b.to_i64 with h | h | h
  · have hplace := F64.place_lt_of_to_i64_lt hx h
    rw [← hb] at hplace
    omega
  · rw [h]
    simp
    omega
  · have hplace := F64.lt_place_of_lt_to_i64 hx h
    rw [← hb] at hplace
    omega

theorem integer_greater_iff (hx : x.is_nan = false) (hb : Integral b) :
    encode_numeric b .Integer < encode_numeric x .Integer ↔
      (b.place < x.place ↔ ¬MistakesGreater x b .Integer) := by
  rw [encode_integer_lt, word_lt_iff b.to_i64_bounds x.to_i64_bounds, MistakesGreater, Turned,
    or_comm (a := b.to_i64 < 0 ∧ _), and_comm (a := 0 ≤ b.to_i64), and_comm (a := b.to_i64 < 0)]
  rcases lt_trichotomy x.to_i64 b.to_i64 with h | h | h
  · have hplace := F64.place_lt_of_to_i64_lt hx h
    rw [← hb] at hplace
    omega
  · rw [h]
    simp
    omega
  · have hplace := F64.lt_place_of_lt_to_i64 hx h
    rw [← hb] at hplace
    omega

/-! ## The two sides of a query -/

/-- What a bound of a query is, decoded. -/
structure Decoded (bytes : Bytes) (b : F64) (numeric_type : NumericType) : Prop where
  encoded : bytes = encode_numeric b numeric_type
  integral : numeric_type = .Integer → Integral b

namespace Decoded

theorem less_iff (hd : Decoded bytes b numeric_type) (hx : x.is_nan = false) :
    encode_numeric x numeric_type < bytes ↔
      (x.place < b.place ↔ ¬MistakesLess x b numeric_type) := by
  rw [hd.encoded]
  rcases numeric_type with _ | _
  · exact integer_less_iff hx (hd.integral rfl)
  · exact float_less_iff x b

theorem greater_iff (hd : Decoded bytes b numeric_type) (hx : x.is_nan = false) :
    bytes < encode_numeric x numeric_type ↔
      (b.place < x.place ↔ ¬MistakesGreater x b numeric_type) := by
  rw [hd.encoded]
  rcases numeric_type with _ | _
  · exact integer_greater_iff hx (hd.integral rfl)
  · exact float_greater_iff x b

end Decoded

theorem exists_decoded (h : ∃ v, encode_numeric v numeric_type = bytes) :
    Decoded bytes (decode_numeric bytes numeric_type) numeric_type := by
  obtain ⟨v, rfl⟩ := h
  rcases numeric_type with _ | _
  · rw [decode_encode_integer]
    refine ⟨?_, fun _ => ?_⟩
    · rw [encode_numeric, encode_numeric, F64.to_i64_of_int_to_i64]
    · rw [Integral, F64.to_i64_of_int_to_i64]
  · rw [decode_encode_float]
    exact ⟨rfl, fun h => nomatch h⟩

namespace NumericRangeQuery

variable {q : NumericRangeQuery}

/-- No bound is a NaN. -/
def Ordered (q : NumericRangeQuery) : Prop :=
  (∀ b ∈ q.min_f64, b.is_nan = false) ∧ ∀ b ∈ q.max_f64, b.is_nan = false

/-- The scan is wrong about the lower side. -/
def MistakesLower (q : NumericRangeQuery) (x : F64) : Prop :=
  ∃ b ∈ q.min_f64,
    if q.lower_inclusive then MistakesLess x b q.numeric_type
    else MistakesGreater x b q.numeric_type

/-- The scan is wrong about the upper side. -/
def MistakesUpper (q : NumericRangeQuery) (x : F64) : Prop :=
  ∃ b ∈ q.max_f64,
    if q.upper_inclusive then MistakesGreater x b q.numeric_type
    else MistakesLess x b q.numeric_type

/-- The visitor that the tree is searched with. -/
def visitor (q : NumericRangeQuery) : RangeQueryVisitor :=
  RangeQueryVisitor.new [q.min_f64] [q.max_f64] q.lower_inclusive q.upper_inclusive

/-- What the scan finds on the lower side. -/
def scans_lower (q : NumericRangeQuery) (x : F64) : Bool :=
  q.lower_bound.all fun lower =>
    if q.lower_inclusive then !decide (encode_numeric x q.numeric_type < lower)
    else decide (lower < encode_numeric x q.numeric_type)

/-- What the scan finds on the upper side. -/
def scans_upper (q : NumericRangeQuery) (x : F64) : Bool :=
  q.upper_bound.all fun upper =>
    if q.upper_inclusive then !decide (upper < encode_numeric x q.numeric_type)
    else decide (encode_numeric x q.numeric_type < upper)

theorem contains_numeric_eq (q : NumericRangeQuery) (x : F64) :
    q.contains_numeric x = (q.scans_lower x && q.scans_upper x) := rfl

theorem in_box_eq (q : NumericRangeQuery) (x : F64) :
    q.in_box [x] = (q.visitor.lower_ok 0 x && q.visitor.upper_ok 0 x) := by
  simp [in_box, visitor, RangeQueryVisitor.point_matches]

theorem lower_ok_none (hx : x.is_finite = true) (hnone : q.lower_bound = none) :
    q.visitor.lower_ok 0 x = true := by
  have hmin : q.visitor.min_at 0 = F64.NEG_INFINITY := by
    simp [visitor, RangeQueryVisitor.new, RangeQueryVisitor.min_at, min_f64, hnone]
  have hlt : F64.NEG_INFINITY.lt x = true :=
    F64.lt_iff.2 ⟨by decide, F64.is_nan_of_finite hx, (F64.place_of_finite hx).1⟩
  rw [RangeQueryVisitor.lower_ok, hmin, hlt, F64.le_of_lt hlt, ite_self]

theorem upper_ok_none (hx : x.is_finite = true) (hnone : q.upper_bound = none) :
    q.visitor.upper_ok 0 x = true := by
  have hmax : q.visitor.max_at 0 = F64.INFINITY := by
    simp [visitor, RangeQueryVisitor.new, RangeQueryVisitor.max_at, max_f64, hnone]
  have hlt : x.lt F64.INFINITY = true :=
    F64.lt_iff.2 ⟨F64.is_nan_of_finite hx, by decide, (F64.place_of_finite hx).2⟩
  rw [RangeQueryVisitor.upper_ok, hmax, hlt, F64.le_of_lt hlt, ite_self]

theorem lower_ok_some (hx : x.is_nan = false) (hb : b.is_nan = false) (hmin : q.min_f64 = some b) :
    q.visitor.lower_ok 0 x = true ↔
      if q.lower_inclusive then ¬x.place < b.place else b.place < x.place := by
  have hat : q.visitor.min_at 0 = b := by
    simp [visitor, RangeQueryVisitor.new, RangeQueryVisitor.min_at, hmin]
  rw [RangeQueryVisitor.lower_ok, hat, show q.visitor.include_min = q.lower_inclusive from rfl]
  grind [F64.le_iff, F64.lt_iff]

theorem upper_ok_some (hx : x.is_nan = false) (hb : b.is_nan = false) (hmax : q.max_f64 = some b) :
    q.visitor.upper_ok 0 x = true ↔
      if q.upper_inclusive then ¬b.place < x.place else x.place < b.place := by
  have hat : q.visitor.max_at 0 = b := by
    simp [visitor, RangeQueryVisitor.new, RangeQueryVisitor.max_at, hmax]
  rw [RangeQueryVisitor.upper_ok, hat, show q.visitor.include_max = q.upper_inclusive from rfl]
  grind [F64.le_iff, F64.lt_iff]

/-- **The scan's lower side is the tree's, but for its mistakes.** -/
theorem scans_lower_iff (hq : q.Ordered) (hx : x.is_finite = true) :
    q.scans_lower x = true ↔ (q.visitor.lower_ok 0 x = true ↔ ¬q.MistakesLower x) := by
  have hnan := F64.is_nan_of_finite hx
  rcases hlower : q.lower_bound with _ | bytes
  · grind [min_f64, scans_lower, lower_ok_none, MistakesLower]
  · have hd := exists_decoded (q.lower_encoded bytes hlower)
    have hmin : q.min_f64 = some (decode_numeric bytes q.numeric_type) := by
      rw [min_f64, hlower, Option.map_some]
    have hmistakes : q.MistakesLower x ↔
        if q.lower_inclusive then MistakesLess x (decode_numeric bytes q.numeric_type) q.numeric_type
        else MistakesGreater x (decode_numeric bytes q.numeric_type) q.numeric_type := by
      rw [MistakesLower, hmin]
      simp
    rw [scans_lower, hlower, Option.all_some, lower_ok_some hnan (hq.1 _ hmin) hmin, hmistakes]
    split
    · rw [Bool.not_eq_true', decide_eq_false_iff_not, hd.less_iff hnan]
      tauto
    · rw [decide_eq_true_eq, hd.greater_iff hnan]

/-- **The scan's upper side is the tree's, but for its mistakes.** -/
theorem scans_upper_iff (hq : q.Ordered) (hx : x.is_finite = true) :
    q.scans_upper x = true ↔ (q.visitor.upper_ok 0 x = true ↔ ¬q.MistakesUpper x) := by
  have hnan := F64.is_nan_of_finite hx
  rcases hupper : q.upper_bound with _ | bytes
  · grind [max_f64, scans_upper, upper_ok_none, MistakesUpper]
  · have hd := exists_decoded (q.upper_encoded bytes hupper)
    have hmax : q.max_f64 = some (decode_numeric bytes q.numeric_type) := by
      rw [max_f64, hupper, Option.map_some]
    have hmistakes : q.MistakesUpper x ↔
        if q.upper_inclusive then
          MistakesGreater x (decode_numeric bytes q.numeric_type) q.numeric_type
        else MistakesLess x (decode_numeric bytes q.numeric_type) q.numeric_type := by
      rw [MistakesUpper, hmax]
      simp
    rw [scans_upper, hupper, Option.all_some, upper_ok_some hnan (hq.2 _ hmax) hmax, hmistakes]
    split
    · rw [Bool.not_eq_true', decide_eq_false_iff_not, hd.greater_iff hnan]
      tauto
    · rw [decide_eq_true_eq, hd.less_iff hnan]

/-! ## The points of a document -/

/-- The point is in the range, and the scan sees that. -/
def RightlyAccepts (q : NumericRangeQuery) (x : F64) : Prop :=
  q.in_box [x] = true ∧ ¬q.MistakesLower x ∧ ¬q.MistakesUpper x

/-- The point is in the range, and the scan is wrong about a side. -/
def WronglyRejects (q : NumericRangeQuery) (x : F64) : Prop :=
  q.in_box [x] = true ∧ (q.MistakesLower x ∨ q.MistakesUpper x)

/-- The point is out of the range, and the scan is wrong about just the
sides where it is out. -/
def WronglyAccepts (q : NumericRangeQuery) (x : F64) : Prop :=
  q.in_box [x] = false ∧ (q.visitor.lower_ok 0 x = true ↔ ¬q.MistakesLower x) ∧
    (q.visitor.upper_ok 0 x = true ↔ ¬q.MistakesUpper x)

theorem contains_numeric_iff (hq : q.Ordered) (hx : x.is_finite = true) :
    q.contains_numeric x = true ↔ q.RightlyAccepts x ∨ q.WronglyAccepts x := by
  have hlower := scans_lower_iff hq hx
  have hupper := scans_upper_iff hq hx
  rw [contains_numeric_eq, RightlyAccepts, WronglyAccepts, in_box_eq, Bool.and_eq_true,
    Bool.and_eq_true, Bool.and_eq_false_iff, hlower, hupper]
  -- in the range both sides are right, and out of it just the sides in it
  grind

theorem in_box_iff (q : NumericRangeQuery) (x : F64) :
    q.in_box [x] = true ↔ q.RightlyAccepts x ∨ q.WronglyRejects x := by
  rw [RightlyAccepts, WronglyRejects]
  tauto

variable {DateTime : Type} {chrono : Chrono DateTime} {parse : String → Option F64}
variable {v : DataValue DateTime} {documents : StoredDocuments DateTime} {id : UInt64}

/-- A value of integers, floats or dates. -/
def Numeric : DataValue DateTime → Prop
  | .Int64 _ | .Float64 _ | .DateTime _ => True
  | .Int64Array _ | .Float64Array _ | .DateTimeArray _ => True
  | _ => False

/-- A value of integers, floats or dates, none infinite or a NaN. -/
structure FiniteNumeric (chrono : Chrono DateTime) (v : DataValue DateTime) : Prop where
  numeric : Numeric v
  finite : ∀ x, [x] ∈ analyze_points chrono v → x.is_finite = true

/-- Some point is rightly accepted; or none is out of place, or there are
some both ways. -/
def Agrees (q : NumericRangeQuery) (chrono : Chrono DateTime) (v : DataValue DateTime) : Prop :=
  (∃ x, [x] ∈ analyze_points chrono v ∧ q.RightlyAccepts x) ∨
    ((∃ x, [x] ∈ analyze_points chrono v ∧ q.WronglyRejects x) ↔
      ∃ x, [x] ∈ analyze_points chrono v ∧ q.WronglyAccepts x)

theorem value_matches_any_iff (hv : Numeric v) :
    q.value_matches_any chrono parse v = true ↔
      ∃ x, [x] ∈ analyze_points chrono v ∧ q.contains_numeric x = true := by
  rcases v with _ | _ | num | num | _ | _ | _ | dt | _ | _ | nums | nums | _ | _ | dts | _ | _ | _ | _
  all_goals first | exact hv.elim | simp [value_matches_any, analyze_points]

theorem mem_analyze_points (hv : Numeric v) {point : List F64}
    (h : point ∈ analyze_points chrono v) : ∃ x, point = [x] := by
  rcases v with _ | _ | num | num | _ | _ | _ | dt | _ | _ | nums | nums | _ | _ | dts | _ | _ | _ | _
  all_goals first | exact hv.elim | skip
  all_goals simp only [analyze_points, List.mem_singleton, List.mem_map] at h
  all_goals grind

theorem value_matches_any_eq_iff (hq : q.Ordered) (hv : FiniteNumeric chrono v) :
    (q.value_matches_any chrono parse v = true ↔
      ∃ x, [x] ∈ analyze_points chrono v ∧ q.in_box [x] = true) ↔ q.Agrees chrono v := by
  have hscan : q.value_matches_any chrono parse v = true ↔
      (∃ x, [x] ∈ analyze_points chrono v ∧ q.RightlyAccepts x) ∨
        ∃ x, [x] ∈ analyze_points chrono v ∧ q.WronglyAccepts x := by
    rw [value_matches_any_iff hv.numeric, ← exists_or]
    refine exists_congr fun x => ?_
    rw [← and_or_left]
    exact and_congr_right fun hx => contains_numeric_iff hq (hv.finite x hx)
  have htree : (∃ x, [x] ∈ analyze_points chrono v ∧ q.in_box [x] = true) ↔
      (∃ x, [x] ∈ analyze_points chrono v ∧ q.RightlyAccepts x) ∨
        ∃ x, [x] ∈ analyze_points chrono v ∧ q.WronglyRejects x := by
    rw [← exists_or]
    refine exists_congr fun x => ?_
    rw [← and_or_left, in_box_iff]
  rw [hscan, htree, Agrees]
  grind

/-! ## The documents of a reader -/

theorem mem_scan :
    id ∈ q.matcher chrono parse false documents ↔
      ∃ fields v, ⟨id, fields⟩ ∈ documents.entries ∧ fields.lookup q.field = some v ∧
        q.value_matches_any chrono parse v = true := by
  simp only [matcher, scan, Bool.false_eq_true, if_false, List.mem_map, List.mem_filter,
    Option.any_eq_true]
  simp

theorem mem_range_search :
    id ∈ q.matcher chrono parse true documents ↔
      ∃ fields v, ⟨id, fields⟩ ∈ documents.entries ∧ fields.lookup q.field = some v ∧
        ∃ point ∈ analyze_points chrono v, q.in_box point = true := by
  simp only [matcher, range_search, if_true, mem_sorted_dedup, List.mem_map, List.mem_filter,
    bkd_tree, List.mem_flatMap]
  constructor
  · rintro ⟨⟨id, point⟩, ⟨⟨⟨id, fields⟩, hmem, point, hpoint, heq⟩, hbox⟩, rfl⟩
    rcases hv : fields.lookup q.field with _ | v
    · grind
    grind
  · rintro ⟨fields, v, hmem, hv, point, hpoint, hbox⟩
    refine ⟨⟨id, point⟩, ⟨⟨⟨id, fields⟩, hmem, point, ?_, rfl⟩, hbox⟩, rfl⟩
    rw [hv]
    exact hpoint

/-- The field holds integers, floats or dates, none infinite or a NaN. -/
def FiniteField (chrono : Chrono DateTime) (field : String) (documents : StoredDocuments DateTime) :
    Prop :=
  ∀ doc ∈ documents.entries, ∀ v, doc.2.lookup field = some v → FiniteNumeric chrono v

/-- The two paths agree about every document that has the field. -/
def AgreesOn (q : NumericRangeQuery) (chrono : Chrono DateTime)
    (documents : StoredDocuments DateTime) : Prop :=
  ∀ doc ∈ documents.entries, ∀ v, doc.2.lookup q.field = some v → q.Agrees chrono v

theorem matcher_eq_iff (hq : q.Ordered) (hfield : FiniteField chrono q.field documents) :
    (∀ id, id ∈ q.matcher chrono parse false documents ↔
      id ∈ q.matcher chrono parse true documents) ↔ q.AgreesOn chrono documents := by
  have hpoints : ∀ v, Numeric v → ((∃ point ∈ analyze_points chrono v, q.in_box point = true) ↔
      ∃ x, [x] ∈ analyze_points chrono v ∧ q.in_box [x] = true) := by
    grind [mem_analyze_points]
  constructor
  · rintro h ⟨id, fields⟩ hmem v hv
    have hfinite := hfield _ hmem v hv
    have hagrees : (q.value_matches_any chrono parse v = true ↔
        ∃ x, [x] ∈ analyze_points chrono v ∧ q.in_box [x] = true) ↔ q.Agrees chrono v :=
      value_matches_any_eq_iff hq hfinite
    rw [← hagrees, ← hpoints v hfinite.numeric]
    -- an id has one document, and a field of it one value
    have hone : ∀ fields' v', ⟨id, fields'⟩ ∈ documents.entries →
        fields'.lookup q.field = some v' → v' = v := by
      intro fields' v' hmem' hv'
      obtain rfl := documents.nodupKeys.eq_of_mk_mem hmem hmem'
      exact Option.some.inj (hv'.symm.trans hv)
    have hid := h id
    grind [mem_scan, mem_range_search]
  · intro h id
    rw [mem_scan, mem_range_search]
    refine exists_congr fun fields => exists_congr fun v => and_congr_right fun hmem =>
      and_congr_right fun hv => ?_
    have hfinite := hfield _ hmem v hv
    rw [hpoints v hfinite.numeric, value_matches_any_eq_iff hq hfinite]
    exact h _ hmem v hv

end NumericRangeQuery

variable {DateTime : Type}

theorem DateTimeRangeQuery.ordered (q : DateTimeRangeQuery DateTime) (chrono : Chrono DateTime) :
    (q.as_numeric chrono).Ordered := by
  have hbound : ∀ (bound : Option DateTime) (b : F64),
      b ∈ ((bound.map (datetime_to_point chrono)).map fun v => encode_numeric v .Float).map
        (fun bytes => decode_numeric bytes .Float) → b.is_nan = false := by
    intro bound b hb
    rw [Option.map_map, Option.map_map, Option.mem_map] at hb
    obtain ⟨dt, -, rfl⟩ := hb
    rw [Function.comp_apply, Function.comp_apply, decode_encode_float]
    exact F64.is_nan_div_nat _ _
  exact ⟨hbound q.lower_bound, hbound q.upper_bound⟩

/-- **A range gives the same documents with a tree of the field and without
one, if and only if no document has points that the bytes of its words put
out of place, but for others that make up for them.** -/
theorem numeric_range_fallback_iff (chrono : Chrono DateTime) (parse : String → Option F64) :
    (∀ q : NumericRangeQuery, q.Ordered → ∀ v, NumericRangeQuery.FiniteNumeric chrono v →
      ((q.value_matches_any chrono parse v = true ↔
        ∃ x, [x] ∈ analyze_points chrono v ∧ q.in_box [x] = true) ↔ q.Agrees chrono v)) ∧
    (∀ q : NumericRangeQuery, q.Ordered → ∀ documents,
      NumericRangeQuery.FiniteField chrono q.field documents →
      ((∀ id, id ∈ q.matcher chrono parse false documents ↔
        id ∈ q.matcher chrono parse true documents) ↔ q.AgreesOn chrono documents)) ∧
    ∀ q : DateTimeRangeQuery DateTime, ∀ documents,
      NumericRangeQuery.FiniteField chrono q.field documents →
      ((∀ id, id ∈ q.matcher chrono parse false documents ↔
        id ∈ q.matcher chrono parse true documents) ↔
          (q.as_numeric chrono).AgreesOn chrono documents) :=
  ⟨fun _ hq _ hv => NumericRangeQuery.value_matches_any_eq_iff hq hv,
    fun _ hq _ hfield => NumericRangeQuery.matcher_eq_iff hq hfield,
    fun q _ hfield => NumericRangeQuery.matcher_eq_iff (q.ordered chrono) hfield⟩

/-- Date-times that are their microseconds. -/
def micros_clock : Chrono Int64 where
  year _ := 1970
  nanosecond _ := 0
  to_rfc3339 _ := ""
  parse_from_rfc3339 _ := .error "premature end of input"
  timestamp_micros micros := micros
  from_timestamp_micros micros := some micros

/-- Integers from -5 on. -/
def from_minus_five : NumericRangeQuery :=
  NumericRangeQuery.new "n" .Integer (some (F64.of_int (-5))) none true true

theorem finite_int64 (num : Int64) (h : (F64.of_int num.toInt).is_finite = true) :
    NumericRangeQuery.FiniteNumeric micros_clock (.Int64 num) := by
  refine ⟨trivial, fun x hx => ?_⟩
  simp only [analyze_points, List.mem_singleton, List.cons.injEq, and_true] at hx
  rw [hx]
  exact h

theorem ordered_from_minus_five : from_minus_five.Ordered := by
  refine ⟨fun b hb => ?_, fun b hb => ?_⟩
  · obtain rfl : decode_numeric (encode_numeric (F64.of_int (-5)) .Integer) .Integer = b :=
      Option.some.inj hb
    decide +kernel
  · exact absurd hb (Option.not_mem_none b)

theorem numeric_range_fallback_minus_six :
    (from_minus_five.value_matches_any micros_clock (fun _ => none) (.Int64 (-6)) = true ↔
        ∃ x, [x] ∈ analyze_points micros_clock (.Int64 (-6)) ∧ from_minus_five.in_box [x] = true) ↔
      from_minus_five.Agrees micros_clock (.Int64 (-6)) :=
  (numeric_range_fallback_iff micros_clock fun _ => none).1 from_minus_five ordered_from_minus_five
    (.Int64 (-6)) (finite_int64 (-6) (by decide +kernel))

/-- The bytes of 3 are before those of -5. -/
theorem numeric_range_fallback_counterexample :
    ¬∀ q : NumericRangeQuery, q.Ordered → ∀ v, NumericRangeQuery.FiniteNumeric micros_clock v →
      (q.value_matches_any micros_clock (fun _ => none) v = true ↔
        ∃ x, [x] ∈ analyze_points micros_clock v ∧ q.in_box [x] = true) := by
  intro h
  have hmatch := (h from_minus_five ordered_from_minus_five (.Int64 3)
    (finite_int64 3 (by decide +kernel))).2
      ⟨F64.of_int 3, List.mem_singleton_self _, by decide +kernel⟩
  exact absurd hmatch (by decide +kernel)

end Laurus
