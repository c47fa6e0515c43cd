import Laurus.Bkd.Model.Visitor
import Laurus.Common.Bytes
import Laurus.Common.Rounding
import Laurus.Common.SortDedup
import Laurus.Lexical.Model.StoredFields

/-!
# Range queries over numbers (`lexical/query/range.rs`)

A query keeps its bounds as the bytes of words. Where the reader has a BKD
tree of the field it searches that, and else the stored documents. The
number that a text spells is a parameter, and so are the date-times of
`chrono`; boosts and scores are left out.
-/

namespace Laurus

/-- `NumericType`. -/
inductive NumericType
  | Integer
  | Float
  deriving DecidableEq, Repr

/-- `encode_numeric`: `to_be_bytes` of a word. -/
def encode_numeric (value : F64) : NumericType → Bytes
  | .Integer => Bytes.ofNatBE 8 (value.to_i64 % 2 ^ 64).toNat
  | .Float => Bytes.ofNatBE 8 value.bits.toNat

/-- `from_be_bytes`, of the type's word, as a double. -/
def decode_numeric (bytes : Bytes) : NumericType → F64
  | .Integer =>
    F64.of_int (if Bytes.toNatBE bytes < 2 ^ 63 then Bytes.toNatBE bytes
      else Bytes.toNatBE bytes - 2 ^ 64)
  | .Float => ⟨UInt64.ofNat (Bytes.toNatBE bytes)⟩

/-- `NumericRangeQuery`. -/
structure NumericRangeQuery where
  field : String
  numeric_type : NumericType
  lower_bound : Option Bytes
  upper_bound : Option Bytes
  lower_inclusive : Bool
  upper_inclusive : Bool
  /-- The bounds are `encode_numeric`'s, "numeric bound must be 8 bytes". -/
  lower_encoded : ∀ bytes ∈ lower_bound, ∃ v, encode_numeric v numeric_type = bytes
  upper_encoded : ∀ bytes ∈ upper_bound, ∃ v, encode_numeric v numeric_type = bytes
  deriving DecidableEq, Repr

namespace NumericRangeQuery

/-- `NumericRangeQuery::new`. -/
def new (field : String) (numeric_type : NumericType) (lower upper : Option F64)
    (lower_inclusive upper_inclusive : Bool) : NumericRangeQuery where
  field := field
  numeric_type := numeric_type
  lower_bound := lower.map fun v => encode_numeric v numeric_type
  upper_bound := upper.map fun v => encode_numeric v numeric_type
  lower_inclusive := lower_inclusive
  upper_inclusive := upper_inclusive
  lower_encoded := by
    simp
  upper_encoded := by
    simp

/-- `contains_encoded`. -/
def contains_encoded (q : NumericRangeQuery) (encoded_value : Bytes) : Bool :=
  (q.lower_bound.all fun lower =>
    if q.lower_inclusive then !decide (encoded_value < lower) else decide (lower < encoded_value)) &&
  q.upper_bound.all fun upper =>
    if q.upper_inclusive then !decide (upper < encoded_value) else decide (encoded_value < upper)

/-- `contains_numeric`. -/
def contains_numeric (q : NumericRangeQuery) (value : F64) : Bool :=
  q.contains_encoded (encode_numeric value q.numeric_type)

/-- `min_f64`. -/
def min_f64 (q : NumericRangeQuery) : Option F64 :=
  q.lower_bound.map fun bytes => decode_numeric bytes q.numeric_type

/-- `max_f64`. -/
def max_f64 (q : NumericRangeQuery) : Option F64 :=
  q.upper_bound.map fun bytes => decode_numeric bytes q.numeric_type

end NumericRangeQuery

variable {DateTime : Type}

/-- `datetime_to_point`. -/
def datetime_to_point (chrono : Chrono DateTime) (dt : DateTime) : F64 :=
  (F64.of_int (chrono.timestamp_micros dt).toInt).div_nat 1000000

/-- `analyze_field_value`: the points of a value. -/
def analyze_points (chrono : Chrono DateTime) : DataValue DateTime → List (List F64)
  | .Int64 num => [[F64.of_int num.toInt]]
  | .Float64 num => [[⟨num⟩]]
  | .DateTime dt => [[datetime_to_point chrono dt]]
  | .Geo p => [[⟨p.lat⟩, ⟨p.lon⟩]]
  | .GeoEcef p => [[⟨p.x⟩, ⟨p.y⟩, ⟨p.z⟩]]
  | .Int64Array arr => arr.map fun num => [F64.of_int num.toInt]
  | .Float64Array arr => arr.map fun num => [⟨num⟩]
  | .GeoArray arr => arr.map fun p => [⟨p.lat⟩, ⟨p.lon⟩]
  | .GeoEcefArray arr => arr.map fun p => [⟨p.x⟩, ⟨p.y⟩, ⟨p.z⟩]
  | .DateTimeArray arr => arr.map fun dt => [datetime_to_point chrono dt]
  | _ => []

namespace NumericRangeQuery

/-- `value_matches_any`; `parse` is `str::parse::<f64>`. -/
def value_matches_any (q : NumericRangeQuery) (chrono : Chrono DateTime)
    (parse : String → Option F64) : DataValue DateTime → Bool
  | .Int64 i => q.contains_numeric (F64.of_int i.toInt)
  | .Float64 f => q.contains_numeric ⟨f⟩
  | .Int64Array arr => arr.any fun i => q.contains_numeric (F64.of_int i.toInt)
  | .Float64Array arr => arr.any fun f => q.contains_numeric ⟨f⟩
  | .DateTime dt => q.contains_numeric (datetime_to_point chrono dt)
  | .DateTimeArray arr => arr.any fun dt => q.contains_numeric (datetime_to_point chrono dt)
  | .Text s => (parse s).any q.contains_numeric
  | .TextArray arr => arr.any fun s => (parse s).any q.contains_numeric
  | _ => false

/-- The points that `range_search` gives the documents of, taken as exact. -/
def in_box (q : NumericRangeQuery) (point : List F64) : Bool :=
  (RangeQueryVisitor.new [q.min_f64] [q.max_f64] q.lower_inclusive q.upper_inclusive).point_matches
    point

/-- The matcher's fallback: the stored documents one after the other. -/
def scan (q : NumericRangeQuery) (chrono : Chrono DateTime) (parse : String → Option F64)
    (documents : StoredDocuments DateTime) : List UInt64 :=
  (documents.entries.filter fun doc =>
    (doc.2.lookup q.field).any (q.value_matches_any chrono parse)).map fun doc => doc.1

/-- The BKD tree of a field: the points of the documents. -/
def bkd_tree (chrono : Chrono DateTime) (field : String) (documents : StoredDocuments DateTime) :
    List (UInt64 × List F64) :=
  documents.entries.flatMap fun doc =>
    ((doc.2.lookup field).elim [] (analyze_points chrono)).map fun point => (doc.1, point)

/-- `range_search`, taken as exact. -/
def range_search (q : NumericRangeQuery) (tree : List (UInt64 × List F64)) : List UInt64 :=
  (((tree.filter fun entry => q.in_box entry.2).map fun entry => entry.1).insertionSort
    (· ≤ ·)).dedup

/-- `matcher`: the ids that it is made of, for a reader with a tree of the
field or without one. -/
def matcher (q : NumericRangeQuery) (chrono : Chrono DateTime) (parse : String → Option F64)
    (has_tree : Bool) (documents : StoredDocuments DateTime) : List UInt64 :=
  if has_tree then q.range_search (bkd_tree chrono q.field documents)
  else q.scan chrono parse documents

end NumericRangeQuery

/-- `DateTimeRangeQuery`. -/
structure DateTimeRangeQuery (DateTime : Type) where
  field : String
  lower_bound : Option DateTime
  upper_bound : Option DateTime
  lower_inclusive : Bool
  upper_inclusive : Bool

namespace DateTimeRangeQuery

/-- `min_point`. -/
def min_point (q : DateTimeRangeQuery DateTime) (chrono : Chrono DateTime) : Option F64 :=
  q.lower_bound.map (datetime_to_point chrono)

/-- `max_point`. -/
def max_point (q : DateTimeRangeQuery DateTime) (chrono : Chrono DateTime) : Option F64 :=
  q.upper_bound.map (datetime_to_point chrono)

/-- `as_numeric`. -/
def as_numeric (q : DateTimeRangeQuery DateTime) (chrono : Chrono DateTime) : NumericRangeQuery :=
  NumericRangeQuery.new q.field .Float (q.min_point chrono) (q.max_point chrono) q.lower_inclusive
    q.upper_inclusive

/-- `matcher`. -/
def matcher (q : DateTimeRangeQuery DateTime) (chrono : Chrono DateTime)
    (parse : String → Option F64) (has_tree : Bool) (documents : StoredDocuments DateTime) :
    List UInt64 :=
  (q.as_numeric chrono).matcher chrono parse has_tree documents

end DateTimeRangeQuery

end Laurus
