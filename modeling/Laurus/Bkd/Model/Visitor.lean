import Laurus.Common.Float64
import Laurus.Storage.Model.Files

/-!
# Boxes and visitors (`structures/aabb.rs`, `structures/visitor.rs`)

A box is built by `AABB::new` alone, and so carries what that checks. The
numbers in the texts of its errors are left out.
-/

namespace Laurus

/-- `AABB`. -/
structure AABB where
  min : List F64
  max : List F64
  same_dims : min.length = max.length
  has_dims : min ≠ []
  ordered : ∀ side ∈ min.zip max, side.1.le side.2 = true

namespace AABB

/-- What the loop of `AABB::new` returns at the first side out of order. -/
def side_error (min max : List F64) : LaurusError :=
  match (min.zip max).zipIdx.find? fun side => !side.1.1.le side.1.2 with
  | some ((min, max), d) =>
    if min.is_nan || max.is_nan then LaurusError.index s!"AABB contains NaN at dimension {d}"
    else LaurusError.index s!"AABB invalid at dimension {d}"
  | none => LaurusError.index "AABB"

/-- `AABB::new`. -/
def new (min max : List F64) : Except LaurusError AABB :=
  if hdims : min.length = max.length then
    if hempty : min = [] then .error (LaurusError.index "AABB requires at least one dimension")
    else if hordered : ∀ side ∈ min.zip max, side.1.le side.2 = true then
      .ok { min, max, same_dims := hdims, has_dims := hempty, ordered := hordered }
    else .error (side_error min max)
  else .error (LaurusError.index
    s!"AABB dimension mismatch: min has {min.length} dims, max has {max.length} dims")

end AABB

/-- `CellRelation`. -/
inductive CellRelation
  | Inside
  | Outside
  | Crosses
  deriving DecidableEq, Repr

/-- `IntersectVisitor`. -/
class IntersectVisitor (V : Type) where
  compare : V → AABB → CellRelation
  visit_inside : V → UInt64 → V
  visit : V → UInt64 → List F64 → V

/-- `RangeQueryVisitor`. -/
structure RangeQueryVisitor where
  mins : List F64
  maxs : List F64
  include_min : Bool
  include_max : Bool
  hits : List UInt64
  deriving DecidableEq, Repr

namespace RangeQueryVisitor

/-- `RangeQueryVisitor::new`. -/
def new (mins maxs : List (Option F64)) (include_min include_max : Bool) : RangeQueryVisitor :=
  { mins := mins.map fun m => m.getD F64.NEG_INFINITY
    maxs := maxs.map fun m => m.getD F64.INFINITY
    include_min, include_max, hits := [] }

/-- The least number of a dimension that a visitor takes. -/
def min_at (v : RangeQueryVisitor) (d : ℕ) : F64 := v.mins.getD d default

/-- The greatest number of a dimension that a visitor takes. -/
def max_at (v : RangeQueryVisitor) (d : ℕ) : F64 := v.maxs.getD d default

/-- `lower_ok`. -/
def lower_ok (v : RangeQueryVisitor) (d : ℕ) (x : F64) : Bool :=
  if v.include_min then (v.min_at d).le x else (v.min_at d).lt x

/-- `upper_ok`. -/
def upper_ok (v : RangeQueryVisitor) (d : ℕ) (x : F64) : Bool :=
  if v.include_max then x.le (v.max_at d) else x.lt (v.max_at d)

/-- `point_matches`. -/
def point_matches (v : RangeQueryVisitor) (point : List F64) : Bool :=
  point.zipIdx.all fun coordinate =>
    v.lower_ok coordinate.2 coordinate.1 && v.upper_ok coordinate.2 coordinate.1

/-- Whether the dimension separates the cell from the query. -/
def disjoint_at (v : RangeQueryVisitor) (min max : F64) (d : ℕ) : Bool :=
  max.lt (v.min_at d) || (!v.include_min && max.le (v.min_at d)) ||
    (v.max_at d).lt min || (!v.include_max && (v.max_at d).le min)

/-- `compare`. -/
def compare (v : RangeQueryVisitor) (cell : AABB) : CellRelation :=
  if (cell.min.zip cell.max).zipIdx.any fun side => v.disjoint_at side.1.1 side.1.2 side.2 then
    .Outside
  else if (cell.min.zip cell.max).zipIdx.all fun side =>
      v.lower_ok side.2 side.1.1 && v.upper_ok side.2 side.1.2 then .Inside
  else .Crosses

/-- `visit_inside`. -/
def visit_inside (v : RangeQueryVisitor) (doc_id : UInt64) : RangeQueryVisitor :=
  { v with hits := v.hits ++ [doc_id] }

/-- `visit`. -/
def visit (v : RangeQueryVisitor) (doc_id : UInt64) (point : List F64) : RangeQueryVisitor :=
  if v.point_matches point then v.visit_inside doc_id else v

instance : IntersectVisitor RangeQueryVisitor where
  compare := compare
  visit_inside := visit_inside
  visit := visit

end RangeQueryVisitor

end Laurus
