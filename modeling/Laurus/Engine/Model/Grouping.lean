import Laurus.Search.Model.FieldSort

/-!
# Result grouping (`engine/grouping.rs`)

A `DateTime` is its nanoseconds since the epoch. The check of a request
against the schema is left out but for its bounds, and so are the stores
behind a round.
-/

namespace Laurus

/-- `==` of `f64`. -/
def F64.eq (x y : F64) : Bool := !x.is_nan && !y.is_nan && decide (x.place = y.place)

/-- `f64::NAN`. -/
def F64.NAN : F64 := ⟨0x7FF8000000000000⟩

/-- `timestamp_micros`. -/
def timestamp_micros (t : ℤ) : ℤ := t / 1000

/-- `usize::saturating_mul` and `usize::saturating_add`, at most `usize::MAX`. -/
def usize_saturate (n : ℕ) : ℕ := min n (2 ^ 64 - 1)

namespace Grouping

/-- `GroupBy::MAX_GROUP_SIZE`. -/
def MAX_GROUP_SIZE : ℕ := 100

/-- `GroupBy::MAX_CANDIDATES`. -/
def MAX_CANDIDATES : ℕ := 10000

/-! ## The rounds -/

/-- `first_request`. -/
def first_request (needed group_size : ℕ) : ℕ :=
  min (max (usize_saturate (usize_saturate (needed * group_size) * 2)) 1) MAX_CANDIDATES

/-- `next_request`. -/
def next_request (fetch_count : ℕ) : Option ℕ :=
  if fetch_count < MAX_CANDIDATES then some (min (usize_saturate (fetch_count * 2)) MAX_CANDIDATES)
  else none

/-- `ListCount`. -/
structure ListCount where
  requested : ℕ
  returned : ℕ
  deriving DecidableEq, Repr

/-- `first_stage_exhausted`. -/
def first_stage_exhausted (lexical vector previous_vector : Option ListCount) : Bool :=
  let lexical_done := lexical.all fun list => list.returned < list.requested
  let vector_done := vector.all fun list =>
    list.returned < list.requested &&
      previous_vector.any fun previous => list.returned ≤ previous.returned
  lexical_done && vector_done

/-! ## The groups -/

/-- `Group`. -/
structure Group (𝕜 : Type) where
  key : Option FieldValue
  hits : List (ℕ × 𝕜)

/-- `GroupKey`. -/
inductive GroupKey
  | Text (text : String)
  | Int (value : ℤ)
  | Float (bits : UInt64)
  | Bool (value : Bool)
  | DateTime (micros : ℤ)
  deriving DecidableEq, Repr

/-- `GroupKey::of`. -/
def GroupKey.of : FieldValue → Option GroupKey
  | .text text => some (.Text text)
  | .int64 value => some (.Int value)
  | .float64 value => some (.Float (
      if value.eq ⟨0⟩ then 0
      else if value.is_nan then F64.NAN.bits
      else value.bits))
  | .bool value => some (.Bool value)
  | .datetime t => some (.DateTime (timestamp_micros t))
  | _ => none

/-- The group values of the hits: of a document that is in the map, its
value, if it has one. -/
abbrev Keys := ℕ → Option (Option FieldValue)

/-- The value that a document is looked up with. -/
def value_of (keys : Keys) (doc_id : ℕ) : Option FieldValue := (keys doc_id).join

/-- Its key. -/
def key_of (keys : Keys) (doc_id : ℕ) : Option GroupKey := (value_of keys doc_id).bind GroupKey.of

/-- The groups, and where that of a key is. -/
structure Folded (𝕜 : Type) where
  groups : List (Group 𝕜)
  index : GroupKey → Option ℕ

variable {𝕜 : Type}

/-- A hit of a group that there is. -/
def Folded.join (f : Folded 𝕜) (group_size i : ℕ) (hit : ℕ × 𝕜) : Folded 𝕜 :=
  { f with groups := f.groups.modify i fun group =>
      if group.hits.length < group_size then { group with hits := group.hits ++ [hit] }
      else group }

/-- A hit that no group has the key of. -/
def Folded.open_group (f : Folded 𝕜) (keys : Keys) (hit : ℕ × 𝕜) : Folded 𝕜 :=
  match key_of keys hit.1 with
  | some key =>
    { index := Function.update f.index key (some f.groups.length)
      groups := f.groups ++ [{ key := value_of keys hit.1, hits := [hit] }] }
  | none => { f with groups := f.groups ++ [{ key := none, hits := [hit] }] }

/-- One hit. -/
def fold_hit (keys : Keys) (group_size needed : ℕ) (f : Folded 𝕜) (hit : ℕ × 𝕜) : Folded 𝕜 :=
  match (key_of keys hit.1).bind f.index with
  | some i => f.join group_size i hit
  | none => if f.groups.length = needed then f else f.open_group keys hit

/-- `group_ranked`. -/
def group_ranked (ranked : List (ℕ × 𝕜)) (keys : Keys) (group_size needed : ℕ) :
    List (Group 𝕜) :=
  (ranked.foldl (fold_hit keys group_size needed) { groups := [], index := fun _ => none }).groups

end Grouping

end Laurus
