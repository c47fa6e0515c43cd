import Mathlib.Algebra.Order.Ring.Int
import Mathlib.Order.Compare
import Mathlib.Tactic.Ring

/-!
# Doubles, and their total order

A double is its bits. `key` numbers the doubles in their total order, which
is that of the numbers, where `-0.0` comes just before `0.0`, a NaN of
negative sign before all of them and one of positive sign after. The
comparisons `<=` and `<` take the two zeros for one (`place`) and are false
of a NaN.
-/

namespace Laurus

/-- `f64`. -/
structure F64 where
  bits : UInt64
  deriving DecidableEq, Repr, Inhabited

namespace F64

variable {x y z : F64}

/-- The place of a double in the total order: `0.0` is 0, `-0.0` is -1. -/
def key (x : F64) : ℤ :=
  if x.bits.toNat < 2 ^ 63 then x.bits.toNat else 2 ^ 63 - 1 - x.bits.toNat

/-- `f64::INFINITY`. -/
def INFINITY : F64 := ⟨0x7FF0000000000000⟩

/-- `f64::NEG_INFINITY`. -/
def NEG_INFINITY : F64 := ⟨0xFFF0000000000000⟩

/-- `f64::MAX`. -/
def MAX : F64 := ⟨0x7FEFFFFFFFFFFFFF⟩

/-- `f64::MIN`. -/
def MIN : F64 := ⟨0xFFEFFFFFFFFFFFFF⟩

def is_nan (x : F64) : Bool := decide (INFINITY.key < x.key ∨ x.key < NEG_INFINITY.key)

/-- Neither infinite nor a NaN. -/
def is_finite (x : F64) : Bool := decide (NEG_INFINITY.key < x.key ∧ x.key < INFINITY.key)

/-- Where `<=` and `<` see a number: the two zeros are one. -/
def place (x : F64) : ℤ := if x.key < 0 then x.key + 1 else x.key

/-- `<=`. -/
def le (x y : F64) : Bool := !x.is_nan && !y.is_nan && decide (x.place ≤ y.place)

/-- `<`. -/
def lt (x y : F64) : Bool := !x.is_nan && !y.is_nan && decide (x.place < y.place)

def total_cmp (x y : F64) : Ordering := cmp x.key y.key

/-- `total_min`. -/
def total_min (x y : F64) : F64 := if x.key ≤ y.key then x else y

/-- `total_max`. -/
def total_max (x y : F64) : F64 := if y.key ≤ x.key then x else y

/-! ## The order of the keys -/

theorem eq_of_key (h : x.key = y.key) : x = y := by
  simp only [key] at h
  refine congrArg F64.mk (UInt64.toNat_inj.1 ?_)
  split at h <;> split at h <;> omega

theorem total_cmp_swap (x y : F64) : (x.total_cmp y).swap = y.total_cmp x := cmp_swap _ _

theorem key_total_min (x y : F64) : (x.total_min y).key ≤ x.key ∧ (x.total_min y).key ≤ y.key := by
  rw [total_min]
  split <;> omega

theorem key_total_max (x y : F64) : x.key ≤ (x.total_max y).key ∧ y.key ≤ (x.total_max y).key := by
  rw [total_max]
  split <;> omega

theorem total_min_eq (x y : F64) : x.total_min y = x ∨ x.total_min y = y := by
  rw [total_min]
  grind

theorem total_max_eq (x y : F64) : x.total_max y = x ∨ x.total_max y = y := by
  rw [total_max]
  grind

/-! ## The order of the comparisons -/

theorem place_le (h : x.key ≤ y.key) : x.place ≤ y.place := by
  rw [place, place]
  split <;> split <;> omega

theorem le_iff : x.le y = true ↔ x.is_nan = false ∧ y.is_nan = false ∧ x.place ≤ y.place := by
  simp [le, and_assoc]

theorem lt_iff : x.lt y = true ↔ x.is_nan = false ∧ y.is_nan = false ∧ x.place < y.place := by
  simp [lt, and_assoc]

theorem le_of_lt (h : x.lt y = true) : x.le y = true := by
  rw [lt_iff] at h
  exact le_iff.2 ⟨h.1, h.2.1, h.2.2.le⟩

theorem lt_of_not_le (hx : x.is_nan = false) (hy : y.is_nan = false) (h : x.le y = false) :
    y.place < x.place := by
  rw [le, hx, hy] at h
  simpa using h

theorem is_nan_of_finite (h : x.is_finite = true) : x.is_nan = false := by
  rw [is_finite, decide_eq_true_eq] at h
  rw [is_nan, decide_eq_false_iff_not]
  omega

theorem place_of_finite (h : x.is_finite = true) :
    NEG_INFINITY.place < x.place ∧ x.place < INFINITY.place := by
  have hinf : INFINITY.key = 0x7FF0000000000000 := by decide
  have hneg : NEG_INFINITY.key = -1 - 0x7FF0000000000000 := by decide
  rw [is_finite, decide_eq_true_eq, hinf, hneg] at h
  rw [place, place, place, hinf, hneg]
  split <;> omega

/-! ## The least of some doubles, and the greatest -/

/-- An operation that takes the one of two that is `R` to the other takes
the one of all. -/
theorem foldl_choice {α : Type} {R : α → α → Prop} {op : α → α → α} (hrefl : ∀ x, R x x)
    (htrans : ∀ x y z, R x y → R y z → R x z) (hop : ∀ x y, R (op x y) x ∧ R (op x y) y)
    (xs : List α) (a : α) : R (xs.foldl op a) a ∧ ∀ x ∈ xs, R (xs.foldl op a) x := by
  induction xs generalizing a with
  | nil => grind
  | cons x xs ih =>
      grind

theorem foldl_choice_mem {α : Type} {op : α → α → α} (hop : ∀ x y, op x y = x ∨ op x y = y)
    (xs : List α) (a : α) : xs.foldl op a = a ∨ xs.foldl op a ∈ xs := by
  induction xs generalizing a with
  | nil => exact Or.inl rfl
  | cons x xs ih =>
      grind

theorem foldl_total_min (xs : List F64) (a : F64) : ∀ x ∈ xs, (xs.foldl total_min a).key ≤ x.key :=
  (foldl_choice (R := fun x y : F64 => x.key ≤ y.key) (fun _ => le_refl _)
    (fun _ _ _ => le_trans) key_total_min xs a).2

theorem foldl_total_max (xs : List F64) (a : F64) : ∀ x ∈ xs, x.key ≤ (xs.foldl total_max a).key :=
  (foldl_choice (R := fun x y : F64 => y.key ≤ x.key) (fun _ => le_refl _)
    (fun _ _ _ hxy hyz => le_trans hyz hxy) key_total_max xs a).2

end F64

end Laurus
