import Laurus.Common.EditScript
import Mathlib.Data.List.Basic

/-!
# The distances, whole and bounded

A cell of the table is the distance of two starts of the strings
(`start_distance`). The rows that are filled hold it (`IsRow`), in the whole
table as in the few rows that the bounded forms keep; and no row below one
that is over the threshold comes back to it (`over_threshold_mono`), though a
transposition reaches two rows up.
-/

namespace Laurus

/-!
## Edit distances (`util/levenshtein.rs`)

A string is its characters. A row of a table is a buffer that is written from
left to right; what was in a buffer before stays where it is not written.
-/

namespace Levenshtein

variable (s1_chars s2_chars : List Char)

/-- `cost`. -/
def cost (i j : ℕ) : ℕ :=
  if s1_chars.getD (i - 1) default = s2_chars.getD (j - 1) default then 0 else 1

/-- A cell, from the one above, the row so far and the row above. -/
def cell (prev_row curr_row : List ℕ) (i j : ℕ) : ℕ :=
  min (min (prev_row.getD j 0 + 1) (curr_row.getD (j - 1) 0 + 1))
    (prev_row.getD (j - 1) 0 + cost s1_chars s2_chars i j)

/-- The check for a transposition. -/
def transposed (i j : ℕ) : Bool :=
  1 < i ∧ 1 < j ∧ s1_chars.getD (i - 1) default = s2_chars.getD (j - 2) default ∧
    s1_chars.getD (i - 2) default = s2_chars.getD (j - 1) default

/-- A cell with transpositions, from two rows above. -/
def damerau_cell (prev2_row prev_row curr_row : List ℕ) (i j : ℕ) : ℕ :=
  let distance := cell s1_chars s2_chars prev_row curr_row i j
  if transposed s1_chars s2_chars i j then
    min distance (prev2_row.getD (j - 2) 0 + cost s1_chars s2_chars i j)
  else distance

/-! ## The whole table -/

/-- The table before it is filled. -/
def initial_matrix (len1 len2 : ℕ) : List (List ℕ) :=
  (List.range (len1 + 1)).map fun i =>
    if i = 0 then List.range (len2 + 1) else i :: List.replicate len2 0

/-- The loop over a row. -/
def fill_row (cell : List ℕ → ℕ → ℕ) (len2 : ℕ) (row : List ℕ) : List ℕ :=
  (List.range' 1 len2).foldl (fun row j => row.set j (cell row j)) row

/-- The loop over the rows, each from those before it. -/
def fill_matrix (cell : List (List ℕ) → ℕ → List ℕ → ℕ → ℕ) (len1 len2 : ℕ) : List (List ℕ) :=
  (List.range' 1 len1).foldl
    (fun matrix i => matrix.set i (fill_row (cell matrix i) len2 (matrix.getD i [])))
    (initial_matrix len1 len2)

/-- `levenshtein_distance`. -/
def levenshtein_distance (s1 s2 : String) : ℕ :=
  let len1 := s1.toList.length
  let len2 := s2.toList.length
  if len1 = 0 then len2
  else if len2 = 0 then len1
  else
    let matrix := fill_matrix
      (fun matrix i row j => cell s1.toList s2.toList (matrix.getD (i - 1) []) row i j) len1 len2
    (matrix.getD len1 []).getD len2 0

/-- `damerau_levenshtein_distance`. -/
def damerau_levenshtein_distance (s1 s2 : String) : ℕ :=
  let len1 := s1.toList.length
  let len2 := s2.toList.length
  if len1 = 0 then len2
  else if len2 = 0 then len1
  else
    let matrix := fill_matrix
      (fun matrix i row j => damerau_cell s1.toList s2.toList (matrix.getD (i - 2) [])
        (matrix.getD (i - 1) []) row i j) len1 len2
    (matrix.getD len1 []).getD len2 0

/-! ## A few rows -/

/-- The loop over a row, with the least that was written. -/
def fill_row_min (cell : List ℕ → ℕ → ℕ) (len2 i : ℕ) (row : List ℕ) : List ℕ × ℕ :=
  (List.range' 1 len2).foldl
    (fun filled j =>
      let row := filled.1.set j (cell filled.1 j)
      (row, min filled.2 (row.getD j 0)))
    (row.set 0 i, i)

/-- The rows of `levenshtein_distance_threshold`: the last of them. -/
def threshold_rows (len2 threshold : ℕ) : List ℕ → List ℕ → List ℕ → Option (List ℕ)
  | [], prev_row, _ => some prev_row
  | i :: is, prev_row, curr_row =>
    let filled :=
      fill_row_min (fun row j => cell s1_chars s2_chars prev_row row i j) len2 i curr_row
    if threshold < filled.2 then none
    else threshold_rows len2 threshold is filled.1 prev_row

/-- The rows of `damerau_levenshtein_distance_threshold`: the last of them. -/
def damerau_threshold_rows (len2 threshold : ℕ) :
    List ℕ → List ℕ → List ℕ → List ℕ → Option (List ℕ)
  | [], _, prev_row, _ => some prev_row
  | i :: is, prev2_row, prev_row, curr_row =>
    let filled := fill_row_min
      (fun row j => damerau_cell s1_chars s2_chars prev2_row prev_row row i j) len2 i curr_row
    if threshold < filled.2 then none
    -- `prev2_row` and `prev_row` are swapped, then `prev_row` and `curr_row`
    else damerau_threshold_rows len2 threshold is prev_row filled.1 prev2_row

/-- A distance that is no more than the threshold. -/
def within (threshold distance : ℕ) : Option ℕ :=
  if distance ≤ threshold then some distance else none

/-- `levenshtein_distance_threshold`. -/
def levenshtein_distance_threshold (s1 s2 : String) (threshold : ℕ) : Option ℕ :=
  let len1 := s1.toList.length
  let len2 := s2.toList.length
  if threshold < max (len1 - len2) (len2 - len1) then none
  else if len1 = 0 then within threshold len2
  else if len2 = 0 then within threshold len1
  else
    (threshold_rows s1.toList s2.toList len2 threshold (List.range' 1 len1) (List.range (len2 + 1))
      (List.replicate (len2 + 1) 0)).bind fun prev_row => within threshold (prev_row.getD len2 0)

/-- `damerau_levenshtein_distance_threshold`. -/
def damerau_levenshtein_distance_threshold (s1 s2 : String) (threshold : ℕ) : Option ℕ :=
  let len1 := s1.toList.length
  let len2 := s2.toList.length
  if threshold < max (len1 - len2) (len2 - len1) then none
  else if len1 = 0 then within threshold len2
  else if len2 = 0 then within threshold len1
  else
    (damerau_threshold_rows s1.toList s2.toList len2 threshold (List.range' 1 len1)
      (List.replicate (len2 + 1) 0) (List.range (len2 + 1)) (List.replicate (len2 + 1) 0)).bind
        fun prev_row => within threshold (prev_row.getD len2 0)

end Levenshtein

namespace Levenshtein

open EditScript

variable {swaps : Bool} {a b : List Char} {i j k len1 len2 : ℕ}

/-! ## The distance of two starts -/

/-- The distance of the first `i` characters of one string to the first `j`
of another. -/
noncomputable def start_distance (swaps : Bool) (a b : List Char) (i j : ℕ) : ℕ :=
  distance swaps (a.take i).reverse (b.take j).reverse

theorem start_distance_length (swaps : Bool) (a b : List Char) :
    start_distance swaps a b a.length b.length = distance swaps a b := by
  rw [start_distance, List.take_length, List.take_length, distance_reverse]

theorem start_distance_zero_left (hj : j ≤ b.length) : start_distance swaps a b 0 j = j := by
  simp [start_distance, hj]

theorem start_distance_zero_right (hi : i ≤ a.length) : start_distance swaps a b i 0 = i := by
  simp [start_distance, hi]

theorem reverse_take_succ (hi : i < a.length) :
    (a.take (i + 1)).reverse = a.getD i default :: (a.take i).reverse := by
  rw [List.take_succ_eq_append_getElem hi, List.reverse_append, List.reverse_singleton,
    List.singleton_append, List.getD_eq_getElem?_getD, List.getElem?_eq_getElem hi,
    Option.getD_some]

/-- **A cell of the table**, from the three next to it and the one that a
transposition reaches. -/
theorem start_distance_succ (hi : i < a.length) (hj : j < b.length) :
    start_distance swaps a b (i + 1) (j + 1) =
      if swaps = true ∧ transposed a b (i + 1) (j + 1) = true then
        min (min (min (start_distance swaps a b i (j + 1) + 1)
          (start_distance swaps a b (i + 1) j + 1))
          (start_distance swaps a b i j + cost a b (i + 1) (j + 1)))
          (start_distance swaps a b (i - 1) (j - 1) + cost a b (i + 1) (j + 1))
      else
        min (min (start_distance swaps a b i (j + 1) + 1)
          (start_distance swaps a b (i + 1) j + 1))
          (start_distance swaps a b i j + cost a b (i + 1) (j + 1)) := by
  have hleft := reverse_take_succ hi
  have hright := reverse_take_succ hj
  by_cases hswap : swaps = true ∧ transposed a b (i + 1) (j + 1) = true
  · rw [if_pos hswap]
    obtain ⟨rfl, htransposed⟩ := hswap
    simp only [transposed, Bool.decide_and, Bool.and_eq_true, decide_eq_true_eq] at htransposed
    obtain ⟨hi1, hj1, hxy, hyx⟩ := htransposed
    rcases i with _ | i
    · exact absurd hi1 (lt_irrefl 1)
    rcases j with _ | j
    · exact absurd hj1 (lt_irrefl 1)
    have hleft' := reverse_take_succ (Nat.lt_of_succ_lt hi)
    have hright' := reverse_take_succ (Nat.lt_of_succ_lt hj)
    simp only [Nat.add_sub_cancel, show j + 1 + 1 - 2 = j by omega,
      show i + 1 + 1 - 2 = i by omega] at hxy hyx
    simp only [start_distance, hleft, hright, hleft', hright', Nat.add_sub_cancel]
    rw [← hxy, hyx]
    exact distance_swap _ _ _ _
  · rw [if_neg hswap]
    simp only [start_distance, hleft, hright]
    refine distance_cons_cons fun hswaps xs' ys' hxs hys => hswap ⟨hswaps, ?_⟩
    -- the starts end in the characters the other way round
    rcases i with _ | i
    · grind
    rcases j with _ | j
    · grind
    rw [reverse_take_succ (Nat.lt_of_succ_lt hi)] at hxs
    rw [reverse_take_succ (Nat.lt_of_succ_lt hj)] at hys
    simp only [transposed, Bool.decide_and, Bool.and_eq_true, decide_eq_true_eq,
      Nat.add_sub_cancel, show j + 1 + 1 - 2 = j by omega, show i + 1 + 1 - 2 = i by omega]
    grind

/-! ## What a threshold rules out -/

theorem start_distance_diagonal_le (hi : i < a.length) (hj : j < b.length) :
    start_distance swaps a b (i + 1) (j + 1) ≤
      start_distance swaps a b i j + cost a b (i + 1) (j + 1) := by
  simp only [start_distance, reverse_take_succ hi, reverse_take_succ hj]
  exact distance_cons_cons_le _ _ _ _ _

/-- A row over the threshold. -/
def OverRow (swaps : Bool) (a b : List Char) (threshold i : ℕ) : Prop :=
  ∀ j ≤ b.length, threshold < start_distance swaps a b i j

variable {threshold : ℕ} {row : List ℕ}

/-- What a transposition adds to is over the threshold, or as much as it and
the transposition costs one: it is no less than what is above. -/
theorem transposed_over (hi : i + 1 < a.length) (hj : j + 1 < b.length)
    (hover : OverRow swaps a b threshold (i + 1))
    (htransposed : transposed a b (i + 2) (j + 2) = true) :
    threshold < start_distance swaps a b i j + cost a b (i + 2) (j + 2) := by
  simp only [transposed, Bool.decide_and, Bool.and_eq_true, decide_eq_true_eq] at htransposed
  obtain ⟨-, -, hxy, hyx⟩ := htransposed
  rw [cost]
  split
  · -- the four characters are one
    rename_i heq
    have hdiagonal : start_distance swaps a b (i + 1) (j + 1) ≤
        start_distance swaps a b i j + cost a b (i + 1) (j + 1) :=
      start_distance_diagonal_le (by omega) (by omega)
    have hcost : cost a b (i + 1) (j + 1) = 0 := by
      rw [cost, if_pos]
      exact hyx.trans (heq.symm.trans hxy)
    have hbelow := hover (j + 1) (by omega)
    omega
  · have hbelow := hover j (by omega)
    grind [start_distance, reverse_take_succ, distance_cons_left_le]

/-- **No row below comes back.** -/
theorem OverRow.succ (hi : i < a.length) (hover : OverRow swaps a b threshold i)
    (habove : OverRow swaps a b threshold (i - 1) ∨ ∀ j, 0 < i → 0 < j → j < b.length →
      transposed a b (i + 1) (j + 1) = true →
        threshold < start_distance swaps a b (i - 1) (j - 1) + cost a b (i + 1) (j + 1)) :
    OverRow swaps a b threshold (i + 1) := by
  intro j
  induction j with
  | zero =>
      intro _
      have hzero := hover 0 (Nat.zero_le _)
      rw [start_distance_zero_right (by omega)] at hzero ⊢
      omega
  | succ j ih =>
      intro hj
      have hup := hover (j + 1) hj
      have hdiagonal := hover j (by omega)
      rw [start_distance_succ hi hj]
      split
      · rename_i hswap
        have hplaces : 0 < i ∧ 0 < j := by
          have htransposed := hswap.2
          simp only [transposed, Bool.decide_and, Bool.and_eq_true,
            decide_eq_true_eq] at htransposed
          omega
        have htwo : threshold < start_distance swaps a b (i - 1) (j - 1) +
            cost a b (i + 1) (j + 1) := by
          rcases habove with habove | habove
          · have := habove (j - 1) (by omega)
            omega
          grind
        omega
      · omega

/-- **Once over the threshold**, every row below is. -/
theorem over_threshold_mono (hover : OverRow swaps a b threshold i) :
    ∀ n, i + n ≤ a.length → OverRow swaps a b threshold (i + n) := by
  have hboth : ∀ n, i + n ≤ a.length → OverRow swaps a b threshold (i + n) ∧
      (i + n + 1 ≤ a.length → OverRow swaps a b threshold (i + n + 1)) := by
    intro n
    induction n with
    | zero =>
        refine fun _ => ⟨hover, fun hi => hover.succ (by omega) (Or.inr ?_)⟩
        intro j hi' hj' hj htransposed
        obtain ⟨i, rfl⟩ := Nat.exists_eq_add_one_of_ne_zero hi'.ne'
        obtain ⟨j, rfl⟩ := Nat.exists_eq_add_one_of_ne_zero hj'.ne'
        exact transposed_over (by omega) hj hover htransposed
    | succ n ih =>
        intro hi
        obtain ⟨hrow, hnext⟩ := ih (by omega)
        grind [OverRow.succ]
  exact fun n hn => (hboth n hn).1

/-! ## Filling a row -/

/-- A row that holds the distances. -/
structure IsRow (swaps : Bool) (a b : List Char) (i : ℕ) (row : List ℕ) : Prop where
  length_eq : row.length = b.length + 1
  getD_eq : ∀ j ≤ b.length, row.getD j 0 = start_distance swaps a b i j

/-- A row that holds the distances up to a place. -/
structure Filled (swaps : Bool) (a b : List Char) (i j : ℕ) (row : List ℕ) : Prop where
  length_eq : row.length = b.length + 1
  getD_eq : ∀ k ≤ j, row.getD k 0 = start_distance swaps a b i k

theorem getD_set (hj : j < row.length) (v k : ℕ) :
    (row.set j v).getD k 0 = if j = k then v else row.getD k 0 := by grind

/-- What is written next is the distance. -/
def Computes (swaps : Bool) (a b : List Char) (i : ℕ) (cell : List ℕ → ℕ → ℕ) : Prop :=
  ∀ row j, j < b.length → Filled swaps a b i j row →
    cell row (j + 1) = start_distance swaps a b i (j + 1)

theorem Filled.set {v : ℕ} (h : Filled swaps a b i j row) (hj : j < b.length)
    (hv : v = start_distance swaps a b i (j + 1)) :
    Filled swaps a b i (j + 1) (row.set (j + 1) v) := by
  have hlen := h.length_eq
  refine ⟨(List.length_set).trans hlen, fun k hk => ?_⟩
  grind [getD_set, getD_eq]

/-- **The loop over a row** writes the distances, and the least of them. -/
theorem fill_row_min_spec {cell : List ℕ → ℕ → ℕ} (hi : i ≤ a.length)
    (hrow : row.length = b.length + 1) (hcell : Computes swaps a b i cell) (threshold : ℕ) :
    IsRow swaps a b i (fill_row_min cell b.length i row).1 ∧
      (threshold < (fill_row_min cell b.length i row).2 ↔ OverRow swaps a b threshold i) := by
  have hfold : ∀ n ≤ b.length,
      Filled swaps a b i n ((List.range' 1 n).foldl (fun filled j =>
        let row := filled.1.set j (cell filled.1 j)
        (row, min filled.2 (row.getD j 0))) (row.set 0 i, i)).1 ∧
      (threshold < ((List.range' 1 n).foldl (fun filled j =>
        let row := filled.1.set j (cell filled.1 j)
        (row, min filled.2 (row.getD j 0))) (row.set 0 i, i)).2 ↔
          ∀ j ≤ n, threshold < start_distance swaps a b i j) := by
    intro n
    induction n with
    | zero =>
        intro _
        have hzero : start_distance swaps a b i 0 = i := start_distance_zero_right hi
        refine ⟨⟨List.length_set.trans hrow, fun k hk => ?_⟩, ?_⟩
        · grind
        grind
    | succ n ih =>
        intro hn
        obtain ⟨hfilled, hmin⟩ := ih (by omega)
        rw [List.range'_concat, List.foldl_append, List.foldl_cons, List.foldl_nil, Nat.mul_comm,
          Nat.mul_one, Nat.add_comm 1 n]
        generalize (List.range' 1 n).foldl (fun filled j =>
          let row := filled.1.set j (cell filled.1 j)
          (row, min filled.2 (row.getD j 0))) (row.set 0 i, i) = filled at hfilled hmin
        have hlen := hfilled.length_eq
        have hv := hcell filled.1 n hn hfilled
        grind [Filled.set]
  obtain ⟨hfilled, hmin⟩ := hfold b.length le_rfl
  exact ⟨⟨hfilled.length_eq, hfilled.getD_eq⟩, hmin⟩

theorem fill_row_min_fst (cell : List ℕ → ℕ → ℕ) (len2 : ℕ) (row : List ℕ) :
    (fill_row_min cell len2 i row).1 = fill_row cell len2 (row.set 0 i) := by
  have hfold : ∀ (js : List ℕ) (filled : List ℕ × ℕ),
      (js.foldl (fun filled j =>
        let row := filled.1.set j (cell filled.1 j)
        (row, min filled.2 (row.getD j 0))) filled).1 =
      js.foldl (fun row j => row.set j (cell row j)) filled.1 := by
    intro js
    induction js with
    | nil => exact fun _ => rfl
    | cons j js ih => exact fun filled => ih _
  exact hfold _ _

theorem fill_row_spec {cell : List ℕ → ℕ → ℕ} (hi : i ≤ a.length)
    (hrow : row.length = b.length + 1) (hzero : row.getD 0 0 = i)
    (hcell : Computes swaps a b i cell) : IsRow swaps a b i (fill_row cell b.length row) := by
  have hspec := (fill_row_min_spec hi hrow hcell 0).1
  have hset : row.set 0 i = row := by
    rcases row with _ | ⟨v, row⟩
    · rfl
    grind
  rw [fill_row_min_fst, hset] at hspec
  exact hspec

/-! ## The cells -/

theorem computes_cell {prev_row : List ℕ} (hi : i < a.length)
    (hprev : IsRow false a b i prev_row) :
    Computes false a b (i + 1) fun row j => cell a b prev_row row (i + 1) j := by
  intro row j hj hfilled
  have hno : ¬ (false = true ∧ transposed a b (i + 1) (j + 1) = true) :=
    fun h => Bool.false_ne_true h.1
  rw [start_distance_succ hi hj, if_neg hno]
  grind [cell, IsRow.getD_eq, Filled.getD_eq]

theorem computes_damerau_cell {prev2_row prev_row : List ℕ} (hi : i < a.length)
    (hprev2 : 0 < i → IsRow true a b (i - 1) prev2_row) (hprev : IsRow true a b i prev_row) :
    Computes true a b (i + 1) fun row j => damerau_cell a b prev2_row prev_row row (i + 1) j := by
  intro row j hj hfilled
  have hcell : cell a b prev_row row (i + 1) (j + 1) =
      min (min (start_distance true a b i (j + 1) + 1) (start_distance true a b (i + 1) j + 1))
        (start_distance true a b i j + cost a b (i + 1) (j + 1)) := by
    grind [cell, IsRow.getD_eq, Filled.getD_eq]
  rw [start_distance_succ hi hj]
  simp only [damerau_cell, hcell, true_and]
  split
  · rename_i htransposed
    have hplaces : 0 < i := by
      simp only [transposed, Bool.decide_and, Bool.and_eq_true, decide_eq_true_eq] at htransposed
      omega
    rw [show j + 1 - 2 = j - 1 by omega, (hprev2 hplaces).getD_eq (j - 1) (by omega)]
  · rfl

/-! ## The whole table -/

theorem isRow_zero (swaps : Bool) (a b : List Char) :
    IsRow swaps a b 0 (List.range (b.length + 1)) := by
  refine ⟨List.length_range, fun j hj => ?_⟩
  rw [start_distance_zero_left hj, List.getD_eq_getElem?_getD, List.getElem?_range (by omega)]
  rfl

/-- A table whose first rows hold the distances, the others as they were. -/
structure FilledRows (swaps : Bool) (a b : List Char) (n : ℕ) (matrix : List (List ℕ)) :
    Prop where
  length_eq : matrix.length = a.length + 1
  rows : ∀ i ≤ n, IsRow swaps a b i (matrix.getD i [])
  initial : ∀ i, n < i → i ≤ a.length → matrix.getD i [] = i :: List.replicate b.length 0

theorem filledRows_initial (swaps : Bool) (a b : List Char) :
    FilledRows swaps a b 0 (initial_matrix a.length b.length) := by
  have hget : ∀ i ≤ a.length, (initial_matrix a.length b.length).getD i [] =
      if i = 0 then List.range (b.length + 1) else i :: List.replicate b.length 0 := by
    intro i hi
    rw [initial_matrix, List.getD_eq_getElem?_getD, List.getElem?_map,
      List.getElem?_range (by omega)]
    rfl
  refine ⟨(List.length_map _).trans List.length_range, fun i hi => ?_, fun i hi hle => ?_⟩
  · obtain rfl : i = 0 := by omega
    rw [hget 0 (Nat.zero_le _), if_pos rfl]
    exact isRow_zero swaps a b
  · rw [hget i hle, if_neg (by omega)]

/-- **The loop over the rows** fills the table with the distances. -/
theorem fill_matrix_spec {cell : List (List ℕ) → ℕ → List ℕ → ℕ → ℕ}
    (hcell : ∀ i matrix, i < a.length → FilledRows swaps a b i matrix →
      Computes swaps a b (i + 1) (cell matrix (i + 1))) :
    ((fill_matrix cell a.length b.length).getD a.length []).getD b.length 0 =
      distance swaps a b := by
  have hfold : ∀ n ≤ a.length, FilledRows swaps a b n ((List.range' 1 n).foldl
      (fun matrix i => matrix.set i (fill_row (cell matrix i) b.length (matrix.getD i [])))
      (initial_matrix a.length b.length)) := by
    intro n
    induction n with
    | zero => exact fun _ => filledRows_initial swaps a b
    | succ n ih =>
        intro hn
        have hrows := ih (by omega)
        rw [List.range'_concat, List.foldl_append, List.foldl_cons, List.foldl_nil, Nat.mul_comm,
          Nat.mul_one, Nat.add_comm 1 n]
        generalize (List.range' 1 n).foldl (fun matrix i =>
          matrix.set i (fill_row (cell matrix i) b.length (matrix.getD i [])))
          (initial_matrix a.length b.length) = matrix at hrows
        have hlen := hrows.length_eq
        have hinitial := hrows.initial (n + 1) (by omega) hn
        have hfilled : IsRow swaps a b (n + 1)
            (fill_row (cell matrix (n + 1)) b.length (matrix.getD (n + 1) [])) :=
          fill_row_spec hn (by rw [hinitial]; simp) (by rw [hinitial]; rfl)
            (hcell n matrix hn hrows)
        have hget : ∀ i, (matrix.set (n + 1)
            (fill_row (cell matrix (n + 1)) b.length (matrix.getD (n + 1) []))).getD i [] =
            if n + 1 = i then fill_row (cell matrix (n + 1)) b.length (matrix.getD (n + 1) [])
            else matrix.getD i [] := by grind
        refine ⟨List.length_set.trans hlen, fun i hi => ?_, fun i hi hle => ?_⟩
        · grind [FilledRows.rows]
        · rw [hget, if_neg (by omega)]
          exact hrows.initial i (by omega) hle
  have hlast := (hfold a.length le_rfl).rows a.length le_rfl
  rw [← start_distance_length]
  exact hlast.getD_eq b.length le_rfl

/-- **The Levenshtein distance.** -/
theorem levenshtein_distance_eq (s1 s2 : String) :
    levenshtein_distance s1 s2 = distance false s1.toList s2.toList := by
  rw [levenshtein_distance]
  split
  · rename_i hnil
    rw [List.length_eq_zero_iff.1 hnil, distance_nil_left]
  · split
    · rename_i hnil
      rw [List.length_eq_zero_iff.1 hnil, distance_nil_right]
    · exact fill_matrix_spec fun i matrix hi hrows => computes_cell hi (hrows.rows i le_rfl)

/-- **The Damerau-Levenshtein distance.** -/
theorem damerau_levenshtein_distance_eq (s1 s2 : String) :
    damerau_levenshtein_distance s1 s2 = distance true s1.toList s2.toList := by
  rw [damerau_levenshtein_distance]
  split
  · rename_i hnil
    rw [List.length_eq_zero_iff.1 hnil, distance_nil_left]
  · split
    · rename_i hnil
      rw [List.length_eq_zero_iff.1 hnil, distance_nil_right]
    · refine fill_matrix_spec fun i matrix hi hrows => ?_
      have hplace : i + 1 - 2 = i - 1 := by omega
      rw [hplace]
      exact computes_damerau_cell hi (fun _ => hrows.rows (i - 1) (by omega))
        (hrows.rows i le_rfl)

/-! ## A few rows -/

/-- What the rows come to: the last row, or a distance over the threshold. -/
def Bounded (swaps : Bool) (a b : List Char) (threshold : ℕ) (rows : Option (List ℕ)) : Prop :=
  (∀ row, rows = some row → IsRow swaps a b a.length row) ∧
    (rows = none → threshold < distance swaps a b)

theorem bounded_none {n : ℕ} (hover : OverRow swaps a b threshold i)
    (hn : i + n = a.length) : Bounded swaps a b threshold none := by
  refine ⟨fun row h => (by cases h), fun _ => ?_⟩
  have hlast := over_threshold_mono hover n hn.le b.length le_rfl
  rw [hn, start_distance_length] at hlast
  exact hlast

theorem threshold_rows_spec (threshold : ℕ) :
    ∀ (n i : ℕ) (prev_row curr_row : List ℕ), i + n = a.length → IsRow false a b i prev_row →
      curr_row.length = b.length + 1 →
      Bounded false a b threshold
        (threshold_rows a b b.length threshold (List.range' (i + 1) n) prev_row curr_row) := by
  intro n
  induction n with
  | zero =>
      rintro i prev_row curr_row rfl hprev -
      exact ⟨fun row h => Option.some.inj h ▸ hprev, fun h => (by cases h)⟩
  | succ n ih =>
      intro i prev_row curr_row hn hprev hcurr
      rw [List.range'_succ, threshold_rows]
      obtain ⟨hrow, hmin⟩ := fill_row_min_spec (by omega) hcurr (computes_cell (by omega) hprev)
        threshold
      split
      · rename_i hover
        exact bounded_none (n := n) (hmin.1 hover) (by omega)
      · exact ih (i + 1) _ prev_row (by omega) hrow hprev.length_eq

theorem damerau_threshold_rows_spec (threshold : ℕ) :
    ∀ (n i : ℕ) (prev2_row prev_row curr_row : List ℕ), i + n = a.length →
      prev2_row.length = b.length + 1 → (0 < i → IsRow true a b (i - 1) prev2_row) →
      IsRow true a b i prev_row → curr_row.length = b.length + 1 →
      Bounded true a b threshold (damerau_threshold_rows a b b.length threshold
        (List.range' (i + 1) n) prev2_row prev_row curr_row) := by
  intro n
  induction n with
  | zero =>
      rintro i prev2_row prev_row curr_row rfl - - hprev -
      exact ⟨fun row h => Option.some.inj h ▸ hprev, fun h => (by cases h)⟩
  | succ n ih =>
      intro i prev2_row prev_row curr_row hn hlen2 hprev2 hprev hcurr
      rw [List.range'_succ, damerau_threshold_rows]
      obtain ⟨hrow, hmin⟩ := fill_row_min_spec (by omega) hcurr
        (computes_damerau_cell (by omega) hprev2 hprev) threshold
      split
      · rename_i hover
        exact bounded_none (n := n) (hmin.1 hover) (by omega)
      grind [IsRow.length_eq]

theorem within_eq_some_iff {d d' : ℕ} :
    within threshold d = some d' ↔ d = d' ∧ d' ≤ threshold := by
  rw [within]
  grind

theorem Bounded.within_eq {rows : Option (List ℕ)}
    (h : Bounded swaps a b threshold rows) :
    (rows.bind fun row => within threshold (row.getD b.length 0)) =
      within threshold (distance swaps a b) := by
  rcases rows with _ | row
  · have hover := h.2 rfl
    rw [within, if_neg (by omega)]
    rfl
  · have hrow := (h.1 row rfl).getD_eq b.length le_rfl
    rw [start_distance_length] at hrow
    rw [Option.bind_some, hrow]

theorem within_of_length
    (h : threshold < max (a.length - b.length) (b.length - a.length)) :
    within threshold (distance swaps a b) = none := by
  have hlen := (script_distance swaps a b).length_le
  rw [within, if_neg (by omega)]

theorem levenshtein_distance_threshold_eq (s1 s2 : String) (threshold : ℕ) :
    levenshtein_distance_threshold s1 s2 threshold =
      within threshold (levenshtein_distance s1 s2) := by
  rw [levenshtein_distance_eq, levenshtein_distance_threshold]
  split
  · rename_i hlen
    rw [within_of_length hlen]
  · split
    · rename_i hnil
      rw [List.length_eq_zero_iff.1 hnil, distance_nil_left]
    · split
      · rename_i hnil
        rw [List.length_eq_zero_iff.1 hnil, distance_nil_right]
      · exact (threshold_rows_spec threshold s1.toList.length 0 _ _ (Nat.zero_add _)
          (isRow_zero false _ _) List.length_replicate).within_eq

theorem damerau_levenshtein_distance_threshold_eq (s1 s2 : String) (threshold : ℕ) :
    damerau_levenshtein_distance_threshold s1 s2 threshold =
      within threshold (damerau_levenshtein_distance s1 s2) := by
  rw [damerau_levenshtein_distance_eq, damerau_levenshtein_distance_threshold]
  split
  · rename_i hlen
    rw [within_of_length hlen]
  · split
    · rename_i hnil
      rw [List.length_eq_zero_iff.1 hnil, distance_nil_left]
    · split
      · rename_i hnil
        rw [List.length_eq_zero_iff.1 hnil, distance_nil_right]
      · exact (damerau_threshold_rows_spec threshold s1.toList.length 0 _ _ _ (Nat.zero_add _)
          List.length_replicate (fun h => absurd h (lt_irrefl 0)) (isRow_zero true _ _)
          List.length_replicate).within_eq

/-- **The edit distances**: the bounded forms give the whole distance where it
is within the threshold and nothing elsewhere; the Levenshtein distance is the
least number of edits that turn one string into the other, and the
Damerau-Levenshtein distance that of a script with swaps that edits no
character twice. -/
theorem edit_distances (s1 s2 : String) (threshold : ℕ) :
    (∀ d, levenshtein_distance_threshold s1 s2 threshold = some d ↔
      levenshtein_distance s1 s2 = d ∧ d ≤ threshold) ∧
    (∀ d, damerau_levenshtein_distance_threshold s1 s2 threshold = some d ↔
      damerau_levenshtein_distance s1 s2 = d ∧ d ≤ threshold) ∧
    IsLeast {n | Edits s1.toList s2.toList n} (levenshtein_distance s1 s2) ∧
    IsLeast {n | Script true s1.toList s2.toList n} (damerau_levenshtein_distance s1 s2) := by
  refine ⟨fun d => ?_, fun d => ?_, ?_, ?_⟩
  · rw [levenshtein_distance_threshold_eq, within_eq_some_iff]
  · rw [damerau_levenshtein_distance_threshold_eq, within_eq_some_iff]
  · rw [levenshtein_distance_eq]
    exact isLeast_edits _ _
  · rw [damerau_levenshtein_distance_eq]
    exact isLeast_distance true _ _

end Levenshtein

end Laurus
