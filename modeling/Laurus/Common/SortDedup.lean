import Mathlib.Data.List.Dedup
import Mathlib.Data.List.Sort
import Mathlib.Data.UInt

/-!
# Sorted and deduplicated

`sort_unstable` and `dedup` of words: `List.dedup` of an ascending list is
what `Vec::dedup` leaves of it.
-/

namespace Laurus

theorem pairwise_sorted_dedup (hits : List UInt64) :
    ((hits.insertionSort (· ≤ ·)).dedup).Pairwise (· < ·) := by
  have hsorted : ((hits.insertionSort (· ≤ ·)).dedup).Pairwise (· ≤ ·) :=
    (List.pairwise_insertionSort (· ≤ ·) hits).sublist (List.dedup_sublist _)
  exact (hsorted.and (List.nodup_dedup _)).imp fun h => UInt64.lt_of_le_of_ne h.1 h.2

theorem mem_sorted_dedup {hits : List UInt64} {doc : UInt64} :
    doc ∈ (hits.insertionSort (· ≤ ·)).dedup ↔ doc ∈ hits := by simp

/-! ## Numbers -/

/-- `partition_point`: how many of sorted numbers are below one. -/
def numbers_below (sorted : List ℕ) (n : ℕ) : ℕ := (sorted.takeWhile fun m => m < n).length

/-- `sort_unstable` and `dedup`. -/
def sort_dedup (numbers : List ℕ) : List ℕ := (numbers.insertionSort (· ≤ ·)).dedup

variable {numbers numbers' : List ℕ} {n : ℕ}

@[simp] theorem mem_sort_dedup : n ∈ sort_dedup numbers ↔ n ∈ numbers := by
  rw [sort_dedup, List.mem_dedup, (List.perm_insertionSort _ _).mem_iff]

theorem pairwise_sort_dedup (numbers : List ℕ) : (sort_dedup numbers).Pairwise (· < ·) := by
  have hsorted : (sort_dedup numbers).Pairwise (· ≤ ·) :=
    (List.pairwise_insertionSort (· ≤ ·) numbers).sublist (List.dedup_sublist _)
  exact (hsorted.and (List.nodup_dedup _)).imp fun h => lt_of_le_of_ne h.1 h.2

theorem eq_of_pairwise_lt (h : numbers.Pairwise (· < ·)) (h' : numbers'.Pairwise (· < ·))
    (hmem : ∀ n, n ∈ numbers ↔ n ∈ numbers') : numbers = numbers' :=
  ((List.perm_ext_iff_of_nodup h.nodup h'.nodup).2 hmem).eq_of_pairwise
    (fun _ _ _ _ hab hba => absurd hab hba.asymm) h h'

theorem sort_dedup_eq (h : numbers'.Pairwise (· < ·)) (hmem : ∀ n, n ∈ numbers ↔ n ∈ numbers') :
    sort_dedup numbers = numbers' :=
  eq_of_pairwise_lt (pairwise_sort_dedup numbers) h fun n => mem_sort_dedup.trans (hmem n)

theorem idxOf_lt_idxOf (h : numbers.Pairwise (· < ·)) {m : ℕ} (hm : m ∈ numbers) (hlt : m < n) :
    numbers.idxOf m < numbers.idxOf n := by
  grind [List.pairwise_iff_getElem]

theorem getElem?_numbers_below (h : numbers.Pairwise (· < ·)) {found : ℕ} :
    numbers[numbers_below numbers n]? = some found ↔
      found ∈ numbers ∧ n ≤ found ∧ ∀ m ∈ numbers, n ≤ m → found ≤ m := by
  rw [numbers_below]
  induction numbers with
  | nil => simp
  | cons m numbers ih =>
      obtain ⟨hm, hrest⟩ := List.pairwise_cons.1 h
      rw [List.takeWhile_cons]
      by_cases hlt : m < n
      · grind
      grind

end Laurus
