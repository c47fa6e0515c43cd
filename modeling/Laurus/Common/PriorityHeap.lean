import Mathlib

/-!
# Heaps that break ties freely

`std::collections::BinaryHeap` pops a greatest entry; which of several
equal ones depends on the history of the heap. The entries are a list, a
push puts one in front, and the pop is any function of the list that
takes out a greatest entry and leaves the others in any order.
-/

namespace Laurus

/-- A way to pop a greatest entry, of those that compare by `le`. -/
structure PriorityHeap (α : Type) (le : α → α → Prop) where
  pop : List α → Option (α × List α)
  pop_cons : ∀ a entries, ∃ r, pop (a :: entries) = some r
  perm : ∀ {entries a rest}, pop entries = some (a, rest) → entries.Perm (a :: rest)
  greatest : ∀ {entries a rest}, pop entries = some (a, rest) → ∀ b ∈ entries, le b a

namespace PriorityHeap

variable {α : Type} {le : α → α → Prop} (heap : PriorityHeap α le)
variable {entries rest : List α} {a : α}

/-- `peek`. -/
def peek (entries : List α) : Option α := (heap.pop entries).map Prod.fst

theorem pop_nil : heap.pop [] = none := by
  rcases h : heap.pop [] with _ | ⟨a, rest⟩
  · rfl
  · exact absurd (heap.perm h).length_eq (by simp)

theorem peek_nil : heap.peek [] = none := by
  rw [peek, heap.pop_nil]
  rfl

theorem pop_eq_none_iff : heap.pop entries = none ↔ entries = [] := by
  rcases entries with _ | ⟨a, entries⟩
  · simp only [heap.pop_nil]
  · obtain ⟨r, hr⟩ := heap.pop_cons a entries
    simp only [hr, reduceCtorEq]

theorem mem_of_pop (h : heap.pop entries = some (a, rest)) : a ∈ entries :=
  (heap.perm h).mem_iff.2 List.mem_cons_self

theorem mem_of_mem_rest (h : heap.pop entries = some (a, rest)) {b : α} (hb : b ∈ rest) :
    b ∈ entries := (heap.perm h).mem_iff.2 (List.mem_cons_of_mem a hb)

theorem mem_iff_of_pop (h : heap.pop entries = some (a, rest)) {b : α} :
    b ∈ entries ↔ b = a ∨ b ∈ rest := by
  rw [(heap.perm h).mem_iff, List.mem_cons]

theorem length_of_pop (h : heap.pop entries = some (a, rest)) :
    entries.length = rest.length + 1 := (heap.perm h).length_eq

/-! ## One way to pop -/

section First

variable {κ : Type} [LinearOrder κ] (key : α → κ)

/-- A greatest entry, and the others. -/
def popFirst : List α → Option (α × List α)
  | [] => none
  | a :: entries =>
    match popFirst entries with
    | none => some (a, [])
    | some (b, rest) => if key b ≤ key a then some (a, b :: rest) else some (b, a :: rest)

theorem popFirst_cons (a : α) (entries : List α) : ∃ r, popFirst key (a :: entries) = some r := by
  rw [popFirst]
  split
  · exact ⟨_, rfl⟩
  grind

theorem popFirst_spec {entries rest : List α} {a : α} (h : popFirst key entries = some (a, rest)) :
    entries.Perm (a :: rest) ∧ ∀ b ∈ entries, key b ≤ key a := by
  induction entries generalizing a rest with
  | nil => cases h
  | cons first entries ih =>
      rw [popFirst] at h
      split at h
      · rename_i hnone
        cases h
        rcases entries with _ | ⟨second, entries⟩
        · simp
        · obtain ⟨r, hr⟩ := popFirst_cons key second entries
          rw [hr] at hnone
          cases hnone
      · rename_i top others hsome
        obtain ⟨hperm, hgreatest⟩ := ih hsome
        split at h
        · rename_i hle
          cases h
          refine ⟨hperm.cons first, fun b hb => ?_⟩
          grind
        · rename_i hlt
          cases h
          refine ⟨(hperm.cons first).trans (List.Perm.swap _ _ _), fun b hb => ?_⟩
          grind

/-- The heap that pops so. -/
def first : PriorityHeap α (fun a b => key a ≤ key b) where
  pop := popFirst key
  pop_cons := popFirst_cons key
  perm h := (popFirst_spec key h).1
  greatest h := (popFirst_spec key h).2

end First

end PriorityHeap

section LeastIndex

/-!
## The least of a list by one scan, and a removal that keeps no order

`least_index` is where a scan first meets a member of the least key.
`swapRemove` takes a member out and puts the last in its place; the others
stay, in another order.
-/

variable {α : Type} {xs : List α} {a : α} {idx : ℕ}

/-! ## The least -/

section Least

variable {κ : Type} [LinearOrder κ] (key : α → κ)

/-- The scan of the members from `i` on, with the least so far. -/
def least_index_from : List α → (i min_idx : ℕ) → (least : κ) → ℕ
  | [], _, min_idx, _ => min_idx
  | a :: xs, i, min_idx, least =>
    if key a < least then least_index_from xs (i + 1) i (key a)
    else least_index_from xs (i + 1) min_idx least

def least_index : List α → ℕ
  | [] => 0
  | a :: xs => least_index_from key xs 1 0 (key a)

/-- The scan finds a least member of `all`, of which `least` is one of those
before `i`. -/
theorem least_index_from_spec (all : List α) : ∀ (xs : List α) (i min_idx : ℕ) (least : α),
    all.drop i = xs → all[min_idx]? = some least → (∀ b ∈ all.take i, key least ≤ key b) →
    ∃ a, all[least_index_from key xs i min_idx (key least)]? = some a ∧
      ∀ b ∈ all, key a ≤ key b := by
  intro xs
  induction xs with
  | nil =>
      intro i min_idx least hdrop hleast hbefore
      refine ⟨least, hleast, fun b hb => hbefore b ?_⟩
      rwa [List.take_of_length_le (List.drop_eq_nil_iff.1 hdrop)]
  | cons a xs ih =>
      intro i min_idx least hdrop hleast hbefore
      have hlt : i < all.length := by
        grind [List.drop_eq_nil_of_le]
      have hdrop_eq := List.drop_eq_getElem_cons hlt
      have hat : all[i]? = some a := by grind
      rw [least_index_from]
      grind

/-- **The scan finds a least member.** -/
theorem least_index_spec (h : xs ≠ []) :
    ∃ a, xs[least_index key xs]? = some a ∧ ∀ b ∈ xs, key a ≤ key b := by
  rcases xs with _ | ⟨a, xs⟩
  · exact absurd rfl h
  · refine least_index_from_spec key (a :: xs) xs 1 0 a rfl rfl fun b hb => ?_
    grind

end Least

/-! ## A removal -/

/-- `Vec::swap_remove`. -/
def swapRemove (xs : List α) (idx : ℕ) : List α :=
  match xs.getLast? with
  | none => xs
  | some last => if idx + 1 = xs.length then xs.dropLast else xs.dropLast.set idx last

theorem perm_cons_eraseIdx (h : xs[idx]? = some a) : xs.Perm (a :: xs.eraseIdx idx) := by
  obtain ⟨hlt, ha⟩ := List.getElem?_eq_some_iff.1 h
  rw [← ha]
  exact (List.getElem_cons_eraseIdx_perm hlt).symm

theorem swapRemove_perm (h : xs[idx]? = some a) : (swapRemove xs idx).Perm (xs.eraseIdx idx) := by
  obtain ⟨hlt, -⟩ := List.getElem?_eq_some_iff.1 h
  have hne : xs ≠ [] := List.ne_nil_of_length_pos (by omega)
  rw [swapRemove, List.getLast?_eq_some_getLast hne]
  simp only
  split
  · rename_i hlast
    rw [List.dropLast_eq_eraseIdx hlast]
  · rename_i hlast
    have hlt' : idx < xs.dropLast.length := by
      rw [List.length_dropLast]
      omega
    refine (List.set_perm_cons_eraseIdx hlt' _).trans ?_
    have happend : xs.eraseIdx idx = xs.dropLast.eraseIdx idx ++ [xs.getLast hne] := by
      conv_lhs => rw [← List.dropLast_append_getLast hne]
      grind
    rw [happend]
    exact (List.perm_append_singleton _ _).symm

end LeastIndex

end Laurus
