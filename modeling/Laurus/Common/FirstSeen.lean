import Mathlib.Data.List.Nodup
import Mathlib.Data.List.Range

/-!
# Positions grouped by a key

The positions of a list of keys fall into classes: those of one key, and
each position without a key by itself. A class is named by its first
position, its leader. `leaders_concat` and `members_concat` say what one
more key does to them.
-/

namespace Laurus

namespace FirstSeen

variable {κ : Type} [DecidableEq κ] (keys : List (Option κ))

/-- What a position is grouped by: its key, or itself. -/
def label (i : ℕ) : κ ⊕ ℕ := (keys[i]?.join).elim (.inr i) .inl

/-- The first positions of the classes, in order. -/
def leaders : List ℕ :=
  (List.range keys.length).filter fun i => ∀ j < i, label keys j ≠ label keys i

/-- The positions of a class, in order. -/
def members (i : ℕ) : List ℕ :=
  (List.range keys.length).filter fun j => label keys j = label keys i

variable {keys} {i j : ℕ} {key : Option κ}

omit [DecidableEq κ] in
theorem label_eq_inl {k : κ} : label keys i = .inl k ↔ keys[i]? = some (some k) := by
  rw [label]
  rcases h : keys[i]? with _ | _ | k'
  · simp
  · simp
  · simp

omit [DecidableEq κ] in
omit [DecidableEq κ] in
theorem eq_of_label_eq_inr {n : ℕ} (h : label keys i = .inr n) : i = n := by
  rw [label] at h
  rcases hkey : keys[i]?.join with _ | k
  · rw [hkey] at h
    exact Sum.inr.inj h
  · rw [hkey] at h
    cases h

theorem mem_leaders : i ∈ leaders keys ↔
    i < keys.length ∧ ∀ j < i, label keys j ≠ label keys i := by
  rw [leaders, List.mem_filter, List.mem_range, decide_eq_true_iff]

theorem mem_members : j ∈ members keys i ↔ j < keys.length ∧ label keys j = label keys i := by
  rw [members, List.mem_filter, List.mem_range, decide_eq_true_iff]

theorem leaders_sorted : (leaders keys).Pairwise (· < ·) :=
  List.Pairwise.filter _ List.pairwise_lt_range

theorem members_sorted : (members keys i).Pairwise (· < ·) :=
  List.Pairwise.filter _ List.pairwise_lt_range

theorem exists_leader (h : i < keys.length) :
    ∃ l ∈ leaders keys, l ≤ i ∧ label keys l = label keys i := by
  induction i using Nat.strong_induction_on with
  | _ i ih =>
      by_cases hfirst : ∀ j < i, label keys j ≠ label keys i
      · exact ⟨i, mem_leaders.2 ⟨h, hfirst⟩, Nat.le_refl i, rfl⟩
      grind

theorem leader_inj (hi : i ∈ leaders keys) (hj : j ∈ leaders keys)
    (h : label keys i = label keys j) : i = j := by
  rcases Nat.lt_trichotomy i j with hlt | heq | hgt
  · exact absurd h ((mem_leaders.1 hj).2 i hlt)
  · exact heq
  · exact absurd h.symm ((mem_leaders.1 hi).2 j hgt)

theorem members_disjoint (hi : i ∈ leaders keys) (hj : j ∈ leaders keys) (hne : i ≠ j) :
    (members keys i).Disjoint (members keys j) := by
  intro m hmi hmj
  grind [leader_inj, mem_members]

theorem head_members (h : i ∈ leaders keys) : (members keys i).head? = some i := by
  have hmem : i ∈ members keys i := mem_members.2 ⟨(mem_leaders.1 h).1, rfl⟩
  rcases hcases : members keys i with _ | ⟨first, rest⟩
  · grind
  · have hsorted := @members_sorted _ _ keys i
    grind [List.rel_of_pairwise_cons, List.mem_cons_self, mem_members, mem_leaders]

/-! ## One more key -/

omit [DecidableEq κ] in
theorem label_concat (h : i < keys.length) : label (keys ++ [key]) i = label keys i := by
  rw [label, label, List.getElem?_append_left h]

theorem leaders_concat : leaders (keys ++ [key]) = leaders keys ++
    if ∀ j < keys.length, label keys j ≠ label (keys ++ [key]) keys.length
      then [keys.length] else [] := by
  have hold : ∀ i ∈ List.range keys.length,
      (decide (∀ j < i, label (keys ++ [key]) j ≠ label (keys ++ [key]) i)) =
        decide (∀ j < i, label keys j ≠ label keys i) := by
    intro i hi
    have hlt := List.mem_range.1 hi
    refine decide_eq_decide.2 (forall₂_congr fun j hj => ?_)
    rw [label_concat (by omega), label_concat hlt]
  have hnew : (∀ j < keys.length, label (keys ++ [key]) j ≠
      label (keys ++ [key]) keys.length) ↔
        ∀ j < keys.length, label keys j ≠ label (keys ++ [key]) keys.length :=
    forall₂_congr fun j hj => by rw [label_concat hj]
  rw [leaders, leaders, List.length_append, List.length_singleton, List.range_succ,
    List.filter_append, List.filter_congr hold, List.filter_singleton]
  simp only [hnew, Bool.cond_decide]

theorem members_concat (h : i < keys.length) : members (keys ++ [key]) i = members keys i ++
    if label (keys ++ [key]) keys.length = label keys i then [keys.length] else [] := by
  have hold : ∀ j ∈ List.range keys.length,
      (decide (label (keys ++ [key]) j = label (keys ++ [key]) i)) =
        decide (label keys j = label keys i) := by
    intro j hj
    rw [label_concat (List.mem_range.1 hj), label_concat h]
  rw [members, members, List.length_append, List.length_singleton, List.range_succ,
    List.filter_append, List.filter_congr hold, List.filter_singleton, label_concat h]
  rw [Bool.cond_decide]

theorem members_concat_new
    (h : ∀ j < keys.length, label keys j ≠ label (keys ++ [key]) keys.length) :
    members (keys ++ [key]) keys.length = [keys.length] := by
  have hold : ∀ j ∈ List.range keys.length,
      (decide (label (keys ++ [key]) j = label (keys ++ [key]) keys.length)) = false := by
    grind [label_concat]
  rw [members, List.length_append, List.length_singleton, List.range_succ, List.filter_append,
    List.filter_eq_nil_iff.2 fun j hj => by grind]
  simp

end FirstSeen

end Laurus
