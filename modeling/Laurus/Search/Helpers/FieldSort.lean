import Laurus.Common.FirstK
import Laurus.Search.Model.FieldSort
import Mathlib

/-!
# Lemmas on the sort by a field

The comparator answers the other way round when its arguments change places.
So on hits of distinct documents on which it is transitive it is a linear
order, and a `FieldTopK` keeps the first of what it is offered.
-/

namespace Laurus

variable {P : PointSpace} {𝕜 : Type}

/-! ## The range of a segment -/

theorem segment_sort_range_covers {seg : SortSegment 𝕜} {range : SegmentSortRange}
    (hrange : segment_sort_range seg = some range) (hcovers : range.covers_every_doc = true) :
    seg.points.flatten.length = seg.points.length := by
  rw [segment_sort_range] at hrange
  grind

/-- **The range of a segment bounds its points.** -/
theorem segment_sort_range_bounds {seg : SortSegment 𝕜} {range : SegmentSortRange}
    (hrange : segment_sort_range seg = some range)
    (hnan : ∀ p ∈ seg.points.flatten, p.is_nan = false) :
    (range.min.is_nan = false ∧ range.max.is_nan = false) ∧
      ∀ p ∈ seg.points.flatten, range.min.place ≤ p.place ∧ p.place ≤ range.max.place := by
  rw [segment_sort_range] at hrange
  split at hrange
  · cases hrange
  obtain rfl := Option.some.inj hrange
  refine ⟨⟨?_, ?_⟩, fun p hp => ⟨F64.place_le (F64.foldl_total_min _ _ p hp),
    F64.place_le (F64.foldl_total_max _ _ p hp)⟩⟩
  · rcases F64.foldl_choice_mem F64.total_min_eq seg.points.flatten F64.MAX with heq | hmem
    · exact (congrArg F64.is_nan heq).trans rfl
    · exact hnan _ hmem
  · rcases F64.foldl_choice_mem F64.total_max_eq seg.points.flatten F64.MIN with heq | hmem
    · exact (congrArg F64.is_nan heq).trans rfl
    · exact hnan _ hmem

/-! ## The comparator -/

theorem compare_sort_key_null {v : FieldValue} {p : F64} (h : sort_key_as_point P v = some p) :
    compare_sort_key P v .null = .lt := by
  cases v <;>
    first
    | rfl
    | cases h

/-- **The comparator turns round with its arguments.** -/
theorem compare_sort_key_swap (a b : FieldValue) :
    (compare_sort_key P a b).swap = compare_sort_key P b a := by
  cases a <;> cases b <;>
    first
    | rfl
    | exact cmp_swap _ _
    | exact F64.total_cmp_swap _ _
    | exact (Ordering.swap_then _ _).trans
        (congrArg₂ Ordering.then (F64.total_cmp_swap _ _) (F64.total_cmp_swap _ _))

namespace FieldHit

variable {ascending : Bool} {a b c : FieldHit 𝕜}

theorem rank_swap (ascending : Bool) (a b : FieldHit 𝕜) :
    (a.rank P ascending b).swap = b.rank P ascending a := by
  rw [rank, rank, Ordering.swap_then, cmp_swap]
  cases ascending
  · simp [compare_sort_key_swap]
  · rw [if_pos rfl, if_pos rfl, compare_sort_key_swap]

theorem before_total (ascending : Bool) (a b : FieldHit 𝕜) :
    a.before P ascending b ∨ b.before P ascending a := by
  rw [before, before, ← rank_swap ascending a b]
  rcases a.rank P ascending b <;> decide

theorem before_antisymm (hab : a.before P ascending b) (hba : b.before P ascending a) :
    a.doc_id = b.doc_id := by
  rw [before, ← rank_swap ascending a b] at hba
  have heq : a.rank P ascending b = .eq := by
    rcases hrank : a.rank P ascending b
    · rw [hrank] at hba
      exact absurd rfl hba
    · rfl
    · exact absurd hrank hab
  rw [rank, Ordering.then_eq_eq, cmp_eq_eq_iff] at heq
  exact heq.2

/-- A hit that ranks better than the worst is one that the worst is not before. -/
theorem rank_lt_iff : a.rank P ascending b = .lt ↔ ¬ b.before P ascending a := by
  rw [before, ← rank_swap ascending a b]
  rcases a.rank P ascending b <;> decide

/-- Hits of distinct documents are ordered where the comparator is transitive. -/
theorem orderedOn {all : List (FieldHit 𝕜)} (hids : (all.map FieldHit.doc_id).Nodup)
    (htrans : ∀ a ∈ all, ∀ b ∈ all, ∀ c ∈ all,
      a.before P ascending b → b.before P ascending c → a.before P ascending c) :
    OrderedOn (before P ascending) all where
  total a _ b _ := before_total ascending a b
  trans := htrans
  antisymm _ ha _ hb hab hba := List.inj_on_of_nodup_map hids ha hb (before_antisymm hab hba)

end FieldHit

/-! ## The bounded heap -/

namespace FieldTopK

variable {limit : ℕ} {ascending : Bool} {all : List (FieldHit 𝕜)} {hit : FieldHit 𝕜}

theorem push_eq_offer {first : List (FieldHit 𝕜)} (hzero : limit = 0 → first = []) :
    push P { max_docs := limit, ascending, hits := first } hit =
      { max_docs := limit, ascending
        hits := offer (FieldHit.before P ascending) limit first hit } := by
  rw [push]
  split
  · rename_i hlimit
    subst hlimit
    rw [hzero rfl]
    rfl
  · rw [offer]
    by_cases hroom : first.length < limit
    · rw [if_pos hroom, if_pos hroom]
    · rw [if_neg hroom, if_neg hroom]
      rcases hworst : first.getLast? with _ | worst
      · rfl
      · by_cases hbetter : hit.rank P ascending worst = .lt
        · exact (if_pos hbetter).trans
            (by simp only [if_neg (FieldHit.rank_lt_iff.1 hbetter)])
        · exact (if_neg hbetter).trans
            (by simp only [if_pos (not_not.1 (mt FieldHit.rank_lt_iff.2 hbetter))])

theorem foldl_push_eq_offer (all : List (FieldHit 𝕜)) {first : List (FieldHit 𝕜)}
    (hzero : limit = 0 → first = []) :
    all.foldl (push P) { max_docs := limit, ascending, hits := first } =
      { max_docs := limit, ascending
        hits := all.foldl (offer (FieldHit.before P ascending) limit) first } := by
  induction all generalizing first with
  | nil => rfl
  | cons hit all ih =>
      rw [List.foldl_cons, List.foldl_cons, push_eq_offer hzero, ih]
      intro hlimit
      subst hlimit
      rw [hzero rfl]
      rfl

/-- **The heap keeps the first of what it is offered.** -/
theorem foldl_push_firstK (hord : OrderedOn (FieldHit.before P ascending) all)
    (hnodup : all.Nodup) (limit : ℕ) :
    FirstK (FieldHit.before P ascending) limit all
      (all.foldl (push P) (new limit ascending)).hits := by
  rw [new, foldl_push_eq_offer all fun _ => rfl]
  exact firstK_foldl_offer hord hnodup limit

end FieldTopK

/-! ## An entry of a list -/

theorem filter_zipIdx_eq {α : Type} {xs : List α} {x : α} {i : ℕ} (hx : xs[i]? = some x) :
    xs.zipIdx.filter (fun entry => decide (entry.2 = i)) = [(x, i)] := by
  have hnodup : xs.zipIdx.Nodup := by
    refine List.Nodup.of_map Prod.snd ?_
    rw [List.zipIdx_map_snd]
    exact List.nodup_range'
  refine List.perm_singleton.1 ((List.perm_ext_iff_of_nodup (hnodup.filter _)
    (List.nodup_singleton _)).2 fun entry => ?_)
  grind

end Laurus
