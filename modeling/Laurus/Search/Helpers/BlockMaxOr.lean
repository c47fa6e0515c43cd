import Laurus.Matcher.Helpers.Leaves
import Laurus.Search.Helpers.Ranking
import Laurus.Search.Helpers.Scorer
import Laurus.Search.Model.BlockMaxOr
import Mathlib.Algebra.BigOperators.Group.List.Basic
import Mathlib.Algebra.Order.BigOperators.Group.List

/-!
# The pivot

What a turn may pass by: the total of a document is at most the sum of the
bounds of the clauses that may hold it (`total_le_sum`), and the pivot is
where the sum of the bounds gets past the threshold (`find_pivot_spec`).
-/

namespace Laurus

section BlockMaxOr

/-!
## One turn of Block-Max-WAND

Over clauses whose matchers are ordered cursors, a turn brings every clause
to one document `q` (`BmwClause.From`): the clauses in front of `q` move,
the others are there already. What the turn passes by has been offered to
the collector or cannot enter it (`Offered`).
-/

variable {𝕜 σ : Type} [Field 𝕜] [LinearOrder 𝕜] {ops : MatcherOps σ}

/-! ## The clauses -/

namespace BmwClause

variable {c c' c'' : BmwClause 𝕜 σ} {q q' d t : ℕ}

/-- The score of a document that the clause matches. -/
def value (c : BmwClause 𝕜 σ) (d : ℕ) : 𝕜 := c.scorer.score d (c.term_freqs d : 𝕜) none

variable (V : MatcherView ops)

/-- The documents that the clause has yet to visit. -/
def rem (c : BmwClause 𝕜 σ) : Finset ℕ := V.rem c.matcher

/-- What the clause has yet to add to the score of a document. -/
def share (c : BmwClause 𝕜 σ) (d : ℕ) : 𝕜 := if d ∈ c.rem V then c.value d else 0

/-- `c'` is the clause `c`, brought to the document `q`. -/
structure From (q : ℕ) (c c' : BmwClause 𝕜 σ) : Prop where
  scorer : c'.scorer = c.scorer
  term_freqs : c'.term_freqs = c.term_freqs
  inv : V.Inv c'.matcher
  rem : c'.rem V = (c.rem V).filter fun d => q ≤ d

variable {V}

theorem doc_id_eq (hc : V.Inv c.matcher) : c.doc_id ops = first END (c.rem V) := V.head_eq hc

theorem doc_id_le (hc : V.Inv c.matcher) (hd : d ∈ c.rem V) : c.doc_id ops ≤ d := V.head_le hc hd

theorem doc_id_le_end (hc : V.Inv c.matcher) : c.doc_id ops ≤ END := V.head_le_top hc

theorem doc_id_mem (hc : V.Inv c.matcher) (h : (c.rem V).Nonempty) : c.doc_id ops ∈ c.rem V := by
  rw [doc_id_eq hc]
  exact first_mem h

theorem doc_id_lt_end (hc : V.Inv c.matcher) (h : (c.rem V).Nonempty) : c.doc_id ops < END :=
  V.lt_top hc (doc_id_mem hc h)

theorem live_iff (hc : V.Inv c.matcher) : c.live ops = true ↔ (c.rem V).Nonempty := by
  rw [live, Bool.and_eq_true, bne_iff_ne]
  constructor
  · grind [Finset.not_nonempty_iff_eq_empty, doc_id_eq, first_empty]
  · intro hne
    refine ⟨?_, (doc_id_lt_end hc hne).ne⟩
    rw [Bool.not_eq_true', ← Bool.not_eq_true]
    exact fun hended => hne.ne_empty ((V.ended_iff hc).1 hended)

namespace From

theorem value (h : From V q c c') (d : ℕ) : c'.value d = c.value d := by
  rw [BmwClause.value, h.scorer, h.term_freqs, BmwClause.value]

theorem of_le (hc : V.Inv c.matcher) (h : q ≤ c.doc_id ops) : From V q c c where
  scorer := rfl
  term_freqs := rfl
  inv := hc
  rem := by
    rw [doc_id_eq hc] at h
    exact (filter_le_eq_self h).symm

theorem trans (h : From V q c c') (h' : From V q' c' c'') : From V (max q q') c c'' where
  scorer := h'.scorer.trans h.scorer
  term_freqs := h'.term_freqs.trans h.term_freqs
  inv := h'.inv
  rem := by
    rw [h'.rem, h.rem, Finset.filter_filter]
    simp

theorem le_doc_id (h : From V q c c') (hq : q ≤ END) : q ≤ c'.doc_id ops := by
  rw [doc_id_eq h.inv, h.rem]
  exact le_first hq fun d hd => (Finset.mem_filter.1 hd).2

theorem doc_id_le (h : From V q c c') (hc : V.Inv c.matcher) :
    c.doc_id ops ≤ c'.doc_id ops := by
  rw [doc_id_eq h.inv, h.rem]
  refine le_first (doc_id_le_end hc) fun d hd => ?_
  exact BmwClause.doc_id_le hc (Finset.mem_filter.1 hd).1

theorem share (h : From V q c c') (hd : q ≤ d) : c'.share V d = c.share V d := by
  rw [BmwClause.share, BmwClause.share, h.value, h.rem]
  grind

theorem card_le (h : From V q c c') : (c'.rem V).card ≤ (c.rem V).card := by
  rw [h.rem]
  exact Finset.card_filter_le _ _

theorem card_lt (h : From V q c c') (hc : V.Inv c.matcher) (hlive : (c.rem V).Nonempty)
    (hq : c.doc_id ops < q) : (c'.rem V).card < (c.rem V).card := by
  rw [h.rem]
  refine Finset.card_lt_card (Finset.filter_ssubset.2 ⟨c.doc_id ops, doc_id_mem hc hlive, ?_⟩)
  omega

end From

/-! ### The calls -/

theorem next_spec (hc : V.Inv c.matcher) (hdoc : c.doc_id ops = d) :
    ∃ c', c.next ops = some c' ∧ From V (d + 1) c c' := by
  obtain ⟨found, m, hnext, hinv, hrem, -⟩ := V.next_spec hc
  refine ⟨{ c with matcher := m }, by rw [next, hnext]; rfl, rfl, rfl, hinv, ?_⟩
  rw [← hdoc]
  exact hrem

theorem skip_to_spec (hc : V.Inv c.matcher) (hlive : (c.rem V).Nonempty)
    (ht : c.doc_id ops ≤ t) : ∃ c', c.skip_to ops t = some c' ∧ From V t c c' := by
  have hlow : V.low c.matcher ≤ t := (V.low_le hc (doc_id_mem hc hlive)).trans ht
  obtain ⟨found, m, hskip, hinv, hrem, -⟩ := V.skip_spec hc hlow
  exact ⟨{ c with matcher := m }, by rw [skip_to, hskip]; rfl, rfl, rfl, hinv, hrem⟩

theorem catch_up_spec (hc : V.Inv c.matcher) (hlive : (c.rem V).Nonempty) :
    ∃ c', c.catch_up ops t = some c' ∧ From V t c c' := by
  rw [catch_up]
  split
  · rename_i hlt
    exact skip_to_spec hc hlive hlt.le
  grind [From.of_le]

end BmwClause

/-! ## Calling each of some clauses -/

namespace BlockMaxOrExecutor

variable {n : ℕ} {clauses clauses' : Fin n → BmwClause 𝕜 σ} {is : List (Fin n)} {d : ℕ}

theorem for_each_spec {call : BmwClause 𝕜 σ → Option (BmwClause 𝕜 σ)}
    {P : BmwClause 𝕜 σ → BmwClause 𝕜 σ → Prop} (hnodup : is.Nodup)
    (hcall : ∀ i ∈ is, ∃ c', call (clauses i) = some c' ∧ P (clauses i) c') :
    ∃ clauses', for_each call is clauses = some clauses' ∧
      (∀ i ∈ is, P (clauses i) (clauses' i)) ∧ ∀ i, i ∉ is → clauses' i = clauses i := by
  induction is generalizing clauses with
  | nil => exact ⟨clauses, rfl, fun i hi => absurd hi List.not_mem_nil, fun _ _ => rfl⟩
  | cons i is ih =>
      rw [List.nodup_cons] at hnodup
      obtain ⟨c, hc, hP⟩ := hcall i List.mem_cons_self
      obtain ⟨clauses', hrest, hin, hout⟩ := @ih (Function.update clauses i c) hnodup.2
        fun j hj => by grind
      grind [for_each]

end BlockMaxOrExecutor

end BlockMaxOr

section Pivot

variable {𝕜 σ : Type} [Field 𝕜] [LinearOrder 𝕜] {ops : MatcherOps σ}

namespace BlockMaxOrExecutor

variable {n : ℕ} {clauses clauses' : Fin n → BmwClause 𝕜 σ} {is : List (Fin n)} {d p q : ℕ}

/-! ## What remains -/

section Remaining

/-- The documents that some clause has yet to visit. -/
def remaining (V : MatcherView ops) (clauses : Fin n → BmwClause 𝕜 σ) : Finset ℕ :=
  Finset.univ.biUnion fun i => (clauses i).rem V

/-- What is left of the score of a document. -/
def total (V : MatcherView ops) (clauses : Fin n → BmwClause 𝕜 σ) (d : ℕ) : 𝕜 :=
  ∑ i, (clauses i).share V d

variable {V : MatcherView ops}

theorem mem_remaining : d ∈ remaining V clauses ↔ ∃ i, d ∈ (clauses i).rem V := by
  simp [remaining]

theorem remaining_from (h : ∀ i, BmwClause.From V q (clauses i) (clauses' i)) :
    remaining V clauses' = (remaining V clauses).filter fun d => q ≤ d := by
  ext d
  simp only [mem_remaining, Finset.mem_filter, (h _).rem]
  exact exists_and_right

theorem total_from (h : ∀ i, BmwClause.From V q (clauses i) (clauses' i)) (hd : q ≤ d) :
    total V clauses' d = total V clauses d :=
  Finset.sum_congr rfl fun i _ => (h i).share hd

theorem total_eq_sum (hnodup : is.Nodup) (hout : ∀ i, i ∉ is → d ∉ (clauses i).rem V) :
    total V clauses d = (is.map fun i => (clauses i).share V d).sum := by
  rw [total, ← List.sum_toFinset _ hnodup]
  refine (Finset.sum_subset (Finset.subset_univ _) fun i _ hi => ?_).symm
  rw [BmwClause.share, if_neg (hout i fun hmem => hi (List.mem_toFinset.2 hmem))]

/-- The total of a document is at most the sum of the bounds of the clauses
that may hold it. -/
theorem total_le_sum [IsStrictOrderedRing 𝕜] (hnodup : is.Nodup)
    (hout : ∀ i, i ∉ is → d ∉ (clauses i).rem V) {bound : Fin n → 𝕜}
    (hnonneg : ∀ i ∈ is, 0 ≤ bound i)
    (hbound : ∀ i ∈ is, d ∈ (clauses i).rem V → (clauses i).value d ≤ bound i) :
    total V clauses d ≤ (is.map bound).sum := by
  grind [total_eq_sum, List.sum_le_sum, BmwClause.share]

end Remaining

/-! ## The scans of the sorted clauses -/

section Scans

/-- The suffix bound of a clause at its document. -/
def suffix_bound (ops : MatcherOps σ) (clauses : Fin n → BmwClause 𝕜 σ) (i : Fin n) : 𝕜 :=
  (clauses i).scorer.block_max_score_at ((clauses i).doc_id ops)

variable {min_comp : WithBot 𝕜} {sum : 𝕜} {j : ℕ}

theorem find_pivot_none (h : find_pivot ops clauses min_comp sum is = none) (hne : is ≠ []) :
    ((sum + (is.map (suffix_bound ops clauses)).sum : 𝕜) : WithBot 𝕜) ≤ min_comp := by
  induction is generalizing sum with
  | nil => exact absurd rfl hne
  | cons i rest ih =>
      rw [find_pivot] at h
      split at h
      · exact absurd h (by simp)
      · rename_i hle
        rw [Option.map_eq_none_iff] at h
        rw [List.map_cons, List.sum_cons, ← add_assoc]
        rcases eq_or_ne rest [] with rfl | hrest
        · rw [List.map_nil, List.sum_nil, add_zero]
          exact not_lt.1 hle
        · exact ih h hrest

theorem find_pivot_some (h : find_pivot ops clauses min_comp sum is = some j) :
    ∃ front i rest, is = front ++ i :: rest ∧ front.length = j ∧ (front ≠ [] →
      ((sum + (front.map (suffix_bound ops clauses)).sum : 𝕜) : WithBot 𝕜) ≤ min_comp) := by
  induction is generalizing sum j with
  | nil => exact absurd h (by simp [find_pivot])
  | cons i rest ih =>
      rw [find_pivot] at h
      split at h
      · exact ⟨[], i, rest, rfl, Option.some.inj h, fun hne => absurd rfl hne⟩
      · rename_i hle
        obtain ⟨k, hk, rfl⟩ := Option.map_eq_some_iff.1 h
        obtain ⟨front, pivot, later, rfl, rfl, hfront⟩ := ih hk
        refine ⟨i :: front, pivot, later, rfl, rfl, fun _ => ?_⟩
        rw [List.map_cons, List.sum_cons, ← add_assoc]
        rcases eq_or_ne front [] with rfl | hne
        · rw [List.map_nil, List.sum_nil, add_zero]
          exact not_lt.1 hle
        · exact hfront hne

theorem aligned_spec (ops : MatcherOps σ) (clauses : Fin n → BmwClause 𝕜 σ) (p : ℕ)
    (rest : List (Fin n)) :
    ∃ same later, rest = same ++ later ∧ same.length = aligned ops clauses p rest ∧
      (∀ i ∈ same, (clauses i).doc_id ops = p) ∧
      ∀ i ∈ later.head?, (clauses i).doc_id ops ≠ p := by
  induction rest with
  | nil => exact ⟨[], [], rfl, rfl, by simp, by simp⟩
  | cons i rest ih =>
      rw [aligned]
      split
      · grind
      · rename_i hdoc
        refine ⟨[], i :: rest, rfl, rfl, by simp, fun j hj => ?_⟩
        grind

theorem nearest_boundary_le (clauses : Fin n → BmwClause 𝕜 σ) (is : List (Fin n)) (p next : ℕ) :
    nearest_boundary clauses p next is ≤ next ∧ ∀ i ∈ is, ∀ boundary,
      (clauses i).scorer.next_block_boundary p = some boundary →
        nearest_boundary clauses p next is ≤ boundary := by
  induction is generalizing next with
  | nil => exact ⟨le_rfl, fun i hi => absurd hi List.not_mem_nil⟩
  | cons j rest ih =>
      rw [nearest_boundary]
      grind

theorem lt_nearest_boundary {next : ℕ} (hp : p < 2 ^ 64 - 1) (hnext : p < next) :
    p < nearest_boundary clauses p next is := by
  induction is generalizing next with
  | nil => exact hnext
  | cons j rest ih =>
      grind [nearest_boundary, BM25Scorer.lt_next_block_boundary]

end Scans

end BlockMaxOrExecutor

end Pivot

end Laurus
