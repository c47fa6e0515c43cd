import Laurus.Common.FirstK
import Laurus.Search.Model.Collector
import Mathlib.Data.List.Induction

/-!
# Which hits the collector keeps

`Keeps` is the invariant over a stream: a hit that is not kept though it
reaches the minimum is not above any that is, and then the collector is full.
So a hit that fewer than `max_docs` others reach is kept (`Keeps.mem`), and a
run of such hits, strictly descending and above all others, stands at the
start of what is returned (`isPrefix_of_above`).
-/

namespace Laurus

section Collector

/-!
## The collector keeps the greatest scores

`TopDocsCollector.Tops` is the invariant: the entries are in the order of
the heap, and their scores are the greatest of those offered. A score that
is not above `min_competitive` may be offered or not.
-/

variable {𝕜 : Type} [LinearOrder 𝕜]

namespace ScoredDoc

instance : Std.Total (@before 𝕜 _) where
  total a b := by
    simp only [before]
    grind

instance : IsTrans (ScoredDoc 𝕜) before where
  trans a b c hab hbc := by
    rcases hab with hab | ⟨hab, hab'⟩ <;> rcases hbc with hbc | ⟨hbc, hbc'⟩
    · exact Or.inl (hab.trans hbc)
    · exact Or.inl (hbc ▸ hab)
    · exact Or.inl (hab ▸ hbc)
    · exact Or.inr ⟨hab.trans hbc, hab'.trans hbc'⟩

instance : Std.Total (@ranks 𝕜 _) where
  total a b := le_total b.score a.score

instance : IsTrans (ScoredDoc 𝕜) ranks where
  trans _ _ _ hab hbc := hbc.trans hab

theorem before.score_le {a b : ScoredDoc 𝕜} (h : before a b) : a.score ≤ b.score := by
  rcases h with h | h
  · exact h.le
  · exact h.1.le

end ScoredDoc

namespace TopDocsCollector

variable {c : TopDocsCollector 𝕜} {S L : Multiset 𝕜} {d : ℕ} {s : 𝕜}

/-- The scores that are kept. -/
def scores (c : TopDocsCollector 𝕜) : Multiset 𝕜 := (c.hits.map ScoredDoc.score : List 𝕜)

/-- The scores kept are the greatest of `S`, and the heap is in order. -/
structure Tops (c : TopDocsCollector 𝕜) (S : Multiset 𝕜) : Prop where
  sorted : c.hits.Pairwise ScoredDoc.before
  top : IsTop c.max_docs S c.scores

omit [LinearOrder 𝕜] in
theorem mem_scores : s ∈ c.scores ↔ ∃ hit ∈ c.hits, hit.score = s := by
  rw [scores, Multiset.mem_coe, List.mem_map]

omit [LinearOrder 𝕜] in
theorem card_scores : c.scores.card = c.hits.length := by
  rw [scores, Multiset.coe_card, List.length_map]

theorem push_perm (hits : List (ScoredDoc 𝕜)) (doc : ScoredDoc 𝕜) :
    (push hits doc).Perm (doc :: hits) := List.perm_orderedInsert _ doc hits

theorem with_min_score_tops (max_docs : ℕ) (min_score : 𝕜) :
    (with_min_score max_docs min_score).Tops 0 where
  sorted := List.Pairwise.nil
  top := IsTop.zero max_docs

/-- What an offer does to the entries: below the minimum, room, in the place
of the worst, or not above it. -/
theorem collect_cases (c : TopDocsCollector 𝕜) (d : ℕ) (s : 𝕜) :
    (c.collect d s).max_docs = c.max_docs ∧ (c.collect d s).min_score = c.min_score ∧
      ((s < c.min_score ∧ (c.collect d s).hits = c.hits) ∨
      (c.min_score ≤ s ∧ c.hits.length < c.max_docs ∧
        (c.collect d s).hits = push c.hits ⟨d, s⟩) ∨
      (c.min_score ≤ s ∧ c.max_docs ≤ c.hits.length ∧ ∃ worst others,
        c.hits = worst :: others ∧ worst.score < s ∧
          (c.collect d s).hits = push others ⟨d, s⟩) ∨
      (c.min_score ≤ s ∧ c.max_docs ≤ c.hits.length ∧
        (∀ worst ∈ c.hits.head?, s ≤ worst.score) ∧ (c.collect d s).hits = c.hits)) := by
  by_cases hmin : s < c.min_score
  · rw [collect, if_pos hmin]
    exact ⟨rfl, rfl, Or.inl ⟨hmin, rfl⟩⟩
  by_cases hroom : c.hits.length < c.max_docs
  · rw [collect, if_neg hmin, if_pos hroom]
    grind
  match hlist : c.hits with
  | [] =>
      have heq : c.collect d s = { c with total_hits := c.total_hits + 1 } := by
        rw [collect, if_neg hmin, if_neg hroom]
        simp only [hlist]
      grind
  | worst :: others =>
      by_cases hworse : worst.score < s
      · have heq : c.collect d s =
            { c with hits := push others ⟨d, s⟩, total_hits := c.total_hits + 1 } := by
          rw [collect, if_neg hmin, if_neg hroom]
          simp only [hlist, if_pos hworse]
        grind
      · have heq : c.collect d s = { c with total_hits := c.total_hits + 1 } := by
          rw [collect, if_neg hmin, if_neg hroom]
          simp only [hlist, if_neg hworse]
        grind

namespace Tops

theorem head_le (h : c.Tops S) {worst : ScoredDoc 𝕜} (hworst : c.hits.head? = some worst) :
    ∀ t ∈ c.scores, worst.score ≤ t := by
  intro t ht
  obtain ⟨hit, hhit, rfl⟩ := mem_scores.1 ht
  obtain ⟨others, heq⟩ := List.head?_eq_some_iff.1 hworst
  have hsorted := h.sorted
  rw [heq, List.pairwise_cons] at hsorted
  rw [heq] at hhit
  rcases List.mem_cons.1 hhit with rfl | hhit
  · exact le_rfl
  · exact (hsorted.1 hit hhit).score_le

theorem full (h : c.Tops S) (hroom : c.max_docs ≤ c.hits.length) :
    c.scores.card = c.max_docs := by
  have hcard := h.top.card
  rw [card_scores] at hcard ⊢
  omega

/-- **An offer keeps the greatest**, of the scores that reach the minimum. -/
theorem collect (h : c.Tops S) (d : ℕ) (s : 𝕜) :
    (c.collect d s).Tops (if s < c.min_score then S else s ::ₘ S) := by
  obtain ⟨hmax, -, hcases⟩ := c.collect_cases d s
  rcases hcases with ⟨hmin, hhits⟩ | ⟨hmin, hroom, hhits⟩ |
    ⟨hmin, hroom, worst, others, hlist, hworse, hhits⟩ | ⟨hmin, hroom, hworse, hhits⟩
  · rw [if_pos hmin]
    exact ⟨by rw [hhits]; exact h.sorted, by rw [hmax, scores, hhits]; exact h.top⟩
  · rw [if_neg (not_lt.2 hmin)]
    have hscores : (c.collect d s).scores = s ::ₘ c.scores := by
      rw [scores, hhits, scores, Multiset.cons_coe, Multiset.coe_eq_coe]
      exact (push_perm c.hits ⟨d, s⟩).map ScoredDoc.score
    refine ⟨?_, ?_⟩
    · rw [hhits]
      exact h.sorted.orderedInsert _ _
    · rw [hmax, hscores]
      exact h.top.insert_room (by rw [card_scores]; exact hroom)
  · rw [if_neg (not_lt.2 hmin)]
    have hleast : ∀ t ∈ c.scores, worst.score ≤ t := h.head_le (by rw [hlist]; rfl)
    have hmem : worst.score ∈ c.scores :=
      mem_scores.2 ⟨worst, by rw [hlist]; exact List.mem_cons_self, rfl⟩
    have hscores : (c.collect d s).scores = s ::ₘ c.scores.erase worst.score := by
      have herase : c.scores.erase worst.score = (others.map ScoredDoc.score : List 𝕜) := by
        rw [scores, hlist, List.map_cons, ← Multiset.cons_coe, Multiset.erase_cons_head]
      rw [herase, scores, hhits, Multiset.cons_coe, Multiset.coe_eq_coe]
      exact (push_perm others ⟨d, s⟩).map ScoredDoc.score
    refine ⟨?_, ?_⟩
    · rw [hhits]
      have hsorted := h.sorted
      rw [hlist, List.pairwise_cons] at hsorted
      exact hsorted.2.orderedInsert _ _
    · rw [hmax, hscores]
      exact h.top.insert_replace (h.full hroom) hmem hleast hworse
  · rw [if_neg (not_lt.2 hmin)]
    refine ⟨by rw [hhits]; exact h.sorted, ?_⟩
    rw [hmax, scores, hhits]
    refine h.top.insert_low (h.full hroom) fun t ht => ?_
    obtain ⟨hit, hhit, -⟩ := mem_scores.1 ht
    obtain ⟨worst, hworst⟩ : ∃ worst, c.hits.head? = some worst := by
      rw [← Option.isSome_iff_exists, List.isSome_head?]
      exact List.ne_nil_of_mem hhit
    exact (hworse worst hworst).trans (h.head_le hworst t ht)

/-- **What is not above `min_competitive` need not be offered.** -/
theorem skip (h : c.Tops S) (hL : ∀ a ∈ L, (a : WithBot 𝕜) ≤ c.min_competitive) :
    c.Tops (L + S) := by
  rcases L.empty_or_exists_mem with rfl | ⟨a, ha⟩
  · rwa [Multiset.zero_add]
  -- a score is above `⊥`, so the heap is full
  have hroom : c.max_docs ≤ c.hits.length := by
    by_contra hlt
    have hle := hL a ha
    rw [min_competitive, if_pos (by omega), WithBot.le_bot_iff] at hle
    exact WithBot.coe_ne_bot hle
  refine ⟨h.sorted, h.top.add_low (h.full hroom) fun b hb t ht => ?_⟩
  have hle := hL b hb
  rw [min_competitive, if_neg (by omega)] at hle
  obtain ⟨hit, hhit, -⟩ := mem_scores.1 ht
  obtain ⟨worst, hworst⟩ : ∃ worst, c.hits.head? = some worst := by
    rw [← Option.isSome_iff_exists, List.isSome_head?]
    exact List.ne_nil_of_mem hhit
  obtain ⟨others, hlist⟩ := List.head?_eq_some_iff.1 hworst
  rw [hlist] at hle
  exact (WithBot.coe_le_coe.1 hle).trans (h.head_le hworst t ht)

/-- **The scores of the results are the greatest, in descending order.** -/
theorem results_scores (h : c.Tops S) :
    c.results.map ScoredDoc.score = (S.sort (· ≥ ·)).take c.max_docs := by
  have hperm : (c.results.map ScoredDoc.score).Perm ((S.sort (· ≥ ·)).take c.max_docs) := by
    rw [← Multiset.coe_eq_coe, ← h.top.eq_take, scores, Multiset.coe_eq_coe]
    exact (List.perm_insertionSort _ _).map _
  have hsorted : (c.results.map ScoredDoc.score).Pairwise (· ≥ ·) :=
    List.pairwise_map.2 (List.pairwise_insertionSort ScoredDoc.ranks c.hits)
  exact hperm.eq_of_pairwise' hsorted
    ((Multiset.pairwise_sort S (· ≥ ·)).sublist (List.take_sublist _ _))

end Tops

/-! ## The entries -/

theorem mem_collect {hit : ScoredDoc 𝕜} (h : hit ∈ (c.collect d s).hits) :
    hit = ⟨d, s⟩ ∨ hit ∈ c.hits := by
  obtain ⟨-, -, hcases⟩ := c.collect_cases d s
  grind [push_perm]

theorem collect_nodup (hnodup : (c.hits.map ScoredDoc.doc_id).Nodup)
    (hnew : ∀ hit ∈ c.hits, hit.doc_id ≠ d) :
    ((c.collect d s).hits.map ScoredDoc.doc_id).Nodup := by
  have hpush : ∀ hits : List (ScoredDoc 𝕜), (hits.map ScoredDoc.doc_id).Nodup →
      (∀ hit ∈ hits, hit.doc_id ≠ d) → ((push hits ⟨d, s⟩).map ScoredDoc.doc_id).Nodup := by
    intro hits hnodup hnew
    rw [((push_perm hits ⟨d, s⟩).map ScoredDoc.doc_id).nodup_iff, List.map_cons, List.nodup_cons]
    grind
  grind [collect_cases]

end TopDocsCollector

end Collector

section Ranking

variable {𝕜 : Type} [LinearOrder 𝕜]

namespace TopDocsCollector

variable {c : TopDocsCollector 𝕜} {stream hits : List (ScoredDoc 𝕜)} {x : ScoredDoc 𝕜}

theorem collect_stream_limits (c : TopDocsCollector 𝕜) (stream : List (ScoredDoc 𝕜)) :
    (c.collect_stream stream).max_docs = c.max_docs ∧
      (c.collect_stream stream).min_score = c.min_score := by
  unfold collect_stream
  induction stream generalizing c with
  | nil => exact ⟨rfl, rfl⟩
  | cons x stream ih =>
      obtain ⟨hmax, hmin, -⟩ := c.collect_cases x.doc_id x.score
      grind

/-- What a collector holds after a stream. -/
structure Keeps (c : TopDocsCollector 𝕜) (stream : List (ScoredDoc 𝕜)) : Prop where
  sorted : c.hits.Pairwise ScoredDoc.before
  nodup : c.hits.Nodup
  offered : ∀ hit ∈ c.hits, hit ∈ stream
  reaches : ∀ hit ∈ c.hits, c.min_score ≤ hit.score
  room : c.hits.length ≤ c.max_docs
  low : ∀ x ∈ stream, c.min_score ≤ x.score → x ∉ c.hits →
    c.max_docs ≤ c.hits.length ∧ ∀ hit ∈ c.hits, x.score ≤ hit.score

theorem with_min_score_keeps (max_docs : ℕ) (min_score : 𝕜) :
    (with_min_score max_docs min_score).Keeps [] where
  sorted := List.Pairwise.nil
  nodup := List.nodup_nil
  offered := fun _ h => h
  reaches := fun _ h => nomatch h
  room := Nat.zero_le _
  low := fun _ h => nomatch h

namespace Keeps

theorem head_le {worst : ScoredDoc 𝕜} {others : List (ScoredDoc 𝕜)}
    (h : (worst :: others).Pairwise ScoredDoc.before) :
    ∀ hit ∈ worst :: others, worst.score ≤ hit.score := by
  intro hit hhit
  rcases List.mem_cons.1 hhit with rfl | hhit
  · exact le_rfl
  · exact ((List.pairwise_cons.1 h).1 hit hhit).score_le

/-- A hit that changes nothing: below the minimum, or not above what a full
collector has. -/
theorem left_out {c' : TopDocsCollector 𝕜} (h : c.Keeps stream) (hhits : c'.hits = c.hits)
    (hmax : c'.max_docs = c.max_docs) (hmin : c'.min_score = c.min_score)
    (hlow : c.min_score ≤ x.score →
      c.max_docs ≤ c.hits.length ∧ ∀ hit ∈ c.hits, x.score ≤ hit.score) :
    c'.Keeps (stream ++ [x]) := by
  refine ⟨?_, ?_, ?_, ?_, ?_, ?_⟩
  · rw [hhits]
    exact h.sorted
  · rw [hhits]
    exact h.nodup
  · grind [offered]
  · rw [hhits, hmin]
    exact h.reaches
  · rw [hhits, hmax]
    exact h.room
  grind [low]

/-- **An offer keeps the invariant.** -/
theorem collect (h : c.Keeps stream) (hnew : x ∉ stream) :
    (c.collect x.doc_id x.score).Keeps (stream ++ [x]) := by
  obtain ⟨hmax, hmin, hcases⟩ := c.collect_cases x.doc_id x.score
  have hx : x ∉ c.hits := fun hmem => hnew (h.offered x hmem)
  rcases hcases with ⟨hbelow, hhits⟩ | ⟨hreach, hroom, hhits⟩ |
    ⟨hreach, hfull, worst, others, hlist, hworse, hhits⟩ | ⟨hreach, hfull, hworse, hhits⟩
  · grind [left_out]
  · -- there is room
    have hperm : (push c.hits x).Perm (x :: c.hits) := push_perm c.hits x
    refine ⟨?_, ?_, ?_, ?_, ?_, ?_⟩
    · rw [hhits]
      exact h.sorted.orderedInsert _ _
    · rw [hhits]
      exact hperm.nodup_iff.2 (List.nodup_cons.2 ⟨hx, h.nodup⟩)
    · rw [hhits]
      intro hit hhit
      rcases List.mem_cons.1 (hperm.mem_iff.1 hhit) with rfl | hhit
      · simp
      · exact List.mem_append_left _ (h.offered hit hhit)
    · rw [hhits, hmin]
      intro hit hhit
      rcases List.mem_cons.1 (hperm.mem_iff.1 hhit) with rfl | hhit
      · exact hreach
      · exact h.reaches hit hhit
    · rw [hhits, hmax, hperm.length_eq, List.length_cons]
      omega
    · rw [hhits, hmin, hmax]
      intro y hy hyreach hynot
      rw [hperm.mem_iff, List.mem_cons, not_or] at hynot
      rcases List.mem_append.1 hy with hy | hy
      · -- nothing was left out before
        have := (h.low y hy hyreach hynot.2).1
        omega
      grind
  · -- the worst gives way
    have hperm : (push others x).Perm (x :: others) := push_perm others x
    have hsorted := h.sorted
    have hnodup := h.nodup
    rw [hlist] at hsorted hnodup hx hfull
    have hleast := head_le hsorted
    have hmem : ∀ {hit}, hit ∈ others → hit ∈ c.hits := fun hhit =>
      hlist ▸ List.mem_cons_of_mem worst hhit
    refine ⟨?_, ?_, ?_, ?_, ?_, ?_⟩
    · rw [hhits]
      exact (List.pairwise_cons.1 hsorted).2.orderedInsert _ _
    · rw [hhits]
      exact hperm.nodup_iff.2 (List.nodup_cons.2
        ⟨fun hhit => hx (List.mem_cons_of_mem _ hhit), (List.nodup_cons.1 hnodup).2⟩)
    · rw [hhits]
      intro hit hhit
      rcases List.mem_cons.1 (hperm.mem_iff.1 hhit) with rfl | hhit
      · simp
      · exact List.mem_append_left _ (h.offered hit (hmem hhit))
    · rw [hhits, hmin]
      intro hit hhit
      rcases List.mem_cons.1 (hperm.mem_iff.1 hhit) with rfl | hhit
      · exact hreach
      · exact h.reaches hit (hmem hhit)
    · have hroom := h.room
      rw [hlist, List.length_cons] at hroom
      rw [hhits, hmax, hperm.length_eq, List.length_cons]
      exact hroom
    · rw [hhits, hmin, hmax, hperm.length_eq, List.length_cons]
      intro y hy hyreach hynot
      rw [hperm.mem_iff, List.mem_cons, not_or] at hynot
      -- what is left out is not above the worst there was
      have hyworst : y.score ≤ worst.score := by
        rcases List.mem_append.1 hy with hy | hy
        · by_cases hyhits : y ∈ c.hits
          · grind
          grind [low]
        grind
      refine ⟨hfull, fun hit hhit => hyworst.trans ?_⟩
      rcases List.mem_cons.1 (hperm.mem_iff.1 hhit) with rfl | hhit
      · exact hworse.le
      grind
  · refine h.left_out hhits hmax hmin fun _ => ⟨hfull, fun hit hhit => ?_⟩
    have hsorted := h.sorted
    match hlist : c.hits with
    | [] =>
        rw [hlist] at hhit
        cases hhit
    | worst :: others =>
        rw [hlist] at hhit hsorted hworse
        exact (hworse worst rfl).trans (head_le hsorted hit hhit)

/-- **A hit that fewer than `max_docs` others reach is kept.** -/
theorem mem (better : List (ScoredDoc 𝕜)) (h : c.Keeps stream) (hx : x ∈ stream)
    (hreach : c.min_score ≤ x.score)
    (hbetter : ∀ hit ∈ stream, x.score ≤ hit.score → hit = x ∨ hit ∈ better)
    (hfew : better.length < c.max_docs) : x ∈ c.hits := by
  by_contra hnot
  obtain ⟨hfull, hlow⟩ := h.low x hx hreach hnot
  have hsub : c.hits ⊆ better := by
    grind [offered]
  have := (h.nodup.subperm hsub).length_le
  omega

end Keeps

/-- **A stream of distinct hits keeps the invariant.** -/
theorem keeps_of_nodup (max_docs : ℕ) (min_score : 𝕜) (hnodup : stream.Nodup) :
    ((with_min_score max_docs min_score).collect_stream stream).Keeps stream := by
  induction stream using List.reverseRecOn with
  | nil => exact with_min_score_keeps max_docs min_score
  | append_singleton stream x ih =>
      rw [List.nodup_append'] at hnodup
      obtain ⟨hstream, -, hdisjoint⟩ := hnodup
      unfold collect_stream
      rw [List.foldl_append]
      exact (ih hstream).collect fun hx => hdisjoint hx (List.mem_singleton_self x)

/-- **Hits that are not above those of a full collector change nothing.** -/
theorem collect_stream_low (hfull : c.max_docs ≤ c.hits.length)
    (hlow : ∀ x ∈ stream, ∀ hit ∈ c.hits, x.score ≤ hit.score) :
    (c.collect_stream stream).hits = c.hits := by
  unfold collect_stream
  induction stream generalizing c with
  | nil => rfl
  | cons x stream ih =>
      obtain ⟨hmax, -, hcases⟩ := c.collect_cases x.doc_id x.score
      have hhits : (c.collect x.doc_id x.score).hits = c.hits := by
        grind [List.mem_cons_self]
      grind

/-- **Hits above all others stand first**, in their own order. -/
theorem isPrefix_of_above {top : List (ScoredDoc 𝕜)} (hsorted : hits.Pairwise ScoredDoc.ranks)
    (hnodup : hits.Nodup) (hmem : ∀ t ∈ top, t ∈ hits)
    (hstrict : top.Pairwise fun a b => b.score < a.score)
    (habove : ∀ t ∈ top, ∀ x ∈ hits, x ∉ top → x.score < t.score) : top <+: hits := by
  induction top generalizing hits with
  | nil => exact List.nil_prefix
  | cons t top ih =>
      obtain ⟨hfirst, hrest⟩ := List.pairwise_cons.1 hstrict
      match hits with
      | [] => grind
      | first :: hits =>
          obtain ⟨hbest, hsorted⟩ := List.pairwise_cons.1 hsorted
          obtain ⟨hfresh, hnodup⟩ := List.nodup_cons.1 hnodup
          -- the first is not below `t`, and all others are
          have heq : first = t := by
            by_contra hne
            have hle : t.score ≤ first.score := by
              rcases List.mem_cons.1 (hmem t List.mem_cons_self) with heq | ht
              · exact absurd heq.symm hne
              · exact hbest t ht
            grind
          grind

end TopDocsCollector

end Ranking

end Laurus
