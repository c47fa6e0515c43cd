import Laurus.Search.Helpers.Ranking
import Mathlib.Algebra.Order.Ring.Int

/-!
# What the collector returns of the ranking

The ranking of a stream is by score, and by document where scores are equal.
The collector evicts and sorts by the score, and of equal scores its heap
gives up the lower document. So what it returns, in one pass or segment by
segment, is the first part of the ranking exactly where no tie reaches into
that part (`top_docs_ranked_iff`).
-/

namespace Laurus

variable {𝕜 : Type} [LinearOrder 𝕜]

namespace ScoredDoc

/-- By score, the highest first, and by document where scores are equal. -/
def better (a b : ScoredDoc 𝕜) : Prop :=
  b.score < a.score ∨ (a.score = b.score ∧ a.doc_id ≤ b.doc_id)

instance : DecidableRel (@better 𝕜 _) := fun _ _ => instDecidableOr

instance : Std.Total (@better 𝕜 _) where
  total a b := by
    simp only [better]
    grind

instance : IsTrans (ScoredDoc 𝕜) better where
  trans a b c hab hbc := by
    rcases hab with hab | ⟨hab, hab'⟩ <;> rcases hbc with hbc | ⟨hbc, hbc'⟩
    · exact Or.inl (hbc.trans hab)
    · exact Or.inl (hbc ▸ hab)
    · exact Or.inl (hab ▸ hbc)
    · exact Or.inr ⟨hab.trans hbc, hab'.trans hbc'⟩

theorem better.ranks {a b : ScoredDoc 𝕜} (h : better a b) : ranks a b := by
  rcases h with h | h
  · exact h.le
  · exact h.1.ge

end ScoredDoc

/-- The total ranking of some hits. -/
def ranking (hits : List (ScoredDoc 𝕜)) : List (ScoredDoc 𝕜) := hits.insertionSort ScoredDoc.better

variable {S stream hits : List (ScoredDoc 𝕜)} {k k' : ℕ} {t x : ScoredDoc 𝕜}

theorem ranking_perm (S : List (ScoredDoc 𝕜)) : (ranking S).Perm S := List.perm_insertionSort _ S

theorem ranking_better (S : List (ScoredDoc 𝕜)) : (ranking S).Pairwise ScoredDoc.better :=
  List.pairwise_insertionSort ScoredDoc.better S

section Ranked

variable [Zero 𝕜]

open TopDocsCollector

/-- The first `k` reach the collector's minimum, and no two hits up to the one
behind them have the same score. -/
structure NoTies (S : List (ScoredDoc 𝕜)) (k : ℕ) : Prop where
  reaches : ∀ hit ∈ (ranking S).take k, 0 ≤ hit.score
  strict : ((ranking S).take (k + 1)).Pairwise fun a b => b.score < a.score

/-- The result for `k` is the first part of the ranking: in whatever order the
hits are collected, as the beginning of the result for more, and segment by
segment. -/
structure RankedTopK (S : List (ScoredDoc 𝕜)) (k : ℕ) : Prop where
  one_pass : ∀ stream, stream.Perm S → ∀ hits,
    ((new k).collect_stream stream).MayReturn hits → hits = (ranking S).take k
  continued : ∀ k', k ≤ k' → ∀ stream stream', stream.Perm S → stream'.Perm S → ∀ hits hits',
    ((new k).collect_stream stream).MayReturn hits →
    ((new k').collect_stream stream').MayReturn hits' → hits <+: hits'
  fanout : ∀ segments : List (List (ScoredDoc 𝕜)), segments.flatten.Perm S → ∀ hits,
    search_per_segment_fanout k segments hits → hits = (ranking S).take k

namespace NoTies

theorem strict_take (h : NoTies S k) :
    ((ranking S).take k).Pairwise fun a b => b.score < a.score :=
  h.strict.sublist (List.take_sublist_take_left (Nat.le_succ k))

theorem below (h : NoTies S k) (ht : t ∈ (ranking S).take k) (hx : x ∈ S)
    (hnot : x ∉ (ranking S).take k) : x.score < t.score := by
  have hmem : x ∈ (ranking S).drop k := by
    grind [ranking_perm, List.take_append_drop]
  have hstrict := h.strict
  have hsorted := (ranking_better S).sublist (List.drop_sublist k _)
  match hdrop : (ranking S).drop k with
  | [] =>
      rw [hdrop] at hmem
      cases hmem
  | y :: rest =>
      rw [hdrop] at hmem hsorted
      -- the one behind them is strictly below, and the others are not above it
      have hnext : (ranking S).take (k + 1) = (ranking S).take k ++ [y] := by
        rw [List.take_add, hdrop]
        rfl
      rw [hnext, List.pairwise_append] at hstrict
      have hy := hstrict.2.2 t ht y (List.mem_singleton_self y)
      rcases List.mem_cons.1 hmem with rfl | hrest
      · exact hy
      · exact ((List.pairwise_cons.1 hsorted).1 x hrest).ranks.trans_lt hy

/-- **The first `k` are kept**, of any of the hits, by a collector of at least
that size. -/
theorem kept (h : NoTies S k) (hk : k ≤ k') (hnodup : stream.Nodup) (hsub : stream ⊆ S)
    (ht : t ∈ (ranking S).take k) (hmem : t ∈ stream) :
    t ∈ ((new k').collect_stream stream).hits := by
  obtain ⟨hmax, hmin⟩ := (new k' : TopDocsCollector 𝕜).collect_stream_limits stream
  have hlen := List.length_take_le k (ranking S)
  have hpos := List.length_pos_of_mem ht
  refine (keeps_of_nodup k' 0 hnodup).mem (((ranking S).take k).erase t) hmem
    (hmin.trans_le (h.reaches t ht)) (fun hit hhit hle => ?_) ?_
  · by_cases hin : hit ∈ (ranking S).take k
    · grind
    · exact absurd (h.below ht (hsub hhit) hin) (not_lt.2 hle)
  · rw [List.length_erase_of_mem ht]
    refine lt_of_lt_of_eq ?_ hmax.symm
    show _ < k'
    omega

theorem isPrefix (h : NoTies S k) (hk : k ≤ k') (hnodup : stream.Nodup)
    (hsub : stream ⊆ S) (hmem : ∀ t ∈ (ranking S).take k, t ∈ stream)
    (hreturn : ((new k').collect_stream stream).MayReturn hits) :
    (ranking S).take k <+: hits := by
  have hkeeps := keeps_of_nodup k' (0 : 𝕜) hnodup
  refine isPrefix_of_above hreturn.sorted (hreturn.perm.nodup_iff.2 hkeeps.nodup)
    (fun t ht => ?_) h.strict_take fun t ht x hx hnot => ?_
  · exact hreturn.perm.mem_iff.2 (h.kept hk hnodup hsub ht (hmem t ht))
  · exact h.below ht (hsub (hkeeps.offered x (hreturn.perm.mem_iff.1 hx))) hnot

theorem eq_take (h : NoTies S k) (hnodup : stream.Nodup)
    (hsub : stream ⊆ S) (hmem : ∀ t ∈ (ranking S).take k, t ∈ stream)
    (hreturn : ((new k).collect_stream stream).MayReturn hits) : hits = (ranking S).take k := by
  have hkeeps := keeps_of_nodup k (0 : 𝕜) hnodup
  refine ((h.isPrefix (Nat.le_refl k) hnodup hsub hmem hreturn).eq_of_length_le ?_).symm
  have hroom := hkeeps.room.trans_eq ((new k : TopDocsCollector 𝕜).collect_stream_limits stream).1
  have hall := (hkeeps.nodup.subperm fun hit hhit => hsub (hkeeps.offered hit hhit)).length_le
  rw [hreturn.perm.length_eq, List.length_take, (ranking_perm S).length_eq]
  exact le_min hroom hall

theorem partial_hits (h : NoTies S k) {segments results : List (List (ScoredDoc 𝕜))}
    (hsegments : List.Forall₂ (fun stream hits =>
      ((new k).collect_stream stream).MayReturn hits) segments results)
    (hnodup : segments.flatten.Nodup) (hsub : segments.flatten ⊆ S) :
    results.flatten.Nodup ∧ results.flatten ⊆ segments.flatten ∧
      ∀ t ∈ (ranking S).take k, t ∈ segments.flatten → t ∈ results.flatten := by
  induction hsegments with
  | nil => simp
  | @cons stream hits segments results hreturn _ ih =>
      rw [List.flatten_cons, List.nodup_append'] at hnodup
      obtain ⟨hstream, hrest, hdisjoint⟩ := hnodup
      rw [List.flatten_cons, List.append_subset] at hsub
      obtain ⟨hresults, hoffered, hheld⟩ := ih hrest hsub.2
      have hkeeps := keeps_of_nodup k (0 : 𝕜) hstream
      have hown : hits ⊆ stream := fun hit hhit =>
        hkeeps.offered hit (hreturn.perm.mem_iff.1 hhit)
      rw [List.flatten_cons, List.flatten_cons]
      refine ⟨?_, ?_, fun t ht hmem => ?_⟩
      · rw [List.nodup_append']
        exact ⟨hreturn.perm.nodup_iff.2 hkeeps.nodup, hresults,
          fun hit hhit hother => hdisjoint (hown hhit) (hoffered hother)⟩
      · grind
      · rcases List.mem_append.1 hmem with hmem | hmem
        · refine List.mem_append_left _ (hreturn.perm.mem_iff.2 ?_)
          exact h.kept (Nat.le_refl k) hstream hsub.1 ht hmem
        grind

/-- **Without ties the result is the first part of the ranking.** -/
theorem rankedTopK (h : NoTies S k) (hS : S.Nodup) : RankedTopK S k where
  one_pass stream hperm hits hreturn :=
    h.eq_take (hperm.nodup_iff.2 hS) hperm.subset
      (fun t ht => hperm.mem_iff.2 ((ranking_perm S).mem_iff.1 (List.mem_of_mem_take ht))) hreturn
  continued k' hk stream stream' hperm hperm' hits hits' hreturn hreturn' := by
    have hmem : ∀ stream : List (ScoredDoc 𝕜), stream.Perm S →
        ∀ t ∈ (ranking S).take k, t ∈ stream := fun stream hperm t ht =>
      hperm.mem_iff.2 ((ranking_perm S).mem_iff.1 (List.mem_of_mem_take ht))
    grind [eq_take, isPrefix]
  fanout segments hperm hits := by
    rintro ⟨per_segment_results, hsegments, hreturn⟩
    have hmem : ∀ t ∈ (ranking S).take k, t ∈ segments.flatten := fun t ht =>
      hperm.mem_iff.2 ((ranking_perm S).mem_iff.1 (List.mem_of_mem_take ht))
    grind [partial_hits, eq_take]

end NoTies

/-! ## With ties -/

namespace RankedTopK

/-- One pass over a stream may return the heap's entries, the last to be given
up first. -/
theorem take_eq_reverse (h : RankedTopK S k) (hS : S.Nodup) (hperm : stream.Perm S) :
    (ranking S).take k = ((new k).collect_stream stream).hits.reverse := by
  have hkeeps := keeps_of_nodup k (0 : 𝕜) (hperm.nodup_iff.2 hS)
  refine (h.one_pass stream hperm _ ⟨List.reverse_perm _, List.pairwise_reverse.2 ?_⟩).symm
  exact hkeeps.sorted.imp ScoredDoc.before.score_le

theorem reaches (h : RankedTopK S k) (hS : S.Nodup) :
    ∀ hit ∈ (ranking S).take k, 0 ≤ hit.score := by
  intro hit hhit
  have hkeeps := keeps_of_nodup k (0 : 𝕜) hS
  rw [h.take_eq_reverse hS (List.Perm.refl S), List.mem_reverse] at hhit
  exact ((new k : TopDocsCollector 𝕜).collect_stream_limits S).2.symm.trans_le
    (hkeeps.reaches hit hhit)

/-- **No two of the first `k` have the same score**: the heap has the higher
document of the two last, and the ranking the lower. -/
theorem strict_take (h : RankedTopK S k) (hS : S.Nodup) :
    ((ranking S).take k).Pairwise fun a b => b.score < a.score := by
  have hkeeps := keeps_of_nodup k (0 : 𝕜) hS
  have hreverse := List.pairwise_reverse.2 hkeeps.sorted
  have hbetter := (ranking_better S).sublist (List.take_sublist k _)
  have hnodup := ((ranking_perm S).nodup_iff.2 hS).sublist (List.take_sublist k _)
  have heq : (ranking S).take k = ((with_min_score k 0).collect_stream S).hits.reverse :=
    h.take_eq_reverse hS (List.Perm.refl S)
  rw [← heq] at hreverse
  refine ((hbetter.and hreverse).and hnodup).imp fun {a b} hand => ?_
  obtain ⟨⟨hab, hba⟩, hne⟩ := hand
  rcases hab with hlt | ⟨hscore, hdoc⟩
  · exact hlt
  · rcases hba with hlt | ⟨-, hdoc'⟩
    · exact hlt
    · obtain ⟨d, score⟩ := a
      obtain ⟨d', score'⟩ := b
      grind

/-- **Nor has the one behind them the score of one of them**: collected before
it, it is kept in its place. -/
theorem below_of_next (h : RankedTopK S k) (hS : S.Nodup) {y : ScoredDoc 𝕜}
    {rest : List (ScoredDoc 𝕜)} (hdrop : (ranking S).drop k = y :: rest)
    (ht : t ∈ (ranking S).take k) : y.score < t.score := by
  have hsplit : (ranking S).take k ++ y :: rest = ranking S := by
    rw [← hdrop, List.take_append_drop]
  have hbetter := ranking_better S
  have hnodup := (ranking_perm S).nodup_iff.2 hS
  rw [← hsplit] at hbetter hnodup
  obtain ⟨-, hback, hacross⟩ := List.pairwise_append.1 hbetter
  by_contra hnot
  have htie : t.score = y.score :=
    le_antisymm (not_lt.1 hnot) (hacross t ht y List.mem_cons_self).ranks
  -- the others of the first `k` and the one behind them, then `t` and the rest
  set first := ((ranking S).take k).erase t ++ [y] with hfirst
  have hperm : (first ++ t :: rest).Perm S := by
    refine List.Perm.trans ?_ (ranking_perm S)
    grind [List.perm_cons_erase]
  have hfirst_nodup : first.Nodup := by grind
  have hfirst_len : first.length = k := by grind
  have hle : ∀ u ∈ first, t.score ≤ u.score := by
    intro u hu
    rcases List.mem_append.1 hu with hu | hu
    · exact htie.trans_le (hacross u (List.mem_of_mem_erase hu) y List.mem_cons_self).ranks
    grind
  have hkeeps := keeps_of_nodup k (0 : 𝕜) hfirst_nodup
  have hlimits := (new k : TopDocsCollector 𝕜).collect_stream_limits first
  -- there is room for all of them, and none gives way to what follows
  have hall : first ⊆ ((new k).collect_stream first).hits := by
    intro u hu
    refine hkeeps.mem (first.erase u) hu (hlimits.2.trans_le ?_) (fun hit hhit _ => ?_) ?_
    · exact (h.reaches hS t ht).trans (hle u hu)
    · grind
    · rw [List.length_erase_of_mem hu]
      have hpos := List.length_pos_of_mem hu
      refine lt_of_lt_of_eq ?_ hlimits.1.symm
      show _ < k
      omega
  have hfull : ((new k).collect_stream first).max_docs ≤
      ((new k).collect_stream first).hits.length := by
    have := (hfirst_nodup.subperm hall).length_le
    refine hlimits.1.trans_le ?_
    show k ≤ _
    omega
  have hstays : ((new k).collect_stream (first ++ t :: rest)).hits =
      ((new k).collect_stream first).hits := by
    unfold collect_stream
    rw [List.foldl_append]
    refine collect_stream_low hfull fun x hx hit hhit => ?_
    refine le_trans ?_ (hle hit (hkeeps.offered hit hhit))
    rcases List.mem_cons.1 hx with rfl | hx
    · exact le_rfl
    · exact ((List.pairwise_cons.1 hback).1 x hx).ranks.trans htie.ge
  have hkept : t ∈ first := by
    have htake := h.take_eq_reverse hS hperm
    grind
  grind

end RankedTopK

/-- **What is returned is the first part of the ranking exactly where no tie
reaches into it.** -/
theorem top_docs_ranked_iff (S : List (ScoredDoc 𝕜)) (hS : S.Nodup) (k : ℕ) :
    RankedTopK S k ↔ NoTies S k := by
  refine ⟨fun h => ⟨h.reaches hS, ?_⟩, fun h => h.rankedTopK hS⟩
  rw [List.take_add, List.pairwise_append]
  refine ⟨h.strict_take hS, ?_, fun t ht y hy => ?_⟩
  · match (ranking S).drop k with
    | [] => exact List.Pairwise.nil
    | y :: rest => exact List.pairwise_singleton _ y
  · match hdrop : (ranking S).drop k with
    | [] =>
        rw [hdrop] at hy
        cases hy
    | first :: rest =>
        rw [hdrop] at hy
        obtain rfl := List.mem_singleton.1 hy
        exact h.below_of_next hS hdrop ht

theorem top_docs_ranked_iff_sample :
    RankedTopK [⟨1, 2⟩, ⟨2, (1 : ℤ)⟩] 1 ↔ NoTies [⟨1, 2⟩, ⟨2, (1 : ℤ)⟩] 1 :=
  top_docs_ranked_iff [⟨1, 2⟩, ⟨2, (1 : ℤ)⟩] (by decide) 1

/-- Two documents of one score, the second collected first: it is returned. -/
theorem top_docs_tie :
    (ranking [⟨1, 1⟩, ⟨2, (1 : ℤ)⟩]).take 1 = [⟨1, 1⟩] ∧
      ((new 1).collect_stream [⟨2, 1⟩, ⟨1, (1 : ℤ)⟩]).MayReturn [⟨2, 1⟩] ∧
      ¬ RankedTopK [⟨1, 1⟩, ⟨2, (1 : ℤ)⟩] 1 := by
  have hreturn : ((new 1).collect_stream [⟨2, 1⟩, ⟨1, (1 : ℤ)⟩]).MayReturn [⟨2, 1⟩] :=
    ⟨List.Perm.refl _, List.pairwise_singleton _ _⟩
  refine ⟨by decide, hreturn, fun h => ?_⟩
  have := h.one_pass _ (List.Perm.swap _ _ _) _ hreturn
  exact absurd this (by decide)

end Ranked

end Laurus
