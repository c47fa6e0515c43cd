import Laurus.Matcher.Semantics
import Laurus.Search.Helpers.Turn
import Mathlib.Algebra.BigOperators.Ring.Finset
import Mathlib.Algebra.Order.Field.Rat
import Mathlib.Logic.Relation

/-!
# Block-Max-WAND is exact

A run offers or rightly passes by every document: `Progress` is what holds
at each turn, and where the loop stops no document left can enter the
collector. So the scores of the results are the greatest of all matching
documents' scores, as if each had been scored.
-/

namespace Laurus

variable {𝕜 : Type} [Field 𝕜] [LinearOrder 𝕜]

/-- The scores of the documents `P` that reach the minimum. -/
def offers (score : ℕ → 𝕜) (min_score : 𝕜) (P : Finset ℕ) : Multiset 𝕜 :=
  (P.val.map score).filter fun s => min_score ≤ s

section Offers

variable {score : ℕ → 𝕜} {min_score a : 𝕜} {P Q : Finset ℕ}

omit [Field 𝕜] in
theorem mem_offers : a ∈ offers score min_score P ↔ ∃ d ∈ P, score d = a ∧ min_score ≤ a := by
  rw [offers, Multiset.mem_filter, Multiset.mem_map]
  grind

omit [Field 𝕜] in
theorem offers_empty : offers score min_score ∅ = 0 := rfl

omit [Field 𝕜] in
theorem offers_union (h : Disjoint P Q) :
    offers score min_score (P ∪ Q) = offers score min_score P + offers score min_score Q := by
  rw [← Finset.disjUnion_eq_union P Q h, offers, Finset.disjUnion_val, Multiset.map_add,
    Multiset.filter_add]
  rfl

omit [Field 𝕜] in
theorem offers_singleton (d : ℕ) (S : Multiset 𝕜) : offers score min_score {d} + S =
    if score d < min_score then S else score d ::ₘ S := by
  rw [offers, Finset.singleton_val, Multiset.map_singleton, Multiset.filter_singleton]
  split
  · rename_i h
    rw [if_neg (not_lt.2 h), Multiset.singleton_add]
  · rename_i h
    rw [if_pos (not_le.1 h), Multiset.empty_eq_zero, Multiset.zero_add]

end Offers

namespace BlockMaxOrExecutor

variable {σ : Type} {ops : MatcherOps σ} {n : ℕ}
variable {V : MatcherView ops} {clauses : Fin n → BmwClause 𝕜 σ} {st st' : BmwState 𝕜 σ n}
variable {max_docs p q : ℕ} {min_score : 𝕜}

/-- Every document before `p` has been offered or rightly passed by, and the
entries are documents with their own scores. -/
structure Progress (V : MatcherView ops) (clauses : Fin n → BmwClause 𝕜 σ) (max_docs : ℕ)
    (min_score : 𝕜) (p : ℕ) (st : BmwState 𝕜 σ n) : Prop where
  good : Good V st
  brought : ∀ i, BmwClause.From V p (clauses i) (st.clauses i)
  tops : st.collector.Tops (offers (total V clauses) min_score
    ((remaining V clauses).filter fun d => d < p))
  hits : ∀ hit ∈ st.collector.hits, hit.doc_id ∈ remaining V clauses ∧ hit.doc_id < p ∧
    hit.score = total V clauses hit.doc_id
  nodup : (st.collector.hits.map ScoredDoc.doc_id).Nodup
  max_docs_eq : st.collector.max_docs = max_docs
  min_score_eq : st.collector.min_score = min_score

namespace Progress

/-- **A turn keeps it.** -/
theorem moves (h : Progress V clauses max_docs min_score p st) (hgood : Good V st')
    (hmoves : Moves V q st.clauses st'.clauses)
    (hoffered : Offered V st.clauses q st.collector st'.collector) :
    Progress V clauses max_docs min_score (max p q) st' := by
  have hrem := remaining_from h.brought
  have htotal : ∀ {d}, d ∈ remaining V st.clauses →
      total V st.clauses d = total V clauses d := fun {d} hd => by
    rw [hrem] at hd
    exact total_from h.brought (Finset.mem_filter.1 hd).2
  have hsplit : (remaining V clauses).filter (fun d => d < max p q) =
      ((remaining V st.clauses).filter fun d => d < q) ∪
        (remaining V clauses).filter fun d => d < p := by grind
  have hdisjoint : Disjoint ((remaining V st.clauses).filter fun d => d < q)
      ((remaining V clauses).filter fun d => d < p) := by
    rw [Finset.disjoint_left]
    grind
  have hbrought := fun i => (h.brought i).trans (hmoves.brought i)
  rcases hoffered with ⟨hsame, hlow⟩ | ⟨d, hd, honly, hcollect⟩
  · -- what is passed by is not above the threshold
    refine ⟨hgood, hbrought, ?_, ?_, ?_, ?_, ?_⟩
    · rw [hsplit, offers_union hdisjoint, hsame]
      refine h.tops.skip fun a ha => ?_
      obtain ⟨d, hd, rfl, -⟩ := mem_offers.1 ha
      grind
    · intro hit hhit
      rw [hsame] at hhit
      obtain ⟨hmem, hlt, hscore⟩ := h.hits hit hhit
      grind
    · rw [hsame]
      exact h.nodup
    · rw [hsame]
      exact h.max_docs_eq
    · rw [hsame]
      exact h.min_score_eq
  · have hfilter : ((remaining V st.clauses).filter fun x => x < q) = {d} := by grind
    have hcases := st.collector.collect_cases d (total V st.clauses d)
    rw [htotal hd] at hcollect hcases
    refine ⟨hgood, hbrought, ?_, ?_, ?_, ?_, ?_⟩
    · rw [hsplit, offers_union hdisjoint, hfilter, offers_singleton, hcollect,
        ← h.min_score_eq]
      exact h.min_score_eq ▸ h.tops.collect d (total V clauses d)
    · intro hit hhit
      rw [hcollect] at hhit
      rcases TopDocsCollector.mem_collect hhit with rfl | hhit
      · grind
      · obtain ⟨hmem, hlt, hscore⟩ := h.hits hit hhit
        grind
    · grind [TopDocsCollector.collect_nodup, nodup, hits]
    · rw [hcollect, hcases.1, h.max_docs_eq]
    · rw [hcollect, hcases.2.1, h.min_score_eq]

theorem tops_of_stop (h : Progress V clauses max_docs min_score p st)
    (hlow : ∀ d ∈ remaining V st.clauses,
      ((total V st.clauses d : 𝕜) : WithBot 𝕜) ≤ st.collector.min_competitive) :
    st.collector.Tops (offers (total V clauses) min_score (remaining V clauses)) := by
  have hrem := remaining_from h.brought
  have hsplit : remaining V clauses = remaining V st.clauses ∪
      (remaining V clauses).filter fun d => d < p := by grind
  have hdisjoint : Disjoint (remaining V st.clauses)
      ((remaining V clauses).filter fun d => d < p) := by
    rw [hrem, Finset.disjoint_left]
    grind
  rw [hsplit, offers_union hdisjoint]
  refine h.tops.skip fun a ha => ?_
  obtain ⟨d, hd, rfl, -⟩ := mem_offers.1 ha
  have htotal : total V st.clauses d = total V clauses d := by
    rw [hrem] at hd
    exact total_from h.brought (Finset.mem_filter.1 hd).2
  rw [← htotal]
  exact hlow d hd

end Progress

/-! ## The run -/

section Run

variable [IsStrictOrderedRing 𝕜]

/-- The work left. -/
def work (V : MatcherView ops) (clauses : Fin n → BmwClause 𝕜 σ) : ℕ :=
  ∑ i, ((clauses i).rem V).card

omit [IsStrictOrderedRing 𝕜] in
theorem Moves.work_lt (h : Moves V q st.clauses st'.clauses) (hgood : Good V st) :
    work V st'.clauses < work V st.clauses := by
  obtain ⟨i, hlive, hlt⟩ := h.passes
  exact Finset.sum_lt_sum (fun j _ => (h.brought j).card_le)
    ⟨i, Finset.mem_univ i, (h.brought i).card_lt (hgood.inv i) hlive hlt⟩

/-- **The loop ends, and no later than the work is done.** -/
theorem run_loop_spec (turns : ℕ) : ∀ {p : ℕ} {st : BmwState 𝕜 σ n},
    Progress V clauses max_docs min_score p st → work V st.clauses < turns →
    ∃ c, run_loop ops turns st = some c ∧
      c.Tops (offers (total V clauses) min_score (remaining V clauses)) ∧
      c.max_docs = max_docs ∧ (c.hits.map ScoredDoc.doc_id).Nodup ∧
      ∀ hit ∈ c.hits, hit.doc_id ∈ remaining V clauses ∧
        hit.score = total V clauses hit.doc_id := by
  induction turns with
  | zero => intro p st _ hwork; omega
  | succ turns ih =>
      intro p st h hwork
      rcases iterate_spec h.good with ⟨hstop, hlow⟩ | ⟨st', q, hmore, hgood, hmoves, hoffered⟩
      · refine ⟨st.collector, ?_, h.tops_of_stop hlow, h.max_docs_eq, h.nodup, fun hit hhit => ?_⟩
        · rw [run_loop, hstop]
          rfl
        · exact ⟨(h.hits hit hhit).1, (h.hits hit hhit).2.2⟩
      · have hless := hmoves.work_lt h.good
        obtain ⟨c, hrun, hc⟩ := ih (h.moves hgood hmoves hoffered) (by omega)
        exact ⟨c, by rw [run_loop, hmore]; exact hrun, hc⟩

omit [IsStrictOrderedRing 𝕜] in
theorem start_good {executor : BlockMaxOrExecutor 𝕜 σ n}
    (hinv : ∀ i, V.Inv (executor.clauses i).matcher)
    (hsound : ∀ i, (executor.clauses i).scorer.Sound ((executor.clauses i).rem V)
      (executor.clauses i).term_freqs) (collector : TopDocsCollector 𝕜) :
    Good V (executor.start ops collector) where
  inv := hinv
  sound := hsound
  nodup := (List.nodup_finRange n).filter _
  mem_active i := by
    rw [start, List.mem_filter]
    grind [BmwClause.live_iff]

omit [IsStrictOrderedRing 𝕜] in
theorem start_progress {executor : BlockMaxOrExecutor 𝕜 σ n}
    (hinv : ∀ i, V.Inv (executor.clauses i).matcher)
    (hsound : ∀ i, (executor.clauses i).scorer.Sound ((executor.clauses i).rem V)
      (executor.clauses i).term_freqs) (max_docs : ℕ) (min_score : 𝕜) :
    Progress V executor.clauses max_docs min_score 0
      (executor.start ops (.with_min_score max_docs min_score)) where
  good := start_good hinv hsound _
  brought i := BmwClause.From.of_le (hinv i) (Nat.zero_le _)
  tops := by
    have hnone : ((remaining V executor.clauses).filter fun d => d < 0) = ∅ := by simp
    rw [hnone, offers_empty]
    exact TopDocsCollector.with_min_score_tops max_docs min_score
  hits hit hhit := absurd hhit List.not_mem_nil
  nodup := List.nodup_nil
  max_docs_eq := rfl
  min_score_eq := rfl

theorem reached_good (hgood : Good V st)
    (hreach : Relation.ReflTransGen (fun a b => iterate ops a = some (.more b)) st st') :
    Good V st' := by
  induction hreach with
  | refl => exact hgood
  | tail _ hstep ih =>
      grind [iterate_spec]

theorem iterate_advances (hgood : Good V st) (hstep : iterate ops st = some (.more st')) :
    (∀ i, (st.clauses i).doc_id ops ≤ (st'.clauses i).doc_id ops) ∧
      ∃ i, (st.clauses i).doc_id ops < (st'.clauses i).doc_id ops := by
  rcases iterate_spec hgood with ⟨hstop, -⟩ | ⟨st'', q, hmore, -, hmoves, -⟩
  · grind
  · rw [hmore, Option.some.injEq, BmwTurn.more.injEq] at hstep
    subst hstep
    obtain ⟨i, -, hlt⟩ := hmoves.passes
    exact ⟨fun j => (hmoves.brought j).doc_id_le (hgood.inv j),
      i, hlt.trans_le ((hmoves.brought i).le_doc_id hmoves.le_end)⟩

end Run

/-! ## The outer boost -/

section New

variable {outer_boost : 𝕜} {c : BmwClause 𝕜 σ}

theorem new_matcher (i : Fin n) :
    ((new outer_boost clauses).clauses i).matcher = (clauses i).matcher := by
  simp only [new]
  split <;> rfl

theorem new_value (i : Fin n) (d : ℕ) :
    ((new outer_boost clauses).clauses i).value d = outer_boost * (clauses i).value d := by
  simp only [new]
  split
  · rename_i hone
    rw [hone, one_mul]
  · exact BM25Scorer.score_set_boost _ _ _

theorem new_sound [IsStrictOrderedRing 𝕜] {D : Finset ℕ} (houter : 0 ≤ outer_boost) (i : Fin n)
    (h : (clauses i).scorer.Sound D (clauses i).term_freqs) :
    ((new outer_boost clauses).clauses i).scorer.Sound D
      ((new outer_boost clauses).clauses i).term_freqs := by
  simp only [new]
  split
  · exact h
  · exact h.set_boost houter

end New

end BlockMaxOrExecutor

open BlockMaxOrExecutor in
/-- **Block-Max-WAND equals exhaustive scoring.** The clauses' cursors are
those of any trees of matchers, and their tables hold for the trees'
documents. Then the run ends, the scores of its results are the `max_docs`
greatest of those of all matching documents that reach the initial minimum,
each result is a matching document with its own score, none twice; and each
turn moves some clause forward and none back. -/
theorem block_max_or_exact [IsStrictOrderedRing 𝕜] {n : ℕ} (depth : ℕ)
    (clauses : Fin n → BmwClause 𝕜 Matcher) (trees : Fin n → MatcherTree) (outer_boost : 𝕜)
    (max_docs : ℕ) (min_score : 𝕜) (hdepth : ∀ i, (trees i).depth ≤ depth)
    (hbuild : ∀ i, (trees i).build depth = some (clauses i).matcher) (houter : 0 ≤ outer_boost)
    (hsound : ∀ i, (clauses i).scorer.Sound (trees i).denote (clauses i).term_freqs) :
    let ops := Matcher.ops depth
    let executor := new outer_boost clauses
    let collector := TopDocsCollector.with_min_score max_docs min_score
    let docs := Finset.univ.biUnion fun i => (trees i).denote
    let score := fun d => outer_boost * ∑ i, if d ∈ (trees i).denote then
      (clauses i).scorer.score d ((clauses i).term_freqs d : 𝕜) none else 0
    (∀ turns, ∑ i, (trees i).denote.card < turns →
      ∃ c, executor.run ops turns collector = some c ∧
        c.results.map ScoredDoc.score =
          (((docs.val.map score).filter fun s => min_score ≤ s).sort (· ≥ ·)).take max_docs ∧
        (c.results.map ScoredDoc.doc_id).Nodup ∧
        ∀ hit ∈ c.results, hit.doc_id ∈ docs ∧ hit.score = score hit.doc_id) ∧
    ∀ st st', Relation.ReflTransGen (fun a b => iterate ops a = some (.more b))
        (executor.start ops collector) st →
      iterate ops st = some (.more st') →
        (∀ i, (st.clauses i).doc_id ops ≤ (st'.clauses i).doc_id ops) ∧
          ∃ i, (st.clauses i).doc_id ops < (st'.clauses i).doc_id ops := by
  intro ops executor collector docs score
  let V := Matcher.treeView depth
  have hat : ∀ i, Matcher.At depth (trees i).denote (clauses i).matcher := by
    intro i
    obtain ⟨m, hm, hat⟩ := MatcherTree.build_spec depth (trees i) (hdepth i)
    rw [hbuild i, Option.some.injEq] at hm
    exact hm ▸ hat
  have hinv : ∀ i, V.Inv (executor.clauses i).matcher := by
    intro i
    rw [new_matcher]
    exact (hat i).1
  have hrem : ∀ i, (executor.clauses i).rem V = (trees i).denote := by
    intro i
    rw [BmwClause.rem, new_matcher]
    exact (hat i).2.1
  have hsound' : ∀ i, (executor.clauses i).scorer.Sound ((executor.clauses i).rem V)
      (executor.clauses i).term_freqs := by
    intro i
    rw [hrem]
    exact new_sound houter i (hsound i)
  have hdocs : remaining V executor.clauses = docs := by
    simp only [remaining, hrem]
    rfl
  have hscore : total V executor.clauses = score := by
    funext d
    simp only [score, total, Finset.mul_sum]
    refine Finset.sum_congr rfl fun i _ => ?_
    rw [BmwClause.share, hrem, new_value, mul_ite, mul_zero]
    rfl
  have hprogress := start_progress hinv hsound' max_docs min_score
  refine ⟨fun turns hturns => ?_, fun st st' hreach hstep => ?_⟩
  · have hwork : work V executor.clauses < turns := by
      simp only [work, hrem]
      exact hturns
    obtain ⟨c, hrun, htops, hmax, hnodup, hhits⟩ := run_loop_spec turns hprogress hwork
    have hperm : c.results.Perm c.hits := List.perm_insertionSort _ _
    rw [hdocs, hscore] at htops hhits
    refine ⟨c, hrun, ?_, ?_, fun hit hhit => hhits hit (hperm.mem_iff.1 hhit)⟩
    · rw [htops.results_scores, hmax]
      rfl
    · exact (hperm.map ScoredDoc.doc_id).nodup_iff.2 hnodup
  · exact iterate_advances (reached_good hprogress.good hreach) hstep

/-! ### An example -/

/-- A term of documents 1, 5 and 9, in two blocks, and one of 5 and 7 whose
table is not there. -/
def BmwClause.sample_docs (i : Fin 2) : List UInt32 := if i = 0 then [1, 5, 9] else [5, 7]

theorem BmwClause.sample_docs_ascending : ∀ i, (sample_docs i).Pairwise (· < ·) :=
  Fin.forall_fin_two.2 ⟨by decide, by decide⟩

def BmwClause.sample_trees (i : Fin 2) : MatcherTree :=
  .posting ⟨sample_docs i, sample_docs_ascending i⟩

def BmwClause.sample (i : Fin 2) : BmwClause ℚ Matcher where
  scorer :=
    if i = 0 then .with_block_max 3 0 9 1 1 0 [⟨5, 1⟩, ⟨9, 1⟩] else .new 2 0 9 1 1
  matcher := .posting (PostingMatcher.new (PostingIter.new (sample_docs i)))
  term_freqs _ := 1

theorem BmwClause.sample_component (i : Fin 2) (d : ℕ) :
    (sample i).scorer.component d 1 = 1 := by
  have hone : ∀ s : BM25Scorer ℚ, s.avg_field_length = 0 → s.k1 = 6 / 5 →
      s.component d 1 = 1 := by
    intro s havg hk1
    rw [BM25Scorer.component, BM25Scorer.tf, BM25Scorer.norm_factor, if_pos havg, hk1]
    norm_num
  rw [sample]
  split
  · exact hone _ rfl rfl
  · exact hone _ rfl rfl

theorem BmwClause.sample_sound : ∀ i : Fin 2,
    (sample i).scorer.Sound (sample_trees i).denote (sample i).term_freqs := by
  refine Fin.forall_fin_two.2 ⟨?_, ?_⟩
  · refine ⟨by decide, by decide, by decide +kernel, by decide +kernel, by decide +kernel,
      by decide, by decide, by decide, fun h => absurd h (by decide), fun _ _ d hd => ?_⟩
    have hcomponent : (sample 0).scorer.component d ((sample 0).term_freqs d) ≤ 1 :=
      (sample_component 0 d).le
    have hmem : d = 1 ∨ d = 5 ∨ d = 9 := by
      simpa [sample_trees, sample_docs, MatcherTree.denote] using hd
    rcases hmem with rfl | rfl | rfl
    · exact ⟨⟨5, 1⟩, rfl, hcomponent⟩
    · exact ⟨⟨5, 1⟩, rfl, hcomponent⟩
    · exact ⟨⟨9, 1⟩, rfl, hcomponent⟩
  · exact ⟨by decide, by decide, by decide +kernel, by decide +kernel, by decide +kernel,
      by decide, by decide, by decide, fun h => absurd h (by decide), fun h => absurd rfl h⟩

open BlockMaxOrExecutor in
/-- The best one of the sample is document 5, which both terms hold. -/
theorem block_max_or_exact_sample : ∃ c,
    (new 1 BmwClause.sample).run (Matcher.ops 1) 6 (.with_min_score 1 0) = some c ∧
      c.results = [⟨5, 2⟩] := by
  obtain ⟨c, hrun, -⟩ := (block_max_or_exact 1 BmwClause.sample BmwClause.sample_trees 1
    1 0 (by decide) (fun _ => rfl) (by decide) BmwClause.sample_sound).1 6
    (by decide)
  have hresults : ((new 1 BmwClause.sample).run (Matcher.ops 1) 6 (.with_min_score 1 0)).map
      TopDocsCollector.results = some [⟨5, 2⟩] := by decide +kernel
  rw [hrun, Option.map_some, Option.some.injEq] at hresults
  exact ⟨c, hrun, hresults⟩

end Laurus
