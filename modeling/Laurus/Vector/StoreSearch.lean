import Laurus.Common.FirstK
import Laurus.Vector.Model.StoreSearch
import Mathlib.Algebra.Order.Ring.Rat

/-!
# One meaning for the hits of every path

A document's score is the sum, or the greatest, of what the queries that
returned it give: the weight times the best similarity. The paths give the
first documents by that score, but for a limit of 0, which the path of a
single query does not see, and for scores below 0, which the greatest counted
from 0 hides where they come within the limit.
-/

namespace Laurus

variable {V 𝕜 σ : Type}

/-! ## The documents that have a score -/

section Score

variable {score : ℕ → Option σ} {all : List (VectorHit σ)}

/-- All documents that have a score, each with it. -/
structure Enumerates (score : ℕ → Option σ) (all : List (VectorHit σ)) : Prop where
  once : (all.map VectorHit.doc_id).Nodup
  mem : ∀ hit, hit ∈ all ↔ score hit.doc_id = some hit.score

theorem Enumerates.nodup (h : Enumerates score all) : all.Nodup := List.Nodup.of_map _ h.once

theorem Enumerates.of_perm {items : List (ℕ × σ)} {m : AList fun _ : ℕ => σ}
    (hperm : items.Perm (m.entries.map fun e => (e.1, e.2)))
    (hlookup : ∀ doc, m.lookup doc = score doc) :
    Enumerates score (items.map fun hit => ⟨hit.1, hit.2⟩) where
  once := by
    rw [List.map_map]
    refine ((hperm.map Prod.fst).nodup_iff).2 ?_
    rw [List.map_map]
    exact m.nodupKeys
  mem hit := by
    rw [← hlookup, ← Option.mem_def, AList.mem_lookup_iff, List.mem_map]
    constructor
    · grind
    · intro hin
      exact ⟨(hit.doc_id, hit.score), hperm.mem_iff.2 (List.mem_map.2 ⟨_, hin, rfl⟩), rfl⟩

end Score

/-! ## The order of the hits -/

section Order

variable [LinearOrder σ] {a b c : VectorHit σ}

theorem VectorHit.orderedOn (all : List (VectorHit σ)) : OrderedOn VectorHit.le all where
  total a _ b _ := by
    rcases lt_trichotomy a.score b.score with h | h | h
    · exact Or.inr (Or.inl h)
    · rcases le_total a.doc_id b.doc_id with hdoc | hdoc
      · exact Or.inl (Or.inr ⟨h, hdoc⟩)
      · exact Or.inr (Or.inr ⟨h.symm, hdoc⟩)
    · exact Or.inl (Or.inl h)
  trans a _ b _ c _ := by
    rintro (hab | ⟨hab, hab'⟩) (hbc | ⟨hbc, hbc'⟩)
    · exact Or.inl (hbc.trans hab)
    · exact Or.inl (hbc ▸ hab)
    · exact Or.inl (hab ▸ hbc)
    · exact Or.inr ⟨hab.trans hbc, hab'.trans hbc'⟩
  antisymm a _ b _ := by
    rintro (hab | ⟨hab, hab'⟩) (hba | ⟨hba, hba'⟩)
    · exact absurd (hab.trans hba) (lt_irrefl _)
    · exact absurd hab (hba ▸ lt_irrefl _)
    · exact absurd hba (hab ▸ lt_irrefl _)
    · exact VectorHit.ext (le_antisymm hab' hba') hab

/-- The first `limit` documents by their score, each once. -/
def Answer (score : ℕ → Option σ) (limit : ℕ) (hits : List (VectorHit σ)) : Prop :=
  ∃ all, Enumerates score all ∧ FirstK VectorHit.le limit all hits

variable {score : ℕ → Option σ} {limit : ℕ} {all hits : List (VectorHit σ)}

theorem Enumerates.answer_take (h : Enumerates score all)
    (order : UnstableSort (VectorHit σ) VectorHit.le) (limit : ℕ) :
    FirstK VectorHit.le limit all ((order.sort all).take limit) :=
  FirstK.take_of_sorted (order.perm all) (order.sorted all) h.nodup limit

theorem Answer.unique (h : Answer score limit hits) (hall : Enumerates score all) :
    FirstK VectorHit.le limit all hits := by
  obtain ⟨all', hall', hfirst⟩ := h
  have hmem : ∀ hit, hit ∈ all' ↔ hit ∈ all := fun hit => (hall'.mem hit).trans (hall.mem hit).symm
  exact ⟨hfirst.sorted, hfirst.nodup, fun a ha => (hmem a).1 (hfirst.sub a ha), hfirst.room,
    fun a ha hnot => hfirst.rest a ((hmem a).2 ha) hnot⟩

theorem Answer.eq {hits' : List (VectorHit σ)} (hall : Enumerates score all)
    (h : Answer score limit hits) (h' : Answer score limit hits') : hits = hits' :=
  FirstK.unique (VectorHit.orderedOn all) (h.unique hall) (h'.unique hall)

/-- **What the selection leaves is the start of the sorted hits**, if it is
asked for any. -/
theorem select_top_k_by_score_eq (select : UnstableSelect (VectorHit σ) VectorHit.le)
    (order : UnstableSort (VectorHit σ) VectorHit.le) (hits : List (VectorHit σ)) (limit : ℕ) :
    select_top_k_by_score select order hits limit =
      if limit = 0 then order.sort hits else (order.sort hits).take limit := by
  have hlength := (order.perm hits).length_eq
  rw [select_top_k_by_score]
  by_cases hzero : limit = 0
  · rw [if_pos hzero, if_neg (by omega)]
  rw [if_neg hzero]
  by_cases hcut : 0 < min limit hits.length ∧ min limit hits.length < hits.length
  · have hlimit : min limit hits.length = limit := by omega
    rw [if_pos hcut, hlimit]
    set chosen := select.select hits (limit - 1) with hchosen
    have hsplit : ∀ a ∈ chosen.take limit, ∀ b ∈ chosen.drop limit, a.le b := by
      have h := select.split hits (limit - 1)
      grind
    -- the sorted start, and the sorted rest, are the sorted whole
    have hperm : (order.sort (chosen.take limit) ++ order.sort (chosen.drop limit)).Perm
        (order.sort hits) := by
      refine ((order.perm _).append (order.perm _)).trans ?_
      rw [List.take_append_drop]
      exact (select.perm hits _).trans (order.perm hits).symm
    have hsorted : (order.sort (chosen.take limit) ++ order.sort (chosen.drop limit)).Pairwise
        VectorHit.le := by
      grind [UnstableSort.sorted, UnstableSort.perm]
    have heq := eq_of_pairwise_on (VectorHit.orderedOn _) hsorted (order.sorted hits) hperm
      fun a ha => ha
    rw [← heq, List.take_left']
    rw [(order.perm _).length_eq, List.length_take, (select.perm hits _).length_eq]
    omega
  · rw [if_neg hcut, List.take_of_length_le (by omega)]

end Order

/-! ## The score of a document -/

section Search

variable [Field σ] [LinearOrder σ] {params : VectorSearchParams σ} {q : IndexQuery V 𝕜 σ}
variable {queries : List (IndexQuery V 𝕜 σ)} {doc : ℕ} {s : σ}

/-- The similarities of a document that pass the filters. -/
def similarities (params : VectorSearchParams σ) (q : IndexQuery V 𝕜 σ) (doc : ℕ) : List σ :=
  (q.results.filter fun r => decide (r.doc_id = doc) && params.passes r).map fun r => r.similarity

/-- What a query gives for a document that it returned: its weight times
the best similarity. -/
def query_score (params : VectorSearchParams σ) (q : IndexQuery V 𝕜 σ) (doc : ℕ) : Option σ :=
  (similarities params q doc).max?.map fun best => best * q.weight

/-- What the queries that returned a document give for it. -/
def query_scores (params : VectorSearchParams σ) (queries : List (IndexQuery V 𝕜 σ)) (doc : ℕ) :
    List σ :=
  queries.filterMap fun q => query_score params q doc

/-- The score of a document that some query returned. -/
def document_score (params : VectorSearchParams σ) (queries : List (IndexQuery V 𝕜 σ)) (doc : ℕ) :
    Option σ :=
  if params.score_mode = .MaxSim then (query_scores params queries doc).max?
  else if query_scores params queries doc = [] then none
  else some (query_scores params queries doc).sum

/-- What the general path counts: of the greatest, from 0. -/
def merged_score (params : VectorSearchParams σ) (queries : List (IndexQuery V 𝕜 σ)) (doc : ℕ) :
    Option σ :=
  if params.score_mode = .MaxSim then (document_score params queries doc).map (max 0)
  else document_score params queries doc

theorem values_of_results (f : VectorIndexQueryResult V 𝕜 σ → σ) :
    values_of ((q.results.filter params.passes).map fun r => (r.doc_id, f r)) doc =
      (q.results.filter fun r => decide (r.doc_id = doc) && params.passes r).map f := by
  rw [values_of, List.filter_map, List.map_map, List.filter_filter]
  rfl

theorem lookup_per_query_best :
    (per_query_best params q).lookup doc = (similarities params q doc).max? := by
  rw [per_query_best, lookup_gather_into, values_of_results, AList.lookup_empty,
    gather_values_keep_greater, similarities]

theorem values_of_weighted_scores (iter : MapOrder σ) :
    values_of (weighted_scores iter params q) doc = (query_score params q doc).toList := by
  have hvalues : values_of (weighted_scores iter params q) doc =
      (values_of (iter.into_iter (per_query_best params q)) doc).map fun best =>
        best * q.weight := by
    rw [weighted_scores, values_of, List.filter_map, List.map_map, values_of, List.map_map]
    rfl
  rw [hvalues, values_of_entries (iter.perm _), lookup_per_query_best, query_score]
  rcases (similarities params q doc).max? with _ | best
  · rfl
  · rfl

theorem max?_map_max_zero (values : List σ) :
    (values.max?.map (max 0)) = if values = [] then none else some (values.foldl max 0) := by
  rcases values with _ | ⟨v, values⟩
  · rfl
  · have hmax : ∀ (values : List σ) (v : σ), max 0 (values.foldl max v) = values.foldl max (max 0 v) := by
      intro values
      induction values with
      | nil => exact fun v => rfl
      | cons w values ih =>
          grind
    rw [List.max?_cons', Option.map_some, hmax, if_neg (List.cons_ne_nil _ _), List.foldl_cons]

/-- **What the general path has gathered of a document.** -/
theorem lookup_all_hits (iter : MapOrder σ) :
    (all_hits iter params queries).lookup doc = merged_score params queries doc := by
  have hterms : (queries.flatMap fun q => values_of (weighted_scores iter params q) doc) =
      query_scores params queries doc := by
    rw [query_scores, List.filterMap_eq_flatMap_toList]
    exact List.flatMap_congr fun q _ => values_of_weighted_scores iter
  rw [all_hits, gather_into_flatMap, lookup_gather_into, values_of_flatMap, hterms,
    AList.lookup_empty, merged_score, document_score]
  rcases hmode : params.score_mode
  · rw [if_neg (by decide), if_neg (by decide)]
    exact gather_values_add _
  · rw [if_pos rfl, if_pos rfl, max?_map_max_zero]
    exact gather_values_max_zero _
  · rw [if_neg (by decide), if_neg (by decide)]
    exact gather_values_add _

/-! ## The path of a single query -/

theorem document_score_singleton :
    document_score params [q] doc = query_score params q doc := by
  rw [document_score, query_scores]
  grind

section Fast

variable [IsStrictOrderedRing σ]

theorem max?_map_mul {w : σ} (hw : 0 ≤ w) (values : List σ) :
    (values.map fun v => v * w).max? = values.max?.map fun best => best * w := by
  rcases values with _ | ⟨v, values⟩
  · rfl
  · rw [List.map_cons, List.max?_cons', List.max?_cons', Option.map_some]
    congr 1
    induction values generalizing v with
    | nil => rfl
    | cons u values ih =>
        rw [List.map_cons, List.foldl_cons, List.foldl_cons, ← ih, max_mul_of_nonneg _ _ hw]

theorem enumerates_fast (iter : MapOrder σ) :
    Enumerates (document_score params [q])
      ((if q.field_name.isNone then
          iter.into_iter (gather_into keep_greater ∅ (fast_hits params q))
        else fast_hits params q).map fun hit => ⟨hit.1, hit.2⟩) := by
  have hvalues : ∀ doc, (values_of (fast_hits params q) doc).max? = query_score params q doc := by
    intro doc
    rw [fast_hits, values_of_results, query_score, similarities, ← max?_map_mul q.weight_nonneg,
      List.map_map]
    rfl
  rcases hfield : q.field_name with _ | field
  · refine Enumerates.of_perm (iter.perm _) fun doc => ?_
    rw [lookup_gather_into, AList.lookup_empty, gather_values_keep_greater, hvalues,
      document_score_singleton]
  · -- in one field a document comes once
    have hkeys : ((fast_hits params q).map Prod.fst).Nodup := by
      rw [fast_hits, List.map_map]
      have honce := q.once.sublist ((List.filter_sublist (p := params.passes)).map _)
      refine List.Nodup.of_map (fun d => (d, field)) ?_
      rw [List.map_map]
      refine (List.map_congr_left fun r hr => ?_) ▸ honce
      have hname := q.targeted field hfield r (List.mem_of_mem_filter hr)
      rw [VectorIndexQueryResult.key, hname]
      rfl
    refine ⟨?_, fun hit => ?_⟩
    · rw [List.map_map]
      exact hkeys
    · rw [document_score_singleton, ← hvalues, max?_values_of hkeys]
      grind

end Fast

/-! ## Where counting from 0 shows -/

/-- No score is below 0; or the limit is met by documents of a score above
0, or of 0 and before every document of a score below. -/
def Harmless (score : ℕ → Option σ) (limit : ℕ) : Prop :=
  (∀ doc s, score doc = some s → 0 ≤ s) ∨
    ∃ docs : List ℕ, docs.Nodup ∧ limit ≤ docs.length ∧ ∀ doc ∈ docs, ∃ s, score doc = some s ∧
      (0 < s ∨ (s = 0 ∧ ∀ d t, score d = some t → t < 0 → doc < d))

variable {score : ℕ → Option σ} {limit : ℕ} {hits all all' : List (VectorHit σ)}

theorem harmless_zero : Harmless score 0 :=
  Or.inr ⟨[], List.nodup_nil, Nat.zero_le _, fun _ h => absurd h List.not_mem_nil⟩

theorem Harmless.nonneg (h : Harmless score limit)
    (hall : Enumerates (fun doc => (score doc).map (max 0)) all)
    (hfirst : FirstK VectorHit.le limit all hits) {hit : VectorHit σ} (hmem : hit ∈ hits) :
    score hit.doc_id = some hit.score := by
  obtain ⟨s, hs, hmax⟩ := Option.map_eq_some_iff.1 ((hall.mem hit).1 (hfirst.sub hit hmem))
  by_cases hnonneg : 0 ≤ s
  · rw [hs, ← hmax, max_eq_right hnonneg]
  rcases h with hnone | ⟨docs, hnodup, hlen, hdocs⟩
  · exact absurd (hnone _ s hs) hnonneg
  · -- the documents that meet the limit come before this one
    exfalso
    have hzero : hit.score = 0 := by grind
    set counted := fun doc : ℕ => (⟨doc, max 0 ((score doc).getD 0)⟩ : VectorHit σ) with hcounted
    refine hfirst.notMem_of_before (VectorHit.orderedOn all) (hfirst.sub hit hmem)
      (hnodup.map (f := counted) fun a b hab => congrArg VectorHit.doc_id hab)
      (by rwa [List.length_map]) (fun b hb => ?_) hmem
    obtain ⟨doc, hdoc, rfl⟩ := List.mem_map.1 hb
    obtain ⟨t, ht, hcase⟩ := hdocs doc hdoc
    have hscore : counted doc = ⟨doc, max 0 t⟩ := by grind
    rw [hscore]
    refine ⟨(hall.mem _).2 (by rw [ht, Option.map_some]), ?_⟩
    rcases hcase with hpos | ⟨rfl, hleast⟩
    · have hlt : hit.score < max 0 t := by grind
      exact ⟨Or.inl hlt, fun heq => absurd (heq ▸ hlt) (lt_irrefl _)⟩
    · have hdoc_lt : doc < hit.doc_id := hleast _ s hs (not_le.1 hnonneg)
      refine ⟨Or.inr ⟨?_, hdoc_lt.le⟩, fun heq => ?_⟩
      · rw [hzero, max_self]
      grind

/-- **Counting from 0 is harmless just where the first hits so counted have
their own scores.** -/
theorem harmless_iff (hall : Enumerates (fun doc => (score doc).map (max 0)) all)
    (hfirst : FirstK VectorHit.le limit all hits) :
    Harmless score limit ↔ ∀ hit ∈ hits, score hit.doc_id = some hit.score := by
  refine ⟨fun h hit hmem => h.nonneg hall hfirst hmem, fun h => ?_⟩
  by_cases hneg : ∃ doc, ∃ s, score doc = some s ∧ s < 0
  · -- the first document of a score below 0 is not among the hits
    classical
    set d := Nat.find hneg with hd
    have hleast : ∀ e t, score e = some t → t < 0 → d ≤ e := fun e t ht htneg =>
      Nat.find_min' hneg ⟨t, ht, htneg⟩
    have hin : (⟨d, 0⟩ : VectorHit σ) ∈ all :=
      (hall.mem _).2 (by grind)
    have hout : (⟨d, 0⟩ : VectorHit σ) ∉ hits := by grind
    obtain ⟨hfull, hbefore⟩ := hfirst.rest _ hin hout
    have hids : (hits.map VectorHit.doc_id).Nodup := by
      refine hfirst.nodup.map_on fun a ha b hb hab => VectorHit.ext hab ?_
      grind
    refine Or.inr ⟨hits.map VectorHit.doc_id, hids, by rwa [List.length_map], fun doc hdoc => ?_⟩
    obtain ⟨hit, hmem, rfl⟩ := List.mem_map.1 hdoc
    refine ⟨hit.score, h hit hmem, ?_⟩
    rcases hbefore hit hmem with hpos | ⟨hzero, hle⟩
    · exact Or.inl hpos
    grind
  · refine Or.inl fun doc s hs => ?_
    grind

/-- What is counted from 0 is the answer by the scores, where that is
harmless. -/
theorem answer_iff_harmless (hall : Enumerates (fun doc => (score doc).map (max 0)) all)
    (hfirst : FirstK VectorHit.le limit all hits) :
    Answer score limit hits ↔ Harmless score limit := by
  constructor
  · rintro ⟨all', hall', hfirst'⟩
    rw [harmless_iff hall hfirst]
    exact fun hit hmem => (hall'.mem hit).1 (hfirst'.sub hit hmem)
  · intro h
    have hown := (harmless_iff hall hfirst).1 h
    set plain := fun hit : VectorHit σ => (⟨hit.doc_id, (score hit.doc_id).getD 0⟩ : VectorHit σ)
      with hplain
    have hmem_plain : ∀ hit, hit ∈ all.map plain ↔ score hit.doc_id = some hit.score := by
      intro hit
      rw [List.mem_map]
      constructor
      · grind [Option.map_eq_some_iff, Enumerates.mem]
      · intro hs
        refine ⟨⟨hit.doc_id, max 0 hit.score⟩, (hall.mem _).2 (by rw [hs, Option.map_some]), ?_⟩
        simp only [hplain, hs, Option.getD_some]
    refine ⟨all.map plain, ⟨?_, hmem_plain⟩, hfirst.sorted, hfirst.nodup,
      fun a ha => (hmem_plain a).2 (hown a ha), hfirst.room, fun a ha hnot => ?_⟩
    · rw [List.map_map]
      exact hall.once
    have hs := (hmem_plain a).1 ha
    have hin : (⟨a.doc_id, max 0 a.score⟩ : VectorHit σ) ∈ all :=
      (hall.mem _).2 (by rw [hs, Option.map_some])
    have hout : (⟨a.doc_id, max 0 a.score⟩ : VectorHit σ) ∉ hits := by grind
    obtain ⟨hfull, hbefore⟩ := hfirst.rest _ hin hout
    refine ⟨hfull, fun b hb => ?_⟩
    rcases lt_or_ge a.score 0 with hneg | hnonneg
    · -- below every score counted from 0
      refine Or.inl (hneg.trans_le ?_)
      rcases hbefore b hb with hlt | ⟨heq, -⟩
      · exact (le_max_left 0 a.score).trans hlt.le
      grind
    grind

/-! ## Both paths -/

theorem search_merged_answer (iter : MapOrder σ) (order : UnstableSort (VectorHit σ) VectorHit.le)
    (queries : List (IndexQuery V 𝕜 σ)) :
    Answer (document_score params queries) params.limit (search_merged iter order params queries) ↔
      (params.score_mode = .MaxSim → Harmless (document_score params queries) params.limit) := by
  have hall : Enumerates (merged_score params queries) _ :=
    Enumerates.of_perm (iter.perm (all_hits iter params queries)) fun doc => lookup_all_hits iter
  have hfirst := hall.answer_take order params.limit
  by_cases hmode : params.score_mode = .MaxSim
  · have hscore : merged_score params queries =
        fun doc => (document_score params queries doc).map (max 0) :=
      funext fun doc => by rw [merged_score, if_pos hmode]
    grind [search_merged, answer_iff_harmless]
  · have hscore : merged_score params queries = document_score params queries :=
      funext fun doc => by rw [merged_score, if_neg hmode]
    rw [hscore] at hall
    exact iff_of_true ⟨_, hall, hfirst⟩ fun h => absurd h hmode

theorem query_score_isSome :
    (query_score params q doc).isSome ↔ ∃ r ∈ q.results, params.passes r = true ∧ r.doc_id = doc := by
  rw [query_score, Option.isSome_map, List.isSome_max?_iff, similarities, Ne, List.map_eq_nil_iff,
    List.filter_eq_nil_iff]
  grind

theorem enumerates_nil_iff (hall : Enumerates (document_score params [q]) all) :
    all = [] ↔ ∀ r ∈ q.results, params.passes r = false := by
  have hscore : ∀ doc, document_score params [q] doc = query_score params q doc :=
    fun doc => document_score_singleton
  constructor
  · rintro rfl r hr
    rw [← Bool.not_eq_true]
    intro hpass
    obtain ⟨s, hs⟩ := Option.isSome_iff_exists.1 (query_score_isSome.2 ⟨r, hr, hpass, rfl⟩)
    exact absurd ((hall.mem ⟨r.doc_id, s⟩).2 (by rw [hscore, hs])) List.not_mem_nil
  · intro h
    rw [List.eq_nil_iff_forall_not_mem]
    grind [Enumerates.mem, query_score_isSome]

section Paths

variable [IsStrictOrderedRing σ]

theorem search_fast_eq (iter : MapOrder σ) (select : UnstableSelect (VectorHit σ) VectorHit.le)
    (order : UnstableSort (VectorHit σ) VectorHit.le) (q : IndexQuery V 𝕜 σ) :
    ∃ all, Enumerates (document_score params [q]) all ∧
      search_fast iter select order params q =
        if params.limit = 0 then order.sort all else (order.sort all).take params.limit :=
  ⟨_, enumerates_fast iter, select_top_k_by_score_eq select order _ _⟩

theorem search_fast_answer (iter : MapOrder σ)
    (select : UnstableSelect (VectorHit σ) VectorHit.le)
    (order : UnstableSort (VectorHit σ) VectorHit.le) (q : IndexQuery V 𝕜 σ) :
    Answer (document_score params [q]) params.limit (search_fast iter select order params q) ↔
      (0 < params.limit ∨ ∀ r ∈ q.results, params.passes r = false) := by
  obtain ⟨all, hall, heq⟩ := search_fast_eq iter select order q
  rw [heq, ← enumerates_nil_iff hall]
  by_cases hzero : params.limit = 0
  · rw [if_pos hzero, hzero]
    constructor
    · intro h
      have hroom := (h.unique hall).room
      rw [(order.perm all).length_eq] at hroom
      grind
    · rintro (h | rfl)
      · omega
      · refine ⟨[], hall, ?_⟩
        rw [(order.perm []).eq_nil]
        exact FirstK.self List.Pairwise.nil List.nodup_nil (Nat.zero_le _)
  · rw [if_neg hzero]
    exact iff_of_true ⟨all, hall, hall.answer_take order _⟩ (Or.inl (by omega))

theorem search_fast_eq_merged_iff (iter : MapOrder σ)
    (select : UnstableSelect (VectorHit σ) VectorHit.le)
    (order : UnstableSort (VectorHit σ) VectorHit.le) (q : IndexQuery V 𝕜 σ) :
    search_fast iter select order params q = search_merged iter order params [q] ↔
      (0 < params.limit ∨ ∀ r ∈ q.results, params.passes r = false) ∧
        (params.score_mode = .MaxSim → Harmless (document_score params [q]) params.limit) := by
  rw [← search_fast_answer iter select order q, ← search_merged_answer iter order [q]]
  obtain ⟨all, hall, heq⟩ := search_fast_eq iter select order q
  refine ⟨fun h => ?_, fun h => h.1.eq hall h.2⟩
  by_cases hzero : params.limit = 0
  · -- a limit of 0 leaves the general path nothing
    have hmerged : Answer (document_score params [q]) params.limit
        (search_merged iter order params [q]) := by
      rw [search_merged_answer, hzero]
      exact fun _ => harmless_zero
    exact ⟨h ▸ hmerged, hmerged⟩
  · have hfast : Answer (document_score params [q]) params.limit
        (search_fast iter select order params q) :=
      (search_fast_answer iter select order q).2 (Or.inl (by omega))
    exact ⟨hfast, h ▸ hfast⟩

/-- The answer is that by the scores; and of a single query it is what the
general path gives. -/
structure CombinesAlike (iter : MapOrder σ) (select : UnstableSelect (VectorHit σ) VectorHit.le)
    (order : UnstableSort (VectorHit σ) VectorHit.le) (params : VectorSearchParams σ)
    (queries : List (IndexQuery V 𝕜 σ)) : Prop where
  answer : Answer (document_score params queries) params.limit
    (search_impl iter select order params queries)
  alike : ∀ q, queries = [q] →
    search_impl iter select order params queries = search_merged iter order params queries

end Paths

end Search

/-! ## Two requests -/

/-- A map that gives its entries as they stand. -/
def entry_order : MapOrder σ where
  into_iter m := m.entries.map fun e => (e.1, e.2)
  perm _ := List.Perm.refl _

/-- The hits sorted by insertion. -/
def insertion_sort_hits [LinearOrder σ] : UnstableSort (VectorHit σ) VectorHit.le where
  sort hits := hits.insertionSort VectorHit.le
  perm hits := List.perm_insertionSort VectorHit.le hits
  sorted hits := pairwise_insertionSort_on (VectorHit.orderedOn hits) fun _ h => h

/-- A selection that sorts all. -/
def insertion_select_hits [LinearOrder σ] : UnstableSelect (VectorHit σ) VectorHit.le where
  select hits _ := hits.insertionSort VectorHit.le
  perm hits _ := List.perm_insertionSort VectorHit.le hits
  split hits n a ha b hb := by
    have hsorted := pairwise_insertionSort_on (VectorHit.orderedOn hits) fun _ h => h
    grind [List.take_append_drop]

/-- The query of weight 1 for which document 7 has a similarity in a field. -/
def one_hit (similarity : ℚ) : IndexQuery Unit Unit ℚ where
  field_name := some "v"
  weight := 1
  results := [⟨7, "v", similarity, (), none⟩]
  weight_nonneg := zero_le_one
  once := List.nodup_singleton _
  targeted := by simp

/-- No allow-set, and no minimum above -1. -/
def any_score (limit : ℕ) (score_mode : VectorScoreMode) : VectorSearchParams ℚ :=
  { limit, min_score := -1, score_mode, filter_set := none }

end Laurus
