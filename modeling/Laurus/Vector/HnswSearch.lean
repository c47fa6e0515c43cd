import Laurus.Common.FirstK
import Laurus.Vector.Fanout
import Laurus.Vector.Helpers.HnswTraverse

/-!
# The HNSW graph search is sound, and exact where nothing binds

Whatever the graph, a search ends with hits that are `Eligible`, nearest
first and each once. From a start that reaches every node, with room in the
result heap for every node, they are the best ones (`best`), and so they are
from the allow-set scan: the modes differ in what they visit, and the tail
makes the same results of the same documents.
-/

namespace Laurus

namespace HnswSearcher

open SegmentFanoutSearcher (hit_le hit_le_trans hit_le_total)

variable {V 𝕜 σ : Type} [LinearOrder 𝕜] [LT σ] [DecidableLT σ]

/-! ## The hits there are -/

/-- What may be returned: a live document of the filter that has a vector in
the field and reaches the minimum, at its true distance. -/
structure Eligible (searcher : HnswSearcher V 𝕜 σ) (request : HnswQuery σ) (field : String)
    (hit : VectorIndexQueryResult V 𝕜 σ) : Prop where
  field_name : hit.field_name = field
  live : searcher.reader.is_deleted hit.doc_id = false
  asked : ∀ filter, request.filter = some filter → hit.doc_id ∈ filter.ids
  stored : ∃ pos, searcher.reader.position field hit.doc_id = some pos ∧
    hit.distance = searcher.distance_at pos ∧
    hit.vector = if request.include_vectors then some (searcher.reader.vector_at pos) else none
  similarity : hit.similarity = searcher.distance_to_similarity hit.distance
  reaches : ¬ hit.similarity < request.params.min_similarity

/-- The hit of a document's record, when it reaches the minimum. -/
def hit_at (searcher : HnswSearcher V 𝕜 σ) (request : HnswQuery σ) (field : String)
    (doc_id pos : ℕ) : Option (VectorIndexQueryResult V 𝕜 σ) :=
  let distance := searcher.distance_at pos
  let similarity := searcher.distance_to_similarity distance
  if similarity < request.params.min_similarity then none
  else some {
    doc_id := doc_id
    field_name := field
    similarity := similarity
    distance := distance
    vector := if request.include_vectors then some (searcher.reader.vector_at pos) else none }

/-- The hit of a document, when it is eligible. -/
def eligible_hit (searcher : HnswSearcher V 𝕜 σ) (request : HnswQuery σ) (field : String)
    (doc_id : ℕ) : Option (VectorIndexQueryResult V 𝕜 σ) :=
  if searcher.reader.is_deleted doc_id then none
  else if request.filter.all fun filter => filter.contains doc_id then
    (searcher.reader.position field doc_id).bind (searcher.hit_at request field doc_id)
  else none

/-- The hits of the segment. -/
def eligible_hits (searcher : HnswSearcher V 𝕜 σ) (request : HnswQuery σ) (field : String) :
    List (VectorIndexQueryResult V 𝕜 σ) :=
  searcher.reader.graph.doc_ids.filterMap (searcher.eligible_hit request field)

/-- The best of them, as many as were asked for. -/
def best (searcher : HnswSearcher V 𝕜 σ) (request : HnswQuery σ) (field : String) :
    List (VectorIndexQueryResult V 𝕜 σ) :=
  ((searcher.eligible_hits request field).insertionSort hit_le).take request.params.top_k

/-- Nearer, or as near and of a lower id. -/
def hit_lt (a b : VectorIndexQueryResult V 𝕜 σ) : Prop :=
  a.distance < b.distance ∨ a.distance = b.distance ∧ a.doc_id < b.doc_id

/-- What every search returns. -/
structure SoundResults (searcher : HnswSearcher V 𝕜 σ) (request : HnswQuery σ) (field : String)
    (results : List (VectorIndexQueryResult V 𝕜 σ)) : Prop where
  room : results.length ≤ request.params.top_k
  order : results.Pairwise hit_lt
  eligible : ∀ hit ∈ results, Eligible searcher request field hit

variable {searcher : HnswSearcher V 𝕜 σ} {request : HnswQuery σ} {field : String}
variable {doc_id : ℕ} {hit : VectorIndexQueryResult V 𝕜 σ}

omit [LinearOrder 𝕜] in
theorem eligible_hit_eq_some : searcher.eligible_hit request field doc_id = some hit ↔
    hit.doc_id = doc_id ∧ Eligible searcher request field hit := by
  constructor
  · intro h
    unfold eligible_hit at h
    split at h
    · cases h
    · rename_i hlive
      split at h
      · rename_i hasked
        obtain ⟨pos, hpos, h⟩ := Option.bind_eq_some_iff.1 h
        unfold hit_at at h
        dsimp only at h
        split at h
        · cases h
        · rename_i hreaches
          cases h
          refine ⟨rfl, rfl, Bool.eq_false_iff.2 hlive, fun filter hfilter => ?_,
            ⟨pos, hpos, rfl, rfl⟩, rfl, hreaches⟩
          rw [hfilter] at hasked
          exact of_decide_eq_true hasked
      · cases h
  · rintro ⟨rfl, h⟩
    obtain ⟨pos, hpos, hdistance, hvector⟩ := h.stored
    have hasked : (request.filter.all fun filter => filter.contains hit.doc_id) = true := by
      rcases hfilter : request.filter with _ | filter
      · rfl
      · exact decide_eq_true (h.asked filter hfilter)
    have hreaches := h.reaches
    rw [h.similarity, hdistance] at hreaches
    rw [eligible_hit, if_neg (by rw [h.live]; exact Bool.false_ne_true), if_pos hasked, hpos,
      Option.bind_some, hit_at, if_neg hreaches, ← hvector, ← hdistance, ← h.similarity,
      ← h.field_name]

omit [LinearOrder 𝕜] in
theorem mem_eligible_hits :
    hit ∈ searcher.eligible_hits request field ↔ Eligible searcher request field hit := by
  rw [eligible_hits, List.mem_filterMap]
  constructor
  · rintro ⟨doc_id, -, h⟩
    exact (eligible_hit_eq_some.1 h).2
  · intro h
    obtain ⟨pos, hpos, -⟩ := h.stored
    exact ⟨hit.doc_id, HnswIndexReader.mem_doc_ids_of_position hpos,
      eligible_hit_eq_some.2 ⟨rfl, h⟩⟩

omit [LinearOrder 𝕜] in
theorem Eligible.unique {hit' : VectorIndexQueryResult V 𝕜 σ}
    (h : Eligible searcher request field hit) (h' : Eligible searcher request field hit')
    (hid : hit.doc_id = hit'.doc_id) : hit = hit' := by
  have heq := eligible_hit_eq_some.2 ⟨rfl, h⟩
  rw [hid, eligible_hit_eq_some.2 ⟨rfl, h'⟩] at heq
  exact (Option.some.inj heq).symm

omit [LinearOrder 𝕜] in
theorem nodup_eligible_hits : (searcher.eligible_hits request field).Nodup := by
  refine searcher.reader.nodup_doc_ids.filterMap fun id id' b hb hb' => ?_
  exact (eligible_hit_eq_some.1 hb).1.symm.trans (eligible_hit_eq_some.1 hb').1

theorem orderedOn_eligible {hits : List (VectorIndexQueryResult V 𝕜 σ)}
    (h : ∀ hit ∈ hits, Eligible searcher request field hit) : OrderedOn hit_le hits where
  total a _ b _ := hit_le_total a b
  trans a _ b _ c _ := hit_le_trans a b c
  antisymm a ha b hb hab hba :=
    (h a ha).unique (h b hb) (SegmentFanoutSearcher.doc_id_eq_of_hit_le hab hba)

/-! ## The tail -/

/-- The documents found are live ones of the filter at their distances, each
once. -/
structure Found (searcher : HnswSearcher V 𝕜 σ) (request : HnswQuery σ) (field : String)
    (found : List (ResultCandidate 𝕜)) : Prop where
  distance : ∀ c ∈ found, c.distance = searcher.calc_dist field c.id
  live : ∀ c ∈ found, searcher.reader.is_deleted c.id = false
  asked : ∀ c ∈ found, ∀ filter, request.filter = some filter → c.id ∈ filter.ids
  nodup : (found.map ResultCandidate.id).Nodup

/-- Stored vectors are nearer than the marker. -/
def BelowMarker (searcher : HnswSearcher V 𝕜 σ) (field : String) : Prop :=
  ∀ doc_id pos, searcher.reader.position field doc_id = some pos →
    searcher.distance_at pos < searcher.missing

variable {found : List (ResultCandidate 𝕜)} {c : ResultCandidate 𝕜}

/-- **The tail makes of a document found its hit**, when it is eligible. -/
theorem result_of_eq (hmarker : BelowMarker searcher field) (h : Found searcher request field found)
    (hc : c ∈ found) : searcher.result_of request field c =
      searcher.eligible_hit request field c.id := by
  have hlive := h.live c hc
  have hasked : (request.filter.all fun filter => filter.contains c.id) = true := by
    rcases hfilter : request.filter with _ | filter
    · rfl
    · exact decide_eq_true (h.asked c hc filter hfilter)
  have hdistance := h.distance c hc
  rw [calc_dist_of_live hlive] at hdistance
  have hhit : searcher.eligible_hit request field c.id =
      (searcher.reader.position field c.id).bind (searcher.hit_at request field c.id) := by
    rw [eligible_hit, if_neg (by rw [hlive]; exact Bool.false_ne_true), if_pos hasked]
  rw [hhit, result_of]
  rcases hpos : searcher.reader.position field c.id with _ | pos
  · grind
  · rw [hpos, Option.map_some, Option.getD_some] at hdistance
    have hvector : searcher.reader.get_position field c.id = some pos := by
      rw [HnswIndexReader.get_position, hlive, if_neg Bool.false_ne_true, hpos]
    rw [if_neg (hdistance ▸ ne_of_lt (hmarker _ _ hpos)), hdistance, hvector]
    rfl

theorem results_of_eq (hmarker : BelowMarker searcher field)
    (h : Found searcher request field found) :
    found.filterMap (searcher.result_of request field) =
      (found.map ResultCandidate.id).filterMap (searcher.eligible_hit request field) := by
  rw [List.filterMap_map]
  exact List.filterMap_congr fun c hc => result_of_eq hmarker h hc

theorem found_hits (hmarker : BelowMarker searcher field)
    (h : Found searcher request field found) :
    (found.filterMap (searcher.result_of request field)).Nodup ∧
      ∀ hit, hit ∈ found.filterMap (searcher.result_of request field) ↔
        hit.doc_id ∈ found.map ResultCandidate.id ∧ Eligible searcher request field hit := by
  rw [results_of_eq hmarker h]
  refine ⟨h.nodup.filterMap fun id id' b hb hb' => ?_, fun hit => ?_⟩
  · exact (eligible_hit_eq_some.1 hb).1.symm.trans (eligible_hit_eq_some.1 hb').1
  · rw [List.mem_filterMap]
    constructor
    · grind [eligible_hit_eq_some]
    · rintro ⟨hid, heligible⟩
      exact ⟨hit.doc_id, hid, eligible_hit_eq_some.2 ⟨rfl, heligible⟩⟩

/-- **The tail is sound.** -/
theorem finalize_sound (hmarker : BelowMarker searcher field)
    (h : Found searcher request field found) (n : ℕ) :
    SoundResults searcher request field
      (searcher.finalize_graph_results request field found n).results := by
  obtain ⟨hnodup, hmem⟩ := found_hits hmarker h
  have hfirst := firstK_take_insertionSort
    (orderedOn_eligible fun hit hhit => ((hmem hit).1 hhit).2) hnodup request.params.top_k
  have heligible : ∀ hit ∈ (searcher.finalize_graph_results request field found n).results,
      Eligible searcher request field hit := fun hit hhit => ((hmem hit).1 (hfirst.sub hit hhit)).2
  refine ⟨hfirst.room, ?_, heligible⟩
  refine List.Pairwise.imp_of_mem (fun {a b} ha hb hab => ?_) (hfirst.sorted.and hfirst.nodup)
  obtain ⟨hle, hne⟩ := hab
  rcases hle with hlt | ⟨heq, hle⟩
  · exact Or.inl hlt
  · refine Or.inr ⟨heq, lt_of_le_of_ne hle fun hid => hne ?_⟩
    exact (heligible a ha).unique (heligible b hb) hid

/-- **The tail is exact**, when every eligible document was found. -/
theorem finalize_exact (hmarker : BelowMarker searcher field)
    (h : Found searcher request field found) (n : ℕ)
    (hall : ∀ hit, Eligible searcher request field hit →
      hit.doc_id ∈ found.map ResultCandidate.id) :
    (searcher.finalize_graph_results request field found n).results =
      searcher.best request field := by
  obtain ⟨hnodup, hmem⟩ := found_hits hmarker h
  have hord := orderedOn_eligible fun hit hhit => ((hmem hit).1 hhit).2
  have hperm : (searcher.eligible_hits request field).Perm
      (found.filterMap (searcher.result_of request field)) := by
    grind [List.perm_ext_iff_of_nodup, nodup_eligible_hits, mem_eligible_hits]
  refine FirstK.unique hord (firstK_take_insertionSort hord hnodup request.params.top_k) ?_
  have hord' := orderedOn_eligible fun hit => (@mem_eligible_hits _ _ _ _ _ searcher request field hit).1
  exact FirstK.take_of_sorted ((List.perm_insertionSort _ _).trans hperm)
    (pairwise_insertionSort_on hord' fun _ hhit => hhit) hnodup request.params.top_k

/-! ## The modes -/

omit [LT σ] [DecidableLT σ] [LinearOrder 𝕜] in
theorem admits_iff : searcher.admits request doc_id = true ↔
    searcher.reader.is_deleted doc_id = false ∧
      ∀ filter, request.filter = some filter → doc_id ∈ filter.ids := by
  have hdeleted : (searcher.reader.has_deletions && searcher.reader.is_deleted doc_id) =
      searcher.reader.is_deleted doc_id := by
    grind [HnswIndexReader.has_deletions, HnswIndexReader.is_deleted]
  rw [admits, hdeleted, Bool.and_eq_true, Bool.not_eq_true', and_comm]
  rcases request.filter with _ | filter
  · simp
  · simp [FilterSet.contains]

omit [LT σ] [DecidableLT σ] in
/-- Without a filter and without deletions, the plain traversal admits the
same. -/
theorem plain_admits (heaps : SearchHeaps 𝕜) (hfilter : request.filter = none)
    (hdeletions : searcher.reader.has_deletions = false) :
    (searcher.plain_args heaps request field).admitted = searcher.admits request := by
  funext id
  rw [admits, hfilter, hdeletions]
  rfl

/-- **The scan of the filter** is exact. -/
theorem allow_set_scan_exact (hmarker : BelowMarker searcher field) {filter : FilterSet}
    (hfilter : request.filter = some filter) :
    SoundResults searcher request field
        (searcher.allow_set_scan request field filter).results ∧
      (searcher.allow_set_scan request field filter).results = searcher.best request field := by
  have hmem : ∀ c, c ∈ ((filter.ids.filter fun id => !searcher.reader.is_deleted id).map
      fun id => ({ id := id, distance := searcher.calc_dist field id } : ResultCandidate 𝕜)).filter
        (fun c => c.distance ≠ searcher.missing) ↔
      (c.id ∈ filter.ids ∧ searcher.reader.is_deleted c.id = false) ∧
        c.distance = searcher.calc_dist field c.id ∧ c.distance ≠ searcher.missing := by
    intro c
    rw [List.mem_filter, List.mem_map]
    constructor
    · grind
    · rintro ⟨⟨hin, hlive⟩, hdistance, hne⟩
      refine ⟨⟨c.id, List.mem_filter.2 ⟨hin, by rw [hlive]; rfl⟩, ?_⟩, decide_eq_true hne⟩
      rw [← hdistance]
  have hfound : Found searcher request field
      (((filter.ids.filter fun id => !searcher.reader.is_deleted id).map
        fun id => ({ id := id, distance := searcher.calc_dist field id } : ResultCandidate 𝕜)).filter
          fun c => c.distance ≠ searcher.missing) := by
    refine ⟨fun c hc => ((hmem c).1 hc).2.1, fun c hc => ((hmem c).1 hc).1.2,
      fun c hc filter' hfilter' => ?_, ?_⟩
    · grind
    · refine (List.Sublist.map _ List.filter_sublist).nodup ?_
      rw [List.map_map]
      exact (List.map_id _).symm ▸ filter.nodup.filter _
  refine ⟨finalize_sound hmarker hfound filter.len, finalize_exact hmarker hfound filter.len ?_⟩
  intro hit heligible
  obtain ⟨pos, hpos, hdistance, -⟩ := heligible.stored
  have hcalc : searcher.calc_dist field hit.doc_id = searcher.distance_at pos := by
    rw [calc_dist_of_live heligible.live, hpos]
    rfl
  refine List.mem_map.2 ⟨{ id := hit.doc_id, distance := searcher.calc_dist field hit.doc_id },
    (hmem _).2 ⟨⟨heligible.asked filter hfilter, heligible.live⟩, rfl, ?_⟩, rfl⟩
  rw [hcalc]
  exact ne_of_lt (hmarker _ _ hpos)

/-- What a traversal is to be run with: the distances of the ordinals, and
the admission of live documents of the filter. -/
structure Proper (searcher : HnswSearcher V 𝕜 σ) (request : HnswQuery σ) (field : String)
    (args : TraversalArgs 𝕜) : Prop where
  dist : args.dist = searcher.calc_dist_ord field
  admitted : args.admitted = searcher.admits request
  ef_search : args.ef_search = searcher.effective_ef request
  /-- The cap lets all be visited that the result heap has room for. -/
  cap : ∀ max_visits, args.max_visits = some max_visits →
    ∀ n, 0 < n → n < 2 ^ 32 → n ≤ searcher.effective_ef request → n < max_visits

variable {args : TraversalArgs 𝕜}

omit [LT σ] [DecidableLT σ] in
theorem bookkeeping_proper (heaps : SearchHeaps 𝕜) :
    Proper searcher request field (searcher.bookkeeping_args heaps request field) where
  dist := rfl
  admitted := rfl
  ef_search := rfl
  cap max_visits h n hpos hfew hef := by
    obtain rfl := Option.some.inj h
    rw [usize_saturating_mul, USIZE_MAX, MAX_VISIT_FACTOR]
    omega

omit [LT σ] [DecidableLT σ] in
theorem plain_proper (heaps : SearchHeaps 𝕜) (hfilter : request.filter = none)
    (hdeletions : searcher.reader.has_deletions = false) :
    Proper searcher request field (searcher.plain_args heaps request field) where
  dist := rfl
  admitted := plain_admits heaps hfilter hdeletions
  ef_search := rfl
  cap max_visits h := by cases h

omit [LT σ] [DecidableLT σ] in
/-- The traversal a request takes is proper. -/
theorem traversal_proper (heaps : SearchHeaps 𝕜) :
    Proper searcher request field (searcher.traversal_args heaps request field) := by
  rw [traversal_args]
  split
  · exact bookkeeping_proper heaps
  · rename_i hplain
    rw [Bool.or_eq_true, not_or, Option.not_isSome_iff_eq_none, Bool.not_eq_true] at hplain
    exact plain_proper heaps hplain.1 hplain.2

/-- A run that ends, given a turn for each node and one more. -/
def EndsWith {α : Type} (searcher : HnswSearcher V 𝕜 σ) (run : ℕ → Option α) (r : α) : Prop :=
  ∀ turns, searcher.reader.graph.node_count < turns → run turns = some r

/-- Every node can be reached over layer 0. -/
def ReachesAll (graph : OrdinalHnswGraph) (start : ℕ) : Prop :=
  ∀ ord < graph.node_count, Relation.ReflTransGen (Linked graph) start ord

/-- **A traversal ends with sound results**, which are the best ones where it
reaches every node and has room for them. -/
theorem graph_results_spec (hmarker : BelowMarker searcher field)
    (hproper : Proper searcher request field args) {curr : Candidate 𝕜}
    (hcurr : IsNode searcher.reader.graph (searcher.calc_dist_ord field) curr) :
    ∃ r, EndsWith searcher (fun turns => searcher.graph_results request field turns args curr) r ∧
      SoundResults searcher request field r.results ∧
      (ReachesAll searcher.reader.graph curr.ord →
        searcher.reader.graph.node_count ≤ searcher.effective_ef request →
        r.results = searcher.best request field) := by
  have hinj : ∀ a b, a < searcher.reader.graph.doc_ids.length →
      b < searcher.reader.graph.doc_ids.length →
      searcher.reader.graph.doc_id a = searcher.reader.graph.doc_id b → a = b :=
    fun a b ha hb => HnswIndexReader.doc_id_injective ha hb
  have hcount : searcher.reader.graph.node_count = searcher.reader.graph.doc_ids.length :=
    searcher.reader.graph.length_nodes
  have hcurr_lt := hcurr.ord_lt
  have hdist : curr.distance = args.dist curr.ord := by rw [hproper.dist, hcurr.distance]
  have hseed : Sound searcher.reader.graph args (seed searcher.reader.graph curr
      (args.admitted (searcher.reader.graph.doc_id curr.ord))) := by
    refine ⟨fun ord hord => ?_, fun c hc => ?_, fun c hc => ?_, ?_, rfl⟩
    · rwa [Finset.mem_singleton.1 hord]
    · rw [List.mem_singleton.1 hc]
      exact Finset.mem_singleton_self _
    · unfold seed at hc
      split at hc
      · rename_i hadmitted
        rw [List.mem_singleton.1 hc]
        exact ⟨curr.ord, Finset.mem_singleton_self _, rfl, hdist, hadmitted⟩
      · exact absurd hc List.not_mem_nil
    · unfold seed
      grind
  -- the frontier holds one node, and the others may still enter it
  have hpotential : potential searcher.reader.graph (seed searcher.reader.graph curr
      (args.admitted (searcher.reader.graph.doc_id curr.ord))) =
        searcher.reader.graph.node_count := by
    rw [hcount]
    simp only [potential, seed, List.length_singleton, Finset.card_singleton]
    omega
  have hcomplete : Complete searcher.reader.graph args curr.ord (fun _ => False)
      (seed searcher.reader.graph curr
        (args.admitted (searcher.reader.graph.doc_id curr.ord))) := by
    refine ⟨Finset.mem_singleton_self _, fun ord hord hadmitted => ?_, fun ord hord => ?_⟩
    · obtain rfl := Finset.mem_singleton.1 hord
      rw [seed, if_pos hadmitted, hdist]
      exact List.mem_singleton_self _
    · rw [Finset.mem_singleton.1 hord]
      exact Or.inr (Or.inl ⟨curr, List.mem_singleton_self _, rfl⟩)
  obtain ⟨u, hu, hP, hend, last, hfound, hvisited, hrun⟩ := @traverse_ends _ _ _ _
    (fun t => searcher.reader.graph.doc_ids.length ≤ args.ef_search →
      Complete searcher.reader.graph args curr.ord (fun _ => False) t) hinj
    (fun t curr rest ht hP hpop hef => (hP hef).turn hinj ht hef hpop) _ hseed
    (fun _ => hcomplete)
  have hlist : Found searcher request field last.found := by
    rw [hfound]
    refine ⟨fun c hc => ?_, fun c hc => ?_, fun c hc => ?_, hu.nodup⟩
    · obtain ⟨ord, hord, hid, hcdist, -⟩ := hu.found c hc
      rw [hcdist, hproper.dist, calc_dist_ord_eq (hu.visited_lt ord hord), hid]
    · obtain ⟨ord, -, -, -, hadmitted⟩ := hu.found c hc
      exact (admits_iff.1 (hproper.admitted ▸ hadmitted)).1
    · obtain ⟨ord, -, -, -, hadmitted⟩ := hu.found c hc
      exact (admits_iff.1 (hproper.admitted ▸ hadmitted)).2
  refine ⟨searcher.finalize_graph_results request field last.found last.visited.card,
    fun turns hturns => ?_, finalize_sound hmarker hlist _, fun hreach hef => ?_⟩
  · grind [graph_results]
  · refine finalize_exact hmarker hlist _ fun hit heligible => ?_
    rw [hcount] at hef
    have hef' : searcher.reader.graph.doc_ids.length ≤ args.ef_search := by rwa [hproper.ef_search]
    obtain ⟨pos, hpos, -⟩ := heligible.stored
    obtain ⟨ord, hord, hdoc⟩ := List.mem_iff_getElem.1
      (HnswIndexReader.mem_doc_ids_of_position hpos)
    have hfew := searcher.reader.graph.few
    have hmem := (hP hef').reached hu hef'
      (fun max_visits hmax => hproper.cap max_visits hmax _ (by omega) hfew hef) hend
      (hreach ord (by omega)) hord
    have hid : searcher.reader.graph.doc_id ord = hit.doc_id := by
      rw [HnswIndexReader.doc_id_eq_getElem hord, hdoc]
    have hin := (hP hef').found ord hmem (by
      rw [hproper.admitted, hid]
      exact admits_iff.2 ⟨heligible.live, heligible.asked⟩)
    grind

/-! ## The search -/

/-- A run that ends with results that are the best ones. -/
def EndsWithBest (searcher : HnswSearcher V 𝕜 σ) (request : HnswQuery σ) (field : String)
    (run : ℕ → Option (VectorIndexQueryResults V 𝕜 σ)) : Prop :=
  ∃ r, EndsWith searcher run r ∧ r.results = searcher.best request field

/-- **The search is sound, and exact where nothing binds.** It ends, with
eligible hits in order. With an entry point, the descent ends at a node; the
results are the best ones when the filter is small, or when that node
reaches every other and `ef` is at least their number, and then each mode
that applies has them. -/
theorem hnsw_search_sound_exact (searcher : HnswSearcher V 𝕜 σ) (heaps : SearchHeaps 𝕜)
    (request : HnswQuery σ) (field : String) (hmarker : BelowMarker searcher field) :
    (∃ r, EndsWith searcher (searcher.search_graph heaps request field) r ∧
      SoundResults searcher request field r.results) ∧
    ∀ entry_ord, searcher.reader.graph.entry_point = some entry_ord →
      (∀ filter, request.filter = some filter →
        (searcher.allow_set_scan request field filter).results = searcher.best request field ∧
        (filter.len ≤ searcher.effective_ef request →
          EndsWithBest searcher request field (searcher.search_graph heaps request field))) ∧
      ∃ start, EndsWith searcher (fun turns => searcher.layer0_start field turns entry_ord) start ∧
        (ReachesAll searcher.reader.graph start.ord →
          searcher.reader.graph.node_count ≤ searcher.effective_ef request →
          EndsWithBest searcher request field (searcher.search_graph heaps request field) ∧
          EndsWithBest searcher request field (fun turns => searcher.graph_results request field
            turns (searcher.bookkeeping_args heaps request field) start) ∧
          (request.filter = none → searcher.reader.has_deletions = false →
            EndsWithBest searcher request field (fun turns => searcher.graph_results request field
              turns (searcher.plain_args heaps request field) start))) := by
  rcases hentry : searcher.reader.graph.entry_point with _ | entry_ord
  · refine ⟨⟨.new, fun turns _ => ?_, ?_⟩, fun _ h => by cases h⟩
    · rw [search_graph, hentry]
    · exact ⟨Nat.zero_le _, List.Pairwise.nil, fun _ h => absurd h List.not_mem_nil⟩
  · have hcount : searcher.reader.graph.node_count = searcher.reader.graph.doc_ids.length :=
      searcher.reader.graph.length_nodes
    obtain ⟨start, hnode, hdescend⟩ := @descend_ends _ _ searcher.reader.graph
      (searcher.calc_dist_ord field) searcher.reader.graph.max_level
      { ord := entry_ord, distance := searcher.calc_dist_ord field entry_ord }
      ⟨searcher.reader.graph.entry_lt entry_ord hentry, rfl⟩
    have hstart : EndsWith searcher (fun turns => searcher.layer0_start field turns entry_ord)
        start := fun turns hturns => hdescend turns (hcount ▸ hturns)
    -- either the filter is scanned, or the traversal is run
    have hsmall : ∀ filter, searcher.small_filter request = some filter →
        request.filter = some filter ∧ EndsWith searcher
          (searcher.search_graph heaps request field)
          (searcher.allow_set_scan request field filter) := by
      intro filter hfilter
      refine ⟨(Option.filter_eq_some_iff.1 hfilter).1, fun turns _ => ?_⟩
      rw [search_graph, hentry]
      dsimp only
      rw [hfilter]
    have hlarge : searcher.small_filter request = none → ∀ turns,
        searcher.reader.graph.node_count < turns →
        searcher.search_graph heaps request field turns =
          searcher.graph_results request field turns
            (searcher.traversal_args heaps request field) start := by
      intro hfilter turns hturns
      have hdone : searcher.layer0_start field turns entry_ord = some start := hstart turns hturns
      rw [search_graph, hentry]
      dsimp only
      rw [hfilter]
      dsimp only
      rw [hdone]
      rfl
    obtain ⟨r, hends, hsound, hexact⟩ := graph_results_spec hmarker
      (@traversal_proper _ _ _ _ searcher request field heaps) hnode
    have hrun : searcher.small_filter request = none →
        EndsWith searcher (searcher.search_graph heaps request field) r := by
      intro hfilter turns hturns
      rw [hlarge hfilter turns hturns]
      exact hends turns hturns
    refine ⟨?_, fun entry_ord' h => ?_⟩
    · rcases hfilter : searcher.small_filter request with _ | filter
      · exact ⟨r, hrun hfilter, hsound⟩
      · obtain ⟨hsome, hscan⟩ := hsmall filter hfilter
        exact ⟨_, hscan, (allow_set_scan_exact hmarker hsome).1⟩
    · obtain rfl := Option.some.inj h
      refine ⟨fun filter hsome => ⟨(allow_set_scan_exact hmarker hsome).2, fun hlen => ?_⟩,
        start, hstart, fun hreach hef => ⟨?_, ?_, fun hnone hdeletions => ?_⟩⟩
      · obtain ⟨-, hscan⟩ := hsmall filter (Option.filter_eq_some_iff.2
          ⟨hsome, decide_eq_true hlen⟩)
        exact ⟨_, hscan, (allow_set_scan_exact hmarker hsome).2⟩
      · rcases hfilter : searcher.small_filter request with _ | filter
        · exact ⟨r, hrun hfilter, hexact hreach hef⟩
        · obtain ⟨hsome, hscan⟩ := hsmall filter hfilter
          exact ⟨_, hscan, (allow_set_scan_exact hmarker hsome).2⟩
      · obtain ⟨r', hends', -, hexact'⟩ := graph_results_spec hmarker
          (@bookkeeping_proper _ _ _ _ searcher request field heaps) hnode
        exact ⟨r', hends', hexact' hreach hef⟩
      · obtain ⟨r', hends', -, hexact'⟩ := graph_results_spec hmarker
          (plain_proper heaps hnone hdeletions) hnode
        exact ⟨r', hends', hexact' hreach hef⟩

/-! ## A start that reaches nothing -/

/-- Node 0 leads to the others on layer 0, and to node 2 on layer 1. -/
def ladder_nodes : List Layers := [[[1, 2], [2]], [[]], [[], []]]

theorem ladder_neighbors_lt : ∀ layers ∈ ladder_nodes, ∀ neighbors ∈ layers,
    ∀ ord ∈ neighbors, ord < 3 := by decide

theorem ladder_few : 3 < 2 ^ 32 := by decide

/-- The graph of three documents, with an entry point or with none. -/
def ladder (entry_point : Option ℕ) (h : ∀ ord, entry_point = some ord → ord < 3) :
    OrdinalHnswGraph where
  entry_point := entry_point
  max_level := 1
  doc_ids := [1, 2, 3]
  nodes := ladder_nodes
  length_nodes := rfl
  entry_lt := h
  neighbors_lt := ladder_neighbors_lt
  few := ladder_few

def ladder_records : List (ℕ × String) := [(1, "v"), (2, "v"), (3, "v")]

theorem ladder_fields : ∀ record ∈ ladder_records, record.2 ∈ ["v"] := by decide

theorem ladder_sorted : (ladder_records.map Prod.fst).Pairwise (· ≤ ·) := by decide

theorem ladder_few_records : ladder_records.length < U32_MAX := by decide

theorem ladder_pooled (field : String) (h : false = true) : field ∈ ["v"] :=
  absurd h Bool.false_ne_true

/-- Its documents are the nearer the higher their ids. -/
def ladder_searcher (entry_point : Option ℕ) (h : ∀ ord, entry_point = some ord → ord < 3) :
    HnswSearcher Unit ℕ ℤ where
  reader := {
    vector_ids := ladder_records
    field_dict := ["v"]
    vector_at := fun _ => ()
    pooled := fun _ => false
    graph := ladder entry_point h
    deletion_bitmap := none
    fields_known := ladder_fields
    pooled_known := ladder_pooled
    sorted := ladder_sorted
    ordinals := rfl
    few_records := ladder_few_records }
  default_ef_search := 10
  distance_at := fun pos => 5 - 2 * pos
  missing := 100
  distance_to_similarity := fun d => - (d : ℤ)

/-- All three are asked for. -/
def ladder_query (filter : Option FilterSet) : HnswQuery ℤ where
  params := { top_k := 3, min_similarity := -50 }
  ef_search := none
  rerank_factor := none
  include_vectors := false
  filter := filter

def first_heaps : SearchHeaps ℕ where
  candidates := PriorityHeap.first fun c : Candidate ℕ => OrderDual.toDual c.distance
  found := PriorityHeap.first ResultCandidate.distance

theorem ladder_below_marker (entry_point : Option ℕ)
    (h : ∀ ord, entry_point = some ord → ord < 3) :
    BelowMarker (ladder_searcher entry_point h) "v" := by
  intro doc_id pos _
  show 5 - 2 * pos < 100
  omega

theorem ladder_entry : ∀ ord, some 0 = some ord → ord < 3 := by simp

theorem ladder_no_entry : ∀ ord, (none : Option ℕ) = some ord → ord < 3 := by
  rintro ord ⟨⟩

theorem hnsw_search_sound_exact_ladder :
    BelowMarker (ladder_searcher (some 0) ladder_entry) "v" ∧
      ∃ r, EndsWith (ladder_searcher (some 0) ladder_entry)
          ((ladder_searcher (some 0) ladder_entry).search_graph first_heaps (ladder_query none)
            "v") r ∧
        SoundResults (ladder_searcher (some 0) ladder_entry) (ladder_query none) "v" r.results :=
  ⟨ladder_below_marker _ _,
    (hnsw_search_sound_exact _ first_heaps (ladder_query none) "v" (ladder_below_marker _ _)).1⟩

/-- The filter of one document. -/
def ladder_filter : FilterSet where
  ids := [1]
  nodup := List.nodup_singleton 1

/-- **A graph without an entry point finds nothing**, however small the
filter; and the entry point may reach every node over layer 0 while the node
the descent ends at reaches none. -/
theorem hnsw_search_exact_counterexample :
    (ladder_filter.len ≤ (ladder_searcher none ladder_no_entry).effective_ef
        (ladder_query (some ladder_filter)) ∧
      (∀ turns, (ladder_searcher none ladder_no_entry).search_graph first_heaps
        (ladder_query (some ladder_filter)) "v" turns = some .new) ∧
      ((ladder_searcher none ladder_no_entry).best (ladder_query (some ladder_filter)) "v").map
        (·.doc_id) = [1]) ∧
    (ReachesAll (ladder (some 0) ladder_entry) 0 ∧
      (ladder (some 0) ladder_entry).node_count ≤
        (ladder_searcher (some 0) ladder_entry).effective_ef (ladder_query none) ∧
      ((ladder_searcher (some 0) ladder_entry).search_graph first_heaps (ladder_query none) "v"
        4).map (fun r => r.results.map (·.doc_id)) = some [3] ∧
      ((ladder_searcher (some 0) ladder_entry).best (ladder_query none) "v").map (·.doc_id) =
        [3, 2, 1]) := by
  refine ⟨⟨by decide, fun _ => rfl, by decide⟩, fun ord hord => ?_, by decide, by decide,
    by decide⟩
  have hlinked : ∀ other ∈ [1, 2], Linked (ladder (some 0) ladder_entry) 0 other :=
    fun other hother => ⟨[1, 2], rfl, hother⟩
  have hlt : ord < 3 := hord
  obtain rfl | rfl | rfl : ord = 0 ∨ ord = 1 ∨ ord = 2 := by omega
  · exact Relation.ReflTransGen.refl
  · exact Relation.ReflTransGen.single (hlinked 1 (by decide))
  · exact Relation.ReflTransGen.single (hlinked 2 (by decide))

end HnswSearcher

end Laurus
