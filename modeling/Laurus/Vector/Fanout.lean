import Laurus.Common.FirstK
import Laurus.Vector.Helpers.SegmentedIndex
import Laurus.Vector.Model.Fanout

/-!
# The fan-out search is exhaustive

Of the newest copies of all keys, the fan-out returns the nearest, as many as
asked for (`fanout_search_exact`): every unshadowed hit a probe did not keep
comes after as many that it kept. Each refill loop ends, and the threads get
the hits of the serial loop.
-/

namespace Laurus

section Fanout

/-!
## What the fan-out is after, and what one probe keeps

`Wanted` is a query as a set of hits: of each key asked for, the copy that is
looked at, if its document is live and it reaches the minimum. `SearchesBest` is
the searchers' contract. A probe keeps the hits of its segment that are not
shadowed, but for some that come after as many as were asked for
(`probe_segment_spec`).
-/

variable {V Q 𝕜 σ : Type}

/-! ## The hits wanted -/

/-- A query by what it is after: live documents, the keys it asks for, and the
distances that reach its minimum similarity. -/
structure Wanted (V 𝕜 : Type) where
  deleted : Finset ℕ
  asked : VectorKey → Bool
  /-- The distance on the shared basis. -/
  exact : V → 𝕜
  reaches : 𝕜 → Bool

namespace Wanted

variable (S : Wanted V 𝕜)

/-- A copy of a key, when it is wanted: the key and its distance. -/
def hit_of (key : VectorKey) (v : V) : Option (VectorKey × 𝕜) :=
  if key.1 ∉ S.deleted ∧ S.asked key ∧ S.reaches (S.exact v) then some (key, S.exact v) else none

/-- The hits among some keys, a copy of each being looked up. -/
def hits (keys : List VectorKey) (lookup : VectorKey → Option V) : List (VectorKey × 𝕜) :=
  keys.dedup.filterMap fun key => (lookup key).bind (S.hit_of key)

/-- The hits of one segment. -/
def segment_hits (reader : SealedSegment V) : List (VectorKey × 𝕜) :=
  S.hits reader.vector_ids reader.get_vector

/-- The hits among the newest copies, newest reader first. -/
def newest_hits (readers : List (SealedSegment V)) : List (VectorKey × 𝕜) :=
  S.hits (readers.flatMap SealedSegment.vector_ids) fun key =>
    readers.findSome? fun r => r.get_vector key

variable {S} {keys : List VectorKey} {lookup : VectorKey → Option V} {a : VectorKey × 𝕜}

theorem hit_of_eq_some {key : VectorKey} {v : V} : S.hit_of key v = some a ↔
    (key.1 ∉ S.deleted ∧ S.asked key ∧ S.reaches (S.exact v)) ∧ a = (key, S.exact v) := by
  rw [hit_of]
  grind

theorem mem_hits : a ∈ S.hits keys lookup ↔
    a.1 ∈ keys ∧ ∃ v, lookup a.1 = some v ∧ S.hit_of a.1 v = some a := by
  grind [hits, Option.bind_eq_some_iff, hit_of_eq_some, List.mem_dedup]

theorem nodup_hits : (S.hits keys lookup).Nodup := by
  refine (List.nodup_dedup keys).filterMap fun key key' b hb hb' => ?_
  obtain ⟨v, -, hhit⟩ := Option.bind_eq_some_iff.1 hb
  obtain ⟨v', -, hhit'⟩ := Option.bind_eq_some_iff.1 hb'
  have h := (hit_of_eq_some.1 hhit).2.symm.trans (hit_of_eq_some.1 hhit').2
  exact congrArg Prod.fst h

theorem reaches_of_mem (h : a ∈ S.hits keys lookup) : S.reaches a.2 = true := by
  grind [mem_hits, hit_of_eq_some]

end Wanted

/-! ## Copies -/

theorem contains_vector_iff {s : SealedSegment V} {key : VectorKey} :
    s.contains_vector key = true ↔ (s.get_vector key).isSome := by
  rw [SealedSegment.contains_vector, decide_eq_true_iff]
  exact get_vector_isSome.symm

/-- Of readers, newest first, the first that has the key has the newest copy. -/
theorem findSome_get_vector_iff {readers : List (SealedSegment V)} {key : VectorKey} {v : V} :
    (readers.findSome? fun r => r.get_vector key) = some v ↔
      ∃ (idx : ℕ) (reader : SealedSegment V), readers[idx]? = some reader ∧
        reader.get_vector key = some v ∧
          ((readers.take idx).any fun r => r.contains_vector key) = false := by
  have hnone : ∀ l : List (SealedSegment V), (∀ r ∈ l, r.get_vector key = none) ↔
      (l.any fun r => r.contains_vector key) = false := by
    simp [contains_vector_iff]
  rw [List.findSome?_eq_some_iff]
  constructor
  · rintro ⟨newer, reader, older, rfl, hreader, hnewer⟩
    refine ⟨newer.length, reader, by simp, hreader, ?_⟩
    grind
  grind [List.drop_eq_getElem_cons, List.take_append_drop]

/-! ## The searchers' contract -/

/-- Nearer, or as near. -/
def nearer [LE 𝕜] (a b : VectorKey × 𝕜) : Prop := a.2 ≤ b.2

/-- A hit as the key and the distance. -/
def VectorIndexQueryResult.found (hit : VectorIndexQueryResult V 𝕜 σ) : VectorKey × 𝕜 :=
  (hit.key, hit.distance)

/-- A segment's searcher returned its best hits, scored on the shared basis. -/
structure BestHits [LE 𝕜] (metric : DistanceMetric V Q 𝕜 σ) (query : Q) (S : Wanted V 𝕜)
    (reader : SealedSegment V) (top_k : ℕ) (results : VectorIndexQueryResults V 𝕜 σ) : Prop where
  first : FirstK nearer top_k (S.segment_hits reader) (results.results.map (·.found))
  similarity : ∀ hit ∈ results.results,
    hit.similarity = metric.distance_to_similarity hit.distance
  /-- A vector that a hit carries is at the hit's distance. -/
  vector : ∀ hit ∈ results.results, ∀ v ∈ hit.vector,
    metric.distance_with_prepared query v = .ok hit.distance
  /-- The hits are a `Vec`. -/
  fits : results.results.length < USIZE_MAX

/-- Every segment's searcher returns the best hits for any budget, and the
distances are those of the shared basis. -/
structure SearchesBest [LE 𝕜] [LE σ] (fanout : SegmentFanoutSearcher V Q 𝕜 σ)
    (metric : DistanceMetric V Q 𝕜 σ) (request : VectorIndexQuery Q σ) (S : Wanted V 𝕜) :
    Prop where
  exact : ∀ reader ∈ fanout.readers, ∀ key v, reader.get_vector key = some v →
    metric.distance_with_prepared request.query v = .ok (S.exact v)
  reaches : ∀ d, S.reaches d = true ↔
    request.params.min_similarity ≤ metric.distance_to_similarity d
  best : ∀ reader ∈ fanout.readers, ∃ searcher, fanout.make_searcher reader = .ok searcher ∧
    ∀ top_k ≤ USIZE_MAX, ∃ results, searcher (request.with_top_k top_k) = .ok results ∧
      BestHits metric request.query S reader top_k results

/-- All of some hits are kept but for those that come after as many kept ones
as were asked for. -/
structure Keeps {α : Type} (le : α → α → Prop) (limit : ℕ) (all kept : List α) : Prop where
  sub : ∀ a ∈ kept, a ∈ all
  nodup : kept.Nodup
  rest : ∀ a ∈ all, a ∉ kept → limit ≤ kept.length ∧ ∀ b ∈ kept, le b a

theorem except_bind_of_ok {ε α β : Type} {x : Except ε α} {a : α} (h : x = .ok a)
    (f : α → Except ε β) : (x >>= f) = f a := by
  rw [h]
  rfl

theorem usize_saturating_mul_le {a b : ℕ} : usize_saturating_mul a b ≤ USIZE_MAX :=
  Nat.min_le_right (a * b) USIZE_MAX

theorem usize_saturating_mul_pos {a : ℕ} (h : 0 < a) : 0 < usize_saturating_mul a 2 := by
  rw [usize_saturating_mul, USIZE_MAX]
  omega

namespace SegmentFanoutSearcher

variable {search : ℕ → Except LaurusError (VectorIndexQueryResults V 𝕜 σ)}
variable {masked : VectorKey → Bool} {limit : ℕ}

/-- The refill loop ends with the search of some budget, which kept enough,
or was not used up, or is the greatest there is. -/
theorem probe_loop_ends (hsearch : ∀ top_k ≤ USIZE_MAX, ∃ results, search top_k = .ok results)
    {top_k : ℕ} (hpos : 0 < limit → 0 < top_k) (hle : top_k ≤ USIZE_MAX) (n : ℕ) (b : Bool) :
    ∃ (last : ℕ) (results : VectorIndexQueryResults V 𝕜 σ) (n' : ℕ) (b' : Bool),
      last ≤ USIZE_MAX ∧ search last = .ok results ∧
      probe_loop search masked limit top_k n b =
        .ok (results.results.filter (fun hit => ! masked hit.key), n', b') ∧
      (limit ≤ (results.results.filter fun hit => ! masked hit.key).length ∨
        results.results.length < last ∨ last = USIZE_MAX) := by
  fun_induction probe_loop search masked limit top_k n b with
  | case1 top_k n b e herror =>
      grind
  | case2 top_k n b results hok n' b' returned kept hdone =>
      exact ⟨top_k, results, n', b', hle, hok, rfl, hdone.imp_right Or.inl⟩
  | case3 top_k n b results hok n' b' returned kept hmore hguard =>
      refine ⟨top_k, results, n', b', hle, hok, rfl, Or.inr (Or.inr ?_)⟩
      grind [usize_saturating_mul]
  | case4 top_k n b results hok n' b' returned kept hmore hguard ih =>
      exact ih (fun hlimit => usize_saturating_mul_pos (hpos hlimit)) usize_saturating_mul_le

variable [LinearOrder 𝕜] [LE σ] {self : SegmentFanoutSearcher V Q 𝕜 σ}
variable {metric : DistanceMetric V Q 𝕜 σ} {request : VectorIndexQuery Q σ} {S : Wanted V 𝕜}
variable {reader : SealedSegment V} {results : VectorIndexQueryResults V 𝕜 σ}

/-- The hits of a reader that no newer reader has a copy of. -/
def unshadowed_hits (self : SegmentFanoutSearcher V Q 𝕜 σ) (S : Wanted V 𝕜) (idx : ℕ)
    (reader : SealedSegment V) : List (VectorKey × 𝕜) :=
  (S.segment_hits reader).filter fun a => ! self.shadowed idx a.1

omit [LE σ] in
theorem keeps_of_last {query : Q} {last idx : ℕ}
    (hbest : BestHits metric query S reader last results)
    (hend : limit ≤ (results.results.filter fun hit => ! self.shadowed idx hit.key).length ∨
      results.results.length < last ∨ last = USIZE_MAX) :
    Keeps nearer limit (self.unshadowed_hits S idx reader)
      ((results.results.filter fun hit => ! self.shadowed idx hit.key).map (·.found)) := by
  have hmap : (results.results.filter fun hit => ! self.shadowed idx hit.key).map (·.found) =
      (results.results.map (·.found)).filter fun a => ! self.shadowed idx a.1 := by
    rw [List.filter_map]
    rfl
  have hfits := hbest.fits
  refine ⟨fun a ha => ?_, ?_, fun a ha hnot => ?_⟩
  · rw [hmap, List.mem_filter] at ha
    exact List.mem_filter.2 ⟨hbest.first.sub a ha.1, ha.2⟩
  · rw [hmap]
    exact hbest.first.nodup.filter _
  · obtain ⟨hin, hunshadowed⟩ := List.mem_filter.1 ha
    rw [hmap, List.mem_filter, not_and] at hnot
    obtain ⟨hfull, hbefore⟩ := hbest.first.rest a hin fun h => hnot h hunshadowed
    rw [List.length_map] at hfull ⊢
    refine ⟨?_, fun b hb => ?_⟩
    · -- a search that was used up did not end the loop for want of hits
      omega
    · grind

omit [LinearOrder 𝕜] [LE σ] in
theorem rescore_on_shared_basis_eq {hits : List (VectorIndexQueryResult V 𝕜 σ)} {query : Q}
    (hexact : ∀ key v, reader.get_vector key = some v →
      metric.distance_with_prepared query v = .ok (S.exact v))
    (hfound : ∀ hit ∈ hits, hit.found ∈ S.segment_hits reader)
    (hsimilarity : ∀ hit ∈ hits, hit.similarity = metric.distance_to_similarity hit.distance)
    (hvector : ∀ hit ∈ hits, ∀ v ∈ hit.vector,
      metric.distance_with_prepared query v = .ok hit.distance) :
    rescore_on_shared_basis metric query reader hits = .ok hits := by
  rw [rescore_on_shared_basis, mapM_eq_ok_map (f := id), List.map_id]
  intro hit hhit
  obtain ⟨v, hv, hdistance⟩ : ∃ v, hit.vector.or (reader.get_vector hit.key) = some v ∧
      metric.distance_with_prepared query v = .ok hit.distance := by
    rcases hv : hit.vector with _ | v
    · obtain ⟨-, v, hget, hwanted⟩ := Wanted.mem_hits.1 (hfound hit hhit)
      have hdistance : hit.distance = S.exact v :=
        congrArg Prod.snd (Wanted.hit_of_eq_some.1 hwanted).2
      exact ⟨v, hget, by grind⟩
    grind
  rw [rescore_hit, hv]
  dsimp only [bind, Except.bind, pure, Except.pure]
  rw [hdistance]
  dsimp only
  rw [← hsimilarity hit hhit]
  rfl

/-- **What one probe keeps**: unshadowed hits of its segment, with their
similarities, and all but those past the limit. -/
theorem probe_segment_spec [DecidableLE σ] (h : SearchesBest self metric request S)
    {idx : ℕ} (hidx : self.readers[idx]? = some reader) :
    ∃ kept n, self.probe_segment metric request idx = .ok (kept, n) ∧
      Keeps nearer request.params.top_k (self.unshadowed_hits S idx reader)
        (kept.map (·.found)) ∧
      ∀ hit ∈ kept, hit.similarity = metric.distance_to_similarity hit.distance := by
  have hmem : reader ∈ self.readers := List.mem_of_getElem? hidx
  obtain ⟨searcher, hsearcher, hbest⟩ := h.best reader hmem
  obtain ⟨last, results, n, exact_basis, hlast, hresults, hloop, hend⟩ :=
    @probe_loop_ends _ _ _ _ (self.shadowed idx) request.params.top_k
      (fun top_k hle => (hbest top_k hle).imp fun _ => And.left)
      _ usize_saturating_mul_pos usize_saturating_mul_le 0 false
  obtain ⟨results', hresults', hbest'⟩ := hbest last hlast
  obtain rfl := Except.ok.inj (hresults.symm.trans hresults')
  set kept := results.results.filter fun hit => ! self.shadowed idx hit.key with hkept
  have hkeeps := keeps_of_last hbest' hend
  have hsub : ∀ hit ∈ kept, hit ∈ results.results := fun hit hhit => List.mem_of_mem_filter hhit
  have hfound : ∀ hit ∈ kept, hit.found ∈ S.segment_hits reader := fun hit hhit =>
    hbest'.first.sub _ (List.mem_map_of_mem (hsub hit hhit))
  have hsimilarity : ∀ hit ∈ kept, hit.similarity = metric.distance_to_similarity hit.distance :=
    fun hit hhit => hbest'.similarity hit (hsub hit hhit)
  refine ⟨kept, n, ?_, hkeeps, hsimilarity⟩
  have hprobe : self.probe_segment metric request idx =
      self.probe_reader metric request idx reader := by
    rw [probe_segment, hidx]
  refine hprobe.trans ((except_bind_of_ok hsearcher _).trans ((except_bind_of_ok hloop _).trans ?_))
  dsimp only
  split
  · rfl
  · refine (except_bind_of_ok (rescore_on_shared_basis_eq (h.exact reader hmem) hfound hsimilarity
      fun hit hhit => hbest'.vector hit (hsub hit hhit)) _).trans ?_
    have hreach :
        kept.filter (fun hit => request.params.min_similarity ≤ hit.similarity) = kept := by
      rw [List.filter_eq_self]
      intro hit hhit
      rw [hsimilarity hit hhit]
      exact decide_eq_true ((h.reaches _).1 (Wanted.reaches_of_mem (hfound hit hhit)))
    rw [hreach]
    rfl

/-! ## The order of the hits -/

omit [LE σ] in
theorem hit_le_trans (a b c : VectorIndexQueryResult V 𝕜 σ) (hab : hit_le a b)
    (hbc : hit_le b c) : hit_le a c := by
  rcases hab with hab | ⟨hab, hab'⟩ <;> rcases hbc with hbc | ⟨hbc, hbc'⟩
  · exact Or.inl (hab.trans hbc)
  · exact Or.inl (hbc ▸ hab)
  · exact Or.inl (hab ▸ hbc)
  · exact Or.inr ⟨hab.trans hbc, hab'.trans hbc'⟩

omit [LE σ] in
theorem hit_le_total (a b : VectorIndexQueryResult V 𝕜 σ) : hit_le a b ∨ hit_le b a := by
  rcases lt_trichotomy a.distance b.distance with hlt | heq | hgt
  · exact Or.inl (Or.inl hlt)
  · exact (Nat.le_total a.doc_id b.doc_id).imp (fun h => Or.inr ⟨heq, h⟩)
      fun h => Or.inr ⟨heq.symm, h⟩
  · exact Or.inr (Or.inl hgt)

omit [LE σ] in
theorem doc_id_eq_of_hit_le {a b : VectorIndexQueryResult V 𝕜 σ} (hab : hit_le a b)
    (hba : hit_le b a) : a.doc_id = b.doc_id := by
  rcases hab with hab | ⟨hab, hab'⟩ <;> rcases hba with hba | ⟨hba, hba'⟩
  · exact absurd hba (lt_asymm hab)
  · exact absurd hba.symm (ne_of_lt hab)
  · exact absurd hab.symm (ne_of_lt hba)
  · omega

end SegmentFanoutSearcher

end Fanout

namespace SegmentFanoutSearcher

variable {V Q 𝕜 σ : Type} [LinearOrder 𝕜] [LE σ]
variable {self : SegmentFanoutSearcher V Q 𝕜 σ} {metric : DistanceMetric V Q 𝕜 σ}
variable {request : VectorIndexQuery Q σ} {S : Wanted V 𝕜} {a : VectorKey × 𝕜}

omit [LinearOrder 𝕜] [LE σ] in
/-- **The newest copies wanted** are the unshadowed hits of the segments. -/
theorem mem_newest_hits : a ∈ S.newest_hits self.readers ↔
    ∃ (idx : ℕ) (reader : SealedSegment V), self.readers[idx]? = some reader ∧
      a ∈ self.unshadowed_hits S idx reader := by
  rw [Wanted.newest_hits, Wanted.mem_hits]
  simp only [unshadowed_hits, List.mem_filter, Wanted.segment_hits, Wanted.mem_hits,
    findSome_get_vector_iff, Bool.not_eq_true', shadowed]
  grind [get_vector_isSome]

omit [LinearOrder 𝕜] [LE σ] in
theorem unshadowed_hits_disjoint {idx idx' : ℕ} {reader reader' : SealedSegment V}
    {b : VectorKey × 𝕜} (hidx : self.readers[idx]? = some reader)
    (ha : a ∈ self.unshadowed_hits S idx reader) (hb : b ∈ self.unshadowed_hits S idx' reader')
    (hkey : a.1 = b.1) : ¬ idx < idx' := by
  intro hlt
  obtain ⟨hhit, -⟩ := List.mem_filter.1 ha
  obtain ⟨-, hunshadowed⟩ := List.mem_filter.1 hb
  obtain ⟨hin, -⟩ := Wanted.mem_hits.1 hhit
  rw [Bool.not_eq_true', shadowed, List.any_eq_false] at hunshadowed
  refine hunshadowed reader ?_ (decide_eq_true (hkey ▸ hin))
  exact List.mem_of_getElem? (i := idx) (by rw [List.getElem?_take_of_lt hlt, hidx])

/-- The probes kept what they had to, of each segment. -/
structure Probed (fanout : SegmentFanoutSearcher V Q 𝕜 σ) (S : Wanted V 𝕜) (limit : ℕ)
    (kept : ℕ → List (VectorIndexQueryResult V 𝕜 σ)) : Prop where
  keeps : ∀ idx reader, fanout.readers[idx]? = some reader →
    Keeps nearer limit (fanout.unshadowed_hits S idx reader) ((kept idx).map (·.found))

/-- All hits that were kept, in the order of the segments. -/
def all_kept (self : SegmentFanoutSearcher V Q 𝕜 σ)
    (kept : ℕ → List (VectorIndexQueryResult V 𝕜 σ)) : List (VectorIndexQueryResult V 𝕜 σ) :=
  (List.range self.readers.length).flatMap kept

variable {limit : ℕ} {kept : ℕ → List (VectorIndexQueryResult V 𝕜 σ)}

omit [LinearOrder 𝕜] [LE σ] in
theorem mem_all_kept : a ∈ (self.all_kept kept).map (·.found) ↔
    ∃ idx reader, self.readers[idx]? = some reader ∧ a ∈ (kept idx).map (·.found) := by
  simp only [all_kept, List.map_flatMap, List.mem_flatMap, List.mem_range]
  constructor
  · rintro ⟨idx, hidx, ha⟩
    exact ⟨idx, _, List.getElem?_eq_getElem hidx, ha⟩
  grind

omit [LE σ] in
theorem nodup_all_kept (h : Probed self S limit kept) :
    ((self.all_kept kept).map (·.found)).Nodup := by
  rw [all_kept, List.map_flatMap, List.nodup_flatMap]
  refine ⟨fun idx hidx => ?_, ?_⟩
  · exact (h.keeps idx _ (List.getElem?_eq_getElem (List.mem_range.1 hidx))).nodup
  · refine List.nodup_range.pairwise_of_forall_ne fun idx hidx idx' hidx' hne => ?_
    have hget := List.getElem?_eq_getElem (List.mem_range.1 hidx)
    have hget' := List.getElem?_eq_getElem (List.mem_range.1 hidx')
    intro a ha ha'
    have hin := (h.keeps idx _ hget).sub a ha
    have hin' := (h.keeps idx' _ hget').sub a ha'
    rcases lt_or_gt_of_ne hne with hlt | hgt
    · exact unshadowed_hits_disjoint hget hin hin' rfl hlt
    · exact unshadowed_hits_disjoint hget' hin' hin rfl hgt

omit [LE σ] in
/-- **The nearest of what was kept are the nearest of all.** -/
theorem firstK_merged (h : Probed self S limit kept)
    (order : UnstableSort (VectorIndexQueryResult V 𝕜 σ) hit_le) :
    FirstK nearer limit (S.newest_hits self.readers)
      (((order.sort (self.all_kept kept)).take limit).map (·.found)) := by
  have hsorted : ((order.sort (self.all_kept kept)).map (·.found)).Pairwise nearer := by
    rw [List.pairwise_map]
    refine (order.sorted _).imp fun hle => ?_
    rcases hle with hlt | ⟨heq, -⟩
    · exact le_of_lt hlt
    · exact le_of_eq heq
  rw [List.map_take]
  refine FirstK.of_part (fun _ _ _ _ _ _ => le_trans)
    (FirstK.take_of_sorted ((order.perm _).map _) hsorted (nodup_all_kept h) limit)
    (fun a ha => ?_) fun a ha hnot => ?_
  · obtain ⟨idx, reader, hidx, hin⟩ := mem_all_kept.1 ha
    exact mem_newest_hits.2 ⟨idx, reader, hidx, (h.keeps idx reader hidx).sub a hin⟩
  · obtain ⟨idx, reader, hidx, hin⟩ := mem_newest_hits.1 ha
    have hkeeps := h.keeps idx reader hidx
    obtain ⟨hlen, hbefore⟩ := hkeeps.rest a hin fun hk => hnot (mem_all_kept.2
      ⟨idx, reader, hidx, hk⟩)
    grind [Keeps.nodup, mem_all_kept]

omit [LinearOrder 𝕜] [LE σ] in
theorem probe_all_eq_ok {α : Type} {probe : ℕ → Except LaurusError α} {probed : ℕ → α}
    (hprobe : ∀ idx, probe idx = .ok (probed idx)) {schedule : List ℕ}
    (hschedule : schedule.Perm (List.range self.readers.length)) :
    self.probe_all schedule probe = .ok ((List.range self.readers.length).map probed) ∧
      self.probe_all_serial probe = .ok ((List.range self.readers.length).map probed) := by
  have hserial : (List.range self.readers.length).mapM probe =
      .ok ((List.range self.readers.length).map probed) := mapM_eq_ok_map fun idx _ => hprobe idx
  refine ⟨?_, hserial⟩
  rw [probe_all]
  split
  · exact (par_collect_eq_ok_iff hschedule).2 hserial
  · exact hserial

theorem search_by_eq_ok [DecidableLE σ]
    {order : UnstableSort (VectorIndexQueryResult V 𝕜 σ) hit_le}
    {probes : (ℕ → Except LaurusError (List (VectorIndexQueryResult V 𝕜 σ) × ℕ)) →
      Except LaurusError (List (List (VectorIndexQueryResult V 𝕜 σ) × ℕ))}
    {probed : ℕ → List (VectorIndexQueryResult V 𝕜 σ) × ℕ}
    (hprobes : probes (self.probe_segment metric request) =
      .ok ((List.range self.readers.length).map probed))
    (hsome : ¬ (request.params.top_k = 0 ∨ self.readers.isEmpty)) :
    self.search_by probes metric order request = .ok {
      results := (order.sort (self.all_kept fun idx => (probed idx).1)).take request.params.top_k
      candidates_examined := ((List.range self.readers.length).map probed).foldl
        (fun examined probed => examined + probed.2) 0
      query_metadata := [] } := by
  grind [all_kept, List.flatMap_eq_foldl, List.foldl_map, search_by]

omit [LE σ] in
theorem firstK_none (hnone : request.params.top_k = 0 ∨ self.readers.isEmpty) :
    FirstK nearer request.params.top_k (S.newest_hits self.readers) [] where
  sorted := List.Pairwise.nil
  nodup := List.nodup_nil
  sub := fun _ h => absurd h List.not_mem_nil
  room := Nat.zero_le _
  rest := fun a ha _ => by
    grind [mem_newest_hits]

/-- What the answer to a query is: the nearest of the newest copies, in order,
each with the similarity of its distance, and kept of a segment that no newer
one shadows it in. -/
structure Answers [DecidableLE σ] (fanout : SegmentFanoutSearcher V Q 𝕜 σ)
    (metric : DistanceMetric V Q 𝕜 σ) (request : VectorIndexQuery Q σ) (S : Wanted V 𝕜)
    (merged : VectorIndexQueryResults V 𝕜 σ) : Prop where
  nearest : FirstK nearer request.params.top_k (S.newest_hits fanout.readers)
    (merged.results.map (·.found))
  sorted : merged.results.Pairwise hit_le
  unshadowed : ∀ hit ∈ merged.results, ∃ idx kept n,
    fanout.probe_segment metric request idx = .ok (kept, n) ∧ hit ∈ kept ∧
      fanout.shadowed idx hit.key = false
  similarity : ∀ hit ∈ merged.results,
    hit.similarity = metric.distance_to_similarity hit.distance

/-- **The fan-out search equals an exhaustive search.** Every probe ends, and
the search returns the nearest of the newest live copies of all keys, whatever
the threads' schedule, as the serial loop does. -/
theorem fanout_search_exact [DecidableLE σ] (h : SearchesBest self metric request S)
    {schedule : List ℕ} (hschedule : schedule.Perm (List.range self.readers.length))
    (order : UnstableSort (VectorIndexQueryResult V 𝕜 σ) hit_le) :
    (∀ idx, ∃ probed, self.probe_segment metric request idx = .ok probed) ∧
    ∃ merged, self.search schedule metric order request = .ok merged ∧
      self.search_serial metric order request = .ok merged ∧
      Answers self metric request S merged := by
  have hprobe : ∀ idx, ∃ probed : List (VectorIndexQueryResult V 𝕜 σ) × ℕ,
      self.probe_segment metric request idx = .ok probed ∧
      (∀ reader, self.readers[idx]? = some reader →
        Keeps nearer request.params.top_k (self.unshadowed_hits S idx reader)
          (probed.1.map (·.found))) ∧
      ∀ hit ∈ probed.1, hit.similarity = metric.distance_to_similarity hit.distance ∧
        self.shadowed idx hit.key = false := by
    intro idx
    rcases hidx : self.readers[idx]? with _ | reader
    · refine ⟨([], 0), ?_, fun reader hr => (by cases hr), by simp⟩
      rw [probe_segment, hidx]
    · obtain ⟨kept, n, hok, hkeeps, hsimilarity⟩ := probe_segment_spec h hidx
      refine ⟨(kept, n), hok, fun reader' hr => ?_, fun hit hhit => ⟨hsimilarity hit hhit, ?_⟩⟩
      · obtain rfl := Option.some.inj hr
        exact hkeeps
      · have hin := hkeeps.sub _ (List.mem_map_of_mem (f := fun hit => hit.found) hhit)
        simpa [VectorIndexQueryResult.found] using (List.mem_filter.1 hin).2
  refine ⟨fun idx => (hprobe idx).imp fun _ hp => hp.1, ?_⟩
  choose probed hok hkeeps hhits using hprobe
  obtain ⟨hthreads, hserial⟩ := probe_all_eq_ok hok hschedule
  have hkept : Probed self S request.params.top_k fun idx => (probed idx).1 := ⟨hkeeps⟩
  rw [search, search_serial]
  by_cases hnone : request.params.top_k = 0 ∨ self.readers.isEmpty
  · refine ⟨.new, if_pos hnone, if_pos hnone, firstK_none hnone, List.Pairwise.nil,
      fun _ h => absurd h List.not_mem_nil, fun _ h => absurd h List.not_mem_nil⟩
  · refine ⟨_, search_by_eq_ok hthreads hnone, search_by_eq_ok hserial hnone,
      firstK_merged hkept order, (order.sorted _).sublist (List.take_sublist _ _), ?_, ?_⟩
    all_goals
      intro hit hhit
      obtain ⟨idx, -, hin⟩ := List.mem_flatMap.1
        ((order.perm _).mem_iff.1 (List.mem_of_mem_take hhit))
    · exact ⟨idx, (probed idx).1, (probed idx).2, hok idx, hin, (hhits idx hit hin).2⟩
    · exact (hhits idx hit hin).1

/-! ## A searcher that scans its segment -/

/-- The searcher that sorts all hits of a segment. -/
def scan_segment (metric : DistanceMetric V Q 𝕜 σ) (S : Wanted V 𝕜) (reader : SealedSegment V) :
    VectorIndexSearcher V Q 𝕜 σ := fun request => .ok {
  results := (((S.segment_hits reader).mergeSort fun a b => a.2 ≤ b.2).take
    request.params.top_k).map fun a =>
      { doc_id := a.1.1, field_name := a.1.2, similarity := metric.distance_to_similarity a.2,
        distance := a.2, vector := none }
  candidates_examined := reader.vectors.length
  query_metadata := [] }

omit [LE σ] in
/-- **Scanning meets the contract.** -/
theorem bestHits_scan (metric : DistanceMetric V Q 𝕜 σ) (S : Wanted V 𝕜)
    (reader : SealedSegment V) (request : VectorIndexQuery Q σ)
    (hfits : reader.vectors.length < USIZE_MAX) :
    ∃ results, scan_segment metric S reader request = .ok results ∧
      BestHits metric request.query S reader request.params.top_k results := by
  set sorted := (S.segment_hits reader).mergeSort fun a b => a.2 ≤ b.2 with hsorted
  have hperm : sorted.Perm (S.segment_hits reader) := List.mergeSort_perm _ _
  have hpairwise : sorted.Pairwise nearer := by
    have h := @List.pairwise_mergeSort _ (fun a b : VectorKey × 𝕜 => decide (a.2 ≤ b.2))
      (fun a b c hab hbc => by grind)
      (fun a b => by grind)
      (S.segment_hits reader)
    exact h.imp fun hle => of_decide_eq_true hle
  have hlen : (S.segment_hits reader).length ≤ reader.vectors.length := by
    refine (List.length_filterMap_le _ _).trans ((List.dedup_sublist _).length_le.trans ?_)
    rw [SealedSegment.vector_ids, List.length_map]
  refine ⟨_, rfl, ?_, fun hit hhit => ?_, fun hit hhit v hv => ?_, ?_⟩
  · dsimp only
    rw [List.map_map]
    refine (List.map_id'' (fun a => ?_) _).symm ▸
      FirstK.take_of_sorted hperm hpairwise Wanted.nodup_hits request.params.top_k
    rfl
  · grind
  · grind
  · dsimp only
    rw [List.length_map, List.length_take, hperm.length_eq]
    omega

/-- A merge sort is one way to sort the hits. -/
def merge_sort_hits : UnstableSort (VectorIndexQueryResult V 𝕜 σ) hit_le where
  sort hits := hits.mergeSort fun a b => hit_le a b
  perm hits := List.mergeSort_perm hits _
  sorted hits := by
    have h := @List.pairwise_mergeSort _ (fun a b : VectorIndexQueryResult V 𝕜 σ =>
        decide (hit_le a b))
      (fun a b c hab hbc => by
        simp only [decide_eq_true_eq] at hab hbc ⊢
        exact hit_le_trans a b c hab hbc)
      (fun a b => by
        simp only [Bool.or_eq_true, decide_eq_true_eq]
        exact hit_le_total a b)
      hits
    exact h.imp fun hle => of_decide_eq_true hle

/-- Numbers a query asks the nearest of. -/
def number_metric : DistanceMetric ℕ ℕ ℕ ℕ where
  distance_with_prepared q v := .ok (q - v + (v - q))
  distance_to_similarity d := 100 - d

/-- The query for 10, document 3 being deleted. -/
def near_ten : Wanted ℕ ℕ where
  deleted := {3}
  asked _ := true
  exact v := 10 - v + (v - 10)
  reaches d := 50 ≤ 100 - d

/-- The newer segment has another copy of document 1. -/
def two_segments : SegmentFanoutSearcher ℕ ℕ ℕ ℕ where
  readers := [⟨2, [((1, "f"), 30)]⟩, ⟨1, [((1, "f"), 10), ((2, "f"), 13), ((3, "f"), 11)]⟩]
  make_searcher reader := .ok (scan_segment number_metric near_ten reader)

theorem searchesBest_two_segments :
    SearchesBest two_segments number_metric ⟨10, 1, 50⟩ near_ten where
  exact _ _ _ _ _ := rfl
  reaches _ := decide_eq_true_iff
  best reader hreader := by
    refine ⟨_, rfl, fun top_k _ => bestHits_scan number_metric near_ten reader _ ?_⟩
    rcases List.mem_cons.1 hreader with rfl | hreader
    · decide
    · rcases List.mem_cons.1 hreader with rfl | hreader
      · decide
      grind

theorem fanout_search_exact_two :
    (∀ idx, ∃ probed, two_segments.probe_segment number_metric ⟨10, 1, 50⟩ idx = .ok probed) ∧
    ∃ merged, two_segments.search [1, 0] number_metric merge_sort_hits ⟨10, 1, 50⟩ = .ok merged ∧
      two_segments.search_serial number_metric merge_sort_hits ⟨10, 1, 50⟩ = .ok merged ∧
      Answers two_segments number_metric ⟨10, 1, 50⟩ near_ten merged :=
  fanout_search_exact searchesBest_two_segments (by decide) merge_sort_hits

end SegmentFanoutSearcher

end Laurus
