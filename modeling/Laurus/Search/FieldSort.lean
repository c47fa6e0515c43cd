import Laurus.Search.Helpers.FieldSort

/-!
# The fan-out of a sort by a field

Each segment's own first hits are enough for the first of all, and a segment
is skipped on what its range says of the lead's last hit. Where the ranges
bound what the documents sort by (`SortsApart`), the search is the full sort
(`search_field_sorted_fanout_exact`). A range is read from the points of the
index, and need not bound the values.
-/

namespace Laurus

variable {P : PointSpace} {𝕜 : Type} [LinearOrder 𝕜] {ascending : Bool} {limit : ℕ} {min_score : 𝕜}
  {segments : List (SortSegment 𝕜)} {seg other : SortSegment 𝕜} {hit : FieldHit 𝕜} {i j : ℕ}

/-- The hits of all segments. -/
def matching_hits (min_score : 𝕜) (segments : List (SortSegment 𝕜)) : List (FieldHit 𝕜) :=
  segments.flatMap (ranked_hits min_score)

/-- The full sort. -/
def full_sort (P : PointSpace) (ascending : Bool) (min_score : 𝕜)
    (segments : List (SortSegment 𝕜)) : List (FieldHit 𝕜) :=
  (matching_hits min_score segments).insertionSort (FieldHit.before P ascending)

/-- The range of a segment excludes a value. -/
def Excludes (P : PointSpace) (ascending : Bool) (seg : SortSegment 𝕜) (value : FieldValue) :
    Prop :=
  segment_can_contribute (segment_sort_range seg) (sort_key_as_point P value) ascending = false

instance (seg : SortSegment 𝕜) (value : FieldValue) : Decidable (Excludes P ascending seg value) :=
  inferInstanceAs (Decidable (_ = _))

/-- The documents are distinct, the comparator orders their values, and a
value that a segment's range excludes sorts before the segment's documents. -/
structure SortsApart [Zero 𝕜] (P : PointSpace) (ascending : Bool) (min_score : 𝕜)
    (segments : List (SortSegment 𝕜)) : Prop where
  ids : ((matching_hits min_score segments).map FieldHit.doc_id).Nodup
  trans : ∀ a ∈ matching_hits min_score segments, ∀ b ∈ matching_hits min_score segments,
    ∀ c ∈ matching_hits min_score segments,
      a.before P ascending b → b.before P ascending c → a.before P ascending c
  bounds : min_score ≤ 0 → ∀ (i j : ℕ) (seg other : SortSegment 𝕜),
    segments[i]? = some seg → segments[j]? = some other → i ≠ j →
    ∀ kept ∈ ranked_hits min_score seg, Excludes P ascending other kept.value →
      ∀ hit ∈ ranked_hits min_score other, kept.before P ascending hit

/-! ## One segment -/

theorem mem_matching_hits (hseg : segments[i]? = some seg)
    (hhit : hit ∈ ranked_hits min_score seg) : hit ∈ matching_hits min_score segments :=
  List.mem_flatMap.2 ⟨seg, List.mem_of_getElem? hseg, hhit⟩

theorem collect_segment_firstK
    (hord : OrderedOn (FieldHit.before P ascending) (ranked_hits min_score seg))
    (hnodup : (ranked_hits min_score seg).Nodup) :
    FirstK (FieldHit.before P ascending) limit (ranked_hits min_score seg)
      (collect_segment P ascending limit min_score seg).1 :=
  FieldTopK.foldl_push_firstK hord hnodup limit

variable [Zero 𝕜]

namespace SortsApart

variable (h : SortsApart P ascending min_score segments)
include h

theorem orderedOn : OrderedOn (FieldHit.before P ascending) (matching_hits min_score segments) :=
  FieldHit.orderedOn h.ids h.trans

theorem nodup : (matching_hits min_score segments).Nodup := h.ids.of_map

theorem collected (hseg : segments[i]? = some seg) :
    FirstK (FieldHit.before P ascending) limit (ranked_hits min_score seg)
      (collect_segment P ascending limit min_score seg).1 :=
  collect_segment_firstK (h.orderedOn.mono fun _ hhit => mem_matching_hits hseg hhit)
    ((List.nodup_flatMap.1 h.nodup).1 seg (List.mem_of_getElem? hseg))

theorem disjoint (hseg : segments[i]? = some seg) (hother : segments[j]? = some other)
    (hne : i ≠ j) : (ranked_hits min_score seg).Disjoint (ranked_hits min_score other) := by
  obtain ⟨hi, rfl⟩ := List.getElem?_eq_some_iff.1 hseg
  obtain ⟨hj, rfl⟩ := List.getElem?_eq_some_iff.1 hother
  have hpair := List.pairwise_iff_getElem.1 (List.nodup_flatMap.1 h.nodup).2
  rcases Nat.lt_or_gt_of_ne hne with hlt | hlt
  · exact hpair i j hi hj hlt
  · exact fun _ hin hout => hpair j i hj hi hlt hout hin

end SortsApart

/-! ## The waves -/

/-- What a segment adds to the merge. -/
def wave_result (P : PointSpace) (ascending : Bool) (limit : ℕ) (min_score : 𝕜)
    (segments : List (SortSegment 𝕜)) (entry : SortSegment 𝕜 × ℕ) : List (FieldHit 𝕜) × ℕ :=
  if some entry.2 ≠ lead_segment ascending min_score segments ∧
      skips P ascending limit min_score segments entry.2 = true then ([], entry.1.hits.length)
  else collect_segment P ascending limit min_score entry.1

theorem lead_segment_lt (hlead : lead_segment ascending min_score segments = some i) :
    ∃ seg, segments[i]? = some seg := by
  have hpossible := (Option.filter_eq_some_iff.1 hlead).2
  grind [pruning_is_possible, sort_ranges]

/-- **The waves collect each segment once.** -/
theorem wave_results_perm (P : PointSpace) (ascending : Bool) (limit : ℕ) (min_score : 𝕜)
    (segments : List (SortSegment 𝕜)) :
    (wave_results P ascending limit min_score segments).Perm
      (segments.zipIdx.map (wave_result P ascending limit min_score segments)) := by
  have hwave : ∀ entry ∈ segments.zipIdx.filter fun entry =>
        decide (some entry.2 ≠ lead_segment ascending min_score segments),
      (if skips P ascending limit min_score segments entry.2 then ([], entry.1.hits.length)
        else collect_segment P ascending limit min_score entry.1) =
      wave_result P ascending limit min_score segments entry := by
    intro entry hentry
    rw [wave_result]
    grind
  rw [wave_results, List.map_congr_left hwave]
  rcases hlead : lead_segment ascending min_score segments with _ | i
  · rw [lead_result, hlead]
    simp
  · obtain ⟨seg, hseg⟩ := lead_segment_lt hlead
    have hlast : (lead_result P ascending limit min_score segments).toList =
        (segments.zipIdx.filter (fun entry => decide (entry.2 = i))).map
          (wave_result P ascending limit min_score segments) := by
      rw [filter_zipIdx_eq hseg, lead_result, hlead, Option.bind_some, hseg, List.map_singleton,
        wave_result, if_neg fun hboth => hboth.1 hlead.symm]
      rfl
    rw [hlast, ← List.map_append]
    refine List.Perm.map _ (List.perm_append_comm.trans ?_)
    have hsplit := List.filter_append_perm (fun entry : SortSegment 𝕜 × ℕ =>
      decide (entry.2 = i)) segments.zipIdx
    refine (List.Perm.of_eq ?_).trans hsplit
    congr 2
    simp

theorem mem_wave_results :
    hit ∈ (wave_results P ascending limit min_score segments).flatMap Prod.fst ↔
    ∃ i seg, segments[i]? = some seg ∧
      hit ∈ (wave_result P ascending limit min_score segments (seg, i)).1 := by
  rw [((wave_results_perm P ascending limit min_score segments).flatMap_right Prod.fst).mem_iff,
    List.flatMap_map, List.mem_flatMap]
  grind

theorem segment_can_contribute_none (range : Option SegmentSortRange) (ascending : Bool) :
    segment_can_contribute range none ascending = true := by
  rcases range with _ | range
  · rfl
  · rfl

/-- **What a skip goes by**: the lead is full, and the range of the segment
excludes the lead's last hit. -/
theorem skips_cases (hskips : skips P ascending limit min_score segments i = true)
    (hseg : segments[i]? = some seg) :
    ∃ j lead worst, lead_segment ascending min_score segments = some j ∧
      segments[j]? = some lead ∧ min_score ≤ 0 ∧
      limit ≤ (collect_segment P ascending limit min_score lead).1.length ∧
      (collect_segment P ascending limit min_score lead).1.getLast? = some worst ∧
      Excludes P ascending seg worst.value := by
  rw [skips, Bool.and_eq_true, Option.isSome_iff_exists, Bool.not_eq_true'] at hskips
  obtain ⟨⟨j, hlead⟩, hrange⟩ := hskips
  obtain ⟨lead, hj⟩ := lead_segment_lt hlead
  rw [lead_result, hlead, Option.bind_some, hj, Option.map_some, Option.bind_some] at hrange
  have heligible : min_score ≤ 0 ∧ 1 < segments.length := by
    by_contra hnot
    rw [sort_ranges, if_neg hnot] at hrange
    exact absurd hrange (by simp [segment_can_contribute])
  have hi : (sort_ranges min_score segments)[i]?.join = segment_sort_range seg := by
    rw [sort_ranges, if_pos heligible, List.getElem?_map, hseg]
    rfl
  rcases hfloor : lead_floor P (collect_segment P ascending limit min_score lead).1 limit with
    _ | floor
  · -- a segment is kept while there is no floor
    rw [hfloor, segment_can_contribute_none] at hrange
    exact absurd hrange.symm Bool.false_ne_true
  grind [lead_floor, Excludes]

/-! ## The search -/

namespace SortsApart

variable (h : SortsApart P ascending min_score segments)
include h

theorem wave_result_sub (hseg : segments[i]? = some seg)
    (hhit : hit ∈ (wave_result P ascending limit min_score segments (seg, i)).1) :
    hit ∈ ranked_hits min_score seg := by
  rw [wave_result] at hhit
  split at hhit
  · exact absurd hhit List.not_mem_nil
  · exact (h.collected hseg).sub hit hhit

theorem offered (hhit : hit ∈ (wave_results P ascending limit min_score segments).flatMap
    Prod.fst) : hit ∈ matching_hits min_score segments := by
  grind [mem_wave_results, mem_matching_hits, wave_result_sub]

theorem wave_results_nodup :
    ((wave_results P ascending limit min_score segments).flatMap Prod.fst).Nodup := by
  rw [((wave_results_perm P ascending limit min_score segments).flatMap_right Prod.fst).nodup_iff,
    List.flatMap_map, List.nodup_flatMap]
  constructor
  · rintro ⟨seg, i⟩ hentry
    rw [wave_result]
    split
    · exact List.nodup_nil
    · exact (h.collected (List.mem_zipIdx_iff_getElem?.1 hentry)).nodup
  · rw [List.pairwise_iff_getElem]
    intro i j hi hj hlt hit hin hout
    rw [List.getElem_zipIdx, Nat.zero_add] at hin hout
    rw [List.length_zipIdx] at hi hj
    exact h.disjoint (List.getElem?_eq_getElem hi) (List.getElem?_eq_getElem hj) hlt.ne
      (h.wave_result_sub (List.getElem?_eq_getElem hi) hin)
      (h.wave_result_sub (List.getElem?_eq_getElem hj) hout)

/-- **Whatever is not offered to the merge comes after a full list of what is.** -/
theorem covered (hhit : hit ∈ matching_hits min_score segments)
    (hout : hit ∉ (wave_results P ascending limit min_score segments).flatMap Prod.fst) :
    ∃ better : List (FieldHit 𝕜), better.Nodup ∧ limit ≤ better.length ∧ ∀ b ∈ better,
      b ∈ (wave_results P ascending limit min_score segments).flatMap Prod.fst ∧
      b.before P ascending hit := by
  obtain ⟨seg, hmem, hhit⟩ := List.mem_flatMap.1 hhit
  obtain ⟨i, hseg⟩ := List.mem_iff_getElem?.1 hmem
  by_cases hskips : some i ≠ lead_segment ascending min_score segments ∧
      skips P ascending limit min_score segments i = true
  · -- the lead's hits come up to its last, and that before the segment
    obtain ⟨j, lead, worst, hlead, hj, hscore, hfull, hworst, hexcl⟩ := skips_cases hskips.2 hseg
    have hcoll : FirstK (FieldHit.before P ascending) limit (ranked_hits min_score lead)
        (collect_segment P ascending limit min_score lead).1 := h.collected hj
    have hne : j ≠ i := fun heq => hskips.1 (heq ▸ hlead.symm)
    have hlast := List.mem_of_getLast? hworst
    have hbefore := h.bounds hscore j i lead seg hj hseg hne worst (hcoll.sub worst hlast) hexcl
      hit hhit
    refine ⟨_, hcoll.nodup, hfull, fun b hb => ⟨mem_wave_results.2 ⟨j, lead, hj, ?_⟩, ?_⟩⟩
    · rw [wave_result, if_neg fun hboth => hboth.1 hlead.symm]
      exact hb
    · have hbw : b.before P ascending worst := by
        obtain ⟨init, heq⟩ := List.getLast?_eq_some_iff.1 hworst
        have hsorted := hcoll.sorted
        grind [FieldHit.before_total]
      grind [trans, mem_matching_hits, FirstK.sub]
  · -- its own segment was collected without it
    have hres : wave_result P ascending limit min_score segments (seg, i) =
        collect_segment P ascending limit min_score seg := if_neg hskips
    have hcoll : FirstK (FieldHit.before P ascending) limit (ranked_hits min_score seg)
        (collect_segment P ascending limit min_score seg).1 := h.collected hseg
    have hnot : hit ∉ (collect_segment P ascending limit min_score seg).1 := fun hin =>
      hout (mem_wave_results.2 ⟨i, seg, hseg, hres ▸ hin⟩)
    obtain ⟨hfull, hbefore⟩ := hcoll.rest hit hhit hnot
    grind [FirstK.nodup, mem_wave_results]

/-- **The merge keeps the first of all hits.** -/
theorem merged_firstK :
    FirstK (FieldHit.before P ascending) limit (matching_hits min_score segments)
      (((wave_results P ascending limit min_score segments).flatMap Prod.fst).foldl
        (FieldTopK.push P) (FieldTopK.new limit ascending)).hits := by
  exact FirstK.of_part h.orderedOn.trans (FieldTopK.foldl_push_firstK
    (h.orderedOn.mono fun _ => h.offered) h.wave_results_nodup limit) (fun _ => h.offered)
    fun _ hhit hout => h.covered hhit hout

end SortsApart

variable (P ascending limit min_score segments) in
/-- The search is the full sort, the count that of all hits, and no hit of a
skipped segment is among the first. -/
structure ExactSort : Prop where
  hits : (search_field_sorted_fanout P ascending limit min_score segments).1 =
    ((full_sort P ascending min_score segments).take limit).map FieldHit.search_hit
  count : (search_field_sorted_fanout P ascending limit min_score segments).2 =
    (segments.map fun seg => seg.hits.length).sum
  skipped : ∀ i seg, segments[i]? = some seg → some i ≠ lead_segment ascending min_score segments →
    skips P ascending limit min_score segments i = true →
    ∀ hit ∈ ranked_hits min_score seg, hit ∉ (full_sort P ascending min_score segments).take limit

theorem search_count (P : PointSpace) (ascending : Bool) (limit : ℕ) (min_score : 𝕜)
    (segments : List (SortSegment 𝕜)) :
    (search_field_sorted_fanout P ascending limit min_score segments).2 =
      (segments.map fun seg => seg.hits.length).sum := by
  have hcount : ∀ entry : SortSegment 𝕜 × ℕ,
      (wave_result P ascending limit min_score segments entry).2 = entry.1.hits.length := by
    intro entry
    rw [wave_result]
    split
    · rfl
    · rfl
  calc (search_field_sorted_fanout P ascending limit min_score segments).2
      = ((wave_results P ascending limit min_score segments).map Prod.snd).sum := rfl
    _ = ((segments.zipIdx.map (wave_result P ascending limit min_score segments)).map
          Prod.snd).sum :=
        ((wave_results_perm P ascending limit min_score segments).map Prod.snd).sum_nat
    _ = ((segments.zipIdx.map Prod.fst).map fun seg => seg.hits.length).sum := by
        rw [List.map_map, List.map_map]
        exact congrArg List.sum (List.map_congr_left fun entry _ => hcount entry)
    _ = (segments.map fun seg => seg.hits.length).sum := by rw [List.zipIdx_map_fst]

theorem SortsApart.exact (h : SortsApart P ascending min_score segments) (limit : ℕ) :
    ExactSort P ascending limit min_score segments := by
  have hmerged := h.merged_firstK.unique h.orderedOn
    (firstK_take_insertionSort h.orderedOn h.nodup limit)
  refine ⟨?_, search_count P ascending limit min_score segments, fun i seg hseg hne hskips hit hhit
    hin => ?_⟩
  · rw [search_field_sorted_fanout, hmerged]
    rfl
  · -- what the merge keeps was offered to it, by a segment that was collected
    rw [full_sort, ← hmerged] at hin
    obtain ⟨j, other, hother, hoffer⟩ := mem_wave_results.1
      ((FieldTopK.foldl_push_firstK (h.orderedOn.mono fun _ => h.offered) h.wave_results_nodup
        limit).sub hit hin)
    by_cases heq : i = j
    · subst heq
      rw [wave_result, if_pos ⟨hne, hskips⟩] at hoffer
      exact absurd hoffer List.not_mem_nil
    · exact h.disjoint hseg hother heq hhit (h.wave_result_sub hother hoffer)

/-! ## A field of numbers -/

/-- Each match sorts by a point of its segment's index, or has no value, which
in descending order is no match of a range that covers its segment. The
comparator goes by the points. -/
structure SortsByPoint (P : PointSpace) (ascending : Bool) (min_score : 𝕜)
    (segments : List (SortSegment 𝕜)) : Prop where
  finite : ∀ seg ∈ segments, ∀ p ∈ seg.points.flatten, p.is_nan = false
  point : ∀ seg ∈ segments, ∀ hit ∈ ranked_hits min_score seg,
    (hit.value = .null ∧
      (ascending = true ∨ seg.points.flatten.length ≠ seg.points.length)) ∨
    ∃ p ∈ seg.points.flatten, sort_key_as_point P hit.value = some p
  agrees : ∀ a ∈ matching_hits min_score segments, ∀ b ∈ matching_hits min_score segments,
    ∀ p ∈ sort_key_as_point P a.value, ∀ q ∈ sort_key_as_point P b.value,
      p.place < q.place → compare_sort_key P a.value b.value = .lt

omit [Zero 𝕜] in
/-- **Where the documents sort by their points, a value that a range excludes
sorts before the segment.** -/
theorem SortsByPoint.before (h : SortsByPoint P ascending min_score segments)
    (hseg : segments[i]? = some seg) (hother : segments[j]? = some other) {kept : FieldHit 𝕜}
    (hkept : kept ∈ ranked_hits min_score seg) (hexcl : Excludes P ascending other kept.value)
    (hhit : hit ∈ ranked_hits min_score other) : kept.before P ascending hit := by
  have hkin := mem_matching_hits hseg hkept
  have hhin := mem_matching_hits hother hhit
  rw [Excludes] at hexcl
  rcases h.point seg (List.mem_of_getElem? hseg) kept hkept with ⟨hnull, -⟩ | ⟨p, hp, hpoint⟩
  · rw [hnull, show sort_key_as_point P .null = none from rfl,
      segment_can_contribute_none] at hexcl
    exact absurd hexcl.symm Bool.false_ne_true
  rw [hpoint] at hexcl
  have hpnan := h.finite seg (List.mem_of_getElem? hseg) p hp
  rcases hrange : segment_sort_range other with _ | range
  · rw [hrange] at hexcl
    cases hexcl
  obtain ⟨⟨hminnan, hmaxnan⟩, hbounds⟩ := segment_sort_range_bounds hrange
    (h.finite other (List.mem_of_getElem? hother))
  rw [hrange, segment_can_contribute] at hexcl
  have hrank : kept.rank P ascending hit = .lt := by
    rw [FieldHit.rank]
    rcases ascending with _ | _
    · -- no document of the segment is missing, and its points are less
      rw [if_neg Bool.false_ne_true, Bool.or_eq_false_iff, Bool.not_eq_false'] at hexcl
      rcases h.point other (List.mem_of_getElem? hother) hit hhit with ⟨-, hall⟩ |
        ⟨q, hq, hqpoint⟩
      · grind [segment_sort_range_covers]
      · have hlt := F64.lt_of_not_le hpnan hmaxnan hexcl.2
        have hqle := (hbounds q hq).2
        rw [if_neg Bool.false_ne_true, ← compare_sort_key_swap, h.agrees hit hhin kept hkin q hqpoint
          p hpoint (by omega)]
        rfl
    · rw [if_pos rfl] at hexcl
      have hlt := F64.lt_of_not_le hminnan hpnan hexcl
      rcases h.point other (List.mem_of_getElem? hother) hit hhit with ⟨hnull, -⟩ | ⟨q, hq, hqpoint⟩
      · rw [hnull, compare_sort_key_null hpoint]
        rfl
      · have hqle := (hbounds q hq).1
        rw [h.agrees kept hkin hit hhin p hpoint q hqpoint (by omega)]
        rfl
  rw [FieldHit.before, hrank]
  exact Ordering.noConfusion

/-- **A field of numbers that the ranges bound.** -/
theorem SortsByPoint.sortsApart (h : SortsByPoint P ascending min_score segments)
    (hids : ((matching_hits min_score segments).map FieldHit.doc_id).Nodup)
    (htrans : ∀ a ∈ matching_hits min_score segments, ∀ b ∈ matching_hits min_score segments,
      ∀ c ∈ matching_hits min_score segments,
        a.before P ascending b → b.before P ascending c → a.before P ascending c) :
    SortsApart P ascending min_score segments where
  ids := hids
  trans := htrans
  bounds _ _ _ _ _ hseg hother _ _ hkept hexcl _ hhit := h.before hseg hother hkept hexcl hhit

/-! ## A range that is no bound -/

omit [LinearOrder 𝕜] [Zero 𝕜] in
variable (P) in
/-- A segment of one document. -/
def lone (kept : FieldHit 𝕜) : SortSegment 𝕜 :=
  { points := [points_of P kept.value], value := fun _ => kept.value, hits := [kept.search_hit] }

section Lone

variable {kept : FieldHit 𝕜} {p : F64} {range : SegmentSortRange}

omit [LinearOrder 𝕜] [Zero 𝕜] in
theorem segment_sort_range_lone (hpoint : sort_key_as_point P kept.value = some p)
    (hmin : F64.MIN.key ≤ p.key) (hmax : p.key ≤ F64.MAX.key) :
    segment_sort_range (lone P kept) =
      some { min := p, max := p, covers_every_doc := true } := by
  have hpoints : points_of P kept.value = [p] := by
    rcases hvalue : kept.value <;> rw [hvalue] at hpoint <;> cases hpoint <;> rfl
  have hlow : F64.MAX.total_min p = p := by
    grind [F64.total_min, F64.eq_of_key]
  have hhigh : F64.MIN.total_max p = p := by
    grind [F64.total_max, F64.eq_of_key]
  simp [segment_sort_range, lone, hpoints, hlow, hhigh]

omit [LinearOrder 𝕜] [Zero 𝕜] in
theorem leads_of_excludes (b : Bool)
    (hexcl : segment_can_contribute (some range) (some p) ascending = false) :
    leads ascending range { min := p, max := p, covers_every_doc := b } = false := by
  rcases ascending with _ | _
  · rw [segment_can_contribute, if_neg Bool.false_ne_true, Bool.or_eq_false_iff] at hexcl
    exact Bool.eq_false_iff.2 fun hlt => Bool.eq_false_iff.1 hexcl.2 (F64.le_of_lt hlt)
  · rw [segment_can_contribute, if_pos rfl] at hexcl
    exact Bool.eq_false_iff.2 fun hlt => Bool.eq_false_iff.1 hexcl (F64.le_of_lt hlt)

/-- **Behind a document that its range excludes, a segment is skipped.** -/
theorem wave_results_lone (hscore : min_score ≤ 0) (hkept : min_score ≤ kept.score)
    (hpoint : sort_key_as_point P kept.value = some p) (hmin : F64.MIN.key ≤ p.key)
    (hmax : p.key ≤ F64.MAX.key) (hexcl : Excludes P ascending seg kept.value) :
    wave_results P ascending 1 min_score [lone P kept, seg] =
      [([], seg.hits.length), ([kept], 1)] := by
  rw [Excludes, hpoint] at hexcl
  obtain ⟨range, hrange⟩ : ∃ range, segment_sort_range seg = some range := by
    rcases hrange : segment_sort_range seg with _ | range
    · rw [hrange] at hexcl
      cases hexcl
    · exact ⟨range, rfl⟩
  rw [hrange] at hexcl
  have hranges : sort_ranges min_score [lone P kept, seg] =
      [some { min := p, max := p, covers_every_doc := true }, some range] := by
    rw [sort_ranges, if_pos ⟨hscore, Nat.one_lt_two⟩, List.map_cons, List.map_singleton, hrange,
      segment_sort_range_lone hpoint hmin hmax]
  have hbest : best_segment_index (sort_ranges min_score [lone P kept, seg]) ascending =
      some 0 := by
    rw [hranges]
    simp [best_segment_index, leads_of_excludes true hexcl]
  have hlead : lead_segment ascending min_score [lone P kept, seg] = some 0 := by
    rw [lead_segment, hbest, hranges]
    simp [pruning_is_possible, hexcl]
  have hcollect : collect_segment P ascending 1 min_score (lone P kept) = ([kept], 1) := by
    simp [collect_segment, ranked_hits, lone, FieldHit.search_hit, hkept, FieldTopK.push,
      FieldTopK.new]
  have hskips : skips P ascending 1 min_score [lone P kept, seg] 1 = true := by
    grind [skips, lead_result, lead_floor]
  simp [wave_results, hlead, lead_result, hcollect, hskips]

/-- **A range must bound the documents.** Where it excludes the value of a
document that one of its own is to come before, that one is lost. -/
theorem not_exact_of_excludes (hscore : min_score ≤ 0) (hkept : min_score ≤ kept.score)
    (hpoint : sort_key_as_point P kept.value = some p) (hmin : F64.MIN.key ≤ p.key)
    (hmax : p.key ≤ F64.MAX.key) (hexcl : Excludes P ascending seg kept.value)
    (hids : ((matching_hits min_score [lone P kept, seg]).map FieldHit.doc_id).Nodup)
    (hord : OrderedOn (FieldHit.before P ascending) (matching_hits min_score [lone P kept, seg]))
    (hhit : hit ∈ ranked_hits min_score seg) (hbefore : ¬ kept.before P ascending hit) :
    ¬ ExactSort P ascending 1 min_score [lone P kept, seg] := by
  intro h
  have hin : kept ∈ matching_hits min_score [lone P kept, seg] := by
    refine mem_matching_hits (i := 0) rfl ?_
    simp [ranked_hits, lone, FieldHit.search_hit, hkept]
  have hhits := h.hits
  rw [search_field_sorted_fanout, wave_results_lone hscore hkept hpoint hmin hmax hexcl] at hhits
  have hfirst := firstK_take_insertionSort hord hids.of_map 1
  -- the search returns the document that was kept, the sort one that is no other
  obtain ⟨first, hfull, hsame⟩ := List.map_eq_singleton_iff.1 hhits.symm
  rw [full_sort] at hfull
  rw [hfull] at hfirst
  have heq : first = kept := List.inj_on_of_nodup_map hids
    (hfirst.sub first (List.mem_singleton_self first)) hin (congrArg ScoredDoc.doc_id hsame)
  subst heq
  have hne : hit ∉ [first] := by
    grind [FieldHit.before_total]
  exact hbefore ((hfirst.rest hit (mem_matching_hits (i := 1) rfl hhit) hne).2 first
    (List.mem_singleton_self first))

end Lone

/-- The points of integers and of instants, which no document below has. -/
def float_points : PointSpace := { of_int64 := fun _ => ⟨0⟩, of_datetime := fun _ => ⟨0⟩ }

/-- The document that has 10. -/
def ten_hit : FieldHit ℤ := { doc_id := 0, score := 1, value := .float64 ⟨0x4024000000000000⟩ }

/-- A document of 5 and 6, and one that has neither: two points, of two documents. -/
def pair_and_none : SortSegment ℤ :=
  { points := [[⟨0x4014000000000000⟩, ⟨0x4018000000000000⟩], []]
    value := fun doc_id =>
      if doc_id = 1 then .float64_array [⟨0x4014000000000000⟩, ⟨0x4018000000000000⟩] else .null
    hits := [{ doc_id := 1, score := 1 }, { doc_id := 2, score := 1 }] }

/-- The document of 6. -/
def six_hit : FieldHit ℤ := { doc_id := 1, score := 1, value := .float64 ⟨0x4018000000000000⟩ }

theorem ordered_pair_and_none : OrderedOn (FieldHit.before float_points false)
    (matching_hits 0 [lone float_points ten_hit, pair_and_none]) where
  total := by decide +kernel
  trans := by decide +kernel
  antisymm := by decide +kernel

end Laurus
