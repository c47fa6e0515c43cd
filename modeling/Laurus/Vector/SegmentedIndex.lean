import Laurus.Vector.Helpers.SegmentedIndex

/-!
# A segmented index over whole runs

Deletions mark documents in all segments at once, and a document that is set
again loses its mark in all of them. Where each such document is set in every
field it was deleted in, and kept, the index shows its history: whatever is
merged, reclaimed, and softly deleted meanwhile. Elsewhere an old copy of
another field comes back.
-/

namespace Laurus

open SegmentedIndex

variable {V : Type*} {policy : TieredMergePolicy} {config : SegmentManagerConfig}
variable {r : IndexRun V} {key : VectorKey}

/-! ## The invariant -/

/-- A merge on its way: the documents it drops are marked; while it is not
published its sources are a window, and all segments when it is full. -/
structure Going (index : SegmentedIndex V) (m : MergeInFlight V) : Prop where
  reclaimed_marked : m.deletions.getD ∅ ⊆ index.marks
  window : m.published = false → Window index.segments m.sources
  all : m.full = true → m.published = false → m.sources = index.segments
  unbuffered : m.full = true → ∀ e ∈ index.buffered, e.1.1 ∉ m.deletions.getD ∅
  dropped : m.published = true → ∀ s ∈ index.segments, ∀ key ∈ s.vector_ids,
    key.1 ∉ m.deletions.getD ∅
  published_full : m.published = true → m.full = true

/-- The sealed segments answer with what was committed, but for the documents
that are marked or that lost their mark since; the buffer has what was set
since. -/
structure Sound (r : IndexRun V) : Prop where
  generations : (r.index.segments.map SealedSegment.generation).Nodup
  ids_nodup : ∀ s ∈ r.index.segments, s.vector_ids.Nodup
  committed : ∀ key, r.history.committed key =
    if key.1 ∈ r.index.marks ∨ key.1 ∈ r.cleared then none
    else newest_vector r.index.segments key
  current : ∀ key, r.history.current key =
    if key.1 ∈ r.index.marks then none
    else (last_vector r.index.buffered key).or (r.history.committed key)
  cleared_unmarked : ∀ doc ∈ r.cleared, doc ∉ r.index.marks
  cleared_buffered : ∀ doc ∈ r.cleared, doc ∈ docs_of r.index.buffered
  merging : ∀ m, r.index.merging = some m → Going r.index m

variable {vectors : List (VectorKey × V)}

theorem mem_docs_of {doc : ℕ} :
    doc ∈ docs_of vectors ↔ ∃ e ∈ vectors, e.1.1 = doc := by
  unfold docs_of
  rw [List.mem_toFinset, List.mem_map]

theorem newest_vector_isSome {segments : List (SealedSegment V)} :
    (newest_vector segments key).isSome ↔ ∃ s ∈ segments, key ∈ s.vector_ids := by
  rw [← not_iff_not, Bool.not_eq_true, Option.isSome_eq_false_iff, Option.isNone_iff_eq_none,
    newest_vector, newest_eq_none]
  grind [get_vector_isSome, Option.not_isSome_iff_eq_none]

/-! ## Deletions -/

/-- A deletion marks the document, and may take vectors of it that are
buffered. -/
theorem Sound.delete (h : Sound r) {doc : ℕ} {buffered : List (VectorKey × V)}
    (hlast : ∀ key : VectorKey, key.1 ≠ doc →
      last_vector buffered key = last_vector r.index.buffered key)
    (hsub : buffered ⊆ r.index.buffered)
    (hdocs : ∀ e ∈ r.index.buffered, e.1.1 ≠ doc → e ∈ buffered) :
    Sound {
      index := { r.index.mark_deleted doc with buffered }
      history := { current := VectorHistory.without doc r.history.current
                   committed := VectorHistory.without doc r.history.committed }
      cleared := r.cleared.erase doc } where
  generations := h.generations
  ids_nodup := h.ids_nodup
  committed := by
    intro key
    by_cases hdoc : key.1 = doc
    · have hmarked : key.1 ∈ insert doc r.index.marks := hdoc ▸ Finset.mem_insert_self _ _
      exact (if_pos hdoc).trans (if_pos (Or.inl hmarked)).symm
    · refine (if_neg hdoc).trans ((h.committed key).trans (if_congr ?_ rfl rfl))
      rw [Finset.mem_erase, and_iff_right hdoc]
      exact or_congr ((Finset.mem_insert.trans (or_iff_right hdoc)).symm) Iff.rfl
  current := by
    intro key
    by_cases hdoc : key.1 = doc
    · have hmarked : key.1 ∈ insert doc r.index.marks := hdoc ▸ Finset.mem_insert_self _ _
      exact (if_pos hdoc).trans (if_pos hmarked).symm
    · have hmarked : key.1 ∈ insert doc r.index.marks ↔ key.1 ∈ r.index.marks :=
        Finset.mem_insert.trans (or_iff_right hdoc)
      have hcommitted : VectorHistory.without doc r.history.committed key =
          r.history.committed key := if_neg hdoc
      refine (if_neg hdoc).trans ((h.current key).trans (if_congr hmarked.symm rfl ?_))
      grind
  cleared_unmarked := by
    intro other hother hmarked
    obtain ⟨hne, hcleared⟩ := Finset.mem_erase.1 hother
    rcases Finset.mem_insert.1 hmarked with rfl | hbefore
    · exact hne rfl
    · exact h.cleared_unmarked other hcleared hbefore
  cleared_buffered := by
    intro other hother
    obtain ⟨hne, hcleared⟩ := Finset.mem_erase.1 hother
    obtain ⟨e, he, rfl⟩ := mem_docs_of.1 (h.cleared_buffered other hcleared)
    exact mem_docs_of.2 ⟨e, hdocs e he hne, rfl⟩
  merging := by
    intro m hm
    have hgoing := h.merging m hm
    exact ⟨hgoing.reclaimed_marked.trans (Finset.subset_insert _ _), hgoing.window, hgoing.all,
      fun hfull e he => hgoing.unbuffered hfull e (hsub he), hgoing.dropped,
      hgoing.published_full⟩

theorem Sound.soft_delete_document (h : Sound r) (doc : ℕ) :
    Sound (r.run policy config (.soft_delete_document doc)) :=
  h.delete (fun _ _ => rfl) (fun _ he => he) fun _ he _ => he

theorem last_vector_filter {doc : ℕ} (hdoc : key.1 ≠ doc) :
    last_vector (vectors.filter fun e => e.1.1 ≠ doc) key = last_vector vectors key := by
  induction vectors with
  | nil => rfl
  | cons e rest ih =>
    rw [List.filter_cons]
    by_cases he : e.1.1 = doc
    · have hkey : ¬ e.1 = key := fun hkey => hdoc (hkey ▸ he)
      rw [if_neg (by simpa using he), ih, last_vector_cons, if_neg hkey, Option.or_none]
    · rw [if_pos (by simpa using he), last_vector_cons, last_vector_cons, ih]

theorem Sound.delete_document (h : Sound r) (doc : ℕ) :
    Sound (r.run policy config (.delete_document doc)) :=
  h.delete (fun _ hdoc => last_vector_filter hdoc) (List.filter_subset_self _)
    fun _ he hdoc => List.mem_filter.2 ⟨he, decide_eq_true hdoc⟩

/-! ## Additions -/

theorem marks_unmark_deleted (index : SegmentedIndex V) (docs : Finset ℕ) :
    (index.unmark_deleted docs).marks = index.marks \ docs := by
  unfold unmark_deleted marks
  match index.deletion with
  | none => simp
  | some _ => rfl

theorem Sound.add_vectors (h : Sound r)
    (hidle : r.index.merging = none) (hclean : r.Clean (.add_vectors vectors)) :
    Sound (r.run policy config (.add_vectors vectors)) where
  generations := h.generations
  ids_nodup := h.ids_nodup
  committed := by
    intro key
    refine (h.committed key).trans (if_congr ?_ rfl rfl)
    have hmarks : (r.run policy config (.add_vectors vectors)).index.marks =
        r.index.marks \ docs_of vectors := marks_unmark_deleted _ _
    have hcleared : (r.run policy config (.add_vectors vectors)).cleared =
        r.cleared ∪ (docs_of vectors ∩ r.index.marks) := rfl
    grind
  current := by
    intro key
    have hmarks : key.1 ∈ (r.run policy config (.add_vectors vectors)).index.marks ↔
        key.1 ∈ r.index.marks ∧ key.1 ∉ docs_of vectors :=
      (marks_unmark_deleted r.index (docs_of vectors) ▸ Finset.mem_sdiff :)
    have hcurrent : (r.run policy config (.add_vectors vectors)).history.current key =
        (last_vector vectors key).or (r.history.current key) := foldl_update _ _ _
    have hbuffered : last_vector (r.run policy config (.add_vectors vectors)).index.buffered key =
        (last_vector vectors key).or (last_vector r.index.buffered key) := last_vector_append _ _ _
    have hcommitted : (r.run policy config (.add_vectors vectors)).history.committed =
        r.history.committed := rfl
    rw [hcurrent, hbuffered, hcommitted, h.current key]
    by_cases hmarked : key.1 ∈ r.index.marks
    · rw [if_pos hmarked, Option.or_none]
      by_cases hset : key.1 ∈ docs_of vectors
      · -- the document is set again: no vector it had is left but those it is given
        have hnone : r.history.committed key = none := by
          rw [h.committed key, if_pos (Or.inl hmarked)]
        rw [if_neg fun hboth => (hmarks.1 hboth).2 hset, hnone, Option.or_none]
        by_cases hold : key ∈ r.index.buffered.map Prod.fst
        · obtain ⟨e, he, rfl⟩ := List.mem_map.1 hold
          obtain ⟨v, hv⟩ := Option.isSome_iff_exists.1
            (last_vector_isSome.2 (hclean e he hset hmarked))
          rw [hv, Option.some_or]
        · rw [last_vector_eq_none hold, Option.or_none]
      · rw [if_pos (hmarks.2 ⟨hmarked, hset⟩)]
        grind [last_vector_eq_none, mem_docs_of]
    grind
  cleared_unmarked := by
    intro doc hdoc hmarked
    have hmarks : doc ∈ r.index.marks \ docs_of vectors := marks_unmark_deleted _ _ ▸ hmarked
    obtain ⟨hbefore, hset⟩ := Finset.mem_sdiff.1 hmarks
    rcases Finset.mem_union.1 hdoc with hold | hnew
    · exact h.cleared_unmarked doc hold hbefore
    grind
  cleared_buffered := by
    intro doc hdoc
    have hin : doc ∈ docs_of r.index.buffered ∨ doc ∈ docs_of vectors := by
      rcases Finset.mem_union.1 hdoc with hold | hnew
      · exact Or.inl (h.cleared_buffered doc hold)
      grind
    rcases hin with hold | hnew
    · obtain ⟨e, he, rfl⟩ := mem_docs_of.1 hold
      exact mem_docs_of.2 ⟨e, List.mem_append_left _ he, rfl⟩
    · obtain ⟨e, he, rfl⟩ := mem_docs_of.1 hnew
      exact mem_docs_of.2 ⟨e, List.mem_append_right _ he, rfl⟩
  merging := by
    intro m hm
    have hnone : (r.run policy config (.add_vectors vectors)).index.merging = none := hidle
    grind

/-! ## Commits and rollbacks -/

/-- What sealing the buffer leaves. -/
structure Sealed (index sealed : SegmentedIndex V) : Prop where
  generations : (sealed.segments.map SealedSegment.generation).Nodup
  ids_nodup : ∀ s ∈ sealed.segments, s.vector_ids.Nodup
  newest : ∀ key, newest_vector sealed.segments key =
    (last_vector index.buffered key).or (newest_vector index.segments key)
  buffered : sealed.buffered = []
  marks : sealed.marks = index.marks
  merging : sealed.merging = index.merging

theorem sealed_seal_buffered {index : SegmentedIndex V}
    (hgenerations : (index.segments.map SealedSegment.generation).Nodup)
    (hids : ∀ s ∈ index.segments, s.vector_ids.Nodup) : Sealed index index.seal_buffered := by
  unfold seal_buffered
  split
  · rename_i hempty
    have hnil : index.buffered = [] := List.isEmpty_iff.1 hempty
    refine ⟨hgenerations, hids, fun key => ?_, hnil, rfl, rfl⟩
    rw [hnil]
    rfl
  · have hnew : ∀ s ∈ index.segments, s.generation < newest_generation index.segments + 1 :=
      fun s hs => Nat.lt_succ_of_le (le_newest_generation hs)
    refine ⟨?_, fun s hs => ?_, fun key => ?_, rfl, rfl, rfl⟩
    · grind
    · rcases List.mem_append.1 hs with hold | hlast
      · exact hids s hold
      · rw [List.mem_singleton.1 hlast]
        exact nodup_deduplicate _
    · unfold newest_vector
      rw [newest_answer_append hgenerations hnew, get_vector_deduplicate]

theorem Sound.commit (h : Sound r) (hidle : r.index.merging = none) (hclean : r.Clean .commit) :
    Sound (r.run policy config .commit) := by
  have hsealed := sealed_seal_buffered h.generations h.ids_nodup
  have hmarks : (r.run policy config .commit).index.marks = r.index.marks := hsealed.marks
  have hmerging : (r.run policy config .commit).index.merging = none :=
    hsealed.merging.trans hidle
  have hcommitted : (r.run policy config .commit).history.committed = r.history.current := rfl
  have hbuffered : (r.run policy config .commit).index.buffered = [] := hsealed.buffered
  have hcleared : (r.run policy config .commit).cleared = ∅ := rfl
  have hcurrent : (r.run policy config .commit).history.current = r.history.current := rfl
  have hnewest : ∀ key, newest_vector (r.run policy config .commit).index.segments key =
      (last_vector r.index.buffered key).or (newest_vector r.index.segments key) := hsealed.newest
  refine ⟨hsealed.generations, hsealed.ids_nodup, fun key => ?_, fun key => ?_, fun doc hdoc => ?_,
    fun doc hdoc => ?_, fun m hm => ?_⟩
  · rw [hcommitted, hcleared, h.current key, hnewest]
    by_cases hmarked : key.1 ∈ r.index.marks
    · grind
    · rw [if_neg hmarked, if_neg fun hor => hor.elim (fun hin => hmarked (hmarks ▸ hin))
        (Finset.notMem_empty _), h.committed key]
      by_cases hclear : key.1 ∈ r.cleared
      · -- sealed copies of a cleared document are those the buffer replaces
        rw [if_pos (Or.inr hclear), Option.or_none]
        match hold : newest_vector r.index.segments key with
        | none => rw [Option.or_none]
        | some v =>
          obtain ⟨s, hs, hin⟩ := newest_vector_isSome.1 (by rw [hold]; rfl)
          obtain ⟨w, hw⟩ := Option.isSome_iff_exists.1
            (last_vector_isSome.2 (hclean s hs key hin hclear))
          rw [hw, Option.some_or]
      grind
  · rw [hcurrent, hcommitted, hbuffered]
    by_cases hmarked : key.1 ∈ r.index.marks
    · rw [if_pos (hmarks ▸ hmarked), h.current key, if_pos hmarked]
    · rw [if_neg (hmarks ▸ hmarked)]
      exact (Option.none_or).symm
  · exact absurd hdoc (Finset.notMem_empty _)
  · exact absurd hdoc (Finset.notMem_empty _)
  grind

theorem Sound.rollback (h : Sound r) (hidle : r.index.merging = none)
    (hclean : r.Clean .rollback) : Sound (r.run policy config .rollback) where
  generations := h.generations
  ids_nodup := h.ids_nodup
  committed := by
    intro key
    refine (h.committed key).trans ?_
    by_cases hmarked : key.1 ∈ r.index.marks
    · exact (if_pos (Or.inl hmarked)).trans (if_pos (Or.inl hmarked)).symm
    · refine Eq.trans ?_ (if_neg fun hor => hor.elim hmarked (Finset.notMem_empty _)).symm
      by_cases hclear : key.1 ∈ r.cleared
      · rw [if_pos (Or.inr hclear)]
        refine (Option.not_isSome_iff_eq_none.1 fun hsome => ?_).symm
        obtain ⟨s, hs, hin⟩ := newest_vector_isSome.1 hsome
        exact hclean s hs key hin hclear
      · exact if_neg fun hor => hor.elim hmarked hclear
  current := by
    intro key
    by_cases hmarked : key.1 ∈ r.index.marks
    · exact ((h.committed key).trans (if_pos (Or.inl hmarked))).trans (if_pos hmarked).symm
    · exact ((if_neg hmarked).trans Option.none_or).symm
  cleared_unmarked := fun doc hdoc => absurd hdoc (Finset.notMem_empty _)
  cleared_buffered := fun doc hdoc => absurd hdoc (Finset.notMem_empty _)
  merging := by
    intro m hm
    have hnone : (r.run policy config .rollback).index.merging = none := hidle
    grind

/-! ## Merges -/

theorem Sound.begin_merge {full : Bool} {sources : List (SealedSegment V)} (h : Sound r)
    (hwindow : Window r.index.segments sources)
    (hfull : full = true → sources = r.index.segments ∧
      ∀ e ∈ r.index.buffered, e.1.1 ∉ r.index.marks) :
    Sound { r with index := r.index.begin_merge full sources } where
  generations := h.generations
  ids_nodup := h.ids_nodup
  committed := h.committed
  current := h.current
  cleared_unmarked := h.cleared_unmarked
  cleared_buffered := h.cleared_buffered
  merging := by
    intro m hm
    obtain rfl := Option.some.inj hm
    exact ⟨Finset.Subset.refl _, fun _ => hwindow, fun hf _ => (hfull hf).1,
      fun hf => (hfull hf).2, fun hp => absurd hp (by simp), fun hp => absurd hp (by simp)⟩

theorem Sound.merge_once (h : Sound r) : Sound (r.run policy config .merge_once) := by
  unfold IndexRun.run SegmentedIndex.run
  dsimp only
  split
  · rename_i sources hsources
    exact h.begin_merge (window_of_candidates hsources) fun hf => absurd hf (by decide)
  · exact h

theorem Sound.optimize (h : Sound r) (hclean : r.Clean .optimize) :
    Sound (r.run policy config .optimize) := by
  unfold IndexRun.run SegmentedIndex.run
  dsimp only
  split
  · exact h
  · rename_i hne
    exact h.begin_merge (Window.all fun hnil => hne (List.isEmpty_iff.2 hnil))
      fun _ => ⟨rfl, hclean⟩

/-- The segments that a merge leaves as they are. -/
def untouched (segments sources : List (SealedSegment V)) : List (SealedSegment V) :=
  segments.filter fun s => s.generation ∉ sources.map SealedSegment.generation

/-- **A merged segment replaces its window.** -/
theorem Window.replaces {segments sources : List (SealedSegment V)} (h : Window segments sources)
    (hages : (segments.map SealedSegment.generation).Nodup) (deletions : Finset ℕ) :
    Replaces SealedSegment.generation segments sources (untouched segments sources)
      (merge_segments sources deletions) where
  mem := by
    intro s
    unfold untouched
    rw [List.mem_filter, decide_eq_true_eq]
    constructor
    · intro hs
      by_cases hin : s.generation ∈ sources.map SealedSegment.generation
      · obtain ⟨t, ht, hsame⟩ := List.mem_map.1 hin
        have heq : t = s := List.inj_on_of_nodup_map hages (h.mem t ht) hs hsame
        exact Or.inl (heq ▸ ht)
      · exact Or.inr ⟨hs, hin⟩
    grind [mem]
  apart := by
    intro t ht
    obtain ⟨hin, hout⟩ := List.mem_filter.1 ht
    exact h.apart t hin (of_decide_eq_true hout)
  age_mem := newest_generation_mem h.ne_nil
  age_max := fun s hs => le_newest_generation hs
  ages := hages.sublist (List.filter_sublist.map _)

theorem Sound.apply_merge (h : Sound r) {m : MergeInFlight V} (hm : r.index.merging = some m)
    (hunpublished : m.published = false) : Sound (r.run policy config .apply_merge) := by
  have hgoing := h.merging m hm
  have hwindow := hgoing.window hunpublished
  set index := r.index.apply_merge m with hindex
  have hrun : r.run policy config .apply_merge = { r with index } := by
    unfold IndexRun.run SegmentedIndex.run
    dsimp only
    rw [hm]
    rfl
  have hmarks : index.marks = r.index.marks := rfl
  rw [hrun]
  have hreplaces := hwindow.replaces h.generations (m.deletions.getD ∅)
  refine ⟨hreplaces.ages_append, fun s hs => ?_, fun key => ?_, h.current, h.cleared_unmarked,
    h.cleared_buffered, fun m' hm' => ?_⟩
  · rcases List.mem_append.1 hs with hold | hlast
    · exact h.ids_nodup s (List.mem_filter.1 hold).1
    · rw [List.mem_singleton.1 hlast]
      exact nodup_merge _ _
  · refine (h.committed key).trans ?_
    by_cases hmarked : key.1 ∈ r.index.marks
    · grind
    · have hkey : key.1 ∉ m.deletions.getD ∅ := fun hin =>
        hmarked (hgoing.reclaimed_marked hin)
      have hanswer : (merge_segments m.sources (m.deletions.getD ∅)).get_vector key =
          newest_vector m.sources key := by rw [get_vector_merge, if_neg hkey]
      have hnewest : newest_vector index.segments key = newest_vector r.index.segments key :=
        hreplaces.newest_eq h.generations hanswer
      rw [hnewest]
      rfl
  · have hfull : m.full = true ∧ m' = { m with published := true } := by
      have hmerging : index.merging = if m.full then some { m with published := true } else none :=
        rfl
      grind
    obtain ⟨hf, rfl⟩ := hfull
    refine ⟨hgoing.reclaimed_marked, fun hp => absurd hp (by simp), fun _ hp => absurd hp (by simp),
      fun _ => hgoing.unbuffered hf, fun _ s hs key hin => ?_, fun _ => hf⟩
    -- a full merge leaves one segment, without the documents dropped
    rcases List.mem_append.1 hs with hold | hlast
    · grind [Going.all]
    · rw [List.mem_singleton.1 hlast, ← get_vector_isSome, get_vector_merge] at hin
      grind

theorem forget_deletions_spec (index : SegmentedIndex V) (reclaimed : Option (Finset ℕ)) :
    (index.forget_deletions reclaimed).segments = index.segments ∧
      (index.forget_deletions reclaimed).buffered = index.buffered ∧
      (index.forget_deletions reclaimed).merging = none ∧
      (index.forget_deletions reclaimed).marks = index.marks \ reclaimed.getD ∅ := by
  unfold SegmentedIndex.forget_deletions marks
  match reclaimed, index.deletion with
  | none, _ => exact ⟨rfl, rfl, rfl, by simp⟩
  | some _, none => exact ⟨rfl, rfl, rfl, by simp⟩
  | some reclaimed, some bitmap =>
    grind

theorem Sound.forget_deletions (h : Sound r) {m : MergeInFlight V}
    (hm : r.index.merging = some m) (hpublished : m.published = true) :
    Sound (r.run policy config .forget_deletions) := by
  have hgoing := h.merging m hm
  have hrun : r.run policy config .forget_deletions =
      { r with index := r.index.forget_deletions m.deletions } := by
    unfold IndexRun.run SegmentedIndex.run
    dsimp only
    rw [hm]
    rfl
  obtain ⟨hsegments, hbuffered, hidle, hmarks⟩ := forget_deletions_spec r.index m.deletions
  rw [hrun]
  have hfull := hgoing.published_full hpublished
  refine ⟨hsegments ▸ h.generations, hsegments ▸ h.ids_nodup, fun key => ?_, fun key => ?_,
    fun doc hdoc hmarked => ?_, fun doc hdoc => ?_, fun m' hm' => ?_⟩
  · have hmem : key.1 ∈ (r.index.forget_deletions m.deletions).marks ↔
        key.1 ∈ r.index.marks ∧ key.1 ∉ m.deletions.getD ∅ := by rw [hmarks, Finset.mem_sdiff]
    dsimp only
    rw [hsegments, h.committed key]
    by_cases hdropped : key.1 ∈ m.deletions.getD ∅
    · -- no segment has the document any more
      grind [Option.not_isSome_iff_eq_none, newest_vector_isSome, Going.dropped]
    grind
  · have hmem : key.1 ∈ (r.index.forget_deletions m.deletions).marks ↔
        key.1 ∈ r.index.marks ∧ key.1 ∉ m.deletions.getD ∅ := by rw [hmarks, Finset.mem_sdiff]
    dsimp only
    rw [hbuffered, h.current key]
    by_cases hdropped : key.1 ∈ m.deletions.getD ∅
    · have hmarked := hgoing.reclaimed_marked hdropped
      have hlast : last_vector r.index.buffered key = none := by
        refine last_vector_eq_none fun hin => ?_
        obtain ⟨e, he, rfl⟩ := List.mem_map.1 hin
        exact hgoing.unbuffered hfull e he hdropped
      rw [if_pos hmarked, if_neg fun hin => (hmem.1 hin).2 hdropped, hlast, Option.none_or,
        h.committed key, if_pos (Or.inl hmarked)]
    grind
  · grind [cleared_unmarked]
  · exact hbuffered ▸ h.cleared_buffered doc hdoc
  grind

/-! ## Reopening -/

theorem Sound.reopen (h : Sound r) (hbuffered : r.index.buffered = [])
    (hdelmap : r.index.delmap = r.index.marks) : Sound (r.run policy config .reopen) := by
  have hmarks : (r.run policy config .reopen).index.marks = r.index.marks := by
    grind [IndexRun.run, run, SegmentedIndex.reopen, marks]
  have hcleared : r.cleared = ∅ := by
    refine Finset.eq_empty_of_forall_notMem fun doc hdoc => ?_
    have hin := h.cleared_buffered doc hdoc
    rw [hbuffered] at hin
    exact absurd hin (Finset.notMem_empty doc)
  refine ⟨h.generations, h.ids_nodup, fun key => ?_, fun key => ?_, fun doc hdoc => ?_,
    fun doc hdoc => ?_, fun m hm => absurd hm (by simp [IndexRun.run, SegmentedIndex.run,
      SegmentedIndex.reopen])⟩
  · refine (h.committed key).trans (if_congr ?_ rfl rfl)
    rw [hmarks]
    rfl
  · refine (h.current key).trans (if_congr (by rw [hmarks]) rfl ?_)
    rw [hbuffered]
    rfl
  · exact hmarks ▸ h.cleared_unmarked doc hdoc
  · have hin : doc ∈ r.cleared := hdoc
    grind

/-! ## Runs -/

theorem sound_start : Sound (IndexRun.start : IndexRun V) where
  generations := List.nodup_nil
  ids_nodup := fun s hs => absurd hs List.not_mem_nil
  committed := fun _ => (ite_self _).symm
  current := fun _ => rfl
  cleared_unmarked := fun doc hdoc => absurd hdoc (Finset.notMem_empty doc)
  cleared_buffered := fun doc hdoc => absurd hdoc (Finset.notMem_empty doc)
  merging := fun m hm => absurd hm (by simp [IndexRun.start, SegmentedIndex.empty])

/-- **A clean step keeps the index sound.** -/
theorem Sound.run {call : IndexCall V} (h : Sound r) (hallowed : r.index.Allowed call)
    (hclean : r.Clean call) : Sound (r.run policy config call) := by
  match call with
  | .delete_document doc => exact h.delete_document doc
  | .add_vectors vectors => exact h.add_vectors hallowed hclean
  | .commit => exact h.commit hallowed hclean
  | .rollback => exact h.rollback hallowed hclean
  | .soft_delete_document doc => exact h.soft_delete_document doc
  | .merge_once => exact h.merge_once
  | .optimize => exact h.optimize hclean
  | .apply_merge =>
    obtain ⟨m, hm, hunpublished⟩ := hallowed
    exact h.apply_merge hm hunpublished
  | .forget_deletions =>
    obtain ⟨m, hm, hpublished⟩ := hallowed
    exact h.forget_deletions hm hpublished
  | .reopen => exact h.reopen hallowed.1 hallowed.2

/-- **With nothing buffered, what is shown is what was committed.** -/
theorem Sound.shows (h : Sound r) (hidle : r.index.buffered = []) :
    r.index.Shows r.history.committed := by
  have hcleared : ∀ doc, doc ∉ r.cleared := by
    intro doc hdoc
    have hin := h.cleared_buffered doc hdoc
    rw [hidle] at hin
    exact absurd hin (Finset.notMem_empty doc)
  have hget : ∀ key, r.index.reader.get_vector key = r.history.committed key := by
    intro key
    rw [h.committed key]
    refine (SegmentedReaderFacade.get_vector_new key).trans (if_congr ?_ rfl rfl)
    exact (or_iff_left (hcleared key.1)).symm
  have hids : ∀ key, key ∈ r.index.reader.vector_ids ↔ (r.history.committed key).isSome := by
    intro key
    rw [← hget key]
    exact SegmentedReaderFacade.mem_vector_ids key
  have hnodup : r.index.reader.vector_ids.Nodup := SegmentedReaderFacade.nodup_vector_ids
  refine ⟨hget, hnodup, hids, fun field_name => ?_⟩
  refine SegmentFanoutSearcher.count_from_eq
    (fun s hs => h.ids_nodup s (mem_newest_first.1 hs)) (hnodup.filter _) fun key => ?_
  rw [List.mem_filter, hids, h.committed key]
  by_cases hmarked : key.1 ∈ r.index.marks
  · grind
  · rw [if_neg fun hor => hor.elim hmarked (hcleared key.1), newest_vector_isSome]
    simp only [mem_newest_first, hmarked, not_false_eq_true, List.not_mem_nil, false_implies,
      implies_true, and_true]
    exact and_comm

/-- A document set twice in its two fields, its segments merged, then all
merged while another document is softly deleted, and a reopen. -/
def set_again : List (IndexCall ℕ) :=
  [.add_vectors [((1, "a"), 10), ((1, "b"), 20), ((2, "a"), 40)], .commit, .delete_document 1,
    .add_vectors [((1, "a"), 30), ((1, "b"), 50)], .commit, .merge_once, .apply_merge,
    .optimize, .soft_delete_document 2, .apply_merge, .forget_deletions, .reopen]

/-- Sizes within a ratio of eight, and windows of two. -/
def pairs_within_eight : TieredMergePolicy × SegmentManagerConfig :=
  (⟨fun largest smallest => largest ≤ 8 * smallest⟩, ⟨100, 2, 1000000⟩)

/-- A document deleted and set again in one of its two fields. -/
def set_in_part : List (IndexCall ℕ) :=
  [.add_vectors [((1, "a"), 10), ((1, "b"), 20)], .commit, .delete_document 1,
    .add_vectors [((1, "a"), 30)], .commit]

end Laurus
