import Laurus.Vector.Model.SegmentedIndex
import Mathlib.Data.Prod.Lex

/-!
# A segmented index: what segments, merges and readers answer

A sealed segment answers with the vector buffered last under a key, a merged
one as its sources do, and a reader as the newest segment does.
-/

namespace Laurus

variable {V β : Type*} {key : VectorKey} {deleted : Finset ℕ}

/-! ## The vector set last -/

/-- The last vector under a key. -/
def last_vector : List (VectorKey × V) → VectorKey → Option V
  | [], _ => none
  | e :: rest, key => (last_vector rest key).or (if e.1 = key then some e.2 else none)

theorem last_vector_cons (e : VectorKey × V) (rest : List (VectorKey × V)) (key : VectorKey) :
    last_vector (e :: rest) key =
      (last_vector rest key).or (if e.1 = key then some e.2 else none) := rfl

theorem last_vector_append (xs ys : List (VectorKey × V)) (key : VectorKey) :
    last_vector (xs ++ ys) key = (last_vector ys key).or (last_vector xs key) := by
  induction xs with
  | nil => exact (Option.or_none).symm
  | cons e xs ih =>
    rw [List.cons_append, last_vector_cons, last_vector_cons, ih, Option.or_assoc]

variable {vectors : List (VectorKey × V)} {a b : VectorKey} {segments : List (SealedSegment V)}

theorem last_vector_isSome :
    (last_vector vectors key).isSome ↔ key ∈ vectors.map Prod.fst := by
  induction vectors with
  | nil => simp [last_vector]
  | cons e rest ih =>
    rw [last_vector_cons, Option.isSome_or, Bool.or_eq_true, ih, List.map_cons, List.mem_cons]
    grind

theorem last_vector_eq_none
    (h : key ∉ vectors.map Prod.fst) : last_vector vectors key = none := by
  rw [← Option.not_isSome_iff_eq_none, last_vector_isSome]
  exact h

theorem foldl_update (vectors : List (VectorKey × V)) (content : VectorKey → Option V)
    (key : VectorKey) :
    vectors.foldl (fun (c : VectorKey → Option V) e => Function.update c e.1 (some e.2)) content
      key = (last_vector vectors key).or (content key) := by
  induction vectors generalizing content with
  | nil => rfl
  | cons e rest ih =>
    rw [List.foldl_cons, ih, last_vector_cons, Option.or_assoc]
    grind

/-! ## Sealing -/

theorem key_le_iff : key_le a b ↔ toLex a ≤ toLex b :=
  Prod.Lex.toLex_le_toLex.symm

theorem key_le_antisymm (h : key_le a b) (h' : key_le b a) : a = b :=
  toLex_inj.1 (le_antisymm (key_le_iff.1 h) (key_le_iff.1 h'))

theorem not_key_le (h : ¬ key_le a b) : a ≠ b := by
  rintro rfl
  exact h (Or.inr ⟨rfl, le_refl _⟩)

theorem last_vector_orderedInsert (e : VectorKey × V) (vectors : List (VectorKey × V))
    (key : VectorKey) :
    last_vector (vectors.orderedInsert (fun a b => key_le a.1 b.1) e) key =
      last_vector (e :: vectors) key := by
  induction vectors with
  | nil => rfl
  | cons b rest ih =>
    rw [List.orderedInsert_cons]
    split
    · rfl
    · rename_i hnot
      have hne : e.1 ≠ b.1 := not_key_le hnot
      rw [last_vector_cons, ih, last_vector_cons, last_vector_cons, last_vector_cons]
      -- at most one of the two has the key
      grind

theorem last_vector_insertionSort (vectors : List (VectorKey × V)) (key : VectorKey) :
    last_vector (vectors.insertionSort fun a b => key_le a.1 b.1) key =
      last_vector vectors key := by
  induction vectors with
  | nil => rfl
  | cons e rest ih =>
    rw [List.insertionSort_cons, last_vector_orderedInsert, last_vector_cons, last_vector_cons, ih]

theorem insertionSort_sorted (vectors : List (VectorKey × V)) :
    (vectors.insertionSort fun a b => key_le a.1 b.1).Pairwise fun a b => key_le a.1 b.1 := by
  have : Std.Total fun a b : VectorKey × V => key_le a.1 b.1 :=
    ⟨fun a b => (le_total (toLex a.1) (toLex b.1)).imp key_le_iff.2 key_le_iff.2⟩
  have : IsTrans (VectorKey × V) fun a b => key_le a.1 b.1 :=
    ⟨fun a b c hab hbc => key_le_iff.2 ((key_le_iff.1 hab).trans (key_le_iff.1 hbc))⟩
  exact List.pairwise_insertionSort _ _

theorem keep_last_subset (vectors : List (VectorKey × V)) : keep_last vectors ⊆ vectors := by
  induction vectors using keep_last.induct with
  | case1 => exact List.Subset.refl _
  | case2 e => exact List.Subset.refl _
  | case3 e e' rest hsame ih =>
    unfold keep_last
    grind
  | case4 e e' rest hne ih =>
    unfold keep_last
    grind

theorem ne_of_sorted {e e' : VectorKey × V} {rest : List (VectorKey × V)}
    (hsorted : (e :: e' :: rest).Pairwise fun a b => key_le a.1 b.1) (hne : e.1 ≠ e'.1) :
    ∀ x ∈ e' :: rest, x.1 ≠ e.1 := by
  grind [List.pairwise_cons, key_le_antisymm]

theorem find_keep_last
    (hsorted : vectors.Pairwise fun a b => key_le a.1 b.1) (key : VectorKey) :
    ((keep_last vectors).find? fun e => e.1 = key).map Prod.snd = last_vector vectors key := by
  induction vectors using keep_last.induct with
  | case1 => rfl
  | case2 e =>
    unfold keep_last
    rw [last_vector_cons]
    by_cases he : e.1 = key
    · rw [if_pos he, List.find?_cons_of_pos (by simpa using he)]
      rfl
    · rw [if_neg he, List.find?_cons_of_neg (by simpa using he)]
      rfl
  | case3 e e' rest hsame ih =>
    unfold keep_last
    rw [if_pos hsame, ih (List.pairwise_cons.1 hsorted).2, last_vector_cons e]
    by_cases he : e.1 = key
    · have hin : key ∈ (e' :: rest).map Prod.fst := List.mem_map.2 ⟨e', List.mem_cons_self,
        hsame ▸ he⟩
      obtain ⟨v, hv⟩ := Option.isSome_iff_exists.1 (last_vector_isSome.2 hin)
      rw [hv, Option.some_or]
    · rw [if_neg he, Option.or_none]
  | case4 e e' rest hne ih =>
    unfold keep_last
    rw [if_neg hne, last_vector_cons e]
    by_cases he : e.1 = key
    · have hout : key ∉ (e' :: rest).map Prod.fst := by
        intro hin
        obtain ⟨x, hx, hkey⟩ := List.mem_map.1 hin
        exact ne_of_sorted hsorted hne x hx (hkey.trans he.symm)
      rw [List.find?_cons_of_pos (by simpa using he), if_pos he, last_vector_eq_none hout]
      rfl
    grind

theorem nodup_keep_last
    (hsorted : vectors.Pairwise fun a b => key_le a.1 b.1) :
    ((keep_last vectors).map Prod.fst).Nodup := by
  induction vectors using keep_last.induct with
  | case1 => exact List.nodup_nil
  | case2 e => exact List.nodup_singleton _
  | case3 e e' rest hsame ih =>
    unfold keep_last
    grind
  | case4 e e' rest hne ih =>
    unfold keep_last
    rw [if_neg hne, List.map_cons, List.nodup_cons]
    refine ⟨fun hin => ?_, ih (List.pairwise_cons.1 hsorted).2⟩
    obtain ⟨x, hx, hkey⟩ := List.mem_map.1 hin
    exact ne_of_sorted hsorted hne x (keep_last_subset _ hx) hkey

/-- **A sealed segment has the last vector of each key.** -/
theorem get_vector_deduplicate (generation : ℕ) (vectors : List (VectorKey × V))
    (key : VectorKey) :
    SealedSegment.get_vector ⟨generation, deduplicate_vectors vectors⟩ key =
      last_vector vectors key := by
  unfold SealedSegment.get_vector deduplicate_vectors
  rw [find_keep_last (insertionSort_sorted vectors), last_vector_insertionSort]

theorem nodup_deduplicate (vectors : List (VectorKey × V)) :
    ((deduplicate_vectors vectors).map Prod.fst).Nodup :=
  nodup_keep_last (insertionSort_sorted vectors)

/-! ## First occurrences -/

theorem first_seen_nodup {taken : List (VectorKey × β)} (h : (taken.map Prod.fst).Nodup)
    (e : VectorKey × β) : ((first_seen deleted taken e).map Prod.fst).Nodup := by
  unfold first_seen
  grind

theorem find_first_seen (taken : List (VectorKey × β)) (e : VectorKey × β) (key : VectorKey) :
    ((first_seen deleted taken e).find? fun t => t.1 = key) =
      (taken.find? fun t => t.1 = key).or
        (if e.1 = key ∧ key.1 ∉ deleted then some e else none) := by
  unfold first_seen
  by_cases hdeleted : e.1.1 ∈ deleted
  · grind
  · rw [if_neg hdeleted]
    by_cases hseen : (taken.any fun t => t.1 = e.1) = true
    · rw [if_pos hseen]
      by_cases hkey : e.1 = key
      · -- the key was taken before
        grind [List.find?_isSome, Option.isSome_iff_exists]
      grind
    grind

/-- **The entries taken are the first ones of the keys not deleted.** -/
theorem find_foldl_first_seen (entries taken : List (VectorKey × β)) (key : VectorKey) :
    ((entries.foldl (first_seen deleted) taken).find? fun t => t.1 = key) =
      (taken.find? fun t => t.1 = key).or
        (if key.1 ∈ deleted then none else entries.find? fun t => t.1 = key) := by
  induction entries generalizing taken with
  | nil => simp
  | cons e entries ih =>
    rw [List.foldl_cons, ih, find_first_seen, Option.or_assoc, List.find?_cons]
    grind

theorem nodup_foldl_first_seen (entries taken : List (VectorKey × β))
    (h : (taken.map Prod.fst).Nodup) :
    ((entries.foldl (first_seen deleted) taken).map Prod.fst).Nodup := by
  induction entries generalizing taken with
  | nil => exact h
  | cons e entries ih => exact ih _ (first_seen_nodup h e)

/-! ## Merging -/

/-- What the segments answer, the newest first. -/
def newest_vector (segments : List (SealedSegment V)) (key : VectorKey) : Option V :=
  newest_answer SealedSegment.generation (fun s => s.get_vector key) segments

theorem last_vector_nodup (h : (vectors.map Prod.fst).Nodup)
    (key : VectorKey) :
    last_vector vectors key = (vectors.find? fun e => e.1 = key).map Prod.snd := by
  induction vectors with
  | nil => rfl
  | cons e rest ih =>
    grind [last_vector_cons]

/-- **A merged segment answers as its sources do**, less the deleted. -/
theorem get_vector_merge (segments : List (SealedSegment V)) (deletions : Finset ℕ)
    (key : VectorKey) : (merge_segments segments deletions).get_vector key =
      if key.1 ∈ deletions then none else newest_vector segments key := by
  have hnodup : ((((newest_first SealedSegment.generation segments).flatMap
      SealedSegment.vectors).foldl (first_seen deletions) []).map Prod.fst).Nodup :=
    nodup_foldl_first_seen _ [] List.nodup_nil
  unfold merge_segments
  rw [get_vector_deduplicate, last_vector_nodup hnodup, find_foldl_first_seen, List.find?_nil,
    Option.none_or]
  split
  · rfl
  · rw [List.find?_flatMap]
    rw [List.map_findSome?]
    rfl

theorem nodup_merge (segments : List (SealedSegment V)) (deletions : Finset ℕ) :
    (merge_segments segments deletions).vector_ids.Nodup := nodup_deduplicate _

theorem le_newest_generation {s : SealedSegment V}
    (h : s ∈ segments) : s.generation ≤ newest_generation segments := by
  unfold newest_generation
  induction segments with
  | nil => exact absurd h List.not_mem_nil
  | cons t segments ih =>
    grind

theorem newest_generation_mem (h : segments ≠ []) :
    ∃ s ∈ segments, s.generation = newest_generation segments := by
  unfold newest_generation
  induction segments with
  | nil => exact absurd rfl h
  | cons t segments ih =>
    by_cases hle : segments.foldr (fun s m => max s.generation m) 0 ≤ t.generation
    · grind
    · have hne : segments ≠ [] := by grind
      grind

/-! ## Windows of segments -/

theorem mem_of_min_by_key {α : Type*} {key : α → ℕ} {items : List α} {x : α}
    (h : min_by_key key items = some x) : x ∈ items := by
  induction items with
  | nil => exact absurd h (by simp [min_by_key])
  | cons y items ih =>
    unfold min_by_key at h
    grind

theorem infix_of_mem_windows {α : Type*} {size : ℕ} {items window : List α}
    (h : window ∈ windows size items) : window <:+: items ∧ window.length = size := by
  obtain ⟨i, hi, rfl⟩ := List.mem_map.1 h
  grind [List.take_prefix, List.drop_suffix]

/-- No other segment stands between the sources. -/
structure Window (segments sources : List (SealedSegment V)) : Prop where
  ne_nil : sources ≠ []
  mem : ∀ s ∈ sources, s ∈ segments
  apart : ∀ t ∈ segments, t.generation ∉ sources.map SealedSegment.generation →
    (∀ s ∈ sources, t.generation < s.generation) ∨ ∀ s ∈ sources, s.generation < t.generation

theorem Window.all (h : segments ≠ []) :
    Window segments segments :=
  ⟨h, fun _ hs => hs, fun _ ht hout => absurd (List.mem_map_of_mem ht) hout⟩

/-- **The policy chooses windows.** -/
theorem window_of_candidates {policy : TieredMergePolicy} {config : SegmentManagerConfig}
    {sources : List (SealedSegment V)}
    (h : policy.candidates config segments = some sources) : Window segments sources := by
  set by_generation := segments.insertionSort fun a b => a.generation ≤ b.generation with hby
  have hwindow : sources ∈ windows (max config.merge_factor 2) by_generation := by
    unfold TieredMergePolicy.candidates at h
    dsimp only at h
    split at h
    · exact absurd h (by simp)
    · split at h
      · rename_i window hwindow
        rw [← Option.some.inj h]
        exact (List.mem_filter.1 (List.mem_filter.1 (mem_of_min_by_key hwindow)).1).1
      grind [mem_of_min_by_key]
  obtain ⟨⟨older, newer, hsplit⟩, hlength⟩ := infix_of_mem_windows hwindow
  have hmem : ∀ s, s ∈ older ++ sources ++ newer ↔ s ∈ segments := fun s => by
    rw [hsplit, hby, List.mem_insertionSort]
  have hsorted : (older ++ sources ++ newer).Pairwise fun a b => a.generation ≤ b.generation := by
    rw [hsplit, hby]
    exact List.pairwise_insertionSort _ _
  refine ⟨?_, fun s hs => (hmem s).1 ?_, fun t ht hout => ?_⟩
  · grind
  · grind
  grind

/-! ## Readers -/

theorem get_vector_isSome {s : SealedSegment V} : (s.get_vector key).isSome ↔
    key ∈ s.vector_ids := by
  unfold SealedSegment.get_vector SealedSegment.vector_ids
  simp

theorem find_map_pair (ids : List VectorKey) (start : ℕ) (key : VectorKey) :
    ((ids.map fun k => (k, start)).find? fun e => e.1 = key) =
      if key ∈ ids then some (key, start) else none := by
  induction ids with
  | nil => rfl
  | cons k ids ih =>
    grind

namespace SegmentedReaderFacade

theorem find_indexed_ids (start : ℕ) (readers : List (SealedSegment V)) (key : VectorKey) :
    (∀ e, ((indexed_ids start readers).find? fun e => e.1 = key) = some e →
      start ≤ e.2 ∧ (readers[e.2 - start]?.bind fun r => r.get_vector key) =
        (readers.findSome? fun r => r.get_vector key) ∧
      (readers.findSome? fun r => r.get_vector key).isSome) ∧
      (((indexed_ids start readers).find? fun e => e.1 = key) = none →
        (readers.findSome? fun r => r.get_vector key) = none) := by
  induction readers generalizing start with
  | nil => simp [indexed_ids]
  | cons reader readers ih =>
    unfold indexed_ids
    rw [List.find?_append, find_map_pair, List.findSome?_cons]
    by_cases hin : key ∈ reader.vector_ids
    · obtain ⟨v, hv⟩ := Option.isSome_iff_exists.1 (get_vector_isSome.2 hin)
      grind
    · have hget : reader.get_vector key = none := by
        rw [← Option.not_isSome_iff_eq_none, get_vector_isSome]
        exact hin
      grind

variable {readers : List (SealedSegment V)} {bitmap : Finset ℕ}

theorem find_entries (key : VectorKey) :
    ((new readers bitmap).entries.find? fun e => e.1 = key) =
      if key.1 ∈ bitmap then none else (indexed_ids 0 readers).find? fun e => e.1 = key := by
  unfold new
  dsimp only
  rw [find_foldl_first_seen, List.find?_nil, Option.none_or]

/-- **The facade answers as the first reader does**, for unmarked documents. -/
theorem get_vector_new (key : VectorKey) : (new readers bitmap).get_vector key =
    if key.1 ∈ bitmap then none else readers.findSome? fun r => r.get_vector key := by
  unfold get_vector owner_of
  rw [find_entries]
  by_cases hdeleted : key.1 ∈ bitmap
  · grind
  · rw [if_neg hdeleted, if_neg hdeleted]
    obtain ⟨hsome, hnone⟩ := find_indexed_ids 0 readers key
    match hfind : (indexed_ids 0 readers).find? fun e => e.1 = key with
    | none =>
      rw [hnone hfind, hfind]
      rfl
    | some e =>
      rw [hfind]
      exact (hsome e hfind).2.1

theorem nodup_vector_ids : (new readers bitmap).vector_ids.Nodup :=
  nodup_foldl_first_seen _ [] List.nodup_nil

theorem mem_vector_ids (key : VectorKey) : key ∈ (new readers bitmap).vector_ids ↔
    ((new readers bitmap).get_vector key).isSome := by
  have hfind : key ∈ (new readers bitmap).vector_ids ↔
      ((new readers bitmap).entries.find? fun e => e.1 = key).isSome := by
    unfold vector_ids
    simp
  rw [hfind, find_entries, get_vector_new]
  by_cases hdeleted : key.1 ∈ bitmap
  · grind
  · rw [if_neg hdeleted, if_neg hdeleted]
    obtain ⟨hsome, hnone⟩ := find_indexed_ids 0 readers key
    match hfind : (indexed_ids 0 readers).find? fun e => e.1 = key with
    | none => grind
    | some e => grind

end SegmentedReaderFacade

namespace SegmentFanoutSearcher

variable {bitmap : Finset ℕ} {field_name : Option String} {newer readers : List (SealedSegment V)}

theorem mem_counted {reader : SealedSegment V} :
    key ∈ counted bitmap field_name newer reader ↔
      (field_name.all fun field => key.2 = field) = true ∧ key ∈ reader.vector_ids ∧
        key.1 ∉ bitmap ∧ ∀ r ∈ newer, key ∉ r.vector_ids := by
  have hids : ∀ field, key ∈ (reader.doc_ids_for_field field).map (fun doc_id => (doc_id, field)) ↔
      key ∈ reader.vector_ids ∧ key.2 = field := by
    grind [SealedSegment.doc_ids_for_field]
  have hnewer : (! newer.any fun r => r.contains_vector key) = true ↔
      ∀ r ∈ newer, key ∉ r.vector_ids := by
    simp [SealedSegment.contains_vector]
  unfold counted
  dsimp only
  rw [List.mem_flatMap]
  simp only [List.mem_filter, decide_eq_true_eq, hids, hnewer]
  grind [SealedSegment.field_names, List.mem_dedup]

theorem nodup_counted {reader : SealedSegment V} (h : reader.vector_ids.Nodup) :
    (counted bitmap field_name newer reader).Nodup := by
  have hfields : ∀ fields : List String, fields.Nodup → (fields.flatMap fun field =>
      ((reader.doc_ids_for_field field).map fun doc_id => (doc_id, field)).filter fun key =>
        key.1 ∉ bitmap ∧ ! newer.any fun r => r.contains_vector key).Nodup := by
    intro fields hnodup
    rw [List.nodup_flatMap]
    refine ⟨fun field _ => ?_, hnodup.imp fun {a b} hab => ?_⟩
    · refine List.Nodup.filter _ (List.Nodup.map (fun x y hxy => (Prod.mk.inj hxy).1) ?_)
      refine List.Nodup.map_on ?_ (h.filter _)
      grind
    · -- the keys of two fields differ in their field
      intro k hka hkb
      grind
  unfold counted
  match field_name with
  | some field => grind
  | none => exact hfields _ (List.nodup_dedup _)

/-- **`count` counts the keys of unmarked documents**, each once. -/
theorem count_from_eq (hids : ∀ r ∈ readers, r.vector_ids.Nodup) {keys : List VectorKey}
    (hkeys : keys.Nodup) (hmem : ∀ key, key ∈ keys ↔
      (field_name.all fun field => key.2 = field) = true ∧ (∃ r ∈ readers, key ∈ r.vector_ids) ∧
        key.1 ∉ bitmap ∧ ∀ r ∈ newer, key ∉ r.vector_ids) :
    count_from bitmap field_name newer readers = keys.length := by
  induction readers generalizing newer keys with
  | nil =>
    have hnone : keys = [] := List.eq_nil_iff_forall_not_mem.2 fun key hkey => by grind
    rw [hnone]
    rfl
  | cons reader readers ih =>
    have hhere : (counted bitmap field_name newer reader).Perm
        (keys.filter fun key => key ∈ reader.vector_ids) := by
      rw [List.perm_ext_iff_of_nodup (nodup_counted (hids reader List.mem_cons_self))
        (hkeys.filter _)]
      intro key
      rw [mem_counted, List.mem_filter, hmem, decide_eq_true_eq]
      grind
    have hthere : count_from bitmap field_name (newer ++ [reader]) readers =
        (keys.filter fun key => ! decide (key ∈ reader.vector_ids)).length := by
      refine ih (fun r hr => hids r (List.mem_cons_of_mem reader hr)) (hkeys.filter _) ?_
      grind
    unfold count_from
    rw [hhere.length_eq, hthere, ← List.countP_eq_length_filter, ← List.countP_eq_length_filter]
    rw [List.length_eq_countP_add_countP (fun key => decide (key ∈ reader.vector_ids)) (l := keys)]
    simp

end SegmentFanoutSearcher

end Laurus
