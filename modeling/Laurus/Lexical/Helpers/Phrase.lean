import Laurus.Lexical.Model.Phrase

/-!
# What a phrase finds in a document

The positions of a slot are those of its terms in the document
(`occurrences`), so what a phrase finds in a document depends on them alone
(`mem_find_phrase_matches`).
-/

namespace Laurus

section Phrase

variable {reader : PostingsReader} {field : String} {slop doc n : ℕ}

/-! ## The next position -/

variable {position : ℕ} {terms : List String} {slots : Option (List (List ℕ))} {m : PhraseMatch}
  {positions : List (List String)}

/-- **The next position of a slot**: the first one in the window. -/
theorem next_in_window_eq_some {occurrences : List ℕ} (h : occurrences.Pairwise (· < ·))
    {previous : ℕ} :
    next_in_window occurrences previous slop = some position ↔
      position ∈ occurrences ∧ previous + 1 ≤ position ∧ position ≤ previous + 1 + slop ∧
        ∀ m ∈ occurrences, previous + 1 ≤ m → position ≤ m := by
  rw [next_in_window, Option.filter_eq_some_iff, getElem?_numbers_below h, decide_eq_true_eq]
  tauto

theorem next_in_window_zero {occurrences : List ℕ} (h : occurrences.Pairwise (· < ·))
    {previous : ℕ} :
    next_in_window occurrences previous 0 = some position ↔
      position = previous + 1 ∧ position ∈ occurrences := by
  rw [next_in_window_eq_some h]
  grind

/-- Where the slots after the first lead from a position. -/
def in_windows (slop : ℕ) : List (List ℕ) → ℕ → Option ℕ
  | [], previous => some previous
  | positions :: rest, previous => (next_in_window positions previous slop).bind (in_windows slop rest)

theorem is_valid_eq_follow (rest : List (List ℕ)) (start_pos : ℕ) :
    PhraseMatcher.is_valid_phrase_at_position slop rest start_pos =
      (in_windows slop rest start_pos).isSome := by
  induction rest generalizing start_pos with
  | nil => rfl
  | cons positions rest ih =>
      grind [PhraseMatcher.is_valid_phrase_at_position, in_windows, next_in_window]

theorem in_windows_concat (rest : List (List ℕ)) (positions : List ℕ) (start_pos : ℕ) :
    in_windows slop (rest ++ [positions]) start_pos =
      (in_windows slop rest start_pos).bind fun previous =>
        next_in_window positions previous slop := by
  induction rest generalizing start_pos with
  | nil =>
      simp [in_windows]
  | cons first rest ih =>
      rw [List.cons_append, in_windows, in_windows, Option.bind_assoc]
      exact congrArg _ (funext ih)

theorem mem_find_phrase_positions {first : List ℕ} {rest : List (List ℕ)} {anchor : ℕ} :
    anchor ∈ PhraseMatcher.find_phrase_positions (first :: rest) slop ↔
      anchor ∈ first ∧ ∃ position, in_windows slop rest anchor = some position := by
  rw [PhraseMatcher.find_phrase_positions, List.mem_filter, is_valid_eq_follow,
    Option.isSome_iff_exists]

theorem in_windows_eq_none {rest : List (List ℕ)} (h : [] ∈ rest) (previous : ℕ) :
    in_windows slop rest previous = none := by
  induction rest generalizing previous with
  | nil => exact absurd h List.not_mem_nil
  | cons positions rest ih =>
      grind [in_windows, next_in_window]

/-! ## The slots of a candidate -/

/-- The positions of any of some terms in a document. -/
def occurrences (reader : PostingsReader) (field : String) (doc : ℕ) (terms : List String) :
    List ℕ :=
  sort_dedup (terms.flatMap fun term =>
    ((read_postings reader field term).filter fun p => p.doc_id = doc).flatMap fun p => p.positions)

theorem pairwise_occurrences (terms : List String) :
    (occurrences reader field doc terms).Pairwise (· < ·) := pairwise_sort_dedup _

theorem mem_occurrences :
    position ∈ occurrences reader field doc terms ↔
      ∃ term ∈ terms, ∃ p ∈ read_postings reader field term, p.doc_id = doc ∧
        position ∈ p.positions := by
  simp only [occurrences, mem_sort_dedup, List.mem_flatMap, List.mem_filter, decide_eq_true_eq,
    and_assoc]

theorem length_extend_slot (h : ∀ s ∈ slots, s.length = n)
    (found : ℕ × List ℕ) : (extend_slot n slots found).length = n := by
  rw [extend_slot, List.length_modify]
  rcases slots with _ | s
  · exact List.length_replicate
  · exact h s rfl

theorem mem_extend_slot (h : ∀ s ∈ slots, s.length = n)
    (found : ℕ × List ℕ) {i : ℕ} (hi : i < n) :
    position ∈ (extend_slot n slots found).getD i [] ↔
      (∃ s ∈ slots, position ∈ s.getD i []) ∨ (found.1 = i ∧ position ∈ found.2) := by
  have hbase : position ∈ (slots.getD (List.replicate n [])).getD i [] ↔
      ∃ s ∈ slots, position ∈ s.getD i [] := by
    rcases slots with _ | s
    · simp [hi]
    · simp
  have hlen : i < (slots.getD (List.replicate n [])).length := by
    rcases slots with _ | s
    · simpa using hi
    grind
  grind [extend_slot]

theorem gather_extend_slot (values : List (ℕ × List ℕ))
    (h : ∀ s ∈ slots, s.length = n) {found : List (List ℕ)}
    (hfound : gather_values (extend_slot n) slots values = some found) :
    found.length = n ∧ ∀ i < n, ∀ position, position ∈ found.getD i [] ↔
      (∃ s ∈ slots, position ∈ s.getD i []) ∨ ∃ v ∈ values, v.1 = i ∧ position ∈ v.2 := by
  induction values generalizing slots with
  | nil =>
      have hslots : slots = some found := hfound
      grind
  | cons v values ih =>
      have hstep : ∀ s ∈ some (extend_slot n slots v), s.length = n := by
        grind [length_extend_slot]
      obtain ⟨hlen, hmem⟩ := ih hstep hfound
      refine ⟨hlen, fun i hi position => ?_⟩
      rw [hmem i hi position]
      simp only [Option.mem_some_iff, exists_eq_left', mem_extend_slot h v hi, List.exists_mem_cons_iff,
        or_assoc]

theorem mem_slot_pairs {slots : List (List String)} {i : ℕ} {positions : List ℕ} :
    (doc, (i, positions)) ∈ slots.zipIdx.flatMap (slot_postings reader field) ↔
      ∃ terms, slots[i]? = some terms ∧ ∃ term ∈ terms, ∃ p ∈ read_postings reader field term,
        p.doc_id = doc ∧ p.positions = positions := by
  simp [slot_postings, List.mem_zipIdx_iff_getElem?]

/-- **A candidate's slots are the positions of their terms.** -/
theorem lookup_doc_candidates {slots : List (List String)} {found : List (List ℕ)}
    (h : (doc_candidates reader field slots).lookup doc = some found) :
    found.map sort_dedup = slots.map (occurrences reader field doc) := by
  rw [doc_candidates, gather_into_flatMap, lookup_gather_into, AList.lookup_empty] at h
  obtain ⟨hlen, hmem⟩ := gather_extend_slot _ (fun s hs => absurd hs (Option.not_mem_none s)) h
  refine List.ext_getElem (by simp [hlen]) fun i hi hi' => ?_
  rw [List.length_map] at hi hi'
  rw [List.getElem_map, List.getElem_map]
  refine sort_dedup_eq (pairwise_occurrences _) fun position => ?_
  have hposition := hmem i hi' position
  rw [List.getD_eq_getElem?_getD, List.getElem?_eq_getElem hi, Option.getD_some] at hposition
  rw [hposition, mem_occurrences]
  simp only [Option.not_mem_none, false_and, exists_false, false_or]
  constructor
  · grind [mem_slot_pairs, mem_values_of]
  · rintro ⟨term, hterm, p, hp, hdoc, hin⟩
    exact ⟨(i, p.positions), mem_values_of.2 (mem_slot_pairs.2
      ⟨_, List.getElem?_eq_getElem hi', term, hterm, p, hp, hdoc, rfl⟩), rfl, hin⟩

theorem lookup_doc_candidates_isSome {slots : List (List String)}
    (hterms : terms ∈ slots) (hne : occurrences reader field doc terms ≠ []) :
    ∃ found, (doc_candidates reader field slots).lookup doc = some found := by
  obtain ⟨position, hposition⟩ := List.exists_mem_of_ne_nil _ hne
  obtain ⟨term, hterm, p, hp, hdoc, -⟩ := mem_occurrences.1 hposition
  obtain ⟨i, hi⟩ := List.mem_iff_getElem?.1 hterms
  rw [doc_candidates, gather_into_flatMap, lookup_gather_into, AList.lookup_empty]
  have hv : (i, p.positions) ∈ values_of (slots.zipIdx.flatMap (slot_postings reader field)) doc :=
    mem_values_of.2 (mem_slot_pairs.2 ⟨terms, hi, term, hterm, p, hp, hdoc, rfl⟩)
  exact exists_gather_values (List.ne_nil_of_mem hv) none

/-! ## The matches -/

theorem mem_sort_matches {found : List PhraseMatch} :
    m ∈ sort_matches found ↔ m ∈ found := (List.perm_insertionSort _ _).mem_iff

theorem pairwise_sort_matches {docs : AList fun _ : ℕ => List (List ℕ)}
    {f : ℕ → List (List ℕ) → Option PhraseMatch} (hdoc : ∀ doc slots m, f doc slots = some m →
      m.doc_id = doc) :
    (sort_matches (docs.entries.filterMap fun candidate => f candidate.1 candidate.2)).Pairwise
      fun a b => a.doc_id < b.doc_id := by
  have hsorted := List.pairwise_insertionSort (fun a b : PhraseMatch => a.doc_id ≤ b.doc_id)
    (docs.entries.filterMap fun candidate => f candidate.1 candidate.2)
  have hnodup : ((docs.entries.filterMap fun candidate => f candidate.1 candidate.2).map
      PhraseMatch.doc_id).Nodup := by
    refine List.Nodup.sublist ?_ (docs.nodupKeys : (docs.entries.map Sigma.fst).Nodup)
    generalize docs.entries = entries
    induction entries with
    | nil => exact List.Sublist.refl _
    | cons candidate entries ih =>
        grind
  have hnodup' : ((sort_matches (docs.entries.filterMap fun candidate =>
      f candidate.1 candidate.2)).map PhraseMatch.doc_id).Nodup :=
    (((List.perm_insertionSort _ _).map _).nodup_iff).2 hnodup
  exact (hsorted.and (List.pairwise_map.1 hnodup')).imp fun h => lt_of_le_of_ne h.1 h.2

/-- The anchors of a phrase in a document. -/
def phrase_anchors (reader : PostingsReader) (field : String) (positions : List (List String))
    (slop doc : ℕ) : List ℕ :=
  PhraseMatcher.find_phrase_positions (positions.map (occurrences reader field doc)) slop

theorem phrase_anchors_eq_nil
    (hterms : terms ∈ positions) (hnil : occurrences reader field doc terms = []) :
    phrase_anchors reader field positions slop doc = [] := by
  rcases positions with _ | ⟨first, rest⟩
  · exact absurd hterms List.not_mem_nil
  rw [phrase_anchors, List.map_cons, List.eq_nil_iff_forall_not_mem]
  grind [mem_find_phrase_positions, in_windows_eq_none]

/-- A phrase that is not one term alone. -/
def Places (positions : List (List String)) : Prop :=
  positions ≠ [] ∧ ∀ term, positions ≠ [[term]]

theorem find_phrase_matches_eq (h : Places positions) :
    PhraseMatcher.find_phrase_matches reader field positions slop =
      if positions.any fun alternatives => alternatives.all fun term => (reader field term).isNone
      then []
      else sort_matches ((doc_candidates reader field positions).entries.filterMap fun candidate =>
        PhraseMatcher.candidate_match slop candidate.1 candidate.2) := by
  unfold PhraseMatcher.find_phrase_matches
  split
  · exact absurd rfl h.1
  · exact absurd rfl (h.2 _)
  · rfl

/-- **What a phrase finds in a document.** -/
theorem mem_find_phrase_matches (h : Places positions) :
    m ∈ PhraseMatcher.find_phrase_matches reader field positions slop ↔
      phrase_anchors reader field positions slop m.doc_id ≠ [] ∧
        m.positions = phrase_anchors reader field positions slop m.doc_id ∧
        m.phrase_freq = m.positions.length % 2 ^ 32 := by
  rw [find_phrase_matches_eq h]
  by_cases hindexed : positions.any fun alternatives =>
      alternatives.all fun term => (reader field term).isNone
  · -- terms that are not indexed are in no document
    rw [if_pos hindexed]
    refine iff_of_false List.not_mem_nil fun hm => hm.1 ?_
    obtain ⟨terms, hterms, hnone⟩ := List.any_eq_true.1 hindexed
    refine phrase_anchors_eq_nil hterms ?_
    rw [List.eq_nil_iff_forall_not_mem]
    intro position hposition
    obtain ⟨term, hterm, p, hp, -⟩ := mem_occurrences.1 hposition
    have hreader := List.all_eq_true.1 hnone term hterm
    rw [Option.isNone_iff_eq_none] at hreader
    rw [read_postings, hreader] at hp
    exact absurd hp List.not_mem_nil
  · rw [if_neg hindexed, mem_sort_matches, List.mem_filterMap]
    constructor
    · rintro ⟨⟨doc, slots⟩, hmem, hm⟩
      have hslots := lookup_doc_candidates (AList.mem_lookup_iff.2 hmem)
      simp only [PhraseMatcher.candidate_match, hslots] at hm
      split at hm
      · exact absurd hm.symm (Option.some_ne_none m)
      · split at hm
        · exact absurd hm.symm (Option.some_ne_none m)
        grind [phrase_anchors]
    · rintro ⟨hne, hpositions, hfreq⟩
      have hall : ∀ terms ∈ positions, occurrences reader field m.doc_id terms ≠ [] :=
        fun terms hterms hnil => hne (phrase_anchors_eq_nil hterms hnil)
      obtain ⟨terms, hterms⟩ := List.exists_mem_of_ne_nil _ h.1
      obtain ⟨slots, hlookup⟩ := lookup_doc_candidates_isSome hterms (hall terms hterms)
      have hslots := lookup_doc_candidates hlookup
      refine ⟨⟨m.doc_id, slots⟩, AList.mem_lookup_iff.1 hlookup, ?_⟩
      have hempty : ¬slots.any List.isEmpty := by
        intro hany
        obtain ⟨slot, hslot, hnil⟩ := List.any_eq_true.1 hany
        rw [List.isEmpty_iff] at hnil
        have hmem : sort_dedup slot ∈ positions.map (occurrences reader field m.doc_id) :=
          hslots ▸ List.mem_map_of_mem hslot
        obtain ⟨terms, hterms, heq⟩ := List.mem_map.1 hmem
        rw [hnil] at heq
        exact hall terms hterms heq
      have hanchors : PhraseMatcher.find_phrase_positions (slots.map sort_dedup) slop =
          m.positions := by
        rw [hslots, hpositions, phrase_anchors]
      have hne' : ¬m.positions.isEmpty := by
        rw [hpositions]
        simpa using hne
      simp only [PhraseMatcher.candidate_match, if_neg hempty, hanchors, if_neg hne']
      exact congrArg some (by rw [← hfreq])

/-- **A single term is in every document of its postings.** -/
theorem mem_find_single_term_matches {term : String} :
    m ∈ PhraseMatcher.find_phrase_matches reader field [[term]] slop ↔
      ∃ p ∈ read_postings reader field term,
        ⟨p.doc_id, min p.term_freq (2 ^ 32 - 1), p.positions⟩ = m := by
  rw [PhraseMatcher.find_phrase_matches, PhraseMatcher.find_single_term_matches, List.mem_map]

end Phrase

section CompletePaths

/-!
## The complete paths of a graph

`complete_paths` keeps the arcs on a path from the first node to the last,
and renumbers their nodes in order; so its paths are those of the graph.
-/

open ArcPath

variable {arcs kept : List PhraseArc} {arc : PhraseArc} {first last m n : ℕ}

instance : Std.Total PhraseArc.le where
  total a b := by
    simp only [PhraseArc.le]
    omega

instance : IsTrans PhraseArc PhraseArc.le where
  trans a b c := by
    simp only [PhraseArc.le]
    omega

theorem pairwise_arcs (arcs : List PhraseArc) :
    (arcs.insertionSort PhraseArc.le).Pairwise PhraseArc.le :=
  List.pairwise_insertionSort PhraseArc.le arcs

/-- The arc is on a path from the first node to the last. -/
def OnPath (arcs : List PhraseArc) (first last : ℕ) (arc : PhraseArc) : Prop :=
  ∃ path, PathOf PhraseArc.start PhraseArc.stop arcs first path last ∧ arc ∈ path

/-- The nodes of arcs, in order. -/
def arc_nodes (arcs : List PhraseArc) : List ℕ :=
  sort_dedup (arcs.flatMap fun arc => [arc.start, arc.stop])

/-- An arc with the numbers of its nodes among those of `kept`. -/
def renumbered (kept : List PhraseArc) (arc : PhraseArc) : PhraseArc :=
  { arc with start := (arc_nodes kept).idxOf arc.start, stop := (arc_nodes kept).idxOf arc.stop }

theorem mem_arc_nodes : n ∈ arc_nodes arcs ↔ ∃ arc ∈ arcs, n = arc.start ∨ n = arc.stop := by
  simp [arc_nodes]

theorem forward_sorted (h : Forward PhraseArc.start PhraseArc.stop arcs) :
    Forward PhraseArc.start PhraseArc.stop (arcs.insertionSort PhraseArc.le) :=
  fun arc harc => h arc ((List.perm_insertionSort _ _).mem_iff.1 harc)

theorem pathOf_sorted {path : List PhraseArc} :
    PathOf PhraseArc.start PhraseArc.stop (arcs.insertionSort PhraseArc.le) m path n ↔
      PathOf PhraseArc.start PhraseArc.stop arcs m path n := by
  constructor
  · exact fun h => h.mono fun arc harc => (List.perm_insertionSort _ _).mem_iff.1 harc
  · exact fun h => h.mono fun arc harc => (List.perm_insertionSort _ _).mem_iff.2 harc

open Classical in
/-- The arcs that are on a path, in order. -/
noncomputable def path_arcs (arcs : List PhraseArc) (first last : ℕ) : List PhraseArc :=
  (arcs.insertionSort PhraseArc.le).filter (OnPath arcs first last)

/-- **`complete_paths` keeps the arcs that are on a path.** -/
theorem complete_paths_eq (h : Forward PhraseArc.start PhraseArc.stop arcs) (first last : ℕ) :
    complete_paths arcs first last =
      (path_arcs arcs first last).map (renumbered (path_arcs arcs first last)) := by
  classical
  have hsorted : (arcs.insertionSort PhraseArc.le).Pairwise fun a b => a.start ≤ b.start :=
    (pairwise_arcs arcs).imp fun hle => by
      rcases hle with hlt | heq
      · exact hlt.le
      · exact heq.1.le
  have hfilter : ((arcs.insertionSort PhraseArc.le).filter fun arc =>
      arc.start ∈ reached PhraseArc.start PhraseArc.stop first (arcs.insertionSort PhraseArc.le) ∧
        arc.stop ∈ reaching PhraseArc.start PhraseArc.stop last (arcs.insertionSort PhraseArc.le)) =
      path_arcs arcs first last := by
    refine List.filter_congr fun arc harc => ?_
    simp only [decide_eq_decide]
    rw [mem_reached (forward_sorted h) hsorted,
      mem_reaching (forward_sorted h) hsorted]
    constructor
    · rintro ⟨⟨before, hbefore⟩, after, hafter⟩
      exact ⟨before ++ ([arc] ++ after),
        pathOf_sorted.1 (hbefore.append ((PathOf.single harc).append hafter)), by simp⟩
    · rintro ⟨path, hpath, hin⟩
      obtain ⟨before, after, -, hbefore, hafter⟩ := (pathOf_sorted.2 hpath).split hin
      grind
  rw [complete_paths, hfilter]
  rfl

/-- Sorted arcs that are one path, with the nodes numbered from 0, stay as they are. -/
theorem complete_paths_of_isPath (hsorted : arcs.Pairwise PhraseArc.le)
    (hpath : IsPath PhraseArc.start PhraseArc.stop first arcs last)
    (hnodes : arc_nodes arcs = List.range (n + 1)) : complete_paths arcs first last = arcs := by
  have hsort : arcs.insertionSort PhraseArc.le = arcs := List.Pairwise.insertionSort_eq hsorted
  have hall : (arcs.filter fun arc =>
      arc.start ∈ reached PhraseArc.start PhraseArc.stop first arcs ∧
        arc.stop ∈ reaching PhraseArc.start PhraseArc.stop last arcs) = arcs :=
    List.filter_eq_self.2 fun arc harc => decide_eq_true
      ⟨source_mem_reached hpath harc, (target_mem_reaching hpath).2 arc harc⟩
  have hindex : ∀ k ∈ arc_nodes arcs, (arc_nodes arcs).idxOf k = k := by
    intro k hk
    rw [hnodes, List.mem_range] at hk
    have hget := (@List.nodup_range (n + 1)).idxOf_getElem k (by rwa [List.length_range])
    grind
  rw [complete_paths, hsort, hall]
  refine (List.map_congr_left fun arc harc => ?_).trans (List.map_id _)
  exact congrArg₂ (fun m n => (⟨m, n, arc.terms⟩ : PhraseArc))
    (hindex arc.start (mem_arc_nodes.2 ⟨arc, harc, Or.inl rfl⟩))
    (hindex arc.stop (mem_arc_nodes.2 ⟨arc, harc, Or.inr rfl⟩))

/-! ## The numbers of the nodes -/

/-- Arcs of a graph that are on its paths. -/
structure PathArcs (arcs : List PhraseArc) (first last : ℕ) (kept : List PhraseArc) : Prop where
  mem : ∀ arc, arc ∈ kept ↔ arc ∈ arcs ∧ OnPath arcs first last arc
  forward : Forward PhraseArc.start PhraseArc.stop arcs
  sorted : kept.Pairwise PhraseArc.le

theorem pathArcs (h : Forward PhraseArc.start PhraseArc.stop arcs) (first last : ℕ) :
    PathArcs arcs first last (path_arcs arcs first last) where
  mem arc := by
    simp only [path_arcs, List.mem_filter, (List.perm_insertionSort _ _).mem_iff,
      decide_eq_true_eq]
  forward := h
  sorted := (pairwise_arcs arcs).sublist List.filter_sublist

namespace PathArcs

theorem pathOf_iff (h : PathArcs arcs first last kept) {path : List PhraseArc} :
    PathOf PhraseArc.start PhraseArc.stop kept first path last ↔
      PathOf PhraseArc.start PhraseArc.stop arcs first path last := by
  constructor
  · exact fun hpath => hpath.mono fun arc harc => ((h.mem arc).1 harc).1
  · exact fun hpath => ⟨hpath.isPath, fun arc harc =>
      (h.mem arc).2 ⟨hpath.sub arc harc, path, hpath, harc⟩⟩

theorem ends (h : PathArcs arcs first last kept) (hne : kept ≠ []) :
    first ∈ arc_nodes kept ∧ last ∈ arc_nodes kept ∧ ∀ n ∈ arc_nodes kept, first ≤ n ∧ n ≤ last := by
  have hbetween : ∀ n ∈ arc_nodes kept, first ≤ n ∧ n ≤ last := by
    intro n hn
    obtain ⟨arc, harc, hend⟩ := mem_arc_nodes.1 hn
    obtain ⟨-, path, hpath, hin⟩ := (h.mem arc).1 harc
    obtain ⟨before, after, -, hbefore, hafter⟩ := hpath.split hin
    have hlow := hbefore.le h.forward
    have hhigh := hafter.le h.forward
    have hlt := h.forward arc (hpath.sub arc hin)
    omega
  obtain ⟨arc, harc⟩ := List.exists_mem_of_ne_nil _ hne
  obtain ⟨-, path, hpath, hin⟩ := (h.mem arc).1 harc
  have hkept := h.pathOf_iff.2 hpath
  have hpath_ne : path ≠ [] := List.ne_nil_of_mem hin
  refine ⟨?_, ?_, hbetween⟩
  · rcases path with _ | ⟨a, path⟩
    · exact absurd rfl hpath_ne
    · exact mem_arc_nodes.2 ⟨a, hkept.sub a List.mem_cons_self, Or.inl hkept.isPath.1.symm⟩
  · rcases List.eq_nil_or_concat' path with rfl | ⟨path, a, rfl⟩
    · exact absurd rfl hpath_ne
    · exact mem_arc_nodes.2 ⟨a, hkept.sub a (List.mem_append_right _ (List.mem_singleton_self a)),
        Or.inr (isPath_concat.1 hkept.isPath).2.symm⟩

theorem idxOf_first (h : PathArcs arcs first last kept) (hne : kept ≠ []) :
    (arc_nodes kept).idxOf first = 0 := by
  obtain ⟨hfirst, -, hbetween⟩ := h.ends hne
  rcases hnodes : arc_nodes kept with _ | ⟨n, rest⟩
  · simp
  · have hsorted := pairwise_sort_dedup (kept.flatMap fun arc => [arc.start, arc.stop])
    rw [show sort_dedup _ = _ from hnodes] at hsorted
    grind [List.mem_cons_self, List.pairwise_cons]

theorem idxOf_lt (hm : m ∈ arc_nodes kept) (hlt : m < n) :
    (arc_nodes kept).idxOf m < (arc_nodes kept).idxOf n :=
  idxOf_lt_idxOf (pairwise_sort_dedup _) hm hlt

theorem injOn_idxOf (kept : List PhraseArc) :
    Set.InjOn (fun n => (arc_nodes kept).idxOf n) {n | n ∈ arc_nodes kept} := by
  intro m hm n hn heq
  rcases lt_trichotomy m n with hlt | rfl | hlt
  · exact absurd heq (idxOf_lt hm hlt).ne
  · rfl
  · exact absurd heq.symm (idxOf_lt hn hlt).ne

theorem last_node_renumbered (h : PathArcs arcs first last kept) (hne : kept ≠ []) :
    last_node (kept.map (renumbered kept)) = (arc_nodes kept).idxOf last := by
  obtain ⟨-, hlast, hbetween⟩ := h.ends hne
  have hle : ∀ n ∈ arc_nodes kept, (arc_nodes kept).idxOf n ≤ (arc_nodes kept).idxOf last := by
    intro n hn
    rcases (hbetween n hn).2.lt_or_eq with hlt | rfl
    · exact (idxOf_lt hn hlt).le
    · exact le_rfl
  have hstop : ∃ arc ∈ kept, arc.stop = last := by
    obtain ⟨arc, harc, rfl | rfl⟩ := mem_arc_nodes.1 hlast
    · -- no arc starts at the last node
      have hlt := h.forward arc ((h.mem arc).1 harc).1
      have hstop := (hbetween arc.stop (mem_arc_nodes.2 ⟨arc, harc, Or.inr rfl⟩)).2
      omega
    · exact ⟨arc, harc, rfl⟩
  obtain ⟨arc, harc, hlast_eq⟩ := hstop
  have hmax : ((kept.map (renumbered kept)).map PhraseArc.stop).max? =
      some ((arc_nodes kept).idxOf last) := by
    refine List.max?_eq_some_iff.2 ⟨?_, fun n hn => ?_⟩
    · rw [List.map_map]
      exact List.mem_map.2 ⟨arc, harc, by rw [← hlast_eq]; rfl⟩
    · rw [List.map_map] at hn
      obtain ⟨b, hb, rfl⟩ := List.mem_map.1 hn
      exact hle b.stop (mem_arc_nodes.2 ⟨b, hb, Or.inr rfl⟩)
  rw [last_node, hmax, Option.getD_some]

/-- **The paths of what is kept are the paths of the graph.** -/
theorem pathOf_renumbered (h : PathArcs arcs first last kept) (hne : kept ≠ [])
    {path' : List PhraseArc} :
    PathOf PhraseArc.start PhraseArc.stop (kept.map (renumbered kept)) 0 path'
        (last_node (kept.map (renumbered kept))) ↔
      ∃ path, PathOf PhraseArc.start PhraseArc.stop arcs first path last ∧
        path.map (renumbered kept) = path' := by
  obtain ⟨hfirst, hlast, -⟩ := h.ends hne
  rw [h.last_node_renumbered hne, ← h.idxOf_first hne]
  have hmap := @pathOf_map_iff _ PhraseArc.start PhraseArc.stop kept first last _
    (renumbered kept) PhraseArc.start PhraseArc.stop (fun n => (arc_nodes kept).idxOf n)
    {n | n ∈ arc_nodes kept} (fun _ _ => rfl) (fun _ _ => rfl)
    (fun arc harc => ⟨mem_arc_nodes.2 ⟨arc, harc, Or.inl rfl⟩,
      mem_arc_nodes.2 ⟨arc, harc, Or.inr rfl⟩⟩) (injOn_idxOf kept) hfirst hlast path'
  rw [hmap]
  simp only [h.pathOf_iff]

theorem forward_renumbered (h : PathArcs arcs first last kept) :
    Forward PhraseArc.start PhraseArc.stop (kept.map (renumbered kept)) := by
  intro arc harc
  obtain ⟨b, hb, rfl⟩ := List.mem_map.1 harc
  exact idxOf_lt (mem_arc_nodes.2 ⟨b, hb, Or.inl rfl⟩) (h.forward b ((h.mem b).1 hb).1)

theorem sorted_renumbered (h : PathArcs arcs first last kept) :
    (kept.map (renumbered kept)).Pairwise PhraseArc.le := by
  rw [List.pairwise_map]
  refine h.sorted.imp_of_mem fun {a b} ha hb hle => ?_
  rcases hle with hlt | ⟨heq, hstop⟩
  · exact Or.inl (idxOf_lt (mem_arc_nodes.2 ⟨a, ha, Or.inl rfl⟩) hlt)
  · refine Or.inr ⟨congrArg (arc_nodes kept).idxOf heq, ?_⟩
    rcases hstop.lt_or_eq with hlt | hstop_eq
    · exact (idxOf_lt (mem_arc_nodes.2 ⟨a, ha, Or.inr rfl⟩) hlt).le
    · exact (congrArg (arc_nodes kept).idxOf hstop_eq).le

end PathArcs

end CompletePaths

end Laurus
