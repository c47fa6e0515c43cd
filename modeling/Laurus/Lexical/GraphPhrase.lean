import Laurus.Lexical.Helpers.Phrase

/-!
# A graph of phrases is the union of its paths

The states of a node are the anchors, each with the last position, of the
paths that lead to it (`mem_states`): the next position depends on the last
one alone, and every arc into a node comes before those out of it. So the
graph finds what the phrases of its paths find.
-/

namespace Laurus

open ArcPath

variable {reader : PostingsReader} {field : String} {slop doc : ℕ}

/-! ## The walk -/

namespace AnchorWalk

variable {walk : AnchorWalk} {arcs : List (PhraseArc × List ℕ)} {state : ℕ × ℕ} {node : ℕ}

theorem mem_settle (walk : AnchorWalk) (n : ℕ) :
    state ∈ (walk.settle n).states node ↔ state ∈ walk.states node := by
  rw [settle]
  split
  · dsimp only
    by_cases h : node = n
    · subst h
      simp
    · rw [Function.update_of_ne h]
  · rfl

theorem mem_reach (walk : AnchorWalk) (n : ℕ) (more : List (ℕ × ℕ)) :
    state ∈ (walk.reach n more).states node ↔
      state ∈ walk.states node ∨ (node = n ∧ state ∈ more) := by
  rw [reach]
  grind

/-- Where an arc with its positions starts. -/
def source (arc : PhraseArc × List ℕ) : ℕ := arc.1.start

/-- Where an arc with its positions stops. -/
def target (arc : PhraseArc × List ℕ) : ℕ := arc.1.stop

/-- Some path brings the anchor and the last position to a node. -/
def Carried (slop : ℕ) (arcs : List (PhraseArc × List ℕ)) (state : ℕ × ℕ) (node : ℕ) : Prop :=
  ∃ arc path, PathOf source target arcs 0 (arc :: path) node ∧ state.1 ∈ arc.2 ∧
    in_windows slop (path.map Prod.snd) state.1 = some state.2

theorem carried_concat {arc : PhraseArc × List ℕ}
    (hforward : Forward source target (arcs ++ [arc]))
    (hlast : ∀ b ∈ arcs, source b ≤ source arc) :
    Carried slop (arcs ++ [arc]) state node ↔
      Carried slop arcs state node ∨ (node = target arc ∧
        ((source arc = 0 ∧ state.1 ∈ arc.2 ∧ state.1 = state.2) ∨
          ∃ previous, Carried slop arcs (state.1, previous) (source arc) ∧
            next_in_window arc.2 previous slop = some state.2)) := by
  have hmem : arc ∈ arcs ++ [arc] := List.mem_append_right _ (List.mem_singleton_self arc)
  have hleft : ∀ b ∈ arcs, b ∈ arcs ++ [arc] := fun b hb => List.mem_append_left _ hb
  constructor
  · rintro ⟨first, path, hpath, hanchor, hfollow⟩
    rcases path_concat hforward hlast hpath with hpath | ⟨q, hq, hbefore, htarget⟩
    · exact Or.inl ⟨first, path, hpath, hanchor, hfollow⟩
    · refine Or.inr ⟨htarget.symm, ?_⟩
      rcases q with _ | ⟨first', q⟩
      · -- the arc is the path
        obtain ⟨rfl, rfl⟩ := List.cons.inj hq
        exact Or.inl ⟨hbefore.isPath.symm, hanchor, Option.some.inj hfollow⟩
      · have hrest : path = q ++ [arc] := (List.cons.inj hq).2
        obtain rfl : first = first' := (List.cons.inj hq).1
        rw [hrest, List.map_append, List.map_singleton, in_windows_concat] at hfollow
        obtain ⟨previous, hprevious, hnext⟩ := Option.bind_eq_some_iff.1 hfollow
        exact Or.inr ⟨previous, ⟨first, q, hbefore, hanchor, hprevious⟩, hnext⟩
  · rintro (⟨first, path, hpath, hanchor, hfollow⟩ | ⟨rfl, ⟨hzero, hanchor, heq⟩ |
      ⟨previous, ⟨first, path, hpath, hanchor, hfollow⟩, hnext⟩⟩)
    · exact ⟨first, path, hpath.mono hleft, hanchor, hfollow⟩
    · have hsingle : PathOf source target (arcs ++ [arc]) (source arc) [arc] (target arc) :=
        .single hmem
      rw [hzero] at hsingle
      exact ⟨arc, [], hsingle, hanchor, congrArg some heq⟩
    · refine ⟨first, path ++ [arc], (hpath.mono hleft).append (.single hmem), hanchor, ?_⟩
      rw [List.map_append, List.map_singleton, in_windows_concat]
      grind

theorem not_carried_zero (hforward : Forward source target arcs) : ¬Carried slop arcs state 0 := by
  rintro ⟨arc, path, hpath, -⟩
  have := (hpath.source_lt hforward List.mem_cons_self).2
  omega

/-- **The states of a node are what the paths to it carry.** -/
theorem mem_states (hforward : Forward source target arcs)
    (hsorted : arcs.Pairwise fun a b => source a ≤ source b) :
    state ∈ (arcs.foldl (step slop) ⟨fun _ => [], 0⟩).states node ↔
      Carried slop arcs state node := by
  induction arcs using List.reverseRecOn generalizing state node with
  | nil =>
      refine iff_of_false List.not_mem_nil ?_
      rintro ⟨arc, path, hpath, -⟩
      exact absurd (hpath.sub arc List.mem_cons_self) List.not_mem_nil
  | append_singleton arcs arc ih =>
      obtain ⟨hsorted', -, hlast⟩ := List.pairwise_append.1 hsorted
      have hlast' : ∀ b ∈ arcs, source b ≤ source arc := fun b hb =>
        hlast b hb arc (List.mem_singleton_self arc)
      have hforward' : Forward source target arcs := fun b hb =>
        hforward b (List.mem_append_left _ hb)
      have ih' : ∀ state node, state ∈ (arcs.foldl (step slop) ⟨fun _ => [], 0⟩).states node ↔
          Carried slop arcs state node := fun _ _ => ih hforward' hsorted'
      rw [carried_concat hforward hlast', ← ih', List.foldl_append, List.foldl_cons,
        List.foldl_nil, step]
      by_cases hzero : arc.1.start = 0
      · rw [if_pos hzero, mem_reach, List.mem_map]
        refine or_congr_right (and_congr_right fun _ => ?_)
        grind [source, not_carried_zero]
      · rw [if_neg hzero, mem_reach, mem_settle, List.mem_filterMap]
        refine or_congr_right (and_congr_right fun _ => ?_)
        constructor
        · rintro ⟨previous, hprevious, hnext⟩
          rw [mem_settle, ih'] at hprevious
          obtain ⟨position, hposition, rfl⟩ := Option.map_eq_some_iff.1 hnext
          exact Or.inr ⟨previous.2, hprevious, hposition⟩
        · rintro (⟨hsource, -⟩ | ⟨previous, hprevious, hnext⟩)
          · exact absurd hsource hzero
          · refine ⟨(state.1, previous), ?_, ?_⟩
            · rw [mem_settle, ih']
              exact hprevious
            · rw [hnext]
              rfl

end AnchorWalk

/-! ## The anchors of a graph -/

namespace GraphPhraseQuery

variable {q : GraphPhraseQuery} {anchor : ℕ}

/-- A path from the first node to the last. -/
def Path (q : GraphPhraseQuery) (path : List PhraseArc) : Prop :=
  PathOf PhraseArc.start PhraseArc.stop q.arcs 0 path q.last

/-- The phrase of a path. -/
def phrase (path : List PhraseArc) : List (List String) := path.map PhraseArc.terms

/-- The anchors of the graph in a document. -/
def graph_anchors (q : GraphPhraseQuery) (reader : PostingsReader) (doc : ℕ) : List ℕ :=
  complete_anchors q.arcs q.last
    (q.arcs.map fun arc => occurrences reader q.field doc arc.terms) q.slop

theorem start_le (q : GraphPhraseQuery) : q.arcs.Pairwise fun a b => a.start ≤ b.start :=
  q.sorted.imp fun h => by
    rcases h with h | h
    · exact h.le
    · exact h.1.le

/-- **The anchors of the graph are those of its paths.** -/
theorem mem_graph_anchors :
    anchor ∈ q.graph_anchors reader doc ↔
      ∃ path, q.Path path ∧
        anchor ∈ phrase_anchors reader q.field (phrase path) q.slop doc := by
  set located := fun arc : PhraseArc => (arc, occurrences reader q.field doc arc.terms)
    with hlocated
  have hzip : q.arcs.zip (q.arcs.map fun arc => occurrences reader q.field doc arc.terms) =
      q.arcs.map located := by
    rw [List.zip_map_right, List.zip_eq_zipWith, List.zipWith_self, List.map_map]
    rfl
  have hforward : Forward AnchorWalk.source AnchorWalk.target (q.arcs.map located) := by
    intro arc harc
    obtain ⟨arc, hmem, rfl⟩ := List.mem_map.1 harc
    exact q.forward arc hmem
  have hsorted : (q.arcs.map located).Pairwise fun a b =>
      AnchorWalk.source a ≤ AnchorWalk.source b := List.pairwise_map.2 q.start_le
  have hpaths : ∀ path', PathOf AnchorWalk.source AnchorWalk.target (q.arcs.map located) 0 path'
      q.last ↔ ∃ path, q.Path path ∧ path.map located = path' := fun path' =>
    @pathOf_map_iff _ PhraseArc.start PhraseArc.stop q.arcs 0 q.last _ located AnchorWalk.source
      AnchorWalk.target id Set.univ (fun _ _ => rfl) (fun _ _ => rfl)
      (fun _ _ => ⟨trivial, trivial⟩) Function.injective_id.injOn trivial trivial path'
  rw [graph_anchors, complete_anchors, hzip, mem_sort_dedup, List.mem_map]
  constructor
  · rintro ⟨⟨anchor, previous⟩, hstate, rfl⟩
    obtain ⟨arc, path', hpath, hanchor, hfollow⟩ :=
      (AnchorWalk.mem_states hforward hsorted).1 hstate
    obtain ⟨path, hq, heq⟩ := (hpaths _).1 hpath
    refine ⟨path, hq, ?_⟩
    rcases path with _ | ⟨first, path⟩
    · grind
    obtain ⟨rfl, rfl⟩ := List.cons.inj heq
    rw [List.map_map] at hfollow
    rw [phrase_anchors, phrase, List.map_map, List.map_cons]
    exact mem_find_phrase_positions.2 ⟨hanchor, previous, hfollow⟩
  · rintro ⟨path, hq, hanchor⟩
    rw [phrase_anchors, phrase, List.map_map] at hanchor
    rcases path with _ | ⟨first, path⟩
    · exact absurd hanchor List.not_mem_nil
    obtain ⟨hfirst, previous, hfollow⟩ := mem_find_phrase_positions.1 hanchor
    refine ⟨(anchor, previous), (AnchorWalk.mem_states hforward hsorted).2
      ⟨located first, path.map located, (hpaths _).2 ⟨first :: path, hq, rfl⟩, hfirst, ?_⟩, rfl⟩
    rw [List.map_map]
    exact hfollow

/-! ## The matches of a graph -/

theorem merged_positions_eq {terms : List String} (hterms : ∀ term ∈ terms, term ∈ q.terms) :
    merged_positions ((q.terms.map fun term => [term]).map (occurrences reader q.field doc))
      (terms.map fun term => q.terms.idxOf term) = occurrences reader q.field doc terms := by
  set positions := (q.terms.map fun term => [term]).map (occurrences reader q.field doc)
    with hpositions
  have hget : ∀ term ∈ terms, positions.getD (q.terms.idxOf term) [] =
      occurrences reader q.field doc [term] := by grind
  have hmerged : sort_dedup ((terms.map fun term => q.terms.idxOf term).flatMap fun id =>
      positions.getD id []) = occurrences reader q.field doc terms := by
    refine sort_dedup_eq (pairwise_occurrences terms) fun position => ?_
    constructor
    · grind [mem_occurrences]
    grind [mem_occurrences]
  rcases terms with _ | ⟨term, _ | ⟨term', terms⟩⟩
  · exact hmerged
  · exact hget term (List.mem_singleton_self term)
  · exact hmerged

theorem candidate_match_eq {positions : List (List ℕ)}
    (h : positions.map sort_dedup =
      (q.terms.map fun term => [term]).map (occurrences reader q.field doc)) :
    q.candidate_match doc positions =
      if (q.graph_anchors reader doc).isEmpty then none
      else some ⟨doc, min (q.graph_anchors reader doc).length (2 ^ 32 - 1),
        q.graph_anchors reader doc⟩ := by
  have hoccurrences : q.arc_terms.map (merged_positions (positions.map sort_dedup)) =
      q.arcs.map fun arc => occurrences reader q.field doc arc.terms := by
    rw [arc_terms, List.map_map, h]
    refine List.map_congr_left fun arc harc => merged_positions_eq fun term hterm => ?_
    exact List.mem_eraseDups.2 (List.mem_flatMap.2 ⟨arc, harc, hterm⟩)
  rw [candidate_match, hoccurrences]
  rfl

/-- **What a graph finds in a document.** -/
theorem mem_find_matches {m : PhraseMatch} :
    m ∈ q.find_matches reader ↔
      q.graph_anchors reader m.doc_id ≠ [] ∧ m.positions = q.graph_anchors reader m.doc_id ∧
        m.phrase_freq = min m.positions.length (2 ^ 32 - 1) := by
  rw [find_matches, mem_sort_matches, List.mem_filterMap]
  constructor
  · rintro ⟨⟨doc, positions⟩, hmem, hm⟩
    rw [candidate_match_eq (lookup_doc_candidates (AList.mem_lookup_iff.2 hmem))] at hm
    grind
  · rintro ⟨hne, hpositions, hfreq⟩
    -- an anchor is a position of a term, so the document is a candidate
    obtain ⟨anchor, hanchor⟩ := List.exists_mem_of_ne_nil _ hne
    obtain ⟨path, hpath, hphrase⟩ := mem_graph_anchors.1 hanchor
    rcases path with _ | ⟨first, path⟩
    · exact absurd hphrase List.not_mem_nil
    obtain ⟨term, hterm, p, hp, hdoc, hin⟩ :=
      mem_occurrences.1 (mem_find_phrase_positions.1 hphrase).1
    have hterms : [term] ∈ q.terms.map fun term => [term] :=
      List.mem_map_of_mem (List.mem_eraseDups.2 (List.mem_flatMap.2
        ⟨first, hpath.sub first List.mem_cons_self, hterm⟩))
    have hoccurs : occurrences reader q.field m.doc_id [term] ≠ [] :=
      List.ne_nil_of_mem (mem_occurrences.2
        ⟨term, List.mem_singleton_self term, p, hp, hdoc, hin⟩)
    obtain ⟨positions, hlookup⟩ := lookup_doc_candidates_isSome hterms hoccurs
    refine ⟨⟨m.doc_id, positions⟩, AList.mem_lookup_iff.1 hlookup, ?_⟩
    rw [candidate_match_eq (lookup_doc_candidates hlookup), if_neg (by simpa using hne),
      ← hpositions, ← hfreq]

end GraphPhraseQuery

/-! ## Every graph, every phrase -/

/-- The positions of every posting of a field are stored. -/
def PositionsStored (reader : PostingsReader) (field : String) : Prop :=
  ∀ term, ∀ p ∈ read_postings reader field term, p.positions ≠ []

variable {positions : List (List String)}

theorem mem_phrase_anchors {anchor : ℕ} :
    anchor ∈ phrase_anchors reader field positions slop doc ↔
      ∃ m ∈ PhraseMatcher.find_phrase_matches reader field positions slop,
        m.doc_id = doc ∧ anchor ∈ m.positions := by
  by_cases hplaces : Places positions
  · constructor
    · intro hanchor
      exact ⟨⟨doc, (phrase_anchors reader field positions slop doc).length % 2 ^ 32,
        phrase_anchors reader field positions slop doc⟩,
        (mem_find_phrase_matches hplaces).2 ⟨List.ne_nil_of_mem hanchor, rfl, rfl⟩, rfl, hanchor⟩
    grind [mem_find_phrase_matches]
  · rw [Places, not_and_or, not_not, not_forall] at hplaces
    rcases hplaces with rfl | ⟨term, hterm⟩
    · refine iff_of_false List.not_mem_nil ?_
      rintro ⟨m, hm, -⟩
      exact absurd hm List.not_mem_nil
    · rw [not_not] at hterm
      subst hterm
      rw [phrase_anchors, List.map_singleton, mem_find_phrase_positions, mem_occurrences]
      constructor
      · rintro ⟨⟨term', hterm', p, hp, hdoc, hin⟩, -⟩
        rw [List.mem_singleton.1 hterm'] at hp
        exact ⟨_, mem_find_single_term_matches.2 ⟨p, hp, rfl⟩, hdoc, hin⟩
      · rintro ⟨m, hm, hdoc, hin⟩
        obtain ⟨p, hp, rfl⟩ := mem_find_single_term_matches.1 hm
        exact ⟨⟨term, List.mem_singleton_self term, p, hp, hdoc, hin⟩, anchor, rfl⟩

/-- A document matches where there is an anchor in it: a single term's
matches have anchors where positions are stored. -/
theorem phrase_anchors_ne_nil
    (h : PositionsStored reader field ∨ ∀ term, positions ≠ [[term]]) :
    phrase_anchors reader field positions slop doc ≠ [] ↔
      ∃ m ∈ PhraseMatcher.find_phrase_matches reader field positions slop, m.doc_id = doc := by
  constructor
  · intro hne
    obtain ⟨anchor, hanchor⟩ := List.exists_mem_of_ne_nil _ hne
    grind [mem_phrase_anchors]
  · rintro ⟨m, hm, rfl⟩
    have hne : m.positions ≠ [] := by
      by_cases hplaces : Places positions
      · grind [mem_find_phrase_matches]
      · rw [Places, not_and_or, not_not, not_forall] at hplaces
        rcases hplaces with rfl | ⟨term, hterm⟩
        · exact absurd hm List.not_mem_nil
        · rw [not_not] at hterm
          subst hterm
          obtain ⟨p, hp, rfl⟩ := mem_find_single_term_matches.1 hm
          exact (h.resolve_right fun hnot => hnot term rfl) term p hp
    obtain ⟨anchor, hanchor⟩ := List.exists_mem_of_ne_nil _ hne
    exact List.ne_nil_of_mem (mem_phrase_anchors.2 ⟨m, hm, rfl, hanchor⟩)

namespace GraphPhraseQuery

/-- "no arc straight from the first node to the last" -/
def Phrasal (q : GraphPhraseQuery) : Prop :=
  ∀ arc ∈ q.arcs, ¬(arc.start = 0 ∧ arc.stop = q.last)

/-- The documents, and the anchors in each, are those of the paths. -/
structure UnionOfPaths (q : GraphPhraseQuery) (reader : PostingsReader) : Prop where
  documents : ∀ doc, (∃ m ∈ q.find_matches reader, m.doc_id = doc) ↔
    ∃ path, q.Path path ∧ ∃ m ∈ PhraseMatcher.find_phrase_matches reader q.field (phrase path)
      q.slop, m.doc_id = doc
  anchors : ∀ doc anchor, (∃ m ∈ q.find_matches reader, m.doc_id = doc ∧ anchor ∈ m.positions) ↔
    ∃ path, q.Path path ∧ ∃ m ∈ PhraseMatcher.find_phrase_matches reader q.field (phrase path)
      q.slop, m.doc_id = doc ∧ anchor ∈ m.positions
  sorted : (q.find_matches reader).Pairwise fun a b => a.doc_id < b.doc_id
  ascending : ∀ m ∈ q.find_matches reader, m.positions.Pairwise (· < ·)

theorem unionOfPaths (q : GraphPhraseQuery) (h : PositionsStored reader q.field ∨ q.Phrasal) :
    q.UnionOfPaths reader := by
  have hsingle : ∀ path, q.Path path →
      PositionsStored reader q.field ∨ ∀ term, phrase path ≠ [[term]] := by
    intro path hpath
    refine h.imp_right fun hphrasal term heq => ?_
    rcases path with _ | ⟨arc, _ | ⟨arc', path⟩⟩
    · exact absurd (congrArg List.length heq) (by simp [phrase])
    · exact hphrasal arc (hpath.sub arc (List.mem_singleton_self arc))
        ⟨hpath.isPath.1, hpath.isPath.2⟩
    · exact absurd (congrArg List.length heq) (by simp [phrase])
  refine ⟨fun doc => ?_, fun doc anchor => ?_, ?_, fun m hm => ?_⟩
  · constructor
    · rintro ⟨m, hm, rfl⟩
      obtain ⟨anchor, hanchor⟩ := List.exists_mem_of_ne_nil _ (mem_find_matches.1 hm).1
      obtain ⟨path, hpath, hphrase⟩ := mem_graph_anchors.1 hanchor
      exact ⟨path, hpath, (phrase_anchors_ne_nil (hsingle path hpath)).1
        (List.ne_nil_of_mem hphrase)⟩
    · rintro ⟨path, hpath, hm⟩
      obtain ⟨anchor, hanchor⟩ := List.exists_mem_of_ne_nil _
        ((phrase_anchors_ne_nil (hsingle path hpath)).2 hm)
      have hgraph : anchor ∈ q.graph_anchors reader doc :=
        mem_graph_anchors.2 ⟨path, hpath, hanchor⟩
      exact ⟨⟨doc, min (q.graph_anchors reader doc).length (2 ^ 32 - 1), q.graph_anchors reader doc⟩,
        mem_find_matches.2 ⟨List.ne_nil_of_mem hgraph, rfl, rfl⟩, rfl⟩
  · have hgraph : (∃ m ∈ q.find_matches reader, m.doc_id = doc ∧ anchor ∈ m.positions) ↔
        anchor ∈ q.graph_anchors reader doc := by
      constructor
      · grind [mem_find_matches]
      · intro hanchor
        exact ⟨⟨doc, min (q.graph_anchors reader doc).length (2 ^ 32 - 1), q.graph_anchors reader doc⟩,
          mem_find_matches.2 ⟨List.ne_nil_of_mem hanchor, rfl, rfl⟩, rfl, hanchor⟩
    rw [hgraph, mem_graph_anchors]
    simp only [mem_phrase_anchors]
  · refine pairwise_sort_matches fun doc positions m hm => ?_
    dsimp only [candidate_match] at hm
    grind
  · rw [(mem_find_matches.1 hm).2.1]
    exact pairwise_sort_dedup _

end GraphPhraseQuery

/-- The arcs kept are those on a path, in order, their nodes renumbered in
order; and the paths are spelled as they were. -/
structure KeepsPaths (arcs : List PhraseArc) (first last : ℕ) : Prop where
  kept : complete_paths arcs first last =
    (path_arcs arcs first last).map (renumbered (path_arcs arcs first last))
  spellings : ∀ spelling : List (List String), spelling ≠ [] →
    ((∃ path, PathOf PhraseArc.start PhraseArc.stop arcs first path last ∧
        GraphPhraseQuery.phrase path = spelling) ↔
      ∃ path, PathOf PhraseArc.start PhraseArc.stop (complete_paths arcs first last) 0 path
        (last_node (complete_paths arcs first last)) ∧ GraphPhraseQuery.phrase path = spelling)

theorem keepsPaths {arcs : List PhraseArc} (h : Forward PhraseArc.start PhraseArc.stop arcs)
    (first last : ℕ) : KeepsPaths arcs first last := by
  have hkept := pathArcs h first last
  refine ⟨complete_paths_eq h first last, fun spelling hne => ?_⟩
  rw [complete_paths_eq h]
  by_cases hnil : path_arcs arcs first last = []
  · -- neither has an arc on a path
    rw [hnil, List.map_nil]
    refine iff_of_false ?_ ?_
    · rintro ⟨path, hpath, rfl⟩
      obtain ⟨arc, harc⟩ := List.exists_mem_of_ne_nil path fun h => hne (by rw [h]; rfl)
      have hin := (hkept.mem arc).2 ⟨hpath.sub arc harc, path, hpath, harc⟩
      grind
    · rintro ⟨path, hpath, rfl⟩
      obtain ⟨arc, harc⟩ := List.exists_mem_of_ne_nil path fun h => hne (by rw [h]; rfl)
      exact List.not_mem_nil (hpath.sub arc harc)
  · simp only [hkept.pathOf_renumbered hnil]
    constructor
    · rintro ⟨path, hpath, rfl⟩
      refine ⟨_, ⟨path, hpath, rfl⟩, ?_⟩
      rw [GraphPhraseQuery.phrase, List.map_map]
      rfl
    · rintro ⟨-, ⟨path, hpath, rfl⟩, rfl⟩
      refine ⟨path, hpath, ?_⟩
      rw [GraphPhraseQuery.phrase, GraphPhraseQuery.phrase, List.map_map]
      rfl

/-- Each place of a phrase, from a position on, is filled by one of its
terms in the document. -/
def Fills (reader : PostingsReader) (field : String) (doc : ℕ) (positions : List (List String))
    (start : ℕ) : Prop :=
  ∀ i terms, positions[i]? = some terms → ∃ term ∈ terms, ∃ p ∈ read_postings reader field term,
    p.doc_id = doc ∧ start + i ∈ p.positions

theorem fills_cons {terms : List String} {rest : List (List String)} {start : ℕ} :
    Fills reader field doc (terms :: rest) start ↔
      start ∈ occurrences reader field doc terms ∧ Fills reader field doc rest (start + 1) := by
  rw [mem_occurrences]
  constructor
  · intro h
    refine ⟨h 0 terms rfl, fun i terms' hi => ?_⟩
    have hnext := h (i + 1) terms' hi
    grind
  · rintro ⟨hfirst, hrest⟩ i terms' hi
    rcases i with _ | i
    · grind
    · have hnext := hrest i terms' hi
      grind

theorem in_windows_zero {rest : List (List String)} {previous : ℕ} :
    (∃ position, in_windows 0 (rest.map (occurrences reader field doc)) previous = some position) ↔
      Fills reader field doc rest (previous + 1) := by
  induction rest generalizing previous with
  | nil => exact iff_of_true ⟨previous, rfl⟩ fun i terms hi => absurd hi.symm (by simp)
  | cons terms rest ih =>
      rw [fills_cons, List.map_cons, in_windows, ← ih]
      constructor
      · simp [Option.bind_eq_some_iff, next_in_window_zero, pairwise_occurrences]
      simp [Option.bind_eq_some_iff, next_in_window_zero, pairwise_occurrences]

/-- **Without slop a phrase matches where its places are filled in turn.** -/
theorem phrase_zero_iff
    (h : PositionsStored reader field ∨ ∀ term, positions ≠ [[term]]) :
    (∃ m ∈ PhraseMatcher.find_phrase_matches reader field positions 0, m.doc_id = doc) ↔
      positions ≠ [] ∧ ∃ start, Fills reader field doc positions start := by
  rw [← phrase_anchors_ne_nil h]
  rcases positions with _ | ⟨first, rest⟩
  · exact iff_of_false (fun hne => hne rfl) fun hne => hne.1 rfl
  · rw [and_iff_right (List.cons_ne_nil first rest)]
    constructor
    · intro hne
      obtain ⟨anchor, hanchor⟩ := List.exists_mem_of_ne_nil _ hne
      rw [phrase_anchors, List.map_cons, mem_find_phrase_positions, in_windows_zero] at hanchor
      exact ⟨anchor, fills_cons.2 hanchor⟩
    · rintro ⟨start, hfills⟩
      refine List.ne_nil_of_mem (a := start) ?_
      rw [phrase_anchors, List.map_cons, mem_find_phrase_positions, in_windows_zero]
      exact fills_cons.1 hfills

/-- **A graph of phrases is the union of its paths**, as long as positions
are stored or no path is a single arc; its arcs are those on a path, and
keep the spellings; and without slop a phrase matches where its places are
filled in turn, as long as positions are stored or it is no single term. -/
theorem graph_phrase_spec (reader : PostingsReader) :
    (∀ q : GraphPhraseQuery, PositionsStored reader q.field ∨ q.Phrasal → q.UnionOfPaths reader) ∧
    (∀ arcs : List PhraseArc, Forward PhraseArc.start PhraseArc.stop arcs →
      ∀ first last, KeepsPaths arcs first last) ∧
    ∀ field positions, (PositionsStored reader field ∨ ∀ term, positions ≠ [[term]]) → ∀ doc,
      ((∃ m ∈ PhraseMatcher.find_phrase_matches reader field positions 0, m.doc_id = doc) ↔
        positions ≠ [] ∧ ∃ start, Fills reader field doc positions start) :=
  ⟨fun q h => q.unionOfPaths h, fun _ h first last => keepsPaths h first last,
    fun _ _ h _ => phrase_zero_iff h⟩

/-- "ml is fun" and "machine learning is fun", the synonyms not stacked. -/
def two_documents : PostingsReader := fun _ term =>
  [("ml", [⟨0, 1, [0]⟩]), ("machine", [⟨1, 1, [0]⟩]), ("learning", [⟨1, 1, [1]⟩]),
    ("is", [⟨0, 1, [1]⟩, ⟨1, 1, [2]⟩])].lookup term

/-- The arcs of "ml is", through the synonyms. -/
def ml_is_arcs : List PhraseArc :=
  [⟨0, 1, ["machine"]⟩, ⟨0, 2, ["ml"]⟩, ⟨1, 2, ["learning"]⟩, ⟨2, 3, ["is"]⟩]

theorem forward_ml_is : Forward PhraseArc.start PhraseArc.stop ml_is_arcs := by
  unfold Forward
  decide

/-- The query for "ml is". -/
def ml_is : GraphPhraseQuery where
  field := "body"
  arcs := ml_is_arcs
  slop := 0
  forward := forward_ml_is
  sorted := by decide

example : ml_is.find_matches two_documents = [⟨0, 1, [0]⟩, ⟨1, 1, [0]⟩] := by decide +kernel

theorem graph_phrase_ml_is :
    ml_is.UnionOfPaths two_documents ∧ KeepsPaths ml_is_arcs 0 3 ∧
      ((∃ m ∈ PhraseMatcher.find_phrase_matches two_documents "body" [["ml"], ["is"]] 0,
        m.doc_id = 0) ↔ [["ml"], ["is"]] ≠ [] ∧
          ∃ start, Fills two_documents "body" 0 [["ml"], ["is"]] start) := by
  obtain ⟨hgraph, hpaths, hphrase⟩ := graph_phrase_spec two_documents
  refine ⟨hgraph ml_is (Or.inr ?_), hpaths ml_is_arcs forward_ml_is 0 3,
    hphrase "body" [["ml"], ["is"]] (Or.inr fun term => by simp) 0⟩
  unfold GraphPhraseQuery.Phrasal
  decide

end Laurus
