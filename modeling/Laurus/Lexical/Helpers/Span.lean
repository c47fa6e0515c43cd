import Laurus.Lexical.Helpers.Phrase
import Laurus.Lexical.Model.Span
import Laurus.Matcher.Helpers.Dispatch
import Mathlib

/-!
# The documents and the spans of a span query

A document that has a span is a candidate (`mem_candidate_doc_ids`), and
candidates ascend, so a `SpanMatcher` is a cursor over the documents that have
one (`SpanMatcher.view`). The spans of a near query are what its choices yield
(`get_spans_near`).
-/

namespace Laurus

variable {reader : PostingsReader} {doc slop : ℕ} {in_order : Bool}

/-- What an index holds of a term: its documents in order, below the sentinel,
and positions that are `u32`. -/
structure IndexedPostings (reader : PostingsReader) : Prop where
  ascending : ∀ field term postings, reader field term = some postings →
    postings.Pairwise fun a b => a.doc_id < b.doc_id
  below : ∀ field term postings, reader field term = some postings →
    ∀ p ∈ postings, p.doc_id < END
  positions : ∀ field term postings, reader field term = some postings →
    ∀ p ∈ postings, ∀ pos ∈ p.positions, pos < 2 ^ 32

theorem read_postings_eq (h : IndexedPostings reader) (field term : String) :
    read_postings reader field term = (reader field term).getD [] := by
  rw [read_postings, List.takeWhile_eq_self_iff]
  intro p hp
  rcases hreader : reader field term with _ | postings
  · grind
  · rw [hreader] at hp
    have := h.below field term postings hreader p hp
    rw [END] at this
    exact decide_eq_true (by omega)

theorem position_lt (h : IndexedPostings reader) {field term : String} {p : TermPosting}
    (hp : p ∈ (reader field term).getD []) {pos : ℕ} (hpos : pos ∈ p.positions) : pos < 2 ^ 32 := by
  rcases hreader : reader field term with _ | postings
  · grind
  · rw [hreader] at hp
    exact h.positions field term postings hreader p hp pos hpos

theorem skip_to_doc_eq_some {postings : List TermPosting} {p : TermPosting}
    (h : postings.Pairwise fun a b => a.doc_id < b.doc_id) :
    skip_to_doc postings doc = some p ↔ p ∈ postings ∧ p.doc_id = doc := by
  induction postings with
  | nil => simp [skip_to_doc]
  | cons first rest ih =>
      rw [List.pairwise_cons] at h
      rw [skip_to_doc]
      by_cases hlt : first.doc_id < doc
      · grind [List.dropWhile_cons_of_pos, skip_to_doc]
      · rw [List.dropWhile_cons_of_neg (by simpa using hlt), List.head?_cons,
          Option.filter_eq_some_iff, decide_eq_true_eq, Option.some.injEq, List.mem_cons]
        constructor
        · grind
        · rintro ⟨rfl | hp, hdoc⟩
          · exact ⟨rfl, hdoc⟩
          · -- the postings after the first are of later documents
            have := h.1 p hp
            omega

theorem posting_unique (h : IndexedPostings reader) {field term : String} {p p' : TermPosting}
    (hp : p ∈ (reader field term).getD []) (hp' : p' ∈ (reader field term).getD [])
    (heq : p.doc_id = p'.doc_id) : p = p' := by
  rcases hreader : reader field term with _ | postings
  · grind
  · rw [hreader] at hp hp'
    have hasc := h.ascending field term postings hreader
    have hfirst := (skip_to_doc_eq_some hasc).2 ⟨hp, heq⟩
    rw [(skip_to_doc_eq_some hasc).2 ⟨hp', rfl⟩] at hfirst
    exact (Option.some.inj hfirst).symm

namespace SpanQuery

variable {field : String} {span : Span} {clauses : List SpanQuery}

/-- **The spans of a term** are its positions in the document. -/
theorem mem_get_spans_term (h : IndexedPostings reader) {term : String} :
    span ∈ get_spans reader doc (.term field term) ↔
      ∃ p ∈ (reader field term).getD [], p.doc_id = doc ∧
        ∃ pos ∈ p.positions, term_span term pos = span := by
  rw [get_spans]
  rcases hreader : reader field term with _ | postings
  · simp
  · have hasc := h.ascending field term postings hreader
    rw [Option.bind_some, Option.getD_some]
    rcases hskip : skip_to_doc postings doc with _ | p
    · refine iff_of_false List.not_mem_nil ?_
      rintro ⟨p, hp, hdoc, -⟩
      rw [(skip_to_doc_eq_some hasc).2 ⟨hp, hdoc⟩] at hskip
      exact absurd hskip (Option.some_ne_none p)
    · rw [Option.map_some, Option.getD_some, List.mem_map]
      constructor
      · grind [skip_to_doc_eq_some]
      · rintro ⟨p', hp', hdoc', hspan⟩
        rw [(skip_to_doc_eq_some hasc).2 ⟨hp', hdoc'⟩, Option.some.injEq] at hskip
        rwa [← hskip]

/-! ## The choices of a near query -/

/-- One span of each clause, the first clause's turning slowest. -/
def choices : List (List Span) → List (List Span)
  | [] => [[]]
  | spans :: clauses => spans.flatMap fun span => (choices clauses).map fun choice => span :: choice

theorem mem_choices {clauses : List (List Span)} {choice : List Span} :
    choice ∈ choices clauses ↔ List.Forall₂ (fun span spans => span ∈ spans) choice clauses := by
  induction clauses generalizing choice with
  | nil => rw [choices, List.mem_singleton, List.forall₂_nil_right_iff]
  | cons spans clauses ih =>
      grind [choices, List.forall₂_cons_right_iff]

/-- **The recursion tries every choice.** -/
theorem find_near_spans_eq (clauses : List (List Span)) (current_spans : List Span) :
    find_near_spans slop in_order clauses current_spans =
      (choices clauses).filterMap fun choice =>
        near_span slop in_order (current_spans ++ choice) := by
  induction clauses generalizing current_spans with
  | nil =>
      rw [find_near_spans, choices, List.filterMap_cons, List.append_nil]
      grind
  | cons spans clauses ih =>
      rw [find_near_spans, choices, List.filterMap_flatMap]
      grind

theorem get_spans_near :
    get_spans reader doc (.near field clauses slop in_order) =
      (choices (get_clause_spans reader doc clauses)).filterMap (near_span slop in_order) := by
  rw [get_spans, find_near_spans_eq]
  rfl

theorem get_clause_spans_eq (clauses : List SpanQuery) :
    get_clause_spans reader doc clauses = clauses.map (get_spans reader doc) := by
  induction clauses with
  | nil => rfl
  | cons clause clauses ih => rw [get_clause_spans, ih, List.map_cons]

theorem get_clause_candidates_eq (clauses : List SpanQuery) :
    get_clause_candidates reader clauses = clauses.map (candidate_doc_ids reader) := by
  induction clauses with
  | nil => rfl
  | cons clause clauses ih => rw [get_clause_candidates, ih, List.map_cons]

theorem near_span_nil : near_span slop in_order [] = none := rfl

theorem exists_span_of_near
    (h : get_spans reader doc (.near field clauses slop in_order) ≠ []) :
    clauses ≠ [] ∧ ∀ clause ∈ clauses, get_spans reader doc clause ≠ [] := by
  obtain ⟨span, hspan⟩ := List.exists_mem_of_ne_nil _ h
  rw [get_spans_near, get_clause_spans_eq] at hspan
  obtain ⟨choice, hchoice, hnear⟩ := List.mem_filterMap.1 hspan
  rw [mem_choices] at hchoice
  constructor
  · grind [List.forall₂_nil_right_iff, near_span_nil]
  · intro clause hclause hnil
    obtain ⟨i, hi, rfl⟩ := List.mem_iff_getElem.1 hclause
    have hlen := hchoice.length_eq
    rw [List.length_map] at hlen
    have hmem := List.Forall₂.get hchoice (i := i) (by omega) (by simpa using hi)
    grind

theorem exists_clause {choice : List Span}
    (hchoice : choice ∈ choices (clauses.map (get_spans reader doc))) (hspan : span ∈ choice) :
    ∃ clause ∈ clauses, span ∈ get_spans reader doc clause := by
  rw [mem_choices, List.forall₂_map_right_iff] at hchoice
  induction hchoice with
  | nil => exact absurd hspan List.not_mem_nil
  | cons hhead _ ih =>
      grind

/-! ## The candidates -/

theorem mem_intersect_candidates {first : List ℕ} {clauses : List (List ℕ)} :
    doc ∈ intersect_candidates (first :: clauses) ↔ doc ∈ first ∧ ∀ ids ∈ clauses, doc ∈ ids := by
  rw [intersect_candidates]
  induction clauses generalizing first with
  | nil => simp
  | cons ids clauses ih =>
      grind

@[elab_as_elim]
theorem tree_induction {P : SpanQuery → Prop} (term : ∀ field word, P (.term field word))
    (near : ∀ field clauses slop in_order, (∀ clause ∈ clauses, P clause) →
      P (.near field clauses slop in_order))
    (containing : ∀ field big little, P big → P little → P (.containing field big little))
    (within : ∀ field included exclude distance, P included → P exclude →
      P (.within field included exclude distance)) (q : SpanQuery) : P q :=
  @SpanQuery.rec P (fun clauses => ∀ clause ∈ clauses, P clause) term
    (fun field clauses slop in_order ih => near field clauses slop in_order ih)
    (fun field big little ihbig ihlittle => containing field big little ihbig ihlittle)
    (fun field included exclude distance ihin ihex =>
      within field included exclude distance ihin ihex)
    (fun _ hclause => absurd hclause List.not_mem_nil)
    (fun _ _ hhead htail => List.forall_mem_cons.2 ⟨hhead, htail⟩) q

/-- **A document that has a span is a candidate.** -/
theorem mem_candidate_doc_ids (h : IndexedPostings reader) (q : SpanQuery)
    (hspan : get_spans reader doc q ≠ []) : doc ∈ candidate_doc_ids reader q := by
  induction q using tree_induction with
  | term field word =>
      obtain ⟨span, hmem⟩ := List.exists_mem_of_ne_nil _ hspan
      obtain ⟨p, hp, rfl, -⟩ := (mem_get_spans_term h).1 hmem
      exact List.mem_map_of_mem hp
  | near field clauses slop in_order ih =>
      obtain ⟨hne, hall⟩ := exists_span_of_near hspan
      obtain ⟨first, rest, rfl⟩ := List.exists_cons_of_ne_nil hne
      rw [candidate_doc_ids, mem_sort_dedup, get_clause_candidates_eq, List.map_cons,
        mem_intersect_candidates]
      grind
  | containing field big little ihbig _ =>
      rw [candidate_doc_ids, mem_sort_dedup, List.mem_append]
      rw [get_spans] at hspan
      grind
  | within field included exclude distance ihin _ =>
      rw [candidate_doc_ids, mem_sort_dedup, List.mem_append]
      rw [get_spans] at hspan
      grind

/-- **Candidates ascend.** -/
theorem pairwise_candidate_doc_ids (h : IndexedPostings reader) (q : SpanQuery) :
    (candidate_doc_ids reader q).Pairwise (· < ·) := by
  rcases q with ⟨field, word⟩ | ⟨field, clauses, slop, in_order⟩ | ⟨field, big, little⟩ |
    ⟨field, included, exclude, distance⟩
  · rw [candidate_doc_ids]
    rcases hreader : reader field word with _ | postings
    · exact List.Pairwise.nil
    · exact List.pairwise_map.2 (h.ascending field word postings hreader)
  · exact pairwise_sort_dedup _
  · exact pairwise_sort_dedup _
  · exact pairwise_sort_dedup _

theorem candidate_lt_end (h : IndexedPostings reader) (q : SpanQuery)
    (hdoc : doc ∈ candidate_doc_ids reader q) : doc < END := by
  induction q using tree_induction with
  | term field word =>
      rw [candidate_doc_ids, List.mem_map] at hdoc
      obtain ⟨p, hp, rfl⟩ := hdoc
      rcases hreader : reader field word with _ | postings
      · grind
      · rw [hreader] at hp
        exact h.below field word postings hreader p hp
  | near field clauses slop in_order ih =>
      rw [candidate_doc_ids, mem_sort_dedup, get_clause_candidates_eq] at hdoc
      rcases clauses with _ | ⟨first, rest⟩
      · exact absurd hdoc List.not_mem_nil
      · rw [List.map_cons, mem_intersect_candidates] at hdoc
        exact ih first List.mem_cons_self hdoc.1
  | containing field big little ihbig ihlittle =>
      grind [candidate_doc_ids, mem_sort_dedup]
  | within field included exclude distance ihin ihex =>
      rw [candidate_doc_ids, mem_sort_dedup, List.mem_append] at hdoc
      exact hdoc.elim ihin ihex

/-! ## Where spans lie -/

theorem combine_spans_eq_some {spans : List Span}
    (h : combine_spans spans = some span) :
    (∃ s ∈ spans, s.start = span.start) ∧ (∀ s ∈ spans, span.start ≤ s.start) ∧
      (∃ s ∈ spans, s.stop = span.stop) ∧ ∀ s ∈ spans, s.stop ≤ span.stop := by
  obtain ⟨start, hstart, hrest⟩ := Option.bind_eq_some_iff.1 h
  grind [Option.map_eq_some_iff, List.min?_eq_some_iff, List.max?_eq_some_iff]

/-- **Spans run forward, in `u32`.** -/
theorem span_placed (h : IndexedPostings reader) (q : SpanQuery) :
    ∀ span ∈ get_spans reader doc q, span.start ≤ span.stop ∧ span.stop < 2 ^ 32 := by
  induction q using tree_induction with
  | term field word =>
      grind [mem_get_spans_term, term_span]
  | near field clauses slop in_order ih =>
      intro span hspan
      rw [get_spans_near, get_clause_spans_eq] at hspan
      grind [exists_clause, near_span, combine_spans_eq_some]
  | containing field big little ihbig _ =>
      intro span hspan
      rw [get_spans] at hspan
      grind
  | within field included exclude distance ihin _ =>
      intro span hspan
      rw [get_spans] at hspan
      grind

end SpanQuery

/-! ## The matcher -/

namespace SpanMatcher

variable {m : SpanMatcher}

/-- The calls on a `SpanMatcher`. -/
def ops : MatcherOps SpanMatcher where
  doc_id := SpanMatcher.doc_id
  is_exhausted := SpanMatcher.is_exhausted
  next m := some m.next
  skip_to m target := some (m.skip_to target)

/-- The states a `SpanMatcher` over documents below the end reaches. -/
structure Good (m : SpanMatcher) : Prop where
  ascending : m.doc_matches.Pairwise (· < ·)
  below : ∀ d ∈ m.doc_matches, d < END
  current : m.current_index < m.doc_matches.length →
    m.current_doc_id = m.doc_matches.getD m.current_index END

/-- The documents from the index on. -/
def docs (m : SpanMatcher) : List ℕ := m.doc_matches.drop m.current_index

theorem Good.pairwise_docs (h : m.Good) : m.docs.Pairwise (· < ·) :=
  List.Pairwise.sublist (List.drop_sublist _ _) h.ascending

theorem docs_eq_nil_iff : m.docs = [] ↔ m.doc_matches.length ≤ m.current_index :=
  List.drop_eq_nil_iff

theorem docs_eq_cons (h : m.Good) (hlt : m.current_index < m.doc_matches.length) :
    m.docs = m.doc_id :: m.doc_matches.drop (m.current_index + 1) := by
  rw [docs, List.drop_eq_getElem_cons hlt, doc_id, if_neg (by omega), h.current hlt,
    List.getD_eq_getElem?_getD, List.getElem?_eq_getElem hlt, Option.getD_some]

theorem settle_spec (h : m.Good) (index : ℕ) :
    ∃ b s', settle { m with current_index := index } = (b, s') ∧ s'.Good ∧
      s'.docs = m.doc_matches.drop index ∧ (b = true ↔ s'.docs ≠ []) := by
  rw [settle]
  dsimp only
  by_cases hle : m.doc_matches.length ≤ index
  · rw [if_pos hle]
    refine ⟨_, _, rfl, ⟨h.ascending, h.below, fun hlt => absurd hlt (by simpa using hle)⟩, rfl, ?_⟩
    simpa [docs] using hle
  · rw [if_neg hle]
    refine ⟨_, _, rfl, ⟨h.ascending, h.below, fun _ => rfl⟩, rfl, ?_⟩
    simpa [docs] using hle

theorem drop_takeWhile {docs : List ℕ} (h : docs.Pairwise (· < ·)) (target : ℕ) :
    docs.drop (docs.takeWhile fun d => d < target).length = docs.filter fun d => target ≤ d := by
  induction docs with
  | nil => rfl
  | cons d docs ih =>
      rw [List.pairwise_cons] at h
      by_cases hlt : d < target
      · grind [List.takeWhile_cons_of_pos]
      · rw [List.takeWhile_cons_of_neg (by simpa using hlt), List.length_nil, List.drop_zero,
          eq_comm, List.filter_eq_self]
        grind

/-- **`SpanMatcher` enumerates what is left of its documents.** -/
def view : MatcherView ops where
  Inv := Good
  rem m := m.docs.toFinset
  low _ := 0
  lt_top := fun h hd => h.below _ (List.mem_of_mem_drop (List.mem_toFinset.1 hd))
  low_le := fun _ _ => Nat.zero_le _
  head_eq := by
    intro m h
    dsimp only [ops]
    by_cases hlt : m.current_index < m.doc_matches.length
    · grind [Good.pairwise_docs, docs_eq_cons, first_toFinset_cons]
    · rw [docs_eq_nil_iff.2 (by omega), List.toFinset_nil, first_empty, doc_id, if_pos (by omega)]
  ended_iff := by
    intro m h
    dsimp only [ops]
    rw [is_exhausted, decide_eq_true_eq, List.toFinset_eq_empty_iff, docs_eq_nil_iff]
  next_spec := by
    intro m h
    obtain ⟨b, s', hsettle, hgood, hdocs, hb⟩ := settle_spec h (m.current_index + 1)
    refine ⟨b, s', congrArg some hsettle, hgood, ?_, ?_, fun _ => Nat.zero_le _, fun _ => le_rfl⟩
    · by_cases hlt : m.current_index < m.doc_matches.length
      · have hasc := h.pairwise_docs
        rw [docs_eq_cons h hlt] at hasc
        rw [hdocs, docs_eq_cons h hlt]
        exact (filter_toFinset_cons hasc).symm
      · rw [hdocs, docs_eq_nil_iff.2 (by omega), List.drop_of_length_le (by omega)]
        rfl
    · rw [List.toFinset_nonempty_iff]
      exact hb
  skip_spec := by
    intro m t h _
    obtain ⟨b, s', hsettle, hgood, hdocs, hb⟩ :=
      settle_spec h (m.current_index + (m.docs.takeWhile fun d => d < t).length)
    refine ⟨b, s', congrArg some hsettle, hgood, ?_, ?_, Nat.zero_le _⟩
    · rw [hdocs, ← List.drop_drop, ← docs, drop_takeWhile h.pairwise_docs, filter_toFinset]
    · rw [List.toFinset_nonempty_iff]
      exact hb

/-- The documents that have a span. -/
def span_docs (q : SpanQuery) (reader : PostingsReader) : Finset ℕ :=
  (SpanMatcher.new q reader).doc_matches.toFinset

theorem mem_span_docs (h : IndexedPostings reader) (q : SpanQuery) :
    doc ∈ span_docs q reader ↔ q.get_spans reader doc ≠ [] := by
  grind [span_docs, List.mem_toFinset, new, SpanQuery.mem_candidate_doc_ids]

theorem good_new (h : IndexedPostings reader) (q : SpanQuery) :
    (SpanMatcher.new q reader).Good ∧ view.rem (SpanMatcher.new q reader) = span_docs q reader := by
  refine ⟨⟨?_, fun d hd => ?_, fun _ => ?_⟩, rfl⟩
  · exact (SpanQuery.pairwise_candidate_doc_ids h q).filter _
  · exact SpanQuery.candidate_lt_end h q (List.mem_of_mem_filter hd)
  · rw [SpanMatcher.new]
    dsimp only
    rw [List.getD_eq_getElem?_getD, List.head?_eq_getElem?]

end SpanMatcher

end Laurus
