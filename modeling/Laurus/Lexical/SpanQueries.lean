import Laurus.Common.Cover
import Laurus.Lexical.GraphPhrase
import Laurus.Lexical.Helpers.Span

/-!
# Span queries mean what their positions say, but for positions taken twice

The gap of a near query sums the lengths of its spans and ends with the span
that starts last. Positions that two spans cover, and a span that goes on
after the last one, hide as many positions that none covers
(`near_span_isSome_iff`). So the phrase of spans also matches where two of
its terms take one position (`mem_span_docs_phrase`).
-/

namespace Laurus

open Cover

variable {reader : PostingsReader} {field : String} {doc slop : ℕ} {in_order : Bool}

namespace Span

/-- The positions from the first start to the last end that no span covers. -/
def uncovered_by (spans : List Span) : ℕ := uncovered Span.start Span.stop spans

/-- How often a position is covered again. -/
def doubled (spans : List Span) : ℕ := covered_again Span.start Span.stop spans

/-- How far the last end is beyond that of the span that starts last. -/
def beyond_last (spans : List Span) : ℕ := overhang Span.start Span.stop spans

end Span

open Span

/-! ## Near -/

/-- The choice is in order when it must be, and leaves at most `slop`
positions uncovered. -/
def Near (slop : ℕ) (in_order : Bool) (spans : List Span) : Prop :=
  spans ≠ [] ∧ (in_order → spans.Pairwise fun a b => a.start ≤ b.start) ∧
    uncovered_by spans ≤ slop

/-- What is hidden does not make up for what is uncovered beyond `slop`, or
the choice is out of order anyway. -/
def NearAgrees (slop : ℕ) (in_order : Bool) (spans : List Span) : Prop :=
  (in_order → spans.Pairwise fun a b => a.start ≤ b.start) → slop < uncovered_by spans →
    slop + doubled spans + beyond_last spans < uncovered_by spans

theorem in_order_iff (spans : List Span) :
    (spans.zip spans.tail).any (fun pair => decide (pair.2.start < pair.1.start)) = false ↔
      spans.Pairwise fun a b => a.start ≤ b.start := by
  induction spans with
  | nil => exact iff_of_true rfl List.Pairwise.nil
  | cons a spans ih =>
      rcases spans with _ | ⟨b, spans⟩
      · simp
      grind

variable {spans choice : List Span} {terms : List String}

theorem starts_last_isSome (h : spans ≠ []) :
    ∃ last, starts_last Span.start spans = some last := by
  rcases hlast : starts_last Span.start spans with _ | last
  · rw [starts_last, List.argmax_eq_none, List.reverse_eq_nil_iff] at hlast
    exact absurd hlast h
  · exact ⟨last, rfl⟩

/-- **What the check of proximity checks.** -/
theorem spans_satisfy_proximity_iff
    (hforward : ∀ s ∈ spans, s.start ≤ s.stop) :
    SpanQuery.spans_satisfy_proximity slop in_order spans ↔
      (in_order → spans.Pairwise fun a b => a.start ≤ b.start) ∧
        uncovered_by spans ≤ slop + doubled spans + beyond_last spans := by
  rw [SpanQuery.spans_satisfy_proximity]
  by_cases hshort : spans.length < 2
  · rw [if_pos hshort, uncovered_by, uncovered_of_length_le_one (by omega)]
    refine iff_of_true rfl ⟨fun _ => ?_, Nat.zero_le _⟩
    rcases spans with _ | ⟨s, _ | ⟨t, spans⟩⟩
    · exact List.Pairwise.nil
    · exact List.pairwise_singleton _ s
    · exact absurd hshort (by simp)
  · rw [if_neg hshort]
    have hne : spans ≠ [] := by
      rintro rfl
      exact hshort (by simp)
    obtain ⟨last, hlast⟩ := starts_last_isSome hne
    have hsum : ((spans.insertionSort fun a b => a.start ≤ b.start).map Span.length).sum =
        (spans.map Span.length).sum :=
      ((List.perm_insertionSort _ spans).map Span.length).sum_eq
    have hgap := uncovered_le_iff hforward hlast slop
    by_cases hout : (in_order && (spans.zip spans.tail).any fun pair =>
        decide (pair.2.start < pair.1.start)) = true
    · rw [if_pos hout]
      rw [Bool.and_eq_true] at hout
      refine iff_of_false Bool.false_ne_true fun h => ?_
      rw [(in_order_iff spans).2 (h.1 hout.1)] at hout
      exact Bool.false_ne_true hout.2
    · rw [if_neg hout, decide_eq_true_eq, Span.length]
      dsimp only
      rw [head?_insertionSort, getLast?_insertionSort, hlast, hsum, Option.map_some,
        Option.getD_some]
      have hordered : in_order = true → spans.Pairwise fun a b => a.start ≤ b.start := by
        rintro rfl
        rw [Bool.true_and, Bool.not_eq_true] at hout
        exact (in_order_iff spans).1 hout
      rw [and_iff_right hordered, uncovered_by, doubled, beyond_last, hgap]
      have hlength : (spans.map fun s => s.stop - s.start) = spans.map Span.length := rfl
      rw [hlength]
      omega

theorem combine_spans_isSome (spans : List Span) :
    (SpanQuery.combine_spans spans).isSome ↔ spans ≠ [] := by
  rcases spans with _ | ⟨s, spans⟩
  · exact iff_of_false (by decide) fun h => h rfl
  · exact iff_of_true rfl (List.cons_ne_nil s spans)

theorem near_span_isSome {spans : List Span} (hforward : ∀ s ∈ spans, s.start ≤ s.stop) :
    (SpanQuery.near_span slop in_order spans).isSome ↔
      spans ≠ [] ∧ (in_order → spans.Pairwise fun a b => a.start ≤ b.start) ∧
        uncovered_by spans ≤ slop + doubled spans + beyond_last spans := by
  rw [← spans_satisfy_proximity_iff hforward, ← combine_spans_isSome, SpanQuery.near_span]
  grind

/-- **A choice yields a span as it should** exactly when what is hidden does
not make up for what is uncovered. -/
theorem near_span_agrees (hforward : ∀ s ∈ spans, s.start ≤ s.stop) :
    ((SpanQuery.near_span slop in_order spans).isSome ↔ Near slop in_order spans) ↔
      NearAgrees slop in_order spans := by
  rw [near_span_isSome hforward, Near, NearAgrees]
  constructor
  · intro h hordered hslop
    have hne : spans ≠ [] := by
      rintro rfl
      exact absurd hslop (Nat.not_lt_zero slop)
    grind
  grind

theorem choice_forward (h : IndexedPostings reader) {clauses : List SpanQuery}
    (hchoice : choice ∈ SpanQuery.choices (clauses.map (SpanQuery.get_spans reader doc))) :
    ∀ s ∈ choice, s.start ≤ s.stop := by
  grind [SpanQuery.exists_clause, SpanQuery.span_placed]

/-! ## Phrases of spans -/

/-- A span of one position, but for the last one. -/
def OnePosition (s : Span) : Prop :=
  s.start ≤ 2 ^ 32 - 1 ∧ s.stop = min (s.start + 1) (2 ^ 32 - 1)

/-- One position of each term in the document. -/
def position_choices (reader : PostingsReader) (field : String) (doc : ℕ) (terms : List String) :
    List (List Span) :=
  SpanQuery.choices ((terms.map (SpanQuery.term field)).map (SpanQuery.get_spans reader doc))

/-- Two terms take one position, and that makes up for the positions that no
term takes. -/
def SharesPositions (reader : PostingsReader) (field : String) (doc : ℕ) (terms : List String) :
    Prop :=
  ∃ choice ∈ position_choices reader field doc terms,
    (choice.Pairwise fun a b => a.start ≤ b.start) ∧
      (¬choice.Pairwise fun a b => a.start < b.start) ∧ uncovered_by choice ≤ doubled choice

theorem onePosition_of_mem (h : IndexedPostings reader)
    (hchoice : choice ∈ position_choices reader field doc terms) : ∀ s ∈ choice, OnePosition s := by
  intro s hs
  obtain ⟨clause, hclause, hmem⟩ := SpanQuery.exists_clause hchoice hs
  obtain ⟨term, -, rfl⟩ := List.mem_map.1 hclause
  obtain ⟨p, -, -, pos, -, rfl⟩ := (SpanQuery.mem_get_spans_term h).1 hmem
  exact ⟨min_le_right _ _, rfl⟩

theorem beyond_last_eq_zero (h : ∀ s ∈ spans, OnePosition s) :
    beyond_last spans = 0 := by
  rcases spans with _ | ⟨s, spans⟩
  · rfl
  · obtain ⟨last, hlast⟩ := starts_last_isSome (List.cons_ne_nil s spans)
    have hmem := mem_starts_last hlast
    rw [beyond_last, overhang, hlast, window_stop_eq hmem fun t ht => ?_]
    · exact Nat.sub_self _
    · have hle := le_starts_last hlast ht
      have := (h t ht).2
      have := (h last hmem).2
      omega

theorem eq_range'_of_window {l : List ℕ} {a : ℕ} (h : l.Pairwise (· < ·))
    (hwindow : ∀ x ∈ l, a ≤ x ∧ x < a + l.length) : l = List.range' a l.length := by
  induction l generalizing a with
  | nil => rfl
  | cons x l ih =>
      rw [List.pairwise_cons] at h
      have hx := hwindow x List.mem_cons_self
      have hrest : l = List.range' (a + 1) l.length := by grind
      rcases l with _ | ⟨y, l⟩
      · grind
      grind [List.range'_succ, List.mem_cons_self]

/-- **Positions that ascend fit their window** exactly when they follow one
another. -/
theorem uncovered_le_doubled_iff (hone : ∀ s ∈ spans, OnePosition s)
    (hne : spans ≠ []) (hasc : spans.Pairwise fun a b => a.start < b.start) :
    uncovered_by spans ≤ doubled spans ↔
      ∃ a, spans.map Span.start = List.range' a spans.length := by
  have hforward : ∀ s ∈ spans, s.start ≤ s.stop := fun s hs => by
    obtain ⟨hstart, hstop⟩ := hone s hs
    omega
  obtain ⟨init, last, rfl⟩ := (List.eq_nil_or_concat' spans).resolve_left hne
  have hlast : starts_last Span.start (init ++ [last]) = some last := by
    rw [starts_last_of_pairwise (hasc.imp fun h => h.le), List.getLast?_concat]
  have hlastOne := hone last (List.mem_append_right _ (List.mem_singleton_self last))
  -- every span before the last one is one position long
  have hinit : (init.map fun s => s.stop - s.start) = List.replicate init.length 1 := by
    grind [List.eq_replicate_iff, List.length_map, OnePosition]
  have hsum : ((init ++ [last]).map fun s => s.stop - s.start).sum =
      init.length + (last.stop - last.start) := by
    rw [List.map_append, hinit, List.sum_append]
    simp
  have hgap := uncovered_le_iff hforward hlast 0
  rw [show overhang Span.start Span.stop (init ++ [last]) = 0 from beyond_last_eq_zero hone,
    hsum] at hgap
  rw [uncovered_by, doubled]
  have hstarts : ((init ++ [last]).map Span.start).Pairwise (· < ·) := List.pairwise_map.2 hasc
  constructor
  · intro hle
    refine ⟨window_start Span.start (init ++ [last]), ?_⟩
    have hlen : ((init ++ [last]).map Span.start).length = (init ++ [last]).length :=
      List.length_map Span.start
    rw [← hlen]
    refine eq_range'_of_window hstarts fun x hx => ?_
    obtain ⟨s, hs, rfl⟩ := List.mem_map.1 hx
    have hfirst : window_start Span.start (init ++ [last]) ≤ s.start := window_start_le hs
    grind
  · rintro ⟨a, hrange⟩
    have hwindow : ∀ s ∈ init ++ [last], a ≤ s.start := fun s hs => by
      have hmem : s.start ∈ List.range' a (init ++ [last]).length :=
        hrange ▸ List.mem_map_of_mem hs
      exact (List.mem_range'_1.1 hmem).1
    have hfirst : a ≤ window_start Span.start (init ++ [last]) := le_window_start hne hwindow
    grind

theorem mem_position_choices_cons {term : String} :
    choice ∈ position_choices reader field doc (term :: terms) ↔
      ∃ s ∈ SpanQuery.get_spans reader doc (.term field term),
        ∃ rest ∈ position_choices reader field doc terms, s :: rest = choice := by
  rw [position_choices, List.map_cons, List.map_cons, SpanQuery.choices, List.mem_flatMap]
  simp only [List.mem_map]
  rfl

/-- **One position of each term, in turn**, fills a phrase. -/
theorem fills_iff (h : IndexedPostings reader) {start : ℕ} :
    Fills reader field doc (terms.map fun term => [term]) start ↔
      ∃ choice ∈ position_choices reader field doc terms,
        choice.map Span.start = List.range' start terms.length := by
  induction terms generalizing start with
  | nil =>
      refine iff_of_true (fun i ts hi => absurd hi.symm (by simp)) ⟨[], ?_, rfl⟩
      exact List.mem_singleton_self []
  | cons term terms ih =>
      rw [List.map_cons, fills_cons, ih, mem_occurrences, List.length_cons, List.range'_succ]
      constructor
      · rintro ⟨⟨term', hterm, p, hp, hdoc, hpos⟩, rest, hrest, hstarts⟩
        rw [List.mem_singleton.1 hterm, read_postings_eq h] at hp
        have hlt := position_lt h hp hpos
        refine ⟨term_span term start :: rest, mem_position_choices_cons.2
          ⟨_, (SpanQuery.mem_get_spans_term h).2 ⟨p, hp, hdoc, start, hpos, rfl⟩, rest, hrest, rfl⟩,
          ?_⟩
        grind [term_span]
      · rintro ⟨choice, hchoice, hstarts⟩
        obtain ⟨s, hs, rest, hrest, rfl⟩ := mem_position_choices_cons.1 hchoice
        obtain ⟨p, hp, hdoc, pos, hpos, rfl⟩ := (SpanQuery.mem_get_spans_term h).1 hs
        have hlt := position_lt h hp hpos
        rw [List.map_cons, List.cons.injEq, term_span] at hstarts
        have hpos' : pos = start := by grind
        rw [hpos'] at hpos
        exact ⟨⟨term, List.mem_singleton_self term, p, (read_postings_eq h field term).symm ▸ hp,
          hdoc, hpos⟩, rest, hrest, hstarts.2⟩

theorem length_of_mem_position_choices
    (hchoice : choice ∈ position_choices reader field doc terms) :
    choice.length = terms.length := by
  rw [position_choices, SpanQuery.mem_choices] at hchoice
  rw [hchoice.length_eq, List.length_map, List.length_map]

/-- **What a phrase of spans matches**: a phrase, or positions taken twice. -/
theorem mem_span_docs_phrase (h : IndexedPostings reader) :
    doc ∈ SpanMatcher.span_docs (SpanQueryBuilder.phrase field terms) reader ↔
      terms ≠ [] ∧ ((∃ start, Fills reader field doc (terms.map fun term => [term]) start) ∨
        SharesPositions reader field doc terms) := by
  have hspans : doc ∈ SpanMatcher.span_docs (SpanQueryBuilder.phrase field terms) reader ↔
      ∃ choice ∈ position_choices reader field doc terms, choice ≠ [] ∧
        (choice.Pairwise fun a b => a.start ≤ b.start) ∧
          uncovered_by choice ≤ doubled choice := by
    rw [SpanMatcher.mem_span_docs h, SpanQueryBuilder.phrase, SpanQuery.get_spans_near,
      SpanQuery.get_clause_spans_eq]
    constructor
    · intro hne
      obtain ⟨span, hspan⟩ := List.exists_mem_of_ne_nil _ hne
      obtain ⟨choice, hchoice, hnear⟩ := List.mem_filterMap.1 hspan
      have hsome := (near_span_isSome (choice_forward h hchoice)).1
        (Option.isSome_of_eq_some hnear)
      have hone := onePosition_of_mem h hchoice
      rw [beyond_last_eq_zero hone] at hsome
      exact ⟨choice, hchoice, hsome.1, hsome.2.1 rfl, by omega⟩
    · rintro ⟨choice, hchoice, hne, hordered, hgap⟩
      obtain ⟨span, hspan⟩ := Option.isSome_iff_exists.1
        ((@near_span_isSome 0 true _ (choice_forward h hchoice)).2
          ⟨hne, fun _ => hordered, by omega⟩)
      exact List.ne_nil_of_mem (List.mem_filterMap.2 ⟨choice, hchoice, hspan⟩)
  rw [hspans]
  constructor
  · rintro ⟨choice, hchoice, hne, hordered, hgap⟩
    have hlen := length_of_mem_position_choices hchoice
    refine ⟨?_, ?_⟩
    · grind
    · by_cases hasc : choice.Pairwise fun a b => a.start < b.start
      · obtain ⟨a, hstarts⟩ :=
          (uncovered_le_doubled_iff (onePosition_of_mem h hchoice) hne hasc).1 hgap
        rw [hlen] at hstarts
        exact Or.inl ⟨a, (fills_iff h).2 ⟨choice, hchoice, hstarts⟩⟩
      · exact Or.inr ⟨choice, hchoice, hordered, hasc, hgap⟩
  · rintro ⟨hne, ⟨start, hfills⟩ | ⟨choice, hchoice, hordered, hnot, hgap⟩⟩
    · obtain ⟨choice, hchoice, hstarts⟩ := (fills_iff h).1 hfills
      have hlen := length_of_mem_position_choices hchoice
      have hne' : choice ≠ [] := by grind
      have hasc : choice.Pairwise fun a b => a.start < b.start := by
        have hrange : (choice.map Span.start).Pairwise (· < ·) :=
          hstarts ▸ List.pairwise_lt_range'
        exact List.pairwise_map.1 hrange
      grind [uncovered_le_doubled_iff, onePosition_of_mem]
    grind

/-- The positions of a single term are stored, and no phrase is matched by
positions taken twice alone. -/
def PhraseAgrees (reader : PostingsReader) (field : String) (doc : ℕ) (terms : List String) :
    Prop :=
  (∀ term, terms = [term] → ∀ p ∈ read_postings reader field term, p.doc_id = doc →
    p.positions ≠ []) ∧
  ((∃ start, Fills reader field doc (terms.map fun term => [term]) start) ∨
    ¬SharesPositions reader field doc terms)

theorem not_sharesPositions_single {term : String} :
    ¬SharesPositions reader field doc [term] := by
  rintro ⟨choice, hchoice, -, hnot, -⟩
  obtain ⟨s, rfl⟩ := List.length_eq_one_iff.1 (length_of_mem_position_choices hchoice)
  exact hnot (List.pairwise_singleton _ s)

/-- **The two phrases match alike** exactly then. -/
theorem phrase_agrees (h : IndexedPostings reader) (terms : List String) :
    (doc ∈ SpanMatcher.span_docs (SpanQueryBuilder.phrase field terms) reader ↔
      ∃ m ∈ PhraseMatcher.find_phrase_matches reader field (terms.map fun term => [term]) 0,
        m.doc_id = doc) ↔ PhraseAgrees reader field doc terms := by
  rw [mem_span_docs_phrase h, PhraseAgrees]
  by_cases hsingle : ∃ term, terms = [term]
  · obtain ⟨term, rfl⟩ := hsingle
    rw [and_iff_right (List.cons_ne_nil term []), or_iff_left not_sharesPositions_single,
      and_iff_left (Or.inr not_sharesPositions_single), List.map_singleton]
    have hfills : (∃ start, Fills reader field doc [[term]] start) ↔
        ∃ p ∈ read_postings reader field term, p.doc_id = doc ∧ p.positions ≠ [] := by
      constructor
      · rintro ⟨start, hstart⟩
        obtain ⟨term', hterm, p, hp, hdoc, hpos⟩ := hstart 0 [term] rfl
        grind
      · rintro ⟨p, hp, hdoc, hne⟩
        obtain ⟨pos, hpos⟩ := List.exists_mem_of_ne_nil _ hne
        refine ⟨pos, fills_cons.2 ⟨mem_occurrences.2
          ⟨term, List.mem_singleton_self term, p, hp, hdoc, hpos⟩, fun i ts hi => ?_⟩⟩
        exact absurd hi.symm (by simp)
    have hmatch : (∃ m ∈ PhraseMatcher.find_phrase_matches reader field [[term]] 0,
        m.doc_id = doc) ↔ ∃ p ∈ read_postings reader field term, p.doc_id = doc := by
      simp [mem_find_single_term_matches]
    rw [hfills, hmatch]
    constructor
    · intro hiff term' hterm p hp hdoc
      obtain rfl : term = term' := (List.cons.inj hterm).1
      obtain ⟨p', hp', hdoc', hne⟩ := hiff.2 ⟨p, hp, hdoc⟩
      rw [read_postings_eq h] at hp hp'
      -- a term has one posting of a document
      rwa [posting_unique h hp hp' (hdoc.trans hdoc'.symm)]
    grind
  · have hplaces : ∀ term, (terms.map fun term => [term]) ≠ [[term]] := by
      grind [List.map_eq_cons_iff, List.map_eq_nil_iff]
    have hvacuous : ∀ term, terms = [term] → ∀ p ∈ read_postings reader field term,
        p.doc_id = doc → p.positions ≠ [] := fun term heq => absurd ⟨term, heq⟩ hsingle
    rw [phrase_zero_iff (Or.inr hplaces), and_iff_right hvacuous, ne_eq, ne_eq, List.map_eq_nil_iff]
    constructor
    · intro hiff
      by_contra hnot
      rw [not_or, not_not] at hnot
      have hne : terms ≠ [] := by
        rintro rfl
        exact hnot.1 ⟨0, fun i ts hi => absurd hi.symm (by simp)⟩
      grind
    grind

/-! ## Every span query -/

/-- A `SpanMatcher` is a cursor over the documents that have a span: whatever
forward calls came before, it stands on the first one from its position on,
and a drain lists the rest in ascending order. -/
structure VisitsSpans (reader : PostingsReader) (q : SpanQuery) : Prop where
  candidates : ∀ doc, q.get_spans reader doc ≠ [] → doc ∈ q.candidate_doc_ids reader
  documents : ∀ doc, doc ∈ SpanMatcher.span_docs q reader ↔ q.get_spans reader doc ≠ []
  visits : ∀ calls p, Onward END (SpanMatcher.span_docs q reader) 0 calls p →
    ∃ m, runCalls SpanMatcher.ops.next SpanMatcher.ops.skip_to (SpanMatcher.new q reader) calls =
        some m ∧
      m.doc_id = first END (upFrom (SpanMatcher.span_docs q reader) p) ∧
      drain_matcher SpanMatcher.ops (2 ^ 64) m =
        some ((upFrom (SpanMatcher.span_docs q reader) p).sort (· ≤ ·))

theorem visitsSpans (h : IndexedPostings reader) (q : SpanQuery) : VisitsSpans reader q := by
  refine ⟨fun doc => SpanQuery.mem_candidate_doc_ids h q, fun doc => SpanMatcher.mem_span_docs h q,
    fun calls p hcalls => ?_⟩
  obtain ⟨hgood, hrem⟩ := SpanMatcher.good_new h q
  have hstart : SpanMatcher.view.rem (SpanMatcher.new q reader) =
      upFrom (SpanMatcher.span_docs q reader) 0 :=
    hrem.trans (Finset.filter_true_of_mem fun d _ => Nat.zero_le d).symm
  obtain ⟨m, hrun, hinv, hrem', -⟩ := SpanMatcher.view.run_spec hcalls hgood hstart (Nat.zero_le _)
  refine ⟨m, hrun, ?_, ?_⟩
  · rw [← hrem']
    exact SpanMatcher.view.head_eq hinv
  grind [drain_matcher_spec, card_rem_lt]

/-- In a document, a near query yields a span for the choices it should, and
a phrase of spans matches as the phrase does. -/
structure MeansPositions (reader : PostingsReader) (clauses : List SpanQuery) (slop : ℕ)
    (in_order : Bool) (field : String) (terms : List String) (doc : ℕ) : Prop where
  near : ∀ choice ∈ SpanQuery.choices (clauses.map (SpanQuery.get_spans reader doc)),
    (SpanQuery.near_span slop in_order choice).isSome ↔ Near slop in_order choice
  phrase : doc ∈ SpanMatcher.span_docs (SpanQueryBuilder.phrase field terms) reader ↔
    ∃ m ∈ PhraseMatcher.find_phrase_matches reader field (terms.map fun term => [term]) 0,
      m.doc_id = doc

/-- **Span queries mean what their positions say** exactly where no positions
covered again, and no span that goes on after the last one, make up for
positions that are not covered. -/
theorem span_queries_iff (h : IndexedPostings reader) :
    (∀ q, VisitsSpans reader q) ∧
    ∀ field clauses slop in_order doc,
      SpanQuery.get_spans reader doc (.near field clauses slop in_order) =
        (SpanQuery.choices (clauses.map (SpanQuery.get_spans reader doc))).filterMap
          (SpanQuery.near_span slop in_order) ∧
      ∀ terms, MeansPositions reader clauses slop in_order field terms doc ↔
        (∀ choice ∈ SpanQuery.choices (clauses.map (SpanQuery.get_spans reader doc)),
          NearAgrees slop in_order choice) ∧
        PhraseAgrees reader field doc terms := by
  refine ⟨visitsSpans h, fun field clauses slop in_order doc => ⟨?_, fun terms => ?_⟩⟩
  · rw [SpanQuery.get_spans_near, SpanQuery.get_clause_spans_eq]
  · rw [← phrase_agrees h]
    constructor
    · intro hmeans
      exact ⟨fun choice hchoice =>
        (near_span_agrees (choice_forward h hchoice)).1 (hmeans.near choice hchoice), hmeans.phrase⟩
    · rintro ⟨hnear, hphrase⟩
      exact ⟨fun choice hchoice =>
        (near_span_agrees (choice_forward h hchoice)).2 (hnear choice hchoice), hphrase⟩

/-- "wall", its synonym "fence" stacked on it, and "red" two positions on. -/
def stacked : PostingsReader := fun _ term =>
  if term = "wall" ∨ term = "fence" then some [⟨0, 1, [0]⟩]
  else if term = "red" then some [⟨0, 1, [2]⟩]
  else none

theorem indexed_stacked : IndexedPostings stacked := by
  have hmem : ∀ field term postings, stacked field term = some postings →
      postings = [⟨0, 1, [0]⟩] ∨ postings = [⟨0, 1, [2]⟩] := by
    intro field term postings h
    rw [stacked] at h
    grind
  refine ⟨fun field term postings h => ?_, fun field term postings h => ?_,
    fun field term postings h => ?_⟩
  · grind
  · rcases hmem field term postings h with rfl | rfl
    · decide
    · decide
  grind

/-- A phrase of "wall" twice matches the one "wall", and the three words match
without slop though the position between "wall" and "red" is no word's. -/
theorem span_queries_counterexample :
    IndexedPostings stacked ∧
    (0 ∈ SpanMatcher.span_docs (SpanQueryBuilder.phrase "body" ["wall", "wall"]) stacked ∧
      ¬∃ m ∈ PhraseMatcher.find_phrase_matches stacked "body" [["wall"], ["wall"]] 0,
        m.doc_id = 0) ∧
    ∃ choice ∈ SpanQuery.choices ([.term "body" "wall", .term "body" "fence",
        .term "body" "red"].map (SpanQuery.get_spans stacked 0)),
      (SpanQuery.near_span 0 true choice).isSome ∧ uncovered_by choice = 1 ∧
        ¬Near 0 true choice := by
  refine ⟨indexed_stacked, ⟨by decide +kernel, by decide +kernel⟩,
    [⟨0, 1, "wall"⟩, ⟨0, 1, "fence"⟩, ⟨2, 3, "red"⟩], by decide +kernel, by decide +kernel,
    by decide +kernel, fun h => ?_⟩
  exact absurd h.2.2 (by decide +kernel)

/-- "wall" near "red" means what its positions say, and so does their phrase. -/
theorem span_queries_wall_red :
    VisitsSpans stacked (SpanQueryBuilder.phrase "body" ["wall", "red"]) ∧
      MeansPositions stacked [.term "body" "wall", .term "body" "red"] 1 true "body"
        ["wall", "red"] 0 := by
  obtain ⟨hvisits, hmeans⟩ := span_queries_iff indexed_stacked
  refine ⟨hvisits _, (hmeans "body" _ 1 true 0).2 ["wall", "red"] |>.2 ⟨?_, ?_, Or.inr ?_⟩⟩
  · unfold NearAgrees
    decide +kernel
  · exact fun term hterm => absurd (congrArg List.length hterm) (by simp)
  · unfold SharesPositions
    decide +kernel

end Laurus
