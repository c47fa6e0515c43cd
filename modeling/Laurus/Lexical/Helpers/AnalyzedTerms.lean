import Laurus.Analysis.Helpers.Layout
import Laurus.Lexical.Helpers.Phrase
import Laurus.Lexical.Model.PhraseGraph

/-!
# The terms of a text, and what a phrase finds of them

The terms of a text are in the order of their positions, and no term has one twice
(`sorted_terms`, `nodup_terms`). A field holds a document when its postings of the document
are those of the document's terms; a phrase then sees the positions of the terms
(`HoldsTerms.mem_occurrences`).
-/

namespace Laurus

namespace TermCollector

/-- What the loop keeps: the terms from the start on are those at the current position. -/
structure Sound (collector : TermCollector) : Prop where
  empty : collector.current = none →
    collector.analyzed_terms = [] ∧ collector.current_position_start = 0
  bound : ∀ c, collector.current = some c → c ≤ MAX_POSITION
  last : ∀ c, collector.current = some c →
    collector.analyzed_terms.getLast?.map AnalyzedTerm.position = some c
  before : ∀ c, collector.current = some c →
    ∀ t ∈ collector.analyzed_terms.take collector.current_position_start, t.position < c
  here : ∀ c, collector.current = some c →
    ∀ t ∈ collector.analyzed_terms.drop collector.current_position_start, t.position = c
  sorted : collector.analyzed_terms.Pairwise fun s t => s.position ≤ t.position
  nodup : (collector.analyzed_terms.map fun t => (t.term, t.position)).Nodup

theorem Sound.start : start.Sound where
  empty _ := ⟨rfl, rfl⟩
  bound _ h := absurd h.symm (Option.some_ne_none _)
  last _ h := absurd h.symm (Option.some_ne_none _)
  before _ h := absurd h.symm (Option.some_ne_none _)
  here _ h := absurd h.symm (Option.some_ne_none _)
  sorted := List.Pairwise.nil
  nodup := List.nodup_nil

variable {collector : TermCollector}

theorem Sound.le (h : collector.Sound) {c : ℕ} (hc : collector.current = some c) :
    ∀ t ∈ collector.analyzed_terms, t.position ≤ c := by
  intro t ht
  rw [← List.take_append_drop collector.current_position_start collector.analyzed_terms,
    List.mem_append] at ht
  rcases ht with ht | ht
  · exact (h.before c hc t ht).le
  · exact (h.here c hc t ht).le

/-- A term is added after the others, none of which is the same at its position. -/
theorem Sound.push (h : collector.Sound) {t : AnalyzedTerm}
    (hle : ∀ s ∈ collector.analyzed_terms, s.position ≤ t.position)
    (hnew : ∀ s ∈ collector.analyzed_terms, s.position = t.position → s.term ≠ t.term) :
    ((collector.analyzed_terms ++ [t]).Pairwise fun s t => s.position ≤ t.position) ∧
    ((collector.analyzed_terms ++ [t]).map fun t => (t.term, t.position)).Nodup := by
  grind [sorted, nodup]

theorem Sound.step_here (h : collector.Sound) {token : Token} {c : ℕ}
    (hc : collector.current = some c) (hassign : assign collector.current token = c) :
    (collector.step token).Sound := by
  have hlast : (collector.analyzed_terms.getLast?.any fun last => last.position ≠ c) = false := by
    have hlast := h.last c hc
    grind
  rw [step, hassign]
  simp only [hlast, Bool.false_eq_true, if_false]
  split
  · exact ⟨fun hnone => absurd hnone (Option.some_ne_none _),
      fun _ heq => Option.some.inj heq ▸ h.bound c hc,
      fun _ heq => Option.some.inj heq ▸ h.last c hc,
      fun _ heq => Option.some.inj heq ▸ h.before c hc,
      fun _ heq => Option.some.inj heq ▸ h.here c hc, h.sorted, h.nodup⟩
  · rename_i hfresh
    have hstart : collector.current_position_start ≤ collector.analyzed_terms.length := by
      -- otherwise the last term would be before the current position
      by_contra hgt
      obtain ⟨last, hsome, hposition⟩ := Option.map_eq_some_iff.1 (h.last c hc)
      have hlt := h.before c hc last (by
        rw [List.take_of_length_le (by omega)]
        exact List.mem_of_getLast? hsome)
      omega
    obtain ⟨hsorted, hnodup⟩ := h.push (t := ⟨token.text, c,
        collector.term_frequencies token.text + 1, (token.start_offset, token.end_offset)⟩)
      (h.le hc) fun s hs hposition hterm => hfresh (by
        rw [← List.take_append_drop collector.current_position_start collector.analyzed_terms,
          List.mem_append] at hs
        rcases hs with hs | hs
        · have hlt := h.before c hc s hs
          exact absurd hposition (Nat.ne_of_lt hlt)
        grind)
    refine ⟨fun hnone => absurd hnone (Option.some_ne_none _),
      fun _ heq => Option.some.inj heq ▸ h.bound c hc, fun _ heq => ?_, fun _ heq => ?_,
      fun _ heq => ?_, hsorted, hnodup⟩
    · grind
    · obtain rfl := Option.some.inj heq
      intro t ht
      rw [List.take_append_of_le_length hstart] at ht
      exact h.before _ hc t ht
    grind [here]

theorem Sound.step_on (h : collector.Sound) {token : Token}
    (hon : ∀ c, collector.current = some c → c < assign collector.current token)
    (hbound : assign collector.current token ≤ MAX_POSITION) :
    (collector.step token).Sound := by
  obtain ⟨p, hp⟩ : ∃ p, p = assign collector.current token := ⟨_, rfl⟩
  have hbelow : ∀ t ∈ collector.analyzed_terms, t.position < p := by
    intro t ht
    rcases hcurrent : collector.current with _ | c
    · rw [(h.empty hcurrent).1] at ht
      exact absurd ht List.not_mem_nil
    · have hle := h.le hcurrent t ht
      have hlt := hon c hcurrent
      omega
  have hstart : (if collector.analyzed_terms.getLast?.any fun last => last.position ≠ p then
      collector.analyzed_terms.length else collector.current_position_start) =
      collector.analyzed_terms.length := by
    rcases hcurrent : collector.current with _ | c
    · grind [empty]
    grind [last]
  rw [step, ← hp]
  simp only [hstart, List.drop_length, List.any_nil, Bool.false_eq_true, if_false]
  obtain ⟨hsorted, hnodup⟩ := h.push (t := ⟨token.text, p,
      collector.term_frequencies token.text + 1, (token.start_offset, token.end_offset)⟩)
    (fun s hs => (hbelow s hs).le) fun s hs hposition => absurd hposition (hbelow s hs).ne
  refine ⟨fun hnone => absurd hnone (Option.some_ne_none _),
    fun _ heq => Option.some.inj heq ▸ hp ▸ hbound, fun _ heq => ?_, fun _ heq => ?_,
    fun _ heq => ?_, hsorted, hnodup⟩
  · grind
  · grind
  grind

theorem Sound.step (h : collector.Sound) (token : Token) : (collector.step token).Sound := by
  rcases hcurrent : collector.current with _ | c
  · refine h.step_on (fun c hc => absurd (hcurrent.symm.trans hc).symm (Option.some_ne_none c)) ?_
    rw [hcurrent, assign]
    exact Nat.zero_le _
  · have hc := h.bound c hcurrent
    have hassign : assign collector.current token = c ∨
        c < assign collector.current token ∧ assign collector.current token ≤ MAX_POSITION := by
      rw [hcurrent, assign, u32_saturating_add]
      grind
    grind [step_here, step_on]

theorem Sound.run (h : collector.Sound) (tokens : List Token) :
    (tokens.foldl TermCollector.step collector).Sound := by
  induction tokens generalizing collector with
  | nil => exact h
  | cons token tokens ih => exact ih (h.step token)

theorem step_cases (collector : TermCollector) (token : Token) :
    (collector.step token).current = some (assign collector.current token) ∧
      ((∃ t ∈ (collector.step token).analyzed_terms.drop
          (collector.step token).current_position_start, t.term = token.text) ∧
        (collector.step token).analyzed_terms = collector.analyzed_terms ∨
      ∃ t, t.term = token.text ∧ t.position = assign collector.current token ∧
        (collector.step token).analyzed_terms = collector.analyzed_terms ++ [t]) := by
  rw [step]
  grind

theorem prefix_run (collector : TermCollector) (tokens : List Token) :
    collector.analyzed_terms <+: (tokens.foldl TermCollector.step collector).analyzed_terms := by
  induction tokens generalizing collector with
  | nil => exact List.prefix_rfl
  | cons token tokens ih =>
      refine List.IsPrefix.trans ?_ (ih (collector.step token))
      grind [step_cases]

/-- A token's text is a term at its position: the one added, or the one there already. -/
theorem Sound.exists_step (h : collector.Sound) (token : Token) :
    ∃ t ∈ (collector.step token).analyzed_terms, t.term = token.text ∧
      t.position = assign collector.current token := by
  grind [step_cases, step, here]

theorem Sound.exists_run (h : collector.Sound) {tokens : List Token} {token : Token} {p : ℕ}
    (hmem : (token, p) ∈ tokens.zip (positions_from collector.current tokens)) :
    ∃ t ∈ (tokens.foldl TermCollector.step collector).analyzed_terms, t.term = token.text ∧
      t.position = p := by
  induction tokens generalizing collector with
  | nil => exact absurd hmem List.not_mem_nil
  | cons first tokens ih =>
      rcases List.mem_cons.1 hmem with heq | hmem
      · obtain ⟨rfl, rfl⟩ := Prod.mk.inj heq
        obtain ⟨t, ht, hterm⟩ := h.exists_step token
        exact ⟨t, (prefix_run _ tokens).subset ht, hterm⟩
      · refine ih (h.step first) ?_
        rw [(step_cases collector first).1]
        exact hmem

end TermCollector

/-- **Every word of the flat graph is a term** at its position. -/
theorem exists_analyzed_term {tokens : List Token} {token : Token} {p : ℕ}
    (h : (token, p) ∈ (flatten_token_graph tokens).zip
      (token_positions (flatten_token_graph tokens))) :
    ∃ t ∈ tokens_to_analyzed_terms tokens, t.term = token.text ∧ t.position = p :=
  TermCollector.Sound.start.exists_run h

/-- **The terms of a text come in the order of their positions.** -/
theorem sorted_terms (tokens : List Token) :
    (tokens_to_analyzed_terms tokens).Pairwise fun s t => s.position ≤ t.position :=
  (TermCollector.Sound.start.run _).sorted

/-- **A term has a position once.** -/
theorem nodup_terms (tokens : List Token) :
    ((tokens_to_analyzed_terms tokens).map fun t => (t.term, t.position)).Nodup :=
  (TermCollector.Sound.start.run _).nodup

theorem terms_bound (tokens : List Token) :
    ∀ t ∈ tokens_to_analyzed_terms tokens, t.position ≤ MAX_POSITION := by
  intro t ht
  have hsound := TermCollector.Sound.start.run (flatten_token_graph tokens)
  rcases hcurrent : ((flatten_token_graph tokens).foldl TermCollector.step
      TermCollector.start).current with _ | c
  · rw [tokens_to_analyzed_terms, (hsound.empty hcurrent).1] at ht
    exact absurd ht List.not_mem_nil
  · exact (hsound.le hcurrent t ht).trans (hsound.bound c hcurrent)

/-! ## What a phrase finds -/

/-- The positions that are stored of a term. -/
def term_positions (store_positions : Bool) (terms : List AnalyzedTerm) (term : String) : List ℕ :=
  if store_positions then (terms.filter fun t => t.term = term).map AnalyzedTerm.position else []

/-- A field's postings of a document are those of its terms. -/
def HoldsTerms (reader : PostingsReader) (field : String) (doc : ℕ) (store_positions : Bool)
    (terms : List AnalyzedTerm) : Prop :=
  ∀ term, (read_postings reader field term).filter (fun p => p.doc_id = doc) =
    (field_posting store_positions doc terms term).toList

/-- A phrase matches a document. -/
def PhraseMatches (reader : PostingsReader) (field : String) (positions : List (List String))
    (slop doc : ℕ) : Prop :=
  ∃ m ∈ PhraseMatcher.find_phrase_matches reader field positions slop, m.doc_id = doc

variable {reader : PostingsReader} {field : String} {doc slop : ℕ} {store_positions : Bool}
  {terms : List AnalyzedTerm}

theorem field_posting_isSome {term : String} :
    (field_posting store_positions doc terms term).isSome = true ↔ ∃ t ∈ terms, t.term = term := by
  rw [field_posting]
  rcases hoccurrences : terms.filter fun t => t.term = term with _ | ⟨t, ts⟩
  · rw [hoccurrences]
    grind [List.filter_eq_nil_iff]
  · have ht : t ∈ terms.filter fun t => t.term = term := by grind
    grind

theorem positions_of_field_posting {term : String} :
    ((field_posting store_positions doc terms term).map TermPosting.positions).getD [] =
      term_positions store_positions terms term := by
  rw [field_posting, term_positions]
  grind

/-- The positions of any of a slot's terms. -/
def slot_positions (store_positions : Bool) (terms : List AnalyzedTerm) (slot : List String) :
    List ℕ := sort_dedup (slot.flatMap (term_positions store_positions terms))

theorem pairwise_slot_positions (slot : List String) :
    (slot_positions store_positions terms slot).Pairwise (· < ·) := pairwise_sort_dedup _

theorem mem_slot_positions {slot : List String} {position : ℕ} :
    position ∈ slot_positions store_positions terms slot ↔ store_positions = true ∧
      ∃ t ∈ terms, t.term ∈ slot ∧ t.position = position := by
  rw [slot_positions, mem_sort_dedup, List.mem_flatMap]
  rcases store_positions with _ | _
  · exact ⟨fun ⟨_, _, h⟩ => absurd h List.not_mem_nil, fun h => absurd h.1 Bool.false_ne_true⟩
  · constructor
    · rintro ⟨term, hterm, hposition⟩
      obtain ⟨t, ht, rfl⟩ := List.mem_map.1 hposition
      grind
    · rintro ⟨-, t, ht, hslot, rfl⟩
      exact ⟨t.term, hslot, List.mem_map_of_mem (List.mem_filter.2 ⟨ht, decide_eq_true rfl⟩)⟩

/-- **What a phrase sees of a document is the positions of its terms.** -/
theorem HoldsTerms.occurrences_eq (h : HoldsTerms reader field doc store_positions terms)
    (slot : List String) :
    occurrences reader field doc slot = slot_positions store_positions terms slot := by
  have hterm : ∀ term, ((read_postings reader field term).filter fun p => p.doc_id = doc).flatMap
      (fun p => p.positions) = term_positions store_positions terms term := by
    intro term
    rw [h term, ← @positions_of_field_posting doc]
    grind [field_posting]
  exact congrArg sort_dedup (List.flatMap_congr fun term _ => hterm term)

/-- **What a phrase matches.** A single term needs no positions. -/
theorem HoldsTerms.matches_iff (h : HoldsTerms reader field doc store_positions terms)
    {positions : List (List String)} : PhraseMatches reader field positions slop doc ↔
      (∃ t ∈ terms, positions = [[t.term]]) ∨ (Places positions ∧
        PhraseMatcher.find_phrase_positions
          (positions.map (slot_positions store_positions terms)) slop ≠ []) := by
  by_cases hplaces : Places positions
  · have hanchors : phrase_anchors reader field positions slop doc =
        PhraseMatcher.find_phrase_positions
          (positions.map (slot_positions store_positions terms)) slop := by
      exact congrArg (fun slots => PhraseMatcher.find_phrase_positions slots slop)
        (List.map_congr_left fun slot _ => h.occurrences_eq slot)
    rw [← hanchors]
    constructor
    · rintro ⟨m, hm, rfl⟩
      exact Or.inr ⟨hplaces, ((mem_find_phrase_matches hplaces).1 hm).1⟩
    · rintro (⟨t, _, hsingle⟩ | ⟨_, hne⟩)
      · exact absurd hsingle (hplaces.2 t.term)
      · exact ⟨⟨doc, (phrase_anchors reader field positions slop doc).length % 2 ^ 32,
          phrase_anchors reader field positions slop doc⟩,
          (mem_find_phrase_matches hplaces).2 ⟨hne, rfl, rfl⟩, rfl⟩
  · have hcases : positions = [] ∨ ∃ term, positions = [[term]] := by
      by_contra hneither
      exact hplaces ⟨fun hnil => hneither (Or.inl hnil),
        fun term hsingle => hneither (Or.inr ⟨term, hsingle⟩)⟩
    rcases hcases with rfl | ⟨term, rfl⟩
    · refine iff_of_false ?_ ?_
      · rintro ⟨m, hm, _⟩
        exact absurd hm List.not_mem_nil
      grind
    · have hposting : PhraseMatches reader field [[term]] slop doc ↔
          (field_posting store_positions doc terms term).isSome = true := by
        have hfilter := h term
        constructor
        · rintro ⟨m, hm, rfl⟩
          obtain ⟨p, hp, rfl⟩ := List.mem_map.1 hm
          have hmem : p ∈ (read_postings reader field term).filter
              fun q => q.doc_id = p.doc_id := List.mem_filter.2 ⟨hp, decide_eq_true rfl⟩
          grind
        · intro hsome
          obtain ⟨p, hp⟩ := Option.isSome_iff_exists.1 hsome
          have hmem : p ∈ (field_posting store_positions doc terms term).toList := by grind
          rw [← hfilter, List.mem_filter] at hmem
          exact ⟨_, List.mem_map_of_mem hmem.1, of_decide_eq_true hmem.2⟩
      grind [field_posting_isSome]

/-- The field `field` of document 0 alone. -/
def one_document (field : String) (store_positions : Bool) (terms : List AnalyzedTerm) :
    PostingsReader := fun name term =>
  if name = field then (field_posting store_positions 0 terms term).map fun p => [p] else none

theorem holds_one_document (field : String) (store_positions : Bool) (terms : List AnalyzedTerm) :
    HoldsTerms (one_document field store_positions terms) field 0 store_positions terms := by
  intro term
  rw [read_postings, one_document, if_pos rfl]
  have hdoc : ∀ p, field_posting store_positions 0 terms term = some p → p.doc_id = 0 := by
    intro p hp
    rw [field_posting] at hp
    grind
  rcases hposting : field_posting store_positions 0 terms term with _ | p
  · rfl
  · have hzero := hdoc p hposting
    have hkept : (decide (p.doc_id ≠ 2 ^ 64 - 1)) = true := by
      rw [hzero]
      decide
    rw [Option.map_some, Option.getD_some, List.takeWhile_cons, if_pos hkept, List.filter_cons,
      if_pos (decide_eq_true hzero)]
    rfl

end Laurus
