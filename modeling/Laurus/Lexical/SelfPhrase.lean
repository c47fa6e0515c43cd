import Laurus.Lexical.Helpers.PhraseClauses
import Laurus.Lexical.Helpers.PhraseGraph
import Laurus.Lexical.Helpers.QueryParser

/-!
# A text and its own quoted phrase

A document is indexed at the flat positions of its tokens, and the query of the same
tokens keeps the arcs on complete paths. A path each of whose words starts at as many steps as
there are words before it is filled in turn (`fills_of_level`), so the document matches
(`hits_phrase`); and the clauses of the query have the words of the complete paths
(`asks_phrase_iff`).
-/

namespace Laurus

open ArcPath Depth

variable {DateTime : Type} {reader : PostingsReader} {field : String} {doc slop : ℕ}
  {boost : UInt32} {tokens : List Token} {words : List String}

/-! ## The words of a document -/

/-- No way to where a word of the path starts is longer than the path's. -/
def Level (tokens : List Token) (path : List WordArc) : Prop :=
  ∀ before a after, path = before ++ a :: after →
    IsGreatest {steps | Comes (ArcStep (token_arcs tokens)) steps (WordArc.source a)} before.length

theorem HoldsTerms.exists_posting {terms : List AnalyzedTerm}
    (h : HoldsTerms reader field doc true terms) {t : AnalyzedTerm} (ht : t ∈ terms) :
    ∃ p ∈ read_postings reader field t.term, p.doc_id = doc ∧ t.position ∈ p.positions := by
  have hmem : t.position ∈ occurrences reader field doc [t.term] := by
    rw [h.occurrences_eq]
    exact mem_slot_positions.2 ⟨rfl, t, ht, List.mem_singleton_self _, rfl⟩
  grind [mem_occurrences]

theorem HoldsTerms.exists_flat_posting
    (h : HoldsTerms reader field doc true (tokens_to_analyzed_terms tokens)) {token : Token} {n : ℕ}
    (hmem : (token, n) ∈ (flatten_token_graph tokens).zip
      (token_positions (flatten_token_graph tokens))) :
    ∃ p ∈ read_postings reader field token.text, p.doc_id = doc ∧ n ∈ p.positions := by
  grind [exists_analyzed_term, exists_posting]

theorem fills_groups (h : HoldsTerms reader field doc true (tokens_to_analyzed_terms tokens)) :
    Fills reader field doc (group_tokens_by_position tokens) 0 := by
  intro i g hg
  obtain ⟨text, htext, token, rfl, hmem⟩ := filled_groups hg
  rw [Nat.zero_add]
  exact ⟨token.text, htext, h.exists_flat_posting hmem⟩

theorem depth_add_length_le (horder : InOrder (token_arcs tokens)) {m n : ℕ} {path : List WordArc}
    (hpath : PathOf WordArc.source WordArc.target (word_arcs tokens) m path n) :
    depth (ArcStep (token_arcs tokens)) m + path.length ≤
      depth (ArcStep (token_arcs tokens)) n := by
  obtain ⟨hpath, hsub⟩ := hpath
  induction path generalizing m with
  | nil => exact Nat.le_of_eq (congrArg (depth (ArcStep (token_arcs tokens))) hpath)
  | cons a path ih =>
      rw [List.forall_mem_cons] at hsub
      obtain ⟨rfl, hrest⟩ := hpath
      have harc : a.2 ∈ token_arcs tokens := (List.of_mem_zip hsub.1).2
      have hlt := depth_lt horder.forward_step (horder.reached_from harc) (Or.inl harc)
      have hle := ih hrest hsub.2
      rw [List.length_cons]
      have hlt' : depth (ArcStep (token_arcs tokens)) a.source <
        depth (ArcStep (token_arcs tokens)) a.target := hlt
      omega

/-- **A level path is filled in turn.** -/
theorem fills_of_level (horder : InOrder (token_arcs tokens))
    (h : HoldsTerms reader field doc true (tokens_to_analyzed_terms tokens)) {n : ℕ}
    {path : List WordArc} {positions : List (List String)}
    (hsub : ∀ a ∈ path, a ∈ word_arcs tokens)
    (hlevel : ∀ before a after, path = before ++ a :: after →
      depth (ArcStep (token_arcs tokens)) a.source = n + before.length)
    (hwords : List.Forall₂ (· ∈ ·) (spelling path) positions) :
    Fills reader field doc positions n := by
  induction path generalizing n positions with
  | nil =>
      rw [List.forall₂_nil_left_iff.1 hwords]
      exact fun i terms hi => absurd hi.symm (by simp)
  | cons a path ih =>
      obtain ⟨terms, rest, hword, hchoice, rfl⟩ := List.forall₂_cons_left_iff.1 hwords
      rw [List.forall_mem_cons] at hsub
      refine fills_cons.2 ⟨?_, ih hsub.2 (fun before b after heq => ?_) hchoice⟩
      · have hdepth : depth (ArcStep (token_arcs tokens)) a.source = n := hlevel [] a path rfl
        grind [exists_flat_token, HoldsTerms.exists_flat_posting, mem_occurrences]
      grind

theorem exists_graph_end (hne : tokens ≠ []) : ∃ a ∈ token_arcs tokens, a.2 = graph_end tokens := by
  rcases hmax : ((token_arcs tokens).map Prod.snd).max? with _ | n
  · have hlength := congrArg List.length (List.max?_eq_none_iff.1 hmax)
    rw [List.length_map, length_token_arcs] at hlength
    grind
  · rw [graph_end, hmax]
    exact List.mem_map.1 (List.max?_eq_some_iff.1 hmax).1

/-- Where every word starts at the first node or where another stops, a longest path is level. -/
theorem exists_level (horder : InOrder (token_arcs tokens)) (hne : tokens ≠ [])
    (hreached : ∀ a ∈ word_arcs tokens, a.source = 0 ∨ ∃ b ∈ word_arcs tokens,
      b.target = a.source) : ∃ path, FirstToLast tokens path ∧ Level tokens path := by
  obtain ⟨e, he, hlast⟩ := exists_graph_end hne
  have hmost := isGreatest_depth horder.forward_step
    (horder.reached ⟨e, he, Or.inr hlast⟩ : Reached _ (graph_end tokens))
  obtain ⟨path, hpath, hlength⟩ := (comes_iff hreached).1 hmost.1
  refine ⟨path, hpath, fun before a after heq => ?_⟩
  rw [heq] at hpath hlength
  obtain ⟨k, hbefore, hafter⟩ := isPath_append.1 hpath.isPath
  have hsource : a.source = k := hafter.1
  subst hsource
  have hlow := depth_add_length_le horder
    ⟨hbefore, fun b hb => hpath.sub b (List.mem_append_left _ hb)⟩
  have hhigh := depth_add_length_le horder
    ⟨hafter, fun b hb => hpath.sub b (List.mem_append_right _ hb)⟩
  have hmem := hpath.sub a (List.mem_append_right _ List.mem_cons_self)
  have hgreatest := isGreatest_depth horder.forward_step
    (horder.reached_from (List.of_mem_zip hmem).2)
  have hdepth : before.length = depth (ArcStep (token_arcs tokens)) a.2.1 := by
    rw [List.length_append] at hlength
    have hsame : depth (ArcStep (token_arcs tokens)) a.source =
      depth (ArcStep (token_arcs tokens)) a.2.1 := rfl
    omega
  rw [hdepth]
  exact hgreatest

theorem in_order_of_positions (h : ∀ p ∈ token_positions tokens, p < MAX_POSITION) :
    InOrder (token_arcs tokens) := by
  refine ⟨?_, fun a ha => ?_, fun a ha => ?_⟩
  · rw [map_fst_token_arcs]
    exact climbs_token_positions tokens
  · obtain ⟨entry, hentry, rfl⟩ := List.mem_map.1 ha
    have hlt := h entry.2 (List.of_mem_zip hentry).2
    grind [Token.span, u32_saturating_add]
  · obtain ⟨entry, hentry, rfl⟩ := List.mem_map.1 ha
    exact Nat.min_le_right _ _

/-! ## The query of a stream -/

/-- The arcs that the query of a stream keeps. -/
def query_arcs (tokens : List Token) : List PhraseArc :=
  complete_paths (arc_alternatives tokens) 0 (graph_end tokens)

theorem phrase_graph_eq (tokens : List Token) : phrase_graph tokens =
    if (query_arcs tokens).isEmpty then .flat (group_tokens_by_position tokens)
    else .graph (direct_terms (query_arcs tokens)) (rest_arcs (query_arcs tokens)) := by
  have hfirst : ((token_arcs tokens).head?.map Prod.fst).getD 0 = 0 := by
    rcases tokens with _ | ⟨token, tokens⟩
    · rfl
    · rfl
  rw [phrase_graph, hfirst, last_of_alternatives]
  rfl

theorem FirstToLast.ne_nil (horder : InOrder (token_arcs tokens)) (hne : tokens ≠ [])
    {path : List WordArc} (h : FirstToLast tokens path) : path ≠ [] := by
  obtain ⟨a, ha, hlast⟩ := exists_graph_end hne
  have hlt := horder.forward a ha
  exact PathOf.ne_nil h (by omega)

/-- **The words of the complete paths** are the choices from the arcs the query keeps. -/
theorem first_to_last_iff (horder : InOrder (token_arcs tokens)) (hwords : words ≠ []) :
    (∃ path, FirstToLast tokens path ∧ spelling path = words) ↔
      ∃ path, PathOf PhraseArc.start PhraseArc.stop (query_arcs tokens) 0 path
        (last_node (query_arcs tokens)) ∧
          List.Forall₂ (· ∈ ·) words (GraphPhraseQuery.phrase path) := by
  have hkeeps := (keepsPaths (forward_alternatives horder) 0 (graph_end tokens)).spellings
  have hphrase_ne : ∀ {positions : List (List String)}, List.Forall₂ (· ∈ ·) words positions →
      positions ≠ [] := fun h hnil => hwords (List.forall₂_nil_right_iff.1 (hnil ▸ h))
  rw [show (∃ path, FirstToLast tokens path ∧ spelling path = words) ↔ _ from spelled_iff]
  constructor
  · rintro ⟨arcs, harcs, hchoice⟩
    have hchoice' : List.Forall₂ (· ∈ ·) words (GraphPhraseQuery.phrase arcs) :=
      List.forall₂_map_right_iff.2 hchoice
    obtain ⟨path, hpath, heq⟩ := (hkeeps _ (hphrase_ne hchoice')).1 ⟨arcs, harcs, rfl⟩
    exact ⟨path, hpath, heq ▸ hchoice'⟩
  · rintro ⟨path, hpath, hchoice⟩
    obtain ⟨arcs, harcs, heq⟩ := (hkeeps _ (hphrase_ne hchoice)).2 ⟨path, hpath, rfl⟩
    rw [← heq] at hchoice
    exact ⟨arcs, harcs, List.forall₂_map_right_iff.1 hchoice⟩

theorem exists_choice {positions : List (List String)} (h : ∀ g ∈ positions, g ≠ []) :
    ∃ words, List.Forall₂ (· ∈ ·) words positions := by
  induction positions with
  | nil => exact ⟨[], .nil⟩
  | cons g positions ih =>
      rw [List.forall_mem_cons] at h
      obtain ⟨text, htext⟩ := List.exists_mem_of_ne_nil g h.1
      obtain ⟨words, hwords⟩ := ih h.2
      exact ⟨text :: words, .cons htext hwords⟩

theorem complete_query_arcs (horder : InOrder (token_arcs tokens)) : Complete (query_arcs tokens) :=
  complete_of_paths (forward_alternatives horder) 0 (graph_end tokens)

/-- **The query keeps arcs** where there is a complete path. -/
theorem query_arcs_ne_nil_iff (horder : InOrder (token_arcs tokens)) (hne : tokens ≠ []) :
    query_arcs tokens ≠ [] ↔ ∃ path, FirstToLast tokens path := by
  constructor
  · intro hkept
    obtain ⟨arc, harc⟩ := List.exists_mem_of_ne_nil _ hkept
    obtain ⟨path, hpath, hin⟩ := (complete_query_arcs horder).on_path arc harc
    obtain ⟨arcs, harcs, -⟩ := ((keepsPaths (forward_alternatives horder) 0
      (graph_end tokens)).spellings (GraphPhraseQuery.phrase path)
        fun hnil => List.ne_nil_of_mem hin (List.map_eq_nil_iff.1 hnil)).2 ⟨path, hpath, rfl⟩
    obtain ⟨words, hwords⟩ := @exists_choice (GraphPhraseQuery.phrase arcs) fun g hg => by
      obtain ⟨b, hb, rfl⟩ := List.mem_map.1 hg
      exact terms_ne_nil (harcs.sub b hb)
    obtain ⟨p, hp, -⟩ := exists_word_path harcs (List.forall₂_map_right_iff.1 hwords)
    exact ⟨p, hp⟩
  · rintro ⟨path, hpath⟩ hnil
    have hwords : spelling path ≠ [] := fun h =>
      hpath.ne_nil horder hne (List.map_eq_nil_iff.1 h)
    obtain ⟨arcs, harcs, hchoice⟩ := (first_to_last_iff horder hwords).1 ⟨path, hpath, rfl⟩
    rcases arcs with _ | ⟨arc, arcs⟩
    · exact hwords (List.forall₂_nil_right_iff.1 hchoice)
    · have harc := harcs.sub arc List.mem_cons_self
      grind

namespace LexicalQueryParser

theorem phrase_of_tokens_eq (hne : tokens ≠ []) :
    @phrase_of_tokens DateTime field slop boost tokens =
      of_clauses (phrase_clauses field slop boost (phrase_graph tokens)) := by
  rw [phrase_of_tokens, if_neg]
  rwa [List.isEmpty_iff]

theorem phrase_graph_of_arcs (h : query_arcs tokens ≠ []) : phrase_graph tokens =
    .graph (direct_terms (query_arcs tokens)) (rest_arcs (query_arcs tokens)) := by
  rw [phrase_graph_eq, if_neg]
  rwa [List.isEmpty_iff]

/-- **What the query of a stream asks for.** -/
theorem asks_phrase_iff (horder : InOrder (token_arcs tokens)) (hne : tokens ≠ [])
    (hpath : ∃ path, FirstToLast tokens path) :
    AsksFor (@phrase_of_tokens DateTime field slop boost tokens) words ↔
      ∃ path, FirstToLast tokens path ∧ spelling path = words := by
  have hkept := (query_arcs_ne_nil_iff horder hne).2 hpath
  have hcomplete := complete_query_arcs horder
  rw [phrase_of_tokens_eq hne, phrase_graph_of_arcs hkept, asks_clauses hcomplete hkept]
  by_cases hwords : words = []
  · -- neither has no words
    subst hwords
    refine iff_of_false ?_ ?_
    · rintro ⟨path, hpath, hchoice⟩
      exact hpath.ne_nil (last_node_pos hcomplete.forward hkept)
        (List.map_eq_nil_iff.1 (List.forall₂_nil_left_iff.1 hchoice))
    · rintro ⟨path, hpath, hnil⟩
      exact hpath.ne_nil horder hne (List.map_eq_nil_iff.1 hnil)
  · exact (first_to_last_iff horder hwords).symm

/-- **A document of the stream matches.** -/
theorem hits_phrase (horder : InOrder (token_arcs tokens)) (hne : tokens ≠ [])
    (hlevel : (∃ path, FirstToLast tokens path) → ∃ path, FirstToLast tokens path ∧
      Level tokens path)
    (h : HoldsTerms reader field doc true (tokens_to_analyzed_terms tokens)) :
    Hits reader doc (@phrase_of_tokens DateTime field 0 boost tokens) := by
  rw [phrase_of_tokens_eq hne]
  by_cases hkept : query_arcs tokens = []
  · rw [phrase_graph_eq, if_pos (List.isEmpty_iff.2 hkept)]
    exact hits_flat (groups_ne_nil horder hne) (fills_groups h)
  · obtain ⟨path, hpath, hlevel⟩ := hlevel ((query_arcs_ne_nil_iff horder hne).1 hkept)
    have hwords : spelling path ≠ [] := fun hnil =>
      hpath.ne_nil horder hne (List.map_eq_nil_iff.1 hnil)
    obtain ⟨arcs, harcs, hchoice⟩ := (first_to_last_iff horder hwords).1 ⟨path, hpath, rfl⟩
    have hfills := @fills_of_level reader field doc tokens horder h 0 path _ hpath.sub
      (fun before a after heq => by
        rw [Nat.zero_add]
        exact depth_eq_of_isGreatest (hlevel before a after heq)) hchoice
    have hcomplete := complete_query_arcs horder
    grind [phrase_graph_of_arcs, hits_clauses, PathOf.ne_nil, last_node_pos, Complete.forward]

/-- The query of a stream, over the documents that are indexed from it. -/
structure OwnPhrase (tokens : List Token) (field : String) (query : ParsedQuery DateTime) :
    Prop where
  hits : ((∃ path, FirstToLast tokens path) → ∃ path, FirstToLast tokens path ∧
    Level tokens path) → ∀ reader doc,
      HoldsTerms reader field doc true (tokens_to_analyzed_terms tokens) → Hits reader doc query
  /-- "Every word starts at the first node or where another stops" is enough. -/
  level : (∀ a ∈ word_arcs tokens, a.source = 0 ∨ ∃ b ∈ word_arcs tokens,
    b.target = a.source) → ∃ path, FirstToLast tokens path ∧ Level tokens path
  asks : (∃ path, FirstToLast tokens path) → ∀ words, AsksFor query words ↔
    ∃ path, FirstToLast tokens path ∧ spelling path = words

/-- What is made of a quoted value that the analyzer has tokens of. -/
theorem parse_phrase_query_eq {backend : ParserBackend DateTime} {parser : LexicalQueryParser}
    {content : String} (hanalyze : parser.analyze field content = .ok tokens)
    (boost : Option String) :
    parser.parse_phrase_query backend (some field) content none boost =
      .ok (phrase_of_tokens field 0 (parse_boost backend boost) tokens) := by
  have hquery : parser.parse_phrase_query backend (some field) content none boost =
      (parser.analyze field content).bind fun tokens =>
        .ok (phrase_of_tokens field 0 (parse_boost backend boost) tokens) := rfl
  rw [hquery, hanalyze]
  rfl

/-- **A text matches its own quoted phrase** where its graph has no complete path or a level
one, as it has where every word starts at the first node or where another stops; and the query
has the words of the complete paths. -/
theorem parse_own_phrase (hne : tokens ≠ [])
    (hpositions : ∀ p ∈ token_positions tokens, p < MAX_POSITION)
    (backend : ParserBackend DateTime) (parser : LexicalQueryParser) {content : String}
    (hanalyze : parser.analyze field content = .ok tokens) (boost : Option String) :
    ∃ query, parser.parse_phrase_query backend (some field) content none boost = .ok query ∧
      OwnPhrase tokens field query := by
  have horder := in_order_of_positions hpositions
  exact ⟨_, parse_phrase_query_eq hanalyze boost,
    fun hlevel _ _ h => hits_phrase horder hne hlevel h, exists_level horder hne,
    fun hpath _ => asks_phrase_iff horder hne hpath⟩

/-- An analyzer that has the tokens of any text. -/
def parser_of (tokens : List Token) : LexicalQueryParser := ⟨fun _ _ => .ok tokens, [], .should⟩

/-- "ml" beside "machine learning", before "fun". -/
def ml_fun : List Token :=
  [⟨"ml", 0, 0, 2, false, none, 1, 2⟩, ⟨"machine", 0, 0, 2, false, none, 0, 1⟩,
    ⟨"learning", 0, 0, 2, false, none, 1, 1⟩, ⟨"fun", 1, 3, 6, false, none, 1, 1⟩]

theorem parse_own_phrase_ml :
    ∃ query, (parser_of ml_fun).parse_phrase_query ascii_backend
        (some "body") "ml fun" none none = .ok query ∧
      OwnPhrase ml_fun "body" query :=
  parse_own_phrase (by decide) (by decide) ascii_backend (parser_of ml_fun) rfl none

/-! ## One word, over and over -/

section Repeated

variable {n : ℕ}

/-- One word more than there are positions, where `n` is the limit. -/
def past_limit (n : ℕ) : List Token :=
  List.replicate (n + 1) ⟨"a", 0, 0, 1, false, none, 1, 1⟩

/-- The arc of a word: the last one is from the last node to itself. -/
def repeated_arc (n p : ℕ) : ℕ × ℕ := (p, min (p + 1) n)

/-- The arcs of the phrase. -/
def repeated_arcs (n : ℕ) : List PhraseArc :=
  (List.range (n + 1)).map fun p => ⟨p, min (p + 1) n, ["a"]⟩

theorem positions_replicate {c k : ℕ} (h : c + k ≤ MAX_POSITION) :
    positions_from (some c) (List.replicate k ⟨"a", 0, 0, 1, false, none, 1, 1⟩) =
      List.range' (c + 1) k := by
  induction k generalizing c with
  | zero => rfl
  | succ k ih =>
      have hassign : assign (some c) ⟨"a", 0, 0, 1, false, none, 1, 1⟩ = c + 1 := by
        rw [assign, if_neg Nat.one_ne_zero, u32_saturating_add]
        omega
      rw [List.replicate_succ, positions_from, hassign, ih (by omega), List.range'_succ]

theorem zip_replicate {α β : Type} (x : α) (ys : List β) :
    (List.replicate ys.length x).zip ys = ys.map fun y => (x, y) := by
  induction ys with
  | nil => rfl
  | cons y ys ih =>
      grind

theorem zip_past_limit {β : Type} {ys : List β} (h : ys.length = n + 1) :
    (past_limit n).zip ys = ys.map fun y => (⟨"a", 0, 0, 1, false, none, 1, 1⟩, y) := by
  rw [past_limit, ← h, zip_replicate]

theorem token_arcs_past_limit (hn : n = MAX_POSITION) :
    token_arcs (past_limit n) = (List.range (n + 1)).map (repeated_arc n) := by
  have hpositions : token_positions (past_limit n) = List.range (n + 1) := by
    rw [past_limit, List.replicate_succ, token_positions, positions_from, List.range_eq_range',
      List.range'_succ]
    exact congrArg _ (@positions_replicate 0 n (by omega))
  rw [token_arcs, hpositions, zip_past_limit List.length_range, List.map_map]
  refine List.map_congr_left fun p _ => ?_
  rw [repeated_arc, hn]
  rfl

theorem word_arcs_past_limit (hn : n = MAX_POSITION) :
    word_arcs (past_limit n) = (List.range (n + 1)).map
      fun p => (⟨"a", 0, 0, 1, false, none, 1, 1⟩, repeated_arc n p) := by
  rw [word_arcs, token_arcs_past_limit hn,
    zip_past_limit (by rw [List.length_map, List.length_range]), List.map_map]
  rfl

theorem mem_repeated_arcs {arc : PhraseArc} :
    arc ∈ repeated_arcs n ↔ ∃ p ≤ n, arc = ⟨p, min (p + 1) n, ["a"]⟩ := by
  rw [repeated_arcs, List.mem_map]
  grind

theorem gather_repeated {values : List String} (h : ∀ v ∈ values, v = "a") :
    gather_values (fun acc text => add_alternative (acc.getD []) text) (some ["a"]) values =
      some ["a"] := by
  induction values with
  | nil => rfl
  | cons v values ih =>
      rw [List.forall_mem_cons] at h
      obtain ⟨rfl, hvalues⟩ := h
      exact ih hvalues

theorem terms_past_limit (hn : n = MAX_POSITION) {arc : PhraseArc}
    (h : arc ∈ arc_alternatives (past_limit n)) : arc.terms = ["a"] := by
  have hvalues : ∀ v ∈ values_of ((token_arcs (past_limit n)).zip
      ((past_limit n).map fun token => token.text)) (arc.start, arc.stop), v = "a" := by
    intro v hv
    obtain ⟨a, ha, -, -, rfl⟩ := mem_texts_between.1 hv
    rw [word_arcs_past_limit hn] at ha
    obtain ⟨p, -, rfl⟩ := List.mem_map.1 ha
    rfl
  have hgathered := mem_arc_alternatives_iff.1 h
  rcases hlist : values_of ((token_arcs (past_limit n)).zip
    ((past_limit n).map fun token => token.text)) (arc.start, arc.stop) with _ | ⟨v, values⟩
  · rw [hlist] at hgathered
    exact absurd hgathered.symm (Option.some_ne_none _)
  · rw [hlist] at hgathered hvalues
    rw [List.forall_mem_cons] at hvalues
    obtain ⟨rfl, hrest⟩ := hvalues
    exact Option.some.inj (hgathered.symm.trans (gather_repeated hrest))

theorem mem_alternatives_past_limit (hn : n = MAX_POSITION) {arc : PhraseArc} :
    arc ∈ arc_alternatives (past_limit n) ↔ arc ∈ repeated_arcs n := by
  have hends : ∀ {a : WordArc}, a ∈ word_arcs (past_limit n) → ∃ p ≤ n, a.source = p ∧
      a.target = min (p + 1) n := by
    intro a ha
    rw [word_arcs_past_limit hn] at ha
    obtain ⟨p, hp, rfl⟩ := List.mem_map.1 ha
    exact ⟨p, Nat.lt_succ_iff.1 (List.mem_range.1 hp), rfl, rfl⟩
  constructor
  · intro harc
    obtain ⟨text, htext⟩ := List.exists_mem_of_ne_nil _ (terms_ne_nil harc)
    obtain ⟨a, ha, hstart, hstop, -⟩ := (mem_terms harc).1 htext
    obtain ⟨p, hp, hsource, htarget⟩ := hends ha
    refine mem_repeated_arcs.2 ⟨p, hp, ?_⟩
    rw [← terms_past_limit hn harc, ← htarget, ← hsource, hstart, hstop]
  · intro harc
    obtain ⟨p, hp, rfl⟩ := mem_repeated_arcs.1 harc
    have hword : ((⟨"a", 0, 0, 1, false, none, 1, 1⟩, repeated_arc n p) : WordArc) ∈
        word_arcs (past_limit n) := by
      rw [word_arcs_past_limit hn]
      grind
    obtain ⟨arc, harc, hstart, hstop, -⟩ := exists_arc_alternative hword
    have hterms := terms_past_limit hn harc
    obtain ⟨start, stop, terms⟩ := arc
    dsimp only at hstart hstop hterms
    subst hstart hstop hterms
    exact harc

theorem pairwise_repeated_arcs (n : ℕ) :
    (repeated_arcs n).Pairwise PhraseArc.le ∧ (repeated_arcs n).Nodup := by
  have hrange : (List.range (n + 1)).Pairwise (· < ·) := List.pairwise_lt_range
  refine ⟨List.pairwise_map.2 (hrange.imp fun h => Or.inl h), List.pairwise_map.2 (hrange.imp ?_)⟩
  grind

theorem alternatives_past_limit (hn : n = MAX_POSITION) :
    arc_alternatives (past_limit n) = repeated_arcs n := by
  refine ((List.perm_ext_iff_of_nodup (nodup_alternatives _) (pairwise_repeated_arcs n).2).2
    fun arc => mem_alternatives_past_limit hn).eq_of_pairwise ?_ (pairwise_arcs _)
      (pairwise_repeated_arcs n).1
  grind [mem_repeated_arcs, mem_alternatives_past_limit, PhraseArc.le]

theorem isPath_repeated_arcs (n : ℕ) :
    IsPath PhraseArc.start PhraseArc.stop 0 (repeated_arcs n) n := by
  have hfrom : ∀ k m, m + k = n → IsPath PhraseArc.start PhraseArc.stop m
      ((List.range' m (k + 1)).map fun p => ⟨p, min (p + 1) n, ["a"]⟩) n := by
    intro k
    induction k with
    | zero =>
        intro m hm
        refine ⟨rfl, ?_⟩
        show min (m + 1) n = n
        omega
    | succ k ih =>
        intro m hm
        refine ⟨rfl, ?_⟩
        grind
  rw [repeated_arcs, List.range_eq_range']
  exact hfrom n 0 (Nat.zero_add n)

theorem last_repeated_arcs (n : ℕ) : last_node (repeated_arcs n) = n := by
  refine last_node_eq (fun arc harc => ?_)
    ⟨_, mem_repeated_arcs.2 ⟨n, Nat.le_refl n, rfl⟩, by dsimp only; omega⟩
  obtain ⟨p, -, rfl⟩ := mem_repeated_arcs.1 harc
  exact Nat.min_le_right _ _

theorem graph_end_past_limit (hn : n = MAX_POSITION) : graph_end (past_limit n) = n := by
  rw [← last_of_alternatives, alternatives_past_limit hn]
  exact last_repeated_arcs n

theorem query_arcs_past_limit (hn : n = MAX_POSITION) :
    query_arcs (past_limit n) = repeated_arcs n := by
  have hnodes : arc_nodes (repeated_arcs n) = List.range (n + 1) := by
    refine eq_of_pairwise_lt (pairwise_sort_dedup _) List.pairwise_lt_range fun k => ?_
    rw [show k ∈ _ ↔ _ from mem_arc_nodes, List.mem_range]
    constructor
    · grind [mem_repeated_arcs]
    · intro hk
      exact ⟨_, mem_repeated_arcs.2 ⟨k, by omega, rfl⟩, Or.inl rfl⟩
  rw [query_arcs, graph_end_past_limit hn, alternatives_past_limit hn]
  exact complete_paths_of_isPath (pairwise_repeated_arcs n).1 (isPath_repeated_arcs n) hnodes

theorem rest_repeated_arcs (hn : 1 < n) :
    rest_arcs (repeated_arcs n) = repeated_arcs n ∧ direct_terms (repeated_arcs n) = [] := by
  have hnone : ∀ arc ∈ repeated_arcs n, ¬Direct (repeated_arcs n) arc := by
    rintro arc harc ⟨hstart, hstop⟩
    grind [mem_repeated_arcs, last_repeated_arcs]
  refine ⟨List.filter_eq_self.2 fun arc harc => decide_eq_true (hnone arc harc), ?_⟩
  rw [List.eq_nil_iff_forall_not_mem]
  grind [mem_direct_terms]

theorem length_of_asks_past_limit (hn : n = MAX_POSITION) (hone : 1 < n)
    (h : AsksFor (phrase_of_tokens "body" 0 NO_BOOST (past_limit n) : ParsedQuery DateTime) words) :
    words.length = n + 1 := by
  have hne : repeated_arcs n ≠ [] :=
    List.ne_nil_of_mem (mem_repeated_arcs.2 ⟨0, Nat.zero_le n, rfl⟩)
  have hkept : query_arcs (past_limit n) ≠ [] := by
    rw [query_arcs_past_limit hn]
    exact hne
  have hquery : (phrase_of_tokens "body" 0 NO_BOOST (past_limit n) : ParsedQuery DateTime) =
      .leaf (.phrase "body" ((repeated_arcs n).map PhraseArc.terms) 0) NO_BOOST := by
    rw [phrase_of_tokens_eq (by rw [past_limit, List.replicate_succ]; exact List.cons_ne_nil _ _),
      phrase_graph_of_arcs hkept, query_arcs_past_limit hn, (rest_repeated_arcs hone).1,
      (rest_repeated_arcs hone).2, phrase_clauses_graph,
      arcs_clause_of_isPath (isPath_repeated_arcs n), List.isEmpty_nil, if_pos rfl, List.nil_append,
      if_neg (by rwa [List.isEmpty_iff])]
    rfl
  rw [hquery] at h
  rcases h with _ | _ | hwords
  rw [hwords.length_eq, List.length_map, repeated_arcs, List.length_map, List.length_range]

theorem exists_path_past_limit (hn : n = MAX_POSITION) :
    ∃ path, FirstToLast (past_limit n) path ∧ path.length = n := by
  have hfrom : ∀ k m, m + k = n →
      IsPath WordArc.source WordArc.target m ((List.range' m k).map
        fun p => ((⟨"a", 0, 0, 1, false, none, 1, 1⟩ : Token), repeated_arc n p)) n := by
    intro k
    induction k with
    | zero => exact fun m hm => hm
    | succ k ih =>
        intro m hm
        refine ⟨rfl, ?_⟩
        grind [WordArc.target, repeated_arc]
  simp only [FirstToLast, graph_end_past_limit hn]
  refine ⟨_, ⟨hfrom n 0 (Nat.zero_add n), fun a ha => ?_⟩, ?_⟩
  · grind [word_arcs_past_limit]
  simp

theorem not_asks_past_limit (hn : n = MAX_POSITION) (hone : 1 < n) :
    ∃ path, FirstToLast (past_limit n) path ∧
      ¬AsksFor (phrase_of_tokens "body" 0 NO_BOOST (past_limit n) : ParsedQuery DateTime)
        (spelling path) := by
  obtain ⟨path, hpath, hlength⟩ := exists_path_past_limit hn
  grind [length_of_asks_past_limit, spelling, List.length_map]

end Repeated

/-! ## A gap -/

/-- A long word over others that no complete path has. -/
def over_gap : List Token :=
  [⟨"a", 0, 0, 1, false, none, 1, 3⟩, ⟨"b", 1, 1, 2, false, none, 1, 1⟩,
    ⟨"c", 2, 2, 3, false, none, 1, 1⟩, ⟨"d", 3, 3, 4, false, none, 1, 1⟩]

theorem not_hits_over_gap :
    ¬Hits (one_document "body" true (tokens_to_analyzed_terms over_gap)) 0
      (phrase_of_tokens "body" 0 NO_BOOST over_gap : ParsedQuery ℕ) := by
  have hquery : (phrase_of_tokens "body" 0 NO_BOOST over_gap : ParsedQuery ℕ) =
      .leaf (.phrase "body" [["a"], ["d"]] 0) NO_BOOST := by
    rfl
  have hnone : PhraseMatcher.find_phrase_matches
      (one_document "body" true (tokens_to_analyzed_terms over_gap)) "body" [["a"], ["d"]] 0 =
        [] := by
    decide +kernel
  rw [hquery]
  rintro (_ | _ | ⟨m, hm, -⟩)
  grind

/-- Below a gap no complete path fills the positions in turn; past the limit a path leaves words
out that the query asks for. -/
theorem parse_own_phrase_counterexample :
    (∃ query, (parser_of over_gap).parse_phrase_query ascii_backend (some "body") "a b c d" none
        none = .ok query ∧
      ∃ reader doc, HoldsTerms reader "body" doc true (tokens_to_analyzed_terms over_gap) ∧
        ¬Hits reader doc query) ∧
    ∃ query, (parser_of (past_limit MAX_POSITION)).parse_phrase_query ascii_backend (some "body")
        "a a" none none = .ok query ∧
      ∃ path, FirstToLast (past_limit MAX_POSITION) path ∧ ¬AsksFor query (spelling path) :=
  ⟨⟨_, parse_phrase_query_eq rfl none, _, 0, holds_one_document _ _ _, not_hits_over_gap⟩,
    _, parse_phrase_query_eq rfl none, not_asks_past_limit rfl (by decide)⟩

end LexicalQueryParser

end Laurus
