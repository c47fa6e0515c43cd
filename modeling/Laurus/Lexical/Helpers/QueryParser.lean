import Laurus.Lexical.Helpers.QueryGrammar
import Laurus.Lexical.Model.QueryParser
import Mathlib

/-!
# What the parser makes of a reading

The query of a list of clauses has the queries of its values for its leaves: no leaf comes
from elsewhere (`exists_value_of_leaf`), and no value is left out (`leaves_of_value`). A value
of a field gives leaves on that field (`field_of_leaf`), and a value is refused by every parser
or by none whose analyzer reads every text (`exists_query_of_value`).
-/

namespace Laurus

section QueryParser

variable {DateTime : Type}

/-- A query has a leaf on a field. -/
inductive ParsedQuery.LeafOn : ParsedQuery DateTime → String → Prop
  | leaf (query : LeafQuery DateTime) (boost : UInt32) : LeafOn (.leaf query boost) query.field
  | clause {clauses : List (Occur × ParsedQuery DateTime)} {boost : UInt32}
      {c : Occur × ParsedQuery DateTime} {field : String} :
      c ∈ clauses → LeafOn c.2 field → LeafOn (.boolean clauses boost) field

/-- A value stands in an item, with its field. -/
inductive QueryItem.Holds : QueryItem → Option String → ClauseValue → Prop
  | value (sign : ClauseSign) (field : Option String) (v : ClauseValue) :
      Holds (.value sign field v) field v
  | grouped {sign : ClauseSign} {items : List QueryItem} {boost : Option String}
      {item : QueryItem} {field : Option String} {v : ClauseValue} :
      item ∈ items → Holds item field v → Holds (.grouped sign items boost) field v

open ParsedQuery QueryItem Grammar

namespace LexicalQueryParser

variable {backend : ParserBackend DateTime} {parser : LexicalQueryParser}
variable {q : ParsedQuery DateTime} {field g : String} {boost : UInt32}

/-! ## Leaves -/

theorem leafOn_leaf {query : LeafQuery DateTime} :
    LeafOn (.leaf query boost) g ↔ g = query.field := by
  constructor
  · rintro ⟨⟩
    rfl
  · rintro rfl
    exact .leaf query boost

theorem leafOn_boolean {clauses : List (Occur × ParsedQuery DateTime)} :
    LeafOn (.boolean clauses boost) g ↔ ∃ c ∈ clauses, LeafOn c.2 g := by
  constructor
  · rintro (_ | ⟨hc, h⟩)
    exact ⟨_, hc, h⟩
  · rintro ⟨c, hc, h⟩
    exact .clause hc h

theorem leafOn_set_boost : LeafOn (q.set_boost boost) g ↔ LeafOn q g := by
  rcases q with ⟨query, b⟩ | ⟨clauses, b⟩
  · rw [ParsedQuery.set_boost, leafOn_leaf, leafOn_leaf]
  · rw [ParsedQuery.set_boost, leafOn_boolean, leafOn_boolean]

theorem leafOn_of_terms {terms : List (Occur × ParsedQuery DateTime)} :
    LeafOn (of_terms terms) g ↔ ∃ t ∈ terms, LeafOn t.2 g := by
  rcases terms with _ | ⟨t, _ | ⟨u, terms⟩⟩
  · exact leafOn_boolean
  · rw [of_terms]
    split_ifs
    · exact leafOn_boolean
    simp
  · exact leafOn_boolean

/-! ## Lists of clauses -/

theorem promote_last_snd (terms : List (Occur × ParsedQuery DateTime)) :
    (promote_last terms).map Prod.snd = terms.map Prod.snd := by
  rw [promote_last]
  refine List.ext_getElem? fun i => ?_
  grind

variable {items : List QueryItem} {item : QueryItem} {v : ClauseValue} {α : Type}
  {x : Except LaurusError α}

/-- **The terms of a list are the queries of its clauses.** -/
theorem parse_items_eq_ok {occur : Occur}
    {terms out : List (Occur × ParsedQuery DateTime)}
    (h : parser.parse_items backend items occur terms = .ok out) :
    ∃ queries, List.Forall₂ (fun item query => parser.parse_sub_clause backend item = .ok query)
      (items.filter is_clause) queries ∧ out.map Prod.snd = terms.map Prod.snd ++ queries := by
  induction items generalizing occur terms with
  | nil =>
      rw [← Except.ok.inj h]
      simp
  | cons item items ih =>
      have hclause : ∀ sign, is_clause item = true →
          (do
            let query ← parser.parse_sub_clause backend item
            parser.parse_items backend items parser.default_occur
              (terms ++ [(clause_occur sign occur, query)])) = .ok out →
          ∃ queries, List.Forall₂
            (fun item query => parser.parse_sub_clause backend item = .ok query)
            ((item :: items).filter is_clause) queries ∧
            out.map Prod.snd = terms.map Prod.snd ++ queries := by
        intro sign hitem hrun
        rcases hquery : parser.parse_sub_clause backend item with e | query
        · rw [hquery] at hrun
          exact absurd hrun.symm (by rintro ⟨⟩)
        · rw [hquery] at hrun
          obtain ⟨queries, hall, hout⟩ := ih hrun
          rw [List.filter_cons_of_pos hitem]
          refine ⟨query :: queries, List.Forall₂.cons hquery hall, ?_⟩
          grind
      rcases item with op | ⟨sign, name, v⟩ | ⟨sign, nested, b⟩
      · rw [parse_items] at h
        obtain ⟨queries, hall, hout⟩ := ih h
        refine ⟨queries, hall, ?_⟩
        grind [promote_last_snd]
      · rw [parse_items] at h
        exact hclause sign rfl h
      · rw [parse_items] at h
        exact hclause sign rfl h

theorem exists_terms {items : List QueryItem} {occur : Occur}
    {terms : List (Occur × ParsedQuery DateTime)}
    (h : ∀ item ∈ items, is_clause item = true →
      ∃ query, parser.parse_sub_clause backend item = .ok query) :
    ∃ out, parser.parse_items backend items occur terms = .ok out := by
  induction items generalizing occur terms with
  | nil => exact ⟨terms, by rw [parse_items]⟩
  | cons item items ih =>
      have hrest := fun (o : Occur) (t : List (Occur × ParsedQuery DateTime)) =>
        @ih o t fun i hi => h i (List.mem_cons_of_mem _ hi)
      rcases item with op | ⟨sign, name, v⟩ | ⟨sign, nested, b⟩
      · rw [parse_items]
        exact hrest _ _
      · obtain ⟨query, hquery⟩ := h _ List.mem_cons_self rfl
        rw [parse_items, hquery]
        exact hrest _ _
      · obtain ⟨query, hquery⟩ := h _ List.mem_cons_self rfl
        rw [parse_items, hquery]
        exact hrest _ _

theorem exists_of_mem_items {queries : List (ParsedQuery DateTime)}
    (hall : List.Forall₂ (fun item query => parser.parse_sub_clause backend item = .ok query)
      (items.filter is_clause) queries) (hmem : item ∈ items)
    (hitem : is_clause item = true) :
    ∃ query ∈ queries, parser.parse_sub_clause backend item = .ok query := by
  have hfilter := List.mem_filter.2 ⟨hmem, hitem⟩
  grind [List.getElem_of_mem, List.forall₂_iff_get]

theorem exists_of_mem_queries {queries : List (ParsedQuery DateTime)}
    (hall : List.Forall₂ (fun item query => parser.parse_sub_clause backend item = .ok query)
      (items.filter is_clause) queries) {query : ParsedQuery DateTime} (hmem : query ∈ queries) :
    ∃ item ∈ items, parser.parse_sub_clause backend item = .ok query := by
  grind [List.getElem_of_mem, List.getElem_mem, List.forall₂_iff_get]

/-- **The query of a list has the leaves of its clauses' queries.** -/
theorem boolean_query_eq_ok
    (h : parser.parse_boolean_query backend items = .ok q) :
    ∃ queries, List.Forall₂ (fun item query => parser.parse_sub_clause backend item = .ok query)
      (items.filter is_clause) queries ∧ ∀ g, LeafOn q g ↔ ∃ query ∈ queries, LeafOn query g := by
  rw [parse_boolean_query] at h
  rcases hterms : parser.parse_items backend items parser.default_occur [] with e | terms
  · rw [hterms] at h
    exact absurd h.symm (by rintro ⟨⟩)
  · rw [hterms] at h
    obtain rfl : of_terms terms = q := Except.ok.inj h
    obtain ⟨queries, hall, hout⟩ := parse_items_eq_ok hterms
    grind [leafOn_of_terms]

theorem parse_eq_ok {text : String} : parser.parse backend text = .ok q ↔
    ∃ items, Grammar.query backend.classes text.toList = some items ∧
      parser.parse_boolean_query backend items = .ok q := by
  rw [parse]
  grind

theorem parse_grouped (sign : ClauseSign) (items : List QueryItem) (b : Option String) :
    parser.parse_sub_clause backend (.grouped sign items b) =
      (parser.parse_boolean_query backend items).map fun query =>
        if parse_boost backend b ≠ NO_BOOST then query.set_boost (parse_boost backend b)
        else query := by
  rw [parse_sub_clause, parse_boolean_query]
  rcases parser.parse_items backend items parser.default_occur [] with e | terms
  · rfl
  · rfl

theorem grouped_eq_ok {sign : ClauseSign} {b : Option String}
    (h : parser.parse_sub_clause backend (.grouped sign items b) = .ok q) :
    ∃ queries, List.Forall₂ (fun item query => parser.parse_sub_clause backend item = .ok query)
      (items.filter is_clause) queries ∧ ∀ g, LeafOn q g ↔ ∃ query ∈ queries, LeafOn query g := by
  rw [parse_grouped] at h
  rcases hquery : parser.parse_boolean_query backend items with e | query
  · rw [hquery] at h
    exact absurd h.symm (by rintro ⟨⟩)
  · rw [hquery] at h
    obtain ⟨queries, hall, hleaves⟩ := boolean_query_eq_ok hquery
    refine ⟨queries, hall, fun g => ?_⟩
    rw [← hleaves, ← Except.ok.inj h]
    split_ifs
    · exact leafOn_set_boost
    · exact Iff.rfl

/-- **A leaf comes from a value.** -/
theorem exists_value_of_leaf : ∀ (item : QueryItem) (q : ParsedQuery DateTime),
    parser.parse_sub_clause backend item = .ok q → LeafOn q g →
    ∃ name v query, Holds item name v ∧
      parser.parse_field_value backend name v = .ok query ∧ LeafOn query g
  | .boolean_op _, q, h, _ => by
    exact absurd h.symm (by rintro ⟨⟩)
  | .value sign name v, q, h, hleaf => by
    exact ⟨name, v, q, .value sign name v, h, hleaf⟩
  | .grouped sign items b, q, h, hleaf => by
    obtain ⟨queries, hall, hleaves⟩ := grouped_eq_ok h
    obtain ⟨query, hquery, hg⟩ := (hleaves g).1 hleaf
    obtain ⟨item, hitem, hparse⟩ := exists_of_mem_queries hall hquery
    obtain ⟨name, v, qv, hholds, hv, hqv⟩ := exists_value_of_leaf item query hparse hg
    exact ⟨name, v, qv, .grouped hitem hholds, hv, hqv⟩

theorem is_clause_of_holds {name : Option String}
    (h : Holds item name v) : is_clause item = true := by
  rcases h with _ | _ <;> rfl

/-- **No value is left out.** -/
theorem leaves_of_value {name : Option String}
    (hholds : Holds item name v) (h : parser.parse_sub_clause backend item = .ok q) :
    ∃ query, parser.parse_field_value backend name v = .ok query ∧
      ∀ g, LeafOn query g → LeafOn q g := by
  induction hholds generalizing q with
  | value sign name v =>
      exact ⟨q, h, fun g hg => hg⟩
  | grouped hitem hholds ih =>
      obtain ⟨queries, hall, hleaves⟩ := grouped_eq_ok h
      obtain ⟨query, hquery, hparse⟩ :=
        exists_of_mem_items hall hitem (is_clause_of_holds hholds)
      grind

/-- **A clause has a query when its values have.** -/
theorem exists_query_of_values : ∀ item : QueryItem, is_clause item = true →
    (∀ name v, Holds item name v →
      ∃ query, parser.parse_field_value backend name v = .ok query) →
    ∃ query, parser.parse_sub_clause backend item = .ok query
  | .boolean_op _, hitem, _ => absurd hitem Bool.false_ne_true
  | .value sign name v, _, h => by
    exact h name v (.value sign name v)
  | .grouped sign items b, _, h => by
    obtain ⟨terms, hterms⟩ := @exists_terms _ backend parser items parser.default_occur []
      fun item hmem hclause => by
        exact exists_query_of_values item hclause fun name v hholds =>
          h name v (.grouped hmem hholds)
    rw [parse_grouped, parse_boolean_query, hterms]
    exact ⟨_, rfl⟩

/-! ## The value of a field -/

/-- Every leaf of a query is on a field. -/
def OnlyOn (q : ParsedQuery DateTime) (field : String) : Prop := ∀ g, LeafOn q g → g = field

theorem onlyOn_leaf {query : LeafQuery DateTime} (h : query.field = field) :
    OnlyOn (.leaf query boost) field := fun _ hg => (leafOn_leaf.1 hg).trans h

theorem onlyOn_boolean {clauses : List (Occur × ParsedQuery DateTime)}
    (h : ∀ c ∈ clauses, OnlyOn c.2 field) : OnlyOn (.boolean clauses boost) field := by
  intro g hg
  obtain ⟨c, hc, hleaf⟩ := leafOn_boolean.1 hg
  exact h c hc g hleaf

theorem onlyOn_one_position (alternatives : List String) :
    @OnlyOn DateTime (one_position_query field alternatives boost) field := by
  rcases alternatives with _ | ⟨text, _ | ⟨other, alternatives⟩⟩
  · exact onlyOn_leaf rfl
  · exact onlyOn_leaf rfl
  · exact onlyOn_leaf rfl

theorem onlyOn_of_clauses {clauses : List (ParsedQuery DateTime)}
    (h : ∀ c ∈ clauses, OnlyOn c field) : OnlyOn (of_clauses clauses) field := by
  have hboolean : OnlyOn (.boolean (clauses.map fun clause => (Occur.should, clause)) NO_BOOST)
      field := by
    refine onlyOn_boolean fun c hc => ?_
    grind
  rcases clauses with _ | ⟨c, _ | ⟨d, clauses⟩⟩
  · exact hboolean
  · exact h c (List.mem_singleton_self c)
  · exact hboolean

theorem onlyOn_phrase {slop : ℕ} (tokens : List Token) :
    @OnlyOn DateTime (phrase_of_tokens field slop boost tokens) field := by
  rw [phrase_of_tokens]
  split_ifs
  · exact onlyOn_leaf rfl
  · refine onlyOn_of_clauses fun c hc => ?_
    rcases hgraph : phrase_graph tokens with positions | ⟨direct, arcs⟩
    · rw [hgraph] at hc
      rcases positions with _ | ⟨p, _ | ⟨r, positions⟩⟩
      · rw [List.mem_singleton.1 hc]
        exact onlyOn_leaf rfl
      · rw [List.mem_singleton.1 hc]
        exact onlyOn_one_position p
      · rw [List.mem_singleton.1 hc]
        exact onlyOn_leaf rfl
    · rw [hgraph, phrase_clauses] at hc
      rcases List.mem_append.1 hc with hc | hc
      · grind [onlyOn_one_position]
      · split_ifs at hc
        · exact absurd hc List.not_mem_nil
        · rw [List.mem_singleton.1 hc]
          exact onlyOn_leaf rfl
        · rw [List.mem_singleton.1 hc]
          exact onlyOn_leaf rfl

theorem onlyOn_term (tokens : List Token) :
    @OnlyOn DateTime (term_of_tokens field boost tokens) field := by
  rw [term_of_tokens]
  split_ifs
  · exact onlyOn_leaf rfl
  grind [onlyOn_boolean, onlyOn_one_position]

theorem bind_eq_ok {β : Type} {f : α → Except LaurusError β} {b : β}
    (h : (x >>= f) = .ok b) : ∃ a, x = .ok a ∧ f a = .ok b := by
  rcases x with e | a
  · exact absurd h.symm (by rintro ⟨⟩)
  · exact ⟨a, rfl, h⟩

theorem onlyOn_range {inclusive : Bool} {lower upper : String}
    (h : range_over_field backend inclusive lower upper field = .ok q) : OnlyOn q field := by
  rw [range_over_field] at h
  split_ifs at h
  · rw [← Except.ok.inj h]
    exact onlyOn_leaf rfl
  · rw [← Except.ok.inj h]
    exact onlyOn_leaf rfl
  · rw [← Except.ok.inj h]
    exact onlyOn_leaf rfl

/-- **The value of a field gives leaves on the field.** -/
theorem field_of_leaf
    (h : parser.parse_field_value backend (some field) v = .ok q) : OnlyOn q field := by
  rcases v with call | ⟨inclusive, lower, upper⟩ | ⟨content, proximity, b⟩ | ⟨text, fuzziness, b⟩ |
    ⟨pattern, b⟩ | ⟨text, b⟩
  · obtain ⟨args, _, h⟩ := bind_eq_ok (show parse_geo_query backend (some field) call = _ from h)
    obtain ⟨k, _, h⟩ := bind_eq_ok h
    rcases hgeo : backend.geo_error call.rule args with _ | e
    · rw [hgeo] at h
      rw [← Except.ok.inj h]
      exact onlyOn_leaf rfl
    grind
  · exact onlyOn_range h
  · obtain ⟨slop, _, h⟩ := bind_eq_ok
      (show parser.parse_phrase_query backend (some field) content proximity b = _ from h)
    obtain ⟨tokens, _, h⟩ := bind_eq_ok (show (parser.analyze field content >>= _) = _ from h)
    rw [← Except.ok.inj h]
    exact onlyOn_phrase tokens
  · obtain ⟨edits, _, h⟩ := bind_eq_ok
      (show parser.parse_fuzzy_term backend (some field) text fuzziness b = _ from h)
    obtain ⟨tokens, _, h⟩ := bind_eq_ok (show (parser.analyze field text >>= _) = _ from h)
    rw [← Except.ok.inj h]
    exact onlyOn_leaf rfl
  · rw [parse_field_value, parse_wildcard_term, create_query_over_fields] at h
    rcases hnew : WildcardQuery.new backend.compile field pattern with _ | query
    · grind
    · rw [hnew] at h
      rw [← Except.ok.inj h]
      obtain ⟨regex, _, rfl⟩ := Option.map_eq_some_iff.1 hnew
      exact onlyOn_leaf rfl
  · obtain ⟨tokens, _, h⟩ := bind_eq_ok (show (parser.analyze field text >>= _) = _ from h)
    rw [← Except.ok.inj h]
    exact onlyOn_term tokens

/-! ## What is refused whatever the analyzer -/

/-- Whether a value is refused by every parser: a geographic query without a field or with
arguments it cannot have, a range of two kinds, a count past a `u32`, or a pattern that is no
expression. -/
def refuses (backend : ParserBackend DateTime) (name : Option String) : ClauseValue → Bool
  | .geo call => name.isNone || !(parse_geo_query backend (some "") call).isOk
  | .range inclusive lower upper =>
    !(range_over_field backend inclusive (parse_range_value lower) (parse_range_value upper) "").isOk
  | .phrase _ proximity _ => proximity.any fun text => !(parse_count text "phrase slop").isOk
  | .fuzzy _ fuzziness _ => fuzziness.any fun text => !(parse_count text "fuzziness").isOk
  | .wildcard pattern _ => (WildcardQuery.new backend.compile "" pattern).isNone
  | .simple _ _ => false

theorem isOk_ok : x.isOk = true ↔ ∃ a, x = .ok a := by
  rcases x with e | a
  · exact iff_of_false Bool.false_ne_true fun ⟨a, h⟩ => by cases h
  · exact iff_of_true rfl ⟨a, rfl⟩

theorem not_isOk : x.isOk = false ↔ ∃ e, x = .error e := by
  rcases x with e | a
  · exact iff_of_true rfl ⟨e, rfl⟩
  · exact iff_of_false (Ne.symm Bool.false_ne_true) fun ⟨a, h⟩ => by cases h

theorem isOk_geo (call : GeoCall) (f f' : String) :
    (parse_geo_query backend (some f) call).isOk = (parse_geo_query backend (some f') call).isOk := by
  rw [parse_geo_query, parse_geo_query]
  rcases collect_signed_floats backend call.floats with e | args
  · rfl
  rcases parse_k call.k with e | k
  · rfl
  · simp only [bind, Except.bind]
    rcases backend.geo_error call.rule args with _ | e
    · rfl
    · rfl

theorem isOk_range (inclusive : Bool) (lower upper f f' : String) :
    (range_over_field backend inclusive lower upper f).isOk =
      (range_over_field backend inclusive lower upper f').isOk := by
  rw [range_over_field, range_over_field]
  split_ifs
  all_goals rfl

theorem isNone_wildcard (pattern f f' : String) :
    (WildcardQuery.new backend.compile f pattern).isNone =
      (WildcardQuery.new backend.compile f' pattern).isNone := by
  rw [WildcardQuery.new, WildcardQuery.new, Option.isNone_map, Option.isNone_map]

variable {creator : String → Except LaurusError (ParsedQuery DateTime)} {name : Option String}

theorem create_error (h : ∀ f, ∃ e, creator f = .error e) :
    ∃ e, parser.create_query_over_fields name creator = .error e := by
  rcases name with _ | f
  · rw [create_query_over_fields]
    rcases parser.default_fields with _ | ⟨f, _ | ⟨f', fields⟩⟩
    · exact ⟨_, rfl⟩
    · exact h f
    · obtain ⟨e, he⟩ := h f
      refine ⟨e, ?_⟩
      simp only [List.mapM_cons, he, bind, Except.bind]
  · exact h f

theorem create_ok (hfields : parser.default_fields ≠ []) (h : ∀ f, ∃ q, creator f = .ok q) :
    ∃ q, parser.create_query_over_fields name creator = .ok q := by
  have hall : ∀ fields : List String, ∃ clauses, (fields.mapM fun field_name => do
      let q ← creator field_name
      return (Occur.should, q)) = .ok clauses := by
    intro fields
    induction fields with
    | nil => exact ⟨[], rfl⟩
    | cons f fields ih =>
        obtain ⟨q, hq⟩ := h f
        obtain ⟨clauses, hclauses⟩ := ih
        exact ⟨(Occur.should, q) :: clauses, by rw [List.mapM_cons, hq, hclauses]; rfl⟩
  rcases name with _ | f
  · rw [create_query_over_fields]
    rcases hdefault : parser.default_fields with _ | ⟨f, _ | ⟨f', fields⟩⟩
    · exact absurd hdefault hfields
    · exact h f
    · obtain ⟨clauses, hclauses⟩ := hall (f :: f' :: fields)
      simp only [hclauses]
      exact ⟨_, rfl⟩
  · exact h f

theorem count_error {text : Option String} {what : String}
    (h : (text.any fun text => !(parse_count text what).isOk) = true) :
    ∃ e, (text.mapM fun text => parse_count text what) = .error e := by
  rcases text with _ | text
  · exact absurd h Bool.false_ne_true
  · rw [Option.any_some, Bool.not_eq_true'] at h
    obtain ⟨e, he⟩ := not_isOk.1 h
    exact ⟨e, by rw [Option.mapM_some, he]; rfl⟩

theorem count_ok {text : Option String} {what : String}
    (h : (text.any fun text => !(parse_count text what).isOk) = false) :
    ∃ n, (text.mapM fun text => parse_count text what) = .ok n := by
  rcases text with _ | text
  · exact ⟨none, rfl⟩
  · rw [Option.any_some, Bool.not_eq_false'] at h
    obtain ⟨n, hn⟩ := isOk_ok.1 h
    exact ⟨some n, by rw [Option.mapM_some, hn]; rfl⟩

/-- **What is refused is refused by every parser.** -/
theorem error_of_refuses {v : ClauseValue} (h : refuses backend name v = true) :
    ∃ e, parser.parse_field_value backend name v = .error e := by
  rcases v with call | ⟨inclusive, lower, upper⟩ | ⟨content, proximity, b⟩ | ⟨text, fuzziness, b⟩ |
    ⟨pattern, b⟩ | ⟨text, b⟩
  · rcases name with _ | f
    · exact ⟨_, rfl⟩
    · refine not_isOk.1 ((isOk_geo call f "").trans ?_)
      simpa [refuses] using h
  · refine create_error fun f => not_isOk.1 ((isOk_range _ _ _ f "").trans ?_)
    simpa [refuses] using h
  · obtain ⟨e, he⟩ := count_error h
    exact ⟨e, by rw [parse_field_value, parse_phrase_query, he]; rfl⟩
  · obtain ⟨e, he⟩ := count_error h
    exact ⟨e, by rw [parse_field_value, parse_fuzzy_term, he]; rfl⟩
  · refine create_error fun f => ?_
    have hnone := (isNone_wildcard pattern f "").trans h
    rw [Option.isNone_iff_eq_none] at hnone
    rw [hnone]
    exact ⟨_, rfl⟩
  · exact absurd h Bool.false_ne_true

theorem not_ok_of_refuses
    (h : ∃ item ∈ items, ∃ name v, Holds item name v ∧ refuses backend name v = true) :
    parser.parse_boolean_query backend items ≠ .ok q := by
  intro hparse
  obtain ⟨item, hitem, name, v, hholds, hrefuses⟩ := h
  obtain ⟨queries, hall, -⟩ := boolean_query_eq_ok hparse
  obtain ⟨query, -, hquery⟩ := exists_of_mem_items hall hitem (is_clause_of_holds hholds)
  obtain ⟨qv, hqv, -⟩ := leaves_of_value hholds hquery
  obtain ⟨e, he⟩ := @error_of_refuses _ backend parser name v hrefuses
  grind

/-- **And what is not is accepted by every parser** that has a field and reads every text. -/
theorem exists_query_of_value (hfields : parser.default_fields ≠ [])
    (htotal : ∀ f text, ∃ tokens, parser.analyze f text = .ok tokens)
    (h : refuses backend name v = false) :
    ∃ q, parser.parse_field_value backend name v = .ok q := by
  rcases v with call | ⟨inclusive, lower, upper⟩ | ⟨content, proximity, b⟩ | ⟨text, fuzziness, b⟩ |
    ⟨pattern, b⟩ | ⟨text, b⟩
  · rcases name with _ | f
    · exact absurd h (by simp [refuses])
    · refine isOk_ok.1 ((isOk_geo call f "").trans ?_)
      simpa [refuses] using h
  · refine create_ok hfields fun f => isOk_ok.1 ((isOk_range _ _ _ f "").trans ?_)
    simpa [refuses] using h
  · obtain ⟨n, hn⟩ := count_ok h
    rw [parse_field_value, parse_phrase_query, hn]
    refine create_ok hfields fun f => ?_
    obtain ⟨tokens, htokens⟩ := htotal f content
    exact ⟨_, by rw [htokens]; rfl⟩
  · obtain ⟨n, hn⟩ := count_ok h
    rw [parse_field_value, parse_fuzzy_term, hn]
    refine create_ok hfields fun f => ?_
    obtain ⟨tokens, htokens⟩ := htotal f text
    exact ⟨_, by rw [htokens]; rfl⟩
  · refine create_ok hfields fun f => ?_
    rcases hnew : WildcardQuery.new backend.compile f pattern with _ | query
    · have hnone := (isNone_wildcard pattern f "").symm.trans (Option.isNone_iff_eq_none.2 hnew)
      exact absurd (hnone.symm.trans h) (by decide)
    · exact ⟨_, rfl⟩
  · refine create_ok hfields fun f => ?_
    obtain ⟨tokens, htokens⟩ := htotal f text
    exact ⟨_, by rw [htokens]; rfl⟩

end LexicalQueryParser

end QueryParser

section KeywordParser

/-!
## A parser that takes texts as they are

Its analyzer keeps a text as one token, so that every value is a leaf (`leaf_of_keyword`), and
its default field is another one than that of a query. It accepts what some parser accepts
(`exists_keyword_terms`).
-/

variable {DateTime : Type}

open ParsedQuery QueryItem Grammar

namespace LexicalQueryParser

variable {backend : ParserBackend DateTime} {parser : LexicalQueryParser}
variable {q : ParsedQuery DateTime} {field : String} {boost : UInt32}

/-- The one token of a text. -/
def whole_token (text : String) : List Token := [{ text, position := 0 }]

/-- A parser whose analyzer keeps a text as one token, with one default field, another one. -/
def keyword_reader (occur : Occur) (field : String) : LexicalQueryParser where
  analyze _ text := .ok (whole_token text)
  default_fields := [field ++ "_"]
  default_occur := occur

theorem append_ne_self (field : String) : field ++ "_" ≠ field := by simp

theorem phrase_graph_of_whole (text : String) :
    phrase_graph (whole_token text) = .graph [text] [] := by
  have harcs : token_arcs (whole_token text) = [(0, 1)] := rfl
  have halternatives : arc_alternatives (whole_token text) = [⟨0, 1, [text]⟩] := by
    rfl
  have hlast : (([⟨0, 1, [text]⟩] : List PhraseArc).map PhraseArc.stop).max? = some 1 := rfl
  have hpaths : complete_paths [⟨0, 1, [text]⟩] 0 1 = [⟨0, 1, [text]⟩] := rfl
  rw [phrase_graph, halternatives, harcs]
  simp only [hlast, List.head?_cons, Option.map_some, Option.getD_some, hpaths]
  rfl

theorem phrase_of_whole (field text : String) (slop : ℕ) (boost : UInt32) :
    phrase_of_tokens field slop boost (whole_token text) =
      (.leaf (.term field text) boost : ParsedQuery DateTime) := by
  rw [phrase_of_tokens, phrase_graph_of_whole]
  rfl

theorem term_of_whole (field text : String) (boost : UInt32) :
    term_of_tokens field boost (whole_token text) =
      (.leaf (.term field text) boost : ParsedQuery DateTime) := by
  rfl

variable {occur : Occur} {name : Option String}

/-- **Such a parser's values are leaves** on their field, or on the default one. -/
theorem leaf_of_keyword {v : ClauseValue}
    (h : (keyword_reader occur field).parse_field_value backend name v = .ok q) :
    ∃ query boost, q = .leaf query boost ∧ query.field = name.getD (field ++ "_") := by
  have hname : ∀ creator : String → Except LaurusError (ParsedQuery DateTime),
      (keyword_reader occur field).create_query_over_fields name creator =
        creator (name.getD (field ++ "_")) := by
    intro creator
    rcases name with _ | f <;> rfl
  rcases v with call | ⟨inclusive, lower, upper⟩ | ⟨content, proximity, b⟩ | ⟨text, fuzziness, b⟩ |
    ⟨pattern, b⟩ | ⟨text, b⟩
  · rcases name with _ | f
    · exact absurd h.symm (by rintro ⟨⟩)
    · obtain ⟨args, _, h⟩ := bind_eq_ok (show parse_geo_query backend (some f) call = _ from h)
      obtain ⟨k, _, h⟩ := bind_eq_ok h
      rcases hgeo : backend.geo_error call.rule args with _ | e
      · rw [hgeo] at h
        rw [← Except.ok.inj h]
        exact ⟨_, _, rfl, rfl⟩
      grind
  · rw [parse_field_value, parse_range_query, hname, range_over_field] at h
    split_ifs at h
    all_goals
      rw [← Except.ok.inj h]
      exact ⟨_, _, rfl, rfl⟩
  · obtain ⟨slop, _, h⟩ := bind_eq_ok
      (show (keyword_reader occur field).parse_phrase_query backend name content proximity b = _
        from h)
    rw [hname] at h
    rw [← Except.ok.inj h, phrase_of_whole]
    exact ⟨_, _, rfl, rfl⟩
  · obtain ⟨edits, _, h⟩ := bind_eq_ok
      (show (keyword_reader occur field).parse_fuzzy_term backend name text fuzziness b = _ from h)
    rw [hname] at h
    rw [← Except.ok.inj h]
    exact ⟨_, _, rfl, rfl⟩
  · rw [parse_field_value, parse_wildcard_term, hname] at h
    rcases hnew : WildcardQuery.new backend.compile (name.getD (field ++ "_")) pattern with
      _ | query
    · grind
    · rw [hnew] at h
      rw [← Except.ok.inj h]
      obtain ⟨regex, _, rfl⟩ := Option.map_eq_some_iff.1 hnew
      exact ⟨_, _, rfl, rfl⟩
  · rw [parse_field_value, parse_simple_term, hname] at h
    rw [← Except.ok.inj h, term_of_whole]
    exact ⟨_, _, rfl, rfl⟩

theorem of_terms_ne_leaf {terms : List (Occur × ParsedQuery DateTime)} {query : LeafQuery DateTime}
    (h : 2 ≤ terms.length) : of_terms terms ≠ .leaf query boost := by
  rcases terms with _ | ⟨t, _ | ⟨u, terms⟩⟩
  · simp at h
  · simp at h
  · rintro ⟨⟩

/-- **One value alone is parsed as it is**, but under a prohibiting default. -/
theorem boolean_query_of_value {v : ClauseValue} :
    parser.parse_boolean_query backend [.value .sub name v] =
      (parser.parse_field_value backend name v).map fun query =>
        of_terms [(parser.default_occur, query)] := by
  rw [parse_boolean_query, parse_items, parse_sub_clause]
  rcases parser.parse_field_value backend name v with e | query
  · rfl
  · change (parser.parse_items backend [] parser.default_occur _ >>= _) = _
    rfl

/-- **Where nothing is refused it has a query**, of one term for each clause. -/
theorem exists_keyword_terms {items : List QueryItem}
    (h : ¬∃ item ∈ items, ∃ name v, Holds item name v ∧ refuses backend name v = true) :
    ∃ terms, (keyword_reader occur field).parse_boolean_query backend items = .ok (of_terms terms) ∧
      terms.length = items.countP is_clause := by
  obtain ⟨terms, hterms⟩ := @exists_terms _ backend (keyword_reader occur field) items
    (keyword_reader occur field).default_occur [] fun item hitem hclause =>
      exists_query_of_values item hclause fun name v hholds =>
        exists_query_of_value (List.cons_ne_nil _ _) (fun _ text => ⟨whole_token text, rfl⟩)
          (Bool.eq_false_iff.2 fun hv => h ⟨item, hitem, name, v, hholds, hv⟩)
  obtain ⟨queries, hall, hqueries⟩ := parse_items_eq_ok hterms
  have hlength := congrArg List.length hqueries
  rw [List.map_nil, List.nil_append, List.length_map, ← hall.length_eq,
    ← List.countP_eq_length_filter] at hlength
  refine ⟨terms, ?_, hlength⟩
  rw [parse_boolean_query, hterms]
  rfl

/-- What others do with texts of ASCII letters only. -/
def ascii_backend : ParserBackend ℕ where
  classes := ⟨Char.isAlpha, Char.isDigit, fun _ _ => rfl, fun _ _ => rfl⟩
  parse_f64 _ := none
  parse_f32 _ := none
  parse_datetime_literal _ := none
  compile _ := none
  geo_error _ _ := none

end LexicalQueryParser

end KeywordParser

end Laurus
