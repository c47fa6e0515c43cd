import Laurus.Lexical.Helpers.QueryParser

/-!
# A field's text and the field (`parse_field`)

The text is put behind the field and read again. Quotation marks in it are escaped, but a
phrase ends at any mark: what stands behind the first one is read as clauses of its own. So a
text stays in its field when the grammar finds nothing else behind the field, or something
that every parser refuses (`parse_field_stays_iff`).
-/

namespace Laurus

variable {DateTime : Type}

open ParsedQuery QueryItem Grammar

namespace LexicalQueryParser

variable {backend : ParserBackend DateTime} {parser : LexicalQueryParser} {occur : Occur}
variable {q : ParsedQuery DateTime} {field : String}

/-- A text with spaces and no leading mark. -/
def Spaced (text : List Char) : Prop := text.contains ' ' = true ∧ text.head? ≠ some '"'

/-! ## What is read of a spaced text -/

variable {s : List Char} {text : String}

theorem dropWhile_append_of_neg {c : Char} {more : List Char}
    (hc : is_whitespace c = false) : (s ++ c :: more).dropWhile is_whitespace =
      s.dropWhile is_whitespace ++ c :: more := by
  induction s with
  | nil => rw [List.nil_append, List.dropWhile_cons_of_neg (by rw [hc]; decide)]; rfl
  | cons d s ih =>
      grind [is_whitespace, List.dropWhile_cons_of_pos, List.dropWhile_cons_of_neg]

theorem mem_of_mem_dropWhile {c : Char}
    (h : c ∈ s.dropWhile is_whitespace) : c ∈ s := (List.dropWhile_suffix _).subset h

/-- **A spaced text is read as a phrase first**, up to the first mark. -/
theorem clause_of_marks (classes : UnicodeClasses) {name content more : List Char}
    (h : IsField name) (hcontent : '"' ∉ content) (nested : Rule (List QueryItem)) :
    ∃ proximity boost rest,
      (phrase_end (String.ofList (content.dropWhile is_whitespace))).run more =
        some (.phrase (String.ofList (content.dropWhile is_whitespace)) proximity boost, rest) ∧
      (clause classes nested).run (name ++ ':' :: '"' :: (content ++ '"' :: more)) =
        some (.value .sub (some (String.ofList name))
          (.phrase (String.ofList (content.dropWhile is_whitespace)) proximity boost), rest) := by
  obtain ⟨proximity, boost, rest, hrest⟩ :=
    exists_phrase_end (String.ofList (content.dropWhile is_whitespace)) more
  refine ⟨proximity, boost, rest, hrest, clause_of_field h (by rintro d ⟨⟩; decide) ?_⟩
  exact field_value_phrase (dropWhile_append_of_neg (by decide))
    (fun hmem => hcontent (mem_of_mem_dropWhile hmem)) hrest

theorem escape_quotes_of_not_mem {text : List Char} (h : '"' ∉ text) :
    escape_quotes text = text := by
  induction text with
  | nil => rfl
  | cons c text ih =>
      have hc : c ≠ '"' := fun heq => h (heq ▸ List.mem_cons_self)
      rw [escape_quotes, List.flatMap_cons, if_neg hc, ← escape_quotes,
        ih fun hmem => h (List.mem_cons_of_mem _ hmem)]
      rfl

theorem full_query_of_spaced (h : Spaced text.toList) :
    (full_query field text).toList =
      field.toList ++ ':' :: '"' :: (escape_quotes text.toList ++ ['"']) := by
  have hcases : text.toList.contains ' ' = true ∧ text.toList.head? ≠ some '"' := h
  rw [full_query, if_pos hcases, String.toList_ofList]
  simp

/-- **A spaced text without marks is one phrase**, but for blanks before it. -/
theorem query_of_no_mark (hfield : IsField field.toList)
    (hspaced : Spaced text.toList) (hmark : '"' ∉ text.toList) :
    Grammar.query backend.classes (full_query field text).toList =
      some [.value .sub (some field)
        (.phrase (String.ofList (text.toList.dropWhile is_whitespace)) none none)] := by
  rw [full_query_of_spaced hspaced, escape_quotes_of_not_mem hmark]
  refine query_of_last ?_
  rw [dropWhile_field hfield]
  obtain ⟨proximity, boost, rest, hend, hclause⟩ := @clause_of_marks backend.classes
    field.toList text.toList [] hfield hmark (boolean_query backend.classes
      (field.toList ++ ':' :: '"' :: (text.toList ++ ['"'])).length)
  have hnil : (phrase_end (String.ofList (text.toList.dropWhile is_whitespace))).run [] =
      some (.phrase (String.ofList (text.toList.dropWhile is_whitespace)) none none, []) := rfl
  grind [String.ofList_toList]

/-- **A spaced text with a mark is more clauses than one**, if it is read at all. -/
theorem two_clauses_of_mark {items : List QueryItem}
    (hfield : IsField field.toList) (hspaced : Spaced text.toList) (hmark : '"' ∈ text.toList)
    (h : Grammar.query backend.classes (full_query field text).toList = some items) :
    2 ≤ items.countP is_clause := by
  -- the text up to its first mark, and what stands behind that
  obtain ⟨front, back, htext, hfront⟩ := List.eq_append_cons_of_mem hmark
  have hescape : escape_quotes text.toList ++ ['"'] =
      (front ++ ['\\']) ++ '"' :: (escape_quotes back ++ ['"']) := by
    have hsplit : escape_quotes text.toList = escape_quotes front ++ '\\' :: '"' ::
        escape_quotes back := by
      rw [htext, escape_quotes, List.flatMap_append, List.flatMap_cons]
      rfl
    rw [hsplit, escape_quotes_of_not_mem hfront]
    simp
  rw [full_query_of_spaced hspaced, hescape] at h
  have hcontent : '"' ∉ front ++ ['\\'] := by grind
  obtain ⟨proximity, boost, rest, hend, hclause⟩ := @clause_of_marks backend.classes
    field.toList (front ++ ['\\']) (escape_quotes back ++ ['"']) hfield hcontent
    (boolean_query backend.classes (field.toList ++ ':' :: '"' ::
      ((front ++ ['\\']) ++ '"' :: (escape_quotes back ++ ['"']))).length)
  refine two_clauses_of_query (by rw [dropWhile_field hfield]; exact hclause) ?_ h
  -- the last mark is left
  obtain ⟨taken, htaken, hok⟩ := takes_phrase_end _ hend
  have hlast : '"' ∈ taken ++ rest := by grind
  intro hnil
  rcases List.mem_append.1 hlast with hlast | hlast
  · exact hok _ hlast rfl
  · exact absurd (List.dropWhile_eq_nil_iff.1 hnil _ hlast) (by decide)

/-! ## When a text stays in its field -/

/-- When a text stays in its field: what the grammar reads holds a value that every parser
refuses, or has all its values in that field; and a spaced text has then no mark in it, no
blank before it, and no prohibiting default. -/
def StaysInField (backend : ParserBackend DateTime) (occur : Occur) (field text : String) : Prop :=
  ∀ items, Grammar.query backend.classes (full_query field text).toList = some items →
    (∃ item ∈ items, ∃ name v, Holds item name v ∧ refuses backend name v = true) ∨
    ((∀ item ∈ items, ∀ name v, Holds item name v → name = some field) ∧
      (Spaced text.toList → '"' ∉ text.toList ∧
        (∀ c ∈ text.toList.head?, is_whitespace c = false) ∧ occur ≠ .must_not))

/-- The query of a spaced text, from the parser that takes texts as they are. -/
theorem phrase_of_text (text : String) :
    (keyword_reader occur field).parse_phrase_query backend (some field) text none none =
      .ok (.leaf (.term field text) NO_BOOST) := by
  change Except.ok (phrase_of_tokens field 0 NO_BOOST (whole_token text)) = _
  rw [phrase_of_whole]

theorem eq_of_dropWhile_eq (h : s.dropWhile is_whitespace = s) :
    ∀ c ∈ s.head?, is_whitespace c = false := by
  rcases s with _ | ⟨d, s⟩
  · rintro c ⟨⟩
  · rintro c ⟨⟩
    rw [Bool.eq_false_iff]
    intro hd
    rw [List.dropWhile_cons_of_pos hd] at h
    have hle := (List.dropWhile_suffix (l := s) is_whitespace).length_le
    grind

theorem dropWhile_of_head (h : ∀ c ∈ s.head?, is_whitespace c = false) :
    s.dropWhile is_whitespace = s := by
  rcases s with _ | ⟨d, s⟩
  · rfl
  · exact List.dropWhile_cons_of_neg (by rw [h d rfl]; decide)

variable {query_str : String}

theorem onlyOn_of_stays (hstays : StaysInField backend parser.default_occur field query_str)
    (h : parser.parse_field backend field query_str = .ok q) : OnlyOn q field := by
  obtain ⟨items, hitems, hparse⟩ := parse_eq_ok.1 h
  obtain ⟨queries, hall, hleaves⟩ := boolean_query_eq_ok hparse
  rcases hstays items hitems with hrefuses | ⟨hnames, -⟩
  · exact absurd hparse (not_ok_of_refuses hrefuses)
  · intro g hg
    obtain ⟨query, hquery, hleaf⟩ := (hleaves g).1 hg
    obtain ⟨item, hitem, hsub⟩ := exists_of_mem_queries hall hquery
    obtain ⟨name, v, qv, hholds, hqv, hv⟩ := exists_value_of_leaf item query hsub hleaf
    rw [hnames item hitem name v hholds] at hqv
    exact field_of_leaf hqv g hv

theorem phrase_of_stays (hfield : IsField field.toList)
    (hstays : StaysInField backend parser.default_occur field query_str)
    (hspaced : Spaced query_str.toList)
    (h : parser.parse_field backend field query_str = .ok q) :
    parser.parse_phrase_query backend (some field) query_str none none = .ok q := by
  obtain ⟨items, hitems, hparse⟩ := parse_eq_ok.1 h
  rcases hstays items hitems with hrefuses | ⟨-, htext⟩
  · exact absurd hparse (not_ok_of_refuses hrefuses)
  · obtain ⟨hmark, hblank, hoccur⟩ := htext hspaced
    rw [query_of_no_mark hfield hspaced hmark, dropWhile_of_head hblank, String.ofList_toList]
      at hitems
    rw [← Option.some.inj hitems, boolean_query_of_value] at hparse
    rcases hphrase : parser.parse_phrase_query backend (some field) query_str none none with
      e | query
    · rw [parse_field_value, hphrase] at hparse
      exact absurd hparse.symm (by rintro ⟨⟩)
    · rw [parse_field_value, hphrase] at hparse
      have hquery : of_terms [(parser.default_occur, query)] = q := Except.ok.inj hparse
      rw [of_terms, if_neg hoccur] at hquery
      rw [hquery]

/-- **The parser that takes texts as they are shows what leaves its field.** -/
theorem stays_of_keyword (hfield : IsField field.toList)
    (h : ∀ q : ParsedQuery DateTime,
      (keyword_reader occur field).parse_field backend field query_str = .ok q →
        OnlyOn q field ∧ (Spaced query_str.toList →
          (keyword_reader occur field).parse_phrase_query backend (some field) query_str none none =
            .ok q)) : StaysInField backend occur field query_str := by
  intro items hitems
  by_cases hrefuses : ∃ item ∈ items, ∃ name v, Holds item name v ∧ refuses backend name v = true
  · exact Or.inl hrefuses
  refine Or.inr ?_
  -- nothing is refused, so there is a query
  obtain ⟨terms, hparse, hlength⟩ := @exists_keyword_terms _ backend field occur items hrefuses
  obtain ⟨honly, hphrase⟩ := h (of_terms terms) (parse_eq_ok.2 ⟨items, hitems, hparse⟩)
  constructor
  · intro item hitem name v hholds
    obtain ⟨queries, hall, hleaves⟩ := boolean_query_eq_ok hparse
    obtain ⟨query, hmem, hquery⟩ := exists_of_mem_items hall hitem (is_clause_of_holds hholds)
    obtain ⟨qv, hqv, hincl⟩ := leaves_of_value hholds hquery
    obtain ⟨leaf, b, rfl, hleaf⟩ := leaf_of_keyword hqv
    have hname := honly _ ((hleaves _).2 ⟨query, hmem, hincl _ (leafOn_leaf.2 hleaf.symm)⟩)
    rcases name with _ | f
    · exact absurd hname (append_ne_self field)
    grind
  · intro hspaced
    have hleaf : of_terms terms = .leaf (.term field query_str) NO_BOOST :=
      (Except.ok.inj ((phrase_of_text query_str).symm.trans (hphrase hspaced))).symm
    have hmark : '"' ∉ query_str.toList := by
      intro hmem
      -- a mark is followed by another clause, and two clauses are no phrase
      have htwo := two_clauses_of_mark hfield hspaced hmem hitems
      exact of_terms_ne_leaf (hlength ▸ htwo) hleaf
    refine ⟨hmark, ?_⟩
    -- now the query is the phrase of the text without its blanks
    rw [query_of_no_mark hfield hspaced hmark] at hitems
    rw [← Option.some.inj hitems, boolean_query_of_value, parse_field_value, phrase_of_text]
      at hparse
    have hterm : of_terms [(occur, .leaf (.term field (String.ofList
        (query_str.toList.dropWhile is_whitespace))) NO_BOOST)] = of_terms terms :=
      Except.ok.inj hparse
    grind [of_terms, eq_of_dropWhile_eq, String.toList_ofList]

/-- **`parse_field` stays in its field exactly where the text does**: every query is on that
field only, and that of a spaced text is the phrase of the text. -/
theorem parse_field_stays_iff (backend : ParserBackend DateTime) (occur : Occur)
    (field query_str : String) (hfield : IsField field.toList) :
    (∀ (parser : LexicalQueryParser) (q : ParsedQuery DateTime), parser.default_occur = occur →
      parser.parse_field backend field query_str = .ok q →
        OnlyOn q field ∧ (Spaced query_str.toList →
          parser.parse_phrase_query backend (some field) query_str none none = .ok q)) ↔
      StaysInField backend occur field query_str := by
  constructor
  · exact fun h => stays_of_keyword hfield fun q => h (keyword_reader occur field) q rfl
  · rintro hstays parser q rfl h
    exact ⟨onlyOn_of_stays hstays h, fun hspaced => phrase_of_stays hfield hstays hspaced h⟩

theorem parse_field_stays_iff_words :
    StaysInField ascii_backend .should "title" "rust lang" ∧
      OnlyOn (.leaf (.term "title" "rust lang") NO_BOOST : ParsedQuery ℕ) "title" := by
  have hfield : IsField "title".toList := rfl
  have hmark : '"' ∉ "rust lang".toList := by decide
  have hspaced : Spaced "rust lang".toList := ⟨rfl, by decide⟩
  have hhead : ∀ c ∈ "rust lang".toList.head?, is_whitespace c = false := by simp [is_whitespace]
  have hstays : StaysInField ascii_backend .should "title" "rust lang" := by
    intro items hitems
    rw [query_of_no_mark hfield hspaced hmark] at hitems
    rw [← Option.some.inj hitems]
    refine Or.inr ⟨?_, fun _ => ⟨hmark, hhead, by decide⟩⟩
    rintro item hitem name v hholds
    rw [List.mem_singleton.1 hitem] at hholds
    rcases hholds with _ | _
    rfl
  refine ⟨hstays, ((parse_field_stays_iff ascii_backend .should "title" "rust lang" hfield).2 hstays
    (keyword_reader .should "title") _ rfl
    (parse_eq_ok.2 ⟨_, query_of_no_mark hfield hspaced hmark, ?_⟩)).1⟩
  rw [boolean_query_of_value, parse_field_value, dropWhile_of_head hhead,
    String.ofList_toList, phrase_of_text]
  rfl

/-- A mark in the text closes the phrase, and the text goes on in another field. -/
theorem parse_field_stays_iff_counterexample :
    ∃ q, (keyword_reader .should "title").parse_field ascii_backend "title"
        "a\" secret:x \\\"b" = .ok q ∧ LeafOn q "secret" ∧ ¬OnlyOn q "title" := by
  have hitems : Grammar.query ascii_backend.classes
      (full_query "title" "a\" secret:x \\\"b").toList =
        some [.value .sub (some "title") (.phrase "a\\" none none),
          .value .sub (some "secret") (.simple "x" none), .value .sub none (.simple "\\\\" none),
          .value .sub none (.phrase "b" none none)] := rfl
  have hphrase : ∀ name text, (keyword_reader .should "title").parse_phrase_query ascii_backend name
      text none none = .ok (.leaf (.term (name.getD "title_") text) NO_BOOST) := by
    intro name text
    rcases name with _ | f
    · exact congrArg Except.ok (phrase_of_whole "title_" text 0 NO_BOOST)
    · exact congrArg Except.ok (phrase_of_whole f text 0 NO_BOOST)
  have hterm : ∀ name text, (keyword_reader .should "title").parse_simple_term ascii_backend name
      text none = .ok (.leaf (.term (name.getD "title_") text) NO_BOOST) := by
    intro name text
    rcases name with _ | f
    · exact congrArg Except.ok (term_of_whole "title_" text NO_BOOST)
    · exact congrArg Except.ok (term_of_whole f text NO_BOOST)
  have hsecret : LeafOn (.boolean [(.should, .leaf (.term "title" "a\\") NO_BOOST),
      (.should, .leaf (.term "secret" "x") NO_BOOST),
      (.should, .leaf (.term "title_" "\\\\") NO_BOOST),
      (.should, .leaf (.term "title_" "b") NO_BOOST)] NO_BOOST : ParsedQuery ℕ) "secret" :=
    leafOn_boolean.2 ⟨_, List.mem_cons_of_mem _ List.mem_cons_self, leafOn_leaf.2 rfl⟩
  refine ⟨_, parse_eq_ok.2 ⟨_, hitems, ?_⟩, hsecret,
    fun honly => absurd (honly _ hsecret) (by decide)⟩
  rw [parse_boolean_query]
  simp only [parse_items, parse_sub_clause, parse_field_value, hphrase, hterm]
  rfl

end LexicalQueryParser

end Laurus
