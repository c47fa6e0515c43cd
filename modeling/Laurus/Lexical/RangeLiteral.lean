import Laurus.Lexical.Helpers.QueryParser
import Laurus.Lexical.Helpers.RangeGrammar
import Laurus.Lexical.NumericRange

/-!
# Range literals (`parse_range_query`)

A bound is a star, a quoted string or a word. The kind of a range is guessed from the texts of
both: one number makes it numeric, and a bound that is no number is then dropped. Marks are
taken off the ends of words too. Apart from that a literal that is read keeps its bounds
(`parse_range_sides_iff`).
-/

namespace Laurus

variable {DateTime : Type}

open ParsedQuery QueryItem Grammar

/-! ## What a literal says -/

/-- A word: no blanks and no brackets, and neither a star nor a quoted string. -/
structure IsWord (w : List Char) : Prop where
  ne_nil : w ≠ []
  ne_star : w ≠ ['*']
  plain : ∀ c ∈ w, is_whitespace c = false ∧ c ∉ ['[', ']', '\x7b', '\x7d']
  not_quoted : ∀ content, '"' ∉ content → w ≠ '"' :: (content ++ ['"'])

/-- A bound as it is written. -/
inductive RangeBound
  | star
  | quoted (content : String) (h : '"' ∉ content.toList)
  | word (text : String) (h : IsWord text.toList)

/-- What a bound denotes. -/
inductive RangeValue (DateTime : Type)
  | number (value : F64)
  | date (value : DateTime)
  | text (value : String)

/-- A side of a range. -/
inductive RangeSide (DateTime : Type)
  | unbounded
  | bounded (value : RangeValue DateTime) (inclusive : Bool)

namespace RangeBound

/-- The text that stands between the brackets. -/
def text : RangeBound → String
  | star => "*"
  | quoted content _ => String.ofList ('"' :: (content.toList ++ ['"']))
  | word text _ => text

/-- The text of the value, if there is one. -/
def denoted : RangeBound → Option String
  | star => none
  | quoted content _ => some content
  | word text _ => some text

end RangeBound

/-- The value of a text: a number, a date or the text. -/
def value_of (backend : ParserBackend DateTime) (text : String) : RangeValue DateTime :=
  match backend.parse_f64 text, backend.parse_datetime_literal text with
  | some v, _ => .number v
  | none, some d => .date d
  | none, none => .text text

/-- The side that a bound asks for. -/
def RangeBound.side (backend : ParserBackend DateTime) (inclusive : Bool) (b : RangeBound) :
    RangeSide DateTime :=
  b.denoted.elim .unbounded fun text => .bounded (value_of backend text) inclusive

/-- The side of a `Bound`. -/
def TextBound.side : TextBound → RangeSide DateTime
  | .Included t => .bounded (.text t) true
  | .Excluded t => .bounded (.text t) false
  | .Unbounded => .unbounded

/-- The sides of a range query. -/
def LeafQuery.sides : LeafQuery DateTime → Option (RangeSide DateTime × RangeSide DateTime)
  | .numeric_range q => some
    (q.lower_bound.elim .unbounded fun bytes =>
      .bounded (.number (decode_numeric bytes q.numeric_type)) q.lower_inclusive,
     q.upper_bound.elim .unbounded fun bytes =>
      .bounded (.number (decode_numeric bytes q.numeric_type)) q.upper_inclusive)
  | .datetime_range q => some
    (q.lower_bound.elim .unbounded fun d => .bounded (.date d) q.lower_inclusive,
     q.upper_bound.elim .unbounded fun d => .bounded (.date d) q.upper_inclusive)
  | .range _ lower upper => some (lower.side, upper.side)
  | _ => none

namespace LexicalQueryParser

variable {backend : ParserBackend DateTime} {parser : LexicalQueryParser} {occur : Occur}
variable {q : ParsedQuery DateTime} {field l : String} {inclusive : Bool} {a b : RangeBound}

/-- A literal: `field:[a TO b]` or `field:{a TO b}`. -/
def range_literal (field : String) (inclusive : Bool) (a b : RangeBound) : String :=
  field ++ ":" ++ describe inclusive a.text b.text

/-! ## What the parser makes of two texts -/

/-- The side that the parser makes of a text beside another one: a text beside a number is
dropped. -/
def side_read (backend : ParserBackend DateTime) (inclusive : Bool) (text other : String) :
    RangeSide DateTime :=
  if text = "*" then .unbounded
  else if backend.parse_f64 text = none ∧ (backend.parse_f64 other).isSome then .unbounded
  else .bounded (value_of backend text) inclusive

theorem value_of_number {text : String} {v : F64} (h : backend.parse_f64 text = some v) :
    value_of backend text = .number v := by
  rw [value_of, h]

theorem value_of_date {text : String} {d : DateTime} (h : backend.parse_f64 text = none)
    (hdate : backend.parse_datetime_literal text = some d) : value_of backend text = .date d := by
  rw [value_of, h, hdate]

theorem value_of_text {text : String} (h : backend.parse_f64 text = none)
    (hdate : backend.parse_datetime_literal text = none) :
    value_of backend text = .text text := by
  rw [value_of, h, hdate]

theorem side_read_number {text other : String} (hstar : backend.parse_f64 "*" = none)
    (h : (backend.parse_f64 text).isSome ∨ (backend.parse_f64 other).isSome) :
    side_read backend inclusive text other =
      ((backend.parse_f64 text).map fun v => encode_numeric v .Float).elim .unbounded fun bytes =>
        .bounded (.number (decode_numeric bytes .Float)) inclusive := by
  rw [side_read]
  rcases hnumber : backend.parse_f64 text with _ | v
  · grind
  · have hopen : text ≠ "*" := by grind
    rw [if_neg hopen, if_neg fun h => Option.some_ne_none _ h.1, value_of_number hnumber,
      Option.map_some, Option.elim_some, decode_encode_float]

theorem side_read_date {text other : String} (h : backend.parse_f64 text = none)
    (hother : backend.parse_f64 other = none)
    (hkind : ¬(text ≠ "*" ∧ (datetime_bound backend text).isNone)) :
    side_read backend inclusive text other =
      (datetime_bound backend text).elim .unbounded fun d => .bounded (.date d) inclusive := by
  rw [side_read, datetime_bound] at *
  split_ifs with hopen hdropped
  · rfl
  · grind
  · rw [if_neg hopen] at hkind
    rcases hdate : backend.parse_datetime_literal text with _ | d
    · grind
    · rw [value_of_date h hdate]
      rfl

theorem side_read_text {text other : String} (h : backend.parse_f64 text = none)
    (hother : backend.parse_f64 other = none) (hdate : datetime_bound backend text = none) :
    side_read backend inclusive text other = (to_bound text inclusive).side := by
  rw [side_read, to_bound]
  by_cases hopen : text = "*"
  · rw [if_pos hopen, if_pos hopen]
    rfl
  · rw [datetime_bound, if_neg hopen] at hdate
    have hkept : ¬(backend.parse_f64 text = none ∧ (backend.parse_f64 other).isSome = true) := by
      grind
    rw [if_neg hopen, if_neg hopen, if_neg hkept, value_of_text h hdate]
    rcases inclusive with _ | _ <;> rfl

/-- **The sides of what `parse_range_query` creates.** -/
theorem sides_of_range {lower upper : String} (hstar : backend.parse_f64 "*" = none)
    (h : range_over_field backend inclusive lower upper field = .ok q) :
    ∃ query, q = .leaf query NO_BOOST ∧ query.field = field ∧
      query.sides = some (side_read backend inclusive lower upper,
        side_read backend inclusive upper lower) := by
  rw [range_over_field] at h
  split_ifs at h with hnumber hmixed hdate hkind
  · refine ⟨_, (Except.ok.inj h).symm, rfl, ?_⟩
    rw [side_read_number hstar hnumber, side_read_number hstar hnumber.symm]
    rfl
  · obtain ⟨hlower, hupper⟩ := not_or.1 hnumber
    rw [Option.not_isSome_iff_eq_none] at hlower hupper
    refine ⟨_, (Except.ok.inj h).symm, rfl, ?_⟩
    rw [side_read_date hlower hupper fun hone => hkind (Or.inl hone),
      side_read_date hupper hlower fun hone => hkind (Or.inr hone)]
    rfl
  · obtain ⟨hlower, hupper⟩ := not_or.1 hnumber
    obtain ⟨hlower_dt, hupper_dt⟩ := not_or.1 hdate
    rw [Option.not_isSome_iff_eq_none] at hlower hupper hlower_dt hupper_dt
    refine ⟨_, (Except.ok.inj h).symm, rfl, ?_⟩
    rw [side_read_text hlower hupper hlower_dt, side_read_text hupper hlower hupper_dt]
    rfl

/-! ## What is read of a bound -/

/-- A bound whose text the parser keeps: a quoted string is no star, and a word has no mark at
either end. -/
def Kept : RangeBound → Prop
  | .star => True
  | .quoted content _ => content ≠ "*"
  | .word text _ => text.toList.head? ≠ some '"' ∧ text.toList.getLast? ≠ some '"'

/-- One bound is a number, and this one is not. -/
def Dropped (backend : ParserBackend DateTime) (a b : RangeBound) : Prop :=
  ∃ s ∈ a.denoted, ∃ t ∈ b.denoted, backend.parse_f64 s = none ∧ (backend.parse_f64 t).isSome

theorem ends_value_of_plain {c : Char}
    (h : is_whitespace c = false ∧ c ∉ ['[', ']', '\x7b', '\x7d']) : ends_value c = false := by
  obtain ⟨hspace, hbracket⟩ := h
  simp only [List.mem_cons, List.not_mem_nil, or_false, not_or] at hbracket
  simp [ends_value, hspace, hbracket]

theorem parse_range_value_of_kept (h : Kept a) :
    parse_range_value a.text = a.denoted.getD "*" ∧ a.denoted ≠ some "*" := by
  rcases a with _ | ⟨content, hmarks⟩ | ⟨text, hword⟩
  · exact ⟨rfl, (Option.some_ne_none _).symm⟩
  · have hne : String.ofList ('"' :: (content.toList ++ ['"'])) ≠ "*" := by
      intro heq
      have hlist := congrArg String.toList heq
      rw [String.toList_ofList] at hlist
      grind
    refine ⟨?_, fun heq => h (Option.some.inj heq)⟩
    rw [RangeBound.text, parse_range_value, if_neg hne, trim_quotes_of_quoted hmarks,
      String.ofList_toList]
    rfl
  · have hne : text ≠ "*" := by
      rintro rfl
      exact hword.ne_star rfl
    refine ⟨?_, fun heq => hne (Option.some.inj heq)⟩
    have htrim := trim_quotes_of_ends h.1 h.2
    rw [String.ofList_toList] at htrim
    rw [RangeBound.text, parse_range_value, if_neg hne, htrim]
    rfl

/-- **A kept bound has its side**, but beside a number it is not. -/
theorem side_of_kept (hstar : backend.parse_f64 "*" = none) (ha : Kept a) (hb : Kept b) :
    side_read backend inclusive (parse_range_value a.text) (parse_range_value b.text) =
      a.side backend inclusive ↔ ¬Dropped backend a b := by
  obtain ⟨hlower, hopen⟩ := parse_range_value_of_kept ha
  obtain ⟨hupper, -⟩ := parse_range_value_of_kept hb
  rw [hlower, hupper, side_read, RangeBound.side]
  rcases hs : a.denoted with _ | s
  · refine iff_of_true rfl ?_
    rintro ⟨s, hmem, -⟩
    grind
  · rw [hs] at hopen
    have hiff : backend.parse_f64 s = none ∧ (backend.parse_f64 (b.denoted.getD "*")).isSome ↔
        Dropped backend a b := by
      constructor
      · rintro ⟨hnone, hsome⟩
        rcases ht : b.denoted with _ | t
        · grind
        · rw [ht] at hsome
          exact ⟨s, hs, t, ht, hnone, hsome⟩
      · rintro ⟨s', hs', t, ht, hnone, hsome⟩
        grind [Option.mem_def]
    grind

theorem eq_of_value_of {s t : String} (h : value_of backend s = .text t) : s = t := by
  rw [value_of] at h
  grind

theorem value_of_side_read {s other : String} {v : RangeValue DateTime}
    (h : side_read backend inclusive s other = .bounded v inclusive) :
    s ≠ "*" ∧ value_of backend s = v := by
  rw [side_read] at h
  grind

variable {tail rest : List Char} {other : String}

/-- What `f64` and dates are not written with. -/
def PlainNumbers (backend : ParserBackend DateTime) : Prop :=
  ∀ s : String, '"' ∈ s.toList ∨ 'O' ∈ s.toList →
    backend.parse_f64 s = none ∧ backend.parse_datetime_literal s = none

/-- **A side that is right was read as it is written**, and its bound is kept. -/
theorem kept_of_side (hplain : PlainNumbers backend)
    (htail : ∀ c ∈ tail.head?, ends_value c = true)
    (h : range_value.run (a.text.toList ++ tail) = some (l, rest))
    (hside : side_read backend inclusive (parse_range_value l) other = a.side backend inclusive) :
    l = a.text ∧ rest = tail ∧ Kept a := by
  rcases a with _ | ⟨content, hcontent⟩ | ⟨text, hword⟩
  · obtain ⟨rfl, rfl⟩ := star_read h
    exact ⟨rfl, rfl, trivial⟩
  · rw [RangeBound.text, String.toList_ofList, List.cons_append, List.append_assoc] at h
    obtain ⟨rfl, rfl⟩ := quoted_read hcontent h
    refine ⟨rfl, rfl, ?_⟩
    rintro rfl
    exact (value_of_side_read hside).1 rfl
  · obtain ⟨hopen, hvalue⟩ := value_of_side_read hside
    have hl : l ≠ "*" := by
      rintro rfl
      exact hopen rfl
    rw [parse_range_value, if_neg hl] at hvalue
    -- a text with a mark or an `O` is nothing but a text
    have heq : '"' ∈ text.toList ∨ 'O' ∈ text.toList → trim_quotes l = text := by
      intro hmem
      obtain ⟨hnumber, hdate⟩ := hplain text hmem
      rw [value_of_text hnumber hdate] at hvalue
      exact eq_of_value_of hvalue
    rcases word_read (fun c hc => ends_value_of_plain (hword.plain c hc)) hword.ne_nil htail h with
      ⟨hread, hrest⟩ | hread | ⟨hmem, hne⟩
    · rw [String.ofList_toList] at hread
      have hends : ¬(text.toList.head? = some '"' ∨ text.toList.getLast? = some '"') := by
        grind [List.mem_of_mem_head?, length_trim_quotes_lt, String.ofList_toList]
      exact ⟨hread, hrest, fun hfirst => hends (Or.inl hfirst), fun hlast => hends (Or.inr hlast)⟩
    · exact absurd hread hl
    grind

/-! ## What is read of a literal -/

theorem range_literal_toList (field : String) (inclusive : Bool) (a b : RangeBound) :
    (range_literal field inclusive a b).toList =
      field.toList ++ ':' :: left_bracket inclusive ::
        (a.text.toList ++ ' ' :: 'T' :: 'O' :: ' ' ::
          (b.text.toList ++ [right_bracket inclusive])) := by
  rw [range_literal, describe]
  rcases inclusive with _ | _ <;> simp [left_bracket, right_bracket]

theorem dropWhile_text (a : RangeBound) (more : List Char) :
    (a.text.toList ++ more).dropWhile is_whitespace = a.text.toList ++ more := by
  rcases a with _ | ⟨content, hcontent⟩ | ⟨text, hword⟩
  · rfl
  · rw [RangeBound.text, String.toList_ofList]
    exact List.dropWhile_cons_of_neg (by decide)
  · rw [RangeBound.text]
    rcases hlist : text.toList with _ | ⟨c, cs⟩
    · exact absurd hlist hword.ne_nil
    grind [IsWord.plain, List.dropWhile_cons_of_neg]

/-- A query has the sides of a literal. -/
def HasSides (backend : ParserBackend DateTime) (field : String) (inclusive : Bool)
    (a b : RangeBound) (q : ParsedQuery DateTime) : Prop :=
  ∃ query boost, q = .leaf query boost ∧ query.field = field ∧
    query.sides = some (a.side backend inclusive, b.side backend inclusive)

theorem ends_value_right_bracket (inclusive : Bool) :
    ∀ c ∈ [right_bracket inclusive].head?, ends_value c = true := by
  rintro c ⟨⟩
  rcases inclusive with _ | _ <;> rfl

/-- **A literal's range with the right sides was read as it is written.** -/
theorem range_of_sides {v : ClauseValue} (hstar : backend.parse_f64 "*" = none)
    (hplain : PlainNumbers backend)
    (hread : (field_value backend.classes).run (left_bracket inclusive ::
      (a.text.toList ++ ' ' :: 'T' :: 'O' :: ' ' ::
        (b.text.toList ++ [right_bracket inclusive]))) = some (v, rest))
    (hvalue : parser.parse_field_value backend (some field) v = .ok q)
    (hsides : HasSides backend field inclusive a b q) :
    v = .range inclusive a.text b.text ∧ Kept a ∧ Kept b ∧ ¬Dropped backend a b ∧
      ¬Dropped backend b a := by
  rw [field_value_of_bracket] at hread
  obtain ⟨lower, upper, mid, more, last, rfl, hlower, hto, hupper, -⟩ := range_of_eq_some hread
  obtain ⟨query, boost, rfl, -, hquery⟩ := hsides
  obtain ⟨leaf, hleaf, -, hread_sides⟩ := sides_of_range hstar hvalue
  injection hleaf with hleaf _
  rw [hleaf, hread_sides, Option.some.injEq, Prod.mk.injEq] at hquery
  rw [dropWhile_text] at hlower
  obtain ⟨rfl, rfl, ha⟩ := kept_of_side hplain (by rintro c ⟨⟩; rfl) hlower hquery.1
  have hmore : more = ' ' :: (b.text.toList ++ [right_bracket inclusive]) :=
    (Prod.mk.inj (Option.some.inj hto)).2.symm
  rw [hmore, List.dropWhile_cons_of_pos (by decide), dropWhile_text] at hupper
  grind [kept_of_side, ends_value_right_bracket, side_of_kept]

/-- When a literal keeps its bounds: the grammar reads it, if at all, as the range between its
two texts, or with a value that every parser refuses; and a range that is not refused has kept
bounds, no number beside another kind, and no prohibiting default. -/
def KeepsBounds (backend : ParserBackend DateTime) (occur : Occur) (field : String)
    (inclusive : Bool) (a b : RangeBound) : Prop :=
  ∀ items, Grammar.query backend.classes (range_literal field inclusive a b).toList = some items →
    (∃ item ∈ items, ∃ name v, Holds item name v ∧ refuses backend name v = true) ∨
    (items = [.value .sub (some field) (.range inclusive a.text b.text)] ∧ Kept a ∧ Kept b ∧
      ¬Dropped backend a b ∧ ¬Dropped backend b a ∧ occur ≠ .must_not)

theorem sides_of_keeps (hstar : backend.parse_f64 "*" = none)
    (hkeeps : KeepsBounds backend parser.default_occur field inclusive a b)
    (h : parser.parse backend (range_literal field inclusive a b) = .ok q) :
    HasSides backend field inclusive a b q := by
  obtain ⟨items, hitems, h⟩ := parse_eq_ok.1 h
  rcases hkeeps items hitems with hrefuses | ⟨rfl, ha, hb, hdropped, hdropped', hoccur⟩
  · exact absurd h (not_ok_of_refuses hrefuses)
  · rw [boolean_query_of_value] at h
    rcases hvalue : parser.parse_field_value backend (some field)
        (.range inclusive a.text b.text) with e | query
    · rw [hvalue] at h
      exact absurd h.symm (by rintro ⟨⟩)
    · rw [hvalue] at h
      have hq : of_terms [(parser.default_occur, query)] = q := Except.ok.inj h
      rw [of_terms, if_neg hoccur] at hq
      subst hq
      obtain ⟨leaf, rfl, hfield, hsides⟩ := sides_of_range hstar hvalue
      refine ⟨leaf, NO_BOOST, rfl, hfield, ?_⟩
      grind [side_of_kept]

/-- **The parser that takes texts as they are shows what a literal loses.** -/
theorem keeps_of_keyword (hfield : IsField field.toList) (hstar : backend.parse_f64 "*" = none)
    (hplain : PlainNumbers backend)
    (h : ∀ q, (keyword_reader occur field).parse backend (range_literal field inclusive a b) =
      .ok q → HasSides backend field inclusive a b q) :
    KeepsBounds backend occur field inclusive a b := by
  intro items hitems
  by_cases hrefuses : ∃ item ∈ items, ∃ name v, Holds item name v ∧ refuses backend name v = true
  · exact Or.inl hrefuses
  refine Or.inr ?_
  -- nothing is refused, so there is a query, and it is a leaf
  obtain ⟨terms, hparse, hlength⟩ := @exists_keyword_terms _ backend field occur items hrefuses
  obtain ⟨query, boost, hleaf, hqfield, hqsides⟩ := h _ (parse_eq_ok.2 ⟨items, hitems, hparse⟩)
  obtain ⟨first, mid, hclause⟩ := exists_first_clause hitems
  obtain rfl : items = [first] := by
    grind [one_clause_of_query, of_terms_ne_leaf, two_clauses_of_query]
  -- the leaf is the value of the field
  rw [range_literal_toList, dropWhile_field hfield] at hclause
  obtain ⟨n, v, rfl, hname⟩ := clause_at_field hfield
    (by rintro c ⟨⟩; rcases inclusive with _ | _ <;> rfl) hclause
  rw [boolean_query_of_value] at hparse
  rcases hvalue : (keyword_reader occur field).parse_field_value backend n v with e | value
  · rw [hvalue] at hparse
    exact absurd hparse.symm (by rintro ⟨⟩)
  rw [hvalue] at hparse
  have hone : of_terms [(occur, value)] = of_terms terms := Except.ok.inj hparse
  rw [hleaf, of_terms] at hone
  split_ifs at hone with hoccur
  obtain ⟨leaf, b', rfl, hleaf_field⟩ := leaf_of_keyword hvalue
  injection hone with hquery _
  rcases hname with rfl | ⟨rfl, hread⟩
  · rw [hquery, hqfield] at hleaf_field
    exact absurd hleaf_field.symm (append_ne_self field)
  · rw [String.ofList_toList] at hvalue ⊢
    obtain ⟨rfl, ha, hb, hdropped, hdropped'⟩ := range_of_sides hstar hplain hread hvalue
      ⟨leaf, b', rfl, by rw [hquery]; exact hqfield, by rw [hquery]; exact hqsides⟩
    grind

/-- **A range literal keeps both bounds exactly where it is read as it is written**, no mark is
taken off it and no number stands beside another kind. -/
theorem parse_range_sides_iff (backend : ParserBackend DateTime) (occur : Occur) (field : String)
    (inclusive : Bool) (a b : RangeBound) (hfield : IsField field.toList)
    (hstar : backend.parse_f64 "*" = none) (hplain : PlainNumbers backend) :
    (∀ (parser : LexicalQueryParser) (q : ParsedQuery DateTime), parser.default_occur = occur →
      parser.parse backend (range_literal field inclusive a b) = .ok q →
        HasSides backend field inclusive a b q) ↔
      KeepsBounds backend occur field inclusive a b := by
  constructor
  · exact fun h => keeps_of_keyword hfield hstar hplain fun q => h (keyword_reader occur field) q rfl
  · rintro hkeeps parser q rfl h
    exact sides_of_keeps hstar hkeeps h

/-- What others do with the number 10 and with ASCII words. -/
def ten_backend : ParserBackend ℕ :=
  { ascii_backend with
    parse_f64 := fun text => if text = "10" then some ⟨0x4024000000000000⟩ else none }

theorem plainNumbers_ten : PlainNumbers ten_backend := by
  intro s hs
  refine ⟨if_neg ?_, rfl⟩
  rintro rfl
  exact absurd hs (by decide)

theorem isWord_of_head {w : List Char} (hne : w ≠ []) (hstar : w ≠ ['*'])
    (hplain : ∀ c ∈ w, is_whitespace c = false ∧ c ∉ ['[', ']', '\x7b', '\x7d'])
    (hhead : w.head? ≠ some '"') : IsWord w :=
  ⟨hne, hstar, hplain, fun content _ h => hhead (by rw [h]; rfl)⟩

theorem isWord_ten : IsWord "10".toList :=
  isWord_of_head (by decide) (by decide) (by simp [is_whitespace]) (by decide)

theorem isWord_abc : IsWord "abc".toList :=
  isWord_of_head (by decide) (by decide) (by simp [is_whitespace]) (by decide)

/-- The bound `10`. -/
def ten_bound : RangeBound := .word "10" isWord_ten

/-- The bound `abc`. -/
def letters_bound : RangeBound := .word "abc" isWord_abc

theorem price_from_ten : range_over_field ten_backend true "10" "*" "price" =
    .ok (.leaf (.numeric_range (NumericRangeQuery.new "price" .Float (some ⟨0x4024000000000000⟩)
      none true true)) NO_BOOST) := rfl

theorem parse_range_sides_iff_ten :
    KeepsBounds ten_backend .should "price" true ten_bound .star ∧
      HasSides ten_backend "price" true ten_bound .star
        (.leaf (.numeric_range (NumericRangeQuery.new "price" .Float (some ⟨0x4024000000000000⟩)
          none true true)) NO_BOOST) := by
  have hread : Grammar.query ten_backend.classes
      (range_literal "price" true ten_bound .star).toList =
        some [.value .sub (some "price") (.range true "10" "*")] := rfl
  have hkeeps : KeepsBounds ten_backend .should "price" true ten_bound .star := by
    intro items hitems
    refine Or.inr ⟨Option.some.inj (hitems.symm.trans hread), And.intro (by decide) (by decide),
      trivial, ?_, ?_, by decide⟩
    · rintro ⟨s, -, t, ht, -⟩
      exact absurd ht.symm (Option.some_ne_none t)
    · rintro ⟨s, hs, -⟩
      exact absurd hs.symm (Option.some_ne_none s)
  refine ⟨hkeeps, (parse_range_sides_iff ten_backend .should "price" true ten_bound .star rfl rfl
    plainNumbers_ten).2 hkeeps (keyword_reader .should "price") _ rfl
      (parse_eq_ok.2 ⟨_, hread, ?_⟩)⟩
  rw [boolean_query_of_value]
  exact congrArg (Except.map fun query => of_terms [(Occur.should, query)]) price_from_ten

/-- Beside a number a word is dropped: the range has no upper side. -/
theorem parse_range_sides_iff_counterexample :
    ∃ query : LeafQuery ℕ, (keyword_reader .should "price").parse ten_backend
        (range_literal "price" true ten_bound letters_bound) = .ok (.leaf query NO_BOOST) ∧
      query.sides = some (.bounded (.number ⟨0x4024000000000000⟩) true, .unbounded) ∧
      ¬HasSides ten_backend "price" true ten_bound letters_bound (.leaf query NO_BOOST) := by
  have hread : Grammar.query ten_backend.classes
      (range_literal "price" true ten_bound letters_bound).toList =
        some [.value .sub (some "price") (.range true "10" "abc")] := rfl
  have hsides : (LeafQuery.numeric_range (NumericRangeQuery.new "price" .Float
      (some ⟨0x4024000000000000⟩) none true true) : LeafQuery ℕ).sides =
        some (.bounded (.number ⟨0x4024000000000000⟩) true, .unbounded) := rfl
  refine ⟨_, parse_eq_ok.2 ⟨_, hread, ?_⟩, hsides, ?_⟩
  · rw [boolean_query_of_value]
    rfl
  · rintro ⟨query, boost, heq, -, hother⟩
    injection heq with heq _
    rw [← heq, hsides, Option.some.injEq, Prod.mk.injEq] at hother
    injection hother.2

end LexicalQueryParser

end Laurus
