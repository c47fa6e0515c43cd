import Laurus.Boolean.Model.Query
import Laurus.Lexical.Model.AutomatonTerms
import Laurus.Lexical.Model.NumericRange
import Laurus.Lexical.Model.PhraseGraph
import Laurus.Lexical.Model.QueryGrammar

/-!
# The query parser (`lexical/query/parser.rs`)

The analyzer is a function of the field and the text. What other crates and the standard
library read of texts is a parameter, and so are the checks of geographic arguments; a
boost is the bits of its `f32`. The texts of other crates' errors are left out.
-/

namespace Laurus

/-- What the parser has others do. -/
structure ParserBackend (DateTime : Type) where
  classes : UnicodeClasses
  /-- `str::parse::<f64>`. -/
  parse_f64 : String → Option F64
  /-- `str::parse::<f32>`, as bits. -/
  parse_f32 : String → Option UInt32
  /-- `parse_datetime_literal`. -/
  parse_datetime_literal : String → Option DateTime
  /-- `Regex::new`. -/
  compile : String → Option Regex
  /-- What the queries say against geographic arguments. -/
  geo_error : GeoRule → List F64 → Option String

/-- `Bound<String>`. -/
inductive TextBound
  | Included (value : String)
  | Excluded (value : String)
  | Unbounded
  deriving DecidableEq, Repr

/-- A query that is not a boolean one. -/
inductive LeafQuery (DateTime : Type)
  | term (field text : String)
  | synonym (field : String) (terms : List String)
  | phrase (field : String) (positions : List (List String)) (slop : ℕ)
  | graph_phrase (field : String) (arcs : List PhraseArc) (slop : ℕ)
  | fuzzy (field text : String) (max_edits : ℕ)
  | wildcard (query : WildcardQuery)
  | numeric_range (query : NumericRangeQuery)
  | datetime_range (query : DateTimeRangeQuery DateTime)
  | range (field : String) (lower upper : TextBound)
  | geo (field : String) (rule : GeoRule) (args : List F64) (k : Option ℕ)

/-- The field of a query. -/
def LeafQuery.field {DateTime : Type} : LeafQuery DateTime → String
  | .term field _ => field
  | .synonym field _ => field
  | .phrase field _ _ => field
  | .graph_phrase field _ _ => field
  | .fuzzy field _ _ => field
  | .wildcard query => query.field
  | .numeric_range query => query.field
  | .datetime_range query => query.field
  | .range field _ _ => field
  | .geo field _ _ _ => field

/-- A query with its boost; a boolean one has its clauses. -/
inductive ParsedQuery (DateTime : Type)
  | leaf (query : LeafQuery DateTime) (boost : UInt32)
  | boolean (clauses : List (Occur × ParsedQuery DateTime)) (boost : UInt32)

/-- `1.0`, as an `f32`. -/
def NO_BOOST : UInt32 := 0x3F800000

/-- `set_boost`. -/
def ParsedQuery.set_boost {DateTime : Type} : ParsedQuery DateTime → UInt32 → ParsedQuery DateTime
  | .leaf query _, boost => .leaf query boost
  | .boolean clauses _, boost => .boolean clauses boost

/-- `LexicalQueryParser`. -/
structure LexicalQueryParser where
  analyze : String → String → Except LaurusError (List Token)
  default_fields : List String
  default_occur : Occur

namespace LexicalQueryParser

variable {DateTime : Type} (backend : ParserBackend DateTime) (parser : LexicalQueryParser)

/-! ## The kinds of values -/

/-- `create_query_over_fields`. -/
def create_query_over_fields (field : Option String)
    (creator : String → Except LaurusError (ParsedQuery DateTime)) :
    Except LaurusError (ParsedQuery DateTime) :=
  match field with
  | some field_name => creator field_name
  | none =>
    match parser.default_fields with
    | [] => .error (LaurusError.parse "No field specified")
    | [field_name] => creator field_name
    | fields => do
      let clauses ← fields.mapM fun field_name => do
        let q ← creator field_name
        return (Occur.should, q)
      return .boolean clauses NO_BOOST

/-- The number that digits spell. -/
def digits_value (text : String) : ℕ :=
  text.toList.foldl (fun n c => 10 * n + (c.toNat - 48)) 0

/-- `parse_count`. -/
def parse_count (text what : String) : Except LaurusError ℕ :=
  if digits_value text < 2 ^ 32 then .ok (digits_value text)
  else .error (LaurusError.invalid_argument s!"{what} must be at most 4294967295, got {text}")

/-- `parse_boost`, of a boost that there may be. -/
def parse_boost (boost : Option String) : UInt32 :=
  (boost.map fun text => (backend.parse_f32 text).getD NO_BOOST).getD NO_BOOST

/-- `one_position_query`. -/
def one_position_query (field_name : String) (alternatives : List String) (boost : UInt32) :
    ParsedQuery DateTime :=
  match alternatives with
  | [text] => .leaf (.term field_name text) boost
  | _ => .leaf (.synonym field_name alternatives.eraseDups) boost

/-- The name that errors give a call. -/
def geo_name : GeoRule → String
  | .geo3d_distance => "geo3d_distance"
  | .geo3d_bbox => "geo3d_bbox"
  | .geo3d_nearest => "geo3d_nearest"
  | .geo_distance => "geo_distance"
  | .geo_bbox => "geo_bbox"

/-- Whether a call is of `geo3d_query`. -/
def is_geo3d : GeoRule → Bool
  | .geo3d_distance | .geo3d_bbox | .geo3d_nearest => true
  | .geo_distance | .geo_bbox => false

/-- What a call without a field is told. -/
def geo_needs_field (rule : GeoRule) : LaurusError :=
  if is_geo3d rule then
    LaurusError.parse ("3D geo queries require an explicit field prefix " ++
      "(e.g. `position:geo3d_distance(...)`)")
  else
    LaurusError.parse ("2D geo queries require an explicit field prefix " ++
      "(e.g. `location:geo_distance(...)`)")

/-- `collect_signed_floats`. -/
def collect_signed_floats (texts : List String) : Except LaurusError (List F64) :=
  texts.mapM fun s =>
    match backend.parse_f64 s with
    | some v => .ok v
    | none => .error (LaurusError.parse s!"invalid float '{s}'")

/-- The count of `geo3d_nearest`, a `usize`. -/
def parse_k (k : Option String) : Except LaurusError (Option ℕ) :=
  match k with
  | none => .ok none
  | some s =>
    if digits_value s < 2 ^ 64 then .ok (some (digits_value s))
    else .error (LaurusError.parse s!"geo3d_nearest: invalid integer '{s}'")

/-- `parse_geo3d_query` and `parse_geo_query`; the grammar has counted the arguments. -/
def parse_geo_query (field : Option String) (call : GeoCall) :
    Except LaurusError (ParsedQuery DateTime) :=
  match field with
  | none => .error (geo_needs_field call.rule)
  | some field => do
    let args ← collect_signed_floats backend call.floats
    let k ← parse_k call.k
    match backend.geo_error call.rule args with
    | some e => .error (LaurusError.parse s!"invalid {geo_name call.rule} arguments: {e}")
    | none => .ok (.leaf (.geo field call.rule args k) NO_BOOST)

/-- `trim_matches` of quotes. -/
def trim_quotes (value : String) : String :=
  String.ofList (((value.toList.dropWhile (· = '"')).reverse.dropWhile (· = '"')).reverse)

/-- `parse_range_value`. -/
def parse_range_value (value : String) : String := if value = "*" then "*" else trim_quotes value

/-- `describe`. -/
def describe (inclusive : Bool) (lower upper : String) : String :=
  (if inclusive then "[" else "\x7b") ++ lower ++ " TO " ++ upper ++
    (if inclusive then "]" else "\x7d")

/-- `datetime_bound`. -/
def datetime_bound (bound : String) : Option DateTime :=
  if bound = "*" then none else backend.parse_datetime_literal bound

/-- `to_bound`. -/
def to_bound (bound : String) (inclusive : Bool) : TextBound :=
  if bound = "*" then .Unbounded
  else if inclusive then .Included bound
  else .Excluded bound

/-- What `parse_range_query` creates over a field. -/
def range_over_field (inclusive : Bool) (lower upper field_name : String) :
    Except LaurusError (ParsedQuery DateTime) :=
  let lower_num := backend.parse_f64 lower
  let upper_num := backend.parse_f64 upper
  let lower_dt := datetime_bound backend lower
  let upper_dt := datetime_bound backend upper
  if lower_num.isSome ∨ upper_num.isSome then
    if lower_dt.isSome ∨ upper_dt.isSome then
      .error (LaurusError.parse (s!"range {describe inclusive lower upper} on field " ++
        s!"'{field_name}' mixes a numeric bound with a datetime bound"))
    else
      .ok (.leaf (.numeric_range (NumericRangeQuery.new field_name .Float lower_num upper_num
        inclusive inclusive)) NO_BOOST)
  else if lower_dt.isSome ∨ upper_dt.isSome then
    if (lower ≠ "*" ∧ lower_dt.isNone) ∨ (upper ≠ "*" ∧ upper_dt.isNone) then
      .error (LaurusError.parse (s!"range {describe inclusive lower upper} on field " ++
        s!"'{field_name}' mixes a datetime bound with a bound that is not a datetime literal " ++
        "(expected RFC 3339, YYYY-MM-DDTHH:MM:SS[.fff], YYYY-MM-DD, or *)"))
    else
      .ok (.leaf (.datetime_range ⟨field_name, lower_dt, upper_dt, inclusive, inclusive⟩) NO_BOOST)
  else
    .ok (.leaf (.range field_name (to_bound lower inclusive) (to_bound upper inclusive)) NO_BOOST)

/-- `parse_range_query`. -/
def parse_range_query (field : Option String) (inclusive : Bool) (lower upper : String) :
    Except LaurusError (ParsedQuery DateTime) :=
  parser.create_query_over_fields field fun field_name =>
    range_over_field backend inclusive (parse_range_value lower) (parse_range_value upper) field_name

/-- The query of clauses: the clause, if there is one. -/
def of_clauses (clauses : List (ParsedQuery DateTime)) : ParsedQuery DateTime :=
  match clauses with
  | [clause] => clause
  | _ => .boolean (clauses.map fun clause => (.should, clause)) NO_BOOST

/-- The clauses of a graph. -/
def phrase_clauses (field_name : String) (slop : ℕ) (boost : UInt32) :
    PhraseGraph → List (ParsedQuery DateTime)
  | .flat [alternatives] => [one_position_query field_name alternatives boost]
  | .flat positions => [.leaf (.phrase field_name positions slop) boost]
  | .graph direct arcs =>
    (if direct.isEmpty then [] else [one_position_query field_name direct boost]) ++
      if (arcs.zip arcs.tail).all fun pair => pair.1.stop = pair.2.start then
        if arcs.isEmpty then []
        else [.leaf (.phrase field_name (arcs.map PhraseArc.terms) slop) boost]
      else [.leaf (.graph_phrase field_name arcs slop) boost]

/-- What `parse_phrase_query` makes of a field's tokens. -/
def phrase_of_tokens (field_name : String) (slop : ℕ) (boost : UInt32) (tokens : List Token) :
    ParsedQuery DateTime :=
  if tokens.isEmpty then .leaf (.phrase field_name [] 0) boost
  else of_clauses (phrase_clauses field_name slop boost (phrase_graph tokens))

/-- `parse_phrase_query`. -/
def parse_phrase_query (field : Option String) (content : String)
    (proximity boost : Option String) : Except LaurusError (ParsedQuery DateTime) := do
  let slop ← proximity.mapM fun text => parse_count text "phrase slop"
  parser.create_query_over_fields field fun field_name => do
    let tokens ← parser.analyze field_name content
    return phrase_of_tokens field_name (slop.getD 0) (parse_boost backend boost) tokens

/-- `parse_fuzzy_term`. -/
def parse_fuzzy_term (field : Option String) (term : String) (fuzziness boost : Option String) :
    Except LaurusError (ParsedQuery DateTime) := do
  let fuzziness ← fuzziness.mapM fun text => parse_count text "fuzziness"
  parser.create_query_over_fields field fun field_name => do
    let tokens ← parser.analyze field_name term
    let normalized_term := (tokens.head?.map fun token => token.text).getD term
    return .leaf (.fuzzy field_name normalized_term (fuzziness.getD 2)) (parse_boost backend boost)

/-- `parse_wildcard_term`. -/
def parse_wildcard_term (field : Option String) (pattern : String) (boost : Option String) :
    Except LaurusError (ParsedQuery DateTime) :=
  parser.create_query_over_fields field fun field_name =>
    match WildcardQuery.new backend.compile field_name pattern with
    | some query => .ok (.leaf (.wildcard query) (parse_boost backend boost))
    | none => .error (LaurusError.analysis "Invalid wildcard pattern")

/-- What `parse_simple_term` makes of a field's tokens. -/
def term_of_tokens (field_name : String) (boost : UInt32) (tokens : List Token) :
    ParsedQuery DateTime :=
  if tokens.isEmpty then .leaf (.phrase field_name [] 0) boost
  else
    match group_tokens_by_position tokens with
    | [alternatives] => one_position_query field_name alternatives boost
    | positions => .boolean (positions.map fun alternatives =>
        (.should, one_position_query field_name alternatives NO_BOOST)) boost

/-- `parse_simple_term`. -/
def parse_simple_term (field : Option String) (term : String) (boost : Option String) :
    Except LaurusError (ParsedQuery DateTime) :=
  parser.create_query_over_fields field fun field_name => do
    let tokens ← parser.analyze field_name term
    return term_of_tokens field_name (parse_boost backend boost) tokens

/-- `parse_field_value`. -/
def parse_field_value (field : Option String) :
    ClauseValue → Except LaurusError (ParsedQuery DateTime)
  | .geo call => parse_geo_query backend field call
  | .range inclusive lower upper => parser.parse_range_query backend field inclusive lower upper
  | .phrase content proximity boost =>
    parser.parse_phrase_query backend field content proximity boost
  | .fuzzy term fuzziness boost => parser.parse_fuzzy_term backend field term fuzziness boost
  | .wildcard pattern boost => parser.parse_wildcard_term backend field pattern boost
  | .simple term boost => parser.parse_simple_term backend field term boost

/-! ## Clauses -/

/-- The occur of an operator. -/
def operator_occur (op : String) : Occur :=
  if (op.toList.map Char.toUpper) = ['A', 'N', 'D'] then .must else .should

/-- `AND` makes the clause before it required too, but one with a sign. -/
def promote_last (terms : List (Occur × ParsedQuery DateTime)) :
    List (Occur × ParsedQuery DateTime) :=
  terms.modify (terms.length - 1) fun last =>
    if last.1 = .should then (.must, last.2) else last

/-- The occur of a clause. -/
def clause_occur (sign : ClauseSign) (default_occur : Occur) : Occur :=
  match sign with
  | .required => .must
  | .prohibited => .must_not
  | .sub => default_occur

/-- The end of `parse_boolean_query`. -/
def of_terms (terms : List (Occur × ParsedQuery DateTime)) : ParsedQuery DateTime :=
  match terms with
  | [(occur, query)] => if occur = .must_not then .boolean terms NO_BOOST else query
  | _ => .boolean terms NO_BOOST

mutual

/-- `parse_sub_clause`, of an item that is a clause. -/
def parse_sub_clause : QueryItem → Except LaurusError (ParsedQuery DateTime)
  | .boolean_op _ => .error (LaurusError.parse "Invalid clause")
  | .value _ field value => parser.parse_field_value backend field value
  | .grouped _ items boost => do
    let terms ← parse_items items parser.default_occur []
    let query := of_terms terms
    let boost := parse_boost backend boost
    return if boost ≠ NO_BOOST then query.set_boost boost else query

/-- The loop of `parse_boolean_query`. -/
def parse_items : List QueryItem → Occur → List (Occur × ParsedQuery DateTime) →
    Except LaurusError (List (Occur × ParsedQuery DateTime))
  | [], _, terms => .ok terms
  | item :: items, current_occur, terms =>
    match item with
    | .boolean_op op =>
      parse_items items (operator_occur op)
        (if operator_occur op = .must then promote_last terms else terms)
    | .value sign field value => do
      let query ← parse_sub_clause (.value sign field value)
      parse_items items parser.default_occur (terms ++ [(clause_occur sign current_occur, query)])
    | .grouped sign nested boost => do
      let query ← parse_sub_clause (.grouped sign nested boost)
      parse_items items parser.default_occur (terms ++ [(clause_occur sign current_occur, query)])

end

/-- `parse_boolean_query`. -/
def parse_boolean_query (items : List QueryItem) : Except LaurusError (ParsedQuery DateTime) := do
  let terms ← parser.parse_items backend items parser.default_occur []
  return of_terms terms

/-- `parse`. -/
def parse (query_str : String) : Except LaurusError (ParsedQuery DateTime) :=
  match Grammar.query backend.classes query_str.toList with
  | some items => parser.parse_boolean_query backend items
  | none => .error (LaurusError.parse "Parse error")

/-- `replace('"', "\\\"")`. -/
def escape_quotes (text : List Char) : List Char :=
  text.flatMap fun c => if c = '"' then ['\\', '"'] else [c]

/-- What `parse_field` has parsed. -/
def full_query (field query_str : String) : String :=
  if query_str.toList.contains ' ' ∧ query_str.toList.head? ≠ some '"' then
    String.ofList (field.toList ++ [':', '"'] ++ escape_quotes query_str.toList ++ ['"'])
  else String.ofList (field.toList ++ ':' :: query_str.toList)

/-- `parse_field`. -/
def parse_field (field query_str : String) : Except LaurusError (ParsedQuery DateTime) :=
  parser.parse backend (full_query field query_str)

end LexicalQueryParser

end Laurus
