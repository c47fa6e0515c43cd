import Laurus.Common.Peg

/-!
# The grammar of queries (`lexical/query/parser.pest`)

Each rule is a parsing expression that returns what the parser reads of its pair. `pest`
skips whitespace between the parts of a rule that is not atomic (`@`). The general
categories `LETTER` and `NUMBER` are a parameter.
-/

namespace Laurus

/-- `LETTER` and `NUMBER`, with what they are of ASCII. -/
structure UnicodeClasses where
  letter : Char → Bool
  number : Char → Bool
  letter_ascii : ∀ c : Char, c.toNat < 128 → letter c = c.isAlpha
  number_ascii : ∀ c : Char, c.toNat < 128 → number c = c.isDigit

/-- The calls that the grammar has for geographic queries. -/
inductive GeoRule
  | geo3d_distance | geo3d_bbox | geo3d_nearest | geo_distance | geo_bbox
  deriving DecidableEq, Repr

/-- A call: its numbers, and the count of `geo3d_nearest`. -/
structure GeoCall where
  rule : GeoRule
  floats : List String
  k : Option String
  deriving DecidableEq, Repr

/-- `field_value`. -/
inductive ClauseValue
  | geo (call : GeoCall)
  | range (inclusive : Bool) (lower upper : String)
  | phrase (content : String) (proximity boost : Option String)
  | fuzzy (term : String) (fuzziness boost : Option String)
  | wildcard (pattern : String) (boost : Option String)
  | simple (term : String) (boost : Option String)
  deriving DecidableEq, Repr

/-- `clause`: its sign. -/
inductive ClauseSign
  | sub | required | prohibited
  deriving DecidableEq, Repr

/-- What stands in a `boolean_query`: a `boolean_op`, or a `clause` with its `sub_clause`. -/
inductive QueryItem
  | boolean_op (op : String)
  | value (sign : ClauseSign) (field : Option String) (value : ClauseValue)
  | grouped (sign : ClauseSign) (items : List QueryItem) (boost : Option String)

namespace Grammar

/-- A rule. -/
abbrev Rule := Peg Char

/-- `WHITESPACE`. -/
def is_whitespace (c : Char) : Bool := c = ' ' ∨ c = '\t' ∨ c = '\n' ∨ c = '\r'

/-- What is skipped between the parts of a rule. -/
def skip : Rule (List Char) := Peg.span is_whitespace

/-- A literal. -/
def lit (w : String) : Rule Unit := Peg.word (fun c d => c = d) w.toList

/-- A literal in letters of either case. -/
def lit_any_case (w : String) : Rule Unit := Peg.word (fun c d => c.toLower = d.toLower) w.toList

/-- Any character. -/
def any : Rule Char := Peg.item fun _ => true

/-- The text of a pair. -/
def as_str {α : Type} (rule : Rule α) : Rule String := String.ofList <$> Peg.text rule

/-- A repetition in a rule that is not atomic. -/
def star {α : Type} (rule : Rule α) : Rule (List α) :=
  (do
    let a ← rule
    let as ← Peg.many (do
      let _ ← skip
      rule)
    return a :: as) <|> pure []

/-- `number`. -/
def number : Rule String := as_str (Peg.span_one Char.isDigit)

/-- `unsigned_int`. -/
def unsigned_int : Rule String := number

/-- `boost_value`. -/
def boost_value : Rule String := as_str do
  let _ ← number
  Peg.optional do
    lit "."
    number

/-- `boost`. -/
def boost : Rule String := do
  lit "^"
  let _ ← skip
  boost_value

/-- `boost?`, after what may be skipped. -/
def boosted : Rule (Option String) := do
  let _ ← skip
  Peg.optional boost

/-- `signed_float`. -/
def signed_float : Rule String := as_str do
  let _ ← Peg.optional (lit "-")
  let _ ← number
  let _ ← Peg.optional do
    lit "."
    number
  Peg.optional do
    lit_any_case "e"
    let _ ← Peg.optional (lit "+" <|> lit "-")
    number

/-! ## Geographic queries -/

/-- `signed_float ~ ","`, so many times. -/
def floats : ℕ → Rule (List String)
  | 0 => pure []
  | count + 1 => do
    let x ← signed_float
    let _ ← skip
    lit ","
    let _ ← skip
    let xs ← floats count
    return x :: xs

/-- A call of numbers only. -/
def float_call (name : String) (rule : GeoRule) (count : ℕ) : Rule ClauseValue := do
  lit_any_case name
  let _ ← skip
  lit "("
  let _ ← skip
  let xs ← floats (count - 1)
  let x ← signed_float
  let _ ← skip
  lit ")"
  return .geo ⟨rule, xs ++ [x], none⟩

/-- `geo3d_distance`. -/
def geo3d_distance : Rule ClauseValue := float_call "geo3d_distance" .geo3d_distance 4

/-- `geo3d_bbox`. -/
def geo3d_bbox : Rule ClauseValue := float_call "geo3d_bbox" .geo3d_bbox 6

/-- `geo3d_nearest`. -/
def geo3d_nearest : Rule ClauseValue := do
  lit_any_case "geo3d_nearest"
  let _ ← skip
  lit "("
  let _ ← skip
  let xs ← floats 3
  let k ← unsigned_int
  let _ ← skip
  lit ")"
  return .geo ⟨.geo3d_nearest, xs, some k⟩

/-- `geo3d_query`. -/
def geo3d_query : Rule ClauseValue := geo3d_distance <|> geo3d_bbox <|> geo3d_nearest

/-- `geo_distance`. -/
def geo_distance : Rule ClauseValue := float_call "geo_distance" .geo_distance 3

/-- `geo_bbox`. -/
def geo_bbox : Rule ClauseValue := float_call "geo_bbox" .geo_bbox 4

/-- `geo_query`. -/
def geo_query : Rule ClauseValue := geo_distance <|> geo_bbox

/-! ## Ranges and phrases -/

/-- `quoted_content`, and `phrase_content`. -/
def quoted_content : Rule String := String.ofList <$> Peg.span (· ≠ '"')

/-- `quoted_string`. -/
def quoted_string : Rule Unit := do
  lit "\""
  let _ ← skip
  let _ ← quoted_content
  let _ ← skip
  lit "\""

/-- A character of `unquoted_value`. -/
def unquoted_char : Rule Char := do
  Peg.absent (Peg.item is_whitespace)
  Peg.absent (lit "TO")
  Peg.absent (lit "]")
  Peg.absent (lit "\x7d")
  any

/-- `range_value`. -/
def range_value : Rule String := as_str <|
  lit "*" <|> quoted_string <|> (fun _ => ()) <$> Peg.many_one unquoted_char

/-- `range_inclusive` and `range_exclusive`, between their brackets. -/
def range_between (inclusive : Bool) (left right : String) : Rule ClauseValue := do
  lit left
  let _ ← skip
  let lower ← range_value
  let _ ← skip
  lit_any_case "TO"
  let _ ← skip
  let upper ← range_value
  let _ ← skip
  lit right
  return .range inclusive lower upper

/-- `range_inclusive`. -/
def range_inclusive : Rule ClauseValue := range_between true "[" "]"

/-- `range_exclusive`. -/
def range_exclusive : Rule ClauseValue := range_between false "\x7b" "\x7d"

/-- `range_query`. -/
def range_query : Rule ClauseValue := range_inclusive <|> range_exclusive

/-- `proximity`. -/
def proximity : Rule String := do
  lit "~"
  let _ ← skip
  number

/-- `phrase_query`. -/
def phrase_query : Rule ClauseValue := do
  lit "\""
  let _ ← skip
  let content ← quoted_content
  let _ ← skip
  lit "\""
  let _ ← skip
  let proximity ← Peg.optional proximity
  let boost ← boosted
  return .phrase content proximity boost

/-! ## Terms -/

section Terms

variable (classes : UnicodeClasses)

/-- `LETTER | NUMBER | "_"`. -/
def is_word_char (c : Char) : Bool := classes.letter c || classes.number c || c == '_'

/-- `normal_char`, and what `unescaped_term` repeats. -/
def is_normal_char (c : Char) : Bool := is_word_char classes c || c == '-' || c == '\''

/-- `special_char`. -/
def is_special_char (c : Char) : Bool :=
  ['+', '-', '!', '(', ')', '\x7b', '\x7d', '[', ']', '^', '"', '~', '*', '?', ':', '\\',
    '/'].contains c

/-- `escaped_char`. -/
def escaped_char : Rule Char :=
  (do
    lit "\\"
    Peg.item is_special_char) <|> Peg.item (is_normal_char classes)

/-- `unescaped_term`. -/
def unescaped_term : Rule (List Char) := Peg.span_one (is_normal_char classes)

/-- `term`. -/
def term : Rule String := as_str <| Peg.many_one (escaped_char classes) <|> unescaped_term classes

/-- `fuzzy_term`, with `fuzziness`. -/
def fuzzy_term : Rule ClauseValue := do
  let term ← term classes
  let _ ← skip
  lit "~"
  let _ ← skip
  let fuzziness ← Peg.optional number
  let boost ← boosted
  return .fuzzy term fuzziness boost

/-- `wildcard_char`. -/
def is_wildcard_char (c : Char) : Bool := c == '?' || c == '*'

/-- `wildcard_pattern`. -/
def wildcard_pattern : Rule String := as_str do
  let _ ← Peg.span (is_word_char classes)
  let _ ← Peg.item is_wildcard_char
  Peg.span fun c => is_word_char classes c || is_wildcard_char c

/-- `wildcard_term`. -/
def wildcard_term : Rule ClauseValue := do
  let pattern ← wildcard_pattern classes
  let boost ← boosted
  return .wildcard pattern boost

/-- `simple_term`. -/
def simple_term : Rule ClauseValue := do
  let term ← term classes
  let boost ← boosted
  return .simple term boost

/-- `field_value`. -/
def field_value : Rule ClauseValue :=
  geo3d_query <|> geo_query <|> range_query <|> phrase_query <|> fuzzy_term classes <|>
    wildcard_term classes <|> simple_term classes

/-! ## Clauses -/

/-- `ASCII_ALPHA | "_"`. -/
def starts_field (c : Char) : Bool := c.isAlpha || c == '_'

/-- `ASCII_ALPHANUMERIC | "_" | "."`. -/
def in_field (c : Char) : Bool := c.isAlphanum || c == '_' || c == '.'

/-- `field`. -/
def field : Rule String := as_str do
  let _ ← Peg.item starts_field
  Peg.span in_field

/-- `field_query`. -/
def field_query (sign : ClauseSign) : Rule QueryItem := do
  let field ← field
  let _ ← skip
  lit ":"
  let _ ← skip
  let value ← field_value classes
  return .value sign (some field) value

/-- `term_query`. -/
def term_query (sign : ClauseSign) : Rule QueryItem := do
  let value ← field_value classes
  return .value sign none value

/-- `grouped_query`, around a `boolean_query`. -/
def grouped_query (boolean_query : Rule (List QueryItem)) (sign : ClauseSign) : Rule QueryItem := do
  lit "("
  let _ ← skip
  let items ← boolean_query
  let _ ← skip
  lit ")"
  let boost ← boosted
  return .grouped sign items boost

/-- `sub_clause`. -/
def sub_clause (boolean_query : Rule (List QueryItem)) (sign : ClauseSign) : Rule QueryItem :=
  grouped_query boolean_query sign <|> field_query classes sign <|> term_query classes sign

/-- `required_clause` and `prohibited_clause`. -/
def signed_clause (boolean_query : Rule (List QueryItem)) (mark : String) (sign : ClauseSign) :
    Rule QueryItem := do
  lit mark
  let _ ← skip
  sub_clause classes boolean_query sign

/-- `clause`. -/
def clause (boolean_query : Rule (List QueryItem)) : Rule QueryItem :=
  signed_clause classes boolean_query "+" .required <|>
    signed_clause classes boolean_query "-" .prohibited <|> sub_clause classes boolean_query .sub

/-- `boolean_op`. -/
def boolean_op : Rule QueryItem :=
  QueryItem.boolean_op <$> as_str (lit_any_case "AND" <|> lit_any_case "OR")

/-- `boolean_op ~ clause | clause`. -/
def joined_clause (boolean_query : Rule (List QueryItem)) : Rule (List QueryItem) :=
  (do
    let op ← boolean_op
    let _ ← skip
    let c ← clause classes boolean_query
    return [op, c]) <|> (do
    let c ← clause classes boolean_query
    return [c])

/-- `boolean_query`, groups nested fewer than `fuel` deep. -/
def boolean_query : ℕ → Rule (List QueryItem)
  | 0 => Peg.never
  | fuel + 1 => do
    let first ← clause classes (boolean_query fuel)
    let _ ← skip
    let more ← star (joined_clause classes (boolean_query fuel))
    return first :: more.flatten

/-- `query`, between `SOI` and `EOI`: a group takes a character of the text. -/
def query (text : List Char) : Option (List QueryItem) :=
  match (do
    let _ ← skip
    let items ← boolean_query classes (text.length + 1)
    let _ ← skip
    return items : Rule (List QueryItem)).run text with
  | some (items, []) => some items
  | _ => none

end Terms

end Grammar

end Laurus
