import Laurus.Analysis.Model.Token
import Laurus.Lexical.Model.Phrase

/-!
# The graph of a quoted value (`lexical/query/parser.rs`, `phrase_graph`)

A token is an arc; arcs with the same ends are one position of alternatives.
-/

namespace Laurus

/-!
## Terms of text fields (`lexical/index/inverted/writer.rs`)

What a text or an array of texts is indexed as, and the posting of a term. An analyzer's
tokens are given, so its errors and those of its setting per field are left out.
-/

/-- `AnalyzedTerm`. -/
structure AnalyzedTerm where
  term : String
  position : ℕ
  frequency : ℕ
  offset : ℕ × ℕ
  deriving DecidableEq, Repr

/-- What the loop of `tokens_to_analyzed_terms` keeps. -/
structure TermCollector where
  term_frequencies : String → ℕ
  analyzed_terms : List AnalyzedTerm
  /-- `TokenPositions`. -/
  current : Option ℕ
  current_position_start : ℕ

namespace TermCollector

/-- The state before any token. -/
def start : TermCollector where
  term_frequencies _ := 0
  analyzed_terms := []
  current := none
  current_position_start := 0

/-- One turn of the loop. -/
def step (collector : TermCollector) (token : Token) : TermCollector :=
  let position := assign collector.current token
  let current_position_start :=
    if collector.analyzed_terms.getLast?.any fun last => last.position ≠ position then
      collector.analyzed_terms.length
    else collector.current_position_start
  if (collector.analyzed_terms.drop current_position_start).any fun t => t.term = token.text then
    { collector with current := some position, current_position_start }
  else
    let frequency := collector.term_frequencies token.text + 1
    { term_frequencies := Function.update collector.term_frequencies token.text frequency
      analyzed_terms := collector.analyzed_terms ++
        [⟨token.text, position, frequency, (token.start_offset, token.end_offset)⟩]
      current := some position
      current_position_start }

end TermCollector

/-- `tokens_to_analyzed_terms`. -/
def tokens_to_analyzed_terms (tokens : List Token) : List AnalyzedTerm :=
  ((flatten_token_graph tokens).foldl TermCollector.step TermCollector.start).analyzed_terms

/-- The positions that an element's terms take. -/
def element_span (element_terms : List AnalyzedTerm) : ℕ :=
  (element_terms.getLast?.map fun last => u32_saturating_add last.position 1).getD 0

/-- The loop over a `TextArray`, from an index on, where an element's tokens stand for it. -/
def text_array_loop (position_increment_gap : ℕ) : ℕ → ℕ → List (List Token) → List AnalyzedTerm
  | _, _, [] => []
  | idx, base, tokens :: rest =>
    let base := if 0 < idx then u32_saturating_add base position_increment_gap else base
    let element_terms := tokens_to_analyzed_terms tokens
    (element_terms.map fun term =>
      { term with position := u32_saturating_add term.position base }) ++
      text_array_loop position_increment_gap (idx + 1)
        (u32_saturating_add base (element_span element_terms)) rest

/-- `analyze_field_value` of a `TextArray`. -/
def text_array_terms (position_increment_gap : ℕ) (elements : List (List Token)) :
    List AnalyzedTerm :=
  text_array_loop position_increment_gap 0 0 elements

/-- The posting of a term of a document's field, as `add_analyzed_document_to_index` adds it. -/
def field_posting (store_positions : Bool) (doc_id : ℕ) (terms : List AnalyzedTerm)
    (term : String) : Option TermPosting :=
  let occurrences := terms.filter fun t => t.term = term
  if occurrences.isEmpty then none
  else if store_positions then
    some ⟨doc_id, occurrences.length, occurrences.map AnalyzedTerm.position⟩
  else
    some ⟨doc_id, match occurrences with
      | [only] => only.frequency
      | _ => occurrences.length, []⟩

/-- `PhraseGraph`. -/
inductive PhraseGraph
  | flat (positions : List (List String))
  | graph (direct : List String) (arcs : List PhraseArc)
  deriving DecidableEq, Repr

/-- A text among alternatives, each once. -/
def add_alternative (alternatives : List String) (text : String) : List String :=
  if text ∈ alternatives then alternatives else alternatives ++ [text]

/-- The alternatives of each arc, in the order of the arcs. -/
def arc_alternatives (tokens : List Token) : List PhraseArc :=
  ((gather_into (fun acc text => add_alternative (acc.getD []) text) ∅
    ((token_arcs tokens).zip (tokens.map fun token => token.text))).entries.map
      fun e => (⟨e.1.1, e.1.2, e.2⟩ : PhraseArc)).insertionSort PhraseArc.le

/-- One turn of `group_tokens_by_position`: the position before, and the groups. -/
def group_step (state : Option ℕ × List (List String)) (entry : Token × ℕ) :
    Option ℕ × List (List String) :=
  let groups := if state.1 = some entry.2 then state.2 else state.2 ++ [[]]
  (some entry.2, groups.modify (groups.length - 1) fun alternatives =>
    add_alternative alternatives entry.1.text)

/-- `group_tokens_by_position`. -/
def group_tokens_by_position (tokens : List Token) : List (List String) :=
  let flat := flatten_token_graph tokens
  ((flat.zip (token_positions flat)).foldl group_step (none, [])).2

/-- `phrase_graph`, of one token at least. -/
def phrase_graph (tokens : List Token) : PhraseGraph :=
  let first := ((token_arcs tokens).head?.map Prod.fst).getD 0
  let last := (((arc_alternatives tokens).map PhraseArc.stop).max?).getD first
  let arcs := complete_paths (arc_alternatives tokens) first last
  if arcs.isEmpty then .flat (group_tokens_by_position tokens)
  else
    let last := last_node arcs
    .graph ((arcs.filter fun arc => arc.start = 0 ∧ arc.stop = last).flatMap PhraseArc.terms)
      (arcs.filter fun arc => ¬(arc.start = 0 ∧ arc.stop = last))

end Laurus
